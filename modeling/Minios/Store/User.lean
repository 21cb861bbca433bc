import Minios.Store.Invariant

/-! Cache, pins, log and disk: every step outside `commit()` keeps the invariant. -/

namespace Minios.Store
open Schemes Function
open Log (Var Instr InLog)

section
variable {start size : ℕ} {s t : Sys} {p : ℕ} {i j : Fin NBUF}

/-! ### `bread`: choosing a buffer -/

/-- What `bget` did to the cache when it gave process `p` buffer `i` for block `b`: nothing the
    invariant speaks of if the block was cached, else it recycled an unused buffer. -/
structure Chosen (s : Sys) (bio : Bio.Sys) (p b : ℕ) (i : Fin NBUF) : Prop where
  calls : bio.calls = ⟨p, i, .waiting⟩ :: s.bio.calls
  pins : bio.pins = s.bio.pins
  other : ∀ j, j ≠ i → bio.cache.buf j = s.buf j
  dev : (bio.cache.buf i).dev = ROOTDEV
  blockno : (bio.cache.buf i).blockno = b
  cases : (Same (s.buf i) (bio.cache.buf i) ∧ (s.buf i).dev = ROOTDEV ∧ (s.buf i).blockno = b) ∨
    ((s.buf i).refcnt = 0 ∧ (bio.cache.buf i).valid = false ∧ (bio.cache.buf i).lock = (s.buf i).lock ∧
      ∀ j, ¬ ((s.buf j).dev = ROOTDEV ∧ (s.buf j).blockno = b))

theorem Inv.bget_cases (h : Inv start size s) {bio : Bio.Sys} {b : ℕ}
    (hb : Bio.step s.bio (.bget p ROOTDEV b) = some bio) :
    (Bio.bget s.bio.cache ROOTDEV b = none ∧ bio = { s.bio with panicked := true }) ∨
    ∃ c i, Bio.bget s.bio.cache ROOTDEV b = some (c, i) ∧ Chosen s bio p b i := by
  obtain ⟨xs, hxs⟩ := h.bio.ring
  rw [Bio.step] at hb
  split at hb
  · cases hb
  rcases Bio.bget_cases hxs ROOTDEV b with ⟨k, hd, hk, he⟩ | ⟨hmiss, ⟨k, h0, -, he⟩ | ⟨-, he⟩⟩
  · rw [he] at hb
    cases hb
    refine Or.inr ⟨_, k, he, rfl, rfl, fun j hj => Bio.modify_buf_ne _ _ hj, ?_, ?_, Or.inl ⟨?_, hd, hk⟩⟩
    · rw [Bio.modify_buf_self]; exact hd
    · rw [Bio.modify_buf_self]; exact hk
    · rw [Bio.modify_buf_self]; rfl
  · rw [he] at hb
    cases hb
    refine Or.inr ⟨_, k, he, rfl, rfl, fun j hj => Bio.modify_buf_ne _ _ hj, ?_, ?_,
      Or.inr ⟨h0, ?_, ?_, hmiss⟩⟩ <;> rw [Bio.modify_buf_self] <;> rfl
  · rw [he] at hb
    cases hb
    exact Or.inl ⟨he, rfl⟩

theorem Inv.lock_none (h : Inv start size s) (h0 : (s.buf i).refcnt = 0) : (s.buf i).lock = none := by
  cases hl : (s.buf i).lock with
  | none => rfl
  | some p => exact absurd rfl ((h.unused h0).1 _ ((h.own i).lock p hl))

theorem Chosen.own (h : Inv start size s) {b : ℕ} (hc : Chosen s t.bio p b i) (hlog : t.log = s.log)
    (hcontent : t.content = s.content) (hholds : t.CommitHolds i ↔ s.CommitHolds i)
    (hseen : t.seen = s.seen) (hlogged : t.logged = s.logged)
    (hreq : t.req = update s.req p (update (s.req p) i b)) : Own t i := by
  have hi := h.own i
  have hdev : (t.buf i).dev = ROOTDEV := hc.dev
  have hblk : (t.buf i).blockno = b := hc.blockno
  have htodo : ∀ x, s.Todo x → t.Todo x := fun x hx q => by rw [hlog]; exact hx q
  have hasked : ∀ c ∈ t.bio.calls, c.buf = i → (s.buf i).blockno = b ∨ (s.buf i).refcnt = 0 →
      t.req c.pid i = (t.buf i).blockno := by
    intro c hcm hci hor
    rw [hreq, hblk]
    rcases eq_or_ne c.pid p with hp | hp
    · rw [hp, update_self, update_self]
    · rw [update_of_ne hp]
      rw [hc.calls] at hcm
      rcases List.mem_cons.mp hcm with rfl | hcm
      · exact absurd rfl hp
      · rcases hor with hor | h0
        · rw [hi.asked c hcm hci, hor]
        · exact absurd hci ((h.unused h0).1 c hcm)
  rcases hc.cases with ⟨hsame, hd, hb⟩ | ⟨h0, hv, hl, hmiss⟩
  · have hk : (t.buf i).lock = (s.buf i).lock := by rw [Sys.buf, hsame]
    have hv : (t.buf i).valid = (s.buf i).valid := by rw [Sys.buf, hsame]
    have hx : (t.buf i).data = (s.buf i).data := by rw [Sys.buf, hsame]
    have hu : t.UserHolds i ↔ s.UserHolds i := by rw [Sys.UserHolds, Sys.UserHolds, hk, hholds]
    refine ⟨Or.inl hdev, fun q hq => ?_, fun c hcm hci => hasked c hcm hci (Or.inl hb), fun _ => ?_,
      fun hvt hut => ?_, fun hvt hut => ?_, fun hut hlt => ?_⟩
    · rw [hc.calls]
      exact List.mem_cons_of_mem _ (hi.lock q (hk ▸ hq))
    · rw [hc.pins, hblk, hlog, hi.pins hd, hb]
    · rw [hx, hcontent, hblk, ← hb]
      exact hi.cached (hv ▸ hvt) fun hus => hut (hu.mpr hus)
    · rw [hseen, hcontent, hblk, ← hb]
      exact hi.seen (hv ▸ hvt) (hu.mp hut)
    · rw [hlogged] at hlt
      rw [hblk, ← hb, hlog]
      obtain ⟨h1, h2⟩ := hi.logged (hu.mp hut) hlt
      exact ⟨h1, htodo _ h2⟩
  · -- recycled: nothing about the old block remains
    have hnl : (t.buf i).lock = none := hl.trans (h.lock_none h0)
    have hnv : (t.buf i).valid ≠ true := by rw [Sys.buf, hv]; simp
    refine ⟨Or.inl hdev, fun q hq => ?_, fun c hcm hci => hasked c hcm hci (Or.inr h0), fun _ => ?_,
      fun hvt => absurd hvt hnv, fun hvt => absurd hvt hnv, fun hut => absurd hnl hut.1⟩
    · rw [hnl] at hq; cases hq
    · rw [hc.pins, (h.unused h0).2, hblk, hlog]
      by_contra hne
      obtain ⟨j, hjd, hjb, -⟩ := h.pinned b (Nat.pos_of_ne_zero fun he => hne he.symm)
      exact hmiss j ⟨hjd, hjb⟩

theorem inv_bread (h : Inv start size s) (hu : s.user p = true) {b : ℕ}
    (ht : bread s p b (fun t _ => t) = some t) : Inv start size t := by
  rw [bread, Option.map_eq_some_iff] at ht
  obtain ⟨bio, hb, rfl⟩ := ht
  rcases h.bget_cases hb with ⟨hnone, rfl⟩ | ⟨c, i, hsome, hch⟩
  · rw [hnone]
    exact h.user (p := p) (i := 0) ⟨hu, ⟨_, hb⟩, rfl, rfl, rfl, rfl, rfl, rfl, fun _ _ => Iff.rfl,
      fun _ _ => ⟨rfl, rfl, rfl, fun _ => rfl⟩, fun _ => Same.of_eq rfl, fun _ hv => hv,
      fun _ => Or.inl rfl, fun _ hb => hb,
      (h.own 0).like ⟨Same.of_eq rfl, fun _ _ => Iff.rfl, rfl, fun _ => rfl, fun _ _ ht => ht,
        fun _ => rfl, Iff.rfl, rfl, rfl, fun _ => rfl⟩⟩
  · simp only [hsome]
    refine h.user (p := p) (i := i) ⟨hu, ⟨_, hb⟩, rfl, rfl, rfl, rfl, rfl, hch.pins, fun c hc => ?_,
      fun j hj => ⟨hch.other j hj, rfl, rfl, fun q => ?_⟩, fun hi => ?_, fun hpos hv => ?_,
      fun _ => Or.inl rfl, fun _ hb => hb, hch.own h rfl rfl Iff.rfl rfl rfl rfl⟩
    · rw [hch.calls, List.mem_cons]
      refine or_iff_right fun he => ?_
      subst he
      rcases hc with hc | hc <;> exact hc rfl
    · rcases eq_or_ne q p with rfl | hq
      · simp [hj]
      · simp [hq]
    · rcases hch.cases with ⟨hsame, -, -⟩ | ⟨h0, -, -, -⟩
      · exact hsame
      · -- `commit()` does not hold an unused buffer
        exfalso
        cases hc : s.log.committing with
        | false => exact h.not_commitHolds hc hi
        | true =>
          obtain ⟨q, regs, wrote, rest, hq, -⟩ := h.log.busy hc
          have := h.commitHolds hq hi
          rw [h.lock_none h0] at this
          cases this
    · rcases hch.cases with ⟨hsame, -, -⟩ | ⟨h0, -, -, -⟩
      · rw [Sys.buf, hsame]; exact hv
      · omega

/-! ### The other steps on one buffer -/

theorem mem_advance {calls : List Bio.Call} {a b : Bio.Stage} {c : Bio.Call}
    (hc : c.pid ≠ p ∨ c.buf ≠ i) : c ∈ Bio.advance calls p i a b ↔ c ∈ calls := by
  have hne : ∀ st, c ≠ ⟨p, i, st⟩ := by
    rintro st rfl
    rcases hc with hc | hc <;> exact hc rfl
  rw [Bio.advance, List.mem_cons, List.mem_erase_of_ne (hne a)]
  exact or_iff_right (hne b)

/-- The block each call asked for, when calls only move on. -/
theorem Inv.asked_advance (h : Inv start size s) {a b : Bio.Stage} (hc : ⟨p, i, a⟩ ∈ s.bio.calls)
    {c : Bio.Call} (hm : c ∈ Bio.advance s.bio.calls p i a b) (hci : c.buf = i) :
    s.req c.pid i = (s.buf i).blockno := by
  rcases List.mem_cons.mp hm with rfl | hm
  · exact (h.own i).asked ⟨p, i, a⟩ hc rfl
  · exact (h.own i).asked c (List.mem_of_mem_erase hm) hci

theorem inv_acquire (h : Inv start size s) (ht : step s (.acquire p i) = some t) :
    Inv start size t := by
  simp only [step, Bio.step, Option.ite_none_right_eq_some, Option.map_eq_some_iff,
    Option.some.injEq] at ht
  obtain ⟨hu, bio, ⟨⟨hpan, hcall, hlock⟩, rfl⟩, rfl⟩ := ht
  have hi := h.own i
  have hnu : ¬ s.UserHolds i := fun hus => hus.1 hlock
  have hnc : ¬ s.CommitHolds i := fun hci => by
    cases hc : s.log.committing with
    | false => exact h.not_commitHolds hc hci
    | true =>
      obtain ⟨q, regs, wrote, rest, hq, -⟩ := h.log.busy hc
      have := h.commitHolds hq hci
      rw [Sys.buf, hlock] at this
      cases this
  refine h.user (p := p) (i := i) ⟨hu, ⟨.acquire p i, by simp [Bio.step, hpan, hcall, hlock]⟩, rfl, rfl,
    rfl, rfl, rfl, rfl, fun c hc => mem_advance hc, fun j hj => ?_, fun hci => absurd hci hnc,
    fun _ hv => ?_, fun _ => Or.inl rfl, fun _ hb => hb, ?_⟩
  · exact ⟨Bio.modify_buf_ne _ _ hj, update_of_ne hj .., update_of_ne hj .., fun _ => rfl⟩
  · simpa [Sys.buf, Bio.Buf.setLock] using hv
  · have hd := h.dev_of_call hcall
    refine ⟨Or.inl ?_, fun q hq => ?_, fun c hm hci => ?_, fun _ => ?_, fun hv hut => ?_, fun hv hut => ?_,
      fun _ hl => ?_⟩
    · simpa [Sys.buf, Bio.Buf.setLock] using hd
    · have : p = q := by simpa [Sys.buf, Bio.Buf.setLock] using hq
      subst this
      exact List.mem_cons_self ..
    · simpa [Sys.buf, Bio.Buf.setLock] using h.asked_advance hcall hm hci
    · simpa [Sys.buf, Bio.Buf.setLock] using hi.pins hd
    · exact absurd ⟨by simp [Sys.buf, Bio.Buf.setLock], hnc⟩ hut
    · have := hi.cached (by simpa [Sys.buf, Bio.Buf.setLock] using hv) hnu
      simpa [Sys.buf, Bio.Buf.setLock] using this
    · simp at hl

theorem inv_fill (h : Inv start size s) (ht : step s (.fill p i) = some t) : Inv start size t := by
  simp only [step, Bio.step, Option.ite_none_right_eq_some, Option.map_eq_some_iff,
    Option.some.injEq] at ht
  obtain ⟨hu, bio, ⟨⟨hpan, hlock, hval⟩, rfl⟩, rfl⟩ := ht
  have hi := h.own i
  have hus := h.userHolds hu hlock
  have hd := h.dev_of_lock hlock
  refine h.user (p := p) (i := i) ⟨hu, ⟨.fill p i _, by simp [Bio.step, hpan, hlock, hval]; rfl⟩, rfl, rfl,
    rfl, rfl, rfl, rfl, fun c hc => Iff.rfl, fun j hj => ?_, fun hci => absurd hci hus.2,
    fun _ _ => ?_, fun _ => Or.inl rfl, fun _ hb => hb, ?_⟩
  · exact ⟨Bio.modify_buf_ne _ _ hj, update_of_ne hj .., rfl, fun _ => rfl⟩
  · simp [Sys.buf, Bio.Buf.read]
  · refine ⟨Or.inl ?_, fun q hq => ?_, fun c hm hci => ?_, fun _ => ?_, fun hv hut => ?_, fun hv hut => ?_,
      fun _ hl => ?_⟩
    · simpa [Sys.buf, Bio.Buf.read] using hd
    · exact hi.lock q (by simpa [Sys.buf, Bio.Buf.read] using hq)
    · simpa [Sys.buf, Bio.Buf.read] using hi.asked c hm hci
    · simpa [Sys.buf, Bio.Buf.read] using hi.pins hd
    · exact absurd ⟨by simpa [Sys.buf, Bio.Buf.read] using hus.1, hus.2⟩ hut
    · -- the disk had the content: the block was not pinned, or it would be valid
      simpa [Sys.buf, Bio.Buf.read] using h.disk_eq hd hval
    · simpa [Sys.buf, Bio.Buf.read, Sys.Todo] using hi.logged hus hl

theorem inv_store (h : Inv start size s) {x : Block} (ht : step s (.store p i x) = some t) :
    Inv start size t := by
  simp only [step, Bio.step, Option.ite_none_right_eq_some, Option.map_eq_some_iff,
    Option.some.injEq] at ht
  obtain ⟨⟨hu, hval⟩, bio, ⟨⟨hpan, hlock⟩, rfl⟩, rfl⟩ := ht
  have hi := h.own i
  have hus := h.userHolds hu hlock
  have hd := h.dev_of_lock hlock
  refine h.user (p := p) (i := i) ⟨hu, ⟨.store p i x, by simp [Bio.step, hpan, hlock]⟩, rfl, rfl,
    rfl, rfl, rfl, rfl, fun c hc => Iff.rfl, fun j hj => ?_, fun hci => absurd hci hus.2,
    fun _ hv => ?_, fun _ => Or.inl rfl, fun _ hb => hb, ?_⟩
  · exact ⟨Bio.modify_buf_ne _ _ hj, rfl, rfl, fun _ => rfl⟩
  · simpa [Sys.buf, Bio.Buf.setData] using hv
  · refine ⟨Or.inl ?_, fun q hq => ?_, fun c hm hci => ?_, fun _ => ?_, fun hv hut => ?_, fun hv hut => ?_,
      fun _ hl => ?_⟩
    · simpa [Sys.buf, Bio.Buf.setData] using hd
    · exact hi.lock q (by simpa [Sys.buf, Bio.Buf.setData] using hq)
    · simpa [Sys.buf, Bio.Buf.setData] using hi.asked c hm hci
    · simpa [Sys.buf, Bio.Buf.setData] using hi.pins hd
    · exact absurd ⟨by simpa [Sys.buf, Bio.Buf.setData] using hus.1, hus.2⟩ hut
    · simpa [Sys.buf, Bio.Buf.setData] using hi.seen hval hus
    · simpa [Sys.buf, Bio.Buf.setData, Sys.Todo] using hi.logged hus hl

theorem inv_drop (h : Inv start size s) (ht : step s (.drop p i) = some t) : Inv start size t := by
  simp only [step, Bio.step, Option.ite_none_right_eq_some, Option.map_eq_some_iff,
    Option.some.injEq] at ht
  obtain ⟨hu, bio, ⟨⟨hpan, hcall⟩, rfl⟩, rfl⟩ := ht
  have hi := h.own i
  have hsame : Same (s.buf i) ((Bio.brelse s.bio.cache i).buf i) := by
    rw [Bio.brelse_buf, Bio.modify_buf_self]; rfl
  refine h.user (p := p) (i := i) ⟨hu, ⟨.drop p i, by simp [Bio.step, hpan, hcall]⟩, rfl, rfl,
    rfl, rfl, rfl, rfl, fun c hc => ?_, fun j hj => ⟨?_, rfl, rfl, fun _ => rfl⟩, fun _ => hsame,
    fun _ hv => ?_, fun _ => Or.inl rfl, fun _ hb => hb, ?_⟩
  · refine List.mem_erase_of_ne ?_
    rintro rfl
    rcases hc with hc | hc <;> exact hc rfl
  · simp only [Sys.buf, Bio.brelse_buf]
    exact Bio.modify_buf_ne _ _ hj
  · simpa [Sys.buf, Bio.brelse_buf, Bio.Buf.decRef] using hv
  · have hd := h.dev_of_call hcall
    refine ⟨Or.inl ?_, fun q hq => ?_, fun c hm hci => ?_, fun _ => ?_, fun hv hut => ?_, fun hv hut => ?_,
      fun hut hl => ?_⟩ <;>
      simp only [Sys.UserHolds, Sys.buf, Bio.brelse_buf, Bio.modify_buf_self, Bio.Buf.decRef] at *
    · exact hd
    · exact (List.mem_erase_of_ne (by simp)).mpr (hi.lock q hq)
    · exact hi.asked c (List.mem_of_mem_erase hm) hci
    · exact hi.pins hd
    · exact hi.cached hv hut
    · exact hi.seen hv hut
    · exact hi.logged hut hl

theorem inv_release (h : Inv start size s) (ht : step s (.release p i) = some t) :
    Inv start size t := by
  simp only [step, Bio.step, Option.ite_none_right_eq_some, Option.map_eq_some_iff,
    Option.some.injEq] at ht
  obtain ⟨⟨hu, hval, howe⟩, bio, ⟨⟨hpan, hcall, hlock⟩, rfl⟩, rfl⟩ := ht
  have hi := h.own i
  have hus := h.userHolds hu hlock
  have hd := h.dev_of_lock hlock
  -- what the holder leaves is the new content, in both cases
  have hdata : ∀ c : ℕ → Block,
      (if s.logged i then update s.content (s.buf i).blockno (s.buf i).data else s.content) = c →
      (s.buf i).data = c (s.buf i).blockno := by
    rintro c rfl
    split
    · rw [update_self]
    · rename_i hl
      rw [howe.resolve_left hl]
      exact hi.seen hval hus
  set c := if s.logged i then update s.content (s.buf i).blockno (s.buf i).data else s.content with hc
  set sp := if s.logged i then update s.spec (s.buf i).blockno (s.buf i).data else s.spec with hsp
  have hform : (if s.logged i = true then
      { s with bio := { s.bio with cache := s.bio.cache.modify i (.setLock none)
                                   calls := Bio.advance s.bio.calls p i .held .releasing }
               spec := update s.spec (s.buf i).blockno (s.buf i).data
               content := update s.content (s.buf i).blockno (s.buf i).data }
      else { s with bio := { s.bio with cache := s.bio.cache.modify i (.setLock none)
                                        calls := Bio.advance s.bio.calls p i .held .releasing } }) =
      { s with bio := { s.bio with cache := s.bio.cache.modify i (.setLock none)
                                   calls := Bio.advance s.bio.calls p i .held .releasing }
               spec := sp, content := c } := by
    rw [hc, hsp]; split <;> rfl
  rw [hform]
  refine h.user (p := p) (i := i) ⟨hu, ⟨.release p i, by simp [Bio.step, hpan, hcall, hlock]⟩, rfl, rfl,
    rfl, rfl, rfl, rfl, fun c hc => mem_advance hc, fun j hj => ?_, fun hci => absurd hci hus.2,
    fun _ hv => ?_, fun b => ?_, fun b hb => ?_, ?_⟩
  · exact ⟨Bio.modify_buf_ne _ _ hj, rfl, rfl, fun _ => rfl⟩
  · simpa [Sys.buf, Bio.Buf.setLock] using hv
  · dsimp only
    rw [hc]
    split
    · rename_i hl
      rcases eq_or_ne b (s.buf i).blockno with hb | hb
      · exact Or.inr ⟨hb, hus, hl⟩
      · exact Or.inl (update_of_ne hb ..)
    · exact Or.inl rfl
  · dsimp only
    rw [hc, hsp]
    split
    · simp only [update_apply, hb]
    · exact hb
  · have hnl : ∀ q, ((s.bio.cache.modify i (.setLock none)).buf i).lock ≠ some q := by
      simp [Bio.Buf.setLock]
    refine ⟨Or.inl ?_, fun q hq => absurd hq (hnl q), fun c hm hci => ?_, fun _ => ?_, fun hv hut => ?_,
      fun hv hut => ?_, fun hut _ => ?_⟩
    · simpa [Sys.buf, Bio.Buf.setLock] using hd
    · simpa [Sys.buf, Bio.Buf.setLock] using h.asked_advance hcall hm hci
    · simpa [Sys.buf, Bio.Buf.setLock] using hi.pins hd
    · have := hdata c rfl
      simpa [Sys.buf, Bio.Buf.setLock] using this
    · exact absurd (by simp [Sys.buf, Bio.Buf.setLock]) hut.1
    · exact absurd (by simp [Sys.buf, Bio.Buf.setLock]) hut.1

/-! ### Steps of the log alone -/

theorem Inv.setLog (h : Inv start size s) {L : Log.Sys} (hL : Log.Inv L)
    (hgeom : L.start = s.log.start ∧ L.size = s.log.size) (hpins : L.pins = s.log.pins)
    (hlh : L.lh = s.log.lh)
    (htodo : ∀ b, 0 < s.log.pins b → s.Todo b → ({ s with log := L } : Sys).Todo b)
    (hidle : L.committing = false → s.live = [] ∧ s.pend = .none)
    (hcommit : ∀ p regs wrote rest, L.procs p = .commit regs wrote rest →
      Commit start size { s with log := L } p regs rest) : Inv start size { s with log := L } := by
  have hlike : ∀ j, Like s { s with log := L } j := fun j =>
    ⟨Same.of_eq rfl, fun _ _ => Iff.rfl, rfl, fun _ => congrFun hpins _, fun _ => htodo _, fun _ => rfl,
      Iff.rfl, rfl, rfl, fun _ => rfl⟩
  refine h.bufStep (i := 0) ⟨h.bio, hL, hgeom, Or.inl hlh, fun j _ => hlike j, (h.own 0).like (hlike 0),
    ?_, fun b hb => hpins ▸ hb, fun _ hd hv => ⟨hd, rfl, hv⟩, ?_⟩ hidle hcommit
  · rw [h.geom.1, h.geom.2]; exact h.spec
  · dsimp only
    rw [hpins]; exact h.clean

/-- The log moves, but neither pins, nor header, nor the script of a running commit. -/
theorem Inv.setLog_same (h : Inv start size s) {L : Log.Sys} (hL : Log.Inv L)
    (hgeom : L.start = s.log.start ∧ L.size = s.log.size) (hpins : L.pins = s.log.pins)
    (hlh : L.lh = s.log.lh) (hcom : L.committing = s.log.committing)
    (hprocs : ∀ p regs wrote rest, L.procs p = .commit regs wrote rest →
      s.log.procs p = .commit regs wrote rest) : Inv start size { s with log := L } := by
  refine h.setLog hL hgeom hpins hlh (fun b _ hb q regs wrote rest hq =>
    hb q regs wrote rest (hprocs q regs wrote rest hq)) (fun hc => h.idle (hcom ▸ hc))
    fun q regs wrote rest hq => ?_
  have hc := h.commit q regs wrote rest (hprocs q regs wrote rest hq)
  refine ⟨hc.held, hc.inj, hc.nodup, ?_⟩
  have hview : ({ s with log := L } : Sys).view regs = s.view regs := by
    rw [Sys.view, Sys.view, hpins]
  rw [hview]
  exact hc.script

theorem inv_beginOp (h : Inv start size s) (ht : step s (.beginOp p) = some t) : Inv start size t := by
  simp only [step, Option.map_eq_some_iff] at ht
  obtain ⟨L, hL, rfl⟩ := ht
  have hinv := Log.inv_step h.log hL
  obtain ⟨-, ⟨q, hl, hq, rfl⟩ | ⟨_, _, _, hl, -⟩ | ⟨_, _, hl, -⟩ | ⟨_, _, _, _, hl, -⟩⟩ :=
    Log.step_cases hL
  · have hcases : Log.beginOp s.log q = s.log ∨ Log.beginOp s.log q =
        { s.log with outstanding := s.log.outstanding + 1
                     procs := update s.log.procs q (.inOp s.log.nextOp)
                     nextOp := s.log.nextOp + 1
                     cur := s.log.cur ++ [.began s.log.nextOp] } := by
      rw [Log.beginOp]
      split
      · exact Or.inl rfl
      split
      · exact Or.inl rfl
      · exact Or.inr rfl
    rcases hcases with he | he
    · rw [he]; exact h
    · rw [he] at hinv ⊢
      refine h.setLog_same hinv ⟨rfl, rfl⟩ rfl rfl rfl fun r regs wrote rest hr => ?_
      rcases eq_or_ne r q with rfl | hne
      · simp at hr
      · simpa [hne] using hr
  all_goals cases hl

/-- At the start of `commit()` every block that differs from the disk is listed and pinned. -/
theorem Inv.ready (h : Inv start size s) (hc : s.log.committing = false) (regs : Var → ℕ) :
    View.Ready start size s.log.lh (s.view regs) := by
  obtain ⟨hlive, -⟩ := h.idle hc
  obtain ⟨-, -, -, hpins⟩ := h.log.free hc
  refine ⟨hlive, fun b hb => ?_, fun b hb => ?_⟩
  · by_contra hne
    rcases h.clean b hne with hpin | ⟨v, hv, -⟩
    · rw [hpins] at hpin
      split at hpin
      · exact h.listed b ‹_› hb
      · omega
    · rw [hlive] at hv; cases hv
  · show 0 < s.log.pins b
    rw [hpins, if_pos hb]; exact Nat.one_pos

theorem mem_commit_of_mem {lh : List ℕ} {b : ℕ} (hb : b ∈ lh) :
    .bread .frm b ∈ Log.commit start lh := by
  rw [Log.commit, if_neg (List.ne_nil_of_mem hb)]
  simp only [List.append_assoc]
  exact List.mem_append_left _ ((View.mem_writeLog start b lh 0).mpr hb)

theorem inv_endOp (h : Inv start size s) (ht : step s (.endOp p) = some t) : Inv start size t := by
  simp only [step, Option.map_eq_some_iff] at ht
  obtain ⟨L, hL, rfl⟩ := ht
  have hinv := Log.inv_step h.log hL
  obtain ⟨-, ⟨_, hl, -⟩ | ⟨_, _, _, hl, -⟩ | ⟨q, id, hl, hq, rfl⟩ | ⟨_, _, _, _, hl, -⟩⟩ :=
    Log.step_cases hL
  · cases hl
  · cases hl
  · obtain ⟨hc, -⟩ := h.log.inOp hq
    obtain ⟨hno, hnd, -, hpins⟩ := h.log.free hc
    simp only [Log.endOp, hc, Bool.false_eq_true, if_false] at hinv ⊢
    split at hinv
    · rename_i h0
      rw [if_pos h0]
      have honly : ∀ r regs wrote rest,
          update s.log.procs q (.commit (fun _ => 0) [] (Log.commit s.log.start s.log.lh)) r =
            .commit regs wrote rest → regs = (fun _ => 0) ∧ rest = Log.commit start s.log.lh := by
        intro r regs wrote rest hr
        rcases eq_or_ne r q with rfl | hne
        · rw [update_self, h.geom.1] at hr
          cases hr
          exact ⟨rfl, rfl⟩
        · rw [update_of_ne hne] at hr
          exact absurd hr (hno r _ _ _)
      obtain ⟨hlive, hpend⟩ := h.idle hc
      refine h.setLog hinv ⟨rfl, rfl⟩ rfl rfl (fun b hpin _ r regs wrote rest hr => ?_)
        (fun hf => by simp at hf) fun r regs wrote rest hr => ?_
      · obtain ⟨-, rfl⟩ := honly r regs wrote rest hr
        refine mem_commit_of_mem ?_
        by_contra hb
        rw [hpins, if_neg hb] at hpin
        cases hpin
      · obtain ⟨rfl, rfl⟩ := honly r regs wrote rest hr
        refine ⟨?_, ?_, ?_, ?_⟩
        · intro v hv; rw [hlive] at hv; cases hv
        · intro v hv; rw [hlive] at hv; cases hv
        · show s.live.Nodup
          rw [hlive]; exact List.nodup_nil
        · dsimp only
          rw [hpend]
          exact View.safe_commit hnd h.listed h.room (h.ready hc _)
    · rename_i h0
      rw [if_neg h0]
      refine h.setLog_same hinv ⟨rfl, rfl⟩ rfl rfl hc.symm fun r regs wrote rest hr => ?_
      rcases eq_or_ne r q with rfl | hne
      · simp at hr
      · simpa [hne] using hr
  · cases hl

/-! ### `log_write` -/

/-- The block of a held buffer is listed, and the buffer pinned once. -/
theorem Inv.setLogged (h : Inv start size s) {bio : Bio.Sys} {L : Log.Sys}
    (hc : s.log.committing = false) (hval : (s.buf i).valid = true)
    (hhome : ¬ InLog start size (s.buf i).blockno)
    (hbio : Bio.Inv bio) (hcalls : bio.calls = s.bio.calls)
    (hbuf : ∀ j, Same (s.buf j) (bio.cache.buf j)) (hpins : ∀ j, j ≠ i → bio.pins j = s.bio.pins j)
    (hpi : bio.pins i = L.pins (s.buf i).blockno)
    (hL : Log.Inv L) (hgeom : L.start = s.log.start ∧ L.size = s.log.size) (hLc : L.committing = false)
    (hLpins : ∀ b, b ≠ (s.buf i).blockno → L.pins b = s.log.pins b)
    (hLb : 0 < L.pins (s.buf i).blockno)
    (hlh : ∀ b ∈ L.lh, b ∈ s.log.lh ∨ b = (s.buf i).blockno) (hroom : L.lh.length + 1 ≤ size) :
    Inv start size { s with log := L, bio := bio, logged := update s.logged i true } := by
  set t : Sys := { s with log := L, bio := bio, logged := update s.logged i true }
  have hi := h.own i
  have hd := h.dev_of_valid hval
  have hno := (hL.free hLc).1
  have htodo : ∀ b, t.Todo b := fun b q regs wrote rest hq => absurd hq (hno q regs wrote rest)
  have hsame : ∀ j, Same (s.buf j) (t.buf j) := hbuf
  have hpinsne : ∀ j, j ≠ i → (s.buf j).dev = ROOTDEV →
      L.pins (s.buf j).blockno = s.log.pins (s.buf j).blockno := fun j hj hdj =>
    hLpins _ fun hb => hj (h.buf_unique hdj hd hb)
  have hcl : ∀ b, s.log.pins b ≤ L.pins b := by
    intro b
    rcases eq_or_ne b (s.buf i).blockno with rfl | hb
    · have := (h.log.free hc).2.2.2 (s.buf i).blockno
      have h1 : s.log.pins (s.buf i).blockno ≤ 1 := by rw [this]; split <;> omega
      omega
    · rw [hLpins b hb]
  refine ⟨hbio, hL, by rw [← h.geom.1, ← h.geom.2]; exact hgeom, fun j => ?_, h.spec, fun b hb => ?_,
    fun b hb => ?_, fun b hb => ?_, fun _ => hroom, fun _ => h.idle hc,
    fun q regs wrote rest hq => absurd hq (hno q regs wrote rest)⟩
  · rcases eq_or_ne j i with rfl | hj
    · have hb : (t.buf j).blockno = (s.buf j).blockno := by rw [hsame j]
      have hk : (t.buf j).lock = (s.buf j).lock := by rw [hsame j]
      have hv : (t.buf j).valid = (s.buf j).valid := by rw [hsame j]
      have hx : (t.buf j).data = (s.buf j).data := by rw [hsame j]
      have hu : t.UserHolds j ↔ s.UserHolds j := by
        rw [Sys.UserHolds, Sys.UserHolds, hk]; rfl
      refine ⟨Or.inl (by rw [hsame j]; exact hd), fun q hq => ?_, fun c hm hci => ?_, fun _ => ?_,
        fun _ hut => ?_, fun _ hut => ?_, fun _ _ => ⟨?_, htodo _⟩⟩
      · exact hcalls ▸ hi.lock q (hk ▸ hq)
      · rw [hb]; exact hi.asked c (hcalls ▸ hm) hci
      · rw [hb]; exact hpi
      · rw [hx, hb]; exact hi.cached hval fun hus => hut (hu.mpr hus)
      · rw [hb]; exact hi.seen hval (hu.mp hut)
      · rw [hb]; exact hLb
    · exact (h.own j).like ⟨hsame j, fun c _ => by rw [← hcalls], hpins j hj, hpinsne j hj,
        fun _ _ _ => htodo _, fun _ => rfl, Iff.rfl, rfl, update_of_ne hj .., fun _ => rfl⟩
  · rcases eq_or_ne b (s.buf i).blockno with rfl | hne
    · refine ⟨i, ?_, ?_, ?_⟩ <;> rw [hsame i]
      exacts [hd, hval]
    · obtain ⟨j, hdj, hbj, hvj⟩ := h.pinned b (hLpins b hne ▸ hb)
      refine ⟨j, ?_, ?_, ?_⟩ <;> rw [hsame j]
      exacts [hdj, hbj, hvj]
  · refine (h.clean b hb).imp (fun hp => lt_of_lt_of_le hp (hcl b)) ?_
    rintro ⟨v, hv, -⟩
    rw [(h.idle hc).1] at hv; cases hv
  · rcases hlh b hb with hb | rfl
    · exact h.listed b hb
    · exact hhome

theorem inv_logWrite (h : Inv start size s) (ht : step s (.logWrite p i) = some t) :
    Inv start size t := by
  simp only [step, Option.ite_none_right_eq_some] at ht
  obtain ⟨⟨hu, hval, hlock, hhome⟩, ht⟩ := ht
  rw [h.geom.1, h.geom.2] at hhome
  simp only [logWrite, Option.bind_eq_some_iff] at ht
  obtain ⟨L, hL, ht⟩ := ht
  have hinv := Log.inv_step h.log hL
  obtain ⟨hpan, ⟨_, hl, -⟩ | ⟨q, b, id, hl, hq, rfl⟩ | ⟨_, _, hl, -⟩ | ⟨_, _, _, _, hl, -⟩⟩ :=
    Log.step_cases hL
  · cases hl
  · cases hl
    obtain ⟨hc, hout⟩ := h.log.inOp hq
    obtain ⟨hno, -, -, hpins⟩ := h.log.free hc
    have hd := h.dev_of_valid hval
    rw [Log.logWrite] at hinv ht
    split at ht
    · -- "too big a transaction": nothing else changes
      rename_i hbig
      rw [if_pos hbig] at hinv
      simp only [Option.isSome_some, if_true, Option.some.injEq] at ht
      subst ht
      exact h.setLog_same hinv ⟨rfl, rfl⟩ rfl rfl rfl fun _ _ _ _ hr => hr
    rename_i hbig
    rw [if_neg hbig] at hinv
    split at ht
    · omega
    rename_i hout'
    rw [if_neg hout'] at hinv
    simp only [hpan, Option.isSome_none, Bool.false_eq_true, if_false] at ht
    push Not at hbig
    have hsize : s.log.lh.length + 2 ≤ size := by have := h.geom.2; omega
    have hrec := Log.record_eq s.log.lh (s.buf i).blockno
    have hlhmem : ∀ b ∈ Log.record s.log.lh (s.buf i).blockno,
        b ∈ s.log.lh ∨ b = (s.buf i).blockno := by
      intro b hb
      rw [hrec] at hb
      split at hb
      · exact Or.inl hb
      · simpa using hb
    have hlhlen : (Log.record s.log.lh (s.buf i).blockno).length + 1 ≤ size := by
      rw [hrec]
      split
      · omega
      · simp only [List.length_append, List.length_singleton]; omega
    split at ht
    · -- newly listed: one pin in the log's books, one `bpin` in the cache
      rename_i hidx
      rw [if_pos hidx, hpan] at hinv
      have hnew : (s.buf i).blockno ∉ s.log.lh := fun hm =>
        absurd hidx (List.idxOf_lt_length_of_mem hm).ne
      simp only [Option.map_eq_some_iff] at ht
      obtain ⟨bio, hb, rfl⟩ := ht
      have hbinv := Bio.inv_step h.bio hb
      rw [Bio.step] at hb
      split at hb
      · cases hb
      cases hb
      refine h.setLogged hc hval hhome hbinv rfl (fun j => ?_) (fun j hj => update_of_ne hj ..) ?_ hinv
        ⟨rfl, rfl⟩ hc (fun b hb => update_of_ne hb ..) ?_ hlhmem hlhlen
      · rcases eq_or_ne j i with rfl | hj
        · simp only [Bio.bpin, Bio.modify_buf_self]; rfl
        · exact Same.of_eq (Bio.modify_buf_ne _ _ hj)
      · dsimp only
        rw [update_self, update_self, (h.own i).pins hd]
      · dsimp only
        rw [update_self]; omega
    · rename_i hidx
      rw [if_neg hidx, hpan] at hinv
      have hmem : (s.buf i).blockno ∈ s.log.lh := by
        by_contra hm
        exact hidx (List.idxOf_eq_length hm)
      simp only [Option.some.injEq] at ht
      subst ht
      refine h.setLogged hc hval hhome h.bio rfl (fun j => Same.of_eq rfl) (fun _ _ => rfl)
        ((h.own i).pins hd) hinv ⟨rfl, rfl⟩ hc (fun _ _ => rfl) ?_ hlhmem hlhlen
      dsimp only
      rw [hpins, if_pos hmem]; exact Nat.one_pos
  · cases hl
  · cases hl

end

end Minios.Store
