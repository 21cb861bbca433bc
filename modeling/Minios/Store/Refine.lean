import Minios.Store.User

/-! Cache, pins, log and disk REFINE a plain map from block numbers to contents.

    The steps of `commit()` keep the invariant too: each either moves inside a `bread` or a `brelse`,
    or finishes an operation of the script, after which the rest is still safe. From the invariant,
    what every `bread` returns is what the plain map holds, and only the release of a logged buffer
    changes the map. -/

namespace Minios.Store
open Schemes Function
open Log (Var Instr InLog)

section
variable {start size : ℕ} {s t : Sys} {p : ℕ} {i j : Fin NBUF}
  {regs : Var → ℕ} {wrote : List (Var × ℕ)} {rest : List Instr} {ins : Instr}

/-! ### The script moves on -/

theorem commit_unique (h : Log.Inv s.log) (hp : s.log.procs p = .commit regs wrote rest)
    {q : ℕ} {regs' wrote' rest'} (hq : s.log.procs q = .commit regs' wrote' rest') :
    q = p ∧ regs' = regs ∧ rest' = rest := by
  obtain ⟨-, hidle, -⟩ := h.committing hp
  rcases eq_or_ne q p with rfl | hne
  · rw [hp] at hq; cases hq; exact ⟨rfl, rfl, rfl⟩
  · rw [hidle q hne] at hq; cases hq

/-- What the log is after operation `ins` of the script of process `p`. -/
structure Advanced (L L' : Log.Sys) (p : ℕ) (c : Log.Ctx) (rest : List Instr) : Prop where
  inv : Log.Inv L'
  geom : L'.start = L.start ∧ L'.size = L.size
  busy : L'.committing = true
  pins : L'.pins = c.pins
  lh : L'.lh = c.lh
  only : ∀ q regs wrote rest', L'.procs q = .commit regs wrote rest' →
    q = p ∧ regs = c.regs ∧ rest' = rest

theorem advanced {L L' : Log.Sys} (h : Log.Inv L) (hp : L.procs p = .commit regs wrote (ins :: rest))
    (hL : Log.step L (.commit p) = some L') :
    Advanced L L' p (Log.Ctx.exec ⟨regs, L.lh, L.pins, wrote⟩ ins) rest := by
  have hinv := Log.inv_step h hL
  obtain ⟨hc, hidle, -⟩ := h.committing hp
  obtain ⟨-, ⟨_, hl, -⟩ | ⟨_, _, _, hl, -⟩ | ⟨_, _, hl, -⟩ | ⟨q, r, w, x, hl, hq, rfl⟩⟩ :=
    Log.step_cases hL
  · cases hl
  · cases hl
  · cases hl
  · cases hl
    rw [hp] at hq
    cases hq
    refine ⟨hinv, ⟨rfl, rfl⟩, hc, rfl, rfl, fun q regs' wrote' rest' hq => ?_⟩
    rcases eq_or_ne q p with rfl | hne
    · simp only [Log.commitStep, update_self, Log.PState.commit.injEq] at hq
      exact ⟨rfl, hq.1.symm, hq.2.2.symm⟩
    · simp only [Log.commitStep, update_of_ne hne, hidle q hne] at hq
      cases hq

/-- Blocks still to be locked stay so, unless this was the `bread` that locked them. -/
theorem Advanced.todo {c : Log.Ctx} (ha : Advanced s.log t.log p c rest)
    (hp : s.log.procs p = .commit regs wrote (ins :: rest)) {b : ℕ} (hb : s.Todo b)
    (hne : ins ≠ .bread .frm b) : t.Todo b := by
  intro q regs' wrote' rest' hq
  obtain ⟨-, -, rfl⟩ := ha.only q regs' wrote' rest' hq
  exact (List.mem_cons.mp (hb p regs wrote _ hp)).resolve_left hne.symm

/-- The invariant after an operation of the script: the buffers as for any step on one buffer, and
    the rest of the script for the process that commits. -/
theorem Inv.advance {c : Log.Ctx} (h : Inv start size s) (ha : Advanced s.log t.log p c rest)
    (hb : BufStep s t i) (hcommit : Commit start size t p c.regs rest) : Inv start size t := by
  refine h.bufStep hb (fun hf => ?_) fun q regs' wrote' rest' hq => ?_
  · rw [ha.busy] at hf; cases hf
  · obtain ⟨rfl, rfl, rfl⟩ := ha.only q regs' wrote' rest' hq
    exact hcommit

/-- The same inside an operation, when the log does not move. -/
theorem Inv.inside (h : Inv start size s) (hp : s.log.procs p = .commit regs wrote rest)
    (hlog : t.log = s.log) (hb : BufStep s t i) (hcommit : Commit start size t p regs rest) :
    Inv start size t := by
  obtain ⟨hc, -⟩ := h.log.committing hp
  refine h.bufStep hb (fun hf => ?_) fun q regs' wrote' rest' hq => ?_
  · rw [hlog, hc] at hf; cases hf
  · rw [hlog] at hq
    obtain ⟨rfl, rfl, rfl⟩ := commit_unique h.log hp hq
    exact hcommit

/-- Except in a `bread` or a `brelse`, `commit()` is between two operations. -/
theorem Commit.pend_none (hc : Commit start size s p regs (ins :: rest))
    (hbr : ∀ v b, ins ≠ .bread v b) (hre : ∀ v, ins ≠ .brelse v) :
    s.pend = .none ∧ View.Ok start size ins (s.view regs) ∧
    View.Safe start size rest (View.exec ins (s.view regs)) := by
  have hs := hc.script
  cases hpend : s.pend with
  | none => rw [hpend] at hs; exact ⟨rfl, hs.head⟩
  | waiting k =>
    rw [hpend] at hs
    obtain ⟨v, r, hr, -⟩ := hs
    exact absurd (List.cons.inj hr).1 (hbr _ _)
  | acquired k =>
    rw [hpend] at hs
    obtain ⟨v, r, hr, -⟩ := hs
    exact absurd (List.cons.inj hr).1 (hbr _ _)
  | released k =>
    rw [hpend] at hs
    obtain ⟨v, r, hr, -⟩ := hs
    exact absurd (List.cons.inj hr).1 (hre _)

/-- What a variable of `commit()` holds: a valid buffer with the content of its block. -/
theorem Inv.live (h : Inv start size s) (hp : s.log.procs p = .commit regs wrote rest) {v : Var}
    (hv : v ∈ s.live) : (s.buf (s.bufs v)).lock = some p ∧ (s.buf (s.bufs v)).valid = true ∧
      (s.buf (s.bufs v)).dev = ROOTDEV ∧ (s.buf (s.bufs v)).blockno = regs v ∧
      (s.buf (s.bufs v)).data = s.content (regs v) := by
  obtain ⟨hl, hval, hb⟩ := (h.commit p regs wrote rest hp).held v hv
  refine ⟨hl, hval, h.dev_of_valid hval, hb, ?_⟩
  rw [← hb]
  exact (h.own _).cached hval fun hu => hu.2 (Or.inl ⟨v, hv, rfl⟩)

theorem Inv.not_commitHolds_of_unlocked (h : Inv start size s) (hl : (s.buf i).lock = none) :
    ¬ s.CommitHolds i := by
  intro hi
  cases hc : s.log.committing with
  | false => exact h.not_commitHolds hc hi
  | true =>
    obtain ⟨q, regs, wrote, rest, hq, -⟩ := h.log.busy hc
    have := h.commitHolds hq hi
    rw [hl] at this
    cases this

/-! ### Inside `bread` and `brelse` -/

theorem inv_commit_bget (h : Inv start size s) {v : Var} {b : ℕ}
    (hp : s.log.procs p = .commit regs wrote (.bread v b :: rest)) (hpend : s.pend = .none)
    (ht : bread s p b (fun t i => { t with pend := .waiting i }) = some t) : Inv start size t := by
  have hc := h.commit p regs wrote _ hp
  have hsafe := hc.script
  rw [hpend] at hsafe
  rw [bread, Option.map_eq_some_iff] at ht
  obtain ⟨bio, hb, rfl⟩ := ht
  have hbinv := Bio.inv_step h.bio hb
  rcases h.bget_cases hb with ⟨hnone, rfl⟩ | ⟨c, i, hsome, hch⟩
  · rw [hnone]
    have hlike : ∀ j, Like s { s with bio := { s.bio with panicked := true } } j := fun j =>
      ⟨Same.of_eq rfl, fun _ _ => Iff.rfl, rfl, fun _ => rfl, fun _ _ ht => ht, fun _ => rfl, Iff.rfl,
        rfl, rfl, fun _ => rfl⟩
    refine h.inside (i := 0) hp rfl ⟨hbinv, h.log, ⟨rfl, rfl⟩, Or.inl rfl, fun j _ => hlike j,
      (h.own 0).like (hlike 0), ?_, fun _ hb => hb, fun _ hd hv => ⟨hd, rfl, hv⟩, h.clean⟩
      ⟨hc.held, hc.inj, hc.nodup, hc.script⟩
    rw [h.geom.1, h.geom.2]; exact h.spec
  · simp only [hsome]
    set t : Sys := { s with bio := bio, req := update s.req p (update (s.req p) i b), pend := .waiting i }
      with ht
    have hholds : ∀ j, t.CommitHolds j ↔ s.CommitHolds j := fun j => by
      rw [Sys.CommitHolds, Sys.CommitHolds, hpend, ht]; simp
    -- a buffer `commit()` holds was not recycled
    have hsame : ∀ j, s.CommitHolds j ∨ 0 < (s.buf j).refcnt → Same (s.buf j) (t.buf j) := by
      intro j hj
      rcases eq_or_ne j i with rfl | hne
      · rcases hch.cases with ⟨hs, -, -⟩ | ⟨h0, -, -, -⟩
        · exact hs
        · rcases hj with hj | hj
          · exact absurd hj (h.not_commitHolds_of_unlocked (h.lock_none h0))
          · omega
      · exact Same.of_eq (hch.other j hne)
    refine h.inside (i := i) hp rfl ⟨hbinv, h.log, ⟨rfl, rfl⟩, Or.inl rfl, fun j hj => ?_,
      hch.own h rfl rfl (hholds i) rfl rfl rfl, ?_, fun _ hb => hb, fun hpin hd hv => ?_, fun x hx => ?_⟩ ?_
    · refine ⟨Same.of_eq (hch.other j hj), fun c hcj => ?_, congrFun hch.pins j, fun _ => rfl,
        fun _ _ hto => hto, fun _ => rfl, hholds j, rfl, rfl, fun q => ?_⟩
      · show c ∈ bio.calls ↔ _
        rw [hch.calls, List.mem_cons]
        exact or_iff_right fun he => hj (by rw [← hcj, he])
      · rcases eq_or_ne q p with rfl | hq
        · simp [ht, hj]
        · simp [ht, hq]
    · rw [h.geom.1, h.geom.2]; exact h.spec
    · have hs := hsame i (Or.inr (h.refcnt_pos_of_pins (by rw [(h.own i).pins hd]; exact hpin)))
      refine ⟨?_, ?_, ?_⟩ <;> rw [hs]
      exacts [hd, hv]
    · refine (h.clean x hx).imp_right ?_
      rintro ⟨w, hw, hwx⟩
      refine ⟨w, hw, ?_⟩
      rw [hsame _ (Or.inl (Or.inl ⟨w, hw, rfl⟩))]; exact hwx
    · refine ⟨fun w hw => ?_, hc.inj, hc.nodup, ?_⟩
      · rw [hsame _ (Or.inl (Or.inl ⟨w, hw, rfl⟩))]; exact hc.held w hw
      · refine ⟨v, rest, ?_, hsafe, ?_⟩
        · rw [show (t.buf i).blockno = b from hch.blockno]
        · show _ ∈ bio.calls
          rw [hch.calls]; exact List.mem_cons_self ..

theorem inv_commit_acquire (h : Inv start size s) {v : Var} {b : ℕ}
    (hp : s.log.procs p = .commit regs wrote (.bread v b :: rest)) (hpend : s.pend = .waiting i)
    {bio : Bio.Sys} (hb : Bio.step s.bio (.acquire p i) = some bio) :
    Inv start size { s with bio := bio, pend := .acquired i } := by
  have hc := h.commit p regs wrote _ hp
  have hs := hc.script
  rw [hpend] at hs
  obtain ⟨v', r, hr, hsafe, -⟩ := hs
  have hbinv := Bio.inv_step h.bio hb
  simp only [Bio.step, Option.ite_none_right_eq_some, Option.some.injEq] at hb
  obtain ⟨⟨hpan, hcall, hlock⟩, rfl⟩ := hb
  have hi := h.own i
  have hd := h.dev_of_call hcall
  have hnl : ∀ w ∈ s.live, s.bufs w ≠ i := fun w hw he => by
    have := (hc.held w hw).1
    rw [he, Sys.buf, hlock] at this; cases this
  have hne : ∀ w ∈ s.live, ∀ f : Bio.Buf → Bio.Buf,
      (s.bio.cache.modify i f).buf (s.bufs w) = s.buf (s.bufs w) := fun w hw f =>
    Bio.modify_buf_ne _ _ (hnl w hw)
  refine h.inside (i := i) hp rfl ⟨hbinv, h.log, ⟨rfl, rfl⟩, Or.inl rfl, fun j hj => ?_, ?_, ?_,
    fun _ hb => hb, fun _ hd hv => ?_, fun x hx => ?_⟩ ⟨fun w hw => ?_, hc.inj, hc.nodup, ?_⟩
  · refine ⟨Same.of_eq (Bio.modify_buf_ne _ _ hj), fun c hcj => mem_advance (Or.inr (hcj ▸ hj)), rfl,
      fun _ => rfl, fun _ _ hto => hto, fun _ => rfl, ?_, rfl, rfl, fun _ => rfl⟩
    simp only [Sys.CommitHolds, hpend, Pend.acquired.injEq, reduceCtorEq, or_false]
    exact or_iff_left hj.symm
  · refine ⟨Or.inl ?_, fun q hq => ?_, fun c hm hci => ?_, fun _ => ?_, fun hv _ => ?_, fun _ hut => ?_,
      fun hut _ => ?_⟩
    · simpa [Sys.buf, Bio.Buf.setLock] using hd
    · have : p = q := by simpa [Sys.buf, Bio.Buf.setLock] using hq
      subst this
      exact List.mem_cons_self ..
    · simpa [Sys.buf, Bio.Buf.setLock] using h.asked_advance hcall hm hci
    · simpa [Sys.buf, Bio.Buf.setLock] using hi.pins hd
    · have := hi.cached (by simpa [Sys.buf, Bio.Buf.setLock] using hv) (fun hu => hu.1 hlock)
      simpa [Sys.buf, Bio.Buf.setLock] using this
    · exact absurd (Or.inr rfl) hut.2
    · exact absurd (Or.inr rfl) hut.2
  · rw [h.geom.1, h.geom.2]; exact h.spec
  · exact ⟨by simpa [Sys.buf, Bio.Buf.setLock] using hd, by simp [Sys.buf, Bio.Buf.setLock],
      by simpa [Sys.buf, Bio.Buf.setLock] using hv⟩
  · refine (h.clean x hx).imp_right ?_
    rintro ⟨w, hw, hwx⟩
    exact ⟨w, hw, by rw [Sys.buf, hne w hw]; exact hwx⟩
  · rw [Sys.buf, hne w hw]; exact hc.held w hw
  · exact ⟨v', r, by simpa [Sys.buf, Bio.Buf.setLock] using hr, hsafe,
      by simp [Sys.buf, Bio.Buf.setLock], hnl⟩

theorem inv_commit_fill (h : Inv start size s) {v : Var} {b : ℕ}
    (hp : s.log.procs p = .commit regs wrote (.bread v b :: rest)) (hpend : s.pend = .acquired i)
    {bio : Bio.Sys} (hb : Bio.step s.bio (.fill p i (s.disk b)) = some bio) :
    Inv start size { s with bio := bio } := by
  have hc := h.commit p regs wrote _ hp
  have hs := hc.script
  rw [hpend] at hs
  obtain ⟨v', r, hr, hsafe, hl, hnl⟩ := hs
  have hbi : b = (s.buf i).blockno := by cases hr; rfl
  have hbinv := Bio.inv_step h.bio hb
  simp only [Bio.step, Option.ite_none_right_eq_some, Option.some.injEq] at hb
  obtain ⟨⟨hpan, hlock, hval⟩, rfl⟩ := hb
  have hi := h.own i
  have hd := h.dev_of_lock hl
  have hci : s.CommitHolds i := Or.inr hpend
  have hne : ∀ w ∈ s.live, ∀ f : Bio.Buf → Bio.Buf,
      (s.bio.cache.modify i f).buf (s.bufs w) = s.buf (s.bufs w) := fun w hw f =>
    Bio.modify_buf_ne _ _ (hnl w hw)
  refine h.inside (i := i) hp rfl ⟨hbinv, h.log, ⟨rfl, rfl⟩, Or.inl rfl, fun j hj => ?_, ?_, ?_,
    fun _ hb => hb, fun _ hd hv => ?_, fun x hx => ?_⟩ ⟨fun w hw => ?_, hc.inj, hc.nodup, ?_⟩
  · exact ⟨Same.of_eq (Bio.modify_buf_ne _ _ hj), fun c hcj => Iff.rfl, rfl,
      fun _ => rfl, fun _ _ hto => hto, fun _ => rfl, Iff.rfl, rfl, rfl, fun _ => rfl⟩
  · refine ⟨Or.inl ?_, fun q hq => ?_, fun c hm hci => ?_, fun _ => ?_, fun hv _ => ?_, fun _ hut => ?_,
      fun hut _ => ?_⟩
    · simpa [Sys.buf, Bio.Buf.read] using hd
    · exact hi.lock q (by simpa [Sys.buf, Bio.Buf.read] using hq)
    · simpa [Sys.buf, Bio.Buf.read] using hi.asked c hm hci
    · simpa [Sys.buf, Bio.Buf.read] using hi.pins hd
    · have := h.disk_eq hd hval
      simpa [Sys.buf, Bio.Buf.read, hbi] using this
    · exact absurd hci hut.2
    · exact absurd hci hut.2
  · rw [h.geom.1, h.geom.2]; exact h.spec
  · exact ⟨by simpa [Sys.buf, Bio.Buf.read] using hd, by simp [Sys.buf, Bio.Buf.read],
      by simp [Sys.buf, Bio.Buf.read]⟩
  · refine (h.clean x hx).imp_right ?_
    rintro ⟨w, hw, hwx⟩
    exact ⟨w, hw, by rw [Sys.buf, hne w hw]; exact hwx⟩
  · rw [Sys.buf, hne w hw]; exact hc.held w hw
  · dsimp only
    rw [hpend]
    exact ⟨v', r, by simpa [Sys.buf, Bio.Buf.read] using hr, hsafe,
      by simpa [Sys.buf, Bio.Buf.read] using hl, hnl⟩

theorem inv_commit_release (h : Inv start size s) {v : Var}
    (hp : s.log.procs p = .commit regs wrote (.brelse v :: rest)) (hpend : s.pend = .none)
    {bio : Bio.Sys} (hb : Bio.step s.bio (.release p (s.bufs v)) = some bio) :
    Inv start size { s with bio := bio, live := s.live.erase v, pend := .released (s.bufs v) } := by
  have hc := h.commit p regs wrote _ hp
  have hs := hc.script
  rw [hpend] at hs
  obtain ⟨⟨hv, hok⟩, hsafe⟩ := hs.head
  obtain ⟨-, hval, hd, hblk, hdata⟩ := h.live hp hv
  have hbinv := Bio.inv_step h.bio hb
  simp only [Bio.step, Option.ite_none_right_eq_some, Option.some.injEq] at hb
  obtain ⟨⟨hpan, hcall, hlock⟩, rfl⟩ := hb
  have hi := h.own (s.bufs v)
  have hmem : ∀ w, w ∈ s.live.erase v ↔ w ≠ v ∧ w ∈ s.live := fun w => hc.nodup.mem_erase_iff
  have hnl : ∀ w ∈ s.live.erase v, s.bufs w ≠ s.bufs v := fun w hw he =>
    ((hmem w).mp hw).1 (hc.inj w ((hmem w).mp hw).2 v hv he)
  have hne : ∀ w ∈ s.live.erase v, ∀ f : Bio.Buf → Bio.Buf,
      (s.bio.cache.modify (s.bufs v) f).buf (s.bufs w) = s.buf (s.bufs w) := fun w hw f =>
    Bio.modify_buf_ne _ _ (hnl w hw)
  refine h.inside (i := s.bufs v) hp rfl ⟨hbinv, h.log, ⟨rfl, rfl⟩, Or.inl rfl, fun j hj => ?_, ?_, ?_,
    fun _ hb => hb, fun _ hd hv => ?_, fun x hx => ?_⟩
    ⟨fun w hw => ?_, fun a ha b hb => ?_, hc.nodup.erase v, ?_⟩
  · refine ⟨Same.of_eq (Bio.modify_buf_ne _ _ hj), fun c hcj => mem_advance (Or.inr (hcj ▸ hj)), rfl,
      fun _ => rfl, fun _ _ hto => hto, fun _ => rfl, ?_, rfl, rfl, fun _ => rfl⟩
    simp only [Sys.CommitHolds, hpend, reduceCtorEq, or_false, hmem]
    refine exists_congr fun w => and_congr_left fun he => and_iff_right ?_
    rintro rfl
    exact hj he.symm
  · refine ⟨Or.inl ?_, fun q hq => ?_, fun c hm hci => ?_, fun _ => ?_, fun _ _ => ?_, fun _ hut => ?_,
      fun hut _ => ?_⟩
    · simpa [Sys.buf, Bio.Buf.setLock] using hd
    · simp [Sys.buf, Bio.Buf.setLock] at hq
    · simpa [Sys.buf, Bio.Buf.setLock] using h.asked_advance hcall hm hci
    · simpa [Sys.buf, Bio.Buf.setLock] using hi.pins hd
    · rw [← hblk] at hdata
      simpa [Sys.buf, Bio.Buf.setLock] using hdata
    · exact absurd (by simp [Sys.buf, Bio.Buf.setLock]) hut.1
    · exact absurd (by simp [Sys.buf, Bio.Buf.setLock]) hut.1
  · rw [h.geom.1, h.geom.2]; exact h.spec
  · exact ⟨by simpa [Sys.buf, Bio.Buf.setLock] using hd, by simp [Sys.buf, Bio.Buf.setLock],
      by simpa [Sys.buf, Bio.Buf.setLock] using hv⟩
  · rcases h.clean x hx with hpin | ⟨w, hw, hwx⟩
    · exact Or.inl hpin
    · rcases eq_or_ne w v with rfl | hwv
      · -- the block let go is on disk, or pinned
        rw [hblk] at hwx
        rcases hok with hok | hok
        · exact absurd (hwx ▸ hok) hx
        · exact Or.inl (hwx ▸ hok)
      · have hw' := (hmem w).mpr ⟨hwv, hw⟩
        exact Or.inr ⟨w, hw', by rw [Sys.buf, hne w hw']; exact hwx⟩
  · rw [Sys.buf, hne w hw]; exact hc.held w ((hmem w).mp hw).2
  · exact hc.inj a ((hmem a).mp ha).2 b ((hmem b).mp hb).2
  · exact ⟨v, rest, rfl, hsafe, List.mem_cons_self ..⟩

/-! ### Operations that finish -/

theorem inv_commit_bread (h : Inv start size s) {v : Var} {b : ℕ}
    (hp : s.log.procs p = .commit regs wrote (.bread v b :: rest)) (hpend : s.pend = .acquired i)
    (hval : (s.buf i).valid = true) {L : Log.Sys} (hL : Log.step s.log (.commit p) = some L) :
    Inv start size
      { s with log := L, bufs := update s.bufs v i, live := v :: s.live, pend := .none } := by
  have hc := h.commit p regs wrote _ hp
  have hs := hc.script
  rw [hpend] at hs
  obtain ⟨v', r, hr, hsafe, hlock, hnl⟩ := hs
  cases hr
  obtain ⟨hv, hsafe⟩ := hsafe.head
  have hv : v ∉ s.live := hv
  have ha := advanced h.log hp hL
  have hd := h.dev_of_valid hval
  set t : Sys := { s with log := L, bufs := update s.bufs v i, live := v :: s.live, pend := .none }
  have hbufs : ∀ w ∈ s.live, t.bufs w = s.bufs w := fun w hw =>
    update_of_ne (by rintro rfl; exact hv hw) ..
  have hbv : t.bufs v = i := update_self ..
  have hholds : ∀ j, t.CommitHolds j ↔ s.CommitHolds j := by
    intro j
    simp only [Sys.CommitHolds, hpend, Pend.acquired.injEq]
    constructor
    · rintro (⟨w, hw, he⟩ | he)
      · rcases List.mem_cons.mp hw with rfl | hw
        · exact Or.inr (hbv.symm.trans he)
        · exact Or.inl ⟨w, hw, (hbufs w hw).symm.trans he⟩
      · cases he
    · rintro (⟨w, hw, he⟩ | rfl)
      · exact Or.inl ⟨w, List.mem_cons_of_mem _ hw, (hbufs w hw).trans he⟩
      · exact Or.inl ⟨v, List.mem_cons_self .., hbv⟩
  have hlike : ∀ j, Like s t j := by
    refine fun j => ⟨Same.of_eq rfl, fun _ _ => Iff.rfl, rfl, fun _ => congrFun ha.pins _,
      fun huj _ hto => ha.todo hp hto fun he => ?_, fun _ => rfl, hholds j, rfl, rfl, fun _ => rfl⟩
    -- the block just locked is not held by anybody else
    have hbj : (s.buf i).blockno = (s.buf j).blockno := (Instr.bread.inj he).2
    obtain ⟨q, hq⟩ := Option.ne_none_iff_exists'.mp huj.1
    have hij := h.buf_unique hd (h.dev_of_lock hq) hbj
    exact huj.2 (hij ▸ Or.inr hpend)
  refine h.advance (i := i) ha ⟨h.bio, ha.inv, ha.geom, Or.inl ha.lh, fun j _ => hlike j,
    (h.own i).like (hlike i), ?_, fun x hx => ?_, fun _ hd hv => ⟨hd, rfl, hv⟩, fun x hx => ?_⟩
    ⟨fun w hw => ?_, fun a ham b hbm he => ?_, List.nodup_cons.mpr ⟨hv, hc.nodup⟩, ?_⟩
  · rw [h.geom.1, h.geom.2]; exact h.spec
  · rw [ha.pins] at hx; exact hx
  · rw [ha.pins]
    refine (h.clean x hx).imp_right ?_
    rintro ⟨w, hw, hwx⟩
    exact ⟨w, List.mem_cons_of_mem _ hw, by rw [hbufs w hw]; exact hwx⟩
  · dsimp only [Log.Ctx.exec]
    rcases List.mem_cons.mp hw with rfl | hws
    · rw [hbv, update_self]
      exact ⟨hlock, hval, rfl⟩
    · have hwv : w ≠ v := fun he => hv (he ▸ hws)
      rw [hbufs w hws, update_of_ne hwv]
      exact hc.held w hws
  · rcases List.mem_cons.mp ham with rfl | has <;> rcases List.mem_cons.mp hbm with rfl | hbs
    · rfl
    · rw [hbv, hbufs b hbs] at he; exact absurd he.symm (hnl b hbs)
    · rw [hbv, hbufs a has] at he; exact absurd he (hnl a has)
    · rw [hbufs a has, hbufs b hbs] at he; exact hc.inj a has b hbs he
  · have hview : t.view (update regs v (s.buf i).blockno) =
        View.exec (.bread v (s.buf i).blockno) (s.view regs) := by
      rw [Sys.view, ha.pins]; rfl
    show View.Safe start size rest (t.view _)
    exact hview ▸ hsafe

/-- An operation that moves the script and leaves the cache alone. -/
theorem inv_commit_log (h : Inv start size s) (hp : s.log.procs p = .commit regs wrote (ins :: rest))
    (hpend : s.pend = .none) {L : Log.Sys} {d : Disk} {c : Log.Ctx} (ha : Advanced s.log L p c rest)
    (hfrm : ∀ b, ins ≠ .bread .frm b) (hregs : c.regs = regs) (hpins : c.pins = s.log.pins)
    (hlh : c.lh = s.log.lh ∨ c.lh = [])
    (hclean : ∀ b, d b ≠ s.content b → s.disk b ≠ s.content b)
    (hsafe : View.Safe start size rest { s.view regs with disk := d }) :
    Inv start size { s with log := L, disk := d } := by
  have hc := h.commit p regs wrote _ hp
  have hlike : ∀ j, Like s { s with log := L, disk := d } j := fun j =>
    ⟨Same.of_eq rfl, fun _ _ => Iff.rfl, rfl, fun _ => congrFun (ha.pins.trans hpins) _,
      fun _ _ hto => Advanced.todo (t := { s with log := L, disk := d }) ha hp hto (hfrm _), fun _ => rfl,
      Iff.rfl, rfl, rfl, fun _ => rfl⟩
  have hLp : L.pins = s.log.pins := ha.pins.trans hpins
  refine h.advance (i := 0) ha ⟨h.bio, ha.inv, ha.geom, ?_, fun j _ => hlike j,
    (h.own 0).like (hlike 0), ?_, fun x hx => ?_, fun _ hd hv => ⟨hd, rfl, hv⟩, fun x hx => ?_⟩
    ⟨?_, hc.inj, hc.nodup, ?_⟩
  · dsimp only
    rw [ha.lh]; exact hlh
  · rw [h.geom.1, h.geom.2]; exact h.spec
  · dsimp only at hx
    rw [hLp] at hx; exact hx
  · dsimp only
    rw [hLp]; exact h.clean x (hclean x hx)
  · rw [hregs]; exact hc.held
  · dsimp only
    rw [hpend, hregs]
    have hview : ({ s with log := L, disk := d } : Sys).view regs = { s.view regs with disk := d } := by
      rw [Sys.view, hLp]; rfl
    exact hview ▸ hsafe

/-- `memmove` and `write_head`'s stores: the data of a held buffer and the content of its block change
    together, and only for a block of the log. -/
theorem inv_commit_store (h : Inv start size s)
    (hp : s.log.procs p = .commit regs wrote (ins :: rest)) (hpend : s.pend = .none) {v : Var}
    {x : Block} (hv : v ∈ s.live) (hx : ¬ InLog start size (regs v) → x = s.content (regs v))
    {bio : Bio.Sys} (hb : Bio.step s.bio (.store p (s.bufs v) x) = some bio)
    {L : Log.Sys} {c : Log.Ctx} (ha : Advanced s.log L p c rest) (hfrm : ∀ b, ins ≠ .bread .frm b)
    (hregs : c.regs = regs) (hpins : c.pins = s.log.pins) (hlh : c.lh = s.log.lh)
    (hsafe : View.Safe start size rest
      { s.view regs with content := update s.content (regs v) x }) :
    Inv start size
      { s with bio := bio, log := L
               content := update s.content (s.buf (s.bufs v)).blockno x } := by
  have hc := h.commit p regs wrote _ hp
  obtain ⟨hl, hval, hd, hblk, -⟩ := h.live hp hv
  have hbinv := Bio.inv_step h.bio hb
  simp only [Bio.step, Option.ite_none_right_eq_some, Option.some.injEq] at hb
  obtain ⟨⟨hpan, hlock⟩, rfl⟩ := hb
  have hLp : L.pins = s.log.pins := ha.pins.trans hpins
  have hi := h.own (s.bufs v)
  have hci : s.CommitHolds (s.bufs v) := Or.inl ⟨v, hv, rfl⟩
  set t : Sys := { s with
    bio := { s.bio with cache := s.bio.cache.modify (s.bufs v) (.setData x) }, log := L
    content := update s.content (s.buf (s.bufs v)).blockno x } with ht
  have hbuf : ∀ j, (t.buf j).dev = (s.buf j).dev ∧ (t.buf j).blockno = (s.buf j).blockno ∧
      (t.buf j).valid = (s.buf j).valid ∧ (t.buf j).lock = (s.buf j).lock := by
    intro j
    rcases eq_or_ne j (s.bufs v) with rfl | hj
    · simp [ht, Sys.buf, Bio.Buf.setData]
    · have : t.buf j = s.buf j := Bio.modify_buf_ne _ _ hj
      rw [this]
      exact ⟨rfl, rfl, rfl, rfl⟩
  refine h.advance (i := s.bufs v) ha ⟨hbinv, ha.inv, ha.geom, Or.inl (ha.lh.trans hlh),
    fun j hj => ?_, ?_, fun b hb => ?_, fun b hb => hLp ▸ hb, fun _ hd hv => ?_, fun b hb => ?_⟩
    ⟨fun w hw => ?_, hc.inj, hc.nodup, ?_⟩
  · refine ⟨Same.of_eq (Bio.modify_buf_ne _ _ hj), fun _ _ => Iff.rfl, rfl, fun _ => congrFun hLp _,
      fun _ _ hto => Advanced.todo (t := t) ha hp hto (hfrm _), fun hdj => ?_, Iff.rfl, rfl, rfl,
      fun _ => rfl⟩
    exact update_of_ne (fun he => hj (h.buf_unique hdj hd he)) ..
  · obtain ⟨h1, h2, h3, h4⟩ := hbuf (s.bufs v)
    refine ⟨Or.inl (h1.trans hd), fun q hq => hi.lock q (h4 ▸ hq), fun c hm hcv => ?_, fun _ => ?_,
      fun _ _ => ?_, fun _ hut => absurd hci hut.2, fun hut _ => absurd hci hut.2⟩
    · rw [h2]; exact hi.asked c hm hcv
    · rw [h2]; exact (hi.pins hd).trans (congrFun hLp _).symm
    · rw [h2]
      simp [ht, Sys.buf, Bio.Buf.setData]
  · rw [h.geom.1, h.geom.2] at hb
    rcases eq_or_ne b (regs v) with rfl | hne
    · simp only [ht, hblk, update_self]
      rw [hx hb]; exact h.spec _ hb
    · simp only [ht, hblk, update_of_ne hne]; exact h.spec b hb
  · obtain ⟨h1, h2, h3, -⟩ := hbuf (s.bufs v)
    exact ⟨h1.trans hd, h2, h3.trans hv⟩
  · rcases eq_or_ne b (regs v) with rfl | hne
    · exact Or.inr ⟨v, hv, (hbuf _).2.1.trans hblk⟩
    · simp only [ht, hblk, update_of_ne hne] at hb
      refine (h.clean b hb).imp (fun hpin => hLp ▸ hpin) ?_
      rintro ⟨w, hw, hwb⟩
      exact ⟨w, hw, (hbuf _).2.1.trans hwb⟩
  · obtain ⟨-, h2, h3, h4⟩ := hbuf (s.bufs w)
    show (t.buf (s.bufs w)).lock = _ ∧ (t.buf (s.bufs w)).valid = _ ∧ (t.buf (s.bufs w)).blockno = _
    rw [h2, h3, h4, hregs]; exact hc.held w hw
  · rw [show t.pend = .none from hpend, hregs]
    have hview : t.view regs = { s.view regs with content := update s.content (regs v) x } := by
      rw [Sys.view, ← hblk]
      simp only [ht, hLp]; rfl
    exact hview ▸ hsafe

theorem inv_commit_bunpin (h : Inv start size s) {v : Var}
    (hp : s.log.procs p = .commit regs wrote (.bunpin v :: rest))
    {bio : Bio.Sys} (hb : Bio.step s.bio (.bunpin (s.bufs v)) = some bio)
    {L : Log.Sys} (hL : Log.step s.log (.commit p) = some L) :
    Inv start size { s with bio := bio, log := L } := by
  have hc := h.commit p regs wrote _ hp
  obtain ⟨hpend, ⟨hv, hdisk, -⟩, hsafe⟩ := hc.pend_none (by simp) (by simp)
  obtain ⟨hl, hval, hd, hblk, hdata⟩ := h.live hp hv
  have ha := advanced h.log hp hL
  have hLp : L.pins = update s.log.pins (regs v) (s.log.pins (regs v) - 1) := ha.pins
  have hbinv := Bio.inv_step h.bio hb
  simp only [Bio.step, Option.ite_none_right_eq_some, Option.some.injEq] at hb
  obtain ⟨-, rfl⟩ := hb
  have hi := h.own (s.bufs v)
  have hci : s.CommitHolds (s.bufs v) := Or.inl ⟨v, hv, rfl⟩
  set t : Sys := { s with
    bio := { s.bio with cache := Bio.bunpin s.bio.cache (s.bufs v)
                        pins := update s.bio.pins (s.bufs v) (s.bio.pins (s.bufs v) - 1) }
    log := L } with ht
  have hsame : ∀ j, Same (s.buf j) (t.buf j) := by
    intro j
    rcases eq_or_ne j (s.bufs v) with rfl | hj
    · simp only [ht, Sys.buf, Bio.bunpin, Bio.modify_buf_self]; rfl
    · exact Same.of_eq (Bio.modify_buf_ne _ _ hj)
  refine h.advance (i := s.bufs v) ha ⟨hbinv, ha.inv, ha.geom, Or.inl ha.lh, fun j hj => ?_, ?_, ?_,
    fun b hb => ?_, fun _ hd hv => ?_, fun b hb => ?_⟩ ⟨fun w hw => ?_, hc.inj, hc.nodup, ?_⟩
  · refine ⟨hsame j, fun _ _ => Iff.rfl, update_of_ne hj .., fun hdj => ?_,
      fun _ _ hto => Advanced.todo (t := t) ha hp hto (by simp), fun _ => rfl, Iff.rfl, rfl, rfl,
      fun _ => rfl⟩
    show L.pins _ = _
    rw [hLp, update_of_ne fun he => hj (h.buf_unique hdj hd (he.trans hblk.symm))]
  · have h2 : (t.buf (s.bufs v)).blockno = regs v := by rw [hsame]; exact hblk
    refine ⟨Or.inl (by rw [hsame]; exact hd), fun q hq => hi.lock q ?_, fun c hm hcv => ?_, fun _ => ?_,
      fun _ _ => ?_, fun _ hut => absurd hci hut.2, fun hut _ => absurd hci hut.2⟩
    · rw [hsame] at hq; exact hq
    · rw [h2, ← hblk]; exact hi.asked c hm hcv
    · rw [h2]
      show update s.bio.pins _ _ _ = L.pins _
      rw [hLp, update_self, update_self, hi.pins hd, hblk]
    · rw [h2, hsame]; exact hdata
  · rw [h.geom.1, h.geom.2]; exact h.spec
  · have hb : 0 < L.pins b := hb
    rw [hLp] at hb
    rcases eq_or_ne b (regs v) with rfl | hne
    · rw [update_self] at hb; omega
    · rwa [update_of_ne hne] at hb
  · refine ⟨?_, ?_, ?_⟩ <;> rw [hsame]
    exacts [hd, hv]
  · show 0 < L.pins b ∨ _
    rcases eq_or_ne b (regs v) with rfl | hne
    · -- unpinned only once it is on disk
      exact absurd hdisk hb
    · rw [hLp, update_of_ne hne]
      refine (h.clean b hb).imp_right ?_
      rintro ⟨w, hw, hwb⟩
      exact ⟨w, hw, by rw [hsame]; exact hwb⟩
  · rw [hsame]; exact hc.held w hw
  · rw [show t.pend = .none from hpend]
    have hview : t.view regs = View.exec (.bunpin v) (s.view regs) := by
      rw [Sys.view]
      simp only [ht, hLp]; rfl
    exact hview ▸ hsafe

theorem inv_commit_drop (h : Inv start size s) {v : Var}
    (hp : s.log.procs p = .commit regs wrote (.brelse v :: rest)) (hpend : s.pend = .released i)
    {bio : Bio.Sys} (hb : Bio.step s.bio (.drop p i) = some bio)
    {L : Log.Sys} (hL : Log.step s.log (.commit p) = some L) :
    Inv start size { s with bio := bio, log := L, pend := .none } := by
  have hc := h.commit p regs wrote _ hp
  have hs := hc.script
  rw [hpend] at hs
  obtain ⟨v', r, hr, hsafe, hcall⟩ := hs
  cases hr
  have ha := advanced h.log hp hL
  have hLp : L.pins = s.log.pins := ha.pins
  have hbinv := Bio.inv_step h.bio hb
  simp only [Bio.step, Option.ite_none_right_eq_some, Option.some.injEq] at hb
  obtain ⟨-, rfl⟩ := hb
  have hi := h.own i
  have hd := h.dev_of_call hcall
  set t : Sys := { s with
    bio := { s.bio with cache := Bio.brelse s.bio.cache i
                        calls := s.bio.calls.erase ⟨p, i, .releasing⟩ }
    log := L, pend := .none } with ht
  have hsame : ∀ j, Same (s.buf j) (t.buf j) := by
    intro j
    simp only [ht, Sys.buf, Bio.brelse_buf]
    rcases eq_or_ne j i with rfl | hj
    · rw [Bio.modify_buf_self]; rfl
    · exact Same.of_eq (Bio.modify_buf_ne _ _ hj)
  have hholds : ∀ j, t.CommitHolds j ↔ s.CommitHolds j := fun j => by
    simp only [Sys.CommitHolds, hpend, ht, reduceCtorEq, or_false]
  have htodo : ∀ b, s.Todo b → t.Todo b := fun b hto => Advanced.todo (t := t) ha hp hto (by simp)
  refine h.advance (i := i) ha ⟨hbinv, ha.inv, ha.geom, Or.inl ha.lh, fun j hj => ?_, ?_, ?_,
    fun b hb => hLp ▸ hb, fun _ hd hv => ?_, fun b hb => ?_⟩ ⟨fun w hw => ?_, hc.inj, hc.nodup, ?_⟩
  · refine ⟨hsame j, fun c hcj => List.mem_erase_of_ne ?_, rfl, fun _ => congrFun hLp _,
      fun _ _ => htodo _, fun _ => rfl, hholds j, rfl, rfl, fun _ => rfl⟩
    rintro rfl
    exact hj hcj.symm
  · have hb : (t.buf i).blockno = (s.buf i).blockno := by rw [hsame]
    have hk : (t.buf i).lock = (s.buf i).lock := by rw [hsame]
    have hv : (t.buf i).valid = (s.buf i).valid := by rw [hsame]
    have hx : (t.buf i).data = (s.buf i).data := by rw [hsame]
    have hu : t.UserHolds i ↔ s.UserHolds i := by rw [Sys.UserHolds, Sys.UserHolds, hk, hholds]
    refine ⟨Or.inl (by rw [hsame]; exact hd), fun q hq => ?_, fun c hm hci => ?_, fun _ => ?_,
      fun hvt hut => ?_, fun hvt hut => ?_, fun hut hlt => ?_⟩
    · exact (List.mem_erase_of_ne (by simp)).mpr (hi.lock q (hk ▸ hq))
    · rw [hb]; exact hi.asked c (List.mem_of_mem_erase hm) hci
    · rw [hb]; exact (hi.pins hd).trans (congrFun hLp _).symm
    · rw [hx, hb]; exact hi.cached (hv ▸ hvt) fun hus => hut (hu.mpr hus)
    · rw [hb]; exact hi.seen (hv ▸ hvt) (hu.mp hut)
    · rw [hb]
      obtain ⟨h1, h2⟩ := hi.logged (hu.mp hut) hlt
      exact ⟨hLp.symm ▸ h1, htodo _ h2⟩
  · rw [h.geom.1, h.geom.2]; exact h.spec
  · refine ⟨?_, ?_, ?_⟩ <;> rw [hsame]
    exacts [hd, hv]
  · refine (h.clean b hb).imp (fun hpin => hLp.symm ▸ hpin) ?_
    rintro ⟨w, hw, hwb⟩
    exact ⟨w, hw, by rw [hsame]; exact hwb⟩
  · rw [hsame]; exact hc.held w hw
  · have hview : t.view regs = s.view regs := by
      rw [Sys.view, Sys.view]
      simp only [ht, hLp]
    show View.Safe start size rest (t.view regs)
    exact hview ▸ hsafe

/-- The second critical section of `end_op`: nobody holds a buffer for `commit()` any more. -/
theorem inv_commit_end (h : Inv start size s) (hp : s.log.procs p = .commit regs wrote [])
    {L : Log.Sys} (hL : Log.step s.log (.commit p) = some L) : Inv start size { s with log := L } := by
  have hc := h.commit p regs wrote _ hp
  have hinv := Log.inv_step h.log hL
  obtain ⟨-, ⟨_, hl, -⟩ | ⟨_, _, _, hl, -⟩ | ⟨_, _, hl, -⟩ | ⟨q, r, w, x, hl, hq, rfl⟩⟩ :=
    Log.step_cases hL
  · cases hl
  · cases hl
  · cases hl
  · cases hl
    rw [hp] at hq
    cases hq
    have hno := (hinv.free rfl).1
    refine h.setLog hinv ⟨rfl, rfl⟩ rfl rfl (fun b _ _ q regs' wrote' rest' hq =>
      absurd hq (hno q regs' wrote' rest')) (fun _ => ?_) fun q regs' wrote' rest' hq =>
      absurd hq (hno q regs' wrote' rest')
    have hs := hc.script
    cases hpend : s.pend with
    | none => rw [hpend] at hs; exact ⟨hs, rfl⟩
    | waiting k => rw [hpend] at hs; obtain ⟨_, _, hr, -⟩ := hs; cases hr
    | acquired k => rw [hpend] at hs; obtain ⟨_, _, hr, -⟩ := hs; cases hr
    | released k => rw [hpend] at hs; obtain ⟨_, _, hr, -⟩ := hs; cases hr

/-! ### Every step -/

theorem inv_commitInstr (h : Inv start size s)
    (hp : s.log.procs p = .commit regs wrote (ins :: rest))
    (ht : commitInstr s p (Log.step s.log (.commit p)) ins = some t) : Inv start size t := by
  have hc := h.commit p regs wrote _ hp
  cases ins with
  | bread v b =>
    rw [commitInstr] at ht
    split at ht
    · exact inv_commit_bget h hp ‹_› ht
    · obtain ⟨bio, hb, rfl⟩ := Option.map_eq_some_iff.mp ht
      exact inv_commit_acquire h hp ‹_› hb
    · rename_i k hpend
      split at ht
      · obtain ⟨L, hL, rfl⟩ := Option.map_eq_some_iff.mp ht
        exact inv_commit_bread h hp hpend ‹_› hL
      · obtain ⟨bio, hb, rfl⟩ := Option.map_eq_some_iff.mp ht
        exact inv_commit_fill h hp hpend hb
    · cases ht
  | memmove d src =>
    obtain ⟨hpend, ⟨hd, hsrc, hsame⟩, hsafe⟩ := hc.pend_none (by simp) (by simp)
    rw [commitInstr, Option.bind_eq_some_iff] at ht
    obtain ⟨bio, hb, ht⟩ := ht
    obtain ⟨L, hL, rfl⟩ := Option.map_eq_some_iff.mp ht
    have hdata := (h.live hp hsrc).2.2.2.2
    refine inv_commit_store h hp hpend hd (fun hhome => hdata.trans (hsame hhome)) hb
      (advanced h.log hp hL) (by simp) rfl rfl rfl ?_
    rw [hdata]; exact hsafe
  | sethead v lh =>
    obtain ⟨hpend, ⟨hv, hlog⟩, hsafe⟩ := hc.pend_none (by simp) (by simp)
    rw [commitInstr, Option.bind_eq_some_iff] at ht
    obtain ⟨bio, hb, ht⟩ := ht
    obtain ⟨L, hL, rfl⟩ := Option.map_eq_some_iff.mp ht
    refine inv_commit_store h hp hpend hv (fun hhome => absurd hlog hhome) hb
      (advanced h.log hp hL) (by simp) rfl rfl rfl ?_
    rw [(h.live hp hv).2.2.2.2]; exact hsafe
  | bwrite v =>
    obtain ⟨hpend, hv, hsafe⟩ := hc.pend_none (by simp) (by simp)
    obtain ⟨hl, -, -, hblk, hdata⟩ := h.live hp hv
    rw [commitInstr, if_pos hl] at ht
    obtain ⟨L, hL, rfl⟩ := Option.map_eq_some_iff.mp ht
    rw [hblk, hdata]
    refine inv_commit_log h hp hpend (advanced h.log hp hL) (by simp) rfl rfl (Or.inl rfl)
      (fun b hb => ?_) hsafe
    rcases eq_or_ne b (regs v) with rfl | hne
    · exact absurd (update_self ..) hb
    · rwa [update_of_ne hne] at hb
  | bunpin v =>
    rw [commitInstr, Option.bind_eq_some_iff] at ht
    obtain ⟨bio, hb, ht⟩ := ht
    obtain ⟨L, hL, rfl⟩ := Option.map_eq_some_iff.mp ht
    exact inv_commit_bunpin h hp hb hL
  | brelse v =>
    rw [commitInstr] at ht
    split at ht
    · obtain ⟨bio, hb, ht⟩ := Option.bind_eq_some_iff.mp ht
      obtain ⟨L, hL, rfl⟩ := Option.map_eq_some_iff.mp ht
      exact inv_commit_drop h hp ‹_› hb hL
    · rename_i hne
      obtain ⟨bio, hb, rfl⟩ := Option.map_eq_some_iff.mp ht
      refine inv_commit_release h hp ?_ hb
      -- a `bread` in progress would be the next operation
      have hs := hc.script
      cases hpend : s.pend with
      | none => rfl
      | waiting k => rw [hpend] at hs; obtain ⟨_, _, hr, -⟩ := hs; cases hr
      | acquired k => rw [hpend] at hs; obtain ⟨_, _, hr, -⟩ := hs; cases hr
      | released k => exact absurd hpend (hne k)
  | clear =>
    obtain ⟨hpend, -, hsafe⟩ := hc.pend_none (by simp) (by simp)
    rw [commitInstr] at ht
    obtain ⟨L, hL, rfl⟩ := Option.map_eq_some_iff.mp ht
    exact inv_commit_log h hp hpend (advanced h.log hp hL) (by simp) rfl rfl (Or.inr rfl)
      (fun _ hb => hb) hsafe

theorem inv_step {l : Label} (h : Inv start size s) (ht : step s l = some t) : Inv start size t := by
  cases l with
  | bread p b =>
    simp only [step, Option.ite_none_right_eq_some] at ht
    exact inv_bread h ht.1 ht.2
  | acquire p i => exact inv_acquire h ht
  | fill p i => exact inv_fill h ht
  | store p i x => exact inv_store h ht
  | logWrite p i => exact inv_logWrite h ht
  | release p i => exact inv_release h ht
  | drop p i => exact inv_drop h ht
  | beginOp p => exact inv_beginOp h ht
  | endOp p => exact inv_endOp h ht
  | commit p =>
    simp only [step] at ht
    split at ht
    · obtain ⟨L, hL, rfl⟩ := Option.map_eq_some_iff.mp ht
      exact inv_commit_end h ‹_› hL
    · exact inv_commitInstr h ‹_› ht
    · cases ht

/-! ### Refinement -/

theorem commit_spec (ht : step s (.commit p) = some t) : t.spec = s.spec := by
  simp only [step] at ht
  split at ht
  · obtain ⟨L, -, rfl⟩ := Option.map_eq_some_iff.mp ht
    rfl
  · rename_i ins rest _
    cases ins with
    | bread v b =>
      rw [commitInstr] at ht
      split at ht
      · obtain ⟨bio, -, rfl⟩ := Option.map_eq_some_iff.mp ht
        split <;> rfl
      · obtain ⟨bio, -, rfl⟩ := Option.map_eq_some_iff.mp ht
        rfl
      · split at ht <;> obtain ⟨x, -, rfl⟩ := Option.map_eq_some_iff.mp ht <;> rfl
      · cases ht
    | memmove _ _ | sethead _ _ | bunpin _ =>
      obtain ⟨bio, -, ht⟩ := Option.bind_eq_some_iff.mp ht
      obtain ⟨L, -, rfl⟩ := Option.map_eq_some_iff.mp ht
      rfl
    | bwrite v =>
      rw [commitInstr] at ht
      split at ht
      · obtain ⟨L, -, rfl⟩ := Option.map_eq_some_iff.mp ht
        rfl
      · cases ht; rfl
    | brelse v =>
      rw [commitInstr] at ht
      split at ht
      · obtain ⟨bio, -, ht⟩ := Option.bind_eq_some_iff.mp ht
        obtain ⟨L, -, rfl⟩ := Option.map_eq_some_iff.mp ht
        rfl
      · obtain ⟨bio, -, rfl⟩ := Option.map_eq_some_iff.mp ht
        rfl
    | clear =>
      obtain ⟨L, -, rfl⟩ := Option.map_eq_some_iff.mp ht
      rfl
  · cases ht

theorem logWrite_spec (ht : logWrite s p i = some t) : t.spec = s.spec := by
  obtain ⟨L, -, ht⟩ := Option.bind_eq_some_iff.mp ht
  split at ht
  · cases ht; rfl
  split at ht
  · obtain ⟨bio, -, rfl⟩ := Option.map_eq_some_iff.mp ht
    rfl
  · cases ht; rfl

theorem bread_spec {b : ℕ} (ht : bread s p b (fun t _ => t) = some t) : t.spec = s.spec := by
  obtain ⟨bio, -, rfl⟩ := Option.map_eq_some_iff.mp ht
  split <;> rfl

/-- A `bread` that returns gives the content the plain map has for the block it was asked for. -/
theorem Inv.read (h : Inv start size s) (hc : ⟨p, i, .held⟩ ∈ s.bio.calls)
    (hv : (s.buf i).valid = true) (hu : s.UserHolds i) (hd : (s.buf i).data = s.seen i)
    (hhome : ¬ InLog start size (s.req p i)) : (s.buf i).data = s.spec (s.req p i) := by
  have hreq : s.req p i = (s.buf i).blockno := (h.own i).asked _ hc rfl
  rw [hreq] at hhome ⊢
  rw [hd, (h.own i).seen hv hu, h.spec _ hhome]

theorem step_sim {l : Label} (h : Inv start size s) (ht : step s l = some t) :
    run plain s.spec (events s l t) = some t.spec := by
  have hinv := inv_step h ht
  obtain ⟨hstart, hsize⟩ := h.geom
  cases l with
  | bread p b =>
    simp only [step, Option.ite_none_right_eq_some] at ht
    exact congrArg some (bread_spec ht.2).symm
  | acquire p i =>
    have ht' := ht
    simp only [step, Bio.step, Option.ite_none_right_eq_some, Option.map_eq_some_iff,
      Option.some.injEq] at ht'
    obtain ⟨hu, bio, ⟨⟨-, hcall, -⟩, rfl⟩, rfl⟩ := ht'
    rw [events, hstart, hsize]
    split
    · rename_i hcond
      have := hinv.read (p := p) (i := i) (List.mem_cons_self ..) hcond.1
        (hinv.userHolds hu (by simp [Sys.buf, Bio.Buf.setLock]))
        (by simp [Sys.buf, Bio.Buf.setLock]) hcond.2
      simp only [run_cons, plain, run_nil]
      rw [if_pos this.symm]; rfl
    · rfl
  | fill p i =>
    have ht' := ht
    simp only [step, Bio.step, Option.ite_none_right_eq_some, Option.map_eq_some_iff,
      Option.some.injEq] at ht'
    obtain ⟨hu, bio, ⟨⟨-, hlock, -⟩, rfl⟩, rfl⟩ := ht'
    rw [events, hstart, hsize]
    split
    · rename_i hcond
      have := hinv.read (p := p) (i := i) ((h.own i).lock p hlock) (by simp [Sys.buf, Bio.Buf.read])
        (hinv.userHolds hu (by simpa [Sys.buf, Bio.Buf.read] using hlock))
        (by simp [Sys.buf, Bio.Buf.read]) hcond
      simp only [run_cons, plain, run_nil]
      rw [if_pos this.symm]; rfl
    · rfl
  | store p i x =>
    simp only [step, Option.ite_none_right_eq_some, Option.map_eq_some_iff] at ht
    obtain ⟨-, bio, -, rfl⟩ := ht
    rfl
  | logWrite p i =>
    simp only [step, Option.ite_none_right_eq_some] at ht
    exact congrArg some (logWrite_spec ht.2).symm
  | release p i =>
    simp only [step, Option.ite_none_right_eq_some, Option.map_eq_some_iff] at ht
    obtain ⟨-, bio, -, rfl⟩ := ht
    rw [events]
    split <;> rfl
  | drop p i =>
    simp only [step, Option.ite_none_right_eq_some, Option.map_eq_some_iff] at ht
    obtain ⟨-, bio, -, rfl⟩ := ht
    rfl
  | beginOp p =>
    obtain ⟨L, -, rfl⟩ := Option.map_eq_some_iff.mp ht
    rfl
  | endOp p =>
    obtain ⟨L, -, rfl⟩ := Option.map_eq_some_iff.mp ht
    rfl
  | commit p => exact congrArg some (commit_spec ht).symm

end

/-- CORRECT (refinement): in every run, of any number of processes, every `bread` of a block outside
    the log returns what the plain map from block numbers to contents holds there: the contents most
    recently left in the block by a holder that logged it, or the initial disk's. No step of
    `commit()` changes that map. -/
theorem store_refines {start size : ℕ} {d : Disk} {ls : List Label} {s : Sys}
    (h : run step (Sys.init start size d) ls = some s) :
    run plain d (trace step events (Sys.init start size d) ls) = some s.spec ∧
    ∀ p t, step s (.commit p) = some t → t.spec = s.spec :=
  ⟨run_refines (f := Sys.spec) (I := Inv start size) (fun _ _ _ hI ht => inv_step hI ht)
      (fun _ _ _ hI ht => step_sim hI ht) (inv_init start size d) h,
    fun _ _ ht => commit_spec ht⟩

/-- Process 0 writes block 46 in one operation and commits it; then process 1 reads the block. -/
def writeThenRead : List Label :=
  [.beginOp 0, .bread 0 46, .acquire 0 0, .fill 0 0, .store 0 0 (fun _ => 7), .logWrite 0 0,
    .release 0 0, .drop 0 0, .endOp 0] ++ List.replicate 43 (.commit 0) ++ [.bread 1 46, .acquire 1 0]

theorem store_refines_writeThenRead : ∃ s,
    run step (Sys.init 2 LOGSIZE fun _ _ => 0) writeThenRead = some s ∧
    (s.spec 46 0 = 7 ∧ s.disk 46 0 = 7 ∧ s.log.committing = false) ∧
    run plain (fun _ _ => 0) (trace step events (Sys.init 2 LOGSIZE fun _ _ => 0) writeThenRead) =
      some s.spec := by
  obtain ⟨s, hs⟩ := Option.isSome_iff_exists.mp
    (show (run step (Sys.init 2 LOGSIZE fun _ _ => 0) writeThenRead).isSome = true by decide +kernel)
  have hr : (run step (Sys.init 2 LOGSIZE fun _ _ => 0) writeThenRead).map
      (fun s => decide (s.spec 46 0 = 7 ∧ s.disk 46 0 = 7 ∧ s.log.committing = false)) = some true := by
    decide +kernel
  rw [hs, Option.map_some, Option.some.injEq, decide_eq_true_eq] at hr
  exact ⟨s, hs, hr, (store_refines hs).1⟩

end Minios.Store
