import Minios.Store.Commit

/-! Cache, pins, log and disk: the invariant, and why the processes outside `commit()` keep it.

    For each buffer (`Own`): a valid buffer that nobody outside `commit()` holds has the content of
    its block, and one that is held by somebody gave its holder that content. Over all buffers
    (`Inv`): a block whose content is not on disk is pinned or in a buffer `commit()` holds, and a
    pinned block stays cached; so a disk read never finds an old block. -/

namespace Minios.Store
open Schemes Function
open Log (Var Instr InLog)

/-- The buffers differ at most in `refcnt`. -/
def Same (b b' : Bio.Buf) : Prop := b' = { b with refcnt := b'.refcnt }

/-- `commit()` holds buffer `i`. -/
def Sys.CommitHolds (s : Sys) (i : Fin NBUF) : Prop :=
  (∃ v ∈ s.live, s.bufs v = i) ∨ s.pend = .acquired i

/-- Some process holds buffer `i`, but not for `commit()`. -/
def Sys.UserHolds (s : Sys) (i : Fin NBUF) : Prop := (s.buf i).lock ≠ none ∧ ¬ s.CommitHolds i

/-- If `commit()` runs, its `write_log` has still to lock block `b`. -/
def Sys.Todo (s : Sys) (b : ℕ) : Prop :=
  ∀ p regs wrote rest, s.log.procs p = .commit regs wrote rest → .bread .frm b ∈ rest

/-- What `commit()` sees when its variables hold these blocks. -/
def Sys.view (s : Sys) (regs : Var → ℕ) : View where
  content := s.content
  disk := s.disk
  pins := s.log.pins
  regs := regs
  live := s.live

/-- The invariant of one buffer. -/
structure Own (s : Sys) (i : Fin NBUF) : Prop where
  dev : (s.buf i).dev = ROOTDEV ∨
    (s.buf i).valid = false ∧ (∀ c ∈ s.bio.calls, c.buf ≠ i) ∧ s.bio.pins i = 0
  lock : ∀ p, (s.buf i).lock = some p → ⟨p, i, .held⟩ ∈ s.bio.calls
  asked : ∀ c ∈ s.bio.calls, c.buf = i → s.req c.pid i = (s.buf i).blockno
  pins : (s.buf i).dev = ROOTDEV → s.bio.pins i = s.log.pins (s.buf i).blockno
  cached : (s.buf i).valid = true → ¬ s.UserHolds i → (s.buf i).data = s.content (s.buf i).blockno
  seen : (s.buf i).valid = true → s.UserHolds i → s.seen i = s.content (s.buf i).blockno
  logged : s.UserHolds i → s.logged i = true →
    0 < s.log.pins (s.buf i).blockno ∧ s.Todo (s.buf i).blockno

/-- Where the committing process `p` stands: its variables hold their buffers, and the rest of its
    script is safe. -/
structure Commit (start size : ℕ) (s : Sys) (p : ℕ) (regs : Var → ℕ) (rest : List Instr) : Prop where
  held : ∀ v ∈ s.live, (s.buf (s.bufs v)).lock = some p ∧ (s.buf (s.bufs v)).valid = true ∧
    (s.buf (s.bufs v)).blockno = regs v
  inj : ∀ v ∈ s.live, ∀ w ∈ s.live, s.bufs v = s.bufs w → v = w
  nodup : s.live.Nodup
  script : match s.pend with
    | .none => View.Safe start size rest (s.view regs)
    | .waiting i => ∃ v r, rest = .bread v (s.buf i).blockno :: r ∧
        View.Safe start size rest (s.view regs) ∧ ⟨p, i, .waiting⟩ ∈ s.bio.calls
    | .acquired i => ∃ v r, rest = .bread v (s.buf i).blockno :: r ∧
        View.Safe start size rest (s.view regs) ∧ (s.buf i).lock = some p ∧ ∀ w ∈ s.live, s.bufs w ≠ i
    | .released i => ∃ v r, rest = .brelse v :: r ∧ View.Safe start size r (s.view regs) ∧
        ⟨p, i, .releasing⟩ ∈ s.bio.calls

structure Inv (start size : ℕ) (s : Sys) : Prop where
  bio : Bio.Inv s.bio
  log : Log.Inv s.log
  geom : s.log.start = start ∧ s.log.size = size
  own : ∀ i, Own s i
  spec : ∀ b, ¬ InLog start size b → s.content b = s.spec b
  pinned : ∀ b, 0 < s.log.pins b →
    ∃ i, (s.buf i).dev = ROOTDEV ∧ (s.buf i).blockno = b ∧ (s.buf i).valid = true
  clean : ∀ b, s.disk b ≠ s.content b →
    0 < s.log.pins b ∨ ∃ v ∈ s.live, (s.buf (s.bufs v)).blockno = b
  listed : ∀ b ∈ s.log.lh, ¬ InLog start size b
  room : s.log.lh ≠ [] → s.log.lh.length + 1 ≤ size
  idle : s.log.committing = false → s.live = [] ∧ s.pend = .none
  commit : ∀ p regs wrote rest, s.log.procs p = .commit regs wrote rest →
    Commit start size s p regs rest

theorem inv_init (start size : ℕ) (d : Disk) : Inv start size (Sys.init start size d) where
  bio := Bio.inv_init
  log := Log.inv_init start size
  geom := ⟨rfl, rfl⟩
  own i := by
    refine ⟨Or.inr ⟨rfl, by simp [Sys.init, Bio.Sys.init], rfl⟩, fun p h => ?_, ?_, fun _ => rfl,
      fun h => ?_, fun h => ?_, fun h => ?_⟩
    · simp [Sys.init, Sys.buf, Bio.Sys.init, Bio.binit] at h
    · simp [Sys.init, Bio.Sys.init]
    · simp [Sys.init, Sys.buf, Bio.Sys.init, Bio.binit] at h
    · simp [Sys.init, Sys.buf, Bio.Sys.init, Bio.binit] at h
    · exact absurd rfl h.1
  spec _ _ := rfl
  pinned b h := by simp [Sys.init, Log.Sys.init] at h
  clean b h := absurd rfl h
  listed b h := by simp [Sys.init, Log.Sys.init] at h
  room h := absurd rfl h
  idle _ := ⟨rfl, rfl⟩
  commit p regs wrote rest h := by simp [Sys.init, Log.Sys.init] at h

section
variable {start size : ℕ} {s t : Sys} {p : ℕ} {i j : Fin NBUF}

/-! ### Consequences -/

theorem Same.of_eq {b b' : Bio.Buf} (h : b' = b) : Same b b' := by rw [Same, h]

theorem Inv.refcnt_pos (h : Inv start size s) {c : Bio.Call} (hc : c ∈ s.bio.calls) :
    0 < (s.buf c.buf).refcnt := by
  have := h.bio.refcnt c.buf
  have hpos : 0 < s.bio.calls.countP (fun d => d.buf = c.buf) :=
    List.countP_pos_iff.mpr ⟨c, hc, by simp⟩
  rw [Sys.buf]
  omega

theorem Inv.refcnt_pos_of_pins (h : Inv start size s) (hp : 0 < s.bio.pins i) :
    0 < (s.buf i).refcnt := by
  have := h.bio.refcnt i
  rw [Sys.buf]
  omega

theorem Inv.unused (h : Inv start size s) (h0 : (s.buf i).refcnt = 0) :
    (∀ c ∈ s.bio.calls, c.buf ≠ i) ∧ s.bio.pins i = 0 := by
  refine ⟨fun c hc he => ?_, ?_⟩
  · have := h.refcnt_pos hc
    rw [he] at this
    omega
  · rcases Nat.eq_zero_or_pos (s.bio.pins i) with hz | hpos
    · exact hz
    · have := h.refcnt_pos_of_pins hpos
      omega

theorem Inv.dev_of_call (h : Inv start size s) {c : Bio.Call} (hc : c ∈ s.bio.calls) :
    (s.buf c.buf).dev = ROOTDEV :=
  (h.own c.buf).dev.resolve_right fun hno => hno.2.1 c hc rfl

theorem Inv.dev_of_valid (h : Inv start size s) (hv : (s.buf i).valid = true) :
    (s.buf i).dev = ROOTDEV :=
  (h.own i).dev.resolve_right fun hno => by rw [hno.1] at hv; cases hv

theorem Inv.dev_of_lock (h : Inv start size s) (hl : (s.buf i).lock = some p) :
    (s.buf i).dev = ROOTDEV :=
  h.dev_of_call ((h.own i).lock p hl)

theorem Inv.buf_unique (h : Inv start size s) (hi : (s.buf i).dev = ROOTDEV)
    (hj : (s.buf j).dev = ROOTDEV) (hb : (s.buf i).blockno = (s.buf j).blockno) : i = j :=
  h.bio.unique i j (by rw [Sys.buf] at hi; rw [hi]; decide) (hi.trans hj.symm) hb

theorem Inv.commitHolds (h : Inv start size s) {regs wrote rest}
    (hp : s.log.procs p = .commit regs wrote rest) (hi : s.CommitHolds i) :
    (s.buf i).lock = some p := by
  have hc := h.commit p regs wrote rest hp
  rcases hi with ⟨v, hv, rfl⟩ | hpend
  · exact (hc.held v hv).1
  · have hs := hc.script
    rw [hpend] at hs
    obtain ⟨v, r, -, -, hl, -⟩ := hs
    exact hl

theorem Inv.not_commitHolds (h : Inv start size s) (hc : s.log.committing = false) :
    ¬ s.CommitHolds i := by
  obtain ⟨hl, hp⟩ := h.idle hc
  rintro (⟨v, hv, -⟩ | hpend)
  · rw [hl] at hv; cases hv
  · rw [hp] at hpend; cases hpend

theorem user_ne (hu : s.user p = true) {q : ℕ} {regs wrote rest}
    (hq : s.log.procs q = .commit regs wrote rest) : q ≠ p := by
  rintro rfl
  rw [Sys.user, hq] at hu
  cases hu

theorem Inv.not_commitHolds_of_user (h : Inv start size s) (hu : s.user p = true)
    (hl : (s.buf i).lock = some p) : ¬ s.CommitHolds i := by
  intro hi
  cases hc : s.log.committing with
  | false => exact h.not_commitHolds hc hi
  | true =>
    obtain ⟨q, regs, wrote, rest, hq, -⟩ := h.log.busy hc
    have := h.commitHolds hq hi
    rw [hl] at this
    exact user_ne hu hq (Option.some.inj this).symm

theorem Inv.userHolds (h : Inv start size s) (hu : s.user p = true)
    (hl : (s.buf i).lock = some p) : s.UserHolds i :=
  ⟨by rw [hl]; simp, h.not_commitHolds_of_user hu hl⟩

/-- What a disk read finds in an invalid buffer that is not one of `commit()`'s variables. -/
theorem Inv.disk_eq (h : Inv start size s) (hd : (s.buf i).dev = ROOTDEV)
    (hv : (s.buf i).valid = false) : s.disk (s.buf i).blockno = s.content (s.buf i).blockno := by
  by_contra hne
  rcases h.clean _ hne with hpin | ⟨v, hvl, hb⟩
  · obtain ⟨j, hjd, hjb, hjv⟩ := h.pinned _ hpin
    rw [h.buf_unique hd hjd hjb.symm, hjv] at hv
    cases hv
  · cases hc : s.log.committing with
    | false => rw [(h.idle hc).1] at hvl; cases hvl
    | true =>
      obtain ⟨q, regs, wrote, rest, hq, -⟩ := h.log.busy hc
      have hval := ((h.commit q regs wrote rest hq).held v hvl).2.1
      rw [h.buf_unique hd (h.dev_of_valid hval) hb.symm, hval] at hv
      cases hv

/-! ### Steps that work on one buffer -/

/-- Nothing that the invariant of buffer `j` speaks of has changed. -/
structure Like (s t : Sys) (j : Fin NBUF) : Prop where
  buf : Same (s.buf j) (t.buf j)
  calls : ∀ c : Bio.Call, c.buf = j → (c ∈ t.bio.calls ↔ c ∈ s.bio.calls)
  pins : t.bio.pins j = s.bio.pins j
  logPins : (s.buf j).dev = ROOTDEV → t.log.pins (s.buf j).blockno = s.log.pins (s.buf j).blockno
  todo : s.UserHolds j → 0 < s.log.pins (s.buf j).blockno → s.Todo (s.buf j).blockno →
    t.Todo (s.buf j).blockno
  content : (s.buf j).dev = ROOTDEV → t.content (s.buf j).blockno = s.content (s.buf j).blockno
  holds : t.CommitHolds j ↔ s.CommitHolds j
  seen : t.seen j = s.seen j
  logged : t.logged j = s.logged j
  req : ∀ q, t.req q j = s.req q j

theorem Own.like (h : Own s j) (hl : Like s t j) : Own t j := by
  have hd : (t.buf j).dev = (s.buf j).dev := by rw [hl.buf]
  have hb : (t.buf j).blockno = (s.buf j).blockno := by rw [hl.buf]
  have hv : (t.buf j).valid = (s.buf j).valid := by rw [hl.buf]
  have hx : (t.buf j).data = (s.buf j).data := by rw [hl.buf]
  have hk : (t.buf j).lock = (s.buf j).lock := by rw [hl.buf]
  have hu : t.UserHolds j ↔ s.UserHolds j := by rw [Sys.UserHolds, Sys.UserHolds, hk, hl.holds]
  have hdev : (s.buf j).valid = true → (s.buf j).dev = ROOTDEV := fun hval =>
    h.dev.resolve_right fun hno => by rw [hno.1] at hval; cases hval
  refine ⟨?_, fun p hp => ?_, fun c hc hcj => ?_, fun hdt => ?_, fun hvt hut => ?_, fun hvt hut => ?_,
    fun hut hlt => ?_⟩
  · rw [hd, hv, hl.pins]
    exact h.dev.imp_right fun hno => ⟨hno.1, fun c hc hcj => hno.2.1 c ((hl.calls c hcj).mp hc) hcj,
      hno.2.2⟩
  · rw [hk] at hp
    exact (hl.calls _ rfl).mpr (h.lock p hp)
  · rw [hl.req, hb]
    exact h.asked c ((hl.calls c hcj).mp hc) hcj
  · rw [hd] at hdt
    rw [hb, hl.pins, hl.logPins hdt]
    exact h.pins hdt
  · rw [hv] at hvt
    rw [hx, hb, hl.content (hdev hvt)]
    exact h.cached hvt (fun hus => hut (hu.mpr hus))
  · rw [hv] at hvt
    rw [hl.seen, hb, hl.content (hdev hvt)]
    exact h.seen hvt (hu.mp hut)
  · rw [hl.logged] at hlt
    obtain ⟨hpin, htodo⟩ := h.logged (hu.mp hut) hlt
    have hdj : (s.buf j).dev = ROOTDEV := by
      obtain ⟨p, hp⟩ := Option.ne_none_iff_exists'.mp (hu.mp hut).1
      exact h.dev.resolve_right fun hno => hno.2.1 _ (h.lock p hp) rfl
    rw [hb, hl.logPins hdj]
    exact ⟨hpin, hl.todo (hu.mp hut) hpin htodo⟩

/-- A step that works on buffer `i` and takes no new pin. -/
structure BufStep (s t : Sys) (i : Fin NBUF) : Prop where
  bio : Bio.Inv t.bio
  log : Log.Inv t.log
  geom : t.log.start = s.log.start ∧ t.log.size = s.log.size
  lh : t.log.lh = s.log.lh ∨ t.log.lh = []
  like : ∀ j, j ≠ i → Like s t j
  own : Own t i
  spec : ∀ b, ¬ InLog s.log.start s.log.size b → t.content b = t.spec b
  pins : ∀ b, 0 < t.log.pins b → 0 < s.log.pins b
  keep : 0 < t.log.pins (s.buf i).blockno → (s.buf i).dev = ROOTDEV → (s.buf i).valid = true →
    (t.buf i).dev = ROOTDEV ∧ (t.buf i).blockno = (s.buf i).blockno ∧ (t.buf i).valid = true
  clean : ∀ b, t.disk b ≠ t.content b →
    0 < t.log.pins b ∨ ∃ v ∈ t.live, (t.buf (t.bufs v)).blockno = b

theorem Inv.bufStep (h : Inv start size s) (hb : BufStep s t i)
    (hidle : t.log.committing = false → t.live = [] ∧ t.pend = .none)
    (hcommit : ∀ p regs wrote rest, t.log.procs p = .commit regs wrote rest →
      Commit start size t p regs rest) : Inv start size t := by
  obtain ⟨hstart, hsize⟩ := h.geom
  refine ⟨hb.bio, hb.log, ?_, fun j => ?_, ?_, fun b hpin => ?_, hb.clean, fun b hm => ?_, fun hne => ?_,
    hidle, hcommit⟩
  · rw [hb.geom.1, hb.geom.2]; exact h.geom
  · rcases eq_or_ne j i with rfl | hj
    · exact hb.own
    · exact (h.own j).like (hb.like j hj)
  · rw [← hstart, ← hsize]; exact hb.spec
  · obtain ⟨j, hd, rfl, hv⟩ := h.pinned b (hb.pins b hpin)
    rcases eq_or_ne j i with rfl | hj
    · exact ⟨j, hb.keep hpin hd hv⟩
    · have hsame := (hb.like j hj).buf
      refine ⟨j, ?_, ?_, ?_⟩ <;> rw [hsame]
      exacts [hd, hv]
  · rcases hb.lh with hl | hl
    · exact h.listed b (hl ▸ hm)
    · rw [hl] at hm; cases hm
  · rcases hb.lh with hl | hl
    · rw [hl] at hne ⊢; exact h.room hne
    · exact absurd hl hne

/-- A step of process `p` outside `commit()` that works on buffer `i`. -/
structure UserStep (s t : Sys) (p : ℕ) (i : Fin NBUF) : Prop where
  user : s.user p = true
  bio : ∃ l, Bio.step s.bio l = some t.bio
  log : t.log = s.log
  disk : t.disk = s.disk
  bufs : t.bufs = s.bufs
  live : t.live = s.live
  pend : t.pend = s.pend
  pins : t.bio.pins = s.bio.pins
  calls : ∀ c : Bio.Call, c.pid ≠ p ∨ c.buf ≠ i → (c ∈ t.bio.calls ↔ c ∈ s.bio.calls)
  other : ∀ j, j ≠ i → t.buf j = s.buf j ∧ t.seen j = s.seen j ∧ t.logged j = s.logged j ∧
    ∀ q, t.req q j = s.req q j
  held : s.CommitHolds i → Same (s.buf i) (t.buf i)
  valid : 0 < (s.buf i).refcnt → (s.buf i).valid = true → (t.buf i).valid = true
  content : ∀ b, t.content b = s.content b ∨
    b = (s.buf i).blockno ∧ s.UserHolds i ∧ s.logged i = true
  spec : ∀ b, s.content b = s.spec b → t.content b = t.spec b
  own : Own t i

theorem UserStep.holds (hu : UserStep s t p i) (j : Fin NBUF) :
    t.CommitHolds j ↔ s.CommitHolds j := by
  rw [Sys.CommitHolds, Sys.CommitHolds, hu.live, hu.bufs, hu.pend]

theorem UserStep.identity (hu : UserStep s t p i) (h : Inv start size s)
    (hj : 0 < (s.buf j).refcnt) :
    (t.buf j).dev = (s.buf j).dev ∧ (t.buf j).blockno = (s.buf j).blockno := by
  obtain ⟨l, hl⟩ := hu.bio
  exact Bio.step_identity h.bio hl hj

theorem UserStep.like (hu : UserStep s t p i) (h : Inv start size s) (hj : j ≠ i) : Like s t j := by
  obtain ⟨hb, hseen, hlogged, hreq⟩ := hu.other j hj
  refine ⟨Same.of_eq hb, fun c hc => hu.calls c (Or.inr (hc ▸ hj)), by rw [hu.pins],
    fun _ => by rw [hu.log], fun _ _ htodo => ?_, fun hd => ?_, hu.holds j, hseen, hlogged, hreq⟩
  · intro q; rw [hu.log]; exact htodo q
  · rcases hu.content (s.buf j).blockno with hc | ⟨hbi, hui, -⟩
    · exact hc
    · obtain ⟨q, hq⟩ := Option.ne_none_iff_exists'.mp hui.1
      exact absurd (h.buf_unique hd (h.dev_of_lock hq) hbi) hj

theorem UserStep.same (hu : UserStep s t p i) (hj : s.CommitHolds j) : Same (s.buf j) (t.buf j) := by
  rcases eq_or_ne j i with rfl | hne
  · exact hu.held hj
  · exact Same.of_eq (hu.other j hne).1

/-- To `commit()`, what the others do is the interference it allows for. -/
theorem UserStep.rely (hu : UserStep s t p i) (h : Inv start size s) {q : ℕ} {regs wrote rest}
    (hq : s.log.procs q = .commit regs wrote rest) : View.Rely rest (s.view regs) (t.view regs) := by
  refine ⟨?_, fun b hb => ?_⟩
  · rw [Sys.view, Sys.view, hu.disk, hu.log, hu.live]
  · rcases hu.content b with hc | ⟨rfl, hui, hli⟩
    · exact hc
    · exact absurd (((h.own i).logged hui hli).2 q regs wrote rest hq) hb

theorem UserStep.commit (hu : UserStep s t p i) (h : Inv start size s) {q : ℕ} {regs wrote rest}
    (hq : s.log.procs q = .commit regs wrote rest) : Commit start size t q regs rest := by
  have hc := h.commit q regs wrote rest hq
  have hrely := hu.rely h hq
  have hne := user_ne hu.user hq
  refine ⟨fun v hv => ?_, ?_, ?_, ?_⟩
  · rw [hu.live] at hv
    rw [hu.bufs, hu.same (Or.inl ⟨v, hv, rfl⟩)]
    exact hc.held v hv
  · rw [hu.live, hu.bufs]; exact hc.inj
  · rw [hu.live]; exact hc.nodup
  · have hs := hc.script
    rw [hu.pend]
    cases hpend : s.pend with
    | none => rw [hpend] at hs; exact hs.stable hrely
    | waiting k =>
      rw [hpend] at hs
      obtain ⟨v, r, hr, hsafe, hcall⟩ := hs
      refine ⟨v, r, ?_, hsafe.stable hrely, (hu.calls _ (Or.inl hne)).mpr hcall⟩
      rw [(hu.identity h (h.refcnt_pos hcall)).2]
      exact hr
    | acquired k =>
      rw [hpend] at hs
      obtain ⟨v, r, hr, hsafe, hlock, hlive⟩ := hs
      refine ⟨v, r, ?_, hsafe.stable hrely, ?_, ?_⟩
      · rw [hu.same (Or.inr hpend)]; exact hr
      · rw [hu.same (Or.inr hpend)]; exact hlock
      · rw [hu.live, hu.bufs]; exact hlive
    | released k =>
      rw [hpend] at hs
      obtain ⟨v, r, hr, hsafe, hcall⟩ := hs
      refine ⟨v, r, hr, hsafe.stable ⟨hrely.1, fun b hb => hrely.2 b ?_⟩,
        (hu.calls _ (Or.inl hne)).mpr hcall⟩
      rw [hr]; simpa using hb

/-- Every step of a process outside `commit()` keeps the invariant. -/
theorem Inv.user (h : Inv start size s) (hu : UserStep s t p i) : Inv start size t := by
  have hbio : Bio.Inv t.bio := by
    obtain ⟨l, hl⟩ := hu.bio
    exact Bio.inv_step h.bio hl
  refine h.bufStep (i := i) ⟨hbio, by rw [hu.log]; exact h.log, by rw [hu.log]; exact ⟨rfl, rfl⟩,
    Or.inl (by rw [hu.log]), fun j => hu.like h, hu.own, fun b hb => ?_, fun b hb => hu.log ▸ hb,
    fun hpin hd hv => ?_, fun b hb => ?_⟩ ?_ fun q regs wrote rest hq => ?_
  · rw [h.geom.1, h.geom.2] at hb
    exact hu.spec b (h.spec b hb)
  · have hpos : 0 < (s.buf i).refcnt := by
      refine h.refcnt_pos_of_pins ?_
      rw [(h.own i).pins hd, ← hu.log]; exact hpin
    obtain ⟨hd', hb'⟩ := hu.identity h hpos
    exact ⟨hd'.trans hd, hb', hu.valid hpos hv⟩
  · rw [hu.disk] at hb
    rw [hu.log, hu.live, hu.bufs]
    rcases hu.content b with hc | ⟨rfl, hui, hli⟩
    · rw [hc] at hb
      refine (h.clean b hb).imp_right ?_
      rintro ⟨v, hv, hvb⟩
      refine ⟨v, hv, ?_⟩
      rw [hu.same (Or.inl ⟨v, hv, rfl⟩)]; exact hvb
    · exact Or.inl ((h.own i).logged hui hli).1
  · rw [hu.log, hu.live, hu.pend]; exact h.idle
  · rw [hu.log] at hq
    exact hu.commit h hq

end

end Minios.Store
