import Minios.Log.Group

/-! `kernel/log.c`: the invariant of group commit, and what follows for every run.

    The counters: `outstanding` is the number of processes inside an operation, and a commit runs
    only when there is none — so during `commit()` nobody changes `log.lh` or the pins, and the
    state is the one a prefix of its script produced, run alone. The history: the blocks listed are
    exactly those written since the last commit, by operations that all began since then. -/

namespace Minios.Log
open Schemes Function

/-- The blocks listed in `log.lh` are the ones log-written in these events. -/
def Lists (lh : List ℕ) (evs : List Ev) : Prop := ∀ b, b ∈ lh ↔ ∃ id, Ev.wrote id b ∈ evs

/-- A finished commit wrote home exactly the blocks its operations log-wrote, and each of these
    operations began and ended between the previous commit and this one. -/
structure Group.Ok (g : Group) : Prop where
  home : ∀ b, (Var.dbuf, b) ∈ g.wrote ↔ ∃ id, Ev.wrote id b ∈ g.evs
  whole : ∀ ev ∈ g.evs, Ev.began ev.id ∈ g.evs ∧ Ev.ended ev.id ∈ g.evs

/-- No operation has events in both lists. -/
def Apart (evs evs' : List Ev) : Prop := ∀ ev ∈ evs, ∀ ev' ∈ evs', ev.id ≠ ev'.id

/-- A commit in progress: one process runs it, the others are idle, and the state is what the part
    `pre` of its script already run made of `log.lh = lh` with one pin on each listed block. -/
def Committing (s : Sys) : Prop :=
  ∃ p regs wrote rest, s.procs p = .commit regs wrote rest ∧ (∀ q, q ≠ p → s.procs q = .idle) ∧
    ∃ lh pre, commit s.start lh = pre ++ rest ∧ lh.Nodup ∧ Lists lh s.cur ∧
      pre.foldl Ctx.exec (Ctx.init lh) =
        { regs := regs, lh := s.lh, pins := s.pins, wrote := wrote }

/-- The counters and the log. -/
structure Inv (s : Sys) : Prop where
  active : ∃ A : Finset ℕ, (∀ p, p ∈ A ↔ ∃ id, s.procs p = .inOp id) ∧ s.outstanding = A.card
  busy : s.committing = true → Committing s
  free : s.committing = false → (∀ p regs wrote rest, s.procs p ≠ .commit regs wrote rest) ∧
    s.lh.Nodup ∧ Lists s.lh s.cur ∧ ∀ b, s.pins b = if b ∈ s.lh then 1 else 0
  panic : s.panicked = none ∨ s.panicked = some .tooBig

/-- The history. -/
structure Hist (s : Sys) : Prop where
  inOp : ∀ p id, s.procs p = .inOp id → Ev.began id ∈ s.cur
  began : ∀ ev ∈ s.cur, Ev.began ev.id ∈ s.cur
  closed : ∀ id, Ev.began id ∈ s.cur → Ev.ended id ∈ s.cur ∨ ∃ p, s.procs p = .inOp id
  next : ∀ ev ∈ s.cur, ev.id < s.nextOp
  ok : ∀ g ∈ s.done, g.Ok
  nextDone : ∀ g ∈ s.done, ∀ ev ∈ g.evs, ev.id < s.nextOp
  apart : (s.done.map Group.evs ++ [s.cur]).Pairwise Apart

theorem inv_init (start size : ℕ) : Inv (Sys.init start size) where
  active := ⟨∅, by simp [Sys.init], rfl⟩
  busy h := by simp [Sys.init] at h
  free _ := ⟨by simp [Sys.init], List.nodup_nil, by simp [Lists, Sys.init], by simp [Sys.init]⟩
  panic := Or.inl rfl

theorem hist_init (start size : ℕ) : Hist (Sys.init start size) where
  inOp p id h := by simp [Sys.init] at h
  began := by simp [Sys.init]
  closed := by simp [Sys.init]
  next := by simp [Sys.init]
  ok := by simp [Sys.init]
  nextDone := by simp [Sys.init]
  apart := by simp [Sys.init]

/-- Inside an operation nobody is committing, and the operation is counted. -/
theorem Inv.inOp {s : Sys} (h : Inv s) {p id : ℕ} (hp : s.procs p = .inOp id) :
    s.committing = false ∧ 1 ≤ s.outstanding := by
  refine ⟨?_, ?_⟩
  · rw [← Bool.not_eq_true]
    intro hc
    obtain ⟨q, _, _, _, hq, hidle, -⟩ := h.busy hc
    by_cases hpq : p = q
    · rw [hpq, hq] at hp; cases hp
    · rw [hidle p hpq] at hp; cases hp
  · obtain ⟨A, hA, ho⟩ := h.active
    have : 0 < A.card := Finset.card_pos.mpr ⟨p, (hA p).mpr ⟨id, hp⟩⟩
    omega

theorem Inv.outstanding_of_committing {s : Sys} (h : Inv s) (hc : s.committing = true) :
    s.outstanding = 0 := by
  obtain ⟨A, hA, ho⟩ := h.active
  have : A = ∅ := by
    refine Finset.eq_empty_of_forall_notMem fun p hp => ?_
    obtain ⟨id, hid⟩ := (hA p).mp hp
    exact absurd (h.inOp hid).1 (by simp [hc])
  rw [ho, this]; rfl

/-! ### Each step keeps the invariant -/

theorem inv_beginOp {s : Sys} (h : Inv s) {p : ℕ} (hp : s.procs p = .idle) : Inv (beginOp s p) := by
  unfold beginOp
  split
  · exact h
  split
  · exact h
  rename_i hc _
  obtain ⟨A, hA, ho⟩ := h.active
  obtain ⟨h1, h2, h3, h4⟩ := h.free (by simpa using hc)
  have hpA : p ∉ A := fun hm => by
    obtain ⟨id, hid⟩ := (hA p).mp hm
    rw [hp] at hid; cases hid
  refine ⟨⟨insert p A, fun q => ?_, ?_⟩, fun hcm => absurd hcm hc, fun _ => ⟨?_, h2, ?_, h4⟩, h.panic⟩
  · by_cases hq : q = p
    · subst hq; simp
    · simp [hq, hA q]
  · rw [Finset.card_insert_of_notMem hpA, ho]; push_cast; rfl
  · intro q regs wrote rest
    by_cases hq : q = p
    · subst hq; simp
    · simpa [hq] using h1 q regs wrote rest
  · intro b
    rw [h3 b]; simp

theorem inv_logWrite {s : Sys} (h : Inv s) {p id : ℕ} (hp : s.procs p = .inOp id) (b : ℕ)
    (hpan : s.panicked = none) : Inv (logWrite s id b) := by
  obtain ⟨hc, ho⟩ := h.inOp hp
  unfold logWrite
  split
  · exact ⟨h.active, h.busy, h.free, Or.inr rfl⟩
  split
  · omega
  obtain ⟨h1, h2, h3, h4⟩ := h.free hc
  refine ⟨h.active, fun hcm => absurd hcm (by simp [hc]), fun _ => ⟨h1, ?_, ?_, ?_⟩, Or.inl hpan⟩
  · show (record s.lh b).Nodup
    rw [record_eq]
    split
    · exact h2
    · rw [← List.concat_eq_append]; exact h2.concat ‹_›
  · intro x
    show x ∈ record s.lh b ↔ _
    rw [record_eq]
    have h3x := h3 x
    have h3b := h3 b
    by_cases hb : b ∈ s.lh
    · rw [if_pos hb, h3x]
      simp only [List.mem_append, List.mem_singleton, Ev.wrote.injEq]
      constructor
      · rintro ⟨i, hi⟩; exact ⟨i, Or.inl hi⟩
      · rintro ⟨i, hi | ⟨rfl, rfl⟩⟩
        · exact ⟨i, hi⟩
        · exact h3b.mp hb
    · rw [if_neg hb, List.mem_append, h3x]
      simp only [List.mem_append, List.mem_singleton, Ev.wrote.injEq]
      constructor
      · rintro (⟨i, hi⟩ | rfl)
        · exact ⟨i, Or.inl hi⟩
        · exact ⟨id, Or.inr ⟨rfl, rfl⟩⟩
      · rintro ⟨i, hi | ⟨-, rfl⟩⟩
        · exact Or.inl ⟨i, hi⟩
        · exact Or.inr rfl
  · intro x
    show (if s.lh.idxOf b = s.lh.length then update s.pins b (s.pins b + 1) else s.pins) x =
      if x ∈ record s.lh b then 1 else 0
    rw [record_eq]
    by_cases hb : b ∈ s.lh
    · rw [if_neg (List.idxOf_lt_length_of_mem hb).ne, if_pos hb]; exact h4 x
    · rw [if_pos (List.idxOf_eq_length hb), if_neg hb]
      by_cases hx : x = b
      · subst hx; simp [h4, hb]
      · simp [hx, h4]

theorem inv_endOp {s : Sys} (h : Inv s) {p id : ℕ} (hp : s.procs p = .inOp id)
    (hpan : s.panicked = none) : Inv (endOp s p id) := by
  obtain ⟨hc, ho⟩ := h.inOp hp
  obtain ⟨A, hA, hcard⟩ := h.active
  obtain ⟨h1, h2, h3, h4⟩ := h.free hc
  have hpA : p ∈ A := (hA p).mpr ⟨id, hp⟩
  have hlists : Lists s.lh (s.cur ++ [.ended id]) := fun b => by rw [h3 b]; simp
  -- whatever `p` becomes, the processes inside an operation are the others
  have hA' : ∀ st : PState, (∀ i, st ≠ .inOp i) →
      ∀ q, q ∈ A.erase p ↔ ∃ i, update s.procs p st q = .inOp i := by
    intro st hst q
    by_cases hq : q = p
    · subst hq; simp [hst]
    · simp [hq, hA q]
  have hcard' : s.outstanding - 1 = (A.erase p).card := by
    rw [Finset.card_erase_of_mem hpA, hcard]
    have := Finset.card_pos.mpr ⟨p, hpA⟩
    omega
  unfold endOp
  simp only [hc, Bool.false_eq_true, if_false]
  split
  · -- the last one out commits
    rename_i hzero
    refine ⟨⟨A.erase p, hA' _ (by simp), hcard'⟩, fun _ => ?_, fun hf => by simp at hf, Or.inl hpan⟩
    have hempty : A.erase p = ∅ := by
      rw [← Finset.card_eq_zero]
      have : s.outstanding - 1 = 0 := hzero
      omega
    refine ⟨p, _, _, _, update_self .., fun q hq => ?_, s.lh, [], rfl, h2, hlists, ?_⟩
    · show update s.procs p _ q = .idle
      rw [update_of_ne hq]
      cases hst : s.procs q with
      | idle => rfl
      | inOp i =>
        have : q ∈ A.erase p := Finset.mem_erase.mpr ⟨hq, (hA q).mpr ⟨i, hst⟩⟩
        rw [hempty] at this; simp at this
      | commit r w i => exact absurd hst (h1 q r w i)
    · simp only [List.foldl_nil, Ctx.init, Ctx.mk.injEq, true_and, and_true]
      exact (funext h4).symm
  · refine ⟨⟨A.erase p, hA' _ (by simp), hcard'⟩, fun hcm => by simp at hcm,
      fun _ => ⟨fun q r w i => ?_, h2, hlists, h4⟩, Or.inl hpan⟩
    by_cases hq : q = p
    · subst hq; simp
    · simpa [hq] using h1 q r w i

theorem Inv.committing {s : Sys} (h : Inv s) {p : ℕ} {regs wrote rest}
    (hp : s.procs p = .commit regs wrote rest) :
    s.committing = true ∧ (∀ q, q ≠ p → s.procs q = .idle) ∧
    ∃ lh pre, commit s.start lh = pre ++ rest ∧ lh.Nodup ∧ Lists lh s.cur ∧
      pre.foldl Ctx.exec (Ctx.init lh) =
        { regs := regs, lh := s.lh, pins := s.pins, wrote := wrote } := by
  have hc : s.committing = true := by
    rw [← Bool.not_eq_false]
    exact fun hf => (h.free hf).1 p regs wrote rest hp
  obtain ⟨q, r, w, i, hq, hidle, hrest⟩ := h.busy hc
  have hpq : q = p := by
    by_contra hne
    rw [hidle p (Ne.symm hne)] at hp; cases hp
  subst hpq
  rw [hp] at hq
  cases hq
  exact ⟨hc, hidle, hrest⟩

theorem inv_commitStep {s : Sys} (h : Inv s) {p : ℕ} {regs wrote rest}
    (hp : s.procs p = .commit regs wrote rest) (hpan : s.panicked = none) :
    Inv (commitStep s p regs wrote rest) := by
  obtain ⟨hc, hidle, lh, pre, hscript, hnd, hlists, hctx⟩ := h.committing hp
  have ho := h.outstanding_of_committing hc
  cases rest with
  | cons i rest =>
    refine ⟨⟨∅, fun q => ?_, by rw [Finset.card_empty]; exact ho⟩, fun _ => ?_, fun hf => ?_, Or.inl hpan⟩
    · by_cases hq : q = p
      · subst hq; simp [commitStep]
      · simp [commitStep, hq, hidle q hq]
    · -- one more operation of the script has been run
      refine ⟨p, _, _, rest, update_self .., fun q hq => ?_, lh, pre ++ [i], ?_, hnd, hlists, ?_⟩
      · show update s.procs p _ q = .idle
        rw [update_of_ne hq, hidle q hq]
      · rw [List.append_assoc]; exact hscript
      · rw [List.foldl_append, hctx]; rfl
    · have : s.committing = false := hf
      rw [hc] at this; cases this
  | nil =>
    rw [List.append_nil] at hscript
    rw [← hscript] at hctx
    obtain ⟨hlh, hpins, -⟩ := foldl_exec_commit s.start hnd
    rw [hctx] at hlh hpins
    refine ⟨⟨∅, fun q => ?_, by rw [Finset.card_empty]; exact ho⟩, fun hf => ?_,
      fun _ => ⟨fun q => ?_, ?_, ?_, ?_⟩, Or.inl hpan⟩
    · by_cases hq : q = p
      · subst hq; simp [commitStep]
      · simp [commitStep, hq, hidle q hq]
    · simp [commitStep] at hf
    · by_cases hq : q = p
      · subst hq; simp [commitStep]
      · simp [commitStep, hq, hidle q hq]
    · show s.lh.Nodup
      rw [show s.lh = [] from hlh]; exact List.nodup_nil
    · show Lists s.lh []
      rw [show s.lh = [] from hlh]; simp [Lists]
    · intro b
      show s.pins b = if b ∈ s.lh then 1 else 0
      rw [show s.lh = [] from hlh, if_neg (by simp)]
      exact hpins b

theorem inv_step {s t : Sys} {l : Label} (h : Inv s) (hs : step s l = some t) : Inv t := by
  obtain ⟨hpan, hcase⟩ := step_cases hs
  rcases hcase with ⟨p, -, hp, rfl⟩ | ⟨p, b, id, -, hp, rfl⟩ | ⟨p, id, -, hp, rfl⟩ |
    ⟨p, regs, wrote, rest, -, hp, rfl⟩
  · exact inv_beginOp h hp
  · exact inv_logWrite h hp b hpan
  · exact inv_endOp h hp hpan
  · exact inv_commitStep h hp hpan

/-! ### Each step keeps the history -/

/-- Appending an event of an operation that is already there keeps everything about `cur`. -/
theorem apart_concat {gs : List (List Ev)} {cur : List Ev} {ev : Ev}
    (h : (gs ++ [cur]).Pairwise Apart) (hev : ∀ g ∈ gs, ∀ e ∈ g, e.id ≠ ev.id) :
    (gs ++ [cur ++ [ev]]).Pairwise Apart := by
  rw [List.pairwise_append] at h ⊢
  refine ⟨h.1, List.pairwise_singleton .., fun g hg c hcm e he e' he' => ?_⟩
  rw [List.mem_singleton] at hcm
  subst hcm
  rcases List.mem_append.mp he' with h' | h'
  · exact h.2.2 g hg cur (List.mem_singleton.mpr rfl) e he e' h'
  · rw [List.mem_singleton] at h'
    subst h'; exact hev g hg e he

/-- The operations of finished commits are not the ones of the current group. -/
theorem Hist.apart_of_began {s : Sys} (h : Hist s) {id : ℕ} (hid : Ev.began id ∈ s.cur) :
    ∀ g ∈ s.done.map Group.evs, ∀ e ∈ g, e.id ≠ id := by
  intro g hg e he
  have := (List.pairwise_append.mp h.apart).2.2 g hg s.cur (List.mem_singleton.mpr rfl) e he _ hid
  exact this

theorem hist_beginOp {s : Sys} (h : Hist s) {p : ℕ} (hp : s.procs p = .idle) : Hist (beginOp s p) := by
  unfold beginOp
  split
  · exact h
  split
  · exact h
  have hfresh : ∀ g ∈ s.done.map Group.evs, ∀ e ∈ g, e.id ≠ s.nextOp := by
    intro g hg e he
    obtain ⟨g', hg', rfl⟩ := List.mem_map.mp hg
    exact (h.nextDone g' hg' e he).ne
  refine ⟨fun q i hq => ?_, fun ev hev => ?_, fun i hi => ?_, fun ev hev => ?_, h.ok,
    fun g hg e he => ?_, apart_concat h.apart hfresh⟩
  · rw [List.mem_append, List.mem_singleton]
    by_cases hqp : q = p
    · subst hqp
      have : PState.inOp s.nextOp = .inOp i := by simpa using hq
      cases this; exact Or.inr rfl
    · exact Or.inl (h.inOp q i (by simpa [hqp] using hq))
  · rcases List.mem_append.mp hev with he | he
    · exact List.mem_append_left _ (h.began ev he)
    · rw [List.mem_singleton] at he; subst he; simp [Ev.id]
  · rcases List.mem_append.mp hi with he | he
    · rcases h.closed i he with hend | ⟨q, hq⟩
      · exact Or.inl (List.mem_append_left _ hend)
      · have hqp : q ≠ p := by rintro rfl; rw [hp] at hq; cases hq
        exact Or.inr ⟨q, by simpa [hqp] using hq⟩
    · have : i = s.nextOp := by simpa using he
      exact Or.inr ⟨p, by simp [this]⟩
  · show ev.id < s.nextOp + 1
    rcases List.mem_append.mp hev with he | he
    · exact Nat.lt_succ_of_lt (h.next ev he)
    · rw [List.mem_singleton] at he; subst he; simp [Ev.id]
  · exact Nat.lt_succ_of_lt (h.nextDone g hg e he)

/-- An event of an operation of the current group, by a process that stays in it or that leaves it
    with its `ended` event, keeps the history. -/
theorem Hist.concat {s t : Sys} (h : Hist s) (ev : Ev) (hev : Ev.began ev.id ∈ s.cur)
    (hcur : t.cur = s.cur ++ [ev]) (hdone : t.done = s.done) (hnext : t.nextOp = s.nextOp)
    (hin : ∀ q i, t.procs q = .inOp i → s.procs q = .inOp i)
    (hout : ∀ q i, s.procs q = .inOp i → t.procs q = .inOp i ∨ Ev.ended i = ev) : Hist t := by
  refine ⟨fun q i hq => ?_, fun e he => ?_, fun i hi => ?_, fun e he => ?_, ?_, ?_, ?_⟩
  · rw [hcur]; exact List.mem_append_left _ (h.inOp q i (hin q i hq))
  · rw [hcur] at he ⊢
    rcases List.mem_append.mp he with he | he
    · exact List.mem_append_left _ (h.began e he)
    · rw [List.mem_singleton] at he; subst he; exact List.mem_append_left _ hev
  · rw [hcur] at hi ⊢
    have hi' : Ev.began i ∈ s.cur := by
      rcases List.mem_append.mp hi with he | he
      · exact he
      · rw [List.mem_singleton] at he; subst he; exact hev
    rcases h.closed i hi' with hend | ⟨q, hq⟩
    · exact Or.inl (List.mem_append_left _ hend)
    · rcases hout q i hq with hq' | rfl
      · exact Or.inr ⟨q, hq'⟩
      · exact Or.inl (by simp)
  · rw [hcur] at he
    rw [hnext]
    rcases List.mem_append.mp he with he | he
    · exact h.next e he
    · rw [List.mem_singleton] at he; subst he; exact h.next (.began e.id) hev
  · rw [hdone]; exact h.ok
  · rw [hdone, hnext]; exact h.nextDone
  · rw [hdone, hcur]; exact apart_concat h.apart (h.apart_of_began hev)

theorem hist_logWrite {s : Sys} (h : Hist s) {p id : ℕ} (hp : s.procs p = .inOp id) (b : ℕ) :
    Hist (logWrite s id b) := by
  unfold logWrite
  split
  · exact ⟨h.inOp, h.began, h.closed, h.next, h.ok, h.nextDone, h.apart⟩
  split
  · exact ⟨h.inOp, h.began, h.closed, h.next, h.ok, h.nextDone, h.apart⟩
  exact h.concat (.wrote id b) (h.inOp p id hp) rfl rfl rfl (fun _ _ hq => hq)
    fun _ _ hq => Or.inl hq

theorem hist_endOp {s : Sys} (h : Hist s) (hi : Inv s) {p id : ℕ} (hp : s.procs p = .inOp id) :
    Hist (endOp s p id) := by
  have hin : ∀ st : PState, (∀ i, st ≠ .inOp i) → ∀ q i,
      update s.procs p st q = .inOp i → s.procs q = .inOp i := by
    intro st hst q i hq
    by_cases hqp : q = p
    · subst hqp; rw [update_self] at hq; exact absurd hq (hst i)
    · rwa [update_of_ne hqp] at hq
  have hout : ∀ st : PState, ∀ q i, s.procs q = .inOp i →
      update s.procs p st q = .inOp i ∨ Ev.ended i = .ended id := by
    intro st q i hq
    by_cases hqp : q = p
    · subst hqp; rw [hp] at hq; cases hq; exact Or.inr rfl
    · exact Or.inl (by rwa [update_of_ne hqp])
  unfold endOp
  simp only [(hi.inOp hp).1, Bool.false_eq_true, if_false]
  split
  · exact h.concat (.ended id) (h.inOp p id hp) rfl rfl rfl (hin _ (by simp)) (hout _)
  · exact h.concat (.ended id) (h.inOp p id hp) rfl rfl rfl (hin _ (by simp)) (hout _)

theorem hist_commitStep {s : Sys} (h : Hist s) (hi : Inv s) {p : ℕ} {regs wrote rest}
    (hp : s.procs p = .commit regs wrote rest) : Hist (commitStep s p regs wrote rest) := by
  obtain ⟨-, hidle, lh, pre, hscript, hnd, hlists, hctx⟩ := hi.committing hp
  -- nobody is inside an operation
  have hno : ∀ q i, s.procs q ≠ .inOp i := by
    intro q i hq
    by_cases hqp : q = p
    · subst hqp; rw [hp] at hq; cases hq
    · rw [hidle q hqp] at hq; cases hq
  cases rest with
  | cons i rest =>
    refine ⟨fun q j hq => ?_, h.began, fun j hj => ?_, h.next, h.ok, h.nextDone, h.apart⟩
    · by_cases hqp : q = p
      · subst hqp; simp [commitStep] at hq
      · exact absurd (by simpa [commitStep, hqp] using hq) (hno q j)
    · rcases h.closed j hj with hend | ⟨q, hq⟩
      · exact Or.inl hend
      · exact absurd hq (hno q j)
  | nil =>
    rw [List.append_nil] at hscript
    rw [← hscript] at hctx
    obtain ⟨-, -, hhome⟩ := foldl_exec_commit s.start hnd
    rw [hctx] at hhome
    have hok : Group.Ok { evs := s.cur, wrote := wrote } := by
      refine ⟨fun b => (hhome b).trans (hlists b), fun ev hev => ⟨h.began ev hev, ?_⟩⟩
      rcases h.closed ev.id (h.began ev hev) with hend | ⟨q, hq⟩
      · exact hend
      · exact absurd hq (hno q _)
    refine ⟨fun q j hq => ?_, by simp [commitStep], by simp [commitStep], by simp [commitStep],
      fun g hg => ?_, fun g hg => ?_, ?_⟩
    · by_cases hqp : q = p
      · subst hqp; simp [commitStep] at hq
      · exact absurd (by simpa [commitStep, hqp] using hq) (hno q j)
    · rcases List.mem_append.mp hg with hg | hg
      · exact h.ok g hg
      · rw [List.mem_singleton] at hg; subst hg; exact hok
    · rcases List.mem_append.mp hg with hg | hg
      · exact h.nextDone g hg
      · rw [List.mem_singleton] at hg; subst hg; exact h.next
    · show ((s.done ++ [({ evs := s.cur, wrote := wrote } : Group)]).map Group.evs ++ [[]]).Pairwise Apart
      rw [List.map_append, List.pairwise_append]
      exact ⟨h.apart, List.pairwise_singleton .., fun g _ c hcm e _ e' he' => by
        rw [List.mem_singleton] at hcm; subst hcm; simp at he'⟩

theorem hist_step {s t : Sys} {l : Label} (h : Hist s) (hi : Inv s) (hs : step s l = some t) :
    Hist t := by
  obtain ⟨-, hcase⟩ := step_cases hs
  rcases hcase with ⟨p, -, hp, rfl⟩ | ⟨p, b, id, -, hp, rfl⟩ | ⟨p, id, -, hp, rfl⟩ |
    ⟨p, regs, wrote, rest, -, hp, rfl⟩
  · exact hist_beginOp h hp
  · exact hist_logWrite h hp b
  · exact hist_endOp h hi hp
  · exact hist_commitStep h hi hp

theorem reach_inv {start size : ℕ} {s : Sys} (h : Reach step (Sys.init start size) s) :
    Inv s ∧ Hist s :=
  h.inv (I := fun s => Inv s ∧ Hist s)
    (fun _ _ _ hI hs => ⟨inv_step hI.1 hs, hist_step hI.2 hI.1 hs⟩)
    ⟨inv_init start size, hist_init start size⟩

/-- CORRECT (group commit): in every state any interleaving of any number of processes can reach,
    a commit runs only when no operation is in progress, the listed blocks are distinct, outside a
    commit the log holds one pin on each of them and none elsewhere, no `log_write` can execute
    during a commit, `end_op` cannot panic, every finished commit wrote home exactly the blocks
    log-written by the operations of its group, each of which began and ended within the group, and
    no operation has events in two groups. -/
theorem group_commit {start size : ℕ} {s : Sys} (h : Reach step (Sys.init start size) s) :
    (s.committing = true → s.outstanding = 0) ∧
    s.lh.Nodup ∧
    (s.committing = false → ∀ b, s.pins b = if b ∈ s.lh then 1 else 0) ∧
    (s.committing = true → ∀ p b, step s (.logWrite p b) = none) ∧
    s.panicked ≠ some .logCommitting ∧
    (∀ g ∈ s.done, g.Ok) ∧
    (s.done.map Group.evs ++ [s.cur]).Pairwise Apart := by
  obtain ⟨hi, hh⟩ := reach_inv h
  refine ⟨hi.outstanding_of_committing, ?_, fun hc => (hi.free hc).2.2.2, fun hc p b => ?_, ?_,
    hh.ok, hh.apart⟩
  · cases hc : s.committing with
    | false => exact (hi.free hc).2.1
    | true =>
      obtain ⟨p, regs, wrote, rest, -, -, lh, pre, -, hnd, -, hctx⟩ := hi.busy hc
      have hlh := foldl_exec_lh pre (Ctx.init lh)
      rw [hctx] at hlh
      rcases hlh with hlh | hlh
      · rw [show s.lh = lh from hlh]; exact hnd
      · rw [show s.lh = [] from hlh]; exact List.nodup_nil
  · cases hs : step s (.logWrite p b) with
    | none => rfl
    | some t =>
      obtain ⟨-, ⟨q, hl, -⟩ | ⟨q, x, id, -, hq, -⟩ | ⟨q, id, hl, -⟩ | ⟨q, r, w, i, hl, -⟩⟩ :=
        step_cases hs
      · cases hl
      · exact absurd (hi.inOp hq).1 (by simp [hc])
      · cases hl
      · cases hl
  · rcases hi.panic with hp | hp <;> rw [hp] <;> simp

/-- One operation that logs one block, and its commit. -/
def oneOp : List Label := [.beginOp 0, .logWrite 0 46, .endOp 0] ++ List.replicate 23 (.commit 0)

theorem group_commit_oneOp : ∃ s, run step (Sys.init 2 LOGSIZE) oneOp = some s ∧
    s.done.length = 1 ∧ (∀ g ∈ s.done, g.Ok) ∧ s.panicked ≠ some .logCommitting := by
  obtain ⟨s, hs⟩ := Option.isSome_iff_exists.mp
    (show (run step (Sys.init 2 LOGSIZE) oneOp).isSome = true by decide +kernel)
  have hlen : (run step (Sys.init 2 LOGSIZE) oneOp).map (fun s => s.done.length) = some 1 := by
    decide +kernel
  rw [hs, Option.map_some, Option.some.injEq] at hlen
  obtain ⟨-, -, -, -, hpan, hok, -⟩ := group_commit ⟨oneOp, hs⟩
  exact ⟨s, hs, hlen, hok, hpan⟩

end Minios.Log
