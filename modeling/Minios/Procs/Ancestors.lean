import Minios.Procs.Wait

/-! `kernel/proc.c`: the tree of processes.

        fork        a slot that is nobody's parent ──▶ below its parent       a LEAF
        reparent    a child of who exits ──▶ below init
        freeproc    ──▶ out

    A RANK that grows from parent to child is kept by each of these, so parents do not go round in a circle. -/

namespace Minios.Procs
open Schemes Function

variable {nproc p q : ℕ} {s t : Sys}

/-- Where parents come from. -/
def Kin (s t : Sys) : Prop := ∀ q r, (t.proc q).parent = some r → (s.proc q).parent = some r ∨
  r = initproc ∧ (s.proc q).parent ≠ none ∨ (s.proc q).state = .USED ∧ (s.proc r).state ≠ .USED

theorem Kin.put {pr : Proc} (hproc : t.proc = update s.proc q pr) (h : ∀ r, pr.parent = some r →
    (s.proc q).parent = some r ∨ r = initproc ∧ (s.proc q).parent ≠ none ∨
      (s.proc q).state = .USED ∧ (s.proc r).state ≠ .USED) : Kin s t := by
  intro i r hi
  rw [hproc] at hi
  rcases eq_or_ne i q with rfl | hne
  · rw [update_self] at hi
    exact h r hi
  · rw [update_of_ne hne] at hi
    exact .inl hi

theorem Kin.same {pr : Proc} (hproc : t.proc = update s.proc q pr) (h : pr.parent = (s.proc q).parent) : Kin s t :=
  .put hproc fun _ hr => .inl (h ▸ hr)

theorem kin_move {ok : Bool} (h : Proto nproc s) (hrun : (s.proc p).state = .RUNNING)
    (hmove : move nproc s p ok = some t) : Kin s t := by
  have hstill : ∀ u : Sys, u.proc = s.proc → Kin s u := fun u hu i r hi => .inl (by rwa [hu] at hi)
  have hwake : ∀ {i : ℕ} {c : Option Chan} {pc : Pc},
      ((s.wakeAt p i c).map fun u => u.setPc p pc) = some t → Kin s t := by
    intro i c pc hw
    obtain ⟨u, hu, rfl⟩ := Option.map_eq_some_iff.mp hw
    rw [Sys.wakeAt] at hu
    split_ifs at hu <;> cases hu
    · exact hstill _ rfl
    · refine Kin.same rfl ?_
      rw [Proc.wakeup]
      split <;> rfl
  cases hpc : s.pc p with
  | forkParent q =>
    have hq := (h.placed.child p q (by rw [hpc]; rfl)).2
    simp only [move, hpc] at hmove
    split_ifs at hmove
    cases hmove
    refine Kin.put rfl ?_
    rintro r ⟨⟩
    exact .inr (.inr ⟨hq, by rw [hrun]; decide⟩)
  | reparent status j =>
    simp only [move, hpc] at hmove
    split_ifs at hmove with hj hpar <;> cases hmove
    · refine Kin.put rfl ?_
      rintro r ⟨⟩
      exact .inr (.inl ⟨rfl, by rw [hpar]; simp⟩)
    · exact hstill _ rfl
    · exact hstill _ rfl
  | _ =>
    -- parents stay, or a slot is freed
    simp only [move, hpc] at hmove
    try split_ifs at hmove
    all_goals first
      | exact hwake hmove
      | cases hmove <;> first | exact hstill _ rfl | exact .same rfl rfl | exact .put rfl (by rintro _ ⟨⟩)

theorem kin_step {l : Label} (h : Proto nproc s) (hstep : step nproc s l = some t) : Kin s t := by
  cases l with
  | move p ok =>
    rw [step] at hstep
    split_ifs at hstep with hp
    exact kin_move h hp.2 hstep
  | _ =>
    rw [step] at hstep
    split_ifs at hstep
    cases hstep
    first | exact .same rfl rfl | exact fun _ _ => .inl

/-- Parents rank below their children, and init is at the bottom. -/
def Ranked (s : Sys) (rank : ℕ → ℕ) : Prop :=
  rank initproc = 0 ∧ (s.proc initproc).parent = none ∧ ∀ q r, (s.proc q).parent = some r → rank r < rank q

/-- STEP: who gets a parent in `fork` is ranked anew. -/
theorem Ranked.step {rank : ℕ → ℕ} (hr : Ranked s rank) (h : Proto nproc s) (hk : Kin s t) :
    ∃ rank', Ranked t rank' := by
  obtain ⟨hbot, htop, hlt⟩ := hr
  have hinit : (s.proc initproc).state ≠ .USED := PState.not_alive_USED h.family.init.1
  let rank' q := if (s.proc q).state = .USED then (t.proc q).parent.elim (rank q) fun r => rank r + 1 else rank q
  have hkeep : ∀ {q}, (s.proc q).state ≠ .USED → rank' q = rank q := fun hq => if_neg hq
  refine ⟨rank', (hkeep hinit).trans hbot, Option.eq_none_iff_forall_not_mem.mpr fun r hr => ?_, fun q r hr => ?_⟩
  · rcases hk _ r hr with hr | ⟨-, hr⟩ | ⟨hr, -⟩
    · rw [htop] at hr; cases hr
    · exact hr htop
    · exact hinit hr
  · have hold : (s.proc r).state ≠ .USED := by
      rcases hk q r hr with hr | ⟨rfl, -⟩ | ⟨-, hr⟩
      · exact PState.not_alive_USED (h.family.alive q r hr).2
      · exact hinit
      · exact hr
    rw [hkeep hold]
    by_cases hq : (s.proc q).state = .USED
    · show _ < if _ then _ else _
      rw [if_pos hq, hr]
      exact Nat.lt_succ_self _
    · rw [hkeep hq]
      rcases hk q r hr with hr | ⟨rfl, hne⟩ | ⟨hr, -⟩
      · exact hlt q r hr
      · obtain ⟨r', hr'⟩ := Option.ne_none_iff_exists'.mp hne
        have := hlt q r' hr'
        omega
      · exact absurd hr hq

/-- `p->parent`, again and again, is init. -/
inductive Descends (s : Sys) : ℕ → Prop
  | init : Descends s initproc
  | child {q r : ℕ} (h : (s.proc q).parent = some r) (hr : Descends s r) : Descends s q

/-- CORRECT (one tree): after every run, whoever forks, exits and waits in between, init has no parent and every other
    process, ZOMBIE or not, descends from it. -/
theorem descends_from_init {ls : List Label} (hrun : run (step nproc) .init ls = some t) :
    (t.proc initproc).parent = none ∧ ∀ q, (t.proc q).state.inUse = true → Descends t q := by
  have hinv : Proto nproc t ∧ ∃ rank, Ranked t rank := by
    refine run_inv (I := fun s => Proto nproc s ∧ ∃ rank, Ranked s rank) (fun s l u hs hu => ?_) ⟨proto_init, ?_⟩ hrun
    · obtain ⟨hp, rank, hr⟩ := hs
      exact ⟨proto_step hp hu, hr.step hp (kin_step hp hu)⟩
    · refine ⟨fun _ => 0, rfl, rfl, fun q r hr => ?_⟩
      rcases eq_or_ne q initproc with rfl | hq
      · cases hr
      · simp [Sys.init, hq, Proc.zero] at hr
  obtain ⟨hp, rank, -, htop, hlt⟩ := hinv
  refine ⟨htop, fun q => ?_⟩
  -- from parent to parent the rank goes down
  induction hn : rank q using Nat.strong_induction_on generalizing q with
  | _ n ih =>
    intro hq
    by_cases hi : q = initproc
    · exact hi ▸ .init
    obtain ⟨r, hr⟩ := Option.ne_none_iff_exists'.mp (hp.family.up q hi hq)
    refine .child hr (ih (rank r) (hn ▸ hlt q r hr) r rfl ?_)
    have halive := (hp.family.alive q r hr).2
    revert halive
    cases (t.proc r).state <;> simp [PState.alive, PState.inUse]

/-- A child of a child, whose parent exits. -/
def orphan : List Label := List.flatten
  [[.sched 0, .fork 0 1], moves 0 3, [.sched 1, .fork 1 2], moves 1 3, [.exit 1 0], moves 1 11]

theorem descends_from_init_orphan : ∃ t, run (step 3) .init orphan = some t ∧ Descends t 2 := by
  have hview : (run (step 3) .init orphan).any (fun t => (t.proc 2).state.inUse) = true := by decide +kernel
  obtain ⟨t, ht, hv⟩ := (Option.any_eq_true ..).mp hview
  exact ⟨t, ht, (descends_from_init ht).2 2 hv⟩

end Minios.Procs
