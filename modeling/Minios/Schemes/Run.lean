import Mathlib

/-! Runs of a system given by a partial step function.

    A system is a function `step : σ → ι → Option σ`: from a state and the label of what happens
    next (which process moves and what it does) to the next state, `none` when that label is not
    enabled there. A run is the fold of `step` over a list of labels, so "every interleaving" is
    "every list of labels". The rules below lift what ONE step does to what a whole RUN does. -/

namespace Minios.Schemes

variable {σ τ ι κ : Type*}

/-- The state a run of labels leads to, `none` if some label was not enabled. -/
def run (step : σ → ι → Option σ) : σ → List ι → Option σ
  | s, [] => some s
  | s, l :: ls => (step s l).bind fun t => run step t ls

@[simp] theorem run_nil (step : σ → ι → Option σ) (s : σ) : run step s [] = some s := rfl

theorem run_cons (step : σ → ι → Option σ) (s : σ) (l : ι) (ls : List ι) :
    run step s (l :: ls) = (step s l).bind fun t => run step t ls := rfl

theorem run_append (step : σ → ι → Option σ) : ∀ (ls ms : List ι) (s : σ),
    run step s (ls ++ ms) = (run step s ls).bind fun t => run step t ms
  | [], _, _ => rfl
  | l :: ls, ms, s => by
      simp only [List.cons_append, run_cons]
      cases step s l with
      | none => rfl
      | some t => exact run_append step ls ms t

/-- A state is reached from `s` when some run of labels leads there. -/
def Reach (step : σ → ι → Option σ) (s t : σ) : Prop := ∃ ls, run step s ls = some t

/-- Invariant rule: what holds at the start and is kept by every step holds after every run. -/
theorem run_inv {step : σ → ι → Option σ} {I : σ → Prop}
    (hstep : ∀ s l t, I s → step s l = some t → I t) :
    ∀ {ls : List ι} {s t : σ}, I s → run step s ls = some t → I t
  | [], s, t, hs, h => by
      rw [run_nil, Option.some.injEq] at h; exact h ▸ hs
  | l :: ls, s, t, hs, h => by
      rw [run_cons, Option.bind_eq_some_iff] at h
      obtain ⟨u, hu, hrest⟩ := h
      exact run_inv hstep (hstep s l u hs hu) hrest

theorem Reach.inv {step : σ → ι → Option σ} {I : σ → Prop}
    (hstep : ∀ s l t, I s → step s l = some t → I t) {s t : σ} (hs : I s)
    (h : Reach step s t) : I t := by
  obtain ⟨ls, hls⟩ := h
  exact run_inv hstep hs hls

/-- Every step of a run from `s` meets the condition `ok` (on the state before it and its label). -/
def RunOk (step : σ → ι → Option σ) (ok : σ → ι → Prop) : σ → List ι → Prop
  | _, [] => True
  | s, l :: ls => ok s l ∧ ∀ t ∈ step s l, RunOk step ok t ls

/-- A condition on labels alone. -/
theorem RunOk.of_forall {step : σ → ι → Option σ} {ok : ι → Prop} :
    ∀ {ls : List ι} (s : σ), (∀ l ∈ ls, ok l) → RunOk step (fun _ => ok) s ls
  | [], _, _ => trivial
  | l :: _, _, h => ⟨h l List.mem_cons_self, fun t _ => of_forall t fun m hm => h m (List.mem_cons_of_mem _ hm)⟩

theorem RunOk.append {step : σ → ι → Option σ} {ok : σ → ι → Prop} : ∀ {ls ms : List ι} {s t : σ},
    RunOk step ok s (ls ++ ms) → run step s ls = some t → RunOk step ok s ls ∧ RunOk step ok t ms
  | [], _, s, t, h, hrun => by
      rw [run_nil, Option.some.injEq] at hrun
      exact ⟨trivial, hrun ▸ h⟩
  | l :: ls, ms, s, t, h, hrun => by
      rw [run_cons, Option.bind_eq_some_iff] at hrun
      obtain ⟨u, hu, hrest⟩ := hrun
      refine ⟨⟨h.1, fun v hv => ?_⟩, ((h.2 u hu).append hrest).2⟩
      obtain rfl : u = v := Option.some.inj (hu.symm.trans hv)
      exact ((h.2 u hu).append hrest).1

instance decidableRunOk (step : σ → ι → Option σ) (ok : σ → ι → Prop)
    [∀ s l, Decidable (ok s l)] : ∀ s ls, Decidable (RunOk step ok s ls)
  | _, [] => inferInstanceAs (Decidable True)
  | s, l :: ls =>
    have : ∀ t, Decidable (RunOk step ok t ls) := fun t => decidableRunOk step ok t ls
    inferInstanceAs (Decidable (ok s l ∧ ∀ t ∈ step s l, RunOk step ok t ls))

/-- Invariant rule for the runs whose steps all meet a condition. -/
theorem run_inv_of {step : σ → ι → Option σ} {ok : σ → ι → Prop} {I : σ → Prop}
    (hstep : ∀ s l t, I s → ok s l → step s l = some t → I t) :
    ∀ {ls : List ι} {s t : σ}, I s → RunOk step ok s ls → run step s ls = some t → I t
  | [], s, t, hs, _, h => by
      rw [run_nil, Option.some.injEq] at h; exact h ▸ hs
  | l :: ls, s, t, hs, hok, h => by
      rw [run_cons, Option.bind_eq_some_iff] at h
      obtain ⟨u, hu, hrest⟩ := h
      exact run_inv_of hstep (hstep s l u hs hok.1 hu) (hok.2 u hu) hrest

/-! ### Refinement by traces -/

/-- What an observer sees of a run: the events of its steps, in order. -/
def trace {ε : Type*} (step : σ → ι → Option σ) (events : σ → ι → σ → List ε) : σ → List ι → List ε
  | _, [] => []
  | s, l :: ls => match step s l with
    | some t => events s l t ++ trace step events t ls
    | none => []

/-- Invariant rule for what has happened so far and the state: what every step keeps, a run keeps. -/
theorem trace_inv {ε : Type*} {step : σ → ι → Option σ} {events : σ → ι → σ → List ε}
    {I : List ε → σ → Prop} (hstep : ∀ h s l t, I h s → step s l = some t → I (h ++ events s l t) t) :
    ∀ {ls : List ι} {h : List ε} {s t : σ}, I h s → run step s ls = some t →
      I (h ++ trace step events s ls) t
  | [], h, s, t, hs, hrun => by
      rw [run_nil, Option.some.injEq] at hrun
      rw [trace, List.append_nil, ← hrun]; exact hs
  | l :: ls, h, s, t, hs, hrun => by
      rw [run_cons, Option.bind_eq_some_iff] at hrun
      obtain ⟨u, hu, hrest⟩ := hrun
      rw [trace, hu, ← List.append_assoc]
      exact trace_inv hstep (hstep h s l u hs hu) hrest

/-- Refinement rule: if, from states that satisfy an invariant, the abstract system can do what each
    step shows and arrives at the abstraction of the next state, then it can do what a whole run
    shows. Only the steps that meet a condition `ok` are asked, if all steps of the run meet it. -/
theorem run_refines_of {ε : Type*} {step : σ → ι → Option σ} {events : σ → ι → σ → List ε}
    {astep : τ → ε → Option τ} {f : σ → τ} {ok : σ → ι → Prop} {I : σ → Prop}
    (hinv : ∀ s l t, I s → ok s l → step s l = some t → I t)
    (hsim : ∀ s l t, I s → ok s l → step s l = some t → run astep (f s) (events s l t) = some (f t)) :
    ∀ {ls : List ι} {s t : σ}, I s → RunOk step ok s ls → run step s ls = some t →
      run astep (f s) (trace step events s ls) = some (f t)
  | [], s, t, _, _, h => by
      rw [run_nil, Option.some.injEq] at h; rw [h]; rfl
  | l :: ls, s, t, hs, hok, h => by
      rw [run_cons, Option.bind_eq_some_iff] at h
      obtain ⟨u, hu, hrest⟩ := h
      rw [trace, hu, run_append, hsim s l u hs hok.1 hu, Option.bind_some]
      exact run_refines_of hinv hsim (hinv s l u hs hok.1 hu) (hok.2 u hu) hrest

theorem run_refines {ε : Type*} {step : σ → ι → Option σ} {events : σ → ι → σ → List ε}
    {astep : τ → ε → Option τ} {f : σ → τ} {I : σ → Prop}
    (hinv : ∀ s l t, I s → step s l = some t → I t)
    (hsim : ∀ s l t, I s → step s l = some t → run astep (f s) (events s l t) = some (f t))
    {ls : List ι} {s t : σ} (hs : I s) (h : run step s ls = some t) :
    run astep (f s) (trace step events s ls) = some (f t) := by
  have hok : RunOk step (fun _ _ => True) s ls := RunOk.of_forall s fun _ _ => trivial
  exact run_refines_of (fun s l t hI _ => hinv s l t hI) (fun s l t hI _ => hsim s l t hI) hs hok h

end Minios.Schemes
