import Mathlib

/-! Programs with a state and a way to fail, and their weakest preconditions.

    A program of type `Prog σ ε α` takes a state to a result and a new state, or fails with an error
    (a kernel panic, say). `wp m Q E s` says: run from `s`, the program `m` either returns and the
    result and final state satisfy `Q`, or fails with an error that satisfies `E`. So `wp` speaks of
    every outcome, and with `E` false it says that the program returns. -/

namespace Minios.Schemes

variable {σ ε α β : Type}

def Prog (σ ε α : Type) := σ → Except ε (α × σ)

namespace Prog

instance : Monad (Prog σ ε) where
  pure a := fun s => .ok (a, s)
  bind m f := fun s => match m s with
    | .ok (a, t) => f a t
    | .error e => .error e

/-- Read the state. -/
def get : Prog σ ε σ := fun s => .ok (s, s)

/-- Change the state. -/
def modify (f : σ → σ) : Prog σ ε Unit := fun s => .ok ((), f s)

/-- Fail. -/
def fail (e : ε) : Prog σ ε α := fun _ => .error e

/-- Run a program on a part of the state; its errors are some of the larger program's. -/
def zoom {τ δ : Type} (part : σ → τ) (put : σ → τ → σ) (err : δ → ε) (m : Prog τ δ α) : Prog σ ε α := fun s =>
  match m (part s) with
  | .ok (a, t) => .ok (a, put s t)
  | .error e => .error (err e)

/-- The state a program leaves when it returns. -/
def after (m : Prog σ ε α) (s : σ) : Option σ := match m s with
  | .ok (_, t) => some t
  | .error _ => none

end Prog

open Prog

/-- Weakest precondition. -/
def wp (m : Prog σ ε α) (Q : α → σ → Prop) (E : ε → Prop) (s : σ) : Prop := match m s with
  | .ok (a, t) => Q a t
  | .error e => E e

variable {m : Prog σ ε α} {f : α → Prog σ ε β} {Q Q' : α → σ → Prop} {E : ε → Prop} {s : σ}

@[simp] theorem wp_pure {a : α} : wp (pure a : Prog σ ε α) Q E s ↔ Q a s := Iff.rfl

@[simp] theorem wp_get {Q : σ → σ → Prop} : wp (Prog.get : Prog σ ε σ) Q E s ↔ Q s s := Iff.rfl

@[simp] theorem wp_modify {g : σ → σ} {Q : Unit → σ → Prop} :
    wp (Prog.modify g : Prog σ ε Unit) Q E s ↔ Q () (g s) := Iff.rfl

@[simp] theorem wp_fail {e : ε} : wp (Prog.fail e : Prog σ ε α) Q E s ↔ E e := Iff.rfl

@[simp] theorem wp_bind {Q : β → σ → Prop} :
    wp (m >>= f) Q E s ↔ wp m (fun a t => wp (f a) Q E t) E s := by
  show (match (match m s with | .ok (a, t) => f a t | .error e => .error e) with
    | .ok (a, t) => Q a t | .error e => E e) ↔ _
  unfold wp
  cases m s with
  | error e => exact Iff.rfl
  | ok r => exact Iff.rfl

theorem bind_ok {a : α} {t : σ} (h : m s = .ok (a, t)) : (m >>= f) s = f a t := by
  show (match m s with | .ok (a, t) => f a t | .error e => .error e) = _
  rw [h]

theorem bind_error {e : ε} (h : m s = .error e) : (m >>= f) s = .error e := by
  show (match m s with | .ok (a, t) => f a t | .error e => .error e) = _
  rw [h]

@[simp] theorem wp_zoom {τ δ : Type} {part : σ → τ} {put : σ → τ → σ} {err : δ → ε} {m : Prog τ δ α} :
    wp (m.zoom part put err) Q E s ↔ wp m (fun a t => Q a (put s t)) (fun e => E (err e)) (part s) := by
  unfold wp Prog.zoom
  cases m (part s) with
  | error e => exact Iff.rfl
  | ok r => exact Iff.rfl

theorem wp_ite {c : Prop} [Decidable c] {m' : Prog σ ε α} :
    wp (if c then m else m') Q E s ↔ (c → wp m Q E s) ∧ (¬ c → wp m' Q E s) := by
  split <;> simp [*]

/-- Consequence. -/
theorem wp.mono (h : wp m Q E s) (hQ : ∀ a t, Q a t → Q' a t) : wp m Q' E s := by
  unfold wp at h ⊢
  cases hm : m s with
  | error e => rw [hm] at h; exact h
  | ok r => rw [hm] at h; exact hQ _ _ h

/-- A program that cannot fail does not fail in any way. -/
theorem wp.total {E : ε → Prop} (h : wp m Q (fun _ => False) s) : wp m Q E s := by
  unfold wp at h ⊢
  cases hm : m s with
  | error e => rw [hm] at h; exact h.elim
  | ok r => rw [hm] at h; exact h

/-- Weaker knowledge of the errors. -/
theorem wp.weaken {E E' : ε → Prop} (h : wp m Q E s) (hE : ∀ e, E e → E' e) : wp m Q E' s := by
  unfold wp at h ⊢
  cases hm : m s with
  | error e => rw [hm] at h; exact hE e h
  | ok r => rw [hm] at h; exact h

/-- Sequence: what the first part guarantees is what the second starts from. -/
theorem wp.bind {Q' : β → σ → Prop} (h : wp m Q E s) (hf : ∀ a t, Q a t → wp (f a) Q' E t) :
    wp (m >>= f) Q' E s :=
  wp_bind.mpr (h.mono hf)

/-- What two specifications say, also of a failure. -/
theorem wp.both {E' : ε → Prop} (h : wp m Q E s) (h' : wp m Q' E' s) :
    wp m (fun a t => Q a t ∧ Q' a t) (fun e => E e ∧ E' e) s := by
  unfold wp at h h' ⊢
  cases hm : m s with
  | error e => rw [hm] at h h'; exact ⟨h, h'⟩
  | ok r => rw [hm] at h h'; exact ⟨h, h'⟩

theorem wp.and {E' : ε → Prop} (h : wp m Q E s) (h' : wp m Q' E' s) : wp m (fun a t => Q a t ∧ Q' a t) E s :=
  (h.both h').weaken fun _ he => he.1

/-- What `wp` says of a run that returned. -/
theorem wp.ok (h : wp m Q E s) {a : α} {t : σ} (hm : m s = .ok (a, t)) : Q a t := by
  unfold wp at h; rw [hm] at h; exact h

theorem wp.after (h : wp m Q E s) {t : σ} (hm : m.after s = some t) : ∃ a, Q a t := by
  rw [Prog.after] at hm
  split at hm
  · rename_i a u hok
    cases hm
    exact ⟨a, h.ok hok⟩
  · cases hm

/-- What `wp` says of a run that failed. -/
theorem wp.error (h : wp m Q E s) {e : ε} (hm : m s = .error e) : E e := by
  unfold wp at h; rw [hm] at h; exact h

/-- Nothing is said. -/
theorem wp.trivial (m : Prog σ ε α) (s : σ) : wp m (fun _ _ => True) (fun _ => True) s := by
  unfold wp
  cases m s <;> exact True.intro

/-- A run that returned is the run it is. -/
theorem wp.ran (h : wp m Q E s) : wp m (fun a t => Q a t ∧ m s = .ok (a, t)) E s := by
  unfold wp at h ⊢
  cases hm : m s with
  | error e => rw [hm] at h; exact h
  | ok r => rw [hm] at h; exact ⟨h, rfl⟩

/-- The error a program fails with is the one it fails with. -/
theorem wp.exactly (h : wp m Q E s) : wp m Q (fun e => m s = .error e) s := by
  unfold wp at h ⊢
  cases hm : m s with
  | error e => rfl
  | ok r => rw [hm] at h; exact h

/-- A program that cannot fail returns. -/
theorem wp.returns (h : wp m Q (fun _ => False) s) : ∃ a t, m s = .ok (a, t) ∧ Q a t := by
  cases hm : m s with
  | error e => exact (h.error hm).elim
  | ok r => exact ⟨r.1, r.2, rfl, h.ok hm⟩

/-- Two sequences are the same where their parts are, the second ones only after what the first can do. -/
theorem wp.bind_congr {m' : Prog σ ε α} {g : α → Prog σ ε β} (h : wp m Q E s) (hm : m' s = m s)
    (hf : ∀ a t, Q a t → g a t = f a t) : (m' >>= g) s = (m >>= f) s := by
  show (match m' s with | .ok (a, t) => g a t | .error e => .error e) = match m s with
    | .ok (a, t) => f a t | .error e => .error e
  rw [hm]
  cases hr : m s with
  | error e => rfl
  | ok r => exact hf _ _ (h.ok hr)

/-! ### What a program leaves alone -/

/-- The program takes every state to one it is related to. -/
def Keeps (R : σ → σ → Prop) (m : Prog σ ε α) : Prop := ∀ s, wp m (fun _ t => R s t) (fun _ => True) s

section Keeps
variable {R : σ → σ → Prop} [IsPreorder σ R]

theorem Keeps.pure (a : α) : Keeps R (pure a : Prog σ ε α) := fun s => refl_of R s

theorem Keeps.get : Keeps R (Prog.get : Prog σ ε σ) := fun s => refl_of R s

omit [IsPreorder σ R] in
theorem Keeps.fail (e : ε) : Keeps R (Prog.fail e : Prog σ ε α) := fun _ => trivial

theorem Keeps.bind (hm : Keeps R m) (hf : ∀ a, Keeps R (f a)) : Keeps R (m >>= f) := fun s =>
  wp_bind.mpr ((hm s).mono fun a t ht => (hf a t).mono fun _ _ hu => trans_of R ht hu)

omit [IsPreorder σ R] in
theorem Keeps.ite {c : Prop} [Decidable c] {m' : Prog σ ε α} (h : Keeps R m) (h' : Keeps R m') :
    Keeps R (if c then m else m') := by
  split
  · exact h
  · exact h'

end Keeps

/-- The program never changes what `f` sees of the state. -/
def Preserves {τ : Type*} (f : σ → τ) (m : Prog σ ε α) : Prop := ∀ s, wp m (fun _ t => f t = f s) (fun _ => True) s

section Preserves
variable {τ : Type*} {g : σ → τ}

instance isPreorder_eq (g : σ → τ) : IsPreorder σ fun s t => g t = g s where
  refl _ := rfl
  trans _ _ _ h h' := h'.trans h

theorem Keeps.preserves (h : Keeps (fun s t => g t = g s) m) : Preserves g m := h

theorem Preserves.pure (a : α) : Preserves g (pure a : Prog σ ε α) := (Keeps.pure a).preserves

theorem Preserves.fail (e : ε) : Preserves g (Prog.fail e : Prog σ ε α) := (Keeps.fail e).preserves

theorem Preserves.bind (hm : Preserves g m) (hf : ∀ a, Preserves g (f a)) : Preserves g (m >>= f) :=
  (Keeps.bind (R := fun s t => g t = g s) hm hf).preserves

/-- A first part that preserves `g`, before anything else. -/
theorem Preserves.seq {c : τ} {Q : β → σ → Prop} (hm : Preserves g m) (hs : g s = c)
    (hf : ∀ a t, g t = c → wp (f a) Q (fun _ => True) t) : wp (m >>= f) Q (fun _ => True) s :=
  (hm s).bind fun a t ht => hf a t (ht.trans hs)

theorem Preserves.ite {c : Prop} [Decidable c] {m' : Prog σ ε α} (h : Preserves g m) (h' : Preserves g m') :
    Preserves g (if c then m else m') :=
  (Keeps.ite (R := fun s t => g t = g s) h h').preserves

end Preserves

end Minios.Schemes
