import Minios.Schemes.Prog

/-! Two programs that take the same way and differ in what they return.

    `Mirrors R m' m`: from every state, `m'` and `m` both fail with the same error, or both return in the same state, with
    results that are related by `R`. Where the texts of two programs run in parallel, that follows from the rules below. -/

namespace Minios.Schemes

variable {σ ε α β γ δ : Type} {R : α → β → Prop} {S : γ → δ → Prop} {m' : Prog σ ε α} {m : Prog σ ε β}

def Mirrors (R : α → β → Prop) (m' : Prog σ ε α) (m : Prog σ ε β) : Prop :=
  ∀ s, wp m' (fun a t => ∃ b, m s = .ok (b, t) ∧ R a b) (fun e => m s = .error e) s

theorem Mirrors.pure {a : α} {b : β} (h : R a b) : Mirrors R (pure a : Prog σ ε α) (pure b) := fun _ => ⟨b, rfl, h⟩

theorem Mirrors.refl (m : Prog σ ε α) : Mirrors Eq m m := fun s => by
  unfold wp
  cases hm : m s with
  | error e => exact rfl
  | ok r => exact ⟨r.1, rfl, rfl⟩

theorem Mirrors.bind {f' : α → Prog σ ε γ} {f : β → Prog σ ε δ} (h : Mirrors R m' m)
    (hf : ∀ a b, R a b → Mirrors S (f' a) (f b)) : Mirrors S (m' >>= f') (m >>= f) := fun s => by
  refine (wp_bind (m := m') (f := f')).mpr ?_
  have hs := h s
  unfold wp at hs ⊢
  cases hm : m' s with
  | error e =>
    rw [hm] at hs
    exact bind_error hs
  | ok r =>
    rw [hm] at hs
    obtain ⟨b, hb, hR⟩ := hs
    have hrest := hf r.1 b hR r.2
    rw [bind_ok hb]
    exact hrest

theorem Mirrors.ite {c : Prop} [Decidable c] {n' : Prog σ ε α} {n : Prog σ ε β} (h : Mirrors R m' m) (h' : Mirrors R n' n) :
    Mirrors R (if c then m' else n') (if c then m else n) := by
  split
  · exact h
  · exact h'

/-- What is known of one program, for the other. -/
theorem Mirrors.ok (h : Mirrors R m' m) {a : α} {s t : σ} (hm : m' s = .ok (a, t)) : ∃ b, m s = .ok (b, t) ∧ R a b :=
  (h s).ok hm

end Minios.Schemes
