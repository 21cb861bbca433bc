import Minios.Schemes.Prog

/-! Programs that keep a record of what they do.

    `Noted σ ω ε` is a program with a state of type `σ` and, next to it, the list of what has been noted, the last
    note first. `Erases m' m`: without its notes, `m'` is `m`. Where two programs differ only in that one of them makes
    notes, that follows from the rules below along their text. -/

namespace Minios.Schemes

variable {σ ω ε α β : Type}

abbrev Noted (σ ω ε : Type) := Prog (σ × List ω) ε

/-- Run a program and note nothing. -/
def Prog.silent (m : Prog σ ε α) : Noted σ ω ε α := m.zoom Prod.fst (fun s t => (t, s.2)) id

/-- Run a program and note `w`. -/
def Prog.noting (w : ω) (m : Prog σ ε α) : Noted σ ω ε α := m.zoom Prod.fst (fun s t => (t, w :: s.2)) id

/-- Without the notes, the first program is the second one. -/
def Erases (m' : Noted σ ω ε α) (m : Prog σ ε α) : Prop :=
  ∀ s l, wp m' (fun a t => m s = .ok (a, t.1)) (fun e => m s = .error e) (s, l)

variable {m' : Noted σ ω ε α} {m : Prog σ ε α} {f' : α → Noted σ ω ε β} {f : α → Prog σ ε β}

theorem Erases.pure (a : α) : Erases (pure a : Noted σ ω ε α) (pure a) := fun _ _ => rfl

theorem Erases.fail (e : ε) : Erases (Prog.fail e : Noted σ ω ε α) (Prog.fail e) := fun _ _ => rfl

theorem Erases.silent (m : Prog σ ε α) : Erases (m.silent : Noted σ ω ε α) m := fun s l => by
  rw [Prog.silent, wp_zoom, wp]
  split
  · assumption
  · assumption

theorem Erases.noting (w : ω) (m : Prog σ ε α) : Erases (m.noting w) m := fun s l => by
  rw [Prog.noting, wp_zoom, wp]
  split
  · assumption
  · assumption

theorem Erases.bind (h : Erases m' m) (hf : ∀ a, Erases (f' a) (f a)) : Erases (m' >>= f') (m >>= f) := fun s l => by
  have hs := h s l
  rw [wp_bind, wp]
  cases hm : m' (s, l) with
  | error e => exact bind_error (hs.error hm)
  | ok r =>
    obtain ⟨a, t, l'⟩ := r
    simp only [bind_ok (hs.ok hm)]
    exact hf a t l'

theorem Erases.ite {c : Prop} [Decidable c] {n' : Noted σ ω ε α} {n : Prog σ ε α} (h : Erases m' m) (h' : Erases n' n) :
    Erases (if c then m' else n') (if c then m else n) := by
  split
  · exact h
  · exact h'

end Minios.Schemes
