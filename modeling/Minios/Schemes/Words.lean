import Mathlib.Data.List.TakeWhile

/-! The words of a list: what is left of the pieces between separators when the empty ones are dropped.

        a b | | c d e |      words   [a b], [c d e]

    A scanner skips separators and takes what is before the next one; that is one word after the other. -/

namespace Minios.Schemes

variable {α : Type*} {p : α → Bool} {x : α} {xs : List α}

/-- The maximal nonempty runs without separator. -/
def words (p : α → Bool) (xs : List α) : List (List α) := (xs.splitOnP p).filter (· ≠ [])

theorem words_nil : words p ([] : List α) = [] := by simp [words]

theorem words_separator (h : p x = true) (xs : List α) : words p (x :: xs) = words p xs := by
  rw [words, words, List.splitOnP_cons_eq_if_modifyHead, if_pos h, List.filter_cons_of_neg (by simp)]

/-- Separators at the start do not matter. -/
theorem words_dropWhile (p : α → Bool) : ∀ xs : List α, words p (xs.dropWhile p) = words p xs
  | [] => rfl
  | x :: xs => by
      by_cases h : p x = true
      · rw [List.dropWhile_cons_of_pos h, words_dropWhile p xs, words_separator h]
      · rw [List.dropWhile_cons_of_neg h]

/-- The first word goes up to the first separator. -/
theorem words_cons (h : p x = false) (xs : List α) : words p (x :: xs) =
    (x :: xs).takeWhile (fun a => !p a) :: words p ((x :: xs).dropWhile fun a => !p a) := by
  have hword : ∀ a ∈ (x :: xs).takeWhile (fun a => !p a), p a = false := fun a ha => by
    simpa using List.mem_takeWhile_imp ha
  have hne : (x :: xs).takeWhile (fun a => !p a) ≠ [] := by
    rw [List.takeWhile_cons_of_pos (by rw [h]; rfl)]
    exact List.cons_ne_nil _ _
  have happ := List.takeWhile_append_dropWhile (p := fun a => !p a) (l := x :: xs)
  cases hrest : (x :: xs).dropWhile (fun a => !p a) with
  | nil =>
    rw [hrest, List.append_nil] at happ
    rw [words_nil, happ, words, List.splitOnP_eq_singleton (by rwa [happ] at hword)]
    rfl
  | cons y ys =>
    have hy : p y = true := by
      have := List.head_dropWhile_not (fun a => !p a) (l := x :: xs) (by rw [hrest]; exact List.cons_ne_nil _ _)
      simpa [hrest] using this
    rw [hrest] at happ
    rw [words_separator hy]
    calc words p (x :: xs) = words p ((x :: xs).takeWhile (fun a => !p a) ++ y :: ys) := by rw [happ]
      _ = (x :: xs).takeWhile (fun a => !p a) :: words p ys := by
        rw [words, List.splitOnP_append_cons_of_forall_mem hword y hy, List.filter_cons_of_pos (by simpa using hne)]
        rfl

end Minios.Schemes
