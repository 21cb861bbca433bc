import Mathlib.Data.List.Basic

/-! Lines that end in a newline, and texts cut somewhere.

        unlines [a b, c]  =  a b ↵ c ↵

    A text of lines that is cut in two has some whole lines before the cut, and a piece of the next one. -/

namespace Minios.Schemes

variable {α : Type*} {nl : α} {l x y : List α} {ls ms : List (List α)}

/-- Each line with the newline after it. -/
def unlines (nl : α) (ls : List (List α)) : List α := ls.flatMap (· ++ [nl])

@[simp] theorem unlines_nil : unlines nl [] = [] := rfl

theorem unlines_cons : unlines nl (l :: ls) = l ++ nl :: unlines nl ls := by
  simp [unlines]

theorem unlines_append : unlines nl (ls ++ ms) = unlines nl ls ++ unlines nl ms := List.flatMap_append

/-- A text without newline has no line. -/
theorem unlines_eq_nil (h : nl ∉ unlines nl ls) : ls = [] := by
  cases ls with
  | nil => rfl
  | cons l ls => exact absurd (by rw [unlines_cons]; simp) h

theorem length_unlines (nl : α) : ∀ ls : List (List α), ls.length ≤ (unlines nl ls).length
  | [] => Nat.le_refl 0
  | l :: ls => by
      have := length_unlines nl ls
      rw [unlines_cons, List.length_append, List.length_cons, List.length_cons]
      omega

theorem length_le_unlines (nl : α) (h : l ∈ ls) : l.length + 1 ≤ (unlines nl ls).length := by
  obtain ⟨before, after, rfl⟩ := List.append_of_mem h
  simp only [unlines_append, unlines_cons, List.length_append, List.length_cons]
  omega

/-- A text of lines begins with a piece of the first. -/
theorem length_le_head (h : x ++ y = unlines nl (l :: ls)) (hx : nl ∉ x) : x.length ≤ l.length := by
  rw [unlines_cons] at h
  rcases List.append_eq_append_iff.mp h with ⟨a, rfl, -⟩ | ⟨a, rfl, ha⟩
  · rw [List.length_append]
    exact Nat.le_add_right _ _
  · cases a with
    | nil => exact Nat.le_of_eq (congrArg List.length (List.append_nil l))
    | cons b a =>
      obtain ⟨rfl, -⟩ := List.cons.inj ha
      exact absurd (List.mem_append_right l List.mem_cons_self) hx

/-- CUT: whole lines, and then a piece without newline. -/
theorem unlines_cut : ∀ {ls : List (List α)} {x y : List α}, x ++ y = unlines nl ls → (∀ l ∈ ls, nl ∉ l) →
    ∃ done rest tail, ls = done ++ rest ∧ x = unlines nl done ++ tail ∧ tail ++ y = unlines nl rest ∧ nl ∉ tail
  | [], x, y, h, _ => by
      obtain ⟨rfl, rfl⟩ := List.append_eq_nil_iff.mp h
      exact ⟨[], [], [], rfl, rfl, rfl, nofun⟩
  | l :: ls, x, y, h, hnl => by
      rw [unlines_cons] at h
      have hl : nl ∉ l := hnl l List.mem_cons_self
      rcases List.append_eq_append_iff.mp h with ⟨a, rfl, ha⟩ | ⟨a, rfl, ha⟩
      · -- the cut is inside the first line
        refine ⟨[], (x ++ a) :: ls, x, rfl, rfl, ?_, fun hx => hl (List.mem_append_left a hx)⟩
        rw [unlines_cons, ha, List.append_assoc]
      · cases a with
        | nil =>
          refine ⟨[], l :: ls, l, rfl, by simp, ?_, hl⟩
          rw [unlines_cons, ← show nl :: unlines nl ls = y from ha]
        | cons b a =>
          -- or after its newline
          obtain ⟨rfl, hrest⟩ := List.cons.inj ha
          obtain ⟨done, rest, tail, rfl, rfl, htail, hno⟩ :=
            unlines_cut hrest.symm fun l hl => hnl l (List.mem_cons_of_mem _ hl)
          refine ⟨l :: done, rest, tail, rfl, ?_, htail, hno⟩
          rw [unlines_cons, List.append_assoc, List.cons_append]

end Minios.Schemes
