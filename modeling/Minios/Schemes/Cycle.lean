import Mathlib

/-! Lists that a pointer closes to a cycle.

        a ──▶ b ──▶ c ──▶ e              Path next [a, b, c] e
        a ──▶ b ──▶ c ──▶ a              Around next [a, b, c]

    `next` is any function; a store changes it at one place (`update`). -/

namespace Minios.Schemes
open Function

variable {α : Type*} {next next' : α → α} {p q e : α} {l l' xs ys : List α}

/-- Each element of `l` points to the one after it, and the last one to `e`. -/
def Path (next : α → α) (l : List α) (e : α) : Prop := (l ++ [e]).IsChain fun a b => next a = b

theorem path_nil (next : α → α) (e : α) : Path next [] e := .singleton e

theorem path_cons : Path next (p :: l) e ↔ next p = l.headD e ∧ Path next l e := by
  cases l with
  | nil => exact ⟨fun h => ⟨(List.isChain_cons_cons.mp h).1, path_nil ..⟩, fun h => List.isChain_cons_cons.mpr ⟨h.1, .singleton e⟩⟩
  | cons q l => exact List.isChain_cons_cons

theorem path_append : Path next (l ++ l') e ↔ Path next l (l'.headD e) ∧ Path next l' e := by
  induction l with
  | nil => exact ⟨fun h => ⟨path_nil .., h⟩, fun h => h.2⟩
  | cons p l ih =>
    rw [List.cons_append, path_cons, path_cons, ih, and_assoc]
    cases l with
    | nil => rfl
    | cons q l => rfl

/-- Where an element of a path points. -/
theorem Path.next_eq (h : Path next (l ++ p :: l') e) : next p = l'.headD e := (path_cons.mp (path_append.mp h).2).1

theorem Path.congr (h : Path next l e) (hn : ∀ a ∈ l, next' a = next a) : Path next' l e := by
  induction l with
  | nil => exact path_nil ..
  | cons p l ih =>
    obtain ⟨hp, hl⟩ := path_cons.mp h
    exact path_cons.mpr ⟨(hn p List.mem_cons_self).trans hp, ih hl fun a ha => hn a (List.mem_cons_of_mem _ ha)⟩

/-- The pointer leads around the list. -/
def Around (next : α → α) (xs : List α) : Prop := Cycle.Chain (fun a b => next a = b) (xs : Cycle α)

theorem around_cons : Around next (p :: l) ↔ Path next (p :: l) p := Cycle.chain_coe_cons ..

/-- A cycle can be entered anywhere. -/
theorem around_append : Around next (xs ++ ys) ↔ Around next (ys ++ xs) := by
  have hrot : (xs ++ ys).IsRotated (ys ++ xs) := List.isRotated_append
  rw [Around, Around, Cycle.coe_eq_coe.mpr hrot]

theorem around_mid : Around next (l ++ p :: l') ↔ Path next (p :: (l' ++ l)) p := by
  rw [around_append, List.cons_append, around_cons]

/-- From any element once around. -/
theorem Around.round (h : Around next xs) (hp : p ∈ xs) : ∃ l, Path next (p :: l) p ∧ (p :: l).Perm xs := by
  obtain ⟨l, l', rfl⟩ := List.append_of_mem hp
  have hperm : (p :: l' ++ l).Perm (l ++ p :: l') := List.perm_append_comm
  exact ⟨l' ++ l, around_mid.mp h, hperm⟩

/-- Where an element of a cycle points: to the next one, or back to the first. -/
theorem Around.next_eq (h : Around next (l ++ p :: l')) (e : α) (he : (l ++ p :: l').head? = some e) :
    next p = l'.headD e := by
  cases l with
  | nil =>
    obtain rfl : p = e := by simpa using he
    exact (path_cons.mp (around_cons.mp h)).1
  | cons q l =>
    obtain rfl : q = e := by simpa using he
    exact Path.next_eq (l := q :: l) (around_cons.mp h)

/-! ### Stores -/

variable [DecidableEq α]

/-- The element after `p` is left out. -/
theorem Path.skip (h : Path next (p :: q :: l) e) (hp : p ∉ l) : Path (update next p (next q)) (p :: l) e := by
  obtain ⟨hnext, hl⟩ := path_cons.mp (path_cons.mp h).2
  refine path_cons.mpr ⟨by rw [update_self, hnext], hl.congr fun a ha => update_of_ne ?_ ..⟩
  rintro rfl
  exact hp ha

end Minios.Schemes
