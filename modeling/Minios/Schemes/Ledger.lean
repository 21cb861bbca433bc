import Mathlib

/-! Exclusive ownership of numbered resources.

    Slots of any kind each hold at most one resource (0 for none). The books are in order when a
    resource is marked as used exactly if one slot holds it: nothing is held twice, nothing held is
    marked free, nothing marked used is lost. Taking a free resource into an empty slot and giving
    one back keep the books in order. -/

namespace Minios.Schemes
open Function

variable {κ : Type*} {area used used' : ℕ → Prop} {R : κ → ℕ}

/-- The books of the resources in `area`. -/
structure Ledger (area used : ℕ → Prop) (R : κ → ℕ) : Prop where
  pos : ¬ area 0
  held : ∀ k, R k ≠ 0 → area (R k) ∧ used (R k)
  inj : ∀ k k', R k ≠ 0 → R k = R k' → k = k'
  noLeak : ∀ b, area b → used b → ∃ k, R k = b

theorem Ledger.ne_zero (h : Ledger area used R) {b : ℕ} (hb : area b) : b ≠ 0 := by
  rintro rfl; exact h.pos hb

/-- A free resource is held by no slot. -/
theorem Ledger.not_held (h : Ledger area used R) {b : ℕ} (hb : area b) (hfree : ¬ used b) (k : κ) :
    R k ≠ b := by
  rintro rfl
  exact hfree (h.held k (h.ne_zero hb)).2

/-- Books only depend on which resources of the area are marked. -/
theorem Ledger.congr (h : Ledger area used R) (hu : ∀ b, area b → (used' b ↔ used b)) :
    Ledger area used' R where
  pos := h.pos
  held k hk := ⟨(h.held k hk).1, (hu _ (h.held k hk).1).mpr (h.held k hk).2⟩
  inj := h.inj
  noLeak b hb hub := h.noLeak b hb ((hu b hb).mp hub)

variable [DecidableEq κ]

/-- TAKE: a free resource goes into an empty slot. -/
theorem Ledger.take (h : Ledger area used R) {b : ℕ} {k : κ} (hb : area b) (hfree : ¬ used b)
    (hk : R k = 0) (hu : ∀ x, area x → (used' x ↔ used x ∨ x = b)) :
    Ledger area used' (update R k b) := by
  have hnot := h.not_held hb hfree
  refine ⟨h.pos, fun j hj => ?_, fun j j' hj he => ?_, fun x hx hux => ?_⟩
  · rcases eq_or_ne j k with rfl | hne
    · rw [update_self]; exact ⟨hb, (hu b hb).mpr (Or.inr rfl)⟩
    · rw [update_of_ne hne] at hj ⊢
      obtain ⟨h1, h2⟩ := h.held j hj
      exact ⟨h1, (hu _ h1).mpr (Or.inl h2)⟩
  · rcases eq_or_ne j k with rfl | hne <;> rcases eq_or_ne j' j with rfl | hne'
    · rfl
    · rw [update_self, update_of_ne hne'] at he; exact absurd he.symm (hnot j')
    · rfl
    · rcases eq_or_ne j' k with rfl | hne''
      · rw [update_of_ne hne, update_self] at he; exact absurd he (hnot j)
      · rw [update_of_ne hne] at hj he
        rw [update_of_ne hne''] at he
        exact h.inj j j' hj he
  · rcases (hu x hx).mp hux with hux | rfl
    · obtain ⟨j, rfl⟩ := h.noLeak x hx hux
      refine ⟨j, update_of_ne ?_ ..⟩
      rintro rfl
      exact h.ne_zero hx hk
    · exact ⟨k, update_self ..⟩

/-- GIVE BACK: a slot is emptied and its resource marked free. -/
theorem Ledger.give (h : Ledger area used R) {k : κ} (hk : R k ≠ 0)
    (hu : ∀ x, area x → (used' x ↔ used x ∧ x ≠ R k)) : Ledger area used' (update R k 0) := by
  refine ⟨h.pos, fun j hj => ?_, fun j j' hj he => ?_, fun x hx hux => ?_⟩
  · have hne : j ≠ k := by rintro rfl; exact hj (update_self ..)
    rw [update_of_ne hne] at hj ⊢
    obtain ⟨h1, h2⟩ := h.held j hj
    exact ⟨h1, (hu _ h1).mpr ⟨h2, fun he => hne (h.inj j k hj he)⟩⟩
  · have hne : j ≠ k := by rintro rfl; exact hj (update_self ..)
    rw [update_of_ne hne] at hj he
    rcases eq_or_ne j' k with rfl | hne'
    · rw [update_self] at he; exact absurd he hj
    · rw [update_of_ne hne'] at he; exact h.inj j j' hj he
  · obtain ⟨hux, hne⟩ := (hu x hx).mp hux
    obtain ⟨j, rfl⟩ := h.noLeak x hx hux
    exact ⟨j, update_of_ne (by rintro rfl; exact hne rfl) ..⟩

/-! ### Counting slots -/

section Tally
variable {ι α : Type*} [Fintype ι]

/-- What all slots weigh together. -/
def tally (w : α → ℕ) (g : ι → α) : ℕ := ∑ i, w (g i)

theorem tally_split [DecidableEq ι] (w : α → ℕ) (g : ι → α) (a : ι) :
    tally w g = w (g a) + ∑ i ∈ Finset.univ.erase a, w (g i) :=
  (Finset.add_sum_erase _ (fun i => w (g i)) (Finset.mem_univ a)).symm

theorem tally_update [DecidableEq ι] (w : α → ℕ) (g : ι → α) (a : ι) (x : α) :
    tally w (update g a x) + w (g a) = tally w g + w x := by
  have hrest : (∑ i ∈ Finset.univ.erase a, w (update g a x i)) = ∑ i ∈ Finset.univ.erase a, w (g i) :=
    Finset.sum_congr rfl fun i hi => by rw [update_of_ne (Finset.ne_of_mem_erase hi)]
  rw [tally_split w _ a, tally_split w g a, hrest, update_self]
  omega

end Tally

section Slots
variable {ι α : Type*} [Fintype ι] {P : α → Prop} [DecidablePred P]

/-- How many slots hold something with the property `P`. -/
def slots (P : α → Prop) [DecidablePred P] (g : ι → α) : ℕ := (Finset.univ.filter fun i => P (g i)).card

theorem slots_eq_tally (P : α → Prop) [DecidablePred P] (g : ι → α) :
    slots P g = tally (fun x => if P x then 1 else 0) g := Finset.card_filter _ _

theorem slots_eq_zero {g : ι → α} (h : ∀ i, ¬ P (g i)) : slots P g = 0 := by
  rw [slots, Finset.card_eq_zero, Finset.filter_eq_empty_iff]
  exact fun i _ => h i

theorem slots_pos {g : ι → α} : 0 < slots P g ↔ ∃ i, P (g i) := by
  rw [slots, Finset.card_pos, Finset.filter_nonempty_iff]
  simp

theorem slots_update [DecidableEq ι] (P : α → Prop) [DecidablePred P] (g : ι → α) (a : ι) (x : α) :
    slots P (update g a x) + (if P (g a) then 1 else 0) = slots P g + if P x then 1 else 0 := by
  rw [slots_eq_tally, slots_eq_tally]
  exact tally_update (fun x => if P x then 1 else 0) g a x

end Slots

end Minios.Schemes
