import Mathlib

/-! Queues in a ring, with counters that wrap around.

    A writer puts elements at position `tail % N` and counts `tail` up, a reader takes them from
    `head % N` and counts `head` up; both counters have `w` bits and wrap around. As long as `N`
    divides `2 ^ w` and no more than `N` elements are in it, the ring is a FIFO queue. -/

namespace Minios.Schemes
open Function

variable {α : Type*} {w N : ℕ}

/-- The elements between the counters, oldest first. -/
def queue (N : ℕ) (ring : ℕ → α) (head tail : BitVec w) : List α :=
  (List.range (tail - head).toNat).map fun k => ring ((head.toNat + k) % N)

theorem length_queue (ring : ℕ → α) (head tail : BitVec w) : (queue N ring head tail).length = (tail - head).toNat := by
  rw [queue, List.length_map, List.length_range]

theorem queue_self (ring : ℕ → α) (head : BitVec w) : queue N ring head head = [] := by
  rw [queue, BitVec.sub_self]
  rfl

/-- The next position to write, counted from the oldest element. -/
theorem tail_mod (hN : N ∣ 2 ^ w) (head tail : BitVec w) : tail.toNat % N = (head.toNat + (tail - head).toNat) % N := by
  have h : tail = head + (tail - head) := by
    rw [BitVec.add_comm, BitVec.sub_add_cancel]
  calc tail.toNat % N = (head + (tail - head)).toNat % N := by rw [← h]
    _ = (head.toNat + (tail - head).toNat) % N := by rw [BitVec.toNat_add, Nat.mod_mod_of_dvd _ hN]

theorem ne_mod {a m n : ℕ} (h1 : m < n) (h2 : n ≤ m + N) (hn : n ≠ m + N) : (a + m) % N ≠ (a + n) % N := by
  intro he
  have hdvd : N ∣ (a + n) - (a + m) := (Nat.modEq_iff_dvd' (by omega)).mp he
  obtain ⟨c, hc⟩ := hdvd
  rcases c with _ | c
  · omega
  · have : N ≤ N * (c + 1) := Nat.le_mul_of_pos_right N (by omega)
    omega

/-- A write at or after the tail, less than `N` positions from the head, touches no element in the queue. -/
theorem queue_update_after {ring : ℕ → α} {head tail pos : BitVec w} (hN : N ∣ 2 ^ w)
    (hle : (tail - head).toNat ≤ (pos - head).toNat) (hlt : (pos - head).toNat < N) (x : α) :
    queue N (update ring (pos.toNat % N) x) head tail = queue N ring head tail := by
  refine List.map_congr_left fun k hk => ?_
  rw [List.mem_range] at hk
  rw [tail_mod hN head pos, update_of_ne]
  exact ne_mod (hk.trans_le hle) (by omega) (by omega)

/-- A write at the tail touches no element in the queue, unless it is full. -/
theorem queue_update {ring : ℕ → α} {head tail : BitVec w} (hN : N ∣ 2 ^ w) (hlt : (tail - head).toNat < N) (x : α) :
    queue N (update ring (tail.toNat % N) x) head tail = queue N ring head tail :=
  queue_update_after hN le_rfl hlt x

/-- Counting up. -/
theorem toNat_succ (a : BitVec w) : (a + 1).toNat = (a.toNat + 1) % 2 ^ w := by
  have hone : (1 : BitVec w).toNat = 1 % 2 ^ w := rfl
  rw [BitVec.toNat_add, hone, Nat.add_mod_mod]

/-- PUSH: the tail is counted up past what has been written there. -/
theorem queue_push {ring : ℕ → α} {head tail : BitVec w} (hN : N ∣ 2 ^ w) (hlt : (tail - head).toNat + 1 < 2 ^ w) :
    queue N ring head (tail + 1) = queue N ring head tail ++ [ring (tail.toNat % N)] := by
  have hlen : (tail + 1 - head).toNat = (tail - head).toNat + 1 := by
    have h : tail + 1 - head = tail - head + 1 := by
      rw [BitVec.sub_eq_add_neg, BitVec.sub_eq_add_neg, BitVec.add_assoc, BitVec.add_comm 1, ← BitVec.add_assoc]
    rw [h, toNat_succ, Nat.mod_eq_of_lt hlt]
  rw [queue, hlen, List.range_succ, List.map_append, tail_mod hN head tail]
  rfl

/-- POP: the head is counted up past the oldest element. -/
theorem queue_pop {ring : ℕ → α} {head tail : BitVec w} (hN : N ∣ 2 ^ w) (hne : head ≠ tail) :
    queue N ring head tail = ring (head.toNat % N) :: queue N ring (head + 1) tail := by
  have hsucc : tail - head = tail - (head + 1) + 1 := by
    rw [BitVec.sub_eq_add_neg, BitVec.sub_eq_add_neg, BitVec.neg_add, BitVec.sub_eq_add_neg, BitVec.add_assoc,
      BitVec.add_assoc, BitVec.add_comm (-1), BitVec.add_right_neg, BitVec.add_zero]
  have hlen : (tail - head).toNat = (tail - (head + 1)).toNat + 1 := by
    have hpos : (tail - head).toNat ≠ 0 := by
      intro h0
      have h : tail - head = 0#w := BitVec.eq_of_toNat_eq h0
      rw [BitVec.sub_eq_iff_eq_add, BitVec.zero_add] at h
      exact hne h.symm
    rw [hsucc, toNat_succ] at hpos ⊢
    have hmax := (tail - (head + 1)).isLt
    rcases Nat.lt_or_ge ((tail - (head + 1)).toNat + 1) (2 ^ w) with hlt | hge
    · rw [Nat.mod_eq_of_lt hlt]
    · have hfull : (tail - (head + 1)).toNat + 1 = 2 ^ w := Nat.le_antisymm hmax hge
      rw [hfull, Nat.mod_self] at hpos
      exact absurd rfl hpos
  rw [queue, hlen, List.range_succ_eq_map, List.map_cons, List.map_map]
  refine congrArg₂ _ rfl (List.map_congr_left fun k _ => ?_)
  show ring ((head.toNat + (k + 1)) % N) = ring (((head + 1).toNat + k) % N)
  rw [toNat_succ, Nat.add_mod ((head.toNat + 1) % 2 ^ w), Nat.mod_mod_of_dvd _ hN, ← Nat.add_mod]
  congr 2
  omega

/-- Two queues in a row are one. -/
theorem queue_append {ring : ℕ → α} {head mid tail : BitVec w} (hN : N ∣ 2 ^ w)
    (hlen : (tail - head).toNat = (mid - head).toNat + (tail - mid).toNat) :
    queue N ring head tail = queue N ring head mid ++ queue N ring mid tail := by
  rw [queue, queue, queue, hlen, List.range_add, List.map_append, List.map_map]
  refine congrArg _ (List.map_congr_left fun k _ => ?_)
  rw [comp_apply, ← Nat.add_assoc, Nat.add_mod, ← tail_mod hN head mid, ← Nat.add_mod]

end Minios.Schemes
