import Mathlib

/-! `kernel/string.c` and `user/ulib.c`: the two `memmove`s.

        up      dst ◀── src        the first byte first: nothing is lost unless dst is inside [src, src + n)
        down           src ──▶ dst the last byte first:  nothing is lost unless src is inside [dst, dst + n)

    The kernel goes down just if `dst` is inside the source; the library goes down unless `src > dst`. Both are safe
    choices. Pointers are 64 bits wide; one past the end of a range may be address 0 again. -/

namespace Minios.Memory

/-- A byte for every address. -/
abbrev Mem := ℕ → UInt8

open Function

variable {m : Mem} {d s n : ℕ}

/-- `while(n-- > 0) *d++ = *s++;` -/
def copyUp (m : Mem) (d s : ℕ) : ℕ → Mem
  | 0 => m
  | n + 1 => copyUp (update m d (m s)) ((d + 1) % 2 ^ 64) ((s + 1) % 2 ^ 64) n

/-- `while(n-- > 0) *--d = *--s;` -/
def copyDown (m : Mem) (d s : ℕ) : ℕ → Mem
  | 0 => m
  | n + 1 =>
    let d := (d + (2 ^ 64 - 1)) % 2 ^ 64
    let s := (s + (2 ^ 64 - 1)) % 2 ^ 64
    copyDown (update m d (m s)) d s n

/-- `memmove` of the kernel; `n` is an `uint`. -/
def memmove (m : Mem) (dst src : ℕ) (n : UInt32) : Mem :=
  if n = 0 then m
  else if src < dst ∧ dst < (src + n.toNat) % 2 ^ 64 then
    copyDown m ((dst + n.toNat) % 2 ^ 64) ((src + n.toNat) % 2 ^ 64) n.toNat
  else copyUp m dst src n.toNat

/-- `memmove` of the user library; `n` is an `int`, and nothing is copied if it is negative. -/
def Ulib.memmove (m : Mem) (dst src : ℕ) (n : Int32) : Mem :=
  if dst < src then copyUp m dst src n.toInt.toNat
  else copyDown m ((dst + n.toInt) % 2 ^ 64).toNat ((src + n.toInt) % 2 ^ 64).toNat n.toInt.toNat

/-- The range at `d` holds the bytes that the range at `s` held, and nothing else has changed. -/
def Moved (m : Mem) (d s n : ℕ) (m' : Mem) : Prop :=
  ∀ a, m' a = if d ≤ a ∧ a < d + n then m (s + (a - d)) else m a

/-- UP: what is read has not been written, if the destination does not start inside the source. -/
theorem copyUp_moved : ∀ (n : ℕ) (m : Mem) (d s : ℕ), d + n ≤ 2 ^ 64 → s + n ≤ 2 ^ 64 → (d ≤ s ∨ s + n ≤ d) →
    Moved m d s n (copyUp m d s n)
  | 0, m, d, s, _, _, _ => fun a => by
      rw [copyUp, if_neg (by omega)]
  | n + 1, m, d, s, hd, hs, hup => fun a => by
      rw [copyUp]
      rcases Nat.eq_zero_or_pos n with rfl | hn
      · rw [copyUp]
        rcases eq_or_ne a d with rfl | ha
        · rw [update_self, if_pos (by omega), Nat.sub_self, Nat.add_zero]
        · rw [update_of_ne ha, if_neg (by omega)]
      rw [Nat.mod_eq_of_lt (by omega), Nat.mod_eq_of_lt (by omega),
        copyUp_moved n _ (d + 1) (s + 1) (by omega) (by omega) (by omega) a]
      rcases Nat.lt_trichotomy a d with ha | rfl | ha
      · rw [if_neg (by omega), if_neg (by omega), update_of_ne (by omega)]
      · rw [if_neg (by omega), if_pos (by omega), update_self, Nat.sub_self, Nat.add_zero]
      · rcases Nat.lt_or_ge a (d + (n + 1)) with hlt | hge
        · rw [if_pos (by omega), if_pos (by omega), update_of_ne (by omega)]
          congr 1
          omega
        · rw [if_neg (by omega), if_neg (by omega), update_of_ne (by omega)]

/-- DOWN: what is read has not been written, if the source does not start inside the destination. Both pointers are one
    past the end at first. -/
theorem copyDown_moved : ∀ (n : ℕ) (m : Mem) (d s : ℕ), d + n ≤ 2 ^ 64 → s + n ≤ 2 ^ 64 → (s ≤ d ∨ d + n ≤ s) →
    Moved m d s n (copyDown m ((d + n) % 2 ^ 64) ((s + n) % 2 ^ 64) n)
  | 0, m, d, s, _, _, _ => fun a => by
      rw [copyDown, if_neg (by omega)]
  | n + 1, m, d, s, hd, hs, hdown => fun a => by
      have hpd : ((d + (n + 1)) % 2 ^ 64 + (2 ^ 64 - 1)) % 2 ^ 64 = (d + n) % 2 ^ 64 := by omega
      have hps : ((s + (n + 1)) % 2 ^ 64 + (2 ^ 64 - 1)) % 2 ^ 64 = (s + n) % 2 ^ 64 := by omega
      have hld : (d + n) % 2 ^ 64 = d + n := Nat.mod_eq_of_lt (by omega)
      have hls : (s + n) % 2 ^ 64 = s + n := Nat.mod_eq_of_lt (by omega)
      have ih := copyDown_moved n (update m (d + n) (m (s + n))) d s (by omega) (by omega) (by omega) a
      rw [hld, hls] at ih
      simp only [copyDown, hpd, hps, hld, hls]
      rw [ih]
      rcases Nat.lt_trichotomy a (d + n) with ha | rfl | ha
      · rcases Nat.lt_or_ge a d with hlt | hge
        · rw [if_neg (by omega), if_neg (by omega), update_of_ne (by omega)]
        · rw [if_pos (by omega), if_pos (by omega), update_of_ne (by omega)]
      · rw [if_neg (by omega), if_pos (by omega), update_self, Nat.add_sub_cancel_left]
      · rw [if_neg (by omega), if_neg (by omega), update_of_ne (by omega)]

/-- CORRECT (both `memmove`s): for ranges that do not wrap, however they overlap, the destination holds what the source
    held and every other byte is unchanged. A negative length moves nothing. -/
theorem memmove_moves (m : Mem) (dst src : ℕ) :
    (∀ n : UInt32, dst + n.toNat ≤ 2 ^ 64 → src + n.toNat ≤ 2 ^ 64 → Moved m dst src n.toNat (memmove m dst src n)) ∧
    ∀ n : Int32, dst + n.toInt.toNat ≤ 2 ^ 64 → src + n.toInt.toNat ≤ 2 ^ 64 →
      Moved m dst src n.toInt.toNat (Ulib.memmove m dst src n) := by
  refine ⟨fun n hd hs => ?_, fun n hd hs => ?_⟩
  · rw [memmove]
    split
    · rename_i h0
      subst h0
      intro a
      rw [if_neg (by simp)]
    split
    · exact copyDown_moved n.toNat m dst src hd hs (by omega)
    · rename_i hpos hno
      refine copyUp_moved n.toNat m dst src hd hs ?_
      have hn : n.toNat ≠ 0 := fun h => hpos (UInt32.toNat_inj.mp h)
      omega
  · rw [Ulib.memmove]
    split
    · exact copyUp_moved _ m dst src hd hs (by omega)
    · by_cases hneg : n.toInt < 0
      · rw [Int.toNat_of_nonpos (Int.le_of_lt hneg)]
        intro a
        rw [copyDown, if_neg (by omega)]
      · have h := copyDown_moved n.toInt.toNat m dst src hd hs (by omega)
        have hcast : ∀ a : ℕ, ((a + n.toInt) % 2 ^ 64).toNat = (a + n.toInt.toNat) % 2 ^ 64 := fun a => by omega
        rw [hcast, hcast]
        exact h

/-- Three bytes of `0, 1, 2, 3, 4` moved by one, in either direction. -/
theorem memmove_moves_overlap : memmove (fun a => a.toUInt8) 1 0 3 3 = 2 ∧ Ulib.memmove (fun a => a.toUInt8) 0 1 3 2 = 3 := by
  have h := memmove_moves fun a => a.toUInt8
  refine ⟨((h 1 0).1 3 (by decide) (by decide) 3).trans (by decide), ?_⟩
  exact ((h 0 1).2 3 (by decide) (by decide) 2).trans (by decide)

end Minios.Memory
