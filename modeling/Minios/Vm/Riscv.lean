import Minios.Schemes.Bytes

/-! Addresses and page-table entries: the macros of `kernel/riscv.h` and `kernel/memlayout.h`.

        63          39 38      30 29      21 20      12 11       0
        ┌─────────────┬──────────┬──────────┬──────────┬──────────┐
        │ must be 0   │ PX 2     │ PX 1     │ PX 0     │ offset   │   virtual address
        └─────────────┴──────────┴──────────┴──────────┴──────────┘
        63 62 61                               10 9  5 4 3 2 1 0
        ┌────┬───────────────────────────────────┬────┬─┬─┬─┬─┬─┐
        │    │ frame                             │    │U│X│W│R│V│   page-table entry
        └────┴───────────────────────────────────┴────┴─┴─┴─┴─┴─┘

    A pointer to a page of memory is page-aligned; it is given by its page number, a FRAME. The page number of
    a virtual address is `pageno`, and `vaddr` is the address of a page. -/

namespace Minios.Vm

abbrev Word := BitVec 64

/-- Bytes per page. -/
abbrev PGSIZE : Word := 4096#64

abbrev Page := Fin 4096 → UInt8

def PGROUNDUP (sz : Word) : Word := (sz + PGSIZE - 1) &&& ~~~ (PGSIZE - 1)

def PGROUNDDOWN (a : Word) : Word := a &&& ~~~ (PGSIZE - 1)

abbrev PTE_V : Word := 1#64 <<< 0
abbrev PTE_R : Word := 1#64 <<< 1
abbrev PTE_W : Word := 1#64 <<< 2
abbrev PTE_X : Word := 1#64 <<< 3

/-- User can access. -/
abbrev PTE_U : Word := 1#64 <<< 4

/-- Shift a physical address to the right place for a PTE. -/
def PA2PTE (pa : Word) : Word := (pa >>> 12) <<< 10

def PTE2PA (pte : Word) : Word := (pte >>> 10) <<< 12

def PTE_FLAGS (pte : Word) : Word := pte &&& 0x3FF#64

def PXSHIFT (level : ℕ) : ℕ := 12 + 9 * level

/-- One of the three 9-bit page table indices of a virtual address. -/
def PX (level : ℕ) (va : Word) : Word := (va >>> PXSHIFT level) &&& 0x1FF#64

/-- One beyond the highest possible virtual address. -/
abbrev MAXVA : Word := 1#64 <<< (9 + 9 + 9 + 12 - 1)

abbrev KERNBASE : Word := 0x80000000#64
abbrev PHYSTOP : Word := KERNBASE + 128 * 1024 * 1024
abbrev TRAMPOLINE : Word := MAXVA - PGSIZE
abbrev TRAPFRAME : Word := TRAMPOLINE - PGSIZE

/-- Page-aligned pointers. -/
abbrev Frame := BitVec 52

def Frame.pa (f : Frame) : Word := f.setWidth 64 <<< 12

def frame (pa : Word) : Frame := (pa >>> 12).setWidth 52

/-- Page number of a virtual address. -/
def pageno (va : Word) : ℕ := va.toNat / 4096

def vaddr (p : ℕ) : Word := BitVec.ofNat 64 (p * 4096)

scoped instance neZero_512 : NeZero 512 := ⟨by decide⟩

/-- An index into a page-table page. -/
def px (level : ℕ) (va : Word) : Fin 512 := Fin.ofNat 512 (PX level va).toNat

/-! ### Rounding -/

theorem and_mask (a : Word) : a &&& ~~~ (PGSIZE - 1) = (a >>> 12) <<< 12 := by
  have hmask : ~~~ (PGSIZE - 1) = BitVec.allOnes 64 <<< 12 := by decide
  rw [hmask]
  refine BitVec.eq_of_getLsbD_eq fun i hi => ?_
  rw [BitVec.getLsbD_and, BitVec.getLsbD_shiftLeft, BitVec.getLsbD_shiftLeft, BitVec.getLsbD_ushiftRight,
    BitVec.getLsbD_allOnes]
  rcases Nat.lt_or_ge i 12 with h | h
  · simp [h]
  · have h1 : 12 + (i - 12) = i := by omega
    have h2 : i - 12 < 64 := by omega
    simp [h1, h2, hi, Nat.not_lt.mpr h]

theorem shift_toNat (a : Word) : ((a >>> 12) <<< 12).toNat = a.toNat / 4096 * 4096 := by
  rw [BitVec.toNat_shiftLeft, BitVec.toNat_ushiftRight, Nat.shiftLeft_eq, Nat.shiftRight_eq_div_pow]
  have := a.isLt
  omega

theorem PGROUNDDOWN_toNat (a : Word) : (PGROUNDDOWN a).toNat = pageno a * 4096 := by
  rw [PGROUNDDOWN, and_mask, shift_toNat, pageno]

/-- Pages that hold `n` bytes. -/
def pages (n : ℕ) : ℕ := (n + 4095) / 4096

theorem PGROUNDUP_toNat {sz : Word} (h : sz.toNat + 4095 < 2 ^ 64) : (PGROUNDUP sz).toNat = pages sz.toNat * 4096 := by
  have hadd : (sz + PGSIZE - 1).toNat = sz.toNat + 4095 := by bv_omega
  rw [PGROUNDUP, and_mask, shift_toNat, hadd, pages]

theorem vaddr_toNat {p : ℕ} (h : p < 2 ^ 52) : (vaddr p).toNat = p * 4096 := by
  rw [vaddr, BitVec.toNat_ofNat]; omega

theorem pageno_vaddr {p : ℕ} (h : p < 2 ^ 52) : pageno (vaddr p) = p := by
  rw [pageno, vaddr_toNat h]; omega

theorem vaddr_pageno {va : Word} (h : va.toNat % 4096 = 0) : vaddr (pageno va) = va := by
  have hlt : pageno va < 2 ^ 52 := by have := va.isLt; rw [pageno]; omega
  refine BitVec.eq_of_toNat_eq ?_
  rw [vaddr_toNat hlt, pageno]; omega

theorem PGROUNDDOWN_eq (a : Word) : PGROUNDDOWN a = vaddr (pageno a) := by
  have hlt : pageno a < 2 ^ 52 := by have := a.isLt; rw [pageno]; omega
  exact BitVec.eq_of_toNat_eq (by rw [PGROUNDDOWN_toNat, vaddr_toNat hlt])

theorem vaddr_succ (p : ℕ) : vaddr p + PGSIZE = vaddr (p + 1) := by
  refine BitVec.eq_of_toNat_eq ?_
  simp only [vaddr, BitVec.toNat_add, BitVec.toNat_ofNat]
  omega

/-! ### Indices -/

theorem px_eq (level : ℕ) (va : Word) : px level va = Fin.ofNat 512 (pageno va / 512 ^ level) := by
  have hmask : (PX level va).toNat = va.toNat / 2 ^ PXSHIFT level % 512 := by
    rw [PX, BitVec.toNat_and, BitVec.toNat_ushiftRight, Nat.shiftRight_eq_div_pow]
    exact Nat.and_two_pow_sub_one_eq_mod _ 9
  have hpow : 2 ^ PXSHIFT level = 4096 * 512 ^ level := by
    rw [PXSHIFT, pow_add, pow_mul]; rfl
  refine Fin.ext ?_
  rw [px, Fin.val_ofNat, Fin.val_ofNat, hmask, hpow, Nat.mod_mod, pageno, Nat.div_div_eq_div_mul]

theorem eq_of_indices {p q : ℕ} (hp : p < 2 ^ 27) (hq : q < 2 ^ 27)
    (h2 : Fin.ofNat 512 (p / 512 ^ 2) = Fin.ofNat 512 (q / 512 ^ 2))
    (h1 : Fin.ofNat 512 (p / 512 ^ 1) = Fin.ofNat 512 (q / 512 ^ 1))
    (h0 : Fin.ofNat 512 (p / 512 ^ 0) = Fin.ofNat 512 (q / 512 ^ 0)) : p = q := by
  simp only [Fin.ext_iff, Fin.val_ofNat] at h0 h1 h2
  omega

/-! ### Frames and entries -/

theorem frame_pa (f : Frame) : frame f.pa = f := by
  refine BitVec.eq_of_toNat_eq ?_
  have hf := f.isLt
  rw [frame, Frame.pa, BitVec.toNat_setWidth, BitVec.toNat_ushiftRight, BitVec.toNat_shiftLeft, BitVec.toNat_setWidth,
    Nat.shiftLeft_eq, Nat.shiftRight_eq_div_pow]
  omega

theorem pa_toNat (f : Frame) : f.pa.toNat = f.toNat * 4096 := by
  have hf := f.isLt
  rw [Frame.pa, BitVec.toNat_shiftLeft, BitVec.toNat_setWidth, Nat.shiftLeft_eq]
  omega

theorem frame_toNat (pa : Word) : (frame pa).toNat = pa.toNat / 4096 := by
  have := pa.isLt
  rw [frame, BitVec.toNat_setWidth, BitVec.toNat_ushiftRight, Nat.shiftRight_eq_div_pow]
  omega

theorem pa_frame {pa : Word} (h : pa.toNat % 4096 = 0) : (frame pa).pa = pa := by
  refine BitVec.eq_of_toNat_eq ?_
  rw [pa_toNat, frame_toNat]; omega

/-- The entry for a physical address, with flags, leads to that address. -/
theorem PTE2PA_entry {pa flags : Word} (hpa : pa.toNat % 4096 = 0) (hf : flags.toNat < 1024) :
    PTE2PA (PA2PTE pa ||| flags) = pa := by
  have hz : flags >>> 10 = 0#64 := by
    refine BitVec.eq_of_toNat_eq ?_
    rw [BitVec.toNat_ushiftRight, Nat.shiftRight_eq_div_pow, Nat.div_eq_of_lt hf]; rfl
  rw [PTE2PA, BitVec.ushiftRight_or_distrib, hz, BitVec.or_zero]
  refine BitVec.eq_of_toNat_eq ?_
  have := pa.isLt
  rw [PA2PTE]
  simp only [BitVec.toNat_shiftLeft, BitVec.toNat_ushiftRight, Nat.shiftLeft_eq, Nat.shiftRight_eq_div_pow]
  omega

/-- The low ten bits of the entry for an address are free for flags. -/
theorem PA2PTE_and {pa flags : Word} (hf : flags.toNat < 1024) : PA2PTE pa &&& flags = 0#64 := by
  refine BitVec.eq_of_getLsbD_eq fun i hi => ?_
  rw [BitVec.getLsbD_and, PA2PTE, BitVec.getLsbD_shiftLeft, BitVec.getLsbD_zero]
  rcases Nat.lt_or_ge i 10 with h | h
  · simp [h]
  · have : flags.getLsbD i = false := by
      rw [BitVec.getLsbD, Nat.testBit_lt_two_pow]
      exact lt_of_lt_of_le hf (Nat.pow_le_pow_right (n := 2) (by decide) h)
    rw [this, Bool.and_false]

theorem entry_and {pa perm flags : Word} (hf : flags.toNat < 1024) : (PA2PTE pa ||| perm) &&& flags = perm &&& flags := by
  rw [BitVec.and_comm, BitVec.and_or_distrib_left, BitVec.and_comm flags, PA2PTE_and hf, BitVec.and_comm]
  exact BitVec.zero_or

theorem PTE_FLAGS_entry {pa perm : Word} (hp : perm.toNat < 1024) : PTE_FLAGS (PA2PTE pa ||| perm) = perm := by
  rw [PTE_FLAGS, entry_and (by decide)]
  refine BitVec.eq_of_toNat_eq ?_
  rw [BitVec.toNat_and]
  exact (Nat.and_two_pow_sub_one_eq_mod _ 10).trans (Nat.mod_eq_of_lt hp)

end Minios.Vm
