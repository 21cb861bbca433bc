import Minios.Schemes.Ledger
import Minios.Fs.Inode

/-! `kernel/fs.c`: `balloc` and `bfree` keep the books of disk blocks.

    The slots are the address entries of all allocated inodes and of their indirect blocks; a block
    of the data area is used when its bit is set. `balloc` returns a block no slot holds, `bfree`
    finds the bit set, and apart from the free map and the block returned the disk stays as it is. -/

namespace Minios.Fs
open Schemes Function

/-! ### What the primitives do -/

section Primitives
variable {E : Panic → Prop} {s : FS}

@[simp] theorem wp_bread {b : ℕ} {Q : Block → FS → Prop} : wp (bread b) Q E s ↔ Q (s.disk b) s := Iff.rfl

@[simp] theorem wp_logWrite {b : ℕ} {x : Block} {Q : Unit → FS → Prop} :
    wp (logWrite b x) Q E s ↔ Q () (s.write b x) := Iff.rfl

@[simp] theorem wp_tear {b : ℕ} {x : Block} {Q : Unit → FS → Prop} :
    wp (tear b x) Q E s ↔ Q () (s.tear b x) := Iff.rfl

@[simp] theorem wp_inode {p : IPtr} {Q : Inode → FS → Prop} : wp (inode p) Q E s ↔ Q (s.itable p) s :=
  Iff.rfl

@[simp] theorem wp_setInode {p : IPtr} {ip : Inode} {Q : Unit → FS → Prop} :
    wp (setInode p ip) Q E s ↔ Q () (s.setInode p ip) := Iff.rfl

@[simp] theorem wp_setD {p : IPtr} {f : Dinode → Dinode} {Q : Unit → FS → Prop} :
    wp (setD p f) Q E s ↔ Q () (s.setD p (f (s.itable p).d)) := Iff.rfl

@[simp] theorem Inode.withD_d (ip : Inode) (d : Dinode) : (ip.withD d).d = d := rfl

@[simp] theorem Inode.withD_inum (ip : Inode) (d : Dinode) : (ip.withD d).inum = ip.inum := rfl

theorem FS.tab_self (s : FS) (p : IPtr) (d : Dinode) : s.tab p d p = (s.itable p).withD d :=
  update_self ..

theorem FS.setD_self (s : FS) (p : IPtr) (d : Dinode) : (s.setD p d).itable p = (s.itable p).withD d :=
  update_self ..

theorem FS.tab_ne (s : FS) {p q : IPtr} (h : q ≠ p) (d : Dinode) : s.tab p d q = s.itable q :=
  update_of_ne h ..

theorem FS.tab_eq_self {p : IPtr} {d : Dinode} (h : (s.itable p).d = d) : s.tab p d = s.itable := by
  subst h
  exact update_eq_self ..

theorem FS.setD_eq_self {p : IPtr} {d : Dinode} (h : (s.itable p).d = d) : s.setD p d = s := by
  rw [FS.setD, FS.tab_eq_self h]

theorem FS.tab_tab {t : FS} {p : IPtr} {d : Dinode} (h : t.itable = s.tab p d) (d' : Dinode) :
    t.tab p d' = s.tab p d' := by
  rw [FS.tab, h, FS.tab_self, FS.tab, FS.tab, update_idem]
  rfl

end Primitives

/-- Where an inode keeps a block address: an entry of `addrs`, or of its indirect block. -/
inductive Slot where
  | dir (j : Fin (NDIRECT + 1))
  | ind (j : Fin NINDIRECT)
  deriving DecidableEq

/-- Is block `b` marked in use? -/
def bitAt (sb : Superblock) (disk : Disk) (b : ℕ) : Bool := getBit (disk (sb.bblock b)) (b % BPB)

/-- A block of the free map. -/
def Superblock.IsMap (sb : Superblock) (b : ℕ) : Prop := sb.bmapstart ≤ b ∧ b < sb.nmeta

/-- A block of the data area. -/
def Superblock.IsData (sb : Superblock) (b : ℕ) : Prop := sb.nmeta ≤ b ∧ b < sb.size

theorem Superblock.isMap_bblock (sb : Superblock) {b : ℕ} (hb : b < sb.size) : sb.IsMap (sb.bblock b) :=
  ⟨sb.le_bblock b, sb.bblock_lt hb⟩

theorem Superblock.IsData.not_isMap {sb : Superblock} {b : ℕ} (h : sb.IsData b) : ¬ sb.IsMap b :=
  fun hm => absurd hm.2 (Nat.not_lt.mpr h.1)

/-- The books of the disk: metadata is marked, and data blocks are marked when a slot holds them. -/
structure Books (sb : Superblock) (disk : Disk) (R : ℕ × Slot → ℕ) : Prop where
  metas : ∀ b, b < sb.nmeta → bitAt sb disk b = true
  ledger : Ledger sb.IsData (fun b => bitAt sb disk b = true) R

theorem Superblock.nmeta_le (sb : Superblock) : sb.nmeta ≤ sb.size := Nat.sub_le ..

theorem Superblock.not_isData_zero (sb : Superblock) : ¬ sb.IsData 0 := fun h => by
  have := sb.nmeta_pos
  exact absurd h.1 (by omega)

theorem FS.torn_write (s : FS) (b : ℕ) (x : Block) (y : ℕ) :
    (s.write b x).torn y = s.torn y ∨ (s.write b x).torn y = none := by
  rcases eq_or_ne y b with rfl | h
  · exact Or.inr (update_self ..)
  · exact Or.inl (update_of_ne h ..)

/-! ### Bits -/

theorem bitAt_congr {sb : Superblock} {disk disk' : Disk} {b : ℕ}
    (h : disk' (sb.bblock b) = disk (sb.bblock b)) : bitAt sb disk' b = bitAt sb disk b := by
  rw [bitAt, bitAt, h]

theorem mod_BPB_lt (b : ℕ) : b % BPB < BPB := Nat.mod_lt _ (by decide)

theorem eq_of_bblock_eq {sb : Superblock} {b b' : ℕ} (h : sb.bblock b = sb.bblock b')
    (hm : b % BPB = b' % BPB) : b = b' := by
  have h1 : b / BPB = b' / BPB := Nat.add_right_cancel h
  rw [← Nat.div_add_mod b BPB, ← Nat.div_add_mod b' BPB, h1, hm]

theorem bitAt_setBit (sb : Superblock) (disk : Disk) (b x : ℕ) :
    bitAt sb (update disk (sb.bblock b) (setBit (disk (sb.bblock b)) (b % BPB))) x = true ↔
      bitAt sb disk x = true ∨ x = b := by
  rw [bitAt, bitAt]
  rcases eq_or_ne (sb.bblock x) (sb.bblock b) with he | hne
  · rw [he, update_self, getBit_setBit _ _ (mod_BPB_lt b)]
    refine or_congr_right ⟨fun hm => eq_of_bblock_eq he hm.symm, ?_⟩
    rintro rfl; rfl
  · rw [update_of_ne hne]
    exact (or_iff_left fun h => hne (by rw [h])).symm

theorem bitAt_clearBit (sb : Superblock) (disk : Disk) (b x : ℕ) :
    bitAt sb (update disk (sb.bblock b) (clearBit (disk (sb.bblock b)) (b % BPB))) x = true ↔
      bitAt sb disk x = true ∧ x ≠ b := by
  rw [bitAt, bitAt]
  rcases eq_or_ne (sb.bblock x) (sb.bblock b) with he | hne
  · rw [he, update_self, getBit_clearBit _ _ (mod_BPB_lt b)]
    refine and_congr_right fun _ => not_congr ⟨fun hm => eq_of_bblock_eq he hm.symm, ?_⟩
    rintro rfl; rfl
  · rw [update_of_ne hne]
    exact (and_iff_left fun h => hne (by rw [h])).symm

/-! ### `balloc` -/

theorem scanMap_some (bp : Block) (b size : ℕ) : ∀ (rounds bi : ℕ) {r : ℕ},
    scanMap bp b size rounds bi = some r →
    bi ≤ r ∧ r < bi + rounds ∧ b + r < size ∧ getBit bp r = false
  | 0, _, _, h => by cases h
  | rounds + 1, bi, r, h => by
      rw [scanMap] at h
      split at h
      · rename_i hlt
        split at h
        · obtain ⟨h1, h2, h3, h4⟩ := scanMap_some bp b size rounds (bi + 1) h
          exact ⟨by omega, by omega, h3, h4⟩
        · rename_i hbit
          cases h
          exact ⟨le_rfl, by omega, hlt, by simpa using hbit⟩
      · cases h

theorem scanMap_none (bp : Block) (b size : ℕ) : ∀ (rounds bi : ℕ),
    scanMap bp b size rounds bi = none →
    ∀ j, bi ≤ j → j < bi + rounds → b + j < size → getBit bp j = true
  | 0, bi, _, j, h1, h2, _ => by omega
  | rounds + 1, bi, h, j, h1, h2, h3 => by
      rw [scanMap, if_pos (by omega)] at h
      split at h
      · rename_i hbit
        rcases Nat.lt_or_eq_of_le h1 with hlt | rfl
        · exact scanMap_none bp b size rounds (bi + 1) h j hlt (by omega) h3
        · exact hbit
      · cases h

/-- No block is free. -/
def Full (sb : Superblock) (disk : Disk) : Prop := ∀ b, b < sb.size → bitAt sb disk b = true

/-- What `balloc` did when it returned block `b`. -/
structure Allocated (s t : FS) (b : ℕ) : Prop where
  data : s.sb.IsData b
  free : bitAt s.sb s.disk b = false
  sb : t.sb = s.sb
  itable : t.itable = s.itable
  zero : t.disk b = fun _ => 0
  bits : ∀ x, x < s.sb.size → (bitAt s.sb t.disk x = true ↔ bitAt s.sb s.disk x = true ∨ x = b)
  frame : ∀ x, ¬ s.sb.IsMap x → x ≠ b → t.disk x = s.disk x
  torn : ∀ x, t.torn x = s.torn x ∨ t.torn x = none
  whole : t.torn b = none

theorem ballocLoop_spec {R : ℕ × Slot → ℕ} {s : FS} (h : Books s.sb s.disk R) :
    ∀ (rounds b : ℕ), b % BPB = 0 → s.sb.size < rounds + b →
    (∀ x, x < b → x < s.sb.size → bitAt s.sb s.disk x = true) →
    wp (ballocLoop rounds b) (fun r t => (r = 0 ∧ t = s ∧ Full s.sb s.disk) ∨ Allocated s t r)
      (fun _ => False) s
  | 0, b, _, hr, hall => Or.inl ⟨rfl, rfl, fun x hx => hall x (by omega) hx⟩
  | rounds + 1, b, hb, hr, hall => by
      rw [ballocLoop, wp_bind, wp_get]
      dsimp only
      split
      · rename_i hlt
        simp only [bread, wp_bind, wp_get, wp_pure]
        -- the bits of this block of the map are those of blocks `b`, `b + 1`, ...
        have hdiv : ∀ j, j < BPB → s.sb.bblock (b + j) = s.sb.bblock b ∧ (b + j) % BPB = j := by
          intro j hj
          rw [Superblock.bblock, Superblock.bblock]
          simp only [BPB, BSIZE] at hb hj ⊢
          omega
        cases hscan : scanMap (s.disk (s.sb.bblock b)) b s.sb.size BPB 0 with
        | some bi =>
          obtain ⟨-, h2, h3, h4⟩ := scanMap_some _ _ _ _ _ hscan
          rw [Nat.zero_add] at h2
          obtain ⟨hbb, hmod⟩ := hdiv bi h2
          have hfree : bitAt s.sb s.disk (b + bi) = false := by rw [bitAt, hbb, hmod]; exact h4
          have hdata : s.sb.IsData (b + bi) := by
            refine ⟨?_, h3⟩
            by_contra hlt
            rw [h.metas _ (by omega)] at hfree; cases hfree
          have hmap : ∀ {x}, x < s.sb.size → s.sb.bblock x ≠ b + bi := fun hx he => by
            have h1 := s.sb.bblock_lt hx
            have h2 := hdata.1
            omega
          simp only [wp_bind, logWrite, bzero, wp_modify, wp_pure]
          refine Or.inr ⟨hdata, hfree, rfl, rfl, update_self .., fun x hx => ?_, fun x hx hxb => ?_,
            fun x => ?_, update_self ..⟩
          · rw [← bitAt_setBit, hbb, hmod]
            exact Bool.eq_iff_iff.mp (bitAt_congr (update_of_ne (hmap hx) ..))
          · simp only [FS.write]
            rw [update_of_ne hxb, update_of_ne]
            rintro rfl
            exact hx (s.sb.isMap_bblock hlt)
          · rcases FS.torn_write _ _ _ x with h1 | h1
            · rw [h1]; exact s.torn_write _ _ x
            · exact Or.inr h1
        | none =>
          refine ballocLoop_spec h rounds (b + BPB) (by simp only [BPB, BSIZE] at hb ⊢; omega)
            (by simp only [BPB, BSIZE]; omega) fun x hx hxs => ?_
          rcases Nat.lt_or_ge x b with hxb | hxb
          · exact hall x hxb hxs
          · obtain ⟨j, rfl⟩ := Nat.exists_eq_add_of_le hxb
            have hj : j < BPB := by omega
            obtain ⟨hbb, hmod⟩ := hdiv j hj
            rw [bitAt, hbb, hmod]
            exact scanMap_none _ _ _ _ _ hscan j (Nat.zero_le _) (by omega) hxs
      · exact Or.inl ⟨rfl, rfl, fun x hx => hall x (by omega) hx⟩

/-- `balloc` returns a fresh zeroed block, or 0 when no block is free. -/
theorem balloc_spec {R : ℕ × Slot → ℕ} {s : FS} (h : Books s.sb s.disk R) :
    wp balloc (fun r t => (r = 0 ∧ t = s ∧ Full s.sb s.disk) ∨ Allocated s t r) (fun _ => False) s := by
  rw [balloc, wp_bind, wp_get]
  exact ballocLoop_spec h _ 0 rfl (by omega) fun x hx => absurd hx (Nat.not_lt_zero x)

theorem Allocated.ne_zero {s t : FS} {b : ℕ} (h : Allocated s t b) : b ≠ 0 := by
  rintro rfl; exact s.sb.not_isData_zero h.data

theorem Allocated.books {R : ℕ × Slot → ℕ} {s t : FS} {b : ℕ} (h : Allocated s t b)
    (hb : Books s.sb s.disk R) {p : ℕ × Slot} (hp : R p = 0) :
    Books s.sb t.disk (update R p b) where
  metas x hx := (h.bits x (lt_of_lt_of_le hx s.sb.nmeta_le)).mpr (Or.inl (hb.metas x hx))
  ledger := hb.ledger.take h.data (by rw [h.free]; exact Bool.false_ne_true) hp fun x hx => h.bits x hx.2

/-! ### `bfree` -/

/-- What `bfree` did. -/
structure Freed (s t : FS) (b : ℕ) : Prop where
  sb : t.sb = s.sb
  itable : t.itable = s.itable
  bits : ∀ x, bitAt s.sb t.disk x = true ↔ bitAt s.sb s.disk x = true ∧ x ≠ b
  frame : ∀ x, ¬ s.sb.IsMap x → t.disk x = s.disk x
  torn : ∀ x, t.torn x = s.torn x ∨ t.torn x = none

theorem bfree_spec {s : FS} {b : ℕ} (hb : b < s.sb.size) (hbit : bitAt s.sb s.disk b = true) :
    wp (bfree b) (fun _ t => Freed s t b) (fun _ => False) s := by
  simp only [bfree, bread, logWrite, wp_bind, wp_get, wp_pure]
  rw [if_pos (by exact hbit), wp_modify]
  refine ⟨rfl, rfl, bitAt_clearBit s.sb s.disk b, fun x hx => update_of_ne ?_ .., s.torn_write _ _⟩
  rintro rfl
  exact hx (s.sb.isMap_bblock hb)

/-- Giving back the block of a slot: `bfree` does not panic, and the books stay in order. -/
theorem bfree_books {R : ℕ × Slot → ℕ} {s : FS} (h : Books s.sb s.disk R) {p : ℕ × Slot}
    (hp : R p ≠ 0) :
    wp (bfree (R p)) (fun _ t => Freed s t (R p) ∧ Books s.sb t.disk (update R p 0))
      (fun _ => False) s := by
  obtain ⟨hdata, hbit⟩ := h.ledger.held p hp
  refine (bfree_spec hdata.2 hbit).mono fun _ t hf => ⟨hf, ?_, h.ledger.give hp fun x _ => hf.bits x⟩
  intro x hx
  refine (hf.bits x).mpr ⟨h.metas x hx, ?_⟩
  rintro rfl
  exact absurd hdata.1 (Nat.not_le.mpr hx)

end Minios.Fs
