import Minios.Param

/-! `kernel/fs.h`: what is where on the disk.

    The super block divides the disk into areas; dinodes and the free map are overlaid on the bytes
    of their blocks. Each overlay has the two laws its users need: what was written is read back, and
    everything else is left alone. -/

namespace Minios.Fs
open Schemes Function

abbrev ROOTINO : ℕ := 1
abbrev NDIRECT : ℕ := 12
abbrev NINDIRECT : ℕ := BSIZE / 4
abbrev MAXFILE : ℕ := NDIRECT + NINDIRECT
abbrev DIRSIZ : ℕ := 14

/-- Inodes per block: a dinode has 64 bytes. -/
abbrev IPB : ℕ := BSIZE / 64

/-- Bitmap bits per block. -/
abbrev BPB : ℕ := BSIZE * 8

abbrev T_DIR : ℕ := 1
abbrev T_FILE : ℕ := 2
abbrev T_DEVICE : ℕ := 3

/-- The super block. The areas follow each other as `mkfs` lays them out: inode blocks, the free map,
    and from block `size - nblocks` on the data blocks. -/
structure Superblock where
  size : ℕ
  nblocks : ℕ
  ninodes : ℕ
  inodestart : ℕ
  bmapstart : ℕ
  boot : 0 < inodestart
  inodes : inodestart + (ninodes - 1) / IPB < bmapstart
  bitmap : bmapstart + (size - 1) / BPB < size - nblocks
  nblocks_le : nblocks ≤ size
  size_lt : size < 2 ^ 31
  root : ROOTINO < ninodes
  ninodes_le : ninodes ≤ 2 ^ 16

/-- First data block. -/
def Superblock.nmeta (sb : Superblock) : ℕ := sb.size - sb.nblocks

/-- Block containing inode `i`. -/
def Superblock.iblock (sb : Superblock) (i : ℕ) : ℕ := i / IPB + sb.inodestart

/-- Block of free map containing bit for block `b`. -/
def Superblock.bblock (sb : Superblock) (b : ℕ) : ℕ := b / BPB + sb.bmapstart

theorem Superblock.iblock_lt (sb : Superblock) {i : ℕ} (hi : i < sb.ninodes) :
    sb.iblock i < sb.bmapstart := by
  have h1 := sb.inodes
  have h2 : i / IPB ≤ (sb.ninodes - 1) / IPB := Nat.div_le_div_right (by omega)
  rw [Superblock.iblock]; omega

theorem Superblock.le_bblock (sb : Superblock) (b : ℕ) : sb.bmapstart ≤ sb.bblock b :=
  Nat.le_add_left ..

theorem Superblock.bblock_lt (sb : Superblock) {b : ℕ} (hb : b < sb.size) : sb.bblock b < sb.nmeta := by
  have h1 := sb.bitmap
  have h2 : b / BPB ≤ (sb.size - 1) / BPB := Nat.div_le_div_right (by omega)
  rw [Superblock.bblock, Superblock.nmeta]; omega

theorem Superblock.bmapstart_lt (sb : Superblock) : sb.bmapstart < sb.nmeta :=
  lt_of_le_of_lt (Nat.le_add_right ..) sb.bitmap

theorem Superblock.nmeta_pos (sb : Superblock) : 0 < sb.nmeta := by
  have := sb.bmapstart_lt; omega

/-! ### Dinodes -/

/-- `struct dinode`: the 16-bit fields as their bit patterns. -/
structure Dinode where
  type : ℕ
  major : ℕ
  minor : ℕ
  nlink : ℕ
  size : ℕ
  addrs : Fin (NDIRECT + 1) → ℕ

@[ext] theorem Dinode.ext {d e : Dinode} (h1 : d.type = e.type) (h2 : d.major = e.major)
    (h3 : d.minor = e.minor) (h4 : d.nlink = e.nlink) (h5 : d.size = e.size)
    (h6 : ∀ k, d.addrs k = e.addrs k) : d = e := by
  cases d; cases e
  simp only [Dinode.mk.injEq]
  exact ⟨h1, h2, h3, h4, h5, funext h6⟩

/-- Every field fits its width. -/
structure Dinode.Fits (d : Dinode) : Prop where
  type : d.type < 2 ^ 16
  major : d.major < 2 ^ 16
  minor : d.minor < 2 ^ 16
  nlink : d.nlink < 2 ^ 16
  size : d.size < 2 ^ 32
  addrs : ∀ k, d.addrs k < 2 ^ 32

/-- The same inode up to its block addresses. -/
structure Dinode.Like (d e : Dinode) : Prop where
  type : d.type = e.type
  major : d.major = e.major
  minor : d.minor = e.minor
  nlink : d.nlink = e.nlink
  size : d.size = e.size

theorem Dinode.Like.refl (d : Dinode) : d.Like d := ⟨rfl, rfl, rfl, rfl, rfl⟩

theorem Dinode.Like.trans {d e f : Dinode} (h : d.Like e) (h' : e.Like f) : d.Like f :=
  ⟨h.type.trans h'.type, h.major.trans h'.major, h.minor.trans h'.minor, h.nlink.trans h'.nlink,
    h.size.trans h'.size⟩

/-- A zeroed dinode of this type. -/
def Dinode.fresh (type : ℕ) : Dinode where
  type := type
  major := 0
  minor := 0
  nlink := 0
  size := 0
  addrs := fun _ => 0

def Dinode.setType (d : Dinode) (type : ℕ) : Dinode := { d with type := type }

def Dinode.setNlink (d : Dinode) (nlink : ℕ) : Dinode := { d with nlink := nlink }

/-- `ip->nlink++` -/
def Dinode.link (d : Dinode) : Dinode := d.setNlink ((d.nlink + 1) % 2 ^ 16)

/-- `ip->nlink--` -/
def Dinode.unlink (d : Dinode) : Dinode := d.setNlink ((d.nlink + (2 ^ 16 - 1)) % 2 ^ 16)

/-- `ip->major = major; ip->minor = minor; ip->nlink = 1;` -/
def Dinode.create (major minor : ℕ) (d : Dinode) : Dinode :=
  { d with major := major % 2 ^ 16, minor := minor % 2 ^ 16, nlink := 1 }

def Dinode.setSize (d : Dinode) (size : ℕ) : Dinode := { d with size := size }

def Dinode.setAddr (d : Dinode) (j : Fin (NDIRECT + 1)) (addr : ℕ) : Dinode :=
  { d with addrs := update d.addrs j addr }

/-- Dinode number `k` of a block. -/
def getDinode (bp : Block) (k : ℕ) : Dinode where
  type := getLE bp (64 * k) 2
  major := getLE bp (64 * k + 2) 2
  minor := getLE bp (64 * k + 4) 2
  nlink := getLE bp (64 * k + 6) 2
  size := getLE bp (64 * k + 8) 4
  addrs := fun j => getLE bp (64 * k + 12 + 4 * j.val) 4

/-- `memmove(dip->addrs, ip->addrs, sizeof(ip->addrs))`, from entry `j` on. -/
def setAddrs (addrs : Fin (NDIRECT + 1) → ℕ) (o : ℕ) : List (Fin (NDIRECT + 1)) → Block → Block
  | [], bp => bp
  | j :: js, bp => setAddrs addrs o js (setLE bp (o + 4 * j.val) 4 (addrs j))

/-- Store a dinode as number `k` of a block. -/
def setDinode (bp : Block) (k : ℕ) (d : Dinode) : Block :=
  let bp := setLE bp (64 * k) 2 d.type
  let bp := setLE bp (64 * k + 2) 2 d.major
  let bp := setLE bp (64 * k + 4) 2 d.minor
  let bp := setLE bp (64 * k + 6) 2 d.nlink
  let bp := setLE bp (64 * k + 8) 4 d.size
  setAddrs d.addrs (64 * k + 12) (List.finRange (NDIRECT + 1)) bp

theorem getLE_setAddrs_disj (addrs : Fin (NDIRECT + 1) → ℕ) (o : ℕ) {i m : ℕ}
    (h : i + m ≤ o ∨ o + 52 ≤ i) : ∀ (js : List (Fin (NDIRECT + 1))) (bp : Block),
    getLE (setAddrs addrs o js bp) i m = getLE bp i m
  | [], _ => rfl
  | j :: js, bp => by
      have hj : j.val < 13 := j.isLt
      rw [setAddrs, getLE_setAddrs_disj addrs o h js, getLE_setLE_disj _ (by omega)]

theorem getLE_setAddrs_notMem (addrs : Fin (NDIRECT + 1) → ℕ) (o : ℕ) {k : Fin (NDIRECT + 1)} :
    ∀ (js : List (Fin (NDIRECT + 1))) (bp : Block), k ∉ js →
    getLE (setAddrs addrs o js bp) (o + 4 * k.val) 4 = getLE bp (o + 4 * k.val) 4
  | [], _, _ => rfl
  | j :: js, bp, hk => by
      rw [List.mem_cons, not_or] at hk
      have hne : k.val ≠ j.val := fun h => hk.1 (Fin.ext h)
      rw [setAddrs, getLE_setAddrs_notMem addrs o js _ hk.2, getLE_setLE_disj _ (by omega)]

theorem getLE_setAddrs (addrs : Fin (NDIRECT + 1) → ℕ) (o : ℕ) (ho : o + 52 ≤ BSIZE)
    (hfit : ∀ k, addrs k < 2 ^ 32) {k : Fin (NDIRECT + 1)} :
    ∀ (js : List (Fin (NDIRECT + 1))) (bp : Block), k ∈ js → js.Nodup →
    getLE (setAddrs addrs o js bp) (o + 4 * k.val) 4 = addrs k
  | j :: js, bp, hk, hnd => by
      obtain ⟨hj, hnd⟩ := List.nodup_cons.mp hnd
      rw [setAddrs]
      rcases List.mem_cons.mp hk with rfl | hk
      · have hk : k.val < 13 := k.isLt
        rw [getLE_setAddrs_notMem addrs o js _ hj, getLE_setLE_same 4 _ _ _ (by omega)]
        exact Nat.mod_eq_of_lt (hfit k)
      · exact getLE_setAddrs addrs o ho hfit js _ hk hnd

theorem getDinode_fits (bp : Block) (k : ℕ) : (getDinode bp k).Fits where
  type := getLE_lt bp 2 _
  major := getLE_lt bp 2 _
  minor := getLE_lt bp 2 _
  nlink := getLE_lt bp 2 _
  size := getLE_lt bp 4 _
  addrs _ := getLE_lt bp 4 _

/-- READ BACK: a dinode whose fields fit. -/
theorem getDinode_setDinode_same (bp : Block) {k : ℕ} (hk : k < IPB) {d : Dinode} (hd : d.Fits) :
    getDinode (setDinode bp k d) k = d := by
  have hk : 64 * k + 64 ≤ BSIZE := by simp only [IPB, BSIZE] at hk ⊢; omega
  have h16 : ∀ {v}, v < 2 ^ 16 → v % 256 ^ 2 = v := fun h => Nat.mod_eq_of_lt h
  refine Dinode.ext ?_ ?_ ?_ ?_ ?_ fun j => ?_ <;> dsimp only [getDinode, setDinode]
  · rw [getLE_setAddrs_disj _ _ (by omega), getLE_setLE_disj _ (by omega), getLE_setLE_disj _ (by omega),
      getLE_setLE_disj _ (by omega), getLE_setLE_disj _ (by omega), getLE_setLE_same 2 _ _ _ (by omega),
      h16 hd.type]
  · rw [getLE_setAddrs_disj _ _ (by omega), getLE_setLE_disj _ (by omega), getLE_setLE_disj _ (by omega),
      getLE_setLE_disj _ (by omega), getLE_setLE_same 2 _ _ _ (by omega), h16 hd.major]
  · rw [getLE_setAddrs_disj _ _ (by omega), getLE_setLE_disj _ (by omega), getLE_setLE_disj _ (by omega),
      getLE_setLE_same 2 _ _ _ (by omega), h16 hd.minor]
  · rw [getLE_setAddrs_disj _ _ (by omega), getLE_setLE_disj _ (by omega),
      getLE_setLE_same 2 _ _ _ (by omega), h16 hd.nlink]
  · rw [getLE_setAddrs_disj _ _ (by omega), getLE_setLE_same 4 _ _ _ (by omega)]
    exact Nat.mod_eq_of_lt hd.size
  · exact getLE_setAddrs d.addrs _ (by omega) hd.addrs _ _ (List.mem_finRange j) (List.nodup_finRange _)

theorem getLE_setDinode_disj (bp : Block) {k : ℕ} (d : Dinode) {i m : ℕ}
    (h : i + m ≤ 64 * k ∨ 64 * k + 64 ≤ i) : getLE (setDinode bp k d) i m = getLE bp i m := by
  dsimp only [setDinode]
  rw [getLE_setAddrs_disj _ _ (by omega), getLE_setLE_disj _ (by omega), getLE_setLE_disj _ (by omega),
    getLE_setLE_disj _ (by omega), getLE_setLE_disj _ (by omega), getLE_setLE_disj _ (by omega)]

/-- FRAME: the other dinodes of the block. -/
theorem getDinode_setDinode_ne (bp : Block) {j k : ℕ} (h : j ≠ k) (d : Dinode) :
    getDinode (setDinode bp k d) j = getDinode bp j := by
  refine Dinode.ext ?_ ?_ ?_ ?_ ?_ fun i => ?_ <;> dsimp only [getDinode]
  · exact getLE_setDinode_disj bp d (by omega)
  · exact getLE_setDinode_disj bp d (by omega)
  · exact getLE_setDinode_disj bp d (by omega)
  · exact getLE_setDinode_disj bp d (by omega)
  · exact getLE_setDinode_disj bp d (by omega)
  · have hi : i.val < 13 := i.isLt
    exact getLE_setDinode_disj bp d (by omega)

/-! ### The free map -/

/-- `1 << (bi % 8)` -/
def mask (bi : ℕ) : UInt8 := 1 <<< UInt8.ofNat (bi % 8)

/-- Is bit `bi` of a block of the free map set? -/
def getBit (bp : Block) (bi : ℕ) : Bool := getByte bp (bi / 8) &&& mask bi ≠ 0

/-- `bp->data[bi/8] |= m` -/
def setBit (bp : Block) (bi : ℕ) : Block := setByte bp (bi / 8) (getByte bp (bi / 8) ||| mask bi)

/-- `bp->data[bi/8] &= ~m` -/
def clearBit (bp : Block) (bi : ℕ) : Block := setByte bp (bi / 8) (getByte bp (bi / 8) &&& ~~~ mask bi)

theorem mask_toBitVec : ∀ i : Fin 8, (mask i.val).toBitVec = BitVec.twoPow 8 i.val := by decide

theorem and_mask_ne_zero (x : UInt8) (i : Fin 8) :
    x &&& mask i.val ≠ 0 ↔ x.toBitVec.getLsbD i.val = true := by
  have hne : BitVec.twoPow 8 i.val ≠ 0#8 := by revert i; decide
  rw [ne_eq, ← UInt8.toBitVec_inj, UInt8.toBitVec_and, mask_toBitVec, BitVec.and_twoPow]
  cases x.toBitVec.getLsbD i.val with
  | true => simpa using hne
  | false => simp

theorem getLsbD_mask (i j : Fin 8) : (mask i.val).toBitVec.getLsbD j.val = decide (i = j) := by
  revert i j; decide

theorem or_mask (x : UInt8) (i j : Fin 8) :
    (x ||| mask i.val) &&& mask j.val ≠ 0 ↔ x &&& mask j.val ≠ 0 ∨ i = j := by
  rw [and_mask_ne_zero, and_mask_ne_zero, UInt8.toBitVec_or, BitVec.getLsbD_or, getLsbD_mask,
    Bool.or_eq_true, decide_eq_true_eq]

theorem and_not_mask (x : UInt8) (i j : Fin 8) :
    (x &&& ~~~ mask i.val) &&& mask j.val ≠ 0 ↔ x &&& mask j.val ≠ 0 ∧ i ≠ j := by
  rw [and_mask_ne_zero, and_mask_ne_zero, UInt8.toBitVec_and, BitVec.getLsbD_and, UInt8.toBitVec_not,
    BitVec.getLsbD_not, getLsbD_mask]
  simp

theorem mask_mod (bi : ℕ) : mask bi = mask (⟨bi % 8, Nat.mod_lt _ (by decide)⟩ : Fin 8).val := by
  simp [mask]

theorem getBit_setBit (bp : Block) {bi : ℕ} (bj : ℕ) (hi : bi < BPB) :
    getBit (setBit bp bi) bj = true ↔ getBit bp bj = true ∨ bi = bj := by
  have hb : bi / 8 < BSIZE := by simp only [BPB, BSIZE] at hi ⊢; omega
  rw [getBit, getBit, setBit, decide_eq_true_eq, decide_eq_true_eq, getByte_setByte _ _ _ _ hb]
  split
  · rename_i he
    rw [he, mask_mod bi, mask_mod bj, or_mask, Fin.mk.injEq]
    exact or_congr_right (by omega)
  · rename_i he
    exact (or_iff_left fun h => he (by rw [h])).symm

theorem getBit_clearBit (bp : Block) {bi : ℕ} (bj : ℕ) (hi : bi < BPB) :
    getBit (clearBit bp bi) bj = true ↔ getBit bp bj = true ∧ bi ≠ bj := by
  have hb : bi / 8 < BSIZE := by simp only [BPB, BSIZE] at hi ⊢; omega
  rw [getBit, getBit, clearBit, decide_eq_true_eq, decide_eq_true_eq, getByte_setByte _ _ _ _ hb]
  split
  · rename_i he
    rw [he, mask_mod bi, mask_mod bj, and_not_mask, ne_eq, ne_eq, Fin.mk.injEq]
    exact and_congr_right fun _ => by omega
  · rename_i he
    exact (and_iff_left fun h => he (by rw [h])).symm

end Minios.Fs
