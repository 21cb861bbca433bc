import Minios.Fs.Dirent

/-! `mkfs/mkfs.c`: the image of a file system without files.

    One inode is in use, the root directory; it has one block, the first of the data area, with the
    entries `.` and `..`. The free map marks the blocks up to there. Booting from an image starts with
    an empty inode table and an empty buffer cache. -/

namespace Minios.Fs
open Schemes Function

variable {s t : FS} {i : ℕ}

/-- A disk whose books of blocks are in order, with no block missing below a file's size, and a kernel
    that has not touched it. -/
structure Image (s : FS) : Prop where
  books : Books s.sb s.disk (refs s.sb s.disk (dinode s))
  filled : ∀ i, Live s.sb (dinode s) i → Filled s.disk (dinode s i)
  empty : ∀ k, (s.itable k).ref = 0
  whole : ∀ b, s.torn b = none

theorem Image.wf (h : Image s) : Wf s where
  core := ⟨h.books, fun i hi => by rw [dinode_of_lt hi.1]; exact getDinode_fits .., h.filled,
    fun b hb => absurd (h.whole b) hb⟩
  inum_lt k hk := absurd (h.empty k) hk.ne'
  uniq j _ hj := absurd (h.empty j) hj.ne'
  sync k hk := absurd (h.empty k) hk.ne'

/-! ### The free map -/

/-- The first `n` bits are set. -/
def markMap : ℕ → Block
  | 0 => fun _ => 0
  | n + 1 => setBit (markMap n) n

theorem getBit_zero (j : ℕ) : getBit (fun _ => 0) j = false := by
  rw [getBit, getByte_zero]
  simp

theorem getBit_markMap (j : ℕ) : ∀ n, n ≤ BPB → (getBit (markMap n) j = true ↔ j < n)
  | 0, _ => by simp [markMap, getBit_zero]
  | n + 1, h => by
      rw [markMap, getBit_setBit _ _ (by omega), getBit_markMap j n (by omega)]
      omega

/-! ### The image -/

/-- There is a data block, and one block of the free map has the bits up to it. -/
structure Superblock.Small (sb : Superblock) : Prop where
  data : sb.nmeta < sb.size
  used : sb.nmeta + 1 ≤ BPB

def rootDinode (sb : Superblock) : Dinode where
  type := T_DIR
  major := 0
  minor := 0
  nlink := 1
  size := BSIZE
  addrs := update (fun _ => 0) 0 sb.nmeta

/-- The block of the root directory. -/
def rootBlock : Block := fun j =>
  ((Dirent.of .dot ROOTINO).encode ++ (Dirent.of .dotdot ROOTINO).encode).getD j.val 0

/-- What `mkfs` writes. -/
def freshDisk (sb : Superblock) : Disk :=
  update (update (update (fun _ _ => 0)
    (sb.iblock ROOTINO) (setDinode (fun _ => 0) (ROOTINO % IPB) (rootDinode sb)))
    sb.bmapstart (markMap (sb.nmeta + 1)))
    sb.nmeta rootBlock

/-- An entry of the inode table that was never used. -/
def Inode.zero : Inode := ⟨0, 0, false, false, .fresh 0⟩

/-- Booted from what `mkfs` writes. -/
def FS.fresh (sb : Superblock) : FS := ⟨sb, freshDisk sb, fun _ => .zero, fun _ => none⟩

section Fresh
variable (sb : Superblock)

theorem Superblock.iblock_root_lt : sb.iblock ROOTINO < sb.bmapstart := sb.iblock_lt sb.root

theorem freshDisk_iblock {i : ℕ} (hi : i < sb.ninodes) : freshDisk sb (sb.iblock i) =
    if sb.iblock i = sb.iblock ROOTINO then setDinode (fun _ => 0) (ROOTINO % IPB) (rootDinode sb) else fun _ => 0 := by
  have h1 := sb.iblock_lt hi
  have h2 := sb.bmapstart_lt
  rw [freshDisk, update_of_ne (by omega), update_of_ne (by omega)]
  split
  · rename_i he; rw [he, update_self]
  · rename_i he; rw [update_of_ne he]

theorem freshDisk_map : freshDisk sb sb.bmapstart = markMap (sb.nmeta + 1) := by
  have := sb.bmapstart_lt
  rw [freshDisk, update_of_ne (by omega), update_self]

theorem freshDisk_map_high {b : ℕ} (hb : b < sb.size) (hhigh : BPB ≤ b) : freshDisk sb (sb.bblock b) = fun _ => 0 := by
  have h1 := sb.bblock_lt hb
  have h2 := sb.iblock_root_lt
  have h3 : sb.bmapstart < sb.bblock b := by
    have : 1 ≤ b / BPB := (Nat.one_le_div_iff (by decide)).mpr hhigh
    rw [Superblock.bblock]; omega
  rw [freshDisk, update_of_ne (by omega), update_of_ne (by omega), update_of_ne (by omega)]

theorem bitAt_fresh (hs : sb.Small) {b : ℕ} (hb : b < sb.size) : bitAt sb (freshDisk sb) b = true ↔ b ≤ sb.nmeta := by
  have hused := hs.used
  rcases Nat.lt_or_ge b BPB with hlt | hge
  · have hbb : sb.bblock b = sb.bmapstart := by
      rw [Superblock.bblock, Nat.div_eq_of_lt hlt, Nat.zero_add]
    rw [bitAt, hbb, freshDisk_map, Nat.mod_eq_of_lt hlt, getBit_markMap b _ hused]
    omega
  · rw [bitAt, freshDisk_map_high sb hb hge, getBit_zero]
    simp
    omega

theorem getDinode_zero (k : ℕ) : getDinode (fun _ => 0) k = .fresh 0 := by
  simp only [getDinode, Dinode.fresh, getLE_zero]

theorem rootDinode_fits (hs : sb.Small) : (rootDinode sb).Fits where
  type := show T_DIR < 2 ^ 16 by decide
  major := Nat.two_pow_pos 16
  minor := Nat.two_pow_pos 16
  nlink := show 1 < 2 ^ 16 by decide
  size := show BSIZE < 2 ^ 32 by decide
  addrs k := by
    rw [rootDinode]
    dsimp only
    rcases eq_or_ne k 0 with rfl | hk
    · rw [update_self]
      have h1 := hs.data
      have h2 := sb.size_lt
      omega
    · rw [update_of_ne hk]; decide

theorem dinode_fresh (hs : sb.Small) : dinode (.fresh sb) = update (fun _ => .fresh 0) ROOTINO (rootDinode sb) := by
  funext i
  rcases Nat.lt_or_ge i sb.ninodes with hi | hi
  · rw [dinode_of_lt (by exact hi)]
    change getDinode (freshDisk sb (sb.iblock i)) (i % IPB) = _
    rw [freshDisk_iblock sb hi]
    rcases eq_or_ne i ROOTINO with rfl | hne
    · rw [if_pos rfl, update_self]
      exact getDinode_setDinode_same _ (by decide) (rootDinode_fits sb hs)
    · rw [update_of_ne hne]
      split
      · rename_i he
        have hmod : i % IPB ≠ ROOTINO % IPB := by
          rw [Superblock.iblock, Superblock.iblock] at he
          simp only [IPB, BSIZE, ROOTINO] at *
          omega
        rw [getDinode_setDinode_ne _ hmod, getDinode_zero]
      · exact getDinode_zero _
  · rw [dinode_of_ge (by exact hi), update_of_ne]
    have := sb.root
    omega

theorem ref_root (disk : Disk) (k : Slot) : ref disk (rootDinode sb) k = if k = .dir 0 then sb.nmeta else 0 := by
  have hind : (rootDinode sb).addrs IND = 0 := by
    rw [rootDinode]
    exact update_of_ne (show IND ≠ 0 by decide) sb.nmeta fun _ => 0
  cases k with
  | dir j =>
    rw [ref, rootDinode]
    dsimp only
    rcases eq_or_ne j 0 with rfl | hj
    · rw [update_self, if_pos rfl]
    · rw [update_of_ne hj, if_neg fun he => hj (Slot.dir.inj he)]
  | ind j => rw [ref, hind, indAt, if_pos rfl, if_neg (by exact Slot.noConfusion)]

theorem refs_fresh (hs : sb.Small) : refs sb (freshDisk sb) (dinode (.fresh sb)) =
    fun p => if p = (ROOTINO, .dir 0) then sb.nmeta else 0 := by
  funext ⟨i, k⟩
  rw [dinode_fresh sb hs, refs]
  dsimp only
  rcases eq_or_ne i ROOTINO with rfl | hne
  · rw [update_self, if_pos ⟨sb.root, show T_DIR ≠ 0 by decide⟩, ref_root]
    simp
  · rw [update_of_ne hne, if_neg fun h => h.2 rfl, if_neg fun he => hne (Prod.mk.inj he).1]

theorem fresh_image (hs : sb.Small) : Image (.fresh sb) := by
  have hdata := hs.data
  have hmeta := sb.nmeta_pos
  refine ⟨?_, fun i hi => ?_, fun _ => rfl, fun _ => rfl⟩
  · change Books sb (freshDisk sb) (refs sb (freshDisk sb) (dinode (.fresh sb)))
    rw [refs_fresh sb hs]
    refine ⟨fun b hb => (bitAt_fresh sb hs (by omega)).mpr hb.le, sb.not_isData_zero, fun p hp => ?_,
      fun p q hp he => ?_, fun b hb hbit => ⟨(ROOTINO, .dir 0), ?_⟩⟩
    · have hp' : p = (ROOTINO, .dir 0) := by
        by_contra hne; exact hp (if_neg hne)
      rw [if_pos hp']
      exact ⟨⟨le_rfl, hdata⟩, (bitAt_fresh sb hs hdata).mpr le_rfl⟩
    · have hp' : p = (ROOTINO, .dir 0) := by
        by_contra hne; exact hp (if_neg hne)
      have hq' : q = (ROOTINO, .dir 0) := by
        by_contra hne; rw [if_pos hp', if_neg hne] at he; omega
      rw [hp', hq']
    · have h1 := (bitAt_fresh sb hs hb.2).mp hbit
      have h2 := hb.1
      rw [if_pos rfl]; omega
  · have hroot : i = ROOTINO := by
      by_contra hne
      refine hi.2 ?_
      rw [dinode_fresh sb hs, update_of_ne hne]; rfl
    subst hroot
    rw [dinode_fresh sb hs, update_self]
    refine ⟨show BSIZE ≤ MAXFILE * BSIZE by decide, fun bn hbn => ?_⟩
    have hbn0 : bn = 0 := by
      have : bn * BSIZE < BSIZE := hbn
      simp only [BSIZE] at this
      omega
    rw [ref_root, hbn0, if_pos (show slotOf 0 = .dir 0 by decide)]
    omega

theorem dinode_fresh_root (x : Block) :
    dinode { FS.fresh sb with disk := update (freshDisk sb) sb.nmeta x } = dinode (.fresh sb) := by
  have hlow := sb.bmapstart_lt
  exact dinode_low (by rfl) fun b hb => update_of_ne (by have : b < sb.bmapstart := hb; omega) ..

/-- What the block of the root directory holds does not matter. -/
theorem fresh_image_root (hs : sb.Small) (x : Block) :
    Image { FS.fresh sb with disk := update (freshDisk sb) sb.nmeta x } := by
  have h := fresh_image sb hs
  have hD := dinode_fresh_root sb x
  have href : ∀ i k, ref (update (freshDisk sb) sb.nmeta x) (dinode (.fresh sb) i) k =
      ref (freshDisk sb) (dinode (.fresh sb) i) k := by
    intro i
    refine ref_congr fun hind => absurd ?_ hind
    rw [dinode_fresh sb hs]
    rcases eq_or_ne i ROOTINO with rfl | hne
    · rw [update_self, rootDinode]
      exact update_of_ne (show IND ≠ 0 by decide) sb.nmeta fun _ => 0
    · rw [update_of_ne hne]; rfl
  refine ⟨?_, fun i hi => ?_, h.empty, h.whole⟩
  · rw [hD]
    have hrefs : refs sb (update (freshDisk sb) sb.nmeta x) (dinode (.fresh sb)) =
        refs sb (freshDisk sb) (dinode (.fresh sb)) := funext fun p => by simp only [refs, href]
    exact hrefs ▸ h.books.congr fun b hb => update_of_ne (ne_of_lt hb.2) ..
  · rw [hD] at hi ⊢
    exact ⟨(h.filled i hi).1, fun bn hbn => by rw [href]; exact (h.filled i hi).2 bn hbn⟩

end Fresh

/-- The super block that `mkfs` writes. -/
def Superblock.std : Superblock where
  size := 2000
  nblocks := 1954
  ninodes := 200
  inodestart := 32
  bmapstart := 45
  boot := by decide
  inodes := by decide
  bitmap := by decide
  nblocks_le := by decide
  size_lt := by decide
  root := by decide
  ninodes_le := by decide

theorem Superblock.std_small : Superblock.std.Small := ⟨by decide, by decide⟩

end Minios.Fs
