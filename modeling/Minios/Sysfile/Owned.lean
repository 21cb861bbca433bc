import Minios.Sysfile.Kept

/-! `kernel/fs.c`, `kernel/sysfile.c`: every block has one owner, over whole runs.

    From an image whose books of blocks are in order, and whose directories name inodes that exist, no system call
    frees a free block, gives a block to two files, hands out a block of metadata or loses one. An entry with a
    larger inode number makes `ilock` take bytes of the free map or of a file for an inode. -/

namespace Minios.Sysfile
open Schemes Function Fs

/-- CORRECT (one owner): between system calls the blocks that allocated inodes refer to are in the data area, marked in
    the free map and all different, and no other block of the data area is marked. So `balloc` gives a block of the
    data area that no inode has, and no system call panics because it frees a free block. -/
theorem blocks_have_one_owner {image : FS} (himage : Image image) (hentered : Entered image) {s t : K}
    {es : List Event} (hboot : boot image = some s) (hrun : run step s es = some t) :
    (∀ i k, Live t.fs.sb (dinode t.fs) i → ref t.fs.disk (dinode t.fs i) k ≠ 0 →
      t.fs.sb.IsData (ref t.fs.disk (dinode t.fs i) k) ∧
      bitAt t.fs.sb t.fs.disk (ref t.fs.disk (dinode t.fs i) k) = true) ∧
    (∀ i j k l, Live t.fs.sb (dinode t.fs) i → Live t.fs.sb (dinode t.fs) j → ref t.fs.disk (dinode t.fs i) k ≠ 0 →
      ref t.fs.disk (dinode t.fs i) k = ref t.fs.disk (dinode t.fs j) l → i = j ∧ k = l) ∧
    (∀ b, t.fs.sb.IsData b → bitAt t.fs.sb t.fs.disk b = true →
      ∃ i k, Live t.fs.sb (dinode t.fs) i ∧ ref t.fs.disk (dinode t.fs i) k = b) ∧
    (∀ b u, balloc t.fs = .ok (b, u) → b ≠ 0 → t.fs.sb.IsData b ∧
      ∀ i k, Live t.fs.sb (dinode t.fs) i → ref t.fs.disk (dinode t.fs i) k ≠ b) ∧
    ∀ p c, Calls t p c → c.run p t ≠ .error .freeingFreeBlock := by
  have hgood := runs_kept himage hentered hboot hrun
  have hbooks := hgood.ok.wf.core.books
  have hrefs : ∀ {i}, Live t.fs.sb (dinode t.fs) i → ∀ k, refs t.fs.sb t.fs.disk (dinode t.fs) (i, k) =
      ref t.fs.disk (dinode t.fs i) k := fun hi k => if_pos hi
  have hheld : ∀ i k, Live t.fs.sb (dinode t.fs) i → ref t.fs.disk (dinode t.fs i) k ≠ 0 →
      t.fs.sb.IsData (ref t.fs.disk (dinode t.fs i) k) ∧
      bitAt t.fs.sb t.fs.disk (ref t.fs.disk (dinode t.fs i) k) = true := by
    intro i k hi h0
    rw [← hrefs hi] at h0 ⊢
    exact hbooks.ledger.held _ h0
  refine ⟨hheld, fun i j k l hi hj h0 he => ?_, fun b hb hbit => ?_, fun b u hu h0 => ?_, fun p c hc herr => ?_⟩
  · rw [← hrefs hi] at h0 he
    rw [← hrefs hj] at he
    exact Prod.mk.inj (hbooks.ledger.inj _ _ h0 he)
  · obtain ⟨⟨i, k⟩, hik⟩ := hbooks.ledger.noLeak b hb hbit
    have hi : Live t.fs.sb (dinode t.fs) i := by
      by_contra hno
      have h0 : refs t.fs.sb t.fs.disk (dinode t.fs) (i, k) = 0 := if_neg hno
      exact hbooks.ledger.ne_zero hb (hik.symm.trans h0)
    exact ⟨i, k, hi, by rw [← hrefs hi, hik]⟩
  · rcases (balloc_spec hbooks).ok hu with ⟨hb, -⟩ | ha
    · exact absurd hb h0
    · refine ⟨ha.data, fun i k hi he => ?_⟩
      have hbit := (hheld i k hi (he ▸ h0)).2
      rw [he, ha.free] at hbit
      exact absurd hbit (by decide)
  · exact ((run_kept hgood hc).error herr).1 rfl

/-- A file is created and written. -/
def createA : List Event := [.call 0 (.open (some pathA) (O_CREATE ||| O_RDWR)), .call 0 (.write 0 (fun _ => some 1) 4 0)]

theorem blocks_have_one_owner_createA : ∃ s t, boot (.fresh .std) = some s ∧ run step s createA = some t ∧
    ref t.fs.disk (dinode t.fs 2) (.dir 0) = 47 ∧ bitAt t.fs.sb t.fs.disk 47 = true ∧
    ∀ j l, Live t.fs.sb (dinode t.fs) j → ref t.fs.disk (dinode t.fs j) l = 47 → 2 = j ∧ Slot.dir 0 = l := by
  have hview : ((boot (.fresh .std)).bind fun s => run step s createA).any (fun t => decide (2 < t.fs.sb.ninodes ∧
      (dinode t.fs 2).type ≠ 0 ∧ ref t.fs.disk (dinode t.fs 2) (.dir 0) = 47)) = true := by decide +kernel
  obtain ⟨t, ht, hout⟩ := (Option.any_eq_true ..).mp hview
  obtain ⟨s, hs, ht⟩ := Option.bind_eq_some_iff.mp ht
  obtain ⟨hlt, htype, href⟩ := of_decide_eq_true hout
  have h := blocks_have_one_owner (fresh_image _ Superblock.std_small) entered_fresh hs ht
  have h0 : ref t.fs.disk (dinode t.fs 2) (.dir 0) ≠ 0 := by rw [href]; decide
  refine ⟨s, t, hs, ht, href, href ▸ (h.1 2 _ ⟨hlt, htype⟩ h0).2, fun j l hj he => ?_⟩
  exact h.2.1 2 j _ l ⟨hlt, htype⟩ hj h0 (href.trans he.symm)

/-! ### An entry that names no inode -/

theorem pathA_short : pathA.bytes.length ≤ DIRSIZ := by decide

/-- The root directory has an entry `a` for inode 225, which would be where this block has bytes 64 to 127. They look
    like a file whose first block is block 100. -/
def strayBlock : Block :=
  setDinode (putBytes rootBlock (2 * DESIZE) (Dirent.of ⟨pathA, pathA_short⟩ 225).encode) 1
    ⟨T_FILE, 0, 0, 1, BSIZE, update (fun _ => 0) ⟨0, Nat.succ_pos NDIRECT⟩ 100⟩

def stray : FS := { FS.fresh .std with disk := update (freshDisk .std) 46 strayBlock }

/-- Block 100 is free; truncating `a` frees it. -/
theorem stray_frees_free_block : Image stray ∧ ∃ s, boot stray = some s ∧
    Calls s 0 (.open (some pathA) (O_WRONLY ||| O_TRUNC)) ∧
    (Syscall.open (some pathA) (O_WRONLY ||| O_TRUNC)).run 0 s = .error .freeingFreeBlock := by
  have hview : (boot stray).any (fun s => decide (Calls s 0 (.open (some pathA) (O_WRONLY ||| O_TRUNC))) &&
      match (Syscall.open (some pathA) (O_WRONLY ||| O_TRUNC)).run 0 s with
        | .error e => decide (e = .freeingFreeBlock)
        | .ok _ => false) = true := by decide +kernel
  obtain ⟨s, hs, hout⟩ := (Option.any_eq_true ..).mp hview
  rw [Bool.and_eq_true] at hout
  refine ⟨fresh_image_root _ Superblock.std_small strayBlock, s, hs, of_decide_eq_true hout.1, ?_⟩
  have herr := hout.2
  split at herr
  · rename_i e he
    rw [he, of_decide_eq_true herr]
  · cases herr

end Minios.Sysfile
