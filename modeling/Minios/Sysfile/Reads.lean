import Minios.Sysfile.Kept

/-! `kernel/file.c`, `kernel/fs.c`: reading never allocates.

    `readi` calls `bmap`, and `bmap` allocates a block where the file has none. `read` calls it outside of any
    transaction, where `balloc`'s `log_write` panics. The functions below are those on the way from `read` to
    `balloc`, with `alloc` in the place of `balloc`: that they do the same whatever `alloc` does says that
    `balloc` is not called. -/

namespace Minios.Sysfile
open Schemes Function Fs

section With
variable (alloc : M ℕ)

def bmapDirectWith (k : IPtr) (j : Fin (NDIRECT + 1)) : M ℕ := do
  let ip ← inode k
  if ip.d.addrs j = 0 then
    let addr ← alloc
    if addr = 0 then return 0
    setD k (·.setAddr j addr)
    return addr
  else return ip.d.addrs j

def bmapWith (k : IPtr) (bn : ℕ) : M ℕ := do
  if h : bn < NDIRECT then bmapDirectWith alloc k ⟨bn, Nat.lt_succ_of_lt h⟩
  else
    let bn := bn - NDIRECT
    if bn < NINDIRECT then
      let ind ← bmapDirectWith alloc k IND
      if ind = 0 then return 0
      let bp ← bread ind
      if getAddr bp bn = 0 then
        let addr ← alloc
        if addr ≠ 0 then logWrite ind (setAddr bp bn addr)
        return addr
      else return getAddr bp bn
    else Prog.fail .bmapOutOfRange

def readiLoopWith (k : IPtr) (dst : ℕ → Bool) (n : ℕ) : ℕ → ℕ → ℕ → List UInt8 → M (ℤ × List UInt8)
  | 0, _, tot, out => return (tot, out)
  | rounds + 1, off, tot, out => do
    if tot < n then
      let addr ← bmapWith alloc k (off / BSIZE)
      if addr = 0 then return (tot, out)
      let bp ← bread addr
      let m := min (n - tot) (BSIZE - off % BSIZE)
      if (List.range m).all fun j => dst (tot + j) then
        readiLoopWith k dst n rounds (off + m) (tot + m) (out ++ getBytes bp (off % BSIZE) m)
      else return (-1, out)
    else return (tot, out)

def readiWith (k : IPtr) (dst : ℕ → Bool) (off n : ℕ) : M (ℤ × List UInt8) := do
  let ip ← inode k
  if off > ip.d.size ∨ (off + n) % 2 ^ 32 < off then return (0, [])
  let n := if (off + n) % 2 ^ 32 > ip.d.size then ip.d.size - off else n
  readiLoopWith alloc k dst n n off 0 []

def filereadWith (f : FPtr) (dst : ℕ → Bool) (n : Int32) (r : ℤ) : KM ℤ := do
  let x ← file f
  if x.readable = false then return -1
  match x.type with
  | .pipe => return r
  | .device => if 2 ^ 15 ≤ x.major ∨ NDEV ≤ x.major then return -1 else return r
  | .inode =>
    K.lift (ilock x.ip)
    let (r, _) ← K.lift (readiWith alloc x.ip dst x.off.toNat n.toUInt32.toNat)
    if 0 < r then setFile f (x.setOff (x.off + UInt32.ofNat r.toNat))
    K.lift (iunlock x.ip)
    return r
  | .none => Prog.fail .fileread

def sysReadWith (p : PPtr) (fd : ℤ) (dst : ℕ → Bool) (n : Int32) (r : ℤ) : KM ℤ := do
  match ← argfd p fd with
  | none => return -1
  | some (_, f) => filereadWith alloc f dst n r

end With

/-! ### They are the functions of the kernel -/

theorem bmapWith_balloc (k : IPtr) (bn : ℕ) : bmapWith balloc k bn = bmap k bn := rfl

theorem readiLoopWith_balloc (k : IPtr) (dst : ℕ → Bool) (n : ℕ) : ∀ rounds off tot out,
    readiLoopWith balloc k dst n rounds off tot out = readiLoop k dst n rounds off tot out
  | 0, _, _, _ => rfl
  | rounds + 1, off, tot, out => by
      simp only [readiLoopWith, readiLoop, bmapWith_balloc, readiLoopWith_balloc k dst n rounds]

theorem readiWith_balloc (k : IPtr) (dst : ℕ → Bool) (off n : ℕ) : readiWith balloc k dst off n = readi k dst off n := by
  simp only [readiWith, readi, readiLoopWith_balloc]

theorem sysReadWith_balloc (p : PPtr) (fd : ℤ) (dst : ℕ → Bool) (n : Int32) (r : ℤ) :
    sysReadWith balloc p fd dst n r = sys_read p fd dst n r := by
  simp only [sysReadWith, filereadWith, readiWith_balloc]
  rfl

/-! ### Blocks that are there -/

section Fill
variable {s : FS} {k : IPtr} (alloc : M ℕ)

/-- A block that the file has is found without `alloc`. -/
theorem bmapWith_present {bn : ℕ} (hbn : bn < MAXFILE) (h : ref s.disk (s.itable k).d (slotOf bn) ≠ 0) :
    bmapWith alloc k bn s = bmap k bn s := by
  have hdirect : ∀ j, (s.itable k).d.addrs j ≠ 0 → bmapDirectWith alloc k j s = bmapDirect k j s := fun j hj => by
    show (if (s.itable k).d.addrs j = 0 then _ else _ : M ℕ) s = (if (s.itable k).d.addrs j = 0 then _ else _ : M ℕ) s
    rw [if_neg hj, if_neg hj]
  rw [bmapWith, bmap]
  rw [slotOf] at h
  split
  · rename_i hlt
    rw [dif_pos hlt] at h
    exact hdirect _ h
  · rename_i hge
    have hlt : bn - NDIRECT < NINDIRECT := by simp only [MAXFILE] at hbn; omega
    rw [dif_neg hge, ref] at h
    have hind : (s.itable k).d.addrs IND ≠ 0 := fun h0 => h (by rw [indAt, if_pos h0])
    rw [indAt, if_neg hind] at h
    simp only [Nat.mod_eq_of_lt hlt] at h
    rw [if_pos hlt, if_pos hlt]
    have hspec : wp (bmapDirect k IND) (fun r t => r = (s.itable k).d.addrs IND ∧ t = s) (fun _ => True) s := by
      show wp (if (s.itable k).d.addrs IND = 0 then _ else _ : M ℕ) _ _ s
      rw [if_neg hind]
      exact ⟨rfl, rfl⟩
    refine hspec.bind_congr (hdirect IND hind) fun a t ht => ?_
    obtain ⟨rfl, rfl⟩ := ht
    rw [if_neg hind, if_neg hind]
    show (if getAddr (t.disk _) _ = 0 then _ else _ : M ℕ) t = (if getAddr (t.disk _) _ = 0 then _ else _ : M ℕ) t
    rw [if_neg h, if_neg h]

theorem readiLoopWith_eq {dst : ℕ → Bool} {n : ℕ} : ∀ (rounds off tot : ℕ) (out : List UInt8),
    off + (n - tot) ≤ MAXFILE * BSIZE →
    (∀ bn, bn * BSIZE < off + (n - tot) → ref s.disk (s.itable k).d (slotOf bn) ≠ 0) →
    readiLoopWith alloc k dst n rounds off tot out s = readiLoop k dst n rounds off tot out s
  | 0, _, _, _, _, _ => rfl
  | rounds + 1, off, tot, out, hmax, hfill => by
      rw [readiLoopWith, readiLoop]
      split
      · rename_i hlt
        have hbn : off / BSIZE < MAXFILE := block_lt (by omega)
        have h0 := hfill (off / BSIZE) (lt_of_le_of_lt (block_le off) (by omega))
        refine (bmap_present hbn h0).bind_congr (bmapWith_present alloc hbn h0) fun addr t ht => ?_
        obtain ⟨rfl, ht⟩ := ht
        subst t
        rw [if_neg h0, if_neg h0]
        obtain ⟨-, -, hle⟩ := round_bounds off (show 0 < n - tot by omega)
        have hrest : off + min (n - tot) (BSIZE - off % BSIZE) + (n - (tot + min (n - tot) (BSIZE - off % BSIZE))) =
            off + (n - tot) := by omega
        show (if _ then _ else _ : M (ℤ × List UInt8)) s = (if _ then _ else _ : M (ℤ × List UInt8)) s
        split
        · exact readiLoopWith_eq rounds _ _ _ (hrest ▸ hmax) (hrest ▸ hfill)
        · rfl
      · rfl

theorem readiWith_eq {dst : ℕ → Bool} {off n : ℕ} (h : Filled s.disk (s.itable k).d) (hn : n < 2 ^ 32) :
    readiWith alloc k dst off n s = readi k dst off n s := by
  show (if off > (s.itable k).d.size ∨ (off + n) % 2 ^ 32 < off then _ else _ : M (ℤ × List UInt8)) s =
    (if off > (s.itable k).d.size ∨ (off + n) % 2 ^ 32 < off then _ else _ : M (ℤ × List UInt8)) s
  split
  · rfl
  · rename_i hoff
    have hsize : off + ((if (off + n) % 2 ^ 32 > (s.itable k).d.size then (s.itable k).d.size - off else n) - 0) ≤
        (s.itable k).d.size := by
      split <;> omega
    exact readiLoopWith_eq alloc _ _ _ _ (hsize.trans h.1) fun bn hbn => h.2 bn (lt_of_lt_of_le hbn hsize)

end Fill

/-! ### `read` -/

section Kernel
variable {s : K} {P : IPtr → ℕ} {strict : Prop} (alloc : M ℕ)

theorem filereadWith_eq (h : Good strict s P) (f : FPtr) (dst : ℕ → Bool) (n : Int32) (r : ℤ) :
    filereadWith alloc f dst n r s = fileread f dst n r s := by
  have hfile : wp (file f) (fun x t => x = s.file f ∧ t = s) (fun _ => True) s := ⟨rfl, rfl⟩
  refine hfile.bind_congr rfl fun x t ht => ?_
  obtain ⟨rfl, rfl⟩ := ht
  split
  · rfl
  cases htype : (t.file f).type with
  | pipe => rfl
  | device => rfl
  | none => rfl
  | inode =>
    have hpos := h.accounts.users_le (users_pos_file (h.accounts.holds (.inl htype)))
    refine (ilock_kept h hpos).bind_congr rfl fun _ u hu => ?_
    obtain ⟨hu, -, hready, -⟩ := hu
    have hfilled : Filled u.fs.disk (u.fs.itable (t.file f).ip).d := by
      rw [hready.d hu.ok.wf]
      exact hu.ok.wf.core.filled _ (hready.live hu.ok.wf)
    have hread : wp (K.lift (readi (t.file f).ip dst (t.file f).off.toNat n.toUInt32.toNat)) (fun _ _ => True)
        (Fit strict) u :=
      wp_lift.mpr ((readi_still hu.ok hready (UInt32.toNat_lt _) (UInt32.toNat_lt _)).mono fun _ _ _ => trivial)
    refine hread.bind_congr ?_ fun _ _ _ => rfl
    simp only [K.lift, readiWith_eq alloc hfilled (UInt32.toNat_lt _)]

theorem sysReadWith_eq (h : Good strict s P) (p : PPtr) (fd : ℤ) (dst : ℕ → Bool) (n : Int32) (r : ℤ) :
    sysReadWith alloc p fd dst n r s = sys_read p fd dst n r s := by
  have hargfd : wp (argfd p fd) (fun _ t => t = s) (fun _ => True) s := by
    refine wp_bind.mpr ?_
    show wp (dite _ _ _) _ _ s
    split
    · dsimp only
      split <;> rfl
    · rfl
  refine hargfd.bind_congr rfl fun x t ht => ?_
  subst t
  cases x with
  | none => rfl
  | some x =>
    obtain ⟨_, f⟩ := x
    exact filereadWith_eq alloc h f dst n r

end Kernel

/-- CORRECT (reads do not allocate): the image has every block below every size, its books of blocks are in order and
    its directories name inodes that exist. Then between system calls every block below every size is there, and
    `read` does the same whatever is put in the place of `balloc`. -/
theorem read_never_allocates {image : FS} (himage : Image image) (hentered : Entered image) {s t : K} {es : List Event}
    (hboot : boot image = some s) (hrun : run step s es = some t) :
    (∀ i, Live t.fs.sb (dinode t.fs) i → Filled t.fs.disk (dinode t.fs i)) ∧
    ∀ (alloc : M ℕ) (p : PPtr) (fd : ℤ) (dst : ℕ → Bool) (n : Int32) (r : ℤ),
      sysReadWith alloc p fd dst n r t = sys_read p fd dst n r t := by
  have hgood := runs_kept himage hentered hboot hrun
  exact ⟨hgood.ok.wf.core.filled, fun alloc p fd dst n r => sysReadWith_eq alloc hgood p fd dst n r⟩

/-- The kernel starts from the image, and the events take it to `t`. -/
structure Reaches (image : FS) (es : List Event) (s t : K) : Prop where
  boots : boot image = some s
  runs : run step s es = some t

theorem Reaches.of_any {image : FS} {es : List Event} {p : K → Bool}
    (h : ((boot image).bind fun s => run step s es).any p = true) : ∃ s t, Reaches image es s t ∧ p t = true := by
  obtain ⟨t, ht, hp⟩ := (Option.any_eq_true ..).mp h
  obtain ⟨s, hs, ht⟩ := Option.bind_eq_some_iff.mp ht
  exact ⟨s, t, ⟨hs, ht⟩, hp⟩

/-- The root directory is opened. -/
def openRoot : List Event := [.call 0 (.open (some rootPath) 0)]

theorem read_never_allocates_root : ∃ s t, boot (.fresh .std) = some s ∧ run step s openRoot = some t ∧
    (∀ i, Live t.fs.sb (dinode t.fs) i → Filled t.fs.disk (dinode t.fs i)) ∧
    ∀ alloc, sysReadWith alloc 0 0 (fun _ => true) 32 0 t = sys_read 0 0 (fun _ => true) 32 0 t := by
  have hview : ((boot (.fresh .std)).bind fun s => run step s openRoot).any (fun _ => true) = true := by decide +kernel
  obtain ⟨s, t, ⟨hs, ht⟩, -⟩ := Reaches.of_any hview
  have h := read_never_allocates (fresh_image _ Superblock.std_small) entered_fresh hs ht
  exact ⟨s, t, hs, ht, h.1, fun alloc => h.2 alloc 0 0 _ 32 0⟩

/-! ### Without books of blocks -/

theorem b_noNul : (0 : UInt8) ∉ [98] := by decide

def pathB : Str := ⟨[98], b_noNul⟩

theorem pathB_short : pathB.bytes.length ≤ DIRSIZ := by decide

/-- An image in which the indirect block of one file is the data block of another:

        inode 2, 13 blocks    addrs ─▶ 47, 47, …, 48 (indirect) ─▶ 47
        inode 3, `b`          addrs ─▶ 48 -/
def crossedDisk : Disk :=
  let inodes := setDinode (setDinode (setDinode (fun _ => 0) ROOTINO (rootDinode .std))
    2 ⟨T_FILE, 0, 0, 1, 13 * BSIZE, update (fun _ => 47) IND 48⟩)
    3 ⟨T_FILE, 0, 0, 1, BSIZE, update (fun _ => 0) ⟨0, Nat.succ_pos NDIRECT⟩ 48⟩
  let root := putBytes rootBlock (2 * DESIZE) (Dirent.of ⟨pathB, pathB_short⟩ 3).encode
  update (update (update (update (fun _ _ => 0) 32 inodes) 45 (markMap 49)) 46 root) 48 (setAddr (fun _ => 0) 0 47)

def crossed : FS := { FS.fresh .std with disk := crossedDisk }

/-- Four zeros are written to `b`. -/
def clearB : List Event := [.call 0 (.open (some pathB) O_WRONLY), .call 0 (.write 0 (fun _ => some 0) 4 0)]

/-- Every block below a size is there, and after the write one of inode 2 is missing. -/
theorem read_allocates_crossed :
    (∀ i, Live crossed.sb (dinode crossed) i → Filled crossed.disk (dinode crossed i)) ∧
    (∀ k, (crossed.itable k).ref = 0) ∧ (∀ b, crossed.torn b = none) ∧
    ∃ s t, boot crossed = some s ∧ run step s clearB = some t ∧ Live t.fs.sb (dinode t.fs) 2 ∧
      ¬ Filled t.fs.disk (dinode t.fs 2) := by
  have hsizes : ∀ i, i < crossed.sb.ninodes → (dinode crossed i).size ≤ 13 * BSIZE := by decide +kernel
  have hblocks : ∀ i, i < crossed.sb.ninodes → (dinode crossed i).type ≠ 0 → ∀ bn, bn < 13 →
      bn * BSIZE < (dinode crossed i).size → ref crossed.disk (dinode crossed i) (slotOf bn) ≠ 0 := by decide +kernel
  have hview : ((boot crossed).bind fun s => run step s clearB).any (fun t => decide (2 < t.fs.sb.ninodes ∧
      (dinode t.fs 2).type ≠ 0 ∧ (dinode t.fs 2).size = 13 * BSIZE ∧
      ref t.fs.disk (dinode t.fs 2) (slotOf 12) = 0)) = true := by decide +kernel
  refine ⟨fun i hi => ⟨(hsizes i hi.1).trans (by decide), fun bn hbn => hblocks i hi.1 hi.2 bn ?_ hbn⟩,
    fun _ => rfl, fun _ => rfl, ?_⟩
  · have := hsizes i hi.1
    simp only [BSIZE] at *
    omega
  · obtain ⟨s, t, ⟨hs, ht⟩, hlost⟩ := Reaches.of_any hview
    obtain ⟨hlt, htype, hsize, hzero⟩ := of_decide_eq_true hlost
    refine ⟨s, t, hs, ht, ⟨hlt, htype⟩, fun hfilled => hfilled.2 12 ?_ hzero⟩
    rw [hsize]
    decide

end Minios.Sysfile
