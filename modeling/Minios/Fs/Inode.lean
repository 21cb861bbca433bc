import Minios.Schemes.Prog
import Minios.Fs.Layout

/-! `kernel/fs.c`: blocks and inodes.

    The functions of the allocator and of the inode layer, as programs over the disk and the inode
    table. `bread`/`log_write`/`brelse` are reads and writes of a map from block numbers to contents:
    that is what cache, log and disk are to their users. The one exception is a block whose buffer was
    changed but not logged, by a copy from a bad user address (`tear`): it keeps the change until its
    buffer is recycled, and then has its last logged contents again (`torn`).

    A system call runs alone here, so waiting for a lock that is taken is waiting for ever
    (`blocked`). Loops carry the number of rounds they can make at most. There is one device. -/

namespace Minios.Fs
open Schemes Function

/-- The panics of `fs.c`, `file.c`, `sysfile.c` and of `exit`; `kerneltrap` is a null pointer followed, `blocked` a
    process that waits for itself. -/
inductive Panic where
  | freeingFreeBlock
  | bmapOutOfRange
  | igetNoInodes
  | ilock
  | ilockNoType
  | iunlock
  | dirlookupNotDir
  | dirlookupRead
  | dirlinkRead
  | isdiremptyReadi
  | unlinkNlink
  | unlinkWritei
  | filedup
  | fileclose
  | fileread
  | filewrite
  | initExiting
  | kerneltrap
  | blocked
  deriving DecidableEq

/-- Maximum number of active inodes. -/
abbrev NINODE : ℕ := 50

instance : NeZero NINODE := ⟨by decide⟩

/-- `struct inode`: the table entry, and its copy `d` of the disk inode. -/
structure Inode where
  inum : ℕ
  ref : ℕ
  locked : Bool
  valid : Bool
  d : Dinode

def Inode.setRef (ip : Inode) (ref : ℕ) : Inode := { ip with ref := ref }

def Inode.setLocked (ip : Inode) (locked : Bool) : Inode := { ip with locked := locked }

/-- `ip->inum = inum; ip->ref = 1; ip->valid = 0;` -/
def Inode.recycle (ip : Inode) (inum : ℕ) : Inode := { ip with inum := inum, ref := 1, valid := false }

/-- The copy read from disk, `ip->valid = 1`. -/
def Inode.load (ip : Inode) (d : Dinode) : Inode := { ip with d := d, valid := true }

def Inode.withD (ip : Inode) (d : Dinode) : Inode := { ip with d := d }

/-- `ip->valid = 0` -/
def Inode.invalidate (ip : Inode) : Inode := { ip with valid := false }

/-- The super block read by `fsinit`, the disk, and `itable`. -/
structure FS where
  sb : Superblock
  disk : Disk
  itable : Fin NINODE → Inode
  torn : ℕ → Option Block

abbrev M := Prog FS Panic

/-- A pointer to an entry of the inode table. -/
abbrev IPtr := Fin NINODE

def FS.setInode (s : FS) (k : IPtr) (ip : Inode) : FS := { s with itable := update s.itable k ip }

/-- The table with another copy of the disk inode in entry `k`. -/
def FS.tab (s : FS) (k : IPtr) (d : Dinode) : IPtr → Inode :=
  update s.itable k ((s.itable k).withD d)

def FS.setD (s : FS) (k : IPtr) (d : Dinode) : FS := { s with itable := s.tab k d }

def FS.write (s : FS) (b : ℕ) (x : Block) : FS :=
  { s with disk := update s.disk b x, torn := update s.torn b none }

def FS.tear (s : FS) (b : ℕ) (x : Block) : FS :=
  { s with disk := update s.disk b x, torn := update s.torn b (some ((s.torn b).getD (s.disk b))) }

/-- The buffer of block `b` is recycled. -/
def FS.evict (s : FS) (b : ℕ) : FS := match s.torn b with
  | some x => { s with disk := update s.disk b x, torn := update s.torn b none }
  | none => s

/-- `bread(b)->data` -/
def bread (b : ℕ) : M Block := do return (← Prog.get).disk b

/-- Leave `x` in block `b` and `log_write` it. -/
def logWrite (b : ℕ) (x : Block) : M Unit := Prog.modify fun s => s.write b x

/-- Leave `x` in the buffer of block `b`, unlogged. -/
def tear (b : ℕ) (x : Block) : M Unit := Prog.modify fun s => s.tear b x

def inode (k : IPtr) : M Inode := do return (← Prog.get).itable k

def setInode (k : IPtr) (ip : Inode) : M Unit := Prog.modify fun s => s.setInode k ip

/-- Change the copy of the disk inode. -/
def setD (k : IPtr) (f : Dinode → Dinode) : M Unit := Prog.modify fun s => s.setD k (f (s.itable k).d)

/-! ### Blocks -/

/-- Zero a block. -/
def bzero (b : ℕ) : M Unit := logWrite b fun _ => 0

/-- `balloc`'s inner loop: the first clear bit of a block of the free map, from bit `bi` on; bit 0
    stands for block `b`. -/
def scanMap (bp : Block) (b size : ℕ) : ℕ → ℕ → Option ℕ
  | 0, _ => none
  | rounds + 1, bi =>
    if b + bi < size then
      if getBit bp bi then scanMap bp b size rounds (bi + 1) else some bi
    else none

def ballocLoop : ℕ → ℕ → M ℕ
  | 0, _ => return 0
  | rounds + 1, b => do
    let sb := (← Prog.get).sb
    if b < sb.size then
      let bp ← bread (sb.bblock b)
      match scanMap bp b sb.size BPB 0 with
      | some bi =>
        logWrite (sb.bblock b) (setBit bp bi)
        bzero (b + bi)
        return b + bi
      | none => ballocLoop rounds (b + BPB)
    else return 0

/-- Allocate a zeroed disk block; 0 if out of disk space. -/
def balloc : M ℕ := do ballocLoop ((← Prog.get).sb.size + 1) 0

/-- Free a disk block. -/
def bfree (b : ℕ) : M Unit := do
  let sb := (← Prog.get).sb
  let bp ← bread (sb.bblock b)
  if getBit bp (b % BPB) then logWrite (sb.bblock b) (clearBit bp (b % BPB))
  else Prog.fail .freeingFreeBlock

/-! ### The inode table -/

/-- Find the inode with number `inum` and return the in-memory copy: the entry that has it, or else
    the first empty one. -/
def iget (inum : ℕ) : M IPtr := do
  let s ← Prog.get
  match (List.finRange NINODE).find? fun k => 0 < (s.itable k).ref ∧ (s.itable k).inum = inum with
  | some k =>
    setInode k ((s.itable k).setRef ((s.itable k).ref + 1))
    return k
  | none =>
    match (List.finRange NINODE).find? fun k => (s.itable k).ref = 0 with
    | some k =>
      setInode k ((s.itable k).recycle inum)
      return k
    | none => Prog.fail .igetNoInodes

/-- Increment reference count for `ip`. -/
def idup (k : IPtr) : M IPtr := do
  let ip ← inode k
  setInode k (ip.setRef (ip.ref + 1))
  return k

def iallocLoop (type : ℕ) : ℕ → ℕ → M (Option IPtr)
  | 0, _ => return none
  | rounds + 1, inum => do
    let sb := (← Prog.get).sb
    if inum < sb.ninodes then
      let bp ← bread (sb.iblock inum)
      if (getDinode bp (inum % IPB)).type = 0 then
        logWrite (sb.iblock inum) (setDinode bp (inum % IPB) (.fresh type))
        return some (← iget inum)
      else iallocLoop type rounds (inum + 1)
    else return none

/-- Allocate an inode and mark it as allocated by giving it type `type`. -/
def ialloc (type : ℕ) : M (Option IPtr) := do iallocLoop type (← Prog.get).sb.ninodes 1

/-- Copy a modified in-memory inode to disk. -/
def iupdate (k : IPtr) : M Unit := do
  let sb := (← Prog.get).sb
  let ip ← inode k
  let bp ← bread (sb.iblock ip.inum)
  logWrite (sb.iblock ip.inum) (setDinode bp (ip.inum % IPB) ip.d)

/-- Lock the given inode, and read it from disk if necessary. -/
def ilock (k : IPtr) : M Unit := do
  let ip ← inode k
  if ip.ref < 1 then Prog.fail .ilock
  if ip.locked then Prog.fail .blocked
  if ip.valid then setInode k (ip.setLocked true)
  else
    let sb := (← Prog.get).sb
    let bp ← bread (sb.iblock ip.inum)
    let d := getDinode bp (ip.inum % IPB)
    setInode k ((ip.setLocked true).load d)
    if d.type = 0 then Prog.fail .ilockNoType

/-- Unlock the given inode. -/
def iunlock (k : IPtr) : M Unit := do
  let ip ← inode k
  if ¬ ip.locked ∨ ip.ref < 1 then Prog.fail .iunlock
  setInode k (ip.setLocked false)

/-! ### Inode content -/

/-- Entry `j` of an indirect block. -/
def getAddr (bp : Block) (j : ℕ) : ℕ := getLE bp (4 * j) 4

def setAddr (bp : Block) (j addr : ℕ) : Block := setLE bp (4 * j) 4 addr

/-- The last entry of `addrs`: the indirect block. -/
abbrev IND : Fin (NDIRECT + 1) := Fin.last NDIRECT

/-- The address in entry `j` of `ip->addrs`, allocating a block if it has none; 0 if out of disk
    space. -/
def bmapDirect (k : IPtr) (j : Fin (NDIRECT + 1)) : M ℕ := do
  let ip ← inode k
  if ip.d.addrs j = 0 then
    let addr ← balloc
    if addr = 0 then return 0
    setD k (·.setAddr j addr)
    return addr
  else return ip.d.addrs j

/-- The disk block address of block number `bn` in inode `ip`, allocating if there is none; 0 if out
    of disk space. -/
def bmap (k : IPtr) (bn : ℕ) : M ℕ := do
  if h : bn < NDIRECT then bmapDirect k ⟨bn, Nat.lt_succ_of_lt h⟩
  else
    let bn := bn - NDIRECT
    if bn < NINDIRECT then
      let ind ← bmapDirect k IND
      if ind = 0 then return 0
      let bp ← bread ind
      if getAddr bp bn = 0 then
        let addr ← balloc
        if addr ≠ 0 then logWrite ind (setAddr bp bn addr)
        return addr
      else return getAddr bp bn
    else Prog.fail .bmapOutOfRange

/-- `itrunc`'s first loop. -/
def itruncDirect (k : IPtr) : List (Fin (NDIRECT + 1)) → M Unit
  | [] => return ()
  | j :: js => do
    let ip ← inode k
    if ip.d.addrs j ≠ 0 then
      bfree (ip.d.addrs j)
      setD k (·.setAddr j 0)
    itruncDirect k js

/-- `itrunc`'s second loop: free the blocks an indirect block lists. -/
def itruncIndirect (bp : Block) : List ℕ → M Unit
  | [] => return ()
  | j :: js => do
    if getAddr bp j ≠ 0 then bfree (getAddr bp j)
    itruncIndirect bp js

/-- Truncate inode (discard contents). -/
def itrunc (k : IPtr) : M Unit := do
  itruncDirect k ((List.finRange NDIRECT).map Fin.castSucc)
  let ip ← inode k
  if ip.d.addrs IND ≠ 0 then
    let bp ← bread (ip.d.addrs IND)
    itruncIndirect bp (List.range NINDIRECT)
    bfree (ip.d.addrs IND)
    setD k (·.setAddr IND 0)
  setD k (·.setSize 0)
  iupdate k

/-- `iput` of the last reference to an inode without links: truncate and free. -/
def iputFree (k : IPtr) : M Unit := do
  let ip ← inode k
  if ip.locked then Prog.fail .blocked
  setInode k (ip.setLocked true)
  itrunc k
  setD k (·.setType 0)
  iupdate k
  let ip ← inode k
  setInode k (ip.invalidate.setLocked false)

/-- Drop a reference to an in-memory inode; free the inode if that was the last one and it has no
    links. -/
def iput (k : IPtr) : M Unit := do
  let ip ← inode k
  if ip.ref = 1 ∧ ip.valid ∧ ip.d.nlink = 0 then iputFree k
  let ip ← inode k
  setInode k (ip.setRef (ip.ref - 1))

/-- Common idiom: unlock, then put. -/
def iunlockput (k : IPtr) : M Unit := do
  iunlock k
  iput k

/-- `m` bytes of a block from offset `o` on. -/
def getBytes (bp : Block) (o m : ℕ) : List UInt8 := (List.range m).map fun j => getByte bp (o + j)

/-- Overwrite the bytes of a block from offset `o` on. -/
def putBytes (bp : Block) (o : ℕ) (xs : List UInt8) : Block := fun j =>
  if o ≤ j.val then xs.getD (j.val - o) (bp j) else bp j

/-- The loop of `readi` for `n` bytes, `tot` of them done; `dst` says which bytes of the destination
    are mapped. -/
def readiLoop (k : IPtr) (dst : ℕ → Bool) (n : ℕ) : ℕ → ℕ → ℕ → List UInt8 → M (ℤ × List UInt8)
  | 0, _, tot, out => return (tot, out)
  | rounds + 1, off, tot, out => do
    if tot < n then
      let addr ← bmap k (off / BSIZE)
      if addr = 0 then return (tot, out)
      let bp ← bread addr
      let m := min (n - tot) (BSIZE - off % BSIZE)
      if (List.range m).all fun j => dst (tot + j) then
        readiLoop k dst n rounds (off + m) (tot + m) (out ++ getBytes bp (off % BSIZE) m)
      else return (-1, out)
    else return (tot, out)

/-- Read data from inode: the return value, and the bytes copied out. -/
def readi (k : IPtr) (dst : ℕ → Bool) (off n : ℕ) : M (ℤ × List UInt8) := do
  let ip ← inode k
  if off > ip.d.size ∨ (off + n) % 2 ^ 32 < off then return (0, [])
  let n := if (off + n) % 2 ^ 32 > ip.d.size then ip.d.size - off else n
  readiLoop k dst n n off 0 []

/-- The first `m` bytes of a source from `tot` on, as far as it is mapped. -/
def copyin (src : ℕ → Option UInt8) (tot m : ℕ) : List UInt8 :=
  ((List.range m).map fun j => src (tot + j)).takeWhile Option.isSome |>.map fun x => x.getD 0

/-- The loop of `writei`: the offset and the count it ends with. -/
def writeiLoop (k : IPtr) (src : ℕ → Option UInt8) (n : ℕ) : ℕ → ℕ → ℕ → M (ℕ × ℕ)
  | 0, off, tot => return (off, tot)
  | rounds + 1, off, tot => do
    if tot < n then
      let addr ← bmap k (off / BSIZE)
      if addr = 0 then return (off, tot)
      let bp ← bread addr
      let m := min (n - tot) (BSIZE - off % BSIZE)
      let xs := copyin src tot m
      if xs.length = m then
        logWrite addr (putBytes bp (off % BSIZE) xs)
        writeiLoop k src n rounds (off + m) (tot + m)
      else
        tear addr (putBytes bp (off % BSIZE) xs)
        return (off, tot)
    else return (off, tot)

/-- Write data to inode; the number of bytes written, or -1. -/
def writei (k : IPtr) (src : ℕ → Option UInt8) (off n : ℕ) : M ℤ := do
  let ip ← inode k
  if off > ip.d.size ∨ (off + n) % 2 ^ 32 < off then return -1
  if (off + n) % 2 ^ 32 > MAXFILE * BSIZE then return -1
  let (off, tot) ← writeiLoop k src n n off 0
  let ip ← inode k
  if off > ip.d.size then setD k (·.setSize off)
  iupdate k
  return tot

end Minios.Fs
