import Minios.Fs.Dirent

/-! `kernel/fs.c`: directories and paths.

        namex:  ip ─ ilock ─ is it a directory? ─ dirlookup ─ iunlockput ─▶ next ip
                         └─ no: iunlockput, 0          └─ no entry: iunlockput, 0

    Loops over a directory make one round per entry, `namex` one per path element. -/

namespace Minios.Fs
open Schemes Function

/-- `readi` of one entry into kernel memory. -/
def readDirent (dp : IPtr) (off : ℕ) (panic : Panic) : M Dirent := do
  let (r, out) ← readi dp (fun _ => true) off DESIZE
  if r ≠ DESIZE then Prog.fail panic
  return Dirent.decode out

def dirlookupLoop (dp : IPtr) (name : Name) : ℕ → ℕ → M (Option (IPtr × ℕ))
  | 0, _ => return none
  | rounds + 1, off => do
    let ip ← inode dp
    if off < ip.d.size then
      let de ← readDirent dp off .dirlookupRead
      if de.inum ≠ 0 ∧ namecmp name de.name = 0 then
        let ip ← iget de.inum
        return some (ip, off)
      else dirlookupLoop dp name rounds (off + DESIZE)
    else return none

/-- Look for a directory entry in a directory; the inode it names and the offset of the entry. -/
def dirlookup (dp : IPtr) (name : Name) : M (Option (IPtr × ℕ)) := do
  let ip ← inode dp
  if ip.d.type ≠ T_DIR then Prog.fail .dirlookupNotDir
  dirlookupLoop dp name (ip.d.size / DESIZE + 1) 0

/-- The offset of the first empty entry, or of the end. -/
def dirlinkLoop (dp : IPtr) : ℕ → ℕ → M ℕ
  | 0, off => return off
  | rounds + 1, off => do
    let ip ← inode dp
    if off < ip.d.size then
      let de ← readDirent dp off .dirlinkRead
      if de.inum = 0 then return off
      else dirlinkLoop dp rounds (off + DESIZE)
    else return off

/-- `writei` of one entry from kernel memory. -/
def writeDirent (dp : IPtr) (off : ℕ) (de : Dirent) : M ℤ := writei dp (fun j => de.encode[j]?) off DESIZE

/-- Write a new directory entry into the directory `dp`; -1 if the name is present or there is no
    room. -/
def dirlink (dp : IPtr) (name : Name) (inum : ℕ) : M ℤ := do
  match ← dirlookup dp name with
  | some (ip, _) =>
    iput ip
    return -1
  | none =>
    let dir ← inode dp
    let off ← dirlinkLoop dp (dir.d.size / DESIZE + 1) 0
    let r ← writeDirent dp off (Dirent.of name inum)
    if r ≠ DESIZE then return -1
    return 0

def isdiremptyLoop (dp : IPtr) : ℕ → ℕ → M Bool
  | 0, _ => return true
  | rounds + 1, off => do
    let ip ← inode dp
    if off < ip.d.size then
      let de ← readDirent dp off .isdiremptyReadi
      if de.inum ≠ 0 then return false
      else isdiremptyLoop dp rounds (off + DESIZE)
    else return true

/-- Is the directory `dp` empty except for `.` and `..`? -/
def isdirempty (dp : IPtr) : M Bool := do
  let ip ← inode dp
  isdiremptyLoop dp (ip.d.size / DESIZE + 1) (2 * DESIZE)

/-! ### Paths -/

def namexLoop (nameiparent : Bool) : ℕ → IPtr → Name → Str → M (Option (IPtr × Name))
  | 0, _, _, _ => return none
  | rounds + 1, ip, name, path => do
    match skipelem path with
    | none =>
      if nameiparent then
        iput ip
        return none
      return some (ip, name)
    | some (name, path) =>
      ilock ip
      let dir ← inode ip
      if dir.d.type ≠ T_DIR then
        iunlockput ip
        return none
      if nameiparent ∧ path.bytes = [] then
        iunlock ip
        return some (ip, name)
      match ← dirlookup ip name with
      | none =>
        iunlockput ip
        return none
      | some (next, _) =>
        iunlockput ip
        namexLoop nameiparent rounds next name path

/-- The name buffer before anything was copied to it. -/
def Name.none : Name := ⟨⟨[], by decide⟩, by decide⟩

/-- Look up the inode for a path name, from the root or from `cwd`; with `nameiparent` the inode of the
    parent, and the final path element. -/
def namex (cwd : IPtr) (path : Str) (nameiparent : Bool) : M (Option (IPtr × Name)) := do
  let ip ← if path.bytes.head? = some SLASH then iget ROOTINO else idup cwd
  namexLoop nameiparent (path.bytes.length + 1) ip .none path

def namei (cwd : IPtr) (path : Str) : M (Option IPtr) := do
  match ← namex cwd path false with
  | some (ip, _) => return some ip
  | none => return none

def nameiparent (cwd : IPtr) (path : Str) : M (Option (IPtr × Name)) := namex cwd path true

end Minios.Fs
