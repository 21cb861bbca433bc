import Minios.Schemes.Run
import Minios.Fs.Dir

/-! `kernel/file.c`, `kernel/sysfile.c`, and what `kernel/proc.c` and `kernel/exec.c` do with files.

        proc[p].ofile[fd] ──▶ ftable.file[f] ──▶ itable.inode[k] ──▶ dinode
        proc[p].cwd ─────────────────────────────────▲

    System calls are programs over the file system, the file table, the pipes and, of each process, what
    refers to files. Each runs alone, from entry to return. What they are told by other parts of the kernel is
    an argument: the string at a user address, the bytes there, whether memory was there to allocate. -/

namespace Minios.Sysfile
open Schemes Function Fs

abbrev NPROC : ℕ := 64
abbrev NOFILE : ℕ := 16
abbrev NFILE : ℕ := 100
abbrev NDEV : ℕ := 10
abbrev MAXPATH : ℕ := 128

/-- Pointers into `ftable.file` and `proc`. -/
abbrev FPtr := Fin NFILE

instance : NeZero NFILE := ⟨by decide⟩

abbrev PPtr := Fin NPROC

instance : NeZero NPROC := ⟨by decide⟩

inductive FdType where
  | none
  | pipe
  | inode
  | device
  deriving DecidableEq

/-- `struct file`; a pipe is named by its address. -/
structure File where
  type : FdType
  ref : ℕ
  readable : Bool
  writable : Bool
  pipe : ℕ
  ip : IPtr
  off : UInt32
  major : ℕ

inductive PState where
  | unused
  | used
  | zombie
  deriving DecidableEq

/-- What refers to files in `struct proc`; `used` is any state of a process that has not exited. -/
structure Proc where
  state : PState
  cwd : Option IPtr
  ofile : Fin NOFILE → Option FPtr

/-- Which ends of a pipe are open. -/
structure Ends where
  readopen : Bool
  writeopen : Bool
  deriving DecidableEq

structure K where
  fs : FS
  file : FPtr → File
  proc : PPtr → Proc
  pipe : ℕ → Option Ends

abbrev KM := Prog K Panic

/-- A function of `fs.c`. -/
def K.lift {α : Type} (m : M α) : KM α := fun s => match m s.fs with
  | .ok (a, t) => .ok (a, { s with fs := t })
  | .error e => .error e

def File.setRef (f : File) (ref : ℕ) : File := { f with ref := ref }

def File.setOff (f : File) (off : UInt32) : File := { f with off := off }

/-- `f->ref = 0; f->type = FD_NONE;` -/
def File.release (f : File) : File := { f with ref := 0, type := .none }

def K.setFile (s : K) (f : FPtr) (x : File) : K := { s with file := update s.file f x }

def K.setProc (s : K) (p : PPtr) (x : Proc) : K := { s with proc := update s.proc p x }

def Proc.setOfile (x : Proc) (fd : Fin NOFILE) (f : Option FPtr) : Proc := { x with ofile := update x.ofile fd f }

def Proc.setCwd (x : Proc) (cwd : Option IPtr) : Proc := { x with cwd := cwd }

def Proc.setState (x : Proc) (state : PState) : Proc := { x with state := state }

def K.setPipe (s : K) (a : ℕ) (e : Option Ends) : K := { s with pipe := update s.pipe a e }

def file (f : FPtr) : KM File := do return (← Prog.get).file f

def setFile (f : FPtr) (x : File) : KM Unit := Prog.modify fun s => s.setFile f x

def proc (p : PPtr) : KM Proc := do return (← Prog.get).proc p

def setOfile (p : PPtr) (fd : Fin NOFILE) (f : Option FPtr) : KM Unit :=
  Prog.modify fun s => s.setProc p ((s.proc p).setOfile fd f)

def setCwd (p : PPtr) (cwd : Option IPtr) : KM Unit := Prog.modify fun s => s.setProc p ((s.proc p).setCwd cwd)

def setState (p : PPtr) (state : PState) : KM Unit := Prog.modify fun s => s.setProc p ((s.proc p).setState state)

/-- `p->cwd` -/
def cwd (p : PPtr) : KM IPtr := do
  match (← proc p).cwd with
  | some k => return k
  | none => Prog.fail .kerneltrap

/-! ### `file.c` and `pipe.c` -/

/-- Allocate a file structure. -/
def filealloc : KM (Option FPtr) := do
  let s ← Prog.get
  match (List.finRange NFILE).find? fun f => (s.file f).ref = 0 with
  | some f =>
    setFile f ((s.file f).setRef 1)
    return some f
  | none => return none

/-- Increment ref count for file `f`. -/
def filedup (f : FPtr) : KM Unit := do
  let x ← file f
  if x.ref < 1 then Prog.fail .filedup
  setFile f (x.setRef (x.ref + 1))

def pipeclose (a : ℕ) (writable : Bool) : KM Unit := do
  match (← Prog.get).pipe a with
  | some e =>
    let e := if writable then { e with writeopen := false } else { e with readopen := false }
    Prog.modify fun s => s.setPipe a (if e.readopen ∨ e.writeopen then some e else none)
  | none => Prog.fail .kerneltrap

/-- Close file `f`. -/
def fileclose (f : FPtr) : KM Unit := do
  let x ← file f
  if x.ref < 1 then Prog.fail .fileclose
  if 0 < x.ref - 1 then setFile f (x.setRef (x.ref - 1))
  else
    setFile f x.release
    match x.type with
    | .pipe => pipeclose x.pipe x.writable
    | .inode | .device => K.lift (iput x.ip)
    | .none => return ()

/-- The file made an end of the pipe at `a`. -/
def File.toPipe (x : File) (a : ℕ) (readable writable : Bool) : File :=
  { x with type := .pipe, readable := readable, writable := writable, pipe := a }

/-- `pipealloc`, `page` being what `kalloc` returns. -/
def pipealloc (page : Option ℕ) : KM (Option (FPtr × FPtr)) := do
  match ← filealloc with
  | none => return none
  | some rf =>
    match ← filealloc with
    | none =>
      fileclose rf
      return none
    | some wf =>
      match page with
      | none =>
        fileclose rf
        fileclose wf
        return none
      | some a =>
        Prog.modify fun s => s.setPipe a (some ⟨true, true⟩)
        let x ← file rf
        setFile rf (x.toPipe a true false)
        let x ← file wf
        setFile wf (x.toPipe a false true)
        return some (rf, wf)

/-- Read from file `f`. `dst` says which bytes of the buffer are mapped, `r` is what the pipe or the device would
    return. -/
def fileread (f : FPtr) (dst : ℕ → Bool) (n : Int32) (r : ℤ) : KM ℤ := do
  let x ← file f
  if x.readable = false then return -1
  match x.type with
  | .pipe => return r
  | .device => if 2 ^ 15 ≤ x.major ∨ NDEV ≤ x.major then return -1 else return r
  | .inode =>
    K.lift (ilock x.ip)
    let (r, _) ← K.lift (readi x.ip dst x.off.toNat n.toUInt32.toNat)
    if 0 < r then setFile f (x.setOff (x.off + UInt32.ofNat r.toNat))
    K.lift (iunlock x.ip)
    return r
  | .none => Prog.fail .fileread

/-- `max` of `filewrite` -/
abbrev WRITEMAX : ℕ := ((MAXOPBLOCKS - 1 - 1 - 2) / 2) * BSIZE

/-- The loop of `filewrite` for `n` bytes, `i` of them done: the bytes written. -/
def filewriteLoop (f : FPtr) (src : ℕ → Option UInt8) (n : ℕ) : ℕ → ℕ → KM ℕ
  | 0, i => return i
  | rounds + 1, i => do
    if i < n then
      let n1 := min (n - i) WRITEMAX
      let x ← file f
      K.lift (ilock x.ip)
      let r ← K.lift (writei x.ip (fun j => src (i + j)) x.off.toNat n1)
      if 0 < r then setFile f (x.setOff (x.off + UInt32.ofNat r.toNat))
      K.lift (iunlock x.ip)
      if r ≠ n1 then return i
      filewriteLoop f src n rounds (i + n1)
    else return i

/-- Write to file `f`. `src` is the memory at the buffer's address, `r` what the pipe or the device would return. -/
def filewrite (f : FPtr) (src : ℕ → Option UInt8) (n : Int32) (r : ℤ) : KM ℤ := do
  let x ← file f
  if x.writable = false then return -1
  match x.type with
  | .pipe => return r
  | .device => if 2 ^ 15 ≤ x.major ∨ NDEV ≤ x.major then return -1 else return r
  | .inode =>
    let i ← filewriteLoop f src n.toInt.toNat n.toInt.toNat 0
    return if (i : ℤ) = n.toInt then n.toInt else -1
  | .none => Prog.fail .filewrite

/-- Get metadata about file `f`; `mapped`: the `struct stat` can be copied out. -/
def filestat (f : FPtr) (mapped : Bool) : KM ℤ := do
  let x ← file f
  match x.type with
  | .inode | .device =>
    K.lift (ilock x.ip)
    K.lift (iunlock x.ip)
    return if mapped then 0 else -1
  | .pipe | .none => return -1

/-! ### `sysfile.c` -/

/-- `argfd`: the file behind a descriptor. -/
def argfd (p : PPtr) (fd : ℤ) : KM (Option (Fin NOFILE × FPtr)) := do
  let x ← proc p
  if h : 0 ≤ fd ∧ fd < NOFILE then
    let i : Fin NOFILE := ⟨fd.toNat, by omega⟩
    match x.ofile i with
    | some f => return some (i, f)
    | none => return none
  else return none

/-- Allocate a file descriptor for the given file. -/
def fdalloc (p : PPtr) (f : FPtr) : KM (Option (Fin NOFILE)) := do
  let x ← proc p
  match (List.finRange NOFILE).find? fun fd => x.ofile fd = none with
  | some fd =>
    setOfile p fd (some f)
    return some fd
  | none => return none

/-- `argstr`: the string at a user address, if there is one and it fits. -/
def argstr (x : Option Str) : Option Str := x.filter fun path => path.bytes.length < MAXPATH

def sys_dup (p : PPtr) (fd : ℤ) : KM ℤ := do
  match ← argfd p fd with
  | none => return -1
  | some (_, f) =>
    match ← fdalloc p f with
    | none => return -1
    | some fd =>
      filedup f
      return fd.val

def sys_read (p : PPtr) (fd : ℤ) (dst : ℕ → Bool) (n : Int32) (r : ℤ) : KM ℤ := do
  match ← argfd p fd with
  | none => return -1
  | some (_, f) => fileread f dst n r

def sys_write (p : PPtr) (fd : ℤ) (src : ℕ → Option UInt8) (n : Int32) (r : ℤ) : KM ℤ := do
  match ← argfd p fd with
  | none => return -1
  | some (_, f) => filewrite f src n r

def sys_close (p : PPtr) (fd : ℤ) : KM ℤ := do
  match ← argfd p fd with
  | none => return -1
  | some (fd, f) =>
    setOfile p fd none
    fileclose f
    return 0

def sys_fstat (p : PPtr) (fd : ℤ) (mapped : Bool) : KM ℤ := do
  match ← argfd p fd with
  | none => return -1
  | some (_, f) => filestat f mapped

/-- `bad:` of `sys_link` -/
def linkUndo (ip : IPtr) : M ℤ := do
  ilock ip
  setD ip .unlink
  iupdate ip
  iunlockput ip
  return -1

/-- The part of `sys_link` between `begin_op` and `end_op`. -/
def link (cwd : IPtr) (old new : Str) : M ℤ := do
  match ← namei cwd old with
  | none => return -1
  | some ip =>
    ilock ip
    let x ← inode ip
    if x.d.type = T_DIR then
      iunlockput ip
      return -1
    setD ip .link
    iupdate ip
    iunlock ip
    match ← nameiparent cwd new with
    | none => linkUndo ip
    | some (dp, name) =>
      ilock dp
      let r ← dirlink dp name x.inum
      iunlockput dp
      if r < 0 then linkUndo ip
      else
        iput ip
        return 0

/-- Create the path `new` as a link to the same inode as `old`. -/
def sys_link (p : PPtr) (old new : Option Str) : KM ℤ := do
  match argstr old, argstr new with
  | some old, some new => K.lift (link (← cwd p) old new)
  | _, _ => return -1

/-- `ip->type == T_DIR && !isdirempty(ip)` -/
def dirfull (ip : IPtr) : M Bool := do
  let x ← inode ip
  if x.d.type = T_DIR then
    let empty ← isdirempty ip
    return !empty
  else return false

/-- `sys_unlink` from where the entry at `off` in `dp` and its inode `ip` are found and locked. -/
def unlinkEntry (dp ip : IPtr) (off : ℕ) : M ℤ := do
  let x ← inode ip
  if x.d.nlink < 1 ∨ 2 ^ 15 ≤ x.d.nlink then Prog.fail .unlinkNlink
  let full ← dirfull ip
  if full then
    iunlockput ip
    iunlockput dp
    return -1
  let r ← writeDirent dp off .zero
  if r ≠ DESIZE then Prog.fail .unlinkWritei
  if x.d.type = T_DIR then
    setD dp .unlink
    iupdate dp
  iunlockput dp
  setD ip .unlink
  iupdate ip
  iunlockput ip
  return 0

/-- The part of `sys_unlink` between `begin_op` and `end_op`. -/
def unlink (cwd : IPtr) (path : Str) : M ℤ := do
  match ← nameiparent cwd path with
  | none => return -1
  | some (dp, name) =>
    ilock dp
    if name = .dot ∨ name = .dotdot then
      iunlockput dp
      return -1
    match ← dirlookup dp name with
    | none =>
      iunlockput dp
      return -1
    | some (ip, off) =>
      ilock ip
      unlinkEntry dp ip off

def sys_unlink (p : PPtr) (path : Option Str) : KM ℤ := do
  match argstr path with
  | some path => K.lift (unlink (← cwd p) path)
  | none => return -1

/-- `fail:` of `create` -/
def createFail (dp ip : IPtr) : M (Option IPtr) := do
  setD ip (·.setNlink 0)
  iupdate ip
  iunlockput ip
  iunlockput dp
  return none

/-- The entries `.` and `..` of a new directory. -/
def createDots (dp ip : IPtr) (type : ℕ) : M ℤ := do
  if type = T_DIR then
    let dir ← inode dp
    let new ← inode ip
    let r ← dirlink ip .dot new.inum
    if r < 0 then return -1
    else dirlink ip .dotdot dir.inum
  else return 0

/-- `create` from where the new inode `ip` is allocated. -/
def createNew (dp : IPtr) (name : Name) (ip : IPtr) (type major minor : ℕ) : M (Option IPtr) := do
  ilock ip
  setD ip (.create major minor)
  iupdate ip
  let r ← createDots dp ip type
  if r < 0 then createFail dp ip
  else
    let new ← inode ip
    let r ← dirlink dp name new.inum
    if r < 0 then createFail dp ip
    else
      if type = T_DIR then
        setD dp .link
        iupdate dp
      iunlockput dp
      return some ip

/-- `create` where there is an entry of that name. -/
def createOld (dp ip : IPtr) (type : ℕ) : M (Option IPtr) := do
  iunlockput dp
  ilock ip
  let x ← inode ip
  if type = T_FILE ∧ (x.d.type = T_FILE ∨ x.d.type = T_DEVICE) then return some ip
  iunlockput ip
  return none

/-- The new inode locked, or an old one that `open` may use. -/
def create (cwd : IPtr) (path : Str) (type major minor : ℕ) : M (Option IPtr) := do
  match ← nameiparent cwd path with
  | none => return none
  | some (dp, name) =>
    ilock dp
    match ← dirlookup dp name with
    | some (ip, _) => createOld dp ip type
    | none =>
      match ← ialloc type with
      | none =>
        iunlockput dp
        return none
      | some ip => createNew dp name ip type major minor

abbrev O_WRONLY : UInt32 := 0x001
abbrev O_RDWR : UInt32 := 0x002
abbrev O_CREATE : UInt32 := 0x200
abbrev O_TRUNC : UInt32 := 0x400

/-- `sys_open`'s first half: the inode, locked. -/
def openInode (cwd : IPtr) (path : Str) (omode : UInt32) : M (Option IPtr) := do
  if omode &&& O_CREATE ≠ 0 then create cwd path T_FILE 0 0
  else
    match ← namei cwd path with
    | none => return none
    | some ip =>
      ilock ip
      let x ← inode ip
      if x.d.type = T_DIR ∧ omode ≠ 0 then
        iunlockput ip
        return none
      return some ip

/-- The file made one for inode `ip`, whose dinode is `d`. -/
def File.toInode (y : File) (ip : IPtr) (d : Dinode) (omode : UInt32) : File :=
  { y with
    type := if d.type = T_DEVICE then .device else .inode
    major := if d.type = T_DEVICE then d.major else y.major
    off := if d.type = T_DEVICE then y.off else 0
    ip := ip
    readable := omode &&& O_WRONLY = 0
    writable := omode &&& O_WRONLY ≠ 0 ∨ omode &&& O_RDWR ≠ 0 }

def sys_open (p : PPtr) (path : Option Str) (omode : UInt32) : KM ℤ := do
  match argstr path with
  | none => return -1
  | some path =>
    match ← K.lift (openInode (← cwd p) path omode) with
    | none => return -1
    | some ip =>
      let x ← K.lift (inode ip)
      if x.d.type = T_DEVICE ∧ (2 ^ 15 ≤ x.d.major ∨ NDEV ≤ x.d.major) then
        K.lift (iunlockput ip)
        return -1
      match ← filealloc with
      | none =>
        K.lift (iunlockput ip)
        return -1
      | some f =>
        match ← fdalloc p f with
        | none =>
          fileclose f
          K.lift (iunlockput ip)
          return -1
        | some fd =>
          let y ← file f
          setFile f (y.toInode ip x.d omode)
          if omode &&& O_TRUNC ≠ 0 ∧ x.d.type = T_FILE then K.lift (itrunc ip)
          K.lift (iunlock ip)
          return fd.val

/-- `sys_mkdir` and `sys_mknod`. -/
def sysCreate (p : PPtr) (path : Option Str) (type major minor : ℕ) : KM ℤ := do
  match argstr path with
  | none => return -1
  | some path =>
    match ← K.lift (create (← cwd p) path type major minor) with
    | none => return -1
    | some ip =>
      K.lift (iunlockput ip)
      return 0

def sys_mkdir (p : PPtr) (path : Option Str) : KM ℤ := sysCreate p path T_DIR 0 0

def sys_mknod (p : PPtr) (path : Option Str) (major minor : ℕ) : KM ℤ := sysCreate p path T_DEVICE major minor

def sys_chdir (p : PPtr) (path : Option Str) : KM ℤ := do
  match argstr path with
  | none => return -1
  | some path =>
    match ← K.lift (namei (← cwd p) path) with
    | none => return -1
    | some ip =>
      K.lift (ilock ip)
      let x ← K.lift (inode ip)
      if x.d.type ≠ T_DIR then
        K.lift (iunlockput ip)
        return -1
      K.lift (iunlock ip)
      K.lift (iput (← cwd p))
      setCwd p (some ip)
      return 0

/-- `sys_pipe`; `copied`: the descriptors could be copied out. -/
def sys_pipe (p : PPtr) (page : Option ℕ) (copied : Bool) : KM ℤ := do
  match ← pipealloc page with
  | none => return -1
  | some (rf, wf) =>
    match ← fdalloc p rf with
    | none =>
      fileclose rf
      fileclose wf
      return -1
    | some fd0 =>
      match ← fdalloc p wf with
      | none =>
        setOfile p fd0 none
        fileclose rf
        fileclose wf
        return -1
      | some fd1 =>
        if copied then return 0
        setOfile p fd0 none
        setOfile p fd1 none
        fileclose rf
        fileclose wf
        return -1

/-! ### `exec.c` -/

abbrev PGSIZE : ℕ := 4096

/-- The little-endian number in `m` bytes from `o` on. -/
def leAt (xs : List UInt8) (o m : ℕ) : ℕ := ((xs.drop o).take m).foldr (fun b n => b.toNat + 256 * n) 0

/-- `readi` of a header into kernel memory, `none` if it is not all there. -/
def readHeader (ip : IPtr) (off size : ℕ) : M (Option (List UInt8)) := do
  let (r, out) ← readi ip (fun _ => true) off size
  return if r = size then some out else none

/-- Load a program segment; its pages are there. -/
def loadsegLoop (ip : IPtr) (offset sz : ℕ) : ℕ → ℕ → M Bool
  | 0, _ => return true
  | rounds + 1, i => do
    if i < sz then
      let n := min (sz - i) PGSIZE
      let (r, _) ← readi ip (fun _ => true) ((offset + i) % 2 ^ 32) n
      if r = n then loadsegLoop ip offset sz rounds (i + PGSIZE)
      else return false
    else return true

/-- `exec`'s loop over the program headers, the next one at `off`; `mem j`: request `j` for memory is granted. -/
def loadProgram (ip : IPtr) (mem : ℕ → Bool) : ℕ → ℕ → ℕ → M Bool
  | 0, _, _ => return true
  | rounds + 1, off, j => do
    match ← readHeader ip (off % 2 ^ 32) 56 with
    | none => return false
    | some ph =>
      let (filesz, memsz, vaddr) := (leAt ph 32 8, leAt ph 40 8, leAt ph 16 8)
      if leAt ph 0 4 ≠ 1 then loadProgram ip mem rounds (off + 56) j
      else if memsz < filesz ∨ (vaddr + memsz) % 2 ^ 64 < vaddr ∨ vaddr % PGSIZE ≠ 0 ∨ mem j = false then return false
      else
        let ok ← loadsegLoop ip (leAt ph 8 8 % 2 ^ 32) (filesz % 2 ^ 32) (filesz % 2 ^ 32 / PGSIZE + 1) 0
        if ok then loadProgram ip mem rounds (off + 56) (j + 1)
        else return false

/-- `exec` up to the end of the transaction: is the image loaded? -/
def loadImage (ip : IPtr) (mem : ℕ → Bool) : M Bool := do
  match ← readHeader ip 0 64 with
  | none => return false
  | some elf =>
    if leAt elf 0 4 ≠ 0x464C457F ∨ mem 0 = false then return false
    else loadProgram ip mem (leAt elf 56 2) (leAt elf 32 8) 1

/-- `exec` as far as inodes go; `stack`: the stack could be allocated and the arguments pushed. -/
def exec (cwd : IPtr) (path : Str) (mem : ℕ → Bool) (stack : Bool) : M ℤ := do
  match ← namei cwd path with
  | none => return -1
  | some ip =>
    ilock ip
    let ok ← loadImage ip mem
    iunlockput ip
    return if ok ∧ stack then 0 else -1

def sys_exec (p : PPtr) (path : Option Str) (mem : ℕ → Bool) (stack : Bool) : KM ℤ := do
  match argstr path with
  | none => return -1
  | some path => K.lift (exec (← cwd p) path mem stack)

/-! ### `proc.c` -/

/-- `fork` duplicates the open files of `p`. -/
def dupAll (p np : PPtr) : List (Fin NOFILE) → KM Unit
  | [] => return ()
  | fd :: fds => do
    match (← proc p).ofile fd with
    | some f =>
      filedup f
      setOfile np fd (some f)
    | none => pure ()
    dupAll p np fds

/-- Create a new process, in the first slot that is free; `memory`: there was enough. The slot stands for the pid. -/
def fork (p : PPtr) (memory : Bool) : KM ℤ := do
  let s ← Prog.get
  match (List.finRange NPROC).find? fun q => (s.proc q).state = .unused with
  | none => return -1
  | some np =>
    if memory then
      dupAll p np (List.finRange NOFILE)
      let k ← K.lift (idup (← cwd p))
      setCwd np (some k)
      setState np .used
      return np.val
    else return -1

/-- `exit` closes all open files of `p`. -/
def closeAll (p : PPtr) : List (Fin NOFILE) → KM Unit
  | [] => return ()
  | fd :: fds => do
    match (← proc p).ofile fd with
    | some f =>
      fileclose f
      setOfile p fd none
    | none => pure ()
    closeAll p fds

/-- The first process. -/
abbrev initproc : PPtr := 0

def exit (p : PPtr) : KM ℤ := do
  if p = initproc then Prog.fail .initExiting
  closeAll p (List.finRange NOFILE)
  K.lift (iput (← cwd p))
  setCwd p none
  setState p .zombie
  return 0

/-- `wait` finds the exited child `c`; `copied`: its status could be copied out. -/
def wait (c : PPtr) (copied : Bool) : KM ℤ := do
  if copied then
    setState c .unused
    return c.val
  else return -1

/-! ### Runs -/

inductive Syscall where
  | fork (memory : Bool)
  | exit
  | wait (c : PPtr) (copied : Bool)
  | pipe (page : Option ℕ) (copied : Bool)
  | read (fd : ℤ) (dst : ℕ → Bool) (n : Int32) (r : ℤ)
  | exec (path : Option Str) (mem : ℕ → Bool) (stack : Bool)
  | fstat (fd : ℤ) (mapped : Bool)
  | chdir (path : Option Str)
  | dup (fd : ℤ)
  | open (path : Option Str) (omode : UInt32)
  | write (fd : ℤ) (src : ℕ → Option UInt8) (n : Int32) (r : ℤ)
  | mknod (path : Option Str) (major minor : ℕ)
  | unlink (path : Option Str)
  | link (old new : Option Str)
  | mkdir (path : Option Str)
  | close (fd : ℤ)

def Syscall.run (p : PPtr) : Syscall → KM ℤ
  | .fork memory => Sysfile.fork p memory
  | .exit => Sysfile.exit p
  | .wait c copied => Sysfile.wait c copied
  | .pipe page copied => sys_pipe p page copied
  | .read fd dst n r => sys_read p fd dst n r
  | .exec path mem stack => sys_exec p path mem stack
  | .fstat fd mapped => sys_fstat p fd mapped
  | .chdir path => sys_chdir p path
  | .dup fd => sys_dup p fd
  | .open path omode => sys_open p path omode
  | .write fd src n r => sys_write p fd src n r
  | .mknod path major minor => sys_mknod p path major minor
  | .unlink path => sys_unlink p path
  | .link old new => sys_link p old new
  | .mkdir path => sys_mkdir p path
  | .close fd => sys_close p fd

/-- What happens next: a process makes a system call, or a buffer is recycled. -/
inductive Event where
  | call (p : PPtr) (c : Syscall)
  | evict (b : ℕ)

/-- `wait` returns for a child that has exited; `kalloc` gives a page that is not a pipe already. -/
def Syscall.Ok (s : K) : Syscall → Prop
  | .wait c _ => (s.proc c).state = .zombie
  | .pipe page _ => ∀ a ∈ page, s.pipe a = none
  | _ => True

instance (s : K) : ∀ c : Syscall, Decidable (c.Ok s)
  | .wait c _ => inferInstanceAs (Decidable ((s.proc c).state = .zombie))
  | .pipe page _ => inferInstanceAs (Decidable (∀ a ∈ page, s.pipe a = none))
  | .fork _ | .exit | .read _ _ _ _ | .exec _ _ _ | .fstat _ _ | .chdir _ | .dup _ | .open _ _ | .write _ _ _ _
  | .mknod _ _ _ | .unlink _ | .link _ _ | .mkdir _ | .close _ => .isTrue trivial

/-- Process `p` can make the call. -/
def Calls (s : K) (p : PPtr) (c : Syscall) : Prop := (s.proc p).state = .used ∧ c.Ok s

instance (s : K) (p : PPtr) (c : Syscall) : Decidable (Calls s p c) := inferInstanceAs (Decidable (_ ∧ _))

/-- A panic ends a run. -/
def step (s : K) : Event → Option K
  | .call p c => if Calls s p c then (c.run p).after s else none
  | .evict b => some { s with fs := s.fs.evict b }

/-- A process slot that was never used. -/
def Proc.zero : Proc := ⟨.unused, none, fun _ => none⟩

/-- A file structure that was never used. -/
def File.zero : File := ⟨.none, 0, false, false, 0, 0, 0, 0⟩

def K.zero (s : FS) : K := ⟨s, fun _ => .zero, fun _ => .zero, fun _ => none⟩

/-- The path `/`. -/
def rootPath : Str := ⟨[SLASH], by decide⟩

/-- The first process starts in the root directory. -/
def userinit : KM Unit := do
  let ip ← K.lift (namei 0 rootPath)
  setCwd initproc ip
  setState initproc .used

def boot (s : FS) : Option K := userinit.after (.zero s)

end Minios.Sysfile
