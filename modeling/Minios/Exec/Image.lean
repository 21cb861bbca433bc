import Minios.Sysfile.Calls
import Minios.Vm.Process

/-! `kernel/exec.c`.

        namei, ilock ──▶ ELF header ──▶ proc_pagetable ──▶ segments ──▶ iunlockput ──▶ stack ──▶ arguments ──▶ COMMIT
                             │                │                │                         │           │
                             └────────────────┴───── bad ──────┴─────────────────────────┴───────────┘

    A program over the file system, memory and what `struct proc` has of a process image. `exec` runs alone. The
    arguments are the strings `sys_exec` copied in; `outstanding` counts the transactions that are open. -/

namespace Minios.Exec
open Schemes Function Fs Vm
open Sysfile (leAt readHeader)

abbrev MAXARG : ℕ := 32

abbrev ELF_MAGIC : ℕ := 0x464C457F

abbrev ELF_PROG_LOAD : ℕ := 1

/-- What `exec` uses of `struct proc`; `name` without the NUL. -/
structure Proc where
  pagetable : Frame
  sz : Word
  trapframe : Frame
  cwd : IPtr
  name : List UInt8

structure Kernel where
  fs : FS
  vm : Machine
  outstanding : ℕ
  proc : Proc

/-- A panic, or a write past the end of `ustack`. -/
inductive Crash where
  | fs (e : Fs.Panic)
  | vm (e : Vm.Panic)
  | ustack
  deriving DecidableEq

abbrev KM := Prog Kernel Crash

def Kernel.setFs (s : Kernel) (fs : FS) : Kernel := { s with fs := fs }

def Kernel.setVm (s : Kernel) (vm : Machine) : Kernel := { s with vm := vm }

def onFs {α : Type} (m : Fs.M α) : KM α := m.zoom Kernel.fs Kernel.setFs .fs

def onVm {α : Type} (m : VM α) : KM α := m.zoom Kernel.vm Kernel.setVm .vm

def begin_op : KM Unit := Prog.modify fun s => { s with outstanding := s.outstanding + 1 }

def end_op : KM Unit := Prog.modify fun s => { s with outstanding := s.outstanding - 1 }

/-! ### ELF -/

/-- `struct elfhdr`, as far as `exec` looks at it. -/
structure Elfhdr where
  magic : ℕ
  entry : Word
  phoff : Word
  phnum : ℕ

def Elfhdr.size : ℕ := 64

def Elfhdr.read (xs : List UInt8) : Elfhdr :=
  ⟨leAt xs 0 4, BitVec.ofNat 64 (leAt xs 24 8), BitVec.ofNat 64 (leAt xs 32 8), leAt xs 56 2⟩

/-- `struct proghdr`, as far as `exec` looks at it. -/
structure Proghdr where
  type : ℕ
  flags : ℕ
  off : Word
  vaddr : Word
  filesz : Word
  memsz : Word

def Proghdr.size : ℕ := 56

def Proghdr.read (xs : List UInt8) : Proghdr :=
  ⟨leAt xs 0 4, leAt xs 4 4, BitVec.ofNat 64 (leAt xs 8 8), BitVec.ofNat 64 (leAt xs 16 8),
    BitVec.ofNat 64 (leAt xs 32 8), BitVec.ofNat 64 (leAt xs 40 8)⟩

def flags2perm (flags : ℕ) : Word :=
  (if flags.testBit 0 then PTE_X else 0) ||| (if flags.testBit 1 then PTE_W else 0)

/-! ### Loading -/

/-- `i`, `offset` and `sz` are of 32 bits; the page at `pa` is written by `readi`. -/
def loadsegLoop (pagetable : Frame) (va : Word) (ip : IPtr) (offset sz : ℕ) : ℕ → ℕ → KM Bool
  | 0, _ => Prog.fail (.vm .hang)
  | rounds + 1, i => do
    if i < sz then
      let pa ← onVm (walkaddr pagetable (va + BitVec.ofNat 64 i))
      if pa = 0 then Prog.fail (.vm .loadseg)
      let n := min (sz - i) 4096
      let (r, bytes) ← onFs (readi ip (fun _ => true) ((offset + i) % 2 ^ 32) n)
      onVm (memmove (frame pa) 0 bytes)
      if r ≠ n then return false
      loadsegLoop pagetable va ip offset sz rounds ((i + 4096) % 2 ^ 32)
    else return true

/-- Load a program segment into `pagetable` at virtual address `va`. -/
def loadseg (pagetable : Frame) (va : Word) (ip : IPtr) (offset sz : ℕ) : KM Bool :=
  loadsegLoop pagetable va ip offset sz (sz / 4096 + 2) 0

/-- Load program into memory: whether that went through, and the size reached. `off` is an int. -/
def loadProgram (ip : IPtr) (pagetable : Frame) : ℕ → ℕ → Word → KM (Bool × Word)
  | 0, _, sz => return (true, sz)
  | phnum + 1, off, sz => do
    match ← onFs (readHeader ip off Proghdr.size) with
    | none => return (false, sz)
    | some bytes =>
      let ph := Proghdr.read bytes
      if ph.type ≠ ELF_PROG_LOAD then loadProgram ip pagetable phnum ((off + Proghdr.size) % 2 ^ 32) sz
      else if ph.memsz < ph.filesz then return (false, sz)
      else if ph.vaddr + ph.memsz < ph.vaddr then return (false, sz)
      else if ph.vaddr % PGSIZE ≠ 0 then return (false, sz)
      else
        let sz1 ← onVm (uvmalloc pagetable sz (ph.vaddr + ph.memsz) (flags2perm ph.flags))
        if sz1 = 0 then return (false, sz)
        else if ← loadseg pagetable ph.vaddr ip (ph.off.toNat % 2 ^ 32) (ph.filesz.toNat % 2 ^ 32) then
          loadProgram ip pagetable phnum ((off + Proghdr.size) % 2 ^ 32) sz1
        else return (false, sz1)

/-- `goto bad`. -/
def bad (pagetable : Option Frame) (sz : Word) (ip : Option IPtr) : KM ℤ := do
  if let some pagetable := pagetable then onVm (proc_freepagetable pagetable sz)
  if let some ip := ip then
    onFs (iunlockput ip)
    end_op
  return -1

/-! ### The stack -/

/-- Push argument strings; `ustack` has their addresses so far, so its length is `argc`. Nothing if they do not fit. -/
def pushArgs (pagetable : Frame) (stackbase : Word) : List Str → Word → List Word → KM (Option (Word × List Word))
  | [], sp, ustack => do
    if ustack.length ≥ MAXARG then Prog.fail .ustack
    return some (sp, ustack ++ [0])
  | arg :: argv, sp, ustack => do
    if ustack.length ≥ MAXARG then return none
    let sp := sp - BitVec.ofNat 64 (arg.bytes.length + 1)
    let sp := sp - sp % 16 -- riscv sp must be 16-byte aligned
    if sp < stackbase then return none
    if (← onVm (copyout pagetable sp (arg.bytes ++ [0]))) < 0 then return none
    pushArgs pagetable stackbase argv sp (ustack ++ [sp])

/-- The bytes of a word in memory. -/
def wordBytes (w : Word) : List UInt8 := (List.range 8).map fun i => UInt8.ofNat (w.toNat / 256 ^ i)

/-- Push the array of `argv[]` pointers: the stack pointer, if there is room. -/
def pushUstack (pagetable : Frame) (stackbase sp : Word) (ustack : List Word) : KM (Option Word) := do
  let sp := sp - BitVec.ofNat 64 (ustack.length * 8)
  let sp := sp - sp % 16
  if sp < stackbase then return none
  if (← onVm (copyout pagetable sp (ustack.flatMap wordBytes))) < 0 then return none
  return some sp

/-! ### `exec` -/

/-- Offsets in `struct trapframe`. -/
abbrev EPC : ℕ := 24

abbrev SP : ℕ := 48

abbrev A1 : ℕ := 120

/-- A field of the trapframe. -/
def setTrapframe (off : ℕ) (w : Word) : KM Unit := do
  let trapframe := (← Prog.get).proc.trapframe
  onVm (Prog.modify fun m => m.setMem (update m.mem trapframe (setLE (m.mem trapframe) off 8 w.toNat)))

/-- Program name for debugging: what follows the last slash, in 16 bytes with its NUL. -/
def lastElem (path : Str) : List UInt8 := (path.bytes.rtakeWhile (· ≠ SLASH)).take 15

/-- Commit to the user image. -/
def commit (path : Str) (entry : Word) (pagetable : Frame) (sz sp oldsz : Word) : KM Unit := do
  setTrapframe A1 sp
  Prog.modify fun s => { s with proc := { s.proc with name := lastElem path } }
  let oldpagetable := (← Prog.get).proc.pagetable
  Prog.modify fun s => { s with proc := { s.proc with pagetable := pagetable, sz := sz } }
  setTrapframe EPC entry
  setTrapframe SP sp
  onVm (proc_freepagetable oldpagetable oldsz)

/-- `exec` after the transaction: two pages for the stack, the lower one a guard; the arguments; the new image. -/
def start (path : Str) (argv : List Str) (entry : Word) (pagetable : Frame) (sz : Word) : KM ℤ := do
  let oldsz := (← Prog.get).proc.sz
  let sz := PGROUNDUP sz
  let sz1 ← onVm (uvmalloc pagetable sz (sz + 2 * PGSIZE) PTE_W)
  if sz1 = 0 then bad (some pagetable) sz none
  else
    let sz := sz1
    onVm (uvmclear pagetable (sz - 2 * PGSIZE))
    let stackbase := sz - PGSIZE
    match ← pushArgs pagetable stackbase argv sz [] with
    | none => bad (some pagetable) sz none
    | some (sp, ustack) =>
      match ← pushUstack pagetable stackbase sp ustack with
      | none => bad (some pagetable) sz none
      | some sp =>
        commit path entry pagetable sz sp oldsz
        return argv.length

/-- `exec` with the file locked. -/
def load (path : Str) (argv : List Str) (ip : IPtr) : KM ℤ := do
  match ← onFs (readHeader ip 0 Elfhdr.size) with
  | none => bad none 0 (some ip)
  | some bytes =>
    let elf := Elfhdr.read bytes
    if elf.magic ≠ ELF_MAGIC then bad none 0 (some ip)
    else match ← onVm (proc_pagetable (← Prog.get).proc.trapframe) with
      | none => bad none 0 (some ip)
      | some pagetable =>
        let (ok, sz) ← loadProgram ip pagetable elf.phnum (elf.phoff.toNat % 2 ^ 32) 0
        if ok then
          onFs (iunlockput ip)
          end_op
          start path argv elf.entry pagetable sz
        else bad (some pagetable) sz (some ip)

/-- Find the file and lock it. -/
def openImage (cwd : IPtr) (path : Str) : Fs.M (Option IPtr) := do
  match ← namei cwd path with
  | none => return none
  | some ip =>
    ilock ip
    return some ip

def exec (path : Str) (argv : List Str) : KM ℤ := do
  begin_op
  match ← onFs (openImage (← Prog.get).proc.cwd path) with
  | none =>
    end_op
    return -1
  | some ip => load path argv ip

end Minios.Exec
