import Minios.Schemes.Run

/-! `kernel/pipe.c`: one pipe under every interleaving.

    Readers, writers and closers share the pipe under `pi->lock`, and sleep on `&pi->nread` or
    `&pi->nwrite` with `sleep` and `wakeup` of `kernel/proc.c`. A process goes through

        acquire ──▶ run ──▶ wakeup(chan): proc[0], proc[1], ... ──▶ run ──▶ idle
                     │ sleep(chan, &pi->lock)
                     ▼
                  dozing ──▶ asleep ──wakeup, kill──▶ acquire

    A step is what is done under one `p->lock`, or one round of a loop, so `kill`, which does not take
    `pi->lock`, may fall between any two rounds. While `dozing`, a process has given up `pi->lock` and
    holds its own `p->lock`: `wakeup` and `kill` wait for it. `nproc` is the size of `proc[]`. -/

namespace Minios.Pipes
open Schemes Function

abbrev PIPESIZE : ℕ := 512

/-- `struct pipe` without its lock. -/
structure Pipe where
  data : ℕ → UInt8
  nread : BitVec 32
  nwrite : BitVec 32
  readopen : Bool
  writeopen : Bool

/-- As `pipealloc` leaves it. -/
def Pipe.init (data : ℕ → UInt8) : Pipe where
  data := data
  nread := 0
  nwrite := 0
  readopen := true
  writeopen := true

/-- `pi->nwrite == pi->nread + PIPESIZE` -/
def Pipe.full (pi : Pipe) : Bool := pi.nwrite = pi.nread + BitVec.ofNat 32 PIPESIZE

/-- `pi->nread == pi->nwrite` -/
def Pipe.empty (pi : Pipe) : Bool := pi.nread = pi.nwrite

/-- `pi->data[pi->nwrite++ % PIPESIZE] = ch` -/
def Pipe.put (pi : Pipe) (ch : UInt8) : Pipe :=
  { pi with data := update pi.data (pi.nwrite.toNat % PIPESIZE) ch, nwrite := pi.nwrite + 1 }

/-- `pi->data[pi->nread % PIPESIZE]` -/
def Pipe.head (pi : Pipe) : UInt8 := pi.data (pi.nread.toNat % PIPESIZE)

/-- `pi->nread++` -/
def Pipe.take (pi : Pipe) : Pipe := { pi with nread := pi.nread + 1 }

/-- `pi->writeopen = 0` or `pi->readopen = 0` -/
def Pipe.shut (pi : Pipe) (writable : Bool) : Pipe :=
  if writable then { pi with writeopen := false } else { pi with readopen := false }

/-- The channels: `&pi->nread` for readers, `&pi->nwrite` for writers. -/
inductive Chan where | nread | nwrite
  deriving DecidableEq

/-- The two calls of `sleep`: in `pipewrite` with `i` bytes written, and in `piperead`. -/
inductive Sleep where
  | write (i : ℕ)
  | read
  deriving DecidableEq

/-- What the holder of `pi->lock` does next: the top of `pipewrite`'s loop with `i` bytes written, of
    `piperead`'s first loop, of its second loop with `i` bytes read, the body of `pipeclose`, a call
    of `sleep`, or `release` and return. -/
inductive Next where
  | write (i : ℕ)
  | read
  | copy (i : ℕ)
  | close (writable : Bool)
  | sleep (z : Sleep)
  | ret (r : ℤ)
  deriving DecidableEq

def Sleep.chan : Sleep → Chan
  | .write _ => .nwrite
  | .read => .nread

/-- What `pi->lock` is acquired for: `pipewrite`'s loop, at first or after `sleep`, `piperead`'s first
    loop, or `pipeclose`. -/
inductive Entry where
  | write (i : ℕ)
  | read
  | close (writable : Bool)
  deriving DecidableEq

def Entry.next : Entry → Next
  | .write i => .write i
  | .read => .read
  | .close writable => .close writable

/-- Where a process goes on after `sleep`. -/
def Sleep.entry : Sleep → Entry
  | .write i => .write i
  | .read => .read

inductive Pc where
  | idle
  | acquire (e : Entry)
  | run (k : Next)
  | wakeup (c : Chan) (j : ℕ) (k : Next)
  | dozing (z : Sleep)
  | asleep (z : Sleep)
  deriving DecidableEq

inductive Op where | write | read | close
  deriving DecidableEq

/-- A process: its flag `killed`, its call on the pipe and the arguments of it. `src` has the bytes of
    a writer's buffer and `dst` says which bytes of a reader's buffer are writable. -/
structure Proc where
  killed : Bool
  pc : Pc
  op : Op
  n : ℤ
  src : ℕ → Option UInt8
  dst : ℕ → Bool

structure Sys where
  pipe : Pipe
  lock : Option ℕ
  proc : ℕ → Proc

def Sys.init (data : ℕ → UInt8) : Sys where
  pipe := .init data
  lock := none
  proc := fun _ => { killed := false, pc := .idle, op := .read, n := 0, src := fun _ => none, dst := fun _ => false }

def Proc.at (pr : Proc) (pc : Pc) : Proc := { pr with pc := pc }

def Sys.setLock (s : Sys) (lock : Option ℕ) : Sys := { s with lock := lock }

def Sys.setPipe (s : Sys) (pi : Pipe) : Sys := { s with pipe := pi }

@[simp] theorem Sys.setLock_pipe (s : Sys) (lock : Option ℕ) : (s.setLock lock).pipe = s.pipe := rfl

@[simp] theorem Sys.setPipe_pipe (s : Sys) (pi : Pipe) : (s.setPipe pi).pipe = pi := rfl

/-- A call starts. -/
def Proc.begin (pr : Proc) (op : Op) (n : ℤ) (src : ℕ → Option UInt8) (dst : ℕ → Bool) (e : Entry) : Proc :=
  { pr with pc := .acquire e, op := op, n := n, src := src, dst := dst }

def Sys.setProc (s : Sys) (p : ℕ) (pr : Proc) : Sys := { s with proc := update s.proc p pr }

def Sys.setPc (s : Sys) (p : ℕ) (pc : Pc) : Sys := s.setProc p ((s.proc p).at pc)

@[simp] theorem Sys.setProc_self (s : Sys) (p : ℕ) (pr : Proc) : (s.setProc p pr).proc p = pr := update_self ..

theorem Sys.setProc_ne (s : Sys) {p q : ℕ} (h : q ≠ p) (pr : Proc) : (s.setProc p pr).proc q = s.proc q :=
  update_of_ne h ..

@[simp] theorem Sys.setPc_self (s : Sys) (p : ℕ) (pc : Pc) : (s.setPc p pc).proc p = (s.proc p).at pc :=
  update_self ..

theorem Sys.setPc_ne (s : Sys) {p q : ℕ} (h : q ≠ p) (pc : Pc) : (s.setPc p pc).proc q = s.proc q := update_of_ne h ..

@[simp] theorem Sys.setProc_pipe (s : Sys) (p : ℕ) (pr : Proc) : (s.setProc p pr).pipe = s.pipe := rfl

@[simp] theorem Sys.setPc_pipe (s : Sys) (p : ℕ) (pc : Pc) : (s.setPc p pc).pipe = s.pipe := rfl

/-- `if(p->state == SLEEPING && p->chan == chan) p->state = RUNNABLE;` The process goes on in `sleep`
    and has to acquire `pi->lock` again. -/
def Pc.wake (c : Chan) : Pc → Pc
  | .asleep z => if z.chan = c then .acquire z.entry else .asleep z
  | pc => pc

/-- `p->killed = 1;` and wake it if it sleeps. -/
def Proc.kill (pr : Proc) : Proc :=
  { pr with killed := true, pc := match pr.pc with | .asleep z => .acquire z.entry | pc => pc }

/-- Does the process hold its own `p->lock`? -/
def Pc.isDozing : Pc → Bool
  | .dozing _ => true
  | _ => false

/-- One round of `pipewrite`'s loop. -/
def writeRound (s : Sys) (p i : ℕ) : Sys :=
  if i < (s.proc p).n then
    if s.pipe.readopen = false ∨ (s.proc p).killed then s.setPc p (.run (.ret (-1)))
    else if s.pipe.full then s.setPc p (.wakeup .nread 0 (.sleep (.write i)))
    else match (s.proc p).src i with
      | none => s.setPc p (.wakeup .nread 0 (.ret i))
      | some ch => (s.setPipe (s.pipe.put ch)).setPc p (.run (.write (i + 1)))
  else s.setPc p (.wakeup .nread 0 (.ret i))

/-- One round of `piperead`'s first loop. -/
def readRound (s : Sys) (p : ℕ) : Sys :=
  if s.pipe.empty ∧ s.pipe.writeopen then
    if (s.proc p).killed then s.setPc p (.run (.ret (-1)))
    else s.setPc p (.run (.sleep .read))
  else s.setPc p (.run (.copy 0))

/-- One round of `piperead`'s second loop. -/
def copyRound (s : Sys) (p i : ℕ) : Sys :=
  if i < (s.proc p).n ∧ s.pipe.empty = false then
    if (s.proc p).dst i then (s.setPipe s.pipe.take).setPc p (.run (.copy (i + 1)))
    else (s.setPipe s.pipe.take).setPc p (.wakeup .nwrite 0 (.ret i))
  else s.setPc p (.wakeup .nwrite 0 (.ret i))

/-- What the holder of `pi->lock` does. -/
def Sys.exec (s : Sys) (p : ℕ) : Next → Sys
  | .write i => writeRound s p i
  | .read => readRound s p
  | .copy i => copyRound s p i
  | .close writable =>
    (s.setPipe (s.pipe.shut writable)).setPc p (.wakeup (if writable then .nread else .nwrite) 0 (.ret 0))
  | .sleep z => (s.setLock none).setPc p (.dozing z)
  | .ret _ => (s.setLock none).setPc p .idle

inductive Label where
  | write (p : ℕ) (n : ℤ) (src : ℕ → Option UInt8)
  | read (p : ℕ) (n : ℤ) (dst : ℕ → Bool)
  | close (p : ℕ) (writable : Bool)
  | kill (p : ℕ)
  | move (p : ℕ)

/-- The next step of process `p` in the kernel. -/
def move (nproc : ℕ) (s : Sys) (p : ℕ) : Option Sys := match (s.proc p).pc with
  | .idle => none
  | .acquire e => if s.lock = none then some ((s.setLock (some p)).setPc p (.run e.next)) else none
  | .run k => some (s.exec p k)
  | .wakeup c j k =>
    if j < nproc then
      if j = p then some (s.setPc p (.wakeup c (j + 1) k))
      else if (s.proc j).pc.isDozing then none
      else some ((s.setPc j ((s.proc j).pc.wake c)).setPc p (.wakeup c (j + 1) k))
    else some (s.setPc p (.run k))
  | .dozing z => some (s.setPc p (.asleep z))
  | .asleep _ => none

/-- One step of the whole system: a call starts, some process is killed, or a process moves. -/
def step (nproc : ℕ) (s : Sys) : Label → Option Sys
  | .write p n src =>
    if p < nproc ∧ (s.proc p).pc = .idle then
      some (s.setProc p ((s.proc p).begin .write n src (fun _ => false) (.write 0)))
    else none
  | .read p n dst =>
    if p < nproc ∧ (s.proc p).pc = .idle then
      some (s.setProc p ((s.proc p).begin .read n (fun _ => none) dst .read))
    else none
  | .close p writable =>
    if p < nproc ∧ (s.proc p).pc = .idle then
      some (s.setProc p ((s.proc p).begin .close 0 (fun _ => none) (fun _ => false) (.close writable)))
    else none
  | .kill p =>
    if p < nproc ∧ (s.proc p).pc.isDozing = false then
      some (s.setProc p (s.proc p).kill)
    else none
  | .move p => if p < nproc then move nproc s p else none

end Minios.Pipes
