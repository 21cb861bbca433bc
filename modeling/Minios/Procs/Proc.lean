import Minios.Schemes.Run

/-! `kernel/proc.c`: the process table under every interleaving.

    `fork`, `exit`, `wait`, `kill`, `sleep` and `wakeup` of any number of processes. A step is one
    critical section: what is done under one `p->lock`, or, for the holder of `wait_lock`, one round
    of a loop.

        fork   allocproc ─▶ forkCopy ─▶ forkParent ─▶ forkRun ─▶ user
        exit   exitLock ─▶ reparent ⇄ wakeInit ─▶ wakeParent ─▶ zombie ─▶ exited
        wait   waitLock ─▶ scan ─▶ waitSleep ─▶ dozing ─▶ asleep ─▶ waitLock
        kill   kill pid 0 ─▶ kill pid 1 ─▶ ...

    Two of these points hold a `p->lock` from one step to the next: `forkCopy` that of the new
    process, and `dozing`, inside `sleep`, its own. `lock` says who does. `nproc` is the size of
    `proc[]`; slot 0 is `initproc`. -/

namespace Minios.Procs
open Schemes Function

abbrev NOFILE : ℕ := 16

inductive PState where | UNUSED | USED | SLEEPING | RUNNABLE | RUNNING | ZOMBIE
  deriving DecidableEq

/-- What a process sleeps on: a process in `wait` on itself, or anything else. -/
inductive Chan where
  | proc (q : ℕ)
  | other (c : ℕ)
  deriving DecidableEq

/-- `struct proc` without memory and context. -/
structure Proc where
  lock : Option ℕ
  state : PState
  chan : Option Chan
  killed : Bool
  xstate : BitVec 32
  pid : BitVec 32
  parent : Option ℕ
  sz : ℕ
  ofile : Fin NOFILE → Option ℕ
  cwd : Option ℕ
  traceMask : BitVec 32

/-- Static storage is zero. -/
def Proc.zero : Proc where
  lock := none
  state := .UNUSED
  chan := none
  killed := false
  xstate := 0
  pid := 0
  parent := none
  sz := 0
  ofile := fun _ => none
  cwd := none
  traceMask := 0

def Proc.setLock (pr : Proc) (lock : Option ℕ) : Proc := { pr with lock := lock }

def Proc.setState (pr : Proc) (state : PState) : Proc := { pr with state := state }

def Proc.setChan (pr : Proc) (chan : Option Chan) : Proc := { pr with chan := chan }

def Proc.setParent (pr : Proc) (parent : Option ℕ) : Proc := { pr with parent := parent }

def Proc.setSz (pr : Proc) (sz : ℕ) : Proc := { pr with sz := sz }

def Proc.setFiles (pr : Proc) (ofile : Fin NOFILE → Option ℕ) (cwd : Option ℕ) : Proc :=
  { pr with ofile := ofile, cwd := cwd }

def Proc.setMask (pr : Proc) (mask : BitVec 32) : Proc := { pr with traceMask := mask }

/-- `p->pid = allocpid(); p->state = USED;` in `allocproc`. -/
def Proc.alloc (pr : Proc) (pid : BitVec 32) : Proc := { pr with pid := pid, state := .USED }

def Proc.freeproc (pr : Proc) : Proc :=
  { pr with sz := 0, pid := 0, parent := none, chan := none, killed := false, xstate := 0, traceMask := 0,
            state := .UNUSED }

/-- What `fork` copies from the parent. -/
def Proc.copy (np p : Proc) : Proc :=
  { np with sz := p.sz, ofile := p.ofile, cwd := p.cwd, traceMask := p.traceMask }

/-- `if(p->state == SLEEPING && p->chan == chan) p->state = RUNNABLE;` -/
def Proc.wakeup (pr : Proc) (chan : Option Chan) : Proc :=
  if pr.state = .SLEEPING ∧ pr.chan = chan then pr.setState .RUNNABLE else pr

/-- `p->killed = 1; if(p->state == SLEEPING) p->state = RUNNABLE;` -/
def Proc.kill (pr : Proc) : Proc :=
  { pr with killed := true, state := if pr.state = .SLEEPING then .RUNNABLE else pr.state }

/-- `p->xstate = status; p->state = ZOMBIE;` -/
def Proc.exit (pr : Proc) (status : BitVec 32) : Proc := { pr with xstate := status, state := .ZOMBIE }

/-- Where a process is in the kernel. -/
inductive Pc where
  | user
  | forkCopy (np : ℕ)
  | forkParent (np : ℕ)
  | forkRun (np : ℕ)
  | exitLock (status : BitVec 32)
  | reparent (status : BitVec 32) (j : ℕ)
  | wakeInit (status : BitVec 32) (j i : ℕ)
  | wakeParent (status : BitVec 32) (i : ℕ)
  | zombie (status : BitVec 32)
  | exited
  | waitLock
  | scan (j : ℕ) (havekids : Bool)
  | waitSleep
  | dozing
  | asleep
  | napping
  | kill (pid : BitVec 32) (j : ℕ)
  deriving DecidableEq

structure Sys where
  proc : ℕ → Proc
  pc : ℕ → Pc
  waitLock : Option ℕ
  nextpid : BitVec 32

abbrev initproc : ℕ := 0

/-- After `userinit`. -/
def Sys.init : Sys where
  proc := update (fun _ => .zero) initproc
    (((Proc.zero.alloc 1).setSz 4096).setFiles (fun _ => none) (some 0) |>.setState .RUNNABLE)
  pc := fun _ => .user
  waitLock := none
  nextpid := 2

def Sys.setProc (s : Sys) (q : ℕ) (pr : Proc) : Sys := { s with proc := update s.proc q pr }

def Sys.setPc (s : Sys) (p : ℕ) (pc : Pc) : Sys := { s with pc := update s.pc p pc }

theorem Sys.setProc_self (s : Sys) (q : ℕ) (pr : Proc) : (s.setProc q pr).proc q = pr := update_self ..

theorem Sys.setProc_ne (s : Sys) {q r : ℕ} (h : r ≠ q) (pr : Proc) : (s.setProc q pr).proc r = s.proc r :=
  update_of_ne h ..

theorem Sys.setPc_self (s : Sys) (p : ℕ) (pc : Pc) : (s.setPc p pc).pc p = pc := update_self ..

theorem Sys.setPc_ne (s : Sys) {p r : ℕ} (h : r ≠ p) (pc : Pc) : (s.setPc p pc).pc r = s.pc r :=
  update_of_ne h ..

theorem Sys.setProc_same (s : Sys) (q : ℕ) : s.setProc q (s.proc q) = s := by
  rw [Sys.setProc, update_eq_self]

def Sys.setWait (s : Sys) (lock : Option ℕ) : Sys := { s with waitLock := lock }

/-- `allocproc`, called by `p`, takes slot `q`: it returns with the lock of that slot. -/
def Sys.allocproc (s : Sys) (p q : ℕ) : Sys :=
  { s with proc := update s.proc q (((s.proc q).alloc s.nextpid).setLock (some p))
           pc := update (update s.pc q .user) p (.forkCopy q)
           nextpid := s.nextpid + 1 }

/-- `wakeup(chan)`, called by `p`, comes to slot `i`; `none` while the lock of that slot is taken. -/
def Sys.wakeAt (s : Sys) (p i : ℕ) (chan : Option Chan) : Option Sys :=
  if i = p then some s
  else if (s.proc i).lock = none then some (s.setProc i ((s.proc i).wakeup chan))
  else none

/-- The next step of the running process `p`. `ok` is the outcome of what may fail in it: memory for
    `fork`, or `copyout` of the exit status. -/
def move (nproc : ℕ) (s : Sys) (p : ℕ) (ok : Bool) : Option Sys := match s.pc p with
  | .user => none
  | .forkCopy q =>
    if ok then some ((s.setProc q (((s.proc q).copy (s.proc p)).setLock none)).setPc p (.forkParent q))
    else some ((s.setProc q ((s.proc q).freeproc.setLock none)).setPc p .user)
  | .forkParent q =>
    if s.waitLock = none then some ((s.setProc q ((s.proc q).setParent (some p))).setPc p (.forkRun q))
    else none
  | .forkRun q =>
    if (s.proc q).lock = none then some ((s.setProc q ((s.proc q).setState .RUNNABLE)).setPc p .user)
    else none
  | .exitLock status =>
    if s.waitLock = none then some ((s.setWait (some p)).setPc p (.reparent status 0)) else none
  | .reparent status j =>
    if j < nproc then
      if (s.proc j).parent = some p then
        some ((s.setProc j ((s.proc j).setParent (some initproc))).setPc p (.wakeInit status j 0))
      else some (s.setPc p (.reparent status (j + 1)))
    else some (s.setPc p (.wakeParent status 0))
  | .wakeInit status j i =>
    if i < nproc then
      (s.wakeAt p i (some (.proc initproc))).map fun t => t.setPc p (.wakeInit status j (i + 1))
    else some (s.setPc p (.reparent status (j + 1)))
  | .wakeParent status i =>
    if i < nproc then
      (s.wakeAt p i ((s.proc p).parent.map .proc)).map fun t => t.setPc p (.wakeParent status (i + 1))
    else some (s.setPc p (.zombie status))
  | .zombie status =>
    if (s.proc p).lock = none then
      some (((s.setProc p ((s.proc p).exit status)).setWait none).setPc p .exited)
    else none
  | .exited => none
  | .waitLock => if s.waitLock = none then some ((s.setWait (some p)).setPc p (.scan 0 false)) else none
  | .scan j havekids =>
    if j < nproc then
      if (s.proc j).parent = some p then
        if (s.proc j).lock = none then
          if (s.proc j).state = .ZOMBIE then
            if ok then some (((s.setProc j (s.proc j).freeproc).setWait none).setPc p .user)
            else some ((s.setWait none).setPc p .user)
          else some (s.setPc p (.scan (j + 1) true))
        else none
      else some (s.setPc p (.scan (j + 1) havekids))
    else if havekids = false ∨ (s.proc p).killed then some ((s.setWait none).setPc p .user)
    else some (s.setPc p .waitSleep)
  | .waitSleep =>
    if (s.proc p).lock = none then
      some (((s.setProc p ((s.proc p).setLock (some p))).setWait none).setPc p .dozing)
    else none
  | .dozing =>
    some ((s.setProc p ((((s.proc p).setChan (some (.proc p))).setState .SLEEPING).setLock none)).setPc p .asleep)
  | .asleep => some ((s.setProc p ((s.proc p).setChan none)).setPc p .waitLock)
  | .napping => some ((s.setProc p ((s.proc p).setChan none)).setPc p .user)
  | .kill pid j =>
    if j < nproc then
      if (s.proc j).lock = none then
        if (s.proc j).pid = pid then some ((s.setProc j (s.proc j).kill).setPc p .user)
        else some (s.setPc p (.kill pid (j + 1)))
      else none
    else some (s.setPc p .user)

/-- May a process be made to yield here? Not while it holds a spin-lock. -/
def Pc.preemptible : Pc → Bool
  | .user | .forkParent _ | .forkRun _ | .exitLock _ | .waitLock | .kill _ _ => true
  | _ => false

/-- A process calls `fork` (and `allocproc` finds slot `q`), `exit`, `wait`, `kill` or `sleep` on another
    channel; it gets a new size (`exec`, `sbrk`), other files (`open`, `close`, `chdir`) or a trace mask;
    a process that sleeps on another channel is woken; the scheduler runs or preempts a process; a
    process moves on in the kernel. -/
inductive Label where
  | fork (p q : ℕ)
  | exit (p : ℕ) (status : BitVec 32)
  | wait (p : ℕ)
  | kill (p : ℕ) (pid : BitVec 32)
  | sleep (p c : ℕ)
  | resize (p sz : ℕ)
  | files (p : ℕ) (ofile : Fin NOFILE → Option ℕ) (cwd : ℕ)
  | trace (p : ℕ) (mask : BitVec 32)
  | wake (q : ℕ)
  | sched (p : ℕ)
  | yield (p : ℕ)
  | move (p : ℕ) (ok : Bool)

/-- Process `p` runs user code. -/
def Sys.InUser (nproc : ℕ) (s : Sys) (p : ℕ) : Prop :=
  p < nproc ∧ (s.proc p).state = .RUNNING ∧ s.pc p = .user

instance (nproc : ℕ) (s : Sys) (p : ℕ) : Decidable (s.InUser nproc p) :=
  inferInstanceAs (Decidable (_ ∧ _ ∧ _))

/-- One step of the whole system. -/
def step (nproc : ℕ) (s : Sys) : Label → Option Sys
  | .fork p q =>
    if s.InUser nproc p ∧ q < nproc ∧ (s.proc q).state = .UNUSED ∧ (s.proc q).lock = none then
      some (s.allocproc p q)
    else none
  | .exit p status =>
    if s.InUser nproc p ∧ p ≠ initproc then
      some ((s.setProc p ((s.proc p).setFiles (fun _ => none) none)).setPc p (.exitLock status))
    else none
  | .wait p => if s.InUser nproc p then some (s.setPc p .waitLock) else none
  | .kill p pid => if s.InUser nproc p then some (s.setPc p (.kill pid 0)) else none
  | .sleep p c =>
    if s.InUser nproc p ∧ (s.proc p).lock = none then
      some ((s.setProc p (((s.proc p).setChan (some (.other c))).setState .SLEEPING)).setPc p .napping)
    else none
  | .resize p sz => if s.InUser nproc p then some (s.setProc p ((s.proc p).setSz sz)) else none
  | .files p ofile cwd =>
    if s.InUser nproc p then some (s.setProc p ((s.proc p).setFiles ofile (some cwd))) else none
  | .trace p mask => if s.InUser nproc p then some (s.setProc p ((s.proc p).setMask mask)) else none
  | .wake q =>
    if q < nproc ∧ (s.proc q).state = .SLEEPING ∧ s.pc q = .napping ∧ (s.proc q).lock = none then
      some (s.setProc q ((s.proc q).setState .RUNNABLE))
    else none
  | .sched p =>
    if p < nproc ∧ (s.proc p).state = .RUNNABLE ∧ (s.proc p).lock = none then
      some (s.setProc p ((s.proc p).setState .RUNNING))
    else none
  | .yield p =>
    if p < nproc ∧ (s.proc p).state = .RUNNING ∧ (s.pc p).preemptible ∧ (s.proc p).lock = none then
      some (s.setProc p ((s.proc p).setState .RUNNABLE))
    else none
  | .move p ok => if p < nproc ∧ (s.proc p).state = .RUNNING then move nproc s p ok else none

end Minios.Procs
