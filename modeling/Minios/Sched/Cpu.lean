import Minios.Schemes.Run

/-! `kernel/proc.c`: processes on CPUs.

    Each CPU runs either its scheduler or a process's kernel thread, and goes from one to the other in
    `swtch`, which saves where it was and goes on where the other one had stopped:

        scheduler   scan ──── swtch(&c->context, &p->context) ────▶ p's context
                     ▲                                                   │
                  schedBack ◀─── swtch(&p->context, &c->context) ──── sched

    A process's lock is taken on one side of a `swtch` and released on the other. A step is what a CPU
    does up to its next `acquire`, `release` or `swtch`; the steps of all CPUs interleave in any order.
    What a thread does between the functions modelled here is any sequence of `acquire`, `release` and
    calls of these functions; interrupts can make the scheduler's thread do so too. -/

namespace Minios.Sched
open Schemes Function

inductive PState where | UNUSED | USED | SLEEPING | RUNNABLE | RUNNING | ZOMBIE
  deriving DecidableEq

/-- Spin-locks other than `p->lock`. -/
inductive Lock where
  | pipe (a : ℕ)
  | cons
  | wait
  | other (a : ℕ)
  deriving DecidableEq

/-- What a process sleeps on. -/
inductive Chan where
  | nread (a : ℕ)
  | consR
  | proc (p : ℕ)
  | other (a : ℕ)
  deriving DecidableEq

/-- The loops that test `killed()` before they sleep: `piperead`, `consoleread`, and `wait` of process `p`. -/
inductive Loop where
  | piperead (a : ℕ)
  | consoleread
  | wait (p : ℕ)
  deriving DecidableEq

def Loop.lk : Loop → Lock
  | .piperead a => .pipe a
  | .consoleread => .cons
  | .wait _ => .wait

def Loop.chan : Loop → Chan
  | .piperead a => .nread a
  | .consoleread => .consR
  | .wait p => .proc p

/-- `wait` sleeps on the caller. -/
def Loop.By (p : ℕ) : Loop → Prop
  | .wait q => q = p
  | _ => True

instance (p : ℕ) : ∀ l : Loop, Decidable (l.By p)
  | .wait q => inferInstanceAs (Decidable (q = p))
  | .piperead _ | .consoleread => .isTrue trivial

/-- Where a thread that holds no `p->lock` is. `held` are the spin-locks it has taken; while it has none, a timer
    interrupt can make it yield. -/
inductive Spot where
  | run (held : List Lock)
  | sleepAcq (chan : Chan) (lk : Lock)
  | test (l : Loop)
  | loopSleep (l : Loop)
  | wake (held : List Lock) (chan : Chan) (j : ℕ)
  | kill (held : List Lock) (pid : BitVec 32) (j : ℕ)
  deriving DecidableEq

/-- Who called `sched`. -/
inductive Caller where
  | yield (x : Spot)
  | sleep (chan : Chan) (lk : Lock)
  | exit
  deriving DecidableEq

/-- Where a thread is. -/
inductive Pc where
  | scan
  | schedBack
  | forkret
  | at (x : Spot)
  | sched (k : Caller)
  | back (k : Caller)
  | sleepRel (chan : Chan) (lk : Lock)
  | exitRel (lk : Lock)
  deriving DecidableEq

def Spot.held : Spot → List Lock
  | .run held | .wake held _ _ | .kill held _ _ => held
  | .sleepAcq _ _ => []
  | .test l | .loopSleep l => [l.lk]

/-- `struct proc` as far as scheduling goes; `C` are the CPUs. `lock` is the CPU that took `p->lock`. -/
structure Proc (C : Type) where
  lock : Option C
  state : PState
  chan : Option Chan
  killed : Bool
  pid : BitVec 32
  context : Pc

/-- `struct cpu`, with the scheduler's loop variable `slot`, and the thread that runs: where it is, and
    whose kernel stack it is on (`none` for the scheduler's). -/
structure Cpu where
  proc : Option ℕ
  noff : ℕ
  slot : ℕ
  stack : Option ℕ
  pc : Pc

inductive Panic where
  | release
  | schedPLock
  | schedLocks
  | schedRunning
  | zombieExit
  deriving DecidableEq

structure Sys (C : Type) where
  cpu : C → Cpu
  proc : ℕ → Proc C
  lock : Lock → Option C
  nextpid : BitVec 32
  panic : Option Panic

section Setters
variable {C : Type}

def Proc.setLock (pr : Proc C) (lock : Option C) : Proc C := { pr with lock := lock }

def Proc.setState (pr : Proc C) (state : PState) : Proc C := { pr with state := state }

def Proc.setChan (pr : Proc C) (chan : Option Chan) : Proc C := { pr with chan := chan }

def Proc.setContext (pr : Proc C) (context : Pc) : Proc C := { pr with context := context }

/-- `if(p->state == SLEEPING && p->chan == chan) p->state = RUNNABLE;` -/
def Proc.wakeup (pr : Proc C) (chan : Chan) : Proc C :=
  if pr.state = .SLEEPING ∧ pr.chan = some chan then pr.setState .RUNNABLE else pr

/-- `p->killed = 1; if(p->state == SLEEPING) p->state = RUNNABLE;` -/
def Proc.kill (pr : Proc C) : Proc C :=
  { pr with killed := true, state := if pr.state = .SLEEPING then .RUNNABLE else pr.state }

/-- A new process, which starts at `forkret`. -/
def Proc.born (pr : Proc C) (pid : BitVec 32) : Proc C := { pr with pid := pid, state := .RUNNABLE, context := .forkret }

def Proc.freeproc (pr : Proc C) : Proc C := { pr with pid := 0, chan := none, killed := false, state := .UNUSED }

def Cpu.setPc (k : Cpu) (pc : Pc) : Cpu := { k with pc := pc }

def Cpu.setSlot (k : Cpu) (slot : ℕ) : Cpu := { k with slot := slot }

/-- `push_off` of an `acquire`. -/
def Cpu.push (k : Cpu) (pc : Pc) : Cpu := { k with noff := k.noff + 1, pc := pc }

/-- `pop_off` of a `release`. -/
def Cpu.pop (k : Cpu) (pc : Pc) : Cpu := { k with noff := k.noff - 1, pc := pc }

/-- `c->proc = p`, and the thread goes on where `p` had stopped. -/
def Cpu.enter (k : Cpu) (p : ℕ) (pc : Pc) : Cpu :=
  { k with proc := some p, noff := k.noff + 1, stack := some p, pc := pc }

/-- The scheduler goes on after its `swtch`. -/
def Cpu.leave (k : Cpu) : Cpu := { k with stack := none, pc := .schedBack }

/-- `c->proc = 0; release(&p->lock);` and the next round. -/
def Cpu.next (k : Cpu) : Cpu := { k with proc := none, noff := k.noff - 1, slot := k.slot + 1, pc := .scan }

end Setters

/-- What the thread on a CPU does next where it has a choice; `go` where it has none. -/
inductive Act where
  | go
  | intr
  | iret
  | acquire (lk : Lock)
  | release (lk : Lock)
  | yield
  | sleep (a : ℕ) (lk : Lock)
  | loop (l : Loop)
  | wakeup (chan : Chan)
  | kill (pid : BitVec 32)
  | exit
  | fork (q : ℕ)
  | reap (q : ℕ)
  deriving DecidableEq

section Step
variable {C : Type}

def Sys.setProc (s : Sys C) (q : ℕ) (pr : Proc C) : Sys C := { s with proc := update s.proc q pr }

theorem Sys.setProc_self (s : Sys C) (q : ℕ) (pr : Proc C) : (s.setProc q pr).proc q = pr := update_self ..

variable [DecidableEq C]

def Sys.setCpu (s : Sys C) (c : C) (k : Cpu) : Sys C := { s with cpu := update s.cpu c k }

theorem Sys.setCpu_self (s : Sys C) (c : C) (k : Cpu) : (s.setCpu c k).cpu c = k := update_self ..

def Sys.setLock (s : Sys C) (lk : Lock) (o : Option C) : Sys C := { s with lock := update s.lock lk o }

def Sys.fail (s : Sys C) (e : Panic) : Sys C := { s with panic := some e }

/-- `release(&p->lock)` on CPU `c`, of a process that is then `pr`. -/
def Sys.releaseProc (s : Sys C) (c : C) (q : ℕ) (pr : Proc C) (pc : Pc) : Sys C :=
  if pr.lock = some c then (s.setProc q (pr.setLock none)).setCpu c ((s.cpu c).pop pc) else s.fail .release

/-- `release(lk)` on CPU `c`. -/
def Sys.releaseLock (s : Sys C) (c : C) (lk : Lock) (pc : Pc) : Sys C :=
  if s.lock lk = some c then (s.setLock lk none).setCpu c ((s.cpu c).pop pc) else s.fail .release

/-- `acquire(&p->lock)` on CPU `c`; `none` while it is taken. `pr` is what the process is made then. -/
def Sys.acquireProc (s : Sys C) (c : C) (q : ℕ) (pr : Proc C) (pc : Pc) : Option (Sys C) :=
  if (s.proc q).lock = none then some ((s.setProc q (pr.setLock (some c))).setCpu c ((s.cpu c).push pc)) else none

/-- A critical section under one `p->lock`: `pr` is what it leaves. -/
def Sys.under (s : Sys C) (c : C) (q : ℕ) (pr : Proc C) (pc : Pc) : Option (Sys C) :=
  if (s.proc q).lock = none then some ((s.setProc q pr).setCpu c ((s.cpu c).setPc pc)) else none

/-- `swtch(&p->context, &mycpu()->context)`, after the checks of `sched`. -/
def Sys.sched (s : Sys C) (c : C) (p : ℕ) (k : Caller) : Sys C :=
  if (s.proc p).lock ≠ some c then s.fail .schedPLock
  else if (s.cpu c).noff ≠ 1 then s.fail .schedLocks
  else if (s.proc p).state = .RUNNING then s.fail .schedRunning
  else (s.setProc p ((s.proc p).setContext (.back k))).setCpu c (s.cpu c).leave

/-- The choices of a thread on CPU `c` outside the functions below, with the locks `held`. `sleep` is
    called with one lock held (on the channel of one of the loops, by that loop only), and `exit` and `wait` do what they do to a process under `wait_lock`. A
    `fork` is one step: nobody else does anything with the child before it is RUNNABLE. -/
def Sys.choose (n : ℕ) (s : Sys C) (c : C) (held : List Lock) : Act → Option (Sys C)
  | .acquire lk =>
    if s.lock lk = none then some ((s.setLock lk (some c)).setCpu c ((s.cpu c).push (.at (.run (lk :: held))))) else none
  | .release lk => if lk ∈ held then some (s.releaseLock c lk (.at (.run (held.erase lk)))) else none
  | .iret => if (s.cpu c).stack = none ∧ held = [] then some (s.setCpu c ((s.cpu c).setPc .scan)) else none
  | .wakeup chan => some (s.setCpu c ((s.cpu c).setPc (.at (.wake held chan 0))))
  | .kill pid => some (s.setCpu c ((s.cpu c).setPc (.at (.kill held pid 0))))
  | .sleep a lk => match (s.cpu c).proc with
    | some p => if held = [lk] then s.acquireProc c p (s.proc p) (.sleepRel (.other a) lk) else none
    | none => none
  | .loop l => match (s.cpu c).proc with
    | some p => if held = [l.lk] ∧ l.By p then some (s.setCpu c ((s.cpu c).setPc (.at (.test l)))) else none
    | none => none
  | .exit => match (s.cpu c).proc with
    | some p => if held = [.wait] then s.acquireProc c p ((s.proc p).setState .ZOMBIE) (.exitRel .wait) else none
    | none => none
  | .fork q =>
    if (s.cpu c).proc ≠ none ∧ q < n ∧ (s.proc q).state = .UNUSED then
      (s.under c q ((s.proc q).born s.nextpid) (.at (.run held))).map fun t => { t with nextpid := s.nextpid + 1 }
    else none
  | .reap q =>
    if (s.cpu c).proc ≠ none ∧ .wait ∈ held ∧ (s.proc q).state = .ZOMBIE then
      s.under c q (s.proc q).freeproc (.at (.run held))
    else none
  | .go | .intr | .yield => none

/-- The next step of a thread that holds no `p->lock`. -/
def Sys.advance (n : ℕ) (s : Sys C) (c : C) (a : Act) : Spot → Option (Sys C)
  | .run held => s.choose n c held a
  | .sleepAcq _ lk =>
    if s.lock lk = none then some ((s.setLock lk (some c)).setCpu c ((s.cpu c).push (.at (.run [lk])))) else none
  | .test l => match (s.cpu c).proc with
    | some p => s.under c p (s.proc p) (.at (if (s.proc p).killed then .run [l.lk] else .loopSleep l))
    | none => none
  | .loopSleep l => match (s.cpu c).proc with
    | some p => s.acquireProc c p (s.proc p) (.sleepRel l.chan l.lk)
    | none => none
  | .wake held chan j =>
    if j < n then
      if (s.cpu c).proc = some j then some (s.setCpu c ((s.cpu c).setPc (.at (.wake held chan (j + 1)))))
      else s.under c j ((s.proc j).wakeup chan) (.at (.wake held chan (j + 1)))
    else some (s.setCpu c ((s.cpu c).setPc (.at (.run held))))
  | .kill held pid j =>
    if j < n then
      if (s.proc j).pid = pid then s.under c j (s.proc j).kill (.at (.run held))
      else s.under c j (s.proc j) (.at (.kill held pid (j + 1)))
    else some (s.setCpu c ((s.cpu c).setPc (.at (.run held))))

/-- `yield`, called by the timer interrupt. -/
def Sys.yield (s : Sys C) (c : C) (x : Spot) : Option (Sys C) := match (s.cpu c).proc with
  | some p =>
    if x.held = [] then s.acquireProc c p ((s.proc p).setState .RUNNABLE) (.sched (.yield x)) else none
  | none => none

/-- The scheduler's loop over `proc[]`, which has `n` slots. -/
def Sys.scheduler (n : ℕ) (s : Sys C) (c : C) : Option (Sys C) :=
  let k := s.cpu c
  if k.slot < n then
    if (s.proc k.slot).lock = none then
      if (s.proc k.slot).state = .RUNNABLE then
        some ((s.setProc k.slot (((s.proc k.slot).setState .RUNNING).setLock (some c))).setCpu c
          (k.enter k.slot (s.proc k.slot).context))
      else some (s.setCpu c (k.setSlot (k.slot + 1)))
    else none
  else some (s.setCpu c (k.setSlot 0))

/-- What comes after a `swtch` back to a process. -/
def Sys.resume (s : Sys C) (c : C) (p : ℕ) : Caller → Sys C
  | .yield x => s.releaseProc c p (s.proc p) (.at x)
  | .sleep chan lk => s.releaseProc c p ((s.proc p).setChan none) (.at (.sleepAcq chan lk))
  | .exit => s.fail .zombieExit

/-- The next step of a process's own thread, on CPU `c`, while it holds its `p->lock`. -/
def Sys.proceed (s : Sys C) (c : C) (p : ℕ) : Pc → Option (Sys C)
  | .forkret => some (s.releaseProc c p (s.proc p) (.at (.run [])))
  | .sched k => some (s.sched c p k)
  | .back k => some (s.resume c p k)
  | .sleepRel chan lk =>
    some ((s.setProc p (((s.proc p).setChan (some chan)).setState .SLEEPING)).releaseLock c lk (.sched (.sleep chan lk)))
  | .exitRel lk => some (s.releaseLock c lk (.sched .exit))
  | .scan | .schedBack | .at _ => none

/-- The thread on CPU `c` takes a step. -/
def move (n : ℕ) (s : Sys C) (c : C) (a : Act) : Option (Sys C) := match (s.cpu c).pc with
  | .scan => if a = .intr then some (s.setCpu c ((s.cpu c).setPc (.at (.run [])))) else s.scheduler n c
  | .schedBack =>
    if (s.proc (s.cpu c).slot).lock = some c then
      some ((s.setProc (s.cpu c).slot ((s.proc (s.cpu c).slot).setLock none)).setCpu c (s.cpu c).next)
    else some (s.fail .release)
  | .at x => if a = .yield then s.yield c x else s.advance n c a x
  | pc => match (s.cpu c).proc with
    | some p => s.proceed c p pc
    | none => none

/-- A panic stops everything. -/
def step (n : ℕ) (s : Sys C) : C × Act → Option (Sys C)
  | (c, a) => if s.panic = none then move n s c a else none

/-- A process slot that was never used. -/
def Proc.zero : Proc C := ⟨none, .UNUSED, none, false, 0, .forkret⟩

def Cpu.zero : Cpu := ⟨none, 0, 0, none, .scan⟩

/-- After `userinit`; every CPU is about to schedule. -/
def Sys.init : Sys C where
  cpu := fun _ => .zero
  proc := update (fun _ => .zero) 0 (Proc.zero.born 1)
  lock := fun _ => none
  nextpid := 2
  panic := none

end Step

end Minios.Sched
