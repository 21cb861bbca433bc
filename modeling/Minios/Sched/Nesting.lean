import Minios.Schemes.Run

/-! `kernel/spinlock.c`, `kernel/proc.c`: interrupts off, and on again.

    `push_off` and `pop_off` keep the depth of nesting and the state of interrupts before the outermost `push_off` in
    `struct cpu`, but they belong to the thread. `sched` is called at depth 1 and keeps `intena` in a local variable
    while the thread is away, so that it does not matter what other threads do, or where this one goes on:

        CPU 0   p: push_off ─▶ sched ─┐ scheduler: pop_off ...
                   intena = x         │ x
        CPU 1   scheduler: push_off ──┴─▶ p: intena = x ─▶ pop_off
                   intena = y                               interrupts as x says

    The depth is 1 on both sides of a switch, as `p->lock` is acquired on one and released on the other. Threads are
    taken as what they do to interrupts; when a trap comes, that is `intr_off`, and its return `intr_on`. -/

namespace Minios.Nesting
open Schemes Function

/-- For the record, of a thread: how many `push_off`s it has not undone yet, and if interrupts were enabled before the
    outermost of them. -/
structure Thread where
  depth : ℕ
  before : Bool

/-- `struct cpu`: `proc` is none for the scheduler, whose thread is `loop`. `turn` is on from when a process has come
    back to the scheduler until that has released its lock. -/
structure Cpu where
  noff : ℕ
  intena : Bool
  intr : Bool
  proc : Option ℕ
  loop : Thread
  turn : Bool

/-- Where a process is: it may be new, with a context that starts in `forkret`. -/
inductive Place where
  | unused
  | out
  | on (c : ℕ)
  deriving DecidableEq

/-- A process with its thread; `intena` is the local variable of `sched`, while the thread is in it. -/
structure Proc where
  place : Place
  intena : Option Bool
  thread : Thread

inductive Panic where
  | popInterruptible
  | pop
  | schedLocks
  | schedInterruptible

structure Sys where
  cpu : ℕ → Cpu
  proc : ℕ → Proc
  panic : Option Panic

/-- All CPUs are in `main`, with interrupts off. -/
def Sys.init : Sys where
  cpu _ := ⟨0, false, false, none, ⟨0, false⟩, false⟩
  proc _ := ⟨.unused, none, ⟨0, false⟩⟩
  panic := none

def Sys.setCpu (s : Sys) (c : ℕ) (k : Cpu) : Sys := { s with cpu := update s.cpu c k }

def Sys.setProc (s : Sys) (p : ℕ) (pr : Proc) : Sys := { s with proc := update s.proc p pr }

def Cpu.push_off (k : Cpu) : Cpu :=
  { k with intr := false, intena := if k.noff = 0 then k.intr else k.intena, noff := k.noff + 1 }

def Cpu.pop_off (k : Cpu) : Except Panic Cpu :=
  if k.intr then .error .popInterruptible
  else if k.noff < 1 then .error .pop
  else .ok { k with noff := k.noff - 1, intr := k.noff - 1 = 0 ∧ k.intena }

def Thread.push (th : Thread) (intr : Bool) : Thread := ⟨th.depth + 1, if th.depth = 0 then intr else th.before⟩

def Thread.pop (th : Thread) : Thread := ⟨th.depth - 1, th.before⟩

/-- The thread that runs on a CPU. -/
def Sys.thread (s : Sys) (c : ℕ) : Thread := match (s.cpu c).proc with
  | none => (s.cpu c).loop
  | some p => (s.proc p).thread

/-- Has the thread on this CPU come back to `sched`, with one statement left? -/
def Sys.inSched (s : Sys) (c : ℕ) : Bool := match (s.cpu c).proc with
  | none => false
  | some p => (s.proc p).intena.isSome

/-- CPU `c` after a step of its thread. -/
def Sys.put (s : Sys) (c : ℕ) (k : Cpu) (th : Thread) : Sys := match (s.cpu c).proc with
  | none => s.setCpu c { k with loop := th }
  | some p => (s.setCpu c k).setProc p { s.proc p with thread := th }

/-- What a CPU does next, or how a process is made and goes away. -/
inductive Label where
  | push_off (c : ℕ)
  | pop_off (c : ℕ)
  | intr_on (c : ℕ)
  | intr_off (c : ℕ)
  | sched (c : ℕ)
  | schedRet (c : ℕ)
  | swtch (c p : ℕ)
  | alloc (p : ℕ)
  | free (p : ℕ)

/-- `sched`, up to `swtch`. -/
def Sys.sched (s : Sys) (c p : ℕ) : Sys :=
  if (s.cpu c).noff ≠ 1 then { s with panic := some .schedLocks }
  else if (s.cpu c).intr then { s with panic := some .schedInterruptible }
  else (s.setCpu c { s.cpu c with proc := none, turn := true }).setProc p
    { s.proc p with place := .out, intena := some (s.cpu c).intena }

/-- `swtch` in the scheduler: a new process holds `p->lock` from there. -/
def Sys.swtch (s : Sys) (c p : ℕ) : Sys :=
  (s.setCpu c { s.cpu c with proc := some p }).setProc p
    { s.proc p with
      place := .on c
      thread := if (s.proc p).intena = none then (s.cpu c).loop else (s.proc p).thread }

/-- One step. Threads nest properly: they pop what they have pushed, call `sched` and `swtch` with one lock held, and
    leave interrupts alone otherwise while they hold any. A trap at depth 0 ends at depth 0. -/
def step (s : Sys) : Label → Option Sys
  | .push_off c =>
    if s.inSched c then none
    else some (s.put c { (s.cpu c).push_off with turn := if (s.cpu c).loop.depth = 0 then false else (s.cpu c).turn }
      ((s.thread c).push (s.cpu c).intr))
  | .pop_off c =>
    if s.inSched c ∨ (s.thread c).depth = 0 then none
    else match (s.cpu c).pop_off with
      | .ok k => some (s.put c k (s.thread c).pop)
      | .error e => some { s with panic := some e }
  | .intr_on c =>
    if s.inSched c ∨ 0 < (s.thread c).depth then none else some (s.setCpu c { s.cpu c with intr := true })
  | .intr_off c =>
    if s.inSched c ∨ 0 < (s.thread c).depth then none else some (s.setCpu c { s.cpu c with intr := false })
  | .sched c => match (s.cpu c).proc with
    | none => none
    | some p => if s.inSched c ∨ (s.thread c).depth ≠ 1 then none else some (s.sched c p)
  | .schedRet c => match (s.cpu c).proc with
    | none => none
    | some p => match (s.proc p).intena with
      | none => none
      | some v => some ((s.setCpu c { s.cpu c with intena := v }).setProc p { s.proc p with intena := none })
  | .swtch c p =>
    if (s.cpu c).proc = none ∧ (s.cpu c).loop.depth = 1 ∧ (s.cpu c).turn = false ∧ (s.proc p).place = .out then
      some (s.swtch c p)
    else none
  | .alloc p =>
    if (s.proc p).place = .unused then some (s.setProc p { s.proc p with place := .out, intena := none }) else none
  | .free p => if (s.proc p).place = .out then some (s.setProc p { s.proc p with place := .unused, intena := none }) else none

variable {s t : Sys} {c d p q : ℕ} {k : Cpu} {th : Thread} {pr : Proc}

/-! ### The invariant -/

/-- Is `intena` that of the thread on this CPU? -/
def Sys.settled (s : Sys) (c : ℕ) : Bool := match (s.cpu c).proc with
  | none => (s.cpu c).turn = false
  | some p => (s.proc p).intena = none

structure Inv (s : Sys) : Prop where
  calm : s.panic = none
  noff : ∀ c, (s.cpu c).noff = (s.thread c).depth
  off : ∀ c, 0 < (s.cpu c).noff → (s.cpu c).intr = false
  intena : ∀ c, 0 < (s.cpu c).noff → s.settled c = true → (s.cpu c).intena = (s.thread c).before
  place : ∀ c p, (s.cpu c).proc = some p ↔ (s.proc p).place = .on c
  loop : ∀ c p, (s.cpu c).proc = some p → (s.cpu c).loop.depth = 1
  sched : ∀ p v, (s.proc p).intena = some v → (s.proc p).thread.depth = 1 ∧ v = (s.proc p).thread.before

theorem Inv.init : Inv Sys.init where
  calm := rfl
  noff _ := rfl
  off _ h := absurd h (Nat.lt_irrefl 0)
  intena _ h := absurd h (Nat.lt_irrefl 0)
  place _ _ := ⟨nofun, nofun⟩
  loop _ _ := nofun
  sched _ _ := nofun

theorem Inv.one (h : Inv s) (hc : (s.cpu c).proc = some p) (hd : (s.cpu d).proc = some p) : d = c :=
  Place.on.inj (((h.place d p).mp hd).symm.trans ((h.place c p).mp hc))

/-- What a CPU sees depends on its own record and that of its process only. -/
theorem thread_congr (hcpu : t.cpu c = s.cpu c) (hproc : ∀ p, (s.cpu c).proc = some p → t.proc p = s.proc p) :
    t.thread c = s.thread c ∧ t.settled c = s.settled c := by
  simp only [Sys.thread, Sys.settled, hcpu]
  cases hp : (s.cpu c).proc with
  | none => exact ⟨rfl, rfl⟩
  | some p => simp only [hproc p hp, and_self]

/-- FRAME: a step of CPU `c` that touches no process on another CPU. -/
theorem Inv.change (h : Inv s) (hcalm : t.panic = none) (hcpu : t.cpu = update s.cpu c k)
    (hother : ∀ d, d ≠ c → ∀ q, (s.cpu d).proc = some q → t.proc q = s.proc q)
    (hnoff : k.noff = (t.thread c).depth) (hoff : 0 < k.noff → k.intr = false)
    (hintena : 0 < k.noff → t.settled c = true → k.intena = (t.thread c).before)
    (hhere : ∀ q, k.proc = some q ↔ (t.proc q).place = .on c)
    (haway : ∀ d, d ≠ c → ∀ q, (t.proc q).place = .on d ↔ (s.proc q).place = .on d)
    (hloop : ∀ q, k.proc = some q → k.loop.depth = 1)
    (hsched : ∀ q v, (t.proc q).intena = some v → (t.proc q).thread.depth = 1 ∧ v = (t.proc q).thread.before) :
    Inv t := by
  have hself : t.cpu c = k := by rw [hcpu, update_self]
  have hne : ∀ d, d ≠ c → t.cpu d = s.cpu d := fun d hd => by rw [hcpu, update_of_ne hd]
  have hsame : ∀ d, d ≠ c → t.thread d = s.thread d ∧ t.settled d = s.settled d := fun d hd =>
    thread_congr (hne d hd) (hother d hd)
  refine ⟨hcalm, fun d => ?_, fun d => ?_, fun d => ?_, fun d q => ?_, fun d q => ?_, hsched⟩ <;>
    rcases eq_or_ne d c with rfl | hd
  · rw [hself]; exact hnoff
  · rw [hne d hd, (hsame d hd).1]; exact h.noff d
  · rw [hself]; exact hoff
  · rw [hne d hd]; exact h.off d
  · rw [hself]; exact hintena
  · rw [hne d hd, (hsame d hd).1, (hsame d hd).2]; exact h.intena d
  · rw [hself]; exact hhere q
  · rw [hne d hd, haway d hd]; exact h.place d q
  · rw [hself]; exact hloop q
  · rw [hne d hd]; exact h.loop d q

/-- CPU `c` and its thread go on, without a switch. -/
theorem Inv.put (h : Inv s) (hin : s.inSched c = false) (hproc : k.proc = (s.cpu c).proc)
    (hloop : k.loop = (s.cpu c).loop) (hnoff : k.noff = th.depth) (hoff : 0 < k.noff → k.intr = false)
    (hintena : 0 < k.noff → ((s.cpu c).proc = none → k.turn = false) → k.intena = th.before) : Inv (s.put c k th) := by
  have hthread : (s.put c k th).thread c = th ∧ ((s.put c k th).settled c = true →
      ((s.cpu c).proc = none → k.turn = false)) := by
    cases hp : (s.cpu c).proc with
    | none => simp [Sys.put, Sys.thread, Sys.settled, Sys.setCpu, hp, hproc]
    | some p => simp [Sys.put, Sys.thread, Sys.settled, Sys.setCpu, Sys.setProc, hp, hproc]
  cases hp : (s.cpu c).proc with
  | none =>
    have hput : s.put c k th = s.setCpu c { k with loop := th } := by rw [Sys.put, hp]
    have hno : ∀ q, ¬ k.proc = some q := fun q hq => by rw [hproc, hp] at hq; cases hq
    rw [hput] at hthread ⊢
    refine h.change h.calm rfl (fun _ _ _ _ => rfl) ?_ hoff ?_ (fun q => ?_) (fun _ _ _ => Iff.rfl)
      (fun q hq => absurd hq (hno q)) h.sched
    · rw [hthread.1]; exact hnoff
    · rw [hthread.1]; exact fun h0 hset => hintena h0 (hthread.2 hset)
    · show k.proc = some q ↔ _
      rw [hproc]
      exact h.place c q
  | some p =>
    have hput : s.put c k th = (s.setCpu c k).setProc p { s.proc p with thread := th } := by rw [Sys.put, hp]
    have hsame : ∀ q, ((s.setCpu c k).setProc p { s.proc p with thread := th }).proc q =
        if q = p then { s.proc p with thread := th } else s.proc q := fun q => update_apply ..
    have hplace : ∀ q, (((s.setCpu c k).setProc p { s.proc p with thread := th }).proc q).place = (s.proc q).place := by
      intro q
      rw [hsame q]
      split
      · rename_i he; rw [he]
      · rfl
    rw [hput] at hthread ⊢
    refine h.change h.calm rfl (fun d hd q hq => ?_) ?_ hoff ?_ (fun q => ?_) (fun d _ q => ?_) (fun q hq => ?_)
      fun q v hv => ?_
    · rw [hsame q, if_neg]
      rintro rfl
      exact hd (h.one hp hq)
    · rw [hthread.1]; exact hnoff
    · rw [hthread.1]; exact fun h0 hset => hintena h0 (hthread.2 hset)
    · rw [hproc, hplace]; exact h.place c q
    · rw [hplace]
    · rw [hloop]; exact h.loop c q (hproc ▸ hq)
    · rw [hsame q] at hv ⊢
      split at hv
      · -- the thread on this CPU is not in `sched`
        rw [Sys.inSched, hp] at hin
        simp only at hin hv
        rw [hv] at hin
        cases hin
      · rename_i he
        rw [if_neg he]
        exact h.sched q v hv

/-! ### Steps -/

theorem inv_push_off (h : Inv s) (hs : step s (.push_off c) = some t) : Inv t := by
  simp only [step, Option.ite_none_left_eq_some, Bool.not_eq_true, Option.some.injEq] at hs
  obtain ⟨hin, rfl⟩ := hs
  refine h.put hin rfl rfl ?_ (fun _ => rfl) fun _ hturn => ?_
  · show (s.cpu c).noff + 1 = (s.thread c).depth + 1
    rw [h.noff c]
  · show (if (s.cpu c).noff = 0 then _ else _) = if (s.thread c).depth = 0 then _ else _
    rw [h.noff c]
    split
    · rfl
    · rename_i hne
      refine h.intena c (by rw [h.noff c]; omega) ?_
      rw [Sys.settled]
      rw [Sys.inSched] at hin
      cases hp : (s.cpu c).proc with
      | none =>
        have ht := hturn hp
        simp only at ht
        rw [Sys.thread, hp] at hne
        rw [if_neg hne] at ht
        exact decide_eq_true ht
      | some p =>
        rw [hp] at hin
        simpa using hin

/-- `pop_off` finds interrupts off and the depth of its thread, so it does not panic. -/
theorem pop_off_ok (h : Inv s) (hd : (s.thread c).depth ≠ 0) : (s.cpu c).pop_off =
    .ok { s.cpu c with noff := (s.cpu c).noff - 1, intr := (s.cpu c).noff - 1 = 0 ∧ (s.cpu c).intena } := by
  have hpos : 0 < (s.cpu c).noff := by rw [h.noff c]; omega
  rw [Cpu.pop_off, if_neg (by rw [h.off c hpos]; exact Bool.false_ne_true), if_neg (by omega)]

theorem inv_pop_off (h : Inv s) (hs : step s (.pop_off c) = some t) : Inv t := by
  simp only [step, Option.ite_none_left_eq_some, not_or, Bool.not_eq_true] at hs
  obtain ⟨⟨hin, hd⟩, hs⟩ := hs
  rw [pop_off_ok h hd] at hs
  obtain rfl := Option.some.inj hs
  refine h.put hin rfl rfl ?_ (fun hpos => ?_) fun hpos hturn => ?_
  · show (s.cpu c).noff - 1 = (s.thread c).depth - 1
    rw [h.noff c]
  · have hpos : 0 < (s.cpu c).noff - 1 := hpos
    exact decide_eq_false fun h0 => by omega
  · have hpos : 0 < (s.cpu c).noff - 1 := hpos
    refine h.intena c (by omega) ?_
    rw [Sys.settled]
    rw [Sys.inSched] at hin
    cases hp : (s.cpu c).proc with
    | none => exact decide_eq_true (hturn hp)
    | some p =>
      rw [hp] at hin
      simpa using hin

theorem inv_setIntr (h : Inv s) (hd : (s.thread c).depth = 0) (b : Bool) :
    Inv (s.setCpu c { s.cpu c with intr := b }) := by
  have hcpu : (s.setCpu c { s.cpu c with intr := b }).cpu c = { s.cpu c with intr := b } := update_self ..
  have hthread : (s.setCpu c { s.cpu c with intr := b }).thread c = s.thread c := by
    rw [Sys.thread, Sys.thread, hcpu]
    rfl
  have h0 : (s.cpu c).noff = 0 := by rw [h.noff c, hd]
  refine h.change h.calm rfl (fun _ _ _ _ => rfl) ?_ (fun hpos => ?_) (fun hpos => ?_) (h.place c) (fun _ _ _ => Iff.rfl)
    (h.loop c) h.sched
  · rw [hthread]; exact h.noff c
  · exact absurd hpos (by show ¬ 0 < (s.cpu c).noff; omega)
  · exact absurd hpos (by show ¬ 0 < (s.cpu c).noff; omega)

/-- A process leaves for the scheduler of its CPU, at depth 1, with `intena` in its frame. -/
theorem inv_sched (h : Inv s) (hp : (s.cpu c).proc = some p) (hin : s.inSched c = false) (hd : (s.thread c).depth = 1) :
    Inv (s.sched c p) := by
  have hnoff : (s.cpu c).noff = 1 := by rw [h.noff c, hd]
  have hpos : 0 < (s.cpu c).noff := by omega
  have hnone : (s.proc p).intena = none := by
    rw [Sys.inSched, hp] at hin
    simpa using hin
  have hthread : s.thread c = (s.proc p).thread := by rw [Sys.thread, hp]
  have hon : (s.proc p).place = .on c := (h.place c p).mp hp
  rw [Sys.sched, if_neg (by omega), if_neg (by rw [h.off c hpos]; exact Bool.false_ne_true)]
  generalize ht : (s.setCpu c { s.cpu c with proc := none, turn := true }).setProc p
    { s.proc p with place := .out, intena := some (s.cpu c).intena } = t
  have hcpu : t.cpu = update s.cpu c { s.cpu c with proc := none, turn := true } := by rw [← ht]; rfl
  have hproc : ∀ q, t.proc q = if q = p then { s.proc p with place := .out, intena := some (s.cpu c).intena } else s.proc q :=
    fun q => by rw [← ht]; exact update_apply ..
  have hnew : t.thread c = (s.cpu c).loop ∧ t.settled c = false := by
    simp [Sys.thread, Sys.settled, hcpu]
  refine h.change (by rw [← ht]; exact h.calm) hcpu (fun d hne q hq => ?_) ?_ (fun _ => h.off c hpos) (fun _ hset => ?_)
    (fun q => ?_) (fun d hne q => ?_) nofun fun q v hv => ?_
  · rw [hproc, if_neg]
    rintro rfl
    exact hne (h.one hp hq)
  · rw [hnew.1]
    exact hnoff.trans (h.loop c p hp).symm
  · rw [hnew.2] at hset
    cases hset
  · refine iff_of_false nofun fun hq => ?_
    rw [hproc] at hq
    split at hq
    · cases hq
    · rename_i hqp
      rw [← h.place c q, hp, Option.some.injEq] at hq
      exact hqp hq.symm
  · rw [hproc]
    split
    · rename_i hqp
      rw [hqp, hon]
      exact iff_of_false nofun fun he => hne (Place.on.inj he).symm
    · exact Iff.rfl
  · rw [hproc] at hv ⊢
    split at hv
    · rename_i hqp
      rw [if_pos hqp]
      refine ⟨by rw [← hthread]; exact hd, (Option.some.inj hv).symm.trans ?_⟩
      rw [← hthread]
      exact h.intena c hpos (by rw [Sys.settled, hp]; exact decide_eq_true hnone)
    · rename_i hqp
      rw [if_neg hqp]
      exact h.sched q v hv

theorem inv_schedRet {v : Bool} (h : Inv s) (hp : (s.cpu c).proc = some p) (hv : (s.proc p).intena = some v) :
    Inv ((s.setCpu c { s.cpu c with intena := v }).setProc p { s.proc p with intena := none }) := by
  have hthread : s.thread c = (s.proc p).thread := by rw [Sys.thread, hp]
  obtain ⟨hd, hbefore⟩ := h.sched p v hv
  generalize ht : (s.setCpu c { s.cpu c with intena := v }).setProc p { s.proc p with intena := none } = t
  have hcpu : t.cpu = update s.cpu c { s.cpu c with intena := v } := by rw [← ht]; rfl
  have hproc : ∀ q, t.proc q = if q = p then { s.proc p with intena := none } else s.proc q :=
    fun q => by rw [← ht]; exact update_apply ..
  have hplace : ∀ q, (t.proc q).place = (s.proc q).place := fun q => by
    rw [hproc]
    split
    · rename_i he; rw [he]
    · rfl
  have hnew : t.thread c = (s.proc p).thread := by simp [Sys.thread, hcpu, hp, hproc]
  refine h.change (by rw [← ht]; exact h.calm) hcpu (fun d hne q hq => ?_) ?_ (h.off c) (fun _ _ => ?_) (fun q => ?_)
    (fun d _ q => by rw [hplace]) (h.loop c) fun q v' hv' => ?_
  · rw [hproc, if_neg]
    rintro rfl
    exact hne (h.one hp hq)
  · rw [hnew, ← hthread]
    exact h.noff c
  · rw [hnew]
    exact hbefore
  · rw [hplace]
    exact h.place c q
  · rw [hproc] at hv' ⊢
    split at hv'
    · cases hv'
    · rename_i hqp
      rw [if_neg hqp]
      exact h.sched q v' hv'

/-- The scheduler switches to a process, at depth 1; a new one goes on with what the scheduler has pushed. -/
theorem inv_swtch (h : Inv s) (hc : (s.cpu c).proc = none) (hd : (s.cpu c).loop.depth = 1) (hturn : (s.cpu c).turn = false)
    (hout : (s.proc p).place = .out) : Inv (s.swtch c p) := by
  have hthread : s.thread c = (s.cpu c).loop := by rw [Sys.thread, hc]
  have hnoff : (s.cpu c).noff = 1 := by rw [h.noff c, hthread, hd]
  have hnot : ∀ d q, (s.cpu d).proc = some q → q ≠ p := by
    rintro d q hq rfl
    rw [h.place d q, hout] at hq
    cases hq
  generalize hpr : { s.proc p with
      place := .on c
      thread := if (s.proc p).intena = none then (s.cpu c).loop else (s.proc p).thread } = pr
  have hdepth : pr.thread.depth = 1 := by
    rw [← hpr]
    dsimp only
    split
    · exact hd
    · rename_i hv
      obtain ⟨v, hv⟩ := Option.ne_none_iff_exists'.mp hv
      exact (h.sched p v hv).1
  have hproc : ∀ q, (s.swtch c p).proc q = if q = p then pr else s.proc q := fun q => by
    rw [← hpr]; exact update_apply ..
  have hcpu : (s.swtch c p).cpu = update s.cpu c { s.cpu c with proc := some p } := rfl
  have hnew : (s.swtch c p).thread c = pr.thread ∧ (s.swtch c p).settled c = decide (pr.intena = none) := by
    simp [Sys.thread, Sys.settled, hcpu, hproc]
  refine h.change h.calm hcpu (fun d _ q hq => ?_) ?_ (h.off c) (fun _ hset => ?_) (fun q => ?_) (fun d hne q => ?_)
    (fun _ _ => hd) fun q v hv => ?_
  · rw [hproc, if_neg (hnot d q hq)]
  · rw [hnew.1, hdepth]
    exact hnoff
  · rw [hnew.2, decide_eq_true_eq] at hset
    rw [hnew.1, ← hpr]
    rw [← hpr] at hset
    dsimp only at hset ⊢
    rw [if_pos hset, ← hthread]
    exact h.intena c (by omega) (by rw [Sys.settled, hc]; exact decide_eq_true hturn)
  · rw [hproc]
    split
    · rename_i hqp
      rw [hqp, ← hpr]
      exact iff_of_true rfl rfl
    · rename_i hqp
      refine iff_of_false (fun he => hqp (Option.some.inj he).symm) fun hq => ?_
      rw [← h.place c q, hc] at hq
      cases hq
  · rw [hproc]
    split
    · rename_i hqp
      rw [hqp, hout, ← hpr]
      exact iff_of_false (fun he => hne (Place.on.inj he).symm) nofun
    · exact Iff.rfl
  · rw [hproc] at hv ⊢
    split at hv
    · rename_i hqp
      rw [if_pos hqp]
      rw [← hpr] at hv ⊢
      dsimp only at hv ⊢
      rw [if_neg (by rw [hv]; nofun)]
      exact h.sched p v hv
    · rename_i hqp
      rw [if_neg hqp]
      exact h.sched q v hv

theorem inv_setProc (h : Inv s) (hout : ∀ d, (s.proc p).place ≠ .on d) (hpr : ∀ d, pr.place ≠ .on d)
    (hnone : pr.intena = none) : Inv (s.setProc p pr) := by
  have hproc : ∀ q, (s.setProc p pr).proc q = if q = p then pr else s.proc q := fun q => update_apply ..
  have hsame : ∀ d q, (s.cpu d).proc = some q → (s.setProc p pr).proc q = s.proc q := fun d q hq => by
    rw [hproc, if_neg]
    rintro rfl
    exact hout d ((h.place d q).mp hq)
  have hplace : ∀ d q, ((s.setProc p pr).proc q).place = .on d ↔ (s.proc q).place = .on d := fun d q => by
    rw [hproc]
    split
    · rename_i he
      rw [he]
      exact iff_of_false (hpr d) (hout d)
    · exact Iff.rfl
  have hview : ∀ d, (s.setProc p pr).thread d = s.thread d ∧ (s.setProc p pr).settled d = s.settled d := fun d =>
    thread_congr rfl (hsame d)
  refine ⟨h.calm, fun d => ?_, h.off, fun d => ?_, fun d q => (h.place d q).trans (hplace d q).symm, h.loop, fun q v hv => ?_⟩
  · rw [(hview d).1]; exact h.noff d
  · rw [(hview d).1, (hview d).2]; exact h.intena d
  · rw [hproc] at hv ⊢
    split at hv
    · rw [hnone] at hv
      cases hv
    · rename_i hqp
      rw [if_neg hqp]
      exact h.sched q v hv

theorem inv_step {l : Label} (h : Inv s) (hs : step s l = some t) : Inv t := by
  cases l with
  | push_off c => exact inv_push_off h hs
  | pop_off c => exact inv_pop_off h hs
  | intr_on c =>
    simp only [step, Option.ite_none_left_eq_some, not_or, Nat.not_lt, Nat.le_zero, Option.some.injEq] at hs
    obtain ⟨⟨-, hd⟩, rfl⟩ := hs
    exact inv_setIntr h hd true
  | intr_off c =>
    simp only [step, Option.ite_none_left_eq_some, not_or, Nat.not_lt, Nat.le_zero, Option.some.injEq] at hs
    obtain ⟨⟨-, hd⟩, rfl⟩ := hs
    exact inv_setIntr h hd false
  | sched c =>
    rw [step] at hs
    split at hs
    · cases hs
    · rename_i p hp
      simp only [Option.ite_none_left_eq_some, not_or, Bool.not_eq_true, not_not, Option.some.injEq] at hs
      obtain ⟨⟨hin, hd⟩, rfl⟩ := hs
      exact inv_sched h hp hin hd
  | schedRet c =>
    rw [step] at hs
    split at hs
    · cases hs
    · rename_i p hp
      split at hs
      · cases hs
      · rename_i v hv
        obtain rfl := Option.some.inj hs
        exact inv_schedRet h hp hv
  | swtch c p =>
    simp only [step, Option.ite_none_right_eq_some, Option.some.injEq] at hs
    obtain ⟨⟨hc, hd, hturn, hout⟩, rfl⟩ := hs
    exact inv_swtch h hc hd hturn hout
  | alloc p =>
    simp only [step, Option.ite_none_right_eq_some, Option.some.injEq] at hs
    obtain ⟨hplace, rfl⟩ := hs
    exact inv_setProc h (fun d => by rw [hplace]; nofun) nofun rfl
  | free p =>
    simp only [step, Option.ite_none_right_eq_some, Option.some.injEq] at hs
    obtain ⟨hplace, rfl⟩ := hs
    exact inv_setProc h (fun d => by rw [hplace]; nofun) nofun rfl

/-- CORRECT (interrupts): in every run nothing panics, interrupts are off on a CPU whose `noff` is not 0, and that is
    the depth of the thread it runs. When a process undoes its outermost `push_off`, interrupts are enabled if they were
    enabled before that. -/
theorem interrupts_restored {ls : List Label} (hrun : run step Sys.init ls = some s) :
    s.panic = none ∧ (∀ c, 0 < (s.cpu c).noff → (s.cpu c).intr = false) ∧
    (∀ c, (s.cpu c).noff = (s.thread c).depth) ∧
    ∀ c p t, (s.cpu c).proc = some p → (s.thread c).depth = 1 → step s (.pop_off c) = some t →
      (t.cpu c).intr = (s.thread c).before := by
  have h : Inv s := run_inv (fun _ _ _ => inv_step) Inv.init hrun
  refine ⟨h.calm, h.off, h.noff, fun c p t hp hd hs => ?_⟩
  simp only [step, Option.ite_none_left_eq_some, not_or, Bool.not_eq_true] at hs
  obtain ⟨⟨hin, -⟩, hs⟩ := hs
  rw [pop_off_ok h (by omega)] at hs
  obtain rfl := Option.some.inj hs
  have hnoff : (s.cpu c).noff = 1 := by rw [h.noff c, hd]
  have hset : s.settled c = true := by
    rw [Sys.inSched, hp] at hin
    rw [Sys.settled, hp]
    simpa using hin
  have hcpu : ∀ k th, (s.put c k th).cpu c = k := fun k th => by
    rw [Sys.put, hp]
    exact update_self ..
  rw [hcpu, ← h.intena c (by omega) hset]
  simp [hnoff]

/-- Process 0 yields on CPU 0, with interrupts enabled, and goes on on CPU 1, whose scheduler has them disabled. -/
def migrate : List Label :=
  [.alloc 0, .intr_on 0, .push_off 0, .swtch 0 0, .pop_off 0, .push_off 0, .sched 0, .push_off 1, .swtch 1 0, .schedRet 1]

theorem interrupts_restored_migrate : ∃ s t, run step Sys.init migrate = some s ∧ s.panic = none ∧
    step s (.pop_off 1) = some t ∧ (t.cpu 1).intr = (s.thread 1).before ∧ (s.thread 1).before = true := by
  have hsome : ((run step Sys.init migrate).bind fun s => (step s (.pop_off 1)).map fun t => (s, t)).any
      (fun x => decide ((x.1.cpu 1).proc = some 0 ∧ (x.1.thread 1).depth = 1 ∧ (x.1.thread 1).before = true)) = true := by
    decide +kernel
  obtain ⟨x, hx, hview⟩ := (Option.any_eq_true ..).mp hsome
  obtain ⟨s, hs, hx⟩ := Option.bind_eq_some_iff.mp hx
  obtain ⟨t, ht, rfl⟩ := Option.map_eq_some_iff.mp hx
  obtain ⟨hproc, hdepth, hbefore⟩ := of_decide_eq_true hview
  obtain ⟨hcalm, -, -, hrestored⟩ := interrupts_restored hs
  exact ⟨s, t, hs, hcalm, ht, hrestored 1 0 t hproc hdepth ht, hbefore⟩

end Minios.Nesting
