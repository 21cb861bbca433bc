import Minios.Sched.Cpu

/-! `kernel/proc.c`: a process is on one CPU at most.

    What a CPU's thread holds can be read off where it is: the spin-locks (`Pc.held`), and the one
    `p->lock` it may have (`Cpu.plock`). That lock covers the time in which a process's state says
    that it does not run while it still does. So a process whose lock is free is RUNNING exactly when it
    is on a CPU, and otherwise its context is where it stopped. -/

namespace Minios.Sched
open Schemes Function

/-- Spin-locks held at a point, other than those of processes. -/
def Pc.held : Pc → List Lock
  | .at x => x.held
  | .sleepRel _ lk | .exitRel lk => [lk]
  | .scan | .schedBack | .forkret | .sched _ | .back _ => []

/-- The process whose lock the thread on a CPU holds. -/
def Cpu.plock (k : Cpu) : Option ℕ := match k.pc with
  | .schedBack => some k.slot
  | .forkret | .sched _ | .back _ | .sleepRel _ _ | .exitRel _ => k.proc
  | .scan | .at _ => none

/-- The thread on a CPU is the scheduler's (perhaps interrupted), or that of `c->proc`. -/
def Cpu.Stack (k : Cpu) : Prop := match k.pc with
  | .scan => k.stack = none ∧ k.proc = none
  | .schedBack => k.stack = none ∧ k.proc ≠ none
  | .at _ => k.stack = k.proc
  | .forkret | .sched _ | .back _ | .sleepRel _ _ | .exitRel _ => k.stack = k.proc ∧ k.proc ≠ none

structure Cpu.Thread (k : Cpu) : Prop where
  slot : ∀ p, k.proc = some p → k.slot = p
  stack : k.Stack

/-- The state of a process that is at a point. -/
def Pc.state : Pc → PState
  | .sched (.yield _) => .RUNNABLE
  | .sched (.sleep _ _) => .SLEEPING
  | .sched .exit | .exitRel _ => .ZOMBIE
  | .scan | .schedBack | .forkret | .at _ | .back _ | .sleepRel _ _ => .RUNNING

/-- `p->chan` of a process that is at a point. -/
def Pc.chan : Pc → Option Chan
  | .sched (.sleep chan _) | .back (.sleep chan _) => some chan
  | _ => none

/-- A thread yields without locks, and does not come back from `exit`. -/
def Pc.Sound : Pc → Prop
  | .sched (.yield x) | .back (.yield x) => x.held = []
  | .back .exit => False
  | _ => True

/-- A context from which a process goes on. -/
def Pc.Resumable : Pc → Prop
  | .forkret => True
  | .back k => (Pc.back k).Sound
  | _ => False

/-- A context saved in `sleep`. -/
def Pc.Slept : Pc → Prop
  | .back (.sleep _ _) => True
  | _ => False

variable {C : Type} {s t : Sys C} {c d : C} {p q : ℕ} {pr : Proc C} {k : Cpu} {pc : Pc}

/-- A process that is on no CPU. -/
structure Saved (pr : Proc C) : Prop where
  off : pr.state ≠ .RUNNING
  runnable : pr.state = .RUNNABLE → pr.context.Resumable ∧ pr.chan = pr.context.chan
  sleeping : pr.state = .SLEEPING → pr.context.Slept ∧ pr.chan = pr.context.chan
  idle : pr.state ≠ .RUNNABLE → pr.state ≠ .SLEEPING → pr.chan = none

/-- A process whose CPU is at `pc`. -/
def OnCpu (pr : Proc C) (pc : Pc) : Prop :=
  if pc = .schedBack then Saved pr else pr.state = pc.state ∧ pr.chan = pc.chan ∧ pc.Sound

structure Inv (s : Sys C) : Prop where
  panic : s.panic = none
  thread : ∀ c, (s.cpu c).Thread
  owner : ∀ c q, (s.proc q).lock = some c ↔ (s.cpu c).plock = some q
  locks : ∀ c lk, s.lock lk = some c ↔ lk ∈ (s.cpu c).pc.held
  nodup : ∀ c, (s.cpu c).pc.held.Nodup
  noff : ∀ c, (s.cpu c).noff = (s.cpu c).pc.held.length + if (s.cpu c).plock = none then 0 else 1
  excl : ∀ c d p, (s.cpu c).proc = some p → (s.cpu d).proc = some p → c = d
  here : ∀ c p, (s.cpu c).proc = some p → OnCpu (s.proc p) (s.cpu c).pc
  away : ∀ p, (∀ c, (s.cpu c).proc ≠ some p) → Saved (s.proc p)

/-! ### A process whose lock is free -/

theorem Cpu.plock_of_thread (h : k.Thread) (hp : k.proc = some p) (hl : k.plock ≠ some p) : ∃ x, k.pc = .at x := by
  have hs := h.stack
  rw [Stack] at hs
  rw [plock] at hl
  cases hpc : k.pc with
  | «at» x => exact ⟨x, rfl⟩
  | scan => rw [hpc] at hs; rw [hs.2] at hp; cases hp
  | schedBack => rw [hpc] at hl; exact absurd (congrArg some (h.slot p hp)) hl
  | forkret => rw [hpc] at hl; exact absurd hp hl
  | sched _ => rw [hpc] at hl; exact absurd hp hl
  | back _ => rw [hpc] at hl; exact absurd hp hl
  | sleepRel _ _ => rw [hpc] at hl; exact absurd hp hl
  | exitRel _ => rw [hpc] at hl; exact absurd hp hl

theorem Inv.stack_at (h : Inv s) {x : Spot} (hx : (s.cpu c).pc = .at x) : (s.cpu c).stack = (s.cpu c).proc := by
  have := (h.thread c).stack
  rwa [Cpu.Stack, hx] at this

theorem Inv.stack_proc (h : Inv s) (hp : (s.cpu c).stack = some p) : (s.cpu c).proc = some p := by
  have hs := (h.thread c).stack
  rw [Cpu.Stack] at hs
  cases hpc : (s.cpu c).pc with
  | scan => rw [hpc] at hs; rw [hs.1] at hp; cases hp
  | schedBack => rw [hpc] at hs; rw [hs.1] at hp; cases hp
  | «at» _ => rw [hpc] at hs; exact hs.symm.trans hp
  | forkret => rw [hpc] at hs; exact hs.1.symm.trans hp
  | sched _ => rw [hpc] at hs; exact hs.1.symm.trans hp
  | back _ => rw [hpc] at hs; exact hs.1.symm.trans hp
  | sleepRel _ _ => rw [hpc] at hs; exact hs.1.symm.trans hp
  | exitRel _ => rw [hpc] at hs; exact hs.1.symm.trans hp

theorem Inv.proc_stack (h : Inv s) (hp : (s.cpu c).proc = some p) (hpc : (s.cpu c).pc ≠ .schedBack) :
    (s.cpu c).stack = some p := by
  have hs := (h.thread c).stack
  rw [Cpu.Stack] at hs
  cases hk : (s.cpu c).pc with
  | scan => rw [hk] at hs; rw [hs.2] at hp; cases hp
  | schedBack => exact absurd hk hpc
  | «at» _ => rw [hk] at hs; exact hs.trans hp
  | forkret => rw [hk] at hs; exact hs.1.trans hp
  | sched _ => rw [hk] at hs; exact hs.1.trans hp
  | back _ => rw [hk] at hs; exact hs.1.trans hp
  | sleepRel _ _ => rw [hk] at hs; exact hs.1.trans hp
  | exitRel _ => rw [hk] at hs; exact hs.1.trans hp

theorem Inv.free_here (h : Inv s) (hlock : (s.proc p).lock = none) (hc : (s.cpu c).proc = some p) :
    (∃ x, (s.cpu c).pc = .at x) ∧ (s.proc p).state = .RUNNING ∧ (s.proc p).chan = none := by
  have hl : (s.cpu c).plock ≠ some p := fun he => by rw [(h.owner c p).mpr he] at hlock; cases hlock
  obtain ⟨x, hx⟩ := Cpu.plock_of_thread (h.thread c) hc hl
  have ho := h.here c p hc
  rw [hx, OnCpu, if_neg (by simp)] at ho
  exact ⟨⟨x, hx⟩, ho.1, ho.2.1⟩

theorem Inv.free_away (h : Inv s) (hlock : (s.proc p).lock = none) (hst : (s.proc p).state ≠ .RUNNING) :
    ∀ c, (s.cpu c).proc ≠ some p := fun _ hc => hst (h.free_here hlock hc).2.1

theorem onCpu_iff (hne : pc ≠ .schedBack) : OnCpu pr pc ↔ pr.state = pc.state ∧ pr.chan = pc.chan ∧ pc.Sound := by
  rw [OnCpu, if_neg hne]

theorem onCpu_at {x : Spot} : OnCpu pr (.at x) ↔ pr.state = .RUNNING ∧ pr.chan = none := by
  rw [onCpu_iff (by simp)]
  exact ⟨fun h => ⟨h.1, h.2.1⟩, fun h => ⟨h.1, h.2, trivial⟩⟩

/-- Without a process's lock, the count of locks is that of the spin-locks. -/
theorem Inv.noff_at (h : Inv s) {x : Spot} (hx : (s.cpu c).pc = .at x) : (s.cpu c).noff = x.held.length := by
  rw [h.noff c, Cpu.plock, hx]
  rfl

/-! ### Contexts -/

theorem saved_setLock {o : Option C} : Saved (pr.setLock o) ↔ Saved pr :=
  ⟨fun h => ⟨h.off, h.runnable, h.sleeping, h.idle⟩, fun h => ⟨h.off, h.runnable, h.sleeping, h.idle⟩⟩

/-- What is saved when a thread that called `sched` switches away. -/
theorem OnCpu.saved {k : Caller} (h : OnCpu pr (.sched k)) : Saved (pr.setContext (.back k)) := by
  rw [onCpu_iff (by simp)] at h
  obtain ⟨h1, h2, h3⟩ := h
  cases k with
  | yield x =>
    have h1 : pr.state = .RUNNABLE := h1
    exact ⟨by simp [Proc.setContext, h1], fun _ => ⟨h3, h2⟩, by simp [Proc.setContext, h1], by simp [Proc.setContext, h1]⟩
  | sleep chan lk =>
    have h1 : pr.state = .SLEEPING := h1
    exact ⟨by simp [Proc.setContext, h1], by simp [Proc.setContext, h1], fun _ => ⟨trivial, h2⟩,
      by simp [Proc.setContext, h1]⟩
  | exit =>
    have h1 : pr.state = .ZOMBIE := h1
    exact ⟨by simp [Proc.setContext, h1], by simp [Proc.setContext, h1], by simp [Proc.setContext, h1], fun _ _ => h2⟩

/-- Points a process is resumed at: it holds its lock, and no other. -/
theorem Pc.Resumable.point (h : pc.Resumable) : pc.held = [] ∧ pc.state = .RUNNING ∧ pc.Sound ∧ pc ≠ .schedBack ∧
    (∀ k : Cpu, k.pc = pc → k.plock = k.proc) ∧ ∀ k : Cpu, k.pc = pc → k.stack = k.proc → k.proc ≠ none → k.Stack := by
  cases pc with
  | forkret =>
    exact ⟨rfl, rfl, trivial, by simp, fun k hk => by rw [Cpu.plock, hk], fun k hk h1 h2 => by rw [Cpu.Stack, hk]; exact ⟨h1, h2⟩⟩
  | back m =>
    exact ⟨rfl, rfl, h, by simp, fun k hk => by rw [Cpu.plock, hk], fun k hk h1 h2 => by rw [Cpu.Stack, hk]; exact ⟨h1, h2⟩⟩
  | scan => exact h.elim
  | schedBack => exact h.elim
  | «at» _ => exact h.elim
  | sched _ => exact h.elim
  | sleepRel _ _ => exact h.elim
  | exitRel _ => exact h.elim

theorem Pc.Slept.resumable : ∀ {pc : Pc}, pc.Slept → pc.Resumable
  | .back (.sleep _ _), _ => trivial

theorem Saved.wakeup (h : Saved pr) (chan : Chan) : Saved (pr.wakeup chan) := by
  rw [Proc.wakeup]
  split
  · rename_i hs
    obtain ⟨h1, h2⟩ := h.sleeping hs.1
    exact ⟨by simp [Proc.setState], fun _ => ⟨h1.resumable, h2⟩, by simp [Proc.setState], by simp [Proc.setState]⟩
  · exact h

theorem saved_born (pid : BitVec 32) (h : pr.chan = none) : Saved (pr.born pid) :=
  ⟨by simp [Proc.born], fun _ => ⟨trivial, h⟩, by simp [Proc.born], by simp [Proc.born]⟩

theorem saved_freeproc : Saved pr.freeproc :=
  ⟨by simp [Proc.freeproc], by simp [Proc.freeproc], by simp [Proc.freeproc], fun _ _ => rfl⟩

theorem Saved.kill (h : Saved pr) : Saved pr.kill := by
  rcases eq_or_ne pr.state .SLEEPING with hs | hs
  · obtain ⟨h1, h2⟩ := h.sleeping hs
    have hst : pr.kill.state = .RUNNABLE := if_pos hs
    exact ⟨by simp [hst], fun _ => ⟨h1.resumable, h2⟩, by simp [hst], by simp [hst]⟩
  · have hst : pr.kill.state = pr.state := if_neg hs
    exact ⟨by rw [hst]; exact h.off, fun hr => h.runnable (hst ▸ hr), fun hr => absurd (hst ▸ hr) hs,
      fun h1 h2 => h.idle (hst ▸ h1) (hst ▸ h2)⟩

theorem Inv.released {lk : Lock} (h : Inv s) (hlk : s.lock lk = some c) :
    (∀ l, update s.lock lk none l = some c ↔ l ∈ (s.cpu c).pc.held.erase lk) ∧
      ∀ l d, d ≠ c → (update s.lock lk none l = some d ↔ s.lock l = some d) := by
  refine ⟨fun l => ?_, fun l d hd => ?_⟩
  · rw [(h.nodup c).mem_erase_iff, ← h.locks c l]
    rcases eq_or_ne l lk with rfl | hne
    · simp
    · rw [update_of_ne hne]; exact (and_iff_right hne).symm
  · rcases eq_or_ne l lk with rfl | hne
    · rw [update_self, hlk]; simpa using hd.symm
    · rw [update_of_ne hne]

theorem inv_init : Inv (Sys.init : Sys C) := by
  have hzero : Saved (Proc.zero : Proc C) :=
    ⟨by simp [Proc.zero], by simp [Proc.zero], by simp [Proc.zero], fun _ _ => rfl⟩
  have hproc : ∀ p, ((Sys.init : Sys C).proc p).lock = none ∧ Saved ((Sys.init : Sys C).proc p) := by
    intro p
    show (update (fun _ => Proc.zero) 0 (Proc.zero.born 1) p : Proc C).lock = none ∧
      Saved (update (fun _ => Proc.zero) 0 (Proc.zero.born 1) p : Proc C)
    rcases eq_or_ne p 0 with rfl | hp
    · rw [update_self]; exact ⟨rfl, saved_born 1 rfl⟩
    · rw [update_of_ne hp]; exact ⟨rfl, hzero⟩
  refine ⟨rfl, fun _ => ⟨fun _ hp => (by cases hp), rfl, rfl⟩, fun c q => ?_, fun _ _ => ?_, fun _ => List.nodup_nil,
    fun _ => rfl, fun _ _ _ hp => (by cases hp), fun _ _ hp => (by cases hp), fun p _ => (hproc p).2⟩
  · rw [(hproc q).1]
    exact iff_of_false (by simp) (by simp [Sys.init, Cpu.zero, Cpu.plock])
  · exact iff_of_false (by simp [Sys.init]) (by simp [Sys.init, Cpu.zero, Pc.held])

variable [DecidableEq C]

/-! ### Steps -/

theorem Inv.change (h : Inv s) (hcpu : t.cpu = update s.cpu c k) (hproc : t.proc = update s.proc q pr)
    (hpanic : t.panic = none) (hthread : k.Thread)
    (hown : ∀ r, (update s.proc q pr r).lock = some c ↔ k.plock = some r)
    (hown' : ∀ d, d ≠ c → (pr.lock = some d ↔ (s.proc q).lock = some d))
    (hlock : ∀ lk, t.lock lk = some c ↔ lk ∈ k.pc.held)
    (hlock' : ∀ lk d, d ≠ c → (t.lock lk = some d ↔ s.lock lk = some d))
    (hnodup : k.pc.held.Nodup) (hnoff : k.noff = k.pc.held.length + if k.plock = none then 0 else 1)
    (hexcl : ∀ d r, d ≠ c → k.proc = some r → (s.cpu d).proc ≠ some r)
    (hhere : ∀ r, k.proc = some r → OnCpu (update s.proc q pr r) k.pc)
    (hother : ∀ d, d ≠ c → (s.cpu d).proc = some q → OnCpu pr (s.cpu d).pc)
    (haway : ∀ r, (∀ d, d ≠ c → (s.cpu d).proc ≠ some r) → k.proc ≠ some r → Saved (update s.proc q pr r)) : Inv t := by
  have hself : t.cpu c = k := by rw [hcpu, update_self]
  have hne : ∀ {d}, d ≠ c → t.cpu d = s.cpu d := fun hd => by rw [hcpu, update_of_ne hd]
  refine ⟨hpanic, fun d => ?_, fun d r => ?_, fun d lk => ?_, fun d => ?_, fun d => ?_, fun d e r hd he => ?_,
    fun d r hd => ?_, fun r hr => ?_⟩
  · rcases eq_or_ne d c with rfl | hd
    · rwa [hself]
    · rw [hne hd]; exact h.thread d
  · rcases eq_or_ne d c with rfl | hd
    · rw [hself, hproc]; exact hown r
    · rw [hne hd, ← h.owner d r, hproc]
      rcases eq_or_ne r q with rfl | hr
      · rw [update_self]; exact hown' d hd
      · rw [update_of_ne hr]
  · rcases eq_or_ne d c with rfl | hd
    · rw [hself]; exact hlock lk
    · rw [hne hd, hlock' lk d hd]; exact h.locks d lk
  · rcases eq_or_ne d c with rfl | hd
    · rwa [hself]
    · rw [hne hd]; exact h.nodup d
  · rcases eq_or_ne d c with rfl | hd
    · rwa [hself]
    · rw [hne hd]; exact h.noff d
  · rcases eq_or_ne d c with rfl | hdc <;> rcases eq_or_ne e d with rfl | hed
    · rfl
    · rw [hself] at hd
      rw [hne hed] at he
      exact absurd he (hexcl e r hed hd)
    · rfl
    · rcases eq_or_ne e c with rfl | hec
      · rw [hself] at he
        rw [hne hdc] at hd
        exact absurd hd (hexcl d r hdc he)
      · rw [hne hdc] at hd
        rw [hne hec] at he
        exact h.excl d e r hd he
  · rw [hproc]
    rcases eq_or_ne d c with rfl | hdc
    · rw [hself] at hd ⊢; exact hhere r hd
    · rw [hne hdc] at hd ⊢
      rcases eq_or_ne r q with rfl | hrq
      · rw [update_self]; exact hother d hdc hd
      · rw [update_of_ne hrq]; exact h.here d r hd
  · rw [hproc]
    refine haway r (fun d hd => ?_) ?_
    · rw [← hne hd]; exact hr d
    · rw [← hself]; exact hr c

/-- The CPU stays with its process, and its thread holds that process's lock or none. -/
theorem Inv.own (h : Inv s) (hp : (s.cpu c).proc = some p) (hold : (s.proc p).lock = none ∨ (s.proc p).lock = some c)
    (hcpu : t.cpu = update s.cpu c k) (hproc : t.proc = update s.proc p pr) (hpanic : t.panic = none)
    (hkp : k.proc = some p) (hthread : k.Thread)
    (hown : pr.lock = none ∧ k.plock = none ∨ pr.lock = some c ∧ k.plock = some p)
    (hlock : ∀ lk, t.lock lk = some c ↔ lk ∈ k.pc.held)
    (hlock' : ∀ lk d, d ≠ c → (t.lock lk = some d ↔ s.lock lk = some d))
    (hnodup : k.pc.held.Nodup) (hnoff : k.noff = k.pc.held.length + if k.plock = none then 0 else 1)
    (hhere : OnCpu pr k.pc) : Inv t := by
  have hexcl : ∀ d, d ≠ c → (s.cpu d).proc ≠ some p := fun d hd he => hd (h.excl d c p he hp)
  have hplock : ∀ r, r ≠ p → (s.proc r).lock ≠ some c := by
    intro r hr he
    rw [h.owner c r] at he
    obtain ⟨x, hx⟩ := Cpu.plock_of_thread (h.thread c) hp (by rw [he]; simpa using hr)
    rw [Cpu.plock, hx] at he
    cases he
  refine h.change hcpu hproc hpanic hthread (fun r => ?_) (fun d hd => ?_) hlock hlock' hnodup hnoff
    (fun d r hd hr => ?_) (fun r hr => ?_) (fun d hd he => absurd he (hexcl d hd)) fun r hr hk => ?_
  · rcases eq_or_ne r p with rfl | hr
    · rw [update_self]
      rcases hown with ⟨h1, h2⟩ | ⟨h1, h2⟩ <;> simp [h1, h2]
    · rw [update_of_ne hr]
      refine iff_of_false (hplock r hr) ?_
      rcases hown with ⟨-, h2⟩ | ⟨-, h2⟩ <;> rw [h2]
      · simp
      · simpa using hr.symm
  · have h1 : pr.lock ≠ some d := by
      rcases hown with ⟨h1, -⟩ | ⟨h1, -⟩ <;> rw [h1]
      · simp
      · simpa using hd.symm
    have h2 : (s.proc p).lock ≠ some d := by
      rcases hold with h2 | h2 <;> rw [h2]
      · simp
      · simpa using hd.symm
    exact iff_of_false h1 h2
  · rw [hkp] at hr
    cases hr
    exact hexcl d hd
  · rw [hkp] at hr
    cases hr
    rwa [update_self]
  · have hrp : r ≠ p := by rintro rfl; exact hk hkp
    rw [update_of_ne hrp]
    refine h.away r fun d => ?_
    rcases eq_or_ne d c with rfl | hd
    · rw [hp]; simpa using hrp.symm
    · exact hr d hd

/-- The thread goes from a spot to a spot, and one process is then `pr`. -/
theorem Inv.spot {x y : Spot} (h : Inv s) (hx : (s.cpu c).pc = .at x) (hcpu : t.cpu = update s.cpu c k) (hy : k.pc = .at y)
    (hkp : k.proc = (s.cpu c).proc) (hks : k.stack = (s.cpu c).stack) (hkj : k.slot = (s.cpu c).slot)
    (hproc : t.proc = update s.proc q pr) (hpanic : t.panic = none) (hlock : ∀ lk, t.lock lk = some c ↔ lk ∈ y.held)
    (hlock' : ∀ lk d, d ≠ c → (t.lock lk = some d ↔ s.lock lk = some d)) (hnodup : y.held.Nodup)
    (hnoff : k.noff = y.held.length) (hpr : pr.lock = (s.proc q).lock)
    (hon : ∀ d, (s.cpu d).proc = some q → OnCpu pr (s.cpu d).pc) (haway : Saved (s.proc q) → Saved pr) : Inv t := by
  have hplock : (s.cpu c).plock = none := by rw [Cpu.plock, hx]
  have hplock' : k.plock = none := by rw [Cpu.plock, hy]
  refine h.change hcpu hproc hpanic ?_ (fun r => ?_) (fun d _ => by rw [hpr]) (by rw [hy]; exact hlock) hlock'
    (by rw [hy]; exact hnodup) (by rw [hplock', hy, hnoff]; rfl) (fun d r hd hr he => hd (h.excl d c r he (hkp ▸ hr)))
    (fun r hr => ?_) (fun d _ hd => hon d hd) fun r hr hk => ?_
  · refine ⟨by rw [hkp, hkj]; exact (h.thread c).slot, ?_⟩
    rw [Cpu.Stack, hy]
    exact hks.trans ((h.stack_at hx).trans hkp.symm)
  · have hnone : (s.proc r).lock = some c ↔ (s.cpu c).plock = some r := h.owner c r
    rw [hplock] at hnone
    rw [hplock', ← hnone]
    rcases eq_or_ne r q with rfl | hr
    · rw [update_self, hpr]
    · rw [update_of_ne hr]
  · rw [hkp] at hr
    rw [hy, onCpu_at]
    rcases eq_or_ne r q with rfl | hrq
    · rw [update_self, ← onCpu_at, ← hx]; exact hon c hr
    · rw [update_of_ne hrq, ← onCpu_at, ← hx]; exact h.here c r hr
  · have hall : ∀ d, (s.cpu d).proc ≠ some r := fun d => by
      rcases eq_or_ne d c with rfl | hd
      · exact hkp ▸ hk
      · exact hr d hd
    rcases eq_or_ne r q with rfl | hrq
    · rw [update_self]; exact haway (h.away r hall)
    · rw [update_of_ne hrq]; exact h.away r hall

theorem Inv.between {x y : Spot} (h : Inv s) (hx : (s.cpu c).pc = .at x) (hheld : y.held = x.held)
    (hcpu : t.cpu = update s.cpu c ((s.cpu c).setPc (.at y))) (hproc : t.proc = update s.proc q pr)
    (hpanic : t.panic = none) (hlock : t.lock = s.lock) (hpr : pr.lock = (s.proc q).lock)
    (hon : ∀ d, (s.cpu d).proc = some q → OnCpu pr (s.cpu d).pc) (haway : Saved (s.proc q) → Saved pr) : Inv t := by
  refine h.spot hx hcpu rfl rfl rfl rfl hproc hpanic (fun lk => ?_) (fun lk d _ => by rw [hlock]) ?_ ?_ hpr hon haway
  · rw [hlock, h.locks c lk, hx, hheld]; rfl
  · have := h.nodup c
    rw [hx] at this
    rw [hheld]; exact this
  · rw [hheld, ← h.noff_at hx]; rfl

theorem Inv.setPc {x y : Spot} (h : Inv s) (hx : (s.cpu c).pc = .at x) (hheld : y.held = x.held) :
    Inv (s.setCpu c ((s.cpu c).setPc (.at y))) :=
  h.between (q := 0) hx hheld rfl (update_eq_self ..).symm h.panic rfl rfl (fun d hd => h.here d 0 hd) id

/-- A critical section under the lock of one process. -/
theorem Inv.under {x y : Spot} (h : Inv s) (hx : (s.cpu c).pc = .at x)
    (ht : s.under c q pr (.at y) = some t) (hheld : y.held = x.held) (hpr : pr.lock = (s.proc q).lock)
    (hon : (s.proc q).state = .RUNNING → (s.proc q).chan = none → pr.state = .RUNNING ∧ pr.chan = none)
    (haway : Saved (s.proc q) → Saved pr) : Inv t := by
  rw [Sys.under] at ht
  split at ht
  · rename_i hfree
    cases ht
    refine h.between hx hheld rfl rfl h.panic rfl hpr (fun d hd => ?_) haway
    obtain ⟨⟨z, hz⟩, h1, h2⟩ := h.free_here hfree hd
    rw [hz, onCpu_at]
    exact hon h1 h2
  · cases ht

theorem Inv.acquireLock {x y : Spot} {lk : Lock} (h : Inv s) (hx : (s.cpu c).pc = .at x) (hheld : y.held = lk :: x.held)
    (hfree : s.lock lk = none) : Inv ((s.setLock lk (some c)).setCpu c ((s.cpu c).push (.at y))) := by
  have hnot : lk ∉ x.held := by
    have := h.locks c lk
    rw [hx, hfree] at this
    exact fun hm => Option.some_ne_none c (this.mpr hm).symm
  refine h.spot hx rfl rfl rfl rfl rfl (update_eq_self 0 s.proc).symm h.panic (fun l => ?_)
    (fun l d hd => ?_) ?_ ?_ rfl (fun d hd => h.here d 0 hd) id
  · show update s.lock lk (some c) l = some c ↔ l ∈ y.held
    rw [hheld, List.mem_cons]
    rcases eq_or_ne l lk with rfl | hne
    · simp
    · rw [update_of_ne hne, h.locks c l, hx]
      exact (or_iff_right hne).symm
  · show update s.lock lk (some c) l = some d ↔ s.lock l = some d
    rcases eq_or_ne l lk with rfl | hne
    · rw [update_self, hfree]; simpa using hd.symm
    · rw [update_of_ne hne]
  · have := h.nodup c
    rw [hx] at this
    rw [hheld]
    exact List.nodup_cons.mpr ⟨hnot, this⟩
  · show (s.cpu c).noff + 1 = _
    rw [hheld, h.noff_at hx]; rfl

theorem Inv.releaseLock {x y : Spot} {lk : Lock} (h : Inv s) (hx : (s.cpu c).pc = .at x) (hmem : lk ∈ x.held)
    (hheld : y.held = x.held.erase lk) : Inv (s.releaseLock c lk (.at y)) := by
  have hlk : s.lock lk = some c := (h.locks c lk).mpr (by rw [hx]; exact hmem)
  have hrel := h.released hlk
  rw [hx] at hrel
  have hnodup := h.nodup c
  rw [hx] at hnodup
  rw [Sys.releaseLock, if_pos hlk]
  refine h.spot hx rfl rfl rfl rfl rfl (update_eq_self 0 s.proc).symm h.panic (fun l => ?_) hrel.2 ?_ ?_
    rfl (fun d hd => h.here d 0 hd) id
  · rw [hheld]; exact hrel.1 l
  · rw [hheld]; exact hnodup.erase lk
  · show (s.cpu c).noff - 1 = _
    rw [hheld, List.length_erase_of_mem hmem, h.noff_at hx]

/-! ### Steps with a process's lock -/

theorem Inv.acquireOwn {x : Spot} (h : Inv s) (hx : (s.cpu c).pc = .at x) (hp : (s.cpu c).proc = some p)
    (ht : s.acquireProc c p pr pc = some t) (hheld : pc.held = x.held)
    (hplock : ((s.cpu c).push pc).plock = (s.cpu c).proc)
    (hthread : (s.cpu c).stack = (s.cpu c).proc → (s.cpu c).proc ≠ none → ((s.cpu c).push pc).Stack)
    (hhere : (s.proc p).state = .RUNNING → (s.proc p).chan = none → OnCpu (pr.setLock (some c)) pc) : Inv t := by
  rw [Sys.acquireProc] at ht
  split at ht
  · rename_i hfree
    cases ht
    have hstack := hthread (h.stack_at hx) (by rw [hp]; simp)
    have hlocks := fun lk => h.locks c lk
    have hnodup := h.nodup c
    rw [hx] at hnodup
    obtain ⟨-, h1, h2⟩ := h.free_here hfree hp
    refine h.own hp (.inl hfree) rfl rfl h.panic hp ⟨(h.thread c).slot, hstack⟩ (.inr ⟨rfl, hplock.trans hp⟩) (fun lk => ?_)
      (fun lk d _ => Iff.rfl) ?_ ?_ (hhere h1 h2)
    · show s.lock lk = some c ↔ lk ∈ pc.held
      rw [hlocks, hx, hheld]; rfl
    · show pc.held.Nodup
      rw [hheld]; exact hnodup
    · rw [hplock, hp]
      show (s.cpu c).noff + 1 = pc.held.length + 1
      rw [hheld, h.noff_at hx]
  · cases ht

theorem Inv.releaseOwn {y : Spot} (h : Inv s) (hp : (s.cpu c).proc = some p) (hplock : (s.cpu c).plock = some p)
    (hheld : (s.cpu c).pc.held = []) (hy : y.held = []) (hstack : (s.cpu c).stack = (s.cpu c).proc)
    (hlk : pr.lock = (s.proc p).lock) (hpr : pr.state = .RUNNING ∧ pr.chan = none) :
    Inv (s.releaseProc c p pr (.at y)) := by
  have hlock : (s.proc p).lock = some c := (h.owner c p).mpr hplock
  rw [Sys.releaseProc, if_pos (hlk.trans hlock)]
  refine h.own hp (.inr hlock) rfl rfl h.panic hp ⟨(h.thread c).slot, hstack⟩ (.inl ⟨rfl, rfl⟩) (fun lk => ?_) (fun lk d _ => Iff.rfl) ?_ ?_
    (onCpu_at.mpr hpr)
  · show s.lock lk = some c ↔ lk ∈ y.held
    rw [hy, h.locks c lk, hheld]
  · show y.held.Nodup
    rw [hy]; exact List.nodup_nil
  · show (s.cpu c).noff - 1 = y.held.length
    rw [h.noff c, hplock, hheld, hy]; rfl

/-- A thread that holds the lock of its process and a spin-lock releases the spin-lock. -/
theorem Inv.releaseTo {lk : Lock} {k : Caller} (h : Inv s) (hp : (s.cpu c).proc = some p)
    (hplock : (s.cpu c).plock = some p) (hheld : (s.cpu c).pc.held = [lk]) (hstack : (s.cpu c).stack = (s.cpu c).proc)
    (hlk : pr.lock = (s.proc p).lock) (hpr : OnCpu pr (.sched k)) :
    Inv ((s.setProc p pr).releaseLock c lk (.sched k)) := by
  have hlock : (s.proc p).lock = some c := (h.owner c p).mpr hplock
  have hl : s.lock lk = some c := (h.locks c lk).mpr (by rw [hheld]; exact List.mem_singleton_self lk)
  have hrel := h.released hl
  rw [hheld, List.erase_cons_head] at hrel
  have hsome : (s.cpu c).proc ≠ none := by rw [hp]; simp
  rw [Sys.releaseLock, if_pos (by exact hl)]
  refine h.own hp (.inr hlock) rfl rfl h.panic hp ⟨(h.thread c).slot, hstack, hsome⟩ (.inr ⟨hlk.trans hlock, hp⟩)
    hrel.1 hrel.2 List.nodup_nil ?_ hpr
  show (s.cpu c).noff - 1 = 0 + if (s.cpu c).proc = none then 0 else 1
  rw [h.noff c, hplock, hheld, hp]
  rfl

theorem Inv.sched_eq {k : Caller} (h : Inv s) (hpc : (s.cpu c).pc = .sched k) (hp : (s.cpu c).proc = some p) :
    s.sched c p k = (s.setProc p ((s.proc p).setContext (.back k))).setCpu c (s.cpu c).leave := by
  have hplock : (s.cpu c).plock = some p := by rw [Cpu.plock, hpc]; exact hp
  have hlock : (s.proc p).lock = some c := (h.owner c p).mpr hplock
  have hnoff : (s.cpu c).noff = 1 := by rw [h.noff c, hplock, hpc]; rfl
  have ho := h.here c p hp
  rw [hpc] at ho
  have hnot : (s.proc p).state ≠ .RUNNING := ho.saved.off
  rw [Sys.sched, if_neg (by simpa using hlock), if_neg (by simpa using hnoff), if_neg hnot]

/-- SWITCH OUT: the context says where to go on. -/
theorem Inv.leave {k : Caller} (h : Inv s) (hpc : (s.cpu c).pc = .sched k) (hp : (s.cpu c).proc = some p) :
    Inv (s.sched c p k) := by
  have hplock : (s.cpu c).plock = some p := by rw [Cpu.plock, hpc]; exact hp
  have hlock : (s.proc p).lock = some c := (h.owner c p).mpr hplock
  have hnoff : (s.cpu c).noff = 1 := by rw [h.noff c, hplock, hpc]; rfl
  have ho := h.here c p hp
  rw [hpc] at ho
  rw [h.sched_eq hpc hp]
  refine h.own hp (.inr hlock) rfl rfl h.panic hp ⟨(h.thread c).slot, rfl, by rw [Cpu.leave, hp]; simp⟩
    (.inr ⟨hlock, congrArg some ((h.thread c).slot p hp)⟩) (fun lk => ?_) (fun lk d _ => Iff.rfl) List.nodup_nil hnoff ?_
  · exact (h.locks c lk).trans (by rw [hpc]; rfl)
  · rw [Cpu.leave, OnCpu, if_pos rfl]
    exact ho.saved

/-- SWITCH IN: the process the scheduler takes up is on no CPU, and its context is where it stopped. -/
theorem Inv.enter (h : Inv s) (hpc : (s.cpu c).pc = .scan) (hslot : (s.cpu c).slot = p) (hfree : (s.proc p).lock = none)
    (hrun : (s.proc p).state = .RUNNABLE) :
    Inv ((s.setProc p (((s.proc p).setState .RUNNING).setLock (some c))).setCpu c
      ((s.cpu c).enter p (s.proc p).context)) := by
  have haway := h.free_away hfree (by rw [hrun]; decide)
  obtain ⟨hres, hchan⟩ := (h.away _ haway).runnable hrun
  obtain ⟨hheld, hstate, hsound, hne, hplock, hstack⟩ := hres.point
  have hsched := (h.thread c).stack
  rw [Cpu.Stack, hpc] at hsched
  have hpl : ((s.cpu c).enter p (s.proc p).context).plock = some p := hplock _ rfl
  refine h.change rfl rfl h.panic ⟨fun r hr => hslot.trans (Option.some.inj hr), hstack _ rfl rfl (Option.some_ne_none p)⟩
    (fun r => ?_) (fun d hd => ?_) (fun lk => ?_) (fun lk d _ => Iff.rfl) ?_ ?_ (fun d r _ hr => ?_) (fun r hr => ?_)
    (fun d _ hd => absurd hd (haway d)) fun r hr hk => ?_
  · rw [hpl]
    rcases eq_or_ne r p with rfl | hr
    · rw [update_self]; exact iff_of_true rfl rfl
    · rw [update_of_ne hr, h.owner c r, Cpu.plock, hpc]
      exact iff_of_false (by simp) (by simpa using hr.symm)
  · rw [hfree]
    exact iff_of_false (by simpa [Proc.setLock] using hd.symm) (by simp)
  · exact (h.locks c lk).trans (by rw [hpc]; show lk ∈ [] ↔ lk ∈ (s.proc p).context.held; rw [hheld])
  · show (s.proc p).context.held.Nodup
    rw [hheld]; exact List.nodup_nil
  · have hnoff := h.noff c
    rw [Cpu.plock, hpc] at hnoff
    show (s.cpu c).noff + 1 = (s.proc p).context.held.length + _
    rw [hpl, hheld, hnoff]; rfl
  · cases hr
    exact haway d
  · cases hr
    rw [update_self]
    show OnCpu _ (s.proc p).context
    rw [OnCpu, if_neg hne]
    exact ⟨hstate.symm, hchan, hsound⟩
  · have hrp : r ≠ p := by rintro rfl; exact hk rfl
    rw [update_of_ne hrp]
    refine h.away r fun d => ?_
    rcases eq_or_ne d c with rfl | hd
    · rw [hsched.2]; simp
    · exact hr d hd

/-- The scheduler releases the lock of the process that switched away. -/
theorem Inv.next (h : Inv s) (hpc : (s.cpu c).pc = .schedBack) (hslot : (s.cpu c).slot = p) :
    (s.proc p).lock = some c ∧ Inv ((s.setProc p ((s.proc p).setLock none)).setCpu c (s.cpu c).next) := by
  have hsched := (h.thread c).stack
  rw [Cpu.Stack, hpc] at hsched
  obtain ⟨r, hr⟩ := Option.ne_none_iff_exists'.mp hsched.2
  obtain rfl : p = r := hslot.symm.trans ((h.thread c).slot r hr)
  have hplock : (s.cpu c).plock = some p := by rw [Cpu.plock, hpc, ← hslot]
  have hlock : (s.proc p).lock = some c := (h.owner c p).mpr hplock
  have ho := h.here c p hr
  rw [hpc, OnCpu, if_pos rfl] at ho
  have hnone : (s.cpu c).next.plock = none := rfl
  refine ⟨hlock, h.change rfl rfl h.panic ⟨fun _ he => (by cases he), hsched.1, rfl⟩ (fun r => ?_)
    (fun d hd => ?_) (fun lk => ?_) (fun lk d _ => Iff.rfl) List.nodup_nil ?_ (fun d r _ he => by cases he)
    (fun r he => by cases he) (fun d hd he => absurd (h.excl d c p he hr) hd) fun r hall _ => ?_⟩
  · rw [hnone]
    refine iff_of_false ?_ (by simp)
    rcases eq_or_ne r p with rfl | hrp
    · rw [update_self]; simp [Proc.setLock]
    · rw [update_of_ne hrp, h.owner c r, hplock]; simpa using hrp.symm
  · rw [hlock]
    exact iff_of_false (by simp [Proc.setLock]) (by simpa using hd.symm)
  · exact (h.locks c lk).trans (by rw [hpc]; rfl)
  · have hnoff := h.noff c
    rw [hplock, hpc] at hnoff
    show (s.cpu c).noff - 1 = 0
    rw [hnoff]; rfl
  · rcases eq_or_ne r p with rfl | hrp
    · rw [update_self]; exact saved_setLock.mpr ho
    · rw [update_of_ne hrp]
      refine h.away r fun d => ?_
      rcases eq_or_ne d c with rfl | hd
      · rw [hr]; simpa using hrp.symm
      · exact hall d hd

theorem Inv.idle (h : Inv s) (hproc : (s.cpu c).proc = none) (hpc : (s.cpu c).pc = .scan ∨ (s.cpu c).pc = .at (.run []))
    (hk : k.pc = .scan ∨ k.pc = .at (.run [])) (hkp : k.proc = none) (hks : k.stack = none)
    (hnoff : k.noff = (s.cpu c).noff) : Inv (s.setCpu c k) := by
  have hplock : (s.cpu c).plock = none := by rcases hpc with hpc | hpc <;> rw [Cpu.plock, hpc]
  have hplock' : k.plock = none := by rcases hk with hk | hk <;> rw [Cpu.plock, hk]
  have hheld : (s.cpu c).pc.held = [] := by rcases hpc with hpc | hpc <;> rw [hpc] <;> rfl
  have hheld' : k.pc.held = [] := by rcases hk with hk | hk <;> rw [hk] <;> rfl
  have hstack : k.Stack := by
    rcases hk with hk | hk <;> rw [Cpu.Stack, hk]
    · exact ⟨hks, hkp⟩
    · exact hks.trans hkp.symm
  refine h.change rfl (update_eq_self 0 s.proc).symm h.panic ⟨by rw [hkp]; simp, hstack⟩ (fun r => ?_)
    (fun _ _ => Iff.rfl) (fun lk => ?_) (fun _ _ _ => Iff.rfl) ?_ ?_ (by rw [hkp]; simp) (by rw [hkp]; simp)
    (fun d _ hd => h.here d 0 hd) fun r hr _ => ?_
  · rw [update_eq_self, h.owner c r, hplock, hplock']
  · exact (h.locks c lk).trans (by rw [hheld, hheld'])
  · rw [hheld']; exact List.nodup_nil
  · rw [hnoff, h.noff c, hplock, hplock', hheld, hheld']
  · rw [update_eq_self]
    refine h.away r fun d => ?_
    rcases eq_or_ne d c with rfl | hd
    · rw [hproc]; simp
    · exact hr d hd

/-! ### Every step -/

theorem Inv.choose {n : ℕ} {held : List Lock} {a : Act} (h : Inv s) (hx : (s.cpu c).pc = .at (.run held))
    (ht : s.choose n c held a = some t) : Inv t := by
  cases a with
  | go => cases ht
  | intr => cases ht
  | yield => cases ht
  | acquire lk =>
    simp only [Sys.choose] at ht
    split at ht
    · rename_i hfree
      cases ht
      exact h.acquireLock hx rfl hfree
    · cases ht
  | release lk =>
    simp only [Sys.choose] at ht
    split at ht
    · rename_i hmem
      cases ht
      exact h.releaseLock hx hmem rfl
    · cases ht
  | iret =>
    simp only [Sys.choose] at ht
    split at ht
    · rename_i hidle
      obtain ⟨hstack, rfl⟩ := hidle
      cases ht
      have hproc : (s.cpu c).proc = none := (h.stack_at hx).symm.trans hstack
      exact h.idle hproc (.inr hx) (.inl rfl) hproc hstack rfl
    · cases ht
  | wakeup chan =>
    cases ht
    exact h.setPc hx rfl
  | kill pid =>
    cases ht
    exact h.setPc hx rfl
  | sleep chan lk =>
    simp only [Sys.choose] at ht
    split at ht
    · rename_i p hp
      split at ht
      · rename_i hheld
        subst hheld
        refine h.acquireOwn hx hp ht rfl rfl (fun h1 h2 => ⟨h1, h2⟩) fun h1 h2 => ?_
        exact (onCpu_iff (by simp)).mpr ⟨h1, h2, trivial⟩
      · cases ht
    · cases ht
  | loop l =>
    simp only [Sys.choose] at ht
    split at ht
    · split at ht
      · rename_i hheld
        cases ht
        exact h.setPc hx (by rw [hheld.1]; rfl)
      · cases ht
    · cases ht
  | exit =>
    simp only [Sys.choose] at ht
    split at ht
    · rename_i p hp
      split at ht
      · rename_i hheld
        subst hheld
        refine h.acquireOwn hx hp ht rfl rfl (fun h1 h2 => ⟨h1, h2⟩) fun _ h2 => ?_
        exact (onCpu_iff (by simp)).mpr ⟨rfl, h2, trivial⟩
      · cases ht
    · cases ht
  | fork q =>
    simp only [Sys.choose] at ht
    split at ht
    · rename_i hq
      obtain ⟨u, hu, rfl⟩ := Option.map_eq_some_iff.mp ht
      have hinv : Inv u := h.under hx hu rfl rfl (fun h1 _ => absurd (hq.2.2.symm.trans h1) (by decide)) fun hsaved =>
        saved_born _ (hsaved.idle (by rw [hq.2.2]; decide) (by rw [hq.2.2]; decide))
      exact ⟨hinv.panic, hinv.thread, hinv.owner, hinv.locks, hinv.nodup, hinv.noff, hinv.excl, hinv.here, hinv.away⟩
    · cases ht
  | reap q =>
    simp only [Sys.choose] at ht
    split at ht
    · rename_i hq
      exact h.under hx ht rfl rfl (fun h1 _ => absurd (hq.2.2.symm.trans h1) (by decide)) fun _ => saved_freeproc
    · cases ht

theorem Inv.advance {n : ℕ} {a : Act} {x : Spot} (h : Inv s) (hx : (s.cpu c).pc = .at x)
    (ht : s.advance n c a x = some t) : Inv t := by
  cases x with
  | run held => exact h.choose hx ht
  | sleepAcq chan lk =>
    simp only [Sys.advance] at ht
    split at ht
    · rename_i hfree
      cases ht
      exact h.acquireLock hx rfl hfree
    · cases ht
  | test l =>
    simp only [Sys.advance] at ht
    split at ht
    · refine h.under hx ht ?_ rfl (fun h1 h2 => ⟨h1, h2⟩) id
      split <;> rfl
    · cases ht
  | loopSleep l =>
    simp only [Sys.advance] at ht
    split at ht
    · rename_i p hp
      refine h.acquireOwn hx hp ht rfl rfl (fun h1 h2 => ⟨h1, h2⟩) fun h1 h2 => ?_
      exact (onCpu_iff (by simp)).mpr ⟨h1, h2, trivial⟩
    · cases ht
  | wake held chan j =>
    simp only [Sys.advance] at ht
    split at ht
    · split at ht
      · cases ht
        exact h.setPc hx rfl
      · refine h.under hx ht rfl ?_ (fun h1 h2 => ?_) fun hs => hs.wakeup chan
        · rw [Proc.wakeup]; split <;> rfl
        · rw [Proc.wakeup, if_neg (by simp [h1])]; exact ⟨h1, h2⟩
    · cases ht
      exact h.setPc hx rfl
  | kill held pid j =>
    simp only [Sys.advance] at ht
    split at ht
    · split at ht
      · exact h.under hx ht rfl rfl (fun h1 h2 => ⟨(if_neg (by rw [h1]; decide)).trans h1, h2⟩) Saved.kill
      · exact h.under hx ht rfl rfl (fun h1 h2 => ⟨h1, h2⟩) id
    · cases ht
      exact h.setPc hx rfl

theorem Inv.proceed (h : Inv s) (hp : (s.cpu c).proc = some p) (hpc : (s.cpu c).pc = pc)
    (ht : s.proceed c p pc = some t) : Inv t := by
  have ho := h.here c p hp
  have hs := (h.thread c).stack
  rw [Cpu.Stack, hpc] at hs
  rw [hpc] at ho
  cases pc with
  | scan => cases ht
  | schedBack => cases ht
  | «at» _ => cases ht
  | forkret =>
    cases ht
    rw [onCpu_iff (by simp)] at ho
    exact h.releaseOwn hp (by rw [Cpu.plock, hpc]; exact hp) (by rw [hpc]; rfl) rfl hs.1 rfl ⟨ho.1, ho.2.1⟩
  | sched k =>
    cases ht
    exact h.leave hpc hp
  | back k =>
    cases ht
    rw [onCpu_iff (by simp)] at ho
    have hplock : (s.cpu c).plock = some p := by rw [Cpu.plock, hpc]; exact hp
    cases k with
    | yield x => exact h.releaseOwn hp hplock (by rw [hpc]; rfl) ho.2.2 hs.1 rfl ⟨ho.1, ho.2.1⟩
    | sleep chan lk => exact h.releaseOwn hp hplock (by rw [hpc]; rfl) rfl hs.1 rfl ⟨ho.1, rfl⟩
    | exit => exact ho.2.2.elim
  | sleepRel chan lk =>
    cases ht
    refine h.releaseTo hp (by rw [Cpu.plock, hpc]; exact hp) (by rw [hpc]; rfl) hs.1 rfl ?_
    exact (onCpu_iff (by simp)).mpr ⟨rfl, rfl, trivial⟩
  | exitRel lk =>
    cases ht
    rw [onCpu_iff (by simp)] at ho
    have hinv := h.releaseTo (k := .exit) hp (by rw [Cpu.plock, hpc]; exact hp) (by rw [hpc]; rfl) hs.1
      (rfl : (s.proc p).lock = _) (by rw [onCpu_iff (by simp)]; exact ⟨ho.1, ho.2.1, trivial⟩)
    rwa [Sys.setProc, update_eq_self] at hinv

theorem Inv.yield {x : Spot} (h : Inv s) (hx : (s.cpu c).pc = .at x) (ht : s.yield c x = some t) : Inv t := by
  rw [Sys.yield] at ht
  split at ht
  · rename_i p hp
    split at ht
    · rename_i hheld
      refine h.acquireOwn hx hp ht (by rw [hheld]; rfl) rfl (fun h1 h2 => ⟨h1, h2⟩) fun _ h2 => ?_
      exact (onCpu_iff (by simp)).mpr ⟨rfl, h2, hheld⟩
    · cases ht
  · cases ht

theorem Inv.scheduler {n : ℕ} (h : Inv s) (hpc : (s.cpu c).pc = .scan) (ht : s.scheduler n c = some t) : Inv t := by
  have hs := (h.thread c).stack
  rw [Cpu.Stack, hpc] at hs
  rw [Sys.scheduler] at ht
  split at ht
  · split at ht
    · rename_i hfree
      split at ht
      · rename_i hrun
        cases ht
        exact h.enter hpc rfl hfree hrun
      · cases ht
        exact h.idle hs.2 (.inl hpc) (.inl hpc) hs.2 hs.1 rfl
    · cases ht
  · cases ht
    exact h.idle hs.2 (.inl hpc) (.inl hpc) hs.2 hs.1 rfl

theorem Inv.move {n : ℕ} {a : Act} (h : Inv s) (ht : move n s c a = some t) : Inv t := by
  rw [Sched.move] at ht
  split at ht
  · rename_i hpc
    have hs := (h.thread c).stack
    rw [Cpu.Stack, hpc] at hs
    split at ht
    · cases ht
      exact h.idle hs.2 (.inl hpc) (.inr rfl) hs.2 hs.1 rfl
    · exact h.scheduler hpc ht
  · rename_i hpc
    obtain ⟨hlock, hinv⟩ := h.next hpc rfl
    rw [if_pos hlock] at ht
    cases ht
    exact hinv
  · rename_i x hx
    split at ht
    · exact h.yield hx ht
    · exact h.advance hx ht
  · split at ht
    · rename_i p hp
      exact h.proceed hp rfl ht
    · cases ht

theorem Inv.step {n : ℕ} {l : C × Act} (h : Inv s) (ht : step n s l = some t) : Inv t := by
  rw [Sched.step, if_pos h.panic] at ht
  exact h.move ht

end Minios.Sched
