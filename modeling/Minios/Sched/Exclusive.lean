import Minios.Sched.Switch

/-! `kernel/proc.c`: what a step can touch, and at most one CPU on a process.

    A step changes its own CPU, and of the processes at most one: its own, or one whose lock it finds
    free, or the one its scheduler takes up or lets go. -/

namespace Minios.Sched
open Schemes Function

variable {C : Type} {s t : Sys C} {c d : C} {p q : ℕ} {pr : Proc C} {k : Cpu} {pc : Pc}

/-! ### What a step touches -/

/-- What a step of CPU `c`, which is then `k`, can make of process `p`. -/
inductive Touch (s : Sys C) (c : C) (k : Cpu) (p : ℕ) (pr : Proc C) : Prop where
  | same (h : pr = s.proc p)
  | own (hc : (s.cpu c).proc = some p) (hpc : (s.cpu c).pc ≠ .schedBack)
  | left (hpc : (s.cpu c).pc = .schedBack) (hp : (s.cpu c).slot = p) (h : pr = (s.proc p).setLock none)
  | taken (hpc : (s.cpu c).pc = .scan) (hk : k.stack = some p)
  | woken (chan : Chan) (hfree : (s.proc p).lock = none) (h : pr = (s.proc p).wakeup chan)
  | killed (held : List Lock) (hpc : (s.cpu c).pc = .at (.kill held (s.proc p).pid p)) (hfree : (s.proc p).lock = none)
      (h : pr = (s.proc p).kill)
  | born (pid : BitVec 32) (hst : (s.proc p).state = .UNUSED) (h : pr = (s.proc p).born pid)
  | freed (hst : (s.proc p).state = .ZOMBIE) (h : pr = (s.proc p).freeproc)

/-- A step of CPU `c` leaves the other CPUs alone, and does to each process what is its to do. -/
structure Reaches (s : Sys C) (c : C) (t : Sys C) : Prop where
  cpu : ∀ d, d ≠ c → t.cpu d = s.cpu d
  proc : ∀ p, Touch s c (t.cpu c) p (t.proc p)

theorem reaches_fail (e : Panic) : Reaches s c (s.fail e) := ⟨fun _ _ => rfl, fun _ => .same rfl⟩

variable [DecidableEq C]

theorem Reaches.of (hcpu : t.cpu = update s.cpu c k) (hproc : t.proc = update s.proc q pr) (h : Touch s c k q pr) :
    Reaches s c t where
  cpu d hd := by rw [hcpu, update_of_ne hd]
  proc p := by
    rw [hproc, hcpu, update_self]
    rcases eq_or_ne p q with rfl | hp
    · rwa [update_self]
    · rw [update_of_ne hp]; exact .same rfl

theorem Reaches.quiet (hcpu : t.cpu = update s.cpu c k) (hproc : t.proc = s.proc) : Reaches s c t where
  cpu d hd := by rw [hcpu, update_of_ne hd]
  proc p := by rw [hproc]; exact .same rfl

theorem reaches_under (h : s.under c q pr pc = some t)
    (hq : (s.proc q).lock = none → Touch s c ((s.cpu c).setPc pc) q pr) : Reaches s c t := by
  rw [Sys.under] at h
  split at h
  · rename_i hfree
    cases h
    exact .of rfl rfl (hq hfree)
  · cases h

theorem reaches_acquireProc (hp : (s.cpu c).proc = some p) (hpc : (s.cpu c).pc ≠ .schedBack)
    (h : s.acquireProc c p pr pc = some t) : Reaches s c t := by
  rw [Sys.acquireProc] at h
  split at h
  · cases h
    exact .of rfl rfl (.own hp hpc)
  · cases h

theorem reaches_releaseProc (hp : (s.cpu c).proc = some p) (hpc : (s.cpu c).pc ≠ .schedBack) :
    Reaches s c (s.releaseProc c p pr pc) := by
  rw [Sys.releaseProc]
  split
  · exact .of rfl rfl (.own hp hpc)
  · exact reaches_fail _

theorem reaches_choose {n : ℕ} {held : List Lock} {a : Act} (hx : (s.cpu c).pc = .at (.run held))
    (ht : s.choose n c held a = some t) : Reaches s c t := by
  have hpc : (s.cpu c).pc ≠ .schedBack := by rw [hx]; simp
  cases a with
  | go => cases ht
  | intr => cases ht
  | yield => cases ht
  | acquire lk =>
    simp only [Sys.choose] at ht
    split at ht
    · cases ht; exact .quiet rfl rfl
    · cases ht
  | release lk =>
    simp only [Sys.choose] at ht
    split at ht
    · cases ht
      rw [Sys.releaseLock]
      split
      · exact .quiet rfl rfl
      · exact reaches_fail _
    · cases ht
  | iret =>
    simp only [Sys.choose] at ht
    split at ht
    · cases ht; exact .quiet rfl rfl
    · cases ht
  | wakeup chan => cases ht; exact .quiet rfl rfl
  | kill pid => cases ht; exact .quiet rfl rfl
  | sleep chan lk =>
    simp only [Sys.choose] at ht
    split at ht
    · rename_i p hp
      split at ht
      · exact reaches_acquireProc hp hpc ht
      · cases ht
    · cases ht
  | loop l =>
    simp only [Sys.choose] at ht
    split at ht
    · split at ht
      · cases ht; exact .quiet rfl rfl
      · cases ht
    · cases ht
  | exit =>
    simp only [Sys.choose] at ht
    split at ht
    · rename_i p hp
      split at ht
      · exact reaches_acquireProc hp hpc ht
      · cases ht
    · cases ht
  | fork q =>
    simp only [Sys.choose] at ht
    split at ht
    · rename_i hq
      obtain ⟨u, hu, rfl⟩ := Option.map_eq_some_iff.mp ht
      have hr : Reaches s c u := reaches_under hu fun _ => .born _ hq.2.2 rfl
      exact ⟨hr.cpu, hr.proc⟩
    · cases ht
  | reap q =>
    simp only [Sys.choose] at ht
    split at ht
    · rename_i hq
      exact reaches_under ht fun _ => .freed hq.2.2 rfl
    · cases ht

theorem reaches_advance {n : ℕ} {a : Act} {x : Spot} (hx : (s.cpu c).pc = .at x) (ht : s.advance n c a x = some t) :
    Reaches s c t := by
  have hpc : (s.cpu c).pc ≠ .schedBack := by rw [hx]; simp
  cases x with
  | run held => exact reaches_choose hx ht
  | sleepAcq chan lk =>
    simp only [Sys.advance] at ht
    split at ht
    · cases ht; exact .quiet rfl rfl
    · cases ht
  | test l =>
    simp only [Sys.advance] at ht
    split at ht
    · exact reaches_under ht fun _ => .same rfl
    · cases ht
  | loopSleep l =>
    simp only [Sys.advance] at ht
    split at ht
    · rename_i p hp
      exact reaches_acquireProc hp hpc ht
    · cases ht
  | wake held chan j =>
    simp only [Sys.advance] at ht
    split at ht
    · split at ht
      · cases ht; exact .quiet rfl rfl
      · exact reaches_under ht fun hfree => .woken chan hfree rfl
    · cases ht; exact .quiet rfl rfl
  | kill held pid j =>
    simp only [Sys.advance] at ht
    split at ht
    · split at ht
      · rename_i hpid
        exact reaches_under ht fun hfree => .killed held (hpid ▸ hx) hfree rfl
      · exact reaches_under ht fun _ => .same rfl
    · cases ht; exact .quiet rfl rfl

theorem reaches_proceed (hp : (s.cpu c).proc = some p) (hpc : (s.cpu c).pc ≠ .schedBack)
    (ht : s.proceed c p pc = some t) : Reaches s c t := by
  cases pc with
  | scan => cases ht
  | schedBack => cases ht
  | «at» _ => cases ht
  | forkret => cases ht; exact reaches_releaseProc hp hpc
  | sched k =>
    cases ht
    rw [Sys.sched]
    split_ifs
    · exact reaches_fail _
    · exact reaches_fail _
    · exact reaches_fail _
    · exact .of rfl rfl (.own hp hpc)
  | back k =>
    cases ht
    cases k with
    | yield x => exact reaches_releaseProc hp hpc
    | sleep chan lk => exact reaches_releaseProc hp hpc
    | exit => exact reaches_fail _
  | sleepRel chan lk =>
    cases ht
    rw [Sys.releaseLock]
    split
    · exact .of rfl rfl (.own hp hpc)
    · exact .of (update_eq_self c s.cpu).symm rfl (.own hp hpc)
  | exitRel lk =>
    cases ht
    rw [Sys.releaseLock]
    split
    · exact .quiet rfl rfl
    · exact reaches_fail _

theorem reaches_move {n : ℕ} {a : Act} (ht : move n s c a = some t) : Reaches s c t := by
  rw [Sched.move] at ht
  split at ht
  · rename_i hpc
    split at ht
    · cases ht; exact .quiet rfl rfl
    · rw [Sys.scheduler] at ht
      split_ifs at ht
      · cases ht; exact .of rfl rfl (.taken hpc rfl)
      · cases ht; exact .quiet rfl rfl
      · cases ht; exact .quiet rfl rfl
  · rename_i hpc
    split at ht
    · cases ht; exact .of rfl rfl (.left hpc rfl rfl)
    · cases ht; exact reaches_fail _
  · rename_i x hx
    have hpc : (s.cpu c).pc ≠ .schedBack := by rw [hx]; simp
    split at ht
    · rw [Sys.yield] at ht
      split at ht
      · rename_i p hp
        split at ht
        · exact reaches_acquireProc hp hpc ht
        · cases ht
      · cases ht
    · exact reaches_advance hx ht
  · rename_i hpc _
    split at ht
    · rename_i p hp
      exact reaches_proceed hp hpc ht
    · cases ht

/-! ### At most one CPU -/

theorem inv_run {n : ℕ} {ls : List (C × Act)} (h : run (step n) Sys.init ls = some t) : Inv t :=
  run_inv (fun _ _ _ => Inv.step) inv_init h

/-- CORRECT (one CPU): whatever the CPUs do, no process is on two of them, a RUNNING process is the current
    one of exactly one CPU, a process is resumed only when no CPU is on its stack any more, and the
    checks in `sched` pass. -/
theorem one_cpu {n : ℕ} {ls : List (C × Act)} {t : Sys C} (hrun : run (step n) Sys.init ls = some t) :
    (∀ c d p, (t.cpu c).stack = some p → (t.cpu d).stack = some p → c = d) ∧
    (∀ p, (t.proc p).state = .RUNNING → ∃! c, (t.cpu c).proc = some p) ∧
    (∀ c a u p, step n t (c, a) = some u → (t.cpu c).stack ≠ some p → (u.cpu c).stack = some p →
      ∀ d, (t.cpu d).stack ≠ some p) ∧
    t.panic = none := by
  have h := inv_run hrun
  refine ⟨fun c d p hc hd => h.excl c d p (h.stack_proc hc) (h.stack_proc hd), fun p hp => ?_, ?_, h.panic⟩
  · by_contra hno
    refine (h.away p fun c hc => hno ⟨c, hc, fun d hd => h.excl d c p hd hc⟩).off hp
  · intro c a u p hu hold hnew d hd
    have hinv := h.step hu
    rw [step, if_pos h.panic] at hu
    have hdc : d ≠ c := by rintro rfl; exact hold hd
    have hd' : (u.cpu d).stack = some p := by rw [(reaches_move hu).cpu d hdc]; exact hd
    exact hdc (hinv.excl d c p (hinv.stack_proc hd') (hinv.stack_proc hnew))

/-- Two CPUs: the first process forks and yields on CPU `false`, and goes on on CPU `true`. -/
def changeCpu : List (Bool × Act) :=
  [(false, .go), (false, .go), (false, .fork 1), (false, .yield), (false, .go), (true, .intr), (true, .iret),
    (false, .go), (true, .go), (true, .go)]

theorem one_cpu_changeCpu : ∃ t, run (step 2) Sys.init changeCpu = some t ∧ (t.cpu true).stack = some 0 ∧
    (t.proc 0).state = .RUNNING ∧ (t.cpu false).stack ≠ some 0 ∧ ∃! c, (t.cpu c).proc = some 0 := by
  have hview : (run (step 2) Sys.init changeCpu).map
      (fun t => ((t.cpu true).stack, (t.proc 0).state)) = some (some 0, .RUNNING) := by decide
  obtain ⟨t, ht, hv⟩ := Option.map_eq_some_iff.mp hview
  obtain ⟨h1, h2⟩ := Prod.mk.inj hv
  obtain ⟨hone, hcur, -, -⟩ := one_cpu ht
  exact ⟨t, ht, h1, h2, fun h0 => Bool.noConfusion (hone false true 0 h0 h1), hcur 0 h2⟩

end Minios.Sched
