import Minios.Sched.Sleep

/-! `kernel/proc.c`: `kill` and the loops that test `killed()` before they sleep.

    `piperead`, `consoleread` and `wait` look at `p->killed` under `p->lock`, let that lock go, and take it
    again in `sleep`. The lock of the loop is held all the time, but `kill` does not take it:

        victim   killed() = 0  ·············  sleep: acquire(&p->lock), SLEEPING
        killer                  killed = 1,
                                RUNNING: nothing to wake

    A kill that falls into that window is not seen until something else wakes the victim. A kill at
    any other time is: before the test it is tested, and after the second `acquire` it finds the victim
    SLEEPING. -/

namespace Minios.Sched
open Schemes Function

variable {C : Type} {s t : Sys C} {c d : C} {p q : ℕ}

/-- The window: the test of `killed()` is done, `p->lock` is not yet taken again. -/
def Pc.InWindow : Pc → Prop
  | .at (.loopSleep _) => True
  | _ => False

instance : ∀ pc : Pc, Decidable pc.InWindow
  | .at (.loopSleep _) => .isTrue trivial
  | .at (.run _) | .at (.sleepAcq _ _) | .at (.test _) | .at (.wake _ _ _) | .at (.kill _ _ _) => .isFalse id
  | .scan | .schedBack | .forkret | .sched _ | .back _ | .sleepRel _ _ | .exitRel _ => .isFalse id

/-- The step is the one in which `kill` sets `p->killed`. -/
def kills (n : ℕ) (s : Sys C) (l : C × Act) (p : ℕ) : Bool := match (s.cpu l.1).pc with
  | .at (.kill _ pid j) => l.2 ≠ .yield ∧ j = p ∧ p < n ∧ (s.proc p).pid = pid
  | _ => false

/-- No kill falls into the window of its victim. -/
def noKillInWindow (n : ℕ) (s : Sys C) (l : C × Act) : Prop :=
  ∀ d, ∀ p ∈ (s.cpu d).stack, (s.cpu d).pc.InWindow → kills n s l p = false

instance [Fintype C] (n : ℕ) (s : Sys C) (l : C × Act) : Decidable (noKillInWindow n s l) :=
  inferInstanceAs (Decidable (∀ _, _))

/-- From the test on, until it has switched away, a thread that goes to sleep in one of the loops. -/
def Pc.Dozing : Pc → Prop
  | .at (.loopSleep _) => True
  | .sleepRel chan _ | .sched (.sleep chan _) => ∃ l : Loop, l.chan = chan
  | _ => False

theorem Pc.Dozing.state : ∀ {pc : Pc}, pc.Dozing → pc ≠ .schedBack ∧ (pc.state = .RUNNING ∨ pc.state = .SLEEPING)
  | .at (.loopSleep _), _ => ⟨by simp, .inl rfl⟩
  | .sleepRel _ _, _ => ⟨by simp, .inl rfl⟩
  | .sched (.sleep _ _), _ => ⟨by simp, .inr rfl⟩

theorem Pc.Resumable.not_dozing : ∀ {pc : Pc}, pc.Resumable → ¬ pc.Dozing
  | .forkret, _ => id
  | .back _, _ => id

/-- Who sleeps in one of the loops, or is about to, has not been killed. -/
structure Heeded (s : Sys C) : Prop where
  dozing : ∀ c p, (s.cpu c).stack = some p → (s.cpu c).pc.Dozing → (s.proc p).killed = false
  asleep : ∀ p (l : Loop), (∀ c, (s.cpu c).stack ≠ some p) → (s.proc p).state = .SLEEPING →
    (s.proc p).chan = some l.chan → (s.proc p).killed = false

theorem heeded_init : Heeded (Sys.init : Sys C) := by
  refine ⟨fun c p hc => (by cases hc), fun p l _ hst => ?_⟩
  change (update (fun _ => Proc.zero) 0 (Proc.zero.born 1) p : Proc C).state = .SLEEPING at hst
  rcases eq_or_ne p 0 with rfl | hp
  · rw [update_self] at hst; cases hst
  · rw [update_of_ne hp] at hst; cases hst

/-- A process that is SLEEPING on the channel of a loop, on its CPU or off it. -/
theorem Heeded.of_sleeping (hh : Heeded s) (h : Inv s) {l : Loop} (hst : (s.proc p).state = .SLEEPING)
    (hchan : (s.proc p).chan = some l.chan) : (s.proc p).killed = false := by
  by_cases hon : ∃ c, (s.cpu c).stack = some p
  · obtain ⟨c, hc⟩ := hon
    have ho := h.here c p (h.stack_proc hc)
    have hpc : (s.cpu c).pc ≠ .schedBack := by
      intro hpc
      have := (h.thread c).stack
      rw [Cpu.Stack, hpc] at this
      rw [this.1] at hc; cases hc
    rw [onCpu_iff hpc, hst, hchan] at ho
    refine hh.dozing c p hc ?_
    -- the only point at which a process on its CPU is SLEEPING is the call of `sched` in `sleep`
    obtain ⟨h1, h2, -⟩ := ho
    revert h1 h2
    cases (s.cpu c).pc with
    | sched k =>
      cases k with
      | sleep chan lk => exact fun _ h2 => ⟨l, Option.some.inj h2⟩
      | yield x => exact fun h1 => by cases h1
      | exit => exact fun h1 => by cases h1
    | «at» x => exact fun h1 => by cases h1
    | _ => exact fun h1 => by cases h1
  · exact hh.asleep p l (fun c hc => hon ⟨c, hc⟩) hst hchan

variable [DecidableEq C]

/-! ### A thread on its way to sleep -/

/-- After a step of CPU `c`, its thread is on its way to sleep only if it was before or has just tested. -/
def Doze (s : Sys C) (c : C) (t : Sys C) : Prop := ∀ p, (t.cpu c).stack = some p → (t.cpu c).pc.Dozing →
  (s.cpu c).stack = some p ∧ (t.proc p).killed = (s.proc p).killed ∧ ((s.cpu c).pc.Dozing ∨ (s.proc p).killed = false)

omit [DecidableEq C] in
theorem doze_fail (e : Panic) : Doze s c (s.fail e) := fun _ hp hd => ⟨hp, rfl, .inl hd⟩

theorem Doze.of_not {k : Cpu} (hcpu : t.cpu = update s.cpu c k) (hk : ¬ k.pc.Dozing) : Doze s c t := by
  intro p _ hd
  rw [hcpu, update_self] at hd
  exact absurd hd hk

theorem doze_under {pr : Proc C} {pc : Pc} (hpc : ¬ pc.Dozing) (h : s.under c q pr pc = some t) : Doze s c t := by
  rw [Sys.under] at h
  split at h
  · cases h; exact .of_not rfl hpc
  · cases h

theorem doze_acquireProc {pr : Proc C} {pc : Pc} (hpc : ¬ pc.Dozing) (h : s.acquireProc c q pr pc = some t) :
    Doze s c t := by
  rw [Sys.acquireProc] at h
  split at h
  · cases h; exact .of_not rfl hpc
  · cases h

theorem doze_releaseProc {pr : Proc C} {pc : Pc} (hpc : ¬ pc.Dozing) : Doze s c (s.releaseProc c q pr pc) := by
  rw [Sys.releaseProc]
  split
  · exact .of_not rfl hpc
  · exact doze_fail _

theorem doze_choose {n : ℕ} {held : List Lock} {a : Act} (ht : s.choose n c held a = some t) : Doze s c t := by
  cases a with
  | go => cases ht
  | intr => cases ht
  | yield => cases ht
  | wakeup chan => cases ht; exact .of_not rfl id
  | kill pid => cases ht; exact .of_not rfl id
  | acquire lk =>
    simp only [Sys.choose] at ht
    split at ht
    · cases ht; exact .of_not rfl id
    · cases ht
  | release lk =>
    simp only [Sys.choose] at ht
    split at ht
    · cases ht
      rw [Sys.releaseLock]
      split
      · exact .of_not rfl id
      · exact doze_fail _
    · cases ht
  | iret =>
    simp only [Sys.choose] at ht
    split at ht
    · cases ht; exact .of_not rfl id
    · cases ht
  | sleep a lk =>
    simp only [Sys.choose] at ht
    split at ht
    · split at ht
      · refine doze_acquireProc ?_ ht
        rintro ⟨l, hl⟩
        cases l <;> cases hl
      · cases ht
    · cases ht
  | loop l =>
    simp only [Sys.choose] at ht
    split at ht
    · split at ht
      · cases ht; exact .of_not rfl id
      · cases ht
    · cases ht
  | exit =>
    simp only [Sys.choose] at ht
    split at ht
    · split at ht
      · exact doze_acquireProc id ht
      · cases ht
    · cases ht
  | fork q =>
    simp only [Sys.choose] at ht
    split at ht
    · obtain ⟨u, hu, rfl⟩ := Option.map_eq_some_iff.mp ht
      have hd : Doze s c u := doze_under id hu
      exact hd
    · cases ht
  | reap q =>
    simp only [Sys.choose] at ht
    split at ht
    · exact doze_under id ht
    · cases ht

theorem doze_advance {n : ℕ} {a : Act} {x : Spot} (h : Inv s) (hx : (s.cpu c).pc = .at x)
    (ht : s.advance n c a x = some t) : Doze s c t := by
  cases x with
  | run held => exact doze_choose ht
  | sleepAcq chan lk =>
    simp only [Sys.advance] at ht
    split at ht
    · cases ht; exact .of_not rfl id
    · cases ht
  | test l =>
    simp only [Sys.advance] at ht
    split at ht
    · rename_i p hp
      cases hk : (s.proc p).killed with
      | true =>
        rw [hk] at ht
        exact doze_under id ht
      | false =>
        intro q hq _
        rw [Sys.under] at ht
        split at ht
        · cases ht
          rw [Sys.setCpu_self] at hq
          have hqp : q = p := Option.some.inj ((h.stack_proc hq).symm.trans hp)
          subst hqp
          refine ⟨hq, ?_, .inr hk⟩
          show (update s.proc q (s.proc q) q).killed = _
          rw [update_self]
        · cases ht
    · cases ht
  | loopSleep l =>
    simp only [Sys.advance] at ht
    split at ht
    · rename_i p hp
      intro q hq _
      rw [Sys.acquireProc] at ht
      split at ht
      · cases ht
        rw [Sys.setCpu_self] at hq
        have hqp : q = p := Option.some.inj ((h.stack_proc hq).symm.trans hp)
        subst hqp
        refine ⟨hq, ?_, .inl (by rw [hx]; trivial)⟩
        show (update s.proc q ((s.proc q).setLock (some c)) q).killed = _
        rw [update_self]; rfl
      · cases ht
    · cases ht
  | wake held chan j =>
    simp only [Sys.advance] at ht
    split at ht
    · split at ht
      · cases ht; exact .of_not rfl id
      · exact doze_under id ht
    · cases ht; exact .of_not rfl id
  | kill held pid j =>
    simp only [Sys.advance] at ht
    split at ht
    · split at ht
      · exact doze_under id ht
      · exact doze_under id ht
    · cases ht; exact .of_not rfl id

theorem doze_proceed (h : Inv s) (hp : (s.cpu c).proc = some p) (hpc : (s.cpu c).pc ≠ .schedBack)
    (ht : s.proceed c p (s.cpu c).pc = some t) : Doze s c t := by
  have ho := h.here c p hp
  rw [onCpu_iff hpc] at ho
  cases hk : (s.cpu c).pc with
  | scan => rw [hk] at ht; cases ht
  | schedBack => exact absurd hk hpc
  | «at» _ => rw [hk] at ht; cases ht
  | forkret => rw [hk] at ht; cases ht; exact doze_releaseProc id
  | sched k =>
    rw [hk] at ht
    cases ht
    rw [h.sched_eq hk hp]
    exact .of_not rfl id
  | back k =>
    rw [hk] at ht ho
    cases ht
    cases k with
    | yield x =>
      refine doze_releaseProc fun hd => ?_
      have hheld : x.held = [] := ho.2.2
      cases x with
      | loopSleep l => cases hheld
      | _ => exact hd
    | sleep chan lk => exact doze_releaseProc id
    | exit => exact doze_fail _
  | sleepRel chan lk =>
    rw [hk] at ht
    have hlk : s.lock lk = some c := (h.locks c lk).mpr (by rw [hk]; exact List.mem_singleton_self lk)
    cases ht
    rw [Sys.releaseLock, if_pos (by exact hlk)]
    intro q hq hd
    rw [Sys.setCpu_self] at hq hd
    have hqp : q = p := Option.some.inj ((h.stack_proc hq).symm.trans hp)
    subst hqp
    refine ⟨hq, ?_, .inl (by rw [hk]; exact hd)⟩
    show (update s.proc q _ q).killed = _
    rw [update_self]; rfl
  | exitRel lk =>
    rw [hk] at ht
    cases ht
    rw [Sys.releaseLock]
    split
    · exact .of_not rfl id
    · exact doze_fail _

theorem doze_move {n : ℕ} {a : Act} (h : Inv s) (ht : move n s c a = some t) : Doze s c t := by
  rw [Sched.move] at ht
  split at ht
  · rename_i hpc
    split at ht
    · cases ht; exact .of_not rfl id
    · rw [Sys.scheduler] at ht
      split_ifs at ht with hslot hfree hrun
      · cases ht
        refine .of_not rfl (Pc.Resumable.not_dozing ?_)
        exact ((h.away _ (h.free_away hfree (by rw [hrun]; decide))).runnable hrun).1
      · cases ht; exact .of_not rfl (by rw [Cpu.setSlot, hpc]; exact id)
      · cases ht; exact .of_not rfl (by rw [Cpu.setSlot, hpc]; exact id)
  · split at ht
    · cases ht; exact .of_not rfl id
    · cases ht; exact doze_fail _
  · rename_i x hx
    split at ht
    · rw [Sys.yield] at ht
      split at ht
      · split at ht
        · exact doze_acquireProc id ht
        · cases ht
      · cases ht
    · exact doze_advance h hx ht
  · rename_i hpc _
    split at ht
    · rename_i p hp
      exact doze_proceed h hp hpc ht
    · cases ht

/-! ### Every kill is heeded -/

/-- At a point in the loop of `kill`, a step that is not one of `kills` leaves the process there alone. -/
theorem not_kills {n : ℕ} {a : Act} {held : List Lock} (hpc : (s.cpu c).pc = .at (.kill held (s.proc p).pid p))
    (hk : kills n s (c, a) p = false) (hown : (s.cpu c).proc ≠ some p) (ht : move n s c a = some t) :
    t.proc p = s.proc p := by
  simp only [kills, hpc, decide_eq_false_iff_not, true_and, and_true, not_and] at hk
  rw [move, hpc] at ht
  simp only at ht
  split at ht
  · rw [Sys.yield] at ht
    split at ht
    · rename_i q hq
      have hne : p ≠ q := by rintro rfl; exact hown hq
      split at ht
      · rw [Sys.acquireProc] at ht
        split at ht
        · cases ht; exact update_of_ne hne ..
        · cases ht
      · cases ht
    · cases ht
  · rename_i ha
    rw [Sys.advance, if_neg (hk ha)] at ht
    cases ht
    rfl

/-- Who is on its way to sleep on another CPU is killed only in the window. -/
theorem dozing_killed {n : ℕ} {a : Act} (h : Inv s) (h' : Inv t) (hok : noKillInWindow n s (c, a))
    (ht : move n s c a = some t) (hdc : d ≠ c) (hp : (s.cpu d).stack = some p) (hd : (s.cpu d).pc.Dozing) :
    (t.proc p).killed = (s.proc p).killed := by
  have hr := reaches_move ht
  have hproc := h.stack_proc hp
  have hown : (s.cpu c).proc ≠ some p := fun hc => hdc (h.excl d c p hproc hc)
  have hst : (s.proc p).state = .RUNNING ∨ (s.proc p).state = .SLEEPING := by
    have ho := h.here d p hproc
    rw [onCpu_iff hd.state.1] at ho
    rw [ho.1]; exact hd.state.2
  rcases hr.proc p with h1 | ⟨h1, -⟩ | ⟨-, -, h1⟩ | ⟨-, h1⟩ | ⟨ch, -, h1⟩ | ⟨held, hpc, hfree, -⟩ | ⟨_, h1, -⟩ | ⟨h1, -⟩
  · rw [h1]
  · exact absurd h1 hown
  · rw [h1]; rfl
  · have hp' : (t.cpu d).stack = some p := by rw [hr.cpu d hdc]; exact hp
    exact absurd (h'.excl d c p (h'.stack_proc hp') (h'.stack_proc h1)) hdc
  · rw [h1, Proc.wakeup]
    split
    · rfl
    · rfl
  · -- its lock is free, so it is in the window
    obtain ⟨⟨x, hx⟩, -⟩ := h.free_here hfree hproc
    have hwin : (s.cpu d).pc.InWindow := by
      rw [hx] at hd ⊢
      cases x with
      | loopSleep l => trivial
      | _ => exact hd.elim
    rw [not_kills hpc (hok d p hp hwin) hown ht]
  · rw [h1] at hst; simp at hst
  · rw [h1] at hst; simp at hst

theorem Heeded.step {n : ℕ} {l : C × Act} (hh : Heeded s) (h : Inv s) (hok : noKillInWindow n s l)
    (ht : step n s l = some t) : Heeded t := by
  obtain ⟨c, a⟩ := l
  have h' := h.step ht
  have hmove : move n s c a = some t := by rwa [Sched.step, if_pos h.panic] at ht
  have hr := reaches_move hmove
  refine ⟨fun d p hp hd => ?_, fun p l hoff hst hchan => ?_⟩
  · rcases eq_or_ne d c with rfl | hdc
    · obtain ⟨hp', hk, hdz | hkf⟩ := doze_move h hmove p hp hd
      · rw [hk]; exact hh.dozing d p hp' hdz
      · rw [hk]; exact hkf
    · rw [hr.cpu d hdc] at hp hd
      rw [dozing_killed h h' hok hmove hdc hp hd]
      exact hh.dozing d p hp hd
  · by_cases hon : ∃ d, (s.cpu d).stack = some p
    · -- it has just switched away
      obtain ⟨d, hd⟩ := hon
      have hdc : d = c := by
        by_contra hne
        exact hoff d (by rw [hr.cpu d hne]; exact hd)
      subst hdc
      rcases moved_move h hmove with ⟨_, -, hidle, -⟩ | ⟨q, k, hpc, hq, -, -⟩ | ⟨hstack, -, -⟩
      · rw [hidle] at hd; cases hd
      · have heq : t.proc p = (s.proc p).setContext (.back k) := by
          rw [move_sched h hpc (h.stack_proc hd) hmove]; exact update_self ..
        rw [heq] at hst hchan ⊢
        exact hh.of_sleeping h hst hchan
      · exact absurd (hstack.trans hd) (hoff d)
    · have hoff' : ∀ d, (s.cpu d).stack ≠ some p := fun d hd => hon ⟨d, hd⟩
      rcases hr.proc p with h1 | ⟨h1, h2⟩ | ⟨-, -, h1⟩ | ⟨-, h1⟩ | ⟨ch, -, h1⟩ | ⟨_, -, -, h1⟩ | ⟨_, -, h1⟩ | ⟨-, h1⟩
      · rw [h1] at hst hchan ⊢
        exact hh.asleep p l hoff' hst hchan
      · exact absurd (h.proc_stack h1 h2) (hoff' c)
      · rw [h1] at hst hchan ⊢
        exact hh.asleep p l hoff' hst hchan
      · exact absurd h1 (hoff c)
      · rw [h1, Proc.wakeup] at hst hchan ⊢
        split_ifs at hst hchan ⊢
        · cases hst
        · exact hh.asleep p l hoff' hst hchan
      · -- a kill wakes who is SLEEPING
        rw [h1, Proc.kill] at hst
        split_ifs at hst with hs
        exact absurd hst hs
      · rw [h1] at hst; cases hst
      · rw [h1] at hst; cases hst

/-- CORRECT (kill, if no kill falls into the window between the test of `killed()` and the second
    `acquire(&p->lock)`): nobody sleeps in `piperead`, `consoleread` or `wait` with `killed` set. -/
theorem killed_not_asleep {n : ℕ} {ls : List (C × Act)} {t : Sys C}
    (hok : RunOk (step n) (noKillInWindow n) Sys.init ls) (hrun : run (step n) Sys.init ls = some t) (p : ℕ) (l : Loop) :
    ¬ ((t.proc p).state = .SLEEPING ∧ (t.proc p).chan = some l.chan ∧ (t.proc p).killed = true) := by
  have hinv : Inv t ∧ Heeded t :=
    run_inv_of (I := fun u => Inv u ∧ Heeded u) (fun u l v hu hl hv => ⟨hu.1.step hv, hu.2.step hu.1 hl hv⟩)
      ⟨inv_init, heeded_init⟩ hok hrun
  rintro ⟨hst, hchan, hk⟩
  rw [hinv.2.of_sleeping hinv.1 hst hchan] at hk
  cases hk

/-- Two processes on two CPUs; the second has `pid` 2, holds the lock of a loop and has tested `killed()`. -/
def intoWindow (l : Loop) : List (Bool × Act) :=
  [(false, .go), (false, .go), (false, .fork 1), (true, .go), (true, .go), (true, .go), (true, .acquire l.lk), (true, .loop l),
    (true, .go)]

/-- `kill(2)` by the first, from beginning to end. -/
def killTwo : List (Bool × Act) := [(false, .kill 2), (false, .go), (false, .go)]

/-- The victim goes on and switches away. -/
def fallsAsleep : List (Bool × Act) := [(true, .go), (true, .go), (true, .go), (true, .go)]

/-- `kill` comes after the victim has switched away: it makes it RUNNABLE. -/
theorem killed_not_asleep_late : ∃ t, run (step 2) Sys.init (intoWindow .consoleread ++ fallsAsleep ++ killTwo) = some t ∧
    (t.proc 1).killed = true ∧
    ¬ ((t.proc 1).state = .SLEEPING ∧ (t.proc 1).chan = some Loop.consoleread.chan ∧ (t.proc 1).killed = true) := by
  have hview : (run (step 2) Sys.init (intoWindow .consoleread ++ fallsAsleep ++ killTwo)).map
      (fun t => (t.proc 1).killed) = some true := by decide +kernel
  obtain ⟨t, ht, hk⟩ := Option.map_eq_some_iff.mp hview
  exact ⟨t, ht, hk, killed_not_asleep (by decide +kernel) ht 1 .consoleread⟩

/-- A kill in the window of the loop has returned, the victim sleeps with `killed` set, and no CPU is in a `wakeup`. -/
def Missed (l : Loop) : Prop :=
  ∃ t, run (step 2) Sys.init (intoWindow l ++ killTwo ++ fallsAsleep) = some t ∧ (t.cpu false).pc = .at (.run []) ∧
    (t.cpu true).pc = .scan ∧ (t.proc 1).state = .SLEEPING ∧ (t.proc 1).chan = some l.chan ∧ (t.proc 1).killed = true

theorem missed_of_view {l : Loop} (hview : (run (step 2) Sys.init (intoWindow l ++ killTwo ++ fallsAsleep)).any (fun t =>
    (t.cpu false).pc = .at (.run []) ∧ (t.cpu true).pc = .scan ∧ (t.proc 1).state = .SLEEPING ∧
      (t.proc 1).chan = some l.chan ∧ (t.proc 1).killed = true) = true) : Missed l := by
  rw [Option.any_eq_true] at hview
  obtain ⟨t, ht, hv⟩ := hview
  exact ⟨t, ht, of_decide_eq_true hv⟩

/-- It happens in each of the loops. -/
theorem kill_missed : Missed (.piperead 0) ∧ Missed .consoleread ∧ Missed (.wait 1) :=
  ⟨missed_of_view (by decide +kernel), missed_of_view (by decide +kernel), missed_of_view (by decide +kernel)⟩

end Minios.Sched
