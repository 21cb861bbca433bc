import Minios.Sched.Exclusive

/-! `kernel/proc.c`: `sleep` and `wakeup` lose no wakeups.

    From where a process has released the lock `lk` in `sleep` until it is resumed, it is `Asleep`: first
    still on its CPU with its own lock held, then off it. A `wakeup` that begins in that time comes to its
    slot, and can look at it only when its lock is free: then it is SLEEPING on its channel, or
    has been made RUNNABLE already, and RUNNABLE it stays. -/

namespace Minios.Sched
open Schemes Function

variable {C : Type} {s t : Sys C} {c d : C} {p q : ℕ} {chan : Chan}

/-- Process `p` has released the lock in `sleep(chan, lk)` and has not been resumed. -/
def Asleep (s : Sys C) (p : ℕ) (chan : Chan) : Prop :=
  (∃ c lk, (s.cpu c).proc = some p ∧ (s.cpu c).pc = .sched (.sleep chan lk)) ∨
  (∀ c, (s.cpu c).stack ≠ some p) ∧ (∃ lk, (s.proc p).context = .back (.sleep chan lk)) ∧
    ((s.proc p).state = .SLEEPING ∨ (s.proc p).state = .RUNNABLE)

/-- Where the code that may be interrupted goes on. -/
def Pc.spot : Pc → Option Spot
  | .at x | .sched (.yield x) | .back (.yield x) => some x
  | _ => none

/-- The thread of process `q`, on a CPU or not, is at a spot. -/
def At (s : Sys C) (q : ℕ) (x : Spot) : Prop :=
  (∃ c, (s.cpu c).stack = some q ∧ (s.cpu c).pc.spot = some x) ∨
  (∀ c, (s.cpu c).stack ≠ some q) ∧ (s.proc q).context.spot = some x

variable [DecidableEq C]

/-- The step puts process `p` on a CPU. -/
def resumes (n : ℕ) (p : ℕ) (s : Sys C) (l : C × Act) : Bool :=
  (step n s l).any fun t => (t.cpu l.1).stack = some p ∧ (s.cpu l.1).stack ≠ some p

theorem not_resumes {n : ℕ} {l : C × Act} (h : resumes n p s l = false) (ht : step n s l = some t)
    (hs : (s.cpu l.1).stack ≠ some p) : (t.cpu l.1).stack ≠ some p := by
  intro hp
  rw [resumes, ht, Option.any_some, decide_eq_false_iff_not] at h
  exact h ⟨hp, hs⟩

/-! ### The sleeper -/

theorem move_sched {n : ℕ} {a : Act} {k : Caller} (h : Inv s) (hpc : (s.cpu c).pc = .sched k)
    (hp : (s.cpu c).proc = some p) (ht : move n s c a = some t) :
    t = (s.setProc p ((s.proc p).setContext (.back k))).setCpu c (s.cpu c).leave := by
  rw [← h.sched_eq hpc hp]
  rw [move, hpc, hp] at ht
  exact (Option.some.inj ht).symm

/-- A process stays asleep until it is resumed, and RUNNABLE once it is. -/
theorem Asleep.step {n : ℕ} {l : C × Act} (hsleep : Asleep s p chan) (h : Inv s) (ht : step n s l = some t)
    (hres : resumes n p s l = false) :
    Asleep t p chan ∧ ((s.proc p).state = .RUNNABLE → (t.proc p).state = .RUNNABLE) := by
  obtain ⟨d, a⟩ := l
  have hmove : move n s d a = some t := by rwa [Sched.step, if_pos h.panic] at ht
  have hr := reaches_move hmove
  rcases hsleep with ⟨c, lk, hp, hpc⟩ | ⟨hoff, ⟨lk, hctx⟩, hst⟩
  · have ho := h.here c p hp
    rw [hpc, onCpu_iff (by simp)] at ho
    have hlock : (s.proc p).lock = some c := (h.owner c p).mpr (by rw [Cpu.plock, hpc]; exact hp)
    refine ⟨?_, fun hrun => absurd (ho.1.symm.trans hrun) (by simp [Pc.state])⟩
    rcases eq_or_ne d c with rfl | hdc
    · -- its own step: it switches away
      right
      have heq := move_sched h hpc hp hmove
      have hproc : t.proc p = (s.proc p).setContext (.back (.sleep chan lk)) := by rw [heq]; exact update_self ..
      refine ⟨fun e => ?_, ⟨lk, by rw [hproc]; rfl⟩, .inl (by rw [hproc]; exact ho.1)⟩
      rcases eq_or_ne e d with rfl | hne
      · rw [heq, Sys.setCpu]
        show (update s.cpu e (s.cpu e).leave e).stack ≠ _
        rw [update_self]; simp [Cpu.leave]
      · rw [hr.cpu e hne]
        exact fun he => hne (h.excl e d p (h.stack_proc he) hp)
    · exact .inl ⟨c, lk, by rw [hr.cpu c hdc.symm]; exact hp, by rw [hr.cpu c hdc.symm]; exact hpc⟩
  · have hoff' : ∀ e, (t.cpu e).stack ≠ some p := by
      intro e
      rcases eq_or_ne e d with rfl | hne
      · exact not_resumes hres ht (hoff e)
      · rw [hr.cpu e hne]; exact hoff e
    have hkeep : (t.proc p).context = (s.proc p).context ∧ ((t.proc p).state = (s.proc p).state ∨ (t.proc p).state = .RUNNABLE) := by
      rcases hr.proc p with h1 | ⟨h1, h2⟩ | ⟨-, -, h1⟩ | ⟨-, h1⟩ | ⟨ch, -, h1⟩ | ⟨_, -, -, h1⟩ | ⟨-, h1, -⟩ | ⟨h1, -⟩
      · rw [h1]; exact ⟨rfl, .inl rfl⟩
      · exact absurd (h.proc_stack h1 h2) (hoff d)
      · rw [h1]; exact ⟨rfl, .inl rfl⟩
      · exact absurd h1 (hoff' d)
      · rw [h1, Proc.wakeup]
        split
        · exact ⟨rfl, .inr rfl⟩
        · exact ⟨rfl, .inl rfl⟩
      · rw [h1]
        refine ⟨rfl, ?_⟩
        rcases hst with hst | hst
        · exact .inr (if_pos hst)
        · exact .inl (if_neg (by rw [hst]; decide))
      · rw [h1] at hst; simp at hst
      · rw [h1] at hst; simp at hst
    obtain ⟨hc, hs⟩ := hkeep
    refine ⟨.inr ⟨hoff', ⟨lk, hc.trans hctx⟩, ?_⟩, fun hrun => ?_⟩
    · rcases hs with hs | hs
      · rw [hs]; exact hst
      · exact .inr hs
    · rcases hs with hs | hs
      · rw [hs]; exact hrun
      · exact hs

/-! ### The waker -/

/-- The loop of `wakeup` goes on to the next slot when it has looked at one. -/
def Onward (s t : Sys C) (c : C) : Prop := ∀ held chan j, (t.cpu c).pc.spot = some (.wake held chan j) →
  (s.cpu c).pc.spot = some (.wake held chan j) ∨ j = 0 ∨ ∃ i, j = i + 1 ∧ (s.cpu c).pc = .at (.wake held chan i) ∧
    ((s.cpu c).proc = some i ∨ (s.proc i).lock = none ∧ t.proc i = (s.proc i).wakeup chan)

/-- What a step of CPU `c` does to the thread on it. -/
inductive Moved (n : ℕ) (s : Sys C) (c : C) (t : Sys C) : Prop where
  | enter (p : ℕ) (hlt : p < n) (hidle : (s.cpu c).stack = none) (hoff : ∀ d, (s.cpu d).proc ≠ some p) (hstack : (t.cpu c).stack = some p)
      (hpc : (t.cpu c).pc = (s.proc p).context)
  | leave (p : ℕ) (k : Caller) (hpc : (s.cpu c).pc = .sched k) (hp : (s.cpu c).stack = some p)
      (hstack : (t.cpu c).stack = none) (hctx : (t.proc p).context = .back k)
  | stay (hstack : (t.cpu c).stack = (s.cpu c).stack)
      (hctx : ∀ p, (s.cpu c).stack = some p → (t.proc p).context = (s.proc p).context) (hon : Onward s t c)

/-- The point is not in the loop of `wakeup`. -/
def Pc.Plain (pc : Pc) : Prop := ∀ held chan j, pc.spot ≠ some (.wake held chan j)

theorem Moved.of {n : ℕ} {k : Cpu} {pr : Proc C} (hcpu : t.cpu = update s.cpu c k) (hproc : t.proc = update s.proc q pr)
    (hstack : k.stack = (s.cpu c).stack) (hctx : (s.cpu c).stack = some q → pr.context = (s.proc q).context)
    (hspot : k.pc.spot = (s.cpu c).pc.spot ∨ k.pc.Plain) : Moved n s c t := by
  have hself : t.cpu c = k := by rw [hcpu, update_self]
  refine .stay (by rw [hself, hstack]) (fun p hp => ?_) fun held chan j hw => ?_
  · rw [hproc]
    rcases eq_or_ne p q with rfl | hne
    · rw [update_self]; exact hctx hp
    · rw [update_of_ne hne]
  · rw [hself] at hw
    rcases hspot with hspot | hspot
    · exact .inl (hspot ▸ hw)
    · exact absurd hw (hspot held chan j)

theorem Moved.quiet {n : ℕ} {k : Cpu} (hcpu : t.cpu = update s.cpu c k) (hproc : t.proc = s.proc)
    (hstack : k.stack = (s.cpu c).stack) (hspot : k.pc.spot = (s.cpu c).pc.spot ∨ k.pc.Plain) : Moved n s c t :=
  .of hcpu (hproc.trans (update_eq_self 0 s.proc).symm) hstack (fun _ => rfl) hspot

omit [DecidableEq C] in
theorem moved_fail {n : ℕ} (e : Panic) : Moved n s c (s.fail e) := .stay rfl (fun _ _ => rfl) fun _ _ _ hw => .inl hw

theorem moved_under {n : ℕ} {pr : Proc C} {pc : Pc} (h : s.under c q pr pc = some t) (hctx : pr.context = (s.proc q).context)
    (hspot : pc.Plain) : Moved n s c t := by
  rw [Sys.under] at h
  split at h
  · cases h
    exact .of rfl rfl rfl (fun _ => hctx) (.inr hspot)
  · cases h

theorem moved_acquireProc {n : ℕ} {pr : Proc C} {pc : Pc} (h : s.acquireProc c q pr pc = some t)
    (hctx : pr.context = (s.proc q).context) (hspot : pc.spot = (s.cpu c).pc.spot ∨ pc.Plain) : Moved n s c t := by
  rw [Sys.acquireProc] at h
  split at h
  · cases h
    exact .of rfl rfl rfl (fun _ => hctx) hspot
  · cases h

theorem moved_releaseProc {n : ℕ} {pr : Proc C} {pc : Pc} (hctx : pr.context = (s.proc q).context)
    (hspot : pc.spot = (s.cpu c).pc.spot ∨ pc.Plain) : Moved n s c (s.releaseProc c q pr pc) := by
  rw [Sys.releaseProc]
  split
  · exact .of rfl rfl rfl (fun _ => hctx) hspot
  · exact moved_fail _

theorem plain_run (held : List Lock) : (Pc.at (.run held)).Plain := fun _ _ _ h => by cases h

theorem plain_of_none {pc : Pc} (h : pc.spot = none) : pc.Plain := fun _ _ _ hw => by rw [h] at hw; cases hw

theorem moved_choose {n : ℕ} {held : List Lock} {a : Act} (h : Inv s) (hx : (s.cpu c).pc = .at (.run held))
    (ht : s.choose n c held a = some t) : Moved n s c t := by
  cases a with
  | go => cases ht
  | intr => cases ht
  | yield => cases ht
  | acquire lk =>
    simp only [Sys.choose] at ht
    split at ht
    · cases ht; exact .quiet rfl rfl rfl (.inr (plain_run _))
    · cases ht
  | release lk =>
    simp only [Sys.choose] at ht
    split at ht
    · cases ht
      rw [Sys.releaseLock]
      split
      · exact .quiet rfl rfl rfl (.inr (plain_run _))
      · exact moved_fail _
    · cases ht
  | iret =>
    simp only [Sys.choose] at ht
    split at ht
    · cases ht; exact .quiet rfl rfl rfl (.inr (plain_of_none rfl))
    · cases ht
  | wakeup chan =>
    cases ht
    refine .stay (by rw [Sys.setCpu_self]; rfl) (fun _ _ => rfl) fun _ _ j hw => .inr (.inl ?_)
    rw [Sys.setCpu_self] at hw
    cases hw
    rfl
  | kill pid => cases ht; exact .quiet rfl rfl rfl (.inr fun _ _ _ hw => by cases hw)
  | sleep chan lk =>
    simp only [Sys.choose] at ht
    split at ht
    · split at ht
      · exact moved_acquireProc ht rfl (.inr (plain_of_none rfl))
      · cases ht
    · cases ht
  | loop l =>
    simp only [Sys.choose] at ht
    split at ht
    · split at ht
      · cases ht; exact .quiet rfl rfl rfl (.inr fun _ _ _ hw => by cases hw)
      · cases ht
    · cases ht
  | exit =>
    simp only [Sys.choose] at ht
    split at ht
    · split at ht
      · exact moved_acquireProc ht rfl (.inr (plain_of_none rfl))
      · cases ht
    · cases ht
  | fork q =>
    simp only [Sys.choose] at ht
    split at ht
    · rename_i hq
      obtain ⟨u, hu, rfl⟩ := Option.map_eq_some_iff.mp ht
      rw [Sys.under] at hu
      split at hu
      · cases hu
        refine .of rfl rfl rfl (fun hp => ?_) (.inr (plain_run _))
        have ho := h.here c q (h.stack_proc hp)
        rw [hx, onCpu_at, hq.2.2] at ho
        cases ho.1
      · cases hu
    · cases ht
  | reap q =>
    simp only [Sys.choose] at ht
    split at ht
    · exact moved_under ht rfl (plain_run _)
    · cases ht

theorem moved_advance {n : ℕ} {a : Act} {x : Spot} (h : Inv s) (hx : (s.cpu c).pc = .at x)
    (ht : s.advance n c a x = some t) : Moved n s c t := by
  cases x with
  | run held => exact moved_choose h hx ht
  | sleepAcq chan lk =>
    simp only [Sys.advance] at ht
    split at ht
    · cases ht; exact .quiet rfl rfl rfl (.inr (plain_run _))
    · cases ht
  | test l =>
    simp only [Sys.advance] at ht
    split at ht
    · refine moved_under ht rfl ?_
      split
      · exact plain_run _
      · exact fun _ _ _ hw => by cases hw
    · cases ht
  | loopSleep l =>
    simp only [Sys.advance] at ht
    split at ht
    · exact moved_acquireProc ht rfl (.inr (plain_of_none rfl))
    · cases ht
  | wake held chan j =>
    simp only [Sys.advance] at ht
    split at ht
    · -- slot `j` is the waker's own, or is looked at under its lock
      have hnext : ∀ {u : Sys C}, u.cpu = update s.cpu c ((s.cpu c).setPc (.at (.wake held chan (j + 1)))) →
          (∀ p, (u.proc p).context = (s.proc p).context) →
          ((s.cpu c).proc = some j ∨ (s.proc j).lock = none ∧ u.proc j = (s.proc j).wakeup chan) → Moved n s c u := by
        intro u hu hctx hj
        refine .stay (by rw [hu, update_self]; rfl) (fun p _ => hctx p) fun held' chan' j' hw => ?_
        rw [hu, update_self] at hw
        cases hw
        exact .inr (.inr ⟨j, rfl, hx, hj⟩)
      split at ht
      · rename_i hself
        cases ht
        exact hnext rfl (fun _ => rfl) (.inl hself)
      · rw [Sys.under] at ht
        split at ht
        · rename_i hfree
          cases ht
          refine hnext rfl (fun p => ?_) (.inr ⟨hfree, update_self ..⟩)
          show (update s.proc j _ p).context = _
          rcases eq_or_ne p j with rfl | hne
          · rw [update_self, Proc.wakeup]; split <;> rfl
          · rw [update_of_ne hne]
        · cases ht
    · cases ht; exact .quiet rfl rfl rfl (.inr (plain_run _))
  | kill held pid j =>
    simp only [Sys.advance] at ht
    split at ht
    · split at ht
      · exact moved_under ht rfl (plain_run _)
      · exact moved_under ht rfl fun _ _ _ hw => by cases hw
    · cases ht; exact .quiet rfl rfl rfl (.inr (plain_run _))

theorem moved_proceed {n : ℕ} {pc : Pc} (h : Inv s) (hp : (s.cpu c).proc = some p) (hpc : (s.cpu c).pc = pc)
    (ht : s.proceed c p pc = some t) : Moved n s c t := by
  cases pc with
  | scan => cases ht
  | schedBack => cases ht
  | «at» _ => cases ht
  | forkret => cases ht; exact moved_releaseProc rfl (.inr (plain_run _))
  | sched k =>
    cases ht
    rw [h.sched_eq hpc hp]
    refine .leave p k hpc (h.proc_stack hp (by rw [hpc]; simp)) ?_ ?_
    · rw [Sys.setCpu_self]; rfl
    · exact congrArg Proc.context (s.setProc_self ..)
  | back k =>
    cases ht
    cases k with
    | yield x => exact moved_releaseProc rfl (.inl (by rw [hpc]; rfl))
    | sleep chan lk => exact moved_releaseProc rfl (.inr fun _ _ _ hw => by cases hw)
    | exit => exact moved_fail _
  | sleepRel chan lk =>
    cases ht
    rw [Sys.releaseLock]
    split
    · exact .of rfl rfl rfl (fun _ => rfl) (.inr (plain_of_none rfl))
    · exact .of (update_eq_self c s.cpu).symm rfl rfl (fun _ => rfl) (.inl rfl)
  | exitRel lk =>
    cases ht
    rw [Sys.releaseLock]
    split
    · exact .quiet rfl rfl rfl (.inr (plain_of_none rfl))
    · exact moved_fail _

theorem moved_move {n : ℕ} {a : Act} (h : Inv s) (ht : move n s c a = some t) : Moved n s c t := by
  rw [Sched.move] at ht
  split at ht
  · rename_i hpc
    split at ht
    · cases ht; exact .quiet rfl rfl rfl (.inr (plain_run _))
    · rw [Sys.scheduler] at ht
      split_ifs at ht with hlt hfree hrun
      · cases ht
        have hs := (h.thread c).stack
        rw [Cpu.Stack, hpc] at hs
        refine .enter (s.cpu c).slot hlt hs.1 (h.free_away hfree (by rw [hrun]; decide)) ?_ ?_
        · rw [Sys.setCpu_self]; rfl
        · rw [Sys.setCpu_self]; rfl
      · cases ht; exact .quiet rfl rfl rfl (.inl rfl)
      · cases ht; exact .quiet rfl rfl rfl (.inl rfl)
  · split at ht
    · cases ht; exact .of rfl rfl rfl (fun _ => rfl) (.inr (plain_of_none rfl))
    · cases ht; exact moved_fail _
  · rename_i x hx
    split at ht
    · rw [Sys.yield] at ht
      split at ht
      · split at ht
        · exact moved_acquireProc ht rfl (.inl (by rw [hx]; rfl))
        · cases ht
      · cases ht
    · exact moved_advance h hx ht
  · split at ht
    · rename_i p hp
      exact moved_proceed h hp rfl ht
    · cases ht

/-! ### Both -/

/-- Sleeper `p`, and the waker `q` that began after `p` was asleep: past `p`'s slot only if `p` is RUNNABLE. -/
structure Watch (s : Sys C) (p q : ℕ) (chan : Chan) : Prop where
  asleep : Asleep s p chan
  passed : ∀ held j, At s q (.wake held chan j) → j ≤ p ∨ (s.proc p).state = .RUNNABLE

/-- Where a waker is after a step, it was before, or it has just begun, or has looked at a slot. -/
theorem At.before {n : ℕ} {a : Act} {held : List Lock} {j : ℕ} (h : Inv s) (ht : move n s c a = some t)
    (hat : At t q (.wake held chan j)) : At s q (.wake held chan j) ∨ j = 0 ∨ ∃ i, j = i + 1 ∧
      At s q (.wake held chan i) ∧ (i = q ∨ (s.proc i).lock = none ∧ t.proc i = (s.proc i).wakeup chan) := by
  have hr := reaches_move ht
  have hm := moved_move h ht
  rcases hat with ⟨d, hd, hspot⟩ | ⟨hoff, hspot⟩
  · rcases eq_or_ne d c with rfl | hne
    · rcases hm with ⟨p, -, -, hoff, hstack, hpc⟩ | ⟨_, _, _, _, hstack, _⟩ | ⟨hstack, -, hon⟩
      · cases hd.symm.trans hstack
        rw [hpc] at hspot
        exact .inl (.inr ⟨fun e he => hoff e (h.stack_proc he), hspot⟩)
      · cases hd.symm.trans hstack
      · rw [hstack] at hd
        rcases hon held chan j hspot with h1 | h1 | ⟨i, hi, hpc, hseen⟩
        · exact .inl (.inl ⟨d, hd, h1⟩)
        · exact .inr (.inl h1)
        · refine .inr (.inr ⟨i, hi, .inl ⟨d, hd, by rw [hpc]; rfl⟩, ?_⟩)
          rcases hseen with hself | hseen
          · exact .inl (Option.some.inj (hself.symm.trans (h.stack_proc hd)))
          · exact .inr hseen
    · rw [hr.cpu d hne] at hd hspot
      exact .inl (.inl ⟨d, hd, hspot⟩)
  · left
    by_cases hon : ∃ d, (s.cpu d).stack = some q
    · -- it has just switched away
      obtain ⟨d, hd⟩ := hon
      obtain rfl : d = c := by
        by_contra hne
        exact hoff d (by rw [hr.cpu d hne]; exact hd)
      rcases hm with ⟨_, -, hidle, -⟩ | ⟨p, k, hpc, hp, -, hctx⟩ | ⟨hstack, -, -⟩
      · cases hd.symm.trans hidle
      · cases hd.symm.trans hp
        rw [hctx] at hspot
        refine .inl ⟨d, hd, ?_⟩
        rw [hpc]
        cases k with
        | yield x => exact hspot
        | sleep _ _ => cases hspot
        | exit => cases hspot
      · exact absurd (hstack.trans hd) (hoff d)
    · have hon : ∀ d, (s.cpu d).stack ≠ some q := fun d hd => hon ⟨d, hd⟩
      refine .inr ⟨hon, ?_⟩
      rcases hr.proc q with h1 | ⟨h1, h2⟩ | ⟨-, -, h1⟩ | ⟨-, h1⟩ | ⟨ch, -, h1⟩ | ⟨_, -, -, h1⟩ | ⟨_, -, h1⟩ | ⟨-, h1⟩
      · rwa [h1] at hspot
      · exact absurd (h.proc_stack h1 h2) (hon c)
      · rw [h1] at hspot; exact hspot
      · exact absurd h1 (hoff c)
      · rw [h1, Proc.wakeup] at hspot
        split at hspot
        · exact hspot
        · exact hspot
      · rw [h1] at hspot; exact hspot
      · rw [h1] at hspot; cases hspot
      · rw [h1] at hspot; exact hspot

omit [DecidableEq C] in
/-- At the moment a waker looks at a sleeper whose lock is free, the sleeper is off its CPU and is made RUNNABLE. -/
theorem Asleep.woken (hsleep : Asleep s p chan) (h : Inv s) (hfree : (s.proc p).lock = none) :
    ((s.proc p).wakeup chan).state = .RUNNABLE := by
  rcases hsleep with ⟨c, lk, hp, hpc⟩ | ⟨hoff, ⟨lk, hctx⟩, hst⟩
  · have hlock : (s.proc p).lock = some c := (h.owner c p).mpr (by rw [Cpu.plock, hpc]; exact hp)
    rw [hlock] at hfree
    cases hfree
  · rw [Proc.wakeup]
    rcases hst with hst | hst
    · have haway := h.free_away hfree (by rw [hst]; decide)
      have hchan := ((h.away p haway).sleeping hst).2
      rw [hctx] at hchan
      rw [if_pos ⟨hst, hchan⟩]; rfl
    · rw [if_neg (by rw [hst]; simp)]
      exact hst

theorem Watch.step {n : ℕ} {l : C × Act} (hw : Watch s p q chan) (h : Inv s) (hpq : q ≠ p) (ht : step n s l = some t)
    (hres : resumes n p s l = false) : Watch t p q chan := by
  obtain ⟨hsleep, hkeep⟩ := hw.asleep.step h ht hres
  refine ⟨hsleep, fun held j hat => ?_⟩
  have hmove : move n s l.1 l.2 = some t := by rwa [Sched.step, if_pos h.panic] at ht
  rcases hat.before h hmove with hat | rfl | ⟨i, rfl, hat, hseen⟩
  · exact (hw.passed held j hat).imp_right hkeep
  · exact .inl (Nat.zero_le _)
  · rcases hw.passed held i hat with hi | hi
    · rcases eq_or_ne i p with rfl | hne
      · right
        rcases hseen with rfl | ⟨hfree, hproc⟩
        · exact absurd rfl hpq
        · rw [hproc]; exact hw.asleep.woken h hfree
      · exact .inl (by omega)
    · exact .inr (hkeep hi)

theorem stack_lt {n : ℕ} {ls : List (C × Act)} (h : run (step n) Sys.init ls = some t) :
    (t.cpu c).stack = some p → p < n := by
  have hinv : Inv t ∧ ∀ c p, (t.cpu c).stack = some p → p < n := by
    refine run_inv (I := fun t => Inv t ∧ ∀ c p, (t.cpu c).stack = some p → p < n) (fun s l u hs hu => ?_)
      ⟨inv_init, fun _ _ hc => by cases hc⟩ h
    have hmove : move n s l.1 l.2 = some u := by rwa [Sched.step, if_pos hs.1.panic] at hu
    refine ⟨hs.1.step hu, fun d r hd => ?_⟩
    rcases eq_or_ne d l.1 with rfl | hne
    · rcases moved_move hs.1 hmove with ⟨r', hlt, -, -, hstack, -⟩ | ⟨_, _, _, _, hstack, _⟩ | ⟨hstack, -, -⟩
      · cases hd.symm.trans hstack
        exact hlt
      · cases hd.symm.trans hstack
      · exact hs.2 _ r (hstack ▸ hd)
    · rw [(reaches_move hmove).cpu d hne] at hd
      exact hs.2 d r hd
  exact hinv.2 c p

/-- On behalf of `q`, a CPU begins `wakeup(chan)`. -/
def Begins (s : Sys C) (q : ℕ) (chan : Chan) (l : C × Act) : Prop :=
  l.2 = .wakeup chan ∧ (s.cpu l.1).stack = some q ∧ ∃ held, (s.cpu l.1).pc = .at (.run held)

/-- On behalf of `q`, a CPU completes `wakeup(chan)`: all `n` slots are done. -/
def Completes (n : ℕ) (s : Sys C) (q : ℕ) (chan : Chan) (l : C × Act) : Prop :=
  l.2 ≠ .yield ∧ (s.cpu l.1).stack = some q ∧ ∃ held j, (s.cpu l.1).pc = .at (.wake held chan j) ∧ n ≤ j

theorem asleep_of_release {n : ℕ} {a : Act} {lk : Lock} (h : Inv s) (hp : (s.cpu c).stack = some p)
    (hpc : (s.cpu c).pc = .sleepRel chan lk) (ht : step n s (c, a) = some t) : Asleep t p chan := by
  have hproc := h.stack_proc hp
  have hlk : s.lock lk = some c := (h.locks c lk).mpr (by rw [hpc]; exact List.mem_singleton_self lk)
  rw [Sched.step, if_pos h.panic, move, hpc, hproc] at ht
  simp only [Sys.proceed, Sys.releaseLock] at ht
  rw [if_pos (by exact hlk)] at ht
  cases ht
  refine .inl ⟨c, lk, ?_, ?_⟩
  · rw [Sys.setCpu_self]; exact hproc
  · rw [Sys.setCpu_self]; rfl

theorem Asleep.watch {n : ℕ} {l : C × Act} (hsleep : Asleep s p chan) (h : Inv s) (hb : Begins s q chan l)
    (ht : Sched.step n s l = some t) (hres : resumes n p s l = false) : Watch t p q chan := by
  obtain ⟨-, hq, held, hpc⟩ := hb
  have hmove : move n s l.1 l.2 = some t := by rwa [Sched.step, if_pos h.panic] at ht
  have hnot : ∀ held j, ¬ At s q (.wake held chan j) := by
    rintro held' j (⟨d, hd, hspot⟩ | ⟨hoff, -⟩)
    · obtain rfl := h.excl d l.1 q (h.stack_proc hd) (h.stack_proc hq)
      rw [hpc] at hspot
      cases hspot
    · exact hoff _ hq
  refine ⟨(hsleep.step h ht hres).1, fun held' j hat => ?_⟩
  rcases hat.before h hmove with hat | rfl | ⟨i, -, hat, -⟩
  · exact absurd hat (hnot held' j)
  · exact .inl (Nat.zero_le _)
  · exact absurd hat (hnot held' i)

/-- CORRECT (no lost wakeups): a process has called `sleep(chan, lk)`. A `wakeup(chan)` that another process
    begins after the release of `lk` and completes before the sleeper is resumed leaves it RUNNABLE; and
    `sleep` returns with `lk` held and `p->chan = 0`. -/
theorem sleep_wakeup {n : ℕ} {ls : List (C × Act)} {s : Sys C} (hs : run (step n) Sys.init ls = some s) (c : C) (p : ℕ)
    (chan : Chan) (lk : Lock) (hp : (s.cpu c).stack = some p) :
    (∀ a s₁ ls₁ s₂ b s₃ ls₂ s₄ e s₅ q, (s.cpu c).pc = .sleepRel chan lk → step n s (c, a) = some s₁ →
      run (step n) s₁ ls₁ = some s₂ → q ≠ p → Begins s₂ q chan b → step n s₂ b = some s₃ →
      run (step n) s₃ ls₂ = some s₄ → Completes n s₄ q chan e → step n s₄ e = some s₅ →
      RunOk (step n) (fun s l => resumes n p s l = false) s₁ (ls₁ ++ b :: (ls₂ ++ [e])) →
      (s₅.proc p).state = .RUNNABLE) ∧
    (∀ a t, (s.cpu c).pc = .at (.sleepAcq chan lk) → a ≠ .yield → step n s (c, a) = some t →
      (t.cpu c).pc = .at (.run [lk]) ∧ t.lock lk = some c ∧ (t.proc p).chan = none) := by
  have h := inv_run hs
  refine ⟨fun a s₁ ls₁ s₂ b s₃ ls₂ s₄ e s₅ q hpc h₁ h₂ hpq hb h₃ h₄ he h₅ hok => ?_, fun a t hpc ha ht => ?_⟩
  · obtain ⟨hok₁, hok₂⟩ := hok.append h₂
    obtain ⟨hb_ok, hok₂⟩ := hok₂
    obtain ⟨hok₃, hok₄⟩ := (hok₂ s₃ h₃).append h₄
    have hsleep : Inv s₂ ∧ Asleep s₂ p chan :=
      run_inv_of (I := fun u => Inv u ∧ Asleep u p chan)
        (fun u l v hu hl hv => ⟨hu.1.step hv, (hu.2.step hu.1 hv hl).1⟩)
        ⟨h.step h₁, asleep_of_release h hp hpc h₁⟩ hok₁ h₂
    have hwatch : Inv s₄ ∧ Watch s₄ p q chan :=
      run_inv_of (I := fun u => Inv u ∧ Watch u p q chan)
        (fun u l v hu hl hv => ⟨hu.1.step hv, hu.2.step hu.1 hpq hv hl⟩)
        ⟨hsleep.1.step h₃, hsleep.2.watch hsleep.1 hb h₃ hb_ok⟩ hok₃ h₄
    obtain ⟨-, hq, held, j, hat, hj⟩ := he
    have hrun : (s₄.proc p).state = .RUNNABLE := by
      rcases hwatch.2.passed held j (.inl ⟨e.1, hq, by rw [hat]; rfl⟩) with hle | hrun
      · have := stack_lt hs hp
        omega
      · exact hrun
    exact (hwatch.2.asleep.step hwatch.1 h₅ hok₄.1).2 hrun
  · have ho := h.here c p (h.stack_proc hp)
    rw [hpc, onCpu_at] at ho
    rw [Sched.step, if_pos h.panic, move, hpc] at ht
    simp only [if_neg ha, Sys.advance] at ht
    split at ht
    · cases ht
      refine ⟨?_, update_self .., ho.2⟩
      rw [Sys.setCpu_self]; rfl
    · cases ht

/-- Two processes on two CPUs; the first is in `sleep`, about to release the lock. -/
def fallAsleep : List (Bool × Act) :=
  [(false, .go), (false, .go), (false, .fork 1), (true, .go), (true, .go), (true, .go),
   (false, .acquire (.other 0)), (false, .sleep 0 (.other 0))]

theorem sleep_wakeup_fallAsleep : ∃ s s₅, run (step 2) Sys.init fallAsleep = some s ∧
    (s.cpu false).pc = .sleepRel (.other 0) (.other 0) ∧
    run (step 2) s [(false, .go), (false, .go), (false, .go), (true, .wakeup (.other 0)), (true, .go), (true, .go), (true, .go)] =
      some s₅ ∧ (s₅.proc 0).state = .RUNNABLE := by
  have hview : (run (step 2) Sys.init fallAsleep).any (fun s => decide ((s.cpu false).stack = some 0 ∧
      (s.cpu false).pc = .sleepRel (.other 0) (.other 0)) && (step 2 s (false, .go)).any fun s₁ =>
      decide (RunOk (step 2) (fun s l => resumes 2 0 s l = false) s₁
        ([(false, .go), (false, .go)] ++ (true, .wakeup (.other 0)) :: ([(true, .go), (true, .go)] ++ [(true, .go)]))) &&
      (run (step 2) s₁ [(false, .go), (false, .go)]).any fun s₂ =>
      decide ((s₂.cpu true).stack = some 1 ∧ (s₂.cpu true).pc = .at (.run [])) &&
      (step 2 s₂ (true, .wakeup (.other 0))).any fun s₃ => (run (step 2) s₃ [(true, .go), (true, .go)]).any fun s₄ =>
      decide ((s₄.cpu true).stack = some 1 ∧ (s₄.cpu true).pc = .at (.wake [] (.other 0) 2)) &&
      (step 2 s₄ (true, .go)).isSome) = true := by decide +kernel
  simp only [Option.any_eq_true, Bool.and_eq_true, decide_eq_true_eq] at hview
  obtain ⟨s, hs, ⟨hp, hpc⟩, s₁, h₁, hok, s₂, h₂, ⟨hb, hbpc⟩, s₃, h₃, s₄, h₄, ⟨he, hepc⟩, h₅⟩ := hview
  obtain ⟨s₅, h₅⟩ := Option.isSome_iff_exists.mp h₅
  refine ⟨s, s₅, hs, hpc, ?_, (sleep_wakeup hs false 0 (.other 0) (.other 0) hp).1 .go s₁ _ s₂ _ s₃ _ s₄ _ s₅ 1 hpc h₁ h₂
    (by decide) ⟨rfl, hb, [], hbpc⟩ h₃ h₄ ⟨by decide, he, [], 2, hepc, le_rfl⟩ h₅ hok⟩
  have hwhole : run (step 2) s₁ ([(false, .go), (false, .go)] ++ (true, .wakeup (.other 0)) ::
      ([(true, .go), (true, .go)] ++ [(true, .go)])) = some s₅ := by
    rw [run_append, h₂, Option.bind_some, run_cons, h₃, Option.bind_some, run_append, h₄, Option.bind_some, run_cons, h₅]
    rfl
  rw [run_cons, h₁, Option.bind_some]
  exact hwhole

end Minios.Sched
