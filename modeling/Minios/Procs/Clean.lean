import Minios.Procs.Proc

/-! `kernel/proc.c`: what a new process starts with, and whom `kill` marks.

    `allocproc` sets only the pid and the state of the slot it takes: everything else is as the last
    user of the slot, or `freeproc`, left it. So a new process is CLEAN if every `UNUSED` slot is, and
    an `UNUSED` slot has pid 0. `kill` compares the pid of every slot with its argument, of `UNUSED`
    slots too: `kill(0)` finds one, marks it and returns 0, and the next process in that slot is
    killed before it has run. -/

namespace Minios.Procs
open Schemes Function

variable {nproc p q : ℕ} {s t : Sys}

/-- What is expected of a new process. -/
structure Clean (pr : Proc) : Prop where
  killed : pr.killed = false
  chan : pr.chan = none
  xstate : pr.xstate = 0
  traceMask : pr.traceMask = 0
  sz : pr.sz = 0
  ofile : pr.ofile = fun _ => none
  cwd : pr.cwd = none

/-- Every process that `allocproc` returns is clean, and `kill(pid)` only finds processes. -/
structure CleanStart (nproc : ℕ) (s : Sys) : Prop where
  start : ∀ p q, s.pc p = .forkCopy q → Clean (s.proc q)
  target : ∀ p pid j, s.pc p = .kill pid j → j < nproc → (s.proc j).pid = pid → (s.proc j).state ≠ .UNUSED

/-- The condition: no `kill(0)`. -/
def noKillZero : Label → Prop
  | .kill _ pid => pid ≠ 0
  | _ => True

/-- In `exit`, with all files closed. -/
def Pc.exiting : Pc → Bool
  | .exitLock _ | .reparent _ _ | .wakeInit _ _ _ | .wakeParent _ _ | .zombie _ | .exited => true
  | _ => false

/-- No files and no current directory. -/
def Proc.NoFiles (pr : Proc) : Prop := (pr.ofile = fun _ => none) ∧ pr.cwd = none

structure Tidy (s : Sys) : Prop where
  unused : ∀ q, (s.proc q).state = .UNUSED → (s.proc q).pid = 0 ∧ Clean (s.proc q)
  copying : ∀ p q, s.pc p = .forkCopy q →
    (s.proc q).state = .USED ∧ (s.proc q).lock = some p ∧ s.pc q = .user ∧ Clean (s.proc q)
  closed : ∀ q, (s.pc q).exiting = true ∨ (s.proc q).state = .ZOMBIE → (s.proc q).NoFiles
  args : ∀ p pid j, s.pc p = .kill pid j → pid ≠ 0

/-! ### Writes to one slot -/

theorem Tidy.not_copying (h : Tidy s) (hq : (s.proc q).lock = none ∨ (s.proc q).state ≠ .USED) :
    ∀ p, s.pc p ≠ .forkCopy q := by
  intro p hp
  obtain ⟨h1, h2, -⟩ := h.copying p q hp
  rcases hq with hq | hq
  · rw [h2] at hq; cases hq
  · exact hq h1

theorem Tidy.setProc (h : Tidy s) {pr : Proc} (hfree : ∀ p, s.pc p ≠ .forkCopy q)
    (hunused : pr.state = .UNUSED → pr.pid = 0 ∧ Clean pr)
    (hclosed : (s.pc q).exiting = true ∨ pr.state = .ZOMBIE → pr.NoFiles) : Tidy (s.setProc q pr) := by
  refine ⟨fun r hr => ?_, fun p r hr => ?_, fun r hr => ?_, h.args⟩
  · rcases eq_or_ne r q with rfl | hne
    · rw [Sys.setProc_self] at hr ⊢
      exact hunused hr
    · rw [Sys.setProc_ne _ hne] at hr ⊢
      exact h.unused r hr
  · obtain ⟨h1, h2, h3, h4⟩ := h.copying p r hr
    have hne : r ≠ q := by rintro rfl; exact hfree p hr
    rw [Sys.setProc_ne _ hne]
    exact ⟨h1, h2, h3, h4⟩
  · rcases eq_or_ne r q with rfl | hne
    · rw [Sys.setProc_self] at hr ⊢
      exact hclosed hr
    · rw [Sys.setProc_ne _ hne] at hr ⊢
      exact h.closed r hr

theorem Tidy.setPc (h : Tidy s) {pc : Pc} (hp : ∀ r, s.pc r ≠ .forkCopy p) (hcopy : ∀ q, pc ≠ .forkCopy q)
    (hclosed : pc.exiting = true → (s.proc p).NoFiles) (hargs : ∀ pid j, pc = .kill pid j → pid ≠ 0) :
    Tidy (s.setPc p pc) := by
  refine ⟨h.unused, fun r q hr => ?_, fun r hr => ?_, fun r pid j hr => ?_⟩
  · rcases eq_or_ne r p with rfl | hne
    · rw [Sys.setPc_self] at hr
      exact absurd hr (hcopy q)
    · rw [Sys.setPc_ne _ hne] at hr
      obtain ⟨h1, h2, h3, h4⟩ := h.copying r q hr
      have hqp : q ≠ p := by rintro rfl; exact hp r hr
      rw [Sys.setPc_ne _ hqp]
      exact ⟨h1, h2, h3, h4⟩
  · rcases eq_or_ne r p with rfl | hne
    · rw [Sys.setPc_self] at hr
      rcases hr with hr | hr
      · exact hclosed hr
      · exact h.closed r (Or.inr hr)
    · rw [Sys.setPc_ne _ hne] at hr
      exact h.closed r hr
  · rcases eq_or_ne r p with rfl | hne
    · rw [Sys.setPc_self] at hr
      exact hargs pid j hr
    · rw [Sys.setPc_ne _ hne] at hr
      exact h.args r pid j hr

theorem Tidy.setWait (h : Tidy s) (lock : Option ℕ) : Tidy (s.setWait lock) :=
  ⟨h.unused, h.copying, h.closed, h.args⟩

/-- The state, the parent or the flag `killed` of a process in use changes. -/
theorem Tidy.touch (h : Tidy s) {pr : Proc} (hfree : ∀ p, s.pc p ≠ .forkCopy q)
    (hstate : pr.state ≠ .UNUSED ∧ (pr.state = .ZOMBIE → (s.proc q).state = .ZOMBIE))
    (hofile : pr.ofile = (s.proc q).ofile) (hcwd : pr.cwd = (s.proc q).cwd) : Tidy (s.setProc q pr) := by
  refine h.setProc hfree (fun hu => absurd hu hstate.1) fun hc => ?_
  rw [Proc.NoFiles, hofile, hcwd]
  exact h.closed q (hc.imp_right hstate.2)

theorem Clean.setParent {pr : Proc} (h : Clean pr) (parent : Option ℕ) : Clean (pr.setParent parent) :=
  ⟨h.killed, h.chan, h.xstate, h.traceMask, h.sz, h.ofile, h.cwd⟩

theorem Tidy.setParent (h : Tidy s) (q : ℕ) (parent : Option ℕ) :
    Tidy (s.setProc q ((s.proc q).setParent parent)) := by
  refine ⟨fun r hr => ?_, fun p r hr => ?_, fun r hr => ?_, h.args⟩
  · rcases eq_or_ne r q with rfl | hne
    · rw [Sys.setProc_self] at hr ⊢
      exact ⟨(h.unused r hr).1, (h.unused r hr).2.setParent parent⟩
    · rw [Sys.setProc_ne _ hne] at hr ⊢
      exact h.unused r hr
  · obtain ⟨h1, h2, h3, h4⟩ := h.copying p r hr
    rcases eq_or_ne r q with rfl | hne
    · rw [Sys.setProc_self]
      exact ⟨h1, h2, h3, h4.setParent parent⟩
    · rw [Sys.setProc_ne _ hne]
      exact ⟨h1, h2, h3, h4⟩
  · rcases eq_or_ne r q with rfl | hne
    · rw [Sys.setProc_self] at hr ⊢
      exact h.closed r hr
    · rw [Sys.setProc_ne _ hne] at hr ⊢
      exact h.closed r hr

/-- A process in use gets another state, not `UNUSED` or `ZOMBIE`. -/
theorem Tidy.setState (h : Tidy s) {state : PState} (hfree : ∀ p, s.pc p ≠ .forkCopy q)
    (h1 : state ≠ .UNUSED) (h2 : state ≠ .ZOMBIE) : Tidy (s.setProc q ((s.proc q).setState state)) :=
  h.touch hfree ⟨h1, fun h => absurd h h2⟩ rfl rfl

theorem Tidy.wakeup (h : Tidy s) (hlock : (s.proc q).lock = none) (chan : Option Chan) :
    Tidy (s.setProc q ((s.proc q).wakeup chan)) := by
  rw [Proc.wakeup]
  split
  · exact h.setState (h.not_copying (Or.inl hlock)) (by decide) (by decide)
  · rw [Sys.setProc_same]; exact h

theorem Tidy.wakeAt {i : ℕ} {chan : Option Chan} {pc : Pc} (h : Tidy s) (hp : ∀ r, s.pc r ≠ .forkCopy p)
    (hx : (s.pc p).exiting = true) (hpc : (∀ r, pc ≠ .forkCopy r) ∧ ∀ pid j, pc ≠ .kill pid j)
    (hw : (s.wakeAt p i chan).map (fun t => t.setPc p pc) = some t) : Tidy t := by
  have hfiles := h.closed p (Or.inl hx)
  rw [Sys.wakeAt] at hw
  split at hw
  · obtain rfl := Option.some.inj hw
    exact h.setPc hp hpc.1 (fun _ => hfiles) fun pid j he => absurd he (hpc.2 pid j)
  · rename_i hne
    split at hw
    · rename_i hlock
      obtain rfl := Option.some.inj hw
      refine (h.wakeup hlock chan).setPc hp hpc.1 (fun _ => ?_) fun pid j he => absurd he (hpc.2 pid j)
      rw [Sys.setProc_ne _ (Ne.symm hne)]
      exact hfiles
    · cases hw

/-! ### Steps -/

theorem clean_free {pr : Proc} (h : pr.NoFiles) : Clean pr.freeproc := ⟨rfl, rfl, rfl, rfl, rfl, h.1, h.2⟩

theorem Tidy.freeproc (h : Tidy s) (hfree : ∀ p, s.pc p ≠ .forkCopy q) (hq : (s.proc q).NoFiles) :
    Tidy (s.setProc q (s.proc q).freeproc) :=
  h.setProc hfree (fun _ => ⟨rfl, clean_free hq⟩) fun _ => hq

/-- `fork` ends its work under the lock of the new process: it copies, or frees it again. -/
theorem Tidy.forkCopy {pr : Proc} {pc : Pc} (h : Tidy s) (hp : (s.proc p).state = .RUNNING)
    (hpc : s.pc p = .forkCopy q) (hpc' : (∀ r, pc ≠ .forkCopy r) ∧ pc.exiting = false ∧ ∀ pid j, pc ≠ .kill pid j)
    (hunused : pr.state = .UNUSED → pr.pid = 0 ∧ Clean pr) (hzombie : pr.state ≠ .ZOMBIE) :
    Tidy ((s.setProc q pr).setPc p pc) := by
  obtain ⟨h1, h2, h3, -⟩ := h.copying p q hpc
  have hpq : p ≠ q := by rintro rfl; rw [hp] at h1; cases h1
  -- with the program counter first, the lock of slot `q` is no one's
  have h' : Tidy (s.setPc p pc) := h.setPc (h.not_copying (Or.inr (by rw [hp]; decide))) hpc'.1
    (fun he => by rw [hpc'.2.1] at he; cases he) fun pid j he => absurd he (hpc'.2.2 pid j)
  refine h'.setProc (fun r hr => ?_) hunused fun hc => ?_
  · rcases eq_or_ne r p with rfl | hne
    · rw [Sys.setPc_self] at hr
      exact hpc'.1 q hr
    · rw [Sys.setPc_ne _ hne] at hr
      have := (h.copying r q hr).2.1
      rw [h2, Option.some.injEq] at this
      exact hne this.symm
  · rw [Sys.setPc_ne _ hpq.symm, h3] at hc
    rcases hc with hc | hc
    · cases hc
    · exact absurd hc hzombie

theorem Tidy.goto {pc : Pc} (h : Tidy s) (hp : ∀ r, s.pc r ≠ .forkCopy p)
    (hpc : (∀ r, pc ≠ .forkCopy r) ∧ pc.exiting = false ∧ ∀ pid j, pc ≠ .kill pid j) : Tidy (s.setPc p pc) :=
  h.setPc hp hpc.1 (fun he => by rw [hpc.2.1] at he; cases he) fun pid j he => absurd he (hpc.2.2 pid j)

theorem Tidy.exit {pc : Pc} (h : Tidy s) (hp : ∀ r, s.pc r ≠ .forkCopy p) (hx : (s.proc p).NoFiles)
    (hpc : (∀ r, pc ≠ .forkCopy r) ∧ ∀ pid j, pc ≠ .kill pid j) : Tidy (s.setPc p pc) :=
  h.setPc hp hpc.1 (fun _ => hx) fun pid j he => absurd he (hpc.2 pid j)

theorem tidy_fork (ok : Bool) (h : Tidy s) (hp : (s.proc p).state = .RUNNING) (hpc : s.pc p = .forkCopy q) :
    Tidy (if ok then (s.setProc q (((s.proc q).copy (s.proc p)).setLock none)).setPc p (.forkParent q)
      else (s.setProc q ((s.proc q).freeproc.setLock none)).setPc p .user) := by
  obtain ⟨h1, -, -, hclean⟩ := h.copying p q hpc
  split
  · refine h.forkCopy hp hpc ⟨by rintro r ⟨⟩, rfl, by rintro pid j ⟨⟩⟩ (fun hu => ?_) fun hz => ?_
    · exact absurd (hu.symm.trans h1) (by decide)
    · exact absurd (hz.symm.trans h1) (by decide)
  · refine h.forkCopy hp hpc ⟨by rintro r ⟨⟩, rfl, by rintro pid j ⟨⟩⟩ (fun _ => ⟨rfl, ?_⟩) (by rintro ⟨⟩)
    exact ⟨rfl, rfl, rfl, rfl, rfl, hclean.ofile, hclean.cwd⟩

theorem tidy_move {ok : Bool} (h : Tidy s) (hp : (s.proc p).state = .RUNNING)
    (hstep : move nproc s p ok = some t) : Tidy t := by
  have hself := h.not_copying (q := p) (Or.inr (by rw [hp]; decide))
  have hfiles : (s.pc p).exiting = true → (s.proc p).NoFiles := fun hx => h.closed p (Or.inl hx)
  rw [move] at hstep
  split at hstep
  case h_1 => cases hstep
  case h_2 q hpc =>
    have hfork := tidy_fork ok h hp hpc
    split at hstep <;> rename_i hok
    · rw [if_pos hok] at hfork
      exact Option.some.inj hstep ▸ hfork
    · rw [if_neg hok] at hfork
      exact Option.some.inj hstep ▸ hfork
  case h_3 q hpc =>
    split at hstep
    · exact Option.some.inj hstep ▸
        (h.setParent q (some p)).goto hself ⟨by rintro r ⟨⟩, rfl, by rintro pid j ⟨⟩⟩
    · cases hstep
  case h_4 q hpc =>
    split at hstep
    · rename_i hlock
      exact Option.some.inj hstep ▸ (h.setState (h.not_copying (Or.inl hlock)) (by decide) (by decide)).goto
        hself ⟨by rintro r ⟨⟩, rfl, by rintro pid j ⟨⟩⟩
    · cases hstep
  case h_5 status hpc =>
    have hx := hfiles (by rw [hpc]; rfl)
    split at hstep
    · exact Option.some.inj hstep ▸ (h.setWait _).exit hself hx ⟨by rintro r ⟨⟩, by rintro pid j ⟨⟩⟩
    · cases hstep
  case h_6 status j hpc =>
    have hx := hfiles (by rw [hpc]; rfl)
    split at hstep
    · split at hstep
      · obtain rfl := Option.some.inj hstep
        refine (h.setParent j (some initproc)).exit hself ?_ ⟨by rintro r ⟨⟩, by rintro pid j ⟨⟩⟩
        rcases eq_or_ne p j with rfl | hne
        · rw [Sys.setProc_self]; exact hx
        · rw [Sys.setProc_ne _ hne]; exact hx
      · exact Option.some.inj hstep ▸ h.exit hself hx ⟨by rintro r ⟨⟩, by rintro pid j ⟨⟩⟩
    · exact Option.some.inj hstep ▸ h.exit hself hx ⟨by rintro r ⟨⟩, by rintro pid j ⟨⟩⟩
  case h_7 status j i hpc =>
    have hx : (s.pc p).exiting = true := by rw [hpc]; rfl
    split at hstep
    · exact h.wakeAt hself hx ⟨by rintro r ⟨⟩, by rintro pid j ⟨⟩⟩ hstep
    · exact Option.some.inj hstep ▸ h.exit hself (hfiles hx) ⟨by rintro r ⟨⟩, by rintro pid j ⟨⟩⟩
  case h_8 status i hpc =>
    have hx : (s.pc p).exiting = true := by rw [hpc]; rfl
    split at hstep
    · exact h.wakeAt hself hx ⟨by rintro r ⟨⟩, by rintro pid j ⟨⟩⟩ hstep
    · exact Option.some.inj hstep ▸ h.exit hself (hfiles hx) ⟨by rintro r ⟨⟩, by rintro pid j ⟨⟩⟩
  case h_9 status hpc =>
    have hx := hfiles (by rw [hpc]; rfl)
    split at hstep
    · obtain rfl := Option.some.inj hstep
      have h' : Tidy (s.setProc p ((s.proc p).exit status)) :=
        h.setProc hself (by rintro ⟨⟩) fun _ => hx
      refine (h'.setWait none).exit hself (by exact (Sys.setProc_self ..).symm ▸ hx) ⟨by rintro r ⟨⟩, by rintro pid j ⟨⟩⟩
    · cases hstep
  case h_10 => cases hstep
  case h_11 hpc =>
    split at hstep
    · exact Option.some.inj hstep ▸ (h.setWait _).goto hself ⟨by rintro r ⟨⟩, rfl, by rintro pid j ⟨⟩⟩
    · cases hstep
  case h_12 j havekids hpc =>
    have hgo : ∀ {u : Sys} {pc : Pc}, Tidy u → (∀ r, u.pc r ≠ .forkCopy p) →
        (pc = .user ∨ pc = .waitSleep ∨ ∃ i b, pc = .scan i b) → Tidy (u.setPc p pc) := by
      rintro u pc hu hup (rfl | rfl | ⟨i, b, rfl⟩) <;>
        exact hu.goto hup ⟨by rintro r ⟨⟩, rfl, by rintro pid j ⟨⟩⟩
    split at hstep
    · split at hstep
      · split at hstep
        · rename_i hlock
          split at hstep
          · rename_i hz
            split at hstep
            · exact Option.some.inj hstep ▸ hgo ((h.freeproc (h.not_copying (Or.inl hlock))
                (h.closed j (Or.inr hz))).setWait none) hself (Or.inl rfl)
            · exact Option.some.inj hstep ▸ hgo (h.setWait none) hself (Or.inl rfl)
          · exact Option.some.inj hstep ▸ hgo h hself (Or.inr (Or.inr ⟨_, _, rfl⟩))
        · cases hstep
      · exact Option.some.inj hstep ▸ hgo h hself (Or.inr (Or.inr ⟨_, _, rfl⟩))
    · split at hstep
      · exact Option.some.inj hstep ▸ hgo (h.setWait none) hself (Or.inl rfl)
      · exact Option.some.inj hstep ▸ hgo h hself (Or.inr (Or.inl rfl))
  case h_13 hpc =>
    split at hstep
    · obtain rfl := Option.some.inj hstep
      have h' : Tidy (s.setProc p ((s.proc p).setLock (some p))) :=
        h.touch hself ⟨by rw [Proc.setLock, hp]; decide, id⟩ rfl rfl
      exact (h'.setWait none).goto hself ⟨by rintro r ⟨⟩, rfl, by rintro pid j ⟨⟩⟩
    · cases hstep
  case h_14 hpc =>
    obtain rfl := Option.some.inj hstep
    exact Tidy.goto (h.touch hself ⟨by rintro ⟨⟩, by rintro ⟨⟩⟩ rfl rfl) hself
      ⟨by rintro r ⟨⟩, rfl, by rintro pid j ⟨⟩⟩
  case h_15 hpc =>
    obtain rfl := Option.some.inj hstep
    refine Tidy.goto (h.touch hself ⟨?_, id⟩ rfl rfl) hself ⟨by rintro r ⟨⟩, rfl, by rintro pid j ⟨⟩⟩
    rw [Proc.setChan, hp]; decide
  case h_16 hpc =>
    obtain rfl := Option.some.inj hstep
    refine Tidy.goto (h.touch hself ⟨?_, id⟩ rfl rfl) hself ⟨by rintro r ⟨⟩, rfl, by rintro pid j ⟨⟩⟩
    rw [Proc.setChan, hp]; decide
  case h_17 pid j hpc =>
    have hpid := h.args p pid j hpc
    split at hstep
    · split at hstep
      · rename_i hlock
        split at hstep
        · rename_i hj
          obtain rfl := Option.some.inj hstep
          have hj' : (s.proc j).state ≠ .UNUSED := fun hu => hpid (hj ▸ (h.unused j hu).1)
          refine Tidy.goto (h.touch (h.not_copying (Or.inl hlock)) ⟨?_, ?_⟩ rfl rfl) hself
            ⟨by rintro r ⟨⟩, rfl, by rintro pid j ⟨⟩⟩
          · rw [Proc.kill]; dsimp only; split <;> [decide; exact hj']
          · rw [Proc.kill]; dsimp only; split <;> [(rintro ⟨⟩); exact id]
        · obtain rfl := Option.some.inj hstep
          refine h.setPc hself (by rintro r ⟨⟩) (by rintro ⟨⟩) ?_
          rintro pid' j' ⟨⟩
          exact hpid
      · cases hstep
    · exact Option.some.inj hstep ▸ h.goto hself ⟨by rintro r ⟨⟩, rfl, by rintro pid j ⟨⟩⟩

theorem tidy_allocproc (h : Tidy s) (hp : (s.proc p).state = .RUNNING) (hq : (s.proc q).state = .UNUSED)
    (hlock : (s.proc q).lock = none) : Tidy (s.allocproc p q) := by
  obtain ⟨-, hclean⟩ := h.unused q hq
  have hpq : p ≠ q := by rintro rfl; rw [hp] at hq; cases hq
  have hq' := h.not_copying (Or.inl hlock)
  have hp' := h.not_copying (q := p) (Or.inr (by rw [hp]; decide))
  have hproc : ∀ {r}, r ≠ q → (s.allocproc p q).proc r = s.proc r := fun hr => update_of_ne hr ..
  have hnew : (s.allocproc p q).proc q = ((s.proc q).alloc s.nextpid).setLock (some p) := update_self ..
  have hpcp : (s.allocproc p q).pc p = .forkCopy q := update_self ..
  have hpcq : (s.allocproc p q).pc q = .user := (update_of_ne hpq.symm ..).trans (update_self ..)
  have hpc : ∀ {r}, r ≠ p → r ≠ q → (s.allocproc p q).pc r = s.pc r := fun h1 h2 =>
    (update_of_ne h1 ..).trans (update_of_ne h2 ..)
  refine ⟨fun r hr => ?_, fun r r' hr => ?_, fun r hr => ?_, fun r pid j hr => ?_⟩
  · have hne : r ≠ q := by rintro rfl; rw [hnew] at hr; cases hr
    rw [hproc hne] at hr ⊢
    exact h.unused r hr
  · rcases eq_or_ne r p with rfl | hrp
    · obtain rfl : q = r' := by rw [hpcp] at hr; exact Pc.forkCopy.inj hr
      rw [hnew]
      exact ⟨rfl, rfl, hpcq, hclean.killed, hclean.chan, hclean.xstate, hclean.traceMask, hclean.sz,
        hclean.ofile, hclean.cwd⟩
    · have hrq : r ≠ q := by rintro rfl; rw [hpcq] at hr; cases hr
      rw [hpc hrp hrq] at hr
      have h1 : r' ≠ q := by rintro rfl; exact hq' r hr
      have h2 : r' ≠ p := by rintro rfl; exact hp' r hr
      rw [hproc h1, hpc h2 h1]
      exact h.copying r r' hr
  · rcases eq_or_ne r q with rfl | hrq
    · rw [hnew]; exact ⟨hclean.ofile, hclean.cwd⟩
    · rw [hproc hrq] at hr ⊢
      rcases eq_or_ne r p with rfl | hrp
      · rw [hpcp] at hr
        exact h.closed r (Or.inr (hr.resolve_left (by rintro ⟨⟩)))
      · rw [hpc hrp hrq] at hr
        exact h.closed r hr
  · rcases eq_or_ne r p with rfl | hrp
    · rw [hpcp] at hr; cases hr
    · rcases eq_or_ne r q with rfl | hrq
      · rw [hpcq] at hr; cases hr
      · rw [hpc hrp hrq] at hr
        exact h.args r pid j hr

theorem tidy_step {l : Label} (h : Tidy s) (hok : noKillZero l) (hstep : step nproc s l = some t) : Tidy t := by
  have hself : ∀ {p}, (s.proc p).state = .RUNNING → ∀ r, s.pc r ≠ .forkCopy p := fun hp =>
    h.not_copying (Or.inr (by rw [hp]; decide))
  -- a running process changes its own size, files or mask in user code
  have hown : ∀ {p pr}, s.InUser nproc p → pr.state = (s.proc p).state → Tidy (s.setProc p pr) := by
    intro p pr hu hpr
    rw [hu.2.1] at hpr
    refine h.setProc (hself hu.2.1) (fun he => ?_) fun he => ?_
    · rw [hpr] at he; cases he
    · rw [hpr, hu.2.2] at he
      rcases he with he | he <;> cases he
  cases l <;> rw [step] at hstep <;> split at hstep <;> try cases hstep
  case fork.isTrue p q hc => exact tidy_allocproc h hc.1.2.1 hc.2.2.1 hc.2.2.2
  case exit.isTrue p status hc =>
    refine Tidy.exit (hown hc.1 rfl) (hself hc.1.2.1) ?_ ⟨by rintro r ⟨⟩, by rintro pid j ⟨⟩⟩
    rw [Sys.setProc_self]; exact ⟨rfl, rfl⟩
  case wait.isTrue p hc => exact h.goto (hself hc.2.1) ⟨by rintro r ⟨⟩, rfl, by rintro pid j ⟨⟩⟩
  case kill.isTrue p pid hc =>
    refine h.setPc (hself hc.2.1) (by rintro r ⟨⟩) (by rintro ⟨⟩) ?_
    rintro pid' j ⟨⟩
    exact hok
  case sleep.isTrue p c hc =>
    exact Tidy.goto (h.touch (hself hc.1.2.1) ⟨by rintro ⟨⟩, by rintro ⟨⟩⟩ rfl rfl) (hself hc.1.2.1)
      ⟨by rintro r ⟨⟩, rfl, by rintro pid j ⟨⟩⟩
  case resize.isTrue p sz hc => exact hown hc rfl
  case files.isTrue p ofile cwd hc => exact hown hc rfl
  case trace.isTrue p mask hc => exact hown hc rfl
  case wake.isTrue q hc => exact h.setState (h.not_copying (Or.inl hc.2.2.2)) (by decide) (by decide)
  case sched.isTrue p hc => exact h.setState (h.not_copying (Or.inl hc.2.2)) (by decide) (by decide)
  case yield.isTrue p hc => exact h.setState (hself hc.2.1) (by decide) (by decide)
  case move.isTrue p ok hc => exact tidy_move h hc.2 hstep

theorem tidy_init : Tidy .init := by
  have hother : ∀ {q}, q ≠ initproc → Sys.init.proc q = .zero := by
    intro q hq
    exact (update_of_ne hq _ fun _ => Proc.zero)
  refine ⟨fun q hq => ?_, fun _ _ hp => (by cases hp), fun q hq => ?_, fun _ _ _ hp => (by cases hp)⟩
  · have hne : q ≠ initproc := by rintro rfl; cases hq
    rw [hother hne]
    exact ⟨rfl, rfl, rfl, rfl, rfl, rfl, rfl, rfl⟩
  · rcases hq with hq | hq
    · cases hq
    · rcases eq_or_ne q initproc with rfl | hne
      · cases hq
      · rw [hother hne] at hq; cases hq

theorem Tidy.cleanStart (h : Tidy s) : CleanStart nproc s where
  start p q hp := (h.copying p q hp).2.2.2
  target p pid j hp _ hj hu := h.args p pid j hp (hj ▸ (h.unused j hu).1)

/-- CORRECT (clean start): in every run without `kill(0)`, a process that `allocproc` returns is clean, and
    `kill` only finds slots in use. -/
theorem clean_start {ls : List Label} (hok : ∀ l ∈ ls, noKillZero l) (hrun : run (step nproc) .init ls = some t) :
    CleanStart nproc t := by
  have hok' : RunOk (step nproc) (fun _ => noKillZero) .init ls := .of_forall _ hok
  have h : Tidy t := run_inv_of (fun _ _ _ => tidy_step) tidy_init hok' hrun
  exact h.cleanStart

instance : ∀ l, Decidable (noKillZero l)
  | .kill _ pid => inferInstanceAs (Decidable (pid ≠ 0))
  | .fork _ _ | .exit _ _ | .wait _ | .sleep _ _ | .resize _ _ | .files _ _ _ | .trace _ _ | .wake _ | .sched _
  | .yield _ | .move _ _ => inferInstanceAs (Decidable True)

/-- Process `p` moves on `n` times, and nothing fails. -/
def moves (p n : ℕ) : List Label := List.replicate n (.move p true)

/-- `init` forks process 2, which is killed and exits; `init` reaps it, and forks again into the same slot. -/
def forkAgain : List Label := List.flatten
  [[.sched 0, .fork 0 1], moves 0 3, [.kill 0 2], moves 0 2, [.sched 1, .exit 1 7], moves 1 8, [.wait 0], moves 0 3,
    [.fork 0 1]]

theorem clean_start_forkAgain : ∃ t, run (step 2) .init forkAgain = some t ∧ t.pc 0 = .forkCopy 1 ∧
    CleanStart 2 t := by
  have hview : (run (step 2) .init forkAgain).map (fun t => t.pc 0) = some (.forkCopy 1) := by decide +kernel
  obtain ⟨t, ht, hpc⟩ := Option.map_eq_some_iff.mp hview
  exact ⟨t, ht, hpc, clean_start (by decide +kernel) ht⟩

/-- `init` calls `kill(0)`, then `fork`. -/
def killZero : List Label := [.sched 0, .kill 0 0, .move 0 true, .move 0 true, .fork 0 1]

/-- NOT CLEAN: the new process is killed before it has run. -/
theorem not_clean_start_killZero : ∃ t, run (step 2) .init killZero = some t ∧ ¬ CleanStart 2 t := by
  have hview : (run (step 2) .init killZero).map (fun t => (t.pc 0, (t.proc 1).killed)) =
      some (.forkCopy 1, true) := by decide +kernel
  obtain ⟨t, ht, hv⟩ := Option.map_eq_some_iff.mp hview
  obtain ⟨h1, h2⟩ := Prod.mk.inj hv
  refine ⟨t, ht, fun h => ?_⟩
  have := (h.start 0 1 h1).killed
  rw [h2] at this; cases this

end Minios.Procs
