import Minios.Procs.Protocol

/-! `kernel/proc.c`: who is reaped, by whom, and how often.

    The life of a slot, as seen from outside:

        UNUSED ──born──▶ USED ─▶ RUNNABLE, RUNNING, SLEEPING ──exited──▶ ZOMBIE ──reaped──▶ UNUSED
                           └────dropped (fork failed)────▶ UNUSED

    A step does ONE of these four to one slot, or none. The history of a run is the list of births,
    exits and reapings; a BOOK of it says that each exit is either reaped already or still stands in its
    slot as a ZOMBIE, and that no pid is reaped twice. -/

namespace Minios.Procs
open Schemes Function

variable {nproc p q : ℕ} {s t : Sys}

/-- What `wait` returns to process `p` if its next step is the last: -1, or a pid with the status that
    `copyout` has stored. -/
def Sys.waitReturn (nproc : ℕ) (s : Sys) (p : ℕ) (ok : Bool) : Option (Option (BitVec 32 × BitVec 32)) :=
  match s.pc p with
  | .scan j havekids =>
    if j < nproc then
      if (s.proc j).parent = some p ∧ (s.proc j).lock = none ∧ (s.proc j).state = .ZOMBIE then
        if ok then some (some ((s.proc j).pid, (s.proc j).xstate)) else some none
      else none
    else if havekids = false ∨ (s.proc p).killed then some none
    else none
  | _ => none

inductive Event where
  | born (pid : BitVec 32)
  | exited (q : ℕ) (pid status : BitVec 32)
  | reaped (p q : ℕ) (pid status : BitVec 32)

/-- What a step adds to the history. -/
def events (nproc : ℕ) (s : Sys) : Label → List Event
  | .fork _ _ => [.born s.nextpid]
  | .move p ok => match s.pc p, s.waitReturn nproc p ok with
    | .zombie status, _ => [.exited p (s.proc p).pid status]
    | .scan j _, some (some (pid, status)) => [.reaped p j pid status]
    | _, _ => []
  | _ => []

/-! ### What a step does to the slots -/

/-- Neither born nor gone. -/
structure Same (pr pr' : Proc) : Prop where
  pid : pr'.pid = pr.pid
  unused : pr'.state = .UNUSED ↔ pr.state = .UNUSED
  zombie : pr'.state = .ZOMBIE ↔ pr.state = .ZOMBIE
  xstate : pr'.xstate = pr.xstate

theorem Same.refl (pr : Proc) : Same pr pr := ⟨rfl, Iff.rfl, Iff.rfl, rfl⟩

theorem Same.alive {pr pr' : Proc} (hpid : pr'.pid = pr.pid) (hx : pr'.xstate = pr.xstate)
    (h : pr.state ≠ .UNUSED ∧ pr.state ≠ .ZOMBIE) (h' : pr'.state ≠ .UNUSED ∧ pr'.state ≠ .ZOMBIE) : Same pr pr' :=
  ⟨hpid, iff_of_false h'.1 h.1, iff_of_false h'.2 h.2, hx⟩

theorem Same.wakeup (pr : Proc) (chan : Option Chan) : Same pr (pr.wakeup chan) := by
  rw [Proc.wakeup]
  split
  · rename_i hc
    exact .alive rfl rfl (by rw [hc.1]; decide) ⟨by rintro ⟨⟩, by rintro ⟨⟩⟩
  · exact .refl pr

theorem Same.kill (pr : Proc) : Same pr pr.kill := by
  rcases eq_or_ne pr.state .SLEEPING with hs | hs
  · have hkill : pr.kill.state = .RUNNABLE := if_pos hs
    exact .alive rfl rfl (by rw [hs]; decide) (by rw [hkill]; decide)
  · have hkill : pr.kill.state = pr.state := if_neg hs
    exact ⟨rfl, by rw [hkill], by rw [hkill], rfl⟩

/-- What a step does to the table. -/
inductive Deed (nproc : ℕ) (s : Sys) (l : Label) (t : Sys) : Prop where
  | quiet (next : t.nextpid = s.nextpid) (ev : events nproc s l = []) (same : ∀ r, Same (s.proc r) (t.proc r))
  | born (q : ℕ) (old : (s.proc q).state = .UNUSED) (new : t.proc q = ((s.proc q).alloc s.nextpid).setLock (t.proc q).lock)
      (next : t.nextpid = s.nextpid + 1) (ev : events nproc s l = [.born s.nextpid])
      (others : ∀ r, r ≠ q → t.proc r = s.proc r)
  | dropped (q : ℕ) (old : (s.proc q).state = .USED) (new : (t.proc q).state = .UNUSED)
      (next : t.nextpid = s.nextpid) (ev : events nproc s l = []) (others : ∀ r, r ≠ q → t.proc r = s.proc r)
  | exited (p : ℕ) (status : BitVec 32) (old : (s.proc p).state = .RUNNING) (new : t.proc p = (s.proc p).exit status)
      (next : t.nextpid = s.nextpid) (ev : events nproc s l = [.exited p (s.proc p).pid status])
      (others : ∀ r, r ≠ p → t.proc r = s.proc r)
  | reaped (p j : ℕ) (ok : Bool) (label : l = .move p ok) (old : (s.proc j).state = .ZOMBIE)
      (parent : (s.proc j).parent = some p) (new : (t.proc j).state = .UNUSED) (next : t.nextpid = s.nextpid)
      (ret : s.waitReturn nproc p ok = some (some ((s.proc j).pid, (s.proc j).xstate)))
      (ev : events nproc s l = [.reaped p j (s.proc j).pid (s.proc j).xstate])
      (others : ∀ r, r ≠ j → t.proc r = s.proc r)

theorem Deed.still {l : Label} (ev : events nproc s l = []) (hproc : t.proc = s.proc) (next : t.nextpid = s.nextpid) :
    Deed nproc s l t :=
  .quiet next ev fun r => by rw [hproc]; exact .refl _

theorem Deed.touch {l : Label} (pr : Proc) (ev : events nproc s l = []) (hq : Same (s.proc q) pr)
    (hproc : t.proc = (s.setProc q pr).proc) (next : t.nextpid = s.nextpid) : Deed nproc s l t := by
  refine .quiet next ev fun r => ?_
  rw [hproc]
  rcases eq_or_ne r q with rfl | hne
  · rw [Sys.setProc_self]; exact hq
  · rw [Sys.setProc_ne _ hne]; exact .refl _

theorem deed_wakeAt {l : Label} {i : ℕ} {chan : Option Chan} {pc : Pc} (ev : events nproc s l = [])
    (hw : (s.wakeAt p i chan).map (fun t => t.setPc p pc) = some t) : Deed nproc s l t := by
  rw [Sys.wakeAt] at hw
  split at hw
  · obtain rfl := Option.some.inj hw
    exact .still ev rfl rfl
  · split at hw
    · obtain rfl := Option.some.inj hw
      exact .touch _ ev (Same.wakeup _ chan) rfl rfl
    · cases hw

/-- A round of `wait`'s loop: it reaps the ZOMBIE it finds, fails and changes no slot, or goes on. -/
theorem scan_cases {ok : Bool} {j : ℕ} {havekids : Bool} (hpc : s.pc p = .scan j havekids)
    (hstep : move nproc s p ok = some t) :
    (s.waitReturn nproc p ok = some (some ((s.proc j).pid, (s.proc j).xstate)) ∧ (s.proc j).state = .ZOMBIE ∧
      (s.proc j).parent = some p ∧ t = ((s.setProc j (s.proc j).freeproc).setWait none).setPc p .user) ∨
    (s.waitReturn nproc p ok = some none ∧ t = (s.setWait none).setPc p .user) ∨
    (s.waitReturn nproc p ok = none ∧ ∃ pc, t = s.setPc p pc) := by
  have hret : s.waitReturn nproc p ok = if j < nproc then
      if (s.proc j).parent = some p ∧ (s.proc j).lock = none ∧ (s.proc j).state = .ZOMBIE then
        if ok then some (some ((s.proc j).pid, (s.proc j).xstate)) else some none
      else none
    else if havekids = false ∨ (s.proc p).killed then some none
    else none := by rw [Sys.waitReturn, hpc]
  rw [move, hpc] at hstep
  dsimp only at hstep
  split at hstep
  · rename_i hj
    rw [if_pos hj] at hret
    split at hstep
    · rename_i hpar
      split at hstep
      · rename_i hlock
        split at hstep
        · rename_i hz
          rw [if_pos ⟨hpar, hlock, hz⟩] at hret
          split at hstep <;> rename_i hok
          · rw [if_pos hok] at hret
            exact Or.inl ⟨hret, hz, hpar, (Option.some.inj hstep).symm⟩
          · rw [if_neg hok] at hret
            exact Or.inr (Or.inl ⟨hret, (Option.some.inj hstep).symm⟩)
        · rename_i hz
          rw [if_neg fun hc => hz hc.2.2] at hret
          exact Or.inr (Or.inr ⟨hret, _, (Option.some.inj hstep).symm⟩)
      · cases hstep
    · rename_i hpar
      rw [if_neg fun hc => hpar hc.1] at hret
      exact Or.inr (Or.inr ⟨hret, _, (Option.some.inj hstep).symm⟩)
  · rename_i hj
    rw [if_neg hj] at hret
    split at hstep <;> rename_i hc
    · rw [if_pos hc] at hret
      exact Or.inr (Or.inl ⟨hret, (Option.some.inj hstep).symm⟩)
    · rw [if_neg hc] at hret
      exact Or.inr (Or.inr ⟨hret, _, (Option.some.inj hstep).symm⟩)

theorem deed_scan {ok : Bool} {j : ℕ} {havekids : Bool} (hpc : s.pc p = .scan j havekids)
    (hstep : move nproc s p ok = some t) : Deed nproc s (.move p ok) t := by
  rcases scan_cases hpc hstep with ⟨hret, hz, hpar, rfl⟩ | ⟨hret, rfl⟩ | ⟨hret, pc, rfl⟩
  · exact .reaped p j ok rfl hz hpar (congrArg Proc.state (Sys.setProc_self s j _)) rfl hret
      (by rw [events, hpc, hret]) fun r hr => Sys.setProc_ne s hr _
  · exact .still (by rw [events, hpc, hret]) rfl rfl
  · exact .still (by rw [events, hpc, hret]) rfl rfl

theorem deed_move {ok : Bool} (h : Proto nproc s) (hrun : (s.proc p).state = .RUNNING)
    (hstep : move nproc s p ok = some t) : Deed nproc s (.move p ok) t := by
  cases hpc : s.pc p with
  | scan j havekids => exact deed_scan hpc hstep
  | zombie status =>
    rw [move, hpc] at hstep
    dsimp only at hstep
    split at hstep
    · obtain rfl := Option.some.inj hstep
      exact .exited p status hrun (Sys.setProc_self s p _) rfl (by rw [events, hpc]) fun r hr => Sys.setProc_ne s hr _
    · cases hstep
  | user | exited => rw [move, hpc] at hstep; cases hstep
  | forkCopy q =>
    have hev : events nproc s (.move p ok) = [] := by rw [events, hpc]
    have hused := (h.placed.child p q (by rw [hpc]; rfl)).2
    rw [move, hpc] at hstep
    dsimp only at hstep
    split at hstep
    · obtain rfl := Option.some.inj hstep
      exact .touch (((s.proc q).copy (s.proc p)).setLock none) hev ⟨rfl, Iff.rfl, Iff.rfl, rfl⟩ rfl rfl
    · obtain rfl := Option.some.inj hstep
      exact .dropped q hused (congrArg Proc.state (Sys.setProc_self s q _)) rfl hev fun r hr => Sys.setProc_ne s hr _
  | forkParent q =>
    have hev : events nproc s (.move p ok) = [] := by rw [events, hpc]
    rw [move, hpc] at hstep
    dsimp only at hstep
    split at hstep
    · obtain rfl := Option.some.inj hstep
      exact .touch ((s.proc q).setParent (some p)) hev ⟨rfl, Iff.rfl, Iff.rfl, rfl⟩ rfl rfl
    · cases hstep
  | forkRun q =>
    have hev : events nproc s (.move p ok) = [] := by rw [events, hpc]
    have hused := (h.placed.child p q (by rw [hpc]; rfl)).2
    rw [move, hpc] at hstep
    dsimp only at hstep
    split at hstep
    · obtain rfl := Option.some.inj hstep
      exact .touch ((s.proc q).setState .RUNNABLE) hev
        (.alive rfl rfl (by rw [hused]; decide) ⟨by rintro ⟨⟩, by rintro ⟨⟩⟩) rfl rfl
    · cases hstep
  | exitLock status | waitLock =>
    have hev : events nproc s (.move p ok) = [] := by rw [events, hpc]
    rw [move, hpc] at hstep
    dsimp only at hstep
    split at hstep
    · obtain rfl := Option.some.inj hstep
      exact .still hev rfl rfl
    · cases hstep
  | reparent status j =>
    have hev : events nproc s (.move p ok) = [] := by rw [events, hpc]
    rw [move, hpc] at hstep
    dsimp only at hstep
    split at hstep
    · split at hstep
      · obtain rfl := Option.some.inj hstep
        exact .touch ((s.proc j).setParent (some initproc)) hev ⟨rfl, Iff.rfl, Iff.rfl, rfl⟩ rfl rfl
      · obtain rfl := Option.some.inj hstep
        exact .still hev rfl rfl
    · obtain rfl := Option.some.inj hstep
      exact .still hev rfl rfl
  | wakeInit status j i | wakeParent status i =>
    have hev : events nproc s (.move p ok) = [] := by rw [events, hpc]
    rw [move, hpc] at hstep
    dsimp only at hstep
    split at hstep
    · exact deed_wakeAt hev hstep
    · obtain rfl := Option.some.inj hstep
      exact .still hev rfl rfl
  | waitSleep =>
    have hev : events nproc s (.move p ok) = [] := by rw [events, hpc]
    rw [move, hpc] at hstep
    dsimp only at hstep
    split at hstep
    · obtain rfl := Option.some.inj hstep
      exact .touch ((s.proc p).setLock (some p)) hev ⟨rfl, Iff.rfl, Iff.rfl, rfl⟩ rfl rfl
    · cases hstep
  | dozing =>
    have hev : events nproc s (.move p ok) = [] := by rw [events, hpc]
    rw [move, hpc] at hstep
    obtain rfl := Option.some.inj hstep
    exact .touch ((((s.proc p).setChan (some (.proc p))).setState .SLEEPING).setLock none) hev
      (.alive rfl rfl (by rw [hrun]; decide) ⟨by rintro ⟨⟩, by rintro ⟨⟩⟩) rfl rfl
  | asleep | napping =>
    have hev : events nproc s (.move p ok) = [] := by rw [events, hpc]
    rw [move, hpc] at hstep
    obtain rfl := Option.some.inj hstep
    exact .touch ((s.proc p).setChan none) hev ⟨rfl, Iff.rfl, Iff.rfl, rfl⟩ rfl rfl
  | kill pid j =>
    have hev : events nproc s (.move p ok) = [] := by rw [events, hpc]
    rw [move, hpc] at hstep
    dsimp only at hstep
    split at hstep
    · split at hstep
      · split at hstep
        · obtain rfl := Option.some.inj hstep
          exact .touch (s.proc j).kill hev (Same.kill _) rfl rfl
        · obtain rfl := Option.some.inj hstep
          exact .still hev rfl rfl
      · cases hstep
    · obtain rfl := Option.some.inj hstep
      exact .still hev rfl rfl

theorem deed_step {l : Label} (h : Proto nproc s) (hstep : step nproc s l = some t) : Deed nproc s l t := by
  cases l <;> rw [step] at hstep <;> split at hstep <;> try cases hstep
  case fork.isTrue p q hc =>
    have hnew : (s.allocproc p q).proc q = ((s.proc q).alloc s.nextpid).setLock (some p) := update_self ..
    exact .born q hc.2.2.1 (by rw [hnew]; rfl) rfl rfl fun r hr => update_of_ne hr ..
  case exit.isTrue p status hc =>
    exact .touch ((s.proc p).setFiles (fun _ => none) none) rfl ⟨rfl, Iff.rfl, Iff.rfl, rfl⟩ rfl rfl
  case wait.isTrue p hc => exact .still rfl rfl rfl
  case kill.isTrue p pid hc => exact .still rfl rfl rfl
  case sleep.isTrue p c hc =>
    exact .touch (((s.proc p).setChan (some (.other c))).setState .SLEEPING) rfl
      (.alive rfl rfl (by rw [hc.1.2.1]; decide) ⟨by rintro ⟨⟩, by rintro ⟨⟩⟩) rfl rfl
  case resize.isTrue p sz hc => exact .touch ((s.proc p).setSz sz) rfl ⟨rfl, Iff.rfl, Iff.rfl, rfl⟩ rfl rfl
  case files.isTrue p ofile cwd hc =>
    exact .touch ((s.proc p).setFiles ofile (some cwd)) rfl ⟨rfl, Iff.rfl, Iff.rfl, rfl⟩ rfl rfl
  case trace.isTrue p mask hc => exact .touch ((s.proc p).setMask mask) rfl ⟨rfl, Iff.rfl, Iff.rfl, rfl⟩ rfl rfl
  case wake.isTrue q hc =>
    exact .touch ((s.proc q).setState .RUNNABLE) rfl
      (.alive rfl rfl (by rw [hc.2.1]; decide) ⟨by rintro ⟨⟩, by rintro ⟨⟩⟩) rfl rfl
  case sched.isTrue p hc =>
    exact .touch ((s.proc p).setState .RUNNING) rfl
      (.alive rfl rfl (by rw [hc.2.1]; decide) ⟨by rintro ⟨⟩, by rintro ⟨⟩⟩) rfl rfl
  case yield.isTrue p hc =>
    exact .touch ((s.proc p).setState .RUNNABLE) rfl
      (.alive rfl rfl (by rw [hc.2.1]; decide) ⟨by rintro ⟨⟩, by rintro ⟨⟩⟩) rfl rfl
  case move.isTrue p ok hc => exact deed_move h hc.2 hstep

/-! ### The book -/

/-- The calls of `allocpid` in a history. -/
def allocs : List Event → ℕ
  | [] => 0
  | .born _ :: h => allocs h + 1
  | .exited _ _ _ :: h | .reaped _ _ _ _ :: h => allocs h

/-- The pids that `wait` has returned. -/
def reapedPids : List Event → List (BitVec 32)
  | [] => []
  | .reaped _ _ pid _ :: h => pid :: reapedPids h
  | .born _ :: h | .exited _ _ _ :: h => reapedPids h

theorem allocs_append : ∀ h h' : List Event, allocs (h ++ h') = allocs h + allocs h'
  | [], h' => (Nat.zero_add _).symm
  | .born _ :: h, h' => by rw [List.cons_append, allocs, allocs, allocs_append h h']; omega
  | .exited _ _ _ :: h, h' | .reaped _ _ _ _ :: h, h' => allocs_append h h'

theorem reapedPids_append : ∀ h h' : List Event, reapedPids (h ++ h') = reapedPids h ++ reapedPids h'
  | [], _ => rfl
  | .reaped _ _ pid _ :: h, h' => congrArg (pid :: ·) (reapedPids_append h h')
  | .born _ :: h, h' | .exited _ _ _ :: h, h' => reapedPids_append h h'

theorem mem_reapedPids : ∀ {h : List Event} {pid : BitVec 32}, pid ∈ reapedPids h →
    ∃ p q status, Event.reaped p q pid status ∈ h
  | .reaped p q pid' status :: h, pid, hm => by
      rcases List.mem_cons.mp hm with rfl | hm
      · exact ⟨p, q, status, List.mem_cons_self⟩
      · obtain ⟨p, q, status, h'⟩ := mem_reapedPids (h := h) hm
        exact ⟨p, q, status, List.mem_cons_of_mem _ h'⟩
  | .born _ :: h, pid, hm | .exited _ _ _ :: h, pid, hm => by
      obtain ⟨p, q, status, h'⟩ := mem_reapedPids (h := h) hm
      exact ⟨p, q, status, List.mem_cons_of_mem _ h'⟩

/-- Pids and the history. -/
structure Book (h : List Event) (s : Sys) : Prop where
  next : s.nextpid.toNat = allocs h + 2
  range : ∀ q, (s.proc q).state ≠ .UNUSED → 0 < (s.proc q).pid.toNat ∧ (s.proc q).pid.toNat < s.nextpid.toNat
  distinct : ∀ q r, (s.proc q).state ≠ .UNUSED → (s.proc r).state ≠ .UNUSED → (s.proc q).pid = (s.proc r).pid → q = r
  zombie : ∀ q, (s.proc q).state = .ZOMBIE → .exited q (s.proc q).pid (s.proc q).xstate ∈ h
  exited : ∀ q pid status, .exited q pid status ∈ h → (∃ p, .reaped p q pid status ∈ h) ∨
    (s.proc q).state = .ZOMBIE ∧ (s.proc q).pid = pid ∧ (s.proc q).xstate = status
  reaped : ∀ p q pid status, .reaped p q pid status ∈ h → .exited q pid status ∈ h ∧
    pid.toNat < s.nextpid.toNat ∧ ∀ r, (s.proc r).state ≠ .UNUSED → (s.proc r).pid ≠ pid
  once : (reapedPids h).Nodup

theorem Book.quiet {h : List Event} (hb : Book h s) (next : t.nextpid = s.nextpid)
    (same : ∀ r, Same (s.proc r) (t.proc r)) : Book h t := by
  have hused : ∀ {r}, (t.proc r).state ≠ .UNUSED → (s.proc r).state ≠ .UNUSED := fun {r} hr he =>
    hr ((same r).unused.mpr he)
  refine ⟨next ▸ hb.next, fun q hq => ?_, fun q r hq hr he => ?_, fun q hq => ?_, fun q pid status he => ?_,
    fun p q pid status he => ?_, hb.once⟩
  · rw [(same q).pid, next]
    exact hb.range q (hused hq)
  · rw [(same q).pid, (same r).pid] at he
    exact hb.distinct q r (hused hq) (hused hr) he
  · rw [(same q).pid, (same q).xstate]
    exact hb.zombie q ((same q).zombie.mp hq)
  · rw [(same q).zombie, (same q).pid, (same q).xstate]
    exact hb.exited q pid status he
  · obtain ⟨h1, h2, h3⟩ := hb.reaped p q pid status he
    refine ⟨h1, next ▸ h2, fun r hr => ?_⟩
    rw [(same r).pid]
    exact h3 r (hused hr)

theorem Book.born {h : List Event} (hb : Book h s) (hold : (s.proc q).state = .UNUSED)
    (hnew : (t.proc q).state = .USED ∧ (t.proc q).pid = s.nextpid) (next : t.nextpid = s.nextpid + 1)
    (others : ∀ r, r ≠ q → t.proc r = s.proc r) (hlt : s.nextpid.toNat + 1 < 2 ^ 32) :
    Book (h ++ [.born s.nextpid]) t := by
  have hnext : t.nextpid.toNat = s.nextpid.toNat + 1 := by
    rw [next, BitVec.toNat_add]
    exact Nat.mod_eq_of_lt hlt
  have hs := hb.next
  have hmem : ∀ {e : Event}, e ∈ h ++ [.born s.nextpid] → e ∈ h ∨ e = .born s.nextpid := fun he =>
    (List.mem_append.mp he).imp_right List.mem_singleton.mp
  have hzombie : ∀ {r}, (s.proc r).state = .ZOMBIE ∨ (t.proc r).state = .ZOMBIE → r ≠ q := by
    rintro r (hr | hr) rfl
    · exact absurd (hold.symm.trans hr) (by decide)
    · exact absurd (hnew.1.symm.trans hr) (by decide)
  -- the new pid is above all others
  have hfresh : ∀ r, r ≠ q → (t.proc r).state ≠ .UNUSED → (t.proc r).pid ≠ (t.proc q).pid := by
    intro r hne hr he
    rw [others r hne] at hr he
    have hrange := (hb.range r hr).2
    rw [he, hnew.2] at hrange
    exact Nat.lt_irrefl _ hrange
  refine ⟨?_, fun r hr => ?_, fun r r' hr hr' he => ?_, fun r hr => ?_, fun r pid status he => ?_,
    fun p r pid status he => ?_, ?_⟩
  · rw [hnext, allocs_append, hs]; rfl
  · rw [hnext]
    rcases eq_or_ne r q with rfl | hne
    · rw [hnew.2]; omega
    · rw [others r hne] at hr ⊢
      have := hb.range r hr
      omega
  · rcases eq_or_ne r q with hrq | hne <;> rcases eq_or_ne r' q with hrq' | hne'
    · rw [hrq, hrq']
    · subst hrq
      exact absurd he.symm (hfresh r' hne' hr')
    · subst hrq'
      exact absurd he (hfresh r hne hr)
    · rw [others r hne] at hr he
      rw [others r' hne'] at hr' he
      exact hb.distinct r r' hr hr' he
  · have hne := hzombie (Or.inr hr)
    rw [others r hne] at hr ⊢
    exact List.mem_append_left _ (hb.zombie r hr)
  · rcases hmem he with he | ⟨⟨⟩⟩
    rcases hb.exited r pid status he with ⟨p, hp⟩ | ⟨hz, hrest⟩
    · exact Or.inl ⟨p, List.mem_append_left _ hp⟩
    · right
      rw [others r (hzombie (Or.inl hz))]
      exact ⟨hz, hrest⟩
  · rcases hmem he with he | ⟨⟨⟩⟩
    obtain ⟨h1, h2, h3⟩ := hb.reaped p r pid status he
    refine ⟨List.mem_append_left _ h1, by omega, fun r' hr' => ?_⟩
    rcases eq_or_ne r' q with rfl | hne
    · rw [hnew.2]; rintro rfl; omega
    · rw [others r' hne] at hr' ⊢
      exact h3 r' hr'
  · rw [reapedPids_append]
    exact (List.append_nil _).symm ▸ hb.once

theorem Book.dropped {h : List Event} (hb : Book h s) (hold : (s.proc q).state = .USED)
    (hnew : (t.proc q).state = .UNUSED) (next : t.nextpid = s.nextpid)
    (others : ∀ r, r ≠ q → t.proc r = s.proc r) : Book h t := by
  have hused : ∀ {r}, (t.proc r).state ≠ .UNUSED → t.proc r = s.proc r := fun hr =>
    others _ (by rintro rfl; exact hr hnew)
  refine ⟨next ▸ hb.next, fun r hr => ?_, fun r r' hr hr' he => ?_, fun r hr => ?_, fun r pid status he => ?_,
    fun p r pid status he => ?_, hb.once⟩
  · have hsame := hused hr
    rw [hsame] at hr ⊢
    exact next ▸ hb.range r hr
  · have hsame := hused hr
    have hsame' := hused hr'
    rw [hsame] at hr he
    rw [hsame'] at hr' he
    exact hb.distinct r r' hr hr' he
  · have hsame := hused (r := r) (by rw [hr]; decide)
    rw [hsame] at hr ⊢
    exact hb.zombie r hr
  · refine (hb.exited r pid status he).imp_right fun hz => ?_
    rw [others r (by rintro rfl; exact absurd (hold.symm.trans hz.1) (by decide))]
    exact hz
  · obtain ⟨h1, h2, h3⟩ := hb.reaped p r pid status he
    refine ⟨h1, next ▸ h2, fun r' hr' => ?_⟩
    have hsame := hused hr'
    rw [hsame] at hr' ⊢
    exact h3 r' hr'

theorem Book.exit {h : List Event} {status : BitVec 32} (hb : Book h s) (hold : (s.proc p).state = .RUNNING)
    (hnew : t.proc p = (s.proc p).exit status) (next : t.nextpid = s.nextpid)
    (others : ∀ r, r ≠ p → t.proc r = s.proc r) : Book (h ++ [.exited p (s.proc p).pid status]) t := by
  have hpid : ∀ r, (t.proc r).pid = (s.proc r).pid := by
    intro r
    rcases eq_or_ne r p with rfl | hne
    · rw [hnew]; rfl
    · rw [others r hne]
  have hused : ∀ {r}, (t.proc r).state ≠ .UNUSED → (s.proc r).state ≠ .UNUSED := by
    intro r hr
    rcases eq_or_ne r p with rfl | hne
    · rw [hold]; decide
    · rwa [others r hne] at hr
  refine ⟨?_, fun r hr => ?_, fun r r' hr hr' he => ?_, fun r hr => ?_, fun r pid status' he => ?_,
    fun r q pid status' he => ?_, ?_⟩
  · rw [next, allocs_append]; exact hb.next
  · rw [hpid, next]; exact hb.range r (hused hr)
  · rw [hpid, hpid] at he
    exact hb.distinct r r' (hused hr) (hused hr') he
  · rw [hpid]
    rcases eq_or_ne r p with rfl | hne
    · rw [hnew]; exact List.mem_append_right _ List.mem_cons_self
    · rw [others r hne] at hr ⊢
      exact List.mem_append_left _ (hb.zombie r hr)
  · rcases List.mem_append.mp he with he | he
    · rcases hb.exited r pid status' he with ⟨q, hq⟩ | hz
      · exact Or.inl ⟨q, List.mem_append_left _ hq⟩
      · right
        rw [others r (by rintro rfl; exact absurd (hold.symm.trans hz.1) (by decide))]
        exact hz
    · obtain ⟨rfl, rfl, rfl⟩ := Event.exited.inj (List.mem_singleton.mp he)
      right
      rw [hnew]
      exact ⟨rfl, rfl, rfl⟩
  · rcases List.mem_append.mp he with he | he
    · obtain ⟨h1, h2, h3⟩ := hb.reaped r q pid status' he
      refine ⟨List.mem_append_left _ h1, next ▸ h2, fun r' hr' => ?_⟩
      rw [hpid]
      exact h3 r' (hused hr')
    · cases List.mem_singleton.mp he
  · rw [reapedPids_append]
    exact (List.append_nil _).symm ▸ hb.once

theorem Book.reap {h : List Event} {j : ℕ} (hb : Book h s) (hold : (s.proc j).state = .ZOMBIE)
    (hnew : (t.proc j).state = .UNUSED) (next : t.nextpid = s.nextpid)
    (others : ∀ r, r ≠ j → t.proc r = s.proc r) :
    Book (h ++ [.reaped p j (s.proc j).pid (s.proc j).xstate]) t := by
  have hj : (s.proc j).state ≠ .UNUSED := by rw [hold]; decide
  have hne : ∀ {r}, (t.proc r).state ≠ .UNUSED → r ≠ j := by rintro r hr rfl; exact hr hnew
  have hused : ∀ {r}, (t.proc r).state ≠ .UNUSED → t.proc r = s.proc r := fun hr => others _ (hne hr)
  refine ⟨?_, fun r hr => ?_, fun r r' hr hr' he => ?_, fun r hr => ?_, fun r pid status he => ?_,
    fun r q pid status he => ?_, ?_⟩
  · rw [next, allocs_append]; exact hb.next
  · have hsame := hused hr
    rw [hsame] at hr ⊢
    exact next ▸ hb.range r hr
  · have hsame := hused hr
    have hsame' := hused hr'
    rw [hsame] at hr he
    rw [hsame'] at hr' he
    exact hb.distinct r r' hr hr' he
  · have hsame := hused (r := r) (by rw [hr]; decide)
    rw [hsame] at hr ⊢
    exact List.mem_append_left _ (hb.zombie r hr)
  · rcases List.mem_append.mp he with he | he
    · rcases hb.exited r pid status he with ⟨q, hq⟩ | hz
      · exact Or.inl ⟨q, List.mem_append_left _ hq⟩
      · rcases eq_or_ne r j with rfl | hrj
        · obtain ⟨-, rfl, rfl⟩ := hz
          exact Or.inl ⟨p, List.mem_append_right _ List.mem_cons_self⟩
        · right
          rw [others r hrj]
          exact hz
    · cases List.mem_singleton.mp he
  · rcases List.mem_append.mp he with he | he
    · obtain ⟨h1, h2, h3⟩ := hb.reaped r q pid status he
      refine ⟨List.mem_append_left _ h1, next ▸ h2, fun r' hr' => ?_⟩
      have hsame := hused hr'
      rw [hsame] at hr' ⊢
      exact h3 r' hr'
    · obtain ⟨-, rfl, rfl, rfl⟩ := Event.reaped.inj (List.mem_singleton.mp he)
      refine ⟨List.mem_append_left _ (hb.zombie q hold), next ▸ (hb.range q hj).2, fun r' hr' he' => ?_⟩
      have hrj := hne hr'
      rw [others r' hrj] at hr' he'
      exact hrj (hb.distinct r' q hr' hj he')
  · rw [reapedPids_append]
    refine List.nodup_append.mpr ⟨hb.once, List.nodup_singleton _, ?_⟩
    rintro pid hpid pid' hpid' rfl
    obtain rfl := List.mem_singleton.mp hpid'
    obtain ⟨r, q, status, hr⟩ := mem_reapedPids hpid
    exact (hb.reaped r q _ status hr).2.2 j hj rfl

theorem Book.step {h : List Event} {l : Label} (hb : Book h s) (hd : Deed nproc s l t)
    (hlt : allocs (h ++ events nproc s l) + 1 < 2 ^ 31 - 1) : Book (h ++ events nproc s l) t := by
  cases hd with
  | quiet next ev same => rw [ev, List.append_nil]; exact hb.quiet next same
  | born q old new next ev others =>
    rw [ev] at hlt ⊢
    rw [allocs_append] at hlt
    refine hb.born old ⟨by rw [new]; rfl, by rw [new]; rfl⟩ next others ?_
    have := hb.next
    omega
  | dropped q old new next ev others => rw [ev, List.append_nil]; exact hb.dropped old new next others
  | exited p status old new next ev others => rw [ev]; exact hb.exit old new next others
  | reaped p j ok label old parent new next ret ev others => rw [ev]; exact hb.reap old new next others

theorem book_init : Book [] Sys.init := by
  have hother : ∀ {q}, (Sys.init.proc q).state ≠ .UNUSED → q = initproc := by
    intro q hq
    by_contra hne
    have : Sys.init.proc q = .zero := update_of_ne hne _ fun _ => Proc.zero
    rw [this] at hq
    exact hq rfl
  refine ⟨rfl, fun q hq => ?_, fun q r hq hr _ => (hother hq).trans (hother hr).symm, fun q hq => ?_, ?_, ?_,
    List.nodup_nil⟩
  · rw [hother hq]; decide
  · have hq' := hother (q := q) (by rw [hq]; decide)
    rw [hq'] at hq
    cases hq
  · rintro q pid status ⟨⟩
  · rintro p q pid status ⟨⟩

/-! ### The protocol -/

/-- The table between two critical sections. -/
structure Orderly (s : Sys) : Prop where
  pid : ∀ q, (s.proc q).state ≠ .UNUSED → (s.proc q).pid ≠ 0
  distinct : ∀ q r, (s.proc q).state ≠ .UNUSED → (s.proc r).state ≠ .UNUSED → (s.proc q).pid = (s.proc r).pid → q = r
  parent : s.waitLock = none → ∀ q, q ≠ initproc → (s.proc q).state.inUse = true →
    ∃ r, (s.proc q).parent = some r ∧ (s.proc r).state ≠ .UNUSED ∧ (s.proc r).state ≠ .ZOMBIE
  asleep : s.waitLock = none → ∀ w q, (s.pc w).bound (s.proc w).state → (s.proc q).parent = some w →
    (s.proc q).state ≠ .ZOMBIE

/-- What the next step of a `wait` does, and what any step does to a ZOMBIE. -/
structure Reaping (nproc : ℕ) (s : Sys) : Prop where
  found : ∀ p ok t pid status, step nproc s (.move p ok) = some t →
    s.waitReturn nproc p ok = some (some (pid, status)) → ∃ j, (s.proc j).state = .ZOMBIE ∧
      (s.proc j).parent = some p ∧ (s.proc j).pid = pid ∧ (s.proc j).xstate = status ∧
      (t.proc j).state = .UNUSED ∧ ∀ r, r ≠ j → t.proc r = s.proc r
  failed : ∀ p ok t, step nproc s (.move p ok) = some t → s.waitReturn nproc p ok = some none → t.proc = s.proc
  stays : ∀ l t j, step nproc s l = some t → (s.proc j).state = .ZOMBIE →
    (t.proc j).state = .ZOMBIE ∧ (t.proc j).pid = (s.proc j).pid ∧ (t.proc j).xstate = (s.proc j).xstate ∨
    ∃ p ok, l = .move p ok ∧ (s.proc j).parent = some p ∧
      s.waitReturn nproc p ok = some (some ((s.proc j).pid, (s.proc j).xstate))

/-- The history: every exit is reaped or still to be reaped, every reaping is of an exit, and none is of
    the same process as another. -/
structure Accounted (h : List Event) (s : Sys) : Prop where
  exited : ∀ q pid status, .exited q pid status ∈ h → (∃ p, .reaped p q pid status ∈ h) ∨
    (s.proc q).state = .ZOMBIE ∧ (s.proc q).pid = pid ∧ (s.proc q).xstate = status
  reaped : ∀ p q pid status, .reaped p q pid status ∈ h → .exited q pid status ∈ h
  once : (reapedPids h).Nodup

theorem Proto.orderly {h : List Event} (hp : Proto nproc s) (hb : Book h s) : Orderly s where
  pid q hq he := by
    have := (hb.range q hq).1
    rw [he] at this
    exact Nat.lt_irrefl _ this
  distinct := hb.distinct
  parent _ q hq hu := by
    obtain ⟨r, hr⟩ := Option.ne_none_iff_exists'.mp (hp.family.up q hq hu)
    have halive := (hp.family.alive q r hr).2
    refine ⟨r, hr, fun he => ?_, fun he => ?_⟩ <;> rw [he] at halive <;> cases halive
  asleep hfree w q hw hq hz := by
    -- whoever owes init a wakeup holds `wait_lock`
    obtain ⟨-, e, he⟩ := hp.waits.seen w q (Pc.looked_of_bound hw q) hq hz
    have hold : (s.pc e).holds = true := by
      cases hpc : s.pc e <;> rw [hpc] at he <;> first | rfl | cases he
    exact absurd (hfree.symm.trans ((hp.placed.wait e).mpr hold)) (by simp)

/-- Only a process in the loop of `wait` returns from it. -/
theorem Sys.scan_of_waitReturn {ok : Bool} {v : Option (BitVec 32 × BitVec 32)}
    (h : s.waitReturn nproc p ok = some v) : ∃ j havekids, s.pc p = .scan j havekids := by
  rw [Sys.waitReturn] at h
  split at h
  · rename_i j havekids hpc
    exact ⟨j, havekids, hpc⟩
  · cases h

theorem move_of_step {ok : Bool} (h : step nproc s (.move p ok) = some t) : move nproc s p ok = some t := by
  rw [step] at h
  split at h
  · exact h
  · cases h

theorem Proto.reaping (h : Proto nproc s) : Reaping nproc s where
  found p ok t pid status hstep hret := by
    obtain ⟨j, havekids, hpc⟩ := Sys.scan_of_waitReturn hret
    rcases scan_cases hpc (move_of_step hstep) with ⟨hret', hz, hpar, rfl⟩ | ⟨hret', -⟩ | ⟨hret', -⟩
    · rw [hret', Option.some.injEq, Option.some.injEq, Prod.mk.injEq] at hret
      refine ⟨j, hz, hpar, hret.1, hret.2, ?_, fun r hr => Sys.setProc_ne s hr _⟩
      exact congrArg Proc.state (Sys.setProc_self s j _)
    · rw [hret'] at hret; cases hret
    · rw [hret'] at hret; cases hret
  failed p ok t hstep hret := by
    obtain ⟨j, havekids, hpc⟩ := Sys.scan_of_waitReturn hret
    rcases scan_cases hpc (move_of_step hstep) with ⟨hret', -⟩ | ⟨-, rfl⟩ | ⟨hret', -⟩
    · rw [hret'] at hret; cases hret
    · rfl
    · rw [hret'] at hret; cases hret
  stays l t j hstep hz := by
    have hkeep : t.proc j = s.proc j → (t.proc j).state = .ZOMBIE ∧ (t.proc j).pid = (s.proc j).pid ∧
        (t.proc j).xstate = (s.proc j).xstate := by
      intro he
      rw [he]; exact ⟨hz, rfl, rfl⟩
    cases deed_step h hstep with
    | quiet next ev same => exact Or.inl ⟨(same j).zombie.mpr hz, (same j).pid, (same j).xstate⟩
    | born q old new next ev others =>
      exact Or.inl (hkeep (others j (by rintro rfl; exact absurd (old.symm.trans hz) (by decide))))
    | dropped q old new next ev others =>
      exact Or.inl (hkeep (others j (by rintro rfl; exact absurd (old.symm.trans hz) (by decide))))
    | exited p status old new next ev others =>
      exact Or.inl (hkeep (others j (by rintro rfl; exact absurd (old.symm.trans hz) (by decide))))
    | reaped p i ok label old parent new next ret ev others =>
      rcases eq_or_ne j i with rfl | hne
      · exact Or.inr ⟨p, ok, label, parent, ret⟩
      · exact Or.inl (hkeep (others j hne))

/-- What is known after a run: the protocol, and the book as long as pids do not wrap around. -/
theorem proto_run {ls : List Label} (hrun : run (step nproc) .init ls = some t) :
    Proto nproc t ∧ (allocs (trace (step nproc) (fun s l _ => events nproc s l) .init ls) + 1 < 2 ^ 31 - 1 →
      Book (trace (step nproc) (fun s l _ => events nproc s l) .init ls) t) := by
  refine trace_inv (I := fun h s => Proto nproc s ∧ (allocs h + 1 < 2 ^ 31 - 1 → Book h s))
    (h := []) (fun h s l t hs hstep => ⟨proto_step hs.1 hstep, fun hlt => ?_⟩) ⟨proto_init, fun _ => book_init⟩ hrun
  have hlt' : allocs h + 1 < 2 ^ 31 - 1 := by rw [allocs_append] at hlt; omega
  exact (hs.2 hlt').step (deed_step hs.1 hstep) hlt

/-- CORRECT (exit and wait): after every run with fewer than 2^31 - 1 calls of `allocpid`, that of
    `userinit` included, the table is orderly, each step of a `wait` reaps what it returns, and the
    history adds up. -/
theorem exit_wait {ls : List Label} (hrun : run (step nproc) .init ls = some t)
    (hpids : allocs (trace (step nproc) (fun s l _ => events nproc s l) .init ls) + 1 < 2 ^ 31 - 1) :
    Orderly t ∧ Reaping nproc t ∧ Accounted (trace (step nproc) (fun s l _ => events nproc s l) .init ls) t := by
  obtain ⟨hp, hb⟩ := proto_run hrun
  have hbook := hb hpids
  exact ⟨hp.orderly hbook, hp.reaping, hbook.exited, fun p q pid status he => (hbook.reaped p q pid status he).1,
    hbook.once⟩

/-- `init` forks, waits and falls asleep; the child exits and wakes it; `init` reaps the child. -/
def sleepAndReap : List Label := List.flatten
  [[.sched 0, .fork 0 1], moves 0 3, [.wait 0], moves 0 6, [.sched 1, .exit 1 7], moves 1 8, [.sched 0], moves 0 4]

theorem exit_wait_sleepAndReap : ∃ t, run (step 2) .init sleepAndReap = some t ∧ (t.proc 1).state = .UNUSED ∧
    Orderly t ∧ Reaping 2 t ∧ Accounted (trace (step 2) (fun s l _ => events 2 s l) .init sleepAndReap) t := by
  have hview : (run (step 2) .init sleepAndReap).map (fun t => (t.proc 1).state) = some .UNUSED := by decide +kernel
  obtain ⟨t, ht, hv⟩ := Option.map_eq_some_iff.mp hview
  exact ⟨t, ht, hv, exit_wait ht (by decide +kernel)⟩

end Minios.Procs
