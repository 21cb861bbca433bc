import Minios.Procs.Family

/-! `kernel/proc.c`: every step keeps the order among parents and children. -/

namespace Minios.Procs
open Schemes Function

variable {nproc p q : ℕ} {s t : Sys}

structure Proto (nproc : ℕ) (s : Sys) : Prop where
  placed : Placed nproc s
  family : Family nproc s
  waits : Waits s

/-! ### A slot changes -/

theorem PState.not_alive_USED {state : PState} (h : state.alive = true) : state ≠ .USED := by
  rintro rfl; cases h

/-- A process gets another state, or none of what the protocol depends on changes. -/
theorem Proto.touch (h : Proto nproc s) {pr : Proc} (hpar : pr.parent = (s.proc q).parent)
    (hchan : pr.chan = (s.proc q).chan) (hlock : pr.lock = (s.proc q).lock)
    (hstate : pr.state = (s.proc q).state ∨ (s.proc q).state.alive = true ∧ (s.pc q).fits pr.state = true ∧
      (pr.state = .RUNNABLE ∨ pr.state = .RUNNING)) : Proto nproc (s.setProc q pr) := by
  obtain ⟨hown, hchan', hlock'⟩ := h.placed.own q
  refine ⟨h.placed.slot ⟨?_, hchan ▸ hchan', hlock ▸ hlock'⟩ fun p hp => ?_,
    h.family.slot hpar (fun hu => ?_) fun ha => Or.inl ?_, h.waits.slot (fun hz w hw _ _ => Or.inl ⟨?_, hpar ▸ hw⟩)
      (fun hs _ => ?_) fun w hw _ => hpar ▸ hw⟩
  · rcases hstate with he | ⟨-, he, -⟩
    · rw [he]; exact hown
    · exact he
  · have hused := (h.placed.child p q hp).2
    rcases hstate with he | ⟨ha, -⟩
    · rw [he]; exact hused
    · exact absurd hused (PState.not_alive_USED ha)
  · rcases hstate with he | ⟨ha, -⟩
    · rw [he] at hu; exact Or.inl hu
    · left
      cases hq : (s.proc q).state <;> rw [hq] at ha <;> first | rfl | cases ha
  · rcases hstate with he | ⟨-, -, he | he⟩
    · rw [he]; exact ha
    · rw [he]; rfl
    · rw [he]; rfl
  · rcases hstate with he | ⟨-, -, he | he⟩
    · rw [← he]; exact hz
    · exact absurd (he.symm.trans hz) (by decide)
    · exact absurd (he.symm.trans hz) (by decide)
  · rcases hstate with he | ⟨-, -, he | he⟩
    · rw [← he]; exact hs
    · exact absurd (he.symm.trans hs) (by decide)
    · exact absurd (he.symm.trans hs) (by decide)

theorem Proto.wakeup (h : Proto nproc s) (chan : Option Chan) :
    Proto nproc (s.setProc q ((s.proc q).wakeup chan)) := by
  rw [Proc.wakeup]
  split
  · rename_i hc
    have hfits := (h.placed.own q).state
    rw [hc.1] at hfits
    exact h.touch rfl rfl rfl (Or.inr ⟨by rw [hc.1]; rfl, Pc.fits_runnable hfits, Or.inl rfl⟩)
  · rw [Sys.setProc_same]; exact h

theorem Proto.kill (h : Proto nproc s) : Proto nproc (s.setProc q (s.proc q).kill) := by
  refine h.touch rfl rfl rfl ?_
  rcases eq_or_ne (s.proc q).state .SLEEPING with hs | hs
  · have hfits := (h.placed.own q).state
    have hkill : (s.proc q).kill.state = .RUNNABLE := if_pos hs
    rw [hs] at hfits
    rw [hkill, hs]
    exact Or.inr ⟨rfl, Pc.fits_runnable hfits, Or.inl rfl⟩
  · exact Or.inl (if_neg hs)

theorem Proto.setup (h : Proto nproc s) {pr : Proc} (hq : (s.proc q).state = .USED) (hpr : pr.state = .USED)
    (hpar : pr.parent = (s.proc q).parent) : Proto nproc (s.setProc q pr) := by
  have hown := (h.placed.own q).state
  rw [hq] at hown
  have hpc := Pc.eq_user hown
  refine ⟨h.placed.slot ⟨?_, ?_, ?_⟩ fun _ _ => hpr, h.family.slot hpar ?_ ?_, h.waits.slot ?_ ?_ ?_⟩
  · rw [hpc, hpr]; rfl
  · rw [hpc]; rintro ⟨⟩
  · rw [hpc]; rintro ⟨⟩
  · rw [hpr]; rintro ⟨⟩
  · rw [hq]; rintro ⟨⟩
  · rw [hpr]; rintro ⟨⟩
  · rw [hpr]; rintro ⟨⟩
  · rw [hpc]; rintro w _ ⟨⟩

theorem Proto.free (h : Proto nproc s) {pr : Proc} (hpr : pr.state = .UNUSED ∧ pr.parent = none)
    (hq : (s.proc q).state = .USED ∨ (s.proc q).state = .ZOMBIE) (hchild : ∀ r, (s.pc r).child ≠ some q) :
    Proto nproc (s.setProc q pr) := by
  have hown := (h.placed.own q).state
  have hpc : (s.pc q = .user ∨ s.pc q = .exited) ∧ (s.proc q).state.alive = false := by
    rcases hq with hq | hq <;> rw [hq] at hown ⊢
    · exact ⟨Or.inl (Pc.eq_user hown), rfl⟩
    · exact ⟨Or.inr (Pc.eq_exited hown), rfl⟩
  refine ⟨h.placed.slot ⟨?_, ?_, ?_⟩ fun r hr => absurd hr (hchild r), h.family.free hpc.2 ?_ hpr.2 ?_,
    h.waits.slot ?_ ?_ ?_⟩
  · rcases hpc.1 with hpc | hpc <;> rw [hpc, hpr.1] <;> rfl
  · rcases hpc.1 with hpc | hpc <;> rw [hpc] <;> rintro ⟨⟩
  · rcases hpc.1 with hpc | hpc <;> rw [hpc] <;> rintro ⟨⟩
  · intro r hr
    exact hchild r (by rw [hr]; rfl)
  · rw [hpr.1]; rfl
  · rw [hpr.1]; rintro ⟨⟩
  · rw [hpr.1]; rintro ⟨⟩
  · rw [hpr.2]; rintro w ⟨⟩

/-! ### A process moves to a point without duties -/

def Pc.idle : Pc → Bool
  | .user | .exitLock _ | .waitLock | .napping | .kill _ _ => true
  | _ => false

/-- A point without duties. -/
structure Pc.Free (pc : Pc) : Prop where
  cleared : ∀ i, ¬pc.cleared i
  looked : ∀ state i, ¬pc.looked state i
  bound : ∀ state, ¬pc.bound state
  passed : ∀ w, ¬pc.passed w
  owes : ¬pc.owes
  child : pc.child = none
  holds : pc.holds = false
  awake : pc ≠ .asleep ∧ pc ≠ .dozing

theorem Pc.free_of_idle {pc : Pc} (h : pc.idle = true) : pc.Free := by
  cases pc <;> first
    | exact ⟨fun _ => id, fun _ _ => id, fun _ => id, fun _ => id, id, rfl, rfl, by rintro ⟨⟩, by rintro ⟨⟩⟩
    | cases h

theorem Proto.idle (h : Proto nproc s) {pr : Proc} {w : Option ℕ} {pc : Pc} (hp : p < nproc)
    (hrun : (s.proc p).state = .RUNNING) (hidle : pc.idle = true) (hpar : pr.parent = (s.proc p).parent)
    (hstate : pr.state = .RUNNING ∨ pr.state = .SLEEPING ∧ s.pc p ≠ .asleep) (hfits : pc.fits pr.state = true)
    (hwait : w = s.waitLock ∧ (s.pc p).holds = false ∨ w = none ∧ (s.pc p).holds = true)
    (howes : ¬(s.pc p).owes) (hinit : p = initproc → pc.exiting = false) :
    Proto nproc (((s.setProc p pr).setWait w).setPc p pc) := by
  have hfree := Pc.free_of_idle hidle
  have halive : pr.state.alive = true := by rcases hstate with he | ⟨he, -⟩ <;> rw [he] <;> rfl
  have hz : pr.state ≠ .ZOMBIE := by rintro he; rw [he] at halive; cases halive
  refine ⟨h.placed.self hp (by rw [hrun]; decide) ⟨hfits, fun he => absurd he hfree.awake.1,
    fun he => absurd he hfree.awake.2⟩ ?_ fun q hq => absurd (hfree.child.symm.trans hq) (by simp),
    ((h.family.slot hpar ?_ fun _ => Or.inl halive).setWait w).setPc (fun i hi => absurd hi (hfree.cleared i)) ?_ hinit,
    ((h.waits.slot (fun he => absurd he hz) ?_ fun w hw _ => hpar ▸ hw).setWait w).setPc
      (fun i hi => absurd hi (hfree.looked _ i)) (fun ho => absurd ho howes) (fun hb => absurd hb (hfree.bound _))
      fun w _ hw => absurd hw (hfree.passed w)⟩
  · rcases hwait with ⟨rfl, hh⟩ | ⟨rfl, hh⟩
    · exact Or.inl ⟨rfl, hfree.holds.trans hh.symm⟩
    · exact Or.inr (Or.inr ⟨hh, rfl, hfree.holds⟩)
  · exact fun _ => Or.inl (by rw [hrun]; rfl)
  · rintro q rfl; cases hidle
  · intro hs hpc
    exact absurd hpc (hstate.resolve_left (by rw [hs]; decide)).2

theorem Proto.rest (h : Proto nproc s) {w : Option ℕ} {pc : Pc} (hp : p < nproc)
    (hrun : (s.proc p).state = .RUNNING) (hidle : pc.idle = true) (hfits : pc.fits .RUNNING = true)
    (hwait : w = s.waitLock ∧ (s.pc p).holds = false ∨ w = none ∧ (s.pc p).holds = true)
    (howes : ¬(s.pc p).owes) (hinit : p = initproc → pc.exiting = false) :
    Proto nproc ((s.setWait w).setPc p pc) := by
  have h' : Proto nproc (((s.setProc p (s.proc p)).setWait w).setPc p pc) :=
    h.idle hp hrun hidle rfl (Or.inl hrun) (by rw [hrun]; exact hfits) hwait howes hinit
  rwa [Sys.setProc_same] at h'

/-! ### `fork` -/

theorem Proto.nextpid (h : Proto nproc s) (pid : BitVec 32) : Proto nproc { s with nextpid := pid } :=
  ⟨⟨h.placed.own, h.placed.slots, h.placed.child, h.placed.only, h.placed.wait⟩,
    ⟨h.family.up, h.family.alive, h.family.clear, h.family.forked, h.family.init⟩,
    ⟨h.waits.seen, h.waits.woken⟩⟩

theorem Proto.forkTo (h : Proto nproc s) {pc : Pc} (hp : p < nproc) (hrun : (s.proc p).state = .RUNNING)
    (hpc : pc = .forkCopy q ∨ pc = .forkParent q ∨ pc = .forkRun q ∧ (s.proc q).parent ≠ none)
    (hfree : (s.pc p).holds = false ∧ ¬(s.pc p).owes)
    (hchild : (q < nproc ∧ (s.proc q).state = .USED) ∧ ∀ r, (s.pc r).child = some q → r = p) :
    Proto nproc (s.setPc p pc) := by
  have hne : (s.proc p).state ≠ .USED := by rw [hrun]; decide
  rcases hpc with rfl | rfl | ⟨rfl, hq⟩
  all_goals
    refine ⟨h.placed.go (w := s.waitLock) hp hne ⟨by rw [hrun]; rfl, by rintro ⟨⟩, by rintro ⟨⟩⟩
      (Or.inl ⟨rfl, hfree.1.symm⟩) ?_, h.family.setPc (by rintro i ⟨⟩) ?_ fun _ => rfl,
      h.waits.setPc (by rintro i ⟨⟩) (fun ho => absurd ho hfree.2) (by rintro ⟨⟩) (by rintro w - ⟨⟩)⟩
  · rintro r ⟨⟩; exact hchild
  · rintro r ⟨⟩
  · rintro r ⟨⟩; exact hchild
  · rintro r ⟨⟩
  · rintro r ⟨⟩; exact hchild
  · rintro r ⟨⟩; exact hq

theorem Proto.unpark (h : Proto nproc s) (hq : q < nproc) (hfree : (s.proc q).state = .UNUSED) :
    Proto nproc (s.setPc q .user) := by
  have hold : (s.pc q).holds = false ∧ ¬(s.pc q).owes := by
    have hown := (h.placed.own q).state
    rw [hfree] at hown
    cases hpc : s.pc q <;> rw [hpc] at hown <;> first | exact ⟨rfl, id⟩ | cases hown
  refine ⟨h.placed.go (w := s.waitLock) hq (by rw [hfree]; decide) ⟨by rw [hfree]; rfl, ?_, ?_⟩
    (Or.inl ⟨rfl, hold.1.symm⟩) ?_, h.family.setPc (by rintro i ⟨⟩) (by rintro r ⟨⟩) fun _ => rfl,
    h.waits.setPc (by rintro i ⟨⟩) (fun ho => absurd ho hold.2) (by rintro ⟨⟩) (by rintro w - ⟨⟩)⟩
  · rintro ⟨⟩
  · rintro ⟨⟩
  · rintro r ⟨⟩

theorem proto_allocproc (h : Proto nproc s) (hu : s.InUser nproc p) (hq : q < nproc)
    (hfree : (s.proc q).state = .UNUSED) : Proto nproc (s.allocproc p q) := by
  obtain ⟨hp, hrun, hpc⟩ := hu
  have hpq : p ≠ q := by rintro rfl; rw [hrun] at hfree; cases hfree
  have h1 := h.unpark hq hfree
  have hpcq : (s.setPc q .user).pc q = .user := Sys.setPc_self ..
  have h2 : Proto nproc ((s.setPc q .user).setProc q (((s.proc q).alloc s.nextpid).setLock (some p))) := by
    refine ⟨h1.placed.slot ?_ fun _ _ => rfl, h1.family.slot rfl (by rintro ⟨⟩) ?_, h1.waits.slot ?_ ?_ ?_⟩
    · rw [hpcq]; exact ⟨rfl, by rintro ⟨⟩, by rintro ⟨⟩⟩
    · intro ha
      rw [show ((s.setPc q .user).proc q).state = .UNUSED from hfree] at ha
      cases ha
    · rintro ⟨⟩
    · rintro ⟨⟩
    · rw [hpcq]; rintro w - ⟨⟩
  refine (h2.forkTo (q := q) hp ?_ (Or.inl rfl) ?_ ⟨⟨hq, ?_⟩, fun r hr => ?_⟩).nextpid (s.nextpid + 1)
  · rw [Sys.setProc_ne _ hpq]; exact hrun
  · have hpcp : (s.setPc q .user).pc p = .user := (Sys.setPc_ne s hpq _).trans hpc
    rw [show ((s.setPc q .user).setProc q _).pc p = .user from hpcp]
    exact ⟨rfl, id⟩
  · rw [Sys.setProc_self]; rfl
  · -- no other `fork` sets up a slot that is UNUSED
    rcases eq_or_ne r q with rfl | hne
    · rw [show ((s.setPc r .user).setProc r _).pc r = .user from hpcq] at hr
      cases hr
    · have hr' : (s.pc r).child = some q := by rw [← Sys.setPc_ne s hne .user]; exact hr
      exact absurd (hfree.symm.trans (h.placed.child r q hr').2) (by decide)

theorem proto_forkCopy {ok : Bool} (h : Proto nproc s) (hp : p < nproc) (hrun : (s.proc p).state = .RUNNING)
    (hpc : s.pc p = .forkCopy q) (hstep : move nproc s p ok = some t) : Proto nproc t := by
  have hchild : (s.pc p).child = some q := by rw [hpc]; rfl
  obtain ⟨hq, hused⟩ := h.placed.child p q hchild
  have hpq : p ≠ q := by rintro rfl; rw [hrun] at hused; cases hused
  rw [move, hpc] at hstep
  dsimp only at hstep
  split at hstep
  · obtain rfl := Option.some.inj hstep
    have h1 : Proto nproc (s.setProc q (((s.proc q).copy (s.proc p)).setLock none)) := h.setup hused hused rfl
    refine h1.forkTo (q := q) hp ?_ (Or.inr (Or.inl rfl)) ?_ ⟨⟨hq, ?_⟩, fun r hr => ?_⟩
    · rw [Sys.setProc_ne _ hpq]; exact hrun
    · rw [show (s.setProc q _).pc p = .forkCopy q from hpc]; exact ⟨rfl, id⟩
    · rw [Sys.setProc_self]; exact hused
    · exact h.placed.only r p q hr hchild
  · obtain rfl := Option.some.inj hstep
    have h1 : Proto nproc (s.setPc p .user) := h.rest (w := s.waitLock) hp hrun rfl rfl
      (Or.inl ⟨rfl, by rw [hpc]; rfl⟩) (by rw [hpc]; exact id) fun _ => rfl
    refine h1.free (q := q) ⟨rfl, rfl⟩ (Or.inl hused) fun r hr => ?_
    rcases eq_or_ne r p with rfl | hne
    · rw [Sys.setPc_self] at hr; cases hr
    · rw [Sys.setPc_ne _ hne] at hr
      exact hne (h.placed.only r p q hr hchild)

theorem proto_forkParent {ok : Bool} (h : Proto nproc s) (hp : p < nproc) (hrun : (s.proc p).state = .RUNNING)
    (hpc : s.pc p = .forkParent q) (hstep : move nproc s p ok = some t) : Proto nproc t := by
  have hchild : (s.pc p).child = some q := by rw [hpc]; rfl
  obtain ⟨hq, hused⟩ := h.placed.child p q hchild
  have hpq : p ≠ q := by rintro rfl; rw [hrun] at hused; cases hused
  have hpcq : s.pc q = .user := by
    have hown := (h.placed.own q).state
    rw [hused] at hown
    exact Pc.eq_user hown
  rw [move, hpc] at hstep
  dsimp only at hstep
  split at hstep
  · obtain rfl := Option.some.inj hstep
    have h1 : Proto nproc (s.setProc q ((s.proc q).setParent (some p))) := by
      refine ⟨h.placed.slot ⟨(h.placed.own q).state, (h.placed.own q).chan, (h.placed.own q).lock⟩ fun _ _ => hused,
        h.family.adopt hq (by rw [hrun]; rfl) (by rw [hpc]; exact id), h.waits.slot ?_ ?_ ?_⟩
      · intro hz; exact absurd (hused.symm.trans hz) (by decide)
      · intro hz; exact absurd (hused.symm.trans hz) (by decide)
      · rw [hpcq]; rintro w - ⟨⟩
    refine h1.forkTo (q := q) hp ?_ (Or.inr (Or.inr ⟨rfl, ?_⟩)) ?_ ⟨⟨hq, ?_⟩, fun r hr => ?_⟩
    · rw [Sys.setProc_ne _ hpq]; exact hrun
    · rw [Sys.setProc_self]; rintro ⟨⟩
    · rw [show (s.setProc q _).pc p = .forkParent q from hpc]; exact ⟨rfl, id⟩
    · rw [Sys.setProc_self]; exact hused
    · exact h.placed.only r p q hr hchild
  · cases hstep

theorem proto_forkRun {ok : Bool} (h : Proto nproc s) (hp : p < nproc) (hrun : (s.proc p).state = .RUNNING)
    (hpc : s.pc p = .forkRun q) (hstep : move nproc s p ok = some t) : Proto nproc t := by
  have hchild : (s.pc p).child = some q := by rw [hpc]; rfl
  obtain ⟨-, hused⟩ := h.placed.child p q hchild
  have hpq : q ≠ p := by rintro rfl; rw [hrun] at hused; cases hused
  have hpcq : (s.setPc p .user).pc q = .user := by
    have hown := (h.placed.own q).state
    rw [hused] at hown
    rw [Sys.setPc_ne _ hpq]
    exact Pc.eq_user hown
  rw [move, hpc] at hstep
  dsimp only at hstep
  split at hstep
  · obtain rfl := Option.some.inj hstep
    have h1 : Proto nproc (s.setPc p .user) := h.rest (w := s.waitLock) hp hrun rfl rfl
      (Or.inl ⟨rfl, by rw [hpc]; rfl⟩) (by rw [hpc]; exact id) fun _ => rfl
    have ht : Proto nproc ((s.setPc p .user).setProc q ((s.proc q).setState .RUNNABLE)) := by
      refine ⟨h1.placed.slot ?_ fun r hr => ?_, h1.family.slot rfl (fun _ => Or.inr (h.family.forked p q hpc)) ?_,
        h1.waits.slot ?_ ?_ ?_⟩
      · rw [hpcq]; exact ⟨rfl, by rintro ⟨⟩, by rintro ⟨⟩⟩
      · rcases eq_or_ne r p with rfl | hne
        · rw [Sys.setPc_self] at hr; cases hr
        · rw [Sys.setPc_ne _ hne] at hr
          exact absurd (h.placed.only r p q hr hchild) hne
      · exact fun _ => Or.inl rfl
      · rintro ⟨⟩
      · rintro ⟨⟩
      · rw [hpcq]; rintro w - ⟨⟩
    exact ht
  · cases hstep

/-! ### Under `wait_lock` -/

/-- What all points that hold `wait_lock` have in common. -/
theorem Pc.holding {pc : Pc} (h : pc.holds = true) :
    pc.fits .RUNNING = true ∧ pc.child = none ∧ (∀ state, ¬pc.bound state) ∧ pc ≠ .asleep ∧ pc ≠ .dozing := by
  cases pc <;> first
    | exact ⟨rfl, rfl, fun _ => id, by rintro ⟨⟩, by rintro ⟨⟩⟩
    | cases h

theorem Proto.hold (h : Proto nproc s) {w : Option ℕ} {pc : Pc} (hp : p < nproc)
    (hrun : (s.proc p).state = .RUNNING) (hturn : Turn p s.waitLock w (s.pc p) pc) (hpc : pc.holds = true)
    (hclear : ∀ i, pc.cleared i → (s.proc i).parent ≠ some p)
    (hlook : ∀ i, pc.looked .RUNNING i → (s.proc i).parent = some p → (s.proc i).state = .ZOMBIE →
      (s.pc p).looked .RUNNING i)
    (howes : (s.pc p).owes → pc.owes ∨ p ≠ initproc ∧ ∀ i, ¬(s.pc initproc).looked (s.proc initproc).state i)
    (hpass : ∀ w, (s.proc p).parent = some w → pc.passed w → (s.pc p).passed w ∨ ¬(s.pc w).bound (s.proc w).state)
    (hinit : p = initproc → pc.exiting = false) : Proto nproc ((s.setWait w).setPc p pc) := by
  obtain ⟨hfits, hchild, hbound, hasleep, hdozing⟩ := Pc.holding hpc
  refine ⟨h.placed.go hp (by rw [hrun]; decide) ⟨by rw [hrun]; exact hfits, fun he => absurd he hasleep,
    fun he => absurd he hdozing⟩ hturn fun q hq => absurd (hchild.symm.trans hq) (by simp),
    (h.family.setWait w).setPc hclear ?_ hinit,
    (h.waits.setWait w).setPc ?_ howes (fun hb => absurd hb (hbound _)) hpass⟩
  · rintro q rfl; cases hpc
  · rw [show ((s.setWait w).proc p).state = .RUNNING from hrun]; exact hlook

theorem Pc.exiting_of_cleared : ∀ {pc : Pc} {i : ℕ}, pc.cleared i → pc.exiting = true
  | .reparent _ _, _, _ | .wakeInit _ _ _, _, _ | .wakeParent _ _, _, _ | .zombie _, _, _ => rfl

theorem Proto.ne_init (h : Proto nproc s) (hx : (s.pc p).exiting = true) : p ≠ initproc := by
  rintro rfl
  rw [h.family.init.2] at hx
  cases hx

/-- A child that `reparent` comes to is init's from now on, and init is told. -/
theorem Proto.reparent (h : Proto nproc s) {status : BitVec 32} {j : ℕ} (hp : p < nproc)
    (hrun : (s.proc p).state = .RUNNING) (hpc : s.pc p = .reparent status j) (hj : (s.proc j).parent = some p) :
    Proto nproc ((s.setProc j ((s.proc j).setParent (some initproc))).setPc p (.wakeInit status j 0)) := by
  have hinit : p ≠ initproc := h.ne_init (by rw [hpc]; rfl)
  have hlt := (h.family.alive j p hj).1
  have hinit' : ¬(s.pc initproc).cleared j := by
    intro hc
    exact absurd (h.family.init.2.symm.trans (Pc.exiting_of_cleared hc)) (by decide)
  have hother : ∀ r w, r ≠ p → ¬(s.pc r).passed w := fun r w hr hw =>
    hr (h.placed.holder (Pc.holds_of_passed hw) (by rw [hpc]; rfl))
  have hown := h.placed.own j
  have hplaced : Placed nproc (s.setProc j ((s.proc j).setParent (some initproc))) :=
    h.placed.slot ⟨hown.state, hown.chan, hown.lock⟩ fun r hr => (h.placed.child r j hr).2
  have hrun' : ((s.setProc j ((s.proc j).setParent (some initproc))).proc p).state = .RUNNING := by
    rcases eq_or_ne p j with rfl | hne
    · rw [Sys.setProc_self]; exact hrun
    · rw [Sys.setProc_ne _ hne]; exact hrun
  refine ⟨hplaced.go (w := s.waitLock) hp (by rw [hrun']; decide) ⟨by rw [hrun']; rfl, by rintro ⟨⟩, by rintro ⟨⟩⟩
    (Or.inl ⟨rfl, by rw [show (s.setProc j _).pc p = _ from hpc]; rfl⟩) (by rintro q ⟨⟩),
    (h.family.adopt hlt h.family.init.1 hinit').setPc (fun i hi => ?_) (by rintro q ⟨⟩) (fun he => absurd he hinit), ?_⟩
  · rcases eq_or_ne i j with rfl | hne
    · rw [Sys.setProc_self]
      exact fun he => hinit (Option.some.inj he).symm
    · rw [Sys.setProc_ne _ hne]
      exact h.family.clear p i (by rw [hpc]; exact lt_of_le_of_ne hi hne)
  · -- the wakeup is owed before slot `j` changes hands
    have h1 : Waits (s.setPc p (.wakeInit status j 0)) := h.waits.setPc (by rintro i ⟨⟩)
      (by rw [hpc]; rintro ⟨⟩) (by rintro ⟨⟩) (by rintro w - ⟨⟩)
    have h2 : Waits ((s.setPc p (.wakeInit status j 0)).setProc j ((s.proc j).setParent (some initproc))) := by
      refine h1.slot (fun _ w hw _ _ => Or.inr ⟨(Option.some.inj hw).symm, p, ?_⟩) (fun hs _ => hs) fun w _ hw => ?_
      · rw [Sys.setPc_self]; exact le_refl 0
      · rcases eq_or_ne j p with rfl | hne
        · rw [Sys.setPc_self] at hw; cases hw
        · rw [Sys.setPc_ne _ hne] at hw
          exact absurd hw (hother j w hne)
    exact h2

/-- Who is woken on its own channel, and does not hold its lock, is not asleep in `wait`. -/
theorem Proto.not_bound_wakeup (h : Proto nproc s) {w : ℕ} (hlock : (s.proc w).lock = none) :
    ¬(s.pc w).bound ((s.proc w).wakeup (some (.proc w))).state := by
  intro hb
  have hown := h.placed.own w
  cases hpc : s.pc w <;> rw [hpc] at hb hown <;> try exact hb
  · exact absurd (hlock.symm.trans (hown.lock rfl)) (by simp)
  · have hs : (s.proc w).state = .SLEEPING := by
      by_contra hs
      rw [Proc.wakeup, if_neg fun hc => hs hc.1] at hb
      exact hs hb
    rw [Proc.wakeup, if_pos ⟨hs, hown.chan rfl⟩] at hb
    cases hb

theorem Proto.wakeAt (h : Proto nproc s) {i : ℕ} {chan : Option Chan} {pc : Pc} (hp : p < nproc)
    (hrun : (s.proc p).state = .RUNNING) (hold : (s.pc p).holds = true) (hpc : pc.holds = true)
    (hx : (s.pc p).exiting = true) (hclear : ∀ i, pc.cleared i → (s.pc p).cleared i) (hlook : ∀ i, ¬pc.looked .RUNNING i)
    (howes : (s.pc p).owes → pc.owes ∨ i = initproc ∧ chan = some (.proc initproc))
    (hpass : ∀ w, (s.proc p).parent = some w → pc.passed w → (s.pc p).passed w ∨ w = i ∧ chan = some (.proc i))
    (hw : (s.wakeAt p i chan).map (fun t => t.setPc p pc) = some t) : Proto nproc t := by
  have hinit := h.ne_init hx
  have hturn : Turn p s.waitLock s.waitLock (s.pc p) pc := Or.inl ⟨rfl, hpc.trans hold.symm⟩
  rw [Sys.wakeAt] at hw
  split at hw
  · rename_i hip
    obtain rfl := Option.some.inj hw
    refine h.hold (w := s.waitLock) hp hrun hturn hpc (fun r hr => h.family.clear p r (hclear r hr))
      (fun r hr => absurd hr (hlook r)) (fun ho => ?_) (fun w hw hpw => ?_) fun he => absurd he hinit
    · exact (howes ho).imp_right fun he => absurd (hip.symm.trans he.1) hinit
    · refine (hpass w hw hpw).imp_right ?_
      rintro ⟨rfl, -⟩
      rw [hip]
      exact (Pc.holding hold).2.2.1 _
  · rename_i hip
    split at hw
    · rename_i hlock
      obtain rfl := Option.some.inj hw
      have h1 := h.wakeup (q := i) chan
      have hp1 : (s.setProc i ((s.proc i).wakeup chan)).proc p = s.proc p := Sys.setProc_ne s (Ne.symm hip) _
      have hwoken : chan = some (.proc i) →
          ¬(s.pc i).bound ((s.setProc i ((s.proc i).wakeup chan)).proc i).state := by
        rintro rfl
        rw [Sys.setProc_self]
        exact h.not_bound_wakeup hlock
      refine h1.hold (w := s.waitLock) hp (by rw [hp1]; exact hrun) hturn hpc
        (fun r hr => h1.family.clear p r (hclear r hr)) (fun r hr => absurd hr (hlook r)) (fun ho => ?_)
        (fun w hw hpw => ?_) fun he => absurd he hinit
      · refine (howes ho).imp_right ?_
        rintro ⟨rfl, hc⟩
        refine ⟨hinit, fun r hr => ?_⟩
        rcases Pc.holds_or_bound hr with hh | hb
        · exact hinit (h.placed.holder hold hh)
        · exact hwoken hc hb
      · rw [hp1] at hw
        refine (hpass w hw hpw).imp_right ?_
        rintro ⟨rfl, hc⟩
        exact hwoken hc
    · cases hw

theorem Proto.zombie (h : Proto nproc s) {status : BitVec 32} (hp : p < nproc)
    (hrun : (s.proc p).state = .RUNNING) (hpc : s.pc p = .zombie status) :
    Proto nproc (((s.setProc p ((s.proc p).exit status)).setWait none).setPc p .exited) := by
  have hinit : p ≠ initproc := h.ne_init (by rw [hpc]; rfl)
  have hold : (s.pc p).holds = true := by rw [hpc]; rfl
  have hchildless : ∀ i, (s.proc i).parent ≠ some p := fun i => h.family.clear p i (by rw [hpc]; trivial)
  have hfamily : Family nproc (s.setProc p ((s.proc p).exit status)) :=
    h.family.slot rfl (fun _ => Or.inl (by rw [hrun]; rfl)) fun _ => Or.inr ⟨hinit, hchildless⟩
  have hwaits : Waits (s.setProc p ((s.proc p).exit status)) := by
    refine h.waits.slot (fun _ w hw i hi => ?_) (by rintro ⟨⟩) fun w hw _ => hw
    -- its parent is neither asleep nor on the way there: it was woken, and cannot hold the lock
    exfalso
    rcases Pc.holds_or_bound hi with hh | hb
    · obtain rfl := h.placed.holder hold hh
      rw [hpc] at hi
      exact hi
    · exact h.waits.woken p w hw (by rw [hpc]; trivial) hb
  refine ⟨h.placed.self hp (by rw [hrun]; decide) ⟨rfl, by rintro ⟨⟩, by rintro ⟨⟩⟩
    (Or.inr (Or.inr ⟨hold, rfl, rfl⟩)) (by rintro q ⟨⟩),
    (hfamily.setWait none).setPc (by rintro i ⟨⟩) (by rintro q ⟨⟩) (fun he => absurd he hinit),
    (hwaits.setWait none).setPc (by rintro i ⟨⟩) (fun ho => ?_) (by rintro ⟨⟩) (by rintro w - ⟨⟩)⟩
  have ho' : (s.pc p).owes := ho
  rw [hpc] at ho'
  cases ho'

/-! ### `wait` -/

/-- `wait` has found no ZOMBIE and goes to sleep: it holds its own lock when it gives up `wait_lock`. -/
theorem Proto.doze (h : Proto nproc s) (hp : p < nproc) (hrun : (s.proc p).state = .RUNNING)
    (hpc : s.pc p = .waitSleep) :
    Proto nproc (((s.setProc p ((s.proc p).setLock (some p))).setWait none).setPc p .dozing) := by
  have hold : (s.pc p).holds = true := by rw [hpc]; rfl
  have hfamily : Family nproc (s.setProc p ((s.proc p).setLock (some p))) :=
    h.family.slot rfl Or.inl Or.inl
  have hwaits : Waits (s.setProc p ((s.proc p).setLock (some p))) :=
    h.waits.slot (fun hz => absurd (hrun.symm.trans hz) (by decide)) (fun hs _ => hs) fun w hw _ => hw
  refine ⟨h.placed.self hp (by rw [hrun]; decide) ⟨by exact hrun ▸ rfl, by rintro ⟨⟩, fun _ => rfl⟩
    (Or.inr (Or.inr ⟨hold, rfl, rfl⟩)) (by rintro q ⟨⟩),
    (hfamily.setWait none).setPc (by rintro i ⟨⟩) (by rintro q ⟨⟩) fun _ => rfl,
    (hwaits.setWait none).setPc (fun i _ _ _ => ?_) (fun ho => ?_) (fun _ => Or.inr fun e he => ?_)
      (by rintro w - ⟨⟩)⟩
  · change (s.pc p).looked _ i
    rw [hpc]; trivial
  · have ho' : (s.pc p).owes := ho
    rw [hpc] at ho'
    cases ho'
  · -- a child that is past waking its parent holds `wait_lock`, which this process does
    have he' : (s.pc e).passed p := he
    obtain rfl := h.placed.holder hold (Pc.holds_of_passed he')
    rw [hpc] at he'
    exact he'

theorem Proto.fallAsleep (h : Proto nproc s) (hp : p < nproc) (hrun : (s.proc p).state = .RUNNING)
    (hpc : s.pc p = .dozing) :
    Proto nproc ((s.setProc p
      ((((s.proc p).setChan (some (.proc p))).setState .SLEEPING).setLock none)).setPc p .asleep) := by
  have hfamily : Family nproc (s.setProc p
      ((((s.proc p).setChan (some (.proc p))).setState .SLEEPING).setLock none)) :=
    h.family.slot rfl (fun _ => Or.inl (by rw [hrun]; rfl)) fun _ => Or.inl rfl
  have hwaits : Waits (s.setProc p
      ((((s.proc p).setChan (some (.proc p))).setState .SLEEPING).setLock none)) :=
    h.waits.slot (by rintro ⟨⟩) (fun _ ha => absurd (hpc.symm.trans ha) (by simp)) fun w hw _ => hw
  refine ⟨h.placed.self (w := s.waitLock) hp (by rw [hrun]; decide) ⟨rfl, fun _ => rfl, by rintro ⟨⟩⟩
    (Or.inl ⟨rfl, by rw [hpc]; rfl⟩) (by rintro q ⟨⟩),
    hfamily.setPc (by rintro i ⟨⟩) (by rintro q ⟨⟩) fun _ => rfl,
    hwaits.setPc (fun i _ _ _ => ?_) (fun ho => ?_) (fun _ => Or.inl ?_) (by rintro w - ⟨⟩)⟩
  · change (s.pc p).looked _ i
    rw [hpc]; trivial
  · have ho' : (s.pc p).owes := ho
    rw [hpc] at ho'
    cases ho'
  · change (s.pc p).bound _
    rw [hpc]; trivial

/-! ### Every step -/

theorem proto_exit {ok : Bool} (h : Proto nproc s) (hp : p < nproc) (hrun : (s.proc p).state = .RUNNING)
    (hx : (s.pc p).exiting = true) (hstep : move nproc s p ok = some t) : Proto nproc t := by
  have hinit := h.ne_init hx
  rw [move] at hstep
  split at hstep
  case h_5 status hpc =>
    split at hstep
    · rename_i hw
      obtain rfl := Option.some.inj hstep
      exact h.hold hp hrun (Or.inr (Or.inl ⟨hw, rfl, rfl⟩)) rfl (fun i hi => absurd hi (Nat.not_lt_zero i))
        (by rintro i ⟨⟩) (by rw [hpc]; rintro ⟨⟩) (by rintro w - ⟨⟩) fun he => absurd he hinit
    · cases hstep
  case h_6 status j hpc =>
    have hold : (s.pc p).holds = true := by rw [hpc]; rfl
    have hbelow : ∀ i, i < j → (s.proc i).parent ≠ some p := fun i hi => h.family.clear p i (by rw [hpc]; exact hi)
    split at hstep
    · split at hstep
      · rename_i hj
        obtain rfl := Option.some.inj hstep
        exact h.reparent hp hrun hpc hj
      · rename_i hj
        obtain rfl := Option.some.inj hstep
        refine h.hold (w := s.waitLock) hp hrun (Or.inl ⟨rfl, hold.symm⟩) rfl (fun i hi => ?_) (by rintro i ⟨⟩)
          (by rw [hpc]; rintro ⟨⟩) (by rintro w - ⟨⟩) fun he => absurd he hinit
        rcases Nat.lt_succ_iff_lt_or_eq.mp hi with hi | rfl
        · exact hbelow i hi
        · exact hj
    · rename_i hj
      obtain rfl := Option.some.inj hstep
      refine h.hold (w := s.waitLock) hp hrun (Or.inl ⟨rfl, hold.symm⟩) rfl (fun i _ hi => ?_) (by rintro i ⟨⟩)
        (by rw [hpc]; rintro ⟨⟩) (fun w _ hw => absurd hw (Nat.not_lt_zero w)) fun he => absurd he hinit
      have hlt := (h.family.alive i p hi).1
      exact hbelow i (by omega) hi
  case h_7 status j i hpc =>
    have hold : (s.pc p).holds = true := by rw [hpc]; rfl
    split at hstep
    · refine h.wakeAt hp hrun hold rfl hx (fun r hr => by rw [hpc]; exact hr) (by rintro r ⟨⟩) (fun ho => ?_)
        (by rintro w - ⟨⟩) hstep
      rw [hpc] at ho
      exact Or.inr ⟨Nat.le_zero.mp ho, rfl⟩
    · rename_i hi
      obtain rfl := Option.some.inj hstep
      refine h.hold (w := s.waitLock) hp hrun (Or.inl ⟨rfl, hold.symm⟩) rfl (fun r hr => ?_) (by rintro r ⟨⟩)
        (fun ho => ?_) (by rintro w - ⟨⟩) fun he => absurd he hinit
      · exact h.family.clear p r (by rw [hpc]; exact Nat.lt_succ_iff.mp hr)
      · rw [hpc] at ho
        have : i ≤ 0 := ho
        omega
  case h_8 status i hpc =>
    have hold : (s.pc p).holds = true := by rw [hpc]; rfl
    have hchildless : ∀ r, (s.proc r).parent ≠ some p := fun r => h.family.clear p r (by rw [hpc]; trivial)
    split at hstep
    · refine h.wakeAt hp hrun hold rfl hx (fun r _ => by rw [hpc]; trivial) (by rintro r ⟨⟩) (by rw [hpc]; rintro ⟨⟩)
        (fun w hw hpw => ?_) hstep
      rw [hpc, hw]
      rcases Nat.lt_succ_iff_lt_or_eq.mp hpw with hlt | rfl
      · exact Or.inl hlt
      · exact Or.inr ⟨rfl, rfl⟩
    · rename_i hi
      obtain rfl := Option.some.inj hstep
      refine h.hold (w := s.waitLock) hp hrun (Or.inl ⟨rfl, hold.symm⟩) rfl (fun r _ => hchildless r)
        (by rintro r ⟨⟩) (by rw [hpc]; rintro ⟨⟩) (fun w hw _ => ?_) fun he => absurd he hinit
      -- the wakeup went through the whole table
      rcases Nat.lt_or_ge w i with hlt | hge
      · exact Or.inl (by rw [hpc]; exact hlt)
      · refine Or.inr fun hb => ?_
        have := h.placed.slots w (by rintro he; rw [he] at hb; exact hb)
        omega
  case h_9 status hpc =>
    split at hstep
    · obtain rfl := Option.some.inj hstep
      exact h.zombie hp hrun hpc
    · cases hstep
  case h_10 => cases hstep
  all_goals
    rename_i hpc
    rw [hpc] at hx
    cases hx

theorem proto_scan {ok : Bool} {j : ℕ} {havekids : Bool} (h : Proto nproc s) (hp : p < nproc)
    (hrun : (s.proc p).state = .RUNNING) (hpc : s.pc p = .scan j havekids) (hstep : move nproc s p ok = some t) :
    Proto nproc t := by
  have hold : (s.pc p).holds = true := by rw [hpc]; rfl
  have howes : ¬(s.pc p).owes := by rw [hpc]; exact id
  -- `wait` returns
  have hret : Proto nproc ((s.setWait none).setPc p .user) :=
    h.rest hp hrun rfl rfl (Or.inr ⟨rfl, hold⟩) howes fun _ => rfl
  -- `wait` looks on: what it has passed is no ZOMBIE child
  have hon : ∀ {pc : Pc}, pc.holds = true → (∀ i, ¬pc.cleared i) → (∀ w, ¬pc.passed w) → pc.exiting = false →
      (∀ i, pc.looked .RUNNING i → (s.proc i).parent = some p → (s.proc i).state = .ZOMBIE → i < j) →
      Proto nproc (s.setPc p pc) := fun h1 h2 h3 h4 h5 =>
    h.hold (w := s.waitLock) hp hrun (Or.inl ⟨rfl, h1.trans hold.symm⟩) h1 (fun i hi => absurd hi (h2 i))
      (fun i hi hpar hz => by rw [hpc]; exact h5 i hi hpar hz) (fun ho => absurd ho howes)
      (fun w _ hw => absurd hw (h3 w)) fun _ => h4
  have hnext : ∀ {b : Bool}, ((s.proc j).parent = some p → (s.proc j).state ≠ .ZOMBIE) →
      Proto nproc (s.setPc p (.scan (j + 1) b)) := by
    intro b hj
    refine hon rfl (fun _ => id) (fun _ => id) rfl fun i hi hpar hz => ?_
    rcases Nat.lt_succ_iff_lt_or_eq.mp hi with hlt | rfl
    · exact hlt
    · exact absurd hz (hj hpar)
  rw [move, hpc] at hstep
  dsimp only at hstep
  split at hstep
  · split at hstep
    · split at hstep
      · split at hstep
        · rename_i hz
          split at hstep
          · obtain rfl := Option.some.inj hstep
            have hne : j ≠ p := by rintro rfl; rw [hrun] at hz; cases hz
            have ht : Proto nproc (((s.setWait none).setPc p .user).setProc j (s.proc j).freeproc) := by
              refine hret.free (q := j) ⟨rfl, rfl⟩ (Or.inr hz) fun r hr => ?_
              exact absurd ((hret.placed.child r j hr).2.symm.trans hz) (by decide)
            exact ht
          · exact Option.some.inj hstep ▸ hret
        · rename_i hz
          exact Option.some.inj hstep ▸ hnext fun _ => hz
      · cases hstep
    · rename_i hpar
      exact Option.some.inj hstep ▸ hnext fun he => absurd he hpar
  · rename_i hj
    split at hstep
    · exact Option.some.inj hstep ▸ hret
    · obtain rfl := Option.some.inj hstep
      refine hon rfl (fun _ => id) (fun _ => id) rfl fun i _ hpar _ => ?_
      have := (h.family.alive i p hpar).1
      omega

theorem proto_move {ok : Bool} (h : Proto nproc s) (hp : p < nproc) (hrun : (s.proc p).state = .RUNNING)
    (hstep : move nproc s p ok = some t) : Proto nproc t := by
  -- back to user code from a point that holds nothing
  have hrest : ∀ {u : Sys} {pc : Pc}, Proto nproc u → (u.proc p).state = .RUNNING → pc.idle = true →
      pc.fits .RUNNING = true → pc.exiting = false → (u.pc p).holds = false → ¬(u.pc p).owes →
      Proto nproc (u.setPc p pc) := fun hu hur h1 h2 h3 h4 h5 =>
    hu.rest (w := _) hp hur h1 h2 (Or.inl ⟨rfl, h4⟩) h5 fun _ => h3
  cases hpc : s.pc p with
  | user | exited => rw [move, hpc] at hstep; cases hstep
  | forkCopy q => exact proto_forkCopy h hp hrun hpc hstep
  | forkParent q => exact proto_forkParent h hp hrun hpc hstep
  | forkRun q => exact proto_forkRun h hp hrun hpc hstep
  | exitLock status | reparent status j | wakeInit status j i | wakeParent status i | zombie status =>
    exact proto_exit h hp hrun (by rw [hpc]; rfl) hstep
  | waitLock =>
    rw [move, hpc] at hstep
    dsimp only at hstep
    split at hstep
    · rename_i hw
      obtain rfl := Option.some.inj hstep
      exact h.hold hp hrun (Or.inr (Or.inl ⟨hw, rfl, rfl⟩)) rfl (by rintro i ⟨⟩)
        (fun i hi => absurd hi (Nat.not_lt_zero i)) (by rw [hpc]; rintro ⟨⟩) (by rintro w - ⟨⟩) fun _ => rfl
    · cases hstep
  | scan j havekids => exact proto_scan h hp hrun hpc hstep
  | waitSleep =>
    rw [move, hpc] at hstep
    dsimp only at hstep
    split at hstep
    · exact Option.some.inj hstep ▸ h.doze hp hrun hpc
    · cases hstep
  | dozing =>
    rw [move, hpc] at hstep
    exact Option.some.inj hstep ▸ h.fallAsleep hp hrun hpc
  | asleep | napping =>
    rw [move, hpc] at hstep
    obtain rfl := Option.some.inj hstep
    exact h.idle (w := s.waitLock) hp hrun rfl rfl (Or.inl hrun) (by exact hrun ▸ rfl)
      (Or.inl ⟨rfl, by rw [hpc]; rfl⟩) (by rw [hpc]; exact id) fun _ => rfl
  | kill pid j =>
    rw [move, hpc] at hstep
    dsimp only at hstep
    have hhold : (s.pc p).holds = false := by rw [hpc]; rfl
    have howes : ¬(s.pc p).owes := by rw [hpc]; exact id
    split at hstep
    · split at hstep
      · split at hstep
        · obtain rfl := Option.some.inj hstep
          have hur : ((s.setProc j (s.proc j).kill).proc p).state = .RUNNING := by
            rcases eq_or_ne p j with rfl | hne
            · rw [Sys.setProc_self]
              exact (if_neg (by rw [hrun]; decide)).trans hrun
            · rw [Sys.setProc_ne _ hne]; exact hrun
          exact hrest h.kill hur rfl rfl rfl hhold howes
        · exact Option.some.inj hstep ▸ hrest h hrun rfl rfl rfl hhold howes
      · cases hstep
    · exact Option.some.inj hstep ▸ hrest h hrun rfl rfl rfl hhold howes

theorem proto_step {l : Label} (h : Proto nproc s) (hstep : step nproc s l = some t) : Proto nproc t := by
  -- a process in user code calls, or changes its own slot
  have hcall : ∀ {p : ℕ} {pr : Proc} {pc : Pc}, s.InUser nproc p → pr.parent = (s.proc p).parent →
      (pr.state = .RUNNING ∨ pr.state = .SLEEPING) → pc.idle = true → pc.fits pr.state = true →
      (p = initproc → pc.exiting = false) → Proto nproc ((s.setProc p pr).setPc p pc) := by
    intro p pr pc hu hpar hstate hidle hfits hinit
    refine h.idle (w := s.waitLock) hu.1 hu.2.1 hidle hpar (hstate.imp_right fun hs => ⟨hs, ?_⟩) hfits
      (Or.inl ⟨rfl, by rw [hu.2.2]; rfl⟩) (by rw [hu.2.2]; exact id) hinit
    rw [hu.2.2]; rintro ⟨⟩
  cases l <;> rw [step] at hstep <;> split at hstep <;> try cases hstep
  case fork.isTrue p q hc => exact proto_allocproc h hc.1 hc.2.1 hc.2.2.1
  case exit.isTrue p status hc =>
    exact hcall hc.1 rfl (Or.inl hc.1.2.1) rfl (by exact hc.1.2.1 ▸ rfl) fun he => absurd he hc.2
  case wait.isTrue p hc =>
    exact h.rest (w := s.waitLock) hc.1 hc.2.1 rfl rfl (Or.inl ⟨rfl, by rw [hc.2.2]; rfl⟩)
      (by rw [hc.2.2]; exact id) fun _ => rfl
  case kill.isTrue p pid hc =>
    exact h.rest (w := s.waitLock) hc.1 hc.2.1 rfl rfl (Or.inl ⟨rfl, by rw [hc.2.2]; rfl⟩)
      (by rw [hc.2.2]; exact id) fun _ => rfl
  case sleep.isTrue p c hc => exact hcall hc.1 rfl (Or.inr rfl) rfl rfl fun _ => rfl
  case resize.isTrue p sz hc => exact h.touch rfl rfl rfl (Or.inl rfl)
  case files.isTrue p ofile cwd hc => exact h.touch rfl rfl rfl (Or.inl rfl)
  case trace.isTrue p mask hc => exact h.touch rfl rfl rfl (Or.inl rfl)
  case wake.isTrue q hc =>
    refine h.touch rfl rfl rfl (Or.inr ⟨by rw [hc.2.1]; rfl, ?_, Or.inl rfl⟩)
    rw [hc.2.2.1]; rfl
  case sched.isTrue p hc =>
    have hfits := (h.placed.own p).state
    rw [hc.2.1] at hfits
    exact h.touch rfl rfl rfl (Or.inr ⟨by rw [hc.2.1]; rfl, Pc.fits_running hfits, Or.inr rfl⟩)
  case yield.isTrue p hc =>
    exact h.touch rfl rfl rfl (Or.inr ⟨by rw [hc.2.1]; rfl, Pc.fits_yield hc.2.2.1, Or.inl rfl⟩)
  case move.isTrue p ok hc => exact proto_move h hc.1 hc.2 hstep

theorem proto_init : Proto nproc Sys.init := by
  have hother : ∀ {q}, q ≠ initproc → Sys.init.proc q = .zero := fun h =>
    update_of_ne h _ fun _ => Proc.zero
  have hparent : ∀ q, (Sys.init.proc q).parent = none := by
    intro q
    rcases eq_or_ne q initproc with rfl | hne
    · rfl
    · rw [hother hne]; rfl
  refine ⟨⟨fun p => ⟨?_, by rintro ⟨⟩, by rintro ⟨⟩⟩, fun p hp => absurd rfl hp, by rintro p q ⟨⟩, by rintro p r q ⟨⟩, ?_⟩,
    ⟨fun q hq hu => ?_, fun q r hr => ?_, by rintro e i ⟨⟩, by rintro p q ⟨⟩, rfl, rfl⟩, ⟨by rintro w i ⟨⟩, ?_⟩⟩
  · rcases eq_or_ne p initproc with rfl | hne
    · rfl
    · rw [hother hne]; rfl
  · intro p
    exact ⟨by rintro ⟨⟩, by rintro ⟨⟩⟩
  · rw [hother hq] at hu; cases hu
  · rw [hparent] at hr; cases hr
  · rintro e w - ⟨⟩

end Minios.Procs
