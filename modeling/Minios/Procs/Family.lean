import Minios.Procs.Clean

/-! `kernel/proc.c`: parents, children and `wait_lock`.

    `exit` hands its children to init one slot at a time, wakes init for each, wakes its own parent
    and becomes a ZOMBIE, all under `wait_lock`; `wait` looks through the table under the same lock
    and gives it up only once it holds its own `p->lock`, inside `sleep`. What a process has done so
    far is in its program point:

        reparent j     slots below j are not its children        CLEARED
        wakeParent i   slots below i have been woken             PASSED
        scan j         slots below j are no ZOMBIE child         LOOKED AT
        wakeInit j i   init is still to be told of slot j        OWED, while i is at most init's slot

    One lemma for a change of a slot and one for a change of a program point carry each of the three
    invariants; the steps of the protocol are put together from them. -/

namespace Minios.Procs
open Schemes Function

variable {nproc p q : ℕ} {s t : Sys}

/-! ### Where a process can be -/

/-- Neither a free slot nor one that is being set up, nor a ZOMBIE. -/
def PState.alive : PState → Bool
  | .SLEEPING | .RUNNABLE | .RUNNING => true
  | _ => false

/-- The states of a process at a program point. -/
def Pc.states : Pc → List PState
  | .user => [.UNUSED, .USED, .RUNNABLE, .RUNNING]
  | .exited => [.ZOMBIE, .UNUSED]
  | .asleep | .napping => [.SLEEPING, .RUNNABLE, .RUNNING]
  | .forkParent _ | .forkRun _ | .exitLock _ | .waitLock | .kill _ _ => [.RUNNABLE, .RUNNING]
  | _ => [.RUNNING]

def Pc.fits (pc : Pc) (state : PState) : Bool := pc.states.contains state

/-- The program points that hold `wait_lock`. -/
def Pc.holds : Pc → Bool
  | .reparent _ _ | .wakeInit _ _ _ | .wakeParent _ _ | .zombie _ | .scan _ _ | .waitSleep => true
  | _ => false

/-- The process that a `fork` is setting up. -/
def Pc.child : Pc → Option ℕ
  | .forkCopy q | .forkParent q | .forkRun q => some q
  | _ => none

theorem Pc.eq_user : ∀ {pc : Pc}, pc.fits .USED = true → pc = .user
  | .user, _ => rfl

theorem Pc.eq_exited : ∀ {pc : Pc}, pc.fits .ZOMBIE = true → pc = .exited
  | .exited, _ => rfl

theorem Pc.fits_runnable : ∀ {pc : Pc}, pc.fits .SLEEPING = true → pc.fits .RUNNABLE = true
  | .asleep, _ | .napping, _ => rfl

theorem Pc.fits_running {pc : Pc} (h : pc.fits .RUNNABLE = true) : pc.fits .RUNNING = true := by
  cases pc <;> first | rfl | cases h

theorem Pc.fits_yield {pc : Pc} (h : pc.preemptible = true) : pc.fits .RUNNABLE = true := by
  cases pc <;> first | rfl | cases h

/-- Slot `p` by itself: its state fits its program point, asleep in `wait` it sleeps on itself, and on
    the way there it holds its own lock. -/
structure Local (p : ℕ) (pr : Proc) (pc : Pc) : Prop where
  state : pc.fits pr.state = true
  chan : pc = .asleep → pr.chan = some (.proc p)
  lock : pc = .dozing → pr.lock = some p

structure Placed (nproc : ℕ) (s : Sys) : Prop where
  own : ∀ p, Local p (s.proc p) (s.pc p)
  slots : ∀ p, s.pc p ≠ .user → p < nproc
  child : ∀ p q, (s.pc p).child = some q → q < nproc ∧ (s.proc q).state = .USED
  only : ∀ p r q, (s.pc p).child = some q → (s.pc r).child = some q → p = r
  wait : ∀ p, s.waitLock = some p ↔ (s.pc p).holds = true

theorem Placed.holder (h : Placed nproc s) {p r : ℕ} (hp : (s.pc p).holds = true) (hr : (s.pc r).holds = true) :
    p = r :=
  Option.some.inj (((h.wait p).mpr hp).symm.trans ((h.wait r).mpr hr))

theorem Placed.slot (h : Placed nproc s) {pr : Proc} (hown : Local q pr (s.pc q))
    (hused : ∀ p, (s.pc p).child = some q → pr.state = .USED) : Placed nproc (s.setProc q pr) := by
  refine ⟨fun p => ?_, h.slots, fun p r hr => ?_, h.only, h.wait⟩
  · rcases eq_or_ne p q with rfl | hne
    · rw [Sys.setProc_self]; exact hown
    · rw [Sys.setProc_ne _ hne]; exact h.own p
  · rcases eq_or_ne r q with rfl | hne
    · rw [Sys.setProc_self]; exact ⟨(h.child p r hr).1, hused p hr⟩
    · rw [Sys.setProc_ne _ hne]; exact h.child p r hr

/-- How `wait_lock` goes from `w` to `w'` when process `p` goes from `pc` to `pc'`: it keeps out, takes it
    or gives it up. -/
def Turn (p : ℕ) (w w' : Option ℕ) (pc pc' : Pc) : Prop :=
  w' = w ∧ pc'.holds = pc.holds ∨ w = none ∧ w' = some p ∧ pc'.holds = true ∨
    pc.holds = true ∧ w' = none ∧ pc'.holds = false

theorem Placed.self (h : Placed nproc s) {pr : Proc} {w : Option ℕ} {pc : Pc} (hp : p < nproc)
    (hne : (s.proc p).state ≠ .USED) (hown : Local p pr pc) (hturn : Turn p s.waitLock w (s.pc p) pc)
    (hchild : ∀ q, pc.child = some q →
      (q < nproc ∧ (s.proc q).state = .USED) ∧ ∀ r, (s.pc r).child = some q → r = p) :
    Placed nproc (((s.setProc p pr).setWait w).setPc p pc) := by
  have hproc : ∀ {r}, r ≠ p → (((s.setProc p pr).setWait w).setPc p pc).proc r = s.proc r := fun hr =>
    Sys.setProc_ne s hr pr
  have hpcs : ∀ {r}, r ≠ p → (((s.setProc p pr).setWait w).setPc p pc).pc r = s.pc r := fun hr =>
    Sys.setPc_ne s hr pc
  have hpc : (((s.setProc p pr).setWait w).setPc p pc).pc p = pc := Sys.setPc_self s p pc
  have hused : ∀ {r q}, (s.pc r).child = some q → q ≠ p := by rintro r q hr rfl; exact hne (h.child r q hr).2
  refine ⟨fun r => ?_, fun r hr => ?_, fun r q hr => ?_, fun r r' q hr hr' => ?_, fun r => ?_⟩
  · rcases eq_or_ne r p with rfl | hrp
    · rw [hpc]; exact (Sys.setProc_self s r pr).symm ▸ hown
    · rw [hpcs hrp, hproc hrp]; exact h.own r
  · rcases eq_or_ne r p with rfl | hrp
    · exact hp
    · rw [hpcs hrp] at hr; exact h.slots r hr
  · rcases eq_or_ne r p with rfl | hrp
    · rw [hpc] at hr
      have hq := (hchild q hr).1
      rw [hproc (by rintro rfl; exact hne hq.2)]
      exact hq
    · rw [hpcs hrp] at hr
      rw [hproc (hused hr)]
      exact h.child r q hr
  · -- the only new child is that of `p`
    rcases eq_or_ne r p with hrp | hrp <;> rcases eq_or_ne r' p with hrp' | hrp'
    · rw [hrp, hrp']
    · rw [hrp, hpc] at hr
      rw [hpcs hrp'] at hr'
      exact hrp.trans ((hchild q hr).2 r' hr').symm
    · rw [hpcs hrp] at hr
      rw [hrp', hpc] at hr'
      exact ((hchild q hr').2 r hr).trans hrp'.symm
    · rw [hpcs hrp] at hr
      rw [hpcs hrp'] at hr'
      exact h.only r r' q hr hr'
  · change w = some r ↔ _
    rcases eq_or_ne r p with rfl | hrp
    · rw [hpc]
      rcases hturn with ⟨rfl, he⟩ | ⟨-, rfl, he⟩ | ⟨-, rfl, he⟩
      · rw [he]; exact h.wait r
      · simp only [he]
      · simp only [he, reduceCtorEq, Bool.false_eq_true]
    · rw [hpcs hrp, ← h.wait r]
      rcases hturn with ⟨rfl, -⟩ | ⟨hn, rfl, -⟩ | ⟨he, rfl, -⟩
      · rfl
      · rw [hn]; simp only [Option.some.injEq, reduceCtorEq, iff_false]; exact fun h => hrp h.symm
      · rw [(h.wait p).mpr he]; simp only [Option.some.injEq, reduceCtorEq, false_iff]
        exact fun h => hrp h.symm

theorem Placed.go (h : Placed nproc s) {w : Option ℕ} {pc : Pc} (hp : p < nproc)
    (hne : (s.proc p).state ≠ .USED) (hown : Local p (s.proc p) pc) (hturn : Turn p s.waitLock w (s.pc p) pc)
    (hchild : ∀ q, pc.child = some q →
      (q < nproc ∧ (s.proc q).state = .USED) ∧ ∀ r, (s.pc r).child = some q → r = p) :
    Placed nproc ((s.setWait w).setPc p pc) := by
  have h' : Placed nproc (((s.setProc p (s.proc p)).setWait w).setPc p pc) := h.self hp hne hown hturn hchild
  rwa [Sys.setProc_same] at h'

/-! ### Parents -/

def PState.inUse : PState → Bool
  | .UNUSED | .USED => false
  | _ => true

/-- The slots that `reparent` has gone through. -/
def Pc.cleared : Pc → ℕ → Prop
  | .reparent _ j, i => i < j
  | .wakeInit _ j _, i => i ≤ j
  | .wakeParent _ _, _ | .zombie _, _ => True
  | _, _ => False

/-- Every process but init has a parent, and a parent is alive. -/
structure Family (nproc : ℕ) (s : Sys) : Prop where
  up : ∀ q, q ≠ initproc → (s.proc q).state.inUse = true → (s.proc q).parent ≠ none
  alive : ∀ q r, (s.proc q).parent = some r → q < nproc ∧ (s.proc r).state.alive = true
  clear : ∀ e i, (s.pc e).cleared i → (s.proc i).parent ≠ some e
  forked : ∀ p q, s.pc p = .forkRun q → (s.proc q).parent ≠ none
  init : (s.proc initproc).state.alive = true ∧ (s.pc initproc).exiting = false

/-- A slot changes and keeps its parent. It dies only without children. -/
theorem Family.slot (h : Family nproc s) {pr : Proc} (hpar : pr.parent = (s.proc q).parent)
    (huse : pr.state.inUse = true → (s.proc q).state.inUse = true ∨ pr.parent ≠ none)
    (halive : (s.proc q).state.alive = true →
      pr.state.alive = true ∨ q ≠ initproc ∧ ∀ i, (s.proc i).parent ≠ some q) :
    Family nproc (s.setProc q pr) := by
  have hsame : ∀ i, ((s.setProc q pr).proc i).parent = (s.proc i).parent := by
    intro i
    rcases eq_or_ne i q with rfl | hne
    · rw [Sys.setProc_self]; exact hpar
    · rw [Sys.setProc_ne _ hne]
  refine ⟨fun r hr hu => ?_, fun i r hi => ?_, fun e i hc => ?_, fun r i hr => ?_, ?_, h.init.2⟩
  · rw [hsame]
    rcases eq_or_ne r q with rfl | hne
    · rw [Sys.setProc_self] at hu
      exact (huse hu).elim (h.up r hr) fun hn => hpar ▸ hn
    · rw [Sys.setProc_ne _ hne] at hu
      exact h.up r hr hu
  · rw [hsame] at hi
    obtain ⟨hlt, hr⟩ := h.alive i r hi
    refine ⟨hlt, ?_⟩
    rcases eq_or_ne r q with rfl | hne
    · rw [Sys.setProc_self]
      exact (halive hr).resolve_right fun hn => hn.2 i hi
    · rw [Sys.setProc_ne _ hne]; exact hr
  · rw [hsame]; exact h.clear e i hc
  · rw [hsame]; exact h.forked r i hr
  · rcases eq_or_ne initproc q with rfl | hne
    · rw [Sys.setProc_self]
      exact (halive h.init.1).resolve_right fun hn => hn.1 rfl
    · rw [Sys.setProc_ne _ hne]; exact h.init.1

theorem Family.free (h : Family nproc s) {pr : Proc} (hdead : (s.proc q).state.alive = false)
    (hfork : ∀ p, s.pc p ≠ .forkRun q) (hpar : pr.parent = none) (huse : pr.state.inUse = false) :
    Family nproc (s.setProc q pr) := by
  have hne : ∀ {r}, (s.proc r).state.alive = true → r ≠ q := by
    rintro r hr rfl
    exact absurd (hdead.symm.trans hr) (by decide)
  have hsame : ∀ {i r}, ((s.setProc q pr).proc i).parent = some r → (s.proc i).parent = some r := by
    intro i r hi
    have hiq : i ≠ q := by rintro rfl; rw [Sys.setProc_self, hpar] at hi; cases hi
    rwa [Sys.setProc_ne _ hiq] at hi
  refine ⟨fun r hr hu => ?_, fun i r hi => ?_, fun e i hc hi => h.clear e i hc (hsame hi), fun r i hr => ?_,
    ?_, h.init.2⟩
  · have hrq : r ≠ q := by rintro rfl; rw [Sys.setProc_self, huse] at hu; cases hu
    rw [Sys.setProc_ne _ hrq] at hu ⊢
    exact h.up r hr hu
  · obtain ⟨hlt, hr⟩ := h.alive i r (hsame hi)
    rw [Sys.setProc_ne _ (hne hr)]
    exact ⟨hlt, hr⟩
  · rw [Sys.setProc_ne _ (by rintro rfl; exact hfork r hr)]
    exact h.forked r i hr
  · rw [Sys.setProc_ne _ (hne h.init.1)]
    exact h.init.1

theorem Family.adopt (h : Family nproc s) {r : ℕ} (hq : q < nproc) (hr : (s.proc r).state.alive = true)
    (hclear : ¬(s.pc r).cleared q) : Family nproc (s.setProc q ((s.proc q).setParent (some r))) := by
  have hstate : ∀ i, ((s.setProc q ((s.proc q).setParent (some r))).proc i).state = (s.proc i).state := by
    intro i
    rcases eq_or_ne i q with rfl | hne
    · rw [Sys.setProc_self]; rfl
    · rw [Sys.setProc_ne _ hne]
  refine ⟨fun i hi hu => ?_, fun i r' hi => ?_, fun e i hc => ?_, fun p i hi => ?_, ?_, h.init.2⟩
  · rcases eq_or_ne i q with rfl | hne
    · rw [Sys.setProc_self]; rintro ⟨⟩
    · rw [Sys.setProc_ne _ hne] at hu ⊢
      exact h.up i hi hu
  · rw [hstate]
    rcases eq_or_ne i q with rfl | hne
    · rw [Sys.setProc_self] at hi
      obtain rfl := Option.some.inj hi
      exact ⟨hq, hr⟩
    · rw [Sys.setProc_ne _ hne] at hi
      exact h.alive i r' hi
  · rcases eq_or_ne i q with rfl | hne
    · rw [Sys.setProc_self]
      rintro he
      obtain rfl := Option.some.inj he
      exact hclear hc
    · rw [Sys.setProc_ne _ hne]
      exact h.clear e i hc
  · rcases eq_or_ne i q with rfl | hne
    · rw [Sys.setProc_self]; rintro ⟨⟩
    · rw [Sys.setProc_ne _ hne]; exact h.forked p i hi
  · rw [hstate]; exact h.init.1

theorem Family.setPc (h : Family nproc s) {pc : Pc} (hclear : ∀ i, pc.cleared i → (s.proc i).parent ≠ some p)
    (hfork : ∀ q, pc = .forkRun q → (s.proc q).parent ≠ none) (hinit : p = initproc → pc.exiting = false) :
    Family nproc (s.setPc p pc) := by
  refine ⟨h.up, h.alive, fun e i hc => ?_, fun r i hr => ?_, h.init.1, ?_⟩
  · rcases eq_or_ne e p with rfl | hne
    · rw [Sys.setPc_self] at hc; exact hclear i hc
    · rw [Sys.setPc_ne _ hne] at hc; exact h.clear e i hc
  · rcases eq_or_ne r p with rfl | hne
    · rw [Sys.setPc_self] at hr; exact hfork i hr
    · rw [Sys.setPc_ne _ hne] at hr; exact h.forked r i hr
  · rcases eq_or_ne initproc p with rfl | hne
    · rw [Sys.setPc_self]; exact hinit rfl
    · rw [Sys.setPc_ne _ hne]; exact h.init.2

theorem Family.setWait (h : Family nproc s) (w : Option ℕ) : Family nproc (s.setWait w) :=
  ⟨h.up, h.alive, h.clear, h.forked, h.init⟩

/-! ### Sleepers in `wait` -/

/-- The slots that a process in `wait` has looked at, and will not look at again before it is woken. -/
def Pc.looked : Pc → PState → ℕ → Prop
  | .scan j _, _, i => i < j
  | .waitSleep, _, _ | .dozing, _, _ => True
  | .asleep, state, _ => state = .SLEEPING
  | _, _, _ => False

/-- Asleep in `wait`, or about to be and without `wait_lock`. -/
def Pc.bound : Pc → PState → Prop
  | .dozing, _ => True
  | .asleep, state => state = .SLEEPING
  | _, _ => False

/-- `reparent` has still to wake init. -/
def Pc.owes : Pc → Prop
  | .wakeInit _ _ i => i ≤ initproc
  | _ => False

/-- `exit` has come past slot `w` when it wakes its parent. -/
def Pc.passed : Pc → ℕ → Prop
  | .wakeParent _ i, w => w < i
  | .zombie _, _ => True
  | _, _ => False

/-- A ZOMBIE child that its parent has missed is one that init will be woken for, and who has woken its
    parent has woken it. -/
structure Waits (s : Sys) : Prop where
  seen : ∀ w i, (s.pc w).looked (s.proc w).state i → (s.proc i).parent = some w → (s.proc i).state = .ZOMBIE →
    w = initproc ∧ ∃ e, (s.pc e).owes
  woken : ∀ e w, (s.proc e).parent = some w → (s.pc e).passed w → ¬(s.pc w).bound (s.proc w).state

theorem Pc.looked_of_bound : ∀ {pc : Pc} {state : PState}, pc.bound state → ∀ i, pc.looked state i
  | .dozing, _, _, _ => trivial
  | .asleep, _, h, _ => h

theorem Pc.holds_or_bound : ∀ {pc : Pc} {state : PState} {i : ℕ}, pc.looked state i →
    pc.holds = true ∨ pc.bound state
  | .scan _ _, _, _, _ | .waitSleep, _, _, _ => Or.inl rfl
  | .dozing, _, _, _ => Or.inr trivial
  | .asleep, _, _, h => Or.inr h

theorem Pc.not_bound_of_passed : ∀ {pc : Pc} {state : PState} {w : ℕ}, pc.passed w → ¬pc.bound state
  | .wakeParent _ _, _, _, _ | .zombie _, _, _, _ => id

theorem Pc.holds_of_passed : ∀ {pc : Pc} {w : ℕ}, pc.passed w → pc.holds = true
  | .wakeParent _ _, _, _ | .zombie _, _, _ => rfl

/-- A process that was not asleep in `wait` is not put to sleep there by a change of its state. -/
theorem Pc.looked_of_state {pc : Pc} {state state' : PState} {i : ℕ}
    (hs : state' = .SLEEPING → pc = .asleep → state = .SLEEPING) (h : pc.looked state' i) : pc.looked state i := by
  cases pc <;> first | exact h | exact hs h rfl

theorem Pc.bound_of_state {pc : Pc} {state state' : PState}
    (hs : state' = .SLEEPING → pc = .asleep → state = .SLEEPING) (h : pc.bound state') : pc.bound state := by
  cases pc <;> first | exact h | exact hs h rfl

/-- A slot changes; it is a ZOMBIE that its parent has missed only if it was, or init is told. -/
theorem Waits.slot (h : Waits s) {pr : Proc}
    (hz : pr.state = .ZOMBIE → ∀ w, pr.parent = some w → ∀ i, (s.pc w).looked (s.proc w).state i →
      (s.proc q).state = .ZOMBIE ∧ (s.proc q).parent = some w ∨ w = initproc ∧ ∃ e, (s.pc e).owes)
    (hs : pr.state = .SLEEPING → s.pc q = .asleep → (s.proc q).state = .SLEEPING)
    (hp : ∀ w, pr.parent = some w → (s.pc q).passed w → (s.proc q).parent = some w) :
    Waits (s.setProc q pr) := by
  have hlook : ∀ {w i}, (s.pc w).looked ((s.setProc q pr).proc w).state i → (s.pc w).looked (s.proc w).state i := by
    intro w i hw
    rcases eq_or_ne w q with rfl | hne
    · rw [Sys.setProc_self] at hw; exact Pc.looked_of_state hs hw
    · rwa [Sys.setProc_ne _ hne] at hw
  have hbound : ∀ {w}, (s.pc w).bound ((s.setProc q pr).proc w).state → (s.pc w).bound (s.proc w).state := by
    intro w hw
    rcases eq_or_ne w q with rfl | hne
    · rw [Sys.setProc_self] at hw; exact Pc.bound_of_state hs hw
    · rwa [Sys.setProc_ne _ hne] at hw
  refine ⟨fun w i hw hi hz' => ?_, fun e w he hpass hb => ?_⟩
  · replace hw := hlook hw
    rcases eq_or_ne i q with rfl | hne
    · rw [Sys.setProc_self] at hi hz'
      exact (hz hz' w hi i hw).elim (fun hold => h.seen w i hw hold.2 hold.1) id
    · rw [Sys.setProc_ne _ hne] at hi hz'
      exact h.seen w i hw hi hz'
  · replace hb := hbound hb
    rcases eq_or_ne e q with rfl | hne
    · rw [Sys.setProc_self] at he
      exact h.woken e w (hp w he hpass) hpass hb
    · rw [Sys.setProc_ne _ hne] at he
      exact h.woken e w he hpass hb

theorem Waits.setPc (h : Waits s) {pc : Pc}
    (hlook : ∀ i, pc.looked (s.proc p).state i → (s.proc i).parent = some p → (s.proc i).state = .ZOMBIE →
      (s.pc p).looked (s.proc p).state i)
    (howes : (s.pc p).owes →
      pc.owes ∨ p ≠ initproc ∧ ∀ i, ¬(s.pc initproc).looked (s.proc initproc).state i)
    (hbound : pc.bound (s.proc p).state → (s.pc p).bound (s.proc p).state ∨ ∀ e, ¬(s.pc e).passed p)
    (hpass : ∀ w, (s.proc p).parent = some w → pc.passed w →
      (s.pc p).passed w ∨ ¬(s.pc w).bound (s.proc w).state) : Waits (s.setPc p pc) := by
  -- a wakeup that was owed to init still is
  have hkeep : ∀ {e i}, (s.pc e).owes → ((s.setPc p pc).pc initproc).looked (s.proc initproc).state i →
      ∃ e, ((s.setPc p pc).pc e).owes := by
    intro e i he hi
    rcases eq_or_ne e p with rfl | hne
    · rcases howes he with ho | ⟨hp, ho⟩
      · exact ⟨e, by rw [Sys.setPc_self]; exact ho⟩
      · rw [Sys.setPc_ne _ (Ne.symm hp)] at hi
        exact absurd hi (ho i)
    · exact ⟨e, by rw [Sys.setPc_ne _ hne]; exact he⟩
  refine ⟨fun w i hw hi hz => ?_, fun e w he hps hb => ?_⟩
  · have hold : (s.pc w).looked (s.proc w).state i := by
      rcases eq_or_ne w p with rfl | hne
      · rw [Sys.setPc_self] at hw; exact hlook i hw hi hz
      · rwa [Sys.setPc_ne _ hne] at hw
    obtain ⟨rfl, e, he⟩ := h.seen w i hold hi hz
    exact ⟨rfl, hkeep he hw⟩
  · rcases eq_or_ne e p with rfl | hne
    · rw [Sys.setPc_self] at hps
      rcases eq_or_ne w e with rfl | hwe
      · rw [Sys.setPc_self] at hb
        exact Pc.not_bound_of_passed hps hb
      · rw [Sys.setPc_ne _ hwe] at hb
        exact (hpass w he hps).elim (fun ho => h.woken e w he ho hb) fun ho => ho hb
    · rw [Sys.setPc_ne _ hne] at hps
      rcases eq_or_ne w p with rfl | hwp
      · rw [Sys.setPc_self] at hb
        exact (hbound hb).elim (h.woken e w he hps) fun ho => ho e hps
      · rw [Sys.setPc_ne _ hwp] at hb
        exact h.woken e w he hps hb

theorem Waits.setWait (h : Waits s) (w : Option ℕ) : Waits (s.setWait w) := ⟨h.seen, h.woken⟩

end Minios.Procs
