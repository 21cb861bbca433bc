import Minios.Procs.Wait

/-! `kernel/syscall.c`, `sys_trace`: trace masks follow ancestry.

    A mask is written by `sys_trace`, copied by `fork` and cleared by `freeproc`, in a slot that one process
    after another uses. The history of a run keeps two kinds of events only,

        traced p mask      process `p` has called `trace(mask)`
        forked p q         `fork` of `p` has made the process in slot `q`

    and `masks` says what they give each process: what it asked for last, or what its parent
    had when it was made. -/

namespace Minios.Procs
open Schemes Function

variable {nproc p q : ℕ} {s t : Sys}

/-! ### The end of a system call -/

/-- `syscall_names[]`; there is no entry 0. `syscalls[]` has the same ones. -/
def syscallNames : List (Option String) :=
  [none, some "fork", some "exit", some "wait", some "pipe", some "read", some "kill", some "exec", some "fstat",
   some "chdir", some "dup", some "getpid", some "sbrk", some "sleep", some "uptime", some "open", some "write",
   some "mknod", some "unlink", some "link", some "mkdir", some "close", some "trace"]

/-- What `syscall` prints. -/
inductive Line where
  | syscall (pid : BitVec 32) (name : Option String) (a0 : BitVec 64)
  | unknown (pid num : BitVec 32)

/-- The end of `syscall`, when the handler of call `num` has returned `a0` (if there is one). -/
def Proc.syscall (pr : Proc) (num : BitVec 32) (a0 : BitVec 64) : Option Line :=
  if 0 < num.toInt ∧ num.toInt < syscallNames.length then
    if pr.traceMask.sshiftRight num.toNat &&& 1 ≠ 0 then
      some (.syscall pr.pid (syscallNames.getD num.toNat none) a0)
    else none
  else some (.unknown pr.pid num)

/-- The steps of the process table, and `syscall` coming to its end in process `p`. -/
inductive Call where
  | step (l : Label)
  | ret (p : ℕ) (num : BitVec 32) (a0 : BitVec 64)

def callStep (nproc : ℕ) (s : Sys) : Call → Option Sys
  | .step l => step nproc s l
  | .ret p _ _ => if s.InUser nproc p then some s else none

/-! ### History -/

inductive Ev where
  | traced (p : ℕ) (mask : BitVec 32)
  | forked (p q : ℕ)
  | printed (p : ℕ) (line : Line)

/-- What a step adds to the history. -/
def happens (s : Sys) : Call → List Ev
  | .step (.trace p mask) => [.traced p mask]
  | .step (.move p true) => match s.pc p with
    | .forkCopy q => [.forked p q]
    | _ => []
  | .ret p num a0 => match (s.proc p).syscall num a0 with
    | some line => [.printed p line]
    | none => []
  | .step _ => []

/-- The history of a run. -/
def history (nproc : ℕ) (s : Sys) (cs : List Call) : List Ev := trace (callStep nproc) (fun s c _ => happens s c) s cs

def inherit (m : ℕ → BitVec 32) : Ev → ℕ → BitVec 32
  | .traced p mask => update m p mask
  | .forked p q => update m q (m p)
  | .printed _ _ => m

/-- What a history gives each process; nobody has a mask at first. -/
def masks (h : List Ev) : ℕ → BitVec 32 := h.foldl inherit fun _ => 0

theorem masks_append (h h' : List Ev) : masks (h ++ h') = h'.foldl inherit (masks h) := List.foldl_append ..

/-- The event gives process `p` no mask and makes no process in its slot. -/
def Ev.Spares (p : ℕ) : Ev → Prop
  | .traced q _ | .forked _ q => q ≠ p
  | .printed _ _ => True

theorem inherit_spares {e : Ev} (he : e.Spares p) (m : ℕ → BitVec 32) : inherit m e p = m p := by
  cases e with
  | traced q mask => exact update_of_ne (Ne.symm he) ..
  | forked r q => exact update_of_ne (Ne.symm he) ..
  | printed q line => rfl

theorem foldl_inherit_spares : ∀ {h : List Ev} (m : ℕ → BitVec 32), (∀ e ∈ h, e.Spares p) → h.foldl inherit m p = m p
  | [], _, _ => rfl
  | e :: h, m, hs => by
      rw [List.foldl_cons, foldl_inherit_spares _ fun e' he' => hs e' (List.mem_cons_of_mem _ he')]
      exact inherit_spares (hs e List.mem_cons_self) m

/-! ### What a step does to the masks -/

/-- A process that is there: its slot is in use, and `fork` has filled it. -/
def Live (s : Sys) (q : ℕ) : Prop := (s.proc q).state ≠ .UNUSED ∧ ∀ p, s.pc p ≠ .forkCopy q

/-- No process is new, and each has the mask it had. -/
def Keeps (s t : Sys) : Prop := ∀ r, Live t r → Live s r ∧ (t.proc r).traceMask = (s.proc r).traceMask

theorem Keeps.refl (s : Sys) : Keeps s s := fun _ hr => ⟨hr, rfl⟩

theorem Keeps.trans {u : Sys} (h : Keeps s t) (h' : Keeps t u) : Keeps s u := fun r hr =>
  ⟨(h r (h' r hr).1).1, (h' r hr).2.trans (h r (h' r hr).1).2⟩

theorem Keeps.setWait (h : Keeps s t) (w : Option ℕ) : Keeps s (t.setWait w) := h

/-- A process moves on that was not filling a new one. -/
theorem Keeps.setPc {pc : Pc} (h : Keeps s t) (hp : ∀ q, t.pc p ≠ .forkCopy q) : Keeps s (t.setPc p pc) := by
  refine h.trans fun r hr => ⟨⟨hr.1, fun o => ?_⟩, rfl⟩
  rcases eq_or_ne o p with rfl | hne
  · exact hp r
  · have := hr.2 o
    rwa [Sys.setPc_ne _ hne] at this

theorem keeps_setProc {pr : Proc}
    (h : pr.state = .UNUSED ∨ (s.proc q).state ≠ .UNUSED ∧ pr.traceMask = (s.proc q).traceMask) : Keeps s (s.setProc q pr) := by
  intro r hr
  rcases eq_or_ne r q with rfl | hne
  · have hst := hr.1
    rw [Sys.setProc_self] at hst ⊢
    rcases h with h | h
    · exact absurd h hst
    · exact ⟨⟨h.1, hr.2⟩, h.2⟩
  · have hst := hr.1
    rw [Sys.setProc_ne _ hne] at hst ⊢
    exact ⟨⟨hst, hr.2⟩, rfl⟩

theorem keeps_same {pr : Proc} (hst : pr.state = (s.proc q).state) (hm : pr.traceMask = (s.proc q).traceMask) :
    Keeps s (s.setProc q pr) := by
  rcases eq_or_ne (s.proc q).state .UNUSED with h | h
  · exact keeps_setProc (.inl (hst.trans h))
  · exact keeps_setProc (.inr ⟨h, hm⟩)

theorem keeps_wakeAt {i : ℕ} {chan : Option Chan} {pc : Pc} (hp : ∀ q, s.pc p ≠ .forkCopy q)
    (hw : (s.wakeAt p i chan).map (fun t => t.setPc p pc) = some t) : Keeps s t := by
  rw [Sys.wakeAt] at hw
  split at hw
  · obtain rfl := Option.some.inj hw
    exact (Keeps.refl s).setPc hp
  · split at hw
    · obtain rfl := Option.some.inj hw
      refine Keeps.setPc ?_ hp
      rw [Proc.wakeup]
      split
      · rename_i hs
        exact keeps_setProc (.inr ⟨by rw [hs.1]; decide, rfl⟩)
      · exact keeps_same rfl rfl
    · cases hw

theorem keeps_kill (s : Sys) (j : ℕ) : Keeps s (s.setProc j (s.proc j).kill) := by
  rcases eq_or_ne (s.proc j).state .SLEEPING with hs | hs
  · exact keeps_setProc (.inr ⟨by rw [hs]; decide, rfl⟩)
  · exact keeps_same (if_neg hs) rfl

theorem keeps_move {ok : Bool} (h : Proto nproc s) (hrun : (s.proc p).state = .RUNNING) (hp : ∀ q, s.pc p ≠ .forkCopy q)
    (hstep : move nproc s p ok = some t) : Keeps s t := by
  have hused : (s.proc p).state ≠ .UNUSED := by rw [hrun]; decide
  cases hpc : s.pc p with
  | scan j havekids =>
    rcases scan_cases hpc hstep with ⟨-, -, -, rfl⟩ | ⟨-, rfl⟩ | ⟨-, pc, rfl⟩
    · exact ((keeps_setProc (.inl rfl)).setWait none).setPc hp
    · exact ((Keeps.refl s).setWait none).setPc hp
    · exact (Keeps.refl s).setPc hp
  | user | exited => rw [move, hpc] at hstep; cases hstep
  | forkCopy q => exact absurd hpc (hp q)
  | forkParent q =>
    rw [move, hpc] at hstep
    dsimp only at hstep
    split at hstep
    · obtain rfl := Option.some.inj hstep
      refine Keeps.setPc ?_ hp
      exact keeps_same rfl rfl
    · cases hstep
  | forkRun q =>
    have hq := (h.placed.child p q (by rw [hpc]; rfl)).2
    rw [move, hpc] at hstep
    dsimp only at hstep
    split at hstep
    · obtain rfl := Option.some.inj hstep
      refine Keeps.setPc ?_ hp
      exact keeps_setProc (.inr ⟨by rw [hq]; decide, rfl⟩)
    · cases hstep
  | exitLock status | waitLock =>
    rw [move, hpc] at hstep
    dsimp only at hstep
    split at hstep
    · obtain rfl := Option.some.inj hstep
      exact ((Keeps.refl s).setWait _).setPc hp
    · cases hstep
  | reparent status j =>
    rw [move, hpc] at hstep
    dsimp only at hstep
    split at hstep
    · split at hstep
      · obtain rfl := Option.some.inj hstep
        refine Keeps.setPc ?_ hp
        exact keeps_same rfl rfl
      · obtain rfl := Option.some.inj hstep
        exact (Keeps.refl s).setPc hp
    · obtain rfl := Option.some.inj hstep
      exact (Keeps.refl s).setPc hp
  | wakeInit status j i | wakeParent status i =>
    rw [move, hpc] at hstep
    dsimp only at hstep
    split at hstep
    · exact keeps_wakeAt hp hstep
    · obtain rfl := Option.some.inj hstep
      exact (Keeps.refl s).setPc hp
  | zombie status | waitSleep =>
    rw [move, hpc] at hstep
    dsimp only at hstep
    split at hstep
    · obtain rfl := Option.some.inj hstep
      refine Keeps.setPc (Keeps.setWait ?_ none) hp
      exact keeps_setProc (.inr ⟨hused, rfl⟩)
    · cases hstep
  | dozing | asleep | napping =>
    rw [move, hpc] at hstep
    obtain rfl := Option.some.inj hstep
    refine Keeps.setPc ?_ hp
    exact keeps_setProc (.inr ⟨hused, rfl⟩)
  | kill pid j =>
    rw [move, hpc] at hstep
    dsimp only at hstep
    split at hstep
    · split at hstep
      · split at hstep
        · obtain rfl := Option.some.inj hstep
          exact (keeps_kill s j).setPc hp
        · obtain rfl := Option.some.inj hstep
          exact (Keeps.refl s).setPc hp
      · cases hstep
    · obtain rfl := Option.some.inj hstep
      exact (Keeps.refl s).setPc hp

/-- The new slot is not filled yet; the process that had it is not in `fork`. -/
theorem keeps_allocproc (h : Proto nproc s) (hp : s.pc p = .user) (hq : (s.proc q).state = .UNUSED) :
    Keeps s (s.allocproc p q) := by
  intro r hr
  have hrq : r ≠ q := by
    rintro rfl
    exact hr.2 p (update_self ..)
  have hproc : (s.allocproc p q).proc r = s.proc r := update_of_ne hrq ..
  have hst := hr.1
  rw [hproc] at hst ⊢
  refine ⟨⟨hst, fun o ho => ?_⟩, rfl⟩
  rcases eq_or_ne o p with rfl | hop
  · rw [hp] at ho; cases ho
  · rcases eq_or_ne o q with rfl | hoq
    · have hfits := (h.placed.own o).state
      rw [ho, hq] at hfits
      cases hfits
    · refine hr.2 o ?_
      show update (update s.pc q .user) p (.forkCopy q) o = _
      rw [update_of_ne hop, update_of_ne hoq, ho]

theorem keeps_drop (hpc : s.pc p = .forkCopy q) :
    Keeps s ((s.setProc q ((s.proc q).freeproc.setLock none)).setPc p .user) := by
  intro r hr
  have hst := hr.1
  change (update s.proc q _ r).state ≠ .UNUSED at hst
  have hne : r ≠ q := by
    rintro rfl
    rw [update_self] at hst
    exact hst rfl
  rw [update_of_ne hne] at hst
  refine ⟨⟨hst, fun o ho => ?_⟩, congrArg Proc.traceMask (update_of_ne hne ..)⟩
  rcases eq_or_ne o p with rfl | hop
  · rw [hpc] at ho; cases ho; exact hne rfl
  · refine hr.2 o ?_
    rw [Sys.setPc_ne _ hop]; exact ho

/-! ### Masks follow the history -/

/-- Each process has the mask that a history gives it. -/
def Traced (h : List Ev) (s : Sys) : Prop := ∀ q, Live s q → (s.proc q).traceMask = masks h q

theorem Traced.keeps {h : List Ev} (ht : Traced h s) (hk : Keeps s t) : Traced h t := fun q hq =>
  (hk q hq).2.trans (ht q (hk q hq).1)

theorem Proto.live (h : Proto nproc s) (hp : (s.proc p).state = .RUNNING) : Live s p := by
  refine ⟨by rw [hp]; decide, fun r hr => ?_⟩
  have hused := (h.placed.child r p (by rw [hr]; rfl)).2
  rw [hp] at hused; cases hused

theorem traced_setMask {h : List Ev} (ht : Traced h s) (mask : BitVec 32) :
    Traced (h ++ [.traced p mask]) (s.setProc p ((s.proc p).setMask mask)) := by
  intro q hq
  rw [masks_append]
  show _ = update (masks h) p mask q
  rcases eq_or_ne q p with rfl | hne
  · rw [Sys.setProc_self, update_self]; rfl
  · have hst := hq.1
    rw [Sys.setProc_ne _ hne] at hst ⊢
    rw [update_of_ne hne]
    exact ht q ⟨hst, hq.2⟩

theorem traced_copy {h : List Ev} (ht : Traced h s) (hproto : Proto nproc s) (hp : (s.proc p).state = .RUNNING)
    (hpc : s.pc p = .forkCopy q) :
    Traced (h ++ [.forked p q]) ((s.setProc q (((s.proc q).copy (s.proc p)).setLock none)).setPc p (.forkParent q)) := by
  intro r hr
  rw [masks_append]
  show (update s.proc q _ r).traceMask = update (masks h) q (masks h p) r
  rcases eq_or_ne r q with rfl | hne
  · rw [update_self, update_self]
    exact ht p (hproto.live hp)
  · rw [update_of_ne hne, update_of_ne hne]
    have hst := hr.1
    change (update s.proc q _ r).state ≠ .UNUSED at hst
    rw [update_of_ne hne] at hst
    refine ht r ⟨hst, fun o ho => ?_⟩
    rcases eq_or_ne o p with rfl | hop
    · rw [hpc] at ho; cases ho; exact hne rfl
    · refine hr.2 o ?_
      rw [Sys.setPc_ne _ hop]; exact ho

theorem traced_move {h : List Ev} {ok : Bool} (ht : Traced h s) (hproto : Proto nproc s)
    (hp : (s.proc p).state = .RUNNING) (hstep : move nproc s p ok = some t) :
    Traced (h ++ happens s (.step (.move p ok))) t := by
  by_cases hcopy : ∃ q, s.pc p = .forkCopy q
  · obtain ⟨q, hpc⟩ := hcopy
    rw [move, hpc] at hstep
    cases ok with
    | true =>
      cases hstep
      have hev : happens s (.step (.move p true)) = [.forked p q] := by rw [happens, hpc]
      rw [hev]
      exact traced_copy ht hproto hp hpc
    | false =>
      cases hstep
      have hev : happens s (.step (.move p false)) = [] := rfl
      rw [hev, List.append_nil]
      exact ht.keeps (keeps_drop hpc)
  · have hcopy : ∀ q, s.pc p ≠ .forkCopy q := fun q hq => hcopy ⟨q, hq⟩
    have hev : happens s (.step (.move p ok)) = [] := by
      cases ok with
      | false => rfl
      | true =>
        rw [happens]
        split
        · rename_i q hq; exact absurd hq (hcopy q)
        · rfl
    rw [hev, List.append_nil]
    exact ht.keeps (keeps_move hproto hp hcopy hstep)

theorem traced_step {h : List Ev} {l : Label} (ht : Traced h s) (hproto : Proto nproc s)
    (hstep : step nproc s l = some t) : Traced (h ++ happens s (.step l)) t := by
  cases l <;> rw [step] at hstep <;> split at hstep <;> try cases hstep
  case move.isTrue p ok hc => exact traced_move ht hproto hc.2 hstep
  case trace.isTrue p mask hc => exact traced_setMask ht mask
  all_goals
    rename_i hc
    show Traced (h ++ []) _
    rw [List.append_nil]
    refine ht.keeps ?_
  case fork => exact keeps_allocproc hproto hc.1.2.2 hc.2.2.1
  case exit =>
    refine Keeps.setPc (keeps_same ?_ ?_) fun q => ?_
    · rfl
    · rfl
    · show s.pc _ ≠ _
      rw [hc.1.2.2]; simp
  case wait => exact (Keeps.refl s).setPc fun q => by rw [hc.2.2]; simp
  case kill => exact (Keeps.refl s).setPc fun q => by rw [hc.2.2]; simp
  case sleep =>
    refine Keeps.setPc (keeps_setProc (.inr ⟨by rw [hc.1.2.1]; decide, ?_⟩)) fun q => ?_
    · rfl
    · show s.pc _ ≠ _
      rw [hc.1.2.2]; simp
  case resize => exact keeps_same rfl rfl
  case files => exact keeps_same rfl rfl
  case wake => exact keeps_setProc (.inr ⟨by rw [hc.2.1]; decide, rfl⟩)
  case sched => exact keeps_setProc (.inr ⟨by rw [hc.2.1]; decide, rfl⟩)
  case yield => exact keeps_setProc (.inr ⟨by rw [hc.2.1]; decide, rfl⟩)

/-- What a run keeps, with its history. -/
structure Follows (nproc : ℕ) (h : List Ev) (s : Sys) : Prop where
  proto : Proto nproc s
  traced : Traced h s

theorem Follows.step {h : List Ev} {c : Call} (hf : Follows nproc h s) (hstep : callStep nproc s c = some t) :
    Follows nproc (h ++ happens s c) t := by
  cases c with
  | step l => exact ⟨proto_step hf.proto hstep, traced_step hf.traced hf.proto hstep⟩
  | ret p num a0 =>
    rw [callStep] at hstep
    split at hstep
    · cases hstep
      refine ⟨hf.proto, fun q hq => ?_⟩
      rw [hf.traced q hq, masks_append, happens]
      split
      · rfl
      · rfl
    · cases hstep

theorem follows_init : Follows nproc [] .init := by
  refine ⟨proto_init, fun q _ => ?_⟩
  show (update (fun _ => Proc.zero) initproc _ q).traceMask = 0
  rcases eq_or_ne q initproc with rfl | hq
  · rw [update_self]; rfl
  · rw [update_of_ne hq]; rfl

theorem Follows.run {h : List Ev} {cs : List Call} (hf : Follows nproc h s) (hrun : run (callStep nproc) s cs = some t) :
    Follows nproc (h ++ history nproc s cs) t :=
  trace_inv (fun _ _ _ _ hi hstep => hi.step hstep) hf hrun

/-! ### What is printed -/

theorem shift_and_one {x : BitVec 32} {n : ℕ} (hn : n < 32) : x.sshiftRight n &&& 1 ≠ 0 ↔ x.getLsbD n = true := by
  have hbit : (x.sshiftRight n).getLsbD 0 = x.getLsbD n := by
    rw [BitVec.getLsbD_sshiftRight]
    simp [hn]
  show x.sshiftRight n &&& 1#32 ≠ 0 ↔ _
  rw [BitVec.and_one_eq_setWidth_ofBool_getLsbD, hbit]
  cases x.getLsbD n <;> decide

theorem syscall_eq (pr : Proc) {num : BitVec 32} (a0 : BitVec 64) (h0 : 0 < num.toInt) (h1 : num.toInt < syscallNames.length) :
    pr.syscall num a0 = if pr.traceMask.getLsbD num.toNat then
      some (.syscall pr.pid (syscallNames.getD num.toNat none) a0) else none := by
  have hlen : (syscallNames.length : ℤ) = 23 := rfl
  have hn : num.toNat < 32 := by
    rw [hlen] at h1
    rw [BitVec.toInt_eq_toNat_cond] at h0 h1
    split at h1 <;> omega
  rw [Proc.syscall, if_pos ⟨h0, h1⟩]
  simp only [shift_and_one hn]

theorem syscall_no_mask {pr : Proc} (hm : pr.traceMask = 0) (num : BitVec 32) (a0 : BitVec 64) (pid : BitVec 32)
    (name : Option String) (a1 : BitVec 64) : pr.syscall num a0 ≠ some (.syscall pid name a1) := by
  by_cases hnum : 0 < num.toInt ∧ num.toInt < syscallNames.length
  · rw [syscall_eq pr a0 hnum.1 hnum.2, hm]
    simp
  · rw [Proc.syscall, if_neg hnum]
    simp

theorem step_not_printed (l : Label) (line : Line) : .printed p line ∉ happens s (.step l) := by
  cases l with
  | trace q mask => simp [happens]
  | move q ok =>
    cases ok with
    | false => exact List.not_mem_nil
    | true =>
      rw [happens]
      split
      · simp
      · exact List.not_mem_nil
  | _ => exact List.not_mem_nil

/-- A call that ends in a process without a mask prints no trace line. -/
theorem Follows.not_printed {h : List Ev} {c : Call} (hf : Follows nproc h s) (hzero : masks h p = 0)
    (hstep : callStep nproc s c = some t) (pid : BitVec 32) (name : Option String) (a0 : BitVec 64) :
    .printed p (.syscall pid name a0) ∉ happens s c := by
  cases c with
  | step l => exact step_not_printed l _
  | ret q num a1 =>
    rw [callStep] at hstep
    split at hstep
    · rename_i hq
      rw [happens]
      split
      · rename_i line hline
        intro hmem
        obtain ⟨rfl, rfl⟩ : p = q ∧ _ = line := by simpa using hmem
        have hmask : (s.proc p).traceMask = 0 := (hf.traced p (hf.proto.live hq.2.1)).trans hzero
        exact syscall_no_mask hmask num a1 pid name a0 hline
      · exact List.not_mem_nil
    · cases hstep

/-- Without a mask, no process prints a trace line before it calls `trace`. -/
theorem Follows.silent (pid : BitVec 32) (name : Option String) (a0 : BitVec 64) : ∀ {cs : List Call} {h : List Ev} {s : Sys},
    Follows nproc h s → masks h p = 0 → Schemes.run (callStep nproc) s cs = some t →
    (∀ e ∈ history nproc s cs, e.Spares p) →
    .printed p (.syscall pid name a0) ∉ history nproc s cs
  | [], _, _, _, _, _, _ => List.not_mem_nil
  | c :: cs, h, s, hf, hzero, hrun, hspares => by
      rw [run_cons, Option.bind_eq_some_iff] at hrun
      obtain ⟨u, hu, hrest⟩ := hrun
      have hcons : history nproc s (c :: cs) = happens s c ++ history nproc u cs := by rw [history, trace, hu]; rfl
      rw [hcons] at hspares ⊢
      have hzero' : masks (h ++ happens s c) p = 0 := by
        rw [masks_append, foldl_inherit_spares _ fun e he => hspares e (List.mem_append_left _ he), hzero]
      intro hmem
      rcases List.mem_append.mp hmem with hmem | hmem
      · exact hf.not_printed hzero hu pid name a0 hmem
      · exact silent pid name a0 (hf.step hu) hzero' hrest (fun e he => hspares e (List.mem_append_right _ he)) hmem

/-- CORRECT (trace): after every run, each process has the mask that its own last `trace`, or else its parent's at
    the `fork`, gives it; `syscall` prints a line exactly when the bit is set there; and a process with the
    mask 0 prints none until it calls `trace`. -/
theorem masks_follow_ancestry {cs : List Call} {t : Sys} (hrun : run (callStep nproc) .init cs = some t) :
    (∀ q, Live t q → (t.proc q).traceMask = masks (history nproc .init cs) q) ∧
    (∀ (p : ℕ) (num : BitVec 32) (a0 : BitVec 64), t.InUser nproc p → 0 < num.toInt → num.toInt < syscallNames.length →
      (t.proc p).syscall num a0 = if (masks (history nproc .init cs) p).getLsbD num.toNat then
        some (.syscall (t.proc p).pid (syscallNames.getD num.toNat none) a0) else none) ∧
    (∀ cs' u p, run (callStep nproc) t cs' = some u → Live t p → (t.proc p).traceMask = 0 →
      (∀ e ∈ history nproc t cs', e.Spares p) →
      ∀ pid name a0, .printed p (.syscall pid name a0) ∉ history nproc t cs') := by
  have hf : Follows nproc (history nproc .init cs) t := follows_init.run hrun
  refine ⟨hf.traced, fun p num a0 hp h0 h1 => ?_, fun cs' u p hu hp hmask hspares pid name a0 => ?_⟩
  · rw [← hf.traced p (hf.proto.live hp.2.1)]
    exact syscall_eq (t.proc p) a0 h0 h1
  · exact hf.silent pid name a0 ((hf.traced p hp).symm.trans hmask) hu hspares

/-- `init` forks process 2, which traces `read` and exits; `init` reaps it and forks into the same slot again. The
    new process comes to the end of a `read`. -/
def traceAndReuse : List Call := (List.flatten
  [[.sched 0, .fork 0 1], moves 0 3, [.sched 1, .trace 1 32, .exit 1 7], moves 1 8, [.wait 0], moves 0 3,
    [.fork 0 1], moves 0 3, [.sched 1]]).map .step ++ [.ret 1 5 0]

theorem masks_follow_ancestry_traceAndReuse : ∃ t, run (callStep 2) .init traceAndReuse = some t ∧
    t.InUser 2 1 ∧ (t.proc 1).syscall 5 0 = none := by
  have hview : (run (callStep 2) .init traceAndReuse).map (fun t => decide (t.InUser 2 1)) = some true := by decide +kernel
  obtain ⟨t, ht, hv⟩ := Option.map_eq_some_iff.mp hview
  have huser : t.InUser 2 1 := of_decide_eq_true hv
  have hzero : (masks (history 2 .init traceAndReuse) 1).getLsbD (5 : BitVec 32).toNat = false := by decide +kernel
  have hsys := (masks_follow_ancestry ht).2.1 1 5 0 huser (by decide) (by decide)
  rw [hzero] at hsys
  exact ⟨t, ht, huser, hsys⟩

end Minios.Procs
