import Minios.Pipes.Fifo

/-! `kernel/pipe.c`: what a `piperead` takes from the pipe, and what it hands to its caller.

    A round of the copy loop first takes the byte, `ch = pi->data[pi->nread++ % PIPESIZE]`, and then
    tries to store it at `addr + i`. When `copyout` fails there, the byte has left the pipe and nobody
    has it:

        taken    b0 b1 ... b(r-1) br         r + 1 bytes removed
        stored   b0 b1 ... b(r-1)            r returned

    A call that met no such failure took exactly the bytes it returned. -/

namespace Minios.Pipes
open Schemes Function

variable {nproc p q : ℕ} {s t : Sys}

/-! ### What is seen of the reads -/

/-- A read starts, a byte leaves the pipe, it is stored at `addr + i` or `copyout` fails on it, the read
    returns. -/
inductive Seen where
  | start (p : ℕ)
  | take (p : ℕ) (ch : UInt8)
  | store (p i : ℕ) (ch : UInt8)
  | fault (p : ℕ)
  | ret (p : ℕ) (r : ℤ)
  deriving DecidableEq

def seen (s : Sys) : Label → Sys → List Seen
  | .write .., _ | .close .., _ | .kill _, _ => []
  | .read p _ _, _ => [.start p]
  | .move p, t =>
    (if t.pipe.nread = s.pipe.nread then [] else [.take p s.pipe.head]) ++
    match (s.proc p).pc with
      | .run (.copy i) =>
        if i < (s.proc p).n ∧ s.pipe.empty = false then
          if (s.proc p).dst i then [.store p i s.pipe.head] else [.fault p]
        else []
      | .run (.ret r) => if (s.proc p).op = .read then [.ret p r] else []
      | _ => []

/-- A read so far: the bytes it removed, the bytes it stored with their places, and whether a copy
    failed. -/
structure Call where
  taken : List UInt8
  stored : List (UInt8 × ℕ)
  failed : Bool

def Call.new : Call := ⟨[], [], false⟩

def Call.see (p : ℕ) (c : Call) : Seen → Call
  | .start q => if q = p then .new else c
  | .take q ch => if q = p then { c with taken := c.taken ++ [ch] } else c
  | .store q i ch => if q = p then { c with stored := c.stored ++ [(ch, i)] } else c
  | .fault q => if q = p then { c with failed := true } else c
  | .ret .. => c

/-- The last read of process `p`. -/
def call (p : ℕ) (h : List Seen) : Call := h.foldl (Call.see p) .new

/-- A return of `r`, at least 0, means that `r` bytes were removed and are at `addr`, ..., `addr + r - 1`
    in order; a negative one that nothing was removed. -/
def Call.Exact (c : Call) (r : ℤ) : Prop :=
  (0 ≤ r → c.taken.length = r ∧ c.stored = c.taken.zipIdx) ∧ (r < 0 → c.taken = [])

theorem call_append (p : ℕ) (h es : List Seen) : call p (h ++ es) = es.foldl (Call.see p) (call p h) :=
  List.foldl_append ..

/-! ### Where a read stands -/

/-- What has been removed and stored is the same. -/
def Call.Even (c : Call) (i : ℕ) : Prop := c.taken.length = i ∧ c.stored = c.taken.zipIdx ∧ c.failed = false

/-- A `piperead` of `n` bytes at this point. -/
def Call.At (c : Call) (n : ℤ) : Next → Prop
  | .read | .sleep .read => c = .new
  | .copy i => c.Even i ∧ (i : ℤ) ≤ max n 0
  | .ret r => r ≤ max n 0 ∧ ((r = -1 ∧ c = .new) ∨ (∃ i : ℕ, r = i ∧ c.Even i) ∨
      ∃ i : ℕ, r = i ∧ c.taken.length = i + 1 ∧ c.stored.length = i ∧ c.failed = true)
  | _ => False

theorem Call.At.exact {c : Call} {n r : ℤ} (h : c.At n (.ret r)) : c.Exact r ↔ c.failed = false := by
  rcases h.2 with ⟨rfl, rfl⟩ | ⟨i, rfl, hlen, hst, hf⟩ | ⟨i, rfl, hlen, -, hf⟩
  · exact ⟨fun _ => rfl, fun _ => ⟨fun h0 => absurd h0 (by decide), fun _ => rfl⟩⟩
  · exact ⟨fun _ => hf, fun _ => ⟨fun _ => ⟨congrArg _ hlen, hst⟩, fun h0 => by omega⟩⟩
  · refine ⟨fun hx => ?_, fun h0 => by rw [hf] at h0; cases h0⟩
    have := (hx.1 (by omega)).1
    omega

/-- No more is stored or returned than was asked for. -/
theorem Call.At.le {c : Call} {n r : ℤ} (h : c.At n (.ret r)) : r ≤ max n 0 ∧ (c.stored.length : ℤ) ≤ max n 0 := by
  obtain ⟨hr, ⟨rfl, rfl⟩ | ⟨i, rfl, hlen, hst, -⟩ | ⟨i, rfl, -, hst, -⟩⟩ := h
  · exact ⟨hr, le_max_right n 0⟩
  · rw [hst, List.length_zipIdx, hlen]
    exact ⟨hr, hr⟩
  · rw [hst]
    exact ⟨hr, hr⟩

/-- What holds of the point a process is at, or goes on at. -/
def Pc.Holds (P : Next → Prop) : Pc → Prop
  | .idle => True
  | .acquire e => P e.next
  | .run k | .wakeup _ _ k => P k
  | .dozing z | .asleep z => P (.sleep z)

/-- A read in progress is where its history says. -/
def Proc.Reads (c : Call) (pr : Proc) : Prop := pr.op = .read → pr.pc.Holds (c.At pr.n)

theorem at_entry {c : Call} {n : ℤ} {z : Sleep} (h : c.At n (.sleep z)) : c.At n z.entry.next := by
  cases z <;> exact h

theorem reads_wake {c : Call} {ch : Chan} {pr : Proc} (h : pr.Reads c) : (pr.at (pr.pc.wake ch)).Reads c := by
  intro hop
  have hpc := h hop
  change (pr.pc.wake ch).Holds (c.At pr.n)
  cases hz : pr.pc with
  | asleep z =>
    rw [hz] at hpc
    rw [Pc.wake]
    split
    · exact at_entry hpc
    · exact hpc
  | _ =>
    rw [hz] at hpc
    exact hpc

theorem reads_kill {c : Call} {pr : Proc} (h : pr.Reads c) : pr.kill.Reads c := by
  intro hop
  have hpc := h hop
  rw [Proc.kill]
  dsimp only
  split
  · next z hz =>
    rw [hz] at hpc
    exact at_entry hpc
  · exact hpc

/-! ### Histories -/

/-- Every return was exact, or a copy had failed in the call. -/
def RetsExact (h : List Seen) : Prop :=
  ∀ h₁ h₂ p r, h = h₁ ++ .ret p r :: h₂ → ((call p h₁).Exact r ↔ (call p h₁).failed = false)

theorem RetsExact.snoc {h : List Seen} {e : Seen} (hr : RetsExact h)
    (he : ∀ p r, e = .ret p r → ((call p h).Exact r ↔ (call p h).failed = false)) : RetsExact (h ++ [e]) := by
  intro h₁ h₂ p r heq
  rcases List.eq_nil_or_concat h₂ with rfl | ⟨h₃, e', rfl⟩
  · obtain ⟨rfl, h2⟩ := List.append_inj' heq rfl
    exact he p r (List.cons.inj h2).1
  · rw [List.concat_eq_append, ← List.cons_append, ← List.append_assoc] at heq
    exact hr h₁ h₃ p r (List.append_inj' heq rfl).1

theorem RetsExact.append : ∀ {es h : List Seen}, RetsExact h → (∀ e ∈ es, ∀ p r, e ≠ .ret p r) → RetsExact (h ++ es)
  | [], h, hr, _ => by rwa [List.append_nil]
  | e :: es, h, hr, hes => by
      rw [List.append_cons]
      exact (hr.snoc fun p r he => absurd he (hes e List.mem_cons_self p r)).append
        fun e' he' => hes e' (List.mem_cons_of_mem _ he')

structure Tale (h : List Seen) (s : Sys) : Prop where
  reads : ∀ p, (s.proc p).Reads (call p h)
  rets : RetsExact h

/-- Events of process `p` say nothing about other calls. -/
def Seen.of (p : ℕ) : Seen → Prop
  | .start q | .take q _ | .store q _ _ | .fault q | .ret q _ => q = p

theorem call_other {h es : List Seen} (hes : ∀ e ∈ es, e.of p) (hne : q ≠ p) : call q (h ++ es) = call q h := by
  rw [call_append]
  induction es with
  | nil => rfl
  | cons e es ih =>
    have he : (call q h).see q e = call q h := by
      have hp := hes e List.mem_cons_self
      cases e <;> first | rfl | (subst hp; exact if_neg hne.symm)
    rw [List.foldl_cons, he]
    exact ih fun e' he' => hes e' (List.mem_cons_of_mem _ he')

theorem seen_of (s t : Sys) (p : ℕ) : ∀ e ∈ seen s (.move p) t, e.of p := by
  intro e he
  rw [seen, List.mem_append] at he
  rcases he with he | he
  · split at he
    · cases he
    · rw [List.mem_singleton.mp he]
      rfl
  · split at he
    · split at he
      · split at he <;> (rw [List.mem_singleton.mp he]; rfl)
      · cases he
    · split at he
      · rw [List.mem_singleton.mp he]
        rfl
      · cases he
    · cases he

/-- Process `p` makes a step: its own call goes on as seen, and the others' at most wake up. -/
theorem Tale.own {h es : List Seen} (ht : Tale h s) (hes : ∀ e ∈ es, e.of p)
    (hself : (t.proc p).Reads (es.foldl (Call.see p) (call p h)))
    (hother : ∀ q ≠ p, ∀ c : Call, (s.proc q).Reads c → (t.proc q).Reads c) (hrets : RetsExact (h ++ es)) :
    Tale (h ++ es) t := by
  refine ⟨fun q => ?_, hrets⟩
  rcases eq_or_ne q p with rfl | hne
  · rw [call_append]
    exact hself
  · rw [call_other hes hne]
    exact hother q hne _ (ht.reads q)

/-! ### Steps -/

/-- No byte is taken and no call returns: nothing is seen. -/
theorem seen_nil (hn : t.pipe.nread = s.pipe.nread) (hcopy : ∀ i, (s.proc p).pc ≠ .run (.copy i))
    (hret : ∀ r, (s.proc p).pc ≠ .run (.ret r)) : seen s (.move p) t = [] := by
  rw [seen, if_pos hn, List.nil_append]
  split
  · next i hi => exact absurd hi (hcopy i)
  · next r hr => exact absurd hr (hret r)
  · rfl

theorem others_setPc {u : Sys} (hu : u.proc = s.proc) (pc : Pc) :
    ∀ q ≠ p, ∀ c : Call, (s.proc q).Reads c → ((u.setPc p pc).proc q).Reads c := by
  intro q hne c hc
  rw [Sys.setPc_ne _ hne, hu]
  exact hc

theorem Tale.still {h : List Seen} {u : Sys} {pc : Pc} (ht : Tale h s) (hn : u.pipe.nread = s.pipe.nread)
    (hcopy : ∀ i, (s.proc p).pc ≠ .run (.copy i)) (hret : ∀ r, (s.proc p).pc ≠ .run (.ret r))
    (hu : u.proc = s.proc) (hpc : ∀ c : Call, (s.proc p).pc.Holds (c.At (s.proc p).n) → pc.Holds (c.At (s.proc p).n)) :
    Tale (h ++ seen s (.move p) (u.setPc p pc)) (u.setPc p pc) := by
  have hnil : seen s (.move p) (u.setPc p pc) = [] := seen_nil hn hcopy hret
  rw [hnil]
  refine ht.own (p := p) (fun e he => by cases he) ?_ (others_setPc hu pc) (ht.rets.append fun e he => by cases he)
  rw [Sys.setPc_self, hu]
  exact fun hop => hpc _ (ht.reads p hop)

/-- COPY: the byte is taken, then stored, unless `copyout` fails. -/
theorem Tale.copy {h : List Seen} {i : ℕ} (ht : Tale h s) (hpc : (s.proc p).pc = .run (.copy i)) :
    Tale (h ++ seen s (.move p) (copyRound s p i)) (copyRound s p i) := by
  have hat : (s.proc p).op = .read → (call p h).Even i ∧ (i : ℤ) ≤ max (s.proc p).n 0 := fun hop => by
    have := ht.reads p hop
    rwa [hpc] at this
  have hes := seen_of s (copyRound s p i) p
  have hmoved : ∀ pc, ((s.setPipe s.pipe.take).setPc p pc).pipe.nread ≠ s.pipe.nread := by
    intro pc
    change s.pipe.nread + 1 ≠ s.pipe.nread
    bv_omega
  rw [copyRound] at hes ⊢
  by_cases hgo : i < (s.proc p).n ∧ s.pipe.empty = false
  · by_cases hdst : (s.proc p).dst i = true
    · simp only [if_pos hgo, if_pos hdst] at hes ⊢
      have hseen : seen s (.move p) ((s.setPipe s.pipe.take).setPc p (.run (.copy (i + 1)))) =
          [.take p s.pipe.head, .store p i s.pipe.head] := by
        rw [seen, if_neg (hmoved _), hpc]
        simp only [if_pos hgo, if_pos hdst]
        rfl
      rw [hseen] at hes ⊢
      refine ht.own hes ?_ (others_setPc rfl _) (ht.rets.append (by simp))
      rw [Sys.setPc_self]
      intro hop
      obtain ⟨⟨hlen, hst, hf⟩, -⟩ := hat hop
      simp only [List.foldl_cons, List.foldl_nil, Call.see, if_pos]
      refine ⟨⟨by rw [List.length_append, hlen]; rfl, ?_, hf⟩, ?_⟩
      · rw [List.zipIdx_append, hst, hlen, Nat.zero_add]
        rfl
      · exact (Int.add_one_le_iff.mpr hgo.1).trans (le_max_left ..)
    · simp only [if_pos hgo, if_neg hdst] at hes ⊢
      have hseen : seen s (.move p) ((s.setPipe s.pipe.take).setPc p (.wakeup .nwrite 0 (.ret i))) =
          [.take p s.pipe.head, .fault p] := by
        rw [seen, if_neg (hmoved _), hpc]
        simp only [if_pos hgo, if_neg hdst]
        rfl
      rw [hseen] at hes ⊢
      refine ht.own hes ?_ (others_setPc rfl _) (ht.rets.append (by simp))
      rw [Sys.setPc_self]
      intro hop
      obtain ⟨⟨hlen, hst, -⟩, hle⟩ := hat hop
      simp only [List.foldl_cons, List.foldl_nil, Call.see, if_pos]
      refine ⟨hle, .inr (.inr ⟨i, rfl, by rw [List.length_append, hlen]; rfl, ?_, rfl⟩)⟩
      rw [hst, List.length_zipIdx, hlen]
  · simp only [if_neg hgo] at hes ⊢
    have hseen : seen s (.move p) (s.setPc p (.wakeup .nwrite 0 (.ret i))) = [] := by
      rw [seen, Sys.setPc_pipe, if_pos rfl, hpc]
      simp only [if_neg hgo]
      rfl
    rw [hseen] at hes ⊢
    refine ht.own hes ?_ (others_setPc rfl _) (ht.rets.append (by simp))
    rw [Sys.setPc_self]
    exact fun hop => ⟨(hat hop).2, .inr (.inl ⟨i, rfl, (hat hop).1⟩)⟩

/-- RETURN: the call is exact unless a copy failed in it. -/
theorem Tale.ret {h : List Seen} {r : ℤ} (ht : Tale h s) (hpc : (s.proc p).pc = .run (.ret r)) :
    Tale (h ++ seen s (.move p) ((s.setLock none).setPc p .idle)) ((s.setLock none).setPc p .idle) := by
  have hseen : seen s (.move p) ((s.setLock none).setPc p .idle) =
      if (s.proc p).op = .read then [.ret p r] else [] := by
    rw [seen, Sys.setPc_pipe, Sys.setLock_pipe, if_pos rfl, hpc]
    rfl
  have hself : ∀ c, (((s.setLock none).setPc p .idle).proc p).Reads c := fun c hop => by
    rw [Sys.setPc_self]
    trivial
  have hes := seen_of s ((s.setLock none).setPc p .idle) p
  rw [hseen] at hes ⊢
  refine ht.own hes (hself _) (others_setPc rfl _) ?_
  split
  · next hop =>
    refine ht.rets.snoc fun q r' he => ?_
    obtain ⟨rfl, rfl⟩ := Seen.ret.inj he
    have hat := ht.reads p hop
    rw [hpc] at hat
    exact Call.At.exact hat
  · exact ht.rets.append (by simp)

theorem Tale.exec {h : List Seen} {k : Next} (ht : Tale h s) (hpc : (s.proc p).pc = .run k) :
    Tale (h ++ seen s (.move p) (s.exec p k)) (s.exec p k) := by
  cases k with
  | copy i => exact ht.copy hpc
  | ret r => exact ht.ret hpc
  | write i =>
    have hne : ∀ k' : Next, k' ≠ .write i → (s.proc p).pc ≠ .run k' := fun k' hk he => by
      rw [hpc, Pc.run.injEq] at he
      exact hk he.symm
    have hstill : ∀ (pi : Pipe) (pc : Pc), pi.nread = s.pipe.nread →
        Tale (h ++ seen s (.move p) ((s.setPipe pi).setPc p pc)) ((s.setPipe pi).setPc p pc) := fun pi pc hn =>
      ht.still hn (fun j => hne _ (by rintro ⟨⟩)) (fun r => hne _ (by rintro ⟨⟩)) rfl fun c hc => by
        rw [hpc] at hc
        exact hc.elim
    rw [Sys.exec, writeRound]
    split
    · split
      · exact hstill s.pipe _ rfl
      · split
        · exact hstill s.pipe _ rfl
        · split
          · exact hstill s.pipe _ rfl
          · exact hstill _ _ rfl
    · exact hstill s.pipe _ rfl
  | read =>
    have hstill : ∀ pc : Pc, (∀ c : Call, c = .new → pc.Holds (c.At (s.proc p).n)) →
        Tale (h ++ seen s (.move p) (s.setPc p pc)) (s.setPc p pc) := fun pc hnew =>
      ht.still rfl (fun j => by rw [hpc]; rintro ⟨⟩) (fun r => by rw [hpc]; rintro ⟨⟩) rfl fun c hc => by
        rw [hpc] at hc
        exact hnew c hc
    rw [Sys.exec, readRound]
    split
    · split
      · exact hstill _ fun c hc => ⟨(by decide : (-1 : ℤ) ≤ 0).trans (le_max_right ..), .inl ⟨rfl, hc⟩⟩
      · exact hstill _ fun c hc => hc
    · refine hstill _ fun c hc => ?_
      rw [hc]
      exact ⟨⟨rfl, rfl, rfl⟩, le_max_right ..⟩
  | close writable =>
    refine ht.still ?_ (fun j => by rw [hpc]; rintro ⟨⟩) (fun r => by rw [hpc]; rintro ⟨⟩) rfl fun c hc => by
      rw [hpc] at hc
      exact hc.elim
    cases writable <;> rfl
  | sleep z =>
    refine ht.still rfl (fun j => by rw [hpc]; rintro ⟨⟩) (fun r => by rw [hpc]; rintro ⟨⟩) rfl fun c hc => ?_
    rw [hpc] at hc
    exact hc

theorem Tale.move {h : List Seen} (ht : Tale h s) (hstep : move nproc s p = some t) :
    Tale (h ++ seen s (.move p) t) t := by
  rw [Pipes.move] at hstep
  split at hstep
  case h_1 => cases hstep
  case h_2 e hpc =>
    split at hstep
    · obtain rfl := Option.some.inj hstep
      refine ht.still rfl (fun j => by rw [hpc]; rintro ⟨⟩) (fun r => by rw [hpc]; rintro ⟨⟩) rfl fun c hc => ?_
      rw [hpc] at hc
      exact hc
    · cases hstep
  case h_3 k hpc => exact Option.some.inj hstep ▸ ht.exec hpc
  case h_4 c j k hpc =>
    have hstill : ∀ pc : Pc, (∀ c : Call, c.At (s.proc p).n k → pc.Holds (c.At (s.proc p).n)) →
        Tale (h ++ seen s (.move p) (s.setPc p pc)) (s.setPc p pc) := fun pc hk =>
      ht.still rfl (fun j => by rw [hpc]; rintro ⟨⟩) (fun r => by rw [hpc]; rintro ⟨⟩) rfl fun c hc => by
        rw [hpc] at hc
        exact hk c hc
    split at hstep
    · split at hstep
      · exact Option.some.inj hstep ▸ hstill _ fun c hc => hc
      · next hjp =>
        split at hstep
        · cases hstep
        · obtain rfl := Option.some.inj hstep
          have hn : ((s.setPc j ((s.proc j).pc.wake c)).setPc p (.wakeup c (j + 1) k)).pipe.nread = s.pipe.nread := rfl
          rw [seen_nil hn (fun j => by rw [hpc]; rintro ⟨⟩) (fun r => by rw [hpc]; rintro ⟨⟩)]
          refine ht.own (p := p) (by simp) ?_ (fun q hne c' hc => ?_) (ht.rets.append (by simp))
          · rw [Sys.setPc_self, Sys.setPc_ne _ (Ne.symm hjp)]
            intro hop
            have := ht.reads p hop
            rw [hpc] at this
            exact this
          · rw [Sys.setPc_ne _ hne]
            rcases eq_or_ne q j with rfl | hqj
            · rw [Sys.setPc_self]
              exact reads_wake hc
            · rw [Sys.setPc_ne _ hqj]
              exact hc
    · exact Option.some.inj hstep ▸ hstill _ fun c hc => hc
  case h_5 z hpc =>
    obtain rfl := Option.some.inj hstep
    refine ht.still rfl (fun j => by rw [hpc]; rintro ⟨⟩) (fun r => by rw [hpc]; rintro ⟨⟩) rfl fun c hc => ?_
    rw [hpc] at hc
    exact hc
  case h_6 => cases hstep

theorem Tale.begin {h : List Seen} {op : Op} {n : ℤ} {src : ℕ → Option UInt8} {dst : ℕ → Bool} {e : Entry}
    (ht : Tale h s) (hop : op ≠ .read) : Tale h (s.setProc p ((s.proc p).begin op n src dst e)) := by
  refine ⟨fun q => ?_, ht.rets⟩
  rcases eq_or_ne q p with rfl | hne
  · rw [Sys.setProc_self]
    exact fun h' => absurd h' hop
  · rw [Sys.setProc_ne _ hne]
    exact ht.reads q

theorem tale_step {h : List Seen} {l : Label} (ht : Tale h s) (hstep : step nproc s l = some t) :
    Tale (h ++ seen s l t) t := by
  cases l with
  | write p n src =>
    obtain ⟨-, hstep⟩ := Option.ite_none_right_eq_some.mp hstep
    rw [seen, List.append_nil]
    exact Option.some.inj hstep ▸ ht.begin (by decide)
  | close p writable =>
    obtain ⟨-, hstep⟩ := Option.ite_none_right_eq_some.mp hstep
    rw [seen, List.append_nil]
    exact Option.some.inj hstep ▸ ht.begin (by decide)
  | read p n dst =>
    obtain ⟨-, hstep⟩ := Option.ite_none_right_eq_some.mp hstep
    obtain rfl := Option.some.inj hstep
    refine ht.own (p := p) (by simp [seen, Seen.of]) ?_ (fun q hne c hc => ?_) (ht.rets.append (by simp [seen]))
    · rw [Sys.setProc_self]
      exact fun _ => if_pos rfl
    · rw [Sys.setProc_ne _ hne]
      exact hc
  | kill p =>
    obtain ⟨-, hstep⟩ := Option.ite_none_right_eq_some.mp hstep
    obtain rfl := Option.some.inj hstep
    rw [seen, List.append_nil]
    refine ⟨fun q => ?_, ht.rets⟩
    rcases eq_or_ne q p with rfl | hne
    · rw [Sys.setProc_self]
      exact reads_kill (ht.reads q)
    · rw [Sys.setProc_ne _ hne]
      exact ht.reads q
  | move p =>
    obtain ⟨-, hstep⟩ := Option.ite_none_right_eq_some.mp hstep
    exact ht.move hstep

/-! ### Runs -/

/-- Any pipe, and no call on it yet. -/
def Sys.with (pi : Pipe) : Sys := (Sys.init pi.data).setPipe pi

theorem tale_run {pi : Pipe} {ls : List Label} (hrun : run (step nproc) (.with pi) ls = some t) :
    Tale (trace (step nproc) seen (.with pi) ls) t := by
  have hinit : Tale [] (.with pi) := by
    refine ⟨fun p _ => trivial, fun h₁ h₂ p r he => ?_⟩
    simp at he
  exact trace_inv (fun _ _ _ _ => tale_step) hinit hrun

/-- A `piperead` of `n` bytes that is about to return stores and returns `n` at most, and nothing for a negative `n`. -/
theorem piperead_le {pi : Pipe} {ls : List Label} (hrun : run (step nproc) (.with pi) ls = some t) {r : ℤ}
    (hpc : (t.proc p).pc = .run (.ret r)) (hop : (t.proc p).op = .read) :
    r ≤ max (t.proc p).n 0 ∧ ((call p (trace (step nproc) seen (.with pi) ls)).stored.length : ℤ) ≤ max (t.proc p).n 0 := by
  have hat := (tale_run hrun).reads p hop
  rw [hpc] at hat
  exact Call.At.le hat

/-- CORRECT (reads are exact unless a copy fails): from any state of the pipe, whatever the readers and
    writers do, a `piperead` removed exactly the bytes it returned, and stored them in order, if and only
    if no `copyout` failed in it. -/
theorem piperead_exact_iff {pi : Pipe} {ls : List Label} (hrun : run (step nproc) (.with pi) ls = some t)
    {h₁ h₂ : List Seen} {r : ℤ} (hret : trace (step nproc) seen (.with pi) ls = h₁ ++ .ret p r :: h₂) :
    (call p h₁).Exact r ↔ (call p h₁).failed = false :=
  (tale_run hrun).rets h₁ h₂ p r hret

/-- Process 1 writes three bytes, and process 0 reads two, with room for `room` bytes. -/
def writeThenReadInto (room : ℕ) : List Label :=
  .write 1 3 (fun i => some (UInt8.ofNat i)) :: List.replicate 9 (.move 1) ++
    .read 0 2 (fun i => decide (i < room)) :: List.replicate 9 (.move 0)

/-- With room for both, the call returns the two bytes it took. -/
theorem piperead_exact_iff_room : ∃ h₁ h₂,
    trace (step 2) seen (.with (.init fun _ => 0)) (writeThenReadInto 2) = h₁ ++ .ret 0 2 :: h₂ ∧
      (call 0 h₁).Exact 2 := by
  obtain ⟨t, ht⟩ := Option.isSome_iff_exists.mp
    (show (run (step 2) (.with (.init fun _ => 0)) (writeThenReadInto 2)).isSome = true by decide +kernel)
  have hret : trace (step 2) seen (.with (.init fun _ => 0)) (writeThenReadInto 2) =
      [.start 0, .take 0 0, .store 0 0 0, .take 0 1, .store 0 1 1] ++ .ret 0 2 :: [] := by decide +kernel
  exact ⟨_, _, hret, (piperead_exact_iff ht hret).mpr rfl⟩

/-- With room for one byte, the call takes two bytes, stores one and returns 1. -/
theorem piperead_loses_byte : ∃ h₁ h₂,
    trace (step 2) seen (.with (.init fun _ => 0)) (writeThenReadInto 1) = h₁ ++ .ret 0 1 :: h₂ ∧
      (call 0 h₁).taken = [0, 1] ∧ (call 0 h₁).stored = [(0, 0)] ∧ ¬ (call 0 h₁).Exact 1 := by
  have hret : trace (step 2) seen (.with (.init fun _ => 0)) (writeThenReadInto 1) =
      [.start 0, .take 0 0, .store 0 0 0, .take 0 1, .fault 0] ++ .ret 0 1 :: [] := by decide +kernel
  refine ⟨_, _, hret, rfl, rfl, fun hx => ?_⟩
  have hlen := (hx.1 (by decide)).1
  exact absurd hlen (by decide)

end Minios.Pipes
