import Minios.Pipes.Pipe

/-! `kernel/pipe.c`: a pipe is a bounded queue.

    `nread` and `nwrite` are `uint`s that count bytes modulo `2^32`; byte number `k` of the stream is in
    `data[k % PIPESIZE]`. Since `PIPESIZE` divides `2^32`, that place does not depend on how often the
    counters have wrapped.

        data:   . . . [nread] ... [nwrite - 1] . . .      stored, in order

    What an observer sees of a run is a list of EVENTS: calls and returns, and the bytes that enter and
    leave `data`. The bytes that left, followed by the bytes stored, are the bytes that entered. -/

namespace Minios.Pipes
open Schemes Function

variable {nproc p q : ℕ} {s t : Sys} {pi : Pipe}

/-! ### The ring -/

/-- `pi->nwrite - pi->nread` -/
def Pipe.count (pi : Pipe) : ℕ := (pi.nwrite - pi.nread).toNat

/-- The bytes at `nread`, ..., `nwrite - 1`. -/
def Pipe.stored (pi : Pipe) : List UInt8 :=
  (List.range pi.count).map fun k => pi.data ((pi.nread.toNat + k) % PIPESIZE)

theorem nwrite_eq (pi : Pipe) : pi.nwrite.toNat = (pi.nread.toNat + pi.count) % 2 ^ 32 := by
  rw [Pipe.count]
  bv_omega

theorem nwrite_mod (pi : Pipe) : pi.nwrite.toNat % PIPESIZE = (pi.nread.toNat + pi.count) % PIPESIZE := by
  rw [nwrite_eq]
  exact Nat.mod_mod_of_dvd _ (by decide)

theorem full_iff (pi : Pipe) : pi.full = true ↔ pi.count = PIPESIZE := by
  simp only [Pipe.full, Pipe.count, PIPESIZE, decide_eq_true_eq]
  bv_omega

theorem empty_iff (pi : Pipe) : pi.empty = true ↔ pi.count = 0 := by
  simp only [Pipe.empty, Pipe.count, decide_eq_true_eq]
  bv_omega

theorem count_put (h : pi.count < PIPESIZE) (ch : UInt8) : (pi.put ch).count = pi.count + 1 := by
  simp only [Pipe.count, Pipe.put, PIPESIZE] at *
  bv_omega

theorem count_take (h : 0 < pi.count) : pi.count = pi.take.count + 1 := by
  simp only [Pipe.count, Pipe.take] at *
  bv_omega

/-- PUT: the byte goes to the end, and overwrites none that is stored. -/
theorem stored_put (h : pi.count < PIPESIZE) (ch : UInt8) : (pi.put ch).stored = pi.stored ++ [ch] := by
  rw [Pipe.stored, count_put h, List.range_succ, List.map_append, List.map_singleton]
  refine congrArg₂ _ (List.map_congr_left fun k hk => ?_) ?_
  · have hk := List.mem_range.mp hk
    rw [Pipe.put, nwrite_mod]
    refine update_of_ne ?_ ..
    simp only [PIPESIZE] at *
    omega
  · rw [Pipe.put, nwrite_mod]
    exact congrArg (· :: []) (update_self ..)

/-- TAKE: the byte comes from the front. -/
theorem stored_take (h : 0 < pi.count) : pi.stored = pi.head :: pi.take.stored := by
  have hnext : ∀ k, (pi.nread.toNat + (k + 1)) % PIPESIZE = (pi.take.nread.toNat + k) % PIPESIZE := by
    intro k
    have hn : pi.take.nread.toNat = (pi.nread.toNat + 1) % 2 ^ 32 := by
      rw [Pipe.take]; bv_omega
    rw [hn]
    simp only [PIPESIZE]
    omega
  rw [Pipe.stored, count_take h, List.range_succ_eq_map, List.map_cons, List.map_map]
  refine congrArg₂ _ (by rw [Nat.add_zero, Pipe.head]) (List.map_congr_left fun k _ => ?_)
  rw [comp_apply, Nat.succ_eq_add_one, hnext]
  rfl

/-! ### Events -/

inductive Event where
  | start (p : ℕ) (op : Op)
  | put (p : ℕ) (ch : UInt8)
  | take (p : ℕ) (ch : UInt8)
  | ret (p : ℕ) (op : Op) (r : ℤ)

/-- What is seen of a step: a call starts, a byte is stored when `nwrite` moves, a byte is taken when
    `nread` moves, a call returns. -/
def events (s : Sys) : Label → Sys → List Event
  | .write p _ _, _ => [.start p .write]
  | .read p _ _, _ => [.start p .read]
  | .close p _, _ => [.start p .close]
  | .kill _, _ => []
  | .move p, t =>
    (if t.pipe.nwrite = s.pipe.nwrite then [] else [.put p (t.pipe.data (s.pipe.nwrite.toNat % PIPESIZE))]) ++
    ((if t.pipe.nread = s.pipe.nread then [] else [.take p s.pipe.head]) ++
    match (s.proc p).pc with
      | .run (.ret r) => [.ret p (s.proc p).op r]
      | _ => [])

def Event.put? : Event → Option UInt8
  | .put _ ch => some ch
  | _ => none

def Event.take? : Event → Option UInt8
  | .take _ ch => some ch
  | _ => none

/-- The bytes that entered the pipe, and those that left it. -/
def puts (h : List Event) : List UInt8 := h.filterMap Event.put?

def takes (h : List Event) : List UInt8 := h.filterMap Event.take?

def Event.tally (p a : ℕ) : Event → ℕ
  | .start q _ => if q = p then 0 else a
  | .put q _ => if q = p then a + 1 else a
  | _ => a

/-- How many bytes process `p` has put since its last call started. -/
def appended (p : ℕ) (h : List Event) : ℕ := h.foldl (fun a e => e.tally p a) 0

theorem puts_snoc (h : List Event) (e : Event) : puts (h ++ [e]) = puts h ++ e.put?.toList := by
  rw [puts, List.filterMap_append]
  cases e <;> rfl

theorem takes_snoc (h : List Event) (e : Event) : takes (h ++ [e]) = takes h ++ e.take?.toList := by
  rw [takes, List.filterMap_append]
  cases e <;> rfl

theorem appended_snoc (p : ℕ) (h : List Event) (e : Event) : appended p (h ++ [e]) = e.tally p (appended p h) := by
  rw [appended, List.foldl_append]
  rfl

/-- A `pipewrite` that did not return -1 returned the number of bytes it put. -/
def Returns (h : List Event) : Prop :=
  ∀ h₁ h₂ p (r : ℤ), h = h₁ ++ .ret p .write r :: h₂ → r = -1 ∨ r = appended p h₁

theorem Returns.snoc {h : List Event} {e : Event} (hr : Returns h)
    (he : ∀ p r, e = .ret p .write r → r = -1 ∨ r = appended p h) : Returns (h ++ [e]) := by
  intro h₁ h₂ p r heq
  rcases List.eq_nil_or_concat h₂ with rfl | ⟨h₃, e', rfl⟩
  · obtain ⟨rfl, h2⟩ := List.append_inj' heq rfl
    exact he p r (List.cons.inj h2).1
  · rw [List.concat_eq_append, ← List.cons_append, ← List.append_assoc] at heq
    exact hr h₁ h₃ p r (List.append_inj' heq rfl).1

/-! ### The invariant -/

/-- A `pipewrite` at this point has put `a` bytes. -/
def Next.wrote (a : ℕ) : Next → Prop
  | .write i | .sleep (.write i) => i = a
  | .ret r => r = -1 ∨ r = a
  | _ => False

def Pc.wrote (a : ℕ) : Pc → Prop
  | .idle => True
  | .acquire e => e.next.wrote a
  | .run k | .wakeup _ _ k => k.wrote a
  | .dozing z | .asleep z => (Next.sleep z).wrote a

def Proc.wrote (a : ℕ) (pr : Proc) : Prop := pr.op = .write → pr.pc.wrote a

structure Hist (h : List Event) (s : Sys) : Prop where
  le : s.pipe.count ≤ PIPESIZE
  fifo : takes h ++ s.pipe.stored = puts h
  wrote : ∀ p, (s.proc p).wrote (appended p h)
  rets : Returns h

theorem wrote_entry {a : ℕ} {z : Sleep} (h : (Next.sleep z).wrote a) : z.entry.next.wrote a := by
  cases z <;> exact h

/-! ### Steps -/

/-- A step that leaves the ring alone, and no `pipewrite` with another count. -/
structure Quiet (s t : Sys) : Prop where
  data : t.pipe.data = s.pipe.data
  nread : t.pipe.nread = s.pipe.nread
  nwrite : t.pipe.nwrite = s.pipe.nwrite
  wrote : ∀ q a, (s.proc q).wrote a → (t.proc q).wrote a

theorem Quiet.count (h : Quiet s t) : t.pipe.count = s.pipe.count := by
  rw [Pipe.count, Pipe.count, h.nread, h.nwrite]

theorem Quiet.stored (h : Quiet s t) : t.pipe.stored = s.pipe.stored := by
  rw [Pipe.stored, Pipe.stored, h.count, h.nread, h.data]

theorem Quiet.trans {u : Sys} (h : Quiet s t) (h' : Quiet t u) : Quiet s u :=
  ⟨h'.data.trans h.data, h'.nread.trans h.nread, h'.nwrite.trans h.nwrite,
    fun q a hq => h'.wrote q a (h.wrote q a hq)⟩

theorem quiet_setProc {pr : Proc} (h : ∀ a, (s.proc p).wrote a → pr.wrote a) : Quiet s (s.setProc p pr) := by
  refine ⟨rfl, rfl, rfl, fun q a hq => ?_⟩
  rcases eq_or_ne q p with rfl | hne
  · rw [Sys.setProc_self]; exact h a hq
  · rw [Sys.setProc_ne _ hne]; exact hq

theorem quiet_setPc {pc : Pc} (h : ∀ a, (s.proc p).pc.wrote a → pc.wrote a) : Quiet s (s.setPc p pc) :=
  quiet_setProc fun a hq hop => h a (hq hop)

theorem quiet_setLock (lock : Option ℕ) : Quiet s (s.setLock lock) := ⟨rfl, rfl, rfl, fun _ _ h => h⟩

theorem quiet_shut (writable : Bool) : Quiet s (s.setPipe (s.pipe.shut writable)) := by
  cases writable <;> exact ⟨rfl, rfl, rfl, fun _ _ h => h⟩

theorem wake_wrote {a : ℕ} {c : Chan} {pc : Pc} (h : pc.wrote a) : (pc.wake c).wrote a := by
  cases pc with
  | asleep z =>
    rw [Pc.wake]
    split
    · exact wrote_entry h
    · exact h
  | _ => exact h

theorem kill_wrote {a : ℕ} {pr : Proc} (h : pr.wrote a) : pr.kill.wrote a := by
  intro hop
  have hpc := h hop
  rw [Proc.kill]
  dsimp only
  split
  · rename_i z hz
    rw [hz] at hpc
    exact wrote_entry hpc
  · exact hpc

/-- What a step in the kernel does to the ring: nothing, or one byte is put or taken, or a call
    returns. -/
inductive Moved (s : Sys) (p : ℕ) : Sys → Prop
  | quiet {t : Sys} (h : Quiet s t) (hret : ∀ r, (s.proc p).pc ≠ .run (.ret r)) : Moved s p t
  | put {i : ℕ} {ch : UInt8} (hpc : (s.proc p).pc = .run (.write i)) (hfull : s.pipe.full = false) :
      Moved s p ((s.setPipe (s.pipe.put ch)).setPc p (.run (.write (i + 1))))
  | take {i : ℕ} {pc : Pc} (hpc : (s.proc p).pc = .run (.copy i)) (hempty : s.pipe.empty = false) :
      Moved s p ((s.setPipe s.pipe.take).setPc p pc)
  | ret {r : ℤ} (hpc : (s.proc p).pc = .run (.ret r)) : Moved s p ((s.setLock none).setPc p .idle)

theorem moved_writeRound {i : ℕ} (hpc : (s.proc p).pc = .run (.write i)) : Moved s p (writeRound s p i) := by
  have hret : ∀ r, (s.proc p).pc ≠ .run (.ret r) := fun r => by rw [hpc]; rintro ⟨⟩
  have hend : Moved s p (s.setPc p (.wakeup .nread 0 (.ret i))) :=
    .quiet (quiet_setPc fun a ha => by rw [hpc] at ha; exact Or.inr (congrArg _ ha)) hret
  rw [writeRound]
  split
  · split
    · exact .quiet (quiet_setPc fun a _ => Or.inl rfl) hret
    · split
      · exact .quiet (quiet_setPc fun a ha => by rw [hpc] at ha; exact ha) hret
      · rename_i hfull
        split
        · exact hend
        · exact .put hpc (Bool.eq_false_iff.mpr hfull)
  · exact hend

theorem moved_copyRound {i : ℕ} (hpc : (s.proc p).pc = .run (.copy i)) : Moved s p (copyRound s p i) := by
  rw [copyRound]
  split
  · rename_i hgo
    split
    · exact .take hpc hgo.2
    · exact .take hpc hgo.2
  · exact .quiet (quiet_setPc fun a ha => by rw [hpc] at ha; exact ha.elim) fun r => by rw [hpc]; rintro ⟨⟩

theorem moved_exec {k : Next} (hpc : (s.proc p).pc = .run k) : Moved s p (s.exec p k) := by
  -- `piperead` and `pipeclose` are not at a point of `pipewrite`
  have hnot : (∀ a, ¬ k.wrote a) → (∀ r, k ≠ .ret r) → ∀ {u : Sys} {pc : Pc}, u.proc p = s.proc p → Quiet s u →
      Moved s p (u.setPc p pc) := by
    intro hk hr u pc hu hq
    refine .quiet (hq.trans (quiet_setPc fun a ha => ?_)) fun r he => ?_
    · rw [hu, hpc] at ha; exact absurd ha (hk a)
    · rw [hpc, Pc.run.injEq] at he; exact hr r he
  have hrefl : Quiet s s := ⟨rfl, rfl, rfl, fun _ _ h => h⟩
  cases k with
  | write i => exact moved_writeRound hpc
  | read =>
    have hmoved : ∀ pc, Moved s p (s.setPc p pc) := fun pc => hnot (fun _ => id) (by rintro r ⟨⟩) rfl hrefl
    rw [Sys.exec, readRound]
    split
    · split <;> exact hmoved _
    · exact hmoved _
  | copy i => exact moved_copyRound hpc
  | close writable => exact hnot (fun _ => id) (by rintro r ⟨⟩) rfl (quiet_shut writable)
  | sleep z =>
    refine .quiet ((quiet_setLock none).trans (quiet_setPc fun a ha => ?_)) fun r => by rw [hpc]; rintro ⟨⟩
    rw [show (s.setLock none).proc p = s.proc p from rfl, hpc] at ha
    exact ha
  | ret r => exact .ret hpc

theorem moved (hstep : move nproc s p = some t) : Moved s p t := by
  rw [move] at hstep
  split at hstep
  case h_1 => cases hstep
  case h_2 e hpc =>
    split at hstep
    · obtain rfl := Option.some.inj hstep
      refine .quiet ((quiet_setLock _).trans (quiet_setPc fun a ha => ?_)) fun r => by rw [hpc]; rintro ⟨⟩
      rw [show (s.setLock (some p)).proc p = s.proc p from rfl, hpc] at ha
      exact ha
    · cases hstep
  case h_3 k hpc => exact Option.some.inj hstep ▸ moved_exec hpc
  case h_4 c j k hpc =>
    have hret : ∀ r, (s.proc p).pc ≠ .run (.ret r) := fun r => by rw [hpc]; rintro ⟨⟩
    split at hstep
    · split at hstep
      · exact Option.some.inj hstep ▸ .quiet (quiet_setPc fun a ha => by rw [hpc] at ha; exact ha) hret
      · rename_i hjp
        split at hstep
        · cases hstep
        · obtain rfl := Option.some.inj hstep
          refine .quiet ((quiet_setPc fun a => wake_wrote).trans (quiet_setPc fun a ha => ?_)) hret
          rw [Sys.setPc_ne _ (Ne.symm hjp), hpc] at ha
          exact ha
    · exact Option.some.inj hstep ▸ .quiet (quiet_setPc fun a ha => by rw [hpc] at ha; exact ha) hret
  case h_5 z hpc =>
    exact Option.some.inj hstep ▸ .quiet (quiet_setPc fun a ha => by rw [hpc] at ha; exact ha) fun r => by
      rw [hpc]; rintro ⟨⟩
  case h_6 => cases hstep

/-! ### Runs -/

theorem Hist.quiet {h : List Event} (hs : Hist h s) (hq : Quiet s t) : Hist h t :=
  ⟨hq.count ▸ hs.le, hq.stored ▸ hs.fifo, fun p => hq.wrote p _ (hs.wrote p), hs.rets⟩

theorem Hist.start {h : List Event} {op : Op} {n : ℤ} {src : ℕ → Option UInt8} {dst : ℕ → Bool} {e : Entry}
    (hs : Hist h s) (he : op = .write → e = .write 0) :
    Hist (h ++ [.start p op]) (s.setProc p ((s.proc p).begin op n src dst e)) := by
  refine ⟨hs.le, ?_, fun q => ?_, hs.rets.snoc fun _ _ => by rintro ⟨⟩⟩
  · rw [takes_snoc, puts_snoc, Sys.setProc_pipe]
    simpa [Event.put?, Event.take?] using hs.fifo
  · rw [appended_snoc, Event.tally]
    rcases eq_or_ne q p with rfl | hne
    · rw [Sys.setProc_self, if_pos rfl]
      intro hop
      rw [Proc.begin, he hop]
      rfl
    · rw [Sys.setProc_ne _ hne, if_neg hne.symm]; exact hs.wrote q

theorem Hist.put {h : List Event} {i : ℕ} (hs : Hist h s) (hpc : (s.proc p).pc = .run (.write i))
    (hfull : s.pipe.full = false) (ch : UInt8) :
    Hist (h ++ [.put p ch]) ((s.setPipe (s.pipe.put ch)).setPc p (.run (.write (i + 1)))) := by
  have hlt : s.pipe.count < PIPESIZE :=
    lt_of_le_of_ne hs.le fun he => by rw [(full_iff _).mpr he] at hfull; cases hfull
  refine ⟨?_, ?_, fun q => ?_, hs.rets.snoc fun _ _ => by rintro ⟨⟩⟩
  · rw [Sys.setPc_pipe, Sys.setPipe_pipe, count_put hlt]; exact hlt
  · rw [takes_snoc, puts_snoc, Sys.setPc_pipe, Sys.setPipe_pipe, stored_put hlt, ← hs.fifo]
    simp [Event.put?, Event.take?]
  · rw [appended_snoc, Event.tally]
    rcases eq_or_ne q p with rfl | hne
    · rw [Sys.setPc_self, if_pos rfl]
      intro hop
      have hi := hs.wrote q hop
      rw [hpc] at hi
      exact congrArg (· + 1) hi
    · rw [Sys.setPc_ne _ hne, if_neg hne.symm]; exact hs.wrote q

theorem Hist.take {h : List Event} {i : ℕ} (hs : Hist h s) (hpc : (s.proc p).pc = .run (.copy i))
    (hempty : s.pipe.empty = false) (pc : Pc) :
    Hist (h ++ [.take p s.pipe.head]) ((s.setPipe s.pipe.take).setPc p pc) := by
  have hpos : 0 < s.pipe.count :=
    Nat.pos_of_ne_zero fun he => by rw [(empty_iff _).mpr he] at hempty; cases hempty
  refine ⟨?_, ?_, fun q => ?_, hs.rets.snoc fun _ _ => by rintro ⟨⟩⟩
  · have h1 := count_take hpos
    have h2 := hs.le
    rw [Sys.setPc_pipe, Sys.setPipe_pipe]; omega
  · rw [takes_snoc, puts_snoc, Sys.setPc_pipe, Sys.setPipe_pipe, ← hs.fifo, stored_take hpos]
    simp [Event.put?, Event.take?]
  · rw [appended_snoc]
    rcases eq_or_ne q p with rfl | hne
    · rw [Sys.setPc_self]
      intro hop
      have hi := hs.wrote q hop
      rw [hpc] at hi
      exact hi.elim
    · rw [Sys.setPc_ne _ hne]; exact hs.wrote q

theorem Hist.ret {h : List Event} {r : ℤ} (hs : Hist h s) (hpc : (s.proc p).pc = .run (.ret r)) :
    Hist (h ++ [.ret p (s.proc p).op r]) ((s.setLock none).setPc p .idle) := by
  refine ⟨hs.le, ?_, fun q => ?_, hs.rets.snoc fun q r' he => ?_⟩
  · rw [takes_snoc, puts_snoc, Sys.setPc_pipe, Sys.setLock_pipe]
    simpa [Event.put?, Event.take?] using hs.fifo
  · rw [appended_snoc]
    have hidle : Quiet s (s.setPc p .idle) := quiet_setPc fun _ _ => trivial
    exact hidle.wrote q _ (hs.wrote q)
  · obtain ⟨rfl, hop, rfl⟩ := Event.ret.inj he
    have hi := hs.wrote p hop
    rw [hpc] at hi
    exact hi

theorem Hist.moved {h : List Event} (hs : Hist h s) (hm : Moved s p t) :
    Hist (h ++ events s (.move p) t) t := by
  cases hm with
  | quiet hq hret =>
    have he : events s (.move p) t = [] := by
      rw [events, if_pos hq.nwrite, if_pos hq.nread]
      split
      · rename_i r hr; exact absurd hr (hret r)
      · rfl
    rw [he, List.append_nil]
    exact hs.quiet hq
  | @put i ch hpc hfull =>
    have he : events s (.move p) ((s.setPipe (s.pipe.put ch)).setPc p (.run (.write (i + 1)))) = [.put p ch] := by
      simp [events, Pipe.put, hpc]
    rw [he]
    exact hs.put hpc hfull ch
  | @take i pc hpc hempty =>
    have he : events s (.move p) ((s.setPipe s.pipe.take).setPc p pc) = [.take p s.pipe.head] := by
      simp [events, Pipe.take, hpc]
    rw [he]
    exact hs.take hpc hempty pc
  | @ret r hpc =>
    have he : events s (.move p) ((s.setLock none).setPc p .idle) = [.ret p (s.proc p).op r] := by
      simp [events, hpc]
    rw [he]
    exact hs.ret hpc

theorem hist_step {h : List Event} {l : Label} (hs : Hist h s) (hstep : step nproc s l = some t) :
    Hist (h ++ events s l t) t := by
  cases l with
  | write p n src =>
    rw [step] at hstep
    split at hstep
    · exact Option.some.inj hstep ▸ hs.start fun _ => rfl
    · cases hstep
  | read p n dst =>
    rw [step] at hstep
    split at hstep
    · exact Option.some.inj hstep ▸ hs.start (by rintro ⟨⟩)
    · cases hstep
  | close p writable =>
    rw [step] at hstep
    split at hstep
    · exact Option.some.inj hstep ▸ hs.start (by rintro ⟨⟩)
    · cases hstep
  | kill p =>
    rw [step] at hstep
    split at hstep
    · rw [events, List.append_nil]
      exact Option.some.inj hstep ▸ hs.quiet (quiet_setProc fun a => kill_wrote)
    · cases hstep
  | move p =>
    rw [step] at hstep
    split at hstep
    · exact hs.moved (Pipes.moved hstep)
    · cases hstep

/-- CORRECT (bounded FIFO): at every moment of every run at most `PIPESIZE` bytes are stored; the bytes
    taken so far, followed by those stored at `nread`, ..., `nwrite - 1`, are the bytes put so far; and
    every `pipewrite` that did not return -1 returned how many it put. -/
theorem pipe_fifo {data : ℕ → UInt8} {ls : List Label} (hrun : run (step nproc) (.init data) ls = some t) :
    t.pipe.count ≤ PIPESIZE ∧
    takes (trace (step nproc) events (.init data) ls) ++ t.pipe.stored =
      puts (trace (step nproc) events (.init data) ls) ∧
    Returns (trace (step nproc) events (.init data) ls) := by
  have hinit : Hist [] (.init data) := by
    have hcount : (Pipe.init data).count = 0 := (empty_iff _).mp (by rw [Pipe.empty]; exact decide_eq_true rfl)
    refine ⟨by rw [Sys.init, hcount]; exact Nat.zero_le _, ?_, fun _ _ => trivial, fun h₁ h₂ p r he => ?_⟩
    · rw [Sys.init, Pipe.stored, hcount]; rfl
    · simp at he
  have h := trace_inv (fun _ _ _ _ => hist_step) hinit hrun
  exact ⟨h.le, h.fifo, h.rets⟩

/-- Process 1 writes three bytes, and process 0 reads two of them. -/
def writeThenRead : List Label :=
  .write 1 3 (fun i => some (UInt8.ofNat i)) :: List.replicate 9 (.move 1) ++
    .read 0 2 (fun _ => true) :: List.replicate 9 (.move 0)

theorem pipe_fifo_writeThenRead : ∃ t, run (step 2) (.init fun _ => 0) writeThenRead = some t ∧
    takes (trace (step 2) events (.init fun _ => 0) writeThenRead) = [0, 1] ∧
    takes (trace (step 2) events (.init fun _ => 0) writeThenRead) ++ t.pipe.stored = [0, 1, 2] := by
  obtain ⟨t, ht⟩ := Option.isSome_iff_exists.mp
    (show (run (step 2) (.init fun _ => 0) writeThenRead).isSome = true by decide +kernel)
  refine ⟨t, ht, by decide +kernel, ?_⟩
  rw [(pipe_fifo ht).2.1]
  decide +kernel

end Minios.Pipes
