import Minios.Uart.Tx

/-! `kernel/uart.c`: the output is what was put in, in order, and nobody sleeps for nothing.

    At every moment the bytes that `uartputc` has accepted are

        sent to THR  ++  taken, but not yet sent  ++  stored: [uart_tx_r] ... [uart_tx_w - 1]

    A process sleeps only while the buffer is full. Whoever takes a byte ends that, with `uart_tx_lock` held, and then
    OWES a wakeup to all the sleepers that its walk over `proc[]` has not passed yet. -/

namespace Minios.Uart
open Schemes Function

variable {nproc p q : ℕ} {s t : Sys} {h e : List Event} {pc : Pc}

def accepted (h : List Event) : List UInt8 := h.filterMap Event.accepted

def sent (h : List Event) : List UInt8 := h.filterMap Event.sent

/-! ### The buffer -/

/-- `uart_tx_w - uart_tx_r` -/
def Sys.count (s : Sys) : ℕ := (s.w - s.r).toNat

/-- The bytes at `uart_tx_r`, ..., `uart_tx_w - 1`. -/
def Sys.stored (s : Sys) : List UInt8 := queue UART_TX_BUF_SIZE s.buf s.r s.w

theorem full_iff (s : Sys) : s.full = true ↔ s.count = UART_TX_BUF_SIZE := by
  simp only [Sys.full, Sys.count, UART_TX_BUF_SIZE, decide_eq_true_eq]
  bv_omega

theorem count_put (hroom : s.count < UART_TX_BUF_SIZE) (c : UInt8) : (s.put c).count = s.count + 1 := by
  simp only [Sys.count, Sys.put, UART_TX_BUF_SIZE] at *
  bv_omega

theorem count_take (hne : s.w ≠ s.r) : s.count = s.take.count + 1 := by
  simp only [Sys.count, Sys.take] at *
  bv_omega

/-- PUT: the byte goes to the end, and overwrites none that is stored. -/
theorem stored_put (hroom : s.count < UART_TX_BUF_SIZE) (c : UInt8) : (s.put c).stored = s.stored ++ [c] := by
  have hdvd : UART_TX_BUF_SIZE ∣ 2 ^ 64 := by decide
  have hlt : (s.w - s.r).toNat + 1 < 2 ^ 64 := by
    simp only [Sys.count, UART_TX_BUF_SIZE] at hroom
    omega
  show queue UART_TX_BUF_SIZE (update s.buf (s.w.toNat % UART_TX_BUF_SIZE) c) s.r (s.w + 1) = _
  rw [queue_push hdvd hlt, queue_update hdvd hroom, update_self]
  rfl

/-- TAKE: the byte comes from the front. -/
theorem stored_take (hne : s.w ≠ s.r) : s.stored = s.head :: s.take.stored :=
  queue_pop (by decide) hne.symm

/-! ### The invariant -/

/-- Does one at this point hold `uart_tx_lock`? -/
def Pc.holds : Pc → Bool
  | .run _ | .wakeup _ _ | .spin => true
  | _ => false

/-- Has it gone to sleep? -/
def Pc.bound : Pc → Bool
  | .dozing _ | .asleep _ => true
  | _ => false

def Entry.inPutc : Entry → Bool
  | .enter _ | .check _ => true
  | .start => false

/-- Is it at a point of `uartputc` from where it may go to sleep? -/
def Pc.inPutc : Pc → Bool
  | .acquire k | .run (.go k) => k.inPutc
  | .dozing _ | .asleep _ => true
  | _ => false

/-- Does it still have to wake `q`? -/
def Pc.owes (q : ℕ) : Pc → Prop
  | .wakeup _ j => j ≤ q
  | _ => False

/-- The byte that it has taken from the buffer, and not yet given to the device. -/
def Pc.taken : Pc → List UInt8
  | .wakeup c _ | .run (.send c) => [c]
  | _ => []

/-- The byte on its way from the buffer to the device. -/
def Sys.taken (s : Sys) : List UInt8 := match s.lock with
  | some p => (s.pc p).taken
  | none => []

structure Inv (nproc : ℕ) (h : List Event) (s : Sys) : Prop where
  proc : ∀ q, (s.pc q).inPutc = true → q < nproc
  lock : ∀ q, s.lock = some q ↔ (s.pc q).holds = true
  sleep : ∀ q, (s.pc q).bound = true → s.full = true ∨ ∃ p, s.lock = some p ∧ (s.pc p).owes q
  room : s.count ≤ UART_TX_BUF_SIZE
  fifo : sent h ++ (s.taken ++ s.stored) = accepted h

theorem Pc.inPutc_of_bound (hb : pc.bound = true) : pc.inPutc = true := by
  cases pc <;> first | rfl | cases hb

theorem Inv.init (nproc : ℕ) (buf : ℕ → UInt8) : Inv nproc [] (Sys.init buf) where
  proc _ hq := nomatch hq
  lock _ := ⟨nofun, nofun⟩
  sleep _ hq := nomatch hq
  room := by rw [Sys.count, Sys.init, BitVec.sub_self]; exact Nat.zero_le _
  fifo := queue_self ..

theorem Inv.alone (hi : Inv nproc h s) (hp : (s.pc p).holds = true) (hne : q ≠ p) : (s.pc q).holds = false := by
  by_contra hq
  rw [Bool.not_eq_false, ← hi.lock q, (hi.lock p).mpr hp, Option.some.injEq] at hq
  exact hne hq.symm

theorem Inv.taken_eq (hi : Inv nproc h s) (hp : (s.pc p).holds = true) : s.taken = (s.pc p).taken := by
  rw [Sys.taken, (hi.lock p).mpr hp]

theorem Inv.taken_free (hfree : s.lock = none) : s.taken = [] := by
  rw [Sys.taken, hfree]

/-- While the lock is free, or its holder owes nothing, sleepers have a full buffer. -/
theorem Inv.full_of_bound (hi : Inv nproc h s) (howes : ∀ p, s.lock = some p → ¬ (s.pc p).owes q)
    (hb : (s.pc q).bound = true) : s.full = true := by
  refine (hi.sleep q hb).resolve_right ?_
  rintro ⟨p, hp, ho⟩
  exact howes p hp ho

/-! ### Frames -/

/-- A step of one that does not hold the lock, before or after. -/
theorem Inv.other (hi : Inv nproc h s) (h1 : (s.pc p).holds = false) (h2 : pc.holds = false)
    (hputc : pc.inPutc = true → p < nproc) (hbound : pc.bound = true → (s.pc p).bound = true) :
    Inv nproc h (s.setPc p pc) := by
  have hp : s.lock ≠ some p := fun hl => by
    rw [hi.lock p, h1] at hl; cases hl
  refine ⟨fun q hq => ?_, fun q => ?_, fun q hq => ?_, hi.room, ?_⟩
  · rcases eq_or_ne q p with rfl | hne
    · rw [Sys.setPc_self] at hq; exact hputc hq
    · rw [Sys.setPc_ne _ hne] at hq; exact hi.proc q hq
  · rcases eq_or_ne q p with rfl | hne
    · rw [Sys.setPc_self, h2, ← h1]; exact hi.lock q
    · rw [Sys.setPc_ne _ hne]; exact hi.lock q
  · have hq' : (s.pc q).bound = true := by
      rcases eq_or_ne q p with rfl | hne
      · rw [Sys.setPc_self] at hq; exact hbound hq
      · rwa [Sys.setPc_ne _ hne] at hq
    refine (hi.sleep q hq').imp_right ?_
    rintro ⟨m, hm, howes⟩
    refine ⟨m, hm, ?_⟩
    rw [Sys.setPc_ne _ (by rintro rfl; exact hp hm)]
    exact howes
  · have htaken : (s.setPc p pc).taken = s.taken := by
      rw [Sys.taken, Sys.taken, show (s.setPc p pc).lock = s.lock from rfl]
      cases hl : s.lock with
      | none => rfl
      | some m =>
        have hne : m ≠ p := by rintro rfl; exact hp hl
        exact congrArg Pc.taken (s.setPc_ne hne pc)
    rw [htaken]
    exact hi.fifo

/-- A step of the one that has the lock, before or after. -/
theorem Inv.own (hi : Inv nproc h s) (halone : ∀ q, q ≠ p → (s.pc q).holds = false) (hpc : t.pc = update s.pc p pc)
    (hlock : t.lock = if pc.holds then some p else none) (hputc : pc.inPutc = true → p < nproc)
    (hself : pc.bound = true → t.full = true)
    (hsleep : ∀ q, q ≠ p → (s.pc q).bound = true → t.full = true ∨ pc.owes q) (hroom : t.count ≤ UART_TX_BUF_SIZE)
    (hfifo : sent (h ++ e) ++ (pc.taken ++ t.stored) = accepted (h ++ e)) : Inv nproc (h ++ e) t := by
  refine ⟨fun q hq => ?_, fun q => ?_, fun q hq => ?_, hroom, ?_⟩
  · rcases eq_or_ne q p with rfl | hne
    · rw [hpc, update_self] at hq; exact hputc hq
    · rw [hpc, update_of_ne hne] at hq; exact hi.proc q hq
  · rcases eq_or_ne q p with rfl | hne
    · rw [hlock, hpc, update_self]; split <;> simp_all
    · rw [hlock, hpc, update_of_ne hne, halone q hne]; split <;> simp [hne.symm]
  · rcases eq_or_ne q p with rfl | hne
    · rw [hpc, update_self] at hq; exact Or.inl (hself hq)
    · rw [hpc, update_of_ne hne] at hq
      refine (hsleep q hne hq).imp_right fun howes => ⟨p, ?_, by rwa [hpc, update_self]⟩
      have hholds : pc.holds = true := by
        cases pc <;> first | rfl | cases howes
      rw [hlock, if_pos hholds]
  · have htaken : t.taken = pc.taken := by
      rw [Sys.taken, hlock, hpc]
      cases hh : pc.holds with
      | true => simp only [if_true, update_self]
      | false => cases pc <;> first | rfl | cases hh
    rw [htaken]
    exact hfifo

/-- The holder of the lock goes on, without a change to the buffer. -/
theorem Inv.goto (hi : Inv nproc h s) (hp : (s.pc p).holds = true) (hholds : pc.holds = true)
    (hputc : pc.inPutc = true → (s.pc p).inPutc = true)
    (howes : ∀ q, q ≠ p → (s.pc q).bound = true → (s.pc p).owes q → pc.owes q)
    (hfifo : (s.pc p).taken = pc.taken) : Inv nproc h (s.setPc p pc) := by
  have hnone : Inv nproc (h ++ []) (s.setPc p pc) := by
    refine hi.own (fun q => hi.alone hp) rfl ?_ (fun hc => hi.proc p (hputc hc)) (fun hb => ?_) (fun q hq hb => ?_)
      hi.room ?_
    · rw [if_pos hholds]
      exact (hi.lock p).mpr hp
    · cases pc <;> first | (cases hb; done) | cases hholds
    · refine (hi.sleep q hb).imp_right ?_
      rintro ⟨m, hm, ho⟩
      rw [(hi.lock p).mpr hp, Option.some.injEq] at hm
      exact howes q hq hb (hm ▸ ho)
    · rw [List.append_nil, ← hfifo, ← hi.taken_eq hp]
      exact hi.fifo
  rwa [List.append_nil] at hnone

/-! ### Steps -/

theorem sent_append (h e : List Event) : sent (h ++ e) = sent h ++ sent e := List.filterMap_append

theorem accepted_append (h e : List Event) : accepted (h ++ e) = accepted h ++ accepted e := List.filterMap_append

/-- What the holder of the lock does under its next point. -/
theorem inv_exec {ready : Bool} {k : Next} (hi : Inv nproc h s) (hp : s.pc p = .run k) :
    Inv nproc (h ++ events s (.move p ready) (s.exec p ready k)) (s.exec p ready k) := by
  have hholds : (s.pc p).holds = true := by rw [hp]; rfl
  have halone : ∀ q, q ≠ p → (s.pc q).holds = false := fun q => hi.alone hholds
  have hlock : s.lock = some p := (hi.lock p).mpr hholds
  have howes : ∀ q, ¬ (s.pc p).owes q := fun q ho => by rw [hp] at ho; exact ho
  have hfull : ∀ q, (s.pc q).bound = true → s.full = true := fun q => hi.full_of_bound fun m hm => by
    rw [hlock, Option.some.injEq] at hm
    exact hm ▸ howes q
  have hfifo := hi.fifo
  rw [hi.taken_eq hholds, hp] at hfifo
  match k with
  | .go (.enter c) =>
    rw [events, hp, List.append_nil, Sys.exec]
    split
    · exact hi.goto hholds rfl nofun (fun q _ _ ho => (howes q ho).elim) (by rw [hp]; rfl)
    · exact hi.goto hholds rfl (fun _ => by rw [hp]; rfl) (fun q _ _ ho => (howes q ho).elim) (by rw [hp]; rfl)
  | .go (.check c) =>
    rw [events, hp, Sys.exec]
    simp only
    split
    · -- the lock is released in `sleep`
      rename_i hf
      exact hi.own halone rfl rfl (fun _ => hi.proc p (by rw [hp]; rfl)) (fun _ => hf) (fun _ _ _ => Or.inl hf) hi.room
        (by rw [List.append_nil]; exact hfifo)
    · rename_i hf
      have hroom : s.count < UART_TX_BUF_SIZE := lt_of_le_of_ne hi.room fun hc => hf ((full_iff s).mpr hc)
      refine hi.own halone rfl hlock nofun nofun (fun q _ hb => absurd (hfull q hb) hf) ?_ ?_
      · show (s.put c).count ≤ _
        rw [count_put hroom]
        exact hroom
      · show sent (h ++ [.accept c]) ++ (s.put c).stored = _
        rw [sent_append, accepted_append, stored_put hroom, ← hfifo]
        exact List.append_assoc .. ▸ by simp [sent, accepted, Event.sent, Event.accepted, Pc.taken]
  | .go .start =>
    have hev : ∀ t, events s (.move p ready) t = [] := fun t => by rw [events, hp]
    rw [hev, Sys.exec]
    have hret : Inv nproc (h ++ []) (s.setPc p (.run .ret)) := by
      rw [List.append_nil]
      exact hi.goto hholds rfl nofun (fun q _ _ ho => (howes q ho).elim) (by rw [hp]; rfl)
    split
    · exact hret
    · rename_i hne
      have hne : s.w ≠ s.r := fun he => hne (decide_eq_true he)
      split
      · exact hret
      · -- a byte is taken: from here on everybody is owed a wakeup
        refine hi.own halone rfl hlock nofun nofun (fun q _ _ => Or.inr (Nat.zero_le q)) ?_ ?_
        · have := count_take hne
          have := hi.room
          show s.take.count ≤ _
          omega
        · rw [List.append_nil]
          show sent h ++ (s.head :: s.take.stored) = accepted h
          rw [← stored_take hne]
          exact hfifo
  | .send c =>
    rw [events, hp, Sys.exec]
    refine hi.own halone rfl hlock nofun nofun (fun q _ hb => Or.inl (hfull q hb)) hi.room ?_
    rw [sent_append, accepted_append, ← hfifo]
    simp [sent, accepted, Event.sent, Event.accepted, Pc.taken, Sys.stored, Sys.setPc]
  | .ret =>
    rw [events, hp, Sys.exec]
    exact hi.own halone rfl rfl nofun nofun (fun q _ hb => Or.inl (hfull q hb)) hi.room
      (by rw [List.append_nil]; exact hfifo)

theorem inv_wake (hi : Inv nproc h s) (hnd : (s.pc q).isDozing = false) : Inv nproc h (s.setPc q (s.pc q).wake) := by
  have hsame : (s.pc q).wake = s.pc q → Inv nproc h (s.setPc q (s.pc q).wake) := fun he => by
    rw [he, Sys.setPc, update_eq_self]
    exact hi
  cases hpc : s.pc q with
  | asleep c => exact hi.other (by rw [hpc]; rfl) rfl (fun _ => hi.proc q (by rw [hpc]; rfl)) nofun
  | dozing c => rw [hpc] at hnd; cases hnd
  | _ => rw [hpc] at hsame; exact hsame rfl

theorem inv_wakeup {c : UInt8} {j : ℕ} (hi : Inv nproc h s) (hp : s.pc p = .wakeup c j) (hj : j ≠ p)
    (hnd : (s.pc j).isDozing = false) : Inv nproc h ((s.setPc j (s.pc j).wake).setPc p (.wakeup c (j + 1))) := by
  have hp' : (s.setPc j (s.pc j).wake).pc p = .wakeup c j := by
    rw [Sys.setPc_ne _ hj.symm, hp]
  have hawake : ((s.setPc j (s.pc j).wake).pc j).bound = false := by
    rw [Sys.setPc_self]
    cases hpc : s.pc j with
    | dozing c => rw [hpc] at hnd; cases hnd
    | _ => rfl
  refine (inv_wake hi hnd).goto (by rw [hp']; rfl) rfl nofun (fun q _ hb ho => ?_) (by rw [hp']; rfl)
  rw [hp'] at ho
  have hne : j ≠ q := by
    rintro rfl
    rw [hawake] at hb; cases hb
  have hle : j ≤ q := ho
  exact Nat.lt_of_le_of_ne hle hne

theorem inv_move {ready : Bool} (hi : Inv nproc h s) (hs : move nproc s p ready = some t) :
    Inv nproc (h ++ events s (.move p ready) t) t := by
  rw [move] at hs
  cases hpc : s.pc p with
  | idle => rw [hpc] at hs; cases hs
  | asleep c => rw [hpc] at hs; cases hs
  | spin => rw [hpc] at hs; cases hs
  | acquire k =>
    rw [hpc] at hs
    simp only [Option.ite_none_right_eq_some, Option.some.injEq] at hs
    obtain ⟨hfree, rfl⟩ := hs
    have hnobody : ∀ q, s.lock ≠ some q := fun q => by rw [hfree]; nofun
    rw [events, hpc]
    refine hi.own (fun q _ => ?_) rfl rfl (fun hc => hi.proc p (by rw [hpc]; exact hc)) nofun
      (fun q _ hb => Or.inl (hi.full_of_bound (fun m hm => absurd hm (hnobody m)) hb)) hi.room ?_
    · rw [← Bool.not_eq_true, ← hi.lock q]
      exact hnobody q
    · have hfifo := hi.fifo
      rw [Inv.taken_free hfree] at hfifo
      rw [List.append_nil]
      exact hfifo
  | run k =>
    rw [hpc] at hs
    obtain rfl := Option.some.inj hs
    exact inv_exec hi hpc
  | wakeup c j =>
    have hholds : (s.pc p).holds = true := by rw [hpc]; rfl
    have hev : events s (.move p ready) t = [] := by rw [events, hpc]
    rw [hev, List.append_nil]
    rw [hpc] at hs
    simp only at hs
    split at hs
    · split at hs
      · obtain rfl := Option.some.inj hs
        rename_i hj
        refine hi.goto hholds rfl nofun (fun q hq _ ho => ?_) (by rw [hpc]; rfl)
        rw [hpc] at ho
        have hle : j ≤ q := ho
        exact Nat.lt_of_le_of_ne hle fun he => hq (he ▸ hj)
      · rename_i hj
        simp only [Option.ite_none_left_eq_some, Bool.not_eq_true, Option.some.injEq] at hs
        obtain ⟨hnd, rfl⟩ := hs
        exact inv_wakeup hi hpc hj hnd
    · -- the walk is over, and it has passed every process
      rename_i hj
      obtain rfl := Option.some.inj hs
      refine hi.goto hholds rfl nofun (fun q _ hb ho => ?_) (by rw [hpc]; rfl)
      rw [hpc] at ho
      have hle : j ≤ q := ho
      exact absurd (hi.proc q (Pc.inPutc_of_bound hb)) (by omega)
  | dozing c =>
    have hev : events s (.move p ready) t = [] := by rw [events, hpc]
    rw [hpc] at hs
    obtain rfl := Option.some.inj hs
    rw [hev, List.append_nil]
    exact hi.other (by rw [hpc]; rfl) rfl (fun _ => hi.proc p (by rw [hpc]; rfl)) fun _ => by rw [hpc]; rfl

theorem inv_step {l : Label} (hi : Inv nproc h s) (hs : step nproc s l = some t) :
    Inv nproc (h ++ events s l t) t := by
  cases l with
  | move p ready => exact inv_move hi hs
  | putc p c =>
    simp only [step, Option.ite_none_right_eq_some, Option.some.injEq] at hs
    obtain ⟨⟨hp, hidle⟩, rfl⟩ := hs
    refine (List.append_nil h).symm ▸ ?_
    exact hi.other (by rw [hidle]; rfl) rfl (fun _ => hp) nofun
  | intr p =>
    simp only [step, Option.ite_none_right_eq_some, Option.some.injEq] at hs
    obtain ⟨⟨-, hidle⟩, rfl⟩ := hs
    refine (List.append_nil h).symm ▸ ?_
    exact hi.other (by rw [hidle]; rfl) rfl nofun nofun
  | kill p =>
    simp only [step, Option.ite_none_right_eq_some, Option.some.injEq] at hs
    obtain ⟨⟨-, hnd⟩, rfl⟩ := hs
    refine (List.append_nil h).symm ▸ ?_
    exact inv_wake hi hnd
  | panic =>
    obtain rfl := Option.some.inj hs
    refine (List.append_nil h).symm ▸ ?_
    exact ⟨hi.proc, hi.lock, hi.sleep, hi.room, hi.fifo⟩

theorem inv_run {buf : ℕ → UInt8} {ls : List Label} (hrun : run (step nproc) (Sys.init buf) ls = some s) :
    Inv nproc (trace (step nproc) events (Sys.init buf) ls) s := by
  have hinv := trace_inv (I := Inv nproc) (fun _ _ _ _ => inv_step) (Inv.init nproc buf) hrun
  rwa [List.nil_append] at hinv

/-- CORRECT (transmit buffer): in every run, the bytes written to THR are the first ones of those accepted, in order,
    and the others are on their way or stored. There are never more than `UART_TX_BUF_SIZE` in the buffer, and while
    `uart_tx_lock` is free, nobody sleeps on `&uart_tx_r` unless it is full. -/
theorem uart_lossless_fifo {buf : ℕ → UInt8} {ls : List Label} (hrun : run (step nproc) (Sys.init buf) ls = some s) :
    let h := trace (step nproc) events (Sys.init buf) ls
    sent h <+: accepted h ∧ sent h ++ (s.taken ++ s.stored) = accepted h ∧ s.count ≤ UART_TX_BUF_SIZE ∧
      (s.lock = none → ∀ q c, s.pc q = .asleep c → s.full = true) := by
  have hi := inv_run hrun
  refine ⟨⟨_, hi.fifo⟩, hi.fifo, hi.room, fun hfree q c hq => ?_⟩
  refine hi.full_of_bound (fun p hp => ?_) (by rw [hq]; rfl)
  rw [hfree] at hp
  cases hp

/-- A process puts bytes until it sleeps, with a device that is not ready; then it is, and there is an interrupt. -/
def fillAndSend : List Label :=
  (List.range 32).flatMap (fun k => .putc 0 (UInt8.ofNat k) :: List.replicate 5 (.move 0 false)) ++
  [.putc 0 99, .move 0 false, .move 0 false, .move 0 false, .move 0 false] ++
  [.intr 1, .move 1 true, .move 1 true, .move 1 true, .move 1 true, .move 1 true, .move 1 false, .move 1 true]

theorem uart_lossless_fifo_full : ∃ s, run (step 1) (Sys.init fun _ => 0) fillAndSend = some s ∧
    sent (trace (step 1) events (Sys.init fun _ => 0) fillAndSend) = [0] ∧
    sent (trace (step 1) events (Sys.init fun _ => 0) fillAndSend) <+:
      accepted (trace (step 1) events (Sys.init fun _ => 0) fillAndSend) ∧ s.count ≤ UART_TX_BUF_SIZE := by
  have hsome : (run (step 1) (Sys.init fun _ => 0) fillAndSend).isSome = true := by decide +kernel
  obtain ⟨s, hs⟩ := Option.isSome_iff_exists.mp hsome
  have hfifo := uart_lossless_fifo hs
  exact ⟨s, hs, by decide +kernel, hfifo.1, hfifo.2.2.1⟩

end Minios.Uart
