import Minios.Schemes.Run
import Minios.Log.Script

/-! `kernel/log.c`: group commit under every interleaving.

    Any number of processes call `begin_op`, `log_write` and `end_op`; the last `end_op` runs
    `commit()` without holding `log.lock`. A step is one lock-protected section of these functions
    or one buffer operation of `commit()`, and a run is any list of such steps.

    `sleep(&log, &log.lock)` is a step that changes nothing: the process stays where it was and
    tests again, at whatever moment, so no wakeup order is excluded.

        idle ──begin_op──▶ inOp ──end_op, others outstanding──▶ idle
                            │ log_write↺
                            └──end_op, last one──▶ commit ──one operation at a time──▶ idle

    History variables (`nextOp`, `cur`, `done`) record which operation wrote what; no test reads
    them. -/

namespace Minios.Log
open Schemes Function

/-- What happened since the last commit, operation by operation. -/
inductive Ev where
  | began (id : ℕ)
  | wrote (id b : ℕ)
  | ended (id : ℕ)
  deriving DecidableEq

/-- The operation an event belongs to. -/
def Ev.id : Ev → ℕ
  | .began i => i
  | .wrote i _ => i
  | .ended i => i

/-- A finished commit: the events since the one before it, and the blocks it `bwrite`-ed, each with
    the variable that held the buffer (`to`: log copy, `buf`: header, `dbuf`: home block). -/
structure Group where
  evs : List Ev
  wrote : List (Var × ℕ)

/-- Where a process is: outside any operation (perhaps asleep in `begin_op`), inside operation `id`,
    or in `commit()` with these variables, these writes made and these operations left. -/
inductive PState where
  | idle
  | inOp (id : ℕ)
  | commit (regs : Var → ℕ) (wrote : List (Var × ℕ)) (rest : List Instr)

/-- The panics of `begin_op`, `log_write` and `end_op`. -/
inductive Panic where | logCommitting | tooBig | outsideOfTrans
  deriving DecidableEq

/-- `struct log` without its lock, the pins the log holds on each block (its `bpin`s not yet
    `bunpin`ned), and the processes. -/
structure Sys where
  start : ℕ
  size : ℕ
  outstanding : ℤ
  committing : Bool
  lh : List ℕ
  pins : ℕ → ℕ
  procs : ℕ → PState
  panicked : Option Panic
  nextOp : ℕ
  cur : List Ev
  done : List Group

/-- After `initlog` on a clean disk. -/
def Sys.init (start size : ℕ) : Sys where
  start := start
  size := size
  outstanding := 0
  committing := false
  lh := []
  pins := fun _ => 0
  procs := fun _ => .idle
  panicked := none
  nextOp := 0
  cur := []
  done := []

/-- One round of `begin_op`'s loop by process `p`. -/
def beginOp (s : Sys) (p : ℕ) : Sys :=
  if s.committing then s
  else if (s.lh.length : ℤ) + (s.outstanding + 1) * MAXOPBLOCKS > LOGSIZE then s
  else
    { s with outstanding := s.outstanding + 1
             procs := update s.procs p (.inOp s.nextOp)
             nextOp := s.nextOp + 1
             cur := s.cur ++ [.began s.nextOp] }

/-- `log_write`'s update of `log.lh`: the scan stops at index `i`, the first entry equal to `b` or
    `n` if there is none; then `block[i] = b`, and `n++` if `i == n`. -/
def record (lh : List ℕ) (b : ℕ) : List ℕ :=
  let i := lh.idxOf b
  if i = lh.length then lh ++ [b] else lh.set i b

/-- `log_write(b)` by a process inside operation `id`. -/
def logWrite (s : Sys) (id b : ℕ) : Sys :=
  if LOGSIZE ≤ s.lh.length ∨ (s.size : ℤ) - 1 ≤ s.lh.length then { s with panicked := some .tooBig }
  else if s.outstanding < 1 then { s with panicked := some .outsideOfTrans }
  else
    { s with lh := record s.lh b
             pins := if s.lh.idxOf b = s.lh.length then update s.pins b (s.pins b + 1) else s.pins
             cur := s.cur ++ [.wrote id b] }

/-- The first critical section of `end_op` by process `p` inside operation `id`; the last operation
    out goes on to `commit()`. -/
def endOp (s : Sys) (p id : ℕ) : Sys :=
  let s := { s with outstanding := s.outstanding - 1 }
  if s.committing then { s with panicked := some .logCommitting }
  else if s.outstanding = 0 then
    { s with committing := true
             procs := update s.procs p (.commit (fun _ => 0) [] (commit s.start s.lh))
             cur := s.cur ++ [.ended id] }
  else { s with procs := update s.procs p .idle, cur := s.cur ++ [.ended id] }

/-- What `commit()` changes besides buffers: its variables, `log.lh`, the pins, and (recorded) the
    blocks it writes to disk. -/
structure Ctx where
  regs : Var → ℕ
  lh : List ℕ
  pins : ℕ → ℕ
  wrote : List (Var × ℕ)

/-- One buffer operation of `commit()`. -/
def Ctx.exec (c : Ctx) : Instr → Ctx
  | .bread v b => { c with regs := update c.regs v b }
  | .bwrite v => { c with wrote := c.wrote ++ [(v, c.regs v)] }
  | .bunpin v => { c with pins := update c.pins (c.regs v) (c.pins (c.regs v) - 1) }
  | .clear => { c with lh := [] }
  | .memmove _ _ => c
  | .sethead _ _ => c
  | .brelse _ => c

/-- The next operation of `commit()` by process `p`, or, when none is left, the second critical
    section of `end_op`. -/
def commitStep (s : Sys) (p : ℕ) (regs : Var → ℕ) (wrote : List (Var × ℕ)) : List Instr → Sys
  | i :: rest =>
    let c := Ctx.exec { regs := regs, lh := s.lh, pins := s.pins, wrote := wrote } i
    { s with lh := c.lh, pins := c.pins, procs := update s.procs p (.commit c.regs c.wrote rest) }
  | [] =>
    { s with committing := false
             procs := update s.procs p .idle
             cur := []
             done := s.done ++ [{ evs := s.cur, wrote := wrote }] }

/-- Which process moves, and what it calls. -/
inductive Label where
  | beginOp (p : ℕ)
  | logWrite (p b : ℕ)
  | endOp (p : ℕ)
  | commit (p : ℕ)
  deriving DecidableEq

/-- One step of the whole system. Each process calls `log_write` and `end_op` only inside its own
    operation; after a panic nothing moves. -/
def step (s : Sys) (l : Label) : Option Sys :=
  if s.panicked.isSome then none
  else match l with
    | .beginOp p => match s.procs p with
      | .idle => some (beginOp s p)
      | _ => none
    | .logWrite p b => match s.procs p with
      | .inOp id => some (logWrite s id b)
      | _ => none
    | .endOp p => match s.procs p with
      | .inOp id => some (endOp s p id)
      | _ => none
    | .commit p => match s.procs p with
      | .commit regs wrote rest => some (commitStep s p regs wrote rest)
      | _ => none

theorem step_cases {s t : Sys} {l : Label} (h : step s l = some t) : s.panicked = none ∧
    ((∃ p, l = .beginOp p ∧ s.procs p = .idle ∧ t = beginOp s p) ∨
     (∃ p b id, l = .logWrite p b ∧ s.procs p = .inOp id ∧ t = logWrite s id b) ∨
     (∃ p id, l = .endOp p ∧ s.procs p = .inOp id ∧ t = endOp s p id) ∨
     (∃ p regs wrote rest, l = .commit p ∧ s.procs p = .commit regs wrote rest ∧
        t = commitStep s p regs wrote rest)) := by
  unfold step at h
  split at h
  · cases h
  · rename_i hp
    refine ⟨by simpa using hp, ?_⟩
    cases l with
    | beginOp p =>
      dsimp only at h
      split at h
      · exact Or.inl ⟨p, rfl, ‹_›, by simpa using h.symm⟩
      · cases h
    | logWrite p b =>
      dsimp only at h
      split at h
      · exact Or.inr (Or.inl ⟨p, b, _, rfl, ‹_›, by simpa using h.symm⟩)
      · cases h
    | endOp p =>
      dsimp only at h
      split at h
      · exact Or.inr (Or.inr (Or.inl ⟨p, _, rfl, ‹_›, by simpa using h.symm⟩))
      · cases h
    | commit p =>
      dsimp only at h
      split at h
      · exact Or.inr (Or.inr (Or.inr ⟨p, _, _, _, rfl, ‹_›, by simpa using h.symm⟩))
      · cases h

/-- Absorption: a block already listed is not listed again. -/
theorem record_eq (lh : List ℕ) (b : ℕ) : record lh b = if b ∈ lh then lh else lh ++ [b] := by
  unfold record
  by_cases hb : b ∈ lh
  · have hlt := List.idxOf_lt_length_of_mem hb
    rw [if_pos hb]
    simp only [if_neg hlt.ne]
    conv_rhs => rw [← List.set_getElem_self hlt]
    rw [List.getElem_idxOf]
  · rw [if_neg hb]
    simp only [List.idxOf_eq_length hb, if_true]

/-! ### What `commit()` does to pins and the in-memory header -/

/-- `commit()` starts with `log.lh = lh` and one pin on each listed block. -/
def Ctx.init (lh : List ℕ) : Ctx where
  regs := fun _ => 0
  lh := lh
  pins := fun b => if b ∈ lh then 1 else 0
  wrote := []

theorem exec_lh (c : Ctx) (i : Instr) : (c.exec i).lh = c.lh ∨ (c.exec i).lh = [] := by
  cases i <;> simp [Ctx.exec]

theorem foldl_exec_lh : ∀ (is : List Instr) (c : Ctx),
    (is.foldl Ctx.exec c).lh = c.lh ∨ (is.foldl Ctx.exec c).lh = []
  | [], _ => Or.inl rfl
  | i :: is, c => by
      rw [List.foldl_cons]
      rcases foldl_exec_lh is (c.exec i) with h | h
      · rw [h]; exact exec_lh c i
      · exact Or.inr h

theorem foldl_exec_writeLog (start : ℕ) : ∀ (lh : List ℕ) (tail : ℕ) (c : Ctx),
    ((writeLog start tail lh).foldl Ctx.exec c).pins = c.pins ∧
    ∀ b, (Var.dbuf, b) ∈ ((writeLog start tail lh).foldl Ctx.exec c).wrote ↔ (Var.dbuf, b) ∈ c.wrote
  | [], _, _ => ⟨rfl, fun _ => Iff.rfl⟩
  | x :: xs, tail, c => by
      simp only [writeLog, List.foldl_cons]
      obtain ⟨ih1, ih2⟩ := foldl_exec_writeLog start xs (tail + 1)
        ((((((c.exec (.bread .to (start + tail + 1))).exec (.bread .frm x)).exec
          (.memmove .to .frm)).exec (.bwrite .to)).exec (.brelse .frm)).exec (.brelse .to))
      refine ⟨ih1, fun b => (ih2 b).trans ?_⟩
      simp [Ctx.exec]

/-- `install_trans(0)` writes each listed block home and drops one pin on it. -/
theorem foldl_exec_installTrans (start : ℕ) : ∀ (lh : List ℕ) (tail : ℕ) (c : Ctx),
    (∀ b, ((installTrans start false tail lh).foldl Ctx.exec c).pins b = c.pins b - lh.count b) ∧
    ∀ b, (Var.dbuf, b) ∈ ((installTrans start false tail lh).foldl Ctx.exec c).wrote ↔
      (Var.dbuf, b) ∈ c.wrote ∨ b ∈ lh
  | [], _, _ => ⟨fun _ => rfl, fun _ => by simp [installTrans]⟩
  | x :: xs, tail, c => by
      simp only [installTrans, List.foldl_cons, Bool.false_eq_true, if_false, List.cons_append,
        List.nil_append]
      set c1 := (((((((c.exec (.bread .lbuf (start + tail + 1))).exec (.bread .dbuf x)).exec
        (.memmove .dbuf .lbuf)).exec (.bwrite .dbuf)).exec (.bunpin .dbuf)).exec
          (.brelse .lbuf)).exec (.brelse .dbuf)) with hc1
      have hp : c1.pins = update c.pins x (c.pins x - 1) := by simp [hc1, Ctx.exec]
      have hw : c1.wrote = c.wrote ++ [(.dbuf, x)] := by simp [hc1, Ctx.exec]
      obtain ⟨ih1, ih2⟩ := foldl_exec_installTrans start xs (tail + 1) c1
      refine ⟨fun b => ?_, fun b => ?_⟩
      · rw [ih1 b, hp, List.count_cons]
        by_cases hb : b = x
        · subst hb; simp; omega
        · simp [hb, Ne.symm hb]
      · rw [ih2 b, hw]
        simp [or_assoc]

theorem foldl_exec_writeHead (start : ℕ) (lh : List ℕ) (c : Ctx) :
    ((writeHead start lh).foldl Ctx.exec c).pins = c.pins ∧
    ∀ b, (Var.dbuf, b) ∈ ((writeHead start lh).foldl Ctx.exec c).wrote ↔ (Var.dbuf, b) ∈ c.wrote := by
  refine ⟨rfl, fun b => ?_⟩
  simp [writeHead, Ctx.exec]

/-- A whole `commit()` empties the header, drops every pin and writes home exactly the listed
    blocks. -/
theorem foldl_exec_commit (start : ℕ) {lh : List ℕ} (hnd : lh.Nodup) :
    ((commit start lh).foldl Ctx.exec (Ctx.init lh)).lh = [] ∧
    (∀ b, ((commit start lh).foldl Ctx.exec (Ctx.init lh)).pins b = 0) ∧
    ∀ b, (Var.dbuf, b) ∈ ((commit start lh).foldl Ctx.exec (Ctx.init lh)).wrote ↔ b ∈ lh := by
  by_cases hne : lh = []
  · subst hne
    refine ⟨rfl, fun b => rfl, fun b => ?_⟩
    simp [commit, Ctx.init]
  · rw [commit, if_neg hne]
    simp only [List.foldl_append, List.foldl_cons, List.foldl_nil]
    set c1 := (writeLog start 0 lh).foldl Ctx.exec (Ctx.init lh)
    set c2 := (writeHead start lh).foldl Ctx.exec c1
    set c3 := (installTrans start false 0 lh).foldl Ctx.exec c2
    obtain ⟨p1, w1⟩ := foldl_exec_writeLog start lh 0 (Ctx.init lh)
    obtain ⟨p2, w2⟩ := foldl_exec_writeHead start lh c1
    obtain ⟨p3, w3⟩ := foldl_exec_installTrans start lh 0 c2
    obtain ⟨p4, w4⟩ := foldl_exec_writeHead start [] (c3.exec .clear)
    refine ⟨rfl, fun b => ?_, fun b => ?_⟩
    · rw [p4]
      show c3.pins b = 0
      rw [p3 b, p2, p1]
      show (if b ∈ lh then 1 else 0) - lh.count b = 0
      by_cases hb : b ∈ lh
      · rw [if_pos hb, List.count_eq_one_of_mem hnd hb]
      · rw [if_neg hb, Nat.zero_sub]
    · rw [w4 b]
      show (Var.dbuf, b) ∈ c3.wrote ↔ _
      rw [w3 b, w2 b, w1 b]
      simp [Ctx.init]

end Minios.Log
