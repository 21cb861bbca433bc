import Minios.Log.Discipline

/-! `kernel/log.c`: the space `begin_op` reserves and the space `log_write` has.

    `begin_op` admits operations as long as `n + (outstanding + 1) * MAXOPBLOCKS <= LOGSIZE`, that is
    as if the log had room for `LOGSIZE` blocks. mkfs makes a log of `LOGSIZE` blocks, one of which
    is the header, and `log_write` panics as soon as `n >= log.size - 1` — also when the block would
    be absorbed. So three operations that use their full allowance hit the panic at their 30th
    block. The exact condition: no `log_write` is called once the operations begun since the last
    commit have together logged `LOGSIZE - 1` distinct blocks. -/

namespace Minios.Log
open Schemes Function

/-- The blocks log-written in these events. -/
def written (evs : List Ev) : List ℕ :=
  evs.filterMap fun | .wrote _ b => some b | _ => none

/-- The blocks operation `id` log-wrote in these events. -/
def writtenBy (id : ℕ) (evs : List Ev) : List ℕ :=
  evs.filterMap fun | .wrote i b => if i = id then some b else none | _ => none

/-- How many distinct blocks the operation of process `p` has logged once it logs `b`. -/
def opBlocks (s : Sys) (p b : ℕ) : ℕ := match s.procs p with
  | .inOp id => (b :: writtenBy id s.cur).toFinset.card
  | _ => 0

/-- The operation making this call stays within `MAXOPBLOCKS` distinct blocks. -/
def opBound (s : Sys) : Label → Prop
  | .logWrite p b => opBlocks s p b ≤ MAXOPBLOCKS
  | _ => True

/-- `log_write` is called only while the operations begun since the last commit have logged fewer
    than `LOGSIZE - 1` distinct blocks. -/
def groupBound (s : Sys) : Label → Prop
  | .logWrite _ _ => (written s.cur).toFinset.card < LOGSIZE - 1
  | _ => True

instance (s : Sys) : ∀ l, Decidable (opBound s l)
  | .logWrite p b => inferInstanceAs (Decidable (opBlocks s p b ≤ MAXOPBLOCKS))
  | .beginOp _ | .endOp _ | .commit _ => inferInstanceAs (Decidable True)

instance (s : Sys) : ∀ l, Decidable (groupBound s l)
  | .logWrite _ _ => inferInstanceAs (Decidable ((written s.cur).toFinset.card < LOGSIZE - 1))
  | .beginOp _ | .endOp _ | .commit _ => inferInstanceAs (Decidable True)

theorem mem_written {evs : List Ev} {b : ℕ} : b ∈ written evs ↔ ∃ id, Ev.wrote id b ∈ evs := by
  rw [written, List.mem_filterMap]
  constructor
  · rintro ⟨ev, hev, h⟩
    cases ev with
    | wrote id x => simp only [Option.some.injEq] at h; exact ⟨id, h ▸ hev⟩
    | began id => cases h
    | ended id => cases h
  · rintro ⟨id, h⟩
    exact ⟨_, h, rfl⟩

/-- Outside a commit, `n` is the number of distinct blocks logged since the last one. -/
theorem Inv.length_lh {s : Sys} (h : Inv s) (hc : s.committing = false) :
    s.lh.length = (written s.cur).toFinset.card := by
  obtain ⟨-, hnd, hlists, -⟩ := h.free hc
  rw [← List.toFinset_card_of_nodup hnd]
  congr 1
  ext b
  rw [List.mem_toFinset, List.mem_toFinset, hlists b, mem_written]

/-- With the log mkfs makes, one call of `log_write` panics exactly when its group already has
    `LOGSIZE - 1` distinct blocks. -/
theorem tooBig_iff {s t : Sys} {l : Label} (h : Inv s) (hsize : s.size = LOGSIZE)
    (hs : step s l = some t) : t.panicked = some .tooBig ↔ ¬ groupBound s l := by
  obtain ⟨hpan, hcase⟩ := step_cases hs
  rcases hcase with ⟨p, rfl, -, rfl⟩ | ⟨p, b, id, rfl, hp, rfl⟩ | ⟨p, id, rfl, hp, rfl⟩ |
    ⟨p, regs, wrote, rest, rfl, -, rfl⟩
  · have : (beginOp s p).panicked = none := by unfold beginOp; split_ifs <;> exact hpan
    simp [this, groupBound]
  · obtain ⟨hc, ho⟩ := h.inOp hp
    have hlen := h.length_lh hc
    simp only [groupBound, ← hlen, hsize, not_lt, LOGSIZE, MAXOPBLOCKS, logWrite]
    split
    · rename_i hfull
      simp only [true_iff]
      push_cast at hfull
      omega
    · rename_i hfull
      split
      · omega
      · simp only [hpan, reduceCtorEq, false_iff]
        push_cast at hfull
        omega
  · have : (endOp s p id).panicked ≠ some .tooBig := by
      unfold endOp
      simp only [(h.inOp hp).1, Bool.false_eq_true, if_false]
      split_ifs <;> simp [hpan]
    simp [this, groupBound]
  · have : (commitStep s p regs wrote rest).panicked = none := by cases rest <;> exact hpan
    simp [this, groupBound]

theorem size_step {s t : Sys} {l : Label} (hs : step s l = some t) : t.size = s.size := by
  obtain ⟨-, hcase⟩ := step_cases hs
  rcases hcase with ⟨p, -, -, rfl⟩ | ⟨p, b, id, -, -, rfl⟩ | ⟨p, id, -, -, rfl⟩ |
    ⟨p, regs, wrote, rest, -, -, rfl⟩
  · unfold beginOp; split_ifs <;> rfl
  · unfold logWrite; split_ifs <;> rfl
  · unfold endOp; dsimp only; split_ifs <;> rfl
  · cases rest <;> rfl

/-- Only a run that has already panicked is in a panicked state before a step it takes. -/
theorem run_tooBig_iff : ∀ (ls : List Label) {s t : Sys}, Inv s → s.size = LOGSIZE →
    s.panicked = none → run step s ls = some t →
    (t.panicked = some .tooBig ↔ ¬ RunOk step groupBound s ls)
  | [], s, t, _, _, hpan, h => by
      rw [run_nil, Option.some.injEq] at h
      subst h; simp [hpan, RunOk]
  | l :: ls, s, t, hi, hsize, hpan, h => by
      rw [run_cons, Option.bind_eq_some_iff] at h
      obtain ⟨u, hu, hrest⟩ := h
      have hl := tooBig_iff hi hsize hu
      have hall : RunOk step groupBound s (l :: ls) ↔
          groupBound s l ∧ RunOk step groupBound u ls := by
        simp [RunOk, hu]
      rw [hall]
      rcases (inv_step hi hu).panic with hup | hup
      · have hok : groupBound s l := by
          by_contra hno
          rw [hl.mpr hno] at hup; cases hup
        rw [run_tooBig_iff ls (inv_step hi hu) ((size_step hu).trans hsize) hup hrest]
        simp [hok]
      · -- a panicked state takes no further step
        have hstuck : ls = [] := by
          cases ls with
          | nil => rfl
          | cons m ms => simp [run_cons, step, hup] at hrest
        subst hstuck
        rw [run_nil, Option.some.injEq] at hrest
        subst hrest
        have hno := hl.mp hup
        simp [hup, hno]

/-- CORRECT (when the reservation is enough): with the log mkfs makes, a run of any processes hits
    "too big a transaction" exactly when it calls `log_write` at a moment when the operations begun
    since the last commit have already logged `LOGSIZE - 1` distinct blocks. -/
theorem log_space {start : ℕ} {ls : List Label} {s : Sys}
    (h : run step (Sys.init start LOGSIZE) ls = some s) :
    s.panicked ≠ some .tooBig ↔ RunOk step groupBound (Sys.init start LOGSIZE) ls := by
  rw [ne_eq, run_tooBig_iff ls (inv_init start LOGSIZE) rfl rfl h, not_not]

/-- Three operations, each log-writing ten blocks of its own. -/
def threeFull : List Label :=
  [.beginOp 0, .beginOp 1, .beginOp 2] ++ (List.range 10).map (fun i => .logWrite 0 (100 + i)) ++
    (List.range 10).map (fun i => .logWrite 1 (110 + i)) ++
    (List.range 10).map (fun i => .logWrite 2 (120 + i))

/-- All three are admitted together and stay within `MAXOPBLOCKS`; the 30th block panics. -/
theorem threeFull_panics : RunOk step opBound (Sys.init 2 LOGSIZE) threeFull ∧
    (run step (Sys.init 2 LOGSIZE) threeFull).map Sys.panicked = some (some .tooBig) := by
  decide +kernel

/-- With nine blocks in the third operation the same run is fine. -/
theorem log_space_nine : ∃ s, run step (Sys.init 2 LOGSIZE) (threeFull.take 32) = some s ∧
    s.panicked ≠ some .tooBig := by
  obtain ⟨s, hs⟩ := Option.isSome_iff_exists.mp
    (show (run step (Sys.init 2 LOGSIZE) (threeFull.take 32)).isSome = true by decide +kernel)
  exact ⟨s, hs, (log_space hs).mpr (by decide +kernel)⟩

end Minios.Log
