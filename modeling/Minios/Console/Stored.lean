import Minios.Schemes.Run
import Minios.Console.Device

/-! `kernel/console.c`: a `consoleread` of `n` bytes stores and returns at most `n`.

    `target` is `n` as a uint and `n` counts down, so `target - n` is the number of bytes stored. For a negative `n` the
    loop makes no round, and the difference is 0. -/

namespace Minios.Console
open Schemes Function

variable {s t : Sys} {p : ℕ} {pr : Reader}

/-- A call is within its bounds, and so is the last one of an idle process. -/
structure Reader.Within (pr : Reader) : Prop where
  todo : pr.pc ≠ .idle → pr.n = pr.target - pr.got.length
  stored : (pr.got.length : ℤ) ≤ max pr.target 0
  ret : pr.pc = .idle → pr.ret ≤ max pr.target 0

theorem Reader.Within.at (h : pr.Within) {pc : Pc} (h1 : pr.pc ≠ .idle) (h2 : pc ≠ .idle) : (pr.at pc).Within :=
  ⟨fun _ => h.todo h1, h.stored, fun he => absurd he h2⟩

theorem Reader.Within.wake (h : pr.Within) : pr.wake.Within := by
  rw [Reader.wake]
  split
  · rename_i hpc
    exact h.at (by rw [hpc]; decide) (by decide)
  · exact h

theorem Reader.Within.done (h : pr.Within) (hpc : pr.pc ≠ .idle) {r : ℤ} (hr : r = pr.target - pr.n ∨ r = -1) :
    Reader.Within { pr with pc := .idle, ret := r } := by
  refine ⟨fun he => absurd rfl he, h.stored, fun _ => ?_⟩
  have htodo := h.todo hpc
  have hstored := h.stored
  rcases hr with rfl | rfl
  · show pr.target - pr.n ≤ max pr.target 0
    omega
  · exact (by decide : (-1 : ℤ) ≤ 0).trans (le_max_right ..)

def Bounded (s : Sys) : Prop := ∀ p, (s.proc p).Within

theorem Bounded.update (h : Bounded s) (hpr : pr.Within) {cons : Cons} {lock : Option ℕ} :
    Bounded ⟨cons, lock, update s.proc p pr⟩ :=
  (forall_update_iff s.proc fun _ pr => pr.Within).mpr ⟨hpr, fun q _ => h q⟩

theorem bounded_round (h : Bounded s) (hpc : (s.proc p).pc = .loop) : Bounded (s.round p) := by
  have hne : (s.proc p).pc ≠ .idle := by rw [hpc]; decide
  have htodo := (h p).todo hne
  rw [Sys.round]
  split
  · rename_i hpos
    split
    · split
      · exact h.update ((h p).done hne (.inr rfl))
      · exact h.update ((h p).at hne (by decide))
    · -- a byte is stored only while there is one to go
      have hmore : Reader.Within { s.proc p with got := (s.proc p).got ++ [s.cons.head], n := (s.proc p).n - 1 } := by
        refine ⟨fun _ => ?_, ?_, fun he => absurd he hne⟩
        · show (s.proc p).n - 1 = (s.proc p).target - ((s.proc p).got ++ [s.cons.head]).length
          rw [List.length_append, htodo, List.length_singleton]
          omega
        · show (((s.proc p).got ++ [s.cons.head]).length : ℤ) ≤ max (s.proc p).target 0
          rw [List.length_append, List.length_singleton]
          omega
      rw [Sys.consume]
      dsimp only
      split
      · split
        · exact h.update ((h p).done hne (.inl rfl))
        · exact h.update ((h p).done hne (.inl rfl))
      · split
        · exact h.update ((h p).done hne (.inl rfl))
        · split
          · exact h.update (hmore.done hne (.inl rfl))
          · exact h.update hmore
  · exact h.update ((h p).done hne (.inl rfl))

theorem bounded_step {l : Label} (h : Bounded s) (hs : step s l = some t) : Bounded t := by
  cases l with
  | intr c =>
    obtain ⟨-, hs⟩ := Option.ite_none_right_eq_some.mp hs
    obtain rfl := Option.some.inj hs
    intro p
    rw [Sys.intr]
    dsimp only
    split
    · exact (h p).wake
    · exact h p
  | read p n dst =>
    obtain ⟨-, hs⟩ := Option.ite_none_right_eq_some.mp hs
    obtain rfl := Option.some.inj hs
    have hnew : ((s.proc p).begin n dst).Within := ⟨fun _ => (sub_zero n).symm, le_max_right n 0, nofun⟩
    exact h.update hnew
  | kill p =>
    obtain rfl := Option.some.inj hs
    have hkill : (s.proc p).kill.Within :=
      @Reader.Within.wake { s.proc p with killed := true } ⟨(h p).todo, (h p).stored, (h p).ret⟩
    exact h.update hkill
  | move p =>
    rw [step] at hs
    split at hs
    · rename_i hpc
      obtain ⟨-, hs⟩ := Option.ite_none_right_eq_some.mp hs
      obtain rfl := Option.some.inj hs
      exact h.update ((h p).at (by rw [hpc]; decide) (by decide))
    · rename_i hpc
      obtain rfl := Option.some.inj hs
      exact bounded_round h hpc
    · cases hs

/-- A `consoleread` of `n` bytes that is over has stored and returned `n` at most, and nothing for a negative `n`. -/
theorem consoleread_le {ls : List Label} (hrun : run step Sys.init ls = some s) (p : ℕ) (hpc : (s.proc p).pc = .idle) :
    (s.proc p).ret ≤ max (s.proc p).target 0 ∧ ((s.proc p).got.length : ℤ) ≤ max (s.proc p).target 0 := by
  have hinit : Bounded Sys.init := fun _ => ⟨fun he => absurd rfl he, le_rfl, fun _ => le_rfl⟩
  have h := run_inv (fun _ _ _ => bounded_step) hinit hrun p
  exact ⟨h.ret hpc, h.stored⟩

end Minios.Console
