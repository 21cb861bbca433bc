import Mathlib

/-! Straight-line code that runs next to other processes.

    A script is a list of instructions, each a function on the part of the state the script works on.
    Before each instruction the others may change that part, but only as `rely` allows; what they may
    still do depends on the instructions left. A script is SAFE from a state when each instruction
    meets its condition `ok` whatever the others did before it, and the end satisfies `fin`. -/

namespace Minios.Schemes

section
variable {σ ι : Type*} (exec : ι → σ → σ) (ok : ι → σ → Prop) (rely : List ι → σ → σ → Prop)
  (fin : σ → Prop)

def Safe : List ι → σ → Prop
  | [], s => fin s
  | i :: is, s => ∀ t, rely (i :: is) s t → ok i t ∧ Safe is (exec i t)

variable {exec ok rely fin} {i : ι} {is : List ι} {s t : σ}

/-- Interference keeps a script safe. -/
theorem Safe.stable (htrans : ∀ is s t u, rely is s t → rely is t u → rely is s u)
    (hfin : ∀ s t, rely [] s t → fin s → fin t) (h : Safe exec ok rely fin is s) (hr : rely is s t) :
    Safe exec ok rely fin is t := by
  cases is with
  | nil => exact hfin s t hr h
  | cons i is => exact fun u hu => h u (htrans _ s t u hr hu)

/-- The next instruction, when the others do nothing first. -/
theorem Safe.head (hrefl : ∀ is s, rely is s s) (h : Safe exec ok rely fin (i :: is) s) :
    ok i s ∧ Safe exec ok rely fin is (exec i s) :=
  h s (hrefl _ s)

/-- One instruction before which the others can change nothing. -/
theorem Safe.cons_still (hstill : ∀ t, rely (i :: is) s t → t = s) (hok : ok i s)
    (h : Safe exec ok rely fin is (exec i s)) : Safe exec ok rely fin (i :: is) s := by
  intro t ht
  rw [hstill t ht]
  exact ⟨hok, h⟩

end

end Minios.Schemes
