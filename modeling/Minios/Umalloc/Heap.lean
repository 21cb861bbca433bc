import Minios.Schemes.Cycle
import Minios.Schemes.Run

/-! `user/umalloc.c`: the allocator of user programs.

        base ──▶ block ──▶ block ──▶ … ──▶ block ──▶ base          the free list; freep is somewhere on it
                 ptr size

    Addresses count bytes, sizes count headers (`HDR` bytes). `ptr` and `size` are the two fields of a header, by the
    header's address. Memory comes from `sbrk`, which fails or returns a region above all earlier ones: `brks` says how
    each call is answered, with the gap it leaves. `top` and `units` are history: the end of what `sbrk` has returned, and
    how much of it went to `morecore`.

    Loops carry the number of rounds they can make; `none` is a loop that would need more. -/

namespace Minios.Umalloc
open Schemes Function

/-- `sizeof(Header)` -/
abbrev HDR : ℕ := 16

structure Heap where
  ptr : ℕ → ℕ
  size : ℕ → ℕ
  freep : ℕ
  top : ℕ
  units : ℕ
  brks : List (Option ℕ)

def Heap.setPtr (h : Heap) (p q : ℕ) : Heap := { h with ptr := update h.ptr p q }

/-- A size is a uint. -/
def Heap.setSize (h : Heap) (p n : ℕ) : Heap := { h with size := update h.size p (n % 2 ^ 32) }

def Heap.setFreep (h : Heap) (p : ℕ) : Heap := { h with freep := p }

/-! ### `free` -/

/-- The loop of `free`: the block after which `bp` belongs. -/
def freeLoop (h : Heap) (bp : ℕ) : ℕ → ℕ → Option ℕ
  | 0, _ => none
  | rounds + 1, p =>
    if bp > p ∧ bp < h.ptr p then some p
    else if p ≥ h.ptr p ∧ (bp > p ∨ bp < h.ptr p) then some p
    else freeLoop h bp rounds (h.ptr p)

/-- Join `bp` to the block above it, or point there. -/
def joinUpper (h : Heap) (bp next : ℕ) : Heap :=
  if bp + HDR * h.size bp = next then (h.setSize bp (h.size bp + h.size next)).setPtr bp (h.ptr next)
  else h.setPtr bp next

/-- Join `bp` to the block `p` below it, or let `p` point to it. -/
def joinLower (h : Heap) (p bp : ℕ) : Heap :=
  if p + HDR * h.size p = bp then (h.setSize p (h.size p + h.size bp)).setPtr p (h.ptr bp)
  else h.setPtr p bp

def free (h : Heap) (ap : ℕ) : Option Heap :=
  let bp := ap - HDR
  (freeLoop h bp (h.units + 2) h.freep).map fun p => (joinLower (joinUpper h bp (h.ptr p)) p bp).setFreep p

/-! ### `malloc` -/

/-- `n` more bytes; `none` is -1. -/
def sbrk (h : Heap) (n : ℕ) : Option ℕ × Heap := match h.brks with
  | some gap :: brks => (some (h.top + gap), { h with top := h.top + gap + n, brks := brks })
  | none :: brks => (none, { h with brks := brks })
  | [] => (none, h)

/-- How much `morecore` asks for. -/
def coreUnits (nu : ℕ) : ℕ := if nu < 4096 then 4096 else nu

/-- The new region as a block. -/
def addCore (h : Heap) (hp nu : ℕ) : Heap := { h.setSize hp nu with units := h.units + nu }

/-- More memory, put on the free list; the result is `freep`, or nothing. -/
def morecore (h : Heap) (nu : ℕ) : Option (Option ℕ × Heap) :=
  match sbrk h (coreUnits nu * HDR) with
  | (none, h) => some (none, h)
  | (some hp, h) => (free (addCore h hp (coreUnits nu)) (hp + HDR)).map fun h => (some h.freep, h)

/-- Take `nunits` from block `p`: all of it, or its tail. -/
def take (h : Heap) (nunits prevp p : ℕ) : ℕ × Heap :=
  if h.size p = nunits then (p + HDR, (h.setPtr prevp (h.ptr p)).setFreep prevp)
  else
    let n := h.size p - nunits
    (p + HDR * n + HDR, ((h.setSize p n).setSize (p + HDR * n) nunits).setFreep prevp)

/-- The loop of `malloc`; nothing is the null pointer. -/
def mallocLoop (nunits : ℕ) : ℕ → Heap → ℕ → ℕ → Option (Option ℕ × Heap)
  | 0, _, _, _ => none
  | rounds + 1, h, prevp, p =>
    if h.size p ≥ nunits then some (some (take h nunits prevp p).1, (take h nunits prevp p).2)
    else if p = h.freep then
      match morecore h nunits with
      | none => none
      | some (none, h) => some (none, h)
      | some (some p, h) => mallocLoop nunits rounds h p (h.ptr p)
    else mallocLoop nunits rounds h p (h.ptr p)

/-- The units for `nbytes` and a header. -/
def units (nbytes : ℕ) : ℕ := (nbytes + HDR - 1) / HDR + 1

/-- The first call makes the list. -/
def start (base : ℕ) (h : Heap) : Heap :=
  if h.freep = 0 then ((h.setPtr base base).setSize base 0).setFreep base else h

def malloc (base : ℕ) (h : Heap) (nbytes : ℕ) : Option (Option ℕ × Heap) :=
  let h := start base h
  mallocLoop (units nbytes) (2 * (h.units + coreUnits (units nbytes)) + 4) h h.freep (h.ptr h.freep)

/-! ### A program that uses them -/

/-- The heap, and the program's blocks: address of the header, and bytes asked for. -/
structure Sys where
  heap : Heap
  live : List (ℕ × ℕ)

/-- Calls, and writes of the program to its own blocks. -/
inductive Event where
  | malloc (nbytes : ℕ)
  | free (i : ℕ)
  | store (a ptr size : ℕ)

/-- The byte count passed to `sbrk` fits in an int. -/
def Small (nbytes : ℕ) : Prop := coreUnits (units nbytes) * HDR < 2 ^ 31

instance (nbytes : ℕ) : Decidable (Small nbytes) := inferInstanceAs (Decidable (_ < _))

/-- Address `a` is in a block of the program, after the header. -/
def Sys.Owns (s : Sys) (a : ℕ) : Prop := ∃ b ∈ s.live, b.1 + HDR ≤ a ∧ a < b.1 + HDR * s.heap.size b.1

instance (s : Sys) (a : ℕ) : Decidable (s.Owns a) := inferInstanceAs (Decidable (∃ b ∈ s.live, _))

/-- Sizes are small, blocks are freed once, and the program writes to its own blocks. -/
def Allowed (s : Sys) : Event → Prop
  | .malloc nbytes => Small nbytes
  | .free i => i < s.live.length
  | .store a _ _ => s.Owns a

instance (s : Sys) : (e : Event) → Decidable (Allowed s e)
  | .malloc nbytes => inferInstanceAs (Decidable (Small nbytes))
  | .free i => inferInstanceAs (Decidable (i < s.live.length))
  | .store a _ _ => inferInstanceAs (Decidable (s.Owns a))

/-- What a call does, if it returns. -/
def perform (base : ℕ) (s : Sys) : Event → Option Sys
  | .malloc nbytes => (malloc base s.heap nbytes).map fun r =>
      ⟨r.2, (r.1.map fun ap => (ap - HDR, nbytes)).toList ++ s.live⟩
  | .free i => (free s.heap ((s.live.getD i (0, 0)).1 + HDR)).map fun h => ⟨h, s.live.eraseIdx i⟩
  | .store a q n => some { s with heap := (s.heap.setPtr a q).setSize a n }

def step (base : ℕ) (s : Sys) (e : Event) : Option Sys := if Allowed s e then perform base s e else none

/-- A program before its first call: nothing was obtained, and the region `sbrk` will return is above `base`. -/
structure Init (base : ℕ) (s : Sys) : Prop where
  pos : 0 < base
  freep : s.heap.freep = 0
  top : base + HDR ≤ s.heap.top
  units : s.heap.units = 0
  live : s.live = []

end Minios.Umalloc
