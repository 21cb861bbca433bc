import Minios.Schemes.Prog
import Minios.Vm.Riscv

/-! `kernel/kalloc.c`, `kernel/vm.c` and the page tables of `kernel/proc.c`.

    Memory is its pages, one per frame; page-table pages, user pages and free pages are all pages of it, and a
    page-table entry is eight bytes of one. The free list is the list of its frames (that it runs through the
    free pages themselves is left out: nobody else looks at a free page). An allocation is refused when the
    list is empty, and also whenever `deny` says so.

    What is copied from user memory into the kernel is returned as the list of the bytes stored, in order.
    Loops carry the number of rounds they can make; a loop that would need more does not end (`hang`). -/

namespace Minios.Vm
open Schemes Function

/-- The panics of `kalloc.c`, `vm.c` and `exec.c`; `hang` is a loop that does not end. -/
inductive Panic where
  | kfree
  | walk
  | mappagesVaNotAligned
  | mappagesSizeNotAligned
  | mappagesSize
  | mappagesRemap
  | uvmunmapNotAligned
  | uvmunmapWalk
  | uvmunmapNotMapped
  | uvmunmapNotALeaf
  | freewalkLeaf
  | uvmcopyPteShouldExist
  | uvmcopyPageNotPresent
  | uvmclear
  | loadseg
  | hang
  deriving DecidableEq

/-- What the linker decides: the first address after the kernel, and the page of `trampoline.S`. -/
structure Image where
  kend : Word
  trampoline : Frame
  base_le : KERNBASE ≤ kend
  text : trampoline.pa < kend

structure Machine where
  img : Image
  mem : Frame → Page
  free : List Frame
  deny : List Bool

abbrev VM := Prog Machine Panic

/-- A pointer to a PTE. -/
abbrev Slot := Frame × Fin 512

/-- Entry of a page-table page. -/
@[irreducible] def entry (m : Frame → Page) (q : Slot) : Word := BitVec.ofNat 64 (getLE (m q.1) (8 * q.2.val) 8)

@[irreducible] def setEntry (m : Frame → Page) (q : Slot) (pte : Word) : Frame → Page :=
  update m q.1 (setLE (m q.1) (8 * q.2.val) 8 pte.toNat)

def Machine.setMem (s : Machine) (mem : Frame → Page) : Machine := { s with mem := mem }

def Machine.setFree (s : Machine) (free : List Frame) : Machine := { s with free := free }

def load (q : Slot) : VM Word := do return entry (← Prog.get).mem q

def store (q : Slot) (pte : Word) : VM Unit := Prog.modify fun s => s.setMem (setEntry s.mem q pte)

def memset (f : Frame) (c : UInt8) : VM Unit := Prog.modify fun s => s.setMem (update s.mem f fun _ => c)

/-- `memmove` into a page. -/
def memmove (f : Frame) (off : ℕ) (src : List UInt8) : VM Unit :=
  Prog.modify fun s => s.setMem (update s.mem f (setBytes (s.mem f) off src))

/-! ### `kalloc.c` -/

/-- Free the page of physical memory pointed at by `pa`. -/
def kfree (pa : Word) : VM Unit := do
  let s ← Prog.get
  if pa % PGSIZE ≠ 0 ∨ pa < s.img.kend ∨ pa ≥ PHYSTOP then Prog.fail .kfree
  memset (frame pa) 1
  Prog.modify fun s => s.setFree (frame pa :: s.free)

/-- The page an allocation gets, and what is left. -/
def Machine.take (s : Machine) : Option Frame × Machine := match s.deny.headD false, s.free with
  | false, r :: free => (some r, { s with mem := update s.mem r fun _ => 5, free := free, deny := s.deny.tail })
  | false, [] => (none, { s with deny := s.deny.tail })
  | true, _ => (none, { s with deny := s.deny.tail })

/-- Allocate one page of physical memory. -/
def kalloc : VM (Option Frame) := fun s => .ok s.take

/-! ### Page tables -/

/-- The loop of `walk`: the page-table page of level 0. -/
def walkLoop (va : Word) (alloc : Bool) : ℕ → Frame → VM (Option Frame)
  | 0, pagetable => return some pagetable
  | level + 1, pagetable => do
    let pte ← load (pagetable, px (level + 1) va)
    if pte &&& PTE_V ≠ 0 then walkLoop va alloc level (frame (PTE2PA pte))
    else if alloc = false then return none
    else
      match ← kalloc with
      | none => return none
      | some page =>
        memset page 0
        store (pagetable, px (level + 1) va) (PA2PTE page.pa ||| PTE_V)
        walkLoop va alloc level page

/-- Return the address of the PTE in page table `pagetable` that corresponds to virtual address `va`. If `alloc`, create
    any required page-table pages. -/
def walk (pagetable : Frame) (va : Word) (alloc : Bool) : VM (Option Slot) := do
  if va ≥ MAXVA then Prog.fail .walk
  return (← walkLoop va alloc 2 pagetable).map fun table => (table, px 0 va)

/-- Look up a virtual address, return the physical address, or 0 if not mapped. -/
def walkaddr (pagetable : Frame) (va : Word) : VM Word := do
  if va ≥ MAXVA then return 0
  match ← walk pagetable va false with
  | none => return 0
  | some q =>
    let pte ← load q
    if pte &&& PTE_V = 0 then return 0
    if pte &&& PTE_U = 0 then return 0
    return PTE2PA pte

def mappagesLoop (pagetable : Frame) (last perm : Word) : ℕ → Word → Word → VM ℤ
  | 0, _, _ => Prog.fail .hang
  | rounds + 1, a, pa => do
    match ← walk pagetable a true with
    | none => return -1
    | some q =>
      let pte ← load q
      if pte &&& PTE_V ≠ 0 then Prog.fail .mappagesRemap
      store q (PA2PTE pa ||| perm ||| PTE_V)
      if a = last then return 0
      mappagesLoop pagetable last perm rounds (a + PGSIZE) (pa + PGSIZE)

/-- Create PTEs for virtual addresses starting at `va` that refer to physical addresses starting at `pa`. -/
def mappages (pagetable : Frame) (va size pa perm : Word) : VM ℤ := do
  if va % PGSIZE ≠ 0 then Prog.fail .mappagesVaNotAligned
  if size % PGSIZE ≠ 0 then Prog.fail .mappagesSizeNotAligned
  if size = 0 then Prog.fail .mappagesSize
  mappagesLoop pagetable (va + size - PGSIZE) perm (size.toNat / 4096) va pa

def uvmunmapLoop (pagetable : Frame) (stop : Word) (do_free : Bool) : ℕ → Word → VM Unit
  | 0, _ => Prog.fail .hang
  | rounds + 1, a => do
    if a < stop then
      match ← walk pagetable a false with
      | none => Prog.fail .uvmunmapWalk
      | some q =>
        let pte ← load q
        if pte &&& PTE_V = 0 then Prog.fail .uvmunmapNotMapped
        if PTE_FLAGS pte = PTE_V then Prog.fail .uvmunmapNotALeaf
        if do_free then kfree (PTE2PA pte)
        store q 0#64
        uvmunmapLoop pagetable stop do_free rounds (a + PGSIZE)
    else return ()

/-- Remove `npages` of mappings starting from `va`. Optionally free the physical memory. -/
def uvmunmap (pagetable : Frame) (va npages : Word) (do_free : Bool) : VM Unit := do
  if va % PGSIZE ≠ 0 then Prog.fail .uvmunmapNotAligned
  uvmunmapLoop pagetable (va + npages * PGSIZE) do_free (npages.toNat + 1) va

/-- Create an empty user page table. -/
def uvmcreate : VM (Option Frame) := do
  match ← kalloc with
  | none => return none
  | some pagetable =>
    memset pagetable 0
    return some pagetable

/-- Deallocate user pages to bring the process size from `oldsz` to `newsz`. -/
def uvmdealloc (pagetable : Frame) (oldsz newsz : Word) : VM Word := do
  if newsz ≥ oldsz then return oldsz
  if PGROUNDUP newsz < PGROUNDUP oldsz then
    -- `npages` is an int
    let npages := ((PGROUNDUP oldsz - PGROUNDUP newsz) / PGSIZE).setWidth 32
    uvmunmap pagetable (PGROUNDUP newsz) (npages.signExtend 64) true
  return newsz

def uvmallocLoop (pagetable : Frame) (oldsz newsz xperm : Word) : ℕ → Word → VM Word
  | 0, _ => Prog.fail .hang
  | rounds + 1, a => do
    if a < newsz then
      match ← kalloc with
      | none =>
        let _ ← uvmdealloc pagetable a oldsz
        return 0
      | some mem =>
        memset mem 0
        if (← mappages pagetable a PGSIZE mem.pa (PTE_R ||| PTE_U ||| xperm)) ≠ 0 then
          kfree mem.pa
          let _ ← uvmdealloc pagetable a oldsz
          return 0
        else uvmallocLoop pagetable oldsz newsz xperm rounds (a + PGSIZE)
    else return newsz

/-- Allocate PTEs and physical memory to grow process from `oldsz` to `newsz`. Returns new size or 0 on error. -/
def uvmalloc (pagetable : Frame) (oldsz newsz xperm : Word) : VM Word := do
  if newsz < oldsz then return oldsz
  let oldsz := PGROUNDUP oldsz
  uvmallocLoop pagetable oldsz newsz xperm (newsz.toNat / 4096 + 2) oldsz

/-- Free a page-table page and those below it, as deep as `levels` allows; `freewalkLoop` goes through its entries. -/
def freewalkLoop (recurse : Frame → VM Unit) (pagetable : Frame) : List (Fin 512) → VM Unit
  | [] => return ()
  | i :: is => do
    let pte ← load (pagetable, i)
    if pte &&& PTE_V ≠ 0 ∧ pte &&& (PTE_R ||| PTE_W ||| PTE_X) = 0 then
      -- this PTE points to a lower-level page table.
      recurse (frame (PTE2PA pte))
      store (pagetable, i) 0#64
    else if pte &&& PTE_V ≠ 0 then Prog.fail .freewalkLeaf
    freewalkLoop recurse pagetable is

/-- The 512 indices of a page-table page. -/
@[irreducible] def indices : List (Fin 512) := List.finRange 512

/-- Recursively free page-table pages. All leaf mappings must already have been removed. -/
def freewalk : ℕ → Frame → VM Unit
  | 0, _ => Prog.fail .hang
  | depth + 1, pagetable => do
    freewalkLoop (freewalk depth) pagetable indices
    kfree pagetable.pa

/-- Free user memory pages, then free page-table pages. -/
def uvmfree (pagetable : Frame) (sz : Word) : VM Unit := do
  if sz > 0 then uvmunmap pagetable 0 (PGROUNDUP sz / PGSIZE) true
  freewalk 3 pagetable

/-- Mark a PTE invalid for user access. -/
def uvmclear (pagetable : Frame) (va : Word) : VM Unit := do
  match ← walk pagetable va false with
  | none => Prog.fail .uvmclear
  | some q => store q ((← load q) &&& ~~~ PTE_U)

/-! ### User memory -/

def copyoutLoop (pagetable : Frame) : ℕ → Word → List UInt8 → VM ℤ
  | 0, _, _ => Prog.fail .hang
  | rounds + 1, dstva, src => do
    if 0 < src.length then
      let va0 := PGROUNDDOWN dstva
      if va0 ≥ MAXVA then return -1
      match ← walk pagetable va0 false with
      | none => return -1
      | some q =>
        let pte ← load q
        if pte &&& PTE_V = 0 ∨ pte &&& PTE_U = 0 ∨ pte &&& PTE_W = 0 then return -1
        let n := min (PGSIZE - (dstva - va0)).toNat src.length
        memmove (frame (PTE2PA pte)) (dstva - va0).toNat (src.take n)
        copyoutLoop pagetable rounds (va0 + PGSIZE) (src.drop n)
    else return 0

/-- Copy from kernel to user: `src` to virtual address `dstva` in a given page table. -/
def copyout (pagetable : Frame) (dstva : Word) (src : List UInt8) : VM ℤ :=
  copyoutLoop pagetable (src.length + 1) dstva src

def copyinLoop (pagetable : Frame) : ℕ → Word → ℕ → List UInt8 → VM (ℤ × List UInt8)
  | 0, _, _, _ => Prog.fail .hang
  | rounds + 1, srcva, len, dst => do
    if 0 < len then
      let va0 := PGROUNDDOWN srcva
      let pa0 ← walkaddr pagetable va0
      if pa0 = 0 then return (-1, dst)
      let n := min (PGSIZE - (srcva - va0)).toNat len
      let page := (← Prog.get).mem (frame pa0)
      copyinLoop pagetable rounds (va0 + PGSIZE) (len - n) (dst ++ slice (getByte page) (srcva - va0).toNat n)
    else return (0, dst)

/-- Copy from user to kernel: `len` bytes from virtual address `srcva` in a given page table. -/
def copyin (pagetable : Frame) (srcva : Word) (len : ℕ) : VM (ℤ × List UInt8) :=
  copyinLoop pagetable (len + 1) srcva len []

/-- `copyinstr`'s loop inside a page: whether a NUL was found among `n` bytes from `p` on, and the bytes copied. -/
def copyinstrPage (page : Page) : ℕ → ℕ → Bool × List UInt8
  | _, 0 => (false, [])
  | p, n + 1 =>
    if getByte page p = 0 then (true, [0])
    else ((copyinstrPage page (p + 1) n).1, getByte page p :: (copyinstrPage page (p + 1) n).2)

def copyinstrLoop (pagetable : Frame) : ℕ → Word → ℕ → List UInt8 → VM (ℤ × List UInt8)
  | 0, _, _, _ => Prog.fail .hang
  | rounds + 1, srcva, max, dst => do
    if 0 < max then
      let va0 := PGROUNDDOWN srcva
      let pa0 ← walkaddr pagetable va0
      if pa0 = 0 then return (-1, dst)
      let n := min (PGSIZE - (srcva - va0)).toNat max
      let page := (← Prog.get).mem (frame pa0)
      let r := copyinstrPage page (srcva - va0).toNat n
      if r.1 then return (0, dst ++ r.2)
      copyinstrLoop pagetable rounds (va0 + PGSIZE) (max - n) (dst ++ r.2)
    else return (-1, dst)

/-- Copy a null-terminated string from user to kernel: until a NUL, or `max` bytes. -/
def copyinstr (pagetable : Frame) (srcva : Word) (max : ℕ) : VM (ℤ × List UInt8) :=
  copyinstrLoop pagetable (max + 1) srcva max []

/-! ### `proc.c` -/

/-- Create a user page table for a process with this trapframe, with no user memory, but with trampoline and trapframe
    pages. -/
def proc_pagetable (trapframe : Frame) : VM (Option Frame) := do
  match ← uvmcreate with
  | none => return none
  | some pagetable =>
    let trampoline := (← Prog.get).img.trampoline
    if (← mappages pagetable TRAMPOLINE PGSIZE trampoline.pa (PTE_R ||| PTE_X)) < 0 then
      uvmfree pagetable 0
      return none
    if (← mappages pagetable TRAPFRAME PGSIZE trapframe.pa (PTE_R ||| PTE_W)) < 0 then
      uvmunmap pagetable TRAMPOLINE 1 false
      uvmfree pagetable 0
      return none
    return some pagetable

/-- Free a process's page table, and free the physical memory it refers to. -/
def proc_freepagetable (pagetable : Frame) (sz : Word) : VM Unit := do
  uvmunmap pagetable TRAMPOLINE 1 false
  uvmunmap pagetable TRAPFRAME 1 false
  uvmfree pagetable sz

end Minios.Vm
