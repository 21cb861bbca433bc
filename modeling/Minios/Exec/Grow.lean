import Minios.Exec.Atomic

/-! `growproc` of `kernel/proc.c` and `sys_sbrk` of `kernel/sysproc.c`.

        n > 0     sz ── uvmalloc ──▶ sz + n     or -1, and everything is as it was
        n < 0     sz ── uvmdealloc ─▶ sz + n    if there is so much to give back; if not, nothing, and 0 all the same

    `n` is an int, `sz` has 64 bits: what is added is `n` with its sign. -/

namespace Minios.Exec
open Schemes Function Vm

variable {s t : Kernel} {m m' : Machine} {root trapframe : Frame} {n k : ℕ} {E : Vm.Panic → Prop}

def setSz (sz : Word) : KM Unit := Prog.modify fun s => { s with proc := { s.proc with sz := sz } }

/-- Grow or shrink user memory by `n` bytes. Return 0 on success, -1 on failure. -/
def growproc (n : BitVec 32) : KM ℤ := do
  let p := (← Prog.get).proc
  if n.toInt > 0 then
    let sz ← onVm (uvmalloc p.pagetable p.sz (p.sz + n.signExtend 64) PTE_W)
    if sz = 0 then return -1
    setSz sz
    return 0
  else if n.toInt < 0 then
    let sz ← onVm (uvmdealloc p.pagetable p.sz (p.sz + n.signExtend 64))
    setSz sz
    return 0
  else
    setSz p.sz
    return 0

/-- `argint` takes the lower half of the register; -1 is the largest address. -/
def sys_sbrk (a0 : Word) : KM Word := do
  let addr := (← Prog.get).proc.sz
  if (← growproc (a0.setWidth 32)) < 0 then return -1
  return addr

/-! ### Failed growth -/

/-- The leaves are the same and so is what they lead to; pages that were free are free or tables without leaves. -/
structure Undone (m m' : Machine) (root : Frame) : Prop where
  leaf : ∀ va < MAXVA, leaf m' root va = leaf m root va
  mem : ∀ va < MAXVA, ∀ pte, Vm.leaf m root va = some pte →
    m'.mem (frame (PTE2PA pte)) = m.mem (frame (PTE2PA pte))
  tables : tables m.mem root ≤ tables m'.mem root
  free : (m'.free + (Vm.tables m'.mem root - Vm.tables m.mem root) : Multiset Frame) = m.free

/-- No page that an address space leads to is free or a page-table page. -/
theorem notMem_held (hm : Vm.Live m root trapframe n) (htf : trapframe ∉ (m.free + owned m root n : Multiset Frame))
    {p : ℕ} {pte : Word} (hl : lookup m.mem root p = some pte) : frame (PTE2PA pte) ∉ held m root := by
  have hsub : ∀ f ∈ held m root, f ∈ (m.free + owned m root n : Multiset Frame) := fun f hf => by
    rw [owned, ← add_assoc]
    exact Multiset.mem_add.mpr (.inl hf)
  by_cases hp : p < n
  · have hmem := mem_frames (F := lookup m.mem root) (p := 0) (n := n) (Nat.zero_le p) (by omega)
    rw [hl] at hmem
    have := hm.apart
    rw [owned, ← add_assoc] at this
    exact fun hf => Multiset.disjoint_left.mp (Multiset.nodup_add.mp this).2.2 hf hmem
  · -- the trapframe and the trampoline
    have hframe : ∀ {f : Frame} {perm : Word}, perm.toNat < 1024 → some pte = some (PA2PTE f.pa ||| perm ||| PTE_V) →
        frame (PTE2PA pte) = f := fun hperm h => (congrArg frameOf h).trans (frameOf_entry hperm _)
    rcases eq_or_ne p TOP with rfl | h1
    · rw [hframe (by decide) (hl.symm.trans hm.space.trapframe)]
      exact fun hf => htf (hsub _ hf)
    rcases eq_or_ne p (TOP + 1) with rfl | h2
    · rw [hframe (by decide) (hl.symm.trans hm.space.trampoline)]
      exact fun hf => absurd (hm.ram _ (hsub _ hf)).1 (BitVec.not_le.mpr m.img.text)
    · rw [hm.space.none p (by omega) h1 h2] at hl
      cases hl

theorem undone_of_walked (hm : Vm.Live m root trapframe n)
    (htf : trapframe ∉ (m.free + owned m root n : Multiset Frame)) (h : Walked m m' root) : Undone m m' root where
  leaf va hva := by rw [leaf_eq hva, leaf_eq hva, h.lookup]
  mem va hva pte hl := h.kept.frame _ (notMem_held hm htf ((leaf_eq hva).symm.trans hl))
  tables := h.kept.tables
  free := by
    have hheld := h.kept.held
    rw [held, held, ← Multiset.sub_add_cancel h.kept.tables, ← add_assoc] at hheld
    exact add_right_cancel hheld

theorem growproc_fails {n : BitVec 32} (hn : n.toInt > 0)
    (h : uvmalloc s.proc.pagetable s.proc.sz (s.proc.sz + n.signExtend 64) PTE_W s.vm = .ok (0, m')) :
    growproc n s = .ok (-1, s.setVm m') := by
  have hrun : wp (growproc n) (fun r t => r = -1 ∧ t = s.setVm m') (fun _ => False) s := by
    rw [growproc, wp_bind, wp_get, if_pos hn, wp_bind, onVm, wp_zoom, wp, h]
    exact ⟨rfl, rfl⟩
  obtain ⟨r, t, hrt, rfl, rfl⟩ := hrun.returns
  exact hrt

/-- CORRECT (undone): when `uvmalloc` fails, for whichever size and at whichever allocation, the address space is what it
    was; page-table pages without leaves may have been added to it, every other page taken is free again. `growproc` then
    returns -1, with the process as it was. -/
theorem uvmalloc_undone {sz newsz perm : Word} (hm : Vm.Live m root trapframe (pages sz.toNat))
    (htf : trapframe ∉ (m.free + owned m root (pages sz.toNat) : Multiset Frame)) (hperm : perm.toNat < 1024) :
    wp (uvmalloc root sz newsz perm) (fun r m' => r = 0 → Undone m m' root) (fun _ => False) m ∧
    ∀ (s : Kernel) (n : BitVec 32) (m' : Machine), n.toInt > 0 →
      uvmalloc s.proc.pagetable s.proc.sz (s.proc.sz + n.signExtend 64) PTE_W s.vm = .ok (0, m') →
      ∃ t, growproc n s = .ok (-1, t) ∧ t.vm = m' ∧ t.proc = s.proc := by
  refine ⟨(hm.uvmalloc hperm).mono fun r m' h hr => ?_, fun s n m' hn h => ⟨_, growproc_fails hn h, rfl, rfl⟩⟩
  rcases h with ⟨-, hw, -⟩ | ⟨hr', -, hg⟩
  · exact undone_of_walked hm htf hw
  · -- growth from nothing to nothing is not told from a failure
    have hz : pages newsz.toNat - pages sz.toNat = 0 := by
      rw [hr] at hr'
      split at hr'
      · rename_i hlt
        rw [← hr'] at hlt
        exact absurd hlt BitVec.not_lt_zero
      · rw [← hr']
        exact Nat.zero_sub _
    rw [hz] at hg
    refine undone_of_walked hm htf ⟨⟨hg.img, ?_, hg.tables, hg.frame, hg.table⟩, ?_⟩
    · rw [← hg.held]
      exact (add_zero _).symm
    · exact funext fun x => hg.beside x (by omega)

/-- The first process asks for three pages, and there are two. -/
theorem uvmalloc_undone_boot : wp (uvmalloc 0x80100#52 0 0x3000#64 PTE_W) (fun r m' => r = 0 → Undone Kernel.boot.vm m' 0x80100#52)
    (fun _ => False) Kernel.boot.vm :=
  (uvmalloc_undone boot_running.live boot_running.trapframe (by decide)).1

/-! ### What `growproc` does -/

/-- What a process has after `growproc` returned 0. -/
structure Regrown (s t : Kernel) (n : BitVec 32) : Prop where
  proc : t.proc = { s.proc with sz := t.proc.sz }
  sz : (t.proc.sz.toNat : ℤ) =
    if 0 ≤ s.proc.sz.toNat + n.toInt then s.proc.sz.toNat + n.toInt else s.proc.sz.toNat
  live : Vm.Live t.vm s.proc.pagetable s.proc.trapframe (pages t.proc.sz.toNat)

theorem add_int {sz : Word} {n : BitVec 32} (hsz : sz.toNat < 2 ^ 32) :
    ((sz + n.signExtend 64).toNat : ℤ) =
      if 0 ≤ sz.toNat + n.toInt then sz.toNat + n.toInt else 2 ^ 64 + (sz.toNat + n.toInt) := by
  have hn : (n.signExtend 64).toNat = if 0 ≤ n.toInt then n.toInt else 2 ^ 64 + n.toInt := by
    have hint := BitVec.toInt_signExtend_of_le (x := n) (v := 64) (by decide)
    rw [← hint, BitVec.toInt_eq_toNat_cond]
    have := (n.signExtend 64).isLt
    split <;> split <;> omega
  have hlo := BitVec.le_two_mul_toInt (x := n)
  have hhi := BitVec.two_mul_toInt_lt (x := n)
  rw [BitVec.toNat_add]
  push_cast
  rw [hn]
  split <;> split <;> omega

theorem growproc_spec (hs : Vm.Live s.vm s.proc.pagetable s.proc.trapframe (pages s.proc.sz.toNat))
    (htf : s.proc.trapframe ∉ (s.vm.free + owned s.vm s.proc.pagetable (pages s.proc.sz.toNat) : Multiset Frame))
    (n : BitVec 32) : wp (growproc n) (fun r t => (r = 0 ∧ Regrown s t n) ∨
      (r = -1 ∧ 0 < n.toInt ∧ t.proc = s.proc ∧ Undone s.vm t.vm s.proc.pagetable)) (fun _ => False) s := by
  have hcard := hs.card
  have hsz : s.proc.sz.toNat < 2 ^ 32 := by rw [pages] at hcard; omega
  have hsum := add_int (n := n) hsz
  have hlo := BitVec.le_two_mul_toInt (x := n)
  have hhi := BitVec.two_mul_toInt_lt (x := n)
  rw [growproc, wp_bind, wp_get]
  by_cases hpos : n.toInt > 0
  · rw [if_pos hpos, wp_bind, onVm, wp_zoom]
    rw [if_pos (by omega)] at hsum
    have hge : ¬ s.proc.sz + n.signExtend 64 < s.proc.sz := fun hlt => by
      have := BitVec.lt_def.mp hlt
      omega
    refine (hs.uvmalloc (show PTE_W.toNat < 1024 by decide)).mono fun r m' h => ?_
    rcases h with ⟨hr, hw, -⟩ | ⟨hr, hb, -⟩
    · rw [if_pos hr]
      exact .inr ⟨rfl, hpos, rfl, undone_of_walked hs htf hw⟩
    · rw [if_neg hge] at hr
      have hne : ¬ r = 0 := fun h0 => by
        have : (s.proc.sz + n.signExtend 64).toNat = 0 := by rw [← hr, h0]; rfl
        omega
      rw [if_neg hne]
      refine .inl ⟨rfl, rfl, ?_, hb.live hs⟩
      rw [if_pos (by omega), ← hsum, ← hr]
  rw [if_neg hpos]
  by_cases hneg : n.toInt < 0
  · rw [if_pos hneg, wp_bind, onVm, wp_zoom]
    refine hs.uvmdealloc.mono ?_
    rintro r m' ⟨hr, hb⟩
    refine .inl ⟨rfl, rfl, ?_, hb.live hs⟩
    show (r.toNat : ℤ) = _
    rw [hr]
    split at hsum
    · -- there is so much
      rename_i hle
      have hlt : ¬ s.proc.sz + n.signExtend 64 ≥ s.proc.sz := fun hge => by
        have := BitVec.le_def.mp hge
        omega
      rw [if_pos hle, if_neg hlt, hsum]
    · -- the sum wraps around to a large size
      rename_i hle
      have hge : s.proc.sz + n.signExtend 64 ≥ s.proc.sz := BitVec.le_def.mpr (by omega)
      rw [if_neg hle, if_pos hge]
  · rw [if_neg hneg]
    obtain hz : n.toInt = 0 := by omega
    refine .inl ⟨rfl, rfl, ?_, hs⟩
    rw [hz, add_zero, if_pos (Int.natCast_nonneg _)]

/-! ### Whether it is what was asked for -/

/-- The size has changed by `n`, and exactly the pages of that size are mapped. -/
structure Resized (s t : Kernel) (n : ℤ) : Prop where
  sz : (t.proc.sz.toNat : ℤ) = s.proc.sz.toNat + n
  pages : ∀ va < TRAPFRAME, (leaf t.vm t.proc.pagetable va).isSome ↔ va < PGROUNDUP t.proc.sz

/-- `growproc` did what was asked and returned 0, or nothing and returned -1. -/
def Honest (s : Kernel) (n : BitVec 32) : Prop :=
  wp (growproc n) (fun r t => (r = 0 ∧ Resized s t n.toInt) ∨
    (r = -1 ∧ t.proc = s.proc ∧ Undone s.vm t.vm s.proc.pagetable)) (fun _ => False) s

/-- An address other than -1 says that the break has moved. -/
def BreakMoved (s : Kernel) (a0 : Word) : Prop :=
  wp (sys_sbrk a0) (fun r t => r ≠ -1 → (t.proc.sz.toNat : ℤ) = s.proc.sz.toNat + (a0.setWidth 32).toInt) (fun _ => False) s

theorem mapped_iff {sz : Word} (hs : Vm.Live m root trapframe (pages sz.toNat)) {va : Word} (hva : va < TRAPFRAME) :
    (leaf m root va).isSome ↔ va < PGROUNDUP sz := by
  have hcard := hs.card
  have hT := TOP_eq
  have hsz : sz.toNat ≤ 2 ^ 38 := by rw [pages] at hcard; omega
  have hp : pageno va < TOP := by
    rw [vaddr_TRAPFRAME, BitVec.lt_def, vaddr_toNat (by decide)] at hva
    rw [pageno]; omega
  have hlt : va < PGROUNDUP sz ↔ pageno va < pages sz.toNat := by
    rw [PGROUNDUP_eq hsz, BitVec.lt_def, vaddr_toNat (by omega), pageno]
    omega
  rw [leaf_eq (lt_MAXVA (by omega)), hlt]
  refine ⟨fun h => ?_, fun h => ?_⟩
  · by_contra hge
    rw [hs.space.none _ (by omega) (by omega) (by omega)] at h
    cases h
  · obtain ⟨pte, hl, -⟩ := hs.space.user _ h
    rw [hl]; rfl

/-- CORRECT (exactly when): `growproc` reports success only when it did what was asked, and `sys_sbrk` an address only
    when the break moved, for exactly those `n` that take no more than there is. -/
theorem growproc_honest (hs : Vm.Live s.vm s.proc.pagetable s.proc.trapframe (pages s.proc.sz.toNat))
    (htf : s.proc.trapframe ∉ (s.vm.free + owned s.vm s.proc.pagetable (pages s.proc.sz.toNat) : Multiset Frame))
    (n : BitVec 32) :
    (Honest s n ∧ ∀ a0 : Word, a0.setWidth 32 = n → BreakMoved s a0) ↔ 0 ≤ (s.proc.sz.toNat : ℤ) + n.toInt := by
  have hspec := growproc_spec hs htf n
  constructor
  · rintro ⟨h, -⟩
    obtain ⟨r, t, hr, hpost, hdone⟩ := (hspec.and h).returns
    by_contra hlt
    rcases hpost with ⟨rfl, hg⟩ | ⟨-, hpos, -⟩
    · rcases hdone with ⟨-, hz⟩ | ⟨hr, -⟩
      · have := hz.sz
        omega
      · cases hr
    · omega
  · intro hle
    refine ⟨hspec.mono fun r t h => ?_, fun a0 ha => ?_⟩
    · rcases h with ⟨hr, hg⟩ | ⟨hr, -, hp, hu⟩
      · have hsz := hg.sz
        rw [if_pos hle] at hsz
        refine .inl ⟨hr, hsz, fun va hva => ?_⟩
        rw [show t.proc.pagetable = s.proc.pagetable by rw [hg.proc]]
        exact mapped_iff hg.live hva
      · exact .inr ⟨hr, hp, hu⟩
    · rw [BreakMoved, sys_sbrk, wp_bind, wp_get, wp_bind, ha]
      refine hspec.mono fun r t h => ?_
      rcases h with ⟨rfl, hg⟩ | ⟨rfl, -⟩
      · rw [if_neg (by decide)]
        have hsz := hg.sz
        rw [if_pos hle] at hsz
        exact fun _ => hsz
      · rw [if_pos (by decide)]
        exact fun h => absurd rfl h

/-- The first process asks for a page. -/
theorem growproc_honest_boot : Honest .boot 0x1000#32 ∧ ∀ a0 : Word, a0.setWidth 32 = 0x1000#32 → BreakMoved .boot a0 :=
  (growproc_honest boot_running.live boot_running.trapframe 0x1000#32).mpr (by decide)

/-- A process without user memory gives back a byte: that is reported as done, and so is the break, but nothing has moved. -/
theorem sbrk_of_nothing : ¬ Honest .boot (-1) ∧ ¬ BreakMoved .boot (-1) := by
  have hspec := growproc_spec boot_running.live boot_running.trapframe (-1)
  refine ⟨fun h => ?_, fun h => ?_⟩
  · obtain ⟨r, t, -, hpost, hdone⟩ := (hspec.and h).returns
    rcases hdone with ⟨-, hz⟩ | ⟨rfl, -⟩
    · have := hz.sz
      exact absurd this (ne_of_gt (lt_of_lt_of_le (by decide) (Int.natCast_nonneg _)))
    · rcases hpost with ⟨hr, -⟩ | ⟨-, hpos, -⟩
      · cases hr
      · exact absurd hpos (by decide)
  · rw [BreakMoved, sys_sbrk, wp_bind, wp_get, wp_bind] at h
    obtain ⟨r, t, -, hpost, hdone⟩ := (hspec.and h).returns
    rcases hpost with ⟨rfl, -⟩ | ⟨-, hpos, -⟩
    · rw [if_neg (by decide)] at hdone
      have := hdone (by decide)
      exact absurd this (ne_of_gt (lt_of_lt_of_le (by decide) (Int.natCast_nonneg _)))
    · exact absurd hpos (by decide)

end Minios.Exec
