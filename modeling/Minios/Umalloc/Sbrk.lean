import Minios.Umalloc.Runs

/-! `user/umalloc.c` on this kernel: `malloc` with `sys_sbrk` and `growproc`.

    `morecore` passes a number of bytes to `sbrk`, which takes an int. From 2^31 bytes on that is a negative number, and
    the process shrinks, or 0, or even 16:

        nbytes          2^32 - 1
        units           2^28 + 1
        bytes           2^32 + 16     as an int: 16
        sbrk(16)        16 bytes, and a block of 2^28 + 1 units is made of them

    Below that, the kernel's `sbrk` is one that fails or returns a region above all earlier ones, without gaps. -/

namespace Minios.Umalloc
open Schemes Function

/-! ### The kernel -/

/-- User memory is physical memory: `PHYSTOP - KERNBASE`. -/
abbrev MEMORY : ℕ := 2 ^ 27

abbrev PGSIZE : ℕ := 4096

def PGROUNDUP (sz : ℕ) : ℕ := (sz + PGSIZE - 1) / PGSIZE * PGSIZE

/-- A size converted to int. -/
def asInt (n : ℕ) : ℤ := if n % 2 ^ 32 < 2 ^ 31 then (n % 2 ^ 32 : ℕ) else (n % 2 ^ 32 : ℕ) - 2 ^ 32

def uvmdealloc (oldsz newsz : ℕ) : ℕ := if newsz ≥ oldsz then oldsz else newsz

/-- The new size of the process; there is memory for a size of `room`. -/
def growproc (room sz : ℕ) (n : ℤ) : Option ℕ :=
  if n > 0 then if sz + n.toNat ≤ room then some (sz + n.toNat) else none
  else if n < 0 then some (uvmdealloc sz ((sz + n) % 2 ^ 64).toNat)
  else some sz

/-- The size of the process is the heap's `top`. -/
def sys_sbrk (room : ℕ) (h : Heap) (n : ℤ) : Option ℕ × Heap := match growproc room h.top n with
  | none => (none, h)
  | some sz => (some h.top, { h with top := sz })

/-! ### `malloc` -/

/-- `morecore`; a store to a page that is not there kills the process. -/
def coreFrom (room : ℕ) (h : Heap) (nu : ℕ) : Option (Option ℕ × Heap) :=
  match sys_sbrk room h (asInt (coreUnits nu * HDR)) with
  | (none, h) => some (none, h)
  | (some hp, h) =>
    if hp < PGROUNDUP h.top then (free (addCore h hp (coreUnits nu)) (hp + HDR)).map fun h => (some h.freep, h)
    else none

/-- The loop of `malloc`. -/
def loopFrom (room nunits : ℕ) : ℕ → Heap → ℕ → ℕ → Option (Option ℕ × Heap)
  | 0, _, _, _ => none
  | rounds + 1, h, prevp, p =>
    if h.size p ≥ nunits then some (some (take h nunits prevp p).1, (take h nunits prevp p).2)
    else if p = h.freep then
      match coreFrom room h nunits with
      | none => none
      | some (none, h) => some (none, h)
      | some (some p, h) => loopFrom room nunits rounds h p (h.ptr p)
    else loopFrom room nunits rounds h p (h.ptr p)

def mallocFrom (base room : ℕ) (h : Heap) (nbytes : ℕ) : Option (Option ℕ × Heap) :=
  let h := start base h
  loopFrom room (units nbytes) (2 * (h.units + coreUnits (units nbytes)) + 4) h h.freep (h.ptr h.freep)

/-- Calls with what memory there is for them, and writes of the program to its own blocks. -/
inductive Call where
  | malloc (nbytes room : ℕ)
  | free (i : ℕ)
  | store (a ptr size : ℕ)

/-- One step. There is never more memory than the machine has. -/
def call (base : ℕ) (s : Sys) : Call → Option Sys
  | .malloc nbytes room =>
    if room ≤ MEMORY ∧ nbytes < 2 ^ 32 then (mallocFrom base room s.heap nbytes).map fun r => ⟨r.2, given nbytes s.live r.1⟩
    else none
  | .free i => if i < s.live.length then perform base s (.free i) else none
  | .store a q n => if s.Owns a then perform base s (.store a q n) else none

/-- The condition: `sbrk` gets a positive int. -/
def callSmall : Call → Prop
  | .malloc nbytes _ => nbytes ≤ 2 ^ 31 - 32
  | _ => True

variable {base room k n : ℕ} {s t : Sys} {h h' : Heap} {live : List (ℕ × ℕ)}

/-! ### The same without the kernel -/

theorem small_iff (nbytes : ℕ) : Small nbytes ↔ nbytes ≤ 2 ^ 31 - 32 := by
  rw [Small, coreUnits]
  split
  · rename_i hlt
    simp only [units, HDR] at hlt ⊢
    omega
  · simp only [units, HDR]
    omega

theorem asInt_small (hn : n < 2 ^ 31) : asInt n = n := by
  rw [asInt, Nat.mod_eq_of_lt (by omega), if_pos hn]

/-- What the kernel would answer when it is asked for `n` bytes again and again. -/
def answers (room n : ℕ) : ℕ → ℕ → List (Option ℕ)
  | _, 0 => []
  | top, rounds + 1 => (if top + n ≤ room then some 0 else none) :: answers room n (top + n) rounds

def Heap.withBrks (h : Heap) (brks : List (Option ℕ)) : Heap := { h with brks := brks }

/-- A heap without what `sbrk` will do. -/
def bare (x : Option ℕ × Heap) : Option ℕ × Heap := (x.1, x.2.withBrks [])

theorem joinUpper_withBrks (h : Heap) (brks : List (Option ℕ)) (bp next : ℕ) :
    joinUpper (h.withBrks brks) bp next = (joinUpper h bp next).withBrks brks := by
  unfold joinUpper
  by_cases he : bp + HDR * h.size bp = next
  · rw [if_pos he, if_pos (show bp + HDR * (h.withBrks brks).size bp = next from he)]; rfl
  · rw [if_neg he, if_neg (show ¬ bp + HDR * (h.withBrks brks).size bp = next from he)]; rfl

theorem joinLower_withBrks (h : Heap) (brks : List (Option ℕ)) (p bp : ℕ) :
    joinLower (h.withBrks brks) p bp = (joinLower h p bp).withBrks brks := by
  unfold joinLower
  by_cases he : p + HDR * h.size p = bp
  · rw [if_pos he, if_pos (show p + HDR * (h.withBrks brks).size p = bp from he)]; rfl
  · rw [if_neg he, if_neg (show ¬ p + HDR * (h.withBrks brks).size p = bp from he)]; rfl

theorem freeLoop_withBrks (h : Heap) (brks : List (Option ℕ)) (bp : ℕ) : ∀ rounds p,
    freeLoop (h.withBrks brks) bp rounds p = freeLoop h bp rounds p
  | 0, _ => rfl
  | rounds + 1, p => by
      rw [freeLoop, freeLoop, freeLoop_withBrks h brks bp rounds]
      rfl

theorem free_withBrks (h : Heap) (brks : List (Option ℕ)) (ap : ℕ) :
    free (h.withBrks brks) ap = (free h ap).map fun h => h.withBrks brks := by
  rw [free, free, freeLoop_withBrks, Option.map_map]
  refine congrArg (fun f => Option.map f _) (funext fun p => ?_)
  show (joinLower (joinUpper (h.withBrks brks) _ _) p _).setFreep p = _
  rw [joinUpper_withBrks, joinLower_withBrks]
  rfl

theorem take_withBrks (h : Heap) (brks : List (Option ℕ)) (k prevp p : ℕ) :
    take (h.withBrks brks) k prevp p = ((take h k prevp p).1, (take h k prevp p).2.withBrks brks) := by
  unfold take
  by_cases he : h.size p = k
  · rw [if_pos he, if_pos (show (h.withBrks brks).size p = k from he)]; rfl
  · rw [if_neg he, if_neg (show ¬ (h.withBrks brks).size p = k from he)]; rfl

/-- A positive number of bytes is a region at the top. -/
theorem sys_sbrk_small (hpos : 0 < n) (hn : n < 2 ^ 31) (room : ℕ) (h : Heap) : sys_sbrk room h (asInt n) =
    if h.top + n ≤ room then (some h.top, { h with top := h.top + n }) else (none, h) := by
  rw [sys_sbrk, growproc, asInt_small hn, if_pos (by omega), Int.toNat_natCast]
  by_cases hroom : h.top + n ≤ room
  · rw [if_pos hroom, if_pos hroom]
  · rw [if_neg hroom, if_neg hroom]

theorem lt_pgroundup {a sz : ℕ} (ha : a < sz) : a < PGROUNDUP sz := by
  simp only [PGROUNDUP, PGSIZE]
  omega

theorem joinUpper_top (h : Heap) (bp next : ℕ) : (joinUpper h bp next).top = h.top := by
  rw [joinUpper]
  split <;> rfl

theorem joinLower_top (h : Heap) (p bp : ℕ) : (joinLower h p bp).top = h.top := by
  rw [joinLower]
  split <;> rfl

theorem free_top {ap : ℕ} (hf : free h ap = some h') : h'.top = h.top := by
  obtain ⟨p, -, rfl⟩ := Option.map_eq_some_iff.mp hf
  show (joinLower _ p _).top = h.top
  rw [joinLower_top, joinUpper_top]

/-- MORE memory, as the kernel gives it. -/
theorem coreFrom_small (hn : coreUnits k * HDR < 2 ^ 31) (room : ℕ) (h : Heap) (m : ℕ) :
    coreFrom room h k = some (none, h) ∧
      morecore (h.withBrks (answers room (coreUnits k * HDR) h.top (m + 1))) k =
        some (none, h.withBrks (answers room (coreUnits k * HDR) (h.top + coreUnits k * HDR) m)) ∨
    coreFrom room h k = none ∧ morecore (h.withBrks (answers room (coreUnits k * HDR) h.top (m + 1))) k = none ∨
    ∃ h', coreFrom room h k = some (some h'.freep, h') ∧ h'.top = h.top + coreUnits k * HDR ∧ h'.top ≤ room ∧
      morecore (h.withBrks (answers room (coreUnits k * HDR) h.top (m + 1))) k =
        some (some h'.freep, h'.withBrks (answers room (coreUnits k * HDR) h'.top m)) := by
  have hpos : 0 < coreUnits k * HDR := Nat.mul_pos (coreUnits_pos k) (by decide)
  rw [coreFrom, morecore, sys_sbrk_small hpos hn, answers, sbrk]
  by_cases hroom : h.top + coreUnits k * HDR ≤ room
  · right
    simp only [if_pos hroom, if_pos (lt_pgroundup (Nat.lt_add_of_pos_right hpos)), Heap.withBrks, Nat.add_zero]
    have hfree := free_withBrks (addCore { h with top := h.top + coreUnits k * HDR } h.top (coreUnits k))
      (answers room (coreUnits k * HDR) (h.top + coreUnits k * HDR) m) (h.top + HDR)
    cases hf : free (addCore { h with top := h.top + coreUnits k * HDR } h.top (coreUnits k)) (h.top + HDR) with
    | none =>
      rw [hf] at hfree
      exact .inl ⟨rfl, congrArg (Option.map _) hfree⟩
    | some h' =>
      rw [hf] at hfree
      have htop : h'.top = h.top + coreUnits k * HDR := free_top hf
      refine .inr ⟨h', rfl, htop, htop ▸ hroom, ?_⟩
      have hans : answers room (coreUnits k * HDR) h'.top m =
        answers room (coreUnits k * HDR) (h.top + coreUnits k * HDR) m := by rw [htop]
      rw [hans]
      exact congrArg (Option.map fun h : Heap => (some h.freep, h)) hfree
  · simp only [if_neg hroom]
    exact .inl ⟨trivial, rfl⟩

/-- SIMULATION: for a positive int, the loop does the same as with an `sbrk` that answers as the kernel would. -/
theorem loopFrom_bare (hn : coreUnits k * HDR < 2 ^ 31) (room : ℕ) : ∀ (rounds m : ℕ) (h : Heap) (prevp p : ℕ), rounds ≤ m →
    (loopFrom room k rounds h prevp p).map bare =
      (mallocLoop k rounds (h.withBrks (answers room (coreUnits k * HDR) h.top m)) prevp p).map bare
  | 0, _, _, _, _, _ => rfl
  | rounds + 1, 0, _, _, _, hm => absurd hm (by omega)
  | rounds + 1, m + 1, h, prevp, p, hm => by
      generalize hbrks : answers room (coreUnits k * HDR) h.top (m + 1) = brks
      rw [loopFrom, mallocLoop, take_withBrks]
      by_cases hsize : h.size p ≥ k
      · rw [if_pos hsize, if_pos (show (h.withBrks brks).size p ≥ k from hsize)]
        rfl
      rw [if_neg hsize, if_neg (show ¬ (h.withBrks brks).size p ≥ k from hsize)]
      by_cases hp : p = h.freep
      · rw [if_pos hp, if_pos (show p = (h.withBrks brks).freep from hp), ← hbrks]
        rcases coreFrom_small hn room h m with ⟨h1, h2⟩ | ⟨h1, h2⟩ | ⟨h', h1, -, -, h2⟩
        · rw [h1, h2]; rfl
        · rw [h1, h2]
        · rw [h1, h2]
          exact loopFrom_bare hn room rounds m h' h'.freep (h'.ptr h'.freep) (by omega)
      · rw [if_neg hp, if_neg (show ¬ p = (h.withBrks brks).freep from hp), ← hbrks]
        exact loopFrom_bare hn room rounds (m + 1) h p (h.ptr p) (by omega)

/-! ### Any program -/

/-- The memory of the process is what there was at the start and what went to `morecore`; it is physical memory. -/
structure Fits (s : Sys) : Prop where
  units : HDR * s.heap.units ≤ s.heap.top
  memory : s.heap.top ≤ MEMORY

theorem Sound.withBrks {xs : List ℕ} {brks : List (Option ℕ)} (hs : Sound base (h.withBrks brks) live xs) :
    Sound base h live xs := ⟨hs.blocks, hs.head, hs.links, hs.entry, hs.order, hs.fits⟩

theorem coreFrom_fits {r : Option ℕ} (hn : coreUnits k * HDR < 2 ^ 31) (hroom : room ≤ MEMORY)
    (hcore : coreFrom room h k = some (r, h')) (hfits : Fits ⟨h, live⟩) : h.top ≤ h'.top ∧ Fits ⟨h', live⟩ := by
  have hpos : 0 < coreUnits k * HDR := Nat.mul_pos (coreUnits_pos k) (by decide)
  rw [coreFrom, sys_sbrk_small hpos hn] at hcore
  by_cases hle : h.top + coreUnits k * HDR ≤ room
  · simp only [if_pos hle, if_pos (lt_pgroundup (Nat.lt_add_of_pos_right hpos))] at hcore
    obtain ⟨h₁, hf, heq⟩ := Option.map_eq_some_iff.mp hcore
    cases heq
    have htop : h'.top = h.top + coreUnits k * HDR := free_top hf
    have hunits : h'.units = h.units + coreUnits k := free_units hf
    have hu : HDR * h.units ≤ h.top := hfits.units
    refine ⟨by omega, ?_, ?_⟩
    · show HDR * h'.units ≤ h'.top
      rw [htop, hunits]
      simp only [HDR] at *
      omega
    · show h'.top ≤ MEMORY
      omega
  · simp only [if_neg hle] at hcore
    cases hcore
    exact ⟨le_rfl, hfits⟩

theorem loopFrom_fits (hn : coreUnits k * HDR < 2 ^ 31) (hroom : room ≤ MEMORY) : ∀ (rounds : ℕ) (h : Heap) (prevp p : ℕ)
    {r : Option ℕ} {h' : Heap}, loopFrom room k rounds h prevp p = some (r, h') → Fits ⟨h, live⟩ →
    h.top ≤ h'.top ∧ Fits ⟨h', live⟩
  | 0, _, _, _, _, _, hl, _ => nomatch hl
  | rounds + 1, h, prevp, p, r, h', hl, hfits => by
      rw [loopFrom] at hl
      split at hl
      · cases hl
        have htake : ∀ x, x = take h k prevp p → x.2.top = h.top ∧ x.2.units = h.units := by
          rintro x rfl
          unfold take
          split <;> exact ⟨rfl, rfl⟩
        obtain ⟨htop, hunits⟩ := htake _ rfl
        exact ⟨htop.ge, by rw [htop, hunits]; exact hfits.units, htop.trans_le hfits.memory⟩
      · split at hl
        · split at hl
          · cases hl
          · rename_i hcore
            cases hl
            exact coreFrom_fits hn hroom hcore hfits
          · rename_i hcore
            obtain ⟨h1, hfits'⟩ := coreFrom_fits hn hroom hcore hfits
            obtain ⟨h2, hfits''⟩ := loopFrom_fits hn hroom rounds _ _ _ hl hfits'
            exact ⟨h1.trans h2, hfits''⟩
        · exact loopFrom_fits hn hroom rounds h _ _ hl hfits

theorem start_fits (base : ℕ) (hfits : Fits s) : (start base s.heap).top = s.heap.top ∧ Fits ⟨start base s.heap, s.live⟩ := by
  unfold start
  split <;> exact ⟨rfl, hfits.units, hfits.memory⟩

/-- MALLOC on this kernel: it returns, everything is in order, and the process has not shrunk. -/
theorem mallocFrom_spec {nbytes : ℕ} (hbase : 0 < base) (hg : Good base s) (hfits : Fits s) (hroom : room ≤ MEMORY)
    (hsmall : nbytes ≤ 2 ^ 31 - 32) : ∃ r h', mallocFrom base room s.heap nbytes = some (r, h') ∧
      (∃ xs, Sound base h' (given nbytes s.live r) xs) ∧ s.heap.top ≤ h'.top ∧ Fits ⟨h', s.live⟩ := by
  have hn : coreUnits (units nbytes) * HDR < 2 ^ 31 := (small_iff nbytes).mpr hsmall
  obtain ⟨xs, hs⟩ := hg.start hbase
  obtain ⟨htop, hfits₀⟩ := start_fits base hfits
  generalize hrounds : 2 * ((start base s.heap).units + coreUnits (units nbytes)) + 4 = rounds
  generalize hbrks : answers room (coreUnits (units nbytes) * HDR) (start base s.heap).top rounds = brks
  have hspec := mallocLoop_spec (hs.brks brks) (units_enough nbytes) hrounds.le
  have hunits : HDR * (start base s.heap).units ≤ MEMORY := hfits₀.units.trans hfits₀.memory
  obtain ⟨⟨r, h₁⟩, hloop⟩ := Option.isSome_iff_exists.mp (hspec.2 (by
    show (start base s.heap).units + coreUnits (units nbytes) < 2 ^ 32
    simp only [HDR, MEMORY] at *
    omega))
  have hbare := loopFrom_bare hn room rounds rounds (start base s.heap) (start base s.heap).freep
    ((start base s.heap).ptr (start base s.heap).freep) le_rfl
  rw [hbrks] at hbare
  obtain ⟨⟨r', h'⟩, hl, heq⟩ := Option.map_eq_some_iff.mp (hbare.trans (congrArg (Option.map bare) hloop))
  obtain ⟨rfl, heq⟩ := Prod.mk.inj heq
  obtain ⟨hmono, hfits'⟩ := loopFrom_fits hn hroom rounds _ _ _ hl hfits₀
  have hu : h₁.units = h'.units := (congrArg Heap.units heq).symm
  have hu' : HDR * h'.units ≤ MEMORY := hfits'.units.trans hfits'.memory
  obtain ⟨xs', hs'⟩ := hspec.1 r' h₁ hloop (by
    rw [hu]
    simp only [HDR, MEMORY] at *
    omega)
  have hs'' : Sound base (h'.withBrks []) (given nbytes s.live r') xs' := heq ▸ hs'.brks []
  refine ⟨r', h', ?_, ⟨xs', hs''.withBrks⟩, htop ▸ hmono, hfits'⟩
  rw [mallocFrom, hrounds]
  exact hl

theorem given_inside {nbytes ap : ℕ} {xs : List ℕ} (hbase : 0 < base) (hs : Sound base h (given nbytes live (some ap)) xs) :
    ap + nbytes ≤ h.top := by
  have hs : Sound base h ((ap - HDR, nbytes) :: live) xs := hs
  obtain ⟨-, hlow, -⟩ := hs.live_ne
  have hfits := hs.fits _ List.mem_cons_self
  have hbelow := hs.blocks.below (ap - HDR) (by simp)
  simp only [HDR] at *
  omega

theorem call_good {c : Call} (hbase : 0 < base) (hsmall : callSmall c) (h : Good base s ∧ Fits s)
    (hc : call base s c = some t) : Good base t ∧ Fits t := by
  obtain ⟨hg, hfits⟩ := h
  have hunits : HDR * s.heap.units ≤ MEMORY := hfits.units.trans hfits.memory
  have hless : s.heap.units < 2 ^ 32 := by
    simp only [HDR, MEMORY] at hunits
    omega
  cases c with
  | malloc nbytes room =>
    simp only [call, Option.ite_none_right_eq_some] at hc
    obtain ⟨⟨hroom, -⟩, hc⟩ := hc
    obtain ⟨r, h', hm, hs, -, hfits'⟩ := mallocFrom_spec hbase hg hfits hroom hsmall
    rw [hm] at hc
    cases hc
    exact ⟨.inr hs, hfits'.units, hfits'.memory⟩
  | free i =>
    simp only [call, Option.ite_none_right_eq_some] at hc
    obtain ⟨hi, hc⟩ := hc
    obtain ⟨h', hf, rfl⟩ := Option.map_eq_some_iff.mp hc
    have hu : h'.units = s.heap.units := free_units hf
    have htop : h'.top = s.heap.top := free_top hf
    refine ⟨perform_good hbase hg (e := .free i) hi hc (by show h'.units < _; omega), ?_, ?_⟩
    · show HDR * h'.units ≤ h'.top
      rw [hu, htop]
      exact hfits.units
    · exact htop.trans_le hfits.memory
  | store a q n =>
    simp only [call, Option.ite_none_right_eq_some] at hc
    obtain ⟨ho, hc⟩ := hc
    refine ⟨perform_good hbase hg (e := .store a q n) ho hc ?_, ?_⟩
    · cases hc
      exact hless
    · cases hc
      exact ⟨hfits.units, hfits.memory⟩

/-- CORRECT (malloc on this kernel): as long as no call asks for more than 2^31 - 32 bytes, every call of `malloc`
    returns, it returns nothing or a block inside the process, and the process does not shrink. -/
theorem malloc_stays_inside {cs : List Call} (hi : Init base s) (hmem : s.heap.top ≤ MEMORY)
    (hrun : run (call base) s cs = some t) (hcs : ∀ c ∈ cs, callSmall c) (nbytes room : ℕ) (hroom : room ≤ MEMORY)
    (hn : nbytes ≤ 2 ^ 31 - 32) : ∃ r h', mallocFrom base room t.heap nbytes = some (r, h') ∧ t.heap.top ≤ h'.top ∧
      ∀ ap, r = some ap → ap + nbytes ≤ h'.top := by
  have hinit : Good base s ∧ Fits s :=
    ⟨.inl ⟨hi.freep, hi.top, hi.units, hi.live⟩, by rw [hi.units]; exact Nat.zero_le _, hmem⟩
  have hok : RunOk (call base) (fun _ c => callSmall c) s cs := RunOk.of_forall s hcs
  obtain ⟨hg, hfits⟩ := run_inv_of (I := fun s => Good base s ∧ Fits s)
    (fun s c t h hc hstep => call_good hi.pos hc h hstep) hinit hok hrun
  obtain ⟨r, h', hm, ⟨xs, hs⟩, htop, -⟩ := mallocFrom_spec hi.pos hg hfits hroom hn
  refine ⟨r, h', hm, htop, ?_⟩
  rintro ap rfl
  exact given_inside hi.pos hs

/-- A process of one page that has not called `malloc` yet. -/
def onePage : Sys := ⟨⟨fun _ => 0, fun _ => 0, 0, 4096, 0, []⟩, []⟩

theorem onePage_init : Init 16 onePage := ⟨by decide, rfl, by decide, rfl, rfl⟩

theorem malloc_stays_inside_onePage : ∃ t r h', run (call 16) onePage [.malloc 100 MEMORY, .free 0] = some t ∧
    mallocFrom 16 MEMORY t.heap 300 = some (r, h') ∧ t.heap.top ≤ h'.top ∧ ∀ ap, r = some ap → ap + 300 ≤ h'.top := by
  have hsome : (run (call 16) onePage [.malloc 100 MEMORY, .free 0]).isSome = true := by decide +kernel
  obtain ⟨t, ht⟩ := Option.isSome_iff_exists.mp hsome
  obtain ⟨r, h', hm, hrest⟩ := malloc_stays_inside onePage_init (by decide) ht
    (List.forall_mem_cons.mpr ⟨by show 100 ≤ 2 ^ 31 - 32; decide, List.forall_mem_singleton.mpr trivial⟩) 300 MEMORY le_rfl (by decide)
  exact ⟨t, r, h', ht, hm, hrest⟩

/-- `malloc(0xFFFFFFFF)` asks for 16 bytes, and returns the end of the process. -/
theorem malloc_returns_end : Init 16 onePage ∧ ∃ h', mallocFrom 16 MEMORY onePage.heap (2 ^ 32 - 1) = some (some 4112, h') ∧
    h'.top = 4112 := by
  have hview : (mallocFrom 16 MEMORY onePage.heap (2 ^ 32 - 1)).any
      (fun x => decide (x.1 = some 4112 ∧ x.2.top = 4112)) = true := by decide +kernel
  obtain ⟨⟨r, h'⟩, hm, hv⟩ := (Option.any_eq_true ..).mp hview
  obtain ⟨rfl, htop⟩ := of_decide_eq_true hv
  exact ⟨onePage_init, h', hm, htop⟩

end Minios.Umalloc
