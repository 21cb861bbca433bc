import Minios.Vm.Table

/-! `walk`, `mappages` and `uvmunmap` as operations on the map of a page table.

    Each says where pages went: the free pages and the page-table pages together are the same before and after
    (`Kept.held`), and no other page is written. So what one table does is nothing to anybody else. -/

namespace Minios.Vm
open Schemes Function Radix

variable {root : Frame} {p n : ℕ} {q : Slot} {pte : Word} {s t u : Machine} {f : Frame} {E : Panic → Prop}

/-! ### The allocator -/

/-- Pages the allocator accepts. -/
def Image.Ram (img : Image) (f : Frame) : Prop := img.kend ≤ f.pa ∧ f.pa < PHYSTOP

/-- An allocation was refused. -/
structure Denied (s t : Machine) : Prop where
  img : t.img = s.img
  mem : t.mem = s.mem
  free : t.free = s.free

/-- The page `f` was allocated. -/
structure Took (s : Machine) (f : Frame) (t : Machine) : Prop where
  img : t.img = s.img
  free : s.free = f :: t.free
  mem : t.mem = update s.mem f fun _ => 5

theorem kalloc_spec (s : Machine) : wp kalloc (fun r t => r.elim (Denied s t) fun f => Took s f t) E s := by
  show s.take.1.elim (Denied s s.take.2) fun f => Took s f s.take.2
  unfold Machine.take
  split
  · rename_i hfree
    exact ⟨rfl, hfree, rfl⟩
  · exact ⟨rfl, rfl, rfl⟩
  · exact ⟨rfl, rfl, rfl⟩

/-- The page `f` was freed. -/
structure Gave (s : Machine) (f : Frame) (t : Machine) : Prop where
  img : t.img = s.img
  free : t.free = f :: s.free
  mem : t.mem = update s.mem f fun _ => 1

theorem kfree_spec (h : s.img.Ram f) : wp (kfree f.pa) (fun _ t => Gave s f t) E s := by
  have halign : f.pa % PGSIZE = 0 := by
    refine BitVec.eq_of_toNat_eq ?_
    rw [BitVec.toNat_umod, pa_toNat]
    exact Nat.mul_mod_left ..
  have hok : ¬ (f.pa % PGSIZE ≠ 0 ∨ f.pa < s.img.kend ∨ f.pa ≥ PHYSTOP) := by
    rintro (h' | h' | h')
    · exact h' halign
    · exact absurd h.1 (BitVec.not_le.mpr h')
    · exact absurd h.2 (BitVec.not_lt.mpr h')
  rw [kfree, wp_bind, wp_get]
  simp only [if_neg hok, memset, wp_bind, wp_modify]
  exact ⟨rfl, by rw [frame_pa]; rfl, by rw [frame_pa]; rfl⟩

/-! ### Where the pages are -/

/-- The free pages and the page-table pages. -/
def held (s : Machine) (root : Frame) : Multiset Frame := s.free + tables s.mem root

theorem mem_held : f ∈ held s root ↔ f ∈ s.free ∨ f ∈ tables s.mem root := by
  rw [held, Multiset.mem_add, Multiset.mem_coe]

/-- A well-formed table, whose pages are not free. -/
structure Good (s : Machine) (root : Frame) : Prop where
  table : Table s.mem root
  apart : (held s root).Nodup

theorem Good.notMem (h : Good s root) (hf : f ∈ s.free) : f ∉ tables s.mem root :=
  Multiset.disjoint_left.mp (Multiset.nodup_add.mp h.apart).2.2 (Multiset.mem_coe.mpr hf)

/-- Pages moved from the free list to the table at most, and no other page was written. -/
structure Kept (s t : Machine) (root : Frame) : Prop where
  img : t.img = s.img
  held : held t root = held s root
  tables : tables s.mem root ≤ tables t.mem root
  frame : ∀ f, f ∉ Vm.held s root → t.mem f = s.mem f
  table : Table t.mem root

theorem Kept.refl (h : Good s root) : Kept s s root := ⟨rfl, rfl, le_rfl, fun _ _ => rfl, h.table⟩

theorem Kept.trans (h : Kept s t root) (h' : Kept t u root) : Kept s u root where
  img := h'.img.trans h.img
  held := h'.held.trans h.held
  tables := h.tables.trans h'.tables
  frame f hf := (h'.frame f (by rwa [h.held])).trans (h.frame f hf)
  table := h'.table

theorem Kept.good (h : Kept s t root) (hs : Good s root) : Good t root := ⟨h.table, by rw [h.held]; exact hs.apart⟩

theorem Denied.kept (h : Denied s t) (hs : Good s root) : Kept s t root where
  img := h.img
  held := by rw [held, held, h.free, h.mem]
  tables := by rw [h.mem]
  frame f _ := by rw [h.mem]
  table := by rw [h.mem]; exact hs.table

/-! ### `walk` -/

/-- The indices `walk` goes through from a level on. -/
def down (va : Word) : ℕ → List (Fin 512)
  | 0 => []
  | level + 1 => px (level + 1) va :: down va level

theorem down_two (va : Word) : down va 2 = path (pageno va) := by
  rw [path, ← px_eq, ← px_eq]; rfl

theorem walkLoop_false (va : Word) : ∀ (level : ℕ) (a : Frame),
    wp (walkLoop va false level a) (fun r t => t = s ∧ r = find (kid s.mem) a (down va level)) E s
  | 0, _ => ⟨rfl, rfl⟩
  | level + 1, a => by
    simp only [walkLoop, load, wp_bind, wp_get, wp_pure]
    by_cases hv : entry s.mem (a, px (level + 1) va) &&& PTE_V ≠ 0
    · have hkid : kid s.mem a (px (level + 1) va) = some (frame (PTE2PA (entry s.mem (a, px (level + 1) va)))) := if_pos hv
      rw [if_pos hv, down, find_cons_some hkid]
      exact walkLoop_false va level _
    · have hkid : kid s.mem a (px (level + 1) va) = none := if_neg hv
      rw [if_neg hv, if_pos trivial, down, find_cons_none hkid]
      exact ⟨rfl, rfl⟩

theorem walk_false {va : Word} (hva : va < MAXVA) :
    wp (walk root va false) (fun r t => t = s ∧ r = slot s.mem root (pageno va)) E s := by
  rw [walk, if_neg (BitVec.not_le.mpr hva)]
  refine (walkLoop_false va 2 root).bind ?_
  rintro r t ⟨ht, hr⟩
  refine ⟨ht, ?_⟩
  rw [hr, down_two, slot, px_eq]

theorem Took.graft {x : Frame} {i : Fin 512} {ks : List (Fin 512)} (h : Took s f t) (hs : Good s root)
    (hx : find (kid s.mem) root ks = some x) (hlen : ks.length ≤ 1) (hi : entry s.mem (x, i) &&& PTE_V = 0) :
    let u := t.setMem (grafted t.mem x i f)
    Kept s u root ∧ lookup u.mem root = lookup s.mem root ∧ find (kid u.mem) root (ks ++ [i]) = some f := by
  have hfree : f ∉ tables s.mem root := hs.notMem (by rw [h.free]; exact List.mem_cons_self)
  have hmem : grafted t.mem x i f = grafted s.mem x i f := by rw [grafted, grafted, h.mem, update_idem]
  have hxm : x ∈ tables s.mem root := mem_nodes_of_find hx (Nat.le_succ_of_le hlen)
  have hls : (ks ++ [i]).length ≤ 2 := by rw [List.length_append]; exact Nat.succ_le_succ hlen
  simp only [Machine.setMem, hmem]
  have htab := graft_tables hs.table hx hlen hfree hi
  refine ⟨⟨h.img, ?_, by rw [htab]; exact Multiset.le_cons_self _ f, fun g hg => ?_, graft_table hs.table hx hlen hfree hi⟩,
    graft_lookup hs.table hx hlen hfree hi, ?_⟩
  · rw [held, held, htab, h.free, ← Multiset.cons_coe, Multiset.cons_add, Multiset.add_cons]
  · refine grafted_of_ne ?_ ?_
    · rintro rfl; exact hg (mem_held.mpr (.inr hxm))
    · rintro rfl; exact hg (mem_held.mpr (.inl (by rw [h.free]; exact List.mem_cons_self)))
  · rw [graft_find hs.table hx hlen hfree hi hls, if_pos rfl]

/-- What `walk` did on the way to an entry: nothing the map shows. -/
structure Walked (s t : Machine) (root : Frame) : Prop where
  kept : Kept s t root
  lookup : lookup t.mem root = lookup s.mem root

theorem Walked.trans (h : Walked s t root) (h' : Walked t u root) : Walked s u root :=
  ⟨h.kept.trans h'.kept, h'.lookup.trans h.lookup⟩

theorem walkLoop_true (va : Word) (level : ℕ) : ∀ (ks : List (Fin 512)) (a : Frame) (s : Machine), Good s root →
    find (kid s.mem) root ks = some a → ks.length + level = 2 →
    wp (walkLoop va true level a) (fun r t => Walked s t root ∧
      ∀ b, r = some b → find (kid t.mem) root (ks ++ down va level) = some b) E s := by
  induction level with
  | zero =>
    intro ks a s hs ha _
    rw [walkLoop, wp_pure, down, List.append_nil]
    exact ⟨⟨.refl hs, rfl⟩, fun b hb => by rw [ha, hb]⟩
  | succ level ih =>
    intro ks a s hs ha hlen
    have hassoc : ks ++ px (level + 1) va :: down va level = ks ++ [px (level + 1) va] ++ down va level := by simp
    have hlen' : (ks ++ [px (level + 1) va]).length + level = 2 := by simp; omega
    rw [down, hassoc, walkLoop, load]
    simp only [wp_bind, wp_get, wp_pure]
    by_cases hv : entry s.mem (a, px (level + 1) va) &&& PTE_V ≠ 0
    · rw [if_pos hv]
      refine ih _ _ s hs ?_ hlen'
      rw [find_concat, ha]
      exact if_pos hv
    · rw [if_neg hv, if_neg Bool.noConfusion]
      refine (kalloc_spec s).bind fun r t hr => ?_
      cases r with
      | none => exact ⟨⟨Denied.kept hr hs, by rw [Denied.mem hr]⟩, by rintro b ⟨⟩⟩
      | some g =>
        obtain ⟨hkept, hlook, hfind⟩ := Took.graft hr hs ha (by omega) (not_not.mp hv)
        refine (ih _ _ _ (hkept.good hs) hfind hlen').mono ?_
        rintro b w ⟨hw, hb⟩
        exact ⟨.trans ⟨hkept, hlook⟩ hw, hb⟩

/-- With allocation, `walk` finds where the entry is, or will be; only a refused allocation stops it. -/
theorem walk_true {va : Word} (hs : Good s root) (hva : va < MAXVA) :
    wp (walk root va true) (fun r t => Walked s t root ∧ ∀ q, r = some q → slot t.mem root (pageno va) = some q) E s := by
  rw [walk, if_neg (BitVec.not_le.mpr hva)]
  refine (walkLoop_true va 2 [] root s hs rfl rfl).bind ?_
  rintro r t ⟨ht, hr⟩
  refine ⟨ht, fun q hq => ?_⟩
  obtain ⟨a, ha, rfl⟩ := Option.map_eq_some_iff.mp hq
  have hfind : find (kid t.mem) root (down va 2) = some a := hr a ha
  rw [slot, ← down_two, px_eq, hfind]; rfl

/-! ### Storing a leaf -/

theorem Good.store (hs : Good s root) (hp : p < 2 ^ 27) (hq : slot s.mem root p = some q) (pte : Word) :
    let t := s.setMem (setEntry s.mem q pte)
    Kept s t root ∧ tables t.mem root = tables s.mem root ∧ lookup t.mem root = update (lookup s.mem root) p (valid pte) := by
  have htab := store_tables hs.table hq pte
  refine ⟨⟨rfl, ?_, htab.ge, fun f hf => setEntry_of_ne ?_, store_table hs.table hq pte⟩, htab,
    store_lookup hs.table hp hq pte⟩
  · rw [held, held]
    exact congrArg (_ + ·) htab
  · rintro rfl
    exact hf (mem_held.mpr (.inr (slot_mem hq)))

/-! ### `mappages` -/

theorem vaddr_lt (hp : p < 2 ^ 26) : vaddr p < MAXVA := by
  rw [BitVec.lt_def, vaddr_toNat (by omega), show MAXVA.toNat = 2 ^ 38 from rfl]
  omega

/-- The map with `n` more pages from `p` on, for consecutive physical addresses. -/
def mapped (F : ℕ → Option Word) (p n : ℕ) (pa perm : Word) : ℕ → Option Word := fun x =>
  if p ≤ x ∧ x < p + n then some (PA2PTE (pa + vaddr (x - p)) ||| perm ||| PTE_V) else F x

theorem mapped_zero (F : ℕ → Option Word) (p : ℕ) (pa perm : Word) : mapped F p 0 pa perm = F :=
  funext fun x => if_neg (by omega)

theorem mapped_succ (F : ℕ → Option Word) (p n : ℕ) (pa perm : Word) :
    mapped (update F p (some (PA2PTE pa ||| perm ||| PTE_V))) (p + 1) n (pa + PGSIZE) perm = mapped F p (n + 1) pa perm := by
  funext x
  rw [mapped, mapped]
  rcases eq_or_ne x p with rfl | hne
  · have hz : pa + vaddr (x - x) = pa := by rw [Nat.sub_self]; exact BitVec.add_zero pa
    rw [if_neg (by omega), update_self, if_pos (by omega), hz]
  · rw [update_of_ne hne]
    by_cases hx : p + 1 ≤ x ∧ x < p + 1 + n
    · have hstep : pa + PGSIZE + vaddr (x - (p + 1)) = pa + vaddr (x - p) := by
        rw [show x - p = x - (p + 1) + 1 by omega, ← vaddr_succ, BitVec.add_assoc, BitVec.add_comm PGSIZE]
      rw [if_pos hx, if_pos (by omega), hstep]
    · rw [if_neg hx, if_neg (by omega)]

theorem mappagesLoop_round {last pa perm : Word} {rounds : ℕ} {Q : ℤ → Machine → Prop} (hs : Good s root) (hp : p < 2 ^ 26)
    (hnone : lookup s.mem root p = none) (hfail : ∀ t, Walked s t root → Q (-1) t)
    (hgo : ∀ t, Kept s t root → lookup t.mem root = update (lookup s.mem root) p (some (PA2PTE pa ||| perm ||| PTE_V)) →
      wp (if vaddr p = last then pure 0 else mappagesLoop root last perm rounds (vaddr (p + 1)) (pa + PGSIZE)) Q E t) :
    wp (mappagesLoop root last perm (rounds + 1) (vaddr p) pa) Q E s := by
  rw [mappagesLoop]
  refine (walk_true hs (vaddr_lt hp)).bind ?_
  rintro r t ⟨hw, hr⟩
  cases r with
  | none => exact hfail t hw
  | some q =>
    have hq : slot t.mem root p = some q := by rw [← hr q rfl, pageno_vaddr (by omega)]
    have hempty : ¬ entry t.mem q &&& PTE_V ≠ 0 := fun hv => by
      rw [← hw.lookup, lookup_of_slot (by omega) hq, valid_pos hv] at hnone
      cases hnone
    obtain ⟨hkept, -, hlook⟩ := (hw.kept.good hs).store (by omega) hq (PA2PTE pa ||| perm ||| PTE_V)
    simp only [load, store, wp_bind, wp_get, wp_pure, wp_modify, if_neg hempty]
    rw [vaddr_succ]
    refine hgo _ (hw.kept.trans hkept) ?_
    rw [hlook, hw.lookup, valid_pos (or_valid _)]

theorem vaddr_inj {p p' : ℕ} (hp : p < 2 ^ 52) (hp' : p' < 2 ^ 52) (h : vaddr p = vaddr p') : p = p' := by
  rw [← pageno_vaddr hp, h, pageno_vaddr hp']

/-- MAP: on success all pages are mapped, on failure the first `k`. -/
theorem mappagesLoop_spec (perm : Word) (n : ℕ) : ∀ (p : ℕ) (pa : Word) (s : Machine), Good s root → p + n < 2 ^ 26 →
    (∀ x, p ≤ x → x ≤ p + n → lookup s.mem root x = none) →
    wp (mappagesLoop root (vaddr (p + n)) perm (n + 1) (vaddr p) pa) (fun r t => Kept s t root ∧
      ((r = 0 ∧ lookup t.mem root = mapped (lookup s.mem root) p (n + 1) pa perm) ∨
        (r = -1 ∧ ∃ k ≤ n, lookup t.mem root = mapped (lookup s.mem root) p k pa perm))) E s := by
  induction n with
  | zero =>
    intro p pa s hs hlt hnone
    refine mappagesLoop_round hs (by omega) (hnone p le_rfl (by omega)) (fun t hw => ?_) fun t hk hl => ?_
    · exact ⟨hw.kept, .inr ⟨rfl, 0, le_rfl, by rw [hw.lookup, mapped_zero]⟩⟩
    · rw [Nat.add_zero, if_pos rfl]
      exact ⟨hk, .inl ⟨rfl, by rw [← mapped_succ, mapped_zero, hl]⟩⟩
  | succ n ih =>
    intro p pa s hs hlt hnone
    refine mappagesLoop_round hs (by omega) (hnone p le_rfl (by omega)) (fun t hw => ?_) fun t hk hl => ?_
    · exact ⟨hw.kept, .inr ⟨rfl, 0, Nat.zero_le _, by rw [hw.lookup, mapped_zero]⟩⟩
    · have hne : vaddr p ≠ vaddr (p + (n + 1)) := fun he => by
        have := vaddr_inj (by omega) (by omega) he
        omega
      have hnone' : ∀ x, p + 1 ≤ x → x ≤ p + 1 + n → lookup t.mem root x = none := fun x hx hx' => by
        rw [hl, update_of_ne (by omega)]
        exact hnone x (by omega) (by omega)
      rw [if_neg hne, show p + (n + 1) = p + 1 + n by omega]
      refine (ih (p + 1) (pa + PGSIZE) t (hk.good hs) (by omega) hnone').mono ?_
      rintro r u ⟨hu, hr⟩
      refine ⟨hk.trans hu, ?_⟩
      rcases hr with ⟨hr, hru⟩ | ⟨hr, k, hkn, hru⟩
      · exact .inl ⟨hr, by rw [hru, hl, mapped_succ]⟩
      · exact .inr ⟨hr, k + 1, by omega, by rw [hru, hl, mapped_succ]⟩

theorem mod_PGSIZE {a : Word} : a % PGSIZE = 0 ↔ a.toNat % 4096 = 0 := by
  refine ⟨fun h => ?_, fun h => BitVec.eq_of_toNat_eq (by rw [BitVec.toNat_umod]; exact h)⟩
  have := congrArg BitVec.toNat h
  rwa [BitVec.toNat_umod] at this

/-- The pages `mappages` is asked for, when it does not panic about the request itself. -/
structure Asked (va size : Word) (p n : ℕ) : Prop where
  va : va = vaddr p
  size : size.toNat = (n + 1) * 4096
  lt : p + n < 2 ^ 26

theorem mappages_spec {va size : Word} (ha : Asked va size p n) (pa perm : Word) (hs : Good s root)
    (hnone : ∀ x, p ≤ x → x ≤ p + n → lookup s.mem root x = none) :
    wp (mappages root va size pa perm) (fun r t => Kept s t root ∧
      ((r = 0 ∧ lookup t.mem root = mapped (lookup s.mem root) p (n + 1) pa perm) ∨
        (r = -1 ∧ ∃ k ≤ n, lookup t.mem root = mapped (lookup s.mem root) p k pa perm))) E s := by
  obtain ⟨rfl, hsize, hlt⟩ := ha
  have hva : ¬ vaddr p % PGSIZE ≠ 0 := not_not.mpr (mod_PGSIZE.mpr (by rw [vaddr_toNat (by omega)]; omega))
  have hmod : ¬ size % PGSIZE ≠ 0 := not_not.mpr (mod_PGSIZE.mpr (by omega))
  have hpos : ¬ size = 0 := fun h => by
    have : size.toNat = 0 := congrArg BitVec.toNat h
    omega
  have hlast : vaddr p + size - PGSIZE = vaddr (p + n) := by
    have h1 := vaddr_toNat (p := p) (by omega)
    have h2 := vaddr_toNat (p := p + n) (by omega)
    refine BitVec.eq_of_toNat_eq ?_
    bv_omega
  have hrounds : size.toNat / 4096 = n + 1 := by omega
  rw [mappages, if_neg hva, if_neg hmod, if_neg hpos, hlast, hrounds]
  exact mappagesLoop_spec perm n p pa s hs hlt hnone

/-! ### `uvmunmap` -/

/-- The frame of an entry. -/
def frameOf (o : Option Word) : Frame := o.elim 0 fun pte => frame (PTE2PA pte)

/-- The frames of `n` pages from `p` on. -/
def frames (F : ℕ → Option Word) (p n : ℕ) : Multiset Frame := ((List.range' p n).map fun x => frameOf (F x) : List Frame)

/-- The map without `n` pages from `p` on. -/
def unmapped (F : ℕ → Option Word) (p n : ℕ) : ℕ → Option Word := fun x => if p ≤ x ∧ x < p + n then none else F x

theorem frames_succ (F : ℕ → Option Word) (p n : ℕ) : frames F p (n + 1) = frameOf (F p) ::ₘ frames F (p + 1) n := by
  rw [frames, List.range'_succ, List.map_cons, ← Multiset.cons_coe]; rfl

theorem frames_congr {F G : ℕ → Option Word} (h : ∀ x, p ≤ x → x < p + n → F x = G x) : frames F p n = frames G p n := by
  rw [frames, frames, List.map_congr_left]
  intro x hx
  rw [List.mem_range'_1] at hx
  rw [h x hx.1 hx.2]

theorem unmapped_succ (F : ℕ → Option Word) (p n : ℕ) :
    unmapped (update F p none) (p + 1) n = unmapped F p (n + 1) := by
  funext x
  rw [unmapped, unmapped]
  rcases eq_or_ne x p with rfl | hne
  · rw [if_neg (by omega), update_self, if_pos (by omega)]
  · rw [update_of_ne hne]
    by_cases hx : p + 1 ≤ x ∧ x < p + 1 + n
    · rw [if_pos hx, if_pos (by omega)]
    · rw [if_neg hx, if_neg (by omega)]

theorem unmapped_mapped {F : ℕ → Option Word} (h : ∀ x, p ≤ x → x < p + n → F x = none) (pa perm : Word) :
    unmapped (mapped F p n pa perm) p n = F := by
  funext x
  rw [unmapped, mapped]
  split
  · rename_i hx; rw [h x hx.1 hx.2]
  · rfl

theorem Gave.good (h : Gave s f t) (hs : Good s root) (hf : f ∉ held s root) : SameTable s.mem t.mem root ∧
    Good t root ∧ held t root = f ::ₘ held s root := by
  have hsame : ∀ g ∈ tables s.mem root, t.mem g = s.mem g := fun g hg => by
    rw [h.mem, update_of_ne]
    rintro rfl
    exact hf (mem_held.mpr (.inr hg))
  have hst := sameTable hsame
  have hheld : held t root = f ::ₘ held s root := by
    rw [held, held, h.free, hst.tables, ← Multiset.cons_coe, Multiset.cons_add]
  exact ⟨hst, ⟨hs.table.congr hsame, by rw [hheld, Multiset.nodup_cons]; exact ⟨hf, hs.apart⟩⟩, hheld⟩

/-- What `uvmunmap` did, with the pages it freed. -/
structure Unmapped (s t : Machine) (root : Frame) (p n : ℕ) (freed : Multiset Frame) : Prop where
  img : t.img = s.img
  tables : tables t.mem root = tables s.mem root
  free : (t.free : Multiset Frame) = s.free + freed
  frame : ∀ f, f ∉ Vm.tables s.mem root → f ∉ freed → t.mem f = s.mem f
  table : Table t.mem root
  lookup : lookup t.mem root = unmapped (lookup s.mem root) p n

/-- Leaf entries that `uvmunmap` accepts. -/
def Leaf (o : Option Word) : Prop := ∃ pte, o = some pte ∧ PTE_FLAGS pte ≠ PTE_V

theorem PTE2PA_align (pte : Word) : (PTE2PA pte).toNat % 4096 = 0 := by
  rw [PTE2PA, BitVec.toNat_shiftLeft, Nat.shiftLeft_eq]
  omega

/-- The pages `uvmunmap` frees. -/
def freed (do_free : Bool) (F : ℕ → Option Word) (p n : ℕ) : Multiset Frame := if do_free then frames F p n else 0

theorem freed_zero (do_free : Bool) (F : ℕ → Option Word) (p : ℕ) : freed do_free F p 0 = 0 := ite_self 0

theorem freed_succ (do_free : Bool) (F : ℕ → Option Word) (p n : ℕ) :
    freed do_free F p (n + 1) = freed do_free F p 1 + freed do_free F (p + 1) n := by
  cases do_free with
  | false => rfl
  | true =>
    show frames F p (n + 1) = frames F p 1 + frames F (p + 1) n
    rw [frames_succ, frames_succ F p 0, ← Multiset.singleton_add, ← Multiset.singleton_add, add_assoc]
    exact congrArg _ (zero_add _).symm

theorem freed_one (F : ℕ → Option Word) (p : ℕ) : freed true F p 1 = {frameOf (F p)} := frames_succ F p 0

theorem freed_congr {do_free : Bool} {F G : ℕ → Option Word} (h : ∀ x, p ≤ x → x < p + n → F x = G x) :
    freed do_free F p n = freed do_free G p n := by
  rw [freed, freed, frames_congr h]

theorem Good.clear (hs : Good s root) (hp : p < 2 ^ 27) (hq : slot s.mem root p = some q) :
    Unmapped s (s.setMem (setEntry s.mem q 0#64)) root p 1 0 := by
  obtain ⟨hkept, htab, hlook⟩ := hs.store hp hq 0#64
  refine ⟨rfl, htab, (add_zero _).symm, fun f hf _ => setEntry_of_ne ?_, hkept.table, ?_⟩
  · rintro rfl; exact hf (slot_mem hq)
  · rw [hlook, valid_zero, ← unmapped_succ]
    exact (funext fun x => if_neg (by omega)).symm

theorem Gave.clear (h : Gave s f t) (hs : Good s root) (hf : f ∉ held s root) (hp : p < 2 ^ 27)
    (hq : slot s.mem root p = some q) : Unmapped s (t.setMem (setEntry t.mem q 0#64)) root p 1 {f} := by
  obtain ⟨hsame, ht, -⟩ := h.good hs hf
  have hc := ht.clear hp ((hsame.slot p).trans hq)
  refine ⟨hc.img.trans h.img, hc.tables.trans hsame.tables, ?_, fun g hg hgf => ?_, hc.table, by rw [hc.lookup, hsame.lookup]⟩
  · rw [hc.free, h.free, ← Multiset.cons_coe, add_zero, ← Multiset.singleton_add, add_comm]
  · rw [hc.frame g (by rwa [hsame.tables]) (Multiset.notMem_zero g), h.mem,
      update_of_ne (fun he => hgf (Multiset.mem_singleton.mpr he))]

theorem Unmapped.held {A : Multiset Frame} (h : Unmapped s t root p n A) : held t root = held s root + A := by
  rw [Vm.held, Vm.held, h.tables, h.free, add_right_comm]

theorem Unmapped.trans {A B : Multiset Frame} (h : Unmapped s t root p 1 A) (h' : Unmapped t u root (p + 1) n B) :
    Unmapped s u root p (n + 1) (A + B) where
  img := h'.img.trans h.img
  tables := h'.tables.trans h.tables
  free := by rw [h'.free, h.free, add_assoc]
  frame f hf hA := by
    rw [h'.frame f (by rwa [h.tables]) fun hm => hA (Multiset.mem_add.mpr (.inr hm)),
      h.frame f hf fun hm => hA (Multiset.mem_add.mpr (.inl hm))]
  table := h'.table
  lookup := by
    rw [h'.lookup, h.lookup, ← unmapped_succ, ← unmapped_succ]
    congr 1
    exact funext fun x => if_neg (by omega)

theorem Leaf.slot {o : Option Word} (h : Leaf o) (ho : lookup s.mem root p = o) : ∃ q, slot s.mem root p = some q ∧
    entry s.mem q &&& PTE_V ≠ 0 ∧ PTE_FLAGS (entry s.mem q) ≠ PTE_V ∧ frameOf o = frame (PTE2PA (entry s.mem q)) := by
  obtain ⟨pte, rfl, hflags⟩ := h
  obtain ⟨q, hq, rfl⟩ := slot_of_lookup ho
  exact ⟨q, hq, valid_of_lookup ho, hflags, rfl⟩

/-- UNMAP: the pages are gone from the map, and free again if that was wanted. -/
theorem uvmunmapLoop_spec (do_free : Bool) (n : ℕ) : ∀ (p : ℕ) (s : Machine), Table s.mem root → p + n ≤ 2 ^ 26 →
    (∀ x, p ≤ x → x < p + n → Leaf (lookup s.mem root x)) →
    (held s root + freed do_free (lookup s.mem root) p n).Nodup →
    (∀ f ∈ freed do_free (lookup s.mem root) p n, s.img.Ram f) →
    wp (uvmunmapLoop root (vaddr (p + n)) do_free (n + 1) (vaddr p))
      (fun _ t => Unmapped s t root p n (freed do_free (lookup s.mem root) p n)) E s := by
  induction n with
  | zero =>
    intro p s ht hlt hleaf hn hram
    rw [uvmunmapLoop, Nat.add_zero, if_neg (BitVec.lt_irrefl _), freed_zero]
    exact ⟨rfl, rfl, (add_zero _).symm, fun _ _ _ => rfl, ht, (funext fun x => if_neg (by omega)).symm⟩
  | succ n ih =>
    intro p s ht hlt hleaf hn hram
    rw [freed_succ] at hn hram
    obtain ⟨q, hq, hv, hflags, hframe⟩ := (hleaf p le_rfl (by omega)).slot rfl
    have hs : Good s root := ⟨ht, (Multiset.nodup_add.mp hn).1⟩
    have hbound : vaddr p < vaddr (p + (n + 1)) := by
      rw [BitVec.lt_def, vaddr_toNat (by omega), vaddr_toNat (by omega)]
      omega
    -- what is left to do once this entry is cleared
    have hrest : ∀ t, Unmapped s t root p 1 (freed do_free (lookup s.mem root) p 1) →
        wp (uvmunmapLoop root (vaddr (p + (n + 1))) do_free (n + 1) (vaddr p + PGSIZE))
          (fun _ t => Unmapped s t root p (n + 1) (freed do_free (lookup s.mem root) p (n + 1))) E t := fun t hu => by
      have hsame : ∀ x, p + 1 ≤ x → x < p + 1 + n → lookup t.mem root x = lookup s.mem root x := fun x hx _ => by
        rw [hu.lookup]
        exact if_neg (by omega)
      rw [vaddr_succ, show p + (n + 1) = p + 1 + n by omega, freed_succ]
      refine (ih (p + 1) t hu.table (by omega) (fun x hx hx' => ?_) ?_ ?_).mono fun _ w hw => ?_
      · rw [hsame x hx hx']; exact hleaf x (by omega) (by omega)
      · rwa [hu.held, freed_congr hsame, add_assoc]
      · rw [freed_congr hsame, hu.img]
        exact fun f hf => hram f (Multiset.mem_add.mpr (.inr hf))
      · rw [freed_congr hsame] at hw
        exact hu.trans hw
    rw [uvmunmapLoop, if_pos hbound]
    refine (walk_false (vaddr_lt (by omega))).bind ?_
    rintro r t ⟨hts, hr⟩
    subst hts
    rw [pageno_vaddr (by omega), hq] at hr
    subst hr
    simp only [load, wp_bind, wp_get, wp_pure, if_neg hv, if_neg hflags]
    cases do_free with
    | false => exact hrest _ (hs.clear (by omega) hq)
    | true =>
      rw [freed_one, hframe] at hn hram hrest
      have hmem : frame (PTE2PA (entry t.mem q)) ∉ held t root := fun hm =>
        Multiset.disjoint_left.mp (Multiset.nodup_add.mp hn).2.2 hm
          (Multiset.mem_add.mpr (.inl (Multiset.mem_singleton_self _)))
      rw [if_pos rfl, ← pa_frame (PTE2PA_align (entry t.mem q))]
      refine (kfree_spec (hram _ (Multiset.mem_add.mpr (.inl (Multiset.mem_singleton_self _))))).bind fun _ w hw => ?_
      exact hrest _ (hw.clear hs hmem (by omega) hq)

theorem uvmunmap_spec {npages : Word} {do_free : Bool} (hn : npages.toNat = n) (ht : Table s.mem root)
    (hlt : p + n ≤ 2 ^ 26) (hleaf : ∀ x, p ≤ x → x < p + n → Leaf (lookup s.mem root x))
    (hnodup : (held s root + freed do_free (lookup s.mem root) p n).Nodup)
    (hram : ∀ f ∈ freed do_free (lookup s.mem root) p n, s.img.Ram f) :
    wp (uvmunmap root (vaddr p) npages do_free)
      (fun _ t => Unmapped s t root p n (freed do_free (lookup s.mem root) p n)) E s := by
  have hva : ¬ vaddr p % PGSIZE ≠ 0 := not_not.mpr (mod_PGSIZE.mpr (by rw [vaddr_toNat (by omega)]; omega))
  have hstop : vaddr p + npages * PGSIZE = vaddr (p + n) := by
    have h1 := vaddr_toNat (p := p) (by omega)
    have h2 := vaddr_toNat (p := p + n) (by omega)
    have h3 : (npages * PGSIZE).toNat = n * 4096 := by
      rw [BitVec.toNat_mul, hn]
      exact Nat.mod_eq_of_lt (by show n * 4096 < 2 ^ 64; omega)
    refine BitVec.eq_of_toNat_eq ?_
    bv_omega
  rw [uvmunmap, if_neg hva, hstop, hn]
  exact uvmunmapLoop_spec do_free n p s ht hlt hleaf hnodup hram

/-! ### Page tables refine maps -/

/-- The leaf that `walk` without allocation finds. -/
def leaf (s : Machine) (root : Frame) (va : Word) : Option Word := match walk root va false s with
  | .ok (some q, _) => valid (entry s.mem q)
  | .ok (none, _) => none
  | .error _ => none

theorem pageno_lt {va : Word} (hva : va < MAXVA) : pageno va < 2 ^ 26 := by
  rw [BitVec.lt_def, show MAXVA.toNat = 2 ^ 38 from rfl] at hva
  rw [pageno]; omega

theorem lt_MAXVA {va : Word} (h : pageno va < 2 ^ 26) : va < MAXVA := by
  rw [BitVec.lt_def, show MAXVA.toNat = 2 ^ 38 from rfl]
  rw [pageno] at h
  omega

theorem leaf_eq {va : Word} (hva : va < MAXVA) : leaf s root va = lookup s.mem root (pageno va) := by
  have hlt : pageno va < 2 ^ 27 := Nat.lt_trans (pageno_lt hva) (by decide)
  obtain ⟨r, t, hw, rfl, hr⟩ := (walk_false (E := fun _ => False) hva).returns
  rw [leaf, hw, hr]
  cases hq : slot s.mem root (pageno va) with
  | none => exact (slot_none hq).symm
  | some q => exact (lookup_of_slot hlt hq).symm

/-- The addresses of `n` pages from `va` on. -/
def Within (va : Word) (n : ℕ) (a : Word) : Prop := va.toNat ≤ a.toNat ∧ a.toNat < va.toNat + n * 4096

/-- The first `n` pages from `va` on are mapped to consecutive pages from `pa` on, the rest is as before. -/
structure Mapped (s t : Machine) (root : Frame) (va : Word) (n : ℕ) (pa perm : Word) : Prop where
  here : ∀ a, Within va n a → leaf t root a = some (PA2PTE (pa + (PGROUNDDOWN a - va)) ||| perm ||| PTE_V)
  beside : ∀ a < MAXVA, ¬ Within va n a → leaf t root a = leaf s root a

theorem within_iff {a : Word} (hp : p < 2 ^ 26) : Within (vaddr p) n a ↔ p ≤ pageno a ∧ pageno a < p + n := by
  rw [Within, vaddr_toNat (by omega), pageno]
  omega

theorem mapped_of_lookup {pa perm : Word} (hlt : p + n ≤ 2 ^ 26) (hp : p < 2 ^ 26)
    (h : lookup t.mem root = mapped (lookup s.mem root) p n pa perm) : Mapped s t root (vaddr p) n pa perm := by
  refine ⟨fun a ha => ?_, fun a hmax ha => ?_⟩
  · have hr := (within_iff hp).mp ha
    have hmax : a < MAXVA := lt_MAXVA (by omega)
    have hoff : PGROUNDDOWN a - vaddr p = vaddr (pageno a - p) := by
      have h1 := vaddr_toNat (p := p) (by omega)
      have h2 := vaddr_toNat (p := pageno a) (by omega)
      have h3 := vaddr_toNat (p := pageno a - p) (by omega)
      rw [PGROUNDDOWN_eq]
      refine BitVec.eq_of_toNat_eq ?_
      bv_omega
    rw [leaf_eq hmax, h, mapped, if_pos hr, hoff]
  · rw [leaf_eq hmax, leaf_eq hmax, h, mapped, if_neg fun hr => ha ((within_iff hp).mpr hr)]

theorem leaf_entry {pa perm : Word} (hperm : perm &&& (PTE_R ||| PTE_W ||| PTE_X) ≠ 0) :
    PTE_FLAGS (PA2PTE pa ||| perm ||| PTE_V) ≠ PTE_V := fun h => hperm <| by
  have hflags : PTE_FLAGS (PA2PTE pa ||| perm ||| PTE_V) &&& (PTE_R ||| PTE_W ||| PTE_X) =
      perm &&& (PTE_R ||| PTE_W ||| PTE_X) := by
    rw [PTE_FLAGS, BitVec.and_assoc, show (0x3FF#64 &&& (PTE_R ||| PTE_W ||| PTE_X)) = PTE_R ||| PTE_W ||| PTE_X by decide,
      BitVec.or_assoc, entry_and (by decide), BitVec.and_comm, BitVec.and_or_distrib_left,
      show ((PTE_R ||| PTE_W ||| PTE_X) &&& PTE_V) = 0#64 by decide, BitVec.or_zero, BitVec.and_comm]
  rw [← hflags, h]
  decide

/-- The pages from `pa` on are pages that may be freed: not in use by the table or free already. -/
def Owned (s : Machine) (root : Frame) (pa : Word) (n : ℕ) : Prop :=
  ∀ k < n, s.img.Ram (frame (pa + vaddr k)) ∧ frame (pa + vaddr k) ∉ held s root

theorem frames_mapped {F : ℕ → Option Word} {pa perm : Word} (hpa : pa % PGSIZE = 0) (hperm : perm.toNat < 1024) (p n : ℕ) :
    frames (mapped F p n pa perm) p n = ((List.range n).map fun k => frame (pa + vaddr k) : List Frame) := by
  rw [frames, List.range'_eq_map_range, List.map_map]
  refine congrArg _ (List.map_congr_left fun k hk => ?_)
  have halign : (pa + vaddr k).toNat % 4096 = 0 := by
    have := mod_PGSIZE.mp hpa
    rw [BitVec.toNat_add, vaddr, BitVec.toNat_ofNat]
    omega
  have hv : (perm ||| PTE_V).toNat < 1024 := by
    rw [BitVec.toNat_or]
    exact Nat.or_lt_two_pow (n := 10) hperm (by decide)
  rw [Function.comp_apply, mapped, if_pos (by have := List.mem_range.mp hk; omega), Nat.add_sub_cancel_left, frameOf,
    Option.elim_some, BitVec.or_assoc, PTE2PA_entry halign hv]

theorem nodup_run (pa : Word) (hn : n ≤ 2 ^ 26) : ((List.range n).map fun k => frame (pa + vaddr k)).Nodup := by
  refine List.Nodup.map_on (fun k hk l hl he => ?_) List.nodup_range
  have hk := List.mem_range.mp hk
  have hl := List.mem_range.mp hl
  have := congrArg BitVec.toNat he
  simp only [frame_toNat, BitVec.toNat_add, vaddr, BitVec.toNat_ofNat] at this
  have := pa.isLt
  omega

theorem unmap_restores {pa perm : Word} {do_free : Bool} {npages : Word} (hs : Good s root) (hk : Kept s t root)
    (hlt : p + n ≤ 2 ^ 26) (hnpages : npages.toNat = n) (hperm : perm &&& (PTE_R ||| PTE_W ||| PTE_X) ≠ 0)
    (hnone : ∀ x, p ≤ x → x < p + n → lookup s.mem root x = none)
    (hl : lookup t.mem root = mapped (lookup s.mem root) p n pa perm)
    (hfree : do_free = true → pa % PGSIZE = 0 ∧ perm.toNat < 1024 ∧ Owned s root pa n) :
    wp (uvmunmap root (vaddr p) npages do_free) (fun _ u => lookup u.mem root = lookup s.mem root) E t := by
  have hleaf : ∀ x, p ≤ x → x < p + n → Leaf (lookup t.mem root x) := fun x hx hx' =>
    ⟨_, by rw [hl, mapped, if_pos ⟨hx, hx'⟩], leaf_entry hperm⟩
  have hfreed : do_free = true → freed do_free (lookup t.mem root) p n =
      ((List.range n).map fun k => frame (pa + vaddr k) : List Frame) := fun hd => by
    rw [freed, if_pos hd, hl, frames_mapped (hfree hd).1 (hfree hd).2.1]
  have hmem : ∀ f ∈ freed do_free (lookup t.mem root) p n, t.img.Ram f ∧ f ∉ held t root := fun f hf => by
    cases do_free with
    | false => exact absurd hf (Multiset.notMem_zero f)
    | true =>
      rw [hfreed rfl, Multiset.mem_coe, List.mem_map] at hf
      obtain ⟨k, hkn, rfl⟩ := hf
      rw [hk.img, hk.held]
      exact (hfree rfl).2.2 k (List.mem_range.mp hkn)
  have hnodup : (freed do_free (lookup t.mem root) p n).Nodup := by
    cases do_free with
    | false => exact Multiset.nodup_zero
    | true =>
      rw [hfreed rfl]
      exact Multiset.coe_nodup.mpr (nodup_run pa (by omega))
  refine (uvmunmap_spec hnpages hk.table hlt hleaf ?_ fun f hf => (hmem f hf).1).mono fun _ u hu => ?_
  · refine Multiset.nodup_add.mpr ⟨(hk.good hs).apart, hnodup, ?_⟩
    exact Multiset.disjoint_right.mpr fun hf => (hmem _ hf).2
  · rw [hu.lookup, hl, unmapped_mapped hnone]

/-- What `mappages` and `uvmunmap` do to the map of a page table, when the pages asked for are not mapped yet.
    CORRECT (MAPPED): on success each page of the range leads to its physical page with the permissions asked for, and
    every other address leads where it led. CORRECT (PREFIX): on failure this is so for a proper part of the range, from
    its start on. CORRECT (RESTORED): unmapping the range gives the original map, whether or not the physical pages
    are freed. -/
theorem mappages_refines_map {va size pa perm : Word} (hs : Good s root) (hva : va % PGSIZE = 0)
    (hsize : size % PGSIZE = 0) (hpos : size ≠ 0) (hmax : va.toNat + size.toNat ≤ MAXVA.toNat)
    (hperm : perm &&& (PTE_R ||| PTE_W ||| PTE_X) ≠ 0)
    (hnone : ∀ a, Within va (size.toNat / 4096) a → leaf s root a = none) :
    wp (mappages root va size pa perm) (fun r t => Good t root ∧
      ((r = 0 ∧ Mapped s t root va (size.toNat / 4096) pa perm ∧
        ∀ do_free, (do_free = true → pa % PGSIZE = 0 ∧ perm.toNat < 1024 ∧ Owned s root pa (size.toNat / 4096)) →
          wp (uvmunmap root va (size / PGSIZE) do_free)
            (fun _ u => ∀ a < MAXVA, leaf u root a = leaf s root a) (fun _ => False) t) ∨
      (r = -1 ∧ ∃ k < size.toNat / 4096, Mapped s t root va k pa perm))) (fun _ => False) s ∧
    (∀ pa flags : Word, pa % PGSIZE = 0 → flags.toNat < 1024 →
      PTE2PA (PA2PTE pa ||| flags) = pa ∧ PTE_FLAGS (PA2PTE pa ||| flags) = flags) ∧
    ∀ a b : Word, a < MAXVA → b < MAXVA → a % PGSIZE = 0 → b % PGSIZE = 0 →
      (∀ level < 3, PX level a = PX level b) → a = b := by
  refine ⟨?_, fun pa flags hpa hf => ⟨PTE2PA_entry (mod_PGSIZE.mp hpa) hf, PTE_FLAGS_entry hf⟩, ?_⟩
  · obtain ⟨n, hn⟩ : ∃ n, size.toNat / 4096 = n + 1 := by
      have h1 := mod_PGSIZE.mp hsize
      have h2 : size.toNat ≠ 0 := fun h => hpos (BitVec.eq_of_toNat_eq h)
      exact ⟨size.toNat / 4096 - 1, by omega⟩
    have hp : vaddr (pageno va) = va := vaddr_pageno (mod_PGSIZE.mp hva)
    have hlt : pageno va + (n + 1) ≤ 2 ^ 26 := by
      rw [show MAXVA.toNat = 2 ^ 38 from rfl] at hmax
      rw [pageno]; omega
    have hask : Asked va size (pageno va) n := ⟨hp.symm, by have := mod_PGSIZE.mp hsize; omega, by omega⟩
    have hfree : ∀ x, pageno va ≤ x → x < pageno va + (n + 1) → lookup s.mem root x = none := fun x hx hx' => by
      have hno : pageno (vaddr x) = x := pageno_vaddr (by omega)
      rw [← hno, ← leaf_eq (vaddr_lt (by omega))]
      refine hnone _ ?_
      rw [hn, ← hp, within_iff (by omega), hno]
      exact ⟨hx, hx'⟩
    rw [hn]
    refine (mappages_spec hask pa perm hs fun x hx hx' => hfree x hx (by omega)).mono ?_
    rintro r t ⟨hk, hr⟩
    refine ⟨hk.good hs, ?_⟩
    rcases hr with ⟨hr, hl⟩ | ⟨hr, k, hkn, hl⟩
    · refine .inl ⟨hr, hp ▸ mapped_of_lookup hlt (by omega) hl, fun do_free hd => ?_⟩
      have hnpages : (size / PGSIZE).toNat = n + 1 := by rw [BitVec.toNat_udiv]; exact hn
      have := unmap_restores (E := fun _ => False) hs hk hlt hnpages hperm hfree hl hd
      rw [hp] at this
      exact this.mono fun _ u hu a ha => by rw [leaf_eq ha, leaf_eq ha, hu]
    · exact .inr ⟨hr, k, by omega, hp ▸ mapped_of_lookup (by omega) (by omega) hl⟩
  · intro a b ha hb hma hmb hpx
    have hpage : ∀ {c : Word}, c < MAXVA → pageno c < 2 ^ 27 := fun hc => Nat.lt_trans (pageno_lt hc) (by decide)
    have hidx : ∀ level < 3, Fin.ofNat 512 (pageno a / 512 ^ level) = Fin.ofNat 512 (pageno b / 512 ^ level) :=
      fun level hl => by rw [← px_eq, ← px_eq, px, px, hpx level hl]
    have hno := eq_of_indices (hpage ha) (hpage hb) (hidx 2 (by decide)) (hidx 1 (by decide)) (hidx 0 (by decide))
    rw [← vaddr_pageno (mod_PGSIZE.mp hma), hno, vaddr_pageno (mod_PGSIZE.mp hmb)]

/-- A machine with an empty page table at `0x80100000`, and three free pages. -/
def Machine.bare : Machine where
  img := ⟨0x80021000#64, 0x80007#52, by decide, by decide⟩
  mem := fun _ _ => 0
  free := [0x80101#52, 0x80102#52, 0x80103#52]
  deny := []

theorem bare_good : Good .bare 0x80100#52 := by
  have hb : Blank Machine.bare.mem 0x80100#52 := blank rfl
  refine ⟨hb.table, ?_⟩
  rw [held, hb.tables]
  decide

theorem mappages_refines_map_bare : wp (mappages 0x80100#52 0x1000#64 0x2000#64 0x80200000#64 (PTE_R ||| PTE_W))
    (fun r t => r = 0 → leaf t 0x80100#52 0x2abc#64 = some (PA2PTE 0x80201000#64 ||| (PTE_R ||| PTE_W) ||| PTE_V))
    (fun _ => False) .bare := by
  have hnone : ∀ a, Within 0x1000#64 ((0x2000#64).toNat / 4096) a → leaf .bare 0x80100#52 a = none := fun a ha => by
    have hlt : a < MAXVA := lt_MAXVA (Nat.div_lt_of_lt_mul (lt_trans ha.2 (by decide)))
    rw [leaf_eq hlt, (blank rfl).lookup]
  refine (@mappages_refines_map _ _ _ _ 0x80200000#64 _ bare_good (by decide) (by decide) (by decide) (by decide)
    (by decide) hnone).1.mono ?_
  rintro r t ⟨_, h⟩ hr
  rcases h with ⟨_, hm, _⟩ | ⟨hr', _⟩
  · exact hm.here 0x2abc#64 ⟨by decide, by decide⟩
  · rw [hr] at hr'; cases hr'

end Minios.Vm
