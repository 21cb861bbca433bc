import Minios.Umalloc.Heap

/-! The blocks of the allocator.

    `Blocks`: all blocks, free or not, are apart from each other and add up to what `morecore` obtained. Blocks are
    joined, split and added; who has a block does not matter here.

    `Sound`: the free list is a cycle in the order of addresses, with a gap after each block, and the program's blocks are
    large enough. -/

namespace Minios.Umalloc
open Schemes Function

variable {base a b p q n : ℕ} {h : Heap} {size : ℕ → ℕ} {top units : ℕ} {bs bs' xs : List ℕ} {live : List (ℕ × ℕ)}

@[simp] theorem setPtr_ptr (h : Heap) (p q : ℕ) : (h.setPtr p q).ptr = update h.ptr p q := rfl
@[simp] theorem setPtr_size (h : Heap) (p q : ℕ) : (h.setPtr p q).size = h.size := rfl
@[simp] theorem setSize_ptr (h : Heap) (p n : ℕ) : (h.setSize p n).ptr = h.ptr := rfl
@[simp] theorem setFreep_ptr (h : Heap) (p : ℕ) : (h.setFreep p).ptr = h.ptr := rfl
@[simp] theorem setFreep_size (h : Heap) (p : ℕ) : (h.setFreep p).size = h.size := rfl

theorem setSize_size (h : Heap) (p : ℕ) (hn : n < 2 ^ 32) : (h.setSize p n).size = update h.size p n := by
  rw [Heap.setSize, Nat.mod_eq_of_lt hn]

/-! ### All blocks -/

/-- Two blocks that do not overlap. -/
def Apart (size : ℕ → ℕ) (a b : ℕ) : Prop := a + HDR * size a ≤ b ∨ b + HDR * size b ≤ a

instance : Std.Symm (Apart size) := ⟨fun _ _ h => Or.symm h⟩

/-- All blocks, and `base`, which is below them and empty. -/
structure Blocks (base : ℕ) (size : ℕ → ℕ) (top units : ℕ) (bs : List ℕ) : Prop where
  room : base + HDR ≤ top
  zero : size base = 0
  apart : bs.Pairwise (Apart size)
  real : ∀ a ∈ bs, a ≠ base → 0 < size a ∧ base + HDR ≤ a
  below : ∀ a ∈ bs, a + HDR * size a ≤ top
  total : (bs.map size).sum = units

theorem Blocks.perm (hb : Blocks base size top units bs) (hp : bs.Perm bs') : Blocks base size top units bs' where
  room := hb.room
  zero := hb.zero
  apart := (hp.pairwise_iff fun hxy => symm hxy).mp hb.apart
  real a ha := hb.real a (hp.mem_iff.mpr ha)
  below a ha := hb.below a (hp.mem_iff.mpr ha)
  total := by rw [← hb.total, (hp.map size).sum_eq]

theorem Blocks.size_le (hb : Blocks base size top units bs) (ha : a ∈ bs) : size a ≤ units :=
  hb.total ▸ List.single_le_sum (fun _ _ => Nat.zero_le _) _ (List.mem_map_of_mem ha)

theorem Blocks.notMem (hb : Blocks base size top units (a :: bs)) (ha : a ≠ base) : a ∉ bs := fun hmem => by
  have hpos := (hb.real a List.mem_cons_self ha).1
  have := (List.pairwise_cons.mp hb.apart).1 a hmem
  simp only [Apart, HDR] at this
  omega

/-- JOIN a block and the one right after it. -/
theorem Blocks.join (hb : Blocks base size top units (a :: b :: bs)) (hab : a + HDR * size a = b) (ha : a ≠ base) (hb' : b ≠ base) :
    Blocks base (update size a (size a + size b)) top units (a :: bs) := by
  obtain ⟨hza, hzb⟩ := List.pairwise_cons.mp hb.apart
  obtain ⟨hzb, hrest⟩ := List.pairwise_cons.mp hzb
  have hposa := hb.real a List.mem_cons_self ha
  have hposb := hb.real b (List.mem_cons_of_mem _ List.mem_cons_self) hb'
  have hmem : ∀ {x}, x ∈ bs → x ∈ a :: b :: bs := fun hx => List.mem_cons_of_mem _ (List.mem_cons_of_mem _ hx)
  -- no other block starts where these do
  have hne : ∀ x ∈ bs, x ≠ a := by
    rintro x hx rfl
    exact hb.notMem ha (List.mem_cons_of_mem _ hx)
  have hsize : ∀ x ∈ bs, update size a (size a + size b) x = size x := fun x hx => update_of_ne (hne x hx) ..
  refine ⟨hb.room, ?_, List.pairwise_cons.mpr ⟨fun x hx => ?_, ?_⟩, fun x hx hxb => ?_, fun x hx => ?_, ?_⟩
  · exact (update_of_ne ha.symm ..).trans hb.zero
  · have h1 := hza x (List.mem_cons_of_mem _ hx)
    have h2 := hzb x hx
    simp only [Apart, update_self, hsize x hx, HDR] at h1 h2 hab ⊢
    rcases eq_or_ne x base with rfl | hxb
    · have := hposa.2; have := hb.zero; omega
    · have := (hb.real x (hmem hx) hxb).1; omega
  · refine hrest.imp_of_mem fun {x y} hx hy hxy => ?_
    simp only [Apart, hsize x hx, hsize y hy] at hxy ⊢
    exact hxy
  · rcases List.mem_cons.mp hx with rfl | hx
    · simp only [update_self]
      exact ⟨by omega, hposa.2⟩
    · show 0 < update size a _ x ∧ _
      rw [hsize x hx]
      exact hb.real x (hmem hx) hxb
  · rcases List.mem_cons.mp hx with rfl | hx
    · have := hb.below b (List.mem_cons_of_mem _ List.mem_cons_self)
      simp only [update_self, HDR] at hab this ⊢
      omega
    · show x + HDR * update size a _ x ≤ top
      rw [hsize x hx]
      exact hb.below x (hmem hx)
  · have htotal := hb.total
    rw [List.map_cons, List.map_cons, List.sum_cons, List.sum_cons, ← Nat.add_assoc] at htotal
    rw [List.map_cons, List.sum_cons, List.map_congr_left hsize, update_self]
    exact htotal

/-- SPLIT a block. -/
theorem Blocks.split (hb : Blocks base size top units (p :: bs)) (hn : 0 < n) (hlt : n < size p) (hp : p ≠ base) :
    Blocks base (update (update size p n) (p + HDR * n) (size p - n)) top units ((p + HDR * n) :: p :: bs) := by
  obtain ⟨hz, hrest⟩ := List.pairwise_cons.mp hb.apart
  have hposp := hb.real p List.mem_cons_self hp
  have hpne : p ≠ p + HDR * n := by simp only [HDR]; omega
  have hne : ∀ x ∈ bs, x ≠ p ∧ x ≠ p + HDR * n := fun x hx => by
    have h1 := hz x hx
    rw [Apart] at h1
    rcases eq_or_ne x base with rfl | hxb
    · have := hposp.2
      simp only [HDR] at this ⊢
      omega
    · have := (hb.real x (List.mem_cons_of_mem _ hx) hxb).1
      simp only [HDR] at h1 ⊢
      omega
  have hsize : ∀ x ∈ bs, update (update size p n) (p + HDR * n) (size p - n) x = size x := fun x hx => by
    rw [update_of_ne (hne x hx).2, update_of_ne (hne x hx).1]
  have hsp : update (update size p n) (p + HDR * n) (size p - n) p = n := by rw [update_of_ne hpne, update_self]
  have hbase : base ≠ p + HDR * n := by have := hposp.2; simp only [HDR] at this ⊢; omega
  refine ⟨hb.room, ?_, List.pairwise_cons.mpr ⟨fun x hx => ?_, List.pairwise_cons.mpr ⟨fun x hx => ?_, ?_⟩⟩,
    fun x hx hxb => ?_, fun x hx => ?_, ?_⟩
  · show update (update size p n) (p + HDR * n) (size p - n) base = 0
    rw [update_of_ne hbase, update_of_ne hp.symm]
    exact hb.zero
  · rcases List.mem_cons.mp hx with rfl | hx
    · simp only [Apart, update_self, hsp]
      exact .inr le_rfl
    · have h1 := hz x hx
      simp only [Apart, update_self, hsize x hx] at h1 ⊢
      simp only [HDR] at *
      omega
  · have h1 := hz x hx
    simp only [Apart, hsp, hsize x hx] at h1 ⊢
    simp only [HDR] at *
    omega
  · refine hrest.imp_of_mem fun {x y} hx hy hxy => ?_
    simp only [Apart, hsize x hx, hsize y hy] at hxy ⊢
    exact hxy
  · rcases List.mem_cons.mp hx with rfl | hx
    · simp only [update_self]
      exact ⟨by omega, by omega⟩
    rcases List.mem_cons.mp hx with rfl | hx
    · simp only [hsp]
      exact ⟨hn, hposp.2⟩
    · simp only [hsize x hx]
      exact hb.real x (List.mem_cons_of_mem _ hx) hxb
  · have hbp := hb.below p List.mem_cons_self
    rcases List.mem_cons.mp hx with rfl | hx
    · simp only [update_self, HDR] at hbp ⊢
      omega
    rcases List.mem_cons.mp hx with rfl | hx
    · simp only [hsp, HDR] at hbp ⊢
      omega
    · simp only [hsize x hx]
      exact hb.below x (List.mem_cons_of_mem _ hx)
  · have htotal := hb.total
    rw [List.map_cons, List.sum_cons] at htotal
    rw [List.map_cons, List.map_cons, List.sum_cons, List.sum_cons, List.map_congr_left hsize, update_self, hsp, ← htotal]
    omega

/-- ADD a block above all others. -/
theorem Blocks.add (hb : Blocks base size top units bs) (ha : top ≤ a) (hn : 0 < n) :
    Blocks base (update size a n) (a + HDR * n) (units + n) (a :: bs) := by
  have htop := hb.room
  have hbase : base ≠ a := by simp only [HDR] at htop; omega
  have hne : ∀ x ∈ bs, x ≠ a := by
    rintro x hx rfl
    rcases eq_or_ne x base with rfl | hxb
    · exact hbase rfl
    · have h1 := hb.below x hx
      have h2 := (hb.real x hx hxb).1
      simp only [HDR] at h1
      omega
  have hsize : ∀ x ∈ bs, update size a n x = size x := fun x hx => update_of_ne (hne x hx) ..
  refine ⟨by omega, ?_, List.pairwise_cons.mpr ⟨fun x hx => .inr ?_, ?_⟩, fun x hx hxb => ?_, fun x hx => ?_, ?_⟩
  · exact (update_of_ne hbase ..).trans hb.zero
  · simp only [hsize x hx]
    exact (hb.below x hx).trans ha
  · refine hb.apart.imp_of_mem fun {x y} hx hy hxy => ?_
    simp only [Apart, hsize x hx, hsize y hy] at hxy ⊢
    exact hxy
  · rcases List.mem_cons.mp hx with rfl | hx
    · simp only [update_self]
      exact ⟨hn, htop.trans ha⟩
    · simp only [hsize x hx]
      exact hb.real x hx hxb
  · rcases List.mem_cons.mp hx with rfl | hx
    · simp only [update_self, le_refl]
    · simp only [hsize x hx]
      have := hb.below x hx
      omega
  · rw [List.map_cons, List.sum_cons, List.map_congr_left hsize, update_self, hb.total, Nat.add_comm]

/-! ### The free list -/

/-- What holds between calls; the free list is `xs`. -/
structure Sound (base : ℕ) (h : Heap) (live : List (ℕ × ℕ)) (xs : List ℕ) : Prop where
  blocks : Blocks base h.size h.top h.units (xs ++ live.map Prod.fst)
  head : xs.head? = some base
  links : Around h.ptr xs
  entry : h.freep ∈ xs
  order : xs.Pairwise fun a b => a + HDR * h.size a < b
  fits : ∀ b ∈ live, b.2 + HDR ≤ HDR * h.size b.1

variable {bp : ℕ} {l l' : List ℕ} {live live' : List (ℕ × ℕ)}

theorem Sound.perm (hs : Sound base h live xs) (hp : live.Perm live') : Sound base h live' xs where
  blocks := hs.blocks.perm ((hp.map Prod.fst).append_left xs)
  head := hs.head
  links := hs.links
  entry := hs.entry
  order := hs.order
  fits b hb := hs.fits b (hp.mem_iff.mpr hb)

theorem Sound.base_mem (hs : Sound base h live xs) : base ∈ xs := List.mem_of_mem_head? hs.head

theorem Sound.lt (hs : Sound base h live xs) : xs.Pairwise (· < ·) := hs.order.imp fun hab => by omega

theorem Sound.nodup (hs : Sound base h live xs) : xs.Nodup := hs.lt.imp fun hab => by omega

theorem Sound.length_le (hs : Sound base h live xs) : xs.length ≤ h.units + 1 := by
  obtain ⟨ys, rfl⟩ : ∃ ys, xs = base :: ys := ⟨xs.tail, List.eq_cons_of_mem_head? hs.head⟩
  have hb := hs.blocks.total
  have hlen : ys.length ≤ (ys.map h.size).sum := by
    have := List.length_le_sum_of_one_le (ys.map h.size) fun n hn => by
      obtain ⟨a, ha, rfl⟩ := List.mem_map.mp hn
      have hne : a ≠ base := by rintro rfl; exact (List.nodup_cons.mp hs.nodup).1 ha
      exact (hs.blocks.real a (by simp [ha]) hne).1
    rwa [List.length_map] at this
  simp only [List.cons_append, List.map_cons, List.sum_cons, List.map_append, List.sum_append] at hb
  rw [List.length_cons]
  omega

theorem Sound.round (hs : Sound base h live xs) : ∃ m, Path h.ptr (h.freep :: m) h.freep ∧ (h.freep :: m).Perm xs ∧
    h.freep ∉ m ∧ m.length ≤ h.units := by
  obtain ⟨m, hpath, hperm⟩ := hs.links.round hs.entry
  refine ⟨m, hpath, hperm, (List.nodup_cons.mp (hperm.nodup_iff.mpr hs.nodup)).1, ?_⟩
  have h1 := hperm.length_eq
  have h2 := hs.length_le
  rw [List.length_cons] at h1
  omega

theorem Sound.base_le (hs : Sound base h live xs) (ha : a ∈ xs) : base ≤ a := by
  obtain ⟨ys, rfl⟩ : ∃ ys, xs = base :: ys := ⟨xs.tail, List.eq_cons_of_mem_head? hs.head⟩
  rcases List.mem_cons.mp ha with rfl | ha
  · exact le_rfl
  · exact ((List.pairwise_cons.mp hs.lt).1 a ha).le

/-! ### Where a block belongs -/

/-- The loop of `free` stops here. -/
def Stop (h : Heap) (bp p : ℕ) : Prop := (bp > p ∧ bp < h.ptr p) ∨ (p ≥ h.ptr p ∧ (bp > p ∨ bp < h.ptr p))

theorem freeLoop_spec {e : ℕ} : ∀ (l : List ℕ) (p rounds : ℕ), Path h.ptr (p :: l) e → (∃ q ∈ p :: l, Stop h bp q) →
    l.length < rounds → ∃ q ∈ p :: l, Stop h bp q ∧ freeLoop h bp rounds p = some q
  | _, _, 0, _, _, hlt => absurd hlt (Nat.not_lt_zero _)
  | l, p, rounds + 1, hpath, ⟨q, hq, hstop⟩, hlt => by
      rw [freeLoop]
      by_cases h1 : bp > p ∧ bp < h.ptr p
      · exact ⟨p, List.mem_cons_self, .inl h1, if_pos h1⟩
      by_cases h2 : p ≥ h.ptr p ∧ (bp > p ∨ bp < h.ptr p)
      · exact ⟨p, List.mem_cons_self, .inr h2, by rw [if_neg h1, if_pos h2]⟩
      rw [if_neg h1, if_neg h2]
      -- so it is further on
      rcases List.mem_cons.mp hq with rfl | hq
      · exact (hstop.elim h1 h2).elim
      cases l with
      | nil => cases hq
      | cons p' l =>
        obtain ⟨hnext, hpath⟩ := path_cons.mp hpath
        rw [List.headD_cons] at hnext
        rw [List.length_cons] at hlt
        obtain ⟨r, hr, hres⟩ := freeLoop_spec l p' rounds hpath ⟨q, hq, hstop⟩ (by omega)
        exact ⟨r, List.mem_cons_of_mem _ hr, by rw [hnext]; exact hres⟩

theorem exists_place (bp : ℕ) : ∀ {xs : List ℕ}, xs.Pairwise (· < ·) → ∃ l l', xs = l ++ l' ∧ (∀ a ∈ l, a < bp) ∧
    ∀ b ∈ l', bp ≤ b
  | [], _ => ⟨[], [], rfl, nofun, nofun⟩
  | x :: xs, h => by
      obtain ⟨hx, hxs⟩ := List.pairwise_cons.mp h
      by_cases hlt : x < bp
      · obtain ⟨l, l', rfl, hl, hl'⟩ := exists_place bp hxs
        refine ⟨x :: l, l', rfl, fun a ha => ?_, hl'⟩
        rcases List.mem_cons.mp ha with rfl | ha
        · exact hlt
        · exact hl a ha
      · refine ⟨[], x :: xs, rfl, nofun, fun b hb => ?_⟩
        rcases List.mem_cons.mp hb with rfl | hb
        · omega
        · have := hx b hb; omega

/-- Where `p` points: to the next block, or from the last one to `base`. -/
theorem Sound.ptr_eq (hs : Sound base h live (l ++ p :: l')) : h.ptr p = l'.headD base := hs.links.next_eq base hs.head

theorem Sound.exists_stop (hs : Sound base h live xs) (hbp : base < bp) (hnot : bp ∉ xs) : ∃ q ∈ xs, Stop h bp q := by
  obtain ⟨l, l', rfl, hl, hl'⟩ := exists_place bp hs.lt
  have hmem : base ∈ l := by
    rcases List.mem_append.mp hs.base_mem with hm | hm
    · exact hm
    · have := hl' base hm; omega
  obtain ⟨l, p, rfl⟩ : ∃ m p, l = m ++ [p] := ⟨_, _, (List.dropLast_append_getLast (List.ne_nil_of_mem hmem)).symm⟩
  rw [List.append_assoc, List.singleton_append] at hs hnot ⊢
  refine ⟨p, by simp, ?_⟩
  have hp := hl p (by simp)
  rw [Stop, hs.ptr_eq]
  cases l' with
  | nil =>
    exact .inr ⟨hs.base_le (by simp), .inl hp⟩
  | cons y ys =>
    have := hl' y (by simp)
    have : bp ≠ y := by rintro rfl; simp at hnot
    exact .inl ⟨hp, by rw [List.headD_cons]; omega⟩

theorem Sound.place (hs : Sound base h live xs) (hbp : base < bp) (hq : q ∈ xs) (hstop : Stop h bp q) :
    ∃ l l', xs = l ++ q :: l' ∧ q < bp ∧ ∀ b ∈ l', bp < b := by
  obtain ⟨l, l', rfl⟩ := List.append_of_mem hq
  refine ⟨l, l', rfl, ?_⟩
  have hlt := (List.pairwise_cons.mp (List.pairwise_append.mp hs.lt).2.1)
  rw [Stop, hs.ptr_eq] at hstop
  cases l' with
  | nil =>
    rw [List.headD_nil] at hstop
    exact ⟨by omega, nofun⟩
  | cons y ys =>
    have hy := hlt.1 y List.mem_cons_self
    rw [List.headD_cons] at hstop
    refine ⟨by omega, fun b hb => ?_⟩
    rcases List.mem_cons.mp hb with rfl | hb
    · omega
    · have := (List.pairwise_cons.mp hlt.2).1 b hb; omega

end Minios.Umalloc
