import Minios.Umalloc.Order

/-! What `free`, `morecore` and `malloc` do to the free list.

    `free` finds the place of a block, joins it to its neighbours and links it in. `malloc` goes around the list once; if
    no block is large enough, `morecore` adds one that is, and the second time around finds it. -/

namespace Minios.Umalloc
open Schemes Function

variable {base a p q n bp k : ℕ} {h h' : Heap} {l l' xs : List ℕ} {live : List (ℕ × ℕ)}

/-! ### `free` -/

/-- `bp` has been joined to what is above it, and belongs after `p`, which does not point to it yet. -/
structure Half (base : ℕ) (h : Heap) (live : List (ℕ × ℕ)) (l : List ℕ) (p bp : ℕ) (l' : List ℕ) : Prop where
  blocks : Blocks base h.size h.top h.units (bp :: (l ++ p :: l') ++ live.map Prod.fst)
  head : (l ++ p :: l').head? = some base
  path : Path h.ptr (bp :: (l' ++ l)) p
  order : (l ++ p :: l').Pairwise fun a b => a + HDR * h.size a < b
  real : bp ≠ base
  lt : p < bp
  near : p + HDR * h.size p ≤ bp
  far : ∀ b ∈ l', bp + HDR * h.size bp < b
  fits : ∀ b ∈ live, b.2 + HDR ≤ HDR * h.size b.1

theorem Sound.live_ne (hs : Sound base h ((bp, n) :: live) xs) : bp ≠ base ∧ base + HDR ≤ bp ∧ bp ∉ xs ∧
    ∀ b ∈ live, b.1 ≠ bp := by
  have hne : bp ≠ base := by
    rintro rfl
    have := hs.fits _ List.mem_cons_self
    simp only [hs.blocks.zero, HDR] at this
    omega
  have hperm : (xs ++ bp :: live.map Prod.fst).Perm (bp :: (xs ++ live.map Prod.fst)) := List.perm_middle
  have hb := hs.blocks.perm hperm
  have hnot := hb.notMem hne
  refine ⟨hne, (hb.real bp List.mem_cons_self hne).2, fun h => hnot (List.mem_append_left _ h), ?_⟩
  rintro b hmem rfl
  exact hnot (List.mem_append_right _ (List.mem_map_of_mem hmem))

theorem order_update {v : ℕ} {size : ℕ → ℕ} (ho : xs.Pairwise fun a b => a + HDR * size a < b) (hnot : bp ∉ xs) :
    xs.Pairwise fun a b => a + HDR * update size bp v a < b :=
  ho.imp_of_mem fun {x y} hx _ hxy => by rwa [update_of_ne (by rintro rfl; exact hnot hx)]

theorem fits_update {v : ℕ} {size : ℕ → ℕ} (hf : ∀ b ∈ live, b.2 + HDR ≤ HDR * size b.1) (hne : ∀ b ∈ live, b.1 ≠ bp) :
    ∀ b ∈ live, b.2 + HDR ≤ HDR * update size bp v b.1 := fun b hb => by rw [update_of_ne (hne b hb)]; exact hf b hb

/-- JOIN to the block above. -/
theorem joinUpper_spec (hs : Sound base h ((bp, n) :: live) (l ++ p :: l')) (hp : p < bp) (hl' : ∀ b ∈ l', bp < b)
    (hsmall : h.units < 2 ^ 32) : ∃ l'', Half base (joinUpper h bp (h.ptr p)) live l p bp l'' ∧
      h.size bp ≤ (joinUpper h bp (h.ptr p)).size bp := by
  obtain ⟨hne, hlow, hnot, hlive⟩ := hs.live_ne
  have hperm : (l ++ p :: l' ++ bp :: live.map Prod.fst).Perm (bp :: (l ++ p :: l' ++ live.map Prod.fst)) :=
    List.perm_middle
  have hb := hs.blocks.perm hperm
  have hapart : ∀ x ∈ l ++ p :: l', Apart h.size bp x := fun x hx =>
    (List.pairwise_cons.mp hb.apart).1 x (List.mem_append_left _ hx)
  have hnear : p + HDR * h.size p ≤ bp := by
    have := hapart p (by simp)
    simp only [Apart, HDR] at this ⊢
    omega
  have hfar : ∀ b ∈ l', bp + HDR * h.size bp ≤ b := fun b hb => by
    have := hapart b (by simp [hb])
    have := hl' b hb
    simp only [Apart, HDR] at *
    omega
  have hpath := around_mid.mp hs.links
  have hptr := hs.ptr_eq
  have hnotl : bp ∉ l' ++ l := fun hm => hnot (by simp only [List.mem_append, List.mem_cons] at hm ⊢; tauto)
  rw [joinUpper]
  split
  · -- the block above is a free one
    rename_i hadj
    cases l' with
    | nil =>
      rw [hptr, List.headD_nil] at hadj
      omega
    | cons y ys =>
      rw [hptr, List.headD_cons] at hadj ⊢
      have hy : y ≠ base := by have := hl' y (by simp); simp only [HDR] at hlow; omega
      have hperm : (bp :: (l ++ p :: y :: ys ++ live.map Prod.fst)).Perm
          (bp :: y :: (l ++ p :: ys ++ live.map Prod.fst)) := by
        refine List.Perm.cons _ ?_
        have h1 : (l ++ p :: y :: ys ++ live.map Prod.fst) = (l ++ [p]) ++ y :: (ys ++ live.map Prod.fst) := by simp
        have h2 : (y :: (l ++ p :: ys ++ live.map Prod.fst)) = y :: ((l ++ [p]) ++ (ys ++ live.map Prod.fst)) := by simp
        rw [h1, h2]
        exact List.perm_middle
      have hjoin := (hb.perm hperm).join hadj hne hy
      have hsum : h.size bp + h.size y < 2 ^ 32 := by
        have := hjoin.size_le List.mem_cons_self
        rw [update_self] at this
        omega
      have hsub : (l ++ p :: ys).Sublist (l ++ p :: y :: ys) :=
        (List.Sublist.refl l).append (.cons_cons _ (List.sublist_cons_self ..))
      have hsize : ((h.setSize bp (h.size bp + h.size y)).setPtr bp (h.ptr y)).size =
          update h.size bp (h.size bp + h.size y) := setSize_size h bp hsum
      obtain ⟨hy', hrest⟩ := path_cons.mp (path_cons.mp hpath).2
      have hpne : p ≠ bp := by omega
      refine ⟨ys, ⟨?_, ?_, ?_, ?_, hne, hp, ?_, fun b hb' => ?_, ?_⟩, ?_⟩
      · rw [hsize]; exact hjoin
      · rw [← hs.head]; cases l <;> rfl
      · refine path_cons.mpr ⟨(update_self ..).trans hy', hrest.congr fun a ha => update_of_ne ?_ ..⟩
        rintro rfl
        exact hnotl (List.mem_cons_of_mem _ ha)
      · rw [hsize]
        exact order_update (hs.order.sublist hsub) fun hm => hnot (hsub.mem hm)
      · rw [hsize, update_of_ne hpne]; exact hnear
      · have hyb := (List.pairwise_cons.mp (List.pairwise_cons.mp (List.pairwise_append.mp hs.order).2.1).2).1 b hb'
        rw [hsize, update_self]
        simp only [HDR] at *
        omega
      · rw [hsize]
        exact fits_update (fun b hb' => hs.fits b (List.mem_cons_of_mem _ hb')) hlive
      · rw [hsize, update_self]
        exact Nat.le_add_right ..
  · rename_i hadj
    have hfits : ∀ b ∈ live, b.2 + HDR ≤ HDR * h.size b.1 := fun b hb' => hs.fits b (List.mem_cons_of_mem _ hb')
    refine ⟨l', ⟨hb, hs.head, ?_, hs.order, hne, hp, hnear, fun b hb' => ?_, hfits⟩, le_rfl⟩
    · obtain ⟨hnext, hrest⟩ := path_cons.mp hpath
      refine path_cons.mpr ⟨(update_self ..).trans hnext, hrest.congr fun a ha => update_of_ne ?_ ..⟩
      rintro rfl
      exact hnotl ha
    · -- the gap is a real one: to the next block it is not empty, and the others are further away
      cases l' with
      | nil => cases hb'
      | cons y ys =>
        rw [hptr, List.headD_cons] at hadj
        have h1 := hfar y List.mem_cons_self
        have h2 := hfar b hb'
        show bp + HDR * h.size bp < b
        rcases List.mem_cons.mp hb' with rfl | hmem
        · omega
        · have := (List.pairwise_cons.mp (List.pairwise_cons.mp (List.pairwise_append.mp hs.order).2.1).2).1 b hmem
          omega

/-- JOIN to the block below, and link. -/
theorem joinLower_spec (hs : Half base h live l p bp l') (hsmall : h.units < 2 ^ 32) :
    ∃ xs, Sound base ((joinLower h p bp).setFreep p) live xs ∧ ∃ q ∈ xs, h.size bp ≤ (joinLower h p bp).size q := by
  obtain ⟨hnext, hrest⟩ := path_cons.mp hs.path
  have hlt : (l ++ p :: l').Pairwise (· < ·) := hs.order.imp fun hab => by omega
  have hpnot : p ∉ l' ++ l := fun hm => by
    rcases List.mem_append.mp hm with hm | hm
    · exact absurd ((List.pairwise_cons.mp (List.pairwise_append.mp hlt).2.1).1 p hm) (lt_irrefl _)
    · exact absurd ((List.pairwise_append.mp hlt).2.2 p hm p List.mem_cons_self) (lt_irrefl _)
  obtain ⟨hl, hpl', hcross⟩ := List.pairwise_append.mp hs.order
  obtain ⟨hpgap, hl'⟩ := List.pairwise_cons.mp hpl'
  rw [joinLower]
  split
  · rename_i hadj
    have hpb : p ≠ base := by
      rintro rfl
      rw [hs.blocks.zero] at hadj
      have := hs.lt
      omega
    have hperm : (bp :: (l ++ p :: l') ++ live.map Prod.fst).Perm (p :: bp :: (l ++ l' ++ live.map Prod.fst)) := by
      refine List.Perm.trans (List.Perm.append_right _ (List.Perm.cons _ List.perm_middle)) ?_
      exact List.Perm.swap ..
    have hjoin := (hs.blocks.perm hperm).join hadj hpb hs.real
    have hsum : h.size p + h.size bp < 2 ^ 32 := by
      have := hjoin.size_le List.mem_cons_self
      rw [update_self] at this
      omega
    have hsize : (h.setSize p (h.size p + h.size bp)).size = update h.size p (h.size p + h.size bp) :=
      setSize_size h p hsum
    have hlive : ∀ b ∈ live, b.1 ≠ p := by
      rintro b hb rfl
      exact hjoin.notMem hpb (List.mem_append_right _ (List.mem_map_of_mem hb))
    refine ⟨l ++ p :: l', ⟨?_, hs.head, ?_, by simp [Heap.setFreep], ?_, ?_⟩, p, by simp, ?_⟩
    · simp only [setFreep_size, setPtr_size, hsize]
      refine hjoin.perm ?_
      rw [← List.cons_append]
      exact List.perm_middle.symm.append_right _
    · refine around_mid.mpr (path_cons.mpr ⟨(update_self ..).trans hnext, hrest.congr fun a ha => update_of_ne ?_ ..⟩)
      rintro rfl
      exact hpnot ha
    · simp only [setFreep_size, setPtr_size, hsize]
      have hnl : p ∉ l := fun hm => hpnot (List.mem_append_right _ hm)
      have hnl' : p ∉ l' := fun hm => hpnot (List.mem_append_left _ hm)
      refine List.pairwise_append.mpr ⟨order_update hl hnl, List.pairwise_cons.mpr ⟨fun b hb => ?_, order_update hl' hnl'⟩,
        fun a ha b hb => ?_⟩
      · have := hs.far b hb
        rw [update_self]
        simp only [HDR] at *
        omega
      · rw [update_of_ne (by rintro rfl; exact hnl ha)]
        exact hcross a ha b hb
    · simp only [setFreep_size, setPtr_size, hsize]
      exact fits_update hs.fits hlive
    · simp only [setPtr_size, hsize, update_self]
      exact Nat.le_add_left ..
  · rename_i hadj
    refine ⟨l ++ p :: bp :: l', ⟨?_, ?_, ?_, by simp [Heap.setFreep], ?_, hs.fits⟩, bp, by simp, le_rfl⟩
    · refine hs.blocks.perm (List.Perm.append_right _ ?_)
      rw [List.append_cons, List.append_cons l p (bp :: l')]
      exact List.perm_middle.symm
    · rw [← hs.head]; cases l <;> rfl
    · refine around_mid.mpr (path_cons.mpr ⟨update_self .., hs.path.congr fun a ha => update_of_ne ?_ ..⟩)
      rintro rfl
      rcases List.mem_cons.mp ha with rfl | ha
      · exact absurd hs.lt (lt_irrefl _)
      · exact hpnot ha
    · have hgap : p + HDR * h.size p < bp := lt_of_le_of_ne hs.near hadj
      refine List.pairwise_append.mpr ⟨hl, List.pairwise_cons.mpr ⟨fun b hb => ?_, List.pairwise_cons.mpr ⟨hs.far, hl'⟩⟩,
        fun a ha b hb => ?_⟩
      · rcases List.mem_cons.mp hb with rfl | hb
        · exact hgap
        · exact hpgap b hb
      · have hap := hcross a ha p List.mem_cons_self
        rcases List.mem_cons.mp hb with rfl | hb
        · exact hap
        rcases List.mem_cons.mp hb with rfl | hb
        · exact hap.trans hs.lt
        · exact hcross a ha b (List.mem_cons_of_mem _ hb)

@[simp] theorem joinUpper_units (h : Heap) (bp next : ℕ) : (joinUpper h bp next).units = h.units := by
  unfold joinUpper; split <;> rfl

@[simp] theorem joinLower_units (h : Heap) (p bp : ℕ) : (joinLower h p bp).units = h.units := by
  unfold joinLower; split <;> rfl

theorem free_units {ap : ℕ} (hf : free h ap = some h') : h'.units = h.units := by
  obtain ⟨p, -, rfl⟩ := Option.map_eq_some_iff.mp hf
  show (joinLower _ p _).units = h.units
  rw [joinLower_units, joinUpper_units]

/-- FREE: the loop ends, and the block is on the list, alone or as a part of a larger one. -/
theorem free_spec (hs : Sound base h ((bp, n) :: live) xs) (hsmall : h.units < 2 ^ 32) : ∃ h' xs',
    free h (bp + HDR) = some h' ∧ Sound base h' live xs' ∧ ∃ q ∈ xs', h.size bp ≤ h'.size q := by
  obtain ⟨hne, hlow, hnot, hlive⟩ := hs.live_ne
  have hlow : base < bp := by simp only [HDR] at hlow; omega
  obtain ⟨m, hpath, hperm, -, hlen⟩ := hs.round
  obtain ⟨q, hq, hstop⟩ := hs.exists_stop hlow hnot
  obtain ⟨p, hp, hstop, hloop⟩ := freeLoop_spec m h.freep (h.units + 2) hpath ⟨q, hperm.mem_iff.mpr hq, hstop⟩ (by omega)
  obtain ⟨l, l', rfl, hlt, hl'⟩ := hs.place hlow (hperm.mem_iff.mp hp) hstop
  obtain ⟨l'', hhalf, hup⟩ := joinUpper_spec hs hlt hl' hsmall
  obtain ⟨xs', hs', r, hr, hdown⟩ := joinLower_spec hhalf (by rw [joinUpper_units]; exact hsmall)
  refine ⟨_, xs', ?_, hs', r, hr, hup.trans hdown⟩
  rw [free, Nat.add_sub_cancel, hloop]
  rfl

/-! ### `morecore` -/

theorem coreUnits_pos (k : ℕ) : 0 < coreUnits k := by unfold coreUnits; split <;> omega

theorem le_coreUnits (k : ℕ) : k ≤ coreUnits k := by unfold coreUnits; split <;> omega

theorem Sound.brks (hs : Sound base h live xs) (brks : List (Option ℕ)) : Sound base { h with brks := brks } live xs :=
  ⟨hs.blocks, hs.head, hs.links, hs.entry, hs.order, hs.fits⟩

/-- ADD the new region. -/
theorem Sound.addCore (hs : Sound base h live xs) (ha : h.top ≤ a) (hn : 0 < n) (hsmall : n < 2 ^ 32)
    (brks : List (Option ℕ)) :
    Sound base (addCore { h with top := a + n * HDR, brks := brks } a n) ((a, 0) :: live) xs := by
  have hadd := hs.blocks.add ha hn
  have hbase : a ≠ base := by have := hs.blocks.room; simp only [HDR] at this; omega
  have hnot := hadd.notMem hbase
  have hsize : (Umalloc.addCore { h with top := a + n * HDR, brks := brks } a n).size = update h.size a n :=
    setSize_size _ a hsmall
  refine ⟨?_, hs.head, hs.links, hs.entry, ?_, fun b hb => ?_⟩
  · rw [hsize]
    show Blocks base (update h.size a n) (a + n * HDR) (h.units + n) (xs ++ a :: live.map Prod.fst)
    rw [Nat.mul_comm]
    exact hadd.perm List.perm_middle.symm
  · rw [hsize]
    exact order_update hs.order fun hm => hnot (List.mem_append_left _ hm)
  · rw [hsize]
    rcases List.mem_cons.mp hb with rfl | hb
    · simp only [update_self, HDR]
      omega
    · refine fits_update hs.fits ?_ b hb
      rintro b' hb' rfl
      exact hnot (List.mem_append_right _ (List.mem_map_of_mem hb'))

/-- MORE memory: a block that is large enough, or nothing. -/
theorem morecore_spec (hs : Sound base h live xs) (k : ℕ) :
    (∃ h', morecore h k = some (none, h') ∧ h'.units = h.units ∧ Sound base h' live xs) ∨
    ((∀ r h', morecore h k = some (r, h') → h'.units = h.units + coreUnits k) ∧
      (h.units + coreUnits k < 2 ^ 32 → ∃ h' xs', morecore h k = some (some h'.freep, h') ∧ Sound base h' live xs' ∧
        ∃ q ∈ xs', k ≤ h'.size q)) := by
  have hpos := coreUnits_pos k
  unfold morecore sbrk
  rcases hbrks : h.brks with _ | ⟨_ | gap, brks⟩
  · exact .inl ⟨h, rfl, rfl, hs⟩
  · exact .inl ⟨_, rfl, rfl, hs.brks brks⟩
  · refine .inr ⟨fun r h' hr => ?_, fun hsmall => ?_⟩
    · obtain ⟨h₁, hf, heq⟩ := Option.map_eq_some_iff.mp hr
      cases heq
      exact free_units hf
    · have hadd := hs.addCore (a := h.top + gap) (Nat.le_add_right ..) hpos (by omega) brks
      obtain ⟨h', xs', hf, hs', q, hq, hle⟩ := free_spec hadd hsmall
      refine ⟨h', xs', by simp only [hf]; rfl, hs', q, hq, (le_coreUnits k).trans ?_⟩
      have hsize : (Umalloc.addCore { h with top := h.top + gap + coreUnits k * HDR, brks := brks } (h.top + gap)
          (coreUnits k)).size (h.top + gap) = coreUnits k := by
        show (Heap.setSize _ _ _).size _ = _
        rw [setSize_size _ _ (by omega), update_self]
      rwa [hsize] at hle

/-! ### `malloc` -/

/-- TAKE a block, or the tail of one. -/
theorem take_spec {prevp nbytes : ℕ} (hs : Sound base h live xs) (hprev : prevp ∈ xs) (hk : nbytes + HDR ≤ HDR * k)
    (hle : k ≤ h.size (h.ptr prevp)) (hsmall : h.units < 2 ^ 32) : ∃ xs', Sound base (take h k prevp (h.ptr prevp)).2
      (((take h k prevp (h.ptr prevp)).1 - HDR, nbytes) :: live) xs' := by
  obtain ⟨l, l', rfl⟩ := List.append_of_mem hprev
  have hptr := hs.ptr_eq
  have hkpos : 0 < k := by simp only [HDR] at hk; omega
  have hpb : h.ptr prevp ≠ base := fun heq => by
    rw [heq, hs.blocks.zero] at hle
    omega
  cases l' with
  | nil => exact absurd hptr hpb
  | cons p l' =>
    rw [List.headD_cons] at hptr
    rw [hptr] at hpb hle ⊢
    have hperm : (l ++ prevp :: p :: l' ++ live.map Prod.fst).Perm (p :: (l ++ prevp :: l' ++ live.map Prod.fst)) := by
      rw [List.append_cons]
      exact List.perm_middle.append_right _ |>.trans (by simp)
    have hb := hs.blocks.perm hperm
    by_cases heq : h.size p = k
    · -- the whole block
      have hnodup := hs.nodup
      have hskip := (around_mid.mp hs.links).skip (l := l' ++ l) fun hm => by
        rw [List.nodup_append, List.nodup_cons] at hnodup
        rcases List.mem_append.mp hm with hm | hm
        · exact hnodup.2.1.1 (List.mem_cons_of_mem _ hm)
        · exact hnodup.2.2 prevp hm prevp List.mem_cons_self rfl
      rw [take, if_pos heq, Nat.add_sub_cancel]
      refine ⟨l ++ prevp :: l', ⟨hb.perm List.perm_middle.symm, ?_, around_mid.mpr hskip, by simp [Heap.setFreep], ?_,
        fun b hb' => ?_⟩⟩
      · rw [← hs.head]; cases l <;> rfl
      · exact hs.order.sublist ((List.Sublist.refl l).append (.cons_cons _ (List.sublist_cons_self ..)))
      · rcases List.mem_cons.mp hb' with rfl | hb'
        · rw [← heq] at hk
          exact hk
        · exact hs.fits b hb'
    · -- its tail
      have hlt : h.size p - k < h.size p := by omega
      have hsplit := hb.split (n := h.size p - k) (by omega) hlt hpb
      have hle' := hb.size_le List.mem_cons_self
      have hr : p + HDR * (h.size p - k) ≠ base := by
        have := (hb.real p List.mem_cons_self hpb).2
        simp only [HDR] at this ⊢
        omega
      have hnot := hsplit.notMem hr
      have hnotxs : p + HDR * (h.size p - k) ∉ l ++ prevp :: p :: l' := fun hm =>
        hnot (hperm.mem_iff.mp (List.mem_append_left _ hm))
      rw [take, if_neg heq, Nat.add_sub_cancel]
      have hsize : (((h.setSize p (h.size p - k)).setSize (p + HDR * (h.size p - k)) k).setFreep prevp).size =
          update (update h.size p (h.size p - k)) (p + HDR * (h.size p - k)) (h.size p - (h.size p - k)) := by
        rw [setFreep_size, setSize_size _ _ (by omega), setSize_size _ _ (by omega), Nat.sub_sub_self hle]
      refine ⟨l ++ prevp :: p :: l', ⟨?_, hs.head, hs.links, by simp [Heap.setFreep], ?_, fun b hb' => ?_⟩⟩
      · rw [hsize]
        refine hsplit.perm ((List.Perm.cons _ hperm.symm).trans ?_)
        exact List.perm_middle.symm
      · rw [hsize]
        refine order_update (hs.order.imp fun {x y} hxy => ?_) hnotxs
        rcases eq_or_ne x p with rfl | hne
        · rw [update_self]
          simp only [HDR] at *
          omega
        · rwa [update_of_ne hne]
      · rw [hsize]
        rcases List.mem_cons.mp hb' with rfl | hb'
        · rw [update_self, Nat.sub_sub_self hle]
          exact hk
        · have hmem : b.1 ∈ l ++ prevp :: l' ++ live.map Prod.fst := List.mem_append_right _ (List.mem_map_of_mem hb')
          rw [update_of_ne (by rintro heq; exact hnot (heq ▸ List.mem_cons_of_mem _ hmem)),
            update_of_ne (by rintro heq; exact hb.notMem hpb (heq ▸ hmem))]
          exact hs.fits b hb'

/-- Once around the list: a block is taken, or all are too small and `morecore` is called. -/
theorem mallocLoop_round : ∀ (m : List ℕ) (prevp rounds : ℕ), Path h.ptr (prevp :: m) h.freep → h.freep ∉ m →
    m.length < rounds →
    (∃ prev ∈ prevp :: m, k ≤ h.size (h.ptr prev) ∧ mallocLoop k rounds h prevp (h.ptr prevp) =
      some (some (take h k prev (h.ptr prev)).1, (take h k prev (h.ptr prev)).2)) ∨
    ((∀ x ∈ h.freep :: m, h.size x < k) ∧ ∃ rounds', rounds ≤ rounds' + (m.length + 1) ∧
      mallocLoop k rounds h prevp (h.ptr prevp) = match morecore h k with
        | none => none
        | some (none, h) => some (none, h)
        | some (some p, h) => mallocLoop k rounds' h p (h.ptr p))
  | _, _, 0, _, _, hlt => absurd hlt (Nat.not_lt_zero _)
  | m, prevp, rounds + 1, hpath, hnot, hlt => by
      obtain ⟨hnext, hrest⟩ := path_cons.mp hpath
      rw [mallocLoop]
      by_cases hle : h.size (h.ptr prevp) ≥ k
      · exact .inl ⟨prevp, List.mem_cons_self, hle, by rw [if_pos hle]⟩
      rw [if_neg hle]
      cases m with
      | nil =>
        rw [List.headD_nil] at hnext
        refine .inr ⟨fun x hx => ?_, rounds, by simp, (if_pos hnext).trans rfl⟩
        rw [List.mem_singleton.mp hx, ← hnext]
        omega
      | cons x m =>
        rw [List.headD_cons] at hnext
        have hx : x ≠ h.freep := by rintro rfl; exact hnot List.mem_cons_self
        rw [hnext] at hle ⊢
        rw [if_neg hx]
        rw [List.length_cons] at hlt ⊢
        rcases mallocLoop_round m x rounds hrest (fun hm => hnot (List.mem_cons_of_mem _ hm)) (by omega) with
          ⟨prev, hprev, htake⟩ | ⟨hall, rounds', hr, hcore⟩
        · exact .inl ⟨prev, List.mem_cons_of_mem _ hprev, htake⟩
        · refine .inr ⟨fun y hy => ?_, rounds', by omega, hcore⟩
          rcases List.mem_cons.mp hy with rfl | hy
          · exact hall _ List.mem_cons_self
          rcases List.mem_cons.mp hy with rfl | hy
          · omega
          · exact hall y (List.mem_cons_of_mem _ hy)

theorem take_units (h : Heap) (k prevp p : ℕ) : (take h k prevp p).2.units = h.units := by
  unfold take
  split <;> rfl

theorem morecore_units {r : Option ℕ} (hm : morecore h k = some (r, h')) : h.units ≤ h'.units := by
  unfold morecore sbrk at hm
  rcases hbrks : h.brks with _ | ⟨_ | gap, brks⟩ <;> rw [hbrks] at hm
  · cases hm; exact le_rfl
  · cases hm; exact le_rfl
  · obtain ⟨h₁, hf, heq⟩ := Option.map_eq_some_iff.mp hm
    cases heq
    rw [free_units hf]
    exact Nat.le_add_right ..

theorem mallocLoop_units : ∀ (rounds : ℕ) (h : Heap) (prevp p : ℕ) {r : Option ℕ},
    mallocLoop k rounds h prevp p = some (r, h') → h.units ≤ h'.units
  | 0, _, _, _, _, hm => by cases hm
  | rounds + 1, h, prevp, p, r, hm => by
      rw [mallocLoop] at hm
      split at hm
      · cases hm
        rw [take_units]
      split at hm
      · split at hm
        · cases hm
        · rename_i hcore
          cases hm
          exact morecore_units hcore
        · rename_i hcore
          exact (morecore_units hcore).trans (mallocLoop_units rounds _ _ _ hm)
      · exact mallocLoop_units rounds h _ _ hm

/-- The blocks of the program after a call of `malloc`. -/
def given (nbytes : ℕ) (live : List (ℕ × ℕ)) (r : Option ℕ) : List (ℕ × ℕ) :=
  (r.map fun ap => (ap - HDR, nbytes)).toList ++ live

/-- MALLOC: as long as less than 2^32 units have been obtained, the loop ends and everything is in order. -/
theorem mallocLoop_spec {nbytes rounds : ℕ} (hs : Sound base h live xs) (hk : nbytes + HDR ≤ HDR * k)
    (hrounds : 2 * (h.units + coreUnits k) + 4 ≤ rounds) :
    (∀ r h', mallocLoop k rounds h h.freep (h.ptr h.freep) = some (r, h') → h'.units < 2 ^ 32 →
      ∃ xs', Sound base h' (given nbytes live r) xs') ∧
    (h.units + coreUnits k < 2 ^ 32 → (mallocLoop k rounds h h.freep (h.ptr h.freep)).isSome) := by
  -- a block that the loop takes
  have htake : ∀ {h : Heap} {xs : List ℕ} {prev : ℕ}, Sound base h live xs → prev ∈ xs → k ≤ h.size (h.ptr prev) →
      ∀ r h', some (some (take h k prev (h.ptr prev)).1, (take h k prev (h.ptr prev)).2) = some (r, h') →
        h'.units < 2 ^ 32 → ∃ xs', Sound base h' (given nbytes live r) xs' := by
    rintro h xs prev hs hprev hle r h' heq hsmall
    cases heq
    rw [take_units] at hsmall
    exact take_spec hs hprev hk hle hsmall
  obtain ⟨m, hpath, hperm, hnot, hlen⟩ := hs.round
  rcases mallocLoop_round (k := k) m h.freep rounds hpath hnot (by omega) with ⟨prev, hprev, hle, hres⟩ | ⟨-, rounds', hr, hres⟩
  · rw [hres]
    exact ⟨htake hs (hperm.mem_iff.mp hprev) hle, fun _ => rfl⟩
  rw [hres]
  rcases morecore_spec hs k with ⟨h₁, hcore, -, hs₁⟩ | ⟨hunits, hok⟩
  · rw [hcore]
    refine ⟨fun r h' heq _ => ?_, fun _ => rfl⟩
    cases heq
    exact ⟨xs, hs₁⟩
  by_cases hsmall : h.units + coreUnits k < 2 ^ 32
  · -- the block that was added is found the second time around
    obtain ⟨h₁, xs₁, hcore, hs₁, q, hq, hlarge⟩ := hok hsmall
    have hu := hunits _ _ hcore
    rw [hcore]
    obtain ⟨m₁, hpath₁, hperm₁, hnot₁, hlen₁⟩ := hs₁.round
    rcases mallocLoop_round (k := k) m₁ h₁.freep rounds' hpath₁ hnot₁ (by omega) with ⟨prev, hprev, hle, hres₁⟩ | ⟨hall, -⟩
    · simp only [hres₁]
      exact ⟨htake hs₁ (hperm₁.mem_iff.mp hprev) hle, fun _ => rfl⟩
    · have := hall q (hperm₁.mem_iff.mpr hq)
      omega
  · refine ⟨fun r h' heq hlt => ?_, fun h => absurd h hsmall⟩
    split at heq
    · cases heq
    · rename_i hcore
      cases heq
      have := hunits _ _ hcore
      omega
    · rename_i hcore
      have h1 := hunits _ _ hcore
      have h2 := mallocLoop_units rounds' _ _ _ heq
      omega

end Minios.Umalloc
