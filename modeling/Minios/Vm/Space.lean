import Minios.Vm.Copy

/-! Address spaces: `uvmalloc`, `uvmdealloc`, `uvmfree`, and the page tables of processes.

        0 ........ n        free        TRAPFRAME  TRAMPOLINE
        ├── user pages ──┤   ...   ──── ┤ trapframe │ trampoline │          page numbers

    The pages below `n` are user pages, each in a frame of its own. Growing takes frames from the free list, and
    gives all of them back when it fails; freeing gives back every page. The sum of the free pages, the page-table
    pages and the frames of user pages never changes. -/

namespace Minios.Vm
open Schemes Function Radix

variable {m m' : Frame → Page} {root a f : Frame} {p n k d : ℕ} {s t u : Machine} {E : Panic → Prop}

/-! ### `freewalk` -/

/-- A tree of page-table pages without leaves. -/
def Bare (m : Frame → Page) : ℕ → Frame → Prop
  | 0, a => ∀ i, entry m (a, i) &&& PTE_V = 0
  | d + 1, a => ∀ i, entry m (a, i) &&& PTE_V ≠ 0 →
      entry m (a, i) &&& (PTE_R ||| PTE_W ||| PTE_X) = 0 ∧ Bare m d (frame (PTE2PA (entry m (a, i))))

theorem nodes_same (h : ∀ x ∈ nodes (kid m) d a, m' x = m x) : nodes (kid m') d a = nodes (kid m) d a := by
  cases d with
  | zero => rw [nodes_zero, nodes_zero]
  | succ d => exact nodes_congr fun x hx => kid_congr (h x (Multiset.mem_of_le (nodes_le_succ (kid m) d a) hx))

theorem kid_some {i : Fin 512} (h : entry m (a, i) &&& PTE_V ≠ 0) :
    kid m a i = some (frame (PTE2PA (entry m (a, i)))) := if_pos h

theorem kid_none {i : Fin 512} (h : entry m (a, i) &&& PTE_V = 0) : kid m a i = none := if_neg (not_not.mpr h)

theorem Bare.same : ∀ {d : ℕ} {a : Frame}, Bare m d a → (∀ x ∈ nodes (kid m) d a, m' x = m x) → Bare m' d a
  | 0, a, h, hm => fun i => by
    rw [entry_congr (hm a (self_mem_nodes _ a 0))]
    exact h i
  | d + 1, a, h, hm => fun i => by
    rw [entry_congr (hm a (self_mem_nodes _ a _))]
    exact fun hv => ⟨(h i hv).1, (h i hv).2.same fun x hx => hm x (mem_nodes_of_kid (kid_some hv) hx)⟩

theorem Table.bare (ht : Table m root) (hl : ∀ p, lookup m root p = none) : Bare m 2 root := by
  intro i hi
  have hroot : root ∈ nodes (kid m) 1 root := self_mem_nodes _ root 1
  refine ⟨ht.inner root hroot i hi, fun j hj => ?_⟩
  have hmid : frame (PTE2PA (entry m (root, i))) ∈ nodes (kid m) 1 root :=
    mem_nodes_of_kid (kid_some hi) (self_mem_nodes _ _ 0)
  refine ⟨ht.inner _ hmid j hj, fun l => ?_⟩
  -- the page number with these three indices
  by_contra hv
  have hslot : slot m root (i.val * 512 ^ 2 + j.val * 512 + l.val) =
      some (frame (PTE2PA (entry m (frame (PTE2PA (entry m (root, i))), j))), l) := by
    have h2 : Fin.ofNat 512 ((i.val * 512 ^ 2 + j.val * 512 + l.val) / 512 ^ 2) = i := Fin.ext (by
      rw [Fin.val_ofNat]; omega)
    have h1 : Fin.ofNat 512 ((i.val * 512 ^ 2 + j.val * 512 + l.val) / 512 ^ 1) = j := Fin.ext (by
      rw [Fin.val_ofNat]; omega)
    have h0 : Fin.ofNat 512 ((i.val * 512 ^ 2 + j.val * 512 + l.val) / 512 ^ 0) = l := Fin.ext (by
      rw [Fin.val_ofNat]; omega)
    rw [slot, path, h2, h1, h0, find_cons_some (kid_some hi), find_cons_some (kid_some hj), find_nil]
    rfl
  have := hl (i.val * 512 ^ 2 + j.val * 512 + l.val)
  rw [lookup_of_slot (by omega) hslot, valid_pos hv] at this
  cases this

/-- The nodes below some entries of a page-table page. -/
def below (m : Frame → Page) (d : ℕ) (a : Frame) (is : List (Fin 512)) : Multiset Frame :=
  (is.map fun i => (kid m a i).elim 0 (nodes (kid m) d)).sum

theorem sum_eq_list {n : ℕ} (g : Fin n → Multiset Frame) : ∑ i, g i = ((List.finRange n).map g).sum := Fin.sum_univ_def g

theorem nodup_indices : indices.Nodup := by
  unfold indices
  exact List.nodup_finRange 512

theorem below_all (m : Frame → Page) (d : ℕ) (a : Frame) :
    nodes (kid m) (d + 1) a = {a} + below m d a indices := by
  rw [nodes_succ, sum_eq_list]
  unfold below indices
  rfl

theorem mem_below {i : Fin 512} {is : List (Fin 512)} {x : Frame} (hi : i ∈ is) (hx : x ∈ (kid m a i).elim 0 (nodes (kid m) d)) :
    x ∈ below m d a is := by
  induction is with
  | nil => cases hi
  | cons j is ih =>
    rw [below, List.map_cons, List.sum_cons, Multiset.mem_add]
    rcases List.mem_cons.mp hi with rfl | hi
    · exact .inl hx
    · exact .inr (ih hi)

/-- Pages were freed, and nothing but these was written. -/
structure Returned (s t : Machine) (A : Multiset Frame) : Prop where
  img : t.img = s.img
  free : (t.free : Multiset Frame) = s.free + A
  mem : ∀ f, f ∉ A → t.mem f = s.mem f

theorem Gave.returned (h : Gave s f t) : Returned s t {f} where
  img := h.img
  free := by rw [h.free, ← Multiset.cons_coe, ← Multiset.singleton_add, add_comm]
  mem g hg := by rw [h.mem, update_of_ne (fun he => hg (Multiset.mem_singleton.mpr he))]

theorem below_same {is : List (Fin 512)} (hk : ∀ j ∈ is, kid m' a j = kid m a j) (hm : ∀ x ∈ below m d a is, m' x = m x) :
    below m' d a is = below m d a is := by
  rw [below, below]
  refine congrArg List.sum (List.map_congr_left fun j hj => ?_)
  rw [hk j hj]
  cases hc : kid m a j with
  | none => rw [Option.elim_none, Option.elim_none]
  | some c => exact nodes_same fun x hx => hm x (mem_below hj (by rw [hc]; exact hx))

/-- What `freewalk` needs of a tree. -/
structure Freeable (s : Machine) (d : ℕ) (a : Frame) : Prop where
  apart : (s.free + nodes (kid s.mem) d a : Multiset Frame).Nodup
  ram : ∀ f ∈ nodes (kid s.mem) d a, s.img.Ram f
  bare : Bare s.mem d a

/-- `freewalk`'s loop frees what is below the entries. -/
theorem freewalkLoop_spec {recurse : Frame → VM Unit}
    (hrec : ∀ c s, Freeable s d c → wp (recurse c) (fun _ t => Returned s t (nodes (kid s.mem) d c)) E s) :
    ∀ (is : List (Fin 512)) (s : Machine), is.Nodup → (s.free + ({a} + below s.mem d a is) : Multiset Frame).Nodup →
    (∀ f ∈ below s.mem d a is, s.img.Ram f) →
    (∀ i ∈ is, entry s.mem (a, i) &&& PTE_V ≠ 0 → entry s.mem (a, i) &&& (PTE_R ||| PTE_W ||| PTE_X) = 0 ∧
      Bare s.mem d (frame (PTE2PA (entry s.mem (a, i))))) →
    wp (freewalkLoop recurse a is) (fun _ t => t.img = s.img ∧ (t.free : Multiset Frame) = s.free + below s.mem d a is ∧
      ∀ f, f ∉ below s.mem d a is → f ≠ a → t.mem f = s.mem f) E s
  | [], s, _, _, _, _ => ⟨rfl, (add_zero _).symm, fun _ _ _ => rfl⟩
  | i :: is, s, hdup, hn, hram, hbare => by
    have hcons : below s.mem d a (i :: is) = (kid s.mem a i).elim 0 (nodes (kid s.mem) d) + below s.mem d a is := by
      rw [below, List.map_cons, List.sum_cons]; rfl
    rw [hcons] at hn hram ⊢
    rw [freewalkLoop, load]
    simp only [wp_bind, wp_get, wp_pure]
    by_cases hv : entry s.mem (a, i) &&& PTE_V ≠ 0
    · -- a page-table page is below
      obtain ⟨hptr, hb⟩ := hbare i List.mem_cons_self hv
      rw [if_pos ⟨hv, hptr⟩]
      rw [kid_some hv] at hn hram ⊢
      simp only [Option.elim_some] at hn hram ⊢
      generalize hc : frame (PTE2PA (entry s.mem (a, i))) = c at hn hram hb ⊢
      obtain ⟨hfree, hrest, hdisj⟩ := Multiset.nodup_add.mp hn
      obtain ⟨-, hsub, ha⟩ := Multiset.nodup_add.mp hrest
      obtain ⟨hcn, -, hcd⟩ := Multiset.nodup_add.mp hsub
      have ha' : a ∉ nodes (kid s.mem) d c ∧ a ∉ below s.mem d a is := by
        rw [Multiset.singleton_disjoint, Multiset.mem_add, not_or] at ha
        exact ha
      have hpre : Freeable s d c := by
        refine ⟨Multiset.nodup_of_le ?_ hn, fun f hf => hram f (Multiset.mem_add.mpr (.inl hf)), hb⟩
        exact add_le_add_right ((Multiset.le_add_right _ _).trans (Multiset.le_add_left _ _)) _
      refine (hrec c s hpre).bind fun _ t ht => ?_
      simp only [store, wp_bind, wp_modify]
      -- the entries and trees that are left are as before
      have hentry : ∀ j ∈ is, entry (setEntry t.mem (a, i) 0#64) (a, j) = entry s.mem (a, j) := fun j hj => by
        have hne : ((a, j) : Slot) ≠ (a, i) := fun he => (List.nodup_cons.mp hdup).1 ((Prod.mk.inj he).2 ▸ hj)
        rw [entry_setEntry_ne _ hne, entry_congr (ht.mem a ha'.1)]
      have hmem : ∀ x ∈ below s.mem d a is, setEntry t.mem (a, i) 0#64 x = s.mem x := fun x hx => by
        rw [setEntry_of_ne (by rintro rfl; exact ha'.2 hx), ht.mem x fun hxc => Multiset.disjoint_left.mp hcd hxc hx]
      have hsame : below (setEntry t.mem (a, i) 0#64) d a is = below s.mem d a is :=
        below_same (fun j hj => by rw [kid, kid, hentry j hj]) hmem
      refine (freewalkLoop_spec hrec is (t.setMem (setEntry t.mem (a, i) 0#64)) (List.nodup_cons.mp hdup).2 ?_ ?_ ?_).mono
        fun _ w hw => ?_
      · show (t.free + ({a} + below (setEntry t.mem (a, i) 0#64) d a is) : Multiset Frame).Nodup
        rw [hsame, ht.free, add_assoc, add_left_comm (nodes (kid s.mem) d c)]
        exact hn
      · show ∀ f ∈ below (setEntry t.mem (a, i) 0#64) d a is, t.img.Ram f
        rw [hsame, ht.img]
        exact fun f hf => hram f (Multiset.mem_add.mpr (.inr hf))
      · intro j hj
        show entry (setEntry t.mem (a, i) 0#64) (a, j) &&& PTE_V ≠ 0 → _ ∧ Bare (setEntry t.mem (a, i) 0#64) d _
        rw [Machine.setMem, hentry j hj]
        intro hvj
        obtain ⟨hp, hbj⟩ := hbare j (List.mem_cons_of_mem i hj) hvj
        refine ⟨hp, hbj.same fun x hx => hmem x (mem_below hj ?_)⟩
        rw [kid_some hvj]
        exact hx
      · obtain ⟨himg, hfree', hmem'⟩ := hw
        change (w.free : Multiset Frame) = t.free + below (setEntry t.mem (a, i) 0#64) d a is at hfree'
        change ∀ f, f ∉ below (setEntry t.mem (a, i) 0#64) d a is → f ≠ a → w.mem f = setEntry t.mem (a, i) 0#64 f at hmem'
        rw [hsame] at hfree' hmem'
        refine ⟨himg.trans ht.img, by rw [hfree', ht.free, add_assoc], fun f hf hfa => ?_⟩
        rw [Multiset.mem_add, not_or] at hf
        rw [hmem' f hf.2 hfa, setEntry_of_ne hfa, ht.mem f hf.1]
    · -- nothing is below
      rw [if_neg (fun h => hv h.1), if_neg hv]
      rw [kid_none (not_not.mp hv)] at hn hram ⊢
      simp only [Option.elim_none, zero_add] at hn hram ⊢
      exact freewalkLoop_spec hrec is s (List.nodup_cons.mp hdup).2 hn hram fun j hj => hbare j (List.mem_cons_of_mem i hj)

theorem freewalkLoop_bare {recurse : Frame → VM Unit} (h : ∀ i, entry s.mem (a, i) &&& PTE_V = 0) :
    ∀ is, wp (freewalkLoop recurse a is) (fun _ t => t = s) E s
  | [] => rfl
  | i :: is => by
    rw [freewalkLoop, load]
    simp only [wp_bind, wp_get, wp_pure]
    rw [if_neg (fun hv => hv.1 (h i)), if_neg (not_not.mpr (h i))]
    exact freewalkLoop_bare h is

/-- FREE: all page-table pages of a tree without leaves. -/
theorem freewalk_spec (d : ℕ) : ∀ (a : Frame) (s : Machine), Freeable s d a →
    wp (freewalk (d + 1) a) (fun _ t => Returned s t (nodes (kid s.mem) d a)) E s := by
  induction d with
  | zero =>
    intro a s hs
    rw [freewalk, nodes_zero]
    refine (freewalkLoop_bare hs.bare indices).bind fun _ t hts => ?_
    rw [hts]
    exact (kfree_spec (hs.ram a (self_mem_nodes _ a 0))).mono fun _ u hu => hu.returned
  | succ d ih =>
    intro a s hs
    have hall := below_all s.mem d a
    have hn := hs.apart
    have hram := hs.ram
    have hdup := nodup_indices
    rw [hall] at hn hram ⊢
    rw [freewalk]
    refine (freewalkLoop_spec ih indices s hdup hn
      (fun f hf => hram f (Multiset.mem_add.mpr (.inr hf))) fun i _ hv => hs.bare i hv).bind ?_
    rintro _ t ⟨himg, hfree, hmem⟩
    have hra : t.img.Ram a := himg ▸ hram a (Multiset.mem_add.mpr (.inl (Multiset.mem_singleton_self a)))
    refine (kfree_spec hra).mono fun _ u hu => ⟨hu.img.trans himg, ?_, fun f hf => ?_⟩
    · rw [hu.returned.free, hfree, add_assoc, add_comm (below _ _ _ _)]
    · rw [Multiset.mem_add, not_or] at hf
      rw [hu.returned.mem f hf.1, hmem f hf.2 fun he => hf.1 (Multiset.mem_singleton.mpr he)]

/-! ### `uvmdealloc` -/

theorem Unmapped.none (ht : Table s.mem root) (p : ℕ) : Unmapped s s root p 0 0 :=
  ⟨rfl, rfl, (add_zero _).symm, fun _ _ _ => rfl, ht, (funext fun x => if_neg (by omega)).symm⟩

theorem pages_mono {a b : ℕ} (h : a ≤ b) : pages a ≤ pages b := Nat.div_le_div_right (by omega)

theorem PGROUNDUP_eq {sz : Word} (h : sz.toNat ≤ 2 ^ 38) : PGROUNDUP sz = vaddr (pages sz.toNat) := by
  have hp : pages sz.toNat < 2 ^ 52 := by rw [pages]; omega
  exact BitVec.eq_of_toNat_eq (by rw [PGROUNDUP_toNat (by omega), vaddr_toNat hp])

theorem npages_toNat {x : Word} (h : x.toNat < 2 ^ 31) : ((x.setWidth 32).signExtend 64).toNat = x.toNat := by
  have hlt : (x.setWidth 32).toNat = x.toNat := by rw [BitVec.toNat_setWidth]; omega
  have hmsb : (x.setWidth 32).msb = false := by rw [BitVec.msb_eq_decide, hlt]; simp; omega
  rw [BitVec.signExtend_eq_setWidth_of_msb_false hmsb, BitVec.toNat_setWidth, hlt]
  omega

/-- The frames of the pages from size `newsz` to size `oldsz`. -/
def released (F : ℕ → Option Word) (oldsz newsz : Word) : Multiset Frame :=
  frames F (pages newsz.toNat) (pages oldsz.toNat - pages newsz.toNat)

/-- SHRINK: the pages beyond the new size are gone and free. -/
theorem uvmdealloc_spec {oldsz newsz : Word} (hold : oldsz.toNat ≤ 2 ^ 38) (ht : Table s.mem root)
    (hleaf : ∀ x, pages newsz.toNat ≤ x → x < pages oldsz.toNat → Leaf (lookup s.mem root x))
    (hn : (held s root + released (lookup s.mem root) oldsz newsz).Nodup)
    (hram : ∀ f ∈ released (lookup s.mem root) oldsz newsz, s.img.Ram f) :
    wp (uvmdealloc root oldsz newsz) (fun r t => r = (if newsz ≥ oldsz then oldsz else newsz) ∧
      Unmapped s t root (pages newsz.toNat) (pages oldsz.toNat - pages newsz.toNat)
        (released (lookup s.mem root) oldsz newsz)) E s := by
  have hnothing : pages oldsz.toNat ≤ pages newsz.toNat → Unmapped s s root (pages newsz.toNat)
      (pages oldsz.toNat - pages newsz.toNat) (released (lookup s.mem root) oldsz newsz) := fun h => by
    rw [released, Nat.sub_eq_zero_of_le h]
    exact .none ht _
  rw [uvmdealloc]
  by_cases hge : newsz ≥ oldsz
  · rw [if_pos hge, wp_pure, if_pos hge]
    exact ⟨rfl, hnothing (pages_mono (BitVec.le_def.mp hge))⟩
  have hlt : newsz.toNat < oldsz.toNat := BitVec.lt_def.mp (BitVec.not_le.mp hge)
  have hpo : pages oldsz.toNat ≤ 2 ^ 26 := by rw [pages]; omega
  have hpn : pages newsz.toNat ≤ 2 ^ 26 := by rw [pages]; omega
  rw [if_neg hge, if_neg hge, PGROUNDUP_eq hold, PGROUNDUP_eq (by omega)]
  have ho := vaddr_toNat (p := pages oldsz.toNat) (by omega)
  have hw := vaddr_toNat (p := pages newsz.toNat) (by omega)
  by_cases hmore : pages newsz.toNat < pages oldsz.toNat
  · have hcmp : vaddr (pages newsz.toNat) < vaddr (pages oldsz.toNat) := by rw [BitVec.lt_def, ho, hw]; omega
    have hcount : ((vaddr (pages oldsz.toNat) - vaddr (pages newsz.toNat)) / PGSIZE).toNat =
        pages oldsz.toNat - pages newsz.toNat := by
      rw [BitVec.toNat_udiv]
      show (vaddr (pages oldsz.toNat) - vaddr (pages newsz.toNat)).toNat / 4096 = _
      bv_omega
    rw [if_pos hcmp]
    refine (uvmunmap_spec (n := pages oldsz.toNat - pages newsz.toNat) ?_ ht (by omega)
      (fun x hx hx' => hleaf x hx (by omega)) (show (held s root + freed true _ _ _).Nodup from hn) hram).bind
      fun _ t hu => ⟨rfl, hu⟩
    rw [npages_toNat (by omega), hcount]
  · have hcmp : ¬ vaddr (pages newsz.toNat) < vaddr (pages oldsz.toNat) := by rw [BitVec.lt_def, ho, hw]; omega
    rw [if_neg hcmp]
    exact ⟨rfl, hnothing (by omega)⟩

/-! ### `uvmalloc` -/

/-- Pages below the trapframe page. -/
abbrev TOP : ℕ := 2 ^ 26 - 2

/-- `n` pages of zeros from `p` on were added, in frames from the free list. -/
structure Grown (s t : Machine) (root : Frame) (p n : ℕ) (perm : Word) : Prop where
  img : t.img = s.img
  held : held t root + frames (lookup t.mem root) p n = held s root
  tables : tables s.mem root ≤ tables t.mem root
  frame : ∀ f, f ∉ Vm.held s root → t.mem f = s.mem f
  table : Table t.mem root
  beside : ∀ x, ¬ (p ≤ x ∧ x < p + n) → lookup t.mem root x = lookup s.mem root x
  here : ∀ x, p ≤ x → x < p + n → ∃ f, lookup t.mem root x = some (PA2PTE f.pa ||| perm ||| PTE_V) ∧ t.mem f = fun _ => 0

theorem Grown.refl (hs : Good s root) (p : ℕ) (perm : Word) : Grown s s root p 0 perm :=
  ⟨rfl, add_zero _, le_rfl, fun _ _ => rfl, hs.table, fun _ _ => rfl, fun x h h' => by omega⟩

theorem frames_concat (F : ℕ → Option Word) (p n : ℕ) : frames F p (n + 1) = frameOf (F (p + n)) ::ₘ frames F p n := by
  rw [frames, List.range'_1_concat, List.map_append, ← Multiset.coe_add, add_comm]
  rfl

theorem card_frames (F : ℕ → Option Word) (p n : ℕ) : (frames F p n).card = n := by
  rw [frames, Multiset.coe_card, List.length_map, List.length_range']

theorem Grown.le {perm : Word} (h : Grown s t root p n perm) : n ≤ (Vm.held s root).card := by
  rw [← h.held, Multiset.card_add, card_frames]; omega

theorem frameOf_entry {perm : Word} (hperm : perm.toNat < 1024) (f : Frame) :
    frameOf (some (PA2PTE f.pa ||| perm ||| PTE_V)) = f := by
  have hv : (perm ||| PTE_V).toNat < 1024 := by
    rw [BitVec.toNat_or]
    exact Nat.or_lt_two_pow (n := 10) hperm (by decide)
  rw [frameOf, Option.elim_some, BitVec.or_assoc, PTE2PA_entry (by rw [pa_toNat]; omega) hv, frame_pa]

theorem mem_frames {F : ℕ → Option Word} {x : ℕ} (hx : p ≤ x) (hx' : x < p + n) : frameOf (F x) ∈ frames F p n := by
  rw [frames, Multiset.mem_coe, List.mem_map]
  exact ⟨x, List.mem_range'_1.mpr ⟨hx, hx'⟩, rfl⟩

/-- A page was allocated and zeroed. -/
structure Fresh (s : Machine) (f : Frame) (t : Machine) (root : Frame) : Prop where
  img : t.img = s.img
  held : held s root = f ::ₘ held t root
  mem : t.mem f = fun _ => 0
  other : ∀ g, g ≠ f → t.mem g = s.mem g
  same : SameTable s.mem t.mem root
  good : Good t root

theorem Took.fresh (h : Took s f t) (hs : Good s root) : Fresh s f (t.setMem (update t.mem f fun _ => 0)) root := by
  have hfree : f ∉ tables s.mem root := hs.notMem (by rw [h.free]; exact List.mem_cons_self)
  have hother : ∀ g, g ≠ f → update t.mem f (fun _ => 0) g = s.mem g := fun g hg => by
    rw [update_of_ne hg, h.mem, update_of_ne hg]
  have hsame : ∀ g ∈ tables s.mem root, update t.mem f (fun _ => 0) g = s.mem g := fun g hg =>
    hother g (by rintro rfl; exact hfree hg)
  have hst := sameTable hsame
  have hheld : held s root = f ::ₘ held (t.setMem (update t.mem f fun _ => 0)) root := by
    rw [held, held, h.free, ← Multiset.cons_coe, Multiset.cons_add]
    exact congrArg (fun A => f ::ₘ ((t.free : Multiset Frame) + A)) hst.tables.symm
  refine ⟨h.img, hheld, update_self .., hother, hst, hs.table.congr hsame, ?_⟩
  have := hs.apart
  rw [hheld, Multiset.nodup_cons] at this
  exact this.2

theorem Grown.succ {perm : Word} (hperm : perm.toNat < 1024) (hs : Good s root) (h : Grown s t root p n perm) {v : Machine}
    (hf : Fresh t f u root) (hk : Kept u v root)
    (hl : lookup v.mem root = mapped (lookup u.mem root) (p + n) 1 f.pa perm) : Grown s v root p (n + 1) perm := by
  have hnew : lookup v.mem root (p + n) = some (PA2PTE f.pa ||| perm ||| PTE_V) := by
    rw [hl, mapped, if_pos (by omega), Nat.sub_self]
    rw [show f.pa + vaddr 0 = f.pa from BitVec.add_zero _]
  have hold : ∀ x, x ≠ p + n → lookup v.mem root x = lookup t.mem root x := fun x hx => by
    rw [hl, mapped, if_neg (by omega), hf.same.lookup]
  have hframes : frames (lookup v.mem root) p (n + 1) = f ::ₘ frames (lookup t.mem root) p n := by
    rw [frames_concat, hnew, frameOf_entry hperm, frames_congr fun x _ hx => hold x (by omega)]
  have hheld : Vm.held s root = f ::ₘ Vm.held u root + frames (lookup t.mem root) p n := by rw [← h.held, hf.held]
  have hnodup := hs.apart
  rw [hheld] at hnodup
  -- a frame in use by the new pages is not written any more
  have hkeep : ∀ g, g ∈ frames (lookup t.mem root) p n → v.mem g = t.mem g := fun g hg => by
    have hgu : g ∉ f ::ₘ Vm.held u root := Multiset.disjoint_right.mp (Multiset.nodup_add.mp hnodup).2.2 hg
    rw [Multiset.mem_cons, not_or] at hgu
    rw [hk.frame g hgu.2, hf.other g hgu.1]
  have htab : Vm.tables s.mem root ≤ Vm.tables v.mem root := h.tables.trans (hf.same.tables.ge.trans hk.tables)
  refine ⟨hk.img.trans (hf.img.trans h.img), ?_, htab, fun g hg => ?_, hk.table, fun x hx => ?_, fun x hx hx' => ?_⟩
  · rw [hframes, hk.held, hheld, Multiset.cons_add, Multiset.add_cons]
  · have hg' := hg
    rw [hheld, Multiset.mem_add, not_or, Multiset.mem_cons, not_or] at hg
    rw [hk.frame g hg.1.2, hf.other g hg.1.1, h.frame g hg']
  · rw [hold x (by omega), h.beside x (by omega)]
  · rcases Nat.lt_or_ge x (p + n) with hlt | hge
    · obtain ⟨g, hg, hz⟩ := h.here x hx hlt
      refine ⟨g, by rw [hold x (by omega), hg], ?_⟩
      have hmem := mem_frames (F := lookup t.mem root) hx hlt
      rw [hg, frameOf_entry hperm] at hmem
      rw [hkeep g hmem, hz]
    · obtain rfl : x = p + n := by omega
      refine ⟨f, hnew, ?_⟩
      have hfu : f ∉ Vm.held u root := by
        have := (Multiset.nodup_add.mp hnodup).1
        exact (Multiset.nodup_cons.mp this).1
      rw [hk.frame f hfu, hf.mem]

theorem Grown.leaf {perm : Word} (hperm : perm &&& (PTE_R ||| PTE_W ||| PTE_X) ≠ 0) (h : Grown s t root p n perm) {x : ℕ}
    (hx : p ≤ x) (hx' : x < p + n) : Leaf (lookup t.mem root x) := by
  obtain ⟨f, hf, -⟩ := h.here x hx hx'
  exact ⟨_, hf, leaf_entry hperm⟩

/-- UNDO: growth is taken back, after steps that left the map as it was. -/
theorem Grown.undo {perm : Word} (hperm : perm &&& (PTE_R ||| PTE_W ||| PTE_X) ≠ 0) (hs : Good s root)
    (hram : ∀ f ∈ Vm.held s root, s.img.Ram f) (h : Grown s t root p n perm) (hw : Walked t u root) (hlt : p + n ≤ 2 ^ 26)
    (hnone : ∀ x, p ≤ x → x < p + n → lookup s.mem root x = none) :
    wp (uvmdealloc root (vaddr (p + n)) (vaddr p)) (fun _ v => Walked s v root) E u := by
  have hpo : pages (vaddr (p + n)).toNat = p + n := by rw [vaddr_toNat (by omega), pages]; omega
  have hpn : pages (vaddr p).toNat = p := by rw [vaddr_toNat (by omega), pages]; omega
  have hrel : released (lookup u.mem root) (vaddr (p + n)) (vaddr p) = frames (lookup t.mem root) p n := by
    rw [released, hpo, hpn, Nat.add_sub_cancel_left, hw.lookup]
  have hsum : Vm.held u root + frames (lookup t.mem root) p n = Vm.held s root := by rw [hw.kept.held, h.held]
  have himg : u.img = s.img := hw.kept.img.trans h.img
  have hold : (vaddr (p + n)).toNat ≤ 2 ^ 38 := by rw [vaddr_toNat (by omega)]; omega
  refine (uvmdealloc_spec hold hw.kept.table ?_ ?_ ?_).mono ?_
  · rw [hpo, hpn, hw.lookup]
    exact fun x hx hx' => h.leaf hperm hx hx'
  · rw [hrel, hsum]; exact hs.apart
  · rw [hrel, himg]
    exact fun f hf => hram f (by rw [← hsum]; exact Multiset.mem_add.mpr (.inr hf))
  · rintro r v ⟨_, hv⟩
    rw [hrel, hpo, hpn, Nat.add_sub_cancel_left] at hv
    have htables : Vm.tables s.mem root ≤ Vm.tables v.mem root := by
      rw [hv.tables]
      exact h.tables.trans hw.kept.tables
    refine ⟨⟨hv.img.trans himg, by rw [hv.held, hsum], htables, fun f hf => ?_, hv.table⟩, ?_⟩
    · have hf' : f ∉ Vm.held u root ∧ f ∉ frames (lookup t.mem root) p n := by
        rwa [← hsum, Multiset.mem_add, not_or] at hf
      have htab : f ∉ Vm.tables u.mem root := fun hm => hf'.1 (mem_held.mpr (.inr hm))
      rw [hv.frame f htab hf'.2, hw.kept.frame f (by rw [← hw.kept.held]; exact hf'.1), h.frame f hf]
    · rw [hv.lookup, hw.lookup]
      funext x
      rw [unmapped]
      split
      · rename_i hx; rw [hnone x hx.1 hx.2]
      · rename_i hx; exact h.beside x hx

theorem Fresh.give {v w : Machine} (h : Fresh s f u root) (hs : Good s root) (hw : Walked u v root) (hg : Gave v f w) :
    Walked s w root := by
  have hnodup := hs.apart
  rw [h.held, Multiset.nodup_cons] at hnodup
  obtain ⟨hsame, hgood, hheld⟩ := hg.good (hw.kept.good h.good) (by rw [hw.kept.held]; exact hnodup.1)
  have htab : Vm.tables s.mem root ≤ Vm.tables w.mem root := by
    rw [hsame.tables, ← h.same.tables]
    exact hw.kept.tables
  refine ⟨⟨hg.img.trans (hw.kept.img.trans h.img), by rw [hheld, hw.kept.held, h.held], htab, fun g hgm => ?_, hgood.table⟩,
    ?_⟩
  · rw [h.held, Multiset.mem_cons, not_or] at hgm
    rw [hg.mem, update_of_ne hgm.1, hw.kept.frame g hgm.2, h.other g hgm.1]
  · rw [hsame.lookup, hw.lookup, h.same.lookup]

/-- What a table must be for `uvmalloc` to work from page `p` on: nothing is mapped there, and there is not enough memory to
    reach the trapframe. -/
structure Room (s : Machine) (root : Frame) (p : ℕ) : Prop where
  good : Good s root
  ram : ∀ f ∈ held s root, s.img.Ram f
  none : ∀ x, p ≤ x → x < TOP → lookup s.mem root x = none
  top : p + (held s root).card < TOP

section Alloc
variable {perm newsz : Word} (hrwx : (PTE_R ||| PTE_U ||| perm) &&& (PTE_R ||| PTE_W ||| PTE_X) ≠ 0)
  (hperm : (PTE_R ||| PTE_U ||| perm).toNat < 1024)
include hrwx hperm

theorem uvmallocLoop_spec (hs : Room s root p) : ∀ (rounds n : ℕ) (t : Machine), Grown s t root p n (PTE_R ||| PTE_U ||| perm) →
    0 < rounds → newsz.toNat / 4096 + 2 ≤ p + n + rounds →
    wp (uvmallocLoop root (vaddr p) newsz perm rounds (vaddr (p + n))) (fun r u => (r = 0 ∧ Walked s u root) ∨
      (r = newsz ∧ ∃ k, n ≤ k ∧ Grown s u root p k (PTE_R ||| PTE_U ||| perm) ∧ newsz.toNat ≤ (p + k) * 4096 ∧
        (k = n ∨ (p + k - 1) * 4096 < newsz.toNat))) E t
  | 0, _, _, _, h0, _ => absurd h0 (Nat.lt_irrefl 0)
  | rounds + 1, n, t, h, _, hr => by
    have hle := h.le
    have htop := hs.top
    have hT : TOP = 2 ^ 26 - 2 := rfl
    have hna : (vaddr (p + n)).toNat = (p + n) * 4096 := vaddr_toNat (by omega)
    have hnone : ∀ x, p ≤ x → x < p + n → lookup s.mem root x = none := fun x hx hx' => hs.none x hx (by omega)
    have hgood : Good t root := ⟨h.table, Multiset.nodup_of_le (by rw [← h.held]; exact Multiset.le_add_right _ _) hs.good.apart⟩
    have hramt : ∀ f ∈ held t root, t.img.Ram f := fun f hf => by
      rw [h.img]
      exact hs.ram f (by rw [← h.held]; exact Multiset.mem_add.mpr (.inl hf))
    rw [uvmallocLoop]
    by_cases hmore : vaddr (p + n) < newsz
    · have hmoreN : (p + n) * 4096 < newsz.toNat := by rw [← hna]; exact BitVec.lt_def.mp hmore
      rw [if_pos hmore]
      refine (kalloc_spec t).bind fun r t1 hr1 => ?_
      cases r with
      | none =>
        -- no page
        have hw : Walked t t1 root := ⟨Denied.kept hr1 hgood, by rw [Denied.mem hr1]⟩
        refine (h.undo hrwx hs.good hs.ram hw (by omega) hnone).bind fun _ u hu => .inl ⟨rfl, hu⟩
      | some f =>
        have hf : Fresh t f (t1.setMem (update t1.mem f fun _ => 0)) root := Took.fresh hr1 hgood
        simp only [memset, wp_bind, wp_modify]
        generalize t1.setMem (update t1.mem f fun _ => 0) = t2 at hf ⊢
        have hask : Asked (vaddr (p + n)) PGSIZE (p + n) 0 := ⟨rfl, rfl, by omega⟩
        have hfree : ∀ x, p + n ≤ x → x ≤ p + n + 0 → lookup t2.mem root x = none := fun x hx hx' => by
          rw [hf.same.lookup, h.beside x (by omega)]
          exact hs.none x (by omega) (by omega)
        refine (mappages_spec hask f.pa _ hf.good hfree).mono ?_
        rintro r t3 ⟨hk, hr3⟩
        rcases hr3 with ⟨rfl, hl⟩ | ⟨rfl, k, hk0, hl⟩
        · rw [if_neg (not_not.mpr rfl), vaddr_succ, Nat.add_assoc p n 1]
          refine (uvmallocLoop_spec hs rounds (n + 1) t3 (h.succ hperm hs.good hf hk hl) (by omega) (by omega)).mono
            fun r u hu => ?_
          rcases hu with hu | ⟨hru, k, hk, hg, hge, hlast⟩
          · exact .inl hu
          · refine .inr ⟨hru, k, by omega, hg, hge, .inr ?_⟩
            rcases hlast with rfl | hlast
            · rw [show p + (n + 1) - 1 = p + n by omega]; exact hmoreN
            · exact hlast
        · -- no page-table page
          obtain rfl : k = 0 := Nat.le_zero.mp hk0
          rw [mapped_zero] at hl
          rw [if_pos (by decide)]
          have hram3 : t3.img.Ram f := by
            rw [hk.img, hf.img]
            exact hramt f (by rw [hf.held]; exact Multiset.mem_cons_self f _)
          refine (kfree_spec hram3).bind fun _ t4 h4 => ?_
          have hw := hf.give hgood ⟨hk, hl⟩ h4
          exact (h.undo hrwx hs.good hs.ram hw (by omega) hnone).bind fun _ u hu => .inl ⟨rfl, hu⟩
    · rw [if_neg hmore]
      have hge : newsz.toNat ≤ (p + n) * 4096 := by
        rw [← hna]
        exact BitVec.le_def.mp (BitVec.not_lt.mp hmore)
      exact .inr ⟨rfl, n, le_rfl, h, hge, .inl rfl⟩

/-- GROW: all the pages up to the new size, or none. -/
theorem uvmalloc_spec {oldsz : Word} (hold : oldsz.toNat ≤ 2 ^ 38) (hs : Room s root (pages oldsz.toNat)) :
    wp (uvmalloc root oldsz newsz perm) (fun r t => (r = 0 ∧ Walked s t root) ∨
      (r = (if newsz < oldsz then oldsz else newsz) ∧
        Grown s t root (pages oldsz.toNat) (pages newsz.toNat - pages oldsz.toNat) (PTE_R ||| PTE_U ||| perm))) E s := by
  have hrefl : Grown s s root (pages oldsz.toNat) 0 (PTE_R ||| PTE_U ||| perm) := .refl hs.good _ _
  rw [uvmalloc]
  by_cases hlt : newsz < oldsz
  · rw [if_pos hlt, if_pos hlt, Nat.sub_eq_zero_of_le (pages_mono (Nat.le_of_lt (BitVec.lt_def.mp hlt)))]
    exact .inr ⟨rfl, hrefl⟩
  · have hge : pages oldsz.toNat ≤ pages newsz.toNat := pages_mono (BitVec.le_def.mp (BitVec.not_lt.mp hlt))
    rw [if_neg hlt, if_neg hlt]
    simp only [PGROUNDUP_eq hold]
    refine (uvmallocLoop_spec hrwx hperm hs (newsz.toNat / 4096 + 2) 0 s hrefl (by omega) (by omega)).mono fun r t h => ?_
    rcases h with h | ⟨hr, k, -, hg, hk, hlast⟩
    · exact .inl h
    · refine .inr ⟨hr, ?_⟩
      have hcount : pages newsz.toNat - pages oldsz.toNat = k := by
        rw [pages] at hge hk hlast ⊢
        rcases hlast with rfl | hlast
        · rw [pages] at hge ⊢; omega
        · rw [pages] at hge ⊢; omega
      rw [hcount]
      exact hg

end Alloc

/-! ### `uvmfree` -/

theorem Unmapped.returned {A : Multiset Frame} (h : Unmapped s t root p n A) (hs : Returned t u (Vm.tables t.mem root)) :
    Returned s u (Vm.tables s.mem root + A) where
  img := hs.img.trans h.img
  free := by rw [hs.free, h.free, h.tables, add_assoc, add_comm A]
  mem f hf := by
    rw [Multiset.mem_add, not_or] at hf
    rw [hs.mem f (by rw [h.tables]; exact hf.1), h.frame f hf.1 hf.2]

/-- FREE: the user pages and the page-table pages. -/
theorem uvmfree_spec {sz : Word} (hsz : sz.toNat ≤ 2 ^ 38) (ht : Table s.mem root)
    (hleaf : ∀ x < pages sz.toNat, Leaf (lookup s.mem root x)) (hnone : ∀ x, pages sz.toNat ≤ x → lookup s.mem root x = none)
    (hn : (held s root + frames (lookup s.mem root) 0 (pages sz.toNat)).Nodup)
    (hram : ∀ f ∈ tables s.mem root + frames (lookup s.mem root) 0 (pages sz.toNat), s.img.Ram f) :
    wp (uvmfree root sz) (fun _ t => Returned s t (tables s.mem root + frames (lookup s.mem root) 0 (pages sz.toNat))) E s := by
  -- once nothing is mapped, the pages of the tree are freed
  have hwalk : ∀ t, Unmapped s t root 0 (pages sz.toNat) (frames (lookup s.mem root) 0 (pages sz.toNat)) →
      wp (freewalk 3 root) (fun _ u => Returned s u (tables s.mem root + frames (lookup s.mem root) 0 (pages sz.toNat))) E t := by
    intro t hu
    have hempty : ∀ x, lookup t.mem root x = none := fun x => by
      rw [hu.lookup, unmapped]
      split
      · rfl
      · exact hnone x (by omega)
    refine (freewalk_spec 2 root t ⟨?_, ?_, hu.table.bare hempty⟩).mono fun _ u h => hu.returned h
    · have := hu.held
      rw [held] at this
      exact this ▸ hn
    · show ∀ f ∈ tables t.mem root, t.img.Ram f
      rw [hu.tables, hu.img]
      exact fun f hf => hram f (Multiset.mem_add.mpr (.inl hf))
  rw [uvmfree]
  by_cases hpos : sz > 0
  · have hp : pages sz.toNat ≤ 2 ^ 26 := by rw [pages]; omega
    have hcount : (PGROUNDUP sz / PGSIZE).toNat = pages sz.toNat := by
      rw [BitVec.toNat_udiv, PGROUNDUP_toNat (by omega)]
      exact Nat.mul_div_cancel _ (by decide)
    rw [if_pos hpos]
    refine (uvmunmap_spec (p := 0) hcount ht (by omega) (fun x _ hx => hleaf x (by omega))
      (show (held s root + freed true _ _ _).Nodup from hn)
      (fun f hf => hram f (Multiset.mem_add.mpr (.inr hf)))).bind fun _ t hu => hwalk t hu
  · have hz : sz.toNat = 0 := by
      have := BitVec.le_def.mp (BitVec.not_lt.mp hpos)
      exact Nat.le_zero.mp this
    rw [if_neg hpos]
    refine hwalk s ?_
    rw [hz, show pages 0 = 0 from rfl]
    exact .none ht 0

/-! ### The page tables of processes -/

/-- Pages `A` beyond the free ones became pages `B`, and no page but these was written. -/
structure Moved (s t : Machine) (A B : Multiset Frame) : Prop where
  img : t.img = s.img
  pages : (t.free + B : Multiset Frame) = s.free + A
  mem : ∀ f, f ∉ (s.free + A : Multiset Frame) → t.mem f = s.mem f

variable {A B C : Multiset Frame}

theorem Moved.trans (h : Moved s t A B) (h' : Moved t u B C) : Moved s u A C where
  img := h'.img.trans h.img
  pages := h'.pages.trans h.pages
  mem f hf := (h'.mem f (by rwa [h.pages])).trans (h.mem f hf)

theorem Moved.frame (h : Moved s t A B) (C : Multiset Frame) : Moved s t (A + C) (B + C) where
  img := h.img
  pages := by rw [← add_assoc, h.pages, add_assoc]
  mem f hf := h.mem f fun hm => hf (by rw [← add_assoc]; exact Multiset.mem_add.mpr (.inl hm))

theorem Returned.moved (h : Returned s t A) : Moved s t A 0 where
  img := h.img
  pages := by rw [h.free, add_zero]
  mem f hf := h.mem f fun hm => hf (Multiset.mem_add.mpr (.inr hm))

theorem Kept.moved (h : Kept s t root) : Moved s t (Vm.tables s.mem root) (Vm.tables t.mem root) := ⟨h.img, h.held, h.frame⟩

theorem Unmapped.moved (h : Unmapped s t root p n A) : Moved s t (Vm.tables s.mem root + A) (Vm.tables t.mem root) where
  img := h.img
  pages := by rw [h.free, h.tables, add_assoc, add_comm A]
  mem f hf := by
    rw [Multiset.mem_add, Multiset.mem_add, not_or, not_or] at hf
    exact h.frame f hf.2.1 hf.2.2

theorem Grown.moved {perm : Word} (h : Grown s t root p n perm) :
    Moved s t (Vm.tables s.mem root) (Vm.tables t.mem root + frames (lookup t.mem root) p n) where
  img := h.img
  pages := by rw [← add_assoc]; exact h.held
  mem := h.frame

theorem Denied.moved (h : Denied s t) : Moved s t 0 0 := ⟨h.img, by rw [h.free], fun f _ => by rw [h.mem]⟩

/-- Entries of user pages; not all of them are accessible from user mode. -/
def UserLeaf (o : Option Word) : Prop := ∃ pte, o = some pte ∧ pte &&& PTE_R ≠ 0

theorem UserLeaf.leaf {o : Option Word} (h : UserLeaf o) : Leaf o := by
  obtain ⟨pte, rfl, hr⟩ := h
  refine ⟨pte, rfl, fun hf => hr ?_⟩
  have h2 : pte &&& PTE_R = PTE_FLAGS pte &&& PTE_R := by
    rw [PTE_FLAGS, BitVec.and_assoc]
    rfl
  rw [h2, hf]
  decide

/-- The page table of a process with `n` user pages. -/
structure Space (s : Machine) (root trapframe : Frame) (n : ℕ) : Prop where
  table : Table s.mem root
  user : ∀ x < n, UserLeaf (lookup s.mem root x)
  trapframe : lookup s.mem root TOP = some (PA2PTE trapframe.pa ||| (PTE_R ||| PTE_W) ||| PTE_V)
  trampoline : lookup s.mem root (TOP + 1) = some (PA2PTE s.img.trampoline.pa ||| (PTE_R ||| PTE_X) ||| PTE_V)
  none : ∀ x, n ≤ x → x ≠ TOP → x ≠ TOP + 1 → lookup s.mem root x = none
  le : n ≤ TOP

/-- The pages of an address space. -/
def owned (s : Machine) (root : Frame) (n : ℕ) : Multiset Frame := tables s.mem root + frames (lookup s.mem root) 0 n

end Minios.Vm
