import Mathlib

/-! Trees of nodes in a heap.

    The heap is given by `kid`: the child of a node under a key, if any. A tree of depth `h` below a node is
    well built when no node occurs twice in it. Its inner nodes are those of depth less than `h`; what the
    bottom nodes hold is not part of the tree.

        find kid a [k, l]   the node reached from `a` along two keys
        nodes kid h a       all nodes of the tree, as a multiset

    Two changes keep a tree: any change outside its inner nodes, and hanging a fresh node without children
    into an empty place (GRAFT). -/

namespace Minios.Schemes.Radix

variable {α κ : Type*} {kid kid' : α → κ → Option α} {a b x g : α} {i : κ} {h : ℕ}

/-- Follow keys from a node down. -/
def find (kid : α → κ → Option α) : α → List κ → Option α
  | a, [] => some a
  | a, k :: ks => (kid a k).bind fun b => find kid b ks

@[simp] theorem find_nil (kid : α → κ → Option α) (a : α) : find kid a [] = some a := rfl

theorem find_cons_some {k : κ} (hk : kid a k = some b) (ks : List κ) : find kid a (k :: ks) = find kid b ks := by
  rw [find, hk]; rfl

theorem find_cons_none {k : κ} (hk : kid a k = none) (ks : List κ) : find kid a (k :: ks) = none := by
  rw [find, hk]; rfl

theorem find_concat (kid : α → κ → Option α) (k : κ) : ∀ (ks : List κ) (a : α),
    find kid a (ks ++ [k]) = (find kid a ks).bind fun b => kid b k
  | [], a => by
    show ((kid a k).bind fun b => some b) = kid a k
    cases kid a k <;> rfl
  | l :: ks, a => by
    rw [List.cons_append, find, find]
    cases hb : kid a l with
    | none => rfl
    | some b => exact find_concat kid k ks b

variable [Fintype κ]

/-- The nodes of depth at most `h` below `a`. -/
def nodes (kid : α → κ → Option α) : ℕ → α → Multiset α
  | 0, a => {a}
  | h + 1, a => {a} + ∑ k, (kid a k).elim 0 (nodes kid h)

/-- The nodes below `a` in the places other than `k`. -/
def beside [DecidableEq κ] (kid : α → κ → Option α) (h : ℕ) (a : α) (k : κ) : Multiset α :=
  ∑ l ∈ Finset.univ.erase k, (kid a l).elim 0 (nodes kid h)

theorem nodes_zero (kid : α → κ → Option α) (a : α) : nodes kid 0 a = {a} := rfl

theorem nodes_succ (kid : α → κ → Option α) (h : ℕ) (a : α) :
    nodes kid (h + 1) a = {a} + ∑ k, (kid a k).elim 0 (nodes kid h) := rfl

theorem nodes_split [DecidableEq κ] (kid : α → κ → Option α) (h : ℕ) (a : α) (k : κ) :
    nodes kid (h + 1) a = {a} + ((kid a k).elim 0 (nodes kid h) + beside kid h a k) := by
  rw [nodes_succ, beside, Finset.add_sum_erase _ (fun l => (kid a l).elim 0 (nodes kid h)) (Finset.mem_univ k)]

theorem self_mem_nodes (kid : α → κ → Option α) (a : α) : ∀ h, a ∈ nodes kid h a
  | 0 => Multiset.mem_singleton_self a
  | _ + 1 => Multiset.mem_add.mpr (.inl (Multiset.mem_singleton_self a))

theorem mem_nodes_of_kid {k : κ} (hk : kid a k = some b) (hx : x ∈ nodes kid h b) : x ∈ nodes kid (h + 1) a := by
  refine Multiset.mem_add.mpr (.inr (Multiset.mem_sum.mpr ⟨k, Finset.mem_univ k, ?_⟩))
  rw [hk]; exact hx

theorem mem_beside [DecidableEq κ] {k l : κ} (hl : kid a l = some b) (hne : l ≠ k) (hx : x ∈ nodes kid h b) :
    x ∈ beside kid h a k := by
  refine Multiset.mem_sum.mpr ⟨l, Finset.mem_erase.mpr ⟨hne, Finset.mem_univ l⟩, ?_⟩
  rw [hl]; exact hx

theorem nodes_le_succ (kid : α → κ → Option α) : ∀ (h : ℕ) (a : α), nodes kid h a ≤ nodes kid (h + 1) a
  | 0, a => Multiset.le_add_right ..
  | h + 1, a => by
    rw [nodes_succ, nodes_succ]
    refine add_le_add_right (Finset.sum_le_sum fun k _ => ?_) ({a} : Multiset α)
    cases kid a k with
    | none => exact le_rfl
    | some b => exact nodes_le_succ kid h b

theorem mem_nodes_of_find : ∀ {h : ℕ} {ks : List κ} {a : α}, find kid a ks = some b → ks.length ≤ h →
    b ∈ nodes kid h a
  | h, [], _, hb, _ => by cases hb; exact self_mem_nodes kid b h
  | h + 1, k :: ks, a, hb, hle => by
    cases hk : kid a k with
    | none => rw [find_cons_none hk] at hb; cases hb
    | some c =>
      rw [find_cons_some hk] at hb
      exact mem_nodes_of_kid hk (mem_nodes_of_find hb (Nat.le_of_succ_le_succ hle))

theorem mem_nodes_iff : ∀ {h : ℕ} {a : α}, x ∈ nodes kid h a ↔ ∃ ks : List κ, ks.length ≤ h ∧ find kid a ks = some x
  | 0, a => by
    refine ⟨fun hx => ⟨[], le_rfl, by rw [Multiset.mem_singleton.mp hx, find_nil]⟩, ?_⟩
    rintro ⟨ks, hle, hf⟩
    exact mem_nodes_of_find hf hle
  | h + 1, a => by
    refine ⟨fun hx => ?_, fun h => h.elim fun ks hks => mem_nodes_of_find hks.2 hks.1⟩
    rcases Multiset.mem_add.mp hx with hx | hx
    · exact ⟨[], Nat.zero_le _, by rw [Multiset.mem_singleton.mp hx, find_nil]⟩
    · obtain ⟨k, -, hx⟩ := Multiset.mem_sum.mp hx
      cases hb : kid a k with
      | none => rw [hb] at hx; exact absurd hx (Multiset.notMem_zero x)
      | some b =>
        rw [hb] at hx
        obtain ⟨ks, hle, hf⟩ := mem_nodes_iff.mp hx
        exact ⟨k :: ks, Nat.succ_le_succ hle, (find_cons_some hb ks).trans hf⟩

/-! ### Changes outside the inner nodes -/

theorem nodes_congr : ∀ {h : ℕ} {a : α}, (∀ x ∈ nodes kid h a, kid' x = kid x) →
    nodes kid' (h + 1) a = nodes kid (h + 1) a
  | 0, a, hk => by rw [nodes_succ, nodes_succ, hk a (self_mem_nodes kid a 0)]; rfl
  | h + 1, a, hk => by
    rw [nodes_succ, nodes_succ, hk a (self_mem_nodes kid a _)]
    congr 1
    refine Finset.sum_congr rfl fun k _ => ?_
    cases hb : kid a k with
    | none => rfl
    | some b => exact nodes_congr fun x hx => hk x (mem_nodes_of_kid hb hx)

theorem find_congr : ∀ {h : ℕ} {ks : List κ} {a : α}, (∀ x ∈ nodes kid h a, kid' x = kid x) → ks.length ≤ h + 1 →
    find kid' a ks = find kid a ks
  | _, [], _, _, _ => rfl
  | h, k :: ks, a, hk, hle => by
    have ha := congrFun (hk a (self_mem_nodes kid a h)) k
    cases hb : kid a k with
    | none => rw [find_cons_none hb, find_cons_none (ha.trans hb)]
    | some b =>
      rw [find_cons_some hb, find_cons_some (ha.trans hb)]
      match h, ks with
      | _, [] => rfl
      | h + 1, ks => exact find_congr (fun x hx => hk x (mem_nodes_of_kid hb hx)) (Nat.le_of_succ_le_succ hle)

/-! ### Trees without repetition -/

section Nodup
variable [DecidableEq κ] (hn : (nodes kid (h + 1) a).Nodup)
include hn

/-- What the places of the root of a tree without repetition have in common: nothing. -/
theorem apart (k : κ) : a ∉ (kid a k).elim 0 (nodes kid h) ∧ a ∉ beside kid h a k ∧
    ((kid a k).elim 0 (nodes kid h)).Nodup ∧ Disjoint ((kid a k).elim 0 (nodes kid h)) (beside kid h a k) := by
  rw [nodes_split kid h a k, Multiset.nodup_add, Multiset.singleton_disjoint, Multiset.nodup_add] at hn
  obtain ⟨-, ⟨hk, -, hd⟩, ha⟩ := hn
  exact ⟨fun hm => ha (Multiset.mem_add.mpr (.inl hm)), fun hm => ha (Multiset.mem_add.mpr (.inr hm)), hk, hd⟩

theorem nodup_kid {k : κ} (hk : kid a k = some b) : (nodes kid h b).Nodup := by
  have := (apart hn k).2.2.1
  rwa [hk] at this

theorem self_notMem_kid {k : κ} (hk : kid a k = some b) : a ∉ nodes kid h b := by
  have := (apart hn k).1
  rwa [hk] at this

/-- The subtrees in two places have no node in common. -/
theorem notMem_of_ne {k l : κ} {c : α} (hk : kid a k = some b) (hl : kid a l = some c) (hne : l ≠ k)
    (hx : x ∈ nodes kid h b) : x ∉ nodes kid h c := fun hx' => by
  have hd := (apart hn k).2.2.2
  rw [hk] at hd
  exact Multiset.disjoint_left.mp hd hx (mem_beside hl hne hx')

end Nodup

/-- A node is reached along one path only. -/
theorem find_inj [DecidableEq κ] : ∀ {h : ℕ} {ks ls : List κ} {a : α}, (nodes kid h a).Nodup →
    find kid a ks = some b → find kid a ls = some b → ks.length ≤ h → ls.length ≤ h → ks = ls
  | _, [], [], _, _, _, _, _, _ => rfl
  | h + 1, [], l :: ls, a, hn, hk, hl, _, hle => by
    cases hk
    cases hc : kid b l with
    | none => rw [find_cons_none hc] at hl; cases hl
    | some c =>
      rw [find_cons_some hc] at hl
      exact absurd (mem_nodes_of_find hl (Nat.le_of_succ_le_succ hle)) (self_notMem_kid hn hc)
  | h + 1, k :: ks, [], a, hn, hk, hl, hle, _ => by
    cases hl
    cases hc : kid b k with
    | none => rw [find_cons_none hc] at hk; cases hk
    | some c =>
      rw [find_cons_some hc] at hk
      exact absurd (mem_nodes_of_find hk (Nat.le_of_succ_le_succ hle)) (self_notMem_kid hn hc)
  | h + 1, k :: ks, l :: ls, a, hn, hk, hl, hle, hle' => by
    cases hc : kid a k with
    | none => rw [find_cons_none hc] at hk; cases hk
    | some c =>
      cases hd : kid a l with
      | none => rw [find_cons_none hd] at hl; cases hl
      | some d =>
        rw [find_cons_some hc] at hk
        rw [find_cons_some hd] at hl
        have hmem := mem_nodes_of_find hk (Nat.le_of_succ_le_succ hle)
        have hmem' := mem_nodes_of_find hl (Nat.le_of_succ_le_succ hle')
        have hkl : l = k := by
          by_contra hne
          exact notMem_of_ne hn hc hd hne hmem hmem'
        subst hkl
        cases hc.symm.trans hd
        rw [find_inj (nodup_kid hn hc) hk hl (Nat.le_of_succ_le_succ hle) (Nat.le_of_succ_le_succ hle')]

/-- A bottom node is not an inner node. -/
theorem bottom_notMem [DecidableEq κ] {ks : List κ} (hn : (nodes kid (h + 1) a).Nodup) (hx : find kid a ks = some x)
    (hlen : ks.length = h + 1) : x ∉ nodes kid h a := fun hm => by
  obtain ⟨ls, hle, hf⟩ := mem_nodes_iff.mp hm
  have := congrArg List.length (find_inj hn hx hf hlen.le (Nat.le_succ_of_le hle))
  omega

/-! ### Grafting -/

/-- The fresh node `g`, without children, was hung into the empty place `i` of `x`. -/
structure Graft (kid kid' : α → κ → Option α) (x : α) (i : κ) (g : α) : Prop where
  empty : kid x i = none
  here : kid' x i = some g
  rest : ∀ l, l ≠ i → kid' x l = kid x l
  bare : ∀ k, kid' g k = none
  others : ∀ y, y ≠ x → y ≠ g → kid' y = kid y

omit [Fintype κ] in
theorem Graft.find_new (hg : Graft kid kid' x i g) (ls : List κ) : find kid' g ls = if ls = [] then some g else none := by
  cases ls with
  | nil => rfl
  | cons l ls => rw [find_cons_none (hg.bare l), if_neg (List.cons_ne_nil l ls)]

theorem nodes_bare (hb : ∀ k, kid a k = none) : ∀ h, nodes kid h a = {a}
  | 0 => rfl
  | h + 1 => by
    rw [nodes_succ, Finset.sum_eq_zero fun k _ => by rw [hb k]; rfl, add_zero]

/-- Subtrees without the place of the graft are as before. -/
theorem Graft.away (hg : Graft kid kid' x i g) (hx : x ∉ nodes kid h b) (hnew : g ∉ nodes kid h b) :
    ∀ y ∈ nodes kid h b, kid' y = kid y := fun y hy =>
  hg.others y (by rintro rfl; exact hx hy) (by rintro rfl; exact hnew hy)

/-- A graft of depth at most `h` adds its node to the tree. -/
theorem Graft.nodes_eq [DecidableEq κ] (hg : Graft kid kid' x i g) : ∀ {h : ℕ} {ks : List κ} {a : α},
    (nodes kid (h + 1) a).Nodup → g ∉ nodes kid (h + 1) a → find kid a ks = some x → ks.length ≤ h →
    nodes kid' (h + 1) a = g ::ₘ nodes kid (h + 1) a
  | h, [], a, hn, hnew, hx, _ => by
    cases hx
    have hsub : ∀ l ∈ Finset.univ.erase i, (kid' x l).elim 0 (nodes kid' h) = (kid x l).elim 0 (nodes kid h) := by
      intro l hl
      rw [hg.rest l (Finset.ne_of_mem_erase hl)]
      cases hc : kid x l with
      | none => rfl
      | some c =>
        have hself := self_notMem_kid hn hc
        have hfresh : g ∉ nodes kid h c := fun hm => hnew (mem_nodes_of_kid hc hm)
        cases h with
        | zero => rfl
        | succ h =>
          exact nodes_congr fun y hy => hg.away hself hfresh y (Multiset.mem_of_le (nodes_le_succ kid h c) hy)
    rw [nodes_split kid' h x i, nodes_split kid h x i, hg.here, hg.empty, beside, beside, Finset.sum_congr rfl hsub]
    show {x} + (nodes kid' h g + _) = g ::ₘ ({x} + (0 + _))
    rw [nodes_bare hg.bare, zero_add, ← Multiset.singleton_add, add_left_comm]
  | h + 1, k :: ks, a, hn, hnew, hx, hle => by
    cases hc : kid a k with
    | none => rw [find_cons_none hc] at hx; cases hx
    | some c =>
      rw [find_cons_some hc] at hx
      have hlen := Nat.le_of_succ_le_succ hle
      have hmem : x ∈ nodes kid (h + 1) c := mem_nodes_of_find hx (Nat.le_succ_of_le hlen)
      have hxa : a ≠ x := by rintro rfl; exact self_notMem_kid hn hc hmem
      have hga : a ≠ g := by rintro rfl; exact hnew (self_mem_nodes kid a _)
      have ha : kid' a = kid a := hg.others a hxa hga
      have hsub : ∀ l ∈ Finset.univ.erase k,
          (kid' a l).elim 0 (nodes kid' (h + 1)) = (kid a l).elim 0 (nodes kid (h + 1)) := by
        intro l hl
        rw [ha]
        cases hd : kid a l with
        | none => rfl
        | some d =>
          have hself : x ∉ nodes kid (h + 1) d := notMem_of_ne hn hc hd (Finset.ne_of_mem_erase hl) hmem
          have hfresh : g ∉ nodes kid (h + 1) d := fun hm => hnew (mem_nodes_of_kid hd hm)
          exact nodes_congr fun y hy => hg.away hself hfresh y (Multiset.mem_of_le (nodes_le_succ kid h d) hy)
      have ih := hg.nodes_eq (nodup_kid hn hc) (fun hm => hnew (mem_nodes_of_kid hc hm)) hx hlen
      rw [nodes_split kid' (h + 1) a k, nodes_split kid (h + 1) a k, beside, beside, Finset.sum_congr rfl hsub, ha, hc]
      show {a} + (nodes kid' (h + 1) c + _) = g ::ₘ ({a} + (nodes kid (h + 1) c + _))
      rw [ih, Multiset.cons_add, ← Multiset.singleton_add, ← Multiset.singleton_add, add_left_comm]

/-- After a graft the new node is found in its place, and everything else where it was. -/
theorem Graft.find_eq [DecidableEq κ] (hg : Graft kid kid' x i g) : ∀ {h : ℕ} {ks : List κ} {a : α},
    (nodes kid (h + 1) a).Nodup → g ∉ nodes kid (h + 1) a → find kid a ks = some x → ks.length ≤ h →
    ∀ ls : List κ, ls.length ≤ h + 1 → find kid' a ls = if ls = ks ++ [i] then some g else find kid a ls
  | h, [], a, hn, hnew, hx, _, [], _ => rfl
  | h, [], a, hn, hnew, hx, _, l :: ls, hle => by
    cases hx
    rcases eq_or_ne l i with rfl | hne
    · rw [find_cons_some hg.here, hg.find_new, find_cons_none hg.empty]
      simp
    · rw [if_neg (by simp [hne])]
      have hl := hg.rest l hne
      cases hc : kid x l with
      | none => rw [find_cons_none hc, find_cons_none (hl.trans hc)]
      | some c =>
        rw [find_cons_some hc, find_cons_some (hl.trans hc)]
        have hself := self_notMem_kid hn hc
        have hfresh : g ∉ nodes kid h c := fun hm => hnew (mem_nodes_of_kid hc hm)
        exact find_congr (hg.away hself hfresh) (by simp at hle; omega)
  | h + 1, k :: ks, a, hn, hnew, hx, _, [], _ => rfl
  | h + 1, k :: ks, a, hn, hnew, hx, hle, l :: ls, hle' => by
    cases hc : kid a k with
    | none => rw [find_cons_none hc] at hx; cases hx
    | some c =>
      rw [find_cons_some hc] at hx
      have hlen := Nat.le_of_succ_le_succ hle
      have hmem : x ∈ nodes kid (h + 1) c := mem_nodes_of_find hx (Nat.le_succ_of_le hlen)
      have hxa : a ≠ x := by rintro rfl; exact self_notMem_kid hn hc hmem
      have hga : a ≠ g := by rintro rfl; exact hnew (self_mem_nodes kid a _)
      have ha : kid' a = kid a := hg.others a hxa hga
      rcases eq_or_ne l k with rfl | hne
      · rw [find_cons_some hc, find_cons_some ((congrFun ha l).trans hc), List.cons_append,
          hg.find_eq (nodup_kid hn hc) (fun hm => hnew (mem_nodes_of_kid hc hm)) hx hlen ls
            (Nat.le_of_succ_le_succ hle')]
        simp
      · rw [List.cons_append, if_neg (by simp [hne])]
        cases hd : kid a l with
        | none => rw [find_cons_none hd, find_cons_none ((congrFun ha l).trans hd)]
        | some d =>
          rw [find_cons_some hd, find_cons_some ((congrFun ha l).trans hd)]
          have hself : x ∉ nodes kid (h + 1) d := notMem_of_ne hn hc hd hne hmem
          have hfresh : g ∉ nodes kid (h + 1) d := fun hm => hnew (mem_nodes_of_kid hd hm)
          exact find_congr (hg.away hself hfresh) (by simp at hle'; omega)

-- a sum over all keys is not to be computed
attribute [irreducible] nodes

end Minios.Schemes.Radix
