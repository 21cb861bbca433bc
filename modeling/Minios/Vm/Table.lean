import Minios.Schemes.Radix
import Minios.Vm.Memory

/-! A page table is a finite map from page numbers to leaf entries.

        root ──PX 2──▶ table ──PX 1──▶ table ──PX 0──▶ entry          lookup m root p = entry, if valid

    The page-table pages of a table form a tree of depth 2 in memory, no page twice. `walk` follows the tree,
    grafting fresh pages where it is told to; this changes the tree but not the map. A store through the pointer
    `walk` returns changes the map at one page number. -/

namespace Minios.Vm
open Schemes Function Radix

variable {m m' : Frame → Page} {root : Frame} {p : ℕ} {q : Slot} {pte : Word} {s t u : Machine}

/-! ### Entries -/

theorem and_bit (w : Word) (k : ℕ) (hk : k < 64) : w &&& (1#64 <<< k) ≠ 0 ↔ w.getLsbD k = true := by
  have h : w &&& (1#64 <<< k) = if w.getLsbD k then BitVec.twoPow 64 k else 0#64 := BitVec.and_twoPow w k
  rw [h]
  cases w.getLsbD k with
  | false => simp
  | true =>
    simp only [if_true, iff_true]
    intro hz
    have := congrArg (fun v : Word => v.getLsbD k) hz
    simp [hk] at this

theorem or_valid (w : Word) : (w ||| PTE_V) &&& PTE_V ≠ 0 := by
  rw [and_bit _ 0 (by decide), BitVec.getLsbD_or]
  simp

theorem entry_setEntry_same (m : Frame → Page) (q : Slot) (pte : Word) : entry (setEntry m q pte) q = pte := by
  rw [entry, setEntry, update_self, getLE_setLE_same 8 _ _ _ (by omega)]
  refine BitVec.eq_of_toNat_eq ?_
  have := pte.isLt
  rw [BitVec.toNat_ofNat]
  omega

theorem entry_setEntry_ne (m : Frame → Page) {q q' : Slot} (h : q' ≠ q) (pte : Word) :
    entry (setEntry m q pte) q' = entry m q' := by
  obtain ⟨a, i⟩ := q
  obtain ⟨a', i'⟩ := q'
  rw [entry, setEntry, entry]
  rcases eq_or_ne a' a with rfl | hne
  · have hi : i'.val ≠ i.val := fun he => h (by rw [Fin.ext he])
    rw [update_self, getLE_setLE_disj _ (by dsimp only; omega)]
  · rw [update_of_ne hne]

theorem entry_congr (h : m' q.1 = m q.1) : entry m' q = entry m q := by
  rw [entry, entry, h]

theorem entry_zero (h : m q.1 = fun _ => 0) : entry m q = 0#64 := by
  rw [entry, h, getLE_zero]

theorem setEntry_of_ne {f : Frame} (h : f ≠ q.1) : setEntry m q pte f = m f := by
  rw [setEntry, update_of_ne h]

/-! ### The tree and the map -/

/-- The page a valid entry of an upper page-table page points to. -/
def kid (m : Frame → Page) (a : Frame) (i : Fin 512) : Option Frame :=
  if entry m (a, i) &&& PTE_V ≠ 0 then some (frame (PTE2PA (entry m (a, i)))) else none

/-- The page-table pages. -/
def tables (m : Frame → Page) (root : Frame) : Multiset Frame := nodes (kid m) 2 root

/-- The upper indices of a page number. -/
def path (p : ℕ) : List (Fin 512) := [Fin.ofNat 512 (p / 512 ^ 2), Fin.ofNat 512 (p / 512 ^ 1)]

/-- Where the entry for a page number is. -/
def slot (m : Frame → Page) (root : Frame) (p : ℕ) : Option Slot :=
  (find (kid m) root (path p)).map fun a => (a, Fin.ofNat 512 (p / 512 ^ 0))

def valid (pte : Word) : Option Word := if pte &&& PTE_V ≠ 0 then some pte else none

/-- The map: the valid leaf entry for a page number. -/
def lookup (m : Frame → Page) (root : Frame) (p : ℕ) : Option Word :=
  if p < 2 ^ 27 then (slot m root p).bind fun q => valid (entry m q) else none

/-- Well-formed page tables: no page-table page occurs twice, and none of the upper entries is a leaf. -/
structure Table (m : Frame → Page) (root : Frame) : Prop where
  nodup : (tables m root).Nodup
  inner : ∀ a ∈ nodes (kid m) 1 root, ∀ i, entry m (a, i) &&& PTE_V ≠ 0 →
    entry m (a, i) &&& (PTE_R ||| PTE_W ||| PTE_X) = 0

theorem valid_pos (h : pte &&& PTE_V ≠ 0) : valid pte = some pte := if_pos h

theorem valid_zero : valid 0#64 = none := rfl

theorem valid_eq_some {w : Word} (h : valid pte = some w) : pte = w ∧ pte &&& PTE_V ≠ 0 := by
  rw [valid] at h
  split at h
  · cases h; exact ⟨rfl, by assumption⟩
  · cases h

theorem lookup_lt {w : Word} (h : lookup m root p = some w) : p < 2 ^ 27 := by
  by_contra hp
  rw [lookup, if_neg hp] at h
  cases h

theorem slot_of_lookup {w : Word} (h : lookup m root p = some w) : ∃ q, slot m root p = some q ∧ entry m q = w := by
  rw [lookup, if_pos (lookup_lt h)] at h
  cases hq : slot m root p with
  | none => rw [hq] at h; cases h
  | some q =>
    rw [hq] at h
    exact ⟨q, rfl, (valid_eq_some h).1⟩

theorem lookup_of_slot (hp : p < 2 ^ 27) (hq : slot m root p = some q) : lookup m root p = valid (entry m q) := by
  rw [lookup, if_pos hp, hq]; rfl

theorem valid_of_lookup {w : Word} (h : lookup m root p = some w) : w &&& PTE_V ≠ 0 := by
  obtain ⟨q, hq, rfl⟩ := slot_of_lookup h
  rw [lookup_of_slot (lookup_lt h) hq] at h
  exact (valid_eq_some h).2

theorem slot_none (h : slot m root p = none) : lookup m root p = none := by
  rw [lookup, h]; split <;> rfl

theorem lookup_congr {q' : Slot} (hq : slot m root p = some q) (hq' : slot m' root p = some q')
    (h : entry m' q' = entry m q) : lookup m' root p = lookup m root p := by
  rw [lookup, lookup, hq, hq', Option.bind_some, Option.bind_some, h]

theorem find_of_slot (h : slot m root p = some q) :
    find (kid m) root (path p) = some q.1 ∧ q.2 = Fin.ofNat 512 (p / 512 ^ 0) := by
  rw [slot, Option.map_eq_some_iff] at h
  obtain ⟨a, ha, rfl⟩ := h
  exact ⟨ha, rfl⟩

theorem slot_mem (h : slot m root p = some q) : q.1 ∈ tables m root :=
  mem_nodes_of_find (find_of_slot h).1 le_rfl

/-- Different page numbers have their entries in different places. -/
theorem slot_inj (hn : (tables m root).Nodup) {p' : ℕ} (hp : p < 2 ^ 27) (hp' : p' < 2 ^ 27)
    (h : slot m root p = some q) (h' : slot m root p' = some q) : p = p' := by
  obtain ⟨hf, hi⟩ := find_of_slot h
  obtain ⟨hf', hi'⟩ := find_of_slot h'
  have hpath : path p = path p' := find_inj hn hf hf' le_rfl le_rfl
  simp only [path, List.cons.injEq, and_true] at hpath
  exact eq_of_indices hp hp' hpath.1 hpath.2 (hi.symm.trans hi')

theorem inner_le (m : Frame → Page) (root : Frame) : nodes (kid m) 1 root ≤ tables m root := nodes_le_succ (kid m) 1 root

theorem kid_congr {a : Frame} (h : m' a = m a) : kid m' a = kid m a := by
  funext i
  rw [kid, kid, entry_congr (q := (a, i)) h]

/-- A change outside the page-table pages does not change the table. -/
structure SameTable (m m' : Frame → Page) (root : Frame) : Prop where
  tables : tables m' root = tables m root
  lookup : lookup m' root = lookup m root
  slot : ∀ p, slot m' root p = slot m root p

theorem sameTable (h : ∀ f ∈ tables m root, m' f = m f) : SameTable m m' root := by
  have hkid : ∀ a ∈ nodes (kid m) 1 root, kid m' a = kid m a := fun a ha =>
    kid_congr (h a (Multiset.mem_of_le (inner_le m root) ha))
  have hslot : ∀ p, slot m' root p = slot m root p := fun p => by rw [slot, slot, find_congr hkid le_rfl]
  refine ⟨nodes_congr hkid, funext fun p => ?_, hslot⟩
  cases hq : slot m root p with
  | none => rw [slot_none hq, slot_none ((hslot p).trans hq)]
  | some q => exact lookup_congr hq ((hslot p).trans hq) (entry_congr (h _ (slot_mem hq)))

theorem Table.congr (ht : Table m root) (h : ∀ f ∈ tables m root, m' f = m f) : Table m' root := by
  have hkid : ∀ a ∈ nodes (kid m) 1 root, kid m' a = kid m a := fun a ha =>
    kid_congr (h a (Multiset.mem_of_le (inner_le m root) ha))
  refine ⟨by rw [(sameTable h).tables]; exact ht.nodup, fun a ha i => ?_⟩
  have ha : a ∈ nodes (kid m) 1 root := by
    have hsame : nodes (kid m') 1 root = nodes (kid m) 1 root :=
      nodes_congr fun x hx => hkid x (Multiset.mem_of_le (nodes_le_succ _ 0 _) hx)
    rwa [hsame] at ha
  rw [entry_congr (h a (Multiset.mem_of_le (inner_le m root) ha))]
  exact ht.inner a ha i

/-- An empty page table: one page of zeros. -/
structure Blank (m : Frame → Page) (root : Frame) : Prop where
  table : Table m root
  tables : tables m root = {root}
  lookup : lookup m root = fun _ => none

theorem blank (h : m root = fun _ => 0) : Blank m root := by
  have hentry : ∀ i, entry m (root, i) = 0#64 := fun i => entry_zero h
  have hkid : ∀ i, kid m root i = none := fun i => by rw [kid, hentry i]; rfl
  refine ⟨⟨?_, fun a ha i hv => ?_⟩, nodes_bare hkid 2, funext fun p => slot_none ?_⟩
  · rw [tables, nodes_bare hkid]
    exact Multiset.nodup_singleton root
  · rw [nodes_bare hkid, Multiset.mem_singleton] at ha
    rw [ha, hentry i] at hv
    exact absurd rfl hv
  · rw [slot, path, find_cons_none (hkid _), Option.map_none]

/-! ### Storing a leaf -/

section Store
variable (ht : Table m root) (hp : p < 2 ^ 27) (hq : slot m root p = some q)
include ht hq

theorem store_kid (pte : Word) : ∀ a ∈ nodes (kid m) 1 root, setEntry m q pte a = m a := fun a ha =>
  setEntry_of_ne (by rintro rfl; exact bottom_notMem ht.nodup (find_of_slot hq).1 rfl ha)

theorem store_tables (pte : Word) : tables (setEntry m q pte) root = tables m root :=
  nodes_congr fun a ha => kid_congr (store_kid ht hq pte a ha)

theorem store_slot (pte : Word) (p' : ℕ) : slot (setEntry m q pte) root p' = slot m root p' := by
  rw [slot, slot, find_congr (fun a ha => kid_congr (store_kid ht hq pte a ha)) le_rfl]

theorem store_table (pte : Word) : Table (setEntry m q pte) root := by
  have hkid := store_kid ht hq pte
  refine ⟨by rw [store_tables ht hq]; exact ht.nodup, fun a ha i => ?_⟩
  have ha : a ∈ nodes (kid m) 1 root := by
    have hsame : nodes (kid (setEntry m q pte)) 1 root = nodes (kid m) 1 root :=
      nodes_congr fun x hx => kid_congr (hkid x (Multiset.mem_of_le (nodes_le_succ _ 0 _) hx))
    rwa [hsame] at ha
  rw [entry_congr (hkid a ha)]
  exact ht.inner a ha i

include hp in
/-- STORE: the map changes at the one page number. -/
theorem store_lookup (pte : Word) : lookup (setEntry m q pte) root = update (lookup m root) p (valid pte) := by
  funext p'
  rcases eq_or_ne p' p with rfl | hne
  · rw [update_self, lookup_of_slot hp ((store_slot ht hq pte p').trans hq), entry_setEntry_same]
  · rw [update_of_ne hne]
    by_cases hp' : p' < 2 ^ 27
    · have hslot := store_slot ht hq pte p'
      cases hq' : slot m root p' with
      | none => rw [slot_none hq', slot_none (hslot.trans hq')]
      | some q' =>
        have hqq : q' ≠ q := by rintro rfl; exact hne (slot_inj ht.nodup hp' hp hq' hq)
        exact lookup_congr hq' (hslot.trans hq') (entry_setEntry_ne m hqq pte)
    · rw [lookup, lookup, if_neg hp', if_neg hp']

end Store

/-! ### Grafting a page-table page -/

/-- A zeroed page `g` was hung into the empty entry `i` of `x`. -/
def grafted (m : Frame → Page) (x : Frame) (i : Fin 512) (g : Frame) : Frame → Page :=
  setEntry (update m g fun _ => 0) (x, i) (PA2PTE g.pa ||| PTE_V)

theorem frame_entry (g : Frame) : frame (PTE2PA (PA2PTE g.pa ||| PTE_V)) = g := by
  rw [PTE2PA_entry (by rw [pa_toNat]; omega) (by decide), frame_pa]

section Graft
variable {x g : Frame} {i : Fin 512} {ks : List (Fin 512)} (ht : Table m root) (hx : find (kid m) root ks = some x)
  (hlen : ks.length ≤ 1) (hg : g ∉ tables m root) (hi : entry m (x, i) &&& PTE_V = 0)

theorem entry_graft_self : entry (grafted m x i g) (x, i) = PA2PTE g.pa ||| PTE_V := entry_setEntry_same ..

theorem grafted_of_ne {f : Frame} (hfx : f ≠ x) (hfg : f ≠ g) : grafted m x i g f = m f := by
  rw [grafted, setEntry_of_ne hfx, update_of_ne hfg]

include hx hlen hg

theorem graft_ne : x ≠ g := by
  rintro rfl
  exact hg (mem_nodes_of_find hx (Nat.le_succ_of_le hlen))

theorem entry_graft_beside {l : Fin 512} (hl : l ≠ i) : entry (grafted m x i g) (x, l) = entry m (x, l) := by
  have hne : ((x, l) : Slot) ≠ (x, i) := fun he => hl (Prod.mk.inj he).2
  rw [grafted, entry_setEntry_ne _ hne]
  exact entry_congr (update_of_ne (graft_ne hx hlen hg) ..)

theorem entry_graft_new (l : Fin 512) : entry (grafted m x i g) (g, l) = 0#64 := by
  refine entry_zero ?_
  rw [grafted, setEntry_of_ne (graft_ne hx hlen hg).symm]
  exact update_self ..

include hi in
theorem isGraft : Graft (kid m) (kid (grafted m x i g)) x i g where
  empty := if_neg (not_not.mpr hi)
  here := by
    rw [kid, entry_graft_self, if_pos (or_valid _), frame_entry]
  rest l hl := by rw [kid, kid, entry_graft_beside hx hlen hg hl]
  bare k := by rw [kid, entry_graft_new hx hlen hg]; rfl
  others y hyx hyg := kid_congr (grafted_of_ne hyx hyg)

include ht hi

theorem graft_tables : tables (grafted m x i g) root = g ::ₘ tables m root :=
  (isGraft hx hlen hg hi).nodes_eq ht.nodup hg hx hlen

theorem graft_find {ls : List (Fin 512)} (hls : ls.length ≤ 2) :
    find (kid (grafted m x i g)) root ls = if ls = ks ++ [i] then some g else find (kid m) root ls :=
  (isGraft hx hlen hg hi).find_eq ht.nodup hg hx hlen ls hls

theorem graft_table : Table (grafted m x i g) root := by
  have hgx := graft_ne hx hlen hg
  refine ⟨by rw [graft_tables ht hx hlen hg hi, Multiset.nodup_cons]; exact ⟨hg, ht.nodup⟩, fun a ha l hv => ?_⟩
  obtain ⟨ls, hls, hf⟩ := mem_nodes_iff.mp ha
  rw [graft_find ht hx hlen hg hi (Nat.le_succ_of_le hls)] at hf
  split at hf
  · -- the new page is empty
    cases hf
    rw [entry_graft_new hx hlen hg] at hv
    exact absurd rfl hv
  · have hold : a ∈ nodes (kid m) 1 root := mem_nodes_iff.mpr ⟨ls, hls, hf⟩
    have hag : a ≠ g := by rintro rfl; exact hg (Multiset.mem_of_le (inner_le m root) hold)
    rcases eq_or_ne a x with rfl | hax
    · rcases eq_or_ne l i with rfl | hl
      · rw [entry_graft_self, entry_and (by decide)]
        decide
      · rw [entry_graft_beside hx hlen hg hl] at hv ⊢
        exact ht.inner a hold l hv
    · have he : entry (grafted m x i g) (a, l) = entry m (a, l) := entry_congr (grafted_of_ne hax hag)
      rw [he] at hv ⊢
      exact ht.inner a hold l hv

/-- GRAFT: the map does not change. -/
theorem graft_lookup : lookup (grafted m x i g) root = lookup m root := by
  funext p
  have hfind : find (kid (grafted m x i g)) root (path p) = _ := graft_find ht hx hlen hg hi le_rfl
  by_cases hpath : path p = ks ++ [i]
  · -- nothing was there, and the new page is empty
    have hold : slot m root p = none := by
      rw [slot, hpath, find_concat, hx, Option.bind_some, (isGraft hx hlen hg hi).empty, Option.map_none]
    have hnew : slot (grafted m x i g) root p = some (g, Fin.ofNat 512 (p / 512 ^ 0)) := by
      rw [slot, hfind, if_pos hpath, Option.map_some]
    rw [slot_none hold, lookup, hnew, Option.bind_some, entry_graft_new hx hlen hg, valid_zero, ite_self]
  · rw [if_neg hpath] at hfind
    have hslot : slot (grafted m x i g) root p = slot m root p := by rw [slot, slot, hfind]
    cases hq : slot m root p with
    | none => rw [slot_none hq, slot_none (hslot.trans hq)]
    | some q =>
      obtain ⟨hf, -⟩ := find_of_slot hq
      have hag : q.1 ≠ g := fun he => hg (he ▸ slot_mem hq)
      -- a bottom page is not `x`
      have hax : q.1 ≠ x := fun he => by
        have := congrArg List.length (find_inj ht.nodup hf (he ▸ hx) le_rfl (Nat.le_succ_of_le hlen))
        simp only [path, List.length_cons, List.length_nil] at this
        omega
      exact lookup_congr hq (hslot.trans hq) (entry_congr (grafted_of_ne hax hag))

end Graft

end Minios.Vm
