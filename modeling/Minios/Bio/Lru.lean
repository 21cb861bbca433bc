import Minios.Bio.Invariant

/-! `kernel/bio.c`: eviction is exact LRU.

        head ──▶ dropped last ──▶ ... ──▶ dropped first ──▶ never used
                                                     ◀── the search for an unused buffer starts here

    A clock is added to the cache: for each buffer, the time at which `brelse` last brought its `refcnt` to 0. That is the
    moment at which the buffer is moved to the head, so the list is ordered by these times, also through the buffers in
    use, which stay where they are. Only a `bunpin` by someone who does not hold the buffer could bring `refcnt` to 0
    without the move. -/

namespace Minios.Bio
open Schemes Function

/-- The cache with a clock; `dropped i` is when `brelse` last brought the `refcnt` of buffer `i` to 0, 0 if never. -/
structure Timed where
  sys : Sys
  clock : ℕ
  dropped : Fin NBUF → ℕ

def Timed.init : Timed := ⟨.init, 0, fun _ => 0⟩

/-- When the buffers were dropped, after a step to `t` at time `now`. -/
def stamp (dropped : Fin NBUF → ℕ) (now : ℕ) (t : Sys) : Label → Fin NBUF → ℕ
  | .drop _ i => if (t.cache.buf i).refcnt = 0 then update dropped i now else dropped
  | _ => dropped

def tick (s : Timed) (l : Label) : Option Timed :=
  (step s.sys l).map fun t => ⟨t, s.clock + 1, stamp s.dropped (s.clock + 1) t l⟩

/-- Who unpins a buffer holds it. -/
def HoldsUnpinned (s : Timed) : Label → Prop
  | .bunpin i => (s.sys.cache.buf i).lock ≠ none
  | _ => True

/-- `i` was dropped after `j`, or `j` never was. -/
def After (dropped : Fin NBUF → ℕ) (i j : Fin NBUF) : Prop := dropped j < dropped i ∨ dropped j = 0

/-- What every step keeps. -/
structure Aged (s : Timed) : Prop where
  inv : Inv s.sys
  held : ∀ i p, (s.sys.cache.buf i).lock = some p → ⟨p, i, .held⟩ ∈ s.sys.calls
  past : ∀ i, s.dropped i ≤ s.clock
  order : ∃ xs, OnRing s.sys.cache xs ∧ xs.Pairwise (After s.dropped)
  fresh : ∀ i, (s.sys.cache.buf i).refcnt = 0 → s.dropped i = 0 → s.sys.cache.buf i = binit.buf i

theorem aged_init : Aged .init where
  inv := inv_init
  held _ _ h := nomatch h
  past _ := Nat.le_refl 0
  order := ⟨_, onRing_binit, List.pairwise_of_forall fun _ _ => .inr rfl⟩
  fresh _ _ _ := rfl

variable {s t : Timed} {i : Fin NBUF} {l : Label}

theorem Inv.refcnt_pos {s : Sys} (h : Inv s) {c : Call} (hc : c ∈ s.calls) : 0 < (s.cache.buf c.buf).refcnt := by
  rw [h.refcnt]
  exact Nat.add_pos_left (List.countP_pos_iff.mpr ⟨c, hc, by simp⟩) _

/-- A step that leaves the list as it is and has buffer `i` in use afterwards. -/
theorem Aged.of_modify {u : Sys} (h : Aged s) (hinv : Inv u) (i : Fin NBUF) (f : Buf → Buf)
    (hc : u.cache = s.sys.cache.modify i f) (hpos : (f (s.sys.cache.buf i)).refcnt ≠ 0)
    (hself : ∀ p, (f (s.sys.cache.buf i)).lock = some p → ⟨p, i, .held⟩ ∈ u.calls)
    (hcalls : ∀ p j, j ≠ i → ⟨p, j, .held⟩ ∈ s.sys.calls → ⟨p, j, .held⟩ ∈ u.calls) :
    Aged ⟨u, s.clock + 1, s.dropped⟩ := by
  refine ⟨hinv, fun j p hj => ?_, fun j => Nat.le_succ_of_le (h.past j), ?_, fun j h0 hd => ?_⟩
  · dsimp only at hj ⊢
    rw [hc] at hj
    rcases eq_or_ne j i with rfl | hji
    · rw [modify_buf_self] at hj
      exact hself p hj
    · rw [modify_buf_ne _ _ hji] at hj
      exact hcalls p j hji (h.held j p hj)
  · obtain ⟨xs, hxs, ho⟩ := h.order
    exact ⟨xs, by dsimp only; rw [hc]; exact hxs, ho⟩
  · dsimp only at h0 ⊢
    rw [hc] at h0 ⊢
    rcases eq_or_ne j i with rfl | hji
    · rw [modify_buf_self] at h0
      exact absurd h0 hpos
    · rw [modify_buf_ne _ _ hji] at h0 ⊢
      exact h.fresh j h0 hd

/-- The buffer moves to the head at the moment it is dropped. -/
theorem Aged.drop {p : ℕ} (h : Aged s) (hc : ⟨p, i, .releasing⟩ ∈ s.sys.calls) :
    Aged ⟨{ s.sys with cache := brelse s.sys.cache i, calls := s.sys.calls.erase ⟨p, i, .releasing⟩ }, s.clock + 1,
      if ((brelse s.sys.cache i).buf i).refcnt = 0 then update s.dropped i (s.clock + 1) else s.dropped⟩ := by
  obtain ⟨xs, hxs, ho⟩ := h.order
  have hother : ∀ j, j ≠ i → (brelse s.sys.cache i).buf j = s.sys.cache.buf j := fun j hj => by
    rw [brelse_buf, modify_buf_ne _ _ hj]
  have hlock : ∀ j, ((brelse s.sys.cache i).buf j).lock = (s.sys.cache.buf j).lock := fun j => by
    rcases eq_or_ne j i with rfl | hj
    · rw [brelse_buf, modify_buf_self]; rfl
    · rw [hother j hj]
  have hrefcnt : (brelse s.sys.cache i).buf i = (s.sys.cache.modify i .decRef).buf i := by rw [brelse_buf]
  refine ⟨inv_drop h.inv hc, fun j q hj => ?_, fun j => ?_, ?_, fun j h0 hd => ?_⟩
  · dsimp only at hj ⊢
    rw [hlock] at hj
    exact (List.mem_erase_of_ne (by simp)).mpr (h.held j q hj)
  · have hj := h.past j
    dsimp only
    split
    · rcases eq_or_ne j i with rfl | hji
      · rw [update_self]
      · rw [update_of_ne hji]; omega
    · omega
  · dsimp only
    by_cases h0 : ((brelse s.sys.cache i).buf i).refcnt = 0
    · rw [if_pos h0]
      obtain ⟨as, bs, rfl⟩ := List.append_of_mem (hxs.2.1 i)
      have hi : i ∉ as ++ bs := (List.nodup_cons.mp (List.nodup_middle.mp hxs.1)).1
      have hne : ∀ j ∈ as ++ bs, j ≠ i := fun j hj he => hi (he ▸ hj)
      have hmod : OnRing (s.sys.cache.modify i .decRef) (as ++ i :: bs) := hxs
      refine ⟨i :: (as ++ bs), ?_, List.pairwise_cons.mpr ⟨fun j hj => ?_, ?_⟩⟩
      · rw [brelse, if_pos (by rw [← hrefcnt]; exact h0)]
        exact hmod.toFront
      · refine .inl ?_
        rw [update_self, update_of_ne (hne j hj)]
        exact Nat.lt_succ_of_le (h.past j)
      · have hrest := ho.sublist ((List.Sublist.refl as).append (List.sublist_cons_self i bs))
        refine hrest.imp_of_mem fun {a b} ha hb hab => ?_
        rw [After, update_of_ne (hne a ha), update_of_ne (hne b hb)]
        exact hab
    · rw [if_neg h0]
      refine ⟨xs, ?_, ho⟩
      rw [brelse, if_neg (by rw [← hrefcnt]; exact h0)]
      exact hxs
  · dsimp only at h0 hd ⊢
    rcases eq_or_ne j i with rfl | hji
    · rw [if_pos h0, update_self] at hd
      exact absurd hd (Nat.succ_ne_zero _)
    · rw [hother j hji] at h0 ⊢
      refine h.fresh j h0 ?_
      split at hd
      · rwa [update_of_ne hji] at hd
      · exact hd

theorem Aged.refcnt_ne (h : Aged s) {p : ℕ} (hl : (s.sys.cache.buf i).lock = some p) : (s.sys.cache.buf i).refcnt ≠ 0 :=
  (h.inv.refcnt_pos (h.held i p hl)).ne'

/-- STEP: every step keeps the order of the list. -/
theorem aged_tick (h : Aged s) (hok : HoldsUnpinned s l) (ht : tick s l = some t) : Aged t := by
  obtain ⟨u, hu, rfl⟩ := Option.map_eq_some_iff.mp ht
  have hinv := inv_step h.inv hu
  cases l with
  | bget p dev blockno =>
    rw [step] at hu
    split at hu
    · cases hu
    obtain ⟨xs, hxs⟩ := h.inv.ring
    rcases bget_cases hxs dev blockno with ⟨k, -, -, hk⟩ | ⟨-, ⟨k, -, -, hk⟩ | ⟨-, hk⟩⟩
    · rw [hk] at hu
      cases hu
      exact h.of_modify hinv k .incRef rfl (Nat.succ_ne_zero _) (fun q hq => List.mem_cons_of_mem _ (h.held k q hq))
        fun _ _ _ => List.mem_cons_of_mem _
    · rw [hk] at hu
      cases hu
      exact h.of_modify hinv k (.recycle dev blockno) rfl Nat.one_ne_zero
        (fun q hq => List.mem_cons_of_mem _ (h.held k q hq)) fun _ _ _ => List.mem_cons_of_mem _
    · rw [hk] at hu
      cases hu
      exact ⟨hinv, h.held, fun j => Nat.le_succ_of_le (h.past j), h.order, h.fresh⟩
  | acquire p i =>
    rw [step] at hu
    split at hu
    · rename_i hc
      cases hu
      refine h.of_modify hinv i (.setLock (some p)) rfl (h.inv.refcnt_pos hc.2.1).ne' (fun q hq => ?_) fun q j _ hj => ?_
      · cases hq
        exact List.mem_cons_self
      · exact List.mem_cons_of_mem _ ((List.mem_erase_of_ne (by simp)).mpr hj)
    · cases hu
  | release p i =>
    rw [step] at hu
    split at hu
    · rename_i hc
      cases hu
      refine h.of_modify hinv i (.setLock none) rfl (h.inv.refcnt_pos hc.2.1).ne' (by rintro _ ⟨⟩) fun q j hji hj => ?_
      exact List.mem_cons_of_mem _ ((List.mem_erase_of_ne (by simp [hji])).mpr hj)
    · cases hu
  | fill p i x =>
    rw [step] at hu
    split at hu
    · rename_i hc
      cases hu
      exact h.of_modify hinv i (.read x) rfl (h.refcnt_ne hc.2.1) (fun q hq => h.held i q hq) fun _ _ _ => id
    · cases hu
  | store p i x =>
    rw [step] at hu
    split at hu
    · rename_i hc
      cases hu
      exact h.of_modify hinv i (.setData x) rfl (h.refcnt_ne hc.2) (fun q hq => h.held i q hq) fun _ _ _ => id
    · cases hu
  | drop p i =>
    rw [step] at hu
    split at hu
    · rename_i hc
      cases hu
      exact h.drop hc.2
    · cases hu
  | bpin i =>
    rw [step] at hu
    split at hu
    · cases hu
    · cases hu
      exact h.of_modify hinv i .incRef rfl (Nat.succ_ne_zero _) (fun q hq => h.held i q hq) fun _ _ _ => id
  | bunpin i =>
    rw [step] at hu
    split at hu
    · rename_i hc
      cases hu
      -- the pin and the holder are two references
      obtain ⟨p, hp⟩ := Option.ne_none_iff_exists'.mp hok
      have hcount : 0 < s.sys.calls.countP fun c => c.buf = i :=
        List.countP_pos_iff.mpr ⟨_, h.held i p hp, by simp⟩
      have hrefs := h.inv.refcnt i
      refine h.of_modify hinv i .decRef rfl ?_ (fun q hq => h.held i q hq) fun _ _ _ => id
      show (s.sys.cache.buf i).refcnt - 1 ≠ 0
      omega
    · cases hu

/-- The last of a list with a property comes after all others that have it. -/
theorem find_reverse_last {α : Type} {P : α → Bool} {R : α → α → Prop} {xs : List α} {x y : α} (h : xs.Pairwise R)
    (hx : xs.reverse.find? P = some x) (hy : y ∈ xs) (hP : P y = true) (hne : y ≠ x) : R y x := by
  obtain ⟨-, before, after, heq, hno⟩ := List.find?_eq_some_iff_append.mp hx
  have hxs : xs = after.reverse ++ x :: before.reverse := by
    rw [← List.reverse_reverse xs, heq]
    simp
  rw [hxs] at hy h
  have hmem : y ∈ after.reverse := by
    rcases List.mem_append.mp hy with hy | hy
    · exact hy
    rcases List.mem_cons.mp hy with rfl | hy
    · exact absurd rfl hne
    · have := hno y (List.mem_reverse.mp hy)
      rw [hP] at this
      cases this
  exact (List.pairwise_append.mp h).2.2 y hmem x List.mem_cons_self

/-- CORRECT (LRU): whatever calls were made, if each `bunpin` was made by a holder of the buffer, a hit changes no
    buffer but the count of the one it returns; and a miss recycles an unused buffer that was dropped before all other
    unused ones, or was never used at all. Unused buffers that were never dropped are as `binit` left them. -/
theorem eviction_is_lru {ls : List Label} (hok : RunOk tick HoldsUnpinned .init ls) (hrun : run tick .init ls = some s)
    (dev blockno : ℕ) : ∀ c i, bget s.sys.cache dev blockno = some (c, i) →
    ((∃ j, (s.sys.cache.buf j).dev = dev ∧ (s.sys.cache.buf j).blockno = blockno) → c = s.sys.cache.modify i .incRef) ∧
    ((∀ j, ¬ ((s.sys.cache.buf j).dev = dev ∧ (s.sys.cache.buf j).blockno = blockno)) →
      c = s.sys.cache.modify i (.recycle dev blockno) ∧ (s.sys.cache.buf i).refcnt = 0 ∧
      ∀ j, j ≠ i → (s.sys.cache.buf j).refcnt = 0 → s.dropped i < s.dropped j ∨ s.dropped i = 0) ∧
    ∀ j, (s.sys.cache.buf j).refcnt = 0 → s.dropped j = 0 → s.sys.cache.buf j = binit.buf j := by
  have h : Aged s := run_inv_of (fun _ _ _ => aged_tick) aged_init hok hrun
  obtain ⟨xs, hxs, ho⟩ := h.order
  intro c i hget
  refine ⟨fun hhit => ?_, fun hmiss => ?_, h.fresh⟩
  · rcases bget_cases hxs dev blockno with ⟨k, -, -, hk⟩ | ⟨hmiss, -⟩
    · cases hk.symm.trans hget
      rfl
    · obtain ⟨j, hj⟩ := hhit
      exact absurd hj (hmiss j)
  · rcases bget_cases hxs dev blockno with ⟨k, h1, h2, -⟩ | ⟨-, ⟨k, hk0, hfind, hk⟩ | ⟨-, hk⟩⟩
    · exact absurd ⟨h1, h2⟩ (hmiss k)
    · cases hk.symm.trans hget
      refine ⟨rfl, hk0, fun j hji hj => ?_⟩
      have hlast : After s.dropped j i := find_reverse_last ho hfind (hxs.2.1 j) (by simpa using hj) hji
      exact hlast
    · cases hk.symm.trans hget

/-- A block is read and released. The next miss takes a buffer that was never used. -/
def readOnce : List Label := [.bget 0 1 46, .acquire 0 0, .release 0 0, .drop 0 0]

theorem eviction_is_lru_readOnce : ∃ s, run tick .init readOnce = some s ∧ s.dropped 0 = 4 ∧
    ∀ c i, bget s.sys.cache 1 47 = some (c, i) → (s.sys.cache.buf i).refcnt = 0 ∧ i ≠ 0 := by
  have hview : (run tick .init readOnce).any (fun s => decide (s.dropped 0 = 4 ∧ (s.sys.cache.buf 0).refcnt = 0 ∧
      s.dropped 1 = 0 ∧ (s.sys.cache.buf 1).refcnt = 0 ∧
      ∀ j, ¬ ((s.sys.cache.buf j).dev = 1 ∧ (s.sys.cache.buf j).blockno = 47))) = true := by decide +kernel
  obtain ⟨s, hs, hout⟩ := (Option.any_eq_true ..).mp hview
  obtain ⟨h4, -, h1, h10, hmiss⟩ := of_decide_eq_true hout
  have hok : RunOk tick HoldsUnpinned .init readOnce := ⟨trivial, fun _ _ => ⟨trivial, fun _ _ => ⟨trivial, fun _ _ =>
    ⟨trivial, fun _ _ => trivial⟩⟩⟩⟩
  refine ⟨s, hs, h4, fun c i hget => ?_⟩
  obtain ⟨-, h0, hold⟩ := (eviction_is_lru hok hs 1 47 c i hget).2.1 hmiss
  refine ⟨h0, ?_⟩
  rintro rfl
  rcases hold 1 (by decide) h10 with hlt | heq
  · omega
  · omega

end Minios.Bio
