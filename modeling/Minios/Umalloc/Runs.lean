import Minios.Umalloc.Calls

/-! Any program that uses the allocator.

    Sizes are of 32 bits, and joining blocks adds them up without looking. So the books are right as long as less than
    2^32 units (64 GiB) have been obtained, and wrong as soon as a block of 2^32 units should be on the list. -/

namespace Minios.Umalloc
open Schemes Function

variable {base a : ℕ} {s t : Sys} {h : Heap} {bs xs : List ℕ} {live : List (ℕ × ℕ)} {e : Event}

/-- What holds between calls: there is no list yet, or there is one and everything is in order. -/
def Good (base : ℕ) (s : Sys) : Prop :=
  (s.heap.freep = 0 ∧ base + HDR ≤ s.heap.top ∧ s.heap.units = 0 ∧ s.live = []) ∨ ∃ xs, Sound base s.heap s.live xs

/-! ### Writes of the program -/

theorem Blocks.congr {size size' : ℕ → ℕ} {top units : ℕ} (hb : Blocks base size top units bs)
    (hs : ∀ x ∈ base :: bs, size' x = size x) : Blocks base size' top units bs := by
  have hs' : ∀ x ∈ bs, size' x = size x := fun x hx => hs x (List.mem_cons_of_mem _ hx)
  refine ⟨hb.room, by rw [hs base List.mem_cons_self]; exact hb.zero, ?_, fun x hx => ?_, fun x hx => ?_, ?_⟩
  · refine hb.apart.imp_of_mem fun {x y} hx hy hxy => ?_
    rwa [Apart, hs' x hx, hs' y hy]
  · rw [hs' x hx]; exact hb.real x hx
  · rw [hs' x hx]; exact hb.below x hx
  · rw [List.map_congr_left hs']; exact hb.total

theorem Sound.inside {b : ℕ × ℕ} (hs : Sound base h live xs) (hb : b ∈ live) (hlo : b.1 + HDR ≤ a)
    (hhi : a < b.1 + HDR * h.size b.1) : a ∉ xs ++ live.map Prod.fst := fun hm => by
  have hfar : ∀ x ∈ xs ++ live.map Prod.fst, x = b.1 ∨ Apart h.size x b.1 := fun x hx => by
    by_cases heq : x = b.1
    · exact .inl heq
    · have hmem : b.1 ∈ xs ++ live.map Prod.fst := List.mem_append_right _ (List.mem_map_of_mem hb)
      exact .inr (hs.blocks.apart.forall hx hmem heq)
  rcases hfar a hm with heq | hap
  · simp only [HDR] at hlo; omega
  · simp only [Apart, HDR] at *; omega

theorem Sound.store (hs : Sound base h live xs) (ho : (Sys.mk h live).Owns a) (q n : ℕ) :
    Sound base ((h.setPtr a q).setSize a n) live xs := by
  obtain ⟨b, hb, hlo, hhi⟩ := ho
  have hnot := hs.inside hb hlo hhi
  have hxs : a ∉ xs := fun hm => hnot (List.mem_append_left _ hm)
  have hlive : ∀ b ∈ live, b.1 ≠ a := by
    rintro b hb rfl
    exact hnot (List.mem_append_right _ (List.mem_map_of_mem hb))
  refine ⟨hs.blocks.congr fun x hx => update_of_ne ?_ .., hs.head, ?_, hs.entry, order_update hs.order hxs,
    fits_update hs.fits hlive⟩
  · rintro rfl
    rcases List.mem_cons.mp hx with rfl | hx
    · exact hxs hs.base_mem
    · exact hnot hx
  · obtain ⟨ys, rfl⟩ : ∃ ys, xs = base :: ys := ⟨xs.tail, List.eq_cons_of_mem_head? hs.head⟩
    refine around_cons.mpr ((around_cons.mp hs.links).congr fun x hx => update_of_ne ?_ ..)
    rintro rfl
    exact hxs hx

/-! ### One call -/

theorem units_enough (nbytes : ℕ) : nbytes + HDR ≤ HDR * units nbytes := by
  simp only [units, HDR]
  omega

theorem Good.start (hbase : 0 < base) (hg : Good base s) : ∃ xs, Sound base (start base s.heap) s.live xs := by
  rw [Umalloc.start]
  rcases hg with ⟨hfreep, htop, hunits, hlive⟩ | ⟨xs, hs⟩
  · rw [if_pos hfreep, hlive]
    have hsize : ((((s.heap.setPtr base base).setSize base 0).setFreep base).size base) = 0 := update_self ..
    refine ⟨[base], ⟨⟨htop, hsize, List.pairwise_singleton .., fun a ha hne => ?_, fun a ha => ?_, ?_⟩, rfl, ?_,
      List.mem_singleton_self _, List.pairwise_singleton .., nofun⟩⟩
    · exact absurd (List.mem_singleton.mp ha) hne
    · rw [List.mem_singleton.mp ha, hsize]
      exact (Nat.le_add_right ..).trans htop
    · show _ + 0 = s.heap.units
      rw [hsize, hunits]
    · exact around_cons.mpr (path_cons.mpr ⟨update_self .., path_nil ..⟩)
  · have := hs.base_le hs.entry
    rw [if_neg (by omega)]
    exact ⟨xs, hs⟩

theorem start_units (base : ℕ) (h : Heap) : (Umalloc.start base h).units = h.units := by
  unfold Umalloc.start
  split <;> rfl

/-- How much a call may obtain. -/
def need : Event → ℕ
  | .malloc nbytes => coreUnits (units nbytes)
  | _ => 0

theorem Sound.freed {i : ℕ} (hs : Sound base h live xs) (hi : i < live.length) (hsmall : h.units < 2 ^ 32) :
    ∃ h' xs', free h ((live.getD i (0, 0)).1 + HDR) = some h' ∧ Sound base h' (live.eraseIdx i) xs' := by
  have hperm : live.Perm ((live[i].1, live[i].2) :: live.eraseIdx i) := (List.getElem_cons_eraseIdx_perm hi).symm
  obtain ⟨h', xs', hf, hs', -⟩ := free_spec (hs.perm hperm) hsmall
  exact ⟨h', xs', by rw [List.getD_eq_getElem _ _ hi]; exact hf, hs'⟩

theorem perform_units (hp : perform base s e = some t) : s.heap.units ≤ t.heap.units := by
  cases e with
  | malloc nbytes =>
    obtain ⟨⟨r, h⟩, hm, rfl⟩ := Option.map_eq_some_iff.mp hp
    rw [← start_units base s.heap]
    exact mallocLoop_units _ _ _ _ hm
  | free i =>
    obtain ⟨h, hf, rfl⟩ := Option.map_eq_some_iff.mp hp
    exact (free_units hf).ge
  | store a q n => cases hp; exact le_rfl

/-- STEP: a call that leaves less than 2^32 units obtained keeps everything in order. -/
theorem perform_good (hbase : 0 < base) (hg : Good base s) (ha : Allowed s e) (hp : perform base s e = some t)
    (hsmall : t.heap.units < 2 ^ 32) : Good base t := by
  have hle := perform_units hp
  cases e with
  | malloc nbytes =>
    obtain ⟨xs, hs⟩ := hg.start hbase
    obtain ⟨⟨r, h⟩, hm, rfl⟩ := Option.map_eq_some_iff.mp hp
    exact .inr ((mallocLoop_spec hs (units_enough nbytes) le_rfl).1 r h hm hsmall)
  | free i =>
    rcases hg with ⟨-, -, -, hlive⟩ | ⟨xs, hs⟩
    · rw [Allowed, hlive] at ha
      exact absurd ha (Nat.not_lt_zero _)
    · obtain ⟨h, xs', hf, hs'⟩ := hs.freed ha (by omega)
      rw [perform, hf] at hp
      cases hp
      exact .inr ⟨xs', hs'⟩
  | store a q n =>
    cases hp
    rcases hg with ⟨-, -, -, hlive⟩ | ⟨xs, hs⟩
    · obtain ⟨b, hb, -⟩ := ha
      rw [hlive] at hb
      cases hb
    · exact .inr ⟨xs, hs.store ha q n⟩

/-- TERMINATION: a call that needs no more than that returns. -/
theorem perform_returns (hbase : 0 < base) (hg : Good base s) (ha : Allowed s e) (hsmall : s.heap.units + need e < 2 ^ 32) :
    ∃ t, perform base s e = some t := by
  cases e with
  | malloc nbytes =>
    obtain ⟨xs, hs⟩ := hg.start hbase
    rw [← start_units base s.heap] at hsmall
    obtain ⟨r, hm⟩ := Option.isSome_iff_exists.mp ((mallocLoop_spec hs (units_enough nbytes) le_rfl).2 hsmall)
    exact ⟨_, Option.map_eq_some_iff.mpr ⟨r, hm, rfl⟩⟩
  | free i =>
    rcases hg with ⟨-, -, -, hlive⟩ | ⟨xs, hs⟩
    · rw [Allowed, hlive] at ha
      exact absurd ha (Nat.not_lt_zero _)
    · obtain ⟨h, xs', hf, -⟩ := hs.freed ha (by omega)
      exact ⟨_, Option.map_eq_some_iff.mpr ⟨h, hf, rfl⟩⟩
  | store a q n => exact ⟨_, rfl⟩

/-! ### Runs -/

/-- CORRECT (IN ORDER): after any calls of `malloc` and `free` by any program, as long as less than 2^32 units were
    obtained, the free list is one cycle through `base`, in the order of addresses and with a gap after each block; free
    and live blocks are apart from each other, add up to what was obtained, and live ones are large enough.
    CORRECT (TERMINATION): any further call returns, unless it would pass that limit. -/
theorem heap_in_order {es : List Event} (hi : Init base s) (hrun : run (step base) s es = some t)
    (hsmall : t.heap.units < 2 ^ 32) :
    ((t.heap.freep = 0 ∧ t.heap.units = 0 ∧ t.live = []) ∨ ∃ xs, Sound base t.heap t.live xs) ∧
    ∀ e, Allowed t e → t.heap.units + need e < 2 ^ 32 → ∃ u, step base t e = some u := by
  have hgood : Good base t := by
    refine run_inv (I := fun s => s.heap.units < 2 ^ 32 → Good base s) (fun s e u hs hstep hu => ?_)
      (fun _ => .inl ⟨hi.freep, hi.top, hi.units, hi.live⟩) hrun hsmall
    rw [step] at hstep
    split at hstep
    · rename_i ha
      have := perform_units hstep
      exact perform_good hi.pos (hs (by omega)) ha hstep hu
    · cases hstep
  refine ⟨hgood.imp_left fun h => ⟨h.1, h.2.2⟩, fun e ha hneed => ?_⟩
  rw [step, if_pos ha]
  exact perform_returns hi.pos hgood ha hneed

/-- A program whose `sbrk` never fails, with `base` at 16. -/
def plenty : Sys := ⟨⟨fun _ => 0, fun _ => 0, 0, 32, 0, List.replicate 40 (some 0)⟩, []⟩

theorem plenty_init : Init 16 plenty := ⟨by decide, rfl, by decide, rfl, rfl⟩

/-- Blocks are taken, written to, freed and taken again. -/
def mixed : List Event := [.malloc 100, .malloc 7, .store 65460 1 1, .free 1, .malloc 300, .free 1]

theorem heap_in_order_mixed : ∃ t, run (step 16) plenty mixed = some t ∧ t.heap.units = 4096 ∧
    ∃ xs, Sound 16 t.heap t.live xs := by
  have hview : (run (step 16) plenty mixed).any (fun t => decide (t.heap.freep ≠ 0 ∧ t.heap.units = 4096)) = true := by
    decide +kernel
  obtain ⟨t, ht, hv⟩ := (Option.any_eq_true ..).mp hview
  obtain ⟨hfreep, hunits⟩ := of_decide_eq_true hv
  rcases (heap_in_order plenty_init ht (by rw [hunits]; decide)).1 with ⟨h0, -⟩ | hs
  · exact absurd h0 hfreep
  · exact ⟨t, ht, hunits, hs⟩

/-- 33 blocks of 2 GiB less a header, and all of them freed. -/
def overflow : List Event := List.replicate 33 (.malloc (16 * (2 ^ 27 - 2))) ++ List.replicate 33 (.free 0)

/-- Joined, they are a block of 2^32 units and more: its size wraps around, and most of the memory is gone. -/
theorem sizes_wrap : ∃ t, run (step 16) plenty overflow = some t ∧ t.live = [] ∧
    t.heap.ptr 16 = 32 ∧ t.heap.ptr 32 = 16 ∧ t.heap.size 16 + t.heap.size 32 = 2 ^ 27 - 33 ∧ t.heap.units = 33 * (2 ^ 27 - 1) := by
  have hview : (run (step 16) plenty overflow).any (fun t => decide (t.live = [] ∧ t.heap.ptr 16 = 32 ∧ t.heap.ptr 32 = 16 ∧
      t.heap.size 16 + t.heap.size 32 = 2 ^ 27 - 33 ∧ t.heap.units = 33 * (2 ^ 27 - 1))) = true := by decide +kernel
  obtain ⟨t, ht, hv⟩ := (Option.any_eq_true ..).mp hview
  exact ⟨t, ht, of_decide_eq_true hv⟩

end Minios.Umalloc
