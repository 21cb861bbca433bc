import Minios.Vm.Space

/-! Page tables of processes: made by `proc_pagetable`, grown, copied, and freed by `proc_freepagetable`.

    Whatever fails on the way, the pages taken are free again. -/

namespace Minios.Vm
open Schemes Function Radix

variable {root trapframe f : Frame} {p n : ℕ} {s t u : Machine} {A B : Multiset Frame} {E : Panic → Prop}

theorem TOP_eq : TOP = 67108862 := rfl

theorem vaddr_TRAMPOLINE : TRAMPOLINE = vaddr (TOP + 1) := by decide

theorem vaddr_TRAPFRAME : TRAPFRAME = vaddr TOP := by decide

/-! ### `proc_pagetable` -/

theorem uvmcreate_spec (hn : (s.free : Multiset Frame).Nodup) : wp uvmcreate (fun r t => r.elim (Moved s t 0 0) fun root =>
    Moved s t 0 (tables t.mem root) ∧ Good t root ∧ lookup t.mem root = fun _ => none) E s := by
  rw [uvmcreate]
  refine (kalloc_spec s).bind fun r t hr => ?_
  cases r with
  | none => exact Denied.moved hr
  | some root =>
    have ht : Took s root t := hr
    have hfree := ht.free
    have hb : Blank (update t.mem root fun _ => 0) root := blank (update_self ..)
    simp only [memset, wp_bind, wp_modify, wp_pure]
    refine ⟨⟨ht.img, ?_, fun f hf => ?_⟩, ⟨hb.table, ?_⟩, hb.lookup⟩
    · show (t.free + tables (update t.mem root _) root : Multiset Frame) = s.free + 0
      rw [hb.tables, hfree, ← Multiset.cons_coe, ← Multiset.singleton_add, add_zero, add_comm]
    · rw [add_zero, Multiset.mem_coe, hfree, List.mem_cons, not_or] at hf
      show update t.mem root _ f = _
      rw [update_of_ne hf.1, ht.mem, update_of_ne hf.1]
    · show (t.free + tables (update t.mem root _) root : Multiset Frame).Nodup
      rw [hb.tables, add_comm, Multiset.singleton_add, Multiset.cons_coe, ← hfree]
      exact hn

theorem uvmfree_empty (hs : Good s root) (hl : ∀ x, lookup s.mem root x = none) (hram : ∀ f ∈ held s root, s.img.Ram f) :
    wp (uvmfree root 0) (fun _ t => Moved s t (tables s.mem root) 0) E s := by
  have hz : pages (BitVec.toNat (0 : Word)) = 0 := rfl
  have hf : frames (lookup s.mem root) 0 0 = 0 := rfl
  have hle : (0 : Word).toNat ≤ 2 ^ 38 := Nat.zero_le _
  refine (uvmfree_spec hle hs.table (fun x hx => ?_) (fun x _ => hl x) ?_ ?_).mono fun _ t h => ?_
  · rw [hz] at hx; omega
  · rw [hz, hf, add_zero]; exact hs.apart
  · rw [hz, hf, add_zero]
    exact fun f hf => hram f (Multiset.mem_add.mpr (.inr hf))
  · rw [hz, hf, add_zero] at h
    exact h.moved

theorem mappages_one {va : Word} (hva : va = vaddr p) (hp : p < 2 ^ 26) (f : Frame) (perm : Word) (hs : Good s root)
    (hnone : lookup s.mem root p = none) : wp (mappages root va PGSIZE f.pa perm) (fun r t => Kept s t root ∧
      ((r = 0 ∧ lookup t.mem root = update (lookup s.mem root) p (some (PA2PTE f.pa ||| perm ||| PTE_V))) ∨
        (r = -1 ∧ lookup t.mem root = lookup s.mem root))) E s := by
  refine (mappages_spec (p := p) (n := 0) ⟨hva, rfl, hp⟩ f.pa perm hs fun x hx hx' => ?_).mono ?_
  · obtain rfl : x = p := by omega
    exact hnone
  · rintro r t ⟨hk, ⟨hr, hl⟩ | ⟨hr, k, hk0, hl⟩⟩
    · exact ⟨hk, .inl ⟨hr, by rw [hl, ← mapped_succ, mapped_zero]⟩⟩
    · obtain rfl : k = 0 := Nat.le_zero.mp hk0
      exact ⟨hk, .inr ⟨hr, by rw [hl, mapped_zero]⟩⟩

theorem unmapped_one {F : ℕ → Option Word} : unmapped F p 1 = update F p none := by
  rw [← unmapped_succ]
  exact funext fun x => if_neg (by omega)

theorem uvmunmap_one {va : Word} (hva : va = vaddr p) (hp : p < 2 ^ 26) (hs : Good s root) (hl : Leaf (lookup s.mem root p)) :
    wp (uvmunmap root va 1 false) (fun _ t => Unmapped s t root p 1 0) E s := by
  subst hva
  refine uvmunmap_spec (n := 1) rfl hs.table (by omega) (fun x hx hx' => ?_)
    (show (held s root + freed false _ _ _).Nodup from by rw [freed, if_neg Bool.false_ne_true, add_zero]; exact hs.apart)
    fun f hf => absurd hf (Multiset.notMem_zero f)
  obtain rfl : x = p := by omega
  exact hl

theorem Unmapped.moved_tables (h : Unmapped s t root p n 0) : Moved s t (Vm.tables s.mem root) (Vm.tables t.mem root) := by
  have := h.moved
  rwa [add_zero] at this

theorem Unmapped.good (h : Unmapped s t root p n 0) (hs : Good s root) : Good t root :=
  ⟨h.table, by rw [h.held, add_zero]; exact hs.apart⟩

/-- MAKE: a page table with the trampoline and the trapframe, or nothing. -/
theorem proc_pagetable_spec (trapframe : Frame) (hn : (s.free : Multiset Frame).Nodup) (hram : ∀ f ∈ s.free, s.img.Ram f) :
    wp (proc_pagetable trapframe) (fun r t => r.elim (Moved s t 0 0) fun root =>
      Moved s t 0 (tables t.mem root) ∧ Space t root trapframe 0) E s := by
  rw [proc_pagetable]
  refine (uvmcreate_spec hn).bind fun r t hr => ?_
  cases r with
  | none => exact hr
  | some root =>
    obtain ⟨hm, ht, hl⟩ := hr
    have hheld : held t root = s.free := by rw [held, hm.pages, add_zero]
    have hramt : ∀ f ∈ held t root, t.img.Ram f := fun f hf => by
      rw [hm.img]
      rw [hheld] at hf
      exact hram f hf
    simp only [wp_bind, wp_get]
    refine (mappages_one vaddr_TRAMPOLINE (by decide) _ _ ht (by rw [hl])).mono ?_
    rintro r t1 ⟨hk1, hr1⟩
    have hm1 : Moved s t1 0 (tables t1.mem root) := hm.trans hk1.moved
    have hram1 : ∀ f ∈ held t1 root, t1.img.Ram f := by rw [hk1.held, hk1.img]; exact hramt
    rcases hr1 with ⟨rfl, hl1⟩ | ⟨rfl, hl1⟩
    · rw [if_neg (by decide)]
      refine (mappages_one vaddr_TRAPFRAME (by decide) trapframe _ (hk1.good ht) ?_).bind ?_
      · rw [hl1, update_of_ne (by decide), hl]
      rintro r t2 ⟨hk2, hr2⟩
      have hm2 : Moved s t2 0 (tables t2.mem root) := hm1.trans hk2.moved
      have hg2 : Good t2 root := hk2.good (hk1.good ht)
      have hram2 : ∀ f ∈ held t2 root, t2.img.Ram f := by rw [hk2.held, hk2.img]; exact hram1
      rcases hr2 with ⟨rfl, hl2⟩ | ⟨rfl, hl2⟩
      · rw [if_neg (by decide)]
        refine ⟨hm2, hk2.table, fun x hx => absurd hx (Nat.not_lt_zero x), ?_, ?_, fun x _ h1 h2 => ?_, Nat.zero_le _⟩
        · rw [hl2, update_self]
        · rw [hl2, update_of_ne (by decide), hl1, update_self, hk2.img, hk1.img]
        · rw [hl2, update_of_ne h1, hl1, update_of_ne h2, hl]
      · rw [if_pos (by decide)]
        -- the trampoline was mapped
        have hleaf : Leaf (lookup t2.mem root (TOP + 1)) := by
          rw [hl2, hl1, update_self]
          exact ⟨_, rfl, leaf_entry (by decide)⟩
        refine (uvmunmap_one vaddr_TRAMPOLINE (by decide) hg2 hleaf).bind fun _ t3 h3 => ?_
        have hl3 : ∀ x, lookup t3.mem root x = none := fun x => by
          rw [h3.lookup, unmapped_one, hl2, hl1, update_idem, hl]
          rcases eq_or_ne x (TOP + 1) with rfl | hne
          · rw [update_self]
          · rw [update_of_ne hne]
        refine (uvmfree_empty (h3.good hg2) hl3 ?_).bind fun _ t4 h4 => ?_
        · rw [h3.held, add_zero, h3.img]; exact hram2
        · exact (hm2.trans h3.moved_tables).trans h4
    · rw [if_pos (by decide)]
      refine (uvmfree_empty (hk1.good ht) (fun x => by rw [hl1, hl]) hram1).bind fun _ t2 h2 => ?_
      exact hm1.trans h2

/-! ### `proc_freepagetable` -/

theorem Leaf.of_entry {pa perm : Word} (hperm : perm &&& (PTE_R ||| PTE_W ||| PTE_X) ≠ 0) {o : Option Word}
    (h : o = some (PA2PTE pa ||| perm ||| PTE_V)) : Leaf o := ⟨_, h, leaf_entry hperm⟩

/-- FREE: everything an address space has. -/
theorem proc_freepagetable_spec {sz : Word} (hsp : Space s root trapframe (pages sz.toNat))
    (hn : (s.free + owned s root (pages sz.toNat) : Multiset Frame).Nodup)
    (hram : ∀ f ∈ owned s root (pages sz.toNat), s.img.Ram f) :
    wp (proc_freepagetable root sz) (fun _ t => Moved s t (owned s root (pages sz.toNat)) 0) E s := by
  have hle := hsp.le
  have hT := TOP_eq
  have hsz : sz.toNat ≤ 2 ^ 38 := by
    rw [pages] at hle
    omega
  rw [owned, ← add_assoc] at hn
  have hs : Good s root := ⟨hsp.table, (Multiset.nodup_add.mp hn).1⟩
  rw [proc_freepagetable]
  refine (uvmunmap_one vaddr_TRAMPOLINE (by decide) hs (.of_entry (by decide) hsp.trampoline)).bind fun _ t ht => ?_
  have hleaf : Leaf (lookup t.mem root TOP) := by
    rw [ht.lookup, unmapped_one, update_of_ne (by decide)]
    exact .of_entry (by decide) hsp.trapframe
  refine (uvmunmap_one vaddr_TRAPFRAME (by decide) (ht.good hs) hleaf).bind fun _ u hu => ?_
  have hl : lookup u.mem root = update (update (lookup s.mem root) (TOP + 1) none) TOP none := by
    rw [hu.lookup, unmapped_one, ht.lookup, unmapped_one]
  have huser : ∀ x < pages sz.toNat, lookup u.mem root x = lookup s.mem root x := fun x hx => by
    rw [hl, update_of_ne (by omega), update_of_ne (by omega)]
  have htab : tables u.mem root = tables s.mem root := hu.tables.trans ht.tables
  have hfr : frames (lookup u.mem root) 0 (pages sz.toNat) = frames (lookup s.mem root) 0 (pages sz.toNat) :=
    frames_congr fun x _ hx => huser x (by omega)
  have hheld : held u root = held s root := by rw [hu.held, ht.held, add_zero, add_zero]
  have hm := ht.moved_tables.trans hu.moved_tables
  refine (uvmfree_spec hsz hu.table (fun x hx => ?_) (fun x hx => ?_) ?_ ?_).mono fun _ v hv => ?_
  · rw [huser x hx]; exact (hsp.user x hx).leaf
  · rw [hl]
    rcases eq_or_ne x TOP with rfl | h1
    · rw [update_self]
    · rw [update_of_ne h1]
      rcases eq_or_ne x (TOP + 1) with rfl | h2
      · rw [update_self]
      · rw [update_of_ne h2]
        exact hsp.none x hx h1 h2
  · rw [hheld, hfr]; exact hn
  · rw [htab, hfr, hu.img, ht.img]; exact hram
  · have hv := hv.moved
    rw [hfr] at hv
    exact (hm.frame (frames (lookup s.mem root) 0 (pages sz.toNat))).trans hv

/-! ### Address spaces in use -/

/-- An address space with `n` user pages, and the free pages, all different pages of RAM. -/
structure Live (s : Machine) (root trapframe : Frame) (n : ℕ) : Prop where
  space : Space s root trapframe n
  apart : (s.free + owned s root n : Multiset Frame).Nodup
  ram : ∀ f ∈ (s.free + owned s root n : Multiset Frame), s.img.Ram f

/-- An address space has become another one. -/
structure Became (s t : Machine) (root trapframe : Frame) (n n' : ℕ) : Prop where
  space : Space t root trapframe n'
  moved : Moved s t (owned s root n) (owned t root n')

variable {n' n'' : ℕ}

theorem Became.live (h : Became s t root trapframe n n') (hs : Live s root trapframe n) : Live t root trapframe n' where
  space := h.space
  apart := by rw [h.moved.pages]; exact hs.apart
  ram := by rw [h.moved.pages, h.moved.img]; exact hs.ram

theorem Became.trans (h : Became s t root trapframe n n') (h' : Became t u root trapframe n' n'') :
    Became s u root trapframe n n'' := ⟨h'.space, h.moved.trans h'.moved⟩

theorem Became.refl (h : Space s root trapframe n) : Became s s root trapframe n n := ⟨h, ⟨rfl, rfl, fun _ _ => rfl⟩⟩

theorem card_ram {img : Image} (hn : A.Nodup) (hram : ∀ f ∈ A, img.Ram f) : A.card ≤ 32768 := by
  have hrange : ∀ f ∈ A.toFinset, f.toNat ∈ Finset.Ico 0x80000 0x88000 := fun f hf => by
    obtain ⟨hlo, hhi⟩ := hram f (Multiset.mem_toFinset.mp hf)
    have h1 := BitVec.le_def.mp (BitVec.le_trans img.base_le hlo)
    have h2 := BitVec.lt_def.mp hhi
    rw [pa_toNat] at h1 h2
    rw [show KERNBASE.toNat = 0x80000000 from rfl] at h1
    rw [show PHYSTOP.toNat = 0x88000000 from rfl] at h2
    rw [Finset.mem_Ico]
    omega
  have hinj : Set.InjOn (BitVec.toNat : Frame → ℕ) A.toFinset := fun f _ g _ h => BitVec.eq_of_toNat_eq h
  have := Finset.card_le_card_of_injOn _ hrange hinj
  rwa [Multiset.toFinset_card_of_nodup hn, Nat.card_Ico] at this

theorem Live.card (h : Live s root trapframe n) : n + (held s root).card ≤ 32768 := by
  have := card_ram h.apart h.ram
  rw [owned, ← add_assoc, Multiset.card_add, card_frames, ← held] at this
  omega

theorem Live.good (h : Live s root trapframe n) : Good s root := by
  refine ⟨h.space.table, Multiset.nodup_of_le ?_ h.apart⟩
  rw [held, owned, ← add_assoc]
  exact Multiset.le_add_right _ _

theorem frames_add (F : ℕ → Option Word) (p n k : ℕ) : frames F p (n + k) = frames F p n + frames F (p + n) k := by
  induction k with
  | zero => exact (add_zero _).symm
  | succ k ih => rw [← Nat.add_assoc, frames_concat, ih, frames_concat, Multiset.add_cons, Nat.add_assoc]

/-! ### Growing -/

theorem user_perm (x : Word) : (PTE_R ||| PTE_U ||| x) &&& (PTE_R ||| PTE_W ||| PTE_X) ≠ 0 := fun h => by
  have := congrArg (fun w : Word => w.getLsbD 1) h
  simp at this

theorem user_perm_lt {x : Word} (h : x.toNat < 1024) : (PTE_R ||| PTE_U ||| x).toNat < 1024 := by
  rw [BitVec.toNat_or]
  exact Nat.or_lt_two_pow (n := 10) (by decide) h

/-- All user pages are accessible from user mode. -/
def Accessible (s : Machine) (root : Frame) (n : ℕ) : Prop :=
  ∀ x < n, ∃ pte, lookup s.mem root x = some pte ∧ pte &&& PTE_U ≠ 0

theorem Grown.became {perm : Word} {k : ℕ} (h : Grown s t root n k (PTE_R ||| PTE_U ||| perm)) (hs : Live s root trapframe n) :
    Became s t root trapframe n (n + k) := by
  have hcard := hs.card
  have hle := h.le
  have hT := TOP_eq
  have hold : ∀ x < n, lookup t.mem root x = lookup s.mem root x := fun x hx => h.beside x (by omega)
  refine ⟨⟨h.table, fun x hx => ?_, ?_, ?_, fun x hx h1 h2 => ?_, by omega⟩, ?_⟩
  · rcases Nat.lt_or_ge x n with hlt | hge
    · rw [hold x hlt]; exact hs.space.user x hlt
    · obtain ⟨f, hf, -⟩ := h.here x hge hx
      refine ⟨_, hf, fun h0 => ?_⟩
      have := congrArg (fun w : Word => w.getLsbD 1) h0
      simp at this
  · rw [h.beside _ (by omega)]; exact hs.space.trapframe
  · rw [h.beside _ (by omega), h.img]; exact hs.space.trampoline
  · rw [h.beside _ (by omega)]; exact hs.space.none x (by omega) h1 h2
  · have hm := h.moved.frame (frames (lookup s.mem root) 0 n)
    have hf : frames (lookup t.mem root) 0 n = frames (lookup s.mem root) 0 n := frames_congr fun x _ hx => hold x (by omega)
    rw [owned, owned, frames_add, hf, Nat.zero_add, add_comm (frames (lookup s.mem root) 0 n), ← add_assoc]
    exact hm

theorem Walked.became (h : Walked s t root) (hs : Space s root trapframe n) : Became s t root trapframe n n := by
  refine ⟨⟨h.kept.table, ?_, ?_, ?_, ?_, hs.le⟩, ?_⟩
  · rw [h.lookup]; exact hs.user
  · rw [h.lookup]; exact hs.trapframe
  · rw [h.lookup, h.kept.img]; exact hs.trampoline
  · rw [h.lookup]; exact hs.none
  · rw [owned, owned, h.lookup]
    exact h.kept.moved.frame _

/-- GROW an address space: the new size is as asked, or 0 and nothing happened. -/
theorem Live.uvmalloc {sz newsz perm : Word} (hs : Live s root trapframe (pages sz.toNat)) (hperm : perm.toNat < 1024) :
    wp (uvmalloc root sz newsz perm) (fun r t =>
      (r = 0 ∧ Walked s t root ∧ Became s t root trapframe (pages sz.toNat) (pages sz.toNat)) ∨
      (r = (if newsz < sz then sz else newsz) ∧ Became s t root trapframe (pages sz.toNat) (pages r.toNat) ∧
        Grown s t root (pages sz.toNat) (pages newsz.toNat - pages sz.toNat) (PTE_R ||| PTE_U ||| perm))) E s := by
  have hcard := hs.card
  have hT := TOP_eq
  have hsz : sz.toNat ≤ 2 ^ 38 := by rw [pages] at hcard; omega
  have hroom : Room s root (pages sz.toNat) := by
    refine ⟨hs.good, fun f hf => hs.ram f ?_, fun x hx hx' => hs.space.none x hx (by omega) (by omega), by omega⟩
    rw [owned, ← add_assoc]
    exact Multiset.mem_add.mpr (.inl hf)
  refine (uvmalloc_spec (user_perm perm) (user_perm_lt hperm) hsz hroom).mono fun r t h => ?_
  rcases h with ⟨hr, hw⟩ | ⟨hr, hg⟩
  · exact .inl ⟨hr, hw, hw.became hs.space⟩
  · refine .inr ⟨hr, ?_, hg⟩
    have hb := hg.became hs
    by_cases hlt : newsz < sz
    · have hle := pages_mono (Nat.le_of_lt (BitVec.lt_def.mp hlt))
      rw [Nat.sub_eq_zero_of_le hle, Nat.add_zero] at hb
      rw [hr, if_pos hlt]
      exact hb
    · have hge := pages_mono (BitVec.le_def.mp (BitVec.not_lt.mp hlt))
      rw [Nat.add_sub_cancel' hge] at hb
      rw [hr, if_neg hlt]
      exact hb

/-! ### Shrinking -/

/-- What `Unmapped` is to an address space, for the last pages of it. -/
theorem Unmapped.became {k : ℕ} (h : Unmapped s t root n k (frames (Vm.lookup s.mem root) n k))
    (hs : Space s root trapframe (n + k)) : Became s t root trapframe (n + k) n := by
  have hle := hs.le
  have hold : ∀ x, ¬ (n ≤ x ∧ x < n + k) → Vm.lookup t.mem root x = Vm.lookup s.mem root x := fun x hx => by
    rw [h.lookup, unmapped, if_neg hx]
  refine ⟨⟨h.table, fun x hx => ?_, ?_, ?_, fun x hx h1 h2 => ?_, by omega⟩, ?_⟩
  · rw [hold x (by omega)]; exact hs.user x (by omega)
  · rw [hold _ (by omega)]; exact hs.trapframe
  · rw [hold _ (by omega), h.img]; exact hs.trampoline
  · by_cases hlt : x < n + k
    · rw [h.lookup, unmapped, if_pos ⟨hx, hlt⟩]
    · rw [hold x (by omega)]; exact hs.none x (by omega) h1 h2
  · have hm := h.moved.frame (frames (Vm.lookup s.mem root) 0 n)
    have hf : frames (Vm.lookup t.mem root) 0 n = frames (Vm.lookup s.mem root) 0 n := frames_congr fun x _ hx => hold x (by omega)
    rw [owned, owned, frames_add, hf, Nat.zero_add, add_comm (frames (Vm.lookup s.mem root) 0 n), ← add_assoc]
    exact hm

/-- SHRINK an address space: the new size is as asked, if it is smaller. -/
theorem Live.uvmdealloc {sz newsz : Word} (hs : Live s root trapframe (pages sz.toNat)) :
    wp (uvmdealloc root sz newsz) (fun r t => r = (if newsz ≥ sz then sz else newsz) ∧
      Became s t root trapframe (pages sz.toNat) (pages r.toNat)) E s := by
  have hcard := hs.card
  have hsz : sz.toNat ≤ 2 ^ 38 := by rw [pages] at hcard; omega
  -- the frames given back are some of the user pages'
  have hrel : released (lookup s.mem root) sz newsz ≤ frames (lookup s.mem root) 0 (pages sz.toNat) := by
    rcases Nat.le_total (pages newsz.toNat) (pages sz.toNat) with h | h
    · rw [← Nat.add_sub_cancel' h, frames_add, Nat.zero_add, released]
      exact Multiset.le_add_left _ _
    · rw [released, Nat.sub_eq_zero_of_le h]
      exact Multiset.zero_le _
  have hown : held s root + released (lookup s.mem root) sz newsz ≤ s.free + owned s root (pages sz.toNat) := by
    rw [owned, ← add_assoc]
    exact add_le_add_right hrel _
  refine (uvmdealloc_spec hsz hs.space.table (fun x _ hx => (hs.space.user x hx).leaf)
    (Multiset.nodup_of_le hown hs.apart) fun f hf => ?_).mono ?_
  · exact hs.ram f (Multiset.mem_of_le hown (Multiset.mem_add.mpr (.inr hf)))
  · rintro r t ⟨hr, hu⟩
    refine ⟨hr, ?_⟩
    by_cases hge : newsz ≥ sz
    · have hle := pages_mono (BitVec.le_def.mp hge)
      rw [hr, if_pos hge]
      rw [released, Nat.sub_eq_zero_of_le hle] at hu
      have hw : Walked s t root := by
        refine ⟨⟨hu.img, hu.held.trans (add_zero _), hu.tables.ge, fun f hf => ?_, hu.table⟩, ?_⟩
        · exact hu.frame f (fun hm => hf (mem_held.mpr (.inr hm))) (Multiset.notMem_zero f)
        · exact hu.lookup.trans (funext fun x => if_neg (by omega))
      exact hw.became hs.space
    · have hlt := pages_mono (Nat.le_of_lt (BitVec.lt_def.mp (BitVec.not_le.mp hge)))
      have hsum : pages newsz.toNat + (pages sz.toNat - pages newsz.toNat) = pages sz.toNat := Nat.add_sub_cancel' hlt
      have hb := Unmapped.became hu (by rw [hsum]; exact hs.space)
      rw [hsum] at hb
      rw [hr, if_neg hge]
      exact hb

/-! ### Writing to user pages -/

theorem Space.uframe_lt (hs : Space s root trapframe n) (h : uframe s.mem root p = some f) :
    p < n ∧ f = frameOf (lookup s.mem root p) := by
  rw [uframe] at h
  cases hl : lookup s.mem root p with
  | none => rw [hl] at h; cases h
  | some pte =>
    rw [hl, Option.bind_some] at h
    split at h
    · rename_i hu
      cases h
      refine ⟨?_, rfl⟩
      by_contra hge
      have hT := TOP_eq
      -- the trapframe and trampoline pages are not for the user
      rcases eq_or_ne p TOP with rfl | h1
      · rw [hs.trapframe, Option.some.injEq] at hl
        rw [← hl, BitVec.or_assoc, entry_and (by decide)] at hu
        exact hu (by decide)
      rcases eq_or_ne p (TOP + 1) with rfl | h2
      · rw [hs.trampoline, Option.some.injEq] at hl
        rw [← hl, BitVec.or_assoc, entry_and (by decide)] at hu
        exact hu (by decide)
      rw [hs.none p (by omega) h1 h2] at hl
      cases hl
    · cases h

theorem Live.userSpace (hs : Live s root trapframe n) : UserSpace s root := by
  have hown := (Multiset.nodup_add.mp hs.apart).2.1
  rw [owned, Multiset.nodup_add] at hown
  obtain ⟨-, hfr, hdisj⟩ := hown
  have hmem : ∀ p f, uframe s.mem root p = some f → f ∈ frames (lookup s.mem root) 0 n := fun p f h => by
    obtain ⟨hp, rfl⟩ := hs.space.uframe_lt h
    exact mem_frames (Nat.zero_le _) (by omega)
  refine ⟨hs.space.table, fun p f h => ⟨Multiset.disjoint_right.mp hdisj (hmem p f h), ?_⟩, fun p p' f h h' => ?_⟩
  · rintro rfl
    have hram := (hs.ram 0 (Multiset.mem_add.mpr (.inr (Multiset.mem_add.mpr (.inr (hmem p 0 h)))))).1
    have := BitVec.le_trans s.img.base_le hram
    revert this
    decide
  · obtain ⟨hp, hf⟩ := hs.space.uframe_lt h
    obtain ⟨hp', hf'⟩ := hs.space.uframe_lt h'
    rw [frames, Multiset.coe_nodup] at hfr
    exact List.inj_on_of_nodup_map hfr (List.mem_range'_1.mpr ⟨Nat.zero_le _, by omega⟩)
      (List.mem_range'_1.mpr ⟨Nat.zero_le _, by omega⟩) (hf.symm.trans hf')

/-- Only user pages were written. -/
structure Wrote (s t : Machine) (root : Frame) (n : ℕ) : Prop where
  img : t.img = s.img
  free : t.free = s.free
  same : SameTable s.mem t.mem root
  table : Table t.mem root
  mem : ∀ f, f ∉ frames (lookup s.mem root) 0 n → t.mem f = s.mem f

theorem Wrote.became (h : Wrote s t root n) (hs : Space s root trapframe n) : Became s t root trapframe n n := by
  refine ⟨⟨h.table, ?_, ?_, ?_, ?_, hs.le⟩, ⟨h.img, ?_, fun f hf => h.mem f fun hm => hf ?_⟩⟩
  · rw [h.same.lookup]; exact hs.user
  · rw [h.same.lookup]; exact hs.trapframe
  · rw [h.same.lookup, h.img]; exact hs.trampoline
  · rw [h.same.lookup]; exact hs.none
  · rw [owned, owned, h.free, h.same.tables, h.same.lookup]
  · rw [owned]
    exact Multiset.mem_add.mpr (.inr (Multiset.mem_add.mpr (.inr hm)))

/-- A write elsewhere leaves an address space as it is. -/
theorem Space.beside (hs : Space s root trapframe n) (himg : t.img = s.img)
    (h : ∀ f ∈ tables s.mem root, t.mem f = s.mem f) :
    Space t root trapframe n ∧ owned t root n = owned s root n := by
  have hsame := sameTable h
  refine ⟨⟨hs.table.congr h, ?_, ?_, ?_, ?_, hs.le⟩, by rw [owned, owned, hsame.tables, hsame.lookup]⟩
  · rw [hsame.lookup]; exact hs.user
  · rw [hsame.lookup]; exact hs.trapframe
  · rw [hsame.lookup, himg]; exact hs.trampoline
  · rw [hsame.lookup]; exact hs.none

theorem Live.write (hs : Live s root trapframe n) (hp : p < n) (hf : f = frameOf (lookup s.mem root p)) (page : Page) :
    Wrote s (s.setMem (update s.mem f page)) root n := by
  have hown := (Multiset.nodup_add.mp hs.apart).2.1
  rw [owned, Multiset.nodup_add] at hown
  have hmem : f ∈ frames (lookup s.mem root) 0 n := hf ▸ mem_frames (Nat.zero_le _) (by omega)
  have hsame : ∀ g ∈ tables s.mem root, update s.mem f page g = s.mem g := fun g hg =>
    update_of_ne (by rintro rfl; exact Multiset.disjoint_right.mp hown.2.2 hmem hg) ..
  refine ⟨rfl, rfl, sameTable hsame, hs.space.table.congr hsame, fun g hg => update_of_ne ?_ ..⟩
  rintro rfl
  exact hg hmem

theorem Stored.wrote {a : ℕ} {xs : List UInt8} (h : Stored s t root a xs) (hs : Space s root trapframe n) :
    Wrote s t root n where
  img := by rw [h.rest]; rfl
  free := by rw [h.rest]; rfl
  same := h.table
  table := h.space.table
  mem f hf := h.other f fun p _ hp => hf (by
    obtain ⟨hlt, rfl⟩ := hs.uframe_lt hp
    exact mem_frames (Nat.zero_le _) (by omega))

theorem Live.copyout (hs : Live s root trapframe n) (va : Word) (src : List UInt8) :
    wp (copyout root va src) (fun _ t => Became s t root trapframe n n) E s := by
  refine (copyout_spec hs.userSpace va src).mono ?_
  rintro _ _ ⟨_, _, hst, _⟩
  exact (hst.wrote hs.space).became hs.space

/-! ### `uvmclear` -/

theorem clear_bit (pte : Word) {k : ℕ} (hk : k < 64) (h4 : k ≠ 4) : (pte &&& ~~~ PTE_U).getLsbD k = pte.getLsbD k := by
  have : PTE_U.getLsbD k = false := by
    rw [show PTE_U = BitVec.twoPow 64 4 from rfl, BitVec.getLsbD_twoPow]
    simp [Ne.symm h4]
  rw [BitVec.getLsbD_and, BitVec.getLsbD_not, this]
  simp [hk]

theorem frame_clear (pte : Word) : PTE2PA (pte &&& ~~~ PTE_U) = PTE2PA pte := by
  have : (pte &&& ~~~ PTE_U) >>> 10 = pte >>> 10 := by
    refine BitVec.eq_of_getLsbD_eq fun i hi => ?_
    rw [BitVec.getLsbD_ushiftRight, BitVec.getLsbD_ushiftRight]
    rcases Nat.lt_or_ge (10 + i) 64 with h | h
    · exact clear_bit pte h (by omega)
    · rw [BitVec.getLsbD_of_ge _ _ h, BitVec.getLsbD_of_ge _ _ h]
  rw [PTE2PA, PTE2PA, this]

theorem Live.uvmclear {va : Word} (hs : Live s root trapframe n) (hva : va = vaddr p) (hp : p < n) :
    wp (uvmclear root va) (fun _ t => Became s t root trapframe n n ∧ Kept s t root ∧ ∃ pte, lookup s.mem root p = some pte ∧
      lookup t.mem root = update (lookup s.mem root) p (some (pte &&& ~~~ PTE_U))) E s := by
  subst hva
  have hle := hs.space.le
  have hT := TOP_eq
  obtain ⟨pte, hl, hr⟩ := hs.space.user p hp
  obtain ⟨q, hq, he⟩ := slot_of_lookup hl
  rw [Vm.uvmclear]
  refine (walk_false (vaddr_lt (by omega))).bind ?_
  rintro r t ⟨ht, hrq⟩
  rw [pageno_vaddr (by omega), hq] at hrq
  subst hrq ht
  have hgood := hs.good
  obtain ⟨hk, htab, hlook⟩ := hgood.store (by omega) hq (pte &&& ~~~ PTE_U)
  have hv : valid (pte &&& ~~~ PTE_U) = some (pte &&& ~~~ PTE_U) := by
    refine valid_pos ?_
    rw [and_bit _ 0 (by decide), clear_bit _ (by decide) (by decide), ← and_bit _ 0 (by decide)]
    exact valid_of_lookup hl
  rw [hv] at hlook
  simp only [load, store, wp_bind, wp_get, wp_pure, wp_modify, he]
  generalize t.setMem (setEntry t.mem q (pte &&& ~~~ PTE_U)) = u at hk htab hlook ⊢
  have hother : ∀ x, x ≠ p → lookup u.mem root x = lookup t.mem root x := fun x hx => by rw [hlook, update_of_ne hx]
  refine ⟨⟨⟨hk.table, fun x hx => ?_, ?_, ?_, fun x hx h1 h2 => ?_, hle⟩, ?_⟩, hk, pte, hl, hlook⟩
  · rcases eq_or_ne x p with rfl | hne
    · refine ⟨_, by rw [hlook, update_self], ?_⟩
      rw [and_bit _ 1 (by decide), clear_bit _ (by decide) (by decide), ← and_bit _ 1 (by decide)]
      exact hr
    · rw [hother x hne]; exact hs.space.user x hx
  · rw [hother _ (by omega)]; exact hs.space.trapframe
  · rw [hother _ (by omega), hk.img]; exact hs.space.trampoline
  · rw [hother x (by omega)]; exact hs.space.none x hx h1 h2
  · have hfr : frames (lookup u.mem root) 0 n = frames (lookup t.mem root) 0 n := by
      rw [frames, frames, List.map_congr_left]
      intro x _
      rcases eq_or_ne x p with rfl | hne
      · rw [hlook, update_self, hl, frameOf, frameOf, Option.elim_some, Option.elim_some, frame_clear]
      · rw [hother x hne]
    rw [owned, owned, hfr]
    exact hk.moved.frame _

end Minios.Vm
