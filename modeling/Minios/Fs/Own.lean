import Minios.Fs.Blocks

/-! `kernel/fs.c`: `bmap` gives an inode blocks that no one else has.

    `Core` is what the disk and the inodes `D` have to do with each other: the books of blocks are in
    order, every file block below a file's size is there, and a block whose buffer was left changed
    but unlogged is a data block of a plain file. While a system call works on inode `i`, the inode's
    fields are those of its table entry and not yet those on the disk; so `D` is a parameter.

    `Others i` is what the work on inode `i` does to the rest of the file system: nothing that can be
    seen. `Grow i` adds that inode `i` only got blocks or contents. A missing block reads as zeros (`byteAt`), so a block that is added,
    zeroed, does not change any contents. -/

namespace Minios.Fs
open Schemes Function

/-- Entry `m` of the indirect block `a`, if there is one. -/
def indAt (disk : Disk) (a m : ℕ) : ℕ := if a = 0 then 0 else getAddr (disk a) m

/-- The block address in a slot of an inode, 0 for none. -/
def ref (disk : Disk) (d : Dinode) : Slot → ℕ
  | .dir j => d.addrs j
  | .ind j => indAt disk (d.addrs IND) j

/-- The slot of block number `bn` of a file. -/
def slotOf (bn : ℕ) : Slot :=
  if h : bn < NDIRECT then .dir ⟨bn, Nat.lt_succ_of_lt h⟩
  else .ind ⟨(bn - NDIRECT) % NINDIRECT, Nat.mod_lt _ (by decide)⟩

/-- Byte `o` of a file; zero where it has no block. -/
def byteAt (disk : Disk) (d : Dinode) (o : ℕ) : UInt8 :=
  let b := ref disk d (slotOf (o / BSIZE))
  if b = 0 then 0 else getByte (disk b) (o % BSIZE)

/-- Inode `i` is allocated. -/
def Live (sb : Superblock) (D : ℕ → Dinode) (i : ℕ) : Prop := i < sb.ninodes ∧ (D i).type ≠ 0

/-- All slots of all allocated inodes. -/
def refs (sb : Superblock) (disk : Disk) (D : ℕ → Dinode) (p : ℕ × Slot) : ℕ :=
  if p.1 < sb.ninodes ∧ (D p.1).type ≠ 0 then ref disk (D p.1) p.2 else 0

/-- Every block below the size is there. -/
def Filled (disk : Disk) (d : Dinode) : Prop :=
  d.size ≤ MAXFILE * BSIZE ∧ ∀ bn, bn * BSIZE < d.size → ref disk d (slotOf bn) ≠ 0

structure Core (sb : Superblock) (disk : Disk) (torn : ℕ → Option Block) (D : ℕ → Dinode) : Prop where
  books : Books sb disk (refs sb disk D)
  fits : ∀ i, Live sb D i → (D i).Fits
  filled : ∀ i, Live sb D i → Filled disk (D i)
  torn : ∀ b, torn b ≠ none → sb.IsData b ∧ ∀ i, Live sb D i → (D i).addrs IND ≠ b ∧
    ((D i).type = T_DIR → ∀ k, ref disk (D i) k ≠ b)

variable {sb : Superblock} {disk disk' : Disk} {torn torn' : ℕ → Option Block} {D D' : ℕ → Dinode}
  {i j : ℕ} {s t u : FS}

/-! ### Slots -/

theorem slotOf_ne_IND (bn : ℕ) : slotOf bn ≠ .dir IND := by
  rw [slotOf]
  split
  · rename_i h
    intro he
    have := congrArg Fin.val (Slot.dir.inj he)
    rw [Fin.val_last] at this
    exact absurd this (Nat.ne_of_lt h)
  · exact Slot.noConfusion

theorem slotOf_inj {a b : ℕ} (ha : a < MAXFILE) (hb : b < MAXFILE) (h : slotOf a = slotOf b) :
    a = b := by
  simp only [slotOf, MAXFILE, NINDIRECT, NDIRECT, BSIZE] at *
  split at h <;> split at h
  · have := congrArg Fin.val (Slot.dir.inj h); exact this
  · cases h
  · cases h
  · have := congrArg Fin.val (Slot.ind.inj h)
    simp only at this
    omega

theorem indAt_congr {a : ℕ} (h : a ≠ 0 → disk' a = disk a) (m : ℕ) :
    indAt disk' a m = indAt disk a m := by
  rw [indAt, indAt]
  split
  · rfl
  · rename_i hne; rw [h hne]

theorem ref_congr {d : Dinode} (h : d.addrs IND ≠ 0 → disk' (d.addrs IND) = disk (d.addrs IND)) :
    ∀ k : Slot, ref disk' d k = ref disk d k
  | .dir _ => rfl
  | .ind m => indAt_congr h m

theorem byteAt_congr {d : Dinode} {o : ℕ}
    (h : d.addrs IND ≠ 0 → disk' (d.addrs IND) = disk (d.addrs IND))
    (hb : ref disk d (slotOf (o / BSIZE)) ≠ 0 →
      disk' (ref disk d (slotOf (o / BSIZE))) = disk (ref disk d (slotOf (o / BSIZE)))) :
    byteAt disk' d o = byteAt disk d o := by
  rw [byteAt, byteAt, ref_congr h]
  split
  · rfl
  · rename_i hne; rw [hb hne]

theorem refs_of_live (hi : Live sb D i) (k : Slot) : refs sb disk D (i, k) = ref disk (D i) k :=
  if_pos hi

theorem Core.held (h : Core sb disk torn D) (hi : Live sb D i) {k : Slot} (hk : ref disk (D i) k ≠ 0) :
    sb.IsData (ref disk (D i) k) ∧ bitAt sb disk (ref disk (D i) k) = true := by
  have := h.books.ledger.held (i, k)
  rw [refs_of_live hi] at this
  exact this hk

/-- DISJOINT: no two slots hold the same block. -/
theorem Core.slot_inj (h : Core sb disk torn D) (hi : Live sb D i) (hj : Live sb D j) {k m : Slot}
    (hk : ref disk (D i) k ≠ 0) (he : ref disk (D i) k = ref disk (D j) m) : i = j ∧ k = m := by
  have := h.books.ledger.inj (i, k) (j, m)
  rw [refs_of_live hi, refs_of_live hj] at this
  exact Prod.mk.inj (this hk he)

theorem Core.indirect_ne (h : Core sb disk torn D) (hi : Live sb D i) (hj : Live sb D j) {k : Slot}
    (hk : ref disk (D i) k ≠ 0) (hne : (i, k) ≠ (j, .dir IND)) : (D j).addrs IND ≠ ref disk (D i) k :=
  fun he => hne (Prod.mk.injEq .. ▸ h.slot_inj hi hj hk he.symm)

theorem Books.congr {R : ℕ × Slot → ℕ} (h : Books sb disk R)
    (hmap : ∀ b, sb.IsMap b → disk' b = disk b) : Books sb disk' R := by
  have hbit : ∀ b, b < sb.size → bitAt sb disk' b = bitAt sb disk b :=
    fun b hb => bitAt_congr (hmap _ (sb.isMap_bblock hb))
  refine ⟨fun b hb => ?_, h.ledger.congr fun b hb => by rw [hbit b hb.2]⟩
  rw [hbit b (lt_of_lt_of_le hb sb.nmeta_le)]
  exact h.metas b hb

/-! ### What the work on one inode leaves alone -/

/-- The disk and the other inodes after some work on inode `i`. -/
structure Others (i : ℕ) (s : FS) (D : ℕ → Dinode) (t : FS) (D' : ℕ → Dinode) : Prop where
  core : Core t.sb t.disk t.torn D'
  sb : t.sb = s.sb
  other : ∀ j, j ≠ i → D' j = D j
  byte : ∀ j, j ≠ i → Live s.sb D j → ∀ o, byteAt t.disk (D j) o = byteAt s.disk (D j) o
  low : ∀ b, b < s.sb.bmapstart → t.disk b = s.disk b

/-- The same when the work only added blocks or contents to inode `i`. -/
structure Grow (i : ℕ) (s : FS) (D : ℕ → Dinode) (t : FS) (D' : ℕ → Dinode) : Prop
    extends Others i s D t D' where
  like : (D' i).Like (D i)
  mono : ∀ k, ref s.disk (D i) k ≠ 0 → ref t.disk (D' i) k ≠ 0
  full : Full s.sb s.disk → Full s.sb t.disk

theorem Others.trans {E : ℕ → Dinode} (h : Others i s D t D') (h' : Others i t D' u E) :
    Others i s D u E := by
  refine ⟨h'.core, h'.sb.trans h.sb, fun j hj => (h'.other j hj).trans (h.other j hj), ?_, ?_⟩
  · intro j hj hl o
    have hl' : Live t.sb D' j := by rw [Live, h.sb, h.other j hj]; exact hl
    rw [← h.byte j hj hl o, ← h.other j hj]
    exact h'.byte j hj hl' o
  · intro b hb
    rw [h'.low b (h.sb ▸ hb), h.low b hb]

theorem Grow.refl (h : Core s.sb s.disk s.torn D) (i : ℕ) : Grow i s D s D :=
  ⟨⟨h, rfl, fun _ _ => rfl, fun _ _ _ _ => rfl, fun _ _ => rfl⟩, .refl _, fun _ h => h, id⟩

theorem Grow.live (h : Grow i s D t D') (hj : Live s.sb D j) : Live t.sb D' j := by
  refine ⟨h.sb ▸ hj.1, ?_⟩
  rcases eq_or_ne j i with rfl | hne
  · rw [h.like.type]; exact hj.2
  · rw [h.other j hne]; exact hj.2

theorem Grow.trans {E : ℕ → Dinode} (h : Grow i s D t D') (h' : Grow i t D' u E) :
    Grow i s D u E := by
  exact ⟨h.toOthers.trans h'.toOthers, h'.like.trans h.like, fun k hk => h'.mono k (h.mono k hk),
    fun hf => h.sb ▸ h'.full (h.sb.symm ▸ h.full hf)⟩

theorem Others.setD (h : Others i s D t D') (p : IPtr) (d : Dinode) : Others i s D (t.setD p d) D' :=
  ⟨h.core, h.sb, h.other, h.byte, h.low⟩

theorem Grow.setD (h : Grow i s D t D') (p : IPtr) (d : Dinode) : Grow i s D (t.setD p d) D' :=
  ⟨h.toOthers.setD p d, h.like, h.mono, h.full⟩

/-- One more slot of inode `i`: slot `k` now holds the fresh zeroed block `b`. -/
structure Taken (i : ℕ) (D : ℕ → Dinode) (s t : FS) (d' : Dinode) (k : Slot) (b : ℕ) : Prop where
  empty : ref s.disk (D i) k = 0
  data : s.sb.IsData b
  free : bitAt s.sb s.disk b = false
  sb : t.sb = s.sb
  bits : ∀ x, x < s.sb.size → (bitAt s.sb t.disk x = true ↔ bitAt s.sb s.disk x = true ∨ x = b)
  like : d'.Like (D i)
  fits : d'.Fits
  refs : ∀ m, ref t.disk d' m = if m = k then b else ref s.disk (D i) m
  old : ∀ x, s.sb.IsData x → bitAt s.sb s.disk x = true → x ≠ (D i).addrs IND → t.disk x = s.disk x
  zero : t.disk b = fun _ => 0
  low : ∀ x, x < s.sb.bmapstart → t.disk x = s.disk x
  torn : ∀ x, t.torn x = s.torn x ∨ t.torn x = none
  whole : t.torn b = none

section Taken
variable {d' : Dinode} {k : Slot} {b : ℕ}

theorem Taken.ne_zero (h : Taken i D s t d' k b) : b ≠ 0 := by
  rintro rfl; exact s.sb.not_isData_zero h.data

theorem Taken.live (h : Taken i D s t d' k b) : Live s.sb (update D i d') j ↔ Live s.sb D j := by
  rcases eq_or_ne j i with rfl | hne
  · rw [Live, Live, update_self, h.like.type]
  · rw [Live, Live, update_of_ne hne]

/-- The indirect blocks of the other inodes are used blocks, and not this inode's. -/
theorem Taken.indirect (h : Taken i D s t d' k b) (hc : Core s.sb s.disk s.torn D)
    (hi : Live s.sb D i) (hne : j ≠ i) (hj : Live s.sb D j) (h0 : (D j).addrs IND ≠ 0) :
    t.disk ((D j).addrs IND) = s.disk ((D j).addrs IND) := by
  obtain ⟨h1, h2⟩ := hc.held (k := .dir IND) hj h0
  exact h.old _ h1 h2 fun he => hne (hc.slot_inj (k := .dir IND) (m := .dir IND) hj hi h0 he).1

theorem Taken.mono (h : Taken i D s t d' k b) (m : Slot) (hm : ref s.disk (D i) m ≠ 0) :
    ref t.disk d' m ≠ 0 := by
  rw [h.refs]
  split
  · exact h.ne_zero
  · exact hm

theorem Taken.refs_eq (h : Taken i D s t d' k b) (hc : Core s.sb s.disk s.torn D)
    (hi : Live s.sb D i) :
    Fs.refs s.sb t.disk (update D i d') = update (Fs.refs s.sb s.disk D) (i, k) b := by
  funext ⟨j, m⟩
  rcases eq_or_ne j i with rfl | hne
  · rw [refs_of_live (h.live.mpr hi), update_self, h.refs]
    split
    · rename_i hm; rw [hm, update_self]
    · rename_i hm
      rw [update_of_ne fun he => hm (Prod.mk.inj he).2, refs_of_live hi]
  · rw [update_of_ne fun he => hne (Prod.mk.inj he).1]
    simp only [Fs.refs, update_of_ne hne]
    split
    · rename_i hj; exact ref_congr (h.indirect hc hi hne hj) m
    · rfl

theorem Taken.books (h : Taken i D s t d' k b) (hc : Core s.sb s.disk s.torn D)
    (hi : Live s.sb D i) : Books s.sb t.disk (Fs.refs s.sb t.disk (update D i d')) := by
  rw [h.refs_eq hc hi]
  refine ⟨fun x hx => (h.bits x (lt_of_lt_of_le hx s.sb.nmeta_le)).mpr (Or.inl (hc.books.metas x hx)),
    hc.books.ledger.take h.data ?_ ((refs_of_live hi k).trans h.empty) fun x hx => h.bits x hx.2⟩
  rw [h.free]; exact Bool.false_ne_true

theorem Taken.torn_ne (h : Taken i D s t d' k b) {x : ℕ} (hx : t.torn x ≠ none) :
    s.torn x ≠ none ∧ x ≠ b := by
  refine ⟨?_, by rintro rfl; exact hx h.whole⟩
  rcases h.torn x with he | he
  · rwa [he] at hx
  · exact absurd he hx

theorem Taken.core (h : Taken i D s t d' k b) (hc : Core s.sb s.disk s.torn D)
    (hi : Live s.sb D i) : Core s.sb t.disk t.torn (update D i d') := by
  refine ⟨h.books hc hi, fun j hj => ?_, fun j hj => ?_, fun x hx => ?_⟩
  · rcases eq_or_ne j i with rfl | hne
    · rw [update_self]; exact h.fits
    · rw [update_of_ne hne]; exact hc.fits j (h.live.mp hj)
  · rcases eq_or_ne j i with rfl | hne
    · obtain ⟨h1, h2⟩ := hc.filled j hi
      rw [update_self]
      exact ⟨h.like.size ▸ h1, fun bn hbn => h.mono _ (h2 bn (h.like.size ▸ hbn))⟩
    · obtain ⟨h1, h2⟩ := hc.filled j (h.live.mp hj)
      rw [update_of_ne hne]
      refine ⟨h1, fun bn hbn => ?_⟩
      rw [ref_congr (h.indirect hc hi hne (h.live.mp hj))]
      exact h2 bn hbn
  · obtain ⟨hx, hxb⟩ := h.torn_ne hx
    obtain ⟨h1, h2⟩ := hc.torn x hx
    refine ⟨h1, fun j hj => ?_⟩
    obtain ⟨h3, h4⟩ := h2 j (h.live.mp hj)
    rcases eq_or_ne j i with rfl | hne
    · have hslot : ∀ m, ref s.disk (D j) m ≠ x → ref t.disk d' m ≠ x := by
        intro m hm
        rw [h.refs]
        split
        · exact hxb.symm
        · exact hm
      rw [update_self]
      exact ⟨hslot (.dir IND) h3, fun ht m => hslot m (h4 (h.like.type ▸ ht) m)⟩
    · rw [update_of_ne hne]
      refine ⟨h3, fun ht m => ?_⟩
      rw [ref_congr (h.indirect hc hi hne (h.live.mp hj))]
      exact h4 ht m

theorem Taken.grow (h : Taken i D s t d' k b) (hc : Core s.sb s.disk s.torn D)
    (hi : Live s.sb D i) : Grow i s D t (update D i d') := by
  refine ⟨⟨h.sb.symm ▸ h.core hc hi, h.sb, fun j hj => update_of_ne hj .., ?_, h.low⟩, ?_, ?_, ?_⟩
  · intro j hne hj o
    refine byteAt_congr (h.indirect hc hi hne hj) fun h0 => ?_
    obtain ⟨h1, h2⟩ := hc.held hj h0
    exact h.old _ h1 h2 (hc.indirect_ne hj hi h0 fun he => hne (Prod.mk.inj he).1).symm
  · rw [update_self]; exact h.like
  · rw [update_self]; exact h.mono
  · exact fun hf x hx => (h.bits x hx).mpr (Or.inl (hf x hx))

/-- The new block shows no more than the hole it fills. -/
theorem Taken.byteAt (h : Taken i D s t d' k b) (hc : Core s.sb s.disk s.torn D)
    (hi : Live s.sb D i) (o : ℕ) : Fs.byteAt t.disk d' o = Fs.byteAt s.disk (D i) o := by
  simp only [Fs.byteAt, h.refs]
  split
  · rename_i hm
    rw [hm, h.empty, if_pos rfl, if_neg h.ne_zero, h.zero, getByte_zero]
  · split
    · rfl
    · rename_i h0
      obtain ⟨h1, h2⟩ := hc.held hi h0
      have hne := hc.indirect_ne hi hi h0 fun he => slotOf_ne_IND _ (Prod.mk.inj he).2
      rw [h.old _ h1 h2 hne.symm]

end Taken

/-! ### `bmap` -/

/-- What `bmap` did for inode `i` with table entry `p`. -/
structure Mapped (i : ℕ) (p : IPtr) (s : FS) (D : ℕ → Dinode) (t : FS) (D' : ℕ → Dinode) : Prop
    extends Grow i s D t D' where
  own : ∀ o, byteAt t.disk (D' i) o = byteAt s.disk (D i) o
  torn : ∀ b, t.torn b = s.torn b ∨ t.torn b = none
  itable : t.itable = s.tab p (D' i)

theorem Mapped.refl {p : IPtr} (h : Core s.sb s.disk s.torn D) (hp : (s.itable p).d = D i) :
    Mapped i p s D s D :=
  ⟨Grow.refl h i, fun _ => rfl, fun _ => Or.inl rfl, (FS.tab_eq_self hp).symm⟩

theorem Mapped.entry {p : IPtr} (h : Mapped i p s D t D') : (t.itable p).d = D' i := by
  rw [h.itable, FS.tab_self]; rfl

theorem Mapped.trans {p : IPtr} {E : ℕ → Dinode} (h : Mapped i p s D t D') (h' : Mapped i p t D' u E) :
    Mapped i p s D u E := by
  refine ⟨h.toGrow.trans h'.toGrow, fun o => (h'.own o).trans (h.own o), fun b => ?_, ?_⟩
  · rcases h'.torn b with h1 | h1
    · rw [h1]; exact h.torn b
    · exact Or.inr h1
  · rw [h'.itable, FS.tab_tab h.itable]

theorem Dinode.Fits.setAddr {d : Dinode} (h : d.Fits) (k : Fin (NDIRECT + 1)) {b : ℕ} (hb : b < 2 ^ 32) :
    (d.setAddr k b).Fits where
  type := h.type
  major := h.major
  minor := h.minor
  nlink := h.nlink
  size := h.size
  addrs m := by
    rw [Dinode.setAddr]
    dsimp only
    rcases eq_or_ne m k with rfl | hne
    · rw [update_self]; exact hb
    · rw [update_of_ne hne]; exact h.addrs m

theorem Allocated.lt {b : ℕ} (h : Allocated s t b) : b < 2 ^ 32 := by
  have h1 := h.data.2
  have h2 := s.sb.size_lt
  omega

theorem Allocated.old {b x : ℕ} (h : Allocated s t b) (hx : s.sb.IsData x)
    (hbit : bitAt s.sb s.disk x = true) : t.disk x = s.disk x := by
  refine h.frame x hx.not_isMap ?_
  rintro rfl
  rw [h.free] at hbit; cases hbit

theorem Allocated.low {b x : ℕ} (h : Allocated s t b) (hx : x < s.sb.bmapstart) :
    t.disk x = s.disk x := by
  have h1 := s.sb.bmapstart_lt
  have h2 := h.data.1
  exact h.frame x (fun hm => by have := hm.1; omega) (by omega)

theorem Allocated.takenDirect {b : ℕ} {j : Fin (NDIRECT + 1)} (h : Allocated s t b)
    (hc : Core s.sb s.disk s.torn D) (hi : Live s.sb D i) (hj : (D i).addrs j = 0) :
    Taken i D s t ((D i).setAddr j b) (.dir j) b where
  empty := hj
  data := h.data
  free := h.free
  sb := h.sb
  bits := h.bits
  like := ⟨rfl, rfl, rfl, rfl, rfl⟩
  fits := (hc.fits i hi).setAddr j h.lt
  refs m := by
    cases m with
    | dir m =>
      rw [ref, ref]
      rcases eq_or_ne m j with rfl | hne
      · rw [if_pos rfl]; exact update_self ..
      · rw [if_neg fun he => hne (Slot.dir.inj he)]; exact update_of_ne hne ..
    | ind m =>
      rw [if_neg (by exact Slot.noConfusion), ref, ref, Dinode.setAddr]
      dsimp only
      rcases eq_or_ne IND j with rfl | hne
      · rw [update_self, hj, indAt, indAt, if_neg h.ne_zero, if_pos rfl, h.zero]
        exact getLE_zero 4 _
      · rw [update_of_ne hne]
        refine indAt_congr (fun h0 => ?_) m
        obtain ⟨h1, h2⟩ := hc.held (k := .dir IND) hi h0
        exact h.old h1 h2
  old x hx hbit _ := h.old hx hbit
  zero := h.zero
  low _ hx := h.low hx
  torn := h.torn
  whole := h.whole

theorem getAddr_setAddr (bp : Block) {m : ℕ} (hm : m < NINDIRECT) (x : ℕ) {b : ℕ} (hb : b < 2 ^ 32) :
    getAddr (setAddr bp m b) x = if x = m then b else getAddr bp x := by
  rw [getAddr, getAddr, setAddr]
  rcases eq_or_ne x m with rfl | hne
  · have hx : 4 * x + 4 ≤ BSIZE := by simp only [NINDIRECT, BSIZE] at hm ⊢; omega
    rw [if_pos rfl, getLE_setLE_same 4 _ _ _ hx]
    exact Nat.mod_eq_of_lt hb
  · rw [if_neg hne, getLE_setLE_disj _ (by omega)]

theorem Allocated.takenIndirect {b : ℕ} {m : Fin NINDIRECT} (h : Allocated s t b)
    (hc : Core s.sb s.disk s.torn D) (hi : Live s.sb D i) (h0 : (D i).addrs IND ≠ 0)
    (hm : getAddr (s.disk ((D i).addrs IND)) m = 0) :
    Taken i D s (t.write ((D i).addrs IND) (setAddr (s.disk ((D i).addrs IND)) m b)) (D i) (.ind m) b := by
  obtain ⟨hdata, hused⟩ := hc.held (k := .dir IND) hi h0
  have hne : b ≠ (D i).addrs IND := by
    rintro rfl
    rw [ref, h.free] at hused; cases hused
  have hmap : ∀ x, x < s.sb.size → s.sb.bblock x ≠ (D i).addrs IND := by
    intro x hx he
    have := s.sb.isMap_bblock hx
    rw [he] at this
    exact hdata.not_isMap this
  exact {
    empty := by rw [ref, indAt, if_neg h0, hm]
    data := h.data
    free := h.free
    sb := h.sb
    bits := fun x hx => by
      rw [← h.bits x hx]
      exact Bool.eq_iff_iff.mp (bitAt_congr (update_of_ne (hmap x hx) ..))
    like := .refl _
    fits := hc.fits i hi
    refs := fun k => by
      cases k with
      | dir k => rw [if_neg (by exact Slot.noConfusion)]; rfl
      | ind k =>
        simp only [ref, indAt, if_neg h0, FS.write, update_self, getAddr_setAddr _ m.isLt _ h.lt,
          Slot.ind.injEq, Fin.ext_iff]
    old := fun x hx hbit hxi => (update_of_ne hxi ..).trans (h.old hx hbit)
    zero := (update_of_ne hne ..).trans h.zero
    low := fun x hx => by
      refine (update_of_ne ?_ ..).trans (h.low hx)
      rintro rfl
      have h1 := s.sb.bmapstart_lt
      have h2 := hdata.1
      rw [ref] at h2
      omega
    torn := fun x => by
      rcases t.torn_write _ _ x with h1 | h1
      · rw [h1]; exact h.torn x
      · exact Or.inr h1
    whole := (update_of_ne hne ..).trans h.whole }

theorem bmapDirect_spec {p : IPtr} (m : Fin (NDIRECT + 1)) (hc : Core s.sb s.disk s.torn D)
    (hi : Live s.sb D i) (hp : (s.itable p).d = D i) :
    wp (bmapDirect p m) (fun r t => ∃ D', Mapped i p s D t D' ∧ r = (D' i).addrs m ∧
      (r = 0 → Full t.sb t.disk)) (fun _ => False) s := by
  simp only [bmapDirect, inode, wp_bind, wp_get, wp_pure, hp]
  split
  · rename_i h0
    refine (balloc_spec hc.books).bind fun b t hb => ?_
    rcases hb with ⟨rfl, rfl, hfull⟩ | hb
    · exact ⟨D, .refl hc hp, h0.symm, fun _ => hfull⟩
    · have htaken := hb.takenDirect hc hi h0
      simp only [if_neg hb.ne_zero, wp_bind, wp_setD, wp_pure, hb.itable, hp]
      refine ⟨_, ⟨(htaken.grow hc hi).setD .., fun o => ?_, hb.torn, ?_⟩, ?_, fun h => absurd h hb.ne_zero⟩
      · rw [update_self]; exact htaken.byteAt hc hi o
      · rw [update_self, FS.setD, FS.tab, hb.itable]; rfl
      · rw [update_self]; exact (update_self m b (D i).addrs).symm
  · exact ⟨D, .refl hc hp, rfl, fun h => by contradiction⟩

/-- `bmap` returns the block of a file's slot, which it filled if it was empty; 0 only when no block
    was free. -/
theorem bmap_spec {p : IPtr} {bn : ℕ} (hbn : bn < MAXFILE) (hc : Core s.sb s.disk s.torn D)
    (hi : Live s.sb D i) (hp : (s.itable p).d = D i) :
    wp (bmap p bn) (fun r t => ∃ D', Mapped i p s D t D' ∧ r = ref t.disk (D' i) (slotOf bn) ∧
      (r = 0 → Full t.sb t.disk)) (fun _ => False) s := by
  rw [bmap]
  split
  · rename_i h
    rw [slotOf, dif_pos h]
    exact bmapDirect_spec _ hc hi hp
  · rename_i h
    have hm : bn - NDIRECT < NINDIRECT := by simp only [MAXFILE, NINDIRECT, NDIRECT, BSIZE] at *; omega
    rw [slotOf, dif_neg h, if_pos hm]
    simp only [Nat.mod_eq_of_lt hm]
    refine (bmapDirect_spec IND hc hi hp).bind fun ind t ht => ?_
    obtain ⟨D₁, hmap, rfl, hfull⟩ := ht
    have hi₁ := hmap.live hi
    split
    · rename_i h0
      exact ⟨D₁, hmap, by rw [ref, indAt, if_pos h0], fun _ => hfull h0⟩
    · rename_i h0
      simp only [bread, wp_bind, wp_get, wp_pure]
      split
      · rename_i hz
        refine (balloc_spec hmap.core.books).bind fun b u hu => ?_
        rcases hu with ⟨rfl, rfl, hfull⟩ | hu
        · simp only [ne_eq, not_true_eq_false, if_false, wp_pure]
          exact ⟨D₁, hmap, by rw [ref, indAt, if_neg h0, hz], fun _ => hfull⟩
        · have htaken := hu.takenIndirect (m := ⟨bn - NDIRECT, hm⟩) hmap.core hi₁ h0 hz
          have hgrow := htaken.grow hmap.core hi₁
          rw [update_eq_self] at hgrow
          simp only [ne_eq, hu.ne_zero, not_false_eq_true, if_true, logWrite, wp_pure, wp_bind, wp_modify]
          refine ⟨D₁, hmap.trans ⟨hgrow, htaken.byteAt hmap.core hi₁, htaken.torn, ?_⟩, ?_,
            fun h => h.elim⟩
          · rw [FS.tab_eq_self hmap.entry]; exact hu.itable
          · rw [htaken.refs, if_pos rfl]
      · exact ⟨D₁, hmap, by rw [ref, indAt, if_neg h0], fun h => by contradiction⟩

end Minios.Fs
