import Minios.Fs.Contents

/-! `kernel/fs.c`: `iupdate` and `itrunc`.

    Between the first change to a table entry and its `iupdate` the disk still has the old inode:

        bmap, bfree: blocks and free map ──▶ ip->addrs, ip->size ──▶ iupdate: inode block

    `Core` for the inode in the table is carried along, and after `iupdate` it is `Core` for the
    inodes on the disk. `itrunc` empties the slots one by one, so the books are kept for an explicit
    `R` that says which addresses are still there: the second loop frees the blocks that the indirect
    block lists without changing the indirect block. -/

namespace Minios.Fs
open Schemes Function

variable {D D' : ℕ → Dinode} {i j : ℕ} {p : IPtr} {s t : FS}

/-! ### `iupdate` -/

/-- Inode `i` as it is on the disk. -/
def dinode (s : FS) (i : ℕ) : Dinode :=
  if i < s.sb.ninodes then getDinode (s.disk (s.sb.iblock i)) (i % IPB) else .fresh 0

/-- What `iupdate` did: inode `i` on the disk is now `d`. -/
structure Updated (s t : FS) (i : ℕ) (d : Dinode) : Prop where
  dinode : dinode t = update (dinode s) i d
  sb : t.sb = s.sb
  itable : t.itable = s.itable
  high : ∀ b, s.sb.bmapstart ≤ b → t.disk b = s.disk b
  torn : ∀ b, t.torn b = s.torn b ∨ t.torn b = none

theorem dinode_of_lt (hi : i < s.sb.ninodes) :
    dinode s i = getDinode (s.disk (s.sb.iblock i)) (i % IPB) :=
  if_pos hi

theorem dinode_of_ge (hi : s.sb.ninodes ≤ i) : dinode s i = .fresh 0 := if_neg (Nat.not_lt.mpr hi)

theorem dinode_setDinode {i : ℕ} (hi : i < s.sb.ninodes) {d : Dinode} (hd : d.Fits) :
    dinode (s.write (s.sb.iblock i) (setDinode (s.disk (s.sb.iblock i)) (i % IPB) d)) =
      update (dinode s) i d := by
  funext j
  rcases Nat.lt_or_ge j s.sb.ninodes with hj | hj
  · rw [dinode_of_lt (by exact hj)]
    rcases eq_or_ne j i with rfl | hne
    · rw [update_self]
      exact (congrArg (getDinode · _) (update_self ..)).trans
        (getDinode_setDinode_same _ (Nat.mod_lt _ (by decide)) hd)
    · rw [update_of_ne hne, dinode_of_lt hj]
      rcases eq_or_ne (s.sb.iblock j) (s.sb.iblock i) with he | he
      · have hmod : j % IPB ≠ i % IPB := by
          rw [Superblock.iblock, Superblock.iblock] at he
          simp only [IPB, BSIZE] at *
          omega
        rw [he]
        refine (congrArg (getDinode · _) ?_).trans (getDinode_setDinode_ne _ hmod d)
        exact (congrArg _ he).trans (update_self ..)
      · exact congrArg (getDinode · _) (update_of_ne he ..)
  · rw [dinode_of_ge (by exact hj), update_of_ne (by omega), dinode_of_ge hj]

theorem updated_setDinode {i : ℕ} (hi : i < s.sb.ninodes) {d : Dinode} (hd : d.Fits) :
    Updated s (s.write (s.sb.iblock i) (setDinode (s.disk (s.sb.iblock i)) (i % IPB) d)) i d where
  dinode := dinode_setDinode hi hd
  sb := rfl
  itable := rfl
  high b hb := update_of_ne (by have := s.sb.iblock_lt hi; omega) ..
  torn := s.torn_write _ _

theorem iupdate_spec (hi : (s.itable p).inum < s.sb.ninodes) (hd : (s.itable p).d.Fits) :
    wp (iupdate p) (fun _ t => Updated s t (s.itable p).inum (s.itable p).d) (fun _ => False) s := by
  simp only [iupdate, inode, bread, logWrite, wp_bind, wp_get, wp_pure, wp_modify]
  exact updated_setDinode hi hd

theorem dinode_low (hsb : t.sb = s.sb) (h : ∀ b, b < s.sb.bmapstart → t.disk b = s.disk b) :
    dinode t = dinode s := by
  funext j
  rcases Nat.lt_or_ge j s.sb.ninodes with hj | hj
  · rw [dinode_of_lt hj, dinode_of_lt (hsb ▸ hj), hsb, h _ (s.sb.iblock_lt hj)]
  · rw [dinode_of_ge hj, dinode_of_ge (hsb ▸ hj)]

section High
variable (hc : Core s.sb s.disk s.torn D) (hdisk : ∀ b, s.sb.bmapstart ≤ b → t.disk b = s.disk b)
include hc hdisk

theorem Core.disk_high (hj : Live s.sb D j) {k : Slot} (h0 : ref s.disk (D j) k ≠ 0) :
    t.disk (ref s.disk (D j) k) = s.disk (ref s.disk (D j) k) := by
  have h1 := (hc.held hj h0).1.1
  have h2 := s.sb.bmapstart_lt
  exact hdisk _ (by omega)

theorem Core.ref_high (hj : Live s.sb D j) (k : Slot) : ref t.disk (D j) k = ref s.disk (D j) k :=
  ref_congr (fun h0 => hc.disk_high hdisk (k := .dir IND) hj h0) k

theorem Core.byteAt_high (hj : Live s.sb D j) (o : ℕ) : byteAt t.disk (D j) o = byteAt s.disk (D j) o :=
  byteAt_congr (fun h0 => hc.disk_high hdisk (k := .dir IND) hj h0) (hc.disk_high hdisk hj)

theorem Core.high (htorn : ∀ b, t.torn b = s.torn b ∨ t.torn b = none) :
    Core s.sb t.disk t.torn D := by
  have hR : refs s.sb t.disk D = refs s.sb s.disk D := by
    funext ⟨j, m⟩
    simp only [refs]
    split
    · rename_i hj; exact hc.ref_high hdisk hj m
    · rfl
  refine ⟨?_, hc.fits, fun j hj => ?_, fun b hb => ?_⟩
  · rw [hR]; exact hc.books.congr fun b hb => hdisk b hb.1
  · obtain ⟨h1, h2⟩ := hc.filled j hj
    exact ⟨h1, fun bn hbn => by rw [hc.ref_high hdisk hj]; exact h2 bn hbn⟩
  · obtain ⟨h1, h2⟩ := hc.torn b ((htorn b).elim (fun h => h ▸ hb) fun h => absurd h hb)
    refine ⟨h1, fun j hj => ⟨(h2 j hj).1, fun ht k => ?_⟩⟩
    rw [hc.ref_high hdisk hj]
    exact (h2 j hj).2 ht k

end High

theorem Core.setDinode {d' : Dinode} (hc : Core s.sb s.disk s.torn D) (hfits : d'.Fits)
    (hR : ∀ k, refs s.sb s.disk (update D i d') (i, k) = refs s.sb s.disk D (i, k))
    (hfill : i < s.sb.ninodes → d'.type ≠ 0 → Filled s.disk d')
    (hplain : d'.type = T_DIR → (D i).type = T_DIR ∨ ∀ k, ref s.disk d' k = 0) :
    Core s.sb s.disk s.torn (update D i d') := by
  have hrefs : refs s.sb s.disk (update D i d') = refs s.sb s.disk D := by
    funext ⟨j, k⟩
    rcases eq_or_ne j i with rfl | hne
    · exact hR k
    · simp only [refs, update_of_ne hne]
  have hlive : ∀ {j}, j ≠ i → Live s.sb (update D i d') j → Live s.sb D j := by
    intro j hne hj
    rwa [Live, update_of_ne hne] at hj
  refine ⟨hrefs ▸ hc.books, fun j hj => ?_, fun j hj => ?_, fun b hb => ⟨(hc.torn b hb).1, fun j hj => ?_⟩⟩
  · rcases eq_or_ne j i with rfl | hne
    · rw [update_self]; exact hfits
    · rw [update_of_ne hne]; exact hc.fits j (hlive hne hj)
  · rcases eq_or_ne j i with rfl | hne
    · have htype := hj.2
      rw [update_self] at htype ⊢
      exact hfill hj.1 htype
    · rw [update_of_ne hne]; exact hc.filled j (hlive hne hj)
  · obtain ⟨hdata, hb⟩ := hc.torn b hb
    rcases eq_or_ne j i with rfl | hne
    · have hb0 : b ≠ 0 := by rintro rfl; exact s.sb.not_isData_zero hdata
      have href : ∀ k, ref s.disk d' k = refs s.sb s.disk D (j, k) := fun k => by
        rw [← hR k, refs_of_live hj, update_self]
      rw [update_self]
      refine ⟨fun he => ?_, fun ht k he => ?_⟩
      · have h1 := (href (.dir IND)).symm.trans he
        rw [refs] at h1
        split at h1
        · rename_i hl; exact (hb j hl).1 h1
        · exact hb0 h1.symm
      · rcases hplain ht with ht' | hz
        · have hl : Live s.sb D j := ⟨hj.1, by rw [ht']; decide⟩
          rw [href, refs_of_live hl] at he
          exact (hb j hl).2 ht' k he
        · exact hb0 (he.symm.trans (hz k))
    · rw [update_of_ne hne]; exact hb j (hlive hne hj)

theorem ref_addrs {disk : Disk} {d d' : Dinode} (h : d'.addrs = d.addrs) : ∀ k, ref disk d' k = ref disk d k
  | .dir j => congrFun h j
  | .ind m => congrArg (indAt disk · m) (congrFun h IND)

theorem byteAt_addrs {disk : Disk} {d d' : Dinode} (h : d'.addrs = d.addrs) (o : ℕ) :
    byteAt disk d' o = byteAt disk d o := by
  rw [byteAt, byteAt, ref_addrs h]

theorem ref_setSize (disk : Disk) (d : Dinode) (n : ℕ) (k : Slot) :
    ref disk (d.setSize n) k = ref disk d k :=
  ref_addrs rfl k

theorem byteAt_setSize (disk : Disk) (d : Dinode) (n o : ℕ) :
    byteAt disk (d.setSize n) o = byteAt disk d o :=
  byteAt_addrs rfl o

theorem Core.setFields {d' : Dinode} (hc : Core s.sb s.disk s.torn D) (hi : Live s.sb D i)
    (haddrs : d'.addrs = (D i).addrs) (htype : d'.type = (D i).type) (hfits : d'.Fits)
    (hfill : Filled s.disk d') : Core s.sb s.disk s.torn (update D i d') := by
  refine hc.setDinode hfits (fun k => ?_) (fun _ _ => hfill) fun ht => Or.inl (htype ▸ ht)
  have hi' : Live s.sb (update D i d') i := by rw [Live, update_self, htype]; exact hi
  rw [refs_of_live hi', refs_of_live hi, update_self, ref_addrs haddrs]

/-! ### `itrunc` -/

/-- Slots of inode `i` are emptied one after the other: `R` were the addresses, `R'` are. -/
structure Freeing (i : ℕ) (s : FS) (R : ℕ × Slot → ℕ) (t : FS) (R' : ℕ × Slot → ℕ) : Prop where
  sb : t.sb = s.sb
  books : Books t.sb t.disk R'
  other : ∀ q, q.1 ≠ i → R' q = R q
  frame : ∀ b, ¬ s.sb.IsMap b → t.disk b = s.disk b
  torn : ∀ b, t.torn b = s.torn b ∨ t.torn b = none

variable {R R' : ℕ × Slot → ℕ}

theorem Freeing.refl (h : Books s.sb s.disk R) : Freeing i s R s R :=
  ⟨rfl, h, fun _ _ => rfl, fun _ _ => rfl, fun _ => Or.inl rfl⟩

theorem Freeing.trans {u : FS} {R'' : ℕ × Slot → ℕ} (h : Freeing i s R t R')
    (h' : Freeing i t R' u R'') : Freeing i s R u R'' := by
  refine ⟨h'.sb.trans h.sb, h'.books, fun q hq => (h'.other q hq).trans (h.other q hq), ?_, fun b => ?_⟩
  · intro b hb
    rw [h'.frame b (h.sb ▸ hb), h.frame b hb]
  · rcases h'.torn b with h1 | h1
    · rw [h1]; exact h.torn b
    · exact Or.inr h1

theorem Freeing.setD (h : Freeing i s R t R') (p : IPtr) (d : Dinode) : Freeing i s R (t.setD p d) R' :=
  ⟨h.sb, h.books, h.other, h.frame, h.torn⟩

theorem bfree_slot {k : Slot} (h : Books s.sb s.disk R) (hk : R (i, k) ≠ 0) :
    wp (bfree (R (i, k))) (fun _ t => Freeing i s R t (update R (i, k) 0) ∧ t.itable = s.itable)
      (fun _ => False) s := by
  refine (bfree_books h hk).mono fun _ t ht => ⟨⟨ht.1.sb, ht.1.sb ▸ ht.2, fun q hq => ?_, ht.1.frame,
    ht.1.torn⟩, ht.1.itable⟩
  exact update_of_ne (fun he => hq (congrArg Prod.fst he)) ..

/-- Inode `d` with the addresses that `R` says. -/
def Dinode.withAddrs (d : Dinode) (i : ℕ) (R : ℕ × Slot → ℕ) : Dinode :=
  { d with addrs := fun j => R (i, .dir j) }

theorem Dinode.withAddrs_clear (d : Dinode) (i : ℕ) (R : ℕ × Slot → ℕ) (j : Fin (NDIRECT + 1)) :
    (d.withAddrs i R).setAddr j 0 = d.withAddrs i (update R (i, .dir j) 0) := by
  refine Dinode.ext rfl rfl rfl rfl rfl fun m => ?_
  rcases eq_or_ne m j with rfl | hne
  · exact (update_self ..).trans (update_self (i, Slot.dir m) 0 R).symm
  · have hslot : (i, Slot.dir m) ≠ (i, .dir j) := fun he => hne (Slot.dir.inj (Prod.mk.inj he).2)
    exact (update_of_ne hne ..).trans (update_of_ne hslot 0 R).symm

theorem itruncDirect_spec {d : Dinode} : ∀ (js : List (Fin (NDIRECT + 1))) {s : FS} {R : ℕ × Slot → ℕ},
    Books s.sb s.disk R → (s.itable p).d = d.withAddrs i R →
    wp (itruncDirect p js) (fun _ t => ∃ R', Freeing i s R t R' ∧ t.itable = s.tab p (d.withAddrs i R') ∧
      (∀ j ∈ js, R' (i, .dir j) = 0) ∧ ∀ k, (∀ j ∈ js, k ≠ .dir j) → R' (i, k) = R (i, k))
      (fun _ => False) s
  | [], s, R, h, hp =>
      ⟨R, .refl h, (FS.tab_eq_self hp).symm, fun _ hj => absurd hj List.not_mem_nil, fun _ _ => rfl⟩
  | j :: js, s, R, h, hp => by
      -- in both cases the rest of the loop starts with slot `j` empty
      have hrest : ∀ {t R₁}, Freeing i s R t R₁ → t.itable = s.tab p (d.withAddrs i R₁) →
          R₁ = update R (i, .dir j) 0 → wp (itruncDirect p js) (fun _ t => ∃ R', Freeing i s R t R' ∧
            t.itable = s.tab p (d.withAddrs i R') ∧ (∀ m ∈ j :: js, R' (i, .dir m) = 0) ∧
            ∀ k, (∀ m ∈ j :: js, k ≠ .dir m) → R' (i, k) = R (i, k)) (fun _ => False) t := by
        intro t R₁ hfree htab hR₁
        refine (itruncDirect_spec js hfree.books (by rw [htab, FS.tab_self]; rfl)).mono fun _ u hu => ?_
        obtain ⟨R', hfree', htab', hz, hk⟩ := hu
        refine ⟨R', hfree.trans hfree', htab'.trans (FS.tab_tab htab _), fun m hm => ?_, fun k hm => ?_⟩
        · rcases Classical.em (m ∈ js) with hmem | hmem
          · exact hz m hmem
          · obtain rfl := (List.mem_cons.mp hm).resolve_right hmem
            rw [hk (.dir m) fun m' hm' he => hmem (Slot.dir.inj he ▸ hm'), hR₁, update_self]
        · rw [hk k fun m' hm' => hm m' (List.mem_cons_of_mem _ hm'), hR₁,
            update_of_ne fun he => hm j List.mem_cons_self (Prod.mk.inj he).2]
      have haddr : (s.itable p).d.addrs j = R (i, .dir j) := by rw [hp]; rfl
      simp only [itruncDirect, wp_bind, wp_inode]
      rw [haddr]
      split
      · rename_i h0
        refine (bfree_slot h h0).bind fun _ t ht => ?_
        obtain ⟨hfree, htab⟩ := ht
        rw [wp_bind, wp_setD, htab, hp, Dinode.withAddrs_clear]
        exact hrest (hfree.setD ..) (by rw [FS.setD, FS.tab, htab]; rfl) rfl
      · rename_i h0
        have hR : update R (i, .dir j) 0 = R := by
          rw [← not_not.mp h0, update_eq_self]
        exact hrest (.refl h) (FS.tab_eq_self hp).symm hR.symm

theorem itruncIndirect_spec {bp : Block} : ∀ (js : List ℕ) {s : FS} {R : ℕ × Slot → ℕ}, js.Nodup →
    (∀ j ∈ js, ∃ h : j < NINDIRECT, R (i, .ind ⟨j, h⟩) = getAddr bp j) → Books s.sb s.disk R →
    wp (itruncIndirect bp js) (fun _ t => ∃ R', Freeing i s R t R' ∧ t.itable = s.itable ∧
      (∀ m : Fin NINDIRECT, m.val ∈ js → R' (i, .ind m) = 0) ∧
      ∀ k, (∀ m : Fin NINDIRECT, m.val ∈ js → k ≠ .ind m) → R' (i, k) = R (i, k)) (fun _ => False) s
  | [], s, R, _, _, h => ⟨R, .refl h, rfl, fun _ hj => absurd hj List.not_mem_nil, fun _ _ => rfl⟩
  | j :: js, s, R, hnd, hbp, h => by
      obtain ⟨hj, hnd⟩ := List.nodup_cons.mp hnd
      obtain ⟨hlt, haddr⟩ := hbp j List.mem_cons_self
      have hrest : ∀ {t R₁}, Freeing i s R t R₁ → t.itable = s.itable →
          R₁ = update R (i, .ind ⟨j, hlt⟩) 0 → wp (itruncIndirect bp js) (fun _ t => ∃ R',
            Freeing i s R t R' ∧ t.itable = s.itable ∧
            (∀ m : Fin NINDIRECT, m.val ∈ j :: js → R' (i, .ind m) = 0) ∧
            ∀ k, (∀ m : Fin NINDIRECT, m.val ∈ j :: js → k ≠ .ind m) → R' (i, k) = R (i, k))
          (fun _ => False) t := by
        intro t R₁ hfree htab hR₁
        refine (itruncIndirect_spec js hnd (fun m hm => ?_) hfree.books).mono fun _ u hu => ?_
        · obtain ⟨hmlt, hm'⟩ := hbp m (List.mem_cons_of_mem _ hm)
          refine ⟨hmlt, ?_⟩
          rw [hR₁, update_of_ne, hm']
          intro he
          obtain rfl : m = j := congrArg Fin.val (Slot.ind.inj (Prod.mk.inj he).2)
          exact hj hm
        · obtain ⟨R', hfree', htab', hz, hk⟩ := hu
          refine ⟨R', hfree.trans hfree', htab'.trans htab, fun m hm => ?_, fun k hm => ?_⟩
          · rcases Classical.em (m.val ∈ js) with hmem | hmem
            · exact hz m hmem
            · have hmj : m = ⟨j, hlt⟩ := Fin.ext ((List.mem_cons.mp hm).resolve_right hmem)
              rw [hk (.ind m) fun m' hm' he => hmem (Slot.ind.inj he ▸ hm'), hR₁, hmj, update_self]
          · rw [hk k fun m' hm' => hm m' (List.mem_cons_of_mem _ hm'), hR₁,
              update_of_ne fun he => hm ⟨j, hlt⟩ List.mem_cons_self (Prod.mk.inj he).2]
      rw [itruncIndirect, ← haddr]
      split
      · rename_i h0
        exact (bfree_slot h h0).bind fun _ t ht => hrest ht.1 ht.2 rfl
      · rename_i h0
        have hR : update R (i, .ind ⟨j, hlt⟩) 0 = R := by
          rw [← not_not.mp h0, update_eq_self]
        exact hrest (.refl h) rfl hR.symm

/-- An inode without contents. -/
def Dinode.emptied (d : Dinode) : Dinode := { d with size := 0, addrs := fun _ => 0 }

theorem ref_empty {disk : Disk} {d : Dinode} (h : ∀ j, d.addrs j = 0) : ∀ k, ref disk d k = 0
  | .dir j => h j
  | .ind _ => if_pos (h IND)

theorem Dinode.Fits.emptied {d : Dinode} (h : d.Fits) : d.emptied.Fits :=
  ⟨h.type, h.major, h.minor, h.nlink, Nat.two_pow_pos 32, fun _ => Nat.two_pow_pos 32⟩

theorem Freeing.others (h : Freeing i s (refs s.sb s.disk D) t R') (hc : Core s.sb s.disk s.torn D)
    (hi : Live s.sb D i) (hz : ∀ k, R' (i, k) = 0) : Others i s D t (update D i (D i).emptied) := by
  have hdata : ∀ {b}, s.sb.IsData b → t.disk b = s.disk b := fun hb => h.frame _ hb.not_isMap
  have hind : ∀ {j}, Live s.sb D j → (D j).addrs IND ≠ 0 →
      t.disk ((D j).addrs IND) = s.disk ((D j).addrs IND) :=
    fun hj h0 => hdata (hc.held (k := .dir IND) hj h0).1
  have hlive : ∀ {j}, Live s.sb (update D i (D i).emptied) j → Live s.sb D j := by
    intro j hj
    rcases eq_or_ne j i with rfl | hne
    · exact hi
    · rwa [Live, update_of_ne hne] at hj
  have hR : refs s.sb t.disk (update D i (D i).emptied) = R' := by
    funext x
    obtain ⟨j, k⟩ := x
    rcases eq_or_ne j i with rfl | hne
    · rw [hz k, refs, update_self, ref_empty (d := (D j).emptied) fun _ => rfl, ite_self]
    · rw [h.other (j, k) hne]
      simp only [refs, update_of_ne hne]
      split
      · rename_i hj; exact ref_congr (hind hj) k
      · rfl
  refine ⟨⟨?_, fun j hj => ?_, fun j hj => ?_, fun b hb => ?_⟩, h.sb, fun j hj => update_of_ne hj ..,
    fun j hne hj o => ?_, fun b hb => h.frame b fun hm => absurd hm.1 (Nat.not_le.mpr hb)⟩
  · rw [h.sb, hR]; exact h.sb ▸ h.books
  · rw [h.sb] at hj
    rcases eq_or_ne j i with rfl | hne
    · rw [update_self]; exact (hc.fits j hi).emptied
    · rw [update_of_ne hne]; exact hc.fits j (hlive hj)
  · rw [h.sb] at hj
    rcases eq_or_ne j i with rfl | hne
    · rw [update_self]
      exact ⟨Nat.zero_le _, fun bn hbn => absurd hbn (Nat.not_lt_zero _)⟩
    · rw [update_of_ne hne]
      obtain ⟨h1, h2⟩ := hc.filled j (hlive hj)
      exact ⟨h1, fun bn hbn => by rw [ref_congr (hind (hlive hj))]; exact h2 bn hbn⟩
  · obtain ⟨h1, h2⟩ := hc.torn b ((h.torn b).elim (fun h => h ▸ hb) fun h => absurd h hb)
    have hb0 : b ≠ 0 := by rintro rfl; exact s.sb.not_isData_zero h1
    refine ⟨h.sb ▸ h1, fun j hj => ?_⟩
    rw [h.sb] at hj
    rcases eq_or_ne j i with rfl | hne
    · rw [update_self]
      exact ⟨hb0.symm, fun _ k => by rw [ref_empty (d := (D j).emptied) fun _ => rfl]; exact hb0.symm⟩
    · rw [update_of_ne hne]
      obtain ⟨h3, h4⟩ := h2 j (hlive hj)
      exact ⟨h3, fun ht k => by rw [ref_congr (hind (hlive hj))]; exact h4 ht k⟩
  · exact byteAt_congr (hind hj) fun h0 => hdata (hc.held hj h0).1

/-- What `itrunc` did: `u` is the state before the inode was written back. -/
structure Truncated (i : ℕ) (p : IPtr) (s : FS) (D : ℕ → Dinode) (u t : FS) : Prop where
  others : Others i s D u (update D i (D i).emptied)
  updated : Updated u t i (D i).emptied
  torn : ∀ b, t.torn b = s.torn b ∨ t.torn b = none
  itable : t.itable = s.tab p (D i).emptied

theorem Freeing.truncated (h : Freeing i s (refs s.sb s.disk D) t R') (hc : Core s.sb s.disk s.torn D)
    (hi : Live s.sb D i) (hinum : (s.itable p).inum = i)
    (htab : t.itable = s.tab p ((D i).withAddrs i R')) (hz : ∀ k, R' (i, k) = 0) :
    wp (do
      Fs.setD p (·.setSize 0)
      iupdate p) (fun _ t => ∃ u, Truncated i p s D u t) (fun _ => False) t := by
  have hempty : (t.itable p).d.setSize 0 = (D i).emptied := by
    rw [htab, FS.tab_self]
    exact Dinode.ext rfl rfl rfl rfl rfl fun j => hz (.dir j)
  have htab' : (t.setD p (D i).emptied).itable = s.tab p (D i).emptied := FS.tab_tab htab _
  rw [wp_bind, wp_setD, hempty]
  refine (iupdate_spec ?_ ?_).mono fun _ v hv => ⟨_, (h.others hc hi hz).setD p (D i).emptied, ?_,
    fun b => ?_, hv.itable.trans htab'⟩
  · rw [htab', FS.tab_self, Inode.withD_inum, hinum]; exact h.sb ▸ hi.1
  · rw [htab', FS.tab_self]; exact (hc.fits i hi).emptied
  · rw [htab', FS.tab_self, Inode.withD_inum, hinum] at hv; exact hv
  · rcases hv.torn b with h1 | h1
    · rw [h1]; exact h.torn b
    · exact Or.inr h1

/-- `itrunc` frees every block of the inode, finds none of them free, and writes the empty inode
    back. -/
theorem itrunc_spec (hc : Core s.sb s.disk s.torn D) (hi : Live s.sb D i) (hp : (s.itable p).d = D i)
    (hinum : (s.itable p).inum = i) :
    wp (itrunc p) (fun _ t => ∃ u, Truncated i p s D u t) (fun _ => False) s := by
  have hdir : (s.itable p).d = (D i).withAddrs i (refs s.sb s.disk D) := by
    rw [hp]
    exact Dinode.ext rfl rfl rfl rfl rfl fun j => (refs_of_live hi (.dir j)).symm
  rw [itrunc]
  refine (itruncDirect_spec _ hc.books hdir).bind fun _ t ht => ?_
  obtain ⟨R₁, hfree, htab, hz, hk⟩ := ht
  have hz : ∀ j, j ≠ IND → R₁ (i, .dir j) = 0 := fun j hj => hz j (List.mem_map.mpr
    ⟨j.castPred hj, List.mem_finRange _, Fin.castSucc_castPred ..⟩)
  have hk : ∀ k, (∀ j, j ≠ IND → k ≠ .dir j) → R₁ (i, k) = ref s.disk (D i) k := by
    intro k hne
    rw [hk k, refs_of_live hi]
    rintro j hj
    obtain ⟨m, -, rfl⟩ := List.mem_map.mp hj
    exact hne _ (Fin.castSucc_lt_last m).ne
  have hIND : R₁ (i, .dir IND) = (D i).addrs IND := hk _ fun j hj he => hj (Slot.dir.inj he).symm
  have hind : (t.itable p).d.addrs IND = (D i).addrs IND := by
    rw [htab, FS.tab_self]; exact hIND
  rw [wp_bind, wp_inode, hind]
  split
  · rename_i h0
    have hdata := (hc.held (k := .dir IND) hi h0).1
    have hbp : t.disk ((D i).addrs IND) = s.disk ((D i).addrs IND) := hfree.frame _ hdata.not_isMap
    simp only [wp_bind, wp_bread]
    refine (itruncIndirect_spec (i := i) (List.range NINDIRECT) List.nodup_range (fun j hj => ?_)
      hfree.books).mono fun _ u hu => ?_
    · have hj := List.mem_range.mp hj
      refine ⟨hj, ?_⟩
      rw [hk _ fun _ _ => by exact Slot.noConfusion, ref, indAt, if_neg h0, hbp]
    · obtain ⟨R₂, hfree₂, htab₂, hz₂, hk₂⟩ := hu
      have hIND₂ : R₂ (i, .dir IND) = (D i).addrs IND := by
        rw [hk₂ _ fun _ _ => by exact Slot.noConfusion, hIND]
      rw [← hIND₂] at h0 ⊢
      refine (bfree_slot hfree₂.books h0).mono fun _ v hv => ?_
      obtain ⟨hfree₃, htab₃⟩ := hv
      have hdirs : (D i).withAddrs i R₁ = (D i).withAddrs i R₂ :=
        Dinode.ext rfl rfl rfl rfl rfl fun j => (hk₂ (.dir j) fun _ _ => by exact Slot.noConfusion).symm
      have htab' : v.itable = s.tab p ((D i).withAddrs i R₂) := by rw [htab₃, htab₂, htab, hdirs]
      rw [wp_setD, htab', FS.tab_self, Inode.withD_d, Dinode.withAddrs_clear]
      refine wp_bind.mp ((((hfree.trans hfree₂).trans hfree₃).setD ..).truncated hc hi hinum
        (FS.tab_tab htab' _) fun k => ?_)
      cases k with
      | dir j =>
        rcases eq_or_ne j IND with rfl | hj
        · exact update_self ..
        · rw [update_of_ne fun he => hj (Slot.dir.inj (Prod.mk.inj he).2),
            hk₂ _ fun _ _ => by exact Slot.noConfusion, hz j hj]
      | ind m =>
        rw [update_of_ne fun he => Slot.noConfusion (Prod.mk.inj he).2, hz₂ m (List.mem_range.mpr m.isLt)]
  · rename_i h0
    refine wp_bind.mp (hfree.truncated hc hi hinum htab fun k => ?_)
    cases k with
    | dir j =>
      rcases eq_or_ne j IND with rfl | hj
      · rw [hIND]; exact not_not.mp h0
      · exact hz j hj
    | ind m => rw [hk _ fun _ _ => by exact Slot.noConfusion, ref, indAt, if_pos (not_not.mp h0)]

end Minios.Fs
