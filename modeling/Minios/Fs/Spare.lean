import Minios.Fs.Entries

/-! `kernel/fs.c`: how many blocks it takes to write a directory entry.

        needs     0   the block is there
                  1   the block
                  2   the block, and the indirect block to put its address in

    `spare` counts the blocks that the free map has. An entry never crosses the end of a block, so `writei` of one
    calls `bmap` once: it is written exactly when there are as many blocks as are needed, and that many are gone
    afterwards. -/

namespace Minios.Fs
open Schemes Function

variable {sb : Superblock} {disk disk' : Disk} {D : ℕ → Dinode} {i bn : ℕ} {s t : FS} {p : IPtr} {E : Panic → Prop}

/-- The blocks that are not in use. -/
def spares (sb : Superblock) (disk : Disk) : Finset ℕ := {b ∈ Finset.range sb.size | bitAt sb disk b = false}

def spare (s : FS) : ℕ := (spares s.sb s.disk).card

theorem mem_spares {b : ℕ} : b ∈ spares sb disk ↔ b < sb.size ∧ bitAt sb disk b = false := by
  rw [spares, Finset.mem_filter, Finset.mem_range]

theorem spares_congr (h : ∀ b, b < sb.size → bitAt sb disk' b = bitAt sb disk b) : spares sb disk' = spares sb disk := by
  ext b
  rw [mem_spares, mem_spares]
  exact and_congr_right fun hb => by rw [h b hb]

theorem Full.spare (h : Full s.sb s.disk) : spare s = 0 := by
  rw [Fs.spare, Finset.card_eq_zero, Finset.eq_empty_iff_forall_notMem]
  intro b hb
  obtain ⟨hlt, hbit⟩ := mem_spares.mp hb
  rw [h b hlt] at hbit
  cases hbit

theorem Allocated.spare {b : ℕ} (h : Allocated s t b) : spare s = spare t + 1 := by
  have hmem : b ∈ spares s.sb s.disk := mem_spares.mpr ⟨h.data.2, h.free⟩
  have herase : spares t.sb t.disk = (spares s.sb s.disk).erase b := by
    ext x
    rw [Finset.mem_erase, mem_spares, mem_spares, h.sb]
    constructor
    · rintro ⟨hx, hbit⟩
      have hno := mt (h.bits x hx).mpr (by rw [hbit]; exact Bool.false_ne_true)
      rw [not_or] at hno
      exact ⟨hno.2, hx, (Bool.not_eq_true _).mp hno.1⟩
    · rintro ⟨hne, hx, hbit⟩
      refine ⟨hx, (Bool.not_eq_true _).mp fun ht => ?_⟩
      rcases (h.bits x hx).mp ht with h1 | h1
      · rw [hbit] at h1; cases h1
      · exact hne h1
  rw [Fs.spare, Fs.spare, herase, Finset.card_erase_add_one hmem]

theorem spare_write {b : ℕ} (h : ¬ s.sb.IsMap b) (x : Block) : spare (s.write b x) = spare s := by
  refine congrArg Finset.card (spares_congr fun y hy => bitAt_congr (update_of_ne ?_ ..))
  exact fun he => h (he ▸ s.sb.isMap_bblock hy)

/-! ### `bmap` -/

/-- The blocks that `bmap` has to allocate. -/
def needs (disk : Disk) (d : Dinode) (bn : ℕ) : ℕ :=
  if ref disk d (slotOf bn) ≠ 0 then 0 else if bn < NDIRECT ∨ d.addrs IND ≠ 0 then 1 else 2

/-- What `bmap` did about blocks: it had as many as it needed, or it returned 0. -/
def Paid (s : FS) (n : ℕ) (r : ℕ) (t : FS) : Prop := (r ≠ 0 ∧ spare s = spare t + n) ∨ (r = 0 ∧ spare s < n)

theorem paid_balloc {R : ℕ × Slot → ℕ} (h : Books s.sb s.disk R) :
    wp balloc (fun r t => (r = 0 ∧ t = s ∧ spare s = 0) ∨ (r ≠ 0 ∧ Allocated s t r)) E s :=
  (balloc_spec h).total.mono fun _ _ hr => hr.imp (fun h => ⟨h.1, h.2.1, h.2.2.spare⟩) fun h => ⟨h.ne_zero, h⟩

theorem slotOf_direct (h : bn < NDIRECT) : slotOf bn = .dir ⟨bn, Nat.lt_succ_of_lt h⟩ := dif_pos h

theorem slotOf_indirect (hbn : bn < MAXFILE) (h : ¬ bn < NDIRECT) :
    ∃ hm : bn - NDIRECT < NINDIRECT, slotOf bn = .ind ⟨bn - NDIRECT, hm⟩ := by
  have hm : bn - NDIRECT < NINDIRECT := by simp only [MAXFILE] at hbn; omega
  refine ⟨hm, ?_⟩
  rw [slotOf, dif_neg h]
  simp only [Nat.mod_eq_of_lt hm]

theorem bmap_paid (hbn : bn < MAXFILE) (hc : Core s.sb s.disk s.torn D) (hi : Live s.sb D i)
    (hp : (s.itable p).d = D i) : wp (bmap p bn) (Paid s (needs s.disk (D i) bn)) E s := by
  rw [bmap]
  by_cases hd : bn < NDIRECT
  · rw [dif_pos hd, bmapDirect, wp_bind, wp_inode, hp]
    have href : ref s.disk (D i) (slotOf bn) = (D i).addrs ⟨bn, Nat.lt_succ_of_lt hd⟩ := by rw [slotOf_direct hd, ref]
    by_cases h0 : (D i).addrs ⟨bn, Nat.lt_succ_of_lt hd⟩ = 0
    · have hn : needs s.disk (D i) bn = 1 := by rw [needs, href, if_neg (not_not.mpr h0), if_pos (.inl hd)]
      rw [if_pos h0, hn]
      refine (paid_balloc hc.books).bind fun b t hb => ?_
      rcases hb with ⟨rfl, -, hz⟩ | ⟨hne, hb⟩
      · exact .inr ⟨rfl, by omega⟩
      · rw [if_neg hne]
        exact .inl ⟨hne, hb.spare⟩
    · have hn : needs s.disk (D i) bn = 0 := by rw [needs, href, if_pos h0]
      rw [if_neg h0, hn]
      exact .inl ⟨h0, rfl⟩
  · obtain ⟨hm, hslot⟩ := slotOf_indirect hbn hd
    have href : ref s.disk (D i) (slotOf bn) = indAt s.disk ((D i).addrs IND) (bn - NDIRECT) := by rw [hslot, ref]
    simp only [dif_neg hd, if_pos hm]
    rw [wp_bind, bmapDirect, wp_bind, wp_inode, hp]
    by_cases h0 : (D i).addrs IND = 0
    · -- neither block is there
      have hn : needs s.disk (D i) bn = 2 := by
        rw [needs, href, indAt, if_pos h0, if_neg (not_not.mpr rfl), if_neg]
        rintro (h | h)
        · exact hd h
        · exact h h0
      have hempty : refs s.sb s.disk D (i, .dir IND) = 0 := by rw [refs_of_live hi]; exact h0
      rw [if_pos h0, hn]
      refine (paid_balloc hc.books).bind fun b t hb => ?_
      rcases hb with ⟨rfl, rfl, hz⟩ | ⟨hne, hb⟩
      · exact .inr ⟨rfl, by omega⟩
      · rw [if_neg hne, wp_bind, wp_setD, wp_pure, if_neg hne, wp_bind, wp_bread]
        have hzero : getAddr ((t.setD p ((t.itable p).d.setAddr IND b)).disk b) (bn - NDIRECT) = 0 := by
          show getAddr (t.disk b) _ = 0
          rw [hb.zero]
          exact getLE_zero 4 _
        have hbooks : Books (t.setD p ((t.itable p).d.setAddr IND b)).sb (t.setD p ((t.itable p).d.setAddr IND b)).disk
            (update (refs s.sb s.disk D) (i, .dir IND) b) := by
          show Books t.sb t.disk _
          rw [hb.sb]
          exact hb.books hc.books hempty
        have hone : spare s = spare (t.setD p ((t.itable p).d.setAddr IND b)) + 1 := hb.spare
        have hdata : ¬ t.sb.IsMap b := by rw [hb.sb]; exact hb.data.not_isMap
        rw [if_pos hzero]
        refine (paid_balloc hbooks).bind fun c u hu => ?_
        rcases hu with ⟨rfl, -, hz⟩ | ⟨hne', hu⟩
        · rw [if_neg (not_not.mpr rfl)]
          exact .inr ⟨rfl, by omega⟩
        · rw [if_pos hne']
          refine .inl ⟨hne', ?_⟩
          rw [spare_write (by rw [hu.sb]; exact hdata), hone, hu.spare]
    · rw [if_neg h0, wp_pure, if_neg h0, wp_bind, wp_bread]
      by_cases hz : getAddr (s.disk ((D i).addrs IND)) (bn - NDIRECT) = 0
      · have hn : needs s.disk (D i) bn = 1 := by
          rw [needs, href, indAt, if_neg h0, if_neg (not_not.mpr hz), if_pos (.inr h0)]
        rw [if_pos hz, hn]
        refine (paid_balloc hc.books).bind fun b t hb => ?_
        rcases hb with ⟨rfl, -, hz⟩ | ⟨hne, hb⟩
        · rw [if_neg (not_not.mpr rfl)]
          exact .inr ⟨rfl, by omega⟩
        · rw [if_pos hne]
          have hmap : ¬ t.sb.IsMap ((D i).addrs IND) := by
            rw [hb.sb]
            exact (hc.held (k := .dir IND) hi h0).1.not_isMap
          exact .inl ⟨hne, by rw [spare_write hmap, hb.spare]⟩
      · have hn : needs s.disk (D i) bn = 0 := by rw [needs, href, indAt, if_neg h0, if_pos hz]
        rw [if_neg hz, hn]
        exact .inl ⟨hz, rfl⟩

/-! ### `writei` of an entry -/

variable {dp : IPtr} {k : ℕ}

theorem iupdate_spare (hi : (s.itable p).inum < s.sb.ninodes) : wp (iupdate p) (fun _ t => spare t = spare s) E s := by
  rw [iupdate, wp_bind, wp_get, wp_bind, wp_inode, wp_bind, wp_bread, wp_logWrite]
  refine spare_write (fun h => ?_) _
  have := s.sb.iblock_lt hi
  exact absurd h.1 (by omega)

/-- The blocks that it takes to write entry `k`. -/
def FS.needs (s : FS) (dp : IPtr) (k : ℕ) : ℕ := Fs.needs s.disk (s.itable dp).d (DESIZE * k / BSIZE)

/-- WRITTEN exactly when there are blocks for it. -/
theorem writeDirent_paid {de : Dirent} (hw : Wf s) (hp : Ready s dp)
    (hk : DESIZE * k ≤ (node s (s.itable dp).inum).size) (hmax : DESIZE * k + DESIZE ≤ MAXFILE * BSIZE) :
    wp (writeDirent dp (DESIZE * k) de) (fun r t =>
      (r = DESIZE ∧ spare s = spare t + s.needs dp k) ∨ (r ≠ DESIZE ∧ spare s < s.needs dp k)) E s := by
  have hi := hp.live hw
  have hd := hp.d hw
  have hinum := hp.lt hw
  have hsize := hp.size hw
  have hlt := MAXFILE_lt
  have hbn : DESIZE * k / BSIZE < MAXFILE := by simp only [MAXFILE, BSIZE, DESIZE] at hmax ⊢; omega
  rw [writeDirent, writei, wp_bind, wp_inode, if_neg (by rw [Nat.mod_eq_of_lt (by omega)]; omega),
    if_neg (by rw [Nat.mod_eq_of_lt (by omega)]; omega), wp_bind]
  show wp (writeiLoop dp _ DESIZE (15 + 1) (DESIZE * k) 0) _ _ s
  rw [writeiLoop, if_pos (by decide)]
  refine (((bmap_spec hbn hw.core hi hd).total).and (bmap_paid (E := E) hbn hw.core hi hd)).bind ?_
  rintro addr t ⟨hmap, hpaid⟩
  obtain ⟨D', hmap, haddr, -⟩ := hmap
  have htinum : (t.itable dp).inum = (s.itable dp).inum := by rw [hmap.itable, FS.tab_self]; rfl
  have hneeds : s.needs dp k = needs s.disk (dinode s (s.itable dp).inum) (DESIZE * k / BSIZE) := by rw [FS.needs, hd]
  rw [← hneeds] at hpaid
  rcases hpaid with ⟨hne, hpaid⟩ | ⟨rfl, hfew⟩
  · have hdata : ¬ t.sb.IsMap addr := by
      have hheld := hmap.core.held (hmap.live hi) (by rw [← haddr]; exact hne)
      rw [← haddr] at hheld
      exact hheld.1.not_isMap
    have hm : min (DESIZE - 0) (BSIZE - DESIZE * k % BSIZE) = DESIZE := by simp only [BSIZE, DESIZE]; omega
    have hlen : (copyin (fun j => de.encode[j]?) 0 DESIZE).length = DESIZE := by
      rw [copyin_of_mapped fun j hj => by rw [Nat.zero_add]; exact mapped_encode de j hj, length_slice]
    rw [if_neg hne, wp_bind, wp_bread, hm, if_pos hlen, wp_bind, wp_logWrite, writeiLoop, if_neg (by decide)]
    show wp (do let ip ← inode dp; _) _ _ _
    rw [wp_bind, wp_inode]
    -- with or without a new size, the inode goes back to the disk
    have hend : ∀ u : FS, spare u = spare t → (u.itable dp).inum = (s.itable dp).inum → u.sb = s.sb →
        wp (do iupdate dp; return ((0 + DESIZE : ℕ) : ℤ)) (fun r v => (r = DESIZE ∧ spare s = spare v + s.needs dp k) ∨
          (r ≠ DESIZE ∧ spare s < s.needs dp k)) E u := fun u hu hui husb =>
      (iupdate_spare (by rw [hui, husb]; exact hinum)).bind fun _ v hv => .inl ⟨rfl, by rw [hv, hu, hpaid]⟩
    refine wp_ite.mpr ⟨fun _ => ?_, fun _ => ?_⟩
    · rw [wp_bind, wp_setD]
      exact hend _ (spare_write hdata _) (by rw [FS.setD_self]; exact htinum) hmap.sb
    · exact hend _ (spare_write hdata _) htinum hmap.sb
  · rw [if_pos rfl]
    show wp (do let ip ← inode dp; _) _ _ t
    rw [wp_bind, wp_inode]
    have hts : (t.itable dp).d.size = (s.itable dp).d.size := by rw [hmap.entry, hmap.like.size, hd]
    rw [if_neg (by rw [hts]; omega)]
    refine (iupdate_spare (by rw [htinum, hmap.sb]; exact hinum)).bind fun _ v hv => .inr ⟨?_, hfew⟩
    decide

/-- ROOM: an entry is written exactly when the file may be that large and there are blocks for it. -/
theorem writeDirent_room {de : Dirent} (hw : Wf s) (hp : Ready s dp)
    (hk : DESIZE * k ≤ (node s (s.itable dp).inum).size) :
    wp (writeDirent dp (DESIZE * k) de) (fun r t =>
      (r = DESIZE → DESIZE * k + DESIZE ≤ MAXFILE * BSIZE ∧ spare s = spare t + s.needs dp k) ∧
      (r ≠ DESIZE → MAXFILE * BSIZE < DESIZE * k + DESIZE ∨ spare s < s.needs dp k)) E s := by
  rcases Nat.lt_or_ge (MAXFILE * BSIZE) (DESIZE * k + DESIZE) with hlarge | hmax
  · have hlt := MAXFILE_lt
    have hle := hp.size_le hw
    have hsize := hp.size hw
    rw [writeDirent, writei, wp_bind, wp_inode]
    refine wp_ite.mpr ⟨fun _ => ?_, fun _ => ?_⟩
    · exact ⟨fun h => absurd h (by decide), fun _ => .inl hlarge⟩
    · rw [if_pos (by rw [Nat.mod_eq_of_lt (by simp only [DESIZE] at *; omega)]; exact hlarge)]
      exact ⟨fun h => absurd h (by decide), fun _ => .inl hlarge⟩
  · refine (writeDirent_paid hw hp hk hmax).mono fun r t ht => ?_
    rcases ht with ⟨hr, hpaid⟩ | ⟨hr, hfew⟩
    · exact ⟨fun _ => ⟨hmax, hpaid⟩, fun h => absurd hr h⟩
    · exact ⟨fun h => absurd h hr, fun _ => .inr hfew⟩

/-! ### A bound -/

/-- The number of block addresses of an inode. -/
abbrev SLOTS : ℕ := NDIRECT + 1 + NINDIRECT

def slots : Finset Slot := Finset.univ.image Slot.dir ∪ Finset.univ.image Slot.ind

theorem mem_slots : ∀ k : Slot, k ∈ slots
  | .dir _ => Finset.mem_union_left _ (Finset.mem_image_of_mem _ (Finset.mem_univ _))
  | .ind _ => Finset.mem_union_right _ (Finset.mem_image_of_mem _ (Finset.mem_univ _))

theorem card_slots : slots.card ≤ SLOTS := by
  have hd : (Finset.univ.image Slot.dir).card ≤ NDIRECT + 1 := Finset.card_image_le.trans_eq (Finset.card_fin _)
  have hi : (Finset.univ.image Slot.ind).card ≤ NINDIRECT := Finset.card_image_le.trans_eq (Finset.card_fin _)
  exact (Finset.card_union_le _ _).trans (Nat.add_le_add hd hi)

/-- The inodes that are allocated. -/
def allocated (s : FS) : Finset ℕ := {i ∈ Finset.range s.sb.ninodes | (node s i).type ≠ 0}

theorem spare_ge (hw : Wf s) : s.sb.size ≤ s.sb.nmeta + SLOTS * (allocated s).card + spare s := by
  have hcover : Finset.range s.sb.size ⊆ Finset.range s.sb.nmeta ∪
      (allocated s ×ˢ slots).image (refs s.sb s.disk (dinode s)) ∪ spares s.sb s.disk := by
    intro b hb
    rw [Finset.mem_range] at hb
    rw [Finset.mem_union, Finset.mem_union, Finset.mem_range, Finset.mem_image]
    rcases Nat.lt_or_ge b s.sb.nmeta with hlt | hge
    · exact .inl (.inl hlt)
    cases hbit : bitAt s.sb s.disk b with
    | false => exact .inr (mem_spares.mpr ⟨hb, hbit⟩)
    | true =>
      obtain ⟨⟨i, k⟩, hik⟩ := hw.core.books.ledger.noLeak b ⟨hge, hb⟩ hbit
      refine .inl (.inr ⟨(i, k), Finset.mem_product.mpr ⟨?_, mem_slots k⟩, hik⟩)
      have hpos := s.sb.nmeta_pos
      have hlive : i < s.sb.ninodes ∧ (dinode s i).type ≠ 0 := by
        by_contra hno
        rw [refs, if_neg hno] at hik
        omega
      rw [allocated, Finset.mem_filter, Finset.mem_range, node_type]
      exact hlive
  have hcard := Finset.card_le_card hcover
  have h1 := Finset.card_union_le (Finset.range s.sb.nmeta ∪
    (allocated s ×ˢ slots).image (refs s.sb s.disk (dinode s))) (spares s.sb s.disk)
  have h2 := Finset.card_union_le (Finset.range s.sb.nmeta) ((allocated s ×ˢ slots).image (refs s.sb s.disk (dinode s)))
  have h3 : ((allocated s ×ˢ slots).image (refs s.sb s.disk (dinode s))).card ≤ SLOTS * (allocated s).card :=
    calc _ ≤ (allocated s ×ˢ slots).card := Finset.card_image_le
      _ = (allocated s).card * slots.card := Finset.card_product ..
      _ ≤ (allocated s).card * SLOTS := Nat.mul_le_mul_left _ card_slots
      _ = SLOTS * (allocated s).card := Nat.mul_comm ..
  rw [Finset.card_range] at hcard h2
  rw [spare]
  omega

theorem needs_le (s : FS) (dp : IPtr) (k : ℕ) : s.needs dp k ≤ 2 := by
  rw [FS.needs, Fs.needs]
  split
  · omega
  · split <;> omega

end Minios.Fs
