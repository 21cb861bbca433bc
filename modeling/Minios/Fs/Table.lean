import Minios.Fs.Files

/-! `kernel/fs.c`: the inode table.

    References are counted: `H k` is how many references to entry `k` others hold while a function
    works with its own. What a function does to entries it does not hold is said in terms of `H`:
    an entry with `0 < H k` keeps its inode number, and its inode is not freed. -/

namespace Minios.Fs
open Schemes Function

variable {D D' : ℕ → Dinode} {i j : ℕ} {p : IPtr} {s t u : FS} {H : IPtr → ℕ}

/-- Reference count of a table entry. -/
abbrev rc (s : FS) (k : IPtr) : ℕ := (s.itable k).ref

/-- `H` and one more reference to `p`. -/
def plus (H : IPtr → ℕ) (p : IPtr) : IPtr → ℕ := fun k => H k + if k = p then 1 else 0

/-- Entries that others hold stay what they are, and so do the types of their inodes. -/
def Keep (H : IPtr → ℕ) (s t : FS) : Prop := ∀ k, 0 < H k → (t.itable k).inum = (s.itable k).inum ∧
  ((s.itable k).valid = true → (t.itable k).valid = true ∧
    (node t (s.itable k).inum).type = (node s (s.itable k).inum).type)

theorem Keep.refl (H : IPtr → ℕ) (s : FS) : Keep H s s := fun _ _ => ⟨rfl, fun h => ⟨h, rfl⟩⟩

theorem Keep.trans (h : Keep H s t) (h' : Keep H t u) : Keep H s u := by
  intro k hk
  obtain ⟨h1, h2⟩ := h k hk
  obtain ⟨h3, h4⟩ := h' k hk
  rw [h1] at h3 h4
  exact ⟨h3, fun hv => ⟨(h4 (h2 hv).1).1, (h4 (h2 hv).1).2.trans (h2 hv).2⟩⟩

/-- A change to the table only. -/
structure Quiet (s t : FS) : Prop where
  sb : t.sb = s.sb
  disk : t.disk = s.disk
  torn : t.torn = s.torn

theorem Quiet.dinode (h : Quiet s t) : dinode t = dinode s := dinode_low h.sb fun _ _ => by rw [h.disk]

theorem Quiet.node (h : Quiet s t) : node t = node s := by
  funext j
  rw [Fs.node, Fs.node, h.dinode, h.disk]

theorem Quiet.core (h : Quiet s t) (hw : Wf s) : Core t.sb t.disk t.torn (Fs.dinode t) := by
  rw [h.dinode, h.sb, h.disk, h.torn]
  exact hw.core

theorem Quiet.keep (h : Quiet s t) (htab : ∀ k, 0 < H k → (t.itable k).inum = (s.itable k).inum ∧
    ((s.itable k).valid = true → (t.itable k).valid = true)) : Keep H s t :=
  fun k hk => ⟨(htab k hk).1, fun hv => ⟨(htab k hk).2 hv, by rw [h.node]⟩⟩

theorem Wf.retable (hw : Wf s) (h : Quiet s t) (htab : ∀ k, 0 < rc t k →
    0 < rc s k ∧ (t.itable k).inum = (s.itable k).inum ∧ ((t.itable k).valid = true →
      (t.itable k).d = dinode s (s.itable k).inum ∧ (dinode s (s.itable k).inum).type ≠ 0)) : Wf t := by
  refine ⟨h.core hw, fun k hk => ?_, fun j k hj hk he => ?_, fun k hk hv => ?_⟩
  · obtain ⟨h1, h2, -⟩ := htab k hk
    rw [h.sb, h2]; exact hw.inum_lt k h1
  · obtain ⟨h1, h2, -⟩ := htab j hj
    obtain ⟨h3, h4, -⟩ := htab k hk
    exact hw.uniq j k h1 h3 (h2.symm.trans (he.trans h4))
  · obtain ⟨-, h2, h3⟩ := htab k hk
    rw [h2, h.dinode]; exact h3 hv

theorem FS.setInode_self (s : FS) (p : IPtr) (ip : Inode) : (s.setInode p ip).itable p = ip := update_self ..

theorem FS.setInode_ne (s : FS) {p k : IPtr} (h : k ≠ p) (ip : Inode) :
    (s.setInode p ip).itable k = s.itable k :=
  update_of_ne h ..

theorem Wf.setInode (hw : Wf s) {ip : Inode} (href : 0 < ip.ref → 0 < rc s p)
    (hinum : ip.inum = (s.itable p).inum) (hsync : 0 < ip.ref → ip.valid = true →
      ip.d = dinode s (s.itable p).inum ∧ (dinode s (s.itable p).inum).type ≠ 0) :
    Wf (s.setInode p ip) := by
  refine hw.retable ⟨rfl, rfl, rfl⟩ fun k hk => ?_
  rcases eq_or_ne k p with rfl | hne
  · rw [rc, FS.setInode_self] at hk
    rw [FS.setInode_self]
    exact ⟨href hk, hinum, hsync hk⟩
  · rw [rc, FS.setInode_ne _ hne] at hk
    rw [FS.setInode_ne _ hne]
    exact ⟨hk, rfl, hw.sync k hk⟩

theorem rc_setInode (s : FS) (p : IPtr) (ip : Inode) : rc (s.setInode p ip) = update (rc s) p ip.ref := by
  funext k
  rcases eq_or_ne k p with rfl | hne
  · rw [rc, FS.setInode_self, update_self]
  · rw [rc, FS.setInode_ne _ hne, update_of_ne hne]

theorem keep_setInode {ip : Inode} (hinum : ip.inum = (s.itable p).inum)
    (hvalid : (s.itable p).valid = true → ip.valid = true) : Keep H s (s.setInode p ip) := by
  refine Quiet.keep ⟨rfl, rfl, rfl⟩ fun k _ => ?_
  rcases eq_or_ne k p with rfl | hne
  · rw [FS.setInode_self]; exact ⟨hinum, hvalid⟩
  · rw [FS.setInode_ne _ hne]; exact ⟨rfl, id⟩

/-! ### `iget` and `idup` -/

/-- What `iget` did. -/
structure Got (s : FS) (i : ℕ) (k : IPtr) (t : FS) : Prop where
  wf : Wf t
  quiet : Quiet s t
  inum : (t.itable k).inum = i
  ref : rc t = plus (rc s) k
  keep : Keep (rc s) s t
  fresh : rc s k = 0 → (t.itable k).valid = false

theorem update_plus {k : IPtr} {n : ℕ} (h : n = H k + 1) : update H k n = plus H k := by
  funext j
  rw [plus]
  rcases eq_or_ne j k with rfl | hne
  · rw [update_self, if_pos rfl, h]
  · rw [update_of_ne hne, if_neg hne, Nat.add_zero]

theorem got_again (hw : Wf s) {k : IPtr} (hk : 0 < rc s k) :
    Got s (s.itable k).inum k (s.setInode k ((s.itable k).setRef ((s.itable k).ref + 1))) where
  wf := hw.setInode (fun _ => hk) rfl fun _ hv => hw.sync k hk hv
  quiet := ⟨rfl, rfl, rfl⟩
  inum := by rw [FS.setInode_self]; rfl
  ref := by rw [rc_setInode]; exact update_plus rfl
  keep := keep_setInode rfl id
  fresh h := absurd h (Nat.pos_iff_ne_zero.mp hk)

theorem got_first (hw : Wf s) {k : IPtr} (hk : rc s k = 0) (hi : i < s.sb.ninodes)
    (hnone : ∀ j, 0 < rc s j → (s.itable j).inum ≠ i) :
    Got s i k (s.setInode k ((s.itable k).recycle i)) := by
  have hother : ∀ j, 0 < rc s j → (s.setInode k ((s.itable k).recycle i)).itable j = s.itable j := by
    intro j hj
    exact FS.setInode_ne _ (by rintro rfl; omega) _
  have hold : ∀ j, j ≠ k → 0 < rc (s.setInode k ((s.itable k).recycle i)) j → 0 < rc s j := by
    intro j hne hj
    rwa [rc, FS.setInode_ne _ hne] at hj
  refine ⟨⟨hw.core, fun j hj => ?_, fun j m hj hm he => ?_, fun j hj hv => ?_⟩, ⟨rfl, rfl, rfl⟩, ?_, ?_,
    Quiet.keep ⟨rfl, rfl, rfl⟩ fun j hj => by rw [hother j hj]; exact ⟨rfl, id⟩, fun _ => ?_⟩
  · rcases eq_or_ne j k with rfl | hne
    · rw [FS.setInode_self]; exact hi
    · rw [hother j (hold j hne hj)]; exact hw.inum_lt j (hold j hne hj)
  · rcases eq_or_ne j k with rfl | hjk <;> rcases eq_or_ne m j with rfl | hmj
    · rfl
    · rw [FS.setInode_self, hother m (hold m hmj hm)] at he
      exact absurd he.symm (hnone m (hold m hmj hm))
    · rfl
    · rw [hother j (hold j hjk hj)] at he
      rcases eq_or_ne m k with rfl | hmk
      · rw [FS.setInode_self] at he
        exact absurd he (hnone j (hold j hjk hj))
      · rw [hother m (hold m hmk hm)] at he
        exact hw.uniq j m (hold j hjk hj) (hold m hmk hm) he
  · rcases eq_or_ne j k with rfl | hne
    · rw [FS.setInode_self] at hv; cases hv
    · rw [hother j (hold j hne hj)] at hv ⊢
      exact hw.sync j (hold j hne hj) hv
  · rw [FS.setInode_self]; rfl
  · rw [rc_setInode]; exact update_plus (by rw [hk]; rfl)
  · rw [FS.setInode_self]; rfl

theorem iget_spec (hw : Wf s) (hi : i < s.sb.ninodes) :
    wp (iget i) (fun k t => Got s i k t) (fun e => e = .igetNoInodes) s := by
  rw [iget, wp_bind, wp_get]
  split
  · rename_i k hk
    obtain ⟨hpos, rfl⟩ : 0 < rc s k ∧ (s.itable k).inum = i := by simpa using List.find?_some hk
    rw [wp_bind, wp_setInode, wp_pure]
    exact got_again hw hpos
  · rename_i hnone
    have hnone : ∀ k, 0 < rc s k → (s.itable k).inum ≠ i := by simpa using hnone
    split
    · rename_i k hk
      have hk : rc s k = 0 := by simpa using List.find?_some hk
      rw [wp_bind, wp_setInode, wp_pure]
      exact got_first hw hk hi hnone
    · rfl

theorem idup_spec (hw : Wf s) (hp : 0 < rc s p) :
    wp (idup p) (fun k t => k = p ∧ Got s (s.itable p).inum p t) (fun _ => False) s := by
  rw [idup, wp_bind, wp_inode, wp_bind, wp_setInode, wp_pure]
  exact ⟨rfl, got_again hw hp⟩

/-! ### `ilock` and `iunlock` -/

/-- What `ilock` did. -/
structure Locked (s : FS) (p : IPtr) (t : FS) : Prop where
  wf : Wf t
  quiet : Quiet s t
  ready : Ready t p
  ref : rc t = rc s
  keep : ∀ H, Keep H s t

theorem locked_setInode (hw : Wf s) (hp : 0 < rc s p) {ip : Inode} (href : ip.ref = (s.itable p).ref)
    (hinum : ip.inum = (s.itable p).inum) (hvalid : ip.valid = true)
    (hd : ip.d = dinode s (s.itable p).inum) (htype : ip.d.type ≠ 0) : Locked s p (s.setInode p ip) where
  wf := hw.setInode (fun _ => hp) hinum fun _ _ => ⟨hd, hd ▸ htype⟩
  quiet := ⟨rfl, rfl, rfl⟩
  ready := ⟨by rw [FS.setInode_self, href]; exact hp, by rw [FS.setInode_self]; exact hvalid⟩
  ref := by rw [rc_setInode, href]; exact update_eq_self ..
  keep _ := keep_setInode hinum fun _ => hvalid

/-- `ilock` panics with `no type` only for an inode that is not allocated. -/
theorem ilock_spec (hw : Wf s) (hp : 0 < rc s p) : wp (ilock p) (fun _ t => Locked s p t)
    (fun e => e = .blocked ∨ e = .ilockNoType ∧ (node s (s.itable p).inum).type = 0) s := by
  rw [ilock, wp_bind, wp_inode]
  simp only [if_neg (Nat.not_lt.mpr hp)]
  split
  · exact Or.inl rfl
  · split
    · rename_i hv
      obtain ⟨h1, h2⟩ := hw.sync p hp hv
      exact locked_setInode hw hp rfl rfl hv h1 (by rw [Inode.setLocked]; exact h1 ▸ h2)
    · simp only [wp_bind, wp_get, wp_bread, wp_setInode]
      have hd := dinode_of_lt (hw.inum_lt p hp)
      rw [← hd]
      split
      · rename_i h0
        exact Or.inr ⟨rfl, by rw [node_type]; exact h0⟩
      · rename_i h0
        exact locked_setInode hw hp rfl rfl rfl rfl h0

theorem iunlock_spec (hw : Wf s) (hp : Ready s p) :
    wp (iunlock p) (fun _ t => Locked s p t) (fun e => e = .iunlock ∧ (s.itable p).locked = false) s := by
  rw [iunlock, wp_bind, wp_inode]
  split
  · rename_i h
    exact ⟨rfl, (Bool.not_eq_true _).mp (h.resolve_right (Nat.not_lt.mpr hp.ref))⟩
  · obtain ⟨h1, h2⟩ := hw.sync p hp.ref hp.valid
    exact locked_setInode hw hp.ref rfl rfl hp.valid h1 (by rw [Inode.setLocked]; exact h1 ▸ h2)

/-! ### `iput` -/

/-- What `iput` did, others holding `H`: it dropped a reference, and freed the inode if that was the
    last one, the inode had been read and had no links. -/
structure PutDone (H : IPtr → ℕ) (s : FS) (p : IPtr) (t : FS) : Prop where
  wf : Wf t
  sb : t.sb = s.sb
  ref : rc t = H
  keep : Keep H s t
  node : node t = if H p = 0 ∧ (s.itable p).valid = true ∧ (node s (s.itable p).inum).nlink = 0 then
    update (node s) (s.itable p).inum .free else node s
  other : ∀ j, (dinode t j).type ≠ 0 → dinode t j = dinode s j

/-- An inode has been freed: its entry is not in use any more, the other entries are the same. -/
theorem Wf.dropped (hw : Wf s) (hp : 0 < rc s p) (hcore : Core t.sb t.disk t.torn (dinode t))
    (hsb : t.sb = s.sb) (hD : ∀ j, j ≠ (s.itable p).inum → dinode t j = dinode s j)
    (htab : ∀ k, k ≠ p → t.itable k = s.itable k) (hzero : rc t p = 0) : Wf t := by
  have hne : ∀ {k}, 0 < rc t k → k ≠ p ∧ 0 < rc s k := by
    intro k hk
    have : k ≠ p := by rintro rfl; omega
    exact ⟨this, by rwa [rc, htab k this] at hk⟩
  refine ⟨hcore, fun k hk => ?_, fun j k hj hk he => ?_, fun k hk hv => ?_⟩
  · obtain ⟨h1, h2⟩ := hne hk
    rw [htab k h1, hsb]; exact hw.inum_lt k h2
  · obtain ⟨h1, h2⟩ := hne hj
    obtain ⟨h3, h4⟩ := hne hk
    rw [htab j h1, htab k h3] at he
    exact hw.uniq j k h2 h4 he
  · obtain ⟨h1, h2⟩ := hne hk
    rw [htab k h1] at hv ⊢
    rw [hD _ fun he => h1 (hw.uniq k p h2 hp he)]
    exact hw.sync k h2 hv

/-- What is left when an inode has been truncated and marked free. -/
structure InodeFreed (s : FS) (p : IPtr) (t : FS) : Prop where
  core : Core t.sb t.disk t.torn (dinode t)
  sb : t.sb = s.sb
  other : ∀ j, j ≠ (s.itable p).inum → dinode t j = dinode s j
  tab : ∀ k, k ≠ p → t.itable k = s.itable k
  ref : (t.itable p).ref = (s.itable p).ref
  node : node t = update (node s) (s.itable p).inum .free

theorem Core.setFree {d : Dinode} (hc : Core s.sb s.disk s.torn D) (hi : D i = d) (hfits : d.Fits)
    (haddrs : ∀ j, d.addrs j = 0) : Core s.sb s.disk s.torn (update D i (d.setType 0)) := by
  subst hi
  refine hc.setDinode ⟨Nat.two_pow_pos 16, hfits.major, hfits.minor, hfits.nlink, hfits.size, hfits.addrs⟩
    (fun k => ?_) (fun _ h => absurd rfl h) fun h => absurd (show (0 : ℕ) = T_DIR from h) (by decide)
  have h0 : refs s.sb s.disk D (i, k) = 0 := by
    rw [refs, ref_empty haddrs, ite_self]
  rw [h0, refs, if_neg fun h => h.2 (by rw [update_self]; rfl)]

/-- `ip->type = 0; iupdate(ip);` for an inode without blocks. -/
theorem setType_free (hcore : Core s.sb s.disk s.torn (dinode s)) (hi : (s.itable p).inum < s.sb.ninodes)
    (hd : (s.itable p).d = dinode s (s.itable p).inum) (haddrs : ∀ j, (s.itable p).d.addrs j = 0) :
    wp (do setD p (·.setType 0); iupdate p) (fun _ t => Core t.sb t.disk t.torn (dinode t) ∧
      t.sb = s.sb ∧ dinode t = update (dinode s) (s.itable p).inum ((s.itable p).d.setType 0) ∧
      t.itable = s.tab p ((s.itable p).d.setType 0) ∧
      node t = update (node s) (s.itable p).inum .free) (fun _ => False) s := by
  have hfits : (s.itable p).d.Fits := by rw [hd, dinode_of_lt hi]; exact getDinode_fits ..
  have hfits' : ((s.itable p).d.setType 0).Fits :=
    ⟨Nat.two_pow_pos 16, hfits.major, hfits.minor, hfits.nlink, hfits.size, hfits.addrs⟩
  have hothers : Others (s.itable p).inum s (dinode s) (s.setD p ((s.itable p).d.setType 0))
      (update (dinode s) (s.itable p).inum ((s.itable p).d.setType 0)) :=
    ⟨hcore.setFree hd.symm hfits haddrs, rfl, fun j hj => update_of_ne hj .., fun _ _ _ _ => rfl,
      fun _ _ => rfl⟩
  rw [wp_bind, wp_setD]
  refine (iupdate_spec ?_ ?_).mono fun _ t ht => ?_
  · rw [FS.setD_self]; exact hi
  · rw [FS.setD_self]; exact hfits'
  · have hu : Updated (s.setD p ((s.itable p).d.setType 0)) t (s.itable p).inum
        (update (dinode s) (s.itable p).inum ((s.itable p).d.setType 0) (s.itable p).inum) := by
      rw [FS.setD_self] at ht
      rw [update_self]
      exact ht
    refine ⟨hothers.core_updated hu, hu.sb, hothers.updated hu, hu.itable, ?_⟩
    rw [hothers.node_eq hu hi, update_self, nodeOf_free rfl]

theorem iputFree_spec (hw : Wf s) (hp : Ready s p) :
    wp (iputFree p) (fun _ t => InodeFreed s p t) (fun e => e = .blocked ∧ (s.itable p).locked = true) s := by
  rw [iputFree, wp_bind, wp_inode]
  split
  · rename_i h
    exact ⟨rfl, h⟩
  rw [wp_bind, wp_setInode]
  have hlock : Locked s p (s.setInode p ((s.itable p).setLocked true)) :=
    locked_setInode hw hp.ref rfl rfl hp.valid (hp.d hw) (by rw [Inode.setLocked, hp.d hw]; exact hp.type hw)
  have hentry := FS.setInode_self s p ((s.itable p).setLocked true)
  have htab := fun k (hk : k ≠ p) => FS.setInode_ne s hk ((s.itable p).setLocked true)
  generalize s.setInode p ((s.itable p).setLocked true) = s₁ at hlock hentry htab ⊢
  have hinum : (s₁.itable p).inum = (s.itable p).inum := by rw [hentry]; rfl
  have hlive := hlock.ready.live hlock.wf
  refine (itrunc_spec hlock.wf.core hlive (hlock.ready.d hlock.wf) rfl).total.bind ?_
  rintro _ t ⟨u, ht⟩
  -- after `itrunc`: inode and table entry are empty
  have hu : Updated u t (s₁.itable p).inum (update (dinode s₁) (s₁.itable p).inum
      (dinode s₁ (s₁.itable p).inum).emptied (s₁.itable p).inum) := by rw [update_self]; exact ht.updated
  have hD := ht.others.updated hu
  have hsb : t.sb = s₁.sb := ht.updated.sb.trans ht.others.sb
  have hentry₁ : t.itable p = (s₁.itable p).withD (dinode s₁ (s₁.itable p).inum).emptied := by
    rw [ht.itable, FS.tab_self]
  have hinum₁ : (t.itable p).inum = (s₁.itable p).inum := by rw [hentry₁]; rfl
  have hd : (t.itable p).d = dinode t (t.itable p).inum := by rw [hinum₁, hD, update_self, hentry₁]; rfl
  have hfree := setType_free (ht.others.core_updated hu) (by rw [hinum₁, hsb]; exact hlive.1) hd
    (by rw [hentry₁]; exact fun _ => rfl)
  rw [wp_bind] at hfree ⊢
  rw [wp_setD] at hfree ⊢
  refine hfree.total.bind fun _ v hv => ?_
  obtain ⟨hcore, hsb', hD', htab', hnode⟩ := hv
  simp only [wp_bind, wp_inode, wp_setInode]
  have hentry₂ := FS.tab_self t p ((t.itable p).d.setType 0)
  rw [← htab'] at hentry₂
  rw [hinum₁, hinum] at hD' hnode
  have hquiet : Quiet v (v.setInode p ((v.itable p).invalidate.setLocked false)) := ⟨rfl, rfl, rfl⟩
  refine ⟨?_, (hsb'.trans hsb).trans hlock.quiet.sb, fun j hj => ?_, fun k hk => ?_, ?_, ?_⟩
  · rw [hquiet.dinode]; exact hcore
  · rw [hquiet.dinode, hD', update_of_ne hj, hD, hinum, update_of_ne hj, hlock.quiet.dinode]
  · rw [FS.setInode_ne _ hk, htab', FS.tab_ne _ hk, ht.itable, FS.tab_ne _ hk, htab k hk]
  · rw [FS.setInode_self, hentry₂, hentry₁, hentry]; rfl
  · rw [hquiet.node, hnode, ht.others.node_eq hu hlive.1, hinum, update_idem, hlock.quiet.node]

theorem iput_spec (hw : Wf s) (href : rc s = plus H p) :
    wp (iput p) (fun _ t => PutDone H s p t) (fun e => e = .blocked ∧ (s.itable p).locked = true) s := by
  have hp : (s.itable p).ref = H p + 1 := by
    have := congrFun href p
    rwa [plus, if_pos rfl] at this
  have hpos : 0 < rc s p := by rw [rc, hp]; omega
  have hother : ∀ k, k ≠ p → rc s k = H k := fun k hk => by rw [href, plus, if_neg hk, Nat.add_zero]
  have hlinks : (s.itable p).valid = true → ((s.itable p).d.nlink = 0 ↔ (node s (s.itable p).inum).nlink = 0) :=
    fun hv => by rw [Ready.node hw ⟨hpos, hv⟩]
  rw [iput, wp_bind, wp_inode]
  split
  · rename_i hlast
    obtain ⟨hone, hvalid, hnlink⟩ := hlast
    have hready : Ready s p := ⟨hpos, hvalid⟩
    have hH : H p = 0 := by omega
    refine (iputFree_spec hw hready).bind fun _ t ht => ?_
    simp only [wp_bind, wp_inode, wp_setInode, ht.ref, hone]
    have hquiet : Quiet t (t.setInode p ((t.itable p).setRef (1 - 1))) := ⟨rfl, rfl, rfl⟩
    have hrc : rc (t.setInode p ((t.itable p).setRef (1 - 1))) = H := by
      funext k
      rcases eq_or_ne k p with rfl | hk
      · rw [rc, FS.setInode_self, hH]; rfl
      · rw [rc, FS.setInode_ne _ hk, ht.tab k hk, ← hother k hk]
    have htab : ∀ k, k ≠ p → (t.setInode p ((t.itable p).setRef (1 - 1))).itable k = s.itable k :=
      fun k hk => by rw [FS.setInode_ne _ hk, ht.tab k hk]
    refine ⟨hw.dropped hpos ?_ ht.sb (fun j hj => ?_) htab (by rw [hrc, hH]), ht.sb, hrc, fun k hk => ?_, ?_,
      fun j hj => ?_⟩
    · rw [hquiet.dinode]; exact ht.core
    · rw [hquiet.dinode, ht.other j hj]
    · have hk' : k ≠ p := by rintro rfl; omega
      rw [htab k hk', hquiet.node, ht.node, update_of_ne fun he => hk' (hw.uniq k p (lt_of_lt_of_eq hk (hother k hk').symm) hpos he)]
      exact ⟨rfl, fun hv => ⟨hv, rfl⟩⟩
    · rw [if_pos ⟨hH, hvalid, (hlinks hvalid).mp hnlink⟩, hquiet.node, ht.node]
    · rw [hquiet.dinode] at hj ⊢
      refine ht.other j ?_
      rintro rfl
      rw [← node_type, ht.node, update_self] at hj
      exact hj rfl
  · rename_i hlast
    simp only [wp_bind, wp_inode, wp_setInode]
    refine ⟨hw.setInode (fun _ => hpos) rfl fun _ hv => hw.sync p hpos hv, rfl, ?_,
      keep_setInode rfl id, ?_, fun _ _ => rfl⟩
    · rw [rc_setInode]
      funext k
      rcases eq_or_ne k p with rfl | hk
      · rw [update_self, Inode.setRef, hp]; rfl
      · rw [update_of_ne hk, hother k hk]
    · rw [if_neg]
      · rfl
      · rintro ⟨h1, h2, h3⟩
        exact hlast ⟨by omega, h2, (hlinks h2).mpr h3⟩

theorem PutDone.of_locked (hu : PutDone H t p u) (ht : Locked s p t) (hp : Ready s p) : PutDone H s p u := by
  have hinum : (t.itable p).inum = (s.itable p).inum := (ht.keep (fun _ => 1) p Nat.one_pos).1
  refine ⟨hu.wf, hu.sb.trans ht.quiet.sb, hu.ref, (ht.keep H).trans hu.keep, ?_, fun j hj => ?_⟩
  · rw [hu.node, ht.quiet.node, hinum]
    simp only [ht.ready.valid, hp.valid]
  · rw [hu.other j hj, ht.quiet.dinode]

theorem ilock_locked (s : FS) (p : IPtr) : wp (ilock p) (fun _ t => (t.itable p).locked = true) (fun _ => True) s := by
  rw [ilock, wp_bind, wp_inode]
  refine wp_ite.mpr ⟨fun _ => trivial, fun _ => wp_ite.mpr ⟨fun _ => trivial, fun _ => wp_ite.mpr ⟨fun _ => ?_, fun _ => ?_⟩⟩⟩
  · rw [wp_setInode, FS.setInode_self]; rfl
  · simp only [wp_bind, wp_get, wp_bread, wp_setInode]
    refine wp_ite.mpr ⟨fun _ => trivial, fun _ => ?_⟩
    rw [wp_pure, FS.setInode_self]; rfl

theorem iunlock_unlocked (s : FS) (p : IPtr) : wp (iunlock p) (fun _ t => (t.itable p).locked = false) (fun _ => True) s := by
  rw [iunlock, wp_bind, wp_inode]
  refine wp_ite.mpr ⟨fun _ => trivial, fun _ => ?_⟩
  rw [wp_setInode, FS.setInode_self]; rfl

theorem iunlockput_total (hw : Wf s) (hp : Ready s p) (hl : (s.itable p).locked = true) (href : rc s = plus H p) :
    wp (iunlockput p) (fun _ t => PutDone H s p t) (fun _ => False) s := by
  rw [iunlockput]
  have hun := ((iunlock_spec hw hp).weaken fun e he => (absurd (he.2.symm.trans hl) Bool.false_ne_true : False)).and
    (iunlock_unlocked s p)
  refine hun.bind ?_
  rintro _ t ⟨ht, hfree⟩
  refine ((iput_spec ht.wf (ht.ref.trans href)).weaken fun e he => ?_).mono fun _ u hu => hu.of_locked ht hp
  exact absurd (hfree.symm.trans he.2) Bool.false_ne_true

/-! ### `ialloc` -/

/-- The node of a new inode. -/
def Node.fresh (type : ℕ) : Node := ⟨type, 0, 0, 0, 0, fun _ => 0⟩

/-- What `ialloc` did: inode `i` was free and has now type `type`. -/
structure Alloc (s : FS) (type i : ℕ) (k : IPtr) (t : FS) : Prop where
  pos : 0 < i
  lt : i < s.sb.ninodes
  free : (node s i).type = 0
  wf : Wf t
  sb : t.sb = s.sb
  inum : (t.itable k).inum = i
  ref : rc t = plus (rc s) k
  keep : Keep (rc s) s t
  node : node t = update (node s) i (.fresh type)
  other : ∀ j, j ≠ i → dinode t j = dinode s j

theorem Wf.setType (hw : Wf s) {type : ℕ} (hi : i < s.sb.ninodes) (hfree : (dinode s i).type = 0)
    (htype : type ≠ 0) (hfits : type < 2 ^ 16) (hu : Updated s t i (.fresh type)) :
    Wf t ∧ node t = update (node s) i (.fresh type) := by
  have hF : (Dinode.fresh type).Fits := ⟨hfits, Nat.two_pow_pos 16, Nat.two_pow_pos 16, Nat.two_pow_pos 16,
    Nat.two_pow_pos 32, fun _ => Nat.two_pow_pos 32⟩
  have hempty : ∀ k, ref s.disk (Dinode.fresh type) k = 0 := ref_empty fun _ => rfl
  have hcore : Core s.sb s.disk s.torn (update (dinode s) i (.fresh type)) := by
    refine hw.core.setDinode hF (fun k => ?_)
      (fun _ _ => ⟨Nat.zero_le _, fun bn hbn => absurd hbn (Nat.not_lt_zero _)⟩) fun _ => Or.inr hempty
    rw [refs, update_self, hempty, ite_self, refs, if_neg fun h => h.2 hfree]
  have hothers : Others i s (dinode s) s (update (dinode s) i (.fresh type)) :=
    ⟨hcore, rfl, fun j hj => update_of_ne hj .., fun _ _ _ _ => rfl, fun _ _ => rfl⟩
  rw [← update_self i (Dinode.fresh type) (dinode s)] at hu
  have hD := hothers.updated hu
  refine ⟨⟨hothers.core_updated hu, ?_, ?_, fun k hk hv => ?_⟩, ?_⟩
  · rw [hu.itable, hu.sb]; exact hw.inum_lt
  · rw [hu.itable]; exact hw.uniq
  · rw [hu.itable] at hk hv ⊢
    obtain ⟨h1, h2⟩ := hw.sync k hk hv
    rw [hD, update_of_ne (by rintro rfl; exact h2 hfree)]
    exact ⟨h1, h2⟩
  · rw [hothers.node_eq hu hi, update_self, nodeOf_live htype]
    simp [Node.fresh, Dinode.fresh]

theorem iallocLoop_spec {type : ℕ} (hw : Wf s) (htype : type ≠ 0) (hfits : type < 2 ^ 16) :
    ∀ rounds inum, 0 < inum → wp (iallocLoop type rounds inum)
      (fun r t => (r = none ∧ t = s) ∨ ∃ k i, r = some k ∧ Alloc s type i k t) (fun e => e = .igetNoInodes) s
  | 0, _, _ => Or.inl ⟨rfl, rfl⟩
  | rounds + 1, inum, hpos => by
      rw [iallocLoop, wp_bind, wp_get]
      dsimp only
      split
      · rename_i hlt
        simp only [wp_bind, wp_bread]
        split
        · rename_i hfree
          rw [← dinode_of_lt hlt] at hfree
          simp only [wp_bind, wp_logWrite, wp_pure]
          have hu := updated_setDinode (d := .fresh type) hlt ⟨hfits, Nat.two_pow_pos 16, Nat.two_pow_pos 16,
            Nat.two_pow_pos 16, Nat.two_pow_pos 32, fun _ => Nat.two_pow_pos 32⟩
          obtain ⟨hwf, hnode⟩ := hw.setType hlt hfree htype hfits hu
          refine (iget_spec hwf (by exact hlt)).mono fun k t ht => Or.inr ⟨k, inum, rfl, ?_⟩
          have hkeep : Keep (rc s) s (s.write (s.sb.iblock inum)
              (setDinode (s.disk (s.sb.iblock inum)) (inum % IPB) (.fresh type))) := by
            refine fun j hj => ⟨rfl, fun hv => ⟨hv, ?_⟩⟩
            rw [hnode, update_of_ne fun he => (hw.sync j hj hv).2 (by rw [he]; exact hfree)]
          exact ⟨hpos, hlt, by rw [node_type]; exact hfree, ht.wf, ht.quiet.sb, ht.inum, ht.ref,
            hkeep.trans ht.keep, by rw [ht.quiet.node, hnode],
            fun j hj => by rw [ht.quiet.dinode, hu.dinode, update_of_ne hj]⟩
        · exact iallocLoop_spec hw htype hfits rounds (inum + 1) (Nat.succ_pos _)
      · exact Or.inl ⟨rfl, rfl⟩

theorem ialloc_spec {type : ℕ} (hw : Wf s) (htype : type ≠ 0) (hfits : type < 2 ^ 16) :
    wp (ialloc type) (fun r t => (r = none ∧ t = s) ∨ ∃ k i, r = some k ∧ Alloc s type i k t)
      (fun e => e = .igetNoInodes) s := by
  rw [ialloc, wp_bind, wp_get]
  exact iallocLoop_spec hw htype hfits _ 1 Nat.one_pos

end Minios.Fs
