import Minios.Fs.Locks
import Minios.Fs.Lookup

/-! `kernel/fs.c`: which inodes are freed.

    `iput` frees an inode when the last reference goes and there is no link. So as long as every allocated inode without
    links is one that somebody holds (`NoOrphans`), taking a reference and dropping it again frees nothing and does not touch
    the disk (`Visit`); and when it is the holder that lets go, just that inode is freed (`Frees`). -/

namespace Minios.Fs
open Schemes Function

variable {s t u : FS} {ip : IPtr} {H : IPtr → ℕ} {i : ℕ}

/-! ### Nothing is freed -/

/-- An allocated inode without links is one that others hold. -/
def NoOrphans (H : IPtr → ℕ) (s : FS) : Prop := ∀ i, (node s i).type ≠ 0 → (node s i).nlink = 0 →
  ∃ k, 0 < H k ∧ (s.itable k).inum = i

/-- References were taken and dropped. -/
structure Visit (H : IPtr → ℕ) (s t : FS) : Prop where
  go : Go True none H s t
  quiet : Quiet s t

theorem Quiet.trans (h : Quiet s t) (h' : Quiet t u) : Quiet s u :=
  ⟨h'.sb.trans h.sb, h'.disk.trans h.disk, h'.torn.trans h.torn⟩

theorem Visit.refl (h : Ok True none s) : Visit H s s := ⟨.refl h, rfl, rfl, rfl⟩

theorem Visit.trans (h : Visit H s t) (h' : Visit H t u) : Visit H s u := ⟨h.go.trans h'.go, h.quiet.trans h'.quiet⟩

theorem Visit.mono {H' : IPtr → ℕ} (h : Visit H' s t) (hle : ∀ k, 0 < H k → 0 < H' k) : Visit H s t :=
  ⟨h.go.mono hle, h.quiet⟩

theorem NoOrphans.mono {H' : IPtr → ℕ} (h : NoOrphans H s) (hle : ∀ k, 0 < H k → 0 < H' k) : NoOrphans H' s := fun i h1 h2 =>
  (h i h1 h2).imp fun k hk => ⟨hle k hk.1, hk.2⟩

/-- A reference to an inode that has links does not matter. -/
theorem NoOrphans.minus (h : NoOrphans (plus H ip) s)
    (hlinks : (node s (s.itable ip).inum).type ≠ 0 → (node s (s.itable ip).inum).nlink ≠ 0) : NoOrphans H s := by
  intro i h1 h2
  obtain ⟨k, hk, rfl⟩ := h i h1 h2
  have hne : k ≠ ip := by
    rintro rfl
    exact hlinks h1 h2
  rw [plus, if_neg hne] at hk
  exact ⟨k, hk, rfl⟩

theorem Visit.held (h : Visit H s t) (hh : NoOrphans H s) : NoOrphans H t := by
  intro i h1 h2
  rw [h.quiet.node] at h1 h2
  obtain ⟨k, hk, hi⟩ := hh i h1 h2
  exact ⟨k, hk, (h.go.held k hk).inum.trans hi⟩

theorem Locked.visit (h : Locked s ip t) (hok : Ok True none s) : Visit H s t := ⟨h.go hok, h.quiet⟩

theorem Got.visit (h : Got s i ip t) (hok : Ok True none s) (hi : i ≠ 0) : Visit (rc s) s t :=
  ⟨h.go hok fun _ => hi, h.quiet⟩

theorem ilock_visit (h : Ok True none s) (hp : 0 < rc s ip) :
    wp (ilock ip) (fun _ t => Locked s ip t ∧ locks s ip = false ∧ locks t = update (locks s) ip true)
      (fun e => e = .blocked ∧ locks s ip = true ∨ e = .ilockNoType ∧ (node s (s.itable ip).inum).type = 0) s :=
  ((ilock_spec h.wf hp).both (ilock_locks ip s)).weaken fun _ h => h.1.imp_left fun he => ⟨he, h.2 he⟩

theorem iunlock_visit (h : Ok True none s) (hp : Ready s ip) (hlock : locks s ip = true) :
    wp (iunlock ip) (fun _ t => Locked s ip t ∧ locks t = update (locks s) ip false) (fun _ => False) s := by
  refine ((iunlock_spec h.wf hp).both (iunlock_locks ip s)).weaken ?_
  rintro e ⟨he, _⟩
  exact Bool.false_ne_true (he.2.symm.trans hlock)

theorem iput_visit (h : Ok True none s) (href : rc s = plus H ip) (hheld : NoOrphans H s) :
    wp (iput ip) (fun _ t => Visit H s t ∧ rc t = H ∧ locks t = locks s)
      (fun e => e = .blocked ∧ locks s ip = true) s := by
  have hone : rc s ip = H ip + 1 := by rw [href, plus, if_pos rfl]
  have hpos : 0 < rc s ip := by omega
  -- the last reference is not to an inode without links
  have hkeep : ¬ ((s.itable ip).ref = 1 ∧ (s.itable ip).valid = true ∧ (s.itable ip).d.nlink = 0) := by
    rintro ⟨hlast, hvalid, hnlink⟩
    obtain ⟨hd, htype⟩ := h.wf.sync ip hpos hvalid
    obtain ⟨k, hk, hi⟩ := hheld (s.itable ip).inum (by rw [node_type]; exact htype)
      (by rw [Ready.node h.wf ⟨hpos, hvalid⟩]; exact hnlink)
    have hk' : 0 < rc s k := by rw [href]; exact le_plus H ip hk
    obtain rfl := h.wf.uniq k ip hk' hpos hi
    have : rc s k = 1 := hlast
    omega
  refine (((iput_spec h.wf href).and (iput_locks ip s)).and (iput_quiet (E := fun _ => True) hkeep)).mono
    ?_
  rintro _ t ⟨⟨hput, hl⟩, hq⟩
  exact ⟨⟨hput.plain href h, hq⟩, hput.ref, hl⟩

theorem iunlockput_visit (h : Ok True none s) (href : rc s = plus H ip) (hp : Ready s ip) (hlock : locks s ip = true)
    (hheld : NoOrphans H s) :
    wp (iunlockput ip) (fun _ t => Visit H s t ∧ rc t = H ∧ locks t = update (locks s) ip false) (fun _ => False) s := by
  refine (iunlock_visit h hp hlock).bind ?_
  rintro _ t ⟨ht, hl⟩
  have hv : Visit H s t := ht.visit h
  refine ((iput_visit hv.go.ok (ht.ref.trans href) (hv.held hheld)).weaken fun e he => ?_).mono fun _ u hu => ?_
  · rw [hl, update_self] at he
    exact Bool.false_ne_true he.2
  · exact ⟨hv.trans hu.1, hu.2.1, hu.2.2.trans hl⟩

theorem NoOrphans.congr (h : NoOrphans H s) (hnode : node t = node s)
    (hinum : ∀ k, 0 < H k → (t.itable k).inum = (s.itable k).inum) : NoOrphans H t := by
  intro i h1 h2
  rw [hnode] at h1 h2
  obtain ⟨k, hk, hi⟩ := h i h1 h2
  exact ⟨k, hk, (hinum k hk).trans hi⟩

/-- Work on an inode that is held, has links afterwards or had none before. -/
theorem Did.held {nd : Node} (hdid : Did ip s nd t) (h : NoOrphans H s)
    (htype : (Fs.node s (s.itable ip).inum).type ≠ 0)
    (hlinks : nd.nlink = 0 → 0 < H ip ∨ (Fs.node s (s.itable ip).inum).nlink = 0) : NoOrphans H t := by
  intro i h1 h2
  have hold : ∀ j, (Fs.node s j).type ≠ 0 → (Fs.node s j).nlink = 0 → ∃ k, 0 < H k ∧ (t.itable k).inum = j :=
    fun j h1 h2 => (h j h1 h2).imp fun k hk => ⟨hk.1, (hdid.inum k).trans hk.2⟩
  rw [hdid.node] at h1 h2
  rcases eq_or_ne i (s.itable ip).inum with rfl | hne
  · rw [update_self] at h2
    rcases hlinks h2 with h0 | h0
    · exact ⟨ip, h0, hdid.inum ip⟩
    · exact hold _ htype h0
  · rw [update_of_ne hne] at h1 h2
    exact hold i h1 h2

theorem setFields_visit {f : Dinode → Dinode} {α : Type} {m : M α} {Q : α → FS → Prop} {E : Panic → Prop} (hf : Tame f)
    (hw : Wf s) (hp : Ready s ip) (hm : ∀ t, Did ip s { node s (s.itable ip).inum with
      major := (f (s.itable ip).d).major
      minor := (f (s.itable ip).d).minor
      nlink := (f (s.itable ip).d).nlink } t → locks t = locks s → wp m Q E t) :
    wp (do setD ip f; iupdate ip; m) Q E s := by
  have hlocks : Preserves locks (do setD ip f; iupdate ip : M Unit) :=
    .bind (keeps_setD allows_locks ip f) fun _ => keeps_iupdate allows_locks ip
  have hdid := ((setFields_did hf hw hp).total (E := E)).and (hlocks s)
  exact wp_bind.mpr ((wp_bind.mp hdid).mono fun _ t ht => ht.bind fun _ u hu => hm u hu.1 hu.2)

theorem node_nlink_lt (hw : Wf s) (i : ℕ) : (node s i).nlink < 2 ^ 16 := by
  rcases eq_or_ne (dinode s i).type 0 with h0 | hne
  · rw [node, nodeOf_free h0]
    exact Nat.two_pow_pos 16
  · rw [node, nodeOf_live hne]
    exact (hw.core.fits i (live_iff.mpr hne)).nlink

theorem drop_visit (h : Ok True none s) (href : rc s = plus H ip) (hp : Ready s ip) (hheld : NoOrphans H s) :
    wp (iunlockput ip) (fun _ t => Visit H s t ∧ rc t = H) (fun _ => True) s := by
  refine ((iunlock_go h hp).weaken fun _ _ => trivial).bind fun _ t ht => ?_
  have hv : Visit H s t := ht.visit h
  refine ((iput_visit hv.go.ok (ht.ref.trans href) (hv.held hheld)).weaken fun _ _ => trivial).mono fun _ u hu => ?_
  exact ⟨hv.trans hu.1, hu.2.1⟩

/-! ### What is not held is freed -/

/-- Some inodes without links are freed. -/
def Frees (N N' : ℕ → Node) : Prop := ∀ j, N' j = N j ∨ N' j = .free ∧ (N j).nlink = 0

theorem Frees.trans {N N' N'' : ℕ → Node} (h : Frees N N') (h' : Frees N' N'') : Frees N N'' := by
  intro j
  rcases h j with hj | ⟨hj, h0⟩ <;> rcases h' j with hj' | ⟨hj', h0'⟩
  · exact .inl (hj'.trans hj)
  · exact .inr ⟨hj', by rw [← hj]; exact h0'⟩
  · exact .inr ⟨hj'.trans hj, h0⟩
  · exact .inr ⟨hj', h0⟩

theorem Frees.kept {N N' : ℕ → Node} (h : Frees N N') (hi : (N' i).type ≠ 0) : N' i = N i :=
  (h i).resolve_right fun hf => hi (by rw [hf.1]; rfl)

theorem PutDone.frees (h : PutDone H s ip t) : Frees (Fs.node s) (Fs.node t) := by
  intro j
  rw [h.node]
  split
  · rename_i hc
    rcases eq_or_ne j (s.itable ip).inum with rfl | hj
    · exact .inr ⟨update_self .., hc.2.2⟩
    · exact .inl (update_of_ne hj ..)
  · exact .inl rfl

/-- What the reference that is dropped has held is freed if nobody else holds it. -/
theorem PutDone.held (h : PutDone H s ip t) (hp : Ready s ip) (hheld : NoOrphans (plus H ip) s) : NoOrphans H t := by
  intro j h1 h2
  rw [h.frees.kept h1] at h2
  have h1s : (Fs.node s j).type ≠ 0 := by rwa [h.frees.kept h1] at h1
  obtain ⟨k, hk, rfl⟩ := hheld j h1s h2
  rcases Nat.eq_zero_or_pos (H k) with h0 | hpos
  · -- only the reference that was dropped
    have hkp : k = ip := by
      by_contra hne
      rw [plus, if_neg hne] at hk
      omega
    subst hkp
    rw [h.node, if_pos ⟨h0, hp.valid, h2⟩, update_self] at h1
    exact absurd rfl h1
  · exact ⟨k, hpos, (h.keep k hpos).1⟩

theorem iunlockput_frees (h : Ok True none s) (href : rc s = plus H ip) (hp : Ready s ip) (hlock : locks s ip = true)
    (hheld : NoOrphans (plus H ip) s) : wp (iunlockput ip) (fun _ t => Go True none H s t ∧ rc t = H ∧ NoOrphans H t ∧
      Frees (node s) (node t) ∧ locks t = update (locks s) ip false) (fun _ => False) s := by
  have hlocks : wp (iunlockput ip) (fun _ t => locks t = update (locks s) ip false) (fun _ => True) s :=
    (iunlock_locks ip s).bind fun _ t ht => (iput_locks ip t).mono fun _ u hu => hu.trans ht
  refine ((iunlockput_total h.wf hp hlock href).and hlocks).mono ?_
  rintro _ t ⟨ht, hl⟩
  exact ⟨ht.plain href h, ht.ref, ht.held hp hheld, ht.frees, hl⟩

theorem drop_frees (h : Ok True none s) (href : rc s = plus H ip) (hp : Ready s ip) (hheld : NoOrphans (plus H ip) s) :
    wp (iunlockput ip) (fun _ t => Go True none H s t ∧ rc t = H ∧ NoOrphans H t ∧ Frees (node s) (node t))
      (fun _ => True) s :=
  ((iunlockput_go h href hp).weaken fun _ _ => trivial).mono fun _ _ ht =>
    ⟨ht.plain href h, ht.ref, ht.held hp hheld, ht.frees⟩

end Minios.Fs
