import Minios.Fs.Table
import Minios.Fs.Dir

/-! `kernel/fs.c`: references to inodes, through every function.

    Nothing is asked of the disk here: whatever is read from it, each path through the code drops the references
    it took and does not return. So a function either keeps all counts (`Preserves rc`), or its specification
    says which reference it takes or drops. -/

namespace Minios.Fs
open Schemes Function

variable {s : FS} {H : IPtr → ℕ} {k p : IPtr}

/-! ### Functions that keep the counts -/

theorem rc_setD (s : FS) (k : IPtr) (d : Dinode) : rc (s.setD k d) = rc s := by
  funext j
  show (s.tab k d j).ref = _
  rcases eq_or_ne j k with rfl | hne
  · rw [FS.tab_self]; rfl
  · rw [FS.tab_ne _ hne]

theorem rc_setInode_same {ip : Inode} (h : ip.ref = rc s k) : rc (s.setInode k ip) = rc s := by
  rw [rc_setInode, h, update_eq_self]

/-- Logged writes and changes to the copy of an inode take and drop no reference. -/
theorem allows_rc : Allows fun s t => rc t = rc s := ⟨fun _ _ _ => rfl, rc_setD⟩

theorem preserves_inode (k : IPtr) : Preserves rc (inode k) := fun _ => rfl

theorem preserves_setD (k : IPtr) (f : Dinode → Dinode) : Preserves rc (setD k f) := fun s => rc_setD s k _

theorem preserves_iupdate (k : IPtr) : Preserves rc (iupdate k) := keeps_iupdate allows_rc k

theorem preserves_itrunc (k : IPtr) : Preserves rc (itrunc k) := keeps_itrunc allows_rc k

theorem preserves_readi (k : IPtr) (dst : ℕ → Bool) (off n : ℕ) : Preserves rc (readi k dst off n) :=
  keeps_readi allows_rc k dst off n

theorem preserves_writei (k : IPtr) (src : ℕ → Option UInt8) (off n : ℕ) : Preserves rc (writei k src off n) :=
  keeps_writei allows_rc (fun _ _ _ => rfl) k src off n

theorem preserves_ilock (k : IPtr) : Preserves rc (ilock k) := by
  intro s
  rw [ilock, wp_bind, wp_inode]
  rcases lt_or_ge (s.itable k).ref 1 with href | href
  · simp only [if_pos href, wp_bind, wp_fail]
  simp only [if_neg (Nat.not_lt.mpr href)]
  split
  · exact trivial
  split
  · exact rc_setInode_same rfl
  · simp only [wp_bind, wp_get, wp_bread, wp_setInode]
    split
    · exact trivial
    · exact rc_setInode_same rfl

theorem preserves_iunlock (k : IPtr) : Preserves rc (iunlock k) := by
  intro s
  rw [iunlock, wp_bind, wp_inode]
  split
  · exact trivial
  · rw [wp_setInode]
    exact rc_setInode_same rfl

/-- `iputFree` takes and gives back the entry's lock, and keeps the count. -/
theorem preserves_iputFree (k : IPtr) : Preserves rc (iputFree k) := by
  intro s
  rw [iputFree, wp_bind, wp_inode]
  split
  · exact trivial
  rw [wp_bind, wp_setInode]
  have hlock : rc (s.setInode k ((s.itable k).setLocked true)) = rc s := rc_setInode_same rfl
  refine (preserves_itrunc k).seq hlock fun _ t ht => ?_
  refine (preserves_setD k _).seq ht fun _ t ht => ?_
  refine (preserves_iupdate k).seq ht fun _ t ht => ?_
  rw [wp_bind, wp_inode, wp_setInode, ← ht]
  exact rc_setInode_same rfl

/-! ### Functions that take or drop a reference -/

/-- `H` and one more reference to what a function returns, if it returns something. -/
def more (H : IPtr → ℕ) (r : Option IPtr) : IPtr → ℕ := r.elim H (plus H)

theorem iget_rc (i : ℕ) (s : FS) : wp (iget i) (fun k t => rc t = plus (rc s) k) (fun _ => True) s := by
  rw [iget, wp_bind, wp_get]
  split
  · rw [wp_bind, wp_setInode, wp_pure, rc_setInode]
    exact update_plus rfl
  · split
    · rename_i k hk
      have hk : rc s k = 0 := by simpa using List.find?_some hk
      rw [wp_bind, wp_setInode, wp_pure, rc_setInode]
      exact update_plus (by rw [hk]; rfl)
    · exact trivial

theorem idup_rc (k : IPtr) (s : FS) : wp (idup k) (fun j t => j = k ∧ rc t = plus (rc s) k) (fun _ => True) s := by
  rw [idup, wp_bind, wp_inode, wp_bind, wp_setInode, wp_pure, rc_setInode]
  exact ⟨rfl, update_plus rfl⟩

theorem iput_rc (h : rc s = plus H k) : wp (iput k) (fun _ t => rc t = H) (fun _ => True) s := by
  have hdrop : ∀ t, rc t = rc s → rc (t.setInode k ((t.itable k).setRef ((t.itable k).ref - 1))) = H := by
    intro t ht
    rw [rc_setInode]
    show update (rc t) k (rc t k - 1) = H
    rw [ht, h]
    funext j
    rcases eq_or_ne j k with rfl | hne
    · rw [update_self, plus, if_pos rfl]; rfl
    · rw [update_of_ne hne, plus, if_neg hne]; rfl
  rw [iput, wp_bind, wp_inode]
  split
  · rw [wp_bind]
    refine (preserves_iputFree k s).mono fun _ t ht => ?_
    rw [wp_bind, wp_inode, wp_setInode]
    exact hdrop t ht
  · rw [wp_bind, wp_inode, wp_setInode]
    exact hdrop s rfl

theorem iunlockput_rc (h : rc s = plus H k) : wp (iunlockput k) (fun _ t => rc t = H) (fun _ => True) s := by
  rw [iunlockput]
  exact (preserves_iunlock k).seq h fun _ t ht => iput_rc ht

theorem iallocLoop_rc (type : ℕ) : ∀ rounds i (s : FS),
    wp (iallocLoop type rounds i) (fun r t => rc t = more (rc s) r) (fun _ => True) s
  | 0, _, _ => rfl
  | rounds + 1, i, s => by
      rw [iallocLoop, wp_bind, wp_get]
      dsimp only
      split
      · rw [wp_bind, wp_bread]
        split
        · rw [wp_bind, wp_logWrite, wp_bind]
          exact (iget_rc i _).mono fun k t ht => ht
        · exact iallocLoop_rc type rounds _ s
      · rfl

theorem ialloc_rc (type : ℕ) (s : FS) : wp (ialloc type) (fun r t => rc t = more (rc s) r) (fun _ => True) s :=
  wp_bind.mpr (iallocLoop_rc type _ _ s)

/-! ### Directories and paths -/

theorem preserves_readDirent (dp : IPtr) (off : ℕ) (e : Panic) : Preserves rc (readDirent dp off e) :=
  .bind (preserves_readi dp _ _ _) fun _ => .ite (.fail _) (.pure _)

theorem dirlookupLoop_rc (dp : IPtr) (name : Name) : ∀ rounds off (s : FS),
    wp (dirlookupLoop dp name rounds off) (fun r t => rc t = more (rc s) (r.map Prod.fst)) (fun _ => True) s
  | 0, _, _ => rfl
  | rounds + 1, off, s => by
      rw [dirlookupLoop, wp_bind, wp_inode]
      split
      · refine (preserves_readDirent dp off _).seq rfl fun de t ht => ?_
        rw [← ht]
        split
        · rw [wp_bind]
          exact (iget_rc de.inum t).mono fun k u hu => hu
        · exact dirlookupLoop_rc dp name rounds _ t
      · rfl

theorem dirlookup_rc (dp : IPtr) (name : Name) (s : FS) :
    wp (dirlookup dp name) (fun r t => rc t = more (rc s) (r.map Prod.fst)) (fun _ => True) s := by
  rw [dirlookup, wp_bind, wp_inode]
  split
  · exact trivial
  · exact dirlookupLoop_rc dp name _ _ s

theorem preserves_dirlinkLoop (dp : IPtr) : ∀ rounds off, Preserves rc (dirlinkLoop dp rounds off)
  | 0, _ => .pure _
  | rounds + 1, off => by
      rw [dirlinkLoop]
      refine .bind (preserves_inode dp) fun ip => .ite (.bind (preserves_readDirent dp off _) fun de => ?_) (.pure _)
      exact .ite (.pure _) (preserves_dirlinkLoop dp rounds _)

theorem preserves_writeDirent (dp : IPtr) (off : ℕ) (de : Dirent) : Preserves rc (writeDirent dp off de) :=
  preserves_writei dp _ _ _

/-- `dirlink` drops the reference `dirlookup` found. -/
theorem preserves_dirlink (dp : IPtr) (name : Name) (i : ℕ) : Preserves rc (dirlink dp name i) := by
  intro s
  rw [dirlink, wp_bind]
  refine (dirlookup_rc dp name s).mono fun r t ht => ?_
  cases r with
  | some r =>
    obtain ⟨ip, _⟩ := r
    rw [wp_bind]
    exact (iput_rc ht).mono fun _ u hu => hu
  | none =>
    have hrest : Preserves rc (do
        let dir ← inode dp
        let off ← dirlinkLoop dp (dir.d.size / DESIZE + 1) 0
        let r ← writeDirent dp off (Dirent.of name i)
        if r ≠ DESIZE then return (-1 : ℤ)
        return 0) :=
      .bind (preserves_inode dp) fun _ => .bind (preserves_dirlinkLoop dp _ _) fun _ =>
        .bind (preserves_writeDirent dp _ _) fun _ => .ite (.pure _) (.pure _)
    exact (hrest t).mono fun _ u hu => hu.trans ht

theorem preserves_isdiremptyLoop (dp : IPtr) : ∀ rounds off, Preserves rc (isdiremptyLoop dp rounds off)
  | 0, _ => .pure _
  | rounds + 1, off => by
      rw [isdiremptyLoop]
      refine .bind (preserves_inode dp) fun ip => .ite (.bind (preserves_readDirent dp off _) fun de => ?_) (.pure _)
      exact .ite (.pure _) (preserves_isdiremptyLoop dp rounds _)

theorem preserves_isdirempty (dp : IPtr) : Preserves rc (isdirempty dp) :=
  .bind (preserves_inode dp) fun _ => preserves_isdiremptyLoop dp _ _

/-- The reference `namex` starts with is dropped, or is the one it returns. -/
theorem namexLoop_rc (b : Bool) : ∀ rounds ip name path (s : FS), rc s = plus H ip → path.bytes.length < rounds →
    wp (namexLoop b rounds ip name path) (fun r t => rc t = more H (r.map Prod.fst)) (fun _ => True) s
  | 0, _, _, _, _, _, hlt => absurd hlt (Nat.not_lt_zero _)
  | rounds + 1, ip, name, path, s, href, hlt => by
      have hdrop : ∀ t, rc t = rc s → wp (do iunlockput ip; return none : M (Option (IPtr × Name)))
          (fun r t => rc t = more H (r.map Prod.fst)) (fun _ => True) t := fun t ht =>
        wp_bind.mpr ((iunlockput_rc (ht.trans href)).mono fun _ u hu => hu)
      rw [namexLoop]
      split
      · split
        · exact wp_bind.mpr ((iput_rc href).mono fun _ t ht => ht)
        · exact href
      · rename_i name' path' helem
        refine (preserves_ilock ip).seq rfl fun _ t ht => ?_
        rw [wp_bind, wp_inode]
        split
        · exact hdrop t ht
        split
        · exact (preserves_iunlock ip).seq (ht.trans href) fun _ u hu => hu
        rw [wp_bind]
        refine (dirlookup_rc ip name' t).mono fun r u hu => ?_
        cases r with
        | none => exact hdrop u (hu.trans ht)
        | some r =>
          obtain ⟨next, _⟩ := r
          have hboth : rc u = plus (plus H next) ip := by
            rw [hu, ht, href]
            funext j
            exact Nat.add_right_comm ..
          rw [wp_bind]
          refine (iunlockput_rc hboth).mono fun _ v hv => ?_
          exact namexLoop_rc b rounds next name' path' v hv (by have := skipelem_length helem; omega)

theorem namex_rc (cwd : IPtr) (path : Str) (b : Bool) (s : FS) :
    wp (namex cwd path b) (fun r t => rc t = more (rc s) (r.map Prod.fst)) (fun _ => True) s := by
  rw [namex]
  split
  · rw [wp_bind]
    exact (iget_rc ROOTINO s).mono fun k t ht => namexLoop_rc b _ k _ path t ht (Nat.lt_succ_self _)
  · rw [wp_bind]
    refine (idup_rc cwd s).mono fun k t ht => ?_
    obtain ⟨rfl, ht⟩ := ht
    exact namexLoop_rc b _ k _ path t ht (Nat.lt_succ_self _)

theorem namei_rc (cwd : IPtr) (path : Str) (s : FS) :
    wp (namei cwd path) (fun r t => rc t = more (rc s) r) (fun _ => True) s := by
  rw [namei, wp_bind]
  refine (namex_rc cwd path false s).mono fun r t ht => ?_
  cases r with
  | none => exact ht
  | some r =>
    obtain ⟨ip, _⟩ := r
    exact ht

end Minios.Fs
