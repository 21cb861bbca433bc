import Minios.Fs.Counts

/-! `kernel/fs.c`: which inodes are locked.

    `ilock` waits for an inode that is locked; a run that would have to wait with nobody else there ends as
    `blocked`. Between `ilock` and `iunlock` no function of the layer above changes a lock. -/

namespace Minios.Fs
open Schemes Function

variable {s : FS} {k : IPtr}

/-- Which inodes are locked. -/
def locks (s : FS) (k : IPtr) : Bool := (s.itable k).locked

/-- Nobody is inside an inode. -/
def Unlocked (s : FS) : Prop := ∀ k, locks s k = false

theorem locks_setInode (s : FS) (k : IPtr) (x : Inode) : locks (s.setInode k x) = update (locks s) k x.locked := by
  funext j
  rcases eq_or_ne j k with rfl | hne
  · rw [locks, FS.setInode_self, update_self]
  · rw [locks, FS.setInode_ne _ hne, update_of_ne hne, locks]

theorem locks_setInode_same {x : Inode} (h : x.locked = locks s k) : locks (s.setInode k x) = locks s := by
  rw [locks_setInode, h, update_eq_self]

theorem allows_locks : Allows fun s t => locks t = locks s := by
  refine ⟨fun _ _ _ => rfl, fun s k d => ?_⟩
  funext j
  show (s.tab k d j).locked = _
  rcases eq_or_ne j k with rfl | hne
  · rw [FS.tab_self]; rfl
  · rw [FS.tab_ne _ hne]; rfl

/-! ### Locking -/

theorem ilock_locks (k : IPtr) (s : FS) :
    wp (ilock k) (fun _ t => locks s k = false ∧ locks t = update (locks s) k true)
      (fun e => e = .blocked → locks s k = true) s := by
  rw [ilock, wp_bind, wp_inode]
  refine wp_ite.mpr ⟨fun _ => by rintro ⟨⟩, fun _ => wp_ite.mpr ⟨fun h _ => h, fun hfree => ?_⟩⟩
  have hfree : locks s k = false := (Bool.not_eq_true _).mp hfree
  refine wp_ite.mpr ⟨fun _ => ?_, fun _ => ?_⟩
  · rw [wp_setInode, locks_setInode]
    exact ⟨hfree, rfl⟩
  · simp only [wp_bind, wp_get, wp_bread, wp_setInode]
    refine wp_ite.mpr ⟨fun _ => by rintro ⟨⟩, fun _ => ?_⟩
    rw [wp_pure, locks_setInode]
    exact ⟨hfree, rfl⟩

theorem iunlock_locks (k : IPtr) (s : FS) : wp (iunlock k) (fun _ t => locks t = update (locks s) k false)
    (fun _ => True) s := by
  rw [iunlock, wp_bind, wp_inode]
  refine wp_ite.mpr ⟨fun _ => trivial, fun _ => ?_⟩
  rw [wp_setInode, locks_setInode]; rfl

/-! ### Functions that change no lock -/

theorem iget_locks (i : ℕ) : Preserves locks (iget i) := by
  intro s
  rw [iget, wp_bind, wp_get]
  split
  · rw [wp_bind, wp_setInode, wp_pure]
    exact locks_setInode_same rfl
  · split
    · rw [wp_bind, wp_setInode, wp_pure]
      exact locks_setInode_same rfl
    · exact trivial

theorem idup_locks (k : IPtr) : Preserves locks (idup k) := by
  intro s
  rw [idup, wp_bind, wp_inode, wp_bind, wp_setInode, wp_pure]
  exact locks_setInode_same rfl

theorem iputFree_locks (k : IPtr) : Preserves locks (iputFree k) := by
  intro s
  rw [iputFree, wp_bind, wp_inode]
  refine wp_ite.mpr ⟨fun _ => trivial, fun hfree => ?_⟩
  rw [wp_bind, wp_setInode]
  have hlock : locks (s.setInode k ((s.itable k).setLocked true)) = update (locks s) k true := locks_setInode ..
  refine Preserves.seq (keeps_itrunc allows_locks k) hlock fun _ t ht => ?_
  refine Preserves.seq (keeps_setD allows_locks k _) ht fun _ t ht => ?_
  refine Preserves.seq (keeps_iupdate allows_locks k) ht fun _ t ht => ?_
  rw [wp_bind, wp_inode, wp_setInode, locks_setInode, ht, update_idem]
  exact update_eq_self_iff.mpr ((Bool.not_eq_true _).mp hfree).symm

theorem iput_locks (k : IPtr) : Preserves locks (iput k) := by
  have hdrop : Preserves locks (do let ip ← inode k; setInode k (ip.setRef (ip.ref - 1))) := fun s => by
    rw [wp_bind, wp_inode, wp_setInode]
    exact locks_setInode_same rfl
  refine .bind (keeps_inode k) fun ip => .ite (.bind (iputFree_locks k) fun _ => hdrop) hdrop

theorem readDirent_locks (dp : IPtr) (off : ℕ) (e : Panic) : Preserves locks (readDirent dp off e) :=
  .bind (keeps_readi allows_locks dp _ _ _) fun _ => .ite (.fail _) (.pure _)

theorem dirlookupLoop_locks (dp : IPtr) (name : Name) : ∀ rounds off, Preserves locks (dirlookupLoop dp name rounds off)
  | 0, _ => .pure _
  | rounds + 1, off => by
      rw [dirlookupLoop]
      refine .bind (keeps_inode dp) fun ip => .ite (.bind (readDirent_locks dp off _) fun de => ?_) (.pure _)
      exact .ite (.bind (iget_locks _) fun _ => .pure _) (dirlookupLoop_locks dp name rounds _)

theorem dirlookup_locks (dp : IPtr) (name : Name) : Preserves locks (dirlookup dp name) :=
  .bind (keeps_inode dp) fun _ => .ite (.fail _) (dirlookupLoop_locks dp name _ _)

theorem dirlinkLoop_locks (dp : IPtr) : ∀ rounds off, Preserves locks (dirlinkLoop dp rounds off)
  | 0, _ => .pure _
  | rounds + 1, off => by
      rw [dirlinkLoop]
      refine .bind (keeps_inode dp) fun ip => .ite (.bind (readDirent_locks dp off _) fun de => ?_) (.pure _)
      exact .ite (.pure _) (dirlinkLoop_locks dp rounds _)

theorem dirlink_locks (dp : IPtr) (name : Name) (i : ℕ) : Preserves locks (dirlink dp name i) := by
  refine .bind (dirlookup_locks dp name) fun r => ?_
  cases r with
  | some r =>
    obtain ⟨ip, _⟩ := r
    exact .bind (iput_locks ip) fun _ => .pure _
  | none =>
    exact .bind (keeps_inode dp) fun _ => .bind (dirlinkLoop_locks dp _ _) fun _ =>
      .bind (keeps_writei allows_locks (fun _ _ _ => rfl) dp _ _ _) fun _ => .ite (.pure _) (.pure _)

end Minios.Fs
