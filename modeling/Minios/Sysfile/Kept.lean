import Minios.Sysfile.Safe

/-! `kernel/sysfile.c`: what holds between system calls, over whole runs.

        Ok       disk, inode table and directories are in order
        Accounts every reference is held by an open file or a current directory
        Opened   a file is open on an inode that exists, and writable only if that is no directory -/

namespace Minios.Sysfile
open Schemes Function Fs

variable {s t : K} {fs : FS} {P P' H : IPtr → ℕ} {k ip : IPtr} {f : FPtr} {p : PPtr} {x : File} {strict : Prop} {α : Type}

/-- What an open file may refer to. -/
def Opened (fs : FS) (x : File) : Prop := ∀ k, x.Holds k → (node fs (fs.itable k).inum).type ≠ 0 ∧
  (x.writable = true → (node fs (fs.itable k).inum).type ≠ T_DIR)

/-- What holds between system calls, `P` being the references that are pending within one. -/
structure Good (strict : Prop) (s : K) (P : IPtr → ℕ) : Prop where
  ok : Ok strict none s.fs
  accounts : Accounts s P
  files : ∀ f, Opened s.fs (s.file f)
  dirs : strict → ∀ p k, (s.proc p).In k → (node s.fs (s.fs.itable k).inum).type ≠ 0

/-! ### Holders -/

theorem users_pos_file (h : (s.file f).Holds k) : 0 < users s k :=
  Nat.add_pos_left (slots_pos.mpr ⟨_, h⟩) _

theorem users_pos_proc (h : (s.proc p).In k) : 0 < users s k :=
  Nat.add_pos_right _ (slots_pos.mpr ⟨_, h⟩)

theorem Accounts.users_le (h : Accounts s P) (hk : 0 < users s k) : 0 < rc s.fs k := by
  rw [h.count k]
  exact Nat.add_pos_left hk _

theorem Accounts.pending (h : Accounts s P) (hk : 0 < P k) : 0 < rc s.fs k := by
  rw [h.count k]
  exact Nat.add_pos_right _ hk

theorem Accounts.cwd_pos (h : Accounts s P) (hk : (s.proc p).cwd = some k) : 0 < rc s.fs k :=
  h.users_le (users_pos_proc (p := p) hk)

theorem Accounts.holds (h : Accounts s P) (htype : (s.file f).type = .inode ∨ (s.file f).type = .device) :
    (s.file f).Holds (s.file f).ip := by
  refine ⟨Nat.pos_of_ne_zero fun h0 => ?_, htype, rfl⟩
  rw [h.closed f h0] at htype
  simp at htype

theorem Opened.stable {fs' : FS} (h : Opened fs x) (hst : ∀ k, x.Holds k → Stable fs fs' k) : Opened fs' x := by
  intro k hk
  obtain ⟨h1, h2⟩ := h k hk
  rw [(hst k hk).inum, (hst k hk).type h1]
  exact ⟨h1, h2⟩

theorem Opened.none (h : ∀ k, ¬ x.Holds k) : Opened fs x := fun k hk => absurd hk (h k)

theorem Good.used (h : Good strict s fun _ => 0) (hs : strict) (k : IPtr) (hk : 0 < rc s.fs k) :
    (node s.fs (s.fs.itable k).inum).type ≠ 0 := by
  rw [h.accounts.count k, Nat.add_zero, users, Nat.add_pos_iff_pos_or_pos, slots_pos, slots_pos] at hk
  rcases hk with ⟨f, hf⟩ | ⟨p, hp⟩
  · exact (h.files f k hf).1
  · exact h.dirs hs p k hp

/-! ### Functions of the file system, called from the kernel -/

theorem Good.go (h : Good strict s P) (hfs : Go strict none H s.fs fs) (hH : ∀ k, 0 < users s k → 0 < H k)
    (hrc : ∀ k, rc fs k = users s k + P' k) : Good strict { s with fs := fs } P' where
  ok := hfs.ok
  accounts := h.accounts.same ⟨rfl, rfl⟩ hrc
  files f := (h.files f).stable fun k hk => hfs.held k (hH k (users_pos_file hk))
  dirs hs p k hk := by
    have hst := hfs.held k (hH k (users_pos_proc hk))
    have h0 := h.dirs hs p k hk
    show (node fs (fs.itable k).inum).type ≠ 0
    rw [hst.inum, hst.type h0]
    exact h0

theorem lift_kept {m : M α} {Q : α → FS → Prop} (h : Good strict s P)
    (hm : wp m (fun a t => (Go strict none (rc s.fs) s.fs t ∧ rc t = rc s.fs) ∧ Q a t) (Fit strict) s.fs) :
    wp (K.lift m) (fun a t => Good strict t P ∧ Same s t ∧ Q a t.fs) (Fit strict) s := by
  refine wp_lift.mpr (hm.mono fun a t ht => ⟨?_, ⟨rfl, rfl⟩, ht.2⟩)
  exact h.go ht.1.1 (fun k => h.accounts.users_le) fun k => by rw [ht.1.2, h.accounts.count]

theorem lift_kept' {m : M α} (h : Good strict s P)
    (hm : wp m (fun _ t => Go strict none (rc s.fs) s.fs t ∧ rc t = rc s.fs) (Fit strict) s.fs) :
    wp (K.lift m) (fun _ t => Good strict t P) (Fit strict) s :=
  (lift_kept (Q := fun _ _ => True) h (hm.mono fun _ _ ht => ⟨ht, trivial⟩)).mono fun _ _ ht => ht.1

theorem lift_taken {m : M (Option IPtr)} {Q : Option IPtr → FS → Prop} (h : Good strict s fun _ => 0)
    (hm : wp m (fun r t => Go strict none (rc s.fs) s.fs t ∧ rc t = more (rc s.fs) r ∧ Q r t) (Fit strict) s.fs) :
    wp (K.lift m) (fun r t => Good strict t (more (fun _ => 0) r) ∧ Same s t ∧ Q r t.fs) (Fit strict) s := by
  refine wp_lift.mpr (hm.mono fun r t ht => ⟨?_, ⟨rfl, rfl⟩, ht.2.2⟩)
  exact h.go ht.1 (fun k => h.accounts.users_le) fun k => by rw [ht.2.1, more_apply, h.accounts.count, Nat.add_zero]

theorem Accounts.eq_plus (h : Accounts s (plus P k)) : rc s.fs = plus (fun j => users s j + P j) k :=
  funext fun j => (h.count j).trans (Nat.add_assoc ..).symm

/-- The pending reference to `k` is dropped; other entries that are held or pending stay. -/
theorem lift_dropped {m : M α} (h : Good strict s (plus P k))
    (hm : ∀ {H}, rc s.fs = plus H k → wp m (fun _ t => Go strict none H s.fs t ∧ rc t = H) (Fit strict) s.fs) :
    wp (K.lift m) (fun _ t => Good strict t P ∧ Same s t ∧ ∀ j, 0 < P j → Stable s.fs t.fs j) (Fit strict) s := by
  refine wp_lift.mpr ((hm h.accounts.eq_plus).mono fun _ t ht => ⟨?_, ⟨rfl, rfl⟩, fun j hj => ?_⟩)
  · exact h.go ht.1 (fun j hj => Nat.add_pos_left hj _) fun j => congrFun ht.2 j
  · exact ht.1.held j (Nat.add_pos_right _ hj)

theorem iput_kept (h : Good strict s (plus P k)) : wp (K.lift (iput k))
    (fun _ t => Good strict t P ∧ Same s t ∧ ∀ j, 0 < P j → Stable s.fs t.fs j) (Fit strict) s :=
  lift_dropped h fun hrc => (iput_go h.ok hrc).mono fun _ _ ht => ⟨ht.go hrc h.ok nofun, ht.ref⟩

theorem iunlockput_kept (h : Good strict s (plus P k)) (hk : Ready s.fs k) : wp (K.lift (iunlockput k))
    (fun _ t => Good strict t P ∧ Same s t ∧ ∀ j, 0 < P j → Stable s.fs t.fs j) (Fit strict) s :=
  lift_dropped h fun hrc => drop_go h.ok hrc hk

theorem ilock_kept (h : Good strict s P) (hk : 0 < rc s.fs k) : wp (K.lift (ilock k))
    (fun _ t => Good strict t P ∧ Same s t ∧ Ready t.fs k ∧ node t.fs = node s.fs) (Fit strict) s :=
  lift_kept (Q := fun _ t => Ready t k ∧ node t = node s.fs) h
    ((ilock_go h.ok hk).mono fun _ _ ht => ⟨⟨ht.go h.ok, ht.ref⟩, ht.ready, ht.quiet.node⟩)

theorem iunlock_kept (h : Good strict s P) (hk : Ready s.fs k) : wp (K.lift (iunlock k))
    (fun _ t => Good strict t P ∧ Same s t ∧ Ready t.fs k ∧ node t.fs = node s.fs) (Fit strict) s :=
  lift_kept (Q := fun _ t => Ready t k ∧ node t = node s.fs) h
    ((iunlock_go h.ok hk).mono fun _ _ ht => ⟨⟨ht.go h.ok, ht.ref⟩, ht.ready, ht.quiet.node⟩)

/-! ### Files and processes -/

theorem Good.setFile (h : Good strict s P) (ha : Accounts (s.setFile f x) P') (hx : Opened s.fs x) :
    Good strict (s.setFile f x) P' := by
  refine ⟨h.ok, ha, fun g => ?_, h.dirs⟩
  show Opened s.fs (update s.file f x g)
  rcases eq_or_ne g f with rfl | hne
  · rwa [update_self]
  · rw [update_of_ne hne]; exact h.files g

theorem Good.setProc {y : Proc} (h : Good strict s P) (ha : Accounts (s.setProc p y) P')
    (hy : strict → ∀ k, y.In k → (node s.fs (s.fs.itable k).inum).type ≠ 0) : Good strict (s.setProc p y) P' := by
  refine ⟨h.ok, ha, h.files, fun hs q k hk => ?_⟩
  change (update s.proc p y q).In k at hk
  rcases eq_or_ne q p with rfl | hne
  · rw [update_self] at hk; exact hy hs k hk
  · rw [update_of_ne hne] at hk; exact h.dirs hs q k hk

theorem Good.setOfile (h : Good strict s P) (p : PPtr) (fd : Fin NOFILE) (o : Option FPtr) :
    Good strict (s.setProc p ((s.proc p).setOfile fd o)) P :=
  h.setProc (h.accounts.setOfile p fd o) fun hs k hk => h.dirs hs p k hk

/-- A file like the old one, with another count or offset. -/
theorem Opened.like {y : File} (h : Opened fs x) (hw : y.writable = x.writable) (hk : ∀ k, y.Holds k → x.Holds k) :
    Opened fs y := fun k hy => ⟨(h k (hk k hy)).1, fun hyw => (h k (hk k hy)).2 (hw ▸ hyw)⟩

theorem Good.setOff (h : Good strict s P) (hf : s.file f = x) (off : UInt32) :
    Good strict (s.setFile f (x.setOff off)) P := by
  subst hf
  exact h.setFile (h.accounts.setOff rfl off) ((h.files f).like rfl fun _ => id)

theorem filealloc_kept (h : Good strict s P) : wp filealloc (fun r t => Good strict t P ∧ t.fs = s.fs ∧
    (∀ g, (s.file g).Plain → (t.file g).Plain) ∧ ∀ f, r = some f → (t.file f).Plain) (Fit strict) s := by
  refine (filealloc_spec s).total.mono fun r t ht => ?_
  rcases ht with ⟨rfl, rfl⟩ | ⟨f, rfl, href, rfl⟩
  · exact ⟨h, rfl, fun _ => id, nofun⟩
  · have hplain := h.accounts.plain_setRef href
    have ha : Accounts (s.setFile f ((s.file f).setRef 1)) P :=
      h.accounts.setPlain hplain fun k hk => absurd hk.1 (by omega)
    refine ⟨h.setFile ha (.none hplain.not_holds), rfl, fun g hg => ?_, fun g hg => ?_⟩
    · have hne : g ≠ f := by rintro rfl; exact absurd hg.ref (by omega)
      show (update s.file f _ g).Plain
      rwa [update_of_ne hne]
    · cases hg
      show (update s.file f _ f).Plain
      rwa [update_self]

theorem fit_filedup {e : Panic} (he : e = .filedup) : Fit strict e := by
  subst he
  exact fit_of_fine (by decide) (by decide) (by decide) (by decide) (by decide)

theorem fit_kerneltrap : Fit strict .kerneltrap :=
  fit_of_fine (by decide) (by decide) (by decide) (by decide) (by decide)

theorem filedup_kept (h : Good strict s P) (f : FPtr) : wp (filedup f) (fun _ t => Good strict t P ∧ t.proc = s.proc)
    (Fit strict) s := by
  refine ((filedup_spec s f).weaken fun _ => fit_filedup).mono fun _ t ht => ?_
  obtain ⟨hpos, rfl⟩ := ht
  exact ⟨h.setFile (h.accounts.filedup hpos) ((h.files f).like rfl fun k hk => ⟨hpos, hk.2⟩), rfl⟩

theorem fdalloc_kept (h : Good strict s P) (p : PPtr) (f : FPtr) :
    wp (fdalloc p f) (fun _ t => Good strict t P ∧ t.fs = s.fs ∧ t.file = s.file) (Fit strict) s := by
  refine (fdalloc_spec s p f).total.mono fun r t ht => ?_
  rcases ht with ⟨-, rfl⟩ | ⟨fd, -, rfl⟩
  · exact ⟨h, rfl, rfl⟩
  · exact ⟨h.setOfile p fd _, rfl, rfl⟩

theorem pipeclose_kept (h : Good strict s P) (a : ℕ) (w : Bool) :
    wp (pipeclose a w) (fun _ t => Good strict t P ∧ t.fs = s.fs) (Fit strict) s := by
  rw [pipeclose, wp_bind, wp_get]
  split
  · exact ⟨⟨h.ok, h.accounts.same ⟨rfl, rfl⟩ h.accounts.count, h.files, h.dirs⟩, rfl⟩
  · exact fit_kerneltrap

theorem stable_of_eq {fs fs' : FS} (h : fs' = fs) (k : IPtr) : Stable fs fs' k := by
  subst h
  exact ⟨rfl, id, fun _ => rfl⟩

theorem fileclose_kept (h : Good strict s P) (f : FPtr) :
    wp (fileclose f) (fun _ t => Good strict t P ∧ ∀ j, 0 < P j → Stable s.fs t.fs j) (Fit strict) s := by
  have hstill : ∀ {t : K}, t.fs = s.fs → ∀ j, 0 < P j → Stable s.fs t.fs j := fun ht j _ => stable_of_eq ht j
  have hopen : Opened s.fs (s.file f).release := .none (release_not_holds _)
  rw [fileclose, wp_file]
  refine wp_ite.mpr ⟨fun _ => ?_, fun hpos => wp_ite.mpr ⟨fun hmore => ?_, fun _ => ?_⟩⟩
  · exact fit_of_fine (by decide) (by decide) (by decide) (by decide) (by decide)
  · refine ⟨h.setFile (h.accounts.decRef hmore) ((h.files f).like rfl fun k hk => ⟨?_, hk.2⟩), hstill rfl⟩
    exact Nat.not_lt.mp hpos
  have hput : ((s.file f).type = .inode ∨ (s.file f).type = .device) → wp (K.lift (iput (s.file f).ip))
      (fun _ t => Good strict t P ∧ ∀ j, 0 < P j → Stable s.fs t.fs j) (Fit strict)
      (s.setFile f (s.file f).release) := fun htype =>
    (iput_kept (h.setFile (h.accounts.releaseInode (Nat.not_lt.mp hpos) htype) hopen)).mono
      fun _ t ht => ⟨ht.1, ht.2.2⟩
  have hrelease : (s.file f).type ≠ .inode → (s.file f).type ≠ .device →
      Good strict (s.setFile f (s.file f).release) P := fun hi hd =>
    h.setFile (h.accounts.release (File.not_holds hi hd)) hopen
  cases htype : (s.file f).type with
  | none => exact ⟨hrelease (by rw [htype]; decide) (by rw [htype]; decide), hstill rfl⟩
  | pipe =>
    refine (pipeclose_kept (hrelease (by rw [htype]; decide) (by rw [htype]; decide)) _ _).mono fun _ t ht => ?_
    exact ⟨ht.1, hstill ht.2⟩
  | inode => exact hput (.inl htype)
  | device => exact hput (.inr htype)

theorem pipealloc_kept (h : Good strict s P) (page : Option ℕ) :
    wp (pipealloc page) (fun _ t => Good strict t P) (Fit strict) s := by
  refine (filealloc_kept h).bind fun r t ht => ?_
  obtain ⟨ht, -, -, hrf⟩ := ht
  cases r with
  | none => exact ht
  | some rf =>
    refine (filealloc_kept ht).bind fun r u hu => ?_
    obtain ⟨hu, -, hkeep, hwf⟩ := hu
    cases r with
    | none => exact (fileclose_kept hu rf).bind fun _ v hv => hv.1
    | some wf =>
      cases page with
      | none => exact (fileclose_kept hu rf).bind fun _ v hv => (fileclose_kept hv.1 wf).bind fun _ w hw => hw.1
      | some a =>
        have hrf := hkeep rf (hrf rf rfl)
        have hwf := hwf wf rfl
        have hpipe : Good strict (u.setPipe a (some ⟨true, true⟩)) P :=
          ⟨hu.ok, hu.accounts.same ⟨rfl, rfl⟩ hu.accounts.count, hu.files, hu.dirs⟩
        have hv := hpipe.setFile (hpipe.accounts.setPlain (f := rf) (hrf.toPipe a true false) hrf.not_holds)
          (.none (hrf.toPipe a true false).not_holds)
        have hwf : (update u.file rf ((u.file rf).toPipe a true false) wf).Plain := by
          rcases eq_or_ne wf rf with rfl | hne
          · rw [update_self]; exact hrf.toPipe a true false
          · rwa [update_of_ne hne]
        exact hv.setFile (hv.accounts.setPlain (f := wf) (hwf.toPipe a false true) hwf.not_holds)
          (.none (hwf.toPipe a false true).not_holds)

/-! ### System calls -/

theorem sys_dup_kept (h : Good strict s P) (p : PPtr) (fd : ℤ) :
    wp (sys_dup p fd) (fun _ t => Good strict t P) (Fit strict) s := by
  refine wp_bind.mpr (wp_argfd fun r => ?_)
  cases r with
  | none => exact h
  | some r =>
    obtain ⟨_, f⟩ := r
    refine (fdalloc_kept h p f).bind fun r t ht => ?_
    cases r with
    | none => exact ht.1
    | some fd => exact (filedup_kept ht.1 f).bind fun _ u hu => hu.1

theorem fileread_kept (h : Good strict s P) (f : FPtr) (dst : ℕ → Bool) (n : Int32) (r : ℤ) :
    wp (fileread f dst n r) (fun _ t => Good strict t P) (Fit strict) s := by
  rw [fileread, wp_file]
  refine wp_ite.mpr ⟨fun _ => h, fun _ => ?_⟩
  cases htype : (s.file f).type with
  | pipe => exact h
  | device => exact wp_ite.mpr ⟨fun _ => h, fun _ => h⟩
  | none => exact fit_of_fine (by decide) (by decide) (by decide) (by decide) (by decide)
  | inode =>
    have hpos := h.accounts.users_le (users_pos_file (h.accounts.holds (.inl htype)))
    refine (ilock_kept h hpos).bind fun _ t ht => ?_
    obtain ⟨ht, hsame, hready, -⟩ := ht
    refine wp_bind.mpr (wp_lift.mpr ((readi_still ht.ok hready (UInt32.toNat_lt _) (UInt32.toNat_lt _)).mono
      fun r u hu => ?_))
    subst u
    have hf : t.file f = s.file f := by rw [hsame.file]
    refine wp_ite.mpr ⟨fun _ => ?_, fun _ => ?_⟩
    · exact (iunlock_kept (ht.setOff hf _) hready).bind fun _ v hv => hv.1
    · exact (iunlock_kept ht hready).bind fun _ v hv => hv.1

/-- What a write leaves alone: a file that is writable is no directory. -/
def SameDirs (s t : K) : Prop := ∀ i, (node s.fs i).type = T_DIR → node t.fs i = node s.fs i

theorem SameDirs.trans {u : K} (h : SameDirs s t) (h' : SameDirs t u) : SameDirs s u := fun i hi => by
  rw [h' i (by rw [h i hi, hi]), h i hi]

theorem filewriteLoop_kept (f : FPtr) (src : ℕ → Option UInt8) (n : ℕ) : ∀ rounds i {s : K}, Good strict s P →
    (s.file f).type = .inode → (s.file f).writable = true →
    wp (filewriteLoop f src n rounds i) (fun _ t => Good strict t P ∧ SameDirs s t) (Fit strict) s
  | 0, _, _, h, _, _ => ⟨h, fun _ _ => rfl⟩
  | rounds + 1, i, s, h, htype, hw => by
      rw [filewriteLoop]
      refine wp_ite.mpr ⟨fun _ => ?_, fun _ => ⟨h, fun _ _ => rfl⟩⟩
      have hholds := h.accounts.holds (.inl htype)
      have hend : ∀ (r : ℤ) {t : K}, Good strict t P → (t.file f).type = .inode → (t.file f).writable = true →
          Ready t.fs (s.file f).ip → SameDirs s t → wp (do
          K.lift (iunlock (s.file f).ip)
          if r ≠ (min (n - i) WRITEMAX : ℕ) then return i
          filewriteLoop f src n rounds (i + min (n - i) WRITEMAX)) (fun _ t => Good strict t P ∧ SameDirs s t)
            (Fit strict) t := by
        intro r t ht htype hw hready hdirs
        refine (iunlock_kept ht hready).bind fun _ u hu => ?_
        obtain ⟨hu, hsame, -, hnode⟩ := hu
        have hdirs : SameDirs s u := fun i hi => by rw [hnode, hdirs i hi]
        refine wp_ite.mpr ⟨fun _ => ⟨hu, hdirs⟩, fun _ => ?_⟩
        refine (filewriteLoop_kept f src n rounds _ hu (by rw [hsame.file, htype]) (by rw [hsame.file, hw])).mono ?_
        exact fun _ v hv => ⟨hv.1, hdirs.trans hv.2⟩
      refine (ilock_kept h (h.accounts.users_le (users_pos_file hholds))).bind fun _ t ht => ?_
      obtain ⟨ht, hsame, hready, hnode⟩ := ht
      have hf : t.file f = s.file f := by rw [hsame.file]
      have hdir : (node t.fs (t.fs.itable (s.file f).ip).inum).type ≠ T_DIR := by
        rw [← hf] at hholds hw ⊢
        exact (ht.files f _ hholds).2 hw
      have hn : min (n - i) WRITEMAX < 2 ^ 32 := lt_of_le_of_lt (Nat.min_le_right ..) (by decide)
      refine (lift_kept ht (@writei_go _ _ _ _ _ (fun j => src (i + j)) _ _ ht.ok hready (UInt32.toNat_lt (s.file f).off) hn
        hdir)).bind fun r u hu => ?_
      obtain ⟨hu, hsame', hready, hkeep⟩ := hu
      have hf : u.file f = s.file f := by rw [hsame'.file, hf]
      have hdirs : SameDirs s u := fun i hi => by
        rw [hkeep i (by rw [hnode, hi]), hnode]
      refine wp_ite.mpr ⟨fun _ => ?_, fun _ => ?_⟩
      · refine hend r (hu.setOff hf _) ?_ ?_ hready hdirs
        · show (update u.file f ((s.file f).setOff _) f).type = _
          rw [update_self]; exact htype
        · show (update u.file f ((s.file f).setOff _) f).writable = _
          rw [update_self]; exact hw
      · exact hend r hu (by rw [hf, htype]) (by rw [hf, hw]) hready hdirs

theorem filewrite_kept (h : Good strict s P) (f : FPtr) (src : ℕ → Option UInt8) (n : Int32) (r : ℤ) :
    wp (filewrite f src n r) (fun _ t => Good strict t P ∧ SameDirs s t) (Fit strict) s := by
  have hsame : SameDirs s s := fun _ _ => rfl
  rw [filewrite, wp_file]
  refine wp_ite.mpr ⟨fun _ => ⟨h, hsame⟩, fun hw => ?_⟩
  cases htype : (s.file f).type with
  | pipe => exact ⟨h, hsame⟩
  | device => exact wp_ite.mpr ⟨fun _ => ⟨h, hsame⟩, fun _ => ⟨h, hsame⟩⟩
  | none => exact fit_of_fine (by decide) (by decide) (by decide) (by decide) (by decide)
  | inode => exact (filewriteLoop_kept f src _ _ _ h htype (Bool.of_not_eq_false hw)).bind fun _ t ht => ht

theorem filestat_kept (h : Good strict s P) (f : FPtr) (mapped : Bool) :
    wp (filestat f mapped) (fun _ t => Good strict t P) (Fit strict) s := by
  have hlock : ((s.file f).type = .inode ∨ (s.file f).type = .device) → wp (do
      K.lift (ilock (s.file f).ip)
      K.lift (iunlock (s.file f).ip)
      return if mapped then 0 else -1 : KM ℤ) (fun _ t => Good strict t P) (Fit strict) s := by
    intro htype
    refine (ilock_kept h (h.accounts.users_le (users_pos_file (h.accounts.holds htype)))).bind fun _ t ht => ?_
    exact (iunlock_kept ht.1 ht.2.2.1).bind fun _ u hu => hu.1
  rw [filestat, wp_file]
  cases htype : (s.file f).type with
  | pipe => exact h
  | none => exact h
  | inode => exact hlock (.inl htype)
  | device => exact hlock (.inr htype)

theorem argfd_kept {m : FPtr → KM ℤ} {Q : K → Prop} (h : Q s) (p : PPtr) (fd : ℤ)
    (hm : ∀ f, wp (m f) (fun _ t => Q t) (Fit strict) s) :
    wp (do match ← argfd p fd with | none => return -1 | some (_, f) => m f : KM ℤ) (fun _ t => Q t)
      (Fit strict) s := by
  refine wp_bind.mpr (wp_argfd fun r => ?_)
  cases r with
  | none => exact h
  | some r =>
    obtain ⟨_, f⟩ := r
    exact hm f

theorem sys_write_kept (h : Good strict s P) (p : PPtr) (fd : ℤ) (src : ℕ → Option UInt8) (n : Int32) (r : ℤ) :
    wp (sys_write p fd src n r) (fun _ t => Good strict t P ∧ SameDirs s t) (Fit strict) s :=
  argfd_kept ⟨h, fun _ _ => rfl⟩ p fd fun f => filewrite_kept h f src n r

theorem sys_close_kept (h : Good strict s P) (p : PPtr) (fd : ℤ) :
    wp (sys_close p fd) (fun _ t => Good strict t P) (Fit strict) s := by
  refine wp_bind.mpr (wp_argfd fun r => ?_)
  cases r with
  | none => exact h
  | some r =>
    obtain ⟨fd, f⟩ := r
    exact (fileclose_kept (h.setOfile p fd none) f).bind fun _ t ht => ht.1

theorem sys_unlink_kept (h : Good strict s P) (p : PPtr) (path : Option Str) :
    wp (sys_unlink p path) (fun _ t => Good strict t P) (Fit strict) s := by
  rw [sys_unlink]
  cases argstr path with
  | none => exact h
  | some path =>
    refine wp_bind.mpr (wp_cwd fit_kerneltrap fun k hk => ?_)
    exact lift_kept' h (unlink_go path h.ok (h.accounts.cwd_pos hk))

theorem sys_exec_kept (h : Good strict s P) (p : PPtr) (path : Option Str) (mem : ℕ → Bool) (stack : Bool) :
    wp (sys_exec p path mem stack) (fun _ t => Good strict t P) (Fit strict) s := by
  rw [sys_exec]
  cases argstr path with
  | none => exact h
  | some path =>
    refine wp_bind.mpr (wp_cwd fit_kerneltrap fun k hk => ?_)
    exact lift_kept' h (exec_go path mem stack h.ok (h.accounts.cwd_pos hk))

theorem sys_link_kept (h : Good strict s P) (p : PPtr) (old new : Option Str) :
    wp (sys_link p old new) (fun _ t => Good strict t P) (Fit strict) s := by
  rw [sys_link]
  split
  · rename_i old new _ _
    refine wp_bind.mpr (wp_cwd fit_kerneltrap fun k hk => ?_)
    exact lift_kept' h (link_go old new h.ok (h.accounts.cwd_pos hk))
  · exact h

theorem sysCreate_kept {type : ℕ} (h : Good strict s fun _ => 0) (p : PPtr) (path : Option Str) (htype : type ≠ 0)
    (hfits : type < 2 ^ 16) (major minor : ℕ) :
    wp (sysCreate p path type major minor) (fun _ t => Good strict t fun _ => 0) (Fit strict) s := by
  rw [sysCreate]
  cases argstr path with
  | none => exact h
  | some path =>
    refine wp_bind.mpr (wp_cwd fit_kerneltrap fun k hk => ?_)
    refine (lift_taken h (create_go path major minor h.ok (h.accounts.cwd_pos hk) htype hfits h.used)).bind
      fun r t ht => ?_
    cases r with
    | none => exact ht.1
    | some ip => exact (iunlockput_kept ht.1 (ht.2.2 ip rfl).1).bind fun _ u hu => hu.1

theorem writable_zero {omode : UInt32} (h : omode = 0) : ¬ (omode &&& O_WRONLY ≠ 0 ∨ omode &&& O_RDWR ≠ 0) := by
  subst h
  decide

theorem sys_open_kept (h : Good strict s fun _ => 0) (p : PPtr) (path : Option Str) (omode : UInt32) :
    wp (sys_open p path omode) (fun _ t => Good strict t fun _ => 0) (Fit strict) s := by
  rw [sys_open]
  cases argstr path with
  | none => exact h
  | some path =>
    refine wp_bind.mpr (wp_cwd fit_kerneltrap fun k hk => ?_)
    refine (lift_taken h (openInode_go path omode h.ok (h.accounts.cwd_pos hk) h.used)).bind fun r t ht => ?_
    cases r with
    | none => exact ht.1
    | some ip =>
      obtain ⟨ht, -, hready⟩ := ht
      obtain ⟨hready, hmode⟩ := hready ip rfl
      have ht : Good strict t (plus (fun _ => 0) ip) := ht
      have hdrop : ∀ {t}, Good strict t (plus (fun _ => 0) ip) → Ready t.fs ip →
          wp (do K.lift (iunlockput ip); return -1 : KM ℤ) (fun _ t => Good strict t fun _ => 0) (Fit strict) t :=
        fun ht hr => (iunlockput_kept ht hr).bind fun _ u hu => hu.1
      refine wp_bind.mpr (wp_lift.mpr (wp_inode.mpr ?_))
      refine wp_ite.mpr ⟨fun _ => hdrop ht hready, fun _ => ?_⟩
      refine (filealloc_kept ht).bind fun r u hu => ?_
      obtain ⟨hu, hfs, -, hplain⟩ := hu
      have hready : Ready u.fs ip := by rw [hfs]; exact hready
      cases r with
      | none => exact hdrop hu hready
      | some f =>
        refine (fdalloc_kept hu p f).bind fun r v hv => ?_
        obtain ⟨hv, hfs', hfile⟩ := hv
        have hready : Ready v.fs ip := by rw [hfs']; exact hready
        cases r with
        | none =>
          refine (fileclose_kept hv f).bind fun _ w hw => hdrop hw.1 ?_
          exact ⟨hw.1.accounts.pending (plus_pos _ ip), (hw.2 ip (plus_pos _ ip)).valid hready.valid⟩
        | some fd =>
          have hplain : (v.file f).Plain := by rw [hfile]; exact hplain f rfl
          have hd : (t.fs.itable ip).d.type = (node v.fs (v.fs.itable ip).inum).type := by
            rw [← hready.node_type hv.ok.wf, hfs', hfs]
          have hmode : (node v.fs (v.fs.itable ip).inum).type = T_DIR → omode = 0 := by rw [hfs', hfs]; exact hmode
          have hopened : Opened v.fs ((v.file f).toInode ip (t.fs.itable ip).d omode) := by
            rintro k ⟨-, -, rfl⟩
            refine ⟨?_, fun hw hdir => writable_zero (hmode hdir) (of_decide_eq_true hw)⟩
            show (node v.fs (v.fs.itable ip).inum).type ≠ 0
            rw [← hready.node_type hv.ok.wf, hready.d hv.ok.wf]
            exact (hready.live hv.ok.wf).2
          have hw := hv.setFile (hv.accounts.toInode hplain (t.fs.itable ip).d omode) hopened
          refine wp_ite.mpr ⟨fun htrunc => ?_, fun _ => ?_⟩
          · have hdir : (node v.fs (v.fs.itable ip).inum).type ≠ T_DIR := by
              rw [← hd, htrunc.2]; decide
            have hit := itrunc_go (H := rc v.fs) hv.ok hready hdir
            refine (lift_kept hw hit).bind fun _ y hy => ?_
            exact (iunlock_kept hy.1 hy.2.2).bind fun _ z hz => hz.1
          · exact (iunlock_kept hw hready).bind fun _ y hy => hy.1

theorem sys_pipe_kept (h : Good strict s P) (p : PPtr) (page : Option ℕ) (copied : Bool) :
    wp (sys_pipe p page copied) (fun _ t => Good strict t P) (Fit strict) s := by
  refine (pipealloc_kept h page).bind fun r t ht => ?_
  cases r with
  | none => exact ht
  | some r =>
    obtain ⟨rf, wf⟩ := r
    have hclose : ∀ {t}, Good strict t P → wp (do fileclose rf; fileclose wf; return -1 : KM ℤ)
        (fun _ t => Good strict t P) (Fit strict) t :=
      fun ht => (fileclose_kept ht rf).bind fun _ t ht => (fileclose_kept ht.1 wf).bind fun _ t ht => ht.1
    refine (fdalloc_kept ht p rf).bind fun r t ht => ?_
    cases r with
    | none => exact hclose ht.1
    | some fd0 =>
      refine (fdalloc_kept ht.1 p wf).bind fun r t ht => ?_
      cases r with
      | none => exact hclose (ht.1.setOfile p fd0 none)
      | some fd1 =>
        refine wp_ite.mpr ⟨fun _ => ht.1, fun _ => ?_⟩
        exact hclose ((ht.1.setOfile p fd0 none).setOfile p fd1 none)

/-- `iput` of a process's current directory, before the process gets `y`. -/
theorem iput_cwd_kept {y : Proc} (h : Good strict s P) (hcwd : (s.proc p).cwd = some k)
    (hP : ∀ j, P j = if y.In j then 1 else 0) (hgone : y.state ≠ .used → y.cwd = none)
    (hy : strict → ∀ j, y.In j → (node s.fs (s.fs.itable j).inum).type ≠ 0) :
    wp (K.lift (iput k)) (fun _ t => Good strict (t.setProc p y) (fun _ => 0) ∧ Same s t) (Fit strict) s := by
  have hrc := h.accounts.eq_plus_cwd hcwd hP
  refine wp_lift.mpr ((iput_go h.ok hrc).mono fun _ t ht => ⟨?_, rfl, rfl⟩)
  have hgo : Go strict none (users (s.setProc p y)) s.fs t := ht.go hrc h.ok nofun
  have hstable : ∀ {q j}, ((s.setProc p y).proc q).In j → (node s.fs (s.fs.itable j).inum).type ≠ 0 →
      (node t (t.itable j).inum).type ≠ 0 := by
    intro q j hj h0
    have hst := hgo.held j (users_pos_proc hj)
    rw [hst.inum, hst.type h0]
    exact h0
  refine ⟨hgo.ok, h.accounts.setProc hgone (fun j => congrFun ht.ref j) ⟨rfl, rfl⟩, fun f => ?_,
    fun hs q j hj => hstable hj ?_⟩
  · exact (h.files f).stable fun j hj => hgo.held j (users_pos_file (s := s.setProc p y) hj)
  · change (update s.proc p y q).In j at hj
    rcases eq_or_ne q p with rfl | hne
    · rw [update_self] at hj; exact hy hs j hj
    · rw [update_of_ne hne] at hj; exact h.dirs hs q j hj

theorem sys_chdir_kept (h : Good strict s fun _ => 0) (hp : (s.proc p).state = .used) (path : Option Str) :
    wp (sys_chdir p path) (fun _ t => Good strict t fun _ => 0) (Fit strict) s := by
  rw [sys_chdir]
  cases argstr path with
  | none => exact h
  | some path =>
    refine wp_bind.mpr (wp_cwd fit_kerneltrap fun k hk => ?_)
    have hnamei : wp (namei k path) (fun r t => Go strict none (rc s.fs) s.fs t ∧ rc t = more (rc s.fs) r ∧ True)
        (Fit strict) s.fs := (namei_go path h.ok (h.accounts.cwd_pos hk)).mono fun _ _ ht => ⟨ht.1, ht.2, trivial⟩
    refine (lift_taken h hnamei).bind fun r t ht => ?_
    cases r with
    | none => exact ht.1
    | some ip =>
      have hgood : Good strict t (plus (fun _ => 0) ip) := ht.1
      refine (ilock_kept hgood (hgood.accounts.pending (plus_pos _ ip))).bind fun _ t₁ h₁ => ?_
      refine wp_bind.mpr (wp_lift.mpr (wp_inode.mpr ?_))
      refine wp_ite.mpr ⟨fun _ => (iunlockput_kept h₁.1 h₁.2.2.1).bind fun _ u hu => hu.1, fun _ => ?_⟩
      refine (iunlock_kept h₁.1 h₁.2.2.1).bind fun _ t₂ h₂ => ?_
      have hready := h₂.2.2.1
      have hused : (t₂.proc p).state = .used := by rw [h₂.2.1.proc, h₁.2.1.proc, ht.2.1.proc, hp]
      refine wp_bind.mpr (wp_cwd fit_kerneltrap fun k hk => ?_)
      refine (iput_cwd_kept (y := (t₂.proc p).setCwd (some ip)) h₂.1 hk (fun j => pending_cwd ip j)
        (fun hne => absurd hused hne) fun _ j hj => ?_).bind fun _ u hu => ?_
      · cases hj
        rw [← hready.node_type h₂.1.ok.wf, hready.d h₂.1.ok.wf]
        exact (hready.live h₂.1.ok.wf).2
      · show Good strict (u.setProc p ((u.proc p).setCwd (some ip))) _
        rw [hu.2.proc]
        exact hu.1

/-- A process starts, the pending reference as its current directory. -/
theorem start_kept {r : Option IPtr} (h : Good strict s (more (fun _ => 0) r)) (hcwd : (s.proc p).cwd = none)
    (hr : strict → ∀ k, r = some k → (node s.fs (s.fs.itable k).inum).type ≠ 0) :
    wp (do setCwd p r; setState p .used : KM Unit) (fun _ t => Good strict t fun _ => 0) (Fit strict) s := by
  refine ⟨h.ok, start_accounts h.accounts hcwd, h.files, fun hs q k hk => ?_⟩
  change (update (update s.proc p _) p _ q).In k at hk
  rw [update_idem] at hk
  rcases eq_or_ne q p with rfl | hne
  · rw [update_self] at hk
    change (update s.proc q ((s.proc q).setCwd r) q).cwd = some k at hk
    rw [update_self] at hk
    exact hr hs k hk
  · rw [update_of_ne hne] at hk; exact h.dirs hs q k hk

theorem dupAll_kept (p np : PPtr) : ∀ fds {s : K}, Good strict s P → wp (dupAll p np fds) (fun _ t => Good strict t P ∧
    (t.proc np).state = (s.proc np).state) (Fit strict) s
  | [], _, h => ⟨h, rfl⟩
  | fd :: fds, s, h => by
      rw [dupAll, wp_proc]
      dsimp only
      cases (s.proc p).ofile fd with
      | none => exact dupAll_kept p np fds h
      | some f =>
        refine (filedup_kept h f).bind fun _ t ht => ?_
        refine (dupAll_kept p np fds (ht.1.setOfile np fd (some f))).mono fun _ u hu => ⟨hu.1, ?_⟩
        rw [hu.2, ← ht.2]
        show (update t.proc np _ np).state = _
        rw [update_self]; rfl

theorem fork_kept (h : Good strict s fun _ => 0) (p : PPtr) (memory : Bool) :
    wp (fork p memory) (fun _ t => Good strict t fun _ => 0) (Fit strict) s := by
  rw [fork, wp_bind, wp_get]
  split
  · exact h
  · rename_i np hnp
    have hunused : (s.proc np).state = .unused := by simpa using List.find?_some hnp
    refine wp_ite.mpr ⟨fun _ => ?_, fun _ => h⟩
    refine (dupAll_kept p np _ h).bind fun _ t ht => wp_bind.mpr (wp_cwd fit_kerneltrap fun k hk => ?_)
    have hgone : (t.proc np).cwd = none := ht.1.accounts.gone np (by rw [ht.2, hunused]; decide)
    refine wp_bind.mpr (wp_lift.mpr ((idup_go ht.1.ok (ht.1.accounts.cwd_pos hk)).mono fun j u hu => ?_))
    obtain ⟨rfl, hgo, hrc⟩ := hu
    have hgood : Good strict { t with fs := u } (more (fun _ => 0) (some j)) := by
      refine ht.1.go hgo (fun i => ht.1.accounts.users_le) fun i => ?_
      rw [hrc]
      exact (more_apply (rc t.fs) (some j) i).trans (by rw [ht.1.accounts.count, Nat.add_zero])
    refine start_kept hgood hgone fun hs i hi => ?_
    cases hi
    have h0 := ht.1.dirs hs p j hk
    have hst := hgo.held j (ht.1.accounts.cwd_pos hk)
    show (node u (u.itable j).inum).type ≠ 0
    rw [hst.inum, hst.type h0]
    exact h0

theorem closeAll_kept (p : PPtr) : ∀ fds {s : K}, Good strict s P →
    wp (closeAll p fds) (fun _ t => Good strict t P) (Fit strict) s
  | [], _, h => h
  | fd :: fds, s, h => by
      rw [closeAll, wp_proc]
      dsimp only
      cases (s.proc p).ofile fd with
      | none => exact closeAll_kept p fds h
      | some f =>
        refine (fileclose_kept h f).bind fun _ t ht => ?_
        exact closeAll_kept p fds (ht.1.setOfile p fd none)

theorem exit_kept (h : Good strict s fun _ => 0) (p : PPtr) :
    wp (exit p) (fun _ t => Good strict t fun _ => 0) (Fit strict) s := by
  refine wp_ite.mpr ⟨fun _ => fit_of_fine (by decide) (by decide) (by decide) (by decide) (by decide), fun _ => ?_⟩
  refine (closeAll_kept p _ h).bind fun _ t ht => wp_bind.mpr (wp_cwd fit_kerneltrap fun k hk => ?_)
  refine (iput_cwd_kept (y := ((t.proc p).setCwd none).setState .zombie) ht hk
    (fun j => (if_neg (Proc.not_in rfl j)).symm) (fun _ => rfl) fun _ j hj => absurd hj (Proc.not_in rfl j)).bind
    fun _ u hu => ?_
  have hproc : ((u.setProc p ((u.proc p).setCwd none)).setProc p
      ((update u.proc p ((u.proc p).setCwd none) p).setState .zombie)) =
      u.setProc p (((t.proc p).setCwd none).setState .zombie) := by
    simp only [K.setProc, update_idem, update_self, hu.2.proc]
  have hgood := hu.1
  rw [← hproc] at hgood
  exact hgood

theorem wait_kept (h : Good strict s fun _ => 0) {c : PPtr} (hc : (s.proc c).state = .zombie) (copied : Bool) :
    wp (wait c copied) (fun _ t => Good strict t fun _ => 0) (Fit strict) s := by
  refine wp_ite.mpr ⟨fun hcopied => ?_, fun _ => h⟩
  have ha : Idle (s.setProc c ((s.proc c).setState .unused)) := by
    have := wait_accounts h.accounts hc true
    exact (wp_ite.mp this).1 rfl
  exact h.setProc ha fun hs k hk => h.dirs hs c k hk

theorem run_kept (h : Good strict s fun _ => 0) {c : Syscall} (hc : Calls s p c) :
    wp (c.run p) (fun _ t => Good strict t fun _ => 0) (Fit strict) s := by
  cases c with
  | fork memory => exact fork_kept h p memory
  | exit => exact exit_kept h p
  | wait c copied => exact wait_kept h hc.2 copied
  | pipe page copied => exact sys_pipe_kept h p page copied
  | read fd dst n r => exact argfd_kept h p fd fun f => fileread_kept h f dst n r
  | exec path mem stack => exact sys_exec_kept h p path mem stack
  | fstat fd mapped => exact argfd_kept h p fd fun f => filestat_kept h f mapped
  | chdir path => exact sys_chdir_kept h hc.1 path
  | dup fd => exact sys_dup_kept h p fd
  | «open» path omode => exact sys_open_kept h p path omode
  | write fd src n r => exact (sys_write_kept h p fd src n r).mono fun _ t ht => ht.1
  | mknod path major minor => exact sysCreate_kept h p path (by decide) (by decide) major minor
  | unlink path => exact sys_unlink_kept h p path
  | link old new => exact sys_link_kept h p old new
  | mkdir path => exact sysCreate_kept h p path (by decide) (by decide) 0 0
  | close fd => exact sys_close_kept h p fd

/-! ### Runs -/

theorem Good.evict (h : Good strict s P) (b : ℕ) : Good strict { s with fs := s.fs.evict b } P := by
  have he := h.ok.wf.evict b
  have htype : ∀ k, (node (s.fs.evict b) ((s.fs.evict b).itable k).inum).type = (node s.fs (s.fs.itable k).inum).type :=
    fun k => by rw [he.itable, node, nodeOf_type, he.dinode, node, nodeOf_type]
  refine ⟨h.ok.evict b, h.accounts.same ⟨rfl, rfl⟩ fun k => ?_, fun f k hk => ?_, fun hs p k hk => ?_⟩
  · show rc (s.fs.evict b) k = _
    rw [rc_evict, h.accounts.count]
  · show (node (s.fs.evict b) ((s.fs.evict b).itable k).inum).type ≠ 0 ∧ _
    rw [htype]; exact h.files f k hk
  · show (node (s.fs.evict b) ((s.fs.evict b).itable k).inum).type ≠ 0
    rw [htype]; exact h.dirs hs p k hk

theorem step_kept {e : Event} (h : Good strict s fun _ => 0) (he : step s e = some t) : Good strict t fun _ => 0 := by
  cases e with
  | call p c =>
    rw [step] at he
    split at he
    · rename_i hc
      obtain ⟨-, ht⟩ := (run_kept h hc).after he
      exact ht
    · cases he
  | evict b =>
    cases he
    exact h.evict b

/-- Directory entries name inodes that exist. -/
def Entered (s : FS) : Prop := ∀ i, (node s i).type = T_DIR → ∀ k, (node s i).Has k →
  ((node s i).dirent k).inum < s.sb.ninodes

theorem ok_of_image (h : Image fs) (hd : Entered fs) : Ok False none fs :=
  ⟨h.wf, fun i hi => ⟨hd i hi, False.elim, False.elim⟩, False.elim, False.elim⟩

theorem fresh_dirent : ∀ k, k < BSIZE / DESIZE →
    ((node (.fresh .std) ROOTINO).dirent k).inum = if k < 2 then ROOTINO else 0 := by decide +kernel

theorem fresh_dir {i : ℕ} (hi : (node (.fresh .std) i).type = T_DIR) : i = ROOTINO := by
  by_contra hne
  rw [node, dinode_fresh _ Superblock.std_small, update_of_ne hne, nodeOf_type] at hi
  exact absurd hi (by decide)

theorem fresh_size : (node (.fresh .std) ROOTINO).size = BSIZE := by
  rw [node, dinode_fresh _ Superblock.std_small, update_self, nodeOf_live (by decide)]
  rfl

theorem fresh_has {k : ℕ} (hk : (node (.fresh .std) ROOTINO).Has k) : k < BSIZE / DESIZE := by
  rw [Node.Has, fresh_size] at hk
  simp only [DESIZE, BSIZE] at *
  omega

theorem entered_fresh : Entered (.fresh .std) := by
  intro i hi k hk
  obtain rfl := fresh_dir hi
  rw [fresh_dirent k (fresh_has hk)]
  split <;> decide

theorem namei_root (h : Ok strict none fs) (cwd : IPtr) : wp (namei cwd rootPath) (fun r t => ∃ k, r = some k ∧
    Got fs ROOTINO k t) (Fit strict) fs := by
  rw [namei, namex, if_pos (by rfl), wp_bind, wp_bind]
  exact ((iget_spec h.wf fs.sb.root).weaken fun _ => fit_iget).mono fun k t ht => ⟨k, rfl, ht⟩

theorem boot_kept (h : Ok strict none fs) (hempty : ∀ k, rc fs k = 0) (hroot : strict → (node fs ROOTINO).type ≠ 0)
    (hboot : boot fs = some t) : Good strict t fun _ => 0 := by
  have haccounts : Idle (K.zero fs) := by
    refine ⟨fun k => ?_, fun _ _ => rfl, fun _ _ => rfl⟩
    have h1 : users (K.zero fs) k = 0 := by
      rw [users, slots_eq_zero fun f hf => absurd hf.1 (Nat.lt_irrefl 0), slots_eq_zero fun p => Proc.not_in rfl k]
    rw [h1]
    exact hempty k
  have hzero : Good strict (K.zero fs) fun _ => 0 :=
    ⟨h, haccounts, fun f => .none fun k hk => absurd hk.1 (Nat.lt_irrefl 0), fun _ p k hk => absurd hk (Proc.not_in rfl k)⟩
  have hrun : wp userinit (fun _ t => Good strict t fun _ => 0) (Fit strict) (K.zero fs) := by
    have hnamei : wp (namei 0 rootPath) (fun r t => Go strict none (rc fs) fs t ∧ rc t = more (rc fs) r ∧
        ∀ k, r = some k → (t.itable k).inum = ROOTINO ∧ node t = node fs) (Fit strict) fs := by
      refine (namei_root h 0).mono fun r t ht => ?_
      obtain ⟨k, rfl, hgot⟩ := ht
      refine ⟨hgot.go h fun _ => Nat.one_ne_zero, hgot.ref, fun j hj => ?_⟩
      cases hj
      exact ⟨hgot.inum, hgot.quiet.node⟩
    refine (lift_taken hzero hnamei).bind fun r t ht => ?_
    refine start_kept ht.1 (by rw [ht.2.1.proc]; rfl) fun hs k hk => ?_
    obtain ⟨h1, h2⟩ := ht.2.2 k hk
    rw [h1, h2]
    exact hroot hs
  obtain ⟨-, ht⟩ := hrun.after hboot
  exact ht

theorem runs_kept {es : List Event} (h : Image fs) (hd : Entered fs) (hboot : boot fs = some s)
    (hrun : run step s es = some t) : Good False t fun _ => 0 :=
  run_inv (fun _ _ _ => step_kept) (boot_kept (ok_of_image h hd) h.empty False.elim hboot) hrun

end Minios.Sysfile
