import Minios.Schemes.Ledger
import Minios.Fs.Counts
import Minios.Fs.Mkfs
import Minios.Sysfile.Calls

/-! `kernel/sysfile.c`: inode references balance.

    Between system calls each reference counted in the inode table is one that an open file or a current
    directory holds. Within a call some are pending: taken, and not yet kept anywhere or dropped (`Accounts`). -/

namespace Minios.Sysfile
open Schemes Function Fs

variable {s t : FS} {H : IPtr → ℕ} {k dp ip : IPtr}

/-! ### The parts of the calls that run in the file system -/

theorem plus_comm (H : IPtr → ℕ) (j k : IPtr) : plus (plus H j) k = plus (plus H k) j :=
  funext fun _ => Nat.add_right_comm ..

theorem linkUndo_rc (h : rc s = plus H ip) : wp (linkUndo ip) (fun _ t => rc t = H) (fun _ => True) s := by
  refine (preserves_ilock ip).seq h fun _ t ht => (preserves_setD ip _).seq ht fun _ t ht => ?_
  refine (preserves_iupdate ip).seq ht fun _ t ht => ?_
  exact wp_bind.mpr (iunlockput_rc ht)

theorem preserves_link (cwd : IPtr) (old new : Str) : Preserves rc (link cwd old new) := by
  intro s
  refine (namei_rc cwd old s).bind fun r t ht => ?_
  cases r with
  | none => exact ht
  | some ip =>
    have ht : rc t = plus (rc s) ip := ht
    refine (preserves_ilock ip).seq ht fun _ t ht => (preserves_inode ip).seq ht fun x t ht => ?_
    split
    · exact wp_bind.mpr (iunlockput_rc ht)
    refine (preserves_setD ip _).seq ht fun _ t ht => (preserves_iupdate ip).seq ht fun _ t ht => ?_
    refine (preserves_iunlock ip).seq ht fun _ t ht => ?_
    refine (namex_rc cwd new true t).bind fun r u hu => ?_
    rw [ht] at hu
    cases r with
    | none => exact linkUndo_rc hu
    | some r =>
      obtain ⟨dp, name⟩ := r
      refine (preserves_ilock dp).seq hu fun _ t ht => (preserves_dirlink dp name _).seq ht fun r t ht => ?_
      refine (iunlockput_rc ht).bind fun _ t ht => ?_
      split
      · exact linkUndo_rc ht
      · exact wp_bind.mpr (iput_rc ht)

theorem preserves_dirfull (ip : IPtr) : Preserves rc (dirfull ip) :=
  .bind (preserves_inode ip) fun _ => .ite (.bind (preserves_isdirempty ip) fun _ => .pure _) (.pure _)

theorem unlinkEntry_rc (off : ℕ) (h : rc s = plus (plus H dp) ip) :
    wp (unlinkEntry dp ip off) (fun _ t => rc t = H) (fun _ => True) s := by
  refine (preserves_inode ip).seq h fun x t ht => wp_ite.mpr ⟨fun _ => trivial, fun _ => ?_⟩
  refine (preserves_dirfull ip).seq ht fun full t ht => ?_
  split
  · exact (iunlockput_rc ht).bind fun _ t ht => wp_bind.mpr (iunlockput_rc ht)
  have hend : ∀ t, rc t = plus (plus H dp) ip → wp (do
      iunlockput dp; setD ip .unlink; iupdate ip; iunlockput ip; return 0 : M ℤ) (fun _ t => rc t = H) (fun _ => True) t := by
    intro t ht
    rw [plus_comm] at ht
    refine (iunlockput_rc ht).bind fun _ t ht => (preserves_setD ip _).seq ht fun _ t ht => ?_
    exact (preserves_iupdate ip).seq ht fun _ t ht => wp_bind.mpr (iunlockput_rc ht)
  refine (preserves_writeDirent dp off _).seq ht fun r t ht => wp_ite.mpr ⟨fun _ => trivial, fun _ => ?_⟩
  refine wp_ite.mpr ⟨fun _ => ?_, fun _ => ?_⟩
  · exact (preserves_setD dp _).seq ht fun _ t ht => (preserves_iupdate dp).seq ht fun _ t ht => hend t ht
  · exact hend t ht

theorem preserves_unlink (cwd : IPtr) (path : Str) : Preserves rc (unlink cwd path) := by
  intro s
  refine (namex_rc cwd path true s).bind fun r t ht => ?_
  cases r with
  | none => exact ht
  | some r =>
    obtain ⟨dp, name⟩ := r
    have ht : rc t = plus (rc s) dp := ht
    refine (preserves_ilock dp).seq ht fun _ t ht => ?_
    split
    · exact wp_bind.mpr (iunlockput_rc ht)
    refine (dirlookup_rc dp name t).bind fun r u hu => ?_
    rw [ht] at hu
    cases r with
    | none => exact wp_bind.mpr (iunlockput_rc hu)
    | some r =>
      obtain ⟨ip, off⟩ := r
      exact (preserves_ilock ip).seq hu fun _ t ht => unlinkEntry_rc off ht

theorem createFail_rc (h : rc s = plus (plus H dp) ip) :
    wp (createFail dp ip) (fun r t => rc t = more H r) (fun _ => True) s := by
  refine (preserves_setD ip _).seq h fun _ t ht => (preserves_iupdate ip).seq ht fun _ t ht => ?_
  exact (iunlockput_rc ht).bind fun _ t ht => wp_bind.mpr (iunlockput_rc ht)

theorem preserves_createDots (dp ip : IPtr) (type : ℕ) : Preserves rc (createDots dp ip type) :=
  .ite (.bind (preserves_inode dp) fun _ => .bind (preserves_inode ip) fun _ =>
    .bind (preserves_dirlink ip _ _) fun _ => .ite (.pure _) (preserves_dirlink ip _ _)) (.pure _)

theorem createNew_rc (name : Name) (type major minor : ℕ) (h : rc s = plus (plus H dp) ip) :
    wp (createNew dp name ip type major minor) (fun r t => rc t = more H r) (fun _ => True) s := by
  have hend : ∀ t, rc t = plus (plus H dp) ip → wp (do iunlockput dp; return some ip : M (Option IPtr))
      (fun r t => rc t = more H r) (fun _ => True) t := fun t ht =>
    wp_bind.mpr (iunlockput_rc (plus_comm .. ▸ ht))
  refine (preserves_ilock ip).seq h fun _ t ht => (preserves_setD ip _).seq ht fun _ t ht => ?_
  refine (preserves_iupdate ip).seq ht fun _ t ht => (preserves_createDots dp ip type).seq ht fun r t ht => ?_
  split
  · exact createFail_rc ht
  refine (preserves_inode ip).seq ht fun new t ht => (preserves_dirlink dp name _).seq ht fun r t ht => ?_
  split
  · exact createFail_rc ht
  refine wp_ite.mpr ⟨fun _ => ?_, fun _ => ?_⟩
  · exact (preserves_setD dp _).seq ht fun _ t ht => (preserves_iupdate dp).seq ht fun _ t ht => hend t ht
  · exact hend t ht

theorem createOld_rc (type : ℕ) (h : rc s = plus (plus H dp) ip) :
    wp (createOld dp ip type) (fun r t => rc t = more H r) (fun _ => True) s := by
  rw [plus_comm] at h
  refine (iunlockput_rc h).bind fun _ t ht => (preserves_ilock ip).seq ht fun _ t ht => ?_
  refine (preserves_inode ip).seq ht fun x t ht => ?_
  split
  · exact ht
  · exact wp_bind.mpr (iunlockput_rc ht)

theorem create_rc (cwd : IPtr) (path : Str) (type major minor : ℕ) (s : FS) :
    wp (create cwd path type major minor) (fun r t => rc t = more (rc s) r) (fun _ => True) s := by
  refine (namex_rc cwd path true s).bind fun r t ht => ?_
  cases r with
  | none => exact ht
  | some r =>
    obtain ⟨dp, name⟩ := r
    have ht : rc t = plus (rc s) dp := ht
    refine (preserves_ilock dp).seq ht fun _ t ht => (dirlookup_rc dp name t).bind fun r u hu => ?_
    rw [ht] at hu
    cases r with
    | some r =>
      obtain ⟨ip, _⟩ := r
      exact createOld_rc type hu
    | none =>
      refine (ialloc_rc type u).bind fun r v hv => ?_
      rw [hu] at hv
      cases r with
      | none => exact wp_bind.mpr (iunlockput_rc hv)
      | some ip => exact createNew_rc name type major minor hv

theorem openInode_rc (cwd : IPtr) (path : Str) (omode : UInt32) (s : FS) :
    wp (openInode cwd path omode) (fun r t => rc t = more (rc s) r) (fun _ => True) s := by
  rw [openInode]
  split
  · exact create_rc cwd path _ _ _ s
  refine (namei_rc cwd path s).bind fun r t ht => ?_
  cases r with
  | none => exact ht
  | some ip =>
    have ht : rc t = plus (rc s) ip := ht
    refine (preserves_ilock ip).seq ht fun _ t ht => (preserves_inode ip).seq ht fun x t ht => ?_
    split
    · exact wp_bind.mpr (iunlockput_rc ht)
    · exact ht

theorem preserves_readHeader (ip : IPtr) (off size : ℕ) : Preserves rc (readHeader ip off size) :=
  .bind (preserves_readi ip _ _ _) fun _ => .pure _

theorem preserves_loadsegLoop (ip : IPtr) (offset sz : ℕ) : ∀ rounds i, Preserves rc (loadsegLoop ip offset sz rounds i)
  | 0, _ => .pure _
  | rounds + 1, i => by
      rw [loadsegLoop]
      refine .ite (.bind (preserves_readi ip _ _ _) fun r => ?_) (.pure _)
      exact .ite (preserves_loadsegLoop ip offset sz rounds _) (.pure _)

theorem preserves_loadProgram (ip : IPtr) (mem : ℕ → Bool) : ∀ rounds off j, Preserves rc (loadProgram ip mem rounds off j)
  | 0, _, _ => .pure _
  | rounds + 1, off, j => by
      rw [loadProgram]
      refine .bind (preserves_readHeader ip _ _) fun r => ?_
      cases r with
      | none => exact .pure _
      | some ph =>
        refine .ite (preserves_loadProgram ip mem rounds _ _) (.ite (.pure _) ?_)
        refine .bind (preserves_loadsegLoop ip _ _ _ _) fun ok => ?_
        exact .ite (preserves_loadProgram ip mem rounds _ _) (.pure _)

theorem preserves_loadImage (ip : IPtr) (mem : ℕ → Bool) : Preserves rc (loadImage ip mem) := by
  refine .bind (preserves_readHeader ip _ _) fun r => ?_
  cases r with
  | none => exact .pure _
  | some elf => exact .ite (.pure _) (preserves_loadProgram ip mem _ _ _)

theorem preserves_exec (cwd : IPtr) (path : Str) (mem : ℕ → Bool) (stack : Bool) :
    Preserves rc (exec cwd path mem stack) := by
  intro s
  refine (namei_rc cwd path s).bind fun r t ht => ?_
  cases r with
  | none => exact ht
  | some ip =>
    have ht : rc t = plus (rc s) ip := ht
    refine (preserves_ilock ip).seq ht fun _ t ht => (preserves_loadImage ip mem).seq ht fun ok t ht => ?_
    exact wp_bind.mpr (iunlockput_rc ht)

/-! ### Who holds the references -/

section Kernel
variable {s t : K} {P P' : IPtr → ℕ} {α : Type} {m : M α} {f : FPtr} {p : PPtr} {x : File} {y : Proc}

/-- The file refers to entry `k`. -/
def File.Holds (k : IPtr) (x : File) : Prop := 0 < x.ref ∧ (x.type = .inode ∨ x.type = .device) ∧ x.ip = k

instance (k : IPtr) : DecidablePred (File.Holds k) := fun _ => inferInstanceAs (Decidable (_ ∧ _))

/-- Entry `k` is the current directory. -/
def Proc.In (k : IPtr) (y : Proc) : Prop := y.cwd = some k

instance (k : IPtr) : DecidablePred (Proc.In k) := fun y => inferInstanceAs (Decidable (y.cwd = some k))

/-- How many files and processes refer to entry `k`. -/
def users (s : K) (k : IPtr) : ℕ := slots (File.Holds k) s.file + slots (Proc.In k) s.proc

/-- The references counted are those held, and `P`; files and processes that are not in use hold none. -/
structure Accounts (s : K) (P : IPtr → ℕ) : Prop where
  count : ∀ k, rc s.fs k = users s k + P k
  closed : ∀ f, (s.file f).ref = 0 → (s.file f).type = .none
  gone : ∀ p, (s.proc p).state ≠ .used → (s.proc p).cwd = none

/-- The same files and processes. -/
structure Same (s t : K) : Prop where
  file : t.file = s.file
  proc : t.proc = s.proc

theorem Same.users (h : Same s t) : users t = users s := by
  funext k
  rw [Sysfile.users, Sysfile.users, h.file, h.proc]

theorem Accounts.same (h : Accounts s P) (hs : Same s t) (hrc : ∀ k, rc t.fs k = users s k + P' k) :
    Accounts t P' where
  count k := by rw [hs.users, hrc]
  closed := hs.file ▸ h.closed
  gone := hs.proc ▸ h.gone

/-- No reference is pending. -/
abbrev Idle (s : K) : Prop := Accounts s fun _ => 0

theorem users_setFile (s : K) (f : FPtr) (x : File) (k : IPtr) : users (s.setFile f x) k +
    (if (s.file f).Holds k then 1 else 0) = users s k + if x.Holds k then 1 else 0 := by
  have := slots_update (File.Holds k) s.file f x
  simp only [users, K.setFile]
  omega

theorem users_setProc (s : K) (p : PPtr) (y : Proc) (k : IPtr) : users (s.setProc p y) k +
    (if (s.proc p).In k then 1 else 0) = users s k + if y.In k then 1 else 0 := by
  have := slots_update (Proc.In k) s.proc p y
  simp only [users, K.setProc]
  omega

theorem Accounts.setFile (h : Accounts s P) (hclosed : x.ref = 0 → x.type = .none)
    (hP : ∀ k, P' k + (if x.Holds k then 1 else 0) = P k + if (s.file f).Holds k then 1 else 0) :
    Accounts (s.setFile f x) P' where
  count k := by
    have h1 := h.count k
    have h2 := hP k
    have h3 := users_setFile s f x k
    show rc s.fs k = _
    omega
  closed g hg := by
    change (update s.file f x g).ref = 0 at hg
    show (update s.file f x g).type = _
    rcases eq_or_ne g f with rfl | hne
    · rw [update_self] at hg ⊢; exact hclosed hg
    · rw [update_of_ne hne] at hg ⊢; exact h.closed g hg
  gone := h.gone

theorem Accounts.setProc (h : Accounts s P) (hgone : y.state ≠ .used → y.cwd = none)
    (hrc : ∀ k, rc t.fs k = users (s.setProc p y) k + P' k) (hsame : Same (s.setProc p y) t) : Accounts t P' where
  count k := by rw [hsame.users, hrc]
  closed := hsame.file ▸ h.closed
  gone q hq := by
    rw [hsame.proc] at hq ⊢
    change (update s.proc p y q).state ≠ _ at hq
    show (update s.proc p y q).cwd = _
    rcases eq_or_ne q p with rfl | hne
    · rw [update_self] at hq ⊢; exact hgone hq
    · rw [update_of_ne hne] at hq ⊢; exact h.gone q hq

/-- A change to one process that keeps state and current directory. -/
theorem Accounts.setOfile (h : Accounts s P) (p : PPtr) (fd : Fin NOFILE) (o : Option FPtr) :
    Accounts (s.setProc p ((s.proc p).setOfile fd o)) P := by
  refine h.setProc (y := (s.proc p).setOfile fd o) (h.gone p) (fun k => ?_) ⟨rfl, rfl⟩
  have : ((s.proc p).setOfile fd o).In k ↔ (s.proc p).In k := Iff.rfl
  have hu := users_setProc s p ((s.proc p).setOfile fd o) k
  have hc := h.count k
  simp only [this] at hu
  show rc s.fs k = _
  omega

/-! ### Functions of the file system, called from the kernel -/

theorem wp_lift {Q : α → K → Prop} {E : Panic → Prop} :
    wp (K.lift m) Q E s ↔ wp m (fun a t => Q a { s with fs := t }) E s.fs := by
  unfold wp K.lift
  cases m s.fs with
  | error e => exact Iff.rfl
  | ok r => exact Iff.rfl

theorem lift_bind {β : Type} {g : α → KM β} {Q : α → FS → Prop} {Q' : β → K → Prop} {E : Panic → Prop}
    (h : wp m Q E s.fs) (hg : ∀ a fs, Q a fs → wp (g a) Q' E { s with fs := fs }) : wp (K.lift m >>= g) Q' E s :=
  wp_bind.mpr (wp_lift.mpr (h.mono hg))

theorem more_apply (H : IPtr → ℕ) (r : Option IPtr) (k : IPtr) : more H r k = H k + more (fun _ => 0) r k := by
  cases r with
  | none => rfl
  | some j => simp only [more, Option.elim, plus, Nat.zero_add]

theorem lift_keeps (hm : Preserves rc m) (h : Accounts s P) :
    wp (K.lift m) (fun _ t => Accounts t P ∧ Same s t) (fun _ => True) s :=
  wp_lift.mpr ((hm s.fs).mono fun _ t ht => ⟨h.same ⟨rfl, rfl⟩ fun k => by
    show rc t k = _
    rw [ht, h.count], rfl, rfl⟩)

theorem lift_takes {m : M (Option IPtr)} (hm : ∀ s, wp m (fun r t => rc t = more (rc s) r) (fun _ => True) s)
    (h : Idle s) : wp (K.lift m) (fun r t => Accounts t (more (fun _ => 0) r) ∧ Same s t) (fun _ => True) s :=
  wp_lift.mpr ((hm s.fs).mono fun r t ht => ⟨h.same ⟨rfl, rfl⟩ fun k => by
    show rc t k = _
    rw [ht, more_apply, h.count, Nat.add_zero], rfl, rfl⟩)

theorem lift_drops {k : IPtr} (hm : ∀ {H s}, rc s = plus H k → wp m (fun _ t => rc t = H) (fun _ => True) s)
    (h : Accounts s (plus P k)) : wp (K.lift m) (fun _ t => Accounts t P ∧ Same s t) (fun _ => True) s := by
  have hrc : rc s.fs = plus (fun j => users s j + P j) k :=
    funext fun j => (h.count j).trans (Nat.add_assoc ..).symm
  exact wp_lift.mpr ((hm hrc).mono fun _ t ht => ⟨h.same ⟨rfl, rfl⟩ fun j => congrFun ht j, rfl, rfl⟩)

theorem wp_file {α : Type} {m : File → KM α} {Q : α → K → Prop} {E : Panic → Prop} {f : FPtr} :
    wp (file f >>= m) Q E s ↔ wp (m (s.file f)) Q E s := Iff.rfl

theorem wp_proc {α : Type} {m : Proc → KM α} {Q : α → K → Prop} {E : Panic → Prop} :
    wp (proc p >>= m) Q E s ↔ wp (m (s.proc p)) Q E s := Iff.rfl

theorem wp_cwd {Q : IPtr → K → Prop} {E : Panic → Prop} (hE : E .kerneltrap) (h : ∀ k, (s.proc p).cwd = some k → Q k s) :
    wp (cwd p) Q E s := by
  rw [cwd, wp_proc]
  cases hc : (s.proc p).cwd with
  | none => exact hE
  | some k => exact h k hc

/-! ### Files -/

/-- A file in use that refers to no inode. -/
structure File.Plain (x : File) : Prop where
  ref : 0 < x.ref
  inode : x.type ≠ .inode
  device : x.type ≠ .device

theorem File.Plain.not_holds (h : x.Plain) (k : IPtr) : ¬ x.Holds k := fun hk =>
  hk.2.1.elim h.inode h.device

theorem File.Plain.toPipe (h : x.Plain) (a : ℕ) (r w : Bool) : (x.toPipe a r w).Plain :=
  ⟨h.ref, FdType.noConfusion, FdType.noConfusion⟩

theorem Accounts.setPlain (h : Accounts s P) (hx : x.Plain) (hold : ∀ k, ¬ (s.file f).Holds k) :
    Accounts (s.setFile f x) P :=
  h.setFile (fun h0 => absurd h0 (Nat.pos_iff_ne_zero.mp hx.ref))
    fun k => by rw [if_neg (hx.not_holds k), if_neg (hold k)]

theorem filealloc_spec (s : K) : wp filealloc (fun r t => r = none ∧ t = s ∨
    ∃ f, r = some f ∧ (s.file f).ref = 0 ∧ t = s.setFile f ((s.file f).setRef 1)) (fun _ => False) s := by
  rw [filealloc, wp_bind, wp_get]
  split
  · rename_i f hf
    exact .inr ⟨f, rfl, by simpa using List.find?_some hf, rfl⟩
  · exact .inl ⟨rfl, rfl⟩

theorem Accounts.plain_setRef (h : Accounts s P) (href : (s.file f).ref = 0) : ((s.file f).setRef 1).Plain :=
  ⟨Nat.one_pos, by rw [File.setRef, h.closed f href]; decide, by rw [File.setRef, h.closed f href]; decide⟩

theorem filealloc_accounts (h : Accounts s P) : wp filealloc (fun r t => Accounts t P ∧
    (∀ g, (s.file g).Plain → (t.file g).Plain) ∧ ∀ f, r = some f → (t.file f).Plain) (fun _ => True) s := by
  refine (filealloc_spec s).total.mono fun r t ht => ?_
  rcases ht with ⟨rfl, rfl⟩ | ⟨f, rfl, href, rfl⟩
  · exact ⟨h, fun _ => id, fun _ => by rintro ⟨⟩⟩
  · have hplain := h.plain_setRef href
    refine ⟨h.setPlain hplain fun k hk => absurd hk.1 (by omega), fun g hg => ?_, fun g hg => ?_⟩
    · have hne : g ≠ f := by rintro rfl; exact absurd hg.ref (by omega)
      show (update s.file f _ g).Plain
      rwa [update_of_ne hne]
    · cases hg
      show (update s.file f _ f).Plain
      rwa [update_self]

theorem filedup_spec (s : K) (f : FPtr) : wp (filedup f) (fun _ t => 0 < (s.file f).ref ∧
    t = s.setFile f ((s.file f).setRef ((s.file f).ref + 1))) (fun e => e = .filedup) s :=
  wp_ite.mpr ⟨fun _ => rfl, fun hpos => ⟨Nat.not_lt.mp hpos, rfl⟩⟩

theorem Accounts.filedup (h : Accounts s P) (hpos : 0 < (s.file f).ref) :
    Accounts (s.setFile f ((s.file f).setRef ((s.file f).ref + 1))) P := by
  refine h.setFile (fun h0 => absurd h0 (Nat.succ_ne_zero _)) fun k => ?_
  have : ((s.file f).setRef ((s.file f).ref + 1)).Holds k ↔ (s.file f).Holds k :=
    ⟨fun hk => ⟨hpos, hk.2⟩, fun hk => ⟨Nat.succ_pos _, hk.2⟩⟩
  simp only [this]

theorem filedup_accounts (h : Accounts s P) (f : FPtr) :
    wp (filedup f) (fun _ t => Accounts t P ∧ t.proc = s.proc) (fun _ => True) s := by
  refine ((filedup_spec s f).weaken fun _ _ => trivial).mono fun _ t ht => ?_
  obtain ⟨hpos, rfl⟩ := ht
  exact ⟨h.filedup hpos, rfl⟩

theorem pipeclose_accounts (h : Accounts s P) (a : ℕ) (w : Bool) :
    wp (pipeclose a w) (fun _ t => Accounts t P) (fun _ => True) s := by
  rw [pipeclose, wp_bind, wp_get]
  split
  · exact h.same ⟨rfl, rfl⟩ h.count
  · exact trivial

theorem Accounts.decRef (h : Accounts s P) (hmore : 0 < (s.file f).ref - 1) :
    Accounts (s.setFile f ((s.file f).setRef ((s.file f).ref - 1))) P := by
  refine h.setFile (fun h0 => absurd h0 (Nat.pos_iff_ne_zero.mp hmore)) fun k => ?_
  have : ((s.file f).setRef ((s.file f).ref - 1)).Holds k ↔ (s.file f).Holds k :=
    ⟨fun hk => ⟨by omega, hk.2⟩, fun hk => ⟨hmore, hk.2⟩⟩
  simp only [this]

theorem release_not_holds (x : File) (k : IPtr) : ¬ x.release.Holds k := fun hk => absurd hk.1 (Nat.lt_irrefl 0)

theorem Accounts.release (h : Accounts s P) (hold : ∀ k, ¬ (s.file f).Holds k) :
    Accounts (s.setFile f (s.file f).release) P :=
  h.setFile (fun _ => rfl) fun k => by rw [if_neg (release_not_holds _ k), if_neg (hold k)]

theorem Accounts.releaseInode (h : Accounts s P) (hpos : 0 < (s.file f).ref)
    (htype : (s.file f).type = .inode ∨ (s.file f).type = .device) :
    Accounts (s.setFile f (s.file f).release) (plus P (s.file f).ip) := by
  refine h.setFile (fun _ => rfl) fun k => ?_
  have : (s.file f).Holds k ↔ k = (s.file f).ip :=
    ⟨fun hk => hk.2.2.symm, fun hk => ⟨hpos, htype, hk.symm⟩⟩
  simp only [this, if_neg (release_not_holds _ k), plus, Nat.add_zero]

theorem File.not_holds (hi : x.type ≠ .inode) (hd : x.type ≠ .device) (k : IPtr) : ¬ x.Holds k := fun hk =>
  hk.2.1.elim hi hd

theorem fileclose_accounts (h : Accounts s P) (f : FPtr) :
    wp (fileclose f) (fun _ t => Accounts t P) (fun _ => True) s := by
  rw [fileclose, wp_file]
  refine wp_ite.mpr ⟨fun _ => trivial, fun hpos => wp_ite.mpr ⟨fun hmore => h.decRef hmore, fun _ => ?_⟩⟩
  cases htype : (s.file f).type with
  | none => exact h.release (File.not_holds (by rw [htype]; decide) (by rw [htype]; decide))
  | pipe => exact pipeclose_accounts (h.release (File.not_holds (by rw [htype]; decide) (by rw [htype]; decide))) _ _
  | inode =>
    exact (lift_drops iput_rc (h.releaseInode (Nat.not_lt.mp hpos) (.inl htype))).mono fun _ t ht => ht.1
  | device =>
    exact (lift_drops iput_rc (h.releaseInode (Nat.not_lt.mp hpos) (.inr htype))).mono fun _ t ht => ht.1

theorem fdalloc_spec (s : K) (p : PPtr) (f : FPtr) : wp (fdalloc p f) (fun r t => r = none ∧ t = s ∨
    ∃ fd, r = some fd ∧ t = s.setProc p ((s.proc p).setOfile fd (some f))) (fun _ => False) s := by
  rw [fdalloc, wp_proc]
  split
  · exact .inr ⟨_, rfl, rfl⟩
  · exact .inl ⟨rfl, rfl⟩

theorem fdalloc_accounts (h : Accounts s P) (p : PPtr) (f : FPtr) :
    wp (fdalloc p f) (fun _ t => Accounts t P ∧ t.file = s.file) (fun _ => True) s := by
  refine (fdalloc_spec s p f).total.mono fun r t ht => ?_
  rcases ht with ⟨-, rfl⟩ | ⟨fd, -, rfl⟩
  · exact ⟨h, rfl⟩
  · exact ⟨h.setOfile p fd _, rfl⟩

theorem wp_argfd {Q : Option (Fin NOFILE × FPtr) → K → Prop} {E : Panic → Prop} {fd : ℤ} (h : ∀ r, Q r s) :
    wp (argfd p fd) Q E s := by
  refine wp_bind.mpr ?_
  show wp (dite _ _ _) _ _ s
  split
  · dsimp only
    split
    · exact h _
    · exact h _
  · exact h _

theorem pipealloc_accounts (h : Accounts s P) (page : Option ℕ) :
    wp (pipealloc page) (fun _ t => Accounts t P) (fun _ => True) s := by
  refine (filealloc_accounts h).bind fun r t ht => ?_
  obtain ⟨ht, -, hrf⟩ := ht
  cases r with
  | none => exact ht
  | some rf =>
    refine (filealloc_accounts ht).bind fun r u hu => ?_
    obtain ⟨hu, hkeep, hwf⟩ := hu
    cases r with
    | none => exact (fileclose_accounts hu rf).bind fun _ v hv => hv
    | some wf =>
      cases page with
      | none => exact (fileclose_accounts hu rf).bind fun _ v hv => (fileclose_accounts hv wf).bind fun _ w hw => hw
      | some a =>
        have hrf := hkeep rf (hrf rf rfl)
        have hwf := hwf wf rfl
        have hu : Accounts (u.setPipe a (some ⟨true, true⟩)) P := hu.same ⟨rfl, rfl⟩ hu.count
        have hv := hu.setPlain (f := rf) (hrf.toPipe a true false) hrf.not_holds
        have hwf : (update u.file rf ((u.file rf).toPipe a true false) wf).Plain := by
          rcases eq_or_ne wf rf with rfl | hne
          · rw [update_self]; exact hrf.toPipe a true false
          · rwa [update_of_ne hne]
        exact hv.setPlain (f := wf) (hwf.toPipe a false true) hwf.not_holds

/-! ### System calls -/

theorem sys_dup_accounts (h : Idle s) (p : PPtr) (fd : ℤ) : wp (sys_dup p fd) (fun _ t => Idle t) (fun _ => True) s := by
  refine wp_bind.mpr (wp_argfd fun r => ?_)
  cases r with
  | none => exact h
  | some r =>
    obtain ⟨_, f⟩ := r
    refine (fdalloc_accounts h p f).bind fun r t ht => ?_
    cases r with
    | none => exact ht.1
    | some fd => exact (filedup_accounts ht.1 f).bind fun _ u hu => hu.1

theorem Accounts.setOff (h : Accounts s P) (hf : s.file f = x) (off : UInt32) : Accounts (s.setFile f (x.setOff off)) P := by
  subst hf
  exact h.setFile (h.closed f) fun k => by
    have : ((s.file f).setOff off).Holds k ↔ (s.file f).Holds k := Iff.rfl
    simp only [this]

theorem fileread_accounts (h : Idle s) (f : FPtr) (dst : ℕ → Bool) (n : Int32) (r : ℤ) :
    wp (fileread f dst n r) (fun _ t => Idle t) (fun _ => True) s := by
  rw [fileread, wp_file]
  refine wp_ite.mpr ⟨fun _ => h, fun _ => ?_⟩
  cases (s.file f).type with
  | pipe => exact h
  | device => exact wp_ite.mpr ⟨fun _ => h, fun _ => h⟩
  | none => exact trivial
  | inode =>
    refine (lift_keeps (preserves_ilock _) h).bind fun _ t ht => ?_
    refine (lift_keeps (preserves_readi _ _ _ _) ht.1).bind fun r u hu => ?_
    have hf : u.file f = s.file f := by rw [hu.2.file, ht.2.file]
    refine wp_ite.mpr ⟨fun _ => ?_, fun _ => ?_⟩
    · exact (lift_keeps (preserves_iunlock _) (hu.1.setOff hf _)).bind fun _ v hv => hv.1
    · exact (lift_keeps (preserves_iunlock _) hu.1).bind fun _ v hv => hv.1

theorem filewriteLoop_accounts (f : FPtr) (src : ℕ → Option UInt8) (n : ℕ) : ∀ rounds i {s : K}, Idle s →
    wp (filewriteLoop f src n rounds i) (fun _ t => Idle t) (fun _ => True) s
  | 0, _, _, h => h
  | rounds + 1, i, s, h => by
      rw [filewriteLoop]
      refine wp_ite.mpr ⟨fun _ => ?_, fun _ => h⟩
      have hend : ∀ (r : ℤ) {t : K}, Idle t → wp (do
          K.lift (iunlock (s.file f).ip)
          if r ≠ (min (n - i) WRITEMAX : ℕ) then return i
          filewriteLoop f src n rounds (i + min (n - i) WRITEMAX)) (fun _ t => Idle t) (fun _ => True) t :=
        fun r t ht => (lift_keeps (preserves_iunlock _) ht).bind fun _ u hu =>
          wp_ite.mpr ⟨fun _ => hu.1, fun _ => filewriteLoop_accounts f src n rounds _ hu.1⟩
      refine (lift_keeps (preserves_ilock (s.file f).ip) h).bind fun _ t ht => ?_
      refine (lift_keeps (preserves_writei _ _ _ _) ht.1).bind fun r u hu => ?_
      have hf : u.file f = s.file f := by rw [hu.2.file, ht.2.file]
      exact wp_ite.mpr ⟨fun _ => hend r (hu.1.setOff hf _), fun _ => hend r hu.1⟩

theorem filewrite_accounts (h : Idle s) (f : FPtr) (src : ℕ → Option UInt8) (n : Int32) (r : ℤ) :
    wp (filewrite f src n r) (fun _ t => Idle t) (fun _ => True) s := by
  rw [filewrite, wp_file]
  refine wp_ite.mpr ⟨fun _ => h, fun _ => ?_⟩
  cases (s.file f).type with
  | pipe => exact h
  | device => exact wp_ite.mpr ⟨fun _ => h, fun _ => h⟩
  | none => exact trivial
  | inode => exact (filewriteLoop_accounts f src _ _ _ h).bind fun _ t ht => ht

theorem filestat_accounts (h : Idle s) (f : FPtr) (mapped : Bool) :
    wp (filestat f mapped) (fun _ t => Idle t) (fun _ => True) s := by
  have hlock : wp (do
      K.lift (ilock (s.file f).ip)
      K.lift (iunlock (s.file f).ip)
      return if mapped then 0 else -1 : KM ℤ) (fun _ t => Idle t) (fun _ => True) s := by
    refine (lift_keeps (preserves_ilock _) h).bind fun _ t ht => ?_
    exact (lift_keeps (preserves_iunlock _) ht.1).bind fun _ u hu => hu.1
  rw [filestat, wp_file]
  cases (s.file f).type with
  | pipe => exact h
  | none => exact h
  | inode => exact hlock
  | device => exact hlock

theorem sys_read_accounts (h : Idle s) (p : PPtr) (fd : ℤ) (dst : ℕ → Bool) (n : Int32) (r : ℤ) :
    wp (sys_read p fd dst n r) (fun _ t => Idle t) (fun _ => True) s := by
  refine wp_bind.mpr (wp_argfd fun r => ?_)
  cases r with
  | none => exact h
  | some r =>
    obtain ⟨_, f⟩ := r
    exact fileread_accounts h f dst n _

theorem sys_write_accounts (h : Idle s) (p : PPtr) (fd : ℤ) (src : ℕ → Option UInt8) (n : Int32) (r : ℤ) :
    wp (sys_write p fd src n r) (fun _ t => Idle t) (fun _ => True) s := by
  refine wp_bind.mpr (wp_argfd fun r => ?_)
  cases r with
  | none => exact h
  | some r =>
    obtain ⟨_, f⟩ := r
    exact filewrite_accounts h f src n _

theorem sys_fstat_accounts (h : Idle s) (p : PPtr) (fd : ℤ) (mapped : Bool) :
    wp (sys_fstat p fd mapped) (fun _ t => Idle t) (fun _ => True) s := by
  refine wp_bind.mpr (wp_argfd fun r => ?_)
  cases r with
  | none => exact h
  | some r =>
    obtain ⟨_, f⟩ := r
    exact filestat_accounts h f mapped

theorem sys_close_accounts (h : Idle s) (p : PPtr) (fd : ℤ) :
    wp (sys_close p fd) (fun _ t => Idle t) (fun _ => True) s := by
  refine wp_bind.mpr (wp_argfd fun r => ?_)
  cases r with
  | none => exact h
  | some r =>
    obtain ⟨fd, f⟩ := r
    exact (fileclose_accounts (h.setOfile p fd none) f).bind fun _ t ht => ht

theorem sys_unlink_accounts (h : Idle s) (p : PPtr) (path : Option Str) :
    wp (sys_unlink p path) (fun _ t => Idle t) (fun _ => True) s := by
  rw [sys_unlink]
  cases argstr path with
  | none => exact h
  | some path => exact wp_bind.mpr (wp_cwd trivial fun k _ => (lift_keeps (preserves_unlink k path) h).mono fun _ t ht => ht.1)

theorem sys_exec_accounts (h : Idle s) (p : PPtr) (path : Option Str) (mem : ℕ → Bool) (stack : Bool) :
    wp (sys_exec p path mem stack) (fun _ t => Idle t) (fun _ => True) s := by
  rw [sys_exec]
  cases argstr path with
  | none => exact h
  | some path =>
    exact wp_bind.mpr (wp_cwd trivial fun k _ => (lift_keeps (preserves_exec k path mem stack) h).mono fun _ t ht => ht.1)

theorem sys_link_accounts (h : Idle s) (p : PPtr) (old new : Option Str) :
    wp (sys_link p old new) (fun _ t => Idle t) (fun _ => True) s := by
  rw [sys_link]
  split
  · rename_i old new _ _
    exact wp_bind.mpr (wp_cwd trivial fun k _ => (lift_keeps (preserves_link k old new) h).mono fun _ t ht => ht.1)
  · exact h

theorem sysCreate_accounts (h : Idle s) (p : PPtr) (path : Option Str) (type major minor : ℕ) :
    wp (sysCreate p path type major minor) (fun _ t => Idle t) (fun _ => True) s := by
  rw [sysCreate]
  cases argstr path with
  | none => exact h
  | some path =>
    refine wp_bind.mpr (wp_cwd trivial fun k _ => (lift_takes (create_rc k path type major minor) h).bind fun r t ht => ?_)
    cases r with
    | none => exact ht.1
    | some ip => exact (lift_drops iunlockput_rc ht.1).bind fun _ u hu => hu.1

/-- The pending reference to the inode is now the file's. -/
theorem Accounts.toInode (h : Accounts s (plus P k)) (hf : (s.file f).Plain) (d : Dinode) (omode : UInt32) :
    Accounts (s.setFile f ((s.file f).toInode k d omode)) P := by
  refine h.setFile (fun h0 => absurd h0 (Nat.pos_iff_ne_zero.mp hf.ref)) fun j => ?_
  have : ((s.file f).toInode k d omode).Holds j ↔ j = k := by
    refine ⟨fun hj => hj.2.2.symm, fun hj => ⟨hf.ref, ?_, hj.symm⟩⟩
    show (if d.type = T_DEVICE then FdType.device else .inode) = _ ∨ (if d.type = T_DEVICE then FdType.device else .inode) = _
    split
    · exact .inr rfl
    · exact .inl rfl
  simp only [this, if_neg (hf.not_holds j), plus, Nat.add_zero]

theorem sys_open_accounts (h : Idle s) (p : PPtr) (path : Option Str) (omode : UInt32) :
    wp (sys_open p path omode) (fun _ t => Idle t) (fun _ => True) s := by
  rw [sys_open]
  cases argstr path with
  | none => exact h
  | some path =>
    refine wp_bind.mpr (wp_cwd trivial fun k _ => (lift_takes (openInode_rc k path omode) h).bind fun r t ht => ?_)
    cases r with
    | none => exact ht.1
    | some ip =>
      have hdrop : ∀ {t}, Accounts t (plus (fun _ => 0) ip) →
          wp (do K.lift (iunlockput ip); return -1 : KM ℤ) (fun _ t => Idle t) (fun _ => True) t :=
        fun ht => (lift_drops iunlockput_rc ht).bind fun _ u hu => hu.1
      refine (lift_keeps (preserves_inode ip) ht.1).bind fun x t ht => ?_
      refine wp_ite.mpr ⟨fun _ => hdrop ht.1, fun _ => ?_⟩
      refine (filealloc_accounts ht.1).bind fun r t ht => ?_
      obtain ⟨ht, -, hplain⟩ := ht
      cases r with
      | none => exact hdrop ht
      | some f =>
        refine (fdalloc_accounts ht p f).bind fun r u hu => ?_
        cases r with
        | none => exact (fileclose_accounts hu.1 f).bind fun _ t ht => hdrop ht
        | some fd =>
          have hplain : (u.file f).Plain := by rw [hu.2]; exact hplain f rfl
          have hv := hu.1.toInode hplain x.d omode
          refine wp_ite.mpr ⟨fun _ => ?_, fun _ => ?_⟩
          · refine (lift_keeps (preserves_itrunc ip) hv).bind fun _ t ht => ?_
            exact (lift_keeps (preserves_iunlock ip) ht.1).bind fun _ t ht => ht.1
          · exact (lift_keeps (preserves_iunlock ip) hv).bind fun _ t ht => ht.1

theorem sys_pipe_accounts (h : Idle s) (p : PPtr) (page : Option ℕ) (copied : Bool) :
    wp (sys_pipe p page copied) (fun _ t => Idle t) (fun _ => True) s := by
  refine (pipealloc_accounts h page).bind fun r t ht => ?_
  cases r with
  | none => exact ht
  | some r =>
    obtain ⟨rf, wf⟩ := r
    have hclose : ∀ {t}, Idle t → wp (do fileclose rf; fileclose wf; return -1 : KM ℤ) (fun _ t => Idle t)
        (fun _ => True) t :=
      fun ht => (fileclose_accounts ht rf).bind fun _ t ht => (fileclose_accounts ht wf).bind fun _ t ht => ht
    refine (fdalloc_accounts ht p rf).bind fun r t ht => ?_
    cases r with
    | none => exact hclose ht.1
    | some fd0 =>
      refine (fdalloc_accounts ht.1 p wf).bind fun r t ht => ?_
      cases r with
      | none => exact hclose (ht.1.setOfile p fd0 none)
      | some fd1 =>
        refine wp_ite.mpr ⟨fun _ => ht.1, fun _ => ?_⟩
        exact hclose ((ht.1.setOfile p fd0 none).setOfile p fd1 none)

/-- A process gives up its current directory and gets what is pending: what is counted without the old one is what
    is held once the process has `y`. -/
theorem Accounts.eq_plus_cwd {k : IPtr} (h : Accounts s P) (hcwd : (s.proc p).cwd = some k)
    (hP : ∀ j, P j = if y.In j then 1 else 0) : rc s.fs = plus (users (s.setProc p y)) k := by
  funext j
  have h1 := users_setProc s p y j
  have h2 := h.count j
  have h3 : (s.proc p).In j ↔ j = k := by rw [Proc.In, hcwd, Option.some.injEq, eq_comm]
  rw [hP j] at h2
  simp only [h3] at h1
  rw [plus]
  omega

theorem lift_iput_cwd {k : IPtr} (h : Accounts s P) (hcwd : (s.proc p).cwd = some k)
    (hP : ∀ j, P j = if y.In j then 1 else 0) :
    wp (K.lift (iput k)) (fun _ t => (∀ j, rc t.fs j = users (s.setProc p y) j) ∧ Same s t) (fun _ => True) s :=
  wp_lift.mpr ((iput_rc (h.eq_plus_cwd hcwd hP)).mono fun _ _ ht => ⟨fun j => congrFun ht j, rfl, rfl⟩)

/-- The pending reference that a process is about to take as its current directory. -/
theorem pending_cwd (ip j : IPtr) : plus (fun _ => 0) ip j = if (y.setCwd (some ip)).In j then 1 else 0 := by
  have : (y.setCwd (some ip)).In j ↔ j = ip := by rw [Proc.In, Proc.setCwd, Option.some.injEq, eq_comm]
  simp only [plus, this, Nat.zero_add]

theorem sys_chdir_accounts (h : Idle s) (hp : (s.proc p).state = .used) (path : Option Str) :
    wp (sys_chdir p path) (fun _ t => Idle t) (fun _ => True) s := by
  rw [sys_chdir]
  cases argstr path with
  | none => exact h
  | some path =>
    refine wp_bind.mpr (wp_cwd trivial fun k _ => (lift_takes (namei_rc k path) h).bind fun r t ht => ?_)
    cases r with
    | none => exact ht.1
    | some ip =>
      refine (lift_keeps (preserves_ilock ip) ht.1).bind fun _ t₁ h₁ => ?_
      refine (lift_keeps (preserves_inode ip) h₁.1).bind fun x t₂ h₂ => ?_
      refine wp_ite.mpr ⟨fun _ => (lift_drops iunlockput_rc h₂.1).bind fun _ u hu => hu.1, fun _ => ?_⟩
      refine (lift_keeps (preserves_iunlock ip) h₂.1).bind fun _ t₃ h₃ => ?_
      have hused : (t₃.proc p).state = .used := by rw [h₃.2.proc, h₂.2.proc, h₁.2.proc, ht.2.proc, hp]
      refine wp_bind.mpr (wp_cwd trivial fun k hk => ?_)
      refine (lift_iput_cwd (y := (t₃.proc p).setCwd (some ip)) h₃.1 hk fun j => ?_).bind fun _ u hu => ?_
      · exact pending_cwd ip j
      · refine h₃.1.setProc (y := (t₃.proc p).setCwd (some ip)) (fun hne => absurd hused hne) hu.1 ⟨hu.2.file, ?_⟩
        show update u.proc p ((u.proc p).setCwd (some ip)) = update t₃.proc p ((t₃.proc p).setCwd (some ip))
        rw [hu.2.proc]

theorem Proc.not_in {y : Proc} (h : y.cwd = none) (k : IPtr) : ¬ y.In k := by
  rw [Proc.In, h]
  exact (Option.some_ne_none k).symm

/-- A process starts, the pending reference as its current directory. -/
theorem start_accounts {r : Option IPtr} (h : Accounts s (more (fun _ => 0) r)) (hcwd : (s.proc p).cwd = none) :
    wp (do setCwd p r; setState p .used : KM Unit) (fun _ t => Idle t) (fun _ => True) s := by
  refine h.setProc (p := p) (y := ((s.proc p).setCwd r).setState .used) (fun hne => absurd rfl hne) (fun k => ?_) ⟨rfl, ?_⟩
  · have h1 := users_setProc s p (((s.proc p).setCwd r).setState .used) k
    have h2 : (((s.proc p).setCwd r).setState .used).In k ↔ ((s.proc p).setCwd r).In k := Iff.rfl
    have h3 : more (fun _ => 0) r k = if ((s.proc p).setCwd r).In k then 1 else 0 := by
      cases r with
      | none => exact (if_neg (Proc.not_in rfl k)).symm
      | some ip => exact pending_cwd ip k
    simp only [if_neg (Proc.not_in hcwd k), h2, ← h3] at h1
    show rc s.fs k = _
    rw [h1, h.count]
  · show update (update s.proc p _) p ((update s.proc p ((s.proc p).setCwd r) p).setState .used) = update s.proc p _
    rw [update_idem, update_self]

theorem dupAll_accounts (p np : PPtr) : ∀ fds {s : K}, Accounts s P → wp (dupAll p np fds) (fun _ t => Accounts t P ∧
    (t.proc np).state = (s.proc np).state) (fun _ => True) s
  | [], _, h => ⟨h, rfl⟩
  | fd :: fds, s, h => by
      rw [dupAll, wp_proc]
      dsimp only
      cases (s.proc p).ofile fd with
      | none => exact dupAll_accounts p np fds h
      | some f =>
        refine (filedup_accounts h f).bind fun _ t ht => ?_
        refine (dupAll_accounts p np fds (ht.1.setOfile np fd (some f))).mono fun _ u hu => ⟨hu.1, ?_⟩
        rw [hu.2, ← ht.2]
        show (update t.proc np _ np).state = _
        rw [update_self]; rfl

theorem fork_accounts (h : Idle s) (p : PPtr) (memory : Bool) : wp (fork p memory) (fun _ t => Idle t) (fun _ => True) s := by
  rw [fork, wp_bind, wp_get]
  split
  · exact h
  · rename_i np hnp
    have hunused : (s.proc np).state = .unused := by simpa using List.find?_some hnp
    refine wp_ite.mpr ⟨fun _ => ?_, fun _ => h⟩
    refine (dupAll_accounts p np _ h).bind fun _ t ht => wp_bind.mpr (wp_cwd trivial fun k _ => ?_)
    have hgone : (t.proc np).cwd = none := ht.1.gone np (by rw [ht.2, hunused]; decide)
    refine wp_bind.mpr (wp_lift.mpr ((idup_rc k t.fs).mono fun j u hu => ?_))
    obtain ⟨rfl, hu⟩ := hu
    refine start_accounts (r := some j) (ht.1.same ⟨rfl, rfl⟩ fun i => ?_) hgone
    have h1 : rc u i = more (rc t.fs) (some j) i := congrFun hu i
    rw [more_apply, ht.1.count, Nat.add_zero] at h1
    exact h1

theorem closeAll_accounts (p : PPtr) : ∀ fds {s : K}, Idle s → wp (closeAll p fds) (fun _ t => Idle t) (fun _ => True) s
  | [], _, h => h
  | fd :: fds, s, h => by
      rw [closeAll, wp_proc]
      dsimp only
      cases (s.proc p).ofile fd with
      | none => exact closeAll_accounts p fds h
      | some f =>
        refine (fileclose_accounts h f).bind fun _ t ht => ?_
        exact closeAll_accounts p fds (ht.setOfile p fd none)

theorem exit_accounts (h : Idle s) (p : PPtr) : wp (exit p) (fun _ t => Idle t) (fun _ => True) s := by
  refine wp_ite.mpr ⟨fun _ => trivial, fun _ => ?_⟩
  refine (closeAll_accounts p _ h).bind fun _ t ht => wp_bind.mpr (wp_cwd trivial fun k hk => ?_)
  refine (lift_iput_cwd (y := ((t.proc p).setCwd none).setState .zombie) ht hk fun j => ?_).bind fun _ u hu => ?_
  · exact (if_neg (Proc.not_in rfl j)).symm
  · refine ht.setProc (y := ((t.proc p).setCwd none).setState .zombie) (fun _ => rfl) hu.1 ⟨hu.2.file, ?_⟩
    show update (update u.proc p _) p ((update u.proc p ((u.proc p).setCwd none) p).setState .zombie) = update t.proc p _
    rw [update_idem, update_self, hu.2.proc]

theorem wait_accounts (h : Idle s) {c : PPtr} (hc : (s.proc c).state = .zombie) (copied : Bool) :
    wp (wait c copied) (fun _ t => Idle t) (fun _ => True) s := by
  refine wp_ite.mpr ⟨fun _ => ?_, fun _ => h⟩
  refine h.setProc (y := (s.proc c).setState .unused) (fun _ => h.gone c (by rw [hc]; decide)) (fun k => ?_) ⟨rfl, rfl⟩
  have h1 := users_setProc s c ((s.proc c).setState .unused) k
  have h2 : ((s.proc c).setState .unused).In k ↔ (s.proc c).In k := Iff.rfl
  have h3 := h.count k
  simp only [h2] at h1
  show rc s.fs k = _
  omega

theorem run_accounts (h : Idle s) {c : Syscall} (hc : Calls s p c) : wp (c.run p) (fun _ t => Idle t) (fun _ => True) s := by
  cases c with
  | fork memory => exact fork_accounts h p memory
  | exit => exact exit_accounts h p
  | wait c copied => exact wait_accounts h hc.2 copied
  | pipe page copied => exact sys_pipe_accounts h p page copied
  | read fd dst n r => exact sys_read_accounts h p fd dst n r
  | exec path mem stack => exact sys_exec_accounts h p path mem stack
  | fstat fd mapped => exact sys_fstat_accounts h p fd mapped
  | chdir path => exact sys_chdir_accounts h hc.1 path
  | dup fd => exact sys_dup_accounts h p fd
  | «open» path omode => exact sys_open_accounts h p path omode
  | write fd src n r => exact sys_write_accounts h p fd src n r
  | mknod path major minor => exact sysCreate_accounts h p path _ major minor
  | unlink path => exact sys_unlink_accounts h p path
  | link old new => exact sys_link_accounts h p old new
  | mkdir path => exact sysCreate_accounts h p path _ 0 0
  | close fd => exact sys_close_accounts h p fd

theorem rc_evict (s : FS) (b : ℕ) : rc (s.evict b) = rc s := by
  rw [FS.evict]
  split <;> rfl

theorem step_accounts {e : Event} (h : Idle s) (he : step s e = some t) : Idle t := by
  cases e with
  | call p c =>
    rw [step] at he
    split at he
    · rename_i hc
      obtain ⟨-, ht⟩ := (run_accounts h hc).after he
      exact ht
    · cases he
  | evict b =>
    cases he
    exact h.same ⟨rfl, rfl⟩ fun k => by
      show rc (s.fs.evict b) k = _
      rw [rc_evict, h.count]

theorem boot_accounts {s : FS} (hs : ∀ k, rc s k = 0) (h : boot s = some t) : Idle t := by
  have hzero : Idle (K.zero s) := by
    refine ⟨fun k => ?_, fun _ _ => rfl, fun _ _ => rfl⟩
    have h1 : users (K.zero s) k = 0 := by
      rw [users, slots_eq_zero fun f hf => absurd hf.1 (Nat.lt_irrefl 0), slots_eq_zero fun p => Proc.not_in rfl k]
    rw [h1]
    exact hs k
  have hboot : wp userinit (fun _ t => Idle t) (fun _ => True) (K.zero s) := by
    refine (lift_takes (namei_rc 0 rootPath) hzero).bind fun r t ht => ?_
    exact start_accounts ht.1 (by rw [ht.2.proc]; rfl)
  obtain ⟨-, ht⟩ := hboot.after h
  exact ht

end Kernel

/-- CORRECT (references balance): between system calls, whatever runs and whatever is on the disk, the reference
    count of an inode table entry is the number of open files and current directories that refer to it. -/
theorem inode_references_balance {image : FS} (himage : ∀ k, (image.itable k).ref = 0) {s t : K} {es : List Event}
    (hboot : boot image = some s) (hrun : run step s es = some t) (k : IPtr) :
    (t.fs.itable k).ref =
      (Finset.univ.filter fun f => 0 < (t.file f).ref ∧
        ((t.file f).type = .inode ∨ (t.file f).type = .device) ∧ (t.file f).ip = k).card +
      (Finset.univ.filter fun p => (t.proc p).cwd = some k).card :=
  (run_inv (fun _ _ _ => step_accounts) (boot_accounts himage hboot) hrun).count k

theorem a_noNul : (0 : UInt8) ∉ [97] := by decide

def pathA : Str := ⟨[97], a_noNul⟩

/-- A process forks and opens the root directory; its child makes a directory and moves there. -/
def forkAndMove : List Event := [.call 0 (.fork true), .call 0 (.open (some rootPath) 0),
  .call 1 (.mkdir (some pathA)), .call 1 (.chdir (some pathA))]

theorem inode_references_balance_forkAndMove : ∃ s t, boot (.fresh .std) = some s ∧ run step s forkAndMove = some t ∧
    (t.fs.itable 0).ref = 2 ∧ (t.fs.itable 1).ref = 1 ∧ users t 0 = 2 ∧ users t 1 = 1 := by
  have hview : ((boot (.fresh .std)).bind fun s => run step s forkAndMove).map
      (fun t => ((t.fs.itable 0).ref, (t.fs.itable 1).ref)) = some (2, 1) := by decide +kernel
  obtain ⟨t, ht, hrefs⟩ := Option.map_eq_some_iff.mp hview
  obtain ⟨s, hs, ht⟩ := Option.bind_eq_some_iff.mp ht
  obtain ⟨h0, h1⟩ := Prod.mk.inj hrefs
  exact ⟨s, t, hs, ht, h0, h1, (inode_references_balance (fun _ => rfl) hs ht 0).symm.trans h0,
    (inode_references_balance (fun _ => rfl) hs ht 1).symm.trans h1⟩

end Minios.Sysfile
