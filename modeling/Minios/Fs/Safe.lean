import Minios.Fs.Counts
import Minios.Fs.Entries

/-! `kernel/fs.c`: what every function keeps.

    `Ok` is what holds of disk, inode table and directories between the functions of `fs.c`. Entries name inodes that
    exist; if `strict`, directories are also made of whole entries with different names, the first two `.` and `..`.
    A directory that `create` is still filling (`x`) may lack those two.

    `Go` is what a function does while others hold references `H`: it keeps `Ok`, and inodes that others hold
    stay what they are. -/

namespace Minios.Fs
open Schemes Function

variable {s t u : FS} {p dp ip : IPtr} {name : Name} {i k : ℕ} {H H' : IPtr → ℕ} {strict : Prop} {x x' : Option ℕ}

/-! ### Directories -/

/-- What holds of every directory. -/
structure DirOk (strict : Prop) (ninodes : ℕ) (nd : Node) : Prop where
  inums : ∀ k, nd.Has k → (nd.dirent k).inum < ninodes
  whole : strict → nd.size % DESIZE = 0
  distinct : strict → ∀ j k, nd.Has j → nd.Has k → (nd.dirent j).inum ≠ 0 → (nd.dirent k).inum ≠ 0 →
    (nd.dirent j).key = (nd.dirent k).key → j = k

/-- The first two entries of directory `i`. -/
structure Dots (i : ℕ) (nd : Node) : Prop where
  has : nd.Has 1
  self : (nd.dirent 0).inum = i
  dot : (nd.dirent 0).Named .dot
  dotdot : (nd.dirent 1).Named .dotdot

structure Ok (strict : Prop) (x : Option ℕ) (s : FS) : Prop where
  wf : Wf s
  dirs : ∀ i, (node s i).type = T_DIR → DirOk strict s.sb.ninodes (node s i)
  dots : strict → ∀ i, (node s i).type = T_DIR → x ≠ some i → Dots i (node s i)
  named : strict → ∀ k, 0 < rc s k → (s.itable k).inum ≠ 0

/-- How a function may fail: not by freeing a free block, and if `strict`, not in a directory either. -/
def Fit (strict : Prop) (e : Panic) : Prop := e ≠ .freeingFreeBlock ∧
  (strict → e ≠ .dirlookupRead ∧ e ≠ .dirlinkRead ∧ e ≠ .isdiremptyReadi ∧ e ≠ .unlinkWritei)

/-- An inode that others hold. -/
structure Stable (s t : FS) (k : IPtr) : Prop where
  inum : (t.itable k).inum = (s.itable k).inum
  valid : (s.itable k).valid = true → (t.itable k).valid = true
  type : (node s (s.itable k).inum).type ≠ 0 →
    (node t (s.itable k).inum).type = (node s (s.itable k).inum).type

structure Go (strict : Prop) (x : Option ℕ) (H : IPtr → ℕ) (s t : FS) : Prop where
  ok : Ok strict x t
  sb : t.sb = s.sb
  held : ∀ k, 0 < H k → Stable s t k

theorem Go.refl (h : Ok strict x s) : Go strict x H s s := ⟨h, rfl, fun _ _ => ⟨rfl, id, fun _ => rfl⟩⟩

theorem Go.trans (h : Go strict x H s t) (h' : Go strict x' H t u) : Go strict x' H s u := by
  refine ⟨h'.ok, h'.sb.trans h.sb, fun k hk => ?_⟩
  obtain ⟨h1, h2, h3⟩ := h.held k hk
  obtain ⟨h4, h5, h6⟩ := h'.held k hk
  rw [h1] at h4 h6
  exact ⟨h4, fun hv => h5 (h2 hv), fun ht => (h6 (by rwa [h3 ht])).trans (h3 ht)⟩

theorem Go.mono (h : Go strict x H' s t) (hle : ∀ k, 0 < H k → 0 < H' k) : Go strict x H s t :=
  ⟨h.ok, h.sb, fun k hk => h.held k (hle k hk)⟩

theorem Go.ready (h : Go strict x H s t) (hp : Ready s p) (hH : 0 < H p) (href : 0 < rc t p) : Ready t p :=
  ⟨href, (h.held p hH).valid hp.valid⟩

/-- An inode that others hold keeps its type while it is in use. -/
theorem Go.type_eq (h : Go strict x H s t) (hp : Ready s p) (hw : Wf s) (hH : 0 < H p) :
    (node t (t.itable p).inum).type = (node s (s.itable p).inum).type := by
  have hst := h.held p hH
  rw [hst.inum]
  exact hst.type (by rw [← hp.node_type hw, hp.d hw]; exact (hp.live hw).2)

theorem Go.finish (h : Go strict x H s t) (hd : strict → ∀ i, x = some i → Dots i (node t i)) :
    Go strict none H s t := by
  refine ⟨⟨h.ok.wf, h.ok.dirs, fun hs i hi _ => ?_, h.ok.named⟩, h.sb, h.held⟩
  rcases eq_or_ne x (some i) with hx | hx
  · exact hd hs i hx
  · exact h.ok.dots hs i hi hx

theorem plus_pos (H : IPtr → ℕ) (p : IPtr) : 0 < plus H p p := by rw [plus, if_pos rfl]; omega

theorem le_plus (H : IPtr → ℕ) (p : IPtr) {j : IPtr} (hj : 0 < H j) : 0 < plus H p j := by rw [plus]; omega

/-! ### The functions of the inode layer -/

theorem fit_of_fine {e : Panic} (h : e ≠ .freeingFreeBlock) (hd : e ≠ .dirlookupRead) (hl : e ≠ .dirlinkRead)
    (hi : e ≠ .isdiremptyReadi) (hu : e ≠ .unlinkWritei) : Fit strict e := ⟨h, fun _ => ⟨hd, hl, hi, hu⟩⟩

theorem fit_iget {e : Panic} (he : e = .igetNoInodes) : Fit strict e := by
  subst he
  exact fit_of_fine (by decide) (by decide) (by decide) (by decide) (by decide)

theorem fit_blocked {e : Panic} (he : e = .blocked) : Fit strict e := by
  subst he
  exact fit_of_fine (by decide) (by decide) (by decide) (by decide) (by decide)

theorem fit_iunlock {e : Panic} (he : e = .iunlock) : Fit strict e := by
  subst he
  exact fit_of_fine (by decide) (by decide) (by decide) (by decide) (by decide)

theorem Ok.quiet (h : Ok strict x s) (hwf : Wf t) (hq : Quiet s t)
    (hnamed : strict → ∀ k, 0 < rc t k → (t.itable k).inum ≠ 0) : Ok strict x t where
  wf := hwf
  dirs i hi := by
    rw [hq.node] at hi ⊢
    rw [hq.sb]
    exact h.dirs i hi
  dots hs i hi := by
    rw [hq.node] at hi ⊢
    exact h.dots hs i hi
  named := hnamed

theorem Got.go (hgot : Got s i p t) (h : Ok strict x s) (hi : strict → i ≠ 0) : Go strict x (rc s) s t := by
  refine ⟨h.quiet hgot.wf hgot.quiet fun hs k hk => ?_, hgot.quiet.sb, fun k hk => ?_⟩
  · rcases eq_or_ne k p with rfl | hne
    · rw [hgot.inum]; exact hi hs
    · rw [hgot.ref, plus, if_neg hne, Nat.add_zero] at hk
      rw [(hgot.keep k hk).1]; exact h.named hs k hk
  · exact ⟨(hgot.keep k hk).1, fun hv => ((hgot.keep k hk).2 hv).1, fun _ => by rw [hgot.quiet.node]⟩

theorem Locked.go (hl : Locked s p t) (h : Ok strict x s) : Go strict x H s t := by
  refine ⟨h.quiet hl.wf hl.quiet fun hs k hk => ?_, hl.quiet.sb, fun k _ => ?_⟩
  · rw [(hl.keep (fun _ => 1) k Nat.one_pos).1]
    rw [hl.ref] at hk
    exact h.named hs k hk
  · have hk := hl.keep (fun _ => 1) k Nat.one_pos
    exact ⟨hk.1, fun hv => (hk.2 hv).1, fun _ => by rw [hl.quiet.node]⟩

theorem Did.go {nd : Node} (hdid : Did p s nd t) (h : Ok strict x s)
    (htype : nd.type = (Fs.node s (s.itable p).inum).type)
    (hdir : nd.type = T_DIR → DirOk strict s.sb.ninodes nd)
    (hdots : strict → nd.type = T_DIR → x' ≠ some (s.itable p).inum → Dots (s.itable p).inum nd)
    (hx : ∀ i, i ≠ (s.itable p).inum → x' ≠ some i → x ≠ some i) : Go strict x' H s t := by
  have hnode : ∀ j, j ≠ (s.itable p).inum → Fs.node t j = Fs.node s j := fun j hj => by
    rw [hdid.node, update_of_ne hj]
  have hself : Fs.node t (s.itable p).inum = nd := by rw [hdid.node, update_self]
  refine ⟨⟨hdid.wf, fun j hj => ?_, fun hs j hj hxj => ?_, fun hs k hk => ?_⟩, hdid.sb, fun k _ => ?_⟩
  · rw [hdid.sb]
    rcases eq_or_ne j (s.itable p).inum with rfl | hne
    · rw [hself] at hj ⊢; exact hdir hj
    · rw [hnode j hne] at hj ⊢; exact h.dirs j hj
  · rcases eq_or_ne j (s.itable p).inum with rfl | hne
    · rw [hself] at hj ⊢; exact hdots hs hj hxj
    · rw [hnode j hne] at hj ⊢; exact h.dots hs j hj (hx j hne hxj)
  · rw [hdid.inum]
    rw [hdid.ref] at hk
    exact h.named hs k hk
  · have hk := hdid.keep htype (fun _ => 1) k Nat.one_pos
    refine ⟨hk.1, fun hv => (hk.2 hv).1, fun _ => ?_⟩
    rcases eq_or_ne (s.itable k).inum (s.itable p).inum with he | hne
    · rw [he, hself, htype]
    · rw [hnode _ hne]

theorem PutDone.go (hput : PutDone H s p t) (href : rc s = plus H p) (h : Ok strict x s)
    (hx : strict → ∀ i, x = some i → x' = some i ∨ (Fs.node t i).type = 0) : Go strict x' H s t := by
  have hpos : 0 < rc s p := by rw [href]; exact plus_pos H p
  -- a node is as it was, or free
  have hnode : ∀ j, Fs.node t j = Fs.node s j ∨ Fs.node t j = .free ∧ j = (s.itable p).inum ∧ H p = 0 := by
    intro j
    rw [hput.node]
    split
    · rename_i hc
      rcases eq_or_ne j (s.itable p).inum with rfl | hne
      · exact Or.inr ⟨update_self .., rfl, hc.1⟩
      · exact Or.inl (update_of_ne hne ..)
    · exact Or.inl rfl
  have hdir : ∀ j, (Fs.node t j).type = T_DIR → Fs.node t j = Fs.node s j := by
    intro j hj
    rcases hnode j with he | ⟨he, -⟩
    · exact he
    · rw [he] at hj; exact absurd (show (0 : ℕ) = T_DIR from hj) (by decide)
  refine ⟨⟨hput.wf, fun j hj => ?_, fun hs j hj hxj => ?_, fun hs k hk => ?_⟩, hput.sb, fun k hk => ?_⟩
  · have he := hdir j hj
    rw [he] at hj ⊢
    rw [hput.sb]; exact h.dirs j hj
  · have he := hdir j hj
    have hxj' : x ≠ some j := fun hxe => by
      rcases hx hs j hxe with h1 | h1
      · exact hxj h1
      · rw [h1] at hj; exact absurd hj (by decide)
    rw [he] at hj ⊢
    exact h.dots hs j hj hxj'
  · rw [hput.ref] at hk
    rw [(hput.keep k hk).1]
    exact h.named hs k (by rw [href]; exact le_plus H p hk)
  · have hks := hput.keep k hk
    refine ⟨hks.1, fun hv => (hks.2 hv).1, fun _ => ?_⟩
    rcases hnode (s.itable k).inum with he | ⟨-, he, h0⟩
    · rw [he]
    · have : k = p := h.wf.uniq k p (by rw [← rc, href]; exact le_plus H p hk) hpos he
      subst this
      omega

theorem PutDone.plain (hput : PutDone H s p t) (href : rc s = plus H p) (h : Ok strict none s) : Go strict none H s t :=
  hput.go href h (by rintro _ _ ⟨⟩)

/-- A new inode; a directory is the one that lacks its first entries. -/
theorem Alloc.go {type : ℕ} (ha : Alloc s type i p t) (h : Ok strict none s) :
    Go strict (if type = T_DIR then some i else none) (rc s) s t := by
  have hnode : ∀ j, j ≠ i → Fs.node t j = Fs.node s j := fun j hj => by rw [ha.node, update_of_ne hj]
  have hself : Fs.node t i = .fresh type := by rw [ha.node, update_self]
  refine ⟨⟨ha.wf, fun j hj => ?_, fun hs j hj hxj => ?_, fun hs k hk => ?_⟩, ha.sb, fun k hk => ?_⟩
  · rcases eq_or_ne j i with rfl | hne
    · rw [hself]
      have hnone : ∀ k, ¬ (Node.fresh type).Has k := fun k hk => by
        have hk : DESIZE * k + DESIZE ≤ 0 := hk
        simp only [DESIZE] at hk; omega
      exact ⟨fun k hk => absurd hk (hnone k), fun _ => rfl, fun _ j k hj => absurd hj (hnone j)⟩
    · rw [hnode j hne] at hj ⊢
      rw [ha.sb]; exact h.dirs j hj
  · rcases eq_or_ne j i with rfl | hne
    · rw [hself] at hj
      rw [if_pos (show type = T_DIR from hj)] at hxj
      exact absurd rfl hxj
    · rw [hnode j hne] at hj ⊢
      exact h.dots hs j hj (by simp)
  · rcases eq_or_ne k p with rfl | hne
    · rw [ha.inum]
      have := ha.pos
      omega
    · rw [ha.ref, plus, if_neg hne, Nat.add_zero] at hk
      rw [(ha.keep k hk).1]; exact h.named hs k hk
  · refine ⟨(ha.keep k hk).1, fun hv => ((ha.keep k hk).2 hv).1, fun ht => ?_⟩
    rcases eq_or_ne (s.itable k).inum i with he | hne
    · rw [he] at ht; exact absurd ha.free ht
    · rw [hnode _ hne]

theorem iget_go (h : Ok strict x s) (hi : i < s.sb.ninodes) (h0 : strict → i ≠ 0) : wp (iget i)
    (fun k t => Go strict x (rc s) s t ∧ rc t = plus (rc s) k) (Fit strict) s :=
  ((iget_spec h.wf hi).weaken fun _ => fit_iget).mono fun _ _ ht => ⟨ht.go h h0, ht.ref⟩

theorem idup_go (h : Ok strict x s) (hp : 0 < rc s p) : wp (idup p)
    (fun k t => k = p ∧ Go strict x (rc s) s t ∧ rc t = plus (rc s) p) (Fit strict) s :=
  (idup_spec h.wf hp).total.mono fun _ _ ht => ⟨ht.1, ht.2.go h fun hs => h.named hs p hp, ht.2.ref⟩

theorem ilock_go (h : Ok strict x s) (hp : 0 < rc s p) : wp (ilock p) (fun _ t => Locked s p t) (Fit strict) s := by
  refine (ilock_spec h.wf hp).weaken fun e he => ?_
  rcases he with rfl | ⟨rfl, -⟩
  · exact fit_blocked rfl
  · exact fit_of_fine (by decide) (by decide) (by decide) (by decide) (by decide)

theorem iunlock_go (h : Ok strict x s) (hp : Ready s p) : wp (iunlock p) (fun _ t => Locked s p t) (Fit strict) s :=
  (iunlock_spec h.wf hp).weaken fun _ h => fit_iunlock h.1

theorem Locked.inum (h : Locked s p t) (j : IPtr) : (t.itable j).inum = (s.itable j).inum :=
  (h.keep (fun _ => 1) j Nat.one_pos).1

theorem iput_go (h : Ok strict x s) (href : rc s = plus H p) :
    wp (iput p) (fun _ t => PutDone H s p t) (Fit strict) s :=
  (iput_spec h.wf href).weaken fun _ h => fit_blocked h.1

theorem iunlockput_go (h : Ok strict x s) (href : rc s = plus H p) (hp : Ready s p) :
    wp (iunlockput p) (fun _ t => PutDone H s p t) (Fit strict) s := by
  rw [iunlockput]
  refine (iunlock_go h hp).bind fun _ t ht => ?_
  exact (iput_go (ht.go (H := H) h).ok (ht.ref.trans href)).mono fun _ u hu => hu.of_locked ht hp

/-- Nothing but the link count and the device numbers of an inode changes. -/
theorem DirOk.fields {nd : Node} {n major minor nlink : ℕ} (h : DirOk strict n nd) :
    DirOk strict n { nd with major := major, minor := minor, nlink := nlink } := ⟨h.inums, h.whole, h.distinct⟩

theorem Dots.fields {nd : Node} {major minor nlink : ℕ} (h : Dots i nd) :
    Dots i { nd with major := major, minor := minor, nlink := nlink } := ⟨h.has, h.self, h.dot, h.dotdot⟩

theorem fields_go {major minor nlink : ℕ} (h : Ok strict x s)
    (hdid : Did p s { node s (s.itable p).inum with major := major, minor := minor, nlink := nlink } t) :
    Go strict x H s t :=
  hdid.go h rfl (fun ht => (h.dirs _ ht).fields) (fun hs ht hx => (h.dots hs _ ht hx).fields) fun _ _ => id

theorem setFields_go {f : Dinode → Dinode} {α : Type} {m : M α} {Q : α → FS → Prop} (hf : Tame f) (h : Ok strict x s)
    (hp : Ready s p) (hm : ∀ t, Did p s { node s (s.itable p).inum with
      major := (f (s.itable p).d).major
      minor := (f (s.itable p).d).minor
      nlink := (f (s.itable p).d).nlink } t → wp m Q (Fit strict) t) :
    wp (do setD p f; iupdate p; m) Q (Fit strict) s := by
  have hdid := (setFields_did hf h.wf hp).total (E := Fit strict)
  exact wp_bind.mpr ((wp_bind.mp hdid).mono fun _ t ht => ht.bind fun _ u hu => hm u hu)

theorem Did.ready {nd : Node} (h : Did p s nd t) {j : IPtr} (hj : Ready s j) : Ready t j :=
  ⟨by rw [← rc, h.ref]; exact hj.ref, by rw [h.valid]; exact hj.valid⟩

theorem itrunc_go (h : Ok strict x s) (hp : Ready s p) (hdir : (node s (s.itable p).inum).type ≠ T_DIR) :
    wp (itrunc p) (fun _ t => (Go strict x H s t ∧ rc t = rc s) ∧ Ready t p) (Fit strict) s := by
  refine (itrunc_did h.wf hp).total.mono fun _ t ht => ⟨⟨?_, ht.1.ref⟩, ht.1.ready hp⟩
  exact ht.1.go h rfl (fun hd => absurd hd hdir) (fun _ hd => absurd hd hdir) fun _ _ => id

theorem writei_go {src : ℕ → Option UInt8} {off n : ℕ} (h : Ok strict x s) (hp : Ready s p) (hoff : off < 2 ^ 32)
    (hn : n < 2 ^ 32) (hdir : (node s (s.itable p).inum).type ≠ T_DIR) :
    wp (writei p src off n) (fun _ t => (Go strict x H s t ∧ rc t = rc s) ∧ Ready t p ∧
      ∀ i, (node s i).type = T_DIR → node t i = node s i) (Fit strict) s := by
  refine (writei_spec h.wf hp hoff hn fun hd => absurd hd hdir).total.mono fun r t ht => ?_
  split at ht
  · obtain ⟨-, nd, -, -, hdid, htype, -⟩ := ht
    refine ⟨⟨?_, hdid.ref⟩, hdid.ready hp, fun i hi => ?_⟩
    · exact hdid.go h htype (fun hd => absurd (htype ▸ hd) hdir) (fun _ hd => absurd (htype ▸ hd) hdir) fun _ _ => id
    · rw [hdid.node, update_of_ne]
      rintro rfl
      exact hdir hi
  · obtain ⟨-, rfl⟩ := ht
    exact ⟨⟨.refl h, rfl⟩, hp, fun _ _ => rfl⟩

theorem readi_still {dst : ℕ → Bool} {off n : ℕ} (h : Ok strict x s) (hp : Ready s p) (hoff : off < 2 ^ 32)
    (hn : n < 2 ^ 32) : wp (readi p dst off n) (fun _ t => t = s) (Fit strict) s :=
  (readi_spec h.wf hp hoff hn).total.mono fun _ _ ht => ht.1

theorem ialloc_go {type : ℕ} (h : Ok strict x s) (htype : type ≠ 0) (hfits : type < 2 ^ 16) :
    wp (ialloc type) (fun r t => (r = none ∧ t = s) ∨ ∃ k i, r = some k ∧ Alloc s type i k t) (Fit strict) s :=
  (ialloc_spec h.wf htype hfits).weaken fun _ => fit_iget

/-- A buffer is recycled: bytes of plain files may change. -/
theorem Ok.evict (h : Ok strict x s) (b : ℕ) : Ok strict x (s.evict b) := by
  have he := h.wf.evict b
  have htype : ∀ i, (node (s.evict b) i).type = (node s i).type := fun i => by
    rw [node, nodeOf_type, he.dinode, node, nodeOf_type]
  refine ⟨he.wf, fun i hi => ?_, fun hs i hi => ?_, fun hs k => ?_⟩
  · rw [htype] at hi
    rw [he.dirs i hi, he.sb]
    exact h.dirs i hi
  · rw [htype] at hi
    rw [he.dirs i hi]
    exact h.dots hs i hi
  · rw [rc, he.itable]
    exact h.named hs k

/-! ### Directories and paths -/

theorem fit_ragged {nd : Node} {panic e : Panic} {n : ℕ} (h : DirOk strict n nd) (hp : panic ≠ .freeingFreeBlock)
    (he : Ragged nd panic e) : Fit strict e :=
  ⟨he.1 ▸ hp, fun hs => absurd (h.whole hs) he.2⟩

section Dir
variable (h : Ok strict x s) (hp : Ready s dp) (hdir : (node s (s.itable dp).inum).type = T_DIR)
include h hp hdir

theorem dirlookup_go : wp (dirlookup dp name) (fun r t => Found s dp name r t) (Fit strict) s := by
  have hd := h.dirs _ hdir
  refine (dirlookup_spec h.wf hp hd.inums hdir).weaken fun e he => ?_
  rcases he with he | he
  · exact fit_ragged hd (by decide) he
  · exact fit_iget he

theorem dirlink_go {inum : ℕ} : wp (dirlink dp name inum)
    (fun r t => r = 0 ∧ Linked s dp name inum t ∨ r = -1 ∧ Still s t) (Fit strict) s := by
  have hd := h.dirs _ hdir
  refine (dirlink_spec h.wf hp hd.inums hdir).weaken fun e he => ?_
  rcases he with he | he | he | he
  · exact fit_ragged hd (by decide) he
  · exact fit_ragged hd (by decide) he
  · exact fit_iget he
  · exact fit_blocked he

theorem isdirempty_go : wp (isdirempty dp) (fun r t => t = s ∧ (r = true ↔ ∀ j, 2 ≤ j →
    (node s (s.itable dp).inum).Has j → ((node s (s.itable dp).inum).dirent j).inum = 0)) (Fit strict) s :=
  (isdirempty_spec h.wf hp).weaken fun _ he => fit_ragged (h.dirs _ hdir) (by decide) he

end Dir

theorem Found.go {r : Option (IPtr × ℕ)} (hf : Found s dp name r t) (h : Ok strict x s) :
    Go strict x (rc s) s t ∧ rc t = more (rc s) (r.map Prod.fst) := by
  cases r with
  | none =>
    obtain ⟨rfl, -⟩ := hf.absent rfl
    exact ⟨.refl h, rfl⟩
  | some r =>
    obtain ⟨ip, off⟩ := r
    obtain ⟨k, -, -, hnamed, hgot⟩ := hf.present ip off rfl
    exact ⟨hgot.go h fun _ => hnamed.1, hgot.ref⟩

theorem Still.go (hs : Still s t) (h : Ok strict x s) (H : IPtr → ℕ) (hle : ∀ k, 0 < H k → 0 < rc s k) :
    Go strict x H s t := by
  refine ⟨⟨hs.wf, fun i hi => ?_, fun hst i hi => ?_, fun hst k hk => ?_⟩, hs.sb, fun k hk => ?_⟩
  · rw [hs.node] at hi ⊢
    rw [hs.sb]; exact h.dirs i hi
  · rw [hs.node] at hi ⊢; exact h.dots hst i hi
  · rw [hs.ref] at hk
    rw [(hs.keep k hk).1]; exact h.named hst k hk
  · have hk := hs.keep k (hle k hk)
    exact ⟨hk.1, fun hv => (hk.2 hv).1, fun _ => by rw [hs.node]⟩

/-! Entries after one of them is written. -/

theorem setDirent_size (nd : Node) (k : ℕ) (de : Dirent) : (nd.setDirent k de).size = max nd.size (DESIZE * k + DESIZE) := rfl

theorem has_setDirent {nd : Node} {de : Dirent} {j : ℕ} (hk : DESIZE * k ≤ nd.size) (hj : (nd.setDirent k de).Has j)
    (hne : j ≠ k) : nd.Has j := by
  rw [Node.Has, setDirent_size] at hj
  rw [Node.Has]
  simp only [DESIZE] at *
  omega

theorem has_setDirent_of {nd : Node} {j : ℕ} (hj : nd.Has j) (k : ℕ) (de : Dirent) : (nd.setDirent k de).Has j := by
  rw [Node.Has, setDirent_size]
  rw [Node.Has] at hj
  omega

theorem DirOk.setDirent {nd : Node} {de : Dirent} {n : ℕ} (h : DirOk strict n nd) (hn : n ≤ 2 ^ 16)
    (hk : DESIZE * k ≤ nd.size) (hinum : de.inum < n)
    (hfresh : strict → de.inum ≠ 0 → ∀ j, nd.Has j → (nd.dirent j).inum ≠ 0 → (nd.dirent j).key ≠ de.key) :
    DirOk strict n (nd.setDirent k de) := by
  have hself : (nd.setDirent k de).dirent k = de := dirent_setDirent_self nd k (by omega)
  have hother : ∀ {j}, j ≠ k → (nd.setDirent k de).dirent j = nd.dirent j := fun hj => dirent_setDirent_ne nd hj de
  refine ⟨fun j hj => ?_, fun hs => ?_, fun hs i j hi hj hi0 hj0 hkey => ?_⟩
  · rcases eq_or_ne j k with rfl | hne
    · rw [hself]; exact hinum
    · rw [hother hne]; exact h.inums j (has_setDirent hk hj hne)
  · have := h.whole hs
    rw [setDirent_size]
    simp only [DESIZE] at *
    omega
  · rcases eq_or_ne i k with rfl | hik <;> rcases eq_or_ne j i with rfl | hji
    · rfl
    · rw [hself] at hi0 hkey
      rw [hother hji] at hj0 hkey
      exact absurd hkey.symm (hfresh hs hi0 j (has_setDirent hk hj hji) hj0)
    · rfl
    · rw [hother hik] at hi0 hkey
      rcases eq_or_ne j k with rfl | hjk
      · rw [hself] at hj0 hkey
        exact absurd hkey (hfresh hs hj0 i (has_setDirent hk hi hik) hi0)
      · rw [hother hjk] at hj0 hkey
        exact h.distinct hs i j (has_setDirent hk hi hik) (has_setDirent hk hj hjk) hi0 hj0 hkey

theorem Dots.setDirent {nd : Node} (h : Dots i nd) (hk0 : k ≠ 0) (hk1 : k ≠ 1) (de : Dirent) : Dots i (nd.setDirent k de) := by
  have h0 : (nd.setDirent k de).dirent 0 = nd.dirent 0 := dirent_setDirent_ne nd hk0.symm de
  have h1 : (nd.setDirent k de).dirent 1 = nd.dirent 1 := dirent_setDirent_ne nd hk1.symm de
  exact ⟨has_setDirent_of h.has k de, by rw [h0]; exact h.self, by rw [h0]; exact h.dot, by rw [h1]; exact h.dotdot⟩

theorem Dots.has_zero {nd : Node} (h : Dots i nd) : nd.Has 0 := by
  have := h.has
  rw [Node.Has] at this ⊢
  simp only [DESIZE] at *; omega

theorem of_named {name : Name} {inum : ℕ} (h : inum ≠ 0) : (Dirent.of name inum).Named name := ⟨h, key_of name inum⟩

theorem dots_of_links {nd : Node} {i j : ℕ} (hi : i < 2 ^ 16) (hj : j < 2 ^ 16) (hi0 : i ≠ 0) (hj0 : j ≠ 0) :
    Dots i ((nd.setDirent 0 (.of .dot i)).setDirent 1 (.of .dotdot j)) := by
  have h0 : ((nd.setDirent 0 (.of .dot i)).setDirent 1 (.of .dotdot j)).dirent 0 = .of .dot i := by
    rw [dirent_setDirent_ne _ Nat.zero_ne_one, dirent_setDirent_self nd 0 hi]
  have h1 : ((nd.setDirent 0 (.of .dot i)).setDirent 1 (.of .dotdot j)).dirent 1 = .of .dotdot j :=
    dirent_setDirent_self _ 1 hj
  refine ⟨?_, by rw [h0]; rfl, by rw [h0]; exact of_named hi0, by rw [h1]; exact of_named hj0⟩
  rw [Node.Has, setDirent_size]
  omega

theorem Linked.go {inum : ℕ} (hl : Linked s dp name inum t) (h : Ok strict x s)
    (hdir : (node s (s.itable dp).inum).type = T_DIR) (hinum : inum < s.sb.ninodes) : Go strict x H s t := by
  obtain ⟨k, hk, -, hempty, hdid⟩ := hl.did
  refine hdid.go h rfl (fun _ => ?_) (fun hs _ hx => ?_) fun _ _ => id
  · refine (h.dirs _ hdir).setDirent s.sb.ninodes_le hk hinum fun _ _ j hj hj0 hkey => hl.fresh j hj ⟨hj0, ?_⟩
    rw [hkey, key_of]
  · have hdots := h.dots hs _ hdir hx
    refine hdots.setDirent ?_ ?_ _
    · rintro rfl; exact hdots.dot.1 (hempty hdots.has_zero)
    · rintro rfl; exact hdots.dotdot.1 (hempty hdots.has)

theorem dirlink_keeps {inum : ℕ} (h : Ok strict x s) (hp : Ready s dp)
    (hdir : (node s (s.itable dp).inum).type = T_DIR) (hinum : inum < s.sb.ninodes) :
    wp (dirlink dp name inum) (fun _ t => Go strict x (rc s) s t ∧ rc t = rc s) (Fit strict) s := by
  refine (dirlink_go h hp hdir).mono fun r t ht => ?_
  rcases ht with ⟨-, hl⟩ | ⟨-, hs⟩
  · obtain ⟨k, -, -, -, hdid⟩ := hl.did
    exact ⟨hl.go h hdir hinum, hdid.ref⟩
  · exact ⟨hs.go h _ fun _ => id, hs.ref⟩

theorem drop_go (h : Ok strict none s) (href : rc s = plus H p) (hp : Ready s p) :
    wp (iunlockput p) (fun _ t => Go strict none H s t ∧ rc t = H) (Fit strict) s :=
  (iunlockput_go h href hp).mono fun _ _ ht => ⟨ht.plain href h, ht.ref⟩

/-- The reference `namex` starts with is dropped, or is the one it returns; a parent is a directory. -/
theorem namexLoop_go (b : Bool) : ∀ rounds ip name path (s : FS), Ok strict none s → rc s = plus H ip →
    path.bytes.length < rounds → wp (namexLoop b rounds ip name path) (fun r t => Go strict none H s t ∧
      rc t = more H (r.map Prod.fst) ∧ (b = true → ∀ dp nm, r = some (dp, nm) →
        Ready t dp ∧ (node t (t.itable dp).inum).type = T_DIR)) (Fit strict) s
  | 0, _, _, _, _, _, _, hlt => absurd hlt (Nat.not_lt_zero _)
  | rounds + 1, ip, name, path, s, h, href, hlt => by
      have hpos : 0 < rc s ip := by rw [href]; exact plus_pos H ip
      have hdrop : ∀ t, Go strict none H s t → rc t = rc s → Ready t ip →
          wp (do iunlockput ip; return none : M (Option (IPtr × Name))) (fun r t => Go strict none H s t ∧
            rc t = more H (r.map Prod.fst) ∧ (b = true → ∀ dp nm, r = some (dp, nm) →
              Ready t dp ∧ (node t (t.itable dp).inum).type = T_DIR)) (Fit strict) t := by
        intro t hgo ht hready
        refine (iunlockput_go hgo.ok (ht.trans href) hready).bind fun _ u hu => ?_
        exact ⟨hgo.trans (hu.plain (ht.trans href) hgo.ok), hu.ref, fun _ _ _ hr => by cases hr⟩
      rw [namexLoop]
      split
      · refine wp_ite.mpr ⟨fun hb => ?_, fun hb => ?_⟩
        · refine (iput_go h href).bind fun _ t ht => ?_
          exact ⟨ht.plain href h, ht.ref, by rintro - _ _ ⟨⟩⟩
        · exact ⟨.refl h, href, fun hb' => absurd hb' hb⟩
      · rename_i name' path' helem
        refine (ilock_go h hpos).bind fun _ t ht => ?_
        have hgo : Go strict none (rc s) s t := ht.go h
        have hle : ∀ k, 0 < H k → 0 < rc s k := fun k hk => by rw [href]; exact le_plus H ip hk
        rw [wp_bind, wp_inode, ht.ready.node_type ht.wf]
        split
        · exact hdrop t (hgo.mono hle) ht.ref ht.ready
        rename_i hdir
        have hdir := not_not.mp hdir
        split
        · refine (iunlock_go hgo.ok ht.ready).bind fun _ u hu => ?_
          refine ⟨(hgo.mono hle).trans (hu.go hgo.ok), (hu.ref.trans ht.ref).trans href, fun _ dp nm hr => ?_⟩
          cases hr
          refine ⟨hu.ready, ?_⟩
          rw [hu.inum, hu.quiet.node, hdir]
        refine (dirlookup_go hgo.ok ht.ready hdir).bind fun r u hu => ?_
        obtain ⟨hgo', hrc⟩ := hu.go hgo.ok
        rw [ht.ref] at hgo' hrc
        have hgo₂ := hgo.trans hgo'
        have hready : Ready u ip := by
          refine hgo'.ready ht.ready hpos ?_
          rw [hrc]
          cases r with
          | none => exact hpos
          | some r =>
            obtain ⟨next, _⟩ := r
            exact le_plus (rc s) next hpos
        cases r with
        | none => exact hdrop u (hgo₂.mono hle) hrc hready
        | some r =>
          obtain ⟨next, _⟩ := r
          have hboth : rc u = plus (plus H next) ip := by
            rw [hrc, href]
            funext j
            exact Nat.add_right_comm ..
          refine (iunlockput_go hgo₂.ok hboth hready).bind fun _ v hv => ?_
          have hput : Go strict none _ u v := PutDone.plain hv hboth hgo₂.ok
          have hrest := namexLoop_go b rounds next name' path' v hput.ok hv.ref (by have := skipelem_length helem; omega)
          refine hrest.mono fun r w hw => ⟨?_, hw.2⟩
          exact ((hgo₂.mono hle).trans (hput.mono fun k hk => le_plus H next hk)).trans hw.1

theorem namex_go {cwd : IPtr} (path : Str) (b : Bool) (h : Ok strict none s) (hcwd : 0 < rc s cwd) :
    wp (namex cwd path b) (fun r t => Go strict none (rc s) s t ∧ rc t = more (rc s) (r.map Prod.fst) ∧
      (b = true → ∀ dp nm, r = some (dp, nm) → Ready t dp ∧ (node t (t.itable dp).inum).type = T_DIR)) (Fit strict) s := by
  rw [namex]
  split
  · refine (iget_go h s.sb.root fun _ => Nat.one_ne_zero).bind fun k t ht => ?_
    refine (namexLoop_go b _ k _ path t ht.1.ok ht.2 (Nat.lt_succ_self _)).mono fun r u hu => ⟨ht.1.trans hu.1, hu.2⟩
  · refine (idup_go h hcwd).bind fun k t ht => ?_
    obtain ⟨rfl, hgo, href⟩ := ht
    refine (namexLoop_go b _ k _ path t hgo.ok href (Nat.lt_succ_self _)).mono fun r u hu => ⟨hgo.trans hu.1, hu.2⟩

theorem namei_go {cwd : IPtr} (path : Str) (h : Ok strict none s) (hcwd : 0 < rc s cwd) :
    wp (namei cwd path) (fun r t => Go strict none (rc s) s t ∧ rc t = more (rc s) r) (Fit strict) s := by
  rw [namei]
  refine (namex_go path false h hcwd).bind fun r t ht => ?_
  cases r with
  | none => exact ⟨ht.1, ht.2.1⟩
  | some r =>
    obtain ⟨ip, _⟩ := r
    exact ⟨ht.1, ht.2.1⟩

end Minios.Fs
