import Minios.Fs.Dir
import Minios.Fs.Table

/-! `kernel/fs.c`: what the functions on directories do, in terms of entries.

    `dirlookup` finds the first entry of a name, `dirlink` writes over the first empty entry or appends one, and
    an entry is written as a whole or not at all: blocks hold whole entries. -/

namespace Minios.Fs
open Schemes Function

variable {s t : FS} {dp : IPtr} {name : Name} {k : ℕ}

/-- Entry `k` is within the file. -/
def Node.Has (nd : Node) (k : ℕ) : Prop := DESIZE * k + DESIZE ≤ nd.size

/-- The entry that `dirlookup` looks for. -/
def Dirent.Named (de : Dirent) (name : Name) : Prop := de.inum ≠ 0 ∧ de.key = name.bytes

theorem named_iff (de : Dirent) (name : Name) : de.Named name ↔ de.inum ≠ 0 ∧ namecmp name de.name = 0 := by
  rw [Dirent.Named, namecmp_eq_zero]

section Ready
variable (hw : Wf s) (hp : Ready s dp)
include hw hp

theorem Ready.size : (s.itable dp).d.size = (Fs.node s (s.itable dp).inum).size := by rw [hp.node hw]

theorem Ready.node_type : (s.itable dp).d.type = (Fs.node s (s.itable dp).inum).type := by rw [hp.node hw]

theorem Ready.size_le : (Fs.node s (s.itable dp).inum).size ≤ MAXFILE * BSIZE := by
  rw [← hp.size hw, hp.d hw]
  exact (hw.core.filled _ (hp.live hw)).1

end Ready

/-! ### Reading entries -/

theorem readDirent_spec {panic : Panic} (hw : Wf s) (hp : Ready s dp)
    (hk : DESIZE * k < (node s (s.itable dp).inum).size) :
    wp (readDirent dp (DESIZE * k) panic) (fun de t => t = s ∧ (node s (s.itable dp).inum).Has k ∧
      de = (node s (s.itable dp).inum).dirent k)
      (fun e => e = panic ∧ (node s (s.itable dp).inum).size % DESIZE ≠ 0) s := by
  have hmax := hp.size_le hw
  have hval : MAXFILE * BSIZE = 274432 := rfl
  rw [readDirent]
  refine (readi_spec hw hp (by omega) (show DESIZE < 2 ^ 32 by decide)).total.bind fun r t ht => ?_
  obtain ⟨rfl, hr⟩ := ht
  rw [if_pos ⟨hk.le, by simp only [DESIZE] at *; omega⟩] at hr
  obtain hr | ⟨-, hbad⟩ := hr
  · rw [hr]
    rcases Nat.lt_or_ge (node t (t.itable dp).inum).size (DESIZE * k + DESIZE) with hshort | hfull
    · refine wp_ite.mpr ⟨fun _ => ⟨rfl, ?_⟩, fun hne => absurd ?_ hne⟩
      · simp only [DESIZE] at *; omega
      · simp only [DESIZE] at *; omega
    · have hmin : min DESIZE ((node t (t.itable dp).inum).size - DESIZE * k) = DESIZE := by
        simp only [DESIZE] at *; omega
      rw [hmin]
      refine wp_ite.mpr ⟨fun hne => absurd rfl hne, fun _ => ⟨rfl, hfull, rfl⟩⟩
  · exact absurd (fun _ _ => rfl) hbad

/-! ### `dirlookup` -/

/-- What `dirlookup` did: the first entry of the name, and a reference to its inode. -/
structure Found (s : FS) (dp : IPtr) (name : Name) (r : Option (IPtr × ℕ)) (t : FS) : Prop where
  absent : r = none → t = s ∧ ∀ k, (node s (s.itable dp).inum).Has k → ¬ ((node s (s.itable dp).inum).dirent k).Named name
  present : ∀ ip off, r = some (ip, off) → ∃ k, off = DESIZE * k ∧ (node s (s.itable dp).inum).Has k ∧
    ((node s (s.itable dp).inum).dirent k).Named name ∧ Got s ((node s (s.itable dp).inum).dirent k).inum ip t

/-- How reading a directory may fail: it has part of an entry. -/
def Ragged (nd : Node) (panic e : Panic) : Prop := e = panic ∧ nd.size % DESIZE ≠ 0

theorem dirlookupLoop_first (hw : Wf s) (hp : Ready s dp) {Q : Option (IPtr × ℕ) → FS → Prop} {E : Panic → Prop}
    (hragged : (node s (s.itable dp).inum).size % DESIZE ≠ 0 → E .dirlookupRead)
    (hnone : (∀ j, (node s (s.itable dp).inum).Has j → ¬ ((node s (s.itable dp).inum).dirent j).Named name) → Q none s)
    (hsome : ∀ j, (node s (s.itable dp).inum).Has j → ((node s (s.itable dp).inum).dirent j).Named name →
      (∀ l, l < j → ¬ ((node s (s.itable dp).inum).dirent l).Named name) →
      wp (iget ((node s (s.itable dp).inum).dirent j).inum) (fun ip t => Q (some (ip, DESIZE * j)) t) E s) :
    ∀ (rounds k : ℕ), (node s (s.itable dp).inum).size < DESIZE * (rounds + k) →
    (∀ j, j < k → ¬ ((node s (s.itable dp).inum).dirent j).Named name) →
    wp (dirlookupLoop dp name rounds (DESIZE * k)) Q E s
  | 0, k, hr, hno => by
      refine hnone fun j hj => hno j ?_
      rw [Node.Has] at hj
      simp only [DESIZE] at *; omega
  | rounds + 1, k, hr, hno => by
      rw [dirlookupLoop, wp_bind, wp_inode, hp.size hw]
      split
      · rename_i hlt
        refine ((readDirent_spec hw hp hlt).weaken fun e he => he.1 ▸ hragged he.2).bind fun de t ht => ?_
        obtain ⟨ht, hhas, rfl⟩ := ht
        subst t
        split
        · rename_i hde
          exact (hsome k hhas ((named_iff _ _).mpr hde) hno).bind fun ip u hu => hu
        · rename_i hde
          refine dirlookupLoop_first hw hp hragged hnone hsome rounds (k + 1) (by simp only [DESIZE] at *; omega)
            fun j hj => ?_
          rcases Nat.lt_succ_iff_lt_or_eq.mp hj with hj | rfl
          · exact hno j hj
          · exact mt (named_iff _ _).mp hde
      · rename_i hge
        refine hnone fun j hj => hno j ?_
        rw [Node.Has] at hj
        simp only [DESIZE] at *; omega

/-- LOOKUP: the first entry of the name, and a reference to the inode it names. -/
theorem dirlookup_first (hw : Wf s) (hp : Ready s dp) (hdir : (node s (s.itable dp).inum).type = T_DIR)
    {Q : Option (IPtr × ℕ) → FS → Prop} {E : Panic → Prop}
    (hragged : (node s (s.itable dp).inum).size % DESIZE ≠ 0 → E .dirlookupRead)
    (hnone : (∀ j, (node s (s.itable dp).inum).Has j → ¬ ((node s (s.itable dp).inum).dirent j).Named name) → Q none s)
    (hsome : ∀ j, (node s (s.itable dp).inum).Has j → ((node s (s.itable dp).inum).dirent j).Named name →
      (∀ l, l < j → ¬ ((node s (s.itable dp).inum).dirent l).Named name) →
      wp (iget ((node s (s.itable dp).inum).dirent j).inum) (fun ip t => Q (some (ip, DESIZE * j)) t) E s) :
    wp (dirlookup dp name) Q E s := by
  rw [dirlookup, wp_bind, wp_inode, hp.node_type hw, hp.size hw]
  refine wp_ite.mpr ⟨fun hne => absurd hdir hne, fun _ => ?_⟩
  exact dirlookupLoop_first hw hp hragged hnone hsome _ 0 (by simp only [DESIZE]; omega)
    fun j hj => absurd hj (Nat.not_lt_zero j)

/-- LOOKUP where entries name inodes that exist. -/
theorem dirlookup_spec (hw : Wf s) (hp : Ready s dp)
    (hinum : ∀ j, (node s (s.itable dp).inum).Has j → ((node s (s.itable dp).inum).dirent j).inum < s.sb.ninodes)
    (hdir : (node s (s.itable dp).inum).type = T_DIR) :
    wp (dirlookup dp name) (fun r t => Found s dp name r t)
      (fun e => Ragged (node s (s.itable dp).inum) .dirlookupRead e ∨ e = .igetNoInodes) s := by
  refine dirlookup_first hw hp hdir (fun h => Or.inl ⟨rfl, h⟩) (fun hno => ⟨fun _ => ⟨rfl, hno⟩, fun _ _ h => by cases h⟩)
    fun j hj hnamed _ => ?_
  refine ((iget_spec hw (hinum j hj)).weaken fun e he => Or.inr he).mono fun ip t ht => ⟨fun h => (by cases h), fun ip' off' h => ?_⟩
  cases h
  exact ⟨j, rfl, hj, hnamed, ht⟩

/-! ### Writing entries -/

theorem mapped_encode (de : Dirent) : MappedSrc (fun j => de.encode[j]?) DESIZE := by
  intro j hj
  simpa using hj

theorem splice_zero {nd : Node} {off : ℕ} (hoff : off ≤ nd.size) (f : ℕ → UInt8) : nd.splice off f 0 = nd := by
  rw [Node.splice, max_eq_left (by omega)]
  cases nd
  simp only [Node.mk.injEq, true_and]
  funext o
  rw [if_neg (by omega)]

/-- An entry is written as a whole or not at all; it is written if its place is within the file. -/
theorem writeDirent_spec {de : Dirent} (hw : Wf s) (hp : Ready s dp)
    (hk : DESIZE * k ≤ (node s (s.itable dp).inum).size) :
    wp (writeDirent dp (DESIZE * k) de) (fun r t =>
      r = DESIZE ∧ Did dp s ((node s (s.itable dp).inum).setDirent k de) t ∨
      r ≠ DESIZE ∧ ¬ (node s (s.itable dp).inum).Has k ∧ (t = s ∨ Did dp s (node s (s.itable dp).inum) t))
      (fun _ => False) s := by
  have hmax := hp.size_le hw
  have hlt := MAXFILE_lt
  rw [writeDirent]
  refine (writei_spec hw hp (by omega) (show DESIZE < 2 ^ 32 by decide) fun _ => mapped_encode de).mono fun r t ht => ?_
  split at ht
  · rename_i hfit
    obtain ⟨tot, nd, rfl, hle, hdid, -, -, hsrc⟩ := ht
    obtain ⟨rfl, hshort, -⟩ := hsrc (mapped_encode de)
    rcases Nat.lt_or_eq_of_le hle with htot | rfl
    · obtain ⟨-, hsize, hblock⟩ := hshort htot
      -- a block ends where an entry ends
      have h0 : tot = 0 := by simp only [DESIZE, BSIZE] at *; omega
      subst h0
      rw [splice_zero hk] at hdid
      refine Or.inr ⟨by simp [DESIZE], ?_, Or.inr hdid⟩
      rw [Node.Has]; simp only [DESIZE] at *; omega
    · exact Or.inl ⟨rfl, hdid⟩
  · rename_i hfit
    obtain ⟨rfl, rfl⟩ := ht
    refine Or.inr ⟨by simp [DESIZE], fun hhas => hfit ⟨hk, ?_⟩, Or.inl rfl⟩
    rw [Node.Has] at hhas; omega

theorem dirlinkLoop_spec (hw : Wf s) (hp : Ready s dp) : ∀ (rounds k : ℕ),
    (node s (s.itable dp).inum).size < DESIZE * (rounds + k) → DESIZE * k ≤ (node s (s.itable dp).inum).size →
    (∀ j, j < k → ((node s (s.itable dp).inum).dirent j).inum ≠ 0) →
    wp (dirlinkLoop dp rounds (DESIZE * k)) (fun off t => t = s ∧ ∃ k, off = DESIZE * k ∧
      DESIZE * k ≤ (node s (s.itable dp).inum).size ∧ (∀ j, j < k → ((node s (s.itable dp).inum).dirent j).inum ≠ 0) ∧
      ((node s (s.itable dp).inum).Has k → ((node s (s.itable dp).inum).dirent k).inum = 0))
      (fun e => Ragged (node s (s.itable dp).inum) .dirlinkRead e) s
  | 0, k, hr, hk, _ => absurd hr (by simp only [DESIZE] at *; omega)
  | rounds + 1, k, hr, hk, hno => by
      rw [dirlinkLoop, wp_bind, wp_inode, hp.size hw]
      split
      · rename_i hlt
        refine (readDirent_spec hw hp hlt).bind fun de t ht => ?_
        obtain ⟨ht, hhas, rfl⟩ := ht
        subst t
        split
        · rename_i h0
          exact ⟨rfl, k, rfl, hk, hno, fun _ => h0⟩
        · rename_i h0
          refine dirlinkLoop_spec hw hp rounds (k + 1) (by simp only [DESIZE] at *; omega) ?_ fun j hj => ?_
          · rw [Node.Has] at hhas; simp only [DESIZE] at *; omega
          · rcases Nat.lt_succ_iff_lt_or_eq.mp hj with hj | rfl
            · exact hno j hj
            · exact h0
      · rename_i hge
        refine ⟨rfl, k, rfl, hk, hno, fun hhas => ?_⟩
        rw [Node.Has] at hhas
        simp only [DESIZE] at *; omega

/-- Nothing has changed that a caller can see. -/
structure Still (s t : FS) : Prop where
  wf : Wf t
  sb : t.sb = s.sb
  ref : rc t = rc s
  node : node t = node s
  keep : Keep (rc s) s t

theorem Still.refl (hw : Wf s) : Still s s := ⟨hw, rfl, rfl, rfl, .refl _ s⟩

/-- A reference that was just taken is dropped: the inode is not freed. -/
theorem iput_got {i : ℕ} {ip : IPtr} (hgot : Got s i ip t) :
    wp (iput ip) (fun _ u => Still s u) (fun e => e = .blocked) t := by
  refine ((iput_spec hgot.wf hgot.ref).weaken fun _ h => h.1).mono fun _ u hu => ?_
  refine ⟨hu.wf, hu.sb.trans hgot.quiet.sb, hu.ref, ?_, hgot.keep.trans hu.keep⟩
  rw [hu.node, if_neg, hgot.quiet.node]
  rintro ⟨h0, hvalid, -⟩
  rw [hgot.fresh h0] at hvalid
  cases hvalid

theorem Did.ref {nd : Node} (h : Did dp s nd t) : rc t = rc s := funext fun j => congrArg Prod.fst (congrFun h.view j)

theorem Did.inum {nd : Node} (h : Did dp s nd t) (j : IPtr) : (t.itable j).inum = (s.itable j).inum :=
  congrArg (fun v => v.2.1) (congrFun h.view j)

theorem Did.valid {nd : Node} (h : Did dp s nd t) (j : IPtr) : (t.itable j).valid = (s.itable j).valid :=
  congrArg (fun v => v.2.2) (congrFun h.view j)

theorem Did.keep {nd : Node} (h : Did dp s nd t) (htype : nd.type = (Fs.node s (s.itable dp).inum).type)
    (H : IPtr → ℕ) : Keep H s t := by
  refine fun j _ => ⟨h.inum j, fun hv => ⟨by rw [h.valid, hv], ?_⟩⟩
  rw [h.node]
  rcases eq_or_ne (s.itable j).inum (s.itable dp).inum with he | hne
  · rw [he, update_self, htype]
  · rw [update_of_ne hne]

/-- How `dirlink` may fail. -/
def DirlinkFails (nd : Node) (e : Panic) : Prop :=
  Ragged nd .dirlookupRead e ∨ Ragged nd .dirlinkRead e ∨ e = .igetNoInodes ∨ e = .blocked

/-- What `dirlink` did when it returned 0: there was no entry of the name, and now there is one. -/
structure Linked (s : FS) (dp : IPtr) (name : Name) (inum : ℕ) (t : FS) : Prop where
  fresh : ∀ j, (node s (s.itable dp).inum).Has j → ¬ ((node s (s.itable dp).inum).dirent j).Named name
  did : ∃ k, DESIZE * k ≤ (node s (s.itable dp).inum).size ∧
    (∀ j, j < k → ((node s (s.itable dp).inum).dirent j).inum ≠ 0) ∧
    ((node s (s.itable dp).inum).Has k → ((node s (s.itable dp).inum).dirent k).inum = 0) ∧
    Did dp s ((node s (s.itable dp).inum).setDirent k (Dirent.of name inum)) t

/-- LINK: a new entry, or nothing. -/
theorem dirlink_spec {inum : ℕ} (hw : Wf s) (hp : Ready s dp)
    (hinum : ∀ j, (node s (s.itable dp).inum).Has j → ((node s (s.itable dp).inum).dirent j).inum < s.sb.ninodes)
    (hdir : (node s (s.itable dp).inum).type = T_DIR) :
    wp (dirlink dp name inum) (fun r t => r = 0 ∧ Linked s dp name inum t ∨ r = -1 ∧ Still s t)
      (DirlinkFails (node s (s.itable dp).inum)) s := by
  rw [dirlink]
  have hlook : wp (dirlookup dp name) _ _ s := dirlookup_spec hw hp hinum hdir
  refine (hlook.weaken fun e he => he.imp id fun h => Or.inr (Or.inl h)).bind fun r t ht => ?_
  cases r with
  | some r =>
    obtain ⟨ip, off⟩ := r
    obtain ⟨k, -, -, -, hgot⟩ := ht.present ip off rfl
    exact ((iput_got hgot).weaken fun e he => Or.inr (Or.inr (Or.inr he))).bind fun _ u hu => Or.inr ⟨rfl, hu⟩
  | none =>
    obtain ⟨hts, hfresh⟩ := ht.absent rfl
    subst t
    rw [wp_bind, wp_inode, hp.size hw]
    have hloop := dirlinkLoop_spec hw hp ((node s (s.itable dp).inum).size / DESIZE + 1) 0
      (by simp only [DESIZE]; omega) (by omega) fun j hj => absurd hj (Nat.not_lt_zero j)
    rw [Nat.mul_zero] at hloop
    refine (hloop.weaken fun e he => Or.inr (Or.inl he)).bind fun off t ht => ?_
    obtain ⟨hts, k, rfl, hk, hbefore, hempty⟩ := ht
    subst t
    refine (writeDirent_spec hw hp hk).total.bind fun r t ht => ?_
    rcases ht with ⟨rfl, hdid⟩ | ⟨hr, -, ht⟩
    · exact wp_ite.mpr ⟨fun h => absurd rfl h, fun _ => Or.inl ⟨rfl, hfresh, k, hk, hbefore, hempty, hdid⟩⟩
    · refine wp_ite.mpr ⟨fun _ => Or.inr ⟨rfl, ?_⟩, fun h => absurd hr h⟩
      rcases ht with rfl | hdid
      · exact .refl hw
      · exact ⟨hdid.wf, hdid.sb, hdid.ref, by rw [hdid.node, update_eq_self], hdid.keep rfl _⟩

/-! ### `isdirempty` -/

theorem isdiremptyLoop_spec (hw : Wf s) (hp : Ready s dp) : ∀ (rounds k : ℕ),
    (node s (s.itable dp).inum).size < DESIZE * (rounds + k) →
    wp (isdiremptyLoop dp rounds (DESIZE * k)) (fun r t => t = s ∧
      (r = true ↔ ∀ j, k ≤ j → (node s (s.itable dp).inum).Has j → ((node s (s.itable dp).inum).dirent j).inum = 0))
      (fun e => Ragged (node s (s.itable dp).inum) .isdiremptyReadi e) s
  | 0, k, hr => by
      refine ⟨rfl, iff_of_true rfl fun j hj hhas => ?_⟩
      rw [Node.Has] at hhas
      simp only [DESIZE] at *; omega
  | rounds + 1, k, hr => by
      rw [isdiremptyLoop, wp_bind, wp_inode, hp.size hw]
      split
      · rename_i hlt
        refine (readDirent_spec hw hp hlt).bind fun de t ht => ?_
        obtain ⟨ht, hhas, rfl⟩ := ht
        subst t
        split
        · rename_i hne
          exact ⟨rfl, iff_of_false Bool.false_ne_true fun h => hne (h k le_rfl hhas)⟩
        · rename_i h0
          refine (isdiremptyLoop_spec hw hp rounds (k + 1) (by simp only [DESIZE] at *; omega)).mono fun r t ht => ⟨ht.1, ?_⟩
          rw [ht.2]
          refine ⟨fun h j hj hj' => ?_, fun h j hj => h j (by omega)⟩
          rcases Nat.lt_or_eq_of_le hj with hj | rfl
          · exact h j hj hj'
          · exact not_not.mp h0
      · rename_i hge
        refine ⟨rfl, iff_of_true rfl fun j hj hhas => ?_⟩
        rw [Node.Has] at hhas
        simp only [DESIZE] at *; omega

/-- EMPTY: all entries from the third on are empty. -/
theorem isdirempty_spec (hw : Wf s) (hp : Ready s dp) : wp (isdirempty dp) (fun r t => t = s ∧
    (r = true ↔ ∀ j, 2 ≤ j → (node s (s.itable dp).inum).Has j → ((node s (s.itable dp).inum).dirent j).inum = 0))
    (fun e => Ragged (node s (s.itable dp).inum) .isdiremptyReadi e) s := by
  rw [isdirempty, wp_bind, wp_inode, hp.size hw, Nat.mul_comm]
  exact isdiremptyLoop_spec hw hp _ 2 (by simp only [DESIZE]; omega)

end Minios.Fs
