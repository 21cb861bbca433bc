import Minios.Schemes.Run
import Minios.Fs.Mkfs
import Minios.Fs.Table

/-! `kernel/fs.c`, `kernel/sysfile.c`: the copies in the inode table are those on the disk.

    The labels are what processes do to inodes, in any order: the functions of the inode layer, and the
    places of `sys_link`, `sys_unlink` and `create` that change a field and call `iupdate`. Each keeps
    copy and dinode together, so nothing is lost when an entry is recycled: between the `iput` that
    drops the last reference and the next `iget` no one writes the dinode. -/

namespace Minios.Fs
open Schemes Function

variable {s t u : FS} {k : IPtr} {i : ℕ}

inductive Op where
  | iget (i : ℕ)
  | idup (k : IPtr)
  | ialloc (type : ℕ)
  | ilock (k : IPtr)
  | iunlock (k : IPtr)
  | iput (k : IPtr)
  | readi (k : IPtr) (dst : ℕ → Bool) (off n : ℕ)
  | writei (k : IPtr) (src : ℕ → Option UInt8) (off n : ℕ)
  | itrunc (k : IPtr)
  | link (k : IPtr)
  | unlink (k : IPtr)
  | create (k : IPtr) (major minor : ℕ)
  | undo (k : IPtr)
  | evict (b : ℕ)

def Op.exec : Op → M Unit
  | .iget i => do let _ ← Fs.iget i
  | .idup k => do let _ ← Fs.idup k
  | .ialloc type => do let _ ← Fs.ialloc type
  | .ilock k => Fs.ilock k
  | .iunlock k => Fs.iunlock k
  | .iput k => Fs.iput k
  | .readi k dst off n => do let _ ← Fs.readi k dst off n
  | .writei k src off n => do let _ ← Fs.writei k src off n
  | .itrunc k => Fs.itrunc k
  | .link k => do
    setD k .link
    iupdate k
  | .unlink k => do
    setD k .unlink
    iupdate k
  | .create k major minor => do
    setD k (.create major minor)
    iupdate k
  | .undo k => do
    setD k (·.setNlink 0)
    iupdate k
  | .evict b => Prog.modify (·.evict b)

/-- Someone has locked the inode, and so has read it. -/
def Held (s : FS) (k : IPtr) : Prop := (s.itable k).locked = true ∧ 0 < rc s k ∧ (s.itable k).valid = true

/-- Who calls these functions holds a reference; who changes an inode holds its lock, and keeps a reference for
    it; arguments fit their types, and directories are written from kernel memory. -/
def Op.Ok (s : FS) : Op → Prop
  | .iget i => i < s.sb.ninodes
  | .idup k | .ilock k => 0 < rc s k
  | .ialloc type => type ≠ 0 ∧ type < 2 ^ 16
  | .iput k => (if (s.itable k).locked then 1 else 0) < rc s k
  | .readi k _ off n => Held s k ∧ off < 2 ^ 32 ∧ n < 2 ^ 32
  | .writei k src off n => Held s k ∧ off < 2 ^ 32 ∧ n < 2 ^ 32 ∧ ((s.itable k).d.type = T_DIR → MappedSrc src n)
  | .iunlock k | .itrunc k | .link k | .unlink k | .create k _ _ | .undo k => Held s k
  | .evict _ => True

instance (s : FS) (k : IPtr) : Decidable (Held s k) := inferInstanceAs (Decidable (_ ∧ _ ∧ _))

instance (src : ℕ → Option UInt8) (n : ℕ) : Decidable (MappedSrc src n) := Nat.decidableBallLT n fun j _ => (src j).isSome = true

instance (s : FS) : ∀ op : Op, Decidable (op.Ok s)
  | .iget _ | .idup _ | .ilock _ | .iput _ => inferInstanceAs (Decidable (_ < _))
  | .ialloc _ | .readi _ _ _ _ | .writei _ _ _ _ => inferInstanceAs (Decidable (_ ∧ _))
  | .iunlock _ | .itrunc _ | .link _ | .unlink _ | .create _ _ _ | .undo _ => inferInstanceAs (Decidable (Held _ _))
  | .evict _ => inferInstanceAs (Decidable True)

/-- A panic ends a run. -/
def Op.step (s : FS) (op : Op) : Option FS := if op.Ok s then op.exec.after s else none

theorem Held.ready (h : Held s k) : Ready s k := ⟨h.2.1, h.2.2⟩

/-! ### What no one uses stays as it is -/

/-- No table entry in use has inode `i`. -/
def Unused (s : FS) (i : ℕ) : Prop := ∀ k, 0 < rc s k → (s.itable k).inum ≠ i

/-- Inode `i` is not used after a step either, and has not changed. -/
structure Stays (i : ℕ) (s t : FS) : Prop where
  unused : Unused t i
  dinode : dinode t i = dinode s i

theorem unused_of (hi : Unused s i)
    (h : ∀ m, 0 < rc t m → 0 < rc s m ∧ (t.itable m).inum = (s.itable m).inum ∨ (t.itable m).inum ≠ i) : Unused t i := by
  intro m hm
  rcases h m hm with ⟨h1, h2⟩ | h1
  · rw [h2]; exact hi m h1
  · exact h1

theorem unused_plus (hi : Unused s i) (href : rc t = plus (rc s) k) (hkeep : Keep (rc s) s t)
    (hk : (t.itable k).inum ≠ i) : Unused t i := by
  refine unused_of hi fun m hm => ?_
  rcases eq_or_ne m k with rfl | hne
  · exact Or.inr hk
  · rw [href, plus, if_neg hne, Nat.add_zero] at hm
    exact Or.inl ⟨hm, (hkeep m hm).1⟩

theorem Got.stays {j : ℕ} (h : Got s j k t) (hi : Unused s i) (hne : j ≠ i) : Stays i s t :=
  ⟨unused_plus hi h.ref h.keep (h.inum.symm ▸ hne), by rw [h.quiet.dinode]⟩

theorem Locked.stays (h : Locked s k t) (hi : Unused s i) : Stays i s t := by
  refine ⟨unused_of hi fun m hm => Or.inl ?_, by rw [h.quiet.dinode]⟩
  rw [h.ref] at hm
  exact ⟨hm, (h.keep (rc s) m hm).1⟩

theorem Did.stays {nd : Node} (h : Did k s nd t) (hi : Unused s i) (hk : 0 < rc s k) : Stays i s t := by
  refine ⟨unused_of hi fun m hm => Or.inl ?_, h.other i (hi k hk).symm⟩
  have hv := congrFun h.view m
  simp only [Fs.view, Prod.mk.injEq] at hv
  rw [rc, hv.1] at hm
  exact ⟨hm, hv.2.1⟩

theorem PutDone.stays {H : IPtr → ℕ} (h : PutDone H s k t) (href : rc s = plus H k) (hi : Unused s i)
    (htype : (dinode s i).type ≠ 0) : Stays i s t := by
  have hle : ∀ m, H m ≤ rc s m := fun m => by rw [href, plus]; omega
  have hk : (s.itable k).inum ≠ i := hi k (by rw [href, plus, if_pos rfl]; omega)
  refine ⟨unused_of hi fun m hm => Or.inl ?_, h.other i ?_⟩
  · rw [h.ref] at hm
    exact ⟨lt_of_lt_of_le hm (hle m), (h.keep m hm).1⟩
  · rw [← node_type] at htype ⊢
    rw [h.node]
    split
    · rwa [update_of_ne hk.symm]
    · exact htype

theorem Alloc.stays {type j : ℕ} (h : Alloc s type j k t) (hi : Unused s i) (htype : (dinode s i).type ≠ 0) :
    Stays i s t := by
  have hne : j ≠ i := by
    rintro rfl
    exact htype (node_type s j ▸ h.free)
  exact ⟨unused_plus hi h.ref h.keep (h.inum.symm ▸ hne), h.other i hne.symm⟩

/-! ### Every step -/

/-- Every operation keeps the table in step with the disk, and leaves unused inodes alone. -/
theorem op_spec {op : Op} (hw : Wf s) (hop : op.Ok s) : wp op.exec (fun _ t => Wf t ∧
    ∀ i, Unused s i → (dinode s i).type ≠ 0 → op ≠ .iget i → Stays i s t) (fun _ => True) s := by
  have hdid : ∀ {k nd t}, 0 < rc s k → Did k s nd t → Wf t ∧
      ∀ i, Unused s i → (dinode s i).type ≠ 0 → op ≠ .iget i → Stays i s t := fun hk h =>
    ⟨h.wf, fun i hi _ _ => h.stays hi hk⟩
  have hsame : Wf s ∧ ∀ i, Unused s i → (dinode s i).type ≠ 0 → op ≠ .iget i → Stays i s s :=
    ⟨hw, fun i hi _ _ => ⟨hi, rfl⟩⟩
  cases op with
  | iget j =>
    rw [Op.exec, wp_bind]
    exact ((iget_spec hw hop).weaken fun _ _ => trivial).mono fun k t ht =>
      ⟨ht.wf, fun i hi _ hne => ht.stays hi fun he => hne (by rw [he])⟩
  | idup k =>
    rw [Op.exec, wp_bind]
    exact (idup_spec hw hop).total.mono fun _ t ht => ⟨ht.2.wf, fun i hi _ _ => ht.2.stays hi (hi k hop)⟩
  | ialloc type =>
    rw [Op.exec, wp_bind]
    refine ((ialloc_spec hw hop.1 hop.2).weaken fun _ _ => trivial).mono fun r t ht => ?_
    rcases ht with ⟨-, rfl⟩ | ⟨k, j, -, ht⟩
    · exact hsame
    · exact ⟨ht.wf, fun i hi htype _ => ht.stays hi htype⟩
  | ilock k =>
    exact ((ilock_spec hw hop).weaken fun _ _ => trivial).mono fun _ t ht => ⟨ht.wf, fun i hi _ _ => ht.stays hi⟩
  | iunlock k =>
    exact ((iunlock_spec hw (Held.ready hop)).weaken fun _ _ => trivial).mono fun _ t ht =>
      ⟨ht.wf, fun i hi _ _ => ht.stays hi⟩
  | iput k =>
    have hpos : 0 < rc s k := lt_of_le_of_lt (Nat.zero_le _) hop
    have href : rc s = plus (update (rc s) k (rc s k - 1)) k := by
      funext m
      rw [plus]
      rcases eq_or_ne m k with rfl | hne
      · rw [update_self, if_pos rfl]; omega
      · rw [update_of_ne hne, if_neg hne, Nat.add_zero]
    exact ((iput_spec hw href).weaken fun _ _ => trivial).mono fun _ t ht =>
      ⟨ht.wf, fun i hi htype _ => ht.stays href hi htype⟩
  | readi k dst off n =>
    rw [Op.exec, wp_bind]
    refine (readi_spec hw hop.1.ready hop.2.1 hop.2.2).total.mono fun r t ht => ?_
    rw [ht.1]
    exact hsame
  | writei k src off n =>
    obtain ⟨hheld, hoff, hn, hdir⟩ := hop
    have hdir' : (node s (s.itable k).inum).type = T_DIR → MappedSrc src n := fun ht =>
      hdir (by rw [hheld.ready.d hw, ← node_type]; exact ht)
    rw [Op.exec, wp_bind]
    refine (writei_spec hw hheld.ready hoff hn hdir').total.mono fun r t ht => ?_
    split at ht
    · obtain ⟨_, _, _, _, h, _⟩ := ht
      exact hdid hheld.2.1 h
    · rw [ht.2]
      exact hsame
  | itrunc k => exact (itrunc_did hw hop.ready).total.mono fun _ t ht => hdid hop.2.1 ht.1
  | link k => exact (setFields_did tame_link hw hop.ready).total.mono fun _ t ht => hdid hop.2.1 ht
  | unlink k => exact (setFields_did tame_unlink hw hop.ready).total.mono fun _ t ht => hdid hop.2.1 ht
  | create k major minor =>
    exact (setFields_did (tame_create major minor) hw hop.ready).total.mono fun _ t ht => hdid hop.2.1 ht
  | undo k => exact (setFields_did tame_clear hw hop.ready).total.mono fun _ t ht => hdid hop.2.1 ht
  | evict b =>
    have h := hw.evict b
    refine ⟨h.wf, fun i hi _ _ => ⟨fun m hm => ?_, by rw [h.dinode]⟩⟩
    rw [rc, h.itable] at hm
    rw [h.itable]
    exact hi m hm

theorem step_spec {op : Op} (hw : Wf s) (hstep : op.step s = some t) : op.Ok s ∧ Wf t ∧
    ∀ i, Unused s i → (dinode s i).type ≠ 0 → op ≠ .iget i → Stays i s t := by
  rw [Op.step] at hstep
  split at hstep
  · rename_i hop
    obtain ⟨-, h⟩ := (op_spec hw hop).after hstep
    exact ⟨hop, h⟩
  · cases hstep

/-- An inode that is in no table entry stays as it is until it is looked up again. -/
theorem run_stays {ops : List Op} (hw : Wf s) (hi : Unused s i) (htype : (dinode s i).type ≠ 0)
    (hops : ∀ op ∈ ops, op ≠ .iget i) (hrun : run Op.step s ops = some t) : Wf t ∧ Stays i s t := by
  induction ops generalizing s with
  | nil =>
    obtain rfl := Option.some.inj hrun
    exact ⟨hw, hi, rfl⟩
  | cons op ops ih =>
    rw [run_cons, Option.bind_eq_some_iff] at hrun
    obtain ⟨u, hu, hrest⟩ := hrun
    obtain ⟨-, hwu, hstay⟩ := step_spec hw hu
    have h1 := hstay i hi htype (hops op List.mem_cons_self)
    obtain ⟨hwt, h2⟩ := ih hwu h1.unused (by rw [h1.dinode]; exact htype)
      (fun op' h => hops op' (List.mem_cons_of_mem _ h)) hrest
    exact ⟨hwt, h2.unused, h2.dinode.trans h1.dinode⟩

/-! ### Cached and on disk -/

/-- Table and disk agree, and will. -/
structure InStep (s : FS) : Prop where
  /-- copies are those on the disk, also while the inode is locked -/
  sync : ∀ k, 0 < rc s k → (s.itable k).valid = true → (s.itable k).d = dinode s (s.itable k).inum
  /-- when the last reference to an inode with links is dropped, whoever looks the inode up next reads the same -/
  kept : ∀ k k' ops u, rc s k = 1 → (s.itable k).valid = true → (s.itable k).d.nlink ≠ 0 →
    (∀ op ∈ ops, op ≠ .iget (s.itable k).inum) →
    run Op.step s (.iput k :: (ops ++ [.iget (s.itable k).inum, .ilock k'])) = some u →
    (u.itable k').inum = (s.itable k).inum → (u.itable k').d = (s.itable k).d

theorem iput_kept (hw : Wf s) (hone : rc s k = 1) (hv : (s.itable k).valid = true) (hlink : (s.itable k).d.nlink ≠ 0)
    (hstep : Op.step s (.iput k) = some t) : Wf t ∧ Stays (s.itable k).inum s t := by
  have hready : Ready s k := ⟨by rw [rc] at hone; omega, hv⟩
  have href : rc s = plus (update (rc s) k 0) k := by
    funext m
    rw [plus]
    rcases eq_or_ne m k with rfl | hne
    · rw [update_self, if_pos rfl, hone]
    · rw [update_of_ne hne, if_neg hne, Nat.add_zero]
  rw [Op.step] at hstep
  split at hstep
  case isFalse => cases hstep
  obtain ⟨-, h⟩ := (iput_spec hw href).after hstep
  have hnode : node t = node s := by
    rw [h.node, if_neg]
    rintro ⟨-, -, h0⟩
    rw [hready.node hw] at h0
    exact hlink h0
  refine ⟨h.wf, fun m hm he => ?_, h.other _ ?_⟩
  · have hpos : 0 < update (rc s) k 0 m := h.ref ▸ hm
    have hmk : m ≠ k := by rintro rfl; rw [update_self] at hpos; omega
    rw [(h.keep m hpos).1] at he
    rw [update_of_ne hmk] at hpos
    exact hmk (hw.uniq m k hpos hready.ref he)
  · rw [← node_type, hnode, node_type]; exact hready.type hw

theorem Wf.inStep (hw : Wf s) : InStep s := by
  refine ⟨fun k hk hv => (hw.sync k hk hv).1, fun k k' ops u hone hv hlink hops hrun hinum => ?_⟩
  rw [run_cons, Option.bind_eq_some_iff] at hrun
  obtain ⟨t, ht, hrun⟩ := hrun
  obtain ⟨hwt, hst⟩ := iput_kept hw hone hv hlink ht
  have hready : Ready s k := ⟨by rw [rc] at hone; omega, hv⟩
  rw [run_append, Option.bind_eq_some_iff] at hrun
  obtain ⟨v, hv', hrun⟩ := hrun
  obtain ⟨hwv, hsv⟩ := run_stays hwt hst.unused (by rw [hst.dinode]; exact hready.type hw) hops hv'
  rw [run_cons, Option.bind_eq_some_iff] at hrun
  obtain ⟨x, hx, hrun⟩ := hrun
  rw [run_cons, Option.bind_eq_some_iff] at hrun
  obtain ⟨y, hy, hrun⟩ := hrun
  obtain rfl : y = u := Option.some.inj hrun
  rw [Op.step] at hx hy
  split at hx
  case isFalse => cases hx
  rename_i hlt
  split at hy
  case isFalse => cases hy
  rename_i hpos
  have hget : wp (Op.exec (.iget (s.itable k).inum)) (fun _ t => ∃ j, Got v (s.itable k).inum j t)
      (fun e => e = .igetNoInodes) v := by
    rw [Op.exec, wp_bind]
    exact (iget_spec hwv hlt).mono fun j t ht => ⟨j, ht⟩
  obtain ⟨-, j, hgot⟩ := hget.after hx
  obtain ⟨-, hlock⟩ := (ilock_spec hgot.wf hpos).after hy
  rw [(hlock.wf.sync k' hlock.ready.ref hlock.ready.valid).1, hinum, hlock.quiet.dinode, hgot.quiet.dinode, hsv.dinode,
    hst.dinode, hready.d hw]

/-- CORRECT (cached inodes): after every sequence of operations, from an image whose books of blocks are in order. -/
theorem cached_in_step {ops : List Op} (himage : Image s) (hrun : run Op.step s ops = some t) : InStep t :=
  (run_inv (fun _ _ _ hw hstep => (step_spec hw hstep).2.1) himage.wf hrun : Wf t).inStep

/-- A file is created, linked and written; the last reference to it is dropped and it is looked up again. -/
def createAndReload : List Op :=
  [.ialloc T_FILE, .ilock 0, .create 0 0 0, .writei 0 (fun _ => some 7) 0 1, .link 0, .iunlock 0, .iput 0,
    .iget 2, .ilock 0]

theorem cached_in_step_createAndReload : ∃ t, run Op.step (.fresh .std) createAndReload = some t ∧
    (t.itable 0).d.nlink = 2 ∧ (t.itable 0).d.size = 1 ∧ InStep t := by
  have hview : (run Op.step (.fresh .std) createAndReload).map (fun t => ((t.itable 0).d.nlink, (t.itable 0).d.size)) =
      some (2, 1) := by decide +kernel
  obtain ⟨t, ht, hv⟩ := Option.map_eq_some_iff.mp hview
  obtain ⟨h1, h2⟩ := Prod.mk.inj hv
  exact ⟨t, ht, h1, h2, cached_in_step (fresh_image .std Superblock.std_small) ht⟩

/-- A free map that does not mark the first inode block. -/
def unmarked : FS :=
  ((FS.fresh .std).write 32 (setDinode (freshDisk .std 32) 2 { Dinode.fresh T_FILE with nlink := 1 })).write
    45 (clearBit (markMap 47) 32)

/-- The first inode block is given to a file while an inode in it is cached. -/
def overwrite : List Op :=
  [.iget 1, .ilock 0, .iget 2, .ilock 1, .iunlock 1, .writei 0 (fun _ => some 7) 1024 1, .iunlock 0]

theorem dinode_unmarked : dinode unmarked =
    update (update (fun _ => .fresh 0) ROOTINO (rootDinode .std)) 2 { Dinode.fresh T_FILE with nlink := 1 } := by
  have hlow : dinode unmarked = dinode ((FS.fresh .std).write 32 (setDinode (freshDisk .std 32) 2
      { Dinode.fresh T_FILE with nlink := 1 })) :=
    dinode_low rfl fun b hb => update_of_ne (by have : b < 45 := hb; omega) ..
  rw [hlow, ← dinode_fresh .std Superblock.std_small]
  exact dinode_setDinode (s := .fresh .std) (i := 2) (by decide)
    ⟨by decide, by decide, by decide, by decide, by decide, fun _ => Nat.two_pow_pos 32⟩

/-- Blocks below the size are allocated, but an unlocked copy is not what the disk has. -/
theorem cached_not_in_step : (∀ i, Live unmarked.sb (dinode unmarked) i → Filled unmarked.disk (dinode unmarked i)) ∧
    (∀ k, (unmarked.itable k).ref = 0) ∧ ∃ t k, run Op.step unmarked overwrite = some t ∧
    0 < rc t k ∧ (t.itable k).valid = true ∧ (t.itable k).locked = false ∧ (t.itable k).d ≠ dinode t (t.itable k).inum := by
  refine ⟨fun i hi => ?_, fun _ => rfl, ?_⟩
  · rw [dinode_unmarked] at hi ⊢
    rcases eq_or_ne i 2 with rfl | h2
    · rw [update_self]
      exact ⟨by decide, fun bn hbn => absurd hbn (Nat.not_lt_zero _)⟩
    · rcases eq_or_ne i ROOTINO with rfl | h1
      · rw [update_of_ne (by decide), update_self]
        refine ⟨by decide, fun bn hbn => ?_⟩
        have hbn0 : bn = 0 := by
          have : bn * BSIZE < BSIZE := hbn
          simp only [BSIZE] at this
          omega
        rw [ref_root, hbn0]
        decide
      · refine absurd ?_ hi.2
        rw [update_of_ne h2, update_of_ne h1]
        rfl
  · have hview : (run Op.step unmarked overwrite).map (fun t => ((t.itable 1).ref, (t.itable 1).valid, (t.itable 1).locked,
        (t.itable 1).d.type, (dinode t (t.itable 1).inum).type)) = some (1, true, false, T_FILE, 0) := by decide +kernel
    obtain ⟨t, ht, hv⟩ := Option.map_eq_some_iff.mp hview
    simp only [Prod.mk.injEq] at hv
    obtain ⟨h1, h2, h3, h4, h5⟩ := hv
    refine ⟨t, 1, ht, by rw [rc, h1]; exact Nat.one_pos, h2, h3, fun he => ?_⟩
    rw [← he, h4] at h5
    exact absurd h5 (by decide)

end Minios.Fs
