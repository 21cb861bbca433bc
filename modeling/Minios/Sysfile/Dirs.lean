import Minios.Sysfile.Reads

/-! `kernel/fs.c`, `kernel/sysfile.c`: the shape of directories, over whole runs.

        entry   0        1         2 …
                . self   .. up     names, all different, or empty

    From an image whose directories have that shape every system call keeps it, so the functions that read and
    write entries always find whole ones. -/

namespace Minios.Sysfile
open Schemes Function Fs

/-- A well-formed image: books of blocks in order, a root directory, and every directory of that shape. -/
structure Tidy (s : FS) : Prop extends Image s where
  root : (node s ROOTINO).type = T_DIR
  dirs : ∀ i, (node s i).type = T_DIR → DirOk True s.sb.ninodes (node s i)
  dots : ∀ i, (node s i).type = T_DIR → Dots i (node s i)

theorem Tidy.ok {s : FS} (h : Tidy s) : Ok True none s :=
  ⟨h.toImage.wf, h.dirs, fun _ i hi _ => h.dots i hi, fun _ k hk => absurd (h.empty k) hk.ne'⟩

/-- In a directory of that shape, empty entries from the third on are all there is but `.` and `..`. -/
theorem empty_iff {i n : ℕ} {nd : Node} (hd : DirOk True n nd) (hdots : Dots i nd) :
    (∀ j, 2 ≤ j → nd.Has j → (nd.dirent j).inum = 0) ↔
      ∀ j, nd.Has j → (nd.dirent j).inum ≠ 0 → (nd.dirent j).Named .dot ∨ (nd.dirent j).Named .dotdot := by
  refine ⟨fun h j hj h0 => ?_, fun h j hj2 hj => ?_⟩
  · rcases Nat.lt_or_ge j 2 with hlt | hge
    · interval_cases j
      · exact .inl hdots.dot
      · exact .inr hdots.dotdot
    · exact absurd (h j hge hj) h0
  · by_contra h0
    rcases h j hj h0 with hn | hn
    · have := hd.distinct trivial j 0 hj hdots.has_zero h0 hdots.dot.1 (hn.2.trans hdots.dot.2.symm)
      omega
    · have := hd.distinct trivial j 1 hj hdots.has h0 hdots.dotdot.1 (hn.2.trans hdots.dotdot.2.symm)
      omega

/-- CORRECT (shape of directories): between system calls every directory is made of whole entries, the first two `.` for
    itself and `..`, with different names; no file that is writable is a directory, and writing to a file changes none.
    No system call panics over an entry that it cannot read or write whole, and `isdirempty` says whether there is
    any entry but `.` and `..`. -/
theorem directories_keep_shape {image : FS} (himage : Tidy image) {s t : K} {es : List Event}
    (hboot : boot image = some s) (hrun : run step s es = some t) :
    (∀ i, (node t.fs i).type = T_DIR →
      (node t.fs i).size % DESIZE = 0 ∧
      2 * DESIZE ≤ (node t.fs i).size ∧
      ((node t.fs i).dirent 0).inum = i ∧ namecmp .dot ((node t.fs i).dirent 0).name = 0 ∧
      ((node t.fs i).dirent 1).inum ≠ 0 ∧ namecmp .dotdot ((node t.fs i).dirent 1).name = 0 ∧
      ∀ j k, (node t.fs i).Has j → (node t.fs i).Has k →
        ((node t.fs i).dirent j).inum ≠ 0 → ((node t.fs i).dirent k).inum ≠ 0 →
        strncmp (getByte ((node t.fs i).dirent j).name) (getByte ((node t.fs i).dirent k).name) DIRSIZ = 0 → j = k) ∧
    (∀ f, 0 < (t.file f).ref → ((t.file f).type = .inode ∨ (t.file f).type = .device) → (t.file f).writable = true →
      (node t.fs (t.fs.itable (t.file f).ip).inum).type ≠ T_DIR) ∧
    (∀ p fd src n r v u, sys_write p fd src n r t = .ok (v, u) → ∀ i, (node t.fs i).type = T_DIR →
      node u.fs i = node t.fs i) ∧
    (∀ p c e, Calls t p c → c.run p t = .error e →
      e ≠ .dirlookupRead ∧ e ≠ .dirlinkRead ∧ e ≠ .isdiremptyReadi ∧ e ≠ .unlinkWritei) ∧
    ∀ k, 0 < (t.fs.itable k).ref → (t.fs.itable k).valid = true →
      (node t.fs (t.fs.itable k).inum).type = T_DIR → ∃ r, isdirempty k t.fs = .ok (r, t.fs) ∧
        (r = true ↔ ∀ j, (node t.fs (t.fs.itable k).inum).Has j → ((node t.fs (t.fs.itable k).inum).dirent j).inum ≠ 0 →
          namecmp .dot ((node t.fs (t.fs.itable k).inum).dirent j).name = 0 ∨
          namecmp .dotdot ((node t.fs (t.fs.itable k).inum).dirent j).name = 0) := by
  have hroot : True → (node image ROOTINO).type ≠ 0 := fun _ => by rw [himage.root]; decide
  have hgood : Good True t fun _ => 0 :=
    run_inv (fun _ _ _ => step_kept) (boot_kept himage.ok himage.empty hroot hboot) hrun
  have hdots : ∀ i, (node t.fs i).type = T_DIR → Dots i (node t.fs i) := fun i hi =>
    hgood.ok.dots trivial i hi nofun
  refine ⟨fun i hi => ?_, fun f hpos htype hw => ?_, fun p fd src n r v u hu i hi => ?_, fun p c e hc herr => ?_,
    fun k hk hv hdir => ?_⟩
  · have hd := hgood.ok.dirs i hi
    have hs := hdots i hi
    refine ⟨hd.whole trivial, ?_, hs.self, (named_iff ..).mp hs.dot |>.2, hs.dotdot.1, (named_iff ..).mp hs.dotdot |>.2,
      fun j k hj hk hj0 hk0 hcmp => ?_⟩
    · have := hs.has
      rw [Node.Has] at this
      omega
    · exact hd.distinct trivial j k hj hk hj0 hk0 ((strncmp_eq_zero ..).mp hcmp)
  · exact (hgood.files f _ ⟨hpos, htype, rfl⟩).2 hw
  · exact ((sys_write_kept hgood p fd src n r).ok hu).2 i hi
  · exact ((run_kept hgood hc).error herr).2 trivial
  · have hd := hgood.ok.dirs _ hdir
    have hempty : wp _ _ (fun _ => False) _ := (isdirempty_spec hgood.ok.wf ⟨hk, hv⟩).weaken
      fun e he => he.2 (hd.whole trivial)
    obtain ⟨r, u, hu, rfl, hr⟩ := hempty.returns
    refine ⟨r, hu, hr.trans ((empty_iff hd (hdots _ hdir)).trans ?_)⟩
    refine forall_congr' fun j => forall_congr' fun _ => forall_congr' fun h0 => ?_
    rw [named_iff, named_iff, and_iff_right h0, and_iff_right h0]

/-! ### The image of `mkfs` -/

theorem fresh_dots : Dots ROOTINO (node (.fresh .std) ROOTINO) := by
  have hkeys : ((node (.fresh .std) ROOTINO).dirent 0).key = Name.dot.bytes ∧
      ((node (.fresh .std) ROOTINO).dirent 1).key = Name.dotdot.bytes := by decide +kernel
  have h0 := fresh_dirent 0 (by decide)
  have h1 := fresh_dirent 1 (by decide)
  refine ⟨?_, h0, ⟨by rw [h0]; decide, hkeys.1⟩, ⟨by rw [h1]; decide, hkeys.2⟩⟩
  rw [Node.Has, fresh_size]
  decide

theorem fresh_dirOk : DirOk True Superblock.std.ninodes (node (.fresh .std) ROOTINO) := by
  -- only the first two entries are in use
  have hused : ∀ {k}, (node (.fresh .std) ROOTINO).Has k → ((node (.fresh .std) ROOTINO).dirent k).inum ≠ 0 → k < 2 := by
    intro k hk h0
    rw [fresh_dirent k (fresh_has hk)] at h0
    by_contra hge
    exact h0 (if_neg hge)
  refine ⟨entered_fresh ROOTINO (by decide), fun _ => (by rw [fresh_size]; decide), fun _ j k hj hk hj0 hk0 hkey => ?_⟩
  have hj2 := hused hj hj0
  have hk2 := hused hk hk0
  have hdots := fresh_dots
  have hne : ((node (.fresh .std) ROOTINO).dirent 0).key ≠ ((node (.fresh .std) ROOTINO).dirent 1).key := by
    rw [hdots.dot.2, hdots.dotdot.2]
    decide
  interval_cases j <;> interval_cases k
  · rfl
  · exact absurd hkey hne
  · exact absurd hkey.symm hne
  · rfl

theorem tidy_fresh : Tidy (.fresh .std) where
  toImage := fresh_image _ Superblock.std_small
  root := by decide
  dirs i hi := by
    obtain rfl := fresh_dir hi
    exact fresh_dirOk
  dots i hi := by
    obtain rfl := fresh_dir hi
    exact fresh_dots

/-- A directory is made. -/
def makeA : List Event := [.call 0 (.mkdir (some pathA))]

theorem directories_keep_shape_makeA : ∃ s t, boot (.fresh .std) = some s ∧ run step s makeA = some t ∧
    (node t.fs 2).type = T_DIR ∧ 2 * DESIZE ≤ (node t.fs 2).size ∧ ((node t.fs 2).dirent 0).inum = 2 ∧
    ∀ p c e, Calls t p c → c.run p t = .error e → e ≠ .dirlookupRead := by
  have hview : ((boot (.fresh .std)).bind fun s => run step s makeA).any
      (fun t => decide ((node t.fs 2).type = T_DIR)) = true := by decide +kernel
  obtain ⟨s, t, ⟨hs, ht⟩, hout⟩ := Reaches.of_any hview
  have hdir := of_decide_eq_true hout
  have h := directories_keep_shape tidy_fresh hs ht
  exact ⟨s, t, hs, ht, hdir, (h.1 2 hdir).2.1, (h.1 2 hdir).2.2.1, fun p c e hc he => (h.2.2.2.1 p c e hc he).1⟩

end Minios.Sysfile
