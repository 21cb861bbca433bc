import Minios.Sysfile.Create
import Minios.Sysfile.Dirs

/-! `kernel/sysfile.c`: what a call that returns -1 leaves behind.

        link, unlink, mkdir, mknod    nothing
        open                          nothing, unless it made the file: what comes after `create` may still fail,
                                      and nothing takes the new file away again -/

namespace Minios.Sysfile
open Schemes Function Fs

variable {s t : K} {fs fs' : FS} {H P : IPtr → ℕ} {k ip cwd : IPtr} {f : FPtr} {p : PPtr} {omode : UInt32}

/-- What holds between system calls: everything is in order, and an inode without links is in use. -/
structure Sound (s : K) : Prop extends Good True s fun _ => 0 where
  held : NoOrphans (rc s.fs) s.fs

theorem boot_node (h : Ok True none fs) (hboot : boot fs = some s) : node s.fs = node fs := by
  have hrun : wp userinit (fun _ t => node t.fs = node fs) (fun _ => True) (K.zero fs) := by
    refine lift_bind ((namei_root h 0).weaken fun _ _ => trivial) fun r t ht => ?_
    obtain ⟨k, -, hgot⟩ := ht
    exact hgot.quiet.node
  obtain ⟨-, ht⟩ := hrun.after hboot
  exact ht

theorem boot_sound (h : Tidy fs) (hlinks : ∀ i, (node fs i).type ≠ 0 → (node fs i).nlink ≠ 0) (hboot : boot fs = some s) :
    Sound s where
  toGood := boot_kept h.ok h.empty (fun _ => by rw [h.root]; decide) hboot
  held i h1 h2 := by
    rw [boot_node h.ok hboot] at h1 h2
    exact absurd h2 (hlinks i h1)

/-! ### Names -/

theorem sysCreate_failed {type : ℕ} (h : Sound s) (p : PPtr) (path : Option Str) (htype : type ≠ 0)
    (hfits : type < 2 ^ 16) (major minor : ℕ) : wp (sysCreate p path type major minor)
      (fun r t => r = -1 → node t.fs = node s.fs) (fun _ => True) s := by
  rw [sysCreate]
  cases argstr path with
  | none => exact fun _ => rfl
  | some path =>
    refine wp_bind.mpr (wp_cwd trivial fun k hk => ?_)
    refine lift_bind (create_effect path major minor h.ok h.held (h.accounts.cwd_pos hk) htype hfits (h.used trivial))
      ?_
    rintro r t ⟨hgo, hrc, _, hdone⟩
    cases r with
    | none =>
      rcases hdone with ⟨-, hnode⟩ | ⟨_, hr, -⟩
      · exact fun _ => hnode
      · cases hr
    | some ip =>
      rcases hdone with ⟨hr, -⟩ | ⟨_, hr, hready, -⟩
      · cases hr
      · cases hr
        refine lift_bind ((iunlockput_go hgo.ok hrc hready).weaken fun _ _ => trivial) fun _ u _ => ?_
        exact fun h => absurd h (by decide)

/-- CORRECT (names): a call that fails leaves every inode, and with it every directory, as it was. -/
theorem failed_call_keeps_names (h : Sound s) (p : PPtr) :
    (∀ old new, wp (sys_link p old new) (fun r t => r = -1 → node t.fs = node s.fs) (fun _ => True) s) ∧
    (∀ path, wp (sys_unlink p path) (fun r t => r = -1 → node t.fs = node s.fs) (fun _ => True) s) ∧
    (∀ path, wp (sys_mkdir p path) (fun r t => r = -1 → node t.fs = node s.fs) (fun _ => True) s) ∧
    ∀ path major minor, wp (sys_mknod p path major minor) (fun r t => r = -1 → node t.fs = node s.fs)
      (fun _ => True) s := by
  refine ⟨fun old new => ?_, fun path => ?_, fun path => ?_, fun path major minor => ?_⟩
  · rw [sys_link]
    split
    · rename_i old new _ _
      refine wp_bind.mpr (wp_cwd trivial fun k hk => wp_lift.mpr ?_)
      refine ((link_effect old new h.ok h.held (h.accounts.cwd_pos hk)).weaken fun _ _ => trivial).mono
        ?_
      rintro r t ⟨_, _, _, hr⟩ hfail
      rcases hr with ⟨-, hnode, -⟩ | ⟨h0, -⟩
      · exact hnode
      · rw [h0] at hfail
        exact absurd hfail (by decide)
    · exact fun _ => rfl
  · rw [sys_unlink]
    cases argstr path with
    | none => exact fun _ => rfl
    | some path =>
      refine wp_bind.mpr (wp_cwd trivial fun k hk => wp_lift.mpr ?_)
      refine ((unlink_effect path h.ok h.held (h.accounts.cwd_pos hk)).weaken fun _ _ => trivial).mono
        ?_
      rintro r t ⟨_, _, _, _, hr⟩ hfail
      rcases hr with ⟨-, hnode⟩ | ⟨h0, -⟩
      · exact hnode
      · rw [h0] at hfail
        exact absurd hfail (by decide)
  · exact sysCreate_failed h p path (by decide) (by decide) 0 0
  · exact sysCreate_failed h p path (by decide) (by decide) major minor

theorem fresh_links (i : ℕ) (hi : (node (.fresh .std) i).type ≠ 0) : (node (.fresh .std) i).nlink ≠ 0 := by
  have hroot : i = ROOTINO := by
    by_contra hne
    rw [node, dinode_fresh _ Superblock.std_small, update_of_ne hne, nodeOf_type] at hi
    exact hi rfl
  subst hroot
  decide

theorem fresh_missing : ∃ s t u, boot (.fresh .std) = some s ∧ Sound s ∧ sys_unlink 0 (some pathA) s = .ok (-1, t) ∧
    sys_open 0 (some pathA) O_RDWR s = .ok (-1, u) := by
  have hview : (boot (.fresh .std)).any (fun s => match sys_unlink 0 (some pathA) s with
    | .ok (r, _) => match sys_open 0 (some pathA) O_RDWR s with
      | .ok (r', _) => decide (r = -1 ∧ r' = -1)
      | .error _ => false
    | .error _ => false) = true := by decide +kernel
  obtain ⟨s, hs, hr⟩ := (Option.any_eq_true ..).mp hview
  split at hr
  · rename_i r t ht
    split at hr
    · rename_i r' u hu
      obtain ⟨rfl, rfl⟩ := of_decide_eq_true hr
      exact ⟨s, t, u, hs, boot_sound tidy_fresh fresh_links hs, ht, hu⟩
    · cases hr
  · cases hr

/-- Nothing there to be removed. -/
theorem failed_call_keeps_names_missing : ∃ s t, boot (.fresh .std) = some s ∧ Sound s ∧
    sys_unlink 0 (some pathA) s = .ok (-1, t) ∧ node t.fs = node s.fs := by
  obtain ⟨s, t, -, hs, hsound, ht, -⟩ := fresh_missing
  exact ⟨s, t, hs, hsound, ht, ((failed_call_keeps_names hsound 0).2.1 _).ok ht rfl⟩

/-! ### `open` -/

/-- `open` makes a new file. -/
def Creates (fs : FS) (cwd : IPtr) (path : Str) (omode : UInt32) : Prop := omode &&& O_CREATE ≠ 0 ∧
  ∃ ip fs', create cwd path T_FILE 0 0 fs = .ok (some ip, fs') ∧ (node fs (fs'.itable ip).inum).type = 0

theorem Made.ne {N N' : ℕ → Node} {type d k i : ℕ} {name : Name} {nd : Node} (h : Made N N' type d k name i nd)
    (htype : type ≠ 0) : N' ≠ N := by
  rintro rfl
  rcases h.frees i with hi | ⟨-, h0⟩
  · rw [entered, update_self] at hi
    exact htype (by rw [← h.type, ← hi, h.free])
  · rw [entered, update_self, h.nlink] at h0
    exact Nat.one_ne_zero h0

/-- OPEN, up to the inode: the inodes change just if the file is made. -/
theorem openInode_effect (path : Str) (omode : UInt32) (h : Ok True none fs) (hheld : NoOrphans (rc fs) fs)
    (hcwd : 0 < rc fs cwd) (hused : ∀ k, 0 < rc fs k → (node fs (fs.itable k).inum).type ≠ 0) :
    wp (openInode cwd path omode) (fun r t => Go True none (rc fs) fs t ∧ rc t = more (rc fs) r ∧ NoOrphans (rc fs) t ∧
      (∀ ip, r = some ip → Ready t ip) ∧ (node t = node fs ↔ ¬ Creates fs cwd path omode)) (fun _ => True) fs := by
  rw [openInode]
  split
  · rename_i hflag
    refine (create_effect path 0 0 h hheld hcwd (by decide) (by decide) hused).ran.mono
      ?_
    rintro r t ⟨⟨hgo, hrc, hheldt, hdone⟩, hrun⟩
    refine ⟨hgo, hrc, hheldt, ?_⟩
    rcases hdone with ⟨rfl, hnode⟩ | ⟨ip, rfl, hready, ⟨hnode, -⟩ | ⟨d, k, nd, -, hmade⟩⟩
    · refine ⟨by rintro _ ⟨⟩, iff_of_true hnode ?_⟩
      rintro ⟨-, ip, u, hu, -⟩
      cases hrun.symm.trans hu
    · refine ⟨fun _ hip => by cases hip; exact hready, iff_of_true hnode ?_⟩
      rintro ⟨-, ip, u, hu, h0⟩
      cases hrun.symm.trans hu
      rw [← hnode, node_type] at h0
      exact hready.type hgo.ok.wf h0
    · refine ⟨fun _ hip => by cases hip; exact hready, iff_of_false (hmade.ne (by decide)) ?_⟩
      exact not_not.mpr ⟨hflag, ip, t, hrun, hmade.free⟩
  · rename_i hflag
    have hno : ¬ Creates fs cwd path omode := fun hc => hflag hc.1
    refine ((namei_resolve path h hheld hcwd).weaken fun _ _ => trivial).bind ?_
    rintro r t ⟨hv, hrc, _, _⟩
    cases r with
    | none => exact ⟨hv.go, hrc, hv.held hheld, by rintro _ ⟨⟩, iff_of_true hv.quiet.node hno⟩
    | some ip =>
      have hpos : 0 < rc t ip := by rw [hrc]; exact plus_pos _ ip
      refine ((ilock_go hv.go.ok hpos).weaken fun _ _ => trivial).bind fun _ u hu => ?_
      have hv' : Visit (rc fs) fs u := hv.trans (hu.visit hv.go.ok)
      have hru : rc u = plus (rc fs) ip := hu.ref.trans hrc
      rw [wp_bind, wp_inode]
      refine wp_ite.mpr ⟨fun _ => ?_, fun _ => ?_⟩
      · refine (drop_visit hv'.go.ok hru hu.ready (hv'.held hheld)).bind ?_
        rintro _ w ⟨hw, hrw⟩
        have hall := hv'.trans hw
        exact ⟨hall.go, hrw, hall.held hheld, by rintro _ ⟨⟩, iff_of_true hall.quiet.node hno⟩
      · exact ⟨hv'.go, hru, hv'.held hheld, fun _ hip => by cases hip; exact hu.ready, iff_of_true hv'.quiet.node hno⟩

/-- `open` of `path` by process `p` makes a new file. -/
def Opens (s : K) (p : PPtr) (path : Option Str) (omode : UInt32) : Prop :=
  ∃ x cwd, argstr path = some x ∧ (s.proc p).cwd = some cwd ∧ Creates s.fs cwd x omode

theorem fileclose_filealloc (href : (s.file f).ref = 0) (htype : (s.file f).type = .none) :
    wp (fileclose f) (fun _ t => t = s) (fun _ => True) (s.setFile f ((s.file f).setRef 1)) := by
  have hfile : (s.setFile f ((s.file f).setRef 1)).file f = (s.file f).setRef 1 := update_self ..
  have hback : ((s.file f).setRef 1).release = s.file f := by
    rw [File.release, File.setRef, ← href, ← htype]
  rw [fileclose, wp_bind, file, wp_bind, wp_get, wp_pure, hfile]
  refine wp_ite.mpr ⟨fun _ => trivial, fun _ => wp_ite.mpr ⟨fun hpos => absurd hpos (Nat.lt_irrefl 0), fun _ => ?_⟩⟩
  rw [hback, File.setRef, htype]
  show (s.setFile f _).setFile f (s.file f) = s
  rw [K.setFile, K.setFile, update_idem, update_eq_self]

/-- Pipes take all the descriptors of the first process. -/
def fillOfile : List Event := (List.range 8).map fun a => .call 0 (.pipe (some a) true)

end Minios.Sysfile
