import Minios.Fs.Safe
import Minios.Sysfile.Counts

/-! `kernel/sysfile.c`: what every system call keeps.

    Between system calls disk, inode table and directories are in order (`Fs.Ok`), every reference is held by an
    open file or a current directory (`Accounts`), and what a file may be written through is no directory. -/

namespace Minios.Sysfile
open Schemes Function Fs

variable {s t u : FS} {H : IPtr → ℕ} {k : ℕ} {p dp ip cwd : IPtr} {strict : Prop} {x : Option ℕ}

/-! ### The parts of the calls that run in the file system -/

theorem fit_unlinkNlink : Fit strict .unlinkNlink :=
  fit_of_fine (by decide) (by decide) (by decide) (by decide) (by decide)

theorem linkUndo_go (h : Ok strict none s) (href : rc s = plus H ip) :
    wp (linkUndo ip) (fun _ t => Go strict none H s t ∧ rc t = H) (Fit strict) s := by
  refine (ilock_go h (by rw [href]; exact plus_pos H ip)).bind fun _ t ht => ?_
  have hgo : Go strict none H s t := ht.go h
  refine setFields_go tame_unlink hgo.ok ht.ready fun u hu => ?_
  have hgo' : Go strict none H t u := fields_go hgo.ok hu
  have hrc : rc u = plus H ip := hu.ref.trans (ht.ref.trans href)
  refine (drop_go hgo'.ok hrc (hu.ready ht.ready)).bind fun _ v hv => ?_
  exact ⟨(hgo.trans hgo').trans hv.1, hv.2⟩

theorem link_go (old new : Str) (h : Ok strict none s) (hcwd : 0 < rc s cwd) :
    wp (link cwd old new) (fun _ t => Go strict none (rc s) s t ∧ rc t = rc s) (Fit strict) s := by
  refine (namei_go old h hcwd).bind fun r t ht => ?_
  cases r with
  | none => exact ht
  | some ip =>
    have href : rc t = plus (rc s) ip := ht.2
    refine (ilock_go ht.1.ok (by rw [href]; exact plus_pos (rc s) ip)).bind fun _ t₁ h₁ => ?_
    have g₁ := ht.1.trans (h₁.go ht.1.ok)
    have r₁ : rc t₁ = plus (rc s) ip := h₁.ref.trans href
    rw [wp_bind, wp_inode]
    split
    · exact (drop_go g₁.ok r₁ h₁.ready).bind fun _ u hu => ⟨g₁.trans hu.1, hu.2⟩
    refine setFields_go tame_link g₁.ok h₁.ready fun t₂ h₂ => ?_
    have g₂ := g₁.trans (fields_go g₁.ok h₂)
    refine (iunlock_go g₂.ok (h₂.ready h₁.ready)).bind fun _ t₃ h₃ => ?_
    have g₃ := g₂.trans (h₃.go g₂.ok)
    have r₃ : rc t₃ = plus (rc s) ip := h₃.ref.trans (h₂.ref.trans r₁)
    have hle : ∀ k, 0 < rc s k → 0 < rc t₃ k := fun k hk => by rw [r₃]; exact le_plus (rc s) ip hk
    refine (namex_go new true g₃.ok (hle cwd hcwd)).bind fun r t₄ h₄ => ?_
    obtain ⟨g₄, r₄, hparent⟩ := h₄
    rw [r₃] at r₄
    cases r with
    | none => exact (linkUndo_go g₄.ok r₄).mono fun _ u hu => ⟨(g₃.trans (g₄.mono hle)).trans hu.1, hu.2⟩
    | some r =>
      obtain ⟨dp, name⟩ := r
      have r₄ : rc t₄ = plus (plus (rc s) ip) dp := r₄
      obtain ⟨hdp, hdir⟩ := hparent rfl dp name rfl
      refine (ilock_go g₄.ok hdp.ref).bind fun _ t₅ h₅ => ?_
      have g₅ := (g₃.trans (g₄.mono hle)).trans (h₅.go g₄.ok)
      have hdir₅ : (node t₅ (t₅.itable dp).inum).type = T_DIR := by rw [h₅.inum, h₅.quiet.node, hdir]
      -- the number is still that of an inode that exists
      have hinum : (t₁.itable ip).inum < t₅.sb.ninodes := by
        have : 0 < rc t₁ ip := by rw [r₁]; exact plus_pos (rc s) ip
        rw [g₅.sb, ← g₁.sb]
        exact g₁.ok.wf.inum_lt ip this
      refine (dirlink_keeps g₅.ok h₅.ready hdir₅ hinum).bind fun r t₆ h₆ => ?_
      have r₆ : rc t₆ = plus (plus (rc s) ip) dp := h₆.2.trans (h₅.ref.trans r₄)
      have hdp₆ : Ready t₆ dp := h₆.1.ready h₅.ready h₅.ready.ref (by rw [r₆]; exact plus_pos _ dp)
      have hle₅ : ∀ k, 0 < rc s k → 0 < rc t₅ k := fun k hk => by
        rw [h₅.ref, r₄]; exact le_plus _ dp (le_plus _ ip hk)
      refine (drop_go h₆.1.ok r₆ hdp₆).bind fun _ t₇ h₇ => ?_
      have g₇ := (g₅.trans (h₆.1.mono hle₅)).trans (h₇.1.mono fun k => le_plus (rc s) ip)
      split
      · exact (linkUndo_go h₇.1.ok h₇.2).mono fun _ u hu => ⟨g₇.trans hu.1, hu.2⟩
      · refine (iput_go h₇.1.ok h₇.2).bind fun _ u hu => ?_
        exact ⟨g₇.trans (hu.plain h₇.2 h₇.1.ok), hu.ref⟩

theorem dirfull_go (h : Ok strict x s) (hp : Ready s ip) : wp (dirfull ip) (fun _ t => t = s) (Fit strict) s := by
  rw [dirfull, wp_bind, wp_inode, hp.node_type h.wf]
  refine wp_ite.mpr ⟨fun hdir => ?_, fun _ => rfl⟩
  exact (isdirempty_go h hp hdir).bind fun _ t ht => ht.1

/-- An entry that is neither of the first two is cleared. -/
theorem cleared_go (h : Ok strict none s) (hdir : (node s (s.itable dp).inum).type = T_DIR)
    (hhas : (node s (s.itable dp).inum).Has k) (hk : strict → k ≠ 0 ∧ k ≠ 1)
    (hdid : Did dp s ((node s (s.itable dp).inum).setDirent k .zero) t) : Go strict none H s t := by
  have hninodes : 0 < s.sb.ninodes := Nat.zero_lt_of_lt s.sb.root
  refine hdid.go h rfl (fun _ => ?_) (fun hs _ _ => ?_) fun _ _ => id
  · refine (h.dirs _ hdir).setDirent s.sb.ninodes_le ?_ hninodes fun _ h0 => absurd rfl h0
    exact Nat.le_of_add_right_le hhas
  · exact (h.dots hs _ hdir (by simp)).setDirent (hk hs).1 (hk hs).2 _

theorem unlinkEntry_go (h : Ok strict none s) (href : rc s = plus (plus H dp) ip) (hdp : Ready s dp) (hip : Ready s ip)
    (hdir : (node s (s.itable dp).inum).type = T_DIR) (hhas : (node s (s.itable dp).inum).Has k)
    (hk : strict → k ≠ 0 ∧ k ≠ 1) :
    wp (unlinkEntry dp ip (DESIZE * k)) (fun _ t => Go strict none H s t ∧ rc t = H) (Fit strict) s := by
  have hdp0 : 0 < plus H dp dp := plus_pos H dp
  have hip0 : 0 < plus H ip ip := plus_pos H ip
  have hle : ∀ (j : IPtr) k, 0 < H k → 0 < plus H j k := fun j k => le_plus H j
  rw [unlinkEntry, wp_bind, wp_inode]
  refine wp_ite.mpr ⟨fun _ => fit_unlinkNlink, fun _ => ?_⟩
  refine (dirfull_go h hip).bind fun full t ht => ?_
  subst t
  split
  · refine (drop_go h href hip).bind fun _ t ht => ?_
    have hdp : Ready t dp := ht.1.ready hdp hdp0 (by rw [ht.2]; exact hdp0)
    exact (drop_go ht.1.ok ht.2 hdp).bind fun _ u hu => ⟨(ht.1.mono (hle dp)).trans hu.1, hu.2⟩
  have hend : ∀ t, Go strict none (plus (plus H dp) ip) s t → rc t = rc s → wp (do
      iunlockput dp; setD ip .unlink; iupdate ip; iunlockput ip; return 0 : M ℤ)
      (fun _ t => Go strict none H s t ∧ rc t = H) (Fit strict) t := by
    intro t hgo hrc
    rw [href, plus_comm] at hrc
    rw [plus_comm] at hgo
    have hdp : Ready t dp := hgo.ready hdp (plus_pos _ dp) (by rw [hrc]; exact plus_pos _ dp)
    have hip : Ready t ip := hgo.ready hip (le_plus _ dp hip0) (by rw [hrc]; exact le_plus _ dp hip0)
    refine (drop_go hgo.ok hrc hdp).bind fun _ t₁ h₁ => ?_
    have hip₁ : Ready t₁ ip := h₁.1.ready hip hip0 (by rw [h₁.2]; exact hip0)
    refine setFields_go tame_unlink h₁.1.ok hip₁ fun t₂ h₂ => ?_
    have g₂ : Go strict none H t₁ t₂ := fields_go h₁.1.ok h₂
    refine (drop_go g₂.ok (h₂.ref.trans h₁.2) (h₂.ready hip₁)).bind fun _ t₃ h₃ => ?_
    have g₁ := (hgo.mono fun k hk => le_plus _ dp (hle ip k hk)).trans (h₁.1.mono (hle ip))
    exact ⟨(g₁.trans g₂).trans h₃.1, h₃.2⟩
  refine (writeDirent_spec h.wf hdp (Nat.le_of_add_right_le hhas)).total.bind fun r t ht => ?_
  rcases ht with ⟨rfl, hdid⟩ | ⟨-, hno, -⟩
  · have hgo : Go strict none (plus (plus H dp) ip) s t := cleared_go h hdir hhas hk hdid
    refine wp_ite.mpr ⟨fun hr => absurd rfl hr, fun _ => wp_ite.mpr ⟨fun _ => ?_, fun _ => hend t hgo hdid.ref⟩⟩
    refine setFields_go tame_unlink hgo.ok (hdid.ready hdp) fun u hu => ?_
    exact hend u (hgo.trans (fields_go hgo.ok hu)) (hu.ref.trans hdid.ref)
  · exact absurd hhas hno

theorem unlink_go (path : Str) (h : Ok strict none s) (hcwd : 0 < rc s cwd) :
    wp (unlink cwd path) (fun _ t => Go strict none (rc s) s t ∧ rc t = rc s) (Fit strict) s := by
  refine (namex_go path true h hcwd).bind fun r t ht => ?_
  obtain ⟨hgo, href, hparent⟩ := ht
  cases r with
  | none => exact ⟨hgo, href⟩
  | some r =>
    obtain ⟨dp, name⟩ := r
    have href : rc t = plus (rc s) dp := href
    obtain ⟨hdp, hdir⟩ := hparent rfl dp name rfl
    refine (ilock_go hgo.ok hdp.ref).bind fun _ t₁ h₁ => ?_
    have g₁ := hgo.trans (h₁.go hgo.ok)
    have r₁ : rc t₁ = plus (rc s) dp := h₁.ref.trans href
    have hdir₁ : (node t₁ (t₁.itable dp).inum).type = T_DIR := by rw [h₁.inum, h₁.quiet.node, hdir]
    split
    · exact (drop_go g₁.ok r₁ h₁.ready).bind fun _ u hu => ⟨g₁.trans hu.1, hu.2⟩
    rename_i hname
    refine (dirlookup_go g₁.ok h₁.ready hdir₁).bind fun r t₂ h₂ => ?_
    obtain ⟨g₂, r₂⟩ := h₂.go g₁.ok
    rw [r₁] at g₂ r₂
    have hle : ∀ k, 0 < rc s k → 0 < plus (rc s) dp k := fun k => le_plus (rc s) dp
    cases r with
    | none =>
      have r₂ : rc t₂ = plus (rc s) dp := r₂
      have hdp₂ : Ready t₂ dp := g₂.ready h₁.ready (plus_pos _ dp) (by rw [r₂]; exact plus_pos _ dp)
      exact (drop_go g₂.ok r₂ hdp₂).bind fun _ u hu => ⟨(g₁.trans (g₂.mono hle)).trans hu.1, hu.2⟩
    | some r =>
      obtain ⟨ip, off⟩ := r
      have r₂ : rc t₂ = plus (plus (rc s) dp) ip := r₂
      obtain ⟨k, rfl, hhas, hnamed, hgot⟩ := h₂.present ip off rfl
      have hip : 0 < rc t₂ ip := by rw [r₂]; exact plus_pos _ ip
      refine (ilock_go g₂.ok hip).bind fun _ t₃ h₃ => ?_
      have g₃ := g₂.trans (h₃.go g₂.ok)
      have r₃ : rc t₃ = plus (plus (rc s) dp) ip := h₃.ref.trans r₂
      have hdp₃ : Ready t₃ dp := g₃.ready h₁.ready (plus_pos _ dp) (by rw [r₃]; exact le_plus _ ip (plus_pos _ dp))
      -- the directory has not changed since the entry was found
      have hsame : node t₃ (t₃.itable dp).inum = node t₁ (t₁.itable dp).inum := by
        rw [(g₃.held dp (plus_pos _ dp)).inum, h₃.quiet.node, hgot.quiet.node]
      have hk : strict → k ≠ 0 ∧ k ≠ 1 := by
        intro hs
        have hdots := g₁.ok.dots hs _ hdir₁ (by simp)
        refine ⟨?_, ?_⟩
        · rintro rfl
          exact hname (.inl (Name.ext_bytes (hnamed.2.symm.trans hdots.dot.2)))
        · rintro rfl
          exact hname (.inr (Name.ext_bytes (hnamed.2.symm.trans hdots.dotdot.2)))
      refine (unlinkEntry_go g₃.ok r₃ hdp₃ h₃.ready ?_ ?_ hk).mono fun _ u hu => ?_
      · rw [hsame, hdir₁]
      · rw [hsame]; exact hhas
      · exact ⟨(g₁.trans (g₃.mono hle)).trans hu.1, hu.2⟩

/-! ### `create` -/

/-- A directory that lacked its first entries is gone once the new inode is. -/
theorem createFail_go (h : Ok strict x s) (href : rc s = plus (plus H dp) ip) (hdp : Ready s dp) (hip : Ready s ip)
    (hx : strict → ∀ i, x = some i → i = (s.itable ip).inum ∧ plus H dp ip = 0) :
    wp (createFail dp ip) (fun r t => Go strict none H s t ∧ rc t = more H r ∧ r = none) (Fit strict) s := by
  have hdp0 : 0 < plus H dp dp := plus_pos H dp
  refine setFields_go tame_clear h hip fun t ht => ?_
  have hgo : Go strict x (plus H dp) s t := fields_go h ht
  have hrc : rc t = plus (plus H dp) ip := ht.ref.trans href
  refine (iunlockput_go hgo.ok hrc (ht.ready hip)).bind fun _ u hu => ?_
  have hput : Go strict none (plus H dp) t u := by
    refine hu.go hrc hgo.ok fun hs i hi => .inr ?_
    obtain ⟨rfl, h0⟩ := hx hs i hi
    have hnlink : (node t (t.itable ip).inum).nlink = 0 := by rw [ht.inum, ht.node, update_self]; rfl
    rw [hu.node, if_pos ⟨h0, (ht.ready hip).valid, hnlink⟩, ht.inum, update_self]
    rfl
  have hdp' : Ready u dp := (hgo.trans hput).ready hdp hdp0 (by rw [hu.ref]; exact hdp0)
  refine (drop_go hput.ok hu.ref hdp').bind fun _ v hv => ?_
  exact ⟨((hgo.trans hput).mono fun k => le_plus H dp).trans hv.1, hv.2, rfl⟩

theorem createDots_go {type : ℕ} (h : Ok strict (if type = T_DIR then some (s.itable ip).inum else none) s)
    (hdp : 0 < rc s dp) (hip : Ready s ip) (htype : (node s (s.itable ip).inum).type = type)
    (hsize : (node s (s.itable ip).inum).size = 0) :
    wp (createDots dp ip type) (fun r t => rc t = rc s ∧
      (r < 0 ∧ Go strict (if type = T_DIR then some (s.itable ip).inum else none) (rc s) s t ∨
        ¬ r < 0 ∧ Go strict none (rc s) s t)) (Fit strict) s := by
  rw [createDots]
  refine wp_ite.mpr ⟨fun hdir => ?_, fun hdir => ?_⟩
  · rw [if_pos hdir] at h ⊢
    rw [hdir] at htype
    have hi := h.wf.inum_lt ip hip.ref
    have hj := h.wf.inum_lt dp hdp
    have hle := s.sb.ninodes_le
    rw [wp_bind, wp_inode, wp_bind, wp_inode]
    refine (dirlink_go h hip htype).bind fun r t ht => ?_
    rcases ht with ⟨rfl, hl⟩ | ⟨rfl, hs⟩
    · have hgo : Go strict (some (s.itable ip).inum) (rc s) s t := hl.go h htype hi
      obtain ⟨k, hk, -, -, hdid⟩ := hl.did
      obtain rfl : k = 0 := by rw [hsize] at hk; simp only [DESIZE] at hk; omega
      have hnode : node t (t.itable ip).inum = (node s (s.itable ip).inum).setDirent 0 (.of .dot (s.itable ip).inum) := by
        rw [hdid.inum, hdid.node, update_self]
      have htype' : (node t (t.itable ip).inum).type = T_DIR := by rw [hnode]; exact htype
      refine wp_ite.mpr ⟨fun hr => absurd hr (by decide), fun _ => ?_⟩
      refine (dirlink_go hgo.ok (hdid.ready hip) htype').mono fun r u hu => ?_
      rcases hu with ⟨rfl, hl'⟩ | ⟨rfl, hs⟩
      · have hgo' : Go strict (some (s.itable ip).inum) (rc s) t u := hl'.go hgo.ok htype' (by rw [hgo.sb]; exact hj)
        obtain ⟨k, hk, -, hempty, hdid'⟩ := hl'.did
        rw [hnode] at hk hempty hdid'
        refine ⟨hdid'.ref.trans hdid.ref, .inr ⟨by decide, (hgo.trans hgo').finish fun hs i hi' => ?_⟩⟩
        cases hi'
        have hi0 := h.named hs ip hip.ref
        -- entry 0 is in use, so the next one is entry 1
        have hk1 : k = 1 := by
          rw [setDirent_size, hsize] at hk
          have hk0 : k ≠ 0 := by
            rintro rfl
            have hlt : (s.itable ip).inum < 2 ^ 16 := by omega
            rw [dirent_setDirent_self _ 0 hlt] at hempty
            exact hi0 (hempty (by rw [Node.Has, setDirent_size]; omega))
          simp only [DESIZE] at hk
          omega
        subst hk1
        have hnode' : node u (s.itable ip).inum = ((node s (s.itable ip).inum).setDirent 0
            (.of .dot (s.itable ip).inum)).setDirent 1 (.of .dotdot (s.itable dp).inum) := by
          rw [hdid'.node, hdid.inum, update_self]
        rw [hnode']
        exact dots_of_links (by omega) (by omega) hi0 (h.named hs dp hdp)
      · exact ⟨hs.ref.trans hdid.ref, .inl ⟨by decide, hgo.trans (hs.go hgo.ok _ fun k hk => by rwa [hdid.ref])⟩⟩
    · exact ⟨hs.ref, .inl ⟨by decide, hs.go h _ fun _ => id⟩⟩
  · rw [if_neg hdir] at h ⊢
    exact ⟨rfl, .inr ⟨by decide, .refl h⟩⟩

theorem createNew_go {type : ℕ} (name : Name) (major minor : ℕ)
    (h : Ok strict (if type = T_DIR then some (s.itable ip).inum else none) s) (href : rc s = plus (plus H dp) ip)
    (hdp : Ready s dp) (hdir : (node s (s.itable dp).inum).type = T_DIR)
    (hnode : node s (s.itable ip).inum = .fresh type) (hfresh : strict → plus H dp ip = 0) :
    wp (createNew dp name ip type major minor) (fun r t => Go strict none H s t ∧ rc t = more H r ∧
      ∀ k, r = some k → Ready t k ∧ (node t (t.itable k).inum).type = type) (Fit strict) s := by
  have hip0 : 0 < rc s ip := by rw [href]; exact plus_pos _ ip
  have hleH : ∀ k, 0 < H k → 0 < rc s k := fun k hk => by rw [href]; exact le_plus _ ip (le_plus H dp hk)
  refine (ilock_go h hip0).bind fun _ t₁ h₁ => ?_
  have g₁ : Go strict _ (rc s) s t₁ := h₁.go h
  refine setFields_go (tame_create major minor) g₁.ok h₁.ready fun t₂ h₂ => ?_
  have g₂ : Go strict _ (rc s) s t₂ := g₁.trans (fields_go g₁.ok h₂)
  have r₂ : rc t₂ = rc s := h₂.ref.trans h₁.ref
  have hip₂ : Ready t₂ ip := h₂.ready h₁.ready
  have hinum₂ : (t₂.itable ip).inum = (s.itable ip).inum := (g₂.held ip hip0).inum
  have hnode₂ : (node t₂ (t₂.itable ip).inum).type = type ∧ (node t₂ (t₂.itable ip).inum).size = 0 := by
    rw [h₂.inum, h₂.node, update_self]
    simp only [h₁.inum, h₁.quiet.node, hnode]
    exact ⟨rfl, rfl⟩
  -- what fails from here on frees the new inode again
  have hfail : ∀ {x t}, Go strict x (rc s) t₂ t → rc t = rc s → (x = none ∨ x = some (s.itable ip).inum) →
      wp (createFail dp ip) (fun r t => Go strict none H s t ∧ rc t = more H r ∧
        ∀ k, r = some k → Ready t k ∧ (node t (t.itable k).inum).type = type) (Fit strict) t := by
    intro x t hgo hrc hx
    have hst := hgo.held ip hip0
    have hgo' := g₂.trans hgo
    refine (createFail_go hgo.ok (hrc.trans href) (hgo'.ready hdp hdp.ref (by rw [hrc]; exact hdp.ref))
      (hgo.ready hip₂ hip0 (by rw [hrc]; exact hip0)) fun hs i hi => ⟨?_, hfresh hs⟩).mono fun r u hu => ?_
    · rw [hst.inum, hinum₂]
      rcases hx with rfl | rfl
      · cases hi
      · exact (Option.some.inj hi).symm
    · obtain ⟨hu, hrc', rfl⟩ := hu
      exact ⟨(hgo'.mono hleH).trans hu, hrc', by rintro _ ⟨⟩⟩
  rw [← hinum₂] at g₂
  have hpos : 0 < rc t₂ dp := by rw [r₂]; exact hdp.ref
  refine (createDots_go g₂.ok hpos hip₂ hnode₂.1 hnode₂.2).bind fun r t₃ h₃ => ?_
  obtain ⟨r₃, h₃⟩ := h₃
  rw [r₂] at r₃ h₃
  rcases h₃ with ⟨hr, g₃⟩ | ⟨hr, g₃⟩
  · refine wp_ite.mpr ⟨fun _ => hfail g₃ r₃ ?_, fun hn => absurd hr hn⟩
    rw [hinum₂]
    split
    · exact .inr rfl
    · exact .inl rfl
  · refine wp_ite.mpr ⟨fun hn => absurd hn hr, fun _ => ?_⟩
    have hip₃ : Ready t₃ ip := g₃.ready hip₂ hip0 (by rw [r₃]; exact hip0)
    have hdp₃ : Ready t₃ dp := (g₂.trans g₃).ready hdp hdp.ref (by rw [r₃]; exact hdp.ref)
    have hdir₃ : (node t₃ (t₃.itable dp).inum).type = T_DIR := by
      rw [(g₂.trans g₃).type_eq hdp h.wf hdp.ref, hdir]
    rw [wp_bind, wp_inode]
    refine (dirlink_keeps g₃.ok hdp₃ hdir₃ (g₃.ok.wf.inum_lt ip hip₃.ref)).bind fun r t₄ h₄ => ?_
    have g₄ : Go strict none (rc s) t₂ t₄ := g₃.trans (r₃ ▸ h₄.1)
    have r₄ : rc t₄ = rc s := h₄.2.trans r₃
    refine wp_ite.mpr ⟨fun _ => hfail g₄ r₄ (.inl rfl), fun _ => ?_⟩
    have hend : ∀ t, Go strict none (rc s) t₂ t → rc t = rc s → wp (do iunlockput dp; return some ip : M (Option IPtr))
        (fun r t => Go strict none H s t ∧ rc t = more H r ∧
          ∀ k, r = some k → Ready t k ∧ (node t (t.itable k).inum).type = type) (Fit strict) t := by
      intro t hgo hrc
      have hrc' : rc t = plus (plus H ip) dp := by rw [hrc, href, plus_comm]
      have hip : Ready t ip := hgo.ready hip₂ hip0 (by rw [hrc]; exact hip0)
      have hdp : Ready t dp := (g₂.trans hgo).ready hdp hdp.ref (by rw [hrc]; exact hdp.ref)
      refine (drop_go hgo.ok hrc' hdp).bind fun _ u hu => ?_
      refine ⟨((g₂.trans hgo).mono hleH).trans (hu.1.mono fun k => le_plus H ip), hu.2, fun k hk => ?_⟩
      cases hk
      refine ⟨hu.1.ready hip (plus_pos H ip) (by rw [hu.2]; exact plus_pos H ip), ?_⟩
      rw [hu.1.type_eq hip hgo.ok.wf (plus_pos H ip), hgo.type_eq hip₂ g₂.ok.wf hip0, hnode₂.1]
    refine wp_ite.mpr ⟨fun _ => ?_, fun _ => hend t₄ g₄ r₄⟩
    refine setFields_go tame_link g₄.ok ((g₂.trans g₄).ready hdp hdp.ref (by rw [r₄]; exact hdp.ref)) fun u hu => ?_
    exact hend u (g₄.trans (fields_go g₄.ok hu)) (hu.ref.trans r₄)

theorem createOld_go (type : ℕ) (h : Ok strict none s) (href : rc s = plus (plus H dp) ip) (hdp : Ready s dp) :
    wp (createOld dp ip type) (fun r t => Go strict none H s t ∧ rc t = more H r ∧
      ∀ k, r = some k → Ready t k ∧ (node t (t.itable k).inum).type ≠ T_DIR) (Fit strict) s := by
  rw [plus_comm] at href
  refine (drop_go h href hdp).bind fun _ t ht => ?_
  refine (ilock_go ht.1.ok (by rw [ht.2]; exact plus_pos H ip)).bind fun _ u hu => ?_
  have hgo : Go strict none H s u := (ht.1.mono fun k => le_plus H ip).trans (hu.go ht.1.ok)
  have hrc : rc u = plus H ip := hu.ref.trans ht.2
  rw [wp_bind, wp_inode, hu.ready.node_type hu.wf]
  refine wp_ite.mpr ⟨fun hold => ⟨hgo, hrc, fun k hk => ?_⟩, fun _ => ?_⟩
  · cases hk
    refine ⟨hu.ready, fun hdir => ?_⟩
    rcases hold.2 with hf | hf <;> rw [hf] at hdir <;> exact absurd hdir (by decide)
  · exact (drop_go hgo.ok hrc hu.ready).bind fun _ v hv => ⟨hgo.trans hv.1, hv.2, by rintro _ ⟨⟩⟩

/-- The inode that `create` returns is locked, and a directory only if one was asked for. -/
theorem create_go {type : ℕ} (path : Str) (major minor : ℕ) (h : Ok strict none s) (hcwd : 0 < rc s cwd)
    (htype : type ≠ 0) (hfits : type < 2 ^ 16)
    (hused : strict → ∀ k, 0 < rc s k → (node s (s.itable k).inum).type ≠ 0) :
    wp (create cwd path type major minor) (fun r t => Go strict none (rc s) s t ∧ rc t = more (rc s) r ∧
      ∀ k, r = some k → Ready t k ∧ ((node t (t.itable k).inum).type = T_DIR → type = T_DIR)) (Fit strict) s := by
  refine (namex_go path true h hcwd).bind fun r t ht => ?_
  obtain ⟨hgo, href, hparent⟩ := ht
  cases r with
  | none => exact ⟨hgo, href, by rintro _ ⟨⟩⟩
  | some r =>
    obtain ⟨dp, name⟩ := r
    have href : rc t = plus (rc s) dp := href
    obtain ⟨hdp, hdir⟩ := hparent rfl dp name rfl
    refine (ilock_go hgo.ok hdp.ref).bind fun _ t₁ h₁ => ?_
    have g₁ := hgo.trans (h₁.go hgo.ok)
    have r₁ : rc t₁ = plus (rc s) dp := h₁.ref.trans href
    have hdir₁ : (node t₁ (t₁.itable dp).inum).type = T_DIR := by rw [h₁.inum, h₁.quiet.node, hdir]
    have hle : ∀ k, 0 < rc s k → 0 < plus (rc s) dp k := fun k => le_plus (rc s) dp
    refine (dirlookup_go g₁.ok h₁.ready hdir₁).bind fun r t₂ h₂ => ?_
    obtain ⟨g₂, r₂⟩ := h₂.go g₁.ok
    rw [r₁] at g₂ r₂
    cases r with
    | some r =>
      obtain ⟨ip, off⟩ := r
      have r₂ : rc t₂ = plus (plus (rc s) dp) ip := r₂
      have hdp₂ : Ready t₂ dp := g₂.ready h₁.ready (plus_pos _ dp) (by rw [r₂]; exact le_plus _ ip (plus_pos _ dp))
      refine (createOld_go type g₂.ok r₂ hdp₂).mono fun r u hu => ⟨(g₁.trans (g₂.mono hle)).trans hu.1, hu.2.1, ?_⟩
      exact fun k hk => ⟨(hu.2.2 k hk).1, fun hd => absurd hd (hu.2.2 k hk).2⟩
    | none =>
      obtain ⟨ht₂, -⟩ := h₂.absent rfl
      subst t₂
      refine (ialloc_go g₁.ok htype hfits).bind fun r u hu => ?_
      rcases hu with ⟨rfl, rfl⟩ | ⟨ip, i, rfl, ha⟩
      · exact (drop_go g₁.ok r₁ h₁.ready).bind fun _ v hv => ⟨g₁.trans hv.1, hv.2, by rintro _ ⟨⟩⟩
      have g₃ := ha.go g₁.ok
      rw [r₁] at g₃
      have r₃ : rc u = plus (plus (rc s) dp) ip := by rw [ha.ref, r₁]
      have hdp₃ : Ready u dp := g₃.ready h₁.ready (plus_pos _ dp) (by rw [r₃]; exact le_plus _ ip (plus_pos _ dp))
      have hdir₃ : (node u (u.itable dp).inum).type = T_DIR := by
        rw [g₃.type_eq h₁.ready h₁.wf (plus_pos _ dp), hdir₁]
      -- the inode was free, and every inode in use has a type: the table entry is a new one
      have hfresh : strict → plus (rc s) dp ip = 0 := by
        intro hs
        by_contra hne
        have hpos : 0 < plus (rc s) dp ip := Nat.pos_of_ne_zero hne
        have hinum : (t₁.itable ip).inum = i := by
          rw [← (g₃.held ip hpos).inum, ha.inum]
        refine absurd ha.free ?_
        rw [← hinum]
        rcases eq_or_ne ip dp with rfl | hneq
        · rw [hdir₁]; decide
        · rw [plus, if_neg hneq, Nat.add_zero] at hpos
          have hst := g₁.held ip hpos
          rw [hst.inum, hst.type (hused hs ip hpos)]
          exact hused hs ip hpos
      rw [← ha.inum] at g₃
      have hnode : node u (u.itable ip).inum = .fresh type := by rw [ha.inum, ha.node, update_self]
      refine (createNew_go name major minor g₃.ok r₃ hdp₃ hdir₃ hnode hfresh).mono fun r v hv => ?_
      refine ⟨(g₁.trans (g₃.mono hle)).trans hv.1, hv.2.1, fun k hk => ⟨(hv.2.2 k hk).1, fun hd => ?_⟩⟩
      rw [← (hv.2.2 k hk).2, hd]

theorem openInode_go (path : Str) (omode : UInt32) (h : Ok strict none s) (hcwd : 0 < rc s cwd)
    (hused : strict → ∀ k, 0 < rc s k → (node s (s.itable k).inum).type ≠ 0) :
    wp (openInode cwd path omode) (fun r t => Go strict none (rc s) s t ∧ rc t = more (rc s) r ∧
      ∀ k, r = some k → Ready t k ∧ ((node t (t.itable k).inum).type = T_DIR → omode = 0)) (Fit strict) s := by
  rw [openInode]
  split
  · refine (create_go path 0 0 h hcwd (by decide) (by decide) hused).mono fun r t ht => ⟨ht.1, ht.2.1, fun k hk => ?_⟩
    exact ⟨(ht.2.2 k hk).1, fun hd => absurd ((ht.2.2 k hk).2 hd) (by decide)⟩
  refine (namei_go path h hcwd).bind fun r t ht => ?_
  cases r with
  | none => exact ⟨ht.1, ht.2, by rintro _ ⟨⟩⟩
  | some ip =>
    have href : rc t = plus (rc s) ip := ht.2
    refine (ilock_go ht.1.ok (by rw [href]; exact plus_pos _ ip)).bind fun _ u hu => ?_
    have hgo := ht.1.trans (hu.go ht.1.ok)
    have hrc : rc u = plus (rc s) ip := hu.ref.trans href
    rw [wp_bind, wp_inode, hu.ready.node_type hu.wf]
    refine wp_ite.mpr ⟨fun _ => ?_, fun hdir => ⟨hgo, hrc, fun k hk => ?_⟩⟩
    · exact (drop_go hgo.ok hrc hu.ready).bind fun _ v hv => ⟨hgo.trans hv.1, hv.2, by rintro _ ⟨⟩⟩
    · cases hk
      exact ⟨hu.ready, fun hd => not_not.mp fun hm => hdir ⟨hd, hm⟩⟩

/-! ### `exec` only reads -/

section Exec
variable (h : Ok strict x s) (hp : Ready s ip)
include h hp

theorem readHeader_still {off size : ℕ} (hoff : off < 2 ^ 32) (hsize : size < 2 ^ 32) :
    wp (readHeader ip off size) (fun _ t => t = s) (Fit strict) s :=
  (readi_still h hp hoff hsize).bind fun _ _ ht => ht

theorem loadsegLoop_still (offset sz : ℕ) : ∀ rounds i, wp (loadsegLoop ip offset sz rounds i) (fun _ t => t = s) (Fit strict) s
  | 0, _ => rfl
  | rounds + 1, i => by
      rw [loadsegLoop]
      refine wp_ite.mpr ⟨fun _ => ?_, fun _ => rfl⟩
      have hn : min (sz - i) PGSIZE < 2 ^ 32 := lt_of_le_of_lt (Nat.min_le_right ..) (by decide)
      refine (readi_still h hp (Nat.mod_lt _ (Nat.two_pow_pos 32)) hn).bind fun r t ht => ?_
      subst t
      exact wp_ite.mpr ⟨fun _ => loadsegLoop_still offset sz rounds _, fun _ => rfl⟩

theorem loadProgram_still (mem : ℕ → Bool) : ∀ rounds off j, wp (loadProgram ip mem rounds off j) (fun _ t => t = s) (Fit strict) s
  | 0, _, _ => rfl
  | rounds + 1, off, j => by
      rw [loadProgram]
      refine (readHeader_still h hp (Nat.mod_lt _ (Nat.two_pow_pos 32)) (by decide)).bind fun r t ht => ?_
      subst t
      cases r with
      | none => rfl
      | some ph =>
        refine wp_ite.mpr ⟨fun _ => loadProgram_still mem rounds _ _, fun _ => wp_ite.mpr ⟨fun _ => rfl, fun _ => ?_⟩⟩
        refine (loadsegLoop_still h hp _ _ _ _).bind fun ok t ht => ?_
        subst t
        exact wp_ite.mpr ⟨fun _ => loadProgram_still mem rounds _ _, fun _ => rfl⟩

theorem loadImage_still (mem : ℕ → Bool) : wp (loadImage ip mem) (fun _ t => t = s) (Fit strict) s := by
  refine (readHeader_still h hp (by decide) (by decide)).bind fun r t ht => ?_
  subst t
  cases r with
  | none => rfl
  | some elf => exact wp_ite.mpr ⟨fun _ => rfl, fun _ => loadProgram_still h hp mem _ _ _⟩

end Exec

theorem exec_go (path : Str) (mem : ℕ → Bool) (stack : Bool) (h : Ok strict none s) (hcwd : 0 < rc s cwd) :
    wp (exec cwd path mem stack) (fun _ t => Go strict none (rc s) s t ∧ rc t = rc s) (Fit strict) s := by
  refine (namei_go path h hcwd).bind fun r t ht => ?_
  cases r with
  | none => exact ht
  | some ip =>
    have href : rc t = plus (rc s) ip := ht.2
    refine (ilock_go ht.1.ok (by rw [href]; exact plus_pos _ ip)).bind fun _ u hu => ?_
    have hgo := ht.1.trans (hu.go ht.1.ok)
    refine (loadImage_still hgo.ok hu.ready mem).bind fun ok v hv => ?_
    subst v
    exact (drop_go hgo.ok (hu.ref.trans href) hu.ready).bind fun _ v hv => ⟨hgo.trans hv.1, hv.2⟩

end Minios.Sysfile
