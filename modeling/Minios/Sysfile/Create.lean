import Minios.Sysfile.Effects

/-! `kernel/sysfile.c`: what `create` does to the inodes.

        ialloc ─ nlink = 1 ─ . ─ .. ─ entry in the parent ─ nlink of the parent up
          │                  └────┴──────────┴──▶ fail: nlink = 0, iput frees the inode
          └─ none: nothing has happened yet -/

namespace Minios.Sysfile
open Schemes Function Fs

variable {s t u : FS} {H : IPtr → ℕ} {p ip dp cwd : IPtr} {i k : ℕ} {name : Name} {nd : Node} {x : Option ℕ}

/-- FAIL: the new inode is freed, and the inodes are what they were before it was allocated. -/
theorem createFail_effect {s₀ : FS} (h : Ok True x s) (href : rc s = plus (plus H dp) ip) (hdp : Ready s dp)
    (hip : Ready s ip) (hx : ∀ i, x = some i → i = (s.itable ip).inum) (hfresh : plus H dp ip = 0)
    (hnode : node s = update (node s₀) (s.itable ip).inum nd) (hfree : (node s₀ (s.itable ip).inum).type = 0)
    (hheld : NoOrphans H s₀) (hinum : ∀ k, 0 < H k → (s.itable k).inum = (s₀.itable k).inum) :
    wp (createFail dp ip) (fun r t => r = none ∧ Go True none H s t ∧ rc t = H ∧ node t = node s₀) (fun _ => True) s := by
  have hdp0 : 0 < plus H dp dp := plus_pos H dp
  refine setFields_visit tame_clear h.wf hip fun t ht _ => ?_
  have hgo : Go True x (plus H dp) s t := fields_go h ht
  have hrc : rc t = plus (plus H dp) ip := ht.ref.trans href
  have hnlink : (node t (t.itable ip).inum).nlink = 0 := by rw [ht.inum, ht.node, update_self]; rfl
  refine ((iunlockput_go hgo.ok hrc (ht.ready hip)).weaken fun _ _ => trivial).bind fun _ u hu => ?_
  -- nobody else has the new inode
  have hgone : node u = node s₀ := by
    have hi : node s₀ (s.itable ip).inum = .free := by rw [node, nodeOf_free (by rw [← node_type]; exact hfree)]
    rw [hu.node, if_pos ⟨hfresh, (ht.ready hip).valid, hnlink⟩, ht.inum, ht.node, update_idem, hnode, update_idem, ← hi,
      update_eq_self]
  have hput : Go True none (plus H dp) t u := by
    refine hu.go hrc hgo.ok fun _ i hi => .inr ?_
    obtain rfl := hx i hi
    rw [hgone, hfree]
  have hall := hgo.trans hput
  have hdp' : Ready u dp := hall.ready hdp hdp0 (by rw [hu.ref]; exact hdp0)
  have hheldu : NoOrphans H u := hheld.congr hgone fun k hk => (hall.held k (le_plus H dp hk)).inum.trans (hinum k hk)
  refine (drop_visit hput.ok hu.ref hdp' hheldu).bind ?_
  rintro _ v ⟨hv, hrv⟩
  exact ⟨rfl, (hall.mono fun k => le_plus H dp).trans hv.go, hrv, hv.quiet.node.trans hgone⟩

/-- Only the new inode changes, by two entries at most. -/
theorem createDots_node {type : ℕ} (dp : IPtr) (h : Ok True (if type = T_DIR then some (s.itable ip).inum else none) s)
    (hip : Ready s ip) (htype : (node s (s.itable ip).inum).type = type) (hsize : (node s (s.itable ip).inum).size = 0) :
    wp (createDots dp ip type) (fun _ t => ∃ nd, node t = update (node s) (s.itable ip).inum nd ∧ nd.type = type ∧
      nd.nlink = (node s (s.itable ip).inum).nlink ∧ nd.size ≤ 2 * DESIZE) (fun _ => True) s := by
  -- an entry of the new directory, or nothing
  have hlink : ∀ {name i t u nd n}, node t = update (node s) (s.itable ip).inum nd →
      (t.itable ip).inum = (s.itable ip).inum → nd.type = type →
      nd.nlink = (node s (s.itable ip).inum).nlink → nd.size ≤ n * DESIZE →
      (∃ r : ℤ, r = 0 ∧ Linked t ip name i u ∨ r = -1 ∧ Still t u) →
      ∃ nd, node u = update (node s) (s.itable ip).inum nd ∧ nd.type = type ∧
        nd.nlink = (node s (s.itable ip).inum).nlink ∧ nd.size ≤ (n + 1) * DESIZE := by
    intro name i t u nd n hnode hinum h1 h2 h3 hu
    obtain ⟨-, ⟨-, hl⟩ | ⟨-, hs⟩⟩ := hu
    · obtain ⟨k, hk, -, -, hdid⟩ := hl.did
      rw [hinum, hnode, update_self] at hk hdid
      refine ⟨nd.setDirent k (.of name i), ?_, h1, h2, ?_⟩
      · rw [hdid.node, hinum, hnode, update_idem]
      · rw [setDirent_size]
        simp only [DESIZE] at *
        omega
    · exact ⟨nd, hs.node.trans hnode, h1, h2, by simp only [DESIZE] at *; omega⟩
  have hself : node s = update (node s) (s.itable ip).inum (node s (s.itable ip).inum) := (update_eq_self ..).symm
  rw [createDots]
  refine wp_ite.mpr ⟨fun hdir => ?_, fun _ => ⟨_, hself, htype, rfl, by omega⟩⟩
  rw [if_pos hdir] at h
  rw [wp_bind, wp_inode, wp_bind, wp_inode]
  refine ((dirlink_go h hip (htype.trans hdir)).weaken fun _ _ => trivial).bind fun r t ht => ?_
  obtain ⟨nd, hnode, h1, h2, h3⟩ := hlink (n := 0) hself rfl htype rfl (by omega) ⟨r, ht⟩
  refine wp_ite.mpr ⟨fun _ => ⟨nd, hnode, h1, h2, by omega⟩, fun hr => ?_⟩
  rcases ht with ⟨-, hl⟩ | ⟨rfl, -⟩
  · obtain ⟨_, -, -, -, hdid⟩ := hl.did
    have hgo : Go True (some (s.itable ip).inum) (rc s) s t := hl.go h (htype.trans hdir) (h.wf.inum_lt ip hip.ref)
    have hd : (node t (t.itable ip).inum).type = T_DIR := by rw [hdid.inum, hnode, update_self, h1, hdir]
    refine ((dirlink_go hgo.ok (hdid.ready hip) hd).weaken fun _ _ => trivial).mono fun r u hu => ?_
    exact hlink hnode (hdid.inum ip) h1 h2 h3 ⟨r, hu⟩
  · exact absurd (by decide) hr

/-- The inodes with the new inode `i` and its entry `k` in directory `d`. -/
def entered (N : ℕ → Node) (d k : ℕ) (name : Name) (i : ℕ) (nd : Node) : ℕ → Node :=
  update (update N d ((if nd.type = T_DIR then linked (N d) else N d).setDirent k (.of name i))) i nd

/-- What `create` made: inode `i`, with nothing but its first entries, and entry `k` of directory `d` for it. -/
structure Made (N N' : ℕ → Node) (type d k : ℕ) (name : Name) (i : ℕ) (nd : Node) : Prop where
  dir : (N d).type = T_DIR
  absent : (N d).lookup name = 0
  entry : DESIZE * k ≤ (N d).size
  empty : (N d).Has k → ((N d).dirent k).inum = 0
  free : (N i).type = 0
  type : nd.type = type
  nlink : nd.nlink = 1
  size : nd.size ≤ 2 * DESIZE
  frees : Frees (entered N d k name i nd) N'

/-- NEW: the inode is allocated; it gets its entries and one in the directory, or it goes. -/
theorem createNew_effect {type : ℕ} (s₀ : FS) (name : Name) (major minor : ℕ)
    (h : Ok True (if type = T_DIR then some (s.itable ip).inum else none) s) (href : rc s = plus (plus H dp) ip)
    (hdp : Ready s dp) (hdir : (node s₀ (s.itable dp).inum).type = T_DIR)
    (hnode : node s = update (node s₀) (s.itable ip).inum (.fresh type)) (hfree : (node s₀ (s.itable ip).inum).type = 0)
    (hfresh : plus H dp ip = 0) (hheld : NoOrphans H s₀)
    (hinum : ∀ k, 0 < H k → (s.itable k).inum = (s₀.itable k).inum)
    (habsent : (node s₀ (s.itable dp).inum).lookup name = 0) :
    wp (createNew dp name ip type major minor) (fun r t => Go True none H s t ∧ rc t = more H r ∧ NoOrphans H t ∧
      (r = none ∧ node t = node s₀ ∨ r = some ip ∧ Ready t ip ∧ (t.itable ip).inum = (s.itable ip).inum ∧ ∃ k nd,
        Made (node s₀) (node t) type (s.itable dp).inum k name (s.itable ip).inum nd)) (fun _ => True) s := by
  have hip0 : 0 < rc s ip := by rw [href]; exact plus_pos _ ip
  have hleH : ∀ k, 0 < H k → 0 < rc s k := fun k hk => by rw [href]; exact le_plus _ ip (le_plus H dp hk)
  have hne : (s.itable dp).inum ≠ (s.itable ip).inum := fun he => by
    rw [he, hfree] at hdir
    exact absurd hdir (by decide)
  refine ((ilock_go h hip0).weaken fun _ _ => trivial).bind fun _ t₁ h₁ => ?_
  have g₁ : Go True _ (rc s) s t₁ := h₁.go h
  refine setFields_visit (tame_create major minor) h₁.wf h₁.ready fun t₂ h₂ _ => ?_
  have g₂ : Go True _ (rc s) s t₂ := g₁.trans (fields_go g₁.ok h₂)
  have r₂ : rc t₂ = rc s := h₂.ref.trans h₁.ref
  have hip₂ : Ready t₂ ip := h₂.ready h₁.ready
  have hinum₂ : (t₂.itable ip).inum = (s.itable ip).inum := (g₂.held ip hip0).inum
  obtain ⟨nd₂, hnode₂, htype₂, hnlink₂, hsize₂⟩ : ∃ nd, node t₂ = update (node s₀) (s.itable ip).inum nd ∧
      nd.type = type ∧ nd.nlink = 1 ∧ nd.size = 0 := by
    refine ⟨_, by rw [h₂.node, h₁.inum, h₁.quiet.node, hnode, update_idem], ?_, rfl, ?_⟩
    · simp only [update_self]; rfl
    · simp only [update_self]; rfl
  -- what fails from here on frees the new inode again
  have hfail : ∀ {x t nd}, Go True x (rc s) t₂ t → rc t = rc s → (x = none ∨ x = some (s.itable ip).inum) →
      node t = update (node s₀) (s.itable ip).inum nd →
      wp (createFail dp ip) (fun r t => Go True none H s t ∧ rc t = more H r ∧ NoOrphans H t ∧
        (r = none ∧ node t = node s₀ ∨ r = some ip ∧ Ready t ip ∧ (t.itable ip).inum = (s.itable ip).inum ∧ ∃ k nd,
          Made (node s₀) (node t) type (s.itable dp).inum k name (s.itable ip).inum nd)) (fun _ => True) t := by
    intro x t nd hgo hrc hx hnt
    have hst := hgo.held ip hip0
    have hi : (t.itable ip).inum = (s.itable ip).inum := hst.inum.trans hinum₂
    have hgo' := g₂.trans hgo
    have hinumt : ∀ k, 0 < H k → (t.itable k).inum = (s₀.itable k).inum := fun k hk =>
      (hgo'.held k (hleH k hk)).inum.trans (hinum k hk)
    refine (createFail_effect hgo.ok (hrc.trans href) (hgo'.ready hdp hdp.ref (by rw [hrc]; exact hdp.ref))
      (hgo.ready hip₂ hip0 (by rw [hrc]; exact hip0)) (fun j hj => ?_) hfresh (by rw [hi]; exact hnt)
      (by rw [hi]; exact hfree) hheld hinumt).mono ?_
    · rw [hi]
      rcases hx with rfl | rfl
      · cases hj
      · exact (Option.some.inj hj).symm
    · rintro r u ⟨hr, hu, hru, hnu⟩
      subst hr
      refine ⟨(hgo'.mono hleH).trans hu, hru, hheld.congr hnu fun k hk => ?_, .inl ⟨rfl, hnu⟩⟩
      exact (hu.held k hk).inum.trans (hinumt k hk)
  rw [← hinum₂] at g₂
  have hpos : 0 < rc t₂ dp := by rw [r₂]; exact hdp.ref
  have hself₂ : node t₂ (t₂.itable ip).inum = nd₂ := by rw [hinum₂, hnode₂, update_self]
  have hdots := (createDots_go g₂.ok hpos hip₂ (by rw [hself₂, htype₂]) (by rw [hself₂, hsize₂])).and
    (createDots_node dp g₂.ok hip₂ (by rw [hself₂, htype₂]) (by rw [hself₂, hsize₂]))
  refine (hdots.weaken fun _ _ => trivial).bind ?_
  rintro r t₃ ⟨⟨r₃, h₃⟩, nd₃, hnode₃, htype₃, hnlink₃, hsize₃⟩
  rw [hself₂, hnlink₂] at hnlink₃
  rw [hinum₂, hnode₂, update_idem] at hnode₃
  rw [r₂] at r₃ h₃
  rcases h₃ with ⟨hr, g₃⟩ | ⟨hr, g₃⟩
  · refine wp_ite.mpr ⟨fun _ => hfail g₃ r₃ ?_ hnode₃, fun hn => absurd hr hn⟩
    rw [hinum₂]
    split
    · exact .inr rfl
    · exact .inl rfl
  refine wp_ite.mpr ⟨fun hn => absurd hn hr, fun _ => ?_⟩
  have hip₃ : Ready t₃ ip := g₃.ready hip₂ hip0 (by rw [r₃]; exact hip0)
  have hdp₃ : Ready t₃ dp := (g₂.trans g₃).ready hdp hdp.ref (by rw [r₃]; exact hdp.ref)
  have hinumd : (t₃.itable dp).inum = (s.itable dp).inum := ((g₂.trans g₃).held dp hdp.ref).inum
  have hinumi : (t₃.itable ip).inum = (s.itable ip).inum := ((g₂.trans g₃).held ip hip0).inum
  have hnoded : node t₃ (t₃.itable dp).inum = node s₀ (s.itable dp).inum := by rw [hinumd, hnode₃, update_of_ne hne]
  have hdir₃ : (node t₃ (t₃.itable dp).inum).type = T_DIR := by rw [hnoded, hdir]
  rw [wp_bind, wp_inode]
  refine ((dirlink_go g₃.ok hdp₃ hdir₃).weaken fun _ _ => trivial).bind fun r t₄ h₄ => ?_
  rcases h₄ with ⟨rfl, hl⟩ | ⟨rfl, hs⟩
  · rw [if_neg (by decide)]
    have hgo := hl.go (H := rc s) g₃.ok hdir₃ (g₃.ok.wf.inum_lt ip hip₃.ref)
    obtain ⟨k, hk, -, hempty, hdid⟩ := hl.did
    rw [hnoded, hinumi] at hdid
    rw [hnoded] at hk hempty
    -- the entry is there; the reference to the directory goes
    have hend : ∀ t, Go True none (rc s) t₂ t → rc t = rc s → node t = entered (node s₀) (s.itable dp).inum k name
          (s.itable ip).inum nd₃ → wp (do iunlockput dp; return some ip : M (Option IPtr))
        (fun r t => Go True none H s t ∧ rc t = more H r ∧ NoOrphans H t ∧
          (r = none ∧ node t = node s₀ ∨ r = some ip ∧ Ready t ip ∧ (t.itable ip).inum = (s.itable ip).inum ∧ ∃ k nd,
            Made (node s₀) (node t) type (s.itable dp).inum k name (s.itable ip).inum nd)) (fun _ => True) t := by
      intro t hgo hrc hnt
      have hgo' := g₂.trans hgo
      have hrc' : rc t = plus (plus H ip) dp := by rw [hrc, href, plus_comm]
      have hip : Ready t ip := hgo.ready hip₂ hip0 (by rw [hrc]; exact hip0)
      have hdp' : Ready t dp := hgo'.ready hdp hdp.ref (by rw [hrc]; exact hdp.ref)
      have hheldt : NoOrphans (plus (plus H ip) dp) t := by
        intro j h1 h2
        rw [hnt, entered] at h1 h2
        rcases eq_or_ne j (s.itable ip).inum with rfl | hji
        · rw [update_self, hnlink₃] at h2
          cases h2
        rw [update_of_ne hji] at h1 h2
        rcases eq_or_ne j (s.itable dp).inum with rfl | hjd
        · exact ⟨dp, plus_pos _ dp, (hgo'.held dp hdp.ref).inum⟩
        · rw [update_of_ne hjd] at h1 h2
          obtain ⟨l, hl, hlj⟩ := hheld j h1 h2
          exact ⟨l, le_plus _ dp (le_plus H ip hl), ((hgo'.held l (hleH l hl)).inum.trans (hinum l hl)).trans hlj⟩
      refine (drop_frees hgo.ok hrc' hdp' hheldt).bind ?_
      rintro _ u ⟨hu, hru, hheldu, hf⟩
      have hipu : Ready u ip := hu.ready hip (plus_pos H ip) (by rw [hru]; exact plus_pos H ip)
      have hi : (u.itable ip).inum = (s.itable ip).inum :=
        (hu.held ip (plus_pos H ip)).inum.trans (hgo'.held ip hip0).inum
      have hnlink : (node u (u.itable ip).inum).nlink ≠ 0 := by
        have htype : (node u (u.itable ip).inum).type ≠ 0 := by rw [node_type]; exact hipu.type hu.ok.wf
        rw [hf.kept htype, hi, hnt, entered, update_self, hnlink₃]
        exact Nat.one_ne_zero
      rw [hnt] at hf
      refine ⟨(hgo'.mono hleH).trans (hu.mono fun k => le_plus H ip), hru, hheldu.minus fun _ => hnlink, .inr
        ⟨rfl, hipu, hi, k, nd₃, ⟨hdir, habsent, hk, hempty, hfree, htype₃, hnlink₃, hsize₃, hf⟩⟩⟩
    have g₄ : Go True none (rc s) t₂ t₄ := g₃.trans hgo
    have r₄ : rc t₄ = rc s := hdid.ref.trans r₃
    have hnode₄ : node t₄ = update (update (node s₀) (s.itable ip).inum nd₃) (s.itable dp).inum
        ((node s₀ (s.itable dp).inum).setDirent k (.of name (s.itable ip).inum)) := by rw [hdid.node, hinumd, hnode₃]
    refine wp_ite.mpr ⟨fun hd => ?_, fun hd => hend t₄ g₄ r₄ ?_⟩
    · have hdp₄ : Ready t₄ dp := hdid.ready hdp₃
      refine setFields_visit tame_link g₄.ok.wf hdp₄ fun u hu _ => ?_
      have hu := did_link g₄.ok.wf hdp₄ hu
      refine hend u (g₄.trans (fields_go g₄.ok hu)) (hu.ref.trans r₄) ?_
      rw [hu.node, hdid.inum, hinumd, hnode₄, update_self, update_idem, entered, htype₃, if_pos hd, linked_setDirent,
        update_comm hne]
    · rw [hnode₄, entered, htype₃, if_neg hd, update_comm hne]
  · rw [if_pos (by decide)]
    refine hfail (g₃.trans (r₃ ▸ hs.go g₃.ok _ fun _ => id)) (hs.ref.trans r₃) (.inl rfl) (hs.node.trans hnode₃)

/-- What `create` did, `r` being the inode it returned. -/
def CreateDone (s : FS) (cwd : IPtr) (path : Str) (type : ℕ) (r : Option IPtr) (t : FS) : Prop :=
  r = none ∧ node t = node s ∨ ∃ ip, r = some ip ∧ Ready t ip ∧ (node t = node s ∧ type = T_FILE ∨
    ∃ d k nd, resolve s true (start s cwd path) (elems path) = some d ∧
      Made (node s) (node t) type d k ((elems path).getLastD .none) (t.itable ip).inum nd)

/-- OLD: there is an entry of the name. -/
theorem createOld_effect (type : ℕ) (h : Ok True none s) (href : rc s = plus (plus H dp) ip) (hdp : Ready s dp)
    (hheld : NoOrphans H s) : wp (createOld dp ip type) (fun r t => Visit H s t ∧ rc t = more H r ∧
      ∀ k, r = some k → Ready t k ∧ type = T_FILE) (fun _ => True) s := by
  rw [plus_comm] at href
  refine (drop_visit h href hdp (hheld.mono fun k => le_plus H ip)).bind ?_
  rintro _ t ⟨ht, hrt⟩
  refine ((ilock_go ht.go.ok (by rw [hrt]; exact plus_pos H ip)).weaken fun _ _ => trivial).bind fun _ u hu => ?_
  have hv : Visit H s u := (ht.mono fun k => le_plus H ip).trans (hu.visit ht.go.ok)
  have hrc : rc u = plus H ip := hu.ref.trans hrt
  rw [wp_bind, wp_inode]
  refine wp_ite.mpr ⟨fun hold => ⟨hv, hrc, fun k hk => ?_⟩, fun _ => ?_⟩
  · cases hk
    exact ⟨hu.ready, hold.1⟩
  · refine (drop_visit hv.go.ok hrc hu.ready (hv.held hheld)).bind ?_
    rintro _ v ⟨hv', hrv⟩
    exact ⟨hv.trans hv', hrv, nofun⟩

/-- CREATE: a new inode with an entry, an old one, or nothing. -/
theorem create_effect {type : ℕ} (path : Str) (major minor : ℕ) (h : Ok True none s) (hheld : NoOrphans (rc s) s)
    (hcwd : 0 < rc s cwd) (htype : type ≠ 0) (hfits : type < 2 ^ 16)
    (hused : ∀ k, 0 < rc s k → (node s (s.itable k).inum).type ≠ 0) :
    wp (create cwd path type major minor) (fun r t => Go True none (rc s) s t ∧ rc t = more (rc s) r ∧
      NoOrphans (rc s) t ∧ CreateDone s cwd path type r t) (fun _ => True) s := by
  refine ((namex_resolve path true h hheld hcwd).weaken fun _ _ => trivial).bind ?_
  rintro r t ⟨hv, hrc, _, hr⟩
  cases r with
  | none => exact ⟨hv.go, hrc, hv.held hheld, .inl ⟨rfl, hv.quiet.node⟩⟩
  | some r =>
    obtain ⟨dp, name⟩ := r
    have hrc : rc t = plus (rc s) dp := hrc
    have hpos : 0 < rc t dp := by rw [hrc]; exact plus_pos _ dp
    obtain ⟨d, hd, he⟩ := Option.map_eq_some_iff.mp hr.symm
    obtain ⟨rfl, rfl⟩ := Prod.mk.inj he
    have hdir := (resolve_parent.mp hd).2.2
    refine ((ilock_go hv.go.ok hpos).weaken fun _ _ => trivial).bind fun _ t₁ h₁ => ?_
    have v₁ : Visit (rc s) s t₁ := hv.trans (h₁.visit hv.go.ok)
    have r₁ : rc t₁ = plus (rc s) dp := h₁.ref.trans hrc
    have hle₁ : ∀ k, 0 < rc s k → 0 < rc t₁ k := fun k hk => by rw [r₁]; exact le_plus _ dp hk
    have hnode₁ : node t₁ (t₁.itable dp).inum = node s (t₁.itable dp).inum := by rw [v₁.quiet.node]
    have hdir₁ : (node s (t₁.itable dp).inum).type = T_DIR := by rw [h₁.inum]; exact hdir
    refine ((dirlookup_visit v₁.go.ok h₁.ready (by rw [hnode₁]; exact hdir₁) _).weaken fun _ _ => trivial).bind
      ?_
    rintro r t₂ ⟨_, h₂⟩
    rw [hnode₁] at h₂
    rcases h₂ with ⟨rfl, ht₂, habsent⟩ | ⟨ip, k, rfl, -, -, hne0, hgot⟩
    · subst t₂
      refine ((ialloc_spec h₁.wf htype hfits).weaken fun _ _ => trivial).bind fun r u hu => ?_
      rcases hu with ⟨rfl, rfl⟩ | ⟨ip, i, rfl, ha⟩
      · refine (drop_visit v₁.go.ok r₁ h₁.ready (v₁.held hheld)).bind ?_
        rintro _ v ⟨hv', hrv⟩
        have hv'' := v₁.trans hv'
        exact ⟨hv''.go, hrv, hv''.held hheld, .inl ⟨rfl, hv''.quiet.node⟩⟩
      have g₃ := ha.go v₁.go.ok
      have r₃ : rc u = plus (plus (rc s) dp) ip := by rw [ha.ref, r₁]
      have hfree : (node s i).type = 0 := by rw [← v₁.quiet.node]; exact ha.free
      have hinumu : ∀ k, 0 < rc s k → (u.itable k).inum = (s.itable k).inum := fun k hk =>
        (g₃.held k (hle₁ k hk)).inum.trans (v₁.go.held k hk).inum
      have hinumd : (u.itable dp).inum = (t₁.itable dp).inum := (g₃.held dp h₁.ready.ref).inum
      have hdp₃ : Ready u dp := g₃.ready h₁.ready h₁.ready.ref (by rw [r₃]; exact le_plus _ ip (plus_pos _ dp))
      -- the inode was free, and every inode in use has a type: the table entry is a new one
      have hfresh : plus (rc s) dp ip = 0 := by
        by_contra hne
        have hpos : 0 < rc t₁ ip := by rw [r₁]; exact Nat.pos_of_ne_zero hne
        have hi : (t₁.itable ip).inum = i := by rw [← (g₃.held ip hpos).inum, ha.inum]
        refine absurd hfree ?_
        rcases eq_or_ne ip dp with rfl | hneq
        · rw [← hi, hdir₁]; decide
        · have hps : 0 < rc s ip := by
            rw [plus, if_neg hneq] at hne
            exact Nat.pos_of_ne_zero hne
          rw [← hi, (v₁.go.held ip hps).inum]
          exact hused ip hps
      rw [← ha.inum] at g₃ hfree
      have hnew := createNew_effect s _ major minor g₃.ok r₃ hdp₃ (by rw [hinumd]; exact hdir₁)
        (by rw [ha.inum, ha.node, v₁.quiet.node]) hfree hfresh hheld hinumu (by rw [hinumd]; exact habsent)
      refine hnew.mono ?_
      rintro r w ⟨hw, hrw, hheldw, hr⟩
      refine ⟨(v₁.go.trans (g₃.mono hle₁)).trans hw, hrw, hheldw, hr.imp_right ?_⟩
      rintro ⟨hr, hready, hi, k, nd, hmade⟩
      refine ⟨ip, hr, hready, .inr ⟨_, k, nd, hd, ?_⟩⟩
      rw [hi, ← h₁.inum, ← hinumd]
      exact hmade
    · have v₂ : Visit (rc t₁) t₁ t₂ := hgot.visit v₁.go.ok hne0
      have r₂ : rc t₂ = plus (plus (rc s) dp) ip := by rw [hgot.ref, r₁]
      have v : Visit (rc s) s t₂ := v₁.trans (v₂.mono hle₁)
      have hdp₂ : Ready t₂ dp := v₂.go.ready h₁.ready h₁.ready.ref (by rw [r₂]; exact le_plus _ ip (plus_pos _ dp))
      refine (createOld_effect type v.go.ok r₂ hdp₂ (v.held hheld)).mono ?_
      rintro r u ⟨hu, hru, hr⟩
      have hall := v.trans hu
      refine ⟨hall.go, hru, hall.held hheld, ?_⟩
      cases r with
      | none => exact .inl ⟨rfl, hall.quiet.node⟩
      | some k => exact .inr ⟨k, rfl, (hr k rfl).1, .inl ⟨hall.quiet.node, (hr k rfl).2⟩⟩

end Minios.Sysfile
