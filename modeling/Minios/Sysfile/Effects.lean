import Minios.Fs.Path
import Minios.Sysfile.Safe

/-! `kernel/sysfile.c`: what the calls that change names do to the inodes.

        link      nlink of one inode up, an entry in a directory
        unlink    an entry cleared, nlink down; of the parent too, if a directory went
        create    a new inode, an entry for it; nlink of the parent up, if it is a directory

    Or else nothing: each update that comes before a failure is undone, and the `iput` of a half-made inode frees it. -/

namespace Minios.Sysfile
open Schemes Function Fs

variable {s t u : FS} {H : IPtr → ℕ} {p ip dp cwd : IPtr} {i k : ℕ} {name : Name} {nd : Node}

/-! ### `link` -/

/-- The inode with one more link. -/
def linked (nd : Node) : Node := { nd with nlink := (nd.nlink + 1) % 2 ^ 16 }

/-- The inode with one link less. -/
def unlinked (nd : Node) : Node := { nd with nlink := (nd.nlink + (2 ^ 16 - 1)) % 2 ^ 16 }

theorem unlinked_linked (h : nd.nlink < 2 ^ 16) : unlinked (linked nd) = nd := by
  have hn : ((nd.nlink + 1) % 2 ^ 16 + (2 ^ 16 - 1)) % 2 ^ 16 = nd.nlink := by omega
  rw [unlinked, linked]
  dsimp only
  rw [hn]

theorem linked_setDirent (nd : Node) (k : ℕ) (de : Dirent) :
    (linked nd).setDirent k de = linked (nd.setDirent k de) := by
  simp only [linked, Node.setDirent, Node.splice]

theorem unlinked_setDirent (nd : Node) (k : ℕ) (de : Dirent) :
    (unlinked nd).setDirent k de = unlinked (nd.setDirent k de) := by
  simp only [unlinked, Node.setDirent, Node.splice]

theorem did_nlink {f : Dinode → Dinode} (n : ℕ → ℕ) (hf : ∀ d, f d = d.setNlink (n d.nlink)) (hw : Wf s) (hp : Ready s p)
    (h : Did p s { node s (s.itable p).inum with
      major := (f (s.itable p).d).major
      minor := (f (s.itable p).d).minor
      nlink := (f (s.itable p).d).nlink } t) :
    Did p s { node s (s.itable p).inum with nlink := n (node s (s.itable p).inum).nlink } t := by
  rw [hf, hp.node hw] at h
  rw [hp.node hw]
  exact h

theorem did_link (hw : Wf s) (hp : Ready s p) (h : Did p s { node s (s.itable p).inum with
      major := (Dinode.link (s.itable p).d).major
      minor := (Dinode.link (s.itable p).d).minor
      nlink := (Dinode.link (s.itable p).d).nlink } t) : Did p s (linked (node s (s.itable p).inum)) t :=
  did_nlink (fun n => (n + 1) % 2 ^ 16) (fun _ => rfl) hw hp h

theorem did_unlink (hw : Wf s) (hp : Ready s p) (h : Did p s { node s (s.itable p).inum with
      major := (Dinode.unlink (s.itable p).d).major
      minor := (Dinode.unlink (s.itable p).d).minor
      nlink := (Dinode.unlink (s.itable p).d).nlink } t) : Did p s (unlinked (node s (s.itable p).inum)) t :=
  did_nlink (fun n => (n + (2 ^ 16 - 1)) % 2 ^ 16) (fun _ => rfl) hw hp h

/-- UNDONE: the inodes are what they were before the link count went up. -/
theorem linkUndo_effect (h : Ok True none u) (href : rc u = plus H ip) (hip : Ready u ip) (hs : NoOrphans H s)
    (hinum : ∀ k, 0 < H k → (u.itable k).inum = (s.itable k).inum)
    (hlt : (node s (u.itable ip).inum).nlink < 2 ^ 16)
    (hnode : node u = update (node s) (u.itable ip).inum (linked (node s (u.itable ip).inum))) :
    wp (linkUndo ip) (fun r t => r = -1 ∧ node t = node s ∧ Go True none H u t ∧ rc t = H ∧ locks t = locks u)
      (fun _ => locks u ip = true) u := by
  have htype : (node u (u.itable ip).inum).type ≠ 0 := by rw [← hip.node_type h.wf]; rw [hip.d h.wf]; exact (hip.live h.wf).2
  rw [linkUndo]
  refine ((ilock_visit h hip.ref).weaken fun e he => ?_).bind ?_
  · rcases he with he | he
    · exact he.2
    · exact absurd he.2 htype
  rintro _ u₁ ⟨h₁, hfree, l₁⟩
  have v₁ : Visit (rc u) u u₁ := h₁.visit h
  refine setFields_visit tame_unlink h₁.wf h₁.ready fun u₂ h₂ l₂ => ?_
  have h₂ := did_unlink h₁.wf h₁.ready h₂
  have g₂ : Go True none H u₁ u₂ := fields_go v₁.go.ok h₂
  have hback : node u₂ = node s := by
    rw [h₂.node, h₁.inum, h₁.quiet.node, hnode, update_self, update_idem, unlinked_linked hlt, update_eq_self]
  have hinum₂ : ∀ k, 0 < H k → (u₂.itable k).inum = (s.itable k).inum := fun k hk => by
    rw [h₂.inum, h₁.inum, hinum k hk]
  have hlocked : locks u₂ ip = true := by rw [l₂, l₁, update_self]
  refine ((iunlockput_visit g₂.ok (h₂.ref.trans (h₁.ref.trans href)) (h₂.ready h₁.ready) hlocked
    (hs.congr hback hinum₂)).total).bind ?_
  rintro _ u₃ ⟨v₃, r₃, l₃⟩
  refine ⟨rfl, v₃.quiet.node.trans hback, ?_, r₃, ?_⟩
  · exact ((v₁.go.mono fun k hk => by rw [href]; exact le_plus H ip hk).trans g₂).trans v₃.go
  · rw [l₃, l₂, l₁]
    exact relock hfree

/-- Nothing keeps a path from being resolved: no lock is held, the inode table has three free entries, and what is in
    use or has an entry is allocated. -/
structure Calm (s : FS) : Prop where
  unlocked : Unlocked s
  room : ∀ i j : IPtr, ∃ k, k ≠ i ∧ k ≠ j ∧ rc s k = 0
  root : (node s ROOTINO).type ≠ 0
  used : ∀ k, 0 < rc s k → (node s (s.itable k).inum).type ≠ 0
  closed : ∀ i, (node s i).type = T_DIR → ∀ name, (node s i).lookup name ≠ 0 →
    (node s ((node s i).lookup name)).type ≠ 0

theorem Calm.walk (h : Calm s) : ∀ {names : List Name} {i j : ℕ}, (node s i).type ≠ 0 → walk s i names = some j →
    (node s j).type ≠ 0
  | [], i, j, hi, hj => by cases hj; exact hi
  | name :: names, i, j, hi, hj => by
      rw [Fs.walk, List.foldlM_cons, lookupIn] at hj
      split at hj
      · rename_i hc
        exact h.walk (h.closed i hc.1 name hc.2) hj
      · cases hj

theorem Calm.start (h : Calm s) (hcwd : 0 < rc s cwd) (path : Str) : (node s (start s cwd path)).type ≠ 0 := by
  rw [Fs.start]
  split
  · exact h.root
  · exact h.used cwd hcwd

/-- Resolution does not end in a panic, also with another inode in use. -/
theorem Calm.not_lost {e : Panic} {names : List Name} (h : Calm s) (hi : (node s i).type ≠ 0)
    (hH : ∀ k, k ≠ p → 0 < H k → 0 < rc s k) : ¬ Lost H s i names e := by
  rintro (⟨-, j, hfull⟩ | ⟨-, before, name, after, j, -, hj, h0⟩)
  · obtain ⟨k, hp, hj, hk⟩ := h.room p j
    exact absurd (hH k hp (hfull k hj)) (by omega)
  · exact h.walk hi hj h0

/-- There may be no room for one more entry in directory `d`. -/
def Cramped (s : FS) (d : ℕ) : Prop := (∀ k, (node s d).Has k → ((node s d).dirent k).inum ≠ 0) ∧
  (MAXFILE * BSIZE < (node s d).size + DESIZE ∨ s.sb.size < s.sb.nmeta + SLOTS * (allocated s).card + 2)

/-- What `link` is asked to do: an entry for inode `i` in directory `d`. -/
structure LinkPlan (s : FS) (cwd : IPtr) (old new : Str) (i d : ℕ) (name : Name) : Prop where
  source : walk s (start s cwd old) (elems old) = some i
  file : (node s i).type ≠ T_DIR
  parent : resolve s true (start s cwd new) (elems new) = some d
  last : (elems new).getLastD .none = name
  absent : (node s d).lookup name = 0

/-- What `link` did. -/
structure LinkDone (s : FS) (cwd : IPtr) (old new : Str) (t : FS) (i d : ℕ) (name : Name) (k : ℕ) : Prop where
  plan : LinkPlan s cwd old new i d name
  lt : i < 2 ^ 16
  entry : DESIZE * k ≤ (node s d).size
  empty : (node s d).Has k → ((node s d).dirent k).inum = 0
  node : (node s i).nlink + 1 < 2 ^ 16 →
    node t = update (update (node s) i (linked (node s i))) d ((node s d).setDirent k (.of name i))

theorem dirlink_effect {x : Option ℕ} (h : Ok True x s) (hp : Ready s dp) (hdir : (node s (s.itable dp).inum).type = T_DIR)
    (name : Name) (hpos : 0 < i) (hi : i < 2 ^ 16) :
    wp (dirlink dp name i) (fun r t => locks t = locks s ∧ (r = 0 ∧ Linked s dp name i t ∨ r = -1 ∧ Still s t ∧
      ((node s (s.itable dp).inum).lookup name = 0 → Cramped s (s.itable dp).inum)))
      (fun _ => ∀ k, 0 < rc s k) s := by
  have hmap := (h.dir hp hdir).dirlink name hpos hi
  refine ((((dirlink_go h hp hdir).both hmap).and (dirlink_locks dp name i s)).weaken fun e he k => (he.2.2.2 k).1).mono ?_
  rintro r t ⟨⟨hr, hm⟩, hl⟩
  refine ⟨hl, ?_⟩
  rcases hr with hr | ⟨rfl, hstill⟩
  · exact .inl hr
  refine .inr ⟨rfl, hstill, fun h0 => ?_⟩
  rcases hm with ⟨-, hwhy, -⟩ | ⟨hr, -⟩
  · obtain ⟨hfull, hroom⟩ := hwhy.resolve_left fun hne => hne h0
    refine ⟨hfull, hroom.imp_right fun hfew => ?_⟩
    have h1 := spare_ge h.wf
    have h2 := needs_le s dp (node s (s.itable dp).inum).entries
    omega
  · exact absurd hr (by decide)

theorem Cramped.congr {d : ℕ} (h : Cramped t d) (hsb : t.sb = s.sb) (htype : ∀ j, (node t j).type = (node s j).type)
    (hd : node t d = node s d) : Cramped s d := by
  have halloc : allocated t = allocated s := by simp only [allocated, hsb, htype]
  rwa [Cramped, hd, hsb, halloc] at h

/-- `link` from where the parent of the new name is found: an entry for `ip` in `dp`. -/
theorem linkEntry_effect (hs : Wf s) (hheld : NoOrphans (rc s) s) (h : Ok True none u) (href : rc u = plus (plus (rc s) ip) dp)
    (hip : Ready u ip) (hi0 : (u.itable ip).inum ≠ 0) (hsb : u.sb = s.sb)
    (hinum : ∀ k, 0 < rc s k → (u.itable k).inum = (s.itable k).inum)
    (hnode : node u = update (node s) (u.itable ip).inum (linked (node s (u.itable ip).inum)))
    (hfile : (node s (u.itable ip).inum).type ≠ T_DIR) (hdir : (node s (u.itable dp).inum).type = T_DIR) (name : Name) :
    wp (do
      ilock dp
      let r ← dirlink dp name (u.itable ip).inum
      iunlockput dp
      if r < 0 then linkUndo ip
      else
        iput ip
        return 0 : M ℤ)
      (fun r t => Go True none (rc s) u t ∧ rc t = rc s ∧ locks t = locks u ∧
        (r = -1 ∧ node t = node s ∧
          ((node s (u.itable dp).inum).lookup name = 0 → Cramped s (u.itable dp).inum) ∨
        r = 0 ∧ (node s (u.itable dp).inum).lookup name = 0 ∧ ∃ k, DESIZE * k ≤ (node s (u.itable dp).inum).size ∧
          ((node s (u.itable dp).inum).Has k → ((node s (u.itable dp).inum).dirent k).inum = 0) ∧
          ((node s (u.itable ip).inum).nlink + 1 < 2 ^ 16 → node t =
            update (update (node s) (u.itable ip).inum (linked (node s (u.itable ip).inum))) (u.itable dp).inum
              ((node s (u.itable dp).inum).setDirent k (.of name (u.itable ip).inum)))))
      (fun _ => (∃ k, locks u k = true) ∨ ∀ k, 0 < rc u k) u := by
  have hdp : 0 < rc u dp := by rw [href]; exact plus_pos _ dp
  have hle : ∀ k, 0 < rc s k → 0 < rc u k := fun k hk => by rw [href]; exact le_plus _ dp (le_plus _ ip hk)
  have hne : (u.itable dp).inum ≠ (u.itable ip).inum := fun he => hfile (by rw [← he, hdir])
  have hsame : node u (u.itable dp).inum = node s (u.itable dp).inum := by rw [hnode, update_of_ne hne]
  have hlt : (u.itable ip).inum < 2 ^ 16 := by
    have h1 := h.wf.inum_lt ip hip.ref
    have h2 := u.sb.ninodes_le
    omega
  -- everything that is allocated without links is held, the file by this call
  have hheldu : NoOrphans (plus (rc s) ip) u := by
    intro j h1 h2
    rw [hnode] at h1 h2
    rcases eq_or_ne j (u.itable ip).inum with rfl | hj
    · exact ⟨ip, plus_pos _ ip, rfl⟩
    · rw [update_of_ne hj] at h1 h2
      obtain ⟨k, hk, hkj⟩ := hheld j h1 h2
      exact ⟨k, le_plus _ ip hk, (hinum k hk).trans hkj⟩
  refine ((ilock_visit h hdp).weaken fun e he => ?_).bind ?_
  · rcases he with he | he
    · exact .inl ⟨dp, he.2⟩
    · rw [hsame, hdir] at he
      exact absurd he.2 (by decide)
  rintro _ u₁ ⟨h₁, hfree, l₁⟩
  have v₁ : Visit (rc u) u u₁ := h₁.visit h
  have hdir₁ : (node u₁ (u₁.itable dp).inum).type = T_DIR := by rw [h₁.inum, h₁.quiet.node, hsame, hdir]
  refine ((dirlink_effect v₁.go.ok h₁.ready hdir₁ name (Nat.pos_of_ne_zero hi0) hlt).weaken
    fun e he => .inr fun k => by rw [← h₁.ref]; exact he k).bind ?_
  rintro r u₂ ⟨l₂, h₂⟩
  have r₁ : rc u₁ = plus (plus (rc s) ip) dp := h₁.ref.trans href
  have hheld₁ : NoOrphans (plus (rc s) ip) u₁ := hheldu.congr h₁.quiet.node fun k _ => h₁.inum k
  have hback : ∀ {v : FS}, locks v = update (locks u₂) dp false → locks v = locks u := fun hv => by
    rw [hv, l₂, l₁]; exact relock hfree
  rcases h₂ with ⟨rfl, hl⟩ | ⟨rfl, hstill, hwhy⟩
  · obtain ⟨k, hk, -, hempty, hdid⟩ := hl.did
    have g₂ : Go True none (rc u) u₁ u₂ := hl.go v₁.go.ok hdir₁ (by rw [h₁.quiet.sb]; exact h.wf.inum_lt ip hip.ref)
    have hnlink : ((node u₁ (u₁.itable dp).inum).setDirent k (Dirent.of name (u.itable ip).inum)).nlink =
      (node u₁ (u₁.itable dp).inum).nlink := rfl
    have hheld₂ : NoOrphans (plus (rc s) ip) u₂ :=
      hdid.held hheld₁ (by rw [hdir₁]; decide) fun h0 => .inr (hnlink.symm.trans h0)
    refine ((iunlockput_visit g₂.ok (hdid.ref.trans r₁) (hdid.ready h₁.ready) (by rw [l₂, l₁, update_self])
      hheld₂).total).bind ?_
    rintro _ u₃ ⟨v₃, r₃, l₃⟩
    rw [if_neg (by decide)]
    have g₃ : Go True none (rc s) u u₃ := ((v₁.go.trans g₂).mono hle).trans (v₃.go.mono fun k => le_plus _ ip)
    have hlook : (node s (u.itable dp).inum).lookup name = 0 := by
      rw [← hsame, ← h₁.quiet.node, ← h₁.inum dp]
      exact lookup_eq_zero.mpr hl.fresh
    rw [h₁.inum, h₁.quiet.node, hsame] at hk hempty hdid
    have hnode₃ : node u₃ = update (update (node s) (u.itable ip).inum (linked (node s (u.itable ip).inum)))
        (u.itable dp).inum ((node s (u.itable dp).inum).setDirent k (.of name (u.itable ip).inum)) := by
      rw [v₃.quiet.node, hdid.node, h₁.inum, h₁.quiet.node, hnode]
    have hlocked : ∀ {e : Panic}, e = .blocked ∧ locks u₃ ip = true → (∃ k, locks u k = true) ∨ ∀ k, 0 < rc u k :=
      fun he => .inl ⟨ip, by rw [← hback l₃]; exact he.2⟩
    by_cases hwrap : (node s (u.itable ip).inum).nlink + 1 < 2 ^ 16
    · have hheld₃ : NoOrphans (rc s) u₃ := by
        intro j h1 h2
        have hinum₃ : ∀ k, 0 < rc s k → (u₃.itable k).inum = (s.itable k).inum := fun k hk =>
          (g₃.held k hk).inum.trans (hinum k hk)
        have hold : (node s j).type ≠ 0 → (node s j).nlink = 0 → ∃ k, 0 < rc s k ∧ (u₃.itable k).inum = j :=
          fun h1 h2 => (hheld j h1 h2).imp fun k hk => ⟨hk.1, (hinum₃ k hk.1).trans hk.2⟩
        rw [hnode₃] at h1 h2
        rcases eq_or_ne j (u.itable dp).inum with rfl | hjd
        · rw [update_self] at h1 h2
          exact hold h1 h2
        rcases eq_or_ne j (u.itable ip).inum with rfl | hji
        · rw [update_of_ne hjd, update_self] at h2
          have h2 : ((node s (u.itable ip).inum).nlink + 1) % 2 ^ 16 = 0 := h2
          omega
        · rw [update_of_ne hjd, update_of_ne hji] at h1 h2
          exact hold h1 h2
      refine ((iput_visit g₃.ok r₃ hheld₃).weaken fun e he => hlocked he).bind ?_
      rintro _ u₄ ⟨v₄, r₄, l₄⟩
      exact ⟨g₃.trans v₄.go, r₄, l₄.trans (hback l₃), .inr ⟨rfl, hlook, k, hk, hempty, fun _ => v₄.quiet.node.trans hnode₃⟩⟩
    · refine (((iput_spec g₃.ok.wf r₃).and (iput_locks ip u₃)).weaken fun e he => hlocked he).bind ?_
      rintro _ u₄ ⟨h₄, l₄⟩
      exact ⟨g₃.trans (h₄.go r₃ g₃.ok nofun), h₄.ref, l₄.trans (hback l₃),
        .inr ⟨rfl, hlook, k, hk, hempty, fun hw => absurd hw hwrap⟩⟩
  · have g₂ : Go True none (rc u) u₁ u₂ := hstill.go v₁.go.ok _ fun k hk => by rwa [h₁.ref]
    have hready₂ : Ready u₂ dp := g₂.ready h₁.ready hdp (by rw [hstill.ref, r₁]; exact plus_pos _ dp)
    have hheld₂ : NoOrphans (plus (rc s) ip) u₂ := hheld₁.congr hstill.node fun k hk =>
      (hstill.keep k (by rw [r₁]; exact le_plus _ dp hk)).1
    refine ((iunlockput_visit g₂.ok (hstill.ref.trans r₁) hready₂ (by rw [l₂, l₁, update_self])
      hheld₂).total).bind ?_
    rintro _ u₃ ⟨v₃, r₃, l₃⟩
    rw [if_pos (by decide)]
    have g₃ : Go True none (plus (rc s) ip) u u₃ :=
      ((v₁.go.trans g₂).mono fun k hk => by rw [href]; exact le_plus _ dp hk).trans v₃.go
    have hst := g₃.held ip (plus_pos _ ip)
    have hnode₃ : node u₃ = node u := by rw [v₃.quiet.node, hstill.node, h₁.quiet.node]
    have hundo := linkUndo_effect (s := s) g₃.ok r₃ (g₃.ready hip (plus_pos _ ip) (by rw [r₃]; exact plus_pos _ ip)) hheld
      (fun k hk => (g₃.held k (le_plus _ ip hk)).inum.trans (hinum k hk)) (node_nlink_lt hs _)
      (by rw [hnode₃, hst.inum]; exact hnode)
    refine (hundo.weaken fun e he => .inl ⟨ip, by rw [← hback l₃]; exact he⟩).mono ?_
    rintro r t ⟨hr, hn, hgo, hrc, hl⟩
    refine ⟨(g₃.mono fun k => le_plus _ ip).trans hgo, hrc, hl.trans (hback l₃), .inl ⟨hr, hn, fun h0 => ?_⟩⟩
    rw [h₁.inum, h₁.quiet.node, hsame] at hwhy
    refine (hwhy h0).congr (h₁.quiet.sb.trans hsb) (fun j => ?_) (by rw [h₁.quiet.node, hsame])
    rw [h₁.quiet.node, hnode]
    rcases eq_or_ne j (u.itable ip).inum with rfl | hj
    · rw [update_self]; rfl
    · rw [update_of_ne hj]

/-- LINK: a new entry and one more link, or nothing. -/
theorem link_effect (old new : Str) (h : Ok True none s) (hheld : NoOrphans (rc s) s) (hcwd : 0 < rc s cwd) :
    wp (link cwd old new) (fun r t => Go True none (rc s) s t ∧ rc t = rc s ∧ locks t = locks s ∧
      (r = -1 ∧ node t = node s ∧ (∀ i d name, LinkPlan s cwd old new i d name → Cramped s d) ∨
        r = 0 ∧ ∃ i d name k, LinkDone s cwd old new t i d name k)) (fun _ => ¬ Calm s) s := by
  refine ((namei_resolve old h hheld hcwd).weaken fun e he hc => ?_).bind ?_
  · rcases he with he | he
    · exact hc.not_lost (p := cwd) (hc.start hcwd old) (fun _ _ => id) he
    · exact he.2 hc.unlocked
  rintro r t ⟨hv, hrc, hl, hr⟩
  cases r with
  | none => exact ⟨hv.go, hrc, hl, .inl ⟨rfl, hv.quiet.node, fun i d name hp => by rw [hp.source] at hr; cases hr⟩⟩
  | some ip =>
    have hrc : rc t = plus (rc s) ip := hrc
    have hpos : 0 < rc t ip := by rw [hrc]; exact plus_pos _ ip
    have hle : ∀ k, 0 < rc s k → 0 < rc t k := fun k hk => by rw [hrc]; exact le_plus _ ip hk
    have hwalk : walk s (start s cwd old) (elems old) = some (t.itable ip).inum := hr.symm
    refine ((ilock_visit hv.go.ok hpos).weaken fun e he hc => ?_).bind ?_
    · rcases he with he | he
      · rw [hl, hc.unlocked ip] at he
        exact Bool.false_ne_true he.2
      · rw [hv.quiet.node] at he
        exact hc.walk (hc.start hcwd old) hwalk he.2
    rintro _ t₁ ⟨h₁, hfree, l₁⟩
    have v₁ : Visit (rc s) s t₁ := hv.trans (h₁.visit hv.go.ok)
    have hnode₁ : node t₁ (t₁.itable ip).inum = node s (t.itable ip).inum := by rw [h₁.inum, h₁.quiet.node, hv.quiet.node]
    rw [wp_bind, wp_inode, h₁.ready.node_type h₁.wf, hnode₁]
    refine wp_ite.mpr ⟨fun hdir => ?_, fun hfile => ?_⟩
    · refine ((iunlockput_visit v₁.go.ok (h₁.ref.trans hrc) h₁.ready (by rw [l₁, update_self]) (v₁.held hheld)).total).bind
        ?_
      rintro _ t₂ ⟨v₂, r₂, l₂⟩
      refine ⟨v₁.go.trans v₂.go, r₂, ?_, .inl ⟨rfl, ?_, fun i d name hp => ?_⟩⟩
      · rw [l₂, l₁, relock hfree, hl]
      · rw [v₂.quiet.node, v₁.quiet.node]
      · have := hp.source
        rw [hwalk] at this
        cases this
        exact absurd hdir hp.file
    refine setFields_visit tame_link h₁.wf h₁.ready fun t₂ h₂ l₂ => ?_
    have h₂ := did_link h₁.wf h₁.ready h₂
    have g₂ : Go True none (rc s) s t₂ := v₁.go.trans (fields_go v₁.go.ok h₂)
    refine ((iunlock_visit g₂.ok (h₂.ready h₁.ready) (by rw [l₂, l₁, update_self])).total).bind ?_
    rintro _ t₃ ⟨h₃, l₃⟩
    have g₃ : Go True none (rc s) s t₃ := g₂.trans (h₃.go g₂.ok)
    have r₃ : rc t₃ = plus (rc s) ip := h₃.ref.trans (h₂.ref.trans (h₁.ref.trans hrc))
    have hl₃ : locks t₃ = locks s := by rw [l₃, l₂, l₁, relock hfree, hl]
    have hinum₃ : (t₃.itable ip).inum = (t.itable ip).inum := by rw [h₃.inum, h₂.inum, h₁.inum]
    have hnode₃ : node t₃ = update (node s) (t.itable ip).inum (linked (node s (t.itable ip).inum)) := by
      rw [h₃.quiet.node, h₂.node, hnode₁, h₁.inum, h₁.quiet.node, hv.quiet.node]
    have halike : Alike s t₃ := fun j => by
      rw [hnode₃]
      rcases eq_or_ne j (t.itable ip).inum with rfl | hj
      · rw [update_self]; exact ⟨rfl, rfl⟩
      · rw [update_of_ne hj]; exact ⟨rfl, rfl⟩
    have hle₃ : ∀ k, 0 < rc s k → 0 < rc t₃ k := fun k hk => by rw [r₃]; exact le_plus _ ip hk
    have hheld₃ : NoOrphans (rc t₃) t₃ := by
      intro j h1 h2
      rw [hnode₃] at h1 h2
      rcases eq_or_ne j (t.itable ip).inum with rfl | hj
      · exact ⟨ip, by rw [r₃]; exact plus_pos _ ip, hinum₃⟩
      · rw [update_of_ne hj] at h1 h2
        obtain ⟨k, hk, hkj⟩ := hheld j h1 h2
        exact ⟨k, hle₃ k hk, (g₃.held k hk).inum.trans hkj⟩
    have hstart : start t₃ cwd new = start s cwd new := by
      rw [start, start, (g₃.held cwd hcwd).inum]
    refine ((namex_resolve new true g₃.ok hheld₃ (hle₃ cwd hcwd)).weaken fun e he hc => ?_).bind
      ?_
    · rcases he with he | he
      · rw [hstart] at he
        refine hc.not_lost (p := ip) (hc.start hcwd new) (fun k hk hpos => ?_) (halike.lost he)
        rwa [r₃, plus, if_neg hk, Nat.add_zero] at hpos
      · exact he.2 fun k => by rw [hl₃]; exact hc.unlocked k
    rintro r t₄ ⟨v₄, r₄, l₄, hr⟩
    rw [hstart, halike.resolve] at hr
    rw [r₃] at r₄
    have g₄ : Go True none (rc s) s t₄ := g₃.trans (v₄.go.mono hle₃)
    have hl₄ : locks t₄ = locks s := l₄.trans hl₃
    have hinum₄ : (t₄.itable ip).inum = (t.itable ip).inum :=
      (v₄.go.held ip (by rw [r₃]; exact plus_pos _ ip)).inum.trans hinum₃
    have hnode₄ : node t₄ = update (node s) (t₄.itable ip).inum (linked (node s (t₄.itable ip).inum)) := by
      rw [v₄.quiet.node, hinum₄, hnode₃]
    have hip₄ : 0 < rc t₄ ip → Ready t₄ ip :=
      v₄.go.ready (h₃.ready) (by rw [r₃]; exact plus_pos _ ip)
    cases r with
    | none =>
      have r₄ : rc t₄ = plus (rc s) ip := r₄
      have hundo := linkUndo_effect g₄.ok r₄ (hip₄ (by rw [r₄]; exact plus_pos _ ip)) hheld
        (fun k hk => (g₄.held k hk).inum) (node_nlink_lt h.wf _) hnode₄
      refine (hundo.weaken fun e he hc => ?_).mono ?_
      · rw [hl₄, hc.unlocked] at he
        cases he
      · rintro r u ⟨hr', hn, hgo, hrc', hl'⟩
        refine ⟨g₄.trans hgo, hrc', hl'.trans hl₄, .inl ⟨hr', hn, fun i d name hp => ?_⟩⟩
        rw [hp.parent] at hr
        cases hr
    | some r =>
      obtain ⟨dp, name⟩ := r
      obtain ⟨d, hd, he⟩ := Option.map_eq_some_iff.mp hr.symm
      obtain ⟨rfl, rfl⟩ := Prod.mk.inj he
      have r₄ : rc t₄ = plus (plus (rc s) ip) dp := r₄
      have hentry := linkEntry_effect h.wf hheld g₄.ok r₄ (hip₄ (by rw [r₄]; exact le_plus _ dp (plus_pos _ ip)))
        (g₄.ok.named trivial ip (by rw [r₄]; exact le_plus _ dp (plus_pos _ ip))) g₄.sb (fun k hk => (g₄.held k hk).inum)
        hnode₄ (by rw [hinum₄]; exact hfile) (resolve_parent.mp hd).2.2 ((elems new).getLastD .none)
      rw [show (t₁.itable ip).inum = (t₄.itable ip).inum by rw [h₁.inum, hinum₄]]
      refine (hentry.weaken fun e he hc => ?_).mono ?_
      · rcases he with ⟨k, hk⟩ | hfull
        · rw [hl₄, hc.unlocked] at hk
          cases hk
        · obtain ⟨k, h1, h2, h3⟩ := hc.room ip dp
          have h4 : rc t₄ k = rc s k := by
            rw [r₄]
            simp [plus, h1, h2]
          have := hfull k
          omega
      · rintro r u ⟨hgo, hrc', hl', hr'⟩
        refine ⟨g₄.trans hgo, hrc', hl'.trans hl₄, ?_⟩
        rcases hr' with ⟨rfl, hn, hwhy⟩ | ⟨rfl, hlook, k, hk, hempty, hn⟩
        · refine .inl ⟨rfl, hn, fun i d name hp => ?_⟩
          have h1 := hp.parent
          have h2 := hp.absent
          rw [hd] at h1
          cases h1
          rw [← hp.last] at h2
          exact hwhy h2
        · rw [hinum₄] at hn
          refine .inr ⟨rfl, (t.itable ip).inum, (t₄.itable dp).inum, (elems new).getLastD .none, k, ?_⟩
          have hlt : (t.itable ip).inum < 2 ^ 16 := by
            have h1 := hv.go.ok.wf.inum_lt ip hpos
            have h2 := t.sb.ninodes_le
            omega
          exact ⟨⟨hwalk, hfile, hd, rfl, hlook⟩, hlt, hk, hempty, hn⟩

/-! ### `unlink` -/

/-- The inodes without entry `k` of directory `d`, which names `i`. -/
def cleared (N : ℕ → Node) (d k i : ℕ) : ℕ → Node :=
  update (update N d ((if (N i).type = T_DIR then unlinked (N d) else N d).setDirent k .zero)) i (unlinked (N i))

/-- What `unlink` found at entry `k` of directory `d`. -/
structure Removable (N : ℕ → Node) (d k i : ℕ) : Prop where
  ne : i ≠ d
  nlink : 1 ≤ (N i).nlink ∧ (N i).nlink < 2 ^ 15
  empty : (N i).type = T_DIR → ∀ j, 2 ≤ j → (N i).Has j → ((N i).dirent j).inum = 0

theorem dirfull_effect (h : Ok True none s) (hp : Ready s ip) : wp (dirfull ip) (fun r t => t = s ∧
    (r = false → (node s (s.itable ip).inum).type = T_DIR → ∀ j, 2 ≤ j → (node s (s.itable ip).inum).Has j →
      ((node s (s.itable ip).inum).dirent j).inum = 0)) (fun _ => False) s := by
  rw [dirfull, wp_bind, wp_inode, hp.node_type h.wf]
  refine wp_ite.mpr ⟨fun hdir => ?_, fun hdir => ⟨rfl, fun _ hd => absurd hd hdir⟩⟩
  have hwhole := (h.dirs _ hdir).whole trivial
  refine ((isdirempty_spec h.wf hp).weaken fun e he => he.2 hwhole).bind fun r t ht => ⟨ht.1, fun hr _ => ?_⟩
  exact ht.2.mp (by simpa using hr)

/-- UNLINK, from where the entry is found: it is cleared and a link is gone, or nothing. -/
theorem unlinkEntry_effect (h : Ok True none s) (href : rc s = plus (plus H dp) ip) (hheld : NoOrphans H s) (hdp : Ready s dp)
    (hip : Ready s ip) (hne : ip ≠ dp) (hld : locks s dp = true) (hli : locks s ip = true)
    (hdir : (node s (s.itable dp).inum).type = T_DIR) (hhas : (node s (s.itable dp).inum).Has k) (hk : k ≠ 0 ∧ k ≠ 1) :
    wp (unlinkEntry dp ip (DESIZE * k)) (fun r t => Go True none H s t ∧ rc t = H ∧ NoOrphans H t ∧
      (1 ≤ (node s (s.itable ip).inum).nlink ∧ (node s (s.itable ip).inum).nlink < 2 ^ 15) ∧
      (r = -1 ∧ node t = node s ∨ r = 0 ∧ Removable (node s) (s.itable dp).inum k (s.itable ip).inum ∧
        Frees (cleared (node s) (s.itable dp).inum k (s.itable ip).inum) (node t)))
      (fun e => e = .unlinkNlink ∧ ((node s (s.itable ip).inum).nlink < 1 ∨ 2 ^ 15 ≤ (node s (s.itable ip).inum).nlink)) s := by
  have hdp0 : 0 < plus H dp dp := plus_pos H dp
  have hip0 : 0 < plus H ip ip := plus_pos H ip
  have hle : ∀ (j : IPtr) k, 0 < H k → 0 < plus H j k := fun j k => le_plus H j
  have hd : (s.itable ip).d.nlink = (node s (s.itable ip).inum).nlink := by rw [hip.node h.wf]
  have hi : (s.itable ip).inum ≠ (s.itable dp).inum := fun he => hne (h.wf.uniq ip dp hip.ref hdp.ref he)
  rw [unlinkEntry, wp_bind, wp_inode]
  refine wp_ite.mpr ⟨fun hbad => ⟨rfl, by rw [← hd]; exact hbad⟩, fun hgood => ?_⟩
  rw [hd, not_or, Nat.not_lt, Nat.not_le] at hgood
  refine ((dirfull_effect h hip).total).bind ?_
  rintro full t ⟨ht, hempty⟩
  subst t
  refine wp_ite.mpr ⟨fun _ => ?_, fun hfull => ?_⟩
  · refine ((iunlockput_visit h href hip hli (hheld.mono (hle dp))).total).bind ?_
    rintro _ t ⟨v₁, r₁, l₁⟩
    have hdp₁ : Ready t dp := v₁.go.ready hdp hdp0 (by rw [r₁]; exact hdp0)
    have hheld₁ : NoOrphans H t := (v₁.mono (hle dp)).held hheld
    refine ((iunlockput_visit v₁.go.ok r₁ hdp₁ (by rw [l₁, update_of_ne hne.symm]; exact hld) hheld₁).total).bind
      ?_
    rintro _ u ⟨v₂, r₂, _⟩
    have v := (v₁.mono (hle dp)).trans v₂
    exact ⟨v.go, r₂, v.held hheld, hgood, .inl ⟨rfl, v.quiet.node⟩⟩
  have hempty := hempty ((Bool.not_eq_true _).mp hfull)
  -- the directory has been written; now the references go, and the link
  have hend : ∀ t, Go True none (plus (plus H dp) ip) s t → rc t = rc s → locks t = locks s →
      node t = update (node s) (s.itable dp).inum
        ((if (node s (s.itable ip).inum).type = T_DIR then unlinked (node s (s.itable dp).inum)
          else node s (s.itable dp).inum).setDirent k .zero) →
      wp (do iunlockput dp; setD ip .unlink; iupdate ip; iunlockput ip; return 0 : M ℤ)
        (fun r t => Go True none H s t ∧ rc t = H ∧ NoOrphans H t ∧
          (1 ≤ (node s (s.itable ip).inum).nlink ∧ (node s (s.itable ip).inum).nlink < 2 ^ 15) ∧
          (r = -1 ∧ node t = node s ∨ r = 0 ∧ Removable (node s) (s.itable dp).inum k (s.itable ip).inum ∧
            Frees (cleared (node s) (s.itable dp).inum k (s.itable ip).inum) (node t)))
        (fun e => e = .unlinkNlink ∧
          ((node s (s.itable ip).inum).nlink < 1 ∨ 2 ^ 15 ≤ (node s (s.itable ip).inum).nlink)) t := by
    intro t hgo hrc hl hnode
    rw [href, plus_comm] at hrc
    rw [plus_comm] at hgo
    have hdp' : Ready t dp := hgo.ready hdp (plus_pos _ dp) (by rw [hrc]; exact plus_pos _ dp)
    have hip' : Ready t ip := hgo.ready hip (le_plus _ dp hip0) (by rw [hrc]; exact le_plus _ dp hip0)
    have hinum : ∀ k, 0 < plus (plus H ip) dp k → (t.itable k).inum = (s.itable k).inum := fun k hk => (hgo.held k hk).inum
    have hheld' : NoOrphans (plus (plus H ip) dp) t := by
      intro j h1 h2
      rw [hnode] at h1 h2
      rcases eq_or_ne j (s.itable dp).inum with rfl | hj
      · exact ⟨dp, plus_pos _ dp, hinum dp (plus_pos _ dp)⟩
      · rw [update_of_ne hj] at h1 h2
        obtain ⟨k, hk, hkj⟩ := hheld j h1 h2
        have hk' := le_plus (plus H ip) dp (hle ip k hk)
        exact ⟨k, hk', (hinum k hk').trans hkj⟩
    refine ((iunlockput_frees hgo.ok hrc hdp' (by rw [hl]; exact hld) hheld').total).bind ?_
    rintro _ t₁ ⟨g₁, r₁, hheld₁, f₁, l₁⟩
    have hip₁ : Ready t₁ ip := g₁.ready hip' hip0 (by rw [r₁]; exact hip0)
    have hinum₁ : (t₁.itable ip).inum = (s.itable ip).inum :=
      (g₁.held ip hip0).inum.trans (hinum ip (le_plus _ dp hip0))
    refine setFields_visit tame_unlink g₁.ok.wf hip₁ fun t₂ h₂ l₂ => ?_
    have h₂ := did_unlink g₁.ok.wf hip₁ h₂
    have g₂ : Go True none H t₁ t₂ := fields_go g₁.ok h₂
    have htype₁ : (node t₁ (t₁.itable ip).inum).type ≠ 0 := by rw [node_type]; exact hip₁.type g₁.ok.wf
    have hlocked : locks t₂ ip = true := by rw [l₂, l₁, update_of_ne hne, hl]; exact hli
    refine ((iunlockput_frees g₂.ok (h₂.ref.trans r₁) (h₂.ready hip₁) hlocked
      (h₂.held hheld₁ htype₁ fun _ => .inl hip0)).total).bind ?_
    rintro _ t₃ ⟨g₃, r₃, hheld₃, f₃, _⟩
    have hself : node t₁ (s.itable ip).inum = node s (s.itable ip).inum := by
      rw [hinum₁] at htype₁
      rw [f₁.kept htype₁, hnode, update_of_ne hi]
    refine ⟨?_, r₃, hheld₃, hgood, .inr ⟨rfl, ⟨hi, hgood, hempty⟩, ?_⟩⟩
    · exact (((hgo.mono fun k hk => le_plus _ dp (hle ip k hk)).trans (g₁.mono (hle ip))).trans g₂).trans g₃
    · refine Frees.trans (fun j => ?_) f₃
      rw [h₂.node, hinum₁, hself, cleared]
      rcases eq_or_ne j (s.itable ip).inum with rfl | hj
      · rw [update_self, update_self]
        exact .inl rfl
      · rw [update_of_ne hj, update_of_ne hj, ← hnode]
        exact f₁ j
  have hwrite : wp (writeDirent dp (DESIZE * k) .zero) (fun r t => r = DESIZE ∧
      Did dp s ((node s (s.itable dp).inum).setDirent k .zero) t ∧ locks t = locks s) (fun _ => False) s :=
    ((writeDirent_spec h.wf hdp (Nat.le_of_add_right_le hhas)).and
      (keeps_writei allows_locks (fun _ _ _ => rfl) dp _ _ _ s)).mono fun r t ht => by
        rcases ht.1 with ⟨hr, hdid⟩ | ⟨-, hno, -⟩
        · exact ⟨hr, hdid, ht.2⟩
        · exact absurd hhas hno
  refine hwrite.total.bind ?_
  rintro r t ⟨hr, hdid, hl⟩
  rw [if_neg (not_not.mpr hr)]
  have hgo : Go True none (plus (plus H dp) ip) s t := cleared_go h hdir hhas (fun _ => hk) hdid
  rw [hip.node_type h.wf]
  refine wp_ite.mpr ⟨fun hd => ?_, fun hd => ?_⟩
  · refine setFields_visit tame_unlink hdid.wf (hdid.ready hdp) fun u hu lu => ?_
    have hu := did_unlink hdid.wf (hdid.ready hdp) hu
    refine hend u (hgo.trans (fields_go hgo.ok hu)) (hu.ref.trans hdid.ref) (lu.trans hl) ?_
    rw [hu.node, hdid.inum, hdid.node, update_self, update_idem, if_pos hd, unlinked_setDirent]
  · refine hend t hgo hdid.ref hl ?_
    rw [hdid.node, if_neg hd]

/-- An entry, other than the first two, of a directory. -/
structure Entry (N : ℕ → Node) (d k i : ℕ) : Prop where
  dir : (N d).type = T_DIR
  ge : 2 ≤ k
  has : (N d).Has k
  inum : ((N d).dirent k).inum = i
  live : i ≠ 0

/-- What `unlink` is asked to do: remove the entry for inode `i` in directory `d`. -/
structure UnlinkPlan (s : FS) (cwd : IPtr) (path : Str) (i d : ℕ) (name : Name) : Prop where
  parent : resolve s true (start s cwd path) (elems path) = some d
  last : (elems path).getLastD .none = name
  proper : ¬ (name = .dot ∨ name = .dotdot)
  found : (node s d).lookup name = i
  live : i ≠ 0
  ne : i ≠ d

/-- The link count of every inode that is to lose an entry is all right. -/
def Countable (s : FS) (cwd : IPtr) (path : Str) : Prop := ∀ i d name, UnlinkPlan s cwd path i d name →
  1 ≤ (node s i).nlink ∧ (node s i).nlink < 2 ^ 15

/-- The panic over a link count: some entry has an inode with a bad one; and if nothing else is in the way of removing
    the entry, it is this panic. -/
def Miscounted (s : FS) (cwd : IPtr) (path : Str) (e : Panic) : Prop :=
  (e = .unlinkNlink → ∃ d k i, Entry (node s) d k i ∧ ((node s i).nlink < 1 ∨ 2 ^ 15 ≤ (node s i).nlink)) ∧
  (Calm s → ∀ i d name, UnlinkPlan s cwd path i d name → e = .unlinkNlink)

/-- Another panic, which does not happen in a calm state. -/
theorem Miscounted.other {path : Str} {e : Panic} (he : e ≠ .unlinkNlink)
    (hc : Calm s → ∀ i d name, ¬ UnlinkPlan s cwd path i d name) : Miscounted s cwd path e :=
  ⟨fun h => absurd h he, fun h i d name hp => absurd hp (hc h i d name)⟩

/-- UNLINK: an entry cleared and a link less, or nothing. -/
theorem unlink_effect (path : Str) (h : Ok True none s) (hheld : NoOrphans (rc s) s) (hcwd : 0 < rc s cwd) :
    wp (unlink cwd path) (fun r t => Go True none (rc s) s t ∧ rc t = rc s ∧ NoOrphans (rc s) t ∧ Countable s cwd path ∧
      (r = -1 ∧ node t = node s ∨ r = 0 ∧ ∃ d k i, Entry (node s) d k i ∧ Removable (node s) d k i ∧
        Frees (cleared (node s) d k i) (node t))) (Miscounted s cwd path) s := by
  refine ((namex_resolve path true h hheld hcwd).weaken fun e he => ?_).bind ?_
  · refine .other (by rintro rfl; rcases he with (he | he) | he <;> cases he.1) fun hc i d name _ => ?_
    rcases he with he | he
    · exact hc.not_lost (p := cwd) (hc.start hcwd path) (fun _ _ => id) he
    · exact he.2 hc.unlocked
  rintro r t ⟨hv, hrc, hl, hr⟩
  cases r with
  | none =>
    refine ⟨hv.go, hrc, hv.held hheld, fun i d name hp => ?_, .inl ⟨rfl, hv.quiet.node⟩⟩
    rw [hp.parent] at hr
    cases hr
  | some r =>
    obtain ⟨dp, name⟩ := r
    have hrc : rc t = plus (rc s) dp := hrc
    have hpos : 0 < rc t dp := by rw [hrc]; exact plus_pos _ dp
    obtain ⟨d, hd, he⟩ := Option.map_eq_some_iff.mp hr.symm
    obtain ⟨rfl, hlast⟩ := Prod.mk.inj he
    have hdir := (resolve_parent.mp hd).2.2
    -- the plan, if there is one, is about this directory and this name
    have hplan : ∀ {i d' name'}, UnlinkPlan s cwd path i d' name' → d' = (t.itable dp).inum ∧ name' = name := fun hp =>
      ⟨Option.some.inj (hp.parent.symm.trans hd), hp.last.symm.trans hlast⟩
    refine ((ilock_visit hv.go.ok hpos).weaken fun e he => ?_).bind ?_
    · refine .other (by rintro rfl; rcases he with he | he <;> cases he.1) fun hc i d' name' _ => ?_
      rcases he with he | he
      · rw [hl, hc.unlocked dp] at he
        exact Bool.false_ne_true he.2
      · rw [hv.quiet.node, hdir] at he
        exact absurd he.2 (by decide)
    rintro _ t₁ ⟨h₁, hfree, l₁⟩
    have v₁ : Visit (rc s) s t₁ := hv.trans (h₁.visit hv.go.ok)
    have r₁ : rc t₁ = plus (rc s) dp := h₁.ref.trans hrc
    have hnode₁ : node t₁ (t₁.itable dp).inum = node s (t.itable dp).inum := by
      rw [h₁.inum, h₁.quiet.node, hv.quiet.node]
    have hlocked : locks t₁ dp = true := by rw [l₁, update_self]
    have hdrop := (iunlockput_visit v₁.go.ok r₁ h₁.ready hlocked (v₁.held hheld)).total (E := Miscounted s cwd path)
    refine wp_ite.mpr ⟨fun hdots => ?_, fun hname => ?_⟩
    · refine hdrop.bind ?_
      rintro _ u ⟨hu, hru, _⟩
      refine ⟨v₁.go.trans hu.go, hru, hu.held (v₁.held hheld), fun i d' name' hp => ?_, .inl ⟨rfl, (v₁.trans hu).quiet.node⟩⟩
      obtain ⟨-, rfl⟩ := hplan hp
      exact absurd hdots hp.proper
    refine ((dirlookup_visit v₁.go.ok h₁.ready (by rw [hnode₁]; exact hdir) name).weaken fun e he => ?_).bind
      ?_
    · refine .other (by rintro rfl; cases he.1) fun hc i d' name' _ => ?_
      obtain ⟨k, h1, -, h3⟩ := hc.room dp dp
      have hk := he.2 k
      rw [r₁, plus, if_neg h1] at hk
      omega
    rintro r t₂ ⟨l₂, h₂⟩
    rw [hnode₁] at h₂
    rcases h₂ with ⟨rfl, rfl, hnone⟩ | ⟨ip, k, rfl, hhas, hnamed, hne0, hgot⟩
    · refine hdrop.bind ?_
      rintro _ u ⟨hu, hru, _⟩
      refine ⟨v₁.go.trans hu.go, hru, hu.held (v₁.held hheld), fun i d' name' hp => ?_, .inl ⟨rfl, (v₁.trans hu).quiet.node⟩⟩
      obtain ⟨rfl, rfl⟩ := hplan hp
      exact absurd (hp.found.symm.trans hnone) hp.live
    have v₂ : Visit (rc t₁) t₁ t₂ := hgot.visit v₁.go.ok hne0
    have hle₁ : ∀ k, 0 < rc s k → 0 < rc t₁ k := fun k hk => by rw [r₁]; exact le_plus _ dp hk
    have r₂ : rc t₂ = plus (plus (rc s) dp) ip := by rw [hgot.ref, r₁]
    have hlook := (h.dirs _ hdir).lookup_eq hhas hnamed
    have hinum₂ : (t₂.itable ip).inum = ((node s (t.itable dp).inum).dirent k).inum := by rw [hgot.inum, hlook]
    -- the plan, if there is one, is about this inode
    have hplan₂ : ∀ {i d' name'}, UnlinkPlan s cwd path i d' name' → i = (t₂.itable ip).inum := fun hp => by
      obtain ⟨rfl, rfl⟩ := hplan hp
      rw [← hp.found, hlook, hinum₂]
    refine ((ilock_visit v₂.go.ok (by rw [r₂]; exact plus_pos _ ip)).weaken fun e he => ?_).bind
      ?_
    · refine .other (by rintro rfl; rcases he with he | he <;> cases he.1) fun hc i d' name' hp => ?_
      rcases he with he | he
      · have hip : ip ≠ dp := by
          rintro rfl
          refine hp.ne ((hplan₂ hp).trans ?_)
          rw [(hplan hp).1, (v₂.go.held ip h₁.ready.ref).inum, h₁.inum]
        rw [l₂, l₁, update_of_ne hip, hl, hc.unlocked ip] at he
        exact Bool.false_ne_true he.2
      · rw [v₂.quiet.node, v₁.quiet.node, hgot.inum] at he
        exact hc.closed _ hdir name hne0 he.2
    -- an entry of a directory for itself would wait for its own lock
    rintro _ t₃ ⟨h₃, hfree₃, l₃⟩
    have hne : ip ≠ dp := by
      rintro rfl
      rw [l₂, hlocked] at hfree₃
      cases hfree₃
    have v₃ : Visit (rc t₁) t₁ t₃ := v₂.trans (h₃.visit v₂.go.ok)
    have v : Visit (rc s) s t₃ := v₁.trans (v₃.mono hle₁)
    have hdp₃ : Ready t₃ dp := v₃.go.ready h₁.ready h₁.ready.ref (by rw [h₃.ref, r₂]; exact le_plus _ ip (plus_pos _ dp))
    have hinumd : (t₃.itable dp).inum = (t.itable dp).inum := by
      rw [(v₃.go.held dp h₁.ready.ref).inum, h₁.inum]
    have hinumi : (t₃.itable ip).inum = ((node s (t.itable dp).inum).dirent k).inum := by rw [h₃.inum, hinum₂]
    -- the first two entries have other names
    have hk : k ≠ 0 ∧ k ≠ 1 := by
      have hdots := h.dots trivial _ hdir (by simp)
      refine ⟨?_, ?_⟩
      · rintro rfl
        exact hname (.inl (Name.ext_bytes (hnamed.2.symm.trans hdots.dot.2)))
      · rintro rfl
        exact hname (.inr (Name.ext_bytes (hnamed.2.symm.trans hdots.dotdot.2)))
    have hentry : Entry (node s) (t.itable dp).inum k (t₃.itable ip).inum :=
      ⟨hdir, by omega, hhas, hinumi.symm, by rw [hinumi]; exact hnamed.1⟩
    have hun := unlinkEntry_effect v.go.ok (h₃.ref.trans r₂) (v.held hheld) hdp₃ h₃.ready hne
      (by rw [l₃, update_of_ne hne.symm, l₂]; exact hlocked) (by rw [l₃, update_self])
      (by rw [hinumd, v.quiet.node]; exact hdir) (by rw [hinumd, v.quiet.node]; exact hhas) hk
    rw [hinumd, v.quiet.node] at hun
    refine (hun.weaken fun e he => ⟨fun _ => ⟨_, _, _, hentry, he.2⟩, fun _ _ _ _ _ => he.1⟩).mono
      ?_
    rintro r u ⟨hgo, hru, hheldu, hgood, hr⟩
    refine ⟨v.go.trans hgo, hru, hheldu, fun i d' name' hp => ?_, hr.imp_right fun hr => ⟨hr.1, _, _, _, hentry, hr.2⟩⟩
    rwa [hplan₂ hp, ← h₃.inum]

end Minios.Sysfile
