import Minios.Schemes.Words
import Minios.Fs.Held

/-! `kernel/fs.c`: what a path means.

        "//usr/bin/"      elems   usr, bin
        namei             lookup usr in the root, lookup bin in that
        nameiparent       the same without the last one, which is the name

    Resolving a path takes and drops references; as nothing is freed by that, it does not touch the disk at all. -/

namespace Minios.Fs
open Schemes Function

variable {s t u : FS} {ip : IPtr} {H : IPtr → ℕ} {i : ℕ} {name : Name} {names : List Name} {path rest : Str}

/-! ### Path elements -/

/-- The names that `skipelem` delivers, one after the other. -/
def elems (path : Str) : List Name :=
  match h : skipelem path with
  | none => []
  | some (name, rest) =>
    have := skipelem_length h
    name :: elems rest
termination_by path.bytes.length

theorem elems_none (h : skipelem path = none) : elems path = [] := by
  rw [elems]
  split
  · rfl
  · rename_i he; rw [h] at he; cases he

theorem elems_some (h : skipelem path = some (name, rest)) : elems path = name :: elems rest := by
  rw [elems]
  split
  · rename_i he; rw [h] at he; cases he
  · rename_i he; rw [h] at he; cases he; rfl

theorem skipelem_none : skipelem path = none ↔ path.bytes.dropWhile (· = SLASH) = [] := by
  rw [skipelem]
  refine ite_eq_left_iff.trans ⟨fun h => not_not.mp fun hne => ?_, fun h hne => absurd h hne⟩
  cases h hne

theorem skipelem_some (h : skipelem path = some (name, rest)) : ∃ c cs, c ≠ SLASH ∧
    path.bytes.dropWhile (· = SLASH) = c :: cs ∧ name.bytes = ((c :: cs).takeWhile (· ≠ SLASH)).take DIRSIZ ∧
    rest.bytes = ((c :: cs).dropWhile (· ≠ SLASH)).dropWhile (· = SLASH) := by
  rw [skipelem] at h
  split at h
  · cases h
  · rename_i hne
    obtain ⟨rfl, rfl⟩ := Prod.mk.inj (Option.some.inj h)
    obtain ⟨c, cs, hs⟩ := List.exists_cons_of_ne_nil hne
    have hc := List.head_dropWhile_not (fun x => decide (x = SLASH)) hne
    refine ⟨c, cs, by simpa [hs] using hc, hs, ?_⟩
    rw [← hs]
    exact ⟨rfl, rfl⟩

/-- What is left of a path has no slash in front: it is empty if no element is left. -/
theorem skipelem_last (h : skipelem path = some (name, rest)) : rest.bytes = [] ↔ elems rest = [] := by
  obtain ⟨c, cs, -, -, -, hrest⟩ := skipelem_some h
  have hfix : rest.bytes.dropWhile (· = SLASH) = rest.bytes := by rw [hrest, List.dropWhile_idempotent]
  cases hr : skipelem rest with
  | none => exact iff_of_true (hfix.symm.trans (skipelem_none.mp hr)) (elems_none hr)
  | some r =>
    refine iff_of_false (fun h0 => ?_) (by rw [elems_some hr]; exact List.cons_ne_nil _ _)
    rw [skipelem_none.mpr (by rw [h0]; rfl)] at hr
    cases hr

/-- `skipelem` delivers the words between slashes, cut to DIRSIZ bytes. -/
theorem elems_words (path : Str) :
    (elems path).map (·.bytes) = (words (· = SLASH) path.bytes).map (·.take DIRSIZ) := by
  rw [← words_dropWhile]
  cases h : skipelem path with
  | none => rw [elems_none h, skipelem_none.mp h, words_nil]; rfl
  | some r =>
    obtain ⟨name, rest⟩ := r
    obtain ⟨c, cs, hc, hs, hname, hrest⟩ := skipelem_some h
    have hlt := skipelem_length h
    have hnot : (fun a : UInt8 => !decide (a = SLASH)) = fun a => decide (a ≠ SLASH) := by funext a; simp
    rw [elems_some h, hs, words_cons (by simpa using hc), hnot, List.map_cons, List.map_cons, hname, elems_words rest,
      hrest, words_dropWhile]
termination_by path.bytes.length

/-! ### Path resolution -/

/-- Look up a name in inode `i`, which must be a directory. -/
def lookupIn (s : FS) (i : ℕ) (name : Name) : Option ℕ :=
  if (node s i).type = T_DIR ∧ (node s i).lookup name ≠ 0 then some ((node s i).lookup name) else none

/-- Look up one name after the other. -/
def walk (s : FS) (i : ℕ) (names : List Name) : Option ℕ := names.foldlM (lookupIn s) i

/-- What `namex` finds: the inode, or that of the last directory. -/
def resolve (s : FS) : Bool → ℕ → List Name → Option ℕ
  | false, i, names => walk s i names
  | true, _, [] => none
  | true, i, name :: names => (walk s i (name :: names).dropLast).filter fun j => (node s j).type = T_DIR

/-- How a lookup may end in a panic: the inode table has one free entry at most, or there is no inode on the way. -/
def Lost (H : IPtr → ℕ) (s : FS) (i : ℕ) (names : List Name) (e : Panic) : Prop :=
  e = .igetNoInodes ∧ (∃ j, ∀ k, k ≠ j → 0 < H k) ∨
  e = .ilockNoType ∧ ∃ before name after j, names = before ++ name :: after ∧ walk s i before = some j ∧ (node s j).type = 0

/-- The same inodes with the same entries. -/
def Alike (s t : FS) : Prop := ∀ i, (node t i).type = (node s i).type ∧ (node t i).lookup = (node s i).lookup

theorem Quiet.alike (h : Quiet s t) : Alike s t := fun i => by rw [h.node]; exact ⟨rfl, rfl⟩

theorem Alike.lookupIn (h : Alike s t) : lookupIn t = lookupIn s := by
  funext i name
  rw [Fs.lookupIn, Fs.lookupIn, (h i).1, (h i).2]

theorem Alike.walk (h : Alike s t) : walk t = walk s := by
  funext i names
  rw [Fs.walk, Fs.walk, h.lookupIn]

theorem Alike.resolve (h : Alike s t) : resolve t = resolve s := by
  funext b i names
  cases b with
  | false => rw [Fs.resolve, Fs.resolve, h.walk]
  | true =>
    cases names with
    | nil => rfl
    | cons name names => simp only [Fs.resolve, h.walk, fun i => (h i).1]

theorem Alike.lost {e : Panic} (h : Alike s t) (he : Lost H t i names e) : Lost H s i names e := by
  simp only [Lost, h.walk, fun i => (h i).1] at he ⊢
  exact he

theorem lookupIn_dir (hdir : (node s i).type = T_DIR) (hne : (node s i).lookup name ≠ 0) :
    lookupIn s i name = some ((node s i).lookup name) := if_pos ⟨hdir, hne⟩

theorem resolve_next (b : Bool) (hlast : ¬ (b = true ∧ names = [])) :
    resolve s b i (name :: names) = (lookupIn s i name).bind fun j => resolve s b j names := by
  cases b with
  | false => rfl
  | true =>
    cases names with
    | nil => exact absurd ⟨rfl, rfl⟩ hlast
    | cons name' names =>
      rw [resolve, List.dropLast_cons_cons, walk, List.foldlM_cons]
      cases lookupIn s i name <;> rfl

theorem resolve_last (name : Name) : resolve s true i [name] = if (node s i).type = T_DIR then some i else none := by
  rw [resolve]
  show (some i).filter _ = _
  rw [Option.filter_some]
  simp only [decide_eq_true_eq]

theorem resolve_parent {j : ℕ} : resolve s true i names = some j ↔
    names ≠ [] ∧ walk s i names.dropLast = some j ∧ (node s j).type = T_DIR := by
  cases names with
  | nil => exact iff_of_false nofun fun h => h.1 rfl
  | cons name names =>
    rw [resolve, Option.filter_eq_some_iff, decide_eq_true_eq]
    exact (and_iff_right (List.cons_ne_nil _ _)).symm

theorem resolve_not_dir (b : Bool) (hdir : (node s i).type ≠ T_DIR) : resolve s b i (name :: names) = none := by
  by_cases hlast : b = true ∧ names = []
  · obtain ⟨rfl, rfl⟩ := hlast
    rw [resolve_last, if_neg hdir]
  · rw [resolve_next b hlast, lookupIn, if_neg fun h => hdir h.1]
    rfl

theorem Lost.next {e : Panic} (hdir : (node s i).type = T_DIR) (hne : (node s i).lookup name ≠ 0)
    (h : Lost H s ((node s i).lookup name) names e) : Lost H s i (name :: names) e := by
  rcases h with h | ⟨he, before, name', after, j, rfl, hj, h0⟩
  · exact .inl h
  · refine .inr ⟨he, name :: before, name', after, j, rfl, ?_, h0⟩
    rw [walk, List.foldlM_cons, lookupIn_dir hdir hne]
    exact hj

theorem dirlookup_visit (h : Ok True none s) (hp : Ready s ip) (hdir : (node s (s.itable ip).inum).type = T_DIR)
    (name : Name) : wp (dirlookup ip name) (fun r t => locks t = locks s ∧
      (r = none ∧ t = s ∧ (node s (s.itable ip).inum).lookup name = 0 ∨
        ∃ next k, r = some (next, DESIZE * k) ∧ (node s (s.itable ip).inum).Has k ∧
          ((node s (s.itable ip).inum).dirent k).Named name ∧ (node s (s.itable ip).inum).lookup name ≠ 0 ∧
          Got s ((node s (s.itable ip).inum).lookup name) next t))
      (fun e => e = .igetNoInodes ∧ ∀ k, 0 < rc s k) s := by
  have hd := h.dirs _ hdir
  refine (wp.and ?_ (dirlookup_locks ip name s)).mono fun r t ht => ⟨ht.2, ht.1⟩
  refine dirlookup_first h.wf hp hdir (fun hr => absurd (hd.whole trivial) hr)
    (fun hno => .inl ⟨rfl, rfl, lookup_eq_zero.mpr hno⟩) fun k hk hname _ => ?_
  have hlook := hd.lookup_eq hk hname
  refine (((iget_spec h.wf (hd.inums k hk)).both (iget_any s _)).weaken fun e he => ⟨he.1, fun j => (he.2.2 j).1⟩).mono
    fun next t ht => .inr ⟨next, k, rfl, hk, hname, ?_, ?_⟩
  · rw [hlook]; exact hname.1
  · rw [hlook]; exact ht.1

theorem relock {f : IPtr → Bool} (h : f ip = false) : update (update f ip true) ip false = f := by
  rw [update_idem, ← h, update_eq_self]

/-- RESOLVE: the loop finds what looking up the names finds. -/
theorem namexLoop_resolve (b : Bool) : ∀ rounds ip name path (s : FS), Ok True none s → rc s = plus H ip →
    NoOrphans H s → path.bytes.length < rounds → wp (namexLoop b rounds ip name path) (fun r t => Visit H s t ∧
      rc t = more H (r.map Prod.fst) ∧ locks t = locks s ∧ r.map (fun x => ((t.itable x.1).inum, x.2)) =
        (resolve s b (s.itable ip).inum (elems path)).map fun j => (j, (elems path).getLastD name))
      (fun e => Lost H s (s.itable ip).inum (elems path) e ∨ e = .blocked ∧ ¬ Unlocked s) s
  | 0, _, _, _, _, _, _, _, hlt => absurd hlt (Nat.not_lt_zero _)
  | rounds + 1, ip, name, path, s, h, href, hheld, hlt => by
      have hpos : 0 < rc s ip := by rw [href]; exact plus_pos H ip
      have hle : ∀ k, 0 < H k → 0 < rc s k := fun k hk => by rw [href]; exact le_plus H ip hk
      have hwait : locks s ip = true → ¬ Unlocked s := fun hl hun => Bool.false_ne_true ((hun ip).symm.trans hl)
      rw [namexLoop]
      split
      · rename_i helem
        rw [elems_none helem]
        refine wp_ite.mpr ⟨fun hb => ?_, fun hb => ?_⟩
        · subst hb
          refine ((iput_visit h href hheld).weaken fun e he => .inr ⟨he.1, hwait he.2⟩).bind ?_
          rintro _ t ⟨hv, hrc, hl⟩
          exact ⟨hv, hrc, hl, rfl⟩
        · obtain rfl : b = false := by simpa using hb
          exact ⟨.refl h, href, rfl, rfl⟩
      · rename_i name' path' helem
        rw [elems_some helem]
        refine ((ilock_visit h hpos).weaken fun e he => ?_).bind ?_
        · rcases he with he | he
          · exact .inr ⟨he.1, hwait he.2⟩
          · exact .inl (.inr ⟨he.1, [], name', elems path', _, rfl, rfl, he.2⟩)
        rintro _ t ⟨ht, hfree, hl⟩
        have hv : Visit (rc s) s t := ht.visit h
        have hnode : node t (t.itable ip).inum = node s (s.itable ip).inum := by rw [ht.inum, ht.quiet.node]
        have hself : locks t ip = true := by rw [hl, update_self]
        have hback : update (locks t) ip false = locks s := by rw [hl]; exact relock hfree
        have hdrop := (iunlockput_visit hv.go.ok (ht.ref.trans href) ht.ready hself ((hv.mono hle).held hheld)).total
          (E := fun e => Lost H s (s.itable ip).inum (name' :: elems path') e ∨ e = .blocked ∧ ¬ Unlocked s)
        rw [wp_bind, wp_inode, ht.ready.node_type ht.wf, hnode]
        split
        · rename_i hdir
          refine hdrop.bind ?_
          rintro _ u ⟨hv', hrc, hl'⟩
          refine ⟨(hv.mono hle).trans hv', hrc, hl'.trans hback, ?_⟩
          rw [resolve_not_dir b hdir]
          rfl
        rename_i hdir
        have hdir := not_not.mp hdir
        split
        · rename_i hlast
          obtain ⟨rfl, hempty⟩ := hlast
          rw [(skipelem_last helem).mp hempty]
          refine (iunlock_visit hv.go.ok ht.ready hself).total.bind ?_
          rintro _ u ⟨hu, hl'⟩
          have hv' : Visit (rc s) t u := hu.visit hv.go.ok
          refine ⟨(hv.trans hv').mono hle, (hu.ref.trans ht.ref).trans href, hl'.trans hback, ?_⟩
          rw [resolve_last, if_pos hdir]
          show some ((u.itable ip).inum, name') = some ((s.itable ip).inum, name')
          rw [hu.inum, ht.inum]
        rename_i hlast
        rw [skipelem_last helem] at hlast
        have hcrowd : (∀ k, 0 < rc t k) → ∃ j, ∀ k, k ≠ j → 0 < H k := fun hall => ⟨ip, fun k hk => by
          have := hall k
          rwa [ht.ref, href, plus, if_neg hk] at this⟩
        refine ((dirlookup_visit hv.go.ok ht.ready (by rw [hnode]; exact hdir) name').weaken
          fun e he => .inl (.inl ⟨he.1, hcrowd he.2⟩)).bind ?_
        rintro r u ⟨hlu, hu⟩
        rw [hnode] at hu
        rcases hu with ⟨rfl, rfl, h0⟩ | ⟨next, k, rfl, -, -, hne, hgot⟩
        · refine hdrop.bind ?_
          rintro _ v ⟨hv', hrc, hl'⟩
          refine ⟨(hv.mono hle).trans hv', hrc, hl'.trans hback, ?_⟩
          rw [resolve_next b hlast, lookupIn, if_neg fun hc => hc.2 h0]
          rfl
        · have hvu : Visit (rc s) t u := ht.ref ▸ hgot.visit hv.go.ok hne
          have hboth : rc u = plus (plus H next) ip := by
            rw [hgot.ref, ht.ref, href]
            funext j
            exact Nat.add_right_comm ..
          have hready : Ready u ip := hvu.go.ready ht.ready hpos (by rw [hboth]; exact plus_pos _ ip)
          have hvs : Visit H s u := (hv.trans hvu).mono hle
          refine (iunlockput_visit hvu.go.ok hboth hready (by rw [hlu]; exact hself)
            ((hvs.held hheld).mono fun k => le_plus H next)).total.bind ?_
          rintro _ v ⟨hput, hrc, hl'⟩
          have hvv : Visit H s v := hvs.trans (hput.mono fun k => le_plus H next)
          have hlv : locks v = locks s := by rw [hl', hlu]; exact hback
          have hinum : (v.itable next).inum = (node s (s.itable ip).inum).lookup name' := by
            rw [(hput.go.held next (plus_pos H next)).inum, hgot.inum]
          have hrest := namexLoop_resolve b rounds next name' path' v hvv.go.ok hrc (hvv.held hheld)
            (by have := skipelem_length helem; omega)
          rw [hinum, hvv.quiet.alike.resolve] at hrest
          refine (hrest.weaken fun e he => ?_).mono ?_
          · rcases he with he | ⟨he, hun⟩
            · exact .inl ((hvv.quiet.alike.lost he).next hdir hne)
            · exact .inr ⟨he, fun hs => hun fun k => by rw [hlv]; exact hs k⟩
          · rintro r w ⟨hw, hrc', hl'', hr⟩
            refine ⟨hvv.trans hw, hrc', hl''.trans hlv, ?_⟩
            rw [resolve_next b hlast, lookupIn_dir hdir hne, List.getLastD_cons]
            exact hr

/-- Where resolution starts. -/
def start (s : FS) (cwd : IPtr) (path : Str) : ℕ :=
  if path.bytes.head? = some SLASH then ROOTINO else (s.itable cwd).inum

/-- What `namex` finds from the root or from `cwd`. -/
structure Resolved (s : FS) (b : Bool) (i : ℕ) (names : List Name) (r : Option (IPtr × Name)) (t : FS) : Prop where
  visit : Visit (rc s) s t
  ref : rc t = more (rc s) (r.map Prod.fst)
  locks : locks t = locks s
  result : r.map (fun x => ((t.itable x.1).inum, x.2)) = (resolve s b i names).map fun j => (j, names.getLastD .none)

theorem namex_resolve {cwd : IPtr} (path : Str) (b : Bool) (h : Ok True none s) (hheld : NoOrphans (rc s) s)
    (hcwd : 0 < rc s cwd) : wp (namex cwd path b) (fun r t => Resolved s b (start s cwd path) (elems path) r t)
      (fun e => Lost (rc s) s (start s cwd path) (elems path) e ∨ e = .blocked ∧ ¬ Unlocked s) s := by
  -- the first reference, and then the loop
  have hloop : ∀ ip t, Got s (start s cwd path) ip t → start s cwd path ≠ 0 → locks t = locks s →
      wp (namexLoop b (path.bytes.length + 1) ip .none path)
        (fun r t => Resolved s b (start s cwd path) (elems path) r t)
        (fun e => Lost (rc s) s (start s cwd path) (elems path) e ∨ e = .blocked ∧ ¬ Unlocked s) t := by
    intro ip t hgot hne hl
    have hv : Visit (rc s) s t := hgot.visit h hne
    have hrest := namexLoop_resolve b (path.bytes.length + 1) ip .none path t hv.go.ok hgot.ref (hv.held hheld)
      (Nat.lt_succ_self _)
    rw [hgot.inum, hv.quiet.alike.resolve] at hrest
    refine (hrest.weaken fun e he => ?_).mono fun r u hu => ⟨hv.trans hu.1, hu.2.1, hu.2.2.1.trans hl, hu.2.2.2⟩
    exact he.imp (fun he => hv.quiet.alike.lost he) fun he => ⟨he.1, fun hs => he.2 fun k => by rw [hl]; exact hs k⟩
  rw [namex]
  split
  · rename_i habs
    rw [start, if_pos habs] at hloop ⊢
    have hget := ((iget_spec h.wf s.sb.root).both (iget_any s ROOTINO)).and (iget_locks ROOTINO s)
    refine (hget.weaken fun e he => .inl (.inl ⟨he.1, 0, fun k _ => (he.2.2 k).1⟩)).bind fun ip t ht => ?_
    exact hloop ip t ht.1.1 Nat.one_ne_zero ht.2
  · rename_i hrel
    rw [start, if_neg hrel] at hloop ⊢
    refine ((idup_spec h.wf hcwd).and (idup_locks cwd s)).total.bind ?_
    rintro ip t ⟨⟨hip, ht⟩, hl⟩
    subst hip
    exact hloop ip t ht (h.named trivial ip hcwd) hl

theorem namei_resolve {cwd : IPtr} (path : Str) (h : Ok True none s) (hheld : NoOrphans (rc s) s) (hcwd : 0 < rc s cwd) :
    wp (namei cwd path) (fun r t => Visit (rc s) s t ∧ rc t = more (rc s) r ∧ locks t = locks s ∧
        r.map (fun ip => (t.itable ip).inum) = walk s (start s cwd path) (elems path))
      (fun e => Lost (rc s) s (start s cwd path) (elems path) e ∨ e = .blocked ∧ ¬ Unlocked s) s := by
  refine (namex_resolve path false h hheld hcwd).bind ?_
  rintro r t ⟨hv, hrc, hl, hr⟩
  cases r with
  | none => exact ⟨hv, hrc, hl, (Option.map_eq_none_iff.mp hr.symm).symm⟩
  | some r =>
    obtain ⟨ip, nm⟩ := r
    refine ⟨hv, hrc, hl, ?_⟩
    obtain ⟨j, hj, he⟩ := Option.map_eq_some_iff.mp hr.symm
    rw [show walk s _ _ = _ from hj, (Prod.mk.inj he).1]
    rfl

/-- CORRECT (paths): `skipelem` delivers the words between the slashes, cut to DIRSIZ bytes; `namei` looks them up one
    after the other from where the path starts; `nameiparent` does so without the last one, which is the name, and what
    it finds is a directory. A full inode table and an inode on the way that is not allocated are panics. -/
theorem paths_resolve (cwd : IPtr) (path : Str) (h : Ok True none s) (hun : Unlocked s) (hheld : NoOrphans (rc s) s)
    (hcwd : 0 < rc s cwd) :
    (elems path).map (·.bytes) = (words (· = SLASH) path.bytes).map (·.take DIRSIZ) ∧
    wp (namei cwd path) (fun r t => Visit (rc s) s t ∧ rc t = more (rc s) r ∧
        r.map (fun ip => (t.itable ip).inum) = walk s (start s cwd path) (elems path))
      (Lost (rc s) s (start s cwd path) (elems path)) s ∧
    wp (nameiparent cwd path) (fun r t => Visit (rc s) s t ∧ rc t = more (rc s) (r.map Prod.fst) ∧
        (r = none ↔ elems path = [] ∨ ∀ j, walk s (start s cwd path) (elems path).dropLast = some j →
          (node s j).type ≠ T_DIR) ∧
        ∀ dp name, r = some (dp, name) → (elems path).getLast? = some name ∧
          walk s (start s cwd path) (elems path).dropLast = some (t.itable dp).inum ∧
          (node s (t.itable dp).inum).type = T_DIR)
      (Lost (rc s) s (start s cwd path) (elems path)) s := by
  have hlost : ∀ {e}, Lost (rc s) s (start s cwd path) (elems path) e ∨ e = .blocked ∧ ¬ Unlocked s →
      Lost (rc s) s (start s cwd path) (elems path) e := fun he => he.resolve_right fun hb => hb.2 hun
  refine ⟨elems_words path, ?_, ?_⟩
  · refine ((namei_resolve path h hheld hcwd).weaken fun e => hlost).mono ?_
    rintro r t ⟨hv, hrc, _, hr⟩
    exact ⟨hv, hrc, hr⟩
  · refine ((namex_resolve path true h hheld hcwd).weaken fun e => hlost).mono ?_
    rintro r t ⟨hv, hrc, _, hr⟩
    refine ⟨hv, hrc, ?_, fun dp name he => ?_⟩
    · rw [← Option.map_eq_none_iff, hr, Option.map_eq_none_iff, Option.eq_none_iff_forall_ne_some]
      simp only [ne_eq, resolve_parent, not_and]
      by_cases h0 : elems path = []
      · exact iff_of_true (fun _ h1 => absurd h0 h1) (.inl h0)
      · rw [or_iff_right h0]
        exact forall_congr' fun j => forall_prop_of_true h0
    · subst he
      obtain ⟨j, hj, he⟩ := Option.map_eq_some_iff.mp hr.symm
      obtain ⟨rfl, rfl⟩ := Prod.mk.inj he
      obtain ⟨hne, hwalk, hdir⟩ := resolve_parent.mp hj
      refine ⟨?_, hwalk, hdir⟩
      rw [List.getLastD_eq_getLast?, List.getLast?_eq_some_getLast hne]
      rfl

/-! ### A full inode table -/

/-- The root directory is unlocked; all entries of the inode table are in use. -/
def busy : FS := crowded.setInode 0 ⟨ROOTINO, 1, false, true, rootDinode .std⟩

theorem busy_node : node busy = node crowded := Quiet.node ⟨rfl, rfl, rfl⟩

theorem busy_rc (k : IPtr) : rc busy k = 1 := by
  rw [busy, rc_setInode]
  rcases eq_or_ne k 0 with rfl | hk
  · rw [update_self]
  · rw [update_of_ne hk, rc, show crowded.itable k = _ from if_neg hk]

theorem busy_root (h : (node busy i).type ≠ 0) : i = ROOTINO := by
  by_contra hne
  rw [busy_node, node_type, show dinode crowded = _ from dinode_fresh_root .std blockA,
    dinode_fresh _ Superblock.std_small, update_of_ne hne] at h
  exact h rfl

theorem busy_ok : Ok True none busy := by
  have hdinode : dinode crowded ROOTINO = rootDinode .std := by
    rw [show dinode crowded = _ from dinode_fresh_root .std blockA, dinode_fresh _ Superblock.std_small, update_self]
  have hroot : ∀ {i}, (node busy i).type = T_DIR → i = ROOTINO := fun h => busy_root (by rw [h]; decide)
  refine ⟨?_, fun i hi => ?_, fun _ i hi _ => ?_, fun _ k _ => ?_⟩
  · exact crowded_wf.setInode (fun _ => Nat.one_pos) rfl fun _ _ => ⟨hdinode.symm, by
      rw [show (crowded.itable 0).inum = ROOTINO from rfl, hdinode]; decide⟩
  · obtain rfl := hroot hi
    rw [busy_node]
    exact crowded_dirOk
  · obtain rfl := hroot hi
    rw [busy_node]
    obtain ⟨hsize, -, -, ⟨hinum0, hkey0⟩, ⟨hinum1, hkey1⟩, -⟩ := crowded_node
    refine ⟨?_, hinum0, ⟨?_, hkey0⟩, ⟨?_, hkey1⟩⟩
    · rw [Node.Has, hsize]; decide
    · rw [hinum0]; decide
    · rw [hinum1]; decide
  · rcases eq_or_ne k 0 with rfl | hk
    · exact Nat.one_ne_zero
    · rw [busy, FS.setInode_ne _ hk, show crowded.itable k = _ from if_neg hk]
      show 100 + k.val ≠ 0
      omega

theorem busy_unlocked : Unlocked busy := by
  intro k
  rw [busy, locks_setInode]
  rcases eq_or_ne k 0 with rfl | hk
  · rw [update_self]
  · rw [update_of_ne hk, locks, show crowded.itable k = _ from if_neg hk]

theorem busy_held : NoOrphans (rc busy) busy := by
  intro i hi h0
  obtain rfl := busy_root hi
  have : (node busy ROOTINO).nlink = 1 := by decide +kernel
  omega

/-- The path `/a`. -/
def slashA : Str := ⟨[SLASH, 97], by decide⟩

theorem elems_slashA : elems slashA = [Str.a.cut] := by
  rw [elems_some (show skipelem slashA = some (Str.a.cut, ⟨[], by decide⟩) by decide), elems_none (by decide)]

theorem paths_resolve_busy : (elems slashA).map (·.bytes) = [[97]] := by
  rw [(paths_resolve 0 slashA busy_ok busy_unlocked busy_held (by rw [busy_rc]; decide)).1]
  decide

/-- The path leads to an inode, but `iget` has no place for it. -/
theorem namei_panics : ∃ s cwd path, Ok True none s ∧ Unlocked s ∧ NoOrphans (rc s) s ∧ 0 < rc s cwd ∧
    walk s (start s cwd path) (elems path) = some 2 ∧ namei cwd path s = .error .igetNoInodes := by
  refine ⟨busy, 0, slashA, busy_ok, busy_unlocked, busy_held, by rw [busy_rc]; decide, ?_, ?_⟩
  · rw [elems_slashA]
    decide +kernel
  · have h : (match namei 0 slashA busy with
        | .error e => decide (e = .igetNoInodes)
        | .ok _ => false) = true := by decide +kernel
    split at h
    · rename_i e he
      rw [he, of_decide_eq_true h]
    · cases h

end Minios.Fs
