import Minios.Find.Complete

/-! `user/find.c`: when `find` is exact.

    It prints the names of all entries below a directory that are called `target`, and nothing else, if its descriptors
    are enough for the depth of the tree and `open` takes all the files. At the end its descriptors are closed in any
    case. Fourteen directories, one in the other, are too many for a process with three descriptors in use:

        /  ─▶  //a  ─▶  //a/a  ─▶ ... ─▶  //a/a/a/a/a/a/a/a/a/a/a/a/a     stat: no descriptor left -/

namespace Minios.Find
open Schemes Function Fs

open Sysfile (MAXPATH NOFILE NDEV)

variable {w : World} {target p : Str} {cmd : Option (List Str)} {fds : Fds} {i j k f : ℕ} {n : Name}
  {rel : List Name} {out : List Out}

/-! ### The tree -/

theorem slash_of_below (ht : Tree w) (h : Below w i rel j) (hdir : w.IsDir i) : ∀ n ∈ rel, SLASH ∉ n.bytes := by
  induction h with
  | here hc => exact List.forall_mem_singleton.mpr (ht.named _ _ _ hdir hc).2
  | there hc hk _ ih => exact List.forall_mem_cons.mpr ⟨(ht.named _ _ _ hdir hc).2, ih hk⟩

theorem slash_of_seen (ht : Tree w) : ∀ {rel : List Name} {p : Str} {i : ℕ}, w.namei p = some i → w.IsDir i →
    Seen w p rel → ∀ n ∈ rel, SLASH ∉ n.bytes
  | [], _, _, _, _, h => h.elim
  | n :: rel, p, i, hi, hdir, h => by
      obtain ⟨⟨c, hc⟩, hthru⟩ := (seen_cons hi).mp h
      refine List.forall_mem_cons.mpr ⟨(ht.named i n c hdir hc).2, ?_⟩
      rcases hthru with rfl | ⟨⟨j, hj, hdirj⟩, hseen⟩
      · exact fun m hm => absurd hm List.not_mem_nil
      · exact slash_of_seen ht hj hdirj hseen

/-- All names below a path are short enough. -/
def Short (w : World) (p : Str) (i : ℕ) : Prop := ∀ rel j, Below w i rel j → (full p rel).bytes.length < MAXPATH

theorem Short.sub (h : Short w p i) (hc : w.Child i n k) (hdir : w.IsDir k) : Short w (sub p n) k :=
  fun rel j hb => h (n :: rel) j (.there hc hdir hb)

/-- Going by names is going down the tree, unless the path is empty. -/
theorem seen_iff_below (ht : Tree w) : ∀ {rel : List Name} {p : Str} {i : ℕ}, p.bytes ≠ [] → w.namei p = some i →
    w.IsDir i → Short w p i → (Seen w p rel ↔ ∃ j, Below w i rel j)
  | [], _, _, _, _, _, _ => iff_of_false id nofun
  | n :: rel, p, i, hp, hi, hdir, hshort => by
      have hne : (Find.sub p n).bytes ≠ [] := by simp [Find.sub]
      rw [seen_cons hi]
      constructor
      · rintro ⟨⟨c, hc⟩, hthru⟩
        have hci := namei_child ht hp hi hdir hc (hshort [n] c (.here hc))
        rcases hthru with rfl | ⟨⟨j, hj, hdirj⟩, hseen⟩
        · exact ⟨c, .here hc⟩
        · obtain rfl := Option.some.inj (hj.symm.trans hci)
          obtain ⟨k, hk⟩ := (seen_iff_below ht hne hj hdirj (hshort.sub hc hdirj)).mp hseen
          exact ⟨k, .there hc hdirj hk⟩
      · rintro ⟨j, hb⟩
        cases hb with
        | here hc => exact ⟨⟨j, hc⟩, .inl rfl⟩
        | there hc hdirk hb =>
          have hci := namei_child ht hp hi hdir hc (hshort [n] _ (.here hc))
          exact ⟨⟨_, hc⟩, .inr ⟨⟨_, hci, hdirk⟩, (seen_iff_below ht hne hci hdirk (hshort.sub hc hdirk)).mpr ⟨j, hb⟩⟩⟩

theorem namei_below (ht : Tree w) (h : Below w i rel j) : ∀ {p : Str}, p.bytes ≠ [] → w.namei p = some i →
    w.IsDir i → Short w p i → w.namei (full p rel) = some j := by
  induction h with
  | here hc => exact fun hp hi hdir hshort => namei_child ht hp hi hdir hc (hshort _ _ (.here hc))
  | there hc hdirk _ ih =>
    intro p hp hi hdir hshort
    have hci := namei_child ht hp hi hdir hc (hshort _ _ (.here hc))
    exact ih (by simp [Find.sub]) hci hdirk (hshort.sub hc hdirk)

/-- `open` takes every file but a device out of range. -/
def World.Opens (w : World) (j : ℕ) : Prop :=
  ¬ ((w.node j).type = T_DEVICE ∧ (2 ^ 15 ≤ (w.node j).major ∨ NDEV ≤ (w.node j).major))

theorem fine_iff (ht : Tree w) (hp : p.bytes ≠ []) (hi : w.namei p = some i) (hdir : w.IsDir i) (hshort : Short w p i) :
    Fine w f p ↔ 0 < f ∧ ∀ rel j, Below w i rel j → rel.length < f ∧ w.Opens j := by
  refine and_congr_right fun _ => ⟨fun h rel j hb => ?_, fun h rel hseen => ?_⟩
  · obtain ⟨⟨j', hj'⟩, hlt⟩ := h rel ((seen_iff_below ht hp hi hdir hshort).mpr ⟨j, hb⟩)
    obtain ⟨hj', hopen⟩ := opens_eq_some.mp hj'
    obtain rfl := Option.some.inj (hj'.symm.trans (namei_below ht hb hp hi hdir hshort))
    exact ⟨hlt, hopen⟩
  · obtain ⟨j, hb⟩ := (seen_iff_below ht hp hi hdir hshort).mp hseen
    obtain ⟨hlt, hopen⟩ := h rel j hb
    exact ⟨⟨j, opens_eq_some.mpr ⟨namei_below ht hb hp hi hdir hshort, hopen⟩⟩, hlt⟩

/-! ### What is printed -/

/-- EXACT: the names of the entries below directory `i` that are called `target`, each once, and nothing else. -/
def Exact (w : World) (target path : Str) (i : ℕ) (out : List Out) : Prop :=
  out.Nodup ∧ ∀ x, x ∈ out ↔
    ∃ rel j, Below w i rel j ∧ rel.getLast?.map (·.bytes) = some target.bytes ∧ x = .found (full path rel)

/-- What is seen is what there is, as far as it is called `target`. -/
def Faithful (w : World) (target path : Str) (i : ℕ) : Prop :=
  ∀ rel, rel.getLast?.map (·.bytes) = some target.bytes → (Seen w path rel ↔ ∃ j, Below w i rel j)

theorem exact_iff (ht : Tree w) (hi : w.namei p = some i) (hdir : w.IsDir i)
    (h : Prints target none p (Fine w f p) (Seen w p) out) :
    Exact w target p i out ↔ Fine w f p ∧ Faithful w target p i := by
  constructor
  · rintro ⟨-, hmem⟩
    have hfine : Fine w f p := by
      by_contra hno
      obtain ⟨x, hx, herr⟩ := h.error hno
      obtain ⟨rel, j, -, -, rfl⟩ := (hmem x).mp hx
      cases herr
    refine ⟨hfine, fun rel hlast => ⟨fun hseen => ?_, ?_⟩⟩
    · obtain ⟨rel', j, hb, -, he⟩ := (hmem (.found (full p rel))).mp ((h.mem hfine _).mpr ⟨rel, hseen, hlast, rfl⟩)
      obtain rfl := full_injective (slash_of_seen ht hi hdir hseen) (slash_of_below ht hb hdir) (Out.found.inj he)
      exact ⟨j, hb⟩
    · rintro ⟨j, hb⟩
      obtain ⟨rel', hseen, -, he⟩ := (h.mem hfine _).mp ((hmem (.found (full p rel))).mpr ⟨rel, j, hb, hlast, rfl⟩)
      obtain rfl := full_injective (slash_of_below ht hb hdir) (slash_of_seen ht hi hdir hseen) (Out.found.inj he)
      exact hseen
  · rintro ⟨hfine, hsame⟩
    refine ⟨h.nodup hfine, fun x => (h.mem hfine x).trans ⟨?_, ?_⟩⟩
    · rintro ⟨rel, hseen, hlast, hx⟩
      obtain ⟨j, hb⟩ := (hsame rel hlast).mp hseen
      exact ⟨rel, j, hb, hlast, hx⟩
    · rintro ⟨rel, j, hb, hlast, hx⟩
      exact ⟨rel, (hsame rel hlast).mpr ⟨j, hb⟩, hlast, hx⟩

/-- CORRECT (find): `find` comes back with the same descriptors open as before. What it prints is exact if and only if
    what it sees can be opened with the descriptors that are free, and is what there is. For a path that is not empty,
    that is: all entries are less levels down than there are descriptors, and no device is out of range. -/
theorem find_is_exact (ht : Tree w) (fds : Fds) (target : Str) (hi : w.namei p = some i) (hdir : w.IsDir i)
    (hshort : Short w p i) :
    (∃ N, ∀ fuel, N ≤ fuel → ∃ out, find w target none fuel fds p = some (out, fds) ∧
      (Exact w target p i out ↔ Fine w (free fds) p ∧ Faithful w target p i)) ∧
    (p.bytes ≠ [] → (Fine w (free fds) p ∧ Faithful w target p i ↔
      0 < free fds ∧ ∀ rel j, Below w i rel j → rel.length < free fds ∧ w.Opens j)) := by
  have hreturns : Returns w target none p := returns ht hi hdir
  obtain ⟨N, hN⟩ := hreturns fds
  refine ⟨⟨N, fun fuel hfuel => ?_⟩, fun hp => ?_⟩
  · obtain ⟨out, hout, hprints⟩ := hN fuel hfuel
    exact ⟨out, hout, exact_iff ht hi hdir hprints⟩
  · rw [← fine_iff ht hp hi hdir hshort]
    exact and_iff_left fun rel _ => seen_iff_below ht hp hi hdir hshort

/-! ### A deep tree -/

/-- Directory `i` of the chain: its dots, and "a", which is the next one. -/
def chainDir (i : ℕ) : Node :=
  (((⟨T_DIR, 0, 0, 1, 0, fun _ => 0⟩ : Node).setDirent 0 (.of .dot i)).setDirent 1 (.of .dotdot (max (i - 1) 1))).setDirent 2
    (.of Str.a.cut (i + 1))

/-- Fourteen directories, the root first, and a file in the last. -/
def chain : World where
  node i := if 1 ≤ i ∧ i ≤ 14 then chainDir i else if i = 15 then ⟨T_FILE, 0, 0, 1, 0, fun _ => 0⟩ else .free
  cwd := ROOTINO

theorem chain_isDir : chain.IsDir i ↔ 1 ≤ i ∧ i ≤ 14 := by
  rw [World.IsDir, chain]
  dsimp only
  split
  · rename_i h
    exact iff_of_true rfl h
  · rename_i h
    refine iff_of_false ?_ h
    split <;> decide

theorem chainDir_has : (chainDir i).Has k ↔ k < 3 := by
  have hsize : (chainDir i).size = 48 := rfl
  rw [Node.Has, hsize]
  simp only [DESIZE]
  omega

theorem chainDir_dirent (hi : i < 2 ^ 15) : (chainDir i).dirent 0 = .of .dot i ∧
    (chainDir i).dirent 1 = .of .dotdot (max (i - 1) 1) ∧ (chainDir i).dirent 2 = .of Str.a.cut (i + 1) := by
  refine ⟨?_, ?_, ?_⟩
  · rw [chainDir, dirent_setDirent_ne _ (by decide), dirent_setDirent_ne _ (by decide), dirent_setDirent_self]
    show i < 2 ^ 16
    omega
  · rw [chainDir, dirent_setDirent_ne _ (by decide), dirent_setDirent_self]
    show max (i - 1) 1 < 2 ^ 16
    omega
  · rw [chainDir, dirent_setDirent_self]
    show i + 1 < 2 ^ 16
    omega

theorem name_of (n : Name) (j : ℕ) : name (.of n j) = n := Name.ext_bytes (key_of n j)

theorem chain_child : chain.Child i n j ↔ (1 ≤ i ∧ i ≤ 14) ∧ n = Str.a.cut ∧ j = i + 1 := by
  have hnode : ∀ h : 1 ≤ i ∧ i ≤ 14, chain.node i = chainDir i := fun h => if_pos h
  constructor
  · rintro ⟨k, hk, hj, hj0, hn, hdots⟩
    have hi : 1 ≤ i ∧ i ≤ 14 := by
      by_contra hno
      have hsize : (chain.node i).size = 0 := by
        rw [chain]
        dsimp only
        rw [if_neg hno]
        split <;> rfl
      rw [Node.Has, hsize] at hk
      simp only [DESIZE] at hk
      omega
    obtain ⟨h0, h1, h2⟩ := chainDir_dirent (i := i) (by omega)
    rw [hnode hi] at hk hj hn
    have hk := chainDir_has.mp hk
    interval_cases k
    · rw [h0, name_of] at hn
      exact absurd hn.symm hdots.1
    · rw [h1, name_of] at hn
      exact absurd hn.symm hdots.2
    · rw [h2] at hj
      rw [h2, name_of] at hn
      exact ⟨hi, hn.symm, hj.symm⟩
  · rintro ⟨hi, rfl, rfl⟩
    obtain ⟨-, -, h2⟩ := chainDir_dirent (i := i) (by omega)
    refine ⟨2, ?_, ?_, Nat.succ_ne_zero i, ?_, by decide, by decide⟩
    · rw [hnode hi]; exact chainDir_has.mpr (by decide)
    · rw [hnode hi, h2]; rfl
    · rw [hnode hi, h2, name_of]

theorem chain_tree : Tree chain where
  named i n j _ h := by
    obtain ⟨-, rfl, -⟩ := chain_child.mp h
    decide
  distinct i hdir j k hj hk _ _ hkey := by
    have hi := chain_isDir.mp hdir
    obtain ⟨h0, h1, h2⟩ := chainDir_dirent (i := i) (by omega)
    rw [show chain.node i = chainDir i from if_pos hi] at hj hk hkey
    have hj := chainDir_has.mp hj
    have hk := chainDir_has.mp hk
    interval_cases j <;> interval_cases k <;> first
      | rfl
      | (simp only [h0, h1, h2, key_of] at hkey; exact absurd hkey (by decide))
  finite := by
    refine Subrelation.wf (r := InvImage (· < ·) fun i => 15 - i) (fun {j i} h => ?_) (InvImage.wf _ Nat.lt_wfRel.wf)
    obtain ⟨hdir, n, hc⟩ := h
    have hj := chain_isDir.mp hdir
    obtain ⟨hi, -, rfl⟩ := chain_child.mp hc
    show 15 - (i + 1) < 15 - i
    omega

theorem chain_below (h : Below chain i rel j) : j = i + rel.length ∧ j ≤ 15 ∧ ∀ n ∈ rel, n = Str.a.cut := by
  induction h with
  | here hc =>
    obtain ⟨hi, rfl, rfl⟩ := chain_child.mp hc
    exact ⟨rfl, by omega, List.forall_mem_singleton.mpr rfl⟩
  | there hc _ _ ih =>
    obtain ⟨hi, rfl, rfl⟩ := chain_child.mp hc
    obtain ⟨rfl, hle, hall⟩ := ih
    exact ⟨by rw [List.length_cons]; omega, hle, List.forall_mem_cons.mpr ⟨rfl, hall⟩⟩

theorem chain_deep : ∀ d i, 1 ≤ i → i + d ≤ 14 → Below chain i (List.replicate (d + 1) Str.a.cut) (i + d + 1)
  | 0, i, h1, h2 => .here (chain_child.mpr ⟨by omega, rfl, rfl⟩)
  | d + 1, i, h1, h2 => by
      have hrest := chain_deep d (i + 1) (by omega) (by omega)
      rw [show i + (d + 1) + 1 = i + 1 + d + 1 by omega]
      exact .there (chain_child.mpr ⟨by omega, rfl, rfl⟩) (chain_isDir.mpr (by omega)) hrest

theorem slash_noNul : 0 ∉ [SLASH] := by decide

def slash : Str := ⟨[SLASH], slash_noNul⟩

theorem chain_slash : chain.namei slash = some ROOTINO := by
  rw [World.namei, if_pos (by decide), elems_none (by decide)]
  rfl

theorem chain_short : Short chain slash ROOTINO := fun rel j h => by
  obtain ⟨hj, hle, hall⟩ := chain_below h
  have hlen : ∀ rel : List Name, (∀ n ∈ rel, n = Str.a.cut) →
      (rel.flatMap fun n => SLASH :: n.bytes).length = 2 * rel.length := fun rel hall => by
    induction rel with
    | nil => rfl
    | cons n rel ih =>
      obtain ⟨rfl, hrel⟩ := List.forall_mem_cons.mp hall
      have htwo : (SLASH :: Str.a.cut.bytes).length = 2 := rfl
      rw [List.flatMap_cons, List.length_append, ih hrel, htwo, List.length_cons]
      omega
  have hone : slash.bytes.length = 1 := rfl
  rw [full_bytes, List.length_append, hlen rel hall, hone]
  simp only [MAXPATH, ROOTINO] at *
  omega

/-- Standard input, output and error are open. -/
def stdFds : Fds := fun fd => fd < 3

theorem find_is_exact_chain : ∃ N, ∀ fuel, N ≤ fuel → ∃ out,
    find chain Str.a none fuel stdFds slash = some (out, stdFds) ∧ (Exact chain Str.a slash ROOTINO out ↔
      0 < free stdFds ∧ ∀ rel j, Below chain ROOTINO rel j → rel.length < free stdFds ∧ chain.Opens j) := by
  obtain ⟨⟨N, hN⟩, hiff⟩ := find_is_exact chain_tree stdFds Str.a chain_slash (chain_isDir.mpr (by decide)) chain_short
  refine ⟨N, fun fuel hfuel => ?_⟩
  obtain ⟨out, hout, hexact⟩ := hN fuel hfuel
  exact ⟨out, hout, hexact.trans (hiff (by decide))⟩

/-- The entry thirteen levels down is called "a", but `stat` fails for it. -/
theorem find_misses_deep_entry : ∃ N, ∀ fuel, N ≤ fuel → ∃ out,
    find chain Str.a none fuel stdFds slash = some (out, stdFds) ∧ ¬ Exact chain Str.a slash ROOTINO out ∧
      ∃ x ∈ out, x.isError = true := by
  have hdir : chain.IsDir ROOTINO := chain_isDir.mpr (by decide)
  have hreturns : Returns chain Str.a none slash := returns chain_tree chain_slash hdir
  have hno : ¬ Fine chain (free stdFds) slash := fun h => by
    have hfree : free stdFds = 13 := by decide
    have hall := ((fine_iff chain_tree (by decide) chain_slash hdir chain_short).mp h).2
    have hlt := (hall _ _ (chain_deep 12 1 (by decide) (by decide))).1
    rw [List.length_replicate, hfree] at hlt
    exact absurd hlt (by decide)
  obtain ⟨N, hN⟩ := hreturns stdFds
  refine ⟨N, fun fuel hfuel => ?_⟩
  obtain ⟨out, hout, hprints⟩ := hN fuel hfuel
  exact ⟨out, hout, fun he => hno ((exact_iff chain_tree chain_slash hdir hprints).mp he).1, hprints.error hno⟩

end Minios.Find
