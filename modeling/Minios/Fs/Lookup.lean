import Minios.Fs.Mkfs
import Minios.Fs.Safe
import Minios.Fs.Spare

/-! `kernel/fs.c`: directories are finite maps.

        dirlookup     lookup name
        dirlink       lookup with name ↦ inum, if name has no entry and there is room for one
        memset, writei at the offset that dirlookup reported       lookup without name

    A name is what is before its first NUL, in DIRSIZ bytes at most; `namecmp` compares just that. -/

namespace Minios.Fs
open Schemes Function

variable {s t : FS} {dp ip : IPtr} {nd : Node} {name name' : Name} {i k n : ℕ}

/-! ### The map -/

/-- The first entry of a name. -/
def Node.index (nd : Node) (name : Name) : Option ℕ :=
  (List.range nd.entries).find? fun k => decide ((nd.dirent k).inum ≠ 0 ∧ (nd.dirent k).key = name.bytes)

/-- The inode number of a name, 0 for a name without entry. -/
def Node.lookup (nd : Node) (name : Name) : ℕ := (nd.index name).elim 0 fun k => (nd.dirent k).inum

theorem has_iff : nd.Has k ↔ k < nd.entries := by
  rw [Node.Has, Node.entries]
  simp only [DESIZE]
  omega

theorem index_none : nd.index name = none ↔ ∀ k, nd.Has k → ¬ (nd.dirent k).Named name := by
  rw [Node.index, List.find?_eq_none]
  simp only [List.mem_range, decide_eq_true_eq, has_iff]
  exact Iff.rfl

theorem index_some (h : nd.index name = some k) : nd.Has k ∧ (nd.dirent k).Named name :=
  ⟨has_iff.mpr (List.mem_range.mp (List.mem_of_find?_eq_some h)), by simpa [Dirent.Named] using List.find?_some h⟩

theorem lookup_eq_zero : nd.lookup name = 0 ↔ ∀ k, nd.Has k → ¬ (nd.dirent k).Named name := by
  rw [← index_none, Node.lookup]
  cases h : nd.index name with
  | none => exact iff_of_true rfl rfl
  | some k => exact iff_of_false (index_some h).2.1 nofun

theorem DirOk.lookup_eq (h : DirOk True n nd) (hk : nd.Has k) (hname : (nd.dirent k).Named name) :
    nd.lookup name = (nd.dirent k).inum := by
  rw [Node.lookup]
  cases hi : nd.index name with
  | none => exact absurd hname (index_none.mp hi k hk)
  | some j =>
    obtain ⟨hj, hjname⟩ := index_some hi
    have := h.distinct trivial j k hj hk hjname.1 hname.1 (hjname.2.trans hname.2.symm)
    rw [Option.elim_some, this]

theorem lookup_ne_zero (h : nd.lookup name ≠ 0) : ∃ k, nd.Has k ∧ (nd.dirent k).Named name ∧ (nd.dirent k).inum = nd.lookup name := by
  rw [Node.lookup] at h ⊢
  cases hi : nd.index name with
  | none => rw [hi] at h; exact absurd rfl h
  | some k => exact ⟨k, (index_some hi).1, (index_some hi).2, rfl⟩

theorem has_self (nd : Node) (k : ℕ) (de : Dirent) : (nd.setDirent k de).Has k := by
  rw [Node.Has, setDirent_size]
  omega

/-- A name that entry `k` has not, neither before nor after. -/
theorem lookup_setDirent_other {de : Dirent} (h' : DirOk True n (nd.setDirent k de))
    (hk : DESIZE * k ≤ nd.size) (hde : de.inum < 2 ^ 16) (hold : nd.Has k → ¬ (nd.dirent k).Named name)
    (hnew : ¬ de.Named name) : (nd.setDirent k de).lookup name = nd.lookup name := by
  have hother : ∀ {j}, j ≠ k → (nd.setDirent k de).dirent j = nd.dirent j := fun hj => dirent_setDirent_ne nd hj de
  rcases eq_or_ne (nd.lookup name) 0 with h0 | hne
  · rw [h0]
    refine lookup_eq_zero.mpr fun j hj hname => ?_
    rcases eq_or_ne j k with rfl | hjk
    · rw [dirent_setDirent_self nd j hde] at hname
      exact hnew hname
    · rw [hother hjk] at hname
      exact lookup_eq_zero.mp h0 j (has_setDirent hk hj hjk) hname
  · obtain ⟨j, hj, hname, hi⟩ := lookup_ne_zero hne
    have hjk : j ≠ k := by rintro rfl; exact hold hj hname
    rw [h'.lookup_eq (has_setDirent_of hj k de) (by rw [hother hjk]; exact hname), hother hjk, hi]

/-- ENTER a name. -/
theorem DirOk.lookup_enter {inum : ℕ} (h : DirOk True (2 ^ 16) nd) (hk : DESIZE * k ≤ nd.size) (hinum : inum < 2 ^ 16)
    (hpos : inum ≠ 0) (hempty : nd.Has k → (nd.dirent k).inum = 0) (hfresh : nd.lookup name = 0) :
    DirOk True (2 ^ 16) (nd.setDirent k (Dirent.of name inum)) ∧
    ∀ name', (nd.setDirent k (Dirent.of name inum)).lookup name' =
      if namecmp name' (Dirent.of name inum).name = 0 then inum else nd.lookup name' := by
  have h' : DirOk True (2 ^ 16) (nd.setDirent k (Dirent.of name inum)) := by
    refine h.setDirent le_rfl hk hinum fun _ _ j hj hj0 hkey => ?_
    exact lookup_eq_zero.mp hfresh j hj ⟨hj0, hkey.trans (key_of name inum)⟩
  refine ⟨h', fun name' => ?_⟩
  have hcmp : namecmp name' (Dirent.of name inum).name = 0 ↔ name.bytes = name'.bytes := by rw [namecmp_eq_zero, key_of]
  simp only [hcmp]
  split
  · rename_i he
    have hself : (nd.setDirent k (Dirent.of name inum)).dirent k = Dirent.of name inum :=
      dirent_setDirent_self nd k hinum
    rw [h'.lookup_eq (has_self nd k _) (by rw [hself]; exact ⟨hpos, (key_of name inum).trans he⟩), hself]
    rfl
  · rename_i hne
    refine lookup_setDirent_other h' hk hinum (fun hk hname => hname.1 (hempty hk)) fun hname => ?_
    exact hne ((key_of name inum).symm.trans hname.2)

/-- CLEAR the entry of a name. -/
theorem DirOk.lookup_clear (h : DirOk True (2 ^ 16) nd) (hk : nd.Has k) (hname : (nd.dirent k).Named name) :
    DirOk True (2 ^ 16) (nd.setDirent k .zero) ∧
    ∀ name', (nd.setDirent k .zero).lookup name' = if name' = name then 0 else nd.lookup name' := by
  have hle : DESIZE * k ≤ nd.size := by rw [Node.Has] at hk; omega
  have hz : Dirent.zero.inum < 2 ^ 16 := Nat.two_pow_pos 16
  have h' : DirOk True (2 ^ 16) (nd.setDirent k .zero) := h.setDirent le_rfl hle hz fun _ h0 => absurd rfl h0
  have hself := dirent_setDirent_self nd k hz
  refine ⟨h', fun name' => ?_⟩
  split
  · rename_i he
    subst he
    refine lookup_eq_zero.mpr fun j hj hname' => ?_
    rcases eq_or_ne j k with rfl | hne
    · rw [hself] at hname'; exact hname'.1 rfl
    · rw [dirent_setDirent_ne nd hne] at hname'
      exact hne (h.distinct trivial j k (has_setDirent hle hj hne) hk hname'.1 hname.1 (hname'.2.trans hname.2.symm))
  · rename_i hne
    refine lookup_setDirent_other h' hle hz (fun _ hname' => hne ?_) fun hname' => hname'.1 rfl
    exact Name.ext_bytes (hname'.2.symm.trans hname.2)

/-! ### References -/

/-- All entries of the inode table are in use, by other inodes than `i`. -/
def Crowded (s : FS) (i : ℕ) : Prop := ∀ k, 0 < rc s k ∧ (s.itable k).inum ≠ i

/-- `iget` of any number: a reference, or a panic for want of an entry. -/
theorem iget_any (s : FS) (i : ℕ) : wp (iget i) (fun k t => Quiet s t ∧ (t.itable k).inum = i ∧
    ¬ ((t.itable k).ref = 1 ∧ (t.itable k).valid = true)) (fun e => e = .igetNoInodes ∧ Crowded s i) s := by
  rw [iget, wp_bind, wp_get]
  split
  · rename_i k hk
    obtain ⟨hpos, rfl⟩ : 0 < rc s k ∧ (s.itable k).inum = i := by simpa using List.find?_some hk
    rw [wp_bind, wp_setInode, wp_pure, FS.setInode_self]
    refine ⟨⟨rfl, rfl, rfl⟩, rfl, fun h => ?_⟩
    have : rc s k + 1 = 1 := h.1
    omega
  · rename_i hnone
    have hnone : ∀ k, 0 < rc s k → (s.itable k).inum ≠ i := by simpa using hnone
    split
    · rename_i k hk
      rw [wp_bind, wp_setInode, wp_pure, FS.setInode_self]
      exact ⟨⟨rfl, rfl, rfl⟩, rfl, fun h => by cases h.2⟩
    · rename_i hfull
      have hfull : ∀ k, rc s k ≠ 0 := by simpa using hfull
      exact ⟨rfl, fun k => ⟨Nat.pos_of_ne_zero (hfull k), hnone k (Nat.pos_of_ne_zero (hfull k))⟩⟩

/-- A reference that is not the last one to a valid inode without links is just dropped. -/
theorem iput_quiet {E : Panic → Prop}
    (h : ¬ ((s.itable ip).ref = 1 ∧ (s.itable ip).valid = true ∧ (s.itable ip).d.nlink = 0)) :
    wp (iput ip) (fun _ t => Quiet s t) E s := by
  rw [iput, wp_bind, wp_inode, if_neg h]
  exact ⟨rfl, rfl, rfl⟩

/-! ### The functions -/

theorem dirent_inum_lt (nd : Node) (k : ℕ) : (nd.dirent k).inum < 2 ^ 16 := by
  have h0 := ((slice nd.byte (DESIZE * k) DESIZE).getD 0 0).toNat_lt
  have h1 := ((slice nd.byte (DESIZE * k) DESIZE).getD 1 0).toNat_lt
  show _ + 256 * _ < 2 ^ 16
  omega

/-- The representation invariant of a directory that is locked. -/
structure Dir (s : FS) (dp : IPtr) : Prop where
  wf : Wf s
  ready : Ready s dp
  type : (node s (s.itable dp).inum).type = T_DIR
  ok : DirOk True (2 ^ 16) (node s (s.itable dp).inum)

/-- The directory that is locked is one that `dirlink` can work on. -/
theorem Ok.dir {x : Option ℕ} (h : Ok True x s) (hp : Ready s dp) (hdir : (node s (s.itable dp).inum).type = T_DIR) :
    Dir s dp :=
  ⟨h.wf, hp, hdir, fun k _ => dirent_inum_lt _ k, (h.dirs _ hdir).whole, (h.dirs _ hdir).distinct⟩

/-- The map that a directory is. -/
def entriesOf (s : FS) (dp : IPtr) : Name → ℕ := (node s (s.itable dp).inum).lookup

/-- The directory cannot be extended: no entry is empty, and the file has its largest size, or there are not the blocks
    for one more entry. -/
def Stuck (s : FS) (dp : IPtr) : Prop :=
  (∀ k, (node s (s.itable dp).inum).Has k → ((node s (s.itable dp).inum).dirent k).inum ≠ 0) ∧
  (MAXFILE * BSIZE < (node s (s.itable dp).inum).size + DESIZE ∨ spare s < s.needs dp (node s (s.itable dp).inum).entries)

theorem Dir.did {nd : Node} (h : Dir s dp) (hdid : Did dp s nd t) (htype : nd.type = T_DIR) (hok : DirOk True (2 ^ 16) nd) :
    Dir t dp ∧ node t (t.itable dp).inum = nd := by
  have hnode : node t (t.itable dp).inum = nd := by rw [hdid.inum, hdid.node, update_self]
  refine ⟨⟨hdid.wf, ⟨?_, ?_⟩, by rw [hnode]; exact htype, by rw [hnode]; exact hok⟩, hnode⟩
  · show 0 < rc t dp
    rw [hdid.ref]; exact h.ready.ref
  · rw [hdid.valid]; exact h.ready.valid

/-- LOOKUP. -/
theorem Dir.dirlookup (h : Dir s dp) (name : Name) :
    wp (dirlookup dp name) (fun r t => (r = none ∧ t = s ∧ entriesOf s dp name = 0) ∨
      ∃ ip k, r = some (ip, DESIZE * k) ∧ (node s (s.itable dp).inum).Has k ∧
        ((node s (s.itable dp).inum).dirent k).Named name ∧ Quiet s t ∧ (t.itable ip).inum = entriesOf s dp name ∧
        entriesOf s dp name ≠ 0 ∧ ¬ ((t.itable ip).ref = 1 ∧ (t.itable ip).valid = true))
      (fun e => e = .igetNoInodes ∧ entriesOf s dp name ≠ 0 ∧ Crowded s (entriesOf s dp name)) s := by
  refine dirlookup_first h.wf h.ready h.type (fun hr => absurd (h.ok.whole trivial) hr)
    (fun hno => .inl ⟨rfl, rfl, lookup_eq_zero.mpr hno⟩) fun k hk hname _ => ?_
  have he : entriesOf s dp name = ((node s (s.itable dp).inum).dirent k).inum := h.ok.lookup_eq hk hname
  rw [he]
  refine ((iget_any s _).weaken fun e he => ⟨he.1, hname.1, he.2⟩).mono ?_
  rintro ip t ⟨hq, hi, hput⟩
  refine .inr ?_
  exact ⟨ip, k, rfl, hk, hname, hq, hi, hname.1, hput⟩

theorem stuck_iff {j : ℕ} (hwhole : (node s (s.itable dp).inum).size % DESIZE = 0)
    (hj : DESIZE * j ≤ (node s (s.itable dp).inum).size)
    (hbefore : ∀ l, l < j → ((node s (s.itable dp).inum).dirent l).inum ≠ 0)
    (hempty : (node s (s.itable dp).inum).Has j → ((node s (s.itable dp).inum).dirent j).inum = 0) :
    Stuck s dp ↔ ¬ (node s (s.itable dp).inum).Has j ∧
      (MAXFILE * BSIZE < DESIZE * j + DESIZE ∨ spare s < s.needs dp j) := by
  by_cases hhas : (node s (s.itable dp).inum).Has j
  · exact iff_of_false (fun h => h.1 j hhas (hempty hhas)) fun h => h.1 hhas
  · have hend : j = (node s (s.itable dp).inum).entries := by
      rw [has_iff] at hhas
      rw [Node.entries] at hhas ⊢
      simp only [DESIZE] at *
      omega
    have hsize : (node s (s.itable dp).inum).size = DESIZE * j := by
      rw [hend, Node.entries]
      simp only [DESIZE] at *
      omega
    rw [Stuck, ← hend, hsize, and_iff_right hhas]
    exact and_iff_right fun l hl => hbefore l (by rw [has_iff] at hl; omega)

/-- LINK. -/
theorem Dir.dirlink {inum : ℕ} (h : Dir s dp) (name : Name) (hpos : 0 < inum) (hinum : inum < 2 ^ 16) :
    wp (dirlink dp name inum) (fun r t =>
      (r = -1 ∧ (entriesOf s dp name ≠ 0 ∨ Stuck s dp) ∧ node t = node s) ∨
      (r = 0 ∧ entriesOf s dp name = 0 ∧ ¬ Stuck s dp ∧ Dir t dp ∧ ∀ name', entriesOf t dp name' =
        if namecmp name' (Dirent.of name inum).name = 0 then inum else entriesOf s dp name'))
      (fun e => e = .igetNoInodes ∧ entriesOf s dp name ≠ 0 ∧ Crowded s (entriesOf s dp name)) s := by
  rw [Fs.dirlink]
  refine (h.dirlookup name).bind fun r t hr => ?_
  rcases hr with ⟨rfl, rfl, h0⟩ | ⟨ip, k, rfl, hk, hname, hq, hi, hne, hput⟩
  · rw [wp_bind, wp_inode, h.ready.size h.wf]
    have hwhole := h.ok.whole trivial
    have hloop := dirlinkLoop_spec h.wf h.ready ((node t (t.itable dp).inum).size / DESIZE + 1) 0
      (by simp only [DESIZE]; omega) (by omega) fun j hj => absurd hj (Nat.not_lt_zero j)
    rw [Nat.mul_zero] at hloop
    refine (hloop.weaken fun e he => absurd hwhole he.2).bind fun off u hu => ?_
    obtain ⟨rfl, j, rfl, hj, hbefore, hempty⟩ := hu
    have hstuck := stuck_iff hwhole hj hbefore hempty
    have hfail : ∀ v, v = u ∨ Did dp u (node u (u.itable dp).inum) v → node v = node u := fun v hv => by
      rcases hv with rfl | hdid
      · rfl
      · rw [hdid.node, update_eq_self]
    refine ((writeDirent_spec h.wf h.ready hj).total.and (writeDirent_room (E := fun _ => False) h.wf h.ready hj)).bind ?_
    rintro r v ⟨hv, hroom⟩
    rcases hv with ⟨rfl, hdid⟩ | ⟨hr, hhas, hv⟩
    · rw [if_neg (not_not.mpr rfl)]
      obtain ⟨hok, hlook⟩ := h.ok.lookup_enter hj hinum hpos.ne' hempty h0
      obtain ⟨hdir, hnode⟩ := h.did hdid h.type hok
      refine .inr ⟨rfl, h0, fun hs => ?_, hdir, fun name' => ?_⟩
      · obtain ⟨hle, hpaid⟩ := hroom.1 rfl
        rcases (hstuck.mp hs).2 with hlarge | hfew
        · omega
        · omega
      · rw [entriesOf, hnode]
        exact hlook name'
    · rw [if_pos hr]
      refine .inl ⟨rfl, .inr (hstuck.mpr ⟨hhas, ?_⟩), hfail v hv⟩
      exact hroom.2 hr
  · refine (iput_quiet fun hlast => hput ⟨hlast.1, hlast.2.1⟩).bind fun _ u hu => .inl ⟨rfl, .inl hne, ?_⟩
    rw [hu.node, hq.node]

/-- CLEAR. -/
theorem Dir.clear (h : Dir s dp) (hk : (node s (s.itable dp).inum).Has k)
    (hname : ((node s (s.itable dp).inum).dirent k).Named name) :
    wp (writeDirent dp (DESIZE * k) .zero) (fun r t => r = DESIZE ∧ Dir t dp ∧
      ∀ name', entriesOf t dp name' = if name' = name then 0 else entriesOf s dp name') (fun _ => False) s := by
  have hle : DESIZE * k ≤ (node s (s.itable dp).inum).size := by rw [Node.Has] at hk; omega
  refine (writeDirent_spec h.wf h.ready hle).mono fun r t ht => ?_
  rcases ht with ⟨rfl, hdid⟩ | ⟨-, hno, -⟩
  · obtain ⟨hok, hlook⟩ := h.ok.lookup_clear hk hname
    obtain ⟨hdir, hnode⟩ := h.did hdid h.type hok
    refine ⟨rfl, hdir, fun name' => ?_⟩
    rw [entriesOf, hnode]
    exact hlook name'
  · exact absurd hk hno

/-! ### Names -/

/-- What `namecmp`, `strncpy` and `skipelem` see of a string. -/
def Str.cut (x : Str) : Name :=
  ⟨⟨x.bytes.take DIRSIZ, fun h => x.noNul (List.mem_of_mem_take h)⟩, List.length_take_le ..⟩

theorem cut_at (x : Str) {j : ℕ} (hj : j < DIRSIZ) : x.cut.at j = x.at j := by
  rw [Str.at, Str.at, Str.cut, List.getD_eq_getElem?_getD, List.getD_eq_getElem?_getD, List.getElem?_take_of_lt hj]

/-- A live entry whose name agrees with a string up to the first NUL, or in DIRSIZ bytes. -/
def Node.Agrees (nd : Node) (x : Str) (k : ℕ) : Prop :=
  nd.Has k ∧ (nd.dirent k).inum ≠ 0 ∧ strncmp x.at (getByte (nd.dirent k).name) DIRSIZ = 0

theorem agrees_iff {x : Str} : nd.Agrees x k ↔ nd.Has k ∧ (nd.dirent k).Named x.cut := by
  have hcut : cstr DIRSIZ x.at = x.cut.bytes := by
    rw [← cstr_at]
    exact cstr_congr fun j hj => (cut_at x hj).symm
  rw [Node.Agrees, strncmp_eq_zero, hcut, Dirent.Named, Dirent.key, eq_comm (a := x.cut.bytes)]

/-- CORRECT (a directory is a finite map on cut names): `dirlookup` finds the one entry there is; `dirlink` fails just
    for a name that has an entry and for want of room, and enters the name otherwise; writing zeros where `dirlookup`
    said removes the name. An entry whose inode finds no place in the inode table is a panic. -/
theorem directory_is_map (h : Dir s dp) (x : Str) :
    ((∃! k, (node s (s.itable dp).inum).Agrees x k) ∨ ∀ k, ¬ (node s (s.itable dp).inum).Agrees x k) ∧
    (∀ k, (node s (s.itable dp).inum).Agrees x k →
      entriesOf s dp x.cut = ((node s (s.itable dp).inum).dirent k).inum ∧
      ∀ u, Dir u dp → node u (u.itable dp).inum = node s (s.itable dp).inum →
        wp (writeDirent dp (DESIZE * k) .zero) (fun r t => r = DESIZE ∧ Dir t dp ∧ ∀ y : Str,
          entriesOf t dp y.cut = if y.cut = x.cut then 0 else entriesOf s dp y.cut) (fun _ => False) u) ∧
    ((∀ k, ¬ (node s (s.itable dp).inum).Agrees x k) → entriesOf s dp x.cut = 0) ∧
    wp (dirlookup dp x.cut) (fun r t => node t = node s ∧
        (r = none ∧ (∀ k, ¬ (node s (s.itable dp).inum).Agrees x k) ∨
        ∃ ip k, r = some (ip, DESIZE * k) ∧ (node s (s.itable dp).inum).Agrees x k ∧
          (t.itable ip).inum = ((node s (s.itable dp).inum).dirent k).inum))
      (fun e => e = .igetNoInodes ∧ ∃ k, (node s (s.itable dp).inum).Agrees x k ∧
        Crowded s ((node s (s.itable dp).inum).dirent k).inum) s ∧
    ∀ inum, 0 < inum → inum < 2 ^ 16 → wp (dirlink dp x.cut inum) (fun r t =>
        (r = -1 ↔ (∃ k, (node s (s.itable dp).inum).Agrees x k) ∨ Stuck s dp) ∧
        (r = -1 → node t = node s) ∧
        (r ≠ -1 → r = 0 ∧ Dir t dp ∧ ∀ y : Str, entriesOf t dp y.cut =
          if namecmp y.cut (Dirent.of x.cut inum).name = 0 then inum else entriesOf s dp y.cut))
      (fun e => e = .igetNoInodes ∧ ∃ k, (node s (s.itable dp).inum).Agrees x k ∧
        Crowded s ((node s (s.itable dp).inum).dirent k).inum) s := by
  simp only [agrees_iff]
  have hnone : (∀ k, ¬ ((node s (s.itable dp).inum).Has k ∧ ((node s (s.itable dp).inum).dirent k).Named x.cut)) ↔
      entriesOf s dp x.cut = 0 := by
    rw [entriesOf, lookup_eq_zero]
    exact forall_congr' fun k => not_and
  have hsome : (∃ k, (node s (s.itable dp).inum).Has k ∧ ((node s (s.itable dp).inum).dirent k).Named x.cut) ↔
      entriesOf s dp x.cut ≠ 0 := by
    rw [← not_iff_not, not_exists, not_not, hnone]
  have hcrowd : entriesOf s dp x.cut ≠ 0 → Crowded s (entriesOf s dp x.cut) →
      ∃ k, ((node s (s.itable dp).inum).Has k ∧ ((node s (s.itable dp).inum).dirent k).Named x.cut) ∧
        Crowded s ((node s (s.itable dp).inum).dirent k).inum := fun hne hc => by
    obtain ⟨k, hk, hname, hi⟩ := lookup_ne_zero hne
    exact ⟨k, ⟨hk, hname⟩, by rw [hi]; exact hc⟩
  refine ⟨?_, fun k hk => ⟨h.ok.lookup_eq hk.1 hk.2, fun u hu hnode => ?_⟩, hnone.mp, ?_, fun inum hpos hlt => ?_⟩
  · by_cases h0 : entriesOf s dp x.cut = 0
    · exact .inr (hnone.mpr h0)
    · obtain ⟨k, hk⟩ := hsome.mpr h0
      refine .inl ⟨k, hk, fun j hj => ?_⟩
      exact h.ok.distinct trivial j k hj.1 hk.1 hj.2.1 hk.2.1 (hj.2.2.trans hk.2.2.symm)
  · rw [← hnode] at hk
    refine (hu.clear hk.1 hk.2).mono ?_
    rintro r t ⟨hr, ht, hmap⟩
    refine ⟨hr, ht, fun y => ?_⟩
    rw [hmap y.cut, entriesOf, entriesOf, hnode]
  · refine ((h.dirlookup x.cut).weaken fun e he => ⟨he.1, hcrowd he.2.1 he.2.2⟩).mono fun r t hr => ?_
    rcases hr with ⟨rfl, rfl, h0⟩ | ⟨ip, k, rfl, hk, hname, hq, hi, -, -⟩
    · exact ⟨rfl, .inl ⟨rfl, hnone.mpr h0⟩⟩
    · refine ⟨hq.node, .inr ⟨ip, k, rfl, ⟨hk, hname⟩, ?_⟩⟩
      rw [hi]
      exact h.ok.lookup_eq hk hname
  · refine ((h.dirlink x.cut hpos hlt).weaken fun e he => ⟨he.1, hcrowd he.2.1 he.2.2⟩).mono fun r t hr => ?_
    rw [hsome]
    rcases hr with ⟨rfl, hwhy, hnode⟩ | ⟨rfl, h0, hroom, hdir, hmap⟩
    · exact ⟨iff_of_true rfl hwhy, fun _ => hnode, fun hne => absurd rfl hne⟩
    · refine ⟨iff_of_false (by decide) ?_, fun he => absurd he (by decide), fun _ => ⟨rfl, hdir, fun y => hmap _⟩⟩
      rintro (hne | hs)
      · exact hne h0
      · exact hroom hs

/-! ### A full inode table -/

/-- The name `a`. -/
def Str.a : Str := ⟨[97], by decide⟩

/-- The root directory with an entry `a`. -/
def blockA : Block := fun j =>
  ((Dirent.of .dot ROOTINO).encode ++ (Dirent.of .dotdot ROOTINO).encode ++ (Dirent.of Str.a.cut 2).encode).getD j.val 0

/-- The root directory is in use, and so are 49 inodes that `a` is not. -/
def crowded : FS where
  sb := .std
  disk := update (freshDisk .std) Superblock.std.nmeta blockA
  itable := fun k =>
    if k = 0 then ⟨ROOTINO, 1, true, true, rootDinode .std⟩ else ⟨100 + k.val, 1, false, false, .fresh 0⟩
  torn := fun _ => none

theorem crowded_node : (node crowded ROOTINO).size = 64 * DESIZE ∧ (node crowded ROOTINO).type = T_DIR ∧
    (∀ k : Fin 64, 3 ≤ k.val → ((node crowded ROOTINO).dirent k).inum = 0) ∧
    (((node crowded ROOTINO).dirent 0).inum = ROOTINO ∧ ((node crowded ROOTINO).dirent 0).key = Name.dot.bytes) ∧
    (((node crowded ROOTINO).dirent 1).inum = ROOTINO ∧ ((node crowded ROOTINO).dirent 1).key = Name.dotdot.bytes) ∧
    ((node crowded ROOTINO).dirent 2).inum = 2 ∧ ((node crowded ROOTINO).dirent 2).key = Str.a.cut.bytes := by
  decide +kernel

theorem crowded_wf : Wf crowded := by
  have hdinode : dinode crowded ROOTINO = rootDinode .std := by
    rw [show dinode crowded = _ from dinode_fresh_root .std blockA, dinode_fresh _ Superblock.std_small, update_self]
  have hw := (fresh_image_root _ Superblock.std_small blockA).wf
  have h0 : crowded.itable 0 = ⟨ROOTINO, 1, true, true, rootDinode .std⟩ := rfl
  have hne : ∀ k, k ≠ 0 → crowded.itable k = ⟨100 + k.val, 1, false, false, .fresh 0⟩ := fun k hk => if_neg hk
  refine ⟨hw.core, fun k _ => ?_, fun j k _ _ he => ?_, fun k _ hv => ?_⟩
  · rcases eq_or_ne k 0 with rfl | hk
    · rw [h0]; decide
    · rw [hne k hk]
      have : k.val < 50 := k.isLt
      show 100 + k.val < 200
      omega
  · by_contra hjk
    rcases eq_or_ne k 0 with rfl | hk
    · rw [h0, hne j hjk] at he
      change 100 + j.val = 1 at he
      omega
    · rcases eq_or_ne j 0 with rfl | hj
      · rw [h0, hne k hk] at he
        change 1 = 100 + k.val at he
        omega
      · rw [hne j hj, hne k hk] at he
        change 100 + j.val = 100 + k.val at he
        exact hjk (Fin.ext (by omega))
  · rcases eq_or_ne k 0 with rfl | hk
    · rw [h0]
      exact ⟨hdinode.symm, by rw [hdinode]; decide⟩
    · rw [hne k hk] at hv
      cases hv

theorem crowded_dirOk : DirOk True Superblock.std.ninodes (node crowded ROOTINO) := by
  obtain ⟨hsize, htype, hfree, ⟨hinum0, hkey0⟩, ⟨hinum1, hkey1⟩, hinum2, hkey2⟩ := crowded_node
  -- only the first three entries are in use
  have hused : ∀ {k}, (node crowded ROOTINO).Has k → ((node crowded ROOTINO).dirent k).inum ≠ 0 → k < 3 := by
    intro k hk hne
    rw [Node.Has, hsize] at hk
    by_contra hge
    exact hne (hfree ⟨k, by simp only [DESIZE] at hk; omega⟩ (Nat.not_lt.mp hge))
  refine ⟨fun k hk => ?_, fun _ => by rw [hsize]; decide, fun _ j k hj hk hj0 hk0 hkey => ?_⟩
  · rcases eq_or_ne ((node crowded ROOTINO).dirent k).inum 0 with h0 | hne
    · rw [h0]; decide
    · have hk3 := hused hk hne
      interval_cases k
      · rw [hinum0]; decide
      · rw [hinum1]; decide
      · rw [hinum2]; decide
  · have hj3 := hused hj hj0
    have hk3 := hused hk hk0
    interval_cases j <;> interval_cases k <;> simp only [hkey0, hkey1, hkey2] at hkey ⊢ <;> revert hkey <;> decide

theorem crowded_dir : Dir crowded 0 where
  wf := crowded_wf
  ready := ⟨Nat.one_pos, rfl⟩
  type := crowded_node.2.1
  ok := ⟨fun k _ => dirent_inum_lt _ k, crowded_dirOk.whole, crowded_dirOk.distinct⟩

theorem crowded_agrees : (node crowded (crowded.itable 0).inum).Agrees .a 2 := by
  obtain ⟨hsize, -, -, -, -, hinum, hkey⟩ := crowded_node
  have hhas : (node crowded ROOTINO).Has 2 := by rw [Node.Has, hsize]; decide
  exact agrees_iff.mpr ⟨hhas, by rw [show (crowded.itable 0).inum = ROOTINO from rfl, hinum]; decide, hkey⟩

theorem directory_is_map_crowded : Dir crowded 0 ∧ entriesOf crowded 0 Str.a.cut = 2 :=
  ⟨crowded_dir, ((directory_is_map crowded_dir .a).2.1 2 crowded_agrees).1.trans crowded_node.2.2.2.2.2.1⟩

/-- The entry is there, but `iget` has no place for the inode. -/
theorem dirlookup_panics : ∃ s dp k, ∃ x : Str, Dir s dp ∧ (node s (s.itable dp).inum).Agrees x k ∧
    dirlookup dp x.cut s = .error .igetNoInodes := by
  refine ⟨crowded, 0, 2, .a, crowded_dir, crowded_agrees, ?_⟩
  have h : (match dirlookup 0 Str.a.cut crowded with
      | .error e => decide (e = .igetNoInodes)
      | .ok _ => false) = true := by decide +kernel
  split at h
  · rename_i e he
    rw [he, of_decide_eq_true h]
  · cases h

end Minios.Fs
