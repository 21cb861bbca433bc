import Minios.Find.Walk

/-! `user/find.c`: what `find` prints.

    It goes by names: what it sees of `path` are the entries of the directory that `path` names, and, for each of them
    that names a directory, what it sees of `path/name`. Unless `path` is empty, that is the tree below the directory:
    the path "" is the current directory, but "/name" starts at the root.

    An entry `d` levels down is looked at with `d` directories open, and that takes one more descriptor. With `f`
    descriptors free, `find` gets all entries if they are less than `f` levels down, and tells otherwise. -/

namespace Minios.Find
open Schemes Function Fs

open Sysfile (MAXPATH NOFILE NDEV)

variable {w : World} {target p : Str} {cmd : Option (List Str)} {fds : Fds} {i j k f : ℕ} {n m : Name}
  {rel rel' : List Name} {out : List Out}

/-! ### Descriptors -/

/-- The number of descriptors that are not in use. -/
def free (fds : Fds) : ℕ := (List.range NOFILE).countP fun fd => fds fd = false

theorem countP_update {α : Type*} [DecidableEq α] {f : α → Bool} {a : α} : ∀ {xs : List α}, xs.Nodup → a ∈ xs → f a = false →
    xs.countP (fun x => f x = false) = xs.countP (fun x => update f a true x = false) + 1
  | x :: xs, hnd, ha, hf => by
      rw [List.nodup_cons] at hnd
      rw [List.countP_cons, List.countP_cons]
      rcases eq_or_ne x a with rfl | hne
      · have hsame : xs.countP (fun y => update f x true y = false) = xs.countP (fun y => f y = false) :=
          List.countP_congr fun y hy => by rw [update_of_ne (by rintro rfl; exact hnd.1 hy)]
        rw [hsame, if_pos (decide_eq_true hf), if_neg (by rw [update_self]; decide)]
      · rw [update_of_ne hne, countP_update hnd.2 ((List.mem_cons.mp ha).resolve_left hne.symm) hf]
        omega

theorem fdalloc_none : fdalloc fds = none ↔ free fds = 0 := by
  rw [fdalloc, free, List.find?_eq_none, List.countP_eq_zero]

theorem fdalloc_some {fd : ℕ} (h : fdalloc fds = some fd) :
    fds fd = false ∧ free fds = free (update fds fd true) + 1 := by
  have hfree : fds fd = false := by simpa using List.find?_some h
  exact ⟨hfree, countP_update List.nodup_range (List.mem_of_find?_eq_some h) hfree⟩

theorem close_open {fd : ℕ} (h : fds fd = false) : close (update fds fd true) fd = fds := by
  rw [close, update_idem, ← h, update_eq_self]

theorem stat_eq (w : World) (fds : Fds) (path : Str) :
    w.stat fds path = ((if free fds = 0 then none else w.opens path).map fun i => (w.node i).type, fds) := by
  rw [World.stat, World.open]
  cases w.opens path with
  | none => simp
  | some i =>
    cases hfd : fdalloc fds with
    | none => simp [fdalloc_none.mp hfd]
    | some fd =>
      obtain ⟨h1, h2⟩ := fdalloc_some hfd
      have hne : free fds ≠ 0 := by omega
      simp [hne, close_open h1]

/-! ### Entries -/

def World.IsDir (w : World) (i : ℕ) : Prop := (w.node i).type = T_DIR

/-- Directory `i` has an entry `n` for inode `j`. -/
def World.Child (w : World) (i : ℕ) (n : Name) (j : ℕ) : Prop :=
  ∃ k, (w.node i).Has k ∧ ((w.node i).dirent k).inum = j ∧ j ≠ 0 ∧ name ((w.node i).dirent k) = n ∧ n ≠ .dot ∧ n ≠ .dotdot

/-- DIRECTORY TREE: names are names, no two entries of a directory have the same, and there is no way down that does
    not end. -/
structure Tree (w : World) : Prop where
  named : ∀ i n j, w.IsDir i → w.Child i n j → n.bytes ≠ [] ∧ SLASH ∉ n.bytes
  distinct : ∀ i, w.IsDir i → ∀ j k, (w.node i).Has j → (w.node i).Has k → ((w.node i).dirent j).inum ≠ 0 →
    ((w.node i).dirent k).inum ≠ 0 → ((w.node i).dirent j).key = ((w.node i).dirent k).key → j = k
  finite : WellFounded fun j i => w.IsDir j ∧ ∃ n, w.Child i n j

/-- `path`, and names below it. -/
def full (path : Str) (rel : List Name) : Str := rel.foldl sub path

/-- Entry `rel` is strictly below directory `i`, for inode `j`. -/
inductive Below (w : World) : ℕ → List Name → ℕ → Prop
  | here {i : ℕ} {n : Name} {j : ℕ} : w.Child i n j → Below w i [n] j
  | there {i : ℕ} {n : Name} {k : ℕ} {rel : List Name} {j : ℕ} : w.Child i n k → w.IsDir k → Below w k rel j → Below w i (n :: rel) j

/-- What is seen of a path, going by names. -/
def Seen (w : World) : Str → List Name → Prop
  | _, [] => False
  | p, n :: rel => (∃ i j, w.namei p = some i ∧ w.Child i n j) ∧
    (rel = [] ∨ (∃ j, w.namei (sub p n) = some j ∧ w.IsDir j) ∧ Seen w (sub p n) rel)

/-- With `f` descriptors everything that is seen can be opened. -/
def Fine (w : World) (f : ℕ) (p : Str) : Prop :=
  0 < f ∧ ∀ rel, Seen w p rel → (∃ j, w.opens (full p rel) = some j) ∧ rel.length < f

theorem opens_eq_some : w.opens p = some j ↔ w.namei p = some j ∧
    ¬ ((w.node j).type = T_DEVICE ∧ (2 ^ 15 ≤ (w.node j).major ∨ NDEV ≤ (w.node j).major)) := by
  rw [World.opens, Option.filter_eq_some_iff, decide_eq_true_eq]

theorem opens_dir (h : w.namei p = some j) (hdir : w.IsDir j) : w.opens p = some j :=
  opens_eq_some.mpr ⟨h, fun hd => by rw [hdir] at hd; exact absurd hd.1 (by decide)⟩

/-! ### Names -/

theorem full_cons (p : Str) (n : Name) (rel : List Name) : full p (n :: rel) = full (sub p n) rel := rfl

theorem full_bytes : ∀ (rel : List Name) (p : Str),
    (full p rel).bytes = p.bytes ++ rel.flatMap fun n => SLASH :: n.bytes
  | [], p => (List.append_nil _).symm
  | n :: rel, p => by
      rw [full_cons, full_bytes rel, List.flatMap_cons, ← List.append_assoc]
      rfl

theorem takeWhile_flatMap (hn : SLASH ∉ n.bytes) (rel : List Name) :
    (n.bytes ++ rel.flatMap fun n => SLASH :: n.bytes).takeWhile (· ≠ SLASH) = n.bytes := by
  have hall : ∀ c ∈ n.bytes, decide (c ≠ SLASH) = true := fun c hc => by
    rw [decide_eq_true_eq]
    rintro rfl
    exact hn hc
  rw [List.takeWhile_append_of_pos hall]
  cases rel with
  | nil => simp
  | cons m rel => simp

theorem flatMap_cancel (hn : SLASH ∉ n.bytes) (hm : SLASH ∉ m.bytes)
    (h : (n :: rel).flatMap (fun n => SLASH :: n.bytes) = (m :: rel').flatMap fun n => SLASH :: n.bytes) :
    n = m ∧ rel.flatMap (fun n => SLASH :: n.bytes) = rel'.flatMap fun n => SLASH :: n.bytes := by
  rw [List.flatMap_cons, List.flatMap_cons, List.cons_append, List.cons_append, List.cons.injEq] at h
  have hnm : n = m := by
    refine Name.ext_bytes ?_
    rw [← takeWhile_flatMap hn rel, ← takeWhile_flatMap hm rel', h.2]
  subst hnm
  exact ⟨rfl, List.append_cancel_left h.2⟩

theorem flatMap_injective : ∀ {rel rel' : List Name}, (∀ n ∈ rel, SLASH ∉ n.bytes) → (∀ n ∈ rel', SLASH ∉ n.bytes) →
    rel.flatMap (fun n => SLASH :: n.bytes) = rel'.flatMap (fun n => SLASH :: n.bytes) → rel = rel'
  | [], [], _, _, _ => rfl
  | [], _ :: _, _, _, h => by simp at h
  | _ :: _, [], _, _, h => by simp at h
  | n :: rel, m :: rel', h1, h2, h => by
      rw [List.forall_mem_cons] at h1 h2
      obtain ⟨rfl, hrest⟩ := flatMap_cancel h1.1 h2.1 h
      rw [flatMap_injective h1.2 h2.2 hrest]

theorem full_injective (h1 : ∀ n ∈ rel, SLASH ∉ n.bytes) (h2 : ∀ n ∈ rel', SLASH ∉ n.bytes)
    (h : full p rel = full p rel') : rel = rel' := by
  refine flatMap_injective h1 h2 ?_
  have hb := congrArg Str.bytes h
  rw [full_bytes, full_bytes] at hb
  exact List.append_cancel_left hb

theorem report_injective {x y : Str} (h : report cmd x = report cmd y) : x = y := by
  cases cmd with
  | none => exact Out.found.inj h
  | some argv => simpa using Out.exec.inj h

/-! ### What a path names -/

theorem elems_sub (p : Str) (hn : n.bytes ≠ []) (hs : SLASH ∉ n.bytes) : elems (sub p n) = elems p ++ [n] := by
  have hinj : Function.Injective fun x : Name => x.bytes := fun _ _ => Name.ext_bytes
  refine List.map_injective_iff.mpr hinj ?_
  have hone : words (· = SLASH) n.bytes = [n.bytes] := by
    have hno : ∀ c ∈ n.bytes, decide (c = SLASH) = false := fun c hc => by
      rw [decide_eq_false_iff_not]
      rintro rfl
      exact hs hc
    rw [words, List.splitOnP_eq_singleton hno]
    simpa using hn
  have hsplit : words (· = SLASH) (p.bytes ++ SLASH :: n.bytes) = words (· = SLASH) p.bytes ++ words (· = SLASH) n.bytes := by
    rw [words, words, words, List.splitOnP_append_cons _ _ (by simp), List.filter_append]
  rw [elems_words, List.map_append, elems_words]
  show (words _ (p.bytes ++ SLASH :: n.bytes)).map _ = _
  rw [hsplit, hone, List.map_append, List.map_singleton, List.map_singleton, List.take_of_length_le n.short]

theorem namei_short (h : w.namei p = some i) : p.bytes.length < MAXPATH := by
  by_contra hn
  rw [World.namei, if_neg hn] at h
  cases h

theorem namei_sub (hp : p.bytes ≠ []) (hi : w.namei p = some i) (hn : n.bytes ≠ []) (hs : SLASH ∉ n.bytes)
    (hlen : (sub p n).bytes.length < MAXPATH) : w.namei (sub p n) = w.lookupIn i n := by
  have hstart : w.start (sub p n) = w.start p := by
    rw [World.start, World.start]
    congr 2
    show (p.bytes ++ _).head? = _
    obtain ⟨c, cs, hc⟩ := List.exists_cons_of_ne_nil hp
    rw [hc]
    rfl
  rw [World.namei, if_pos (namei_short hi)] at hi
  rw [World.namei, if_pos hlen, elems_sub p hn hs, hstart, List.foldlM_append, hi]
  exact Option.bind_fun_some _

theorem child_lookup (ht : Tree w) (hdir : w.IsDir i) (h : w.Child i n j) : w.lookupIn i n = some j := by
  obtain ⟨k, hk, hj, hj0, hn, -⟩ := h
  have hnamed : ((w.node i).dirent k).Named n := ⟨hj ▸ hj0, by rw [← hn]; rfl⟩
  have hlook : (w.node i).lookup n = j := by
    rw [Node.lookup]
    cases hi : (w.node i).index n with
    | none => exact absurd hnamed (index_none.mp hi k hk)
    | some l =>
      obtain ⟨hl, hlname⟩ := index_some hi
      have := ht.distinct i hdir l k hl hk hlname.1 hnamed.1 (hlname.2.trans hnamed.2.symm)
      rw [Option.elim_some, this, hj]
  rw [World.lookupIn, if_pos ⟨hdir, by rw [hlook]; exact hj0⟩, hlook]

theorem namei_child (ht : Tree w) (hp : p.bytes ≠ []) (hi : w.namei p = some i) (hdir : w.IsDir i) (h : w.Child i n j)
    (hlen : (sub p n).bytes.length < MAXPATH) : w.namei (sub p n) = some j := by
  obtain ⟨hn, hs⟩ := ht.named i n j hdir h
  rw [namei_sub hp hi hn hs hlen, child_lookup ht hdir h]

/-! ### One level -/

/-- The names seen through entry `n`, below it. -/
def Through (w : World) (p : Str) (n : Name) (rel : List Name) : Prop :=
  rel = [] ∨ (∃ j, w.namei (sub p n) = some j ∧ w.IsDir j) ∧ Seen w (sub p n) rel

/-- With `f` descriptors, entry `n` and all that is seen through it can be opened. -/
def FineAt (w : World) (f : ℕ) (p : Str) (n : Name) : Prop :=
  ∃ j, w.opens (sub p n) = some j ∧ 0 < f ∧ (w.IsDir j → Fine w f (sub p n))

theorem seen_cons (hi : w.namei p = some i) : Seen w p (n :: rel) ↔ (∃ j, w.Child i n j) ∧ Through w p n rel := by
  rw [Seen, hi]
  simp only [Option.some.injEq, exists_and_left, exists_eq_left', Through]

/-- A directory takes one descriptor, and the others are for what is below. -/
theorem fine_succ (hi : w.namei p = some i) : Fine w (f + 1) p ↔ ∀ n, (∃ j, w.Child i n j) → FineAt w f p n := by
  refine ⟨fun h n hn => ?_, fun h => ⟨Nat.succ_pos f, fun rel hrel => ?_⟩⟩
  · replace h := h.2
    obtain ⟨⟨j, hj⟩, hlt⟩ := h [n] ((seen_cons hi).mpr ⟨hn, .inl rfl⟩)
    have hpos : 0 < f := Nat.lt_of_succ_lt_succ hlt
    refine ⟨j, hj, hpos, fun hdir => ⟨hpos, fun rel hrel => ?_⟩⟩
    have hall := h (n :: rel) ((seen_cons hi).mpr ⟨hn, .inr ⟨⟨j, (opens_eq_some.mp hj).1, hdir⟩, hrel⟩⟩)
    exact ⟨hall.1, Nat.lt_of_succ_lt_succ hall.2⟩
  · cases rel with
    | nil => exact hrel.elim
    | cons n rel =>
      obtain ⟨hn, hthru⟩ := (seen_cons hi).mp hrel
      obtain ⟨j, hj, hpos, hbelow⟩ := h n hn
      rcases hthru with rfl | ⟨⟨j', hj', hdir⟩, hseen⟩
      · exact ⟨⟨j, hj⟩, Nat.succ_lt_succ hpos⟩
      · obtain rfl : j' = j := Option.some.inj (hj'.symm.trans (opens_eq_some.mp hj).1)
        obtain ⟨hopen, hlt⟩ := (hbelow hdir).2 rel hseen
        exact ⟨hopen, Nat.succ_lt_succ hlt⟩

def Out.isError : Out → Bool
  | .found _ | .exec _ => false
  | _ => true

/-- What is printed for the names `R` below `p`, if they are `ok`: those that end in the target, each once. Otherwise
    there is an error. -/
structure Prints (target : Str) (cmd : Option (List Str)) (p : Str) (ok : Prop) (R : List Name → Prop) (out : List Out) :
    Prop where
  nodup : ok → out.Nodup
  mem : ok → ∀ x, x ∈ out ↔ ∃ rel, R rel ∧ rel.getLast?.map (·.bytes) = some target.bytes ∧ x = report cmd (full p rel)
  error : ¬ ok → ∃ x ∈ out, x.isError = true

/-- `find` comes back, with all its descriptors closed. -/
def Returns (w : World) (target : Str) (cmd : Option (List Str)) (p : Str) : Prop :=
  ∀ fds, ∃ N, ∀ fuel, N ≤ fuel → ∃ out, find w target cmd fuel fds p = some (out, fds) ∧
    Prints target cmd p (Fine w (free fds) p) (Seen w p) out

theorem prints_self (p : Str) (n : Name) : Prints target cmd p True (fun rel => rel = [n])
    (if n.bytes = target.bytes then [report cmd (sub p n)] else []) := by
  refine ⟨fun _ => ?_, fun _ x => ?_, fun h => absurd trivial h⟩
  · split
    · exact List.nodup_singleton _
    · exact List.nodup_nil
  · have hlast : ∀ rel : List Name, rel = [n] ∧ rel.getLast?.map (·.bytes) = some target.bytes ∧ x = report cmd (full p rel) ↔
        rel = [n] ∧ n.bytes = target.bytes ∧ x = report cmd (sub p n) := fun rel =>
      and_congr_right fun h => by subst h; simp [full]
    simp only [hlast, exists_eq_left]
    split
    · rename_i h; simp [h]
    · rename_i h; simp [h]

section

variable {ok ok' : Prop} {R R' : List Name → Prop} {out' : List Out}

theorem Prints.congr (h : Prints target cmd p ok R out) (hok : ok' ↔ ok) (hR : ∀ rel, R' rel ↔ R rel) :
    Prints target cmd p ok' R' out := by
  obtain rfl : ok' = ok := propext hok
  obtain rfl : R' = R := funext fun rel => propext (hR rel)
  exact h

/-- What is printed one after the other, of different names. -/
theorem Prints.append (h : Prints target cmd p ok R out) (h' : Prints target cmd p ok' R' out')
    (hdiff : ∀ rel rel', R rel → R' rel' → full p rel ≠ full p rel') :
    Prints target cmd p (ok ∧ ok') (fun rel => R rel ∨ R' rel) (out ++ out') := by
  refine ⟨fun hok => ?_, fun hok x => ?_, fun hno => ?_⟩
  · refine List.Nodup.append (h.nodup hok.1) (h'.nodup hok.2) fun x hx hx' => ?_
    obtain ⟨rel, hrel, -, he⟩ := (h.mem hok.1 x).mp hx
    obtain ⟨rel', hrel', -, he'⟩ := (h'.mem hok.2 x).mp hx'
    exact hdiff rel rel' hrel hrel' (report_injective (he.symm.trans he'))
  · rw [List.mem_append, h.mem hok.1, h'.mem hok.2, ← exists_or]
    simp only [or_and_right]
  · rcases not_and_or.mp hno with hno | hno
    · obtain ⟨x, hx, he⟩ := h.error hno
      exact ⟨x, List.mem_append_left _ hx, he⟩
    · obtain ⟨x, hx, he⟩ := h'.error hno
      exact ⟨x, List.mem_append_right _ hx, he⟩

theorem Prints.under (h : Prints target cmd (sub p n) ok R out) (hne : ¬ R []) :
    Prints target cmd p ok (fun rel => ∃ r, rel = n :: r ∧ R r) out := by
  refine ⟨h.nodup, fun h1 x => (h.mem h1 x).trans ⟨?_, ?_⟩, h.error⟩
  · rintro ⟨r, hr, hlast, hx⟩
    refine ⟨n :: r, ⟨r, rfl, hr⟩, ?_, hx⟩
    cases r with
    | nil => exact absurd hr hne
    | cons m r => rwa [List.getLast?_cons_cons]
  · rintro ⟨_, ⟨r, rfl, hr⟩, hlast, hx⟩
    refine ⟨r, hr, ?_, hx⟩
    cases r with
    | nil => exact absurd hr hne
    | cons m r => rwa [List.getLast?_cons_cons] at hlast

theorem prints_nothing (hno : ∀ rel, ¬ R rel) : Prints target cmd p True R [] :=
  ⟨fun _ => List.nodup_nil, fun _ _ => iff_of_false List.not_mem_nil fun h => h.elim fun rel h => hno rel h.1,
    fun h => absurd trivial h⟩

theorem prints_error {x : Out} (hx : x.isError = true) (hno : ¬ ok) : Prints target cmd p ok R [x] :=
  ⟨fun h => absurd h hno, fun h => absurd h hno, fun _ => ⟨x, List.mem_singleton_self x, hx⟩⟩

end

/-- The loop's body, for an entry that is neither free nor a dot. -/
theorem visit_prints {de : Dirent} (hlive : de.inum ≠ 0) (hdot : ¬ (name de = .dot ∨ name de = .dotdot))
    (hrec : ∀ j, w.namei (sub p (name de)) = some j → w.IsDir j → Returns w target cmd (sub p (name de))) (fds : Fds) :
    ∃ N, ∀ fuel, N ≤ fuel → ∃ out, visit w target cmd (find w target cmd fuel) p fds de = some (out, fds) ∧
      Prints target cmd p (FineAt w (free fds) p (name de)) (fun rel => ∃ r, rel = name de :: r ∧ Through w p (name de) r)
        out := by
  have hself : Prints target cmd p True (fun rel => rel = [name de]) _ := prints_self p (name de)
  simp only [visit, if_neg hlive, if_neg hdot, stat_eq]
  by_cases hf : free fds = 0
  · refine ⟨0, fun fuel _ => ⟨[.cannotStat (sub p (name de))], by rw [if_pos hf]; rfl, prints_error rfl ?_⟩⟩
    rintro ⟨-, -, hpos, -⟩
    omega
  rw [if_neg hf]
  cases hopen : w.opens (sub p (name de)) with
  | none =>
    refine ⟨0, fun fuel _ => ⟨[.cannotStat (sub p (name de))], rfl, prints_error rfl ?_⟩⟩
    rintro ⟨j, hj, -⟩
    rw [hopen] at hj
    cases hj
  | some j =>
    have hnamei := (opens_eq_some.mp hopen).1
    have hfine : FineAt w (free fds) p (name de) ↔ (w.IsDir j → Fine w (free fds) (sub p (name de))) := by
      refine ⟨?_, fun h => ⟨j, hopen, Nat.pos_of_ne_zero hf, h⟩⟩
      rintro ⟨j', hj', _, h⟩
      obtain rfl : j = j' := Option.some.inj (hopen.symm.trans hj')
      exact h
    simp only [Option.map_some]
    by_cases hdir : w.IsDir j
    · obtain ⟨N, hN⟩ := hrec j hnamei hdir fds
      refine ⟨N, fun fuel hfuel => ?_⟩
      obtain ⟨out, hout, hp⟩ := hN fuel hfuel
      refine ⟨_, (if_pos hdir).trans (by rw [hout]; rfl), ?_⟩
      refine (hself.append (hp.under id) ?_).congr (hfine.trans ⟨fun h => ⟨trivial, h hdir⟩, fun h _ => h.2⟩) fun rel => ?_
      · rintro rel rel' rfl ⟨r, rfl, hr⟩ he
        have hlen := congrArg (fun x => x.bytes.length) he
        cases r with
        | nil => exact hr
        | cons m r =>
          simp only [full_bytes, List.length_append, List.flatMap_cons, List.length_cons, List.flatMap_nil,
            List.length_nil] at hlen
          omega
      · constructor
        · rintro ⟨r, he, rfl | hr⟩
          · exact .inl he
          · exact .inr ⟨r, he, hr.2⟩
        · rintro (rfl | ⟨r, he, hr⟩)
          · exact ⟨[], rfl, .inl rfl⟩
          · exact ⟨r, he, .inr ⟨⟨j, hnamei, hdir⟩, hr⟩⟩
    · refine ⟨0, fun fuel _ => ⟨_, if_neg hdir, ?_⟩⟩
      refine hself.congr (hfine.trans (iff_true_intro fun h => absurd h hdir)) fun rel => ?_
      refine ⟨?_, fun h => ⟨[], h, .inl rfl⟩⟩
      rintro ⟨r, he, rfl | ⟨⟨j', hj', hdir'⟩, -⟩⟩
      · exact he
      · obtain rfl : j = j' := Option.some.inj (hnamei.symm.trans hj')
        exact absurd hdir' hdir

/-- The names of entries that are neither free nor a dot. -/
def names (des : List Dirent) : List Name :=
  (des.filter fun de => de.inum ≠ 0 ∧ ¬ (name de = .dot ∨ name de = .dotdot)).map name

theorem scan_prints : ∀ (des : List Dirent), (names des).Nodup → (∀ n ∈ names des, SLASH ∉ n.bytes) →
    (∀ n ∈ names des, ∀ j, w.namei (sub p n) = some j → w.IsDir j → Returns w target cmd (sub p n)) → ∀ fds : Fds,
    ∃ N, ∀ fuel, N ≤ fuel → ∃ out, scan w target cmd (find w target cmd fuel) p fds des = some (out, fds) ∧
      Prints target cmd p (∀ n ∈ names des, FineAt w (free fds) p n)
        (fun rel => ∃ n ∈ names des, ∃ r, rel = n :: r ∧ Through w p n r) out
  | [], _, _, _, fds => by
      refine ⟨0, fun fuel _ => ⟨[], rfl, ?_⟩⟩
      refine (prints_nothing fun rel h => ?_).congr (iff_true_intro nofun) fun _ => Iff.rfl
      obtain ⟨n, hn, -⟩ := h
      cases hn
  | de :: des, hnd, hslash, hrec, fds => by
      by_cases hskip : de.inum = 0 ∨ (name de = .dot ∨ name de = .dotdot)
      · have hnames : names (de :: des) = names des := by
          rw [names, List.filter_cons_of_neg]
          · rfl
          · simp only [decide_eq_true_eq]
            rintro ⟨h1, h2⟩
            exact hskip.elim h1 h2
        have hvisit : ∀ fuel, visit w target cmd (find w target cmd fuel) p fds de = some ([], fds) := fun fuel => by
          rw [visit]
          split
          · rfl
          · rename_i h0
            rw [if_pos (hskip.resolve_left h0)]
        rw [hnames] at hnd hslash hrec ⊢
        obtain ⟨N, hN⟩ := scan_prints des hnd hslash hrec fds
        refine ⟨N, fun fuel hfuel => ?_⟩
        obtain ⟨out, hout, hp⟩ := hN fuel hfuel
        exact ⟨out, by rw [scan, hvisit, Option.bind_some, hout]; rfl, hp⟩
      · obtain ⟨hlive, hdot⟩ := not_or.mp hskip
        have hnames : names (de :: des) = name de :: names des := by
          rw [names, List.filter_cons_of_pos]
          · rfl
          · exact decide_eq_true ⟨hlive, hdot⟩
        rw [hnames] at hnd hslash hrec ⊢
        rw [List.nodup_cons] at hnd
        rw [List.forall_mem_cons] at hslash hrec
        obtain ⟨N₁, hN₁⟩ := visit_prints hlive hdot hrec.1 fds
        obtain ⟨N₂, hN₂⟩ := scan_prints des hnd.2 hslash.2 hrec.2 fds
        refine ⟨max N₁ N₂, fun fuel hfuel => ?_⟩
        obtain ⟨out₁, hout₁, hp₁⟩ := hN₁ fuel (by omega)
        obtain ⟨out₂, hout₂, hp₂⟩ := hN₂ fuel (by omega)
        refine ⟨out₁ ++ out₂, by rw [scan, hout₁, Option.bind_some, hout₂]; rfl, ?_⟩
        refine (hp₁.append hp₂ ?_).congr (List.forall_mem_cons ..) fun rel => ?_
        · -- the names differ, so the paths do
          rintro rel rel' ⟨r, rfl, -⟩ ⟨n, hn, r', rfl, -⟩ he
          have hb := congrArg Str.bytes he
          rw [full_bytes, full_bytes] at hb
          obtain ⟨rfl, -⟩ := flatMap_cancel hslash.1 (hslash.2 n hn) (List.append_cancel_left hb)
          exact hnd.1 hn
        · simp only [List.mem_cons, exists_eq_or_imp]

theorem mem_names : n ∈ names (entries (w.node i)) ↔ ∃ j, w.Child i n j := by
  simp only [names, entries, List.mem_map, List.mem_filter, List.mem_range, decide_eq_true_eq, World.Child, ← has_iff]
  constructor
  · rintro ⟨_, ⟨⟨k, hk, rfl⟩, hlive, hdot⟩, rfl⟩
    exact ⟨_, k, hk, rfl, hlive, rfl, not_or.mp hdot⟩
  · rintro ⟨j, k, hk, rfl, hlive, rfl, hdot⟩
    exact ⟨_, ⟨⟨k, hk, rfl⟩, hlive, not_or.mpr hdot⟩, rfl⟩

theorem nodup_names (ht : Tree w) (hdir : w.IsDir i) : (names (entries (w.node i))).Nodup := by
  rw [names, entries, List.filter_map, List.map_map]
  refine (List.nodup_range.filter _).map_on fun j hj k hk he => ?_
  simp only [List.mem_filter, List.mem_range, comp_apply, decide_eq_true_eq, ← has_iff] at hj hk
  exact ht.distinct i hdir j k hj.1 hk.1 hj.2.1 hk.2.1 (congrArg (fun x : Name => x.bytes) he)

/-- LEVEL: if the calls for its entries come back, the call for a directory does. -/
theorem returns_level (ht : Tree w) (hi : w.namei p = some i) (hdir : w.IsDir i)
    (hrec : ∀ n c j, w.Child i n c → w.namei (sub p n) = some j → w.IsDir j → Returns w target cmd (sub p n)) :
    Returns w target cmd p := fun fds => by
  have hopens := opens_dir hi hdir
  cases hfd : fdalloc fds with
  | none =>
    have h0 := fdalloc_none.mp hfd
    refine ⟨1, fun fuel hfuel => ⟨[.cannotOpen p], ?_, prints_error rfl fun h => absurd h.1 (by omega)⟩⟩
    obtain ⟨fuel, rfl⟩ := Nat.exists_eq_add_of_le' hfuel
    rw [find, World.open, hopens, hfd]
  | some fd =>
    obtain ⟨hfree, hcount⟩ := fdalloc_some hfd
    have hslash : ∀ n ∈ names (entries (w.node i)), SLASH ∉ n.bytes := fun n hn => by
      obtain ⟨j, hj⟩ := mem_names.mp hn
      exact (ht.named i n j hdir hj).2
    obtain ⟨N, hN⟩ := scan_prints (entries (w.node i)) (nodup_names ht hdir) hslash (fun n hn j => by
      obtain ⟨c, hc⟩ := mem_names.mp hn
      exact hrec n c j hc) (update fds fd true)
    refine ⟨N + 1, fun fuel hfuel => ?_⟩
    obtain ⟨fuel, rfl⟩ := Nat.exists_eq_add_of_le' (Nat.le_trans (Nat.le_add_left 1 N) hfuel)
    obtain ⟨out, hout, hp⟩ := hN fuel (Nat.le_of_succ_le_succ hfuel)
    have hshort : ¬ p.bytes.length + 1 + DIRSIZ + 1 > BUFSIZE := by
      have := namei_short hi
      simp only [MAXPATH, DIRSIZ, BUFSIZE] at *
      omega
    refine ⟨out, ?_, hp.congr ?_ fun rel => ?_⟩
    · rw [find, World.open, hopens, hfd]
      simp only [if_neg hshort, hout, Option.map_some, close_open hfree]
    · rw [hcount, fine_succ hi]
      simp only [mem_names]
    · cases rel with
      | nil =>
        refine iff_of_false id ?_
        rintro ⟨n, -, r, ⟨⟩, -⟩
      | cons n rel =>
        rw [seen_cons hi]
        simp only [mem_names, List.cons.injEq]
        refine ⟨fun h => ⟨n, h.1, rel, ⟨rfl, rfl⟩, h.2⟩, ?_⟩
        rintro ⟨_, hc, _, ⟨rfl, rfl⟩, hr⟩
        exact ⟨hc, hr⟩

/-- Below a path that is not empty, every call goes down the tree. -/
theorem returns_of_ne_nil (ht : Tree w) : ∀ (i : ℕ) (p : Str), p.bytes ≠ [] → w.namei p = some i → w.IsDir i →
    Returns w target cmd p := fun i => by
  induction i using ht.finite.induction with
  | _ i ih =>
    intro p hp hi hdir
    refine returns_level ht hi hdir fun n c j hc hj hdirj => ?_
    have hjc := hj.symm.trans (namei_child ht hp hi hdir hc (namei_short hj))
    obtain rfl := Option.some.inj hjc
    exact ih j ⟨hdirj, n, hc⟩ (sub p n) (by simp [sub]) hj hdirj

theorem returns (ht : Tree w) (hi : w.namei p = some i) (hdir : w.IsDir i) : Returns w target cmd p :=
  returns_level ht hi hdir fun n _ j _ hj hdirj => returns_of_ne_nil ht j (sub p n) (by simp [sub]) hj hdirj

end Minios.Find
