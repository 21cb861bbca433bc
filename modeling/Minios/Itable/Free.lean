import Minios.Itable.Refs

/-! `kernel/fs.c`: does the last `iput` free an inode without links?

    `iput` decides on `ref == 1` and decrements only after it has freed the inode and given up both
    locks. In between `ialloc` may find the dinode free and hand it out again, through the same entry:

        P: iput  ref 1 ─▶ free the inode ──────────────────────────────────────▶ ref-- : 0
        Q:                     create: ialloc, ilock, nlink = 1, fails, nlink = 0, iput : ref is 2

    Q does not free its inode since `ref` is 2, P does not look again: the inode is allocated, has no
    link and no entry. Without such a reuse no free is missed: an entry in use whose inode is allocated
    and has no links is VALID, or belongs to a `create` that is about to lock it. -/

namespace Minios.Itable
open Schemes Function Fs

variable {P : Type} {n : ℕ} {i j : Fin n} {p q : P} {s t : Sys P n}

/-- Who makes the step. -/
def Label.proc : Label P n → P
  | .iget p _ _ | .idup p _ | .ilock p _ | .load p _ | .iunlock p _ | .iupdate p _ _ | .iput p _ | .freeLock p _
  | .trunc p _ | .clear p _ | .inval p _ | .unlock p _ | .drop p _ | .ialloc p _ _ | .born p _ _ | .give p _ _ => p

/-- `create` locks the inode that `ialloc` has returned. -/
def create (s : Sys P n) (l : Label P n) : Bool := match s.pc l.proc with
  | .born i => match l with
    | .ilock _ j => i = j
    | _ => false
  | _ => true

def Label.locks : Label P n → Bool
  | .ilock _ _ => true
  | _ => false

theorem not_born {l : Label P n} (hc : create s l = true) (hl : l.locks = false) (j : Fin n) : s.pc l.proc ≠ .born j := by
  intro hb
  rw [create, hb] at hc
  cases l with
  | ilock p i => cases hl
  | _ => cases hc

/-- An allocated inode without links. -/
def Dinode.orphan (d : Dinode) : Prop := d.type ≠ 0 ∧ d.nlink = 0

/-- Every orphan with an entry in use has been looked at, or will be. -/
structure Watched (s : Sys P n) : Prop where
  orphan : ∀ i, 0 < (s.entry i).ref → (s.entry i).valid = false → Dinode.orphan (s.disk (s.entry i).inum) →
    ∃ q, s.pc q = .born i ∨ s.pc q = .load i
  freed : ∀ p i, (s.pc p).freed i → (s.disk (s.entry i).inum).type = 0
  born : ∀ p i, s.pc p = .born i → 0 < s.refs p i

theorem watched_init (disk : ℕ → Dinode) : Watched (Sys.init P n disk) := by
  refine ⟨fun i h => absurd h (Nat.lt_irrefl 0), fun p i hp => ?_, by rintro p i ⟨⟩⟩
  rcases hp with hp | hp | hp <;> cases hp

theorem Watched.not_freed [Fintype P] (hw : Watched s) (h : Inv s) (href : 0 < s.refs p i) (hlive : ¬(s.pc p).freed i) (q : P) :
    ¬(s.pc q).freed i := fun hq => (h.ok i).live p href hlive (hw.freed q i hq)

variable [DecidableEq P]

/-- The steps of `create`, `link`, `unlink`, `open`, `close` and path lookup. -/
def fsStep (s : Sys P n) (l : Label P n) : Option (Sys P n) := if create s l then step s l else none

/-- When the `ref` of an entry becomes 0, the inode it named is no orphan. -/
def NoMissedFree (s : Sys P n) : Prop := ∀ l t i, fsStep s l = some t → 0 < (s.entry i).ref → (t.entry i).ref = 0 →
  ¬Dinode.orphan (t.disk (s.entry i).inum)

/-- The condition: `ialloc` does not take an inode that an entry in use still names. -/
def noReuse (s : Sys P n) : Label P n → Prop
  | .ialloc _ x _ => ∀ i, 0 < (s.entry i).ref → (s.entry i).inum ≠ x
  | _ => True

theorem ref_zero {l : Label P n} (hpos : 0 < (s.entry i).ref) (hz : ((next s l).entry i).ref = 0) :
    (∃ p, l = .iput p i ∧ ¬(s.entry i).dead ∧ (s.entry i).ref = 1) ∨ ∃ p, l = .drop p i := by
  have hset : ∀ {k : Fin n} {e : Entry P}, (update s.entry k e i).ref = 0 → k = i ∧ e.ref = 0 := by
    intro k e hk
    rcases eq_or_ne i k with rfl | hne
    · rw [update_self] at hk; exact ⟨rfl, hk⟩
    · rw [update_of_ne hne] at hk; omega
  have hget : ∀ {x : ℕ}, ((s.entry i).get x).ref ≠ 0 := by
    intro x
    rw [Entry.get, if_pos hpos]
    exact Nat.succ_ne_zero _
  cases l with
  | iput p k =>
    rw [next] at hz
    split at hz
    · exact absurd hz hpos.ne'
    · rename_i hdead
      obtain ⟨rfl, hk⟩ := hset hz
      have hk' : (s.entry k).ref - 1 = 0 := hk
      exact Or.inl ⟨p, rfl, hdead, by omega⟩
  | drop p k =>
    obtain ⟨rfl, -⟩ := hset hz
    exact Or.inr ⟨p, rfl⟩
  | iget p x k | born p x k =>
    obtain ⟨rfl, hk⟩ := hset hz
    exact absurd hk hget
  | idup p k =>
    obtain ⟨rfl, hk⟩ := hset hz
    exact absurd hk (Nat.succ_ne_zero _)
  | load p k =>
    rw [next] at hz
    split at hz
    · exact absurd hz hpos.ne'
    · obtain ⟨rfl, hk⟩ := hset hz
      exact absurd hk hpos.ne'
  | ilock p k | iunlock p k | freeLock p k | inval p k | unlock p k | iupdate p k d | trunc p k | clear p k =>
    obtain ⟨rfl, hk⟩ := hset hz
    exact absurd hk hpos.ne'
  | ialloc p x type | give p q k => exact absurd hz hpos.ne'

theorem Sys.setRefs_other (s : Sys P n) (i : Fin n) (k : ℕ) (hq : q ≠ p) (j : Fin n) :
    (s.setRefs p i k).refs q j = s.refs q j := by
  rw [Sys.setRefs]
  simp only [update_of_ne hq]

section Steps
variable [Fintype P]

theorem Watched.put {c : Pc n} (hw : Watched s) (h : Inv s) (hpc : t.pc = update s.pc p c)
    (hold : (s.pc p).entry = none ∨ (s.pc p).entry = some i) (hnew : c.entry = none ∨ c.entry = some i)
    (hborn : ∀ j, j ≠ i → s.pc p ≠ .born j) (hentry : ∀ j, j ≠ i → t.entry j = s.entry j)
    (hrefs : ∀ q j, q ≠ p → s.refs q j ≤ t.refs q j)
    (hdisk : ∀ x, t.disk x = s.disk x ∨ x = (s.entry i).inum ∧ 0 < s.refs p i)
    (horphan : 0 < (t.entry i).ref → (t.entry i).valid = false → Dinode.orphan (t.disk (t.entry i).inum) →
      ∃ q, t.pc q = .born i ∨ t.pc q = .load i)
    (hfreed : ∀ q, (t.pc q).freed i → (t.disk (t.entry i).inum).type = 0)
    (hnewborn : ∀ j, c = .born j → 0 < t.refs p j) : Watched t := by
  have hpcs : ∀ {q}, q ≠ p → t.pc q = s.pc q := fun hq => by rw [hpc, update_of_ne hq]
  have hpcp : t.pc p = c := by rw [hpc, update_self]
  have hother : ∀ {j}, j ≠ i → (s.pc p).entry ≠ some j ∧ c.entry ≠ some j := by
    intro j hj
    constructor
    · rcases hold with he | he <;> rw [he]
      · simp
      · exact fun hij => hj (Option.some.inj hij).symm
    · rcases hnew with he | he <;> rw [he]
      · simp
      · exact fun hij => hj (Option.some.inj hij).symm
  have hdj : ∀ {j}, j ≠ i → 0 < (s.entry j).ref → t.disk (s.entry j).inum = s.disk (s.entry j).inum := by
    intro j hj hpos
    refine (hdisk (s.entry j).inum).resolve_right ?_
    rintro ⟨hx, hp⟩
    refine hj (h.unique j i hpos ?_ hx)
    exact lt_of_lt_of_le hp ((h.counted i).one p)
  refine ⟨fun j hj hv ho => ?_, fun q j hq => ?_, fun q j hq => ?_⟩
  · rcases eq_or_ne j i with rfl | hji
    · exact horphan hj hv ho
    · rw [hentry j hji] at hj hv ho
      rw [hdj hji hj] at ho
      obtain ⟨q, hq⟩ := hw.orphan j hj hv ho
      have hqp : q ≠ p := by
        rintro rfl
        rcases hq with hq | hq
        · exact hborn j hji hq
        · exact (hother hji).1 (by rw [hq]; rfl)
      exact ⟨q, by rw [hpcs hqp]; exact hq⟩
  · rcases eq_or_ne j i with rfl | hji
    · exact hfreed q hq
    · have hqp : q ≠ p := by
        rintro rfl
        rw [hpcp] at hq
        exact (hother hji).2 (Pc.entry_of_freed hq)
      rw [hpcs hqp] at hq
      have hpos : 0 < (s.entry j).ref := by
        have h1 := (h.ok j).freed q hq
        have h2 := (h.counted j).one q
        omega
      rw [hentry j hji, hdj hji hpos]
      exact hw.freed q j hq
  · rcases eq_or_ne q p with rfl | hqp
    · rw [hpcp] at hq
      exact hnewborn j hq
    · rw [hpcs hqp] at hq
      exact lt_of_lt_of_le (hw.born q j hq) (hrefs q j hqp)

theorem Watched.work {e : Entry P} {disk : ℕ → Dinode} {lock : Option P} {c : Pc n} (hw : Watched s) (h : Inv s)
    (hold : (s.pc p).entry = none ∨ (s.pc p).entry = some i) (hnew : c.entry = none ∨ c.entry = some i)
    (hborn : ∀ j, j ≠ i → s.pc p ≠ .born j) (hc : ∀ j, c ≠ .born j) (href : 0 < s.refs p i)
    (he : e.inum = (s.entry i).inum) (hdisk : ∀ x, disk x = s.disk x ∨ x = (s.entry i).inum)
    (hwatch : (disk (s.entry i).inum).type = 0 ∨ e.valid = true ∨ c = .load i)
    (hfreed : (disk (s.entry i).inum).type = 0 ∨ ¬(s.pc p).freed i ∧ ¬c.freed i) :
    Watched { disk := disk, entry := update s.entry i e, lock := lock, pc := update s.pc p c, refs := s.refs } := by
  have hi : update s.entry i e i = e := update_self ..
  refine hw.put (i := i) h rfl hold hnew hborn (fun j hj => update_of_ne hj ..) (fun _ _ _ => le_rfl)
    (fun x => (hdisk x).imp_right fun hx => ⟨hx, href⟩) (fun _ hv ho => ?_) (fun q hq => ?_) fun j hj => absurd hj (hc j)
  · dsimp only at hv ho
    rw [hi] at hv ho
    rw [he] at ho
    rcases hwatch with hz | hv' | rfl
    · exact absurd hz ho.1
    · rw [hv'] at hv; cases hv
    · exact ⟨p, Or.inr (update_self ..)⟩
  · dsimp only at hq ⊢
    rw [hi, he]
    refine hfreed.resolve_right ?_
    rintro ⟨hlive, hcf⟩
    rcases eq_or_ne q p with rfl | hqp
    · rw [update_self] at hq; exact hcf hq
    · rw [update_of_ne hqp] at hq; exact hw.not_freed h href hlive q hq

theorem Watched.store {d : Dinode} {c : Pc n} (hw : Watched s) (h : Inv s)
    (hold : (s.pc p).entry = none ∨ (s.pc p).entry = some i) (hnew : c.entry = none ∨ c.entry = some i)
    (hborn : ∀ j, s.pc p ≠ .born j) (hc : ∀ j, c ≠ .born j) (href : 0 < s.refs p i) (hv : (s.entry i).valid = true)
    (hfreed : d.type = 0 ∨ ¬(s.pc p).freed i ∧ ¬c.freed i) : Watched ((s.iupdate i d).setPc p c) := by
  have hd : (s.iupdate i d).disk (s.entry i).inum = d := update_self ..
  refine hw.work h hold hnew (fun j _ => hborn j) hc href rfl (fun x => ?_) (Or.inr (Or.inl hv)) ?_
  · rcases eq_or_ne x (s.entry i).inum with hx | hx
    · exact Or.inr hx
    · exact Or.inl (update_of_ne hx ..)
  · rw [hd]; exact hfreed

/-- References are handed around; the entry keeps its inode and its copy. -/
theorem Watched.count {c : Pc n} (hw : Watched s) (h : Inv s) (hpc : t.pc = update s.pc p c)
    (hold : (s.pc p).entry = none ∨ s.pc p = .drop i) (hc : c.entry = none ∧ ∀ j, c ≠ .born j)
    (hborn : ∀ j, s.pc p ≠ .born j) (hentry : ∀ j, j ≠ i → t.entry j = s.entry j)
    (hi : (t.entry i).inum = (s.entry i).inum ∧ (t.entry i).valid = (s.entry i).valid ∧
      (0 < (t.entry i).ref → 0 < (s.entry i).ref)) (hdisk : t.disk = s.disk)
    (hrefs : ∀ q j, q ≠ p → s.refs q j ≤ t.refs q j) : Watched t := by
  have hpcs : ∀ {q}, q ≠ p → t.pc q = s.pc q := fun hq => by rw [hpc, update_of_ne hq]
  have hload : s.pc p ≠ .load i := by
    intro hl
    rw [hl] at hold
    rcases hold with hold | hold <;> cases hold
  refine hw.put h hpc (hold.imp_right fun hd => by rw [hd]; rfl) (Or.inl hc.1) (fun j _ => hborn j) hentry hrefs
    (fun x => Or.inl (congrFun hdisk x)) (fun hpos hv ho => ?_) (fun q hq => ?_) fun j hj => absurd hj (hc.2 j)
  · rw [hi.1, hdisk] at ho
    rw [hi.2.1] at hv
    obtain ⟨q, hq⟩ := hw.orphan i (hi.2.2 hpos) hv ho
    have hqp : q ≠ p := by
      rintro rfl
      exact hq.elim (hborn i) hload
    exact ⟨q, by rw [hpcs hqp]; exact hq⟩
  · have hqp : q ≠ p := by
      rintro rfl
      rw [hpc, update_self] at hq
      exact absurd (hc.1.symm.trans (Pc.entry_of_freed hq)) (by simp)
    rw [hpcs hqp] at hq
    rw [hi.1, hdisk]
    exact hw.freed q i hq

theorem Watched.decref (hw : Watched s) (h : Inv s) (hold : (s.pc p).entry = none ∨ s.pc p = .drop i)
    (hborn : ∀ j, s.pc p ≠ .born j) : Watched ((s.decref p i).setPc p .idle) := by
  have hi : ((s.decref p i).setPc p .idle).entry i = (s.entry i).setRef ((s.entry i).ref - 1) := update_self ..
  refine hw.count (i := i) h rfl hold ⟨rfl, by rintro j ⟨⟩⟩ hborn (fun j hj => update_of_ne hj ..) ?_ rfl
    fun q j hq => (Sys.setRefs_other _ i _ hq j).ge
  rw [hi]
  exact ⟨rfl, rfl, fun hpos => lt_of_lt_of_le hpos (Nat.sub_le _ _)⟩

theorem Watched.ialloc {x type : ℕ} (hw : Watched s) (h : Inv s) (hp : (s.pc p).ready = true) (hborn : ∀ j, s.pc p ≠ .born j)
    (hx : ∀ i, 0 < (s.entry i).ref → (s.entry i).inum ≠ x) :
    Watched ((s.setDisk x (.fresh type)).setPc p (.alloced x)) := by
  have hdisk : ∀ {y}, y ≠ x → ((s.setDisk x (.fresh type)).setPc p (.alloced x)).disk y = s.disk y := fun hy =>
    update_of_ne hy ..
  have hpcp : ((s.setDisk x (.fresh type)).setPc p (.alloced x)).pc p = .alloced x := update_self ..
  have hpc : ∀ {q}, q ≠ p → ((s.setDisk x (.fresh type)).setPc p (.alloced x)).pc q = s.pc q := fun hq =>
    update_of_ne hq ..
  refine ⟨fun i hpos hv ho => ?_, fun q i hq => ?_, fun q i hq => ?_⟩
  · have ho' : Dinode.orphan (s.disk (s.entry i).inum) := by
      rw [← hdisk (hx i hpos)]; exact ho
    obtain ⟨q, hq⟩ := hw.orphan i hpos hv ho'
    have hqp : q ≠ p := by
      rintro rfl
      refine hq.elim (hborn i) fun hl => ?_
      rw [hl] at hp; cases hp
    exact ⟨q, by rw [hpc hqp]; exact hq⟩
  · have hqp : q ≠ p := by
      rintro rfl
      rw [hpcp] at hq
      rcases hq with hq | hq | hq <;> cases hq
    rw [hpc hqp] at hq
    have hpos : 0 < (s.entry i).ref := by
      have h1 := (h.ok i).freed q hq
      have h2 := (h.counted i).one q
      omega
    exact (congrArg Dinode.type (hdisk (hx i hpos))).trans (hw.freed q i hq)
  · have hqp : q ≠ p := by
      rintro rfl
      rw [hpcp] at hq
      cases hq
    rw [hpc hqp] at hq
    exact hw.born q i hq

theorem Watched.iget {x : ℕ} {c : Pc n} (hw : Watched s) (h : Inv s) (hold : (s.pc p).entry = none)
    (hborn : ∀ j, s.pc p ≠ .born j) (hc : c.entry = none ∧ ∀ j, c = .born j → j = i) (hfind : s.find x = some i)
    (htype : (s.disk x).type ≠ 0) (ho : c = .born i ∨ 0 < (s.disk x).nlink) : Watched ((s.iget p x i).setPc p c) := by
  have hi : ((s.iget p x i).setPc p c).entry i = (s.entry i).get x := update_self ..
  have hinum : ((s.entry i).get x).inum = x := by
    rw [Entry.get]
    rcases Sys.find_spec hfind with ⟨hpos, hx⟩ | ⟨hzero, -⟩
    · rw [if_pos hpos]; exact hx
    · rw [if_neg (by omega)]
  have hpcp : ((s.iget p x i).setPc p c).pc p = c := update_self ..
  have hpc : ∀ {q}, q ≠ p → ((s.iget p x i).setPc p c).pc q = s.pc q := fun hq => update_of_ne hq ..
  refine hw.put (i := i) h rfl (Or.inl hold) (Or.inl hc.1) (fun j _ => hborn j) (fun j hj => update_of_ne hj ..)
    (fun q j hq => (Sys.setRefs_other _ i _ hq j).ge) (fun _ => Or.inl rfl) (fun _ _ horph => ?_) (fun q hq => ?_) fun j hj => ?_
  · rcases ho with rfl | hpos
    · exact ⟨p, Or.inl hpcp⟩
    · rw [hi, hinum] at horph
      have : (s.disk x).nlink = 0 := horph.2
      omega
  · -- who is done freeing the inode of this entry would have left it free
    exfalso
    have hqp : q ≠ p := by
      rintro rfl
      rw [hpcp] at hq
      exact absurd (hc.1.symm.trans (Pc.entry_of_freed hq)) (by simp)
    rw [hpc hqp] at hq
    rcases Sys.find_spec hfind with ⟨-, hx⟩ | ⟨hzero, -⟩
    · exact htype (hx ▸ hw.freed q i hq)
    · have h1 := (h.ok i).freed q hq
      have h2 := (h.counted i).one q
      omega
  · obtain rfl := hc.2 j hj
    have : ((s.iget p x j).setPc p c).refs p j = s.refs p j + 1 := by
      exact (congrFun (Sys.setRefs_at _ p j _) p).trans (update_self ..)
    omega

theorem watched_next {l : Label P n} (hw : Watched s) (h : Inv s) (hc : create s l = true) (hok : noReuse s l)
    (he : Enabled s l) : Watched (next s l) := by
  cases l with
  | iget p x i =>
    obtain ⟨hp, -, htype, hlink, hfind⟩ := he
    exact hw.iget h (Pc.not_entry_of_ready hp) (not_born hc rfl) ⟨rfl, by rintro j ⟨⟩⟩ hfind htype (Or.inr hlink)
  | idup p i =>
    obtain ⟨hp, -, href⟩ := he
    have hpos : 0 < (s.entry i).ref := lt_of_lt_of_le href ((h.counted i).one p)
    have hi : (next s (.idup p i)).entry i = (s.entry i).setRef ((s.entry i).ref + 1) := update_self ..
    refine hw.count (i := i) (c := .idle) h rfl (Or.inl (Pc.not_entry_of_ready hp)) ⟨rfl, by rintro j ⟨⟩⟩
      (not_born hc rfl) (fun j hj => update_of_ne hj ..) ?_ rfl fun q j hq => (Sys.setRefs_other _ i _ hq j).ge
    rw [hi]
    exact ⟨rfl, rfl, fun _ => hpos⟩
  | ilock p i =>
    obtain ⟨hp, href, -⟩ := he
    have hborn : ∀ j, j ≠ i → s.pc p ≠ .born j := by
      intro j hj hb
      have hpc : s.pc (Label.proc (.ilock p i)) = .born j := hb
      rw [create, hpc] at hc
      exact hj (of_decide_eq_true hc)
    exact hw.work h (Pc.ready_entry hp) (Or.inr rfl) hborn (by rintro j ⟨⟩) href rfl (fun _ => Or.inl rfl)
      (Or.inr (Or.inr rfl)) (Or.inr ⟨Pc.not_freed_of_ready hp, by simp [Pc.freed]⟩)
  | load p i =>
    obtain ⟨hp, -⟩ := he
    have href := (h.ok i).owner p ((h.ok i).locks p (Or.inl hp))
    have hwork : ∀ (e : Entry P), e.inum = (s.entry i).inum → e.valid = true → Watched ((s.setEntry i e).setPc p .idle) :=
      fun e hi hv => hw.work h (Or.inr (by rw [hp]; rfl)) (Or.inl rfl) (fun j _ => not_born hc rfl j)
        (by rintro j ⟨⟩) href hi (fun _ => Or.inl rfl) (Or.inr (Or.inl hv))
        (Or.inr ⟨by simp [hp, Pc.freed], by simp [Pc.freed]⟩)
    rw [next]
    split
    · rename_i hv
      have ht := hwork (s.entry i) rfl hv
      rwa [Sys.setEntry_same] at ht
    · exact hwork _ rfl rfl
  | iunlock p i =>
    obtain ⟨hp, hlock⟩ := he
    exact hw.work h (Pc.ready_entry hp) (Or.inl rfl) (fun j _ => not_born hc rfl j) (by rintro j ⟨⟩)
      ((h.ok i).owner p hlock) rfl (fun _ => Or.inl rfl) (Or.inr (Or.inl (h.current hlock hp).1))
      (Or.inr ⟨Pc.not_freed_of_ready hp, by simp [Pc.freed]⟩)
  | iupdate p i d =>
    obtain ⟨hp, hlock, -⟩ := he
    exact hw.store h (Pc.ready_entry hp) (Or.inl rfl) (not_born hc rfl) (by rintro j ⟨⟩)
      ((h.ok i).owner p hlock) (h.current hlock hp).1
      (Or.inr ⟨Pc.not_freed_of_ready hp, by simp [Pc.freed]⟩)
  | iput p i =>
    obtain ⟨hp, -, hs⟩ := he
    rw [next]
    split
    · rename_i hdead
      have ht : Watched (((s.setEntry i (s.entry i)).setLock (some p)).setPc p (.freeLock i)) :=
        hw.work h (Pc.ready_entry hp) (Or.inr rfl) (fun j _ => not_born hc rfl j) (by rintro j ⟨⟩)
          (Sys.spare_pos hs).1 rfl (fun _ => Or.inl rfl) (Or.inr (Or.inl hdead.2.1))
          (Or.inr ⟨Pc.not_freed_of_ready hp, by simp [Pc.freed]⟩)
      rwa [Sys.setEntry_same] at ht
    · exact hw.decref h (Or.inl (Pc.not_entry_of_ready hp)) (not_born hc rfl)
  | freeLock p i =>
    obtain ⟨hp, -⟩ := he
    obtain ⟨-, hone, hv, -⟩ := (h.ok i).last p (Or.inl hp)
    exact hw.work h (Or.inr (by rw [hp]; rfl)) (Or.inr rfl) (fun j _ => not_born hc rfl j) (by rintro j ⟨⟩)
      (by omega) rfl (fun _ => Or.inl rfl) (Or.inr (Or.inl hv))
      (Or.inr ⟨by simp [hp, Pc.freed], by simp [Pc.freed]⟩)
  | trunc p i =>
    have hp : s.pc p = .trunc i := he
    obtain ⟨-, hone, hv, -⟩ := (h.ok i).last p (Or.inr (Or.inl hp))
    exact hw.store h (Or.inr (by rw [hp]; rfl)) (Or.inr rfl) (not_born hc rfl) (by rintro j ⟨⟩) (by omega) hv
      (Or.inr ⟨by simp [hp, Pc.freed], by simp [Pc.freed]⟩)
  | clear p i =>
    have hp : s.pc p = .clear i := he
    obtain ⟨-, hone, hv, -⟩ := (h.ok i).last p (Or.inr (Or.inr hp))
    exact hw.store h (Or.inr (by rw [hp]; rfl)) (Or.inr rfl) (not_born hc rfl) (by rintro j ⟨⟩) (by omega) hv
      (Or.inl rfl)
  | inval p i =>
    have hf : (s.pc p).freed i := Or.inl he
    have hone := (h.ok i).freed p hf
    exact hw.work h (Or.inr (Pc.entry_of_freed hf)) (Or.inr rfl) (fun j _ => not_born hc rfl j) (by rintro j ⟨⟩)
      (by omega) rfl (fun _ => Or.inl rfl) (Or.inl (hw.freed p i hf)) (Or.inl (hw.freed p i hf))
  | unlock p i =>
    have hf : (s.pc p).freed i := Or.inr (Or.inl he)
    have hone := (h.ok i).freed p hf
    exact hw.work h (Or.inr (Pc.entry_of_freed hf)) (Or.inr rfl) (fun j _ => not_born hc rfl j) (by rintro j ⟨⟩)
      (by omega) rfl (fun _ => Or.inl rfl) (Or.inl (hw.freed p i hf)) (Or.inl (hw.freed p i hf))
  | drop p i => exact hw.decref h (Or.inr he.1) (not_born hc rfl)
  | ialloc p x type => exact hw.ialloc h he.1 (not_born hc rfl) hok
  | born p x i =>
    obtain ⟨hp, -, hfind⟩ := he
    exact hw.iget h (by rw [hp]; rfl) (not_born hc rfl) ⟨rfl, fun j hj => (Pc.born.inj hj).symm⟩ hfind
      (h.fresh p x hp).1 (Or.inl rfl)
  | give p q i =>
    obtain ⟨hp, -, hne, -⟩ := he
    refine hw.count (i := i) (c := .idle) h rfl (Or.inl (Pc.not_entry_of_ready hp)) ⟨rfl, by rintro j ⟨⟩⟩
      (not_born hc rfl) (fun _ _ => rfl) ⟨rfl, rfl, id⟩ rfl fun k j hk => ?_
    rcases eq_or_ne k q with rfl | hkq
    · rcases eq_or_ne j i with rfl | hji
      · have hk : (next s (.give p k j)).refs k j = s.refs k j + 1 :=
          (congrFun (Sys.setRefs_at _ k j _) k).trans (update_self ..)
        omega
      · exact ((Sys.setRefs_ne _ k hji _ k).trans (Sys.setRefs_ne _ p hji _ k)).ge
    · exact ((Sys.setRefs_other _ i _ hkq j).trans (Sys.setRefs_other _ i _ hk j)).ge

/-! ### The last reference -/

theorem Watched.noMissedFree (hw : Watched s) (h : Inv s) : NoMissedFree s := by
  intro l t i hstep hpos hz ho
  rw [fsStep] at hstep
  split at hstep
  case isFalse => cases hstep
  rename_i hc
  rw [step] at hstep
  split at hstep
  case isFalse => cases hstep
  rename_i he
  obtain rfl := Option.some.inj hstep
  rcases ref_zero hpos hz with ⟨p, rfl, hdead, hone⟩ | ⟨p, rfl⟩
  · obtain ⟨hp, -, hs⟩ := he
    rw [next, if_neg hdead] at ho
    rcases hv : (s.entry i).valid
    · -- who is about to lock the inode has a reference as well
      obtain ⟨q, hq⟩ := hw.orphan i hpos hv ho
      have hqp : q ≠ p := by
        rintro rfl
        refine hq.elim (not_born hc rfl i) fun hl => ?_
        rw [hl] at hp; cases hp
      have href : 0 < s.refs q i :=
        hq.elim (hw.born q i) fun hl => (h.ok i).owner q ((h.ok i).locks q (Or.inl hl))
      have htwo := (h.counted i).two q p hqp
      have hpref := (Sys.spare_pos hs).1
      omega
    · -- the copy is that on disk, so `iput` has seen that there are no links
      rcases (h.ok i).sync hpos hv with hd | ⟨q, hq⟩
      · exact hdead ⟨hone, hv, hd ▸ ho.2⟩
      · exact ho.1 (hw.freed q i (Or.inl hq))
  · exact ho.1 (hw.freed p i (Or.inr (Or.inr he.1)))

theorem watched_step {l : Label P n} (h : Inv s ∧ Watched s) (hok : noReuse s l) (hstep : fsStep s l = some t) :
    Inv t ∧ Watched t := by
  rw [fsStep] at hstep
  split at hstep
  case isFalse => cases hstep
  rename_i hc
  refine ⟨inv_step h.1 hstep, ?_⟩
  rw [step] at hstep
  split at hstep
  · rename_i he
    exact Option.some.inj hstep ▸ watched_next h.2 h.1 hc hok he
  · cases hstep

/-- CORRECT (no missed free): as long as `ialloc` takes no inode that an entry in use still names. -/
theorem no_missed_free {disk : ℕ → Dinode} {ls : List (Label P n)} (hok : RunOk fsStep noReuse (Sys.init P n disk) ls)
    (hrun : run fsStep (Sys.init P n disk) ls = some t) : NoMissedFree t := by
  have ht : Inv t ∧ Watched t := run_inv_of (fun _ _ _ => watched_step) ⟨inv_init disk, watched_init disk⟩ hok hrun
  exact ht.2.noMissedFree ht.1

end Steps

/-- Process 0 unlinks and frees inode 1, up to the last `ref--`; process 1 creates inode 2 meanwhile. -/
def freeAndCreate : List (Label (Fin 2) 2) :=
  [.iget 0 1 0, .ilock 0 0, .load 0 0, .iupdate 0 0 (.fresh T_FILE), .iunlock 0 0, .iput 0 0, .freeLock 0 0, .trunc 0 0,
    .clear 0 0, .ialloc 1 2 T_FILE, .inval 0 0, .born 1 2 1, .unlock 0 0]

instance (s : Sys P n) : ∀ l : Label P n, Decidable (noReuse s l)
  | .ialloc _ _ _ => inferInstanceAs (Decidable (∀ _, _))
  | .iget _ _ _ | .idup _ _ | .ilock _ _ | .load _ _ | .iunlock _ _ | .iupdate _ _ _ | .iput _ _ | .freeLock _ _
  | .trunc _ _ | .clear _ _ | .inval _ _ | .unlock _ _ | .drop _ _ | .born _ _ _ | .give _ _ _ => .isTrue trivial

theorem no_missed_free_freeAndCreate : ∃ t, run fsStep (Sys.init (Fin 2) 2 oneFile) freeAndCreate = some t ∧
    (t.entry 0).ref = 1 ∧ NoMissedFree t := by
  have hview : (run fsStep (Sys.init (Fin 2) 2 oneFile) freeAndCreate).map (fun t => (t.entry 0).ref) = some 1 := by
    decide +kernel
  obtain ⟨t, ht, hv⟩ := Option.map_eq_some_iff.mp hview
  exact ⟨t, ht, hv, no_missed_free (by decide +kernel) ht⟩

/-- Process 1 gets the same inode, gives it a link, takes it away again and puts its reference. -/
def createInBetween : List (Label (Fin 2) 2) :=
  [.iget 0 1 0, .ilock 0 0, .load 0 0, .iupdate 0 0 (.fresh T_FILE), .iunlock 0 0, .iput 0 0, .freeLock 0 0, .trunc 0 0,
    .clear 0 0, .inval 0 0, .unlock 0 0, .ialloc 1 1 T_FILE, .born 1 1 0, .ilock 1 0, .load 1 0,
    .iupdate 1 0 { Dinode.fresh T_FILE with nlink := 1 }, .iupdate 1 0 (.fresh T_FILE), .iunlock 1 0, .iput 1 0]

/-- The last `ref--` leaves an allocated inode without links and without an entry. -/
theorem missed_free : ∃ t, run fsStep (Sys.init (Fin 2) 2 oneFile) createInBetween = some t ∧ ¬NoMissedFree t := by
  have hview : (run fsStep (Sys.init (Fin 2) 2 oneFile) createInBetween).bind (fun t => (fsStep t (.drop 0 0)).map
      fun u => ((t.entry 0).ref, (t.entry 0).inum, (u.entry 0).ref, (u.disk 1).type, (u.disk 1).nlink)) =
      some (1, 1, 0, T_FILE, 0) := by decide +kernel
  obtain ⟨t, ht, hv⟩ := Option.bind_eq_some_iff.mp hview
  obtain ⟨u, hu, hv⟩ := Option.map_eq_some_iff.mp hv
  simp only [Prod.mk.injEq] at hv
  obtain ⟨href, hinum, hzero, htype, hlink⟩ := hv
  refine ⟨t, ht, fun hno => hno (.drop 0 0) u 0 hu (by omega) hzero ?_⟩
  rw [hinum]
  exact ⟨by rw [htype]; decide, hlink⟩

end Minios.Itable
