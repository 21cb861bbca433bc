import Minios.Itable.Table

/-! `kernel/fs.c`: reference counts, sleep-locks and the copies in the inode table.

    What is known of ONE entry involves the entry, the dinode it names, the references to it and who
    works on it, and nothing else (`Ok`). A step changes one entry; the others keep what is known of
    them unless their dinode changes, and two entries in use never name the same. -/

namespace Minios.Itable
open Schemes Function Fs

variable {P : Type} {n : ℕ} {i j : Fin n} {p q : P}

/-- The entry that a process works on. -/
def Pc.entry : Pc n → Option (Fin n)
  | .idle | .alloced _ | .born _ => none
  | .load i | .freeLock i | .trunc i | .clear i | .inval i | .unlock i | .drop i => some i

/-- About to free the inode of entry `i`, with the last reference. -/
def Pc.last (pc : Pc n) (i : Fin n) : Prop := pc = .freeLock i ∨ pc = .trunc i ∨ pc = .clear i

/-- The inode is free on disk, the reference still counted. -/
def Pc.freed (pc : Pc n) (i : Fin n) : Prop := pc = .inval i ∨ pc = .unlock i ∨ pc = .drop i

/-- In a function that holds the sleep-lock. -/
def Pc.locks (pc : Pc n) (i : Fin n) : Prop :=
  pc = .load i ∨ pc = .trunc i ∨ pc = .clear i ∨ pc = .inval i ∨ pc = .unlock i

/-- Entry `i`, its dinode `d`, the references `r` to it. -/
structure Ok (i : Fin n) (e : Entry P) (d : Dinode) (r : P → ℕ) (pc : P → Pc n) (lock : Option P) : Prop where
  owner : ∀ p, e.lock = some p → 0 < r p
  locks : ∀ p, (pc p).locks i → e.lock = some p
  noWait : ∀ p, pc p = .freeLock i → lock = some p ∧ e.lock = none
  last : ∀ p, (pc p).last i → e.ref = 1 ∧ r p = 1 ∧ e.valid = true ∧ e.d.nlink = 0
  freed : ∀ p, (pc p).freed i → r p = 1
  dropped : ∀ p, pc p = .drop i → e.lock ≠ some p
  sync : 0 < e.ref → e.valid = true → e.d = d ∨ ∃ p, pc p = .inval i
  live : ∀ p, 0 < r p → ¬(pc p).freed i → d.type ≠ 0
  cold : 0 < e.ref → e.valid = true → d.type = 0 → ∃ p, pc p = .inval i
  loaded : ∀ p, e.lock = some p → e.valid = true ∨ pc p = .load i ∨ pc p = .unlock i

section Entry
variable {e : Entry P} {d d' : Dinode} {r : P → ℕ} {pc : P → Pc n} {c : Pc n} {lock lock' : Option P}

theorem Pc.entry_of_locks {c : Pc n} : c.locks i → c.entry = some i := by
  rintro (rfl | rfl | rfl | rfl | rfl) <;> rfl

theorem Pc.entry_of_last {c : Pc n} : c.last i → c.entry = some i := by
  rintro (rfl | rfl | rfl) <;> rfl

theorem Pc.entry_of_freed {c : Pc n} : c.freed i → c.entry = some i := by
  rintro (rfl | rfl | rfl) <;> rfl

theorem Pc.not_entry_of_ready : ∀ {c : Pc n}, c.ready = true → c.entry = none
  | .idle, _ | .born _, _ => rfl

/-- No process holds more references than are counted, nor do two. -/
structure Counted (ref : ℕ) (r : P → ℕ) : Prop where
  one : ∀ p, r p ≤ ref
  two : ∀ p q, p ≠ q → r p + r q ≤ ref

theorem Ok.not_last_of_lock (h : Ok i e d r pc lock) (hp : e.lock = some p) (hq : (pc q).last i) : q = p ∧ ¬pc q = .freeLock i := by
  rcases hq with hq | hq | hq
  · have := (h.noWait q hq).2
    rw [hp] at this; cases this
  · have := h.locks q (Or.inr (Or.inl hq))
    rw [hp] at this
    exact ⟨(Option.some.inj this).symm, by rw [hq]; rintro ⟨⟩⟩
  · have := h.locks q (Or.inr (Or.inr (Or.inl hq)))
    rw [hp] at this
    exact ⟨(Option.some.inj this).symm, by rw [hq]; rintro ⟨⟩⟩

theorem Ok.not_last_of_ref (h : Ok i e d r pc lock) (hc : Counted e.ref r) (hp : 0 < r p) (hne : q ≠ p) : ¬(pc q).last i := by
  intro hq
  obtain ⟨h1, h2, -⟩ := h.last q hq
  have := hc.two q p hne
  omega

theorem Ok.iunlock (h : Ok i e d r pc lock) (hp : (pc p).ready = true) (hlock : e.lock = some p) :
    Ok i (e.setLock none) d r pc lock := by
  obtain ⟨h1, h2, h3, h4, h5, h6, h7, h8, h9, h10⟩ := h
  constructor <;> grind -ring -linarith [Entry.setLock, Pc.locks, Pc.last, Pc.freed, Pc.ready]

theorem Ok.iupdate (h : Ok i e d r pc lock) (hp : (pc p).ready = true) (hlock : e.lock = some p) (htype : d'.type ≠ 0) :
    Ok i (e.setD d') d' r pc lock := by
  have hno : ∀ q, ¬(pc q).last i := by
    intro q hl
    obtain ⟨rfl, -⟩ := h.not_last_of_lock hlock hl
    exact absurd ((Pc.not_entry_of_ready hp).symm.trans (Pc.entry_of_last hl)) (by simp)
  obtain ⟨h1, h2, h3, h4, h5, h6, h7, h8, h9, h10⟩ := h
  constructor <;> grind -ring -linarith [Entry.setD, Pc.locks, Pc.freed, Pc.ready]

/-- The copy of who holds the sleep-lock is that on disk, unless it has just freed the inode. -/
theorem Ok.current (h : Ok i e d r pc lock) (hp : e.lock = some p) (hne : pc p ≠ .inval i) (href : 0 < e.ref)
    (hv : e.valid = true) : e.d = d := by
  refine (h.sync href hv).resolve_right ?_
  rintro ⟨q, hq⟩
  have hlq := h.locks q (Or.inr (Or.inr (Or.inr (Or.inl hq))))
  rw [hp] at hlq
  obtain rfl := Option.some.inj hlq
  exact hne hq

theorem Ok.current_of_last (h : Ok i e d r pc lock) (hq : (pc q).last i) : e.d = d := by
  obtain ⟨href, -, hv, -⟩ := h.last q hq
  refine (h.sync (by omega) hv).resolve_right ?_
  rintro ⟨k, hk⟩
  obtain ⟨rfl, -⟩ := h.not_last_of_lock (h.locks k (Or.inr (Or.inr (Or.inr (Or.inl hk))))) hq
  rw [hk] at hq
  rcases hq with hq | hq | hq <;> cases hq

/-- `ialloc` marks the dinode: nobody has a copy of it that counts. -/
theorem Ok.reuse (h : Ok i e d r pc lock) (hfree : d.type = 0) (htype : d'.type ≠ 0) : Ok i e d' r pc lock :=
  ⟨h.owner, h.locks, h.noWait, h.last, h.freed, h.dropped, fun hr hv => Or.inr (h.cold hr hv hfree),
    fun _ _ _ => htype, fun _ _ ht => absurd ht htype, h.loaded⟩

variable [DecidableEq P]

theorem Ok.frame (h : Ok i e d r pc lock) (hold : (pc p).entry ≠ some i) (hnew : c.entry ≠ some i)
    (hd : d' = d ∨ e.ref = 0 ∧ ∀ q, r q = 0) (hlock : ∀ q, pc q = .freeLock i → lock' = lock) :
    Ok i e d' r (update pc p c) lock' := by
  have hmove : ∀ {X : Pc n → Prop}, (∀ {c}, X c → c.entry = some i) → ∀ q, X (update pc p c q) ↔ X (pc q) := by
    intro X hX q
    rcases eq_or_ne q p with rfl | hne
    · rw [update_self]
      exact ⟨fun hc => absurd (hX hc) hnew, fun hc => absurd (hX hc) hold⟩
    · rw [update_of_ne hne]
  have hat : ∀ c', c'.entry = some i → ∀ q, update pc p c q = c' ↔ pc q = c' := fun c' hc' =>
    hmove (X := (· = c')) fun hc => hc ▸ hc'
  refine ⟨h.owner, fun q hq => h.locks q ((hmove Pc.entry_of_locks q).mp hq), fun q hq => ?_,
    fun q hq => h.last q ((hmove Pc.entry_of_last q).mp hq), fun q hq => h.freed q ((hmove Pc.entry_of_freed q).mp hq),
    fun q hq => h.dropped q ((hat _ rfl q).mp hq), fun hr hv => ?_, fun q hq hf => ?_, fun hr hv ht => ?_, fun q hq => ?_⟩
  · rw [hat _ rfl q] at hq
    rw [hlock q hq]
    exact h.noWait q hq
  · rcases hd with rfl | ⟨he, -⟩
    · refine (h.sync hr hv).imp_right ?_
      rintro ⟨q, hq⟩
      exact ⟨q, (hat _ rfl q).mpr hq⟩
    · omega
  · rcases hd with rfl | ⟨-, he⟩
    · exact h.live q hq fun hq' => hf ((hmove Pc.entry_of_freed q).mpr hq')
    · rw [he q] at hq; exact absurd hq (Nat.lt_irrefl 0)
  · rcases hd with rfl | ⟨he, -⟩
    · obtain ⟨q, hq⟩ := h.cold hr hv ht
      exact ⟨q, (hat _ rfl q).mpr hq⟩
    · omega
  · rw [hat (.load i) rfl q, hat (.unlock i) rfl q]
    exact h.loaded q hq

theorem Ok.incr (h : Ok i e d r pc lock) (hno : ∀ q, ¬(pc q).last i) (hp : ¬(pc p).freed i) (htype : d.type ≠ 0)
    (href : 0 < e.ref) : Ok i (e.setRef (e.ref + 1)) d (update r p (r p + 1)) pc lock := by
  have hr : ∀ q, update r p (r p + 1) q = if q = p then r p + 1 else r q := fun q => update_apply ..
  obtain ⟨h1, h2, h3, h4, h5, h6, h7, h8, h9, h10⟩ := h
  constructor <;> grind -ring -linarith [Entry.setRef]

theorem Ok.recycle {x : ℕ} (h : Ok i e d r pc lock) (hcount : Counted e.ref r) (href : e.ref = 0)
    (hc : c.entry = none) (htype : d'.type ≠ 0) :
    Ok i { e with inum := x, ref := 1, valid := false } d' (update r p (r p + 1)) (update pc p c) lock := by
  have hr : ∀ q, update r p (r p + 1) q = if q = p then r p + 1 else r q := fun q => update_apply ..
  have hpc : ∀ q, update pc p c q = if q = p then c else pc q := fun q => update_apply ..
  have hzero : ∀ q, r q = 0 := fun q => by have := hcount.one q; omega
  obtain ⟨h1, h2, h3, h4, h5, h6, h7, h8, h9, h10⟩ := h
  constructor <;> grind -ring -linarith [Pc.entry, Pc.locks, Pc.last, Pc.freed]

theorem Ok.ilock (h : Ok i e d r pc lock) (hcount : Counted e.ref r) (hp : (pc p).ready = true) (href : 0 < r p)
    (hfree : e.lock = none) : Ok i (e.setLock (some p)) d r (update pc p (.load i)) lock := by
  have hpc : ∀ q, update pc p (.load i) q = if q = p then .load i else pc q := fun q => update_apply ..
  have hno : ∀ q, q ≠ p → ¬(pc q).last i := fun q hq => h.not_last_of_ref hcount href hq
  obtain ⟨h1, h2, h3, h4, h5, h6, h7, h8, h9, h10⟩ := h
  constructor <;> grind -ring -linarith [Entry.setLock, Pc.locks, Pc.last, Pc.freed, Pc.ready]

theorem Ok.load (h : Ok i e d r pc lock) (hp : pc p = .load i) (htype : d.type ≠ 0) : Ok i (e.load d) d r (update pc p .idle) lock := by
  have hpc : ∀ q, update pc p .idle q = if q = p then .idle else pc q := fun q => update_apply ..
  have hlock : e.lock = some p := h.locks p (Or.inl hp)
  have hno : ∀ q, q ≠ p → ¬(pc q).last i := fun q hq hl => hq (h.not_last_of_lock hlock hl).1
  obtain ⟨h1, h2, h3, h4, h5, h6, h7, h8, h9, h10⟩ := h
  constructor <;> grind -ring -linarith [Entry.load, Pc.locks, Pc.last, Pc.freed]

theorem Ok.loaded_idle (h : Ok i e d r pc lock) (hp : pc p = .load i) (hv : e.valid = true) :
    Ok i e d r (update pc p .idle) lock := by
  have hpc : ∀ q, update pc p .idle q = if q = p then .idle else pc q := fun q => update_apply ..
  obtain ⟨h1, h2, h3, h4, h5, h6, h7, h8, h9, h10⟩ := h
  constructor <;> grind -ring -linarith [Pc.locks, Pc.last, Pc.freed]

/-- `iput` finds the last reference to an inode without links: nobody holds its sleep-lock. -/
theorem Ok.iput (h : Ok i e d r pc none) (hcount : Counted e.ref r) (hp : (pc p).ready = true)
    (hspare : (if e.lock = some p then 1 else 0) < r p) (hdead : e.dead) :
    Ok i e d r (update pc p (.freeLock i)) (some p) := by
  have hpc : ∀ q, update pc p (.freeLock i) q = if q = p then .freeLock i else pc q := fun q => update_apply ..
  have href : r p = 1 := by
    have := hcount.one p
    rw [hdead.1] at this
    omega
  have hfree : e.lock = none := by
    rcases hl : e.lock with _ | q
    · rfl
    · have hq := h.owner q hl
      rcases eq_or_ne q p with rfl | hne
      · rw [if_pos hl] at hspare; omega
      · have := hcount.two q p hne
        rw [hdead.1] at this
        omega
  obtain ⟨hd1, hd2, hd3⟩ := hdead
  obtain ⟨h1, h2, h3, h4, h5, h6, h7, h8, h9, h10⟩ := h
  constructor <;> grind -ring -linarith [Pc.locks, Pc.last, Pc.freed, Pc.ready]

theorem Ok.decr (h : Ok i e d r pc lock) (hcount : Counted e.ref r) (hp : (pc p).ready = true ∨ pc p = .drop i)
    (href : 0 < r p) (hspare : e.lock = some p → 1 < r p) :
    Ok i (e.setRef (e.ref - 1)) d (update r p (r p - 1)) (update pc p .idle) lock := by
  have hr : ∀ q, update r p (r p - 1) q = if q = p then r p - 1 else r q := fun q => update_apply ..
  have hpc : ∀ q, update pc p .idle q = if q = p then .idle else pc q := fun q => update_apply ..
  have hno : ∀ q, q ≠ p → ¬(pc q).last i := fun q hq => h.not_last_of_ref hcount href hq
  have hone : pc p = .drop i → r p = 1 := fun hd => h.freed p (Or.inr (Or.inr hd))
  obtain ⟨h1, h2, h3, h4, h5, h6, h7, h8, h9, h10⟩ := h
  constructor <;> grind -ring -linarith [Entry.setRef, Pc.locks, Pc.last, Pc.freed, Pc.ready]

theorem Ok.freeLock (h : Ok i e d r pc lock) (hp : pc p = .freeLock i) :
    Ok i (e.setLock (some p)) d r (update pc p (.trunc i)) none := by
  have hpc : ∀ q, update pc p (.trunc i) q = if q = p then .trunc i else pc q := fun q => update_apply ..
  obtain ⟨hl, hfree⟩ := h.noWait p hp
  obtain ⟨h1, h2, h3, h4, h5, h6, h7, h8, h9, h10⟩ := h
  constructor <;> grind -ring -linarith [Entry.setLock, Pc.locks, Pc.last, Pc.freed]

theorem Ok.trunc (h : Ok i e d r pc lock) (hp : pc p = .trunc i) :
    Ok i (e.setD (emptied e.d)) (emptied e.d) r (update pc p (.clear i)) lock := by
  have hpc : ∀ q, update pc p (.clear i) q = if q = p then .clear i else pc q := fun q => update_apply ..
  have hlock : e.lock = some p := h.locks p (Or.inr (Or.inl hp))
  have hno : ∀ q, q ≠ p → ¬(pc q).last i := fun q hq hl => hq (h.not_last_of_lock hlock hl).1
  have htype : (emptied e.d).type = e.d.type ∧ (emptied e.d).nlink = e.d.nlink := ⟨rfl, rfl⟩
  have hlive : d.type ≠ 0 := h.live p (h.owner p hlock) (by rw [hp]; rintro (h | h | h) <;> cases h)
  obtain ⟨h1, h2, h3, h4, h5, h6, h7, h8, h9, h10⟩ := h
  constructor <;> grind -ring -linarith [Entry.setD, Pc.locks, Pc.last, Pc.freed]

theorem Ok.clear (h : Ok i e d r pc lock) (hcount : Counted e.ref r) (hp : pc p = .clear i) :
    Ok i (e.setD (e.d.setType 0)) (e.d.setType 0) r (update pc p (.inval i)) lock := by
  have hpc : ∀ q, update pc p (.inval i) q = if q = p then .inval i else pc q := fun q => update_apply ..
  obtain ⟨href, hone, -⟩ := h.last p (Or.inr (Or.inr hp))
  have hzero : ∀ q, q ≠ p → r q = 0 := fun q hq => by have := hcount.two q p hq; omega
  obtain ⟨h1, h2, h3, h4, h5, h6, h7, h8, h9, h10⟩ := h
  constructor <;> grind -ring -linarith [Entry.setD, Pc.locks, Pc.last, Pc.freed]

theorem Ok.inval (h : Ok i e d r pc lock) (hp : pc p = .inval i) :
    Ok i e.invalidate d r (update pc p (.unlock i)) lock := by
  have hpc : ∀ q, update pc p (.unlock i) q = if q = p then .unlock i else pc q := fun q => update_apply ..
  have hlock : e.lock = some p := h.locks p (Or.inr (Or.inr (Or.inr (Or.inl hp))))
  have hno : ∀ q, q ≠ p → ¬(pc q).last i := fun q hq hl => hq (h.not_last_of_lock hlock hl).1
  obtain ⟨h1, h2, h3, h4, h5, h6, h7, h8, h9, h10⟩ := h
  constructor <;> grind -ring -linarith [Entry.invalidate, Pc.locks, Pc.last, Pc.freed]

theorem Ok.unlock (h : Ok i e d r pc lock) (hp : pc p = .unlock i) :
    Ok i (e.setLock none) d r (update pc p (.drop i)) lock := by
  have hpc : ∀ q, update pc p (.drop i) q = if q = p then .drop i else pc q := fun q => update_apply ..
  have hlock : e.lock = some p := h.locks p (Or.inr (Or.inr (Or.inr (Or.inr hp))))
  obtain ⟨h1, h2, h3, h4, h5, h6, h7, h8, h9, h10⟩ := h
  constructor <;> grind -ring -linarith [Entry.setLock, Pc.locks, Pc.last, Pc.freed]

theorem Ok.give (h : Ok i e d r pc lock) (hcount : Counted e.ref r) (hp : (pc p).ready = true)
    (hq : (pc q).ready = true) (href : 0 < r p) (hspare : e.lock = some p → 1 < r p) :
    Ok i e d (update (update r p (r p - 1)) q (r q + 1)) pc lock := by
  have hr : ∀ k, update (update r p (r p - 1)) q (r q + 1) k = if k = q then r q + 1 else if k = p then r p - 1 else r k :=
    fun k => by rw [update_apply, update_apply]
  have hno : ∀ q, q ≠ p → ¬(pc q).last i := fun q hq => h.not_last_of_ref hcount href hq
  obtain ⟨h1, h2, h3, h4, h5, h6, h7, h8, h9, h10⟩ := h
  constructor <;> grind -ring -linarith [Pc.locks, Pc.last, Pc.freed, Pc.ready]

end Entry

/-! ### The whole table -/

section Sums
variable [Fintype P] [DecidableEq P]

theorem Counted.of_sum {ref : ℕ} {r : P → ℕ} (h : ref = ∑ p, r p) : Counted ref r where
  one p := h ▸ Finset.single_le_sum (fun _ _ => Nat.zero_le _) (Finset.mem_univ p)
  two p q hne := by
    rw [h, ← Finset.sum_pair hne]
    exact Finset.sum_le_sum_of_subset (Finset.subset_univ _)

theorem sum_incr (r : P → ℕ) (p : P) : ∑ q, update r p (r p + 1) q = ∑ q, r q + 1 := by
  rw [Finset.sum_update_of_mem (Finset.mem_univ p), ← Finset.add_sum_erase _ r (Finset.mem_univ p),
    Finset.sdiff_singleton_eq_erase]
  omega

theorem sum_decr {r : P → ℕ} {p : P} (h : 0 < r p) : ∑ q, update r p (r p - 1) q = ∑ q, r q - 1 := by
  rw [Finset.sum_update_of_mem (Finset.mem_univ p), ← Finset.add_sum_erase _ r (Finset.mem_univ p),
    Finset.sdiff_singleton_eq_erase]
  omega

end Sums

variable [Fintype P] {s t : Sys P n}

/-- An inode that `ialloc` has marked and not yet entered: nobody has a reference to it but who is done
    freeing its last life. -/
def Fresh (s : Sys P n) : Prop := ∀ p x, s.pc p = .alloced x →
  (s.disk x).type ≠ 0 ∧ (s.disk x).nlink = 0 ∧ (∀ i q, (s.entry i).inum = x → 0 < s.refs q i → (s.pc q).freed i) ∧
    ∀ q, s.pc q = .alloced x → q = p

structure Inv (s : Sys P n) : Prop where
  ok : ∀ i, Ok i (s.entry i) (s.disk (s.entry i).inum) (fun p => s.refs p i) s.pc s.lock
  unique : ∀ i j, 0 < (s.entry i).ref → 0 < (s.entry j).ref → (s.entry i).inum = (s.entry j).inum → i = j
  count : ∀ i, (s.entry i).ref = ∑ p, s.refs p i
  fresh : Fresh s

theorem Inv.not_alloced (h : Inv s) (hq : 0 < s.refs q i) (hf : ¬(s.pc q).freed i) : s.pc p ≠ .alloced (s.entry i).inum :=
  fun hp => hf ((h.fresh p _ hp).2.2.1 i q rfl hq)

theorem inv_init (disk : ℕ → Dinode) : Inv (Sys.init P n disk) := by
  refine ⟨fun i => ⟨by rintro p ⟨⟩, ?_, by rintro p ⟨⟩, ?_, ?_, by rintro p ⟨⟩, fun h => absurd h (Nat.lt_irrefl 0),
    fun p h => absurd h (Nat.lt_irrefl 0), fun h => absurd h (Nat.lt_irrefl 0), by rintro p ⟨⟩⟩,
    fun i j h => absurd h (Nat.lt_irrefl 0), fun i => Finset.sum_const_zero.symm, by rintro p x ⟨⟩⟩
  · rintro p (hp | hp | hp | hp | hp) <;> cases hp
  · rintro p (hp | hp | hp) <;> cases hp
  · rintro p (hp | hp | hp) <;> cases hp

variable [DecidableEq P]

theorem Inv.counted (h : Inv s) (i : Fin n) : Counted (s.entry i).ref fun p => s.refs p i := .of_sum (h.count i)

theorem Inv.put {c : Pc n} (h : Inv s) (hpc : t.pc = update s.pc p c) (hc : ∀ x, c ≠ .alloced x)
    (hold : (s.pc p).entry = none ∨ (s.pc p).entry = some i) (hnew : c.entry = none ∨ c.entry = some i)
    (hentry : ∀ j, j ≠ i → t.entry j = s.entry j) (hrefs : ∀ j, j ≠ i → ∀ q, t.refs q j = s.refs q j)
    (hdisk : ∀ x, t.disk x = s.disk x ∨ x = (s.entry i).inum ∧ 0 < s.refs p i ∧ ¬(s.pc p).freed i)
    (hlock : ∀ q j, j ≠ i → s.pc q = .freeLock j → t.lock = s.lock)
    (hok : Ok i (t.entry i) (t.disk (t.entry i).inum) (fun q => t.refs q i) t.pc t.lock)
    (hcount : (t.entry i).ref = ∑ q, t.refs q i)
    (hinum : (t.entry i).inum = (s.entry i).inum ∧ (0 < (t.entry i).ref → 0 < (s.entry i).ref) ∨
      ∀ j, 0 < (s.entry j).ref → (s.entry j).inum ≠ (t.entry i).inum)
    (hfresh : ∀ q x, q ≠ p → s.pc q = .alloced x → (t.entry i).inum = x → ∀ r, 0 < t.refs r i → (t.pc r).freed i) :
    Inv t := by
  have hother : ∀ {j}, j ≠ i → (s.pc p).entry ≠ some j ∧ c.entry ≠ some j := by
    intro j hj
    constructor
    · rcases hold with he | he <;> rw [he]
      · simp
      · exact fun hij => hj (Option.some.inj hij).symm
    · rcases hnew with he | he <;> rw [he]
      · simp
      · exact fun hij => hj (Option.some.inj hij).symm
  have hunique : ∀ j, j ≠ i → 0 < (t.entry i).ref → 0 < (s.entry j).ref → (t.entry i).inum ≠ (s.entry j).inum := by
    intro j hj hi hj' he
    rcases hinum with ⟨hsame, hpos⟩ | hnone
    · exact hj (h.unique j i hj' (hpos hi) (he.symm.trans hsame))
    · exact hnone j hj' he.symm
  refine ⟨fun j => ?_, fun j k hj hk he => ?_, fun j => ?_, fun q x hq => ?_⟩
  · rcases eq_or_ne j i with rfl | hj
    · exact hok
    · have hrj : (fun q => t.refs q j) = fun q => s.refs q j := funext (hrefs j hj)
      rw [hentry j hj, hrj, hpc]
      refine (h.ok j).frame (hother hj).1 (hother hj).2 ?_ fun q hq => hlock q j hj hq
      rcases hdisk (s.entry j).inum with hd | ⟨hx, hp, -⟩
      · exact Or.inl hd
      · -- another entry that names the dinode is not in use
        right
        have hi : 0 < (s.entry i).ref := lt_of_lt_of_le hp ((h.counted i).one p)
        have hzero : (s.entry j).ref = 0 := by
          by_contra hpos
          exact hj (h.unique j i (Nat.pos_of_ne_zero hpos) hi hx)
        exact ⟨hzero, fun q => Nat.le_zero.mp (hzero ▸ (h.counted j).one q)⟩
  · rcases eq_or_ne j i with hji | hji <;> rcases eq_or_ne k i with hki | hki
    · rw [hji, hki]
    · rw [hji] at hj he
      rw [hentry k hki] at hk he
      exact absurd he (hunique k hki hj hk)
    · rw [hki] at hk he
      rw [hentry j hji] at hj he
      exact absurd he.symm (hunique j hji hk hj)
    · rw [hentry j hji] at hj he
      rw [hentry k hki] at hk he
      exact h.unique j k hj hk he
  · rcases eq_or_ne j i with rfl | hj
    · exact hcount
    · rw [hentry j hj, h.count j]
      exact Finset.sum_congr rfl fun q _ => (hrefs j hj q).symm
  · have hqp : q ≠ p := by rintro rfl; rw [hpc, update_self] at hq; exact hc x hq
    have hpcs : ∀ {r}, r ≠ p → t.pc r = s.pc r := fun hr => by rw [hpc, update_of_ne hr]
    rw [hpcs hqp] at hq
    obtain ⟨h1, h2, h3, h4⟩ := h.fresh q x hq
    have hdx : t.disk x = s.disk x := by
      rcases hdisk x with hd | ⟨rfl, hp, hf⟩
      · exact hd
      · exact absurd hq (h.not_alloced hp hf)
    rw [hdx]
    refine ⟨h1, h2, fun j r hj hr => ?_, fun r hr => ?_⟩
    · rcases eq_or_ne j i with rfl | hji
      · exact hfresh q x hqp hq hj r hr
      · rw [hentry j hji] at hj
        rw [hrefs j hji] at hr
        have hf := h3 j r hj hr
        rcases eq_or_ne r p with rfl | hrp
        · exact absurd (Pc.entry_of_freed hf) (hother hji).1
        · rw [hpcs hrp]; exact hf
    · rcases eq_or_ne r p with rfl | hrp
      · rw [hpc, update_self] at hr; exact absurd hr (hc x)
      · rw [hpcs hrp] at hr; exact h4 r hr

/-! ### Every step -/

theorem Pc.ready_entry {c : Pc n} (h : c.ready = true) : c.entry = none ∨ c.entry = some i :=
  Or.inl (Pc.not_entry_of_ready h)

theorem Pc.not_freed_of_ready {c : Pc n} (h : c.ready = true) : ¬c.freed i := fun hf =>
  absurd ((Pc.not_entry_of_ready h).symm.trans (Pc.entry_of_freed hf)) (by simp)

theorem Pc.not_last_of_ready {c : Pc n} (h : c.ready = true) : ¬c.last i := fun hf =>
  absurd ((Pc.not_entry_of_ready h).symm.trans (Pc.entry_of_last hf)) (by simp)

/-- `p` works on entry `i` with a reference of its own; the dinode may change. -/
theorem Inv.work {e : Entry P} {disk : ℕ → Dinode} {lock : Option P} {c : Pc n} (h : Inv s)
    (hold : (s.pc p).entry = none ∨ (s.pc p).entry = some i) (hnew : c.entry = none ∨ c.entry = some i)
    (hc : ∀ x, c ≠ .alloced x) (href : 0 < s.refs p i) (hlive : ¬(s.pc p).freed i)
    (he : e.inum = (s.entry i).inum ∧ e.ref = (s.entry i).ref)
    (hdisk : ∀ x, disk x = s.disk x ∨ x = (s.entry i).inum)
    (hlock : ∀ q j, j ≠ i → s.pc q = .freeLock j → lock = s.lock)
    (hok : Ok i e (disk (s.entry i).inum) (fun q => s.refs q i) (update s.pc p c) lock) :
    Inv { disk := disk, entry := update s.entry i e, lock := lock, pc := update s.pc p c, refs := s.refs } := by
  have hi : update s.entry i e i = e := update_self ..
  refine h.put rfl hc hold hnew (fun j hj => update_of_ne hj ..) (fun _ _ _ => rfl)
    (fun x => (hdisk x).imp_right fun hx => ⟨hx, href, hlive⟩) hlock ?_ ?_ (Or.inl ?_) fun q x _ hq hx => ?_
  · dsimp only
    rw [hi, he.1]; exact hok
  · dsimp only
    rw [hi, he.2]; exact h.count i
  · dsimp only
    rw [hi, he.1, he.2]; exact ⟨rfl, id⟩
  · dsimp only at hx
    rw [hi, he.1] at hx
    exact absurd (hx ▸ hq) (h.not_alloced href hlive)

theorem Inv.refs {e : Entry P} {k : ℕ} {c : Pc n} (h : Inv s)
    (hold : (s.pc p).entry = none ∨ (s.pc p).entry = some i) (hnew : c.entry = none) (hc : ∀ x, c ≠ .alloced x)
    (hok : Ok i e (s.disk e.inum) (update (fun q => s.refs q i) p k) (update s.pc p c) s.lock)
    (hcount : e.ref = ∑ q, update (fun q => s.refs q i) p k q)
    (hinum : e.inum = (s.entry i).inum ∧ (0 < e.ref → 0 < (s.entry i).ref) ∨
      ∀ j, 0 < (s.entry j).ref → (s.entry j).inum ≠ e.inum)
    (hfresh : ∀ q, q ≠ p → s.pc q = .alloced e.inum → ∀ r, 0 < update (fun q => s.refs q i) p k r →
      (update s.pc p c r).freed i) : Inv (((s.setEntry i e).setRefs p i k).setPc p c) := by
  have hi : (((s.setEntry i e).setRefs p i k).setPc p c).entry i = e := update_self ..
  have hr : (fun q => (((s.setEntry i e).setRefs p i k).setPc p c).refs q i) = update (fun q => s.refs q i) p k :=
    Sys.setRefs_at ..
  refine h.put (i := i) rfl hc hold (Or.inl hnew) (fun j hj => update_of_ne hj ..)
    (fun j hj q => Sys.setRefs_ne _ p hj _ q) (fun _ => Or.inl rfl) (fun _ _ _ _ => rfl) ?_ ?_ ?_
    fun q x hq hx hxi r hpos => ?_
  · rw [hi, hr]; exact hok
  · rw [hi, hr]; exact hcount
  · rw [hi]; exact hinum
  · rw [hi] at hxi
    rw [congrFun hr r] at hpos
    exact hfresh q hq (hxi ▸ hx) r hpos

/-- One more reference to an allocated inode that nobody is about to free. -/
theorem Inv.incr {c : Pc n} (h : Inv s) (hold : (s.pc p).entry = none) (hnew : c.entry = none)
    (hc : ∀ x, c ≠ .alloced x) (href : 0 < (s.entry i).ref) (htype : (s.disk (s.entry i).inum).type ≠ 0)
    (hno : ∀ q, ¬(s.pc q).last i) (hx : ∀ q, q ≠ p → s.pc q ≠ .alloced (s.entry i).inum) :
    Inv (((s.setEntry i ((s.entry i).setRef ((s.entry i).ref + 1))).setRefs p i (s.refs p i + 1)).setPc p c) := by
  have hframe : Ok i (s.entry i) (s.disk (s.entry i).inum) (fun q => s.refs q i) (update s.pc p c) s.lock :=
    (h.ok i).frame (by rw [hold]; simp) (by rw [hnew]; simp) (Or.inl rfl) fun _ _ => rfl
  refine h.refs (Or.inl hold) hnew hc (hframe.incr (fun q hq => ?_) ?_ htype href) ?_ (Or.inl ⟨rfl, fun _ => href⟩)
    fun q hq hy => absurd hy (hx q hq)
  · rcases eq_or_ne q p with rfl | hne
    · rw [update_self] at hq
      exact absurd (hnew.symm.trans (Pc.entry_of_last hq)) (by simp)
    · rw [update_of_ne hne] at hq
      exact hno q hq
  · rw [update_self]
    exact fun hf => absurd (hnew.symm.trans (Pc.entry_of_freed hf)) (by simp)
  · rw [sum_incr fun q => s.refs q i, ← h.count i]; rfl

theorem Inv.recycle {x : ℕ} {c : Pc n} (h : Inv s) (hold : (s.pc p).entry = none) (hnew : c.entry = none)
    (hc : ∀ x, c ≠ .alloced x) (href : (s.entry i).ref = 0) (htype : (s.disk x).type ≠ 0)
    (hnone : ∀ j, 0 < (s.entry j).ref → (s.entry j).inum ≠ x) (hx : ∀ q, q ≠ p → s.pc q ≠ .alloced x) :
    Inv (((s.setEntry i { s.entry i with inum := x, ref := 1, valid := false }).setRefs p i
      (s.refs p i + 1)).setPc p c) := by
  refine h.refs (Or.inl hold) hnew hc ((h.ok i).recycle (h.counted i) href hnew htype) ?_ (Or.inr hnone)
    fun q hq hy => absurd hy (hx q hq)
  rw [sum_incr fun q => s.refs q i, ← h.count i, href]

theorem Inv.iget {x : ℕ} {c : Pc n} (h : Inv s) (hold : (s.pc p).entry = none) (hnew : c.entry = none)
    (hc : ∀ x, c ≠ .alloced x) (htype : (s.disk x).type ≠ 0) (hfind : s.find x = some i)
    (hno : (s.entry i).inum = x → ∀ q, ¬(s.pc q).last i) (hx : ∀ q, q ≠ p → s.pc q ≠ .alloced x) :
    Inv ((s.iget p x i).setPc p c) := by
  rw [Sys.iget, Entry.get]
  rcases Sys.find_spec hfind with ⟨hpos, rfl⟩ | ⟨hzero, hnone⟩
  · rw [if_pos hpos]
    exact h.incr hold hnew hc hpos htype (hno rfl) hx
  · rw [if_neg (by omega)]
    exact h.recycle hold hnew hc hzero htype hnone hx

theorem Inv.decref (h : Inv s) (hp : (s.pc p).ready = true ∨ s.pc p = .drop i) (href : 0 < s.refs p i)
    (hspare : (s.entry i).lock = some p → 1 < s.refs p i) : Inv ((s.decref p i).setPc p .idle) := by
  have hold : (s.pc p).entry = none ∨ (s.pc p).entry = some i :=
    hp.elim Pc.ready_entry fun hd => Or.inr (by rw [hd]; rfl)
  refine h.refs hold rfl (by rintro x ⟨⟩) ((h.ok i).decr (h.counted i) hp href hspare) ?_ (Or.inl ⟨rfl, fun hpos => ?_⟩)
    fun q hq hx r hr => ?_
  · rw [sum_decr (r := fun q => s.refs q i) href, ← h.count i]; rfl
  · have : 0 < (s.entry i).ref - 1 := hpos
    omega
  · -- an inode that is being allocated: the references left are done freeing it
    have hf := (h.fresh q _ hx).2.2.1 i
    rcases eq_or_ne r p with rfl | hrp
    · have hone := (h.ok i).freed r (hf r rfl href)
      rw [update_self] at hr
      omega
    · rw [update_of_ne hrp] at hr ⊢
      exact hf r rfl hr

theorem Inv.give (h : Inv s) (hp : (s.pc p).ready = true) (hq : (s.pc q).ready = true) (hne : p ≠ q)
    (href : 0 < s.refs p i) (hspare : (s.entry i).lock = some p → 1 < s.refs p i) :
    Inv (((s.setRefs p i (s.refs p i - 1)).setRefs q i (s.refs q i + 1)).setPc p .idle) := by
  have hr : (fun k => (((s.setRefs p i (s.refs p i - 1)).setRefs q i (s.refs q i + 1)).setPc p .idle).refs k i) =
      update (update (fun k => s.refs k i) p (s.refs p i - 1)) q (s.refs q i + 1) := by
    rw [← Sys.setRefs_at s p i, ← Sys.setRefs_at]; rfl
  have hsum : ∑ k, (((s.setRefs p i (s.refs p i - 1)).setRefs q i (s.refs q i + 1)).setPc p .idle).refs k i =
      (s.entry i).ref := by
    have hq' : update (fun k => s.refs k i) p (s.refs p i - 1) q = s.refs q i := update_of_ne (Ne.symm hne) ..
    have hle := (h.counted i).one p
    rw [hr, ← hq', sum_incr, sum_decr (r := fun k => s.refs k i) href, ← h.count i]
    omega
  refine h.put (i := i) rfl (by rintro x ⟨⟩) (Pc.ready_entry hp) (Or.inl rfl) (fun _ _ => rfl)
    (fun j hj k => (Sys.setRefs_ne _ q hj _ k).trans (Sys.setRefs_ne _ p hj _ k)) (fun _ => Or.inl rfl)
    (fun _ _ _ _ => rfl) ?_ hsum.symm (Or.inl ⟨rfl, id⟩) fun k x hk hx hxi => ?_
  · rw [hr]
    have hg := (h.ok i).give (h.counted i) hp hq href hspare
    exact hg.frame (by rw [Pc.not_entry_of_ready hp]; simp) (by simp [Pc.entry]) (Or.inl rfl) fun _ _ => rfl
  · exact absurd (hxi ▸ hx) (h.not_alloced href (Pc.not_freed_of_ready hp))

theorem Inv.ialloc {x type : ℕ} (h : Inv s) (hp : (s.pc p).ready = true) (htype : type ≠ 0)
    (hfree : (s.disk x).type = 0) : Inv ((s.setDisk x (.fresh type)).setPc p (.alloced x)) := by
  have hdisk : ∀ {y}, y ≠ x → ((s.setDisk x (.fresh type)).setPc p (.alloced x)).disk y = s.disk y := fun hy =>
    update_of_ne hy ..
  have hdx : ((s.setDisk x (.fresh type)).setPc p (.alloced x)).disk x = .fresh type := update_self ..
  have hpc : ∀ {q}, q ≠ p → ((s.setDisk x (.fresh type)).setPc p (.alloced x)).pc q = s.pc q := fun hq =>
    update_of_ne hq ..
  have hpcp : ((s.setDisk x (.fresh type)).setPc p (.alloced x)).pc p = .alloced x := update_self ..
  have hfreed : ∀ {i q}, (s.pc q).freed i → (((s.setDisk x (.fresh type)).setPc p (.alloced x)).pc q).freed i := by
    intro i q hq
    rwa [hpc (by rintro rfl; exact Pc.not_freed_of_ready hp hq)]
  -- an inode that another process has marked is not free
  have hother : ∀ {q y}, s.pc q = .alloced y → y ≠ x := by
    rintro q y hq rfl
    exact (h.fresh q y hq).1 hfree
  refine ⟨fun i => ?_, h.unique, h.count, fun q y hq => ?_⟩
  · have hframe : ∀ {d}, Ok i (s.entry i) d (fun q => s.refs q i) s.pc s.lock →
        Ok i (s.entry i) d (fun q => s.refs q i) (update s.pc p (.alloced x)) s.lock := fun hok =>
      hok.frame (by rw [Pc.not_entry_of_ready hp]; simp) (by simp [Pc.entry]) (Or.inl rfl) fun _ _ => rfl
    change Ok i (s.entry i) (((s.setDisk x (.fresh type)).setPc p (.alloced x)).disk (s.entry i).inum) _ _ _
    rcases eq_or_ne (s.entry i).inum x with hx | hx
    · rw [hx, hdx]
      have hok := h.ok i
      rw [hx] at hok
      exact hframe (hok.reuse hfree htype)
    · rw [hdisk hx]
      exact hframe (h.ok i)
  · rcases eq_or_ne q p with rfl | hqp
    · obtain rfl : x = y := Pc.alloced.inj (hpcp.symm.trans hq)
      rw [hdx]
      refine ⟨htype, rfl, fun i r hi hr => hfreed ?_, fun r hr => ?_⟩
      · -- who has a reference to a free inode is done freeing it
        by_contra hf
        exact (h.ok i).live r hr hf (hi ▸ hfree)
      · by_contra hrq
        rw [hpc hrq] at hr
        exact hother hr rfl
    · rw [hpc hqp] at hq
      obtain ⟨h1, h2, h3, h4⟩ := h.fresh q y hq
      rw [hdisk (hother hq)]
      refine ⟨h1, h2, fun i r hi hr => hfreed (h3 i r hi hr), fun r hr => ?_⟩
      rcases eq_or_ne r p with rfl | hrp
      · exact absurd (Pc.alloced.inj (hpcp.symm.trans hr)).symm (hother hq)
      · rw [hpc hrp] at hr
        exact h4 r hr

theorem Inv.store {d : Dinode} {c : Pc n} (h : Inv s) (hold : (s.pc p).entry = none ∨ (s.pc p).entry = some i)
    (hnew : c.entry = none ∨ c.entry = some i) (hc : ∀ x, c ≠ .alloced x) (href : 0 < s.refs p i)
    (hlive : ¬(s.pc p).freed i)
    (hok : Ok i ((s.entry i).setD d) d (fun q => s.refs q i) (update s.pc p c) s.lock) :
    Inv ((s.iupdate i d).setPc p c) := by
  refine h.work hold hnew hc href hlive ⟨rfl, rfl⟩ (fun x => ?_) (fun _ _ _ _ => rfl) ?_
  · rcases eq_or_ne x (s.entry i).inum with hx | hx
    · exact Or.inr hx
    · exact Or.inl (update_of_ne hx ..)
  · have hd : (s.iupdate i d).disk (s.entry i).inum = d := update_self ..
    rw [hd]; exact hok

theorem Inv.after {e : Entry P} {c : Pc n} (h : Inv s) (hold : (s.pc p).freed i) (hnew : c.freed i)
    (he : e.inum = (s.entry i).inum ∧ e.ref = (s.entry i).ref)
    (hok : Ok i e (s.disk (s.entry i).inum) (fun q => s.refs q i) (update s.pc p c) s.lock) :
    Inv ((s.setEntry i e).setPc p c) := by
  have hi : ((s.setEntry i e).setPc p c).entry i = e := update_self ..
  have hc : ∀ x, c ≠ .alloced x := by rintro x rfl; rcases hnew with hf | hf | hf <;> cases hf
  refine h.put rfl hc (Or.inr (Pc.entry_of_freed hold)) (Or.inr (Pc.entry_of_freed hnew)) (fun j hj => update_of_ne hj ..)
    (fun _ _ _ => rfl) (fun _ => Or.inl rfl) (fun _ _ _ _ => rfl) ?_ ?_ (Or.inl ?_) fun q x _ hx hxi r hr => ?_
  · rw [hi, he.1]; exact hok
  · rw [hi, he.2]; exact h.count i
  · rw [hi, he.1, he.2]; exact ⟨rfl, id⟩
  · rw [hi, he.1] at hxi
    rcases eq_or_ne r p with rfl | hrp
    · have : ((s.setEntry i e).setPc r c).pc r = c := update_self ..
      rw [this]; exact hnew
    · have : ((s.setEntry i e).setPc p c).pc r = s.pc r := update_of_ne hrp ..
      rw [this]; exact (h.fresh q x hx).2.2.1 i r hxi hr

theorem inv_next {l : Label P n} (h : Inv s) (he : Enabled s l) : Inv (next s l) := by
  -- no change to the disk or to `itable.lock`
  have hwork : ∀ {p : P} {i : Fin n} (e : Entry P) {c : Pc n}, ((s.pc p).entry = none ∨ (s.pc p).entry = some i) →
      (c.entry = none ∨ c.entry = some i) → (∀ x, c ≠ .alloced x) → 0 < s.refs p i → ¬(s.pc p).freed i →
      e.inum = (s.entry i).inum ∧ e.ref = (s.entry i).ref →
      Ok i e (s.disk (s.entry i).inum) (fun q => s.refs q i) (update s.pc p c) s.lock →
      Inv ((s.setEntry i e).setPc p c) := by
    intro p i e c h1 h2 h3 h4 h5 h6 hok
    exact h.work h1 h2 h3 h4 h5 h6 (fun _ => Or.inl rfl) (fun _ _ _ _ => rfl) hok
  cases l with
  | iget p x i =>
    obtain ⟨hp, -, htype, hlink, hfind⟩ := he
    refine h.iget (Pc.not_entry_of_ready hp) rfl (by rintro y ⟨⟩) htype hfind (fun hx q hq => ?_) fun q _ hq => ?_
    · -- who is about to free it has seen that it has no links
      have hn := ((h.ok i).last q hq).2.2.2
      rw [(h.ok i).current_of_last hq, hx] at hn
      omega
    · have := (h.fresh q x hq).2.1
      omega
  | idup p i =>
    obtain ⟨hp, -, href⟩ := he
    have hlive := Pc.not_freed_of_ready (i := i) hp
    refine h.incr (Pc.not_entry_of_ready hp) rfl (by rintro x ⟨⟩) (lt_of_lt_of_le href ((h.counted i).one p))
      ((h.ok i).live p href hlive) (fun q hq => ?_) fun q _ => h.not_alloced href hlive
    rcases eq_or_ne q p with rfl | hne
    · exact Pc.not_last_of_ready hp hq
    · exact (h.ok i).not_last_of_ref (h.counted i) href hne hq
  | ilock p i =>
    obtain ⟨hp, href, hfree⟩ := he
    exact hwork _ (Pc.ready_entry hp) (Or.inr rfl) (by rintro x ⟨⟩) href (Pc.not_freed_of_ready hp) ⟨rfl, rfl⟩
      ((h.ok i).ilock (h.counted i) hp href hfree)
  | load p i =>
    obtain ⟨hp, htype⟩ := he
    have href := (h.ok i).owner p ((h.ok i).locks p (Or.inl hp))
    have hold : (s.pc p).entry = some i := by rw [hp]; rfl
    have hlive : ¬(s.pc p).freed i := by rw [hp]; rintro (hf | hf | hf) <;> cases hf
    rw [next]
    split
    · rename_i hv
      have ht := hwork (s.entry i) (Or.inr hold) (Or.inl rfl) (by rintro x ⟨⟩) href hlive ⟨rfl, rfl⟩
        ((h.ok i).loaded_idle hp hv)
      rwa [Sys.setEntry_same] at ht
    · rename_i hv
      exact hwork _ (Or.inr hold) (Or.inl rfl) (by rintro x ⟨⟩) href hlive ⟨rfl, rfl⟩
        ((h.ok i).load hp (htype.resolve_left hv))
  | iunlock p i =>
    obtain ⟨hp, hlock⟩ := he
    have hok := ((h.ok i).iunlock hp hlock).frame (p := p) (c := .idle) (by rw [Pc.not_entry_of_ready hp]; simp)
      (by simp [Pc.entry]) (Or.inl rfl) fun _ _ => rfl
    exact hwork _ (Pc.ready_entry hp) (Or.inl rfl) (by rintro x ⟨⟩) ((h.ok i).owner p hlock) (Pc.not_freed_of_ready hp)
      ⟨rfl, rfl⟩ hok
  | iupdate p i d =>
    obtain ⟨hp, hlock, htype⟩ := he
    have hok := ((h.ok i).iupdate hp hlock htype).frame (p := p) (c := .idle) (by rw [Pc.not_entry_of_ready hp]; simp)
      (by simp [Pc.entry]) (Or.inl rfl) fun _ _ => rfl
    exact h.store (Pc.ready_entry hp) (Or.inl rfl) (by rintro x ⟨⟩) ((h.ok i).owner p hlock) (Pc.not_freed_of_ready hp) hok
  | iput p i =>
    obtain ⟨hp, hlock, hs⟩ := he
    obtain ⟨href, hspare⟩ := Sys.spare_pos hs
    rw [next]
    split
    · rename_i hdead
      have hok := h.ok i
      rw [hlock] at hok
      have ht : Inv (((s.setEntry i (s.entry i)).setLock (some p)).setPc p (.freeLock i)) := by
        refine h.work (Pc.ready_entry hp) (Or.inr rfl) (by rintro x ⟨⟩) href (Pc.not_freed_of_ready hp) ⟨rfl, rfl⟩
          (fun _ => Or.inl rfl) (fun q j _ hq => ?_) (hok.iput (h.counted i) hp hs hdead)
        -- nobody else holds `itable.lock`
        exact absurd (hlock.symm.trans ((h.ok j).noWait q hq).1) (by simp)
      rwa [Sys.setEntry_same] at ht
    · exact h.decref (Or.inl hp) href hspare
  | freeLock p i =>
    obtain ⟨hp, -⟩ := he
    have href : 0 < s.refs p i := by have := ((h.ok i).last p (Or.inl hp)).2.1; omega
    refine h.work (Or.inr (by rw [hp]; rfl)) (Or.inr rfl) (by rintro x ⟨⟩) href
      (by rw [hp]; rintro (hf | hf | hf) <;> cases hf) ⟨rfl, rfl⟩ (fun _ => Or.inl rfl) (fun q j hj hq => ?_) ((h.ok i).freeLock hp)
    -- two holders of `itable.lock` are one, and `p` is at entry `i`
    have hpq := ((h.ok i).noWait p hp).1.symm.trans ((h.ok j).noWait q hq).1
    obtain rfl := Option.some.inj hpq
    rw [hp] at hq
    exact absurd (Pc.freeLock.inj hq).symm hj
  | trunc p i =>
    have hp : s.pc p = .trunc i := he
    have href : 0 < s.refs p i := by have := ((h.ok i).last p (Or.inr (Or.inl hp))).2.1; omega
    exact h.store (Or.inr (by rw [hp]; rfl)) (Or.inr rfl) (by rintro x ⟨⟩) href
      (by rw [hp]; rintro (hf | hf | hf) <;> cases hf) ((h.ok i).trunc hp)
  | clear p i =>
    have hp : s.pc p = .clear i := he
    have href : 0 < s.refs p i := by have := ((h.ok i).last p (Or.inr (Or.inr hp))).2.1; omega
    exact h.store (Or.inr (by rw [hp]; rfl)) (Or.inr rfl) (by rintro x ⟨⟩) href
      (by rw [hp]; rintro (hf | hf | hf) <;> cases hf) ((h.ok i).clear (h.counted i) hp)
  | inval p i =>
    have hp : s.pc p = .inval i := he
    exact h.after (Or.inl hp) (Or.inr (Or.inl rfl)) ⟨rfl, rfl⟩ ((h.ok i).inval hp)
  | unlock p i =>
    have hp : s.pc p = .unlock i := he
    exact h.after (Or.inr (Or.inl hp)) (Or.inr (Or.inr rfl)) ⟨rfl, rfl⟩ ((h.ok i).unlock hp)
  | drop p i =>
    obtain ⟨hp, -⟩ := he
    have hone := (h.ok i).freed p (Or.inr (Or.inr hp))
    exact h.decref (Or.inr hp) (by omega) fun hl => absurd hl ((h.ok i).dropped p hp)
  | ialloc p x type => exact h.ialloc he.1 he.2.1 he.2.2
  | born p x i =>
    obtain ⟨hp, -, hfind⟩ := he
    obtain ⟨htype, -, hdone, honly⟩ := h.fresh p x hp
    refine h.iget (by rw [hp]; rfl) rfl (by rintro y ⟨⟩) htype hfind (fun hx q hq => ?_) fun q hq hq' => hq (honly q hq')
    -- who has a reference is done freeing
    have hone := ((h.ok i).last q hq).2.1
    have hf := hdone i q hx (by omega)
    rcases hq with hq | hq | hq <;> rw [hq] at hf <;> rcases hf with hf | hf | hf <;> cases hf
  | give p q i =>
    obtain ⟨hp, hq, hne, hs⟩ := he
    exact h.give hp hq hne (Sys.spare_pos hs).1 (Sys.spare_pos hs).2

theorem inv_step {l : Label P n} (h : Inv s) (hstep : step s l = some t) : Inv t := by
  rw [step] at hstep
  split at hstep
  · rename_i he
    exact Option.some.inj hstep ▸ inv_next h he
  · cases hstep

/-! ### What follows -/

/-- The inode table, whoever uses it. -/
structure TableOk (s : Sys P n) : Prop where
  /-- one entry for each inode -/
  unique : ∀ i j, 0 < (s.entry i).ref → 0 < (s.entry j).ref → (s.entry i).inum = (s.entry j).inum → i = j
  /-- `ref` counts the references -/
  counted : ∀ i, (s.entry i).ref = ∑ p, s.refs p i
  /-- only `iput` frees an inode -/
  frees : ∀ l t x, step s l = some t → (s.disk x).type ≠ 0 → (t.disk x).type = 0 →
    ∃ p i, s.pc p = .clear i ∧ (s.entry i).inum = x
  /-- and it truncates and frees one without links that nobody else refers to -/
  alone : ∀ p i, s.pc p = .trunc i ∨ s.pc p = .clear i →
    (s.disk (s.entry i).inum).nlink = 0 ∧ s.refs p i = 1 ∧ ∀ q, q ≠ p → s.refs q i = 0
  /-- `iput` never waits with `itable.lock` -/
  noWait : ∀ p i, s.pc p = .freeLock i → (s.entry i).lock = none
  /-- `ilock` finds an allocated inode -/
  typed : ∀ p i, s.pc p = .load i → (s.disk (s.entry i).inum).type ≠ 0
  /-- who has locked an inode sees what is on disk -/
  current : ∀ p i, (s.entry i).lock = some p → (s.pc p).ready = true →
    (s.entry i).valid = true ∧ (s.entry i).d = s.disk (s.entry i).inum
  /-- what is on disk was zeroed by `ialloc`, or written by who has it locked and up to date -/
  stores : ∀ l t x, step s l = some t → t.disk x ≠ s.disk x →
    (∃ p type, l = .ialloc p x type ∧ (s.disk x).type = 0 ∧ t.disk x = .fresh type) ∨
    ∃ p i, (s.entry i).inum = x ∧ (s.entry i).lock = some p ∧ (s.entry i).valid = true ∧ (s.entry i).d = s.disk x

theorem Inv.current (h : Inv s) (hlock : (s.entry i).lock = some p) (hp : (s.pc p).ready = true) :
    (s.entry i).valid = true ∧ (s.entry i).d = s.disk (s.entry i).inum := by
  have hentry := Pc.not_entry_of_ready hp
  have hne : ∀ {c : Pc n}, c.entry = some i → s.pc p ≠ c := by
    rintro c hc rfl
    exact absurd (hentry.symm.trans hc) (by simp)
  have hv : (s.entry i).valid = true := by
    rcases (h.ok i).loaded p hlock with hv | hl | hl
    · exact hv
    · exact absurd hl (hne rfl)
    · exact absurd hl (hne rfl)
  have href : 0 < (s.entry i).ref := lt_of_lt_of_le ((h.ok i).owner p hlock) ((h.counted i).one p)
  exact ⟨hv, (h.ok i).current hlock (hne rfl) href hv⟩

theorem Inv.stores {l : Label P n} {x : ℕ} (h : Inv s) (he : Enabled s l) (hx : (next s l).disk x ≠ s.disk x) :
    (∃ p type, l = .ialloc p x type ∧ (s.disk x).type = 0 ∧ (next s l).disk x = .fresh type) ∨
    ∃ p i, (s.entry i).inum = x ∧ (s.entry i).lock = some p ∧ (s.entry i).valid = true ∧
      (s.entry i).d = s.disk x ∧ ((s.disk x).type ≠ 0 → ((next s l).disk x).type = 0 → s.pc p = .clear i) := by
  have hinum : ∀ {i d}, (s.iupdate i d).disk x ≠ s.disk x → (s.entry i).inum = x := by
    intro i d hne
    by_contra hi
    exact hne (update_of_ne (Ne.symm hi) ..)
  have hstored : ∀ {i d}, (s.entry i).inum = x → (s.iupdate i d).disk x = d := by
    rintro i d rfl
    exact update_self ..
  cases l with
  | ialloc p y type =>
    left
    rcases eq_or_ne x y with rfl | hne
    · exact ⟨p, type, rfl, he.2.2, update_self ..⟩
    · exact absurd (update_of_ne hne ..) hx
  | iupdate p i d =>
    right
    obtain ⟨hp, hlock, htype⟩ := he
    have hi := hinum hx
    obtain ⟨hv, hd⟩ := h.current hlock hp
    rw [hi] at hd
    refine ⟨p, i, hi, hlock, hv, hd, fun _ hz => absurd hz ?_⟩
    rw [show (next s (.iupdate p i d)).disk x = d from hstored hi]
    exact htype
  | trunc p i =>
    right
    have hp : s.pc p = .trunc i := he
    have hi := hinum hx
    have hlast : (s.pc p).last i := Or.inr (Or.inl hp)
    have hd := (h.ok i).current_of_last hlast
    rw [hi] at hd
    refine ⟨p, i, hi, (h.ok i).locks p (Or.inr (Or.inl hp)), ((h.ok i).last p hlast).2.2.1, hd, fun htype hz => absurd hz ?_⟩
    rw [show (next s (.trunc p i)).disk x = emptied (s.entry i).d from hstored hi, hd]
    exact htype
  | clear p i =>
    right
    have hp : s.pc p = .clear i := he
    have hi := hinum hx
    have hlast : (s.pc p).last i := Or.inr (Or.inr hp)
    have hd := (h.ok i).current_of_last hlast
    rw [hi] at hd
    exact ⟨p, i, hi, (h.ok i).locks p (Or.inr (Or.inr (Or.inl hp))), ((h.ok i).last p hlast).2.2.1, hd, fun _ _ => hp⟩
  | load p i | iput p i =>
    rw [next] at hx
    split at hx <;> exact absurd rfl hx
  | iget p y i | idup p i | ilock p i | iunlock p i | freeLock p i | inval p i | unlock p i | drop p i | born p y i
  | give p q i => exact absurd rfl hx

theorem Inv.tableOk (h : Inv s) : TableOk s where
  unique := h.unique
  counted := h.count
  frees l t x hstep htype hzero := by
    rw [step] at hstep
    split at hstep
    · rename_i he
      obtain rfl := Option.some.inj hstep
      have hx : (next s l).disk x ≠ s.disk x := fun hx => htype (hx ▸ hzero)
      rcases h.stores he hx with ⟨p, type, -, hfree, -⟩ | ⟨p, i, hi, -, -, -, hclear⟩
      · exact absurd hfree htype
      · exact ⟨p, i, hclear htype hzero, hi⟩
    · cases hstep
  alone p i hp := by
    have hlast : (s.pc p).last i := Or.inr hp
    obtain ⟨href, hone, -, hlink⟩ := (h.ok i).last p hlast
    rw [(h.ok i).current_of_last hlast] at hlink
    refine ⟨hlink, hone, fun q hq => ?_⟩
    have := (h.counted i).two q p hq
    omega
  noWait p i hp := ((h.ok i).noWait p hp).2
  typed p i hp := (h.ok i).live p ((h.ok i).owner p ((h.ok i).locks p (Or.inl hp)))
    (by rw [hp]; rintro (hf | hf | hf) <;> cases hf)
  current _ _ := h.current
  stores l t x hstep hx := by
    rw [step] at hstep
    split at hstep
    · rename_i he
      obtain rfl := Option.some.inj hstep
      refine (h.stores he hx).imp_right ?_
      rintro ⟨p, i, h1, h2, h3, h4, _⟩
      exact ⟨p, i, h1, h2, h3, h4⟩
    · cases hstep

/-- CORRECT (inode table): after every interleaving of calls that put only references their process holds and
    get only inodes with a directory entry or just allocated. -/
theorem table_ok {disk : ℕ → Dinode} {ls : List (Label P n)} (hrun : run step (Sys.init P n disk) ls = some t) :
    TableOk t :=
  (run_inv (fun _ _ _ => inv_step) (inv_init disk) hrun : Inv t).tableOk

/-- Inode 1 is a file with one link. -/
def oneFile : ℕ → Dinode := update (fun _ => .fresh 0) 1 { Dinode.fresh T_FILE with nlink := 1 }

scoped instance neZero_two : NeZero 2 := ⟨two_ne_zero⟩

/-- Process 0 unlinks and frees inode 1; process 1 allocates it again before the last `ref--`, and locks it. -/
def freeAndReuse : List (Label (Fin 2) 2) :=
  [.iget 0 1 0, .ilock 0 0, .load 0 0, .iupdate 0 0 (.fresh T_FILE), .iunlock 0 0, .iput 0 0, .freeLock 0 0, .trunc 0 0,
    .clear 0 0, .ialloc 1 1 T_DIR, .inval 0 0, .born 1 1 0, .unlock 0 0, .ilock 1 0, .load 1 0, .drop 0 0]

theorem table_ok_freeAndReuse : ∃ t, run step (Sys.init (Fin 2) 2 oneFile) freeAndReuse = some t ∧
    (t.entry 0).d.type = T_DIR ∧ (t.entry 0).ref = 1 ∧ TableOk t := by
  have hview : (run step (Sys.init (Fin 2) 2 oneFile) freeAndReuse).map
      (fun t => ((t.entry 0).d.type, (t.entry 0).ref)) = some (T_DIR, 1) := by decide +kernel
  obtain ⟨t, ht, hv⟩ := Option.map_eq_some_iff.mp hview
  obtain ⟨h1, h2⟩ := Prod.mk.inj hv
  exact ⟨t, ht, h1, h2, table_ok ht⟩

end Minios.Itable
