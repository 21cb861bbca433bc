import Minios.Schemes.Run
import Minios.Fs.Layout

/-! `kernel/fs.c`: the inode table, used by many processes at once.

    `iget`, `idup`, `ilock`, `iunlock`, `iput` and `ialloc`, cut where a process gives up a lock or
    others can see what it has done:

        ialloc   mark the dinode ─▶ alloced ─▶ iget ─▶ born
        ilock    acquiresleep ─▶ load ─▶ idle
        iput     ref is 1, no links ─▶ freeLock ─▶ trunc ─▶ clear ─▶ inval ─▶ unlock ─▶ drop ─▶ idle
                 otherwise: ref--, at once

    At `freeLock` the process holds `itable.lock`, from `trunc` to `unlock` the entry's sleep-lock, at
    `drop` neither: the inode is free on disk, and `ref` is still to be decremented. `refs p i` counts
    the references to entry `i` that process `p` holds, the one it is putting included. There is one
    device; the processes are any finite type, the table has any size. -/

namespace Minios.Itable
open Schemes Function Fs

variable {P : Type} {n : ℕ}

/-- `struct inode`, with the owner of its sleep-lock. -/
structure Entry (P : Type) where
  inum : ℕ
  ref : ℕ
  lock : Option P
  valid : Bool
  d : Dinode

/-- Where a process is in these functions. -/
inductive Pc (n : ℕ) where
  | idle
  | alloced (x : ℕ)
  | born (i : Fin n)
  | load (i : Fin n)
  | freeLock (i : Fin n)
  | trunc (i : Fin n)
  | clear (i : Fin n)
  | inval (i : Fin n)
  | unlock (i : Fin n)
  | drop (i : Fin n)
  deriving DecidableEq

/-- In none of them: `ialloc` has just returned, or anywhere else. -/
def Pc.ready : Pc n → Bool
  | .idle | .born _ => true
  | _ => false

structure Sys (P : Type) (n : ℕ) where
  disk : ℕ → Dinode
  entry : Fin n → Entry P
  lock : Option P
  pc : P → Pc n
  refs : P → Fin n → ℕ

/-! ### Changes -/

def Entry.setRef (e : Entry P) (ref : ℕ) : Entry P := { e with ref := ref }

def Entry.setLock (e : Entry P) (lock : Option P) : Entry P := { e with lock := lock }

def Entry.setD (e : Entry P) (d : Dinode) : Entry P := { e with d := d }

def Entry.invalidate (e : Entry P) : Entry P := { e with valid := false }

def Entry.load (e : Entry P) (d : Dinode) : Entry P := { e with d := d, valid := true }

/-- One more reference, or the first one. -/
def Entry.get (e : Entry P) (x : ℕ) : Entry P :=
  if 0 < e.ref then e.setRef (e.ref + 1) else { e with inum := x, ref := 1, valid := false }

/-- The entry that `iget` finds: the one that has the inode, or else the first empty one. -/
def Sys.find (s : Sys P n) (x : ℕ) : Option (Fin n) :=
  ((List.finRange n).find? fun k => 0 < (s.entry k).ref ∧ (s.entry k).inum = x).or
    ((List.finRange n).find? fun k => (s.entry k).ref = 0)

theorem Sys.find_spec {s : Sys P n} {x : ℕ} {i : Fin n} (h : s.find x = some i) :
    0 < (s.entry i).ref ∧ (s.entry i).inum = x ∨
      (s.entry i).ref = 0 ∧ ∀ k, 0 < (s.entry k).ref → (s.entry k).inum ≠ x := by
  rw [Sys.find, Option.or_eq_some_iff] at h
  rcases h with h | ⟨hno, h⟩
  · left
    simpa using List.find?_some h
  · right
    refine ⟨by simpa using List.find?_some h, fun k hk hx => ?_⟩
    have := List.find?_eq_none.mp hno k (List.mem_finRange k)
    simp [hk, hx] at this

def Sys.setEntry (s : Sys P n) (i : Fin n) (e : Entry P) : Sys P n := { s with entry := update s.entry i e }

theorem Sys.setEntry_same (s : Sys P n) (i : Fin n) : s.setEntry i (s.entry i) = s := by
  rw [Sys.setEntry, update_eq_self]

variable [DecidableEq P]

def Sys.setPc (s : Sys P n) (p : P) (pc : Pc n) : Sys P n := { s with pc := update s.pc p pc }

def Sys.setDisk (s : Sys P n) (x : ℕ) (d : Dinode) : Sys P n := { s with disk := update s.disk x d }

def Sys.setLock (s : Sys P n) (lock : Option P) : Sys P n := { s with lock := lock }

def Sys.setRefs (s : Sys P n) (p : P) (i : Fin n) (k : ℕ) : Sys P n :=
  { s with refs := update s.refs p (update (s.refs p) i k) }

theorem Sys.setRefs_at (s : Sys P n) (p : P) (i : Fin n) (k : ℕ) :
    (fun q => (s.setRefs p i k).refs q i) = update (fun q => s.refs q i) p k := by
  funext q
  rw [Sys.setRefs]
  rcases eq_or_ne q p with rfl | hne
  · simp only [update_self]
  · simp only [update_of_ne hne]

theorem Sys.setRefs_ne (s : Sys P n) (p : P) {i j : Fin n} (hj : j ≠ i) (k : ℕ) (q : P) : (s.setRefs p i k).refs q j = s.refs q j := by
  rw [Sys.setRefs]
  rcases eq_or_ne q p with rfl | hne
  · simp only [update_self, update_of_ne hj]
  · simp only [update_of_ne hne]

/-! ### The functions -/

/-- `iget` by `p` finds entry `i`. -/
def Sys.iget (s : Sys P n) (p : P) (x : ℕ) (i : Fin n) : Sys P n :=
  (s.setEntry i ((s.entry i).get x)).setRefs p i (s.refs p i + 1)

/-- `ip->ref--` -/
def Sys.decref (s : Sys P n) (p : P) (i : Fin n) : Sys P n :=
  (s.setEntry i ((s.entry i).setRef ((s.entry i).ref - 1))).setRefs p i (s.refs p i - 1)

/-- `iupdate` of entry `i` with the fields `d`. -/
def Sys.iupdate (s : Sys P n) (i : Fin n) (d : Dinode) : Sys P n :=
  (s.setEntry i ((s.entry i).setD d)).setDisk (s.entry i).inum d

/-- What `itrunc` leaves of an inode. -/
def emptied (d : Dinode) : Dinode := { d with size := 0, addrs := fun _ => 0 }

/-- After `iinit`: any disk, an empty table. -/
def Sys.init (P : Type) (n : ℕ) (disk : ℕ → Dinode) : Sys P n where
  disk := disk
  entry := fun _ => { inum := 0, ref := 0, lock := none, valid := false, d := .fresh 0 }
  lock := none
  pc := fun _ => .idle
  refs := fun _ _ => 0

/-- A process calls one of the functions, or goes on in one; the holder of an inode's sleep-lock changes
    fields and calls `iupdate`; a reference goes from one process to another (in an open file). -/
inductive Label (P : Type) (n : ℕ) where
  | iget (p : P) (x : ℕ) (i : Fin n)
  | idup (p : P) (i : Fin n)
  | ilock (p : P) (i : Fin n)
  | load (p : P) (i : Fin n)
  | iunlock (p : P) (i : Fin n)
  | iupdate (p : P) (i : Fin n) (d : Dinode)
  | iput (p : P) (i : Fin n)
  | freeLock (p : P) (i : Fin n)
  | trunc (p : P) (i : Fin n)
  | clear (p : P) (i : Fin n)
  | inval (p : P) (i : Fin n)
  | unlock (p : P) (i : Fin n)
  | drop (p : P) (i : Fin n)
  | ialloc (p : P) (x type : ℕ)
  | born (p : P) (x : ℕ) (i : Fin n)
  | give (p q : P) (i : Fin n)

/-- Process `p` holds a reference to entry `i` that it does not need for the sleep-lock. -/
def Sys.spare (s : Sys P n) (p : P) (i : Fin n) : Prop :=
  (if (s.entry i).lock = some p then 1 else 0) < s.refs p i

instance (s : Sys P n) (p : P) (i : Fin n) : Decidable (s.spare p i) := inferInstanceAs (Decidable (_ < _))

theorem Sys.spare_pos {s : Sys P n} {p : P} {i : Fin n} (h : s.spare p i) :
    0 < s.refs p i ∧ ((s.entry i).lock = some p → 1 < s.refs p i) := by
  rw [Sys.spare] at h
  split at h
  · exact ⟨by omega, fun _ => h⟩
  · rename_i hl
    exact ⟨h, fun he => absurd he hl⟩

/-- `iput`'s test. -/
def Entry.dead (e : Entry P) : Prop := e.ref = 1 ∧ e.valid = true ∧ e.d.nlink = 0

instance (e : Entry P) : Decidable e.dead := inferInstanceAs (Decidable (_ ∧ _ ∧ _))

/-- When a step can happen. `iget` is called for inodes that have a directory entry, `iput` for references
    that the caller holds. -/
def Enabled (s : Sys P n) : Label P n → Prop
  | .iget p x i => (s.pc p).ready ∧ s.lock = none ∧ (s.disk x).type ≠ 0 ∧ 0 < (s.disk x).nlink ∧ s.find x = some i
  | .idup p i => (s.pc p).ready ∧ s.lock = none ∧ 0 < s.refs p i
  | .ilock p i => (s.pc p).ready ∧ 0 < s.refs p i ∧ (s.entry i).lock = none
  | .load p i => s.pc p = .load i ∧ ((s.entry i).valid = true ∨ (s.disk (s.entry i).inum).type ≠ 0)
  | .iunlock p i => (s.pc p).ready ∧ (s.entry i).lock = some p
  | .iupdate p i d => (s.pc p).ready ∧ (s.entry i).lock = some p ∧ d.type ≠ 0
  | .iput p i => (s.pc p).ready ∧ s.lock = none ∧ s.spare p i
  | .freeLock p i => s.pc p = .freeLock i ∧ (s.entry i).lock = none
  | .trunc p i => s.pc p = .trunc i
  | .clear p i => s.pc p = .clear i
  | .inval p i => s.pc p = .inval i
  | .unlock p i => s.pc p = .unlock i
  | .drop p i => s.pc p = .drop i ∧ s.lock = none
  | .ialloc p x type => (s.pc p).ready ∧ type ≠ 0 ∧ (s.disk x).type = 0
  | .born p x i => s.pc p = .alloced x ∧ s.lock = none ∧ s.find x = some i
  | .give p q i => (s.pc p).ready ∧ (s.pc q).ready ∧ p ≠ q ∧ s.spare p i

instance (s : Sys P n) : ∀ l : Label P n, Decidable (Enabled s l)
  | .trunc _ _ | .clear _ _ | .inval _ _ | .unlock _ _ => inferInstanceAs (Decidable (_ = _))
  | .iget _ _ _ | .idup _ _ | .ilock _ _ | .load _ _ | .iunlock _ _ | .iupdate _ _ _ | .iput _ _ | .freeLock _ _
  | .drop _ _ | .ialloc _ _ _ | .born _ _ _ | .give _ _ _ => inferInstanceAs (Decidable (_ ∧ _))

/-- What it does. -/
def next (s : Sys P n) : Label P n → Sys P n
  | .iget p x i => (s.iget p x i).setPc p .idle
  | .idup p i => ((s.setEntry i ((s.entry i).setRef ((s.entry i).ref + 1))).setRefs p i (s.refs p i + 1)).setPc p .idle
  | .ilock p i => (s.setEntry i ((s.entry i).setLock (some p))).setPc p (.load i)
  | .load p i =>
    if (s.entry i).valid then s.setPc p .idle
    else (s.setEntry i ((s.entry i).load (s.disk (s.entry i).inum))).setPc p .idle
  | .iunlock p i => (s.setEntry i ((s.entry i).setLock none)).setPc p .idle
  | .iupdate p i d => (s.iupdate i d).setPc p .idle
  | .iput p i =>
    if (s.entry i).dead then (s.setLock (some p)).setPc p (.freeLock i) else (s.decref p i).setPc p .idle
  | .freeLock p i => ((s.setEntry i ((s.entry i).setLock (some p))).setLock none).setPc p (.trunc i)
  | .trunc p i => (s.iupdate i (emptied (s.entry i).d)).setPc p (.clear i)
  | .clear p i => (s.iupdate i ((s.entry i).d.setType 0)).setPc p (.inval i)
  | .inval p i => (s.setEntry i (s.entry i).invalidate).setPc p (.unlock i)
  | .unlock p i => (s.setEntry i ((s.entry i).setLock none)).setPc p (.drop i)
  | .drop p i => (s.decref p i).setPc p .idle
  | .ialloc p x type => (s.setDisk x (.fresh type)).setPc p (.alloced x)
  | .born p x i => (s.iget p x i).setPc p (.born i)
  | .give p q i => ((s.setRefs p i (s.refs p i - 1)).setRefs q i (s.refs q i + 1)).setPc p .idle

def step (s : Sys P n) (l : Label P n) : Option (Sys P n) := if Enabled s l then some (next s l) else none

end Minios.Itable
