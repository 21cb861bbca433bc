import Minios.Schemes.Mirror
import Minios.Sysfile.Reads
import Minios.Pipes.Read
import Minios.Console.Stored

/-! `kernel/file.c`, `kernel/fs.c`: how much a `read` stores.

    The length is an int in `read`, `fileread`, `piperead` and `consoleread`, but a uint in `readi`:

        n = -1, off = 0      as a uint 2^32 - 1; off + n does not wrap around, so n becomes size - off:
                             the whole file is stored
        n = -1, off = 1      off + n wraps around: nothing is stored

    The functions below are `readi` and `fileread`, and count the bytes that `either_copyout` stores at the user's
    address; it stores all bytes before the first page that is not there, and then fails. -/

namespace Minios.Sysfile
open Schemes Function Fs

/-- How many of `m` bytes a copy stores. -/
def copied (dst : ℕ → Bool) (tot m : ℕ) : ℕ := ((List.range m).takeWhile fun j => dst (tot + j)).length

def readiStoredLoop (k : IPtr) (dst : ℕ → Bool) (n : ℕ) : ℕ → ℕ → ℕ → M (ℤ × ℕ)
  | 0, _, tot => return (tot, tot)
  | rounds + 1, off, tot => do
    if tot < n then
      let addr ← bmap k (off / BSIZE)
      if addr = 0 then return (tot, tot)
      let _ ← bread addr
      let m := min (n - tot) (BSIZE - off % BSIZE)
      if (List.range m).all fun j => dst (tot + j) then readiStoredLoop k dst n rounds (off + m) (tot + m)
      else return (-1, tot + copied dst tot m)
    else return (tot, tot)

/-- `readi`: the return value, and the number of bytes stored. -/
def readiStored (k : IPtr) (dst : ℕ → Bool) (off n : ℕ) : M (ℤ × ℕ) := do
  let ip ← inode k
  if off > ip.d.size ∨ (off + n) % 2 ^ 32 < off then return (0, 0)
  let n := if (off + n) % 2 ^ 32 > ip.d.size then ip.d.size - off else n
  readiStoredLoop k dst n n off 0

/-- `fileread`; `r` is what the pipe or the device would return and store. -/
def filereadStored (f : FPtr) (dst : ℕ → Bool) (n : Int32) (r : ℤ × ℕ) : KM (ℤ × ℕ) := do
  let x ← file f
  if x.readable = false then return (-1, 0)
  match x.type with
  | .pipe => return r
  | .device => if 2 ^ 15 ≤ x.major ∨ NDEV ≤ x.major then return (-1, 0) else return r
  | .inode =>
    K.lift (ilock x.ip)
    let (r, stored) ← K.lift (readiStored x.ip dst x.off.toNat n.toUInt32.toNat)
    if 0 < r then setFile f (x.setOff (x.off + UInt32.ofNat r.toNat))
    K.lift (iunlock x.ip)
    return (r, stored)
  | .none => Prog.fail .fileread

/-! ### The same without counting -/

theorem readiStoredLoop_mirrors (k : IPtr) (dst : ℕ → Bool) (n : ℕ) : ∀ rounds off tot out,
    Mirrors (fun a b => a.1 = b.1) (readiStoredLoop k dst n rounds off tot) (readiLoop k dst n rounds off tot out)
  | 0, _, _, _ => .pure rfl
  | rounds + 1, off, tot, out => by
      rw [readiStoredLoop, readiLoop]
      refine .ite (.bind (.refl _) ?_) (.pure rfl)
      rintro addr _ rfl
      refine .ite (.pure rfl) (.bind (.refl _) ?_)
      rintro bp _ rfl
      exact .ite (readiStoredLoop_mirrors k dst n rounds _ _ _) (.pure rfl)

theorem readiStored_mirrors (k : IPtr) (dst : ℕ → Bool) (off n : ℕ) :
    Mirrors (fun a b => a.1 = b.1) (readiStored k dst off n) (readi k dst off n) := by
  refine .bind (.refl _) ?_
  rintro ip _ rfl
  exact .ite (.pure rfl) (readiStoredLoop_mirrors k dst _ _ _ _ _)

theorem lift_mirrors {α β : Type} {R : α → β → Prop} {m' : M α} {m : M β} (h : Mirrors R m' m) :
    Mirrors R (K.lift m') (K.lift m) := fun s => by
  have hfs := h s.fs
  unfold wp K.lift
  unfold wp at hfs
  cases hm : m' s.fs with
  | error e =>
    rw [hm] at hfs
    rw [show m s.fs = .error e from hfs]
  | ok r =>
    rw [hm] at hfs
    obtain ⟨b, hb, hR⟩ := hfs
    exact ⟨b, by rw [hb], hR⟩

theorem filereadStored_mirrors (f : FPtr) (dst : ℕ → Bool) (n : Int32) (r : ℤ × ℕ) :
    Mirrors (fun a b => a.1 = b) (filereadStored f dst n r) (fileread f dst n r.1) := by
  refine .bind (.refl _) ?_
  rintro x _ rfl
  refine .ite (.pure rfl) ?_
  cases x.type with
  | pipe => exact .pure rfl
  | device => exact .ite (.pure rfl) (.pure rfl)
  | none => exact fun _ => rfl
  | inode =>
    refine .bind (.refl _) ?_
    rintro _ _ rfl
    refine .bind (lift_mirrors (readiStored_mirrors _ _ _ _)) ?_
    rintro ⟨r₁, stored⟩ ⟨r₂, out⟩ rfl
    have hrest : Mirrors (fun (a : ℤ × ℕ) b => a.1 = b) (do K.lift (iunlock x.ip); return (r₁, stored))
        (do K.lift (iunlock x.ip); return r₁) := .bind (.refl _) fun _ _ _ => .pure rfl
    exact .ite (.bind (.refl _) fun _ _ _ => hrest) hrest

/-! ### How much is stored -/

variable {s : FS} {p : IPtr} {dst : ℕ → Bool}

theorem copied_lt {tot m : ℕ} (h : ¬ (List.range m).all (fun j => dst (tot + j)) = true) : copied dst tot m < m := by
  refine lt_of_le_of_ne ((List.takeWhile_prefix _).length_le.trans_eq List.length_range) fun he => h ?_
  have hall := (List.takeWhile_prefix (fun j => dst (tot + j))).eq_of_length (he.trans List.length_range.symm)
  rw [List.all_eq_true]
  exact List.takeWhile_eq_self_iff.mp hall

/-- It stores nothing if the first byte is not there. -/
theorem copied_eq_zero {m : ℕ} (hm : 0 < m) : copied dst 0 m = 0 ↔ dst 0 = false := by
  obtain ⟨m, rfl⟩ := Nat.exists_eq_add_of_lt hm
  rw [copied, Nat.zero_add, List.range_succ_eq_map, List.takeWhile_cons]
  split
  · rename_i h
    exact iff_of_false (by simp) (by simpa using h)
  · rename_i h
    exact iff_of_true rfl (by simpa using h)

/-- All `n` bytes are stored, or the copy fails on the way. -/
def Stores (dst : ℕ → Bool) (n : ℕ) (x : ℤ × ℕ) : Prop :=
  x = ((n : ℤ), n) ∧ (∀ j, j < n → dst j = true) ∨ x.1 = -1 ∧ x.2 < n ∧ (x.2 = 0 ↔ dst 0 = false)

theorem readiStoredLoop_spec {n : ℕ} : ∀ rounds off tot : ℕ, n ≤ rounds + tot → tot ≤ n →
    off + (n - tot) ≤ MAXFILE * BSIZE → (∀ bn, bn * BSIZE < off + (n - tot) → ref s.disk (s.itable p).d (slotOf bn) ≠ 0) →
    (∀ j, j < tot → dst j = true) →
    wp (readiStoredLoop p dst n rounds off tot) (fun x t => t = s ∧ Stores dst n x) (fun _ => False) s
  | 0, off, tot, hr, htot, _, _, hdst => by
      obtain rfl : tot = n := by omega
      exact ⟨rfl, .inl ⟨rfl, hdst⟩⟩
  | rounds + 1, off, tot, hr, htot, hmax, hfill, hdst => by
      rw [readiStoredLoop]
      split
      · rename_i hlt
        have h0 := hfill (off / BSIZE) (lt_of_le_of_lt (block_le off) (by omega))
        refine (bmap_present (block_lt (by omega)) h0).bind fun addr t ht => ?_
        rw [ht.1, ht.2]
        obtain ⟨hpos, hm, hle⟩ := round_bounds off (show 0 < n - tot by omega)
        simp only [if_neg h0, bread, wp_bind, wp_get, wp_pure]
        generalize min (n - tot) (BSIZE - off % BSIZE) = m at hm hpos hle ⊢
        have hrest : off + m + (n - (tot + m)) = off + (n - tot) := by omega
        split
        · rename_i hall
          refine readiStoredLoop_spec rounds (off + m) (tot + m) (by omega) (by omega) (hrest ▸ hmax) (hrest ▸ hfill)
            fun j hj => ?_
          rcases Nat.lt_or_ge j tot with hlt | hge
          · exact hdst j hlt
          · obtain ⟨i, rfl⟩ := Nat.exists_eq_add_of_le hge
            exact List.all_eq_true.mp hall i (List.mem_range.mpr (by omega))
        · rename_i hbad
          have hlt' := copied_lt hbad
          refine ⟨rfl, .inr ⟨rfl, by show tot + copied dst tot m < n; omega, ?_⟩⟩
          rcases Nat.eq_zero_or_pos tot with rfl | htot
          · show 0 + copied dst 0 m = 0 ↔ _
            rw [Nat.zero_add]
            exact copied_eq_zero hpos
          · refine iff_of_false (by show tot + copied dst tot m ≠ 0; omega) ?_
            rw [hdst 0 htot]
            decide
      · obtain rfl : tot = n := by omega
        exact ⟨rfl, .inl ⟨rfl, hdst⟩⟩

theorem readiStored_spec {off n : ℕ} (hw : Wf s) (hp : Ready s p) (hoff : off < 2 ^ 32) (hn : n < 2 ^ 32) :
    wp (readiStored p dst off n) (fun x t => t = s ∧ (node s (s.itable p).inum).size ≤ MAXFILE * BSIZE ∧
      if off ≤ (node s (s.itable p).inum).size ∧ off + n < 2 ^ 32 then
        Stores dst (min n ((node s (s.itable p).inum).size - off)) x
      else x = (0, 0)) (fun _ => False) s := by
  obtain ⟨hmax, hfill⟩ := hw.core.filled _ (hp.live hw)
  rw [← hp.d hw] at hmax hfill
  simp only [hp.node hw, readiStored, wp_bind, wp_inode]
  split
  · rename_i hbad
    rw [wp_pure, if_neg (by omega)]
    exact ⟨rfl, hmax, rfl⟩
  · rename_i hok
    have hok : off ≤ (s.itable p).d.size ∧ off + n < 2 ^ 32 := by omega
    simp only [if_pos hok]
    have hm : (if (off + n) % 2 ^ 32 > (s.itable p).d.size then (s.itable p).d.size - off else n) =
        min n ((s.itable p).d.size - off) := by
      rw [Nat.mod_eq_of_lt hok.2]; split <;> omega
    rw [hm]
    exact (readiStoredLoop_spec _ off 0 (Nat.le_add_right ..) (Nat.zero_le _) (by omega) (fun bn hbn => hfill bn (by omega))
      fun j hj => absurd hj (Nat.not_lt_zero j)).mono fun x t hx => ⟨hx.1, hmax, hx.2⟩

/-! ### The length -/

/-- WITHIN: no more than `n` bytes are stored or reported, and on success exactly those that are there. -/
def Within (n : ℤ) (off size : ℕ) (x : ℤ × ℕ) : Prop :=
  (x.2 : ℤ) ≤ max n 0 ∧ x.1 ≤ max n 0 ∧ (0 ≤ x.1 → x.1 = min (max n 0) (max ((size : ℤ) - off) 0))

/-- A negative length that `readi` takes for a large one, a file that is not at its end, and a buffer whose first byte is
    there. -/
def Overreads (dst : ℕ → Bool) (n : ℤ) (off size : ℕ) : Prop := n < 0 ∧ off < -n ∧ off < size ∧ dst 0 = true

theorem toUInt32_toNat (n : Int32) : (n.toUInt32.toNat : ℤ) = if n.toInt < 0 then n.toInt + 2 ^ 32 else n.toInt := by
  have hn : n.toUInt32.toNat = n.toBitVec.toNat := rfl
  have hi : n.toInt = n.toBitVec.toInt := rfl
  rw [hn, hi, BitVec.toInt_eq_toNat_cond]
  have := n.toBitVec.isLt
  split <;> split <;> omega

theorem within_iff {n : Int32} {off size : ℕ} {x : ℤ × ℕ} (hsize : size ≤ MAXFILE * BSIZE)
    (hx : if off ≤ size ∧ off + n.toUInt32.toNat < 2 ^ 32 then Stores dst (min n.toUInt32.toNat (size - off)) x
      else x = (0, 0)) : Within n.toInt off size x ↔ ¬ Overreads dst n.toInt off size := by
  have hu := toUInt32_toNat n
  have hlow : -2 ^ 31 ≤ n.toInt := BitVec.le_toInt n.toBitVec
  have hhigh : n.toInt < 2 ^ 31 := BitVec.toInt_lt
  have hmax : MAXFILE * BSIZE < 2 ^ 31 := by decide
  generalize n.toUInt32.toNat = u at hu hx
  generalize n.toInt = n at hu hlow hhigh ⊢
  rw [Within, Overreads]
  split at hx
  · rename_i hok
    rcases hx with ⟨rfl, hall⟩ | ⟨h1, h2, h3⟩
    · -- everything is stored: for a negative length, that is the rest of the file
      dsimp only
      split at hu
      · refine ⟨fun hw h => by omega, fun hno => ?_⟩
        have hle : ¬ off < size := fun hlt => hno ⟨by omega, by omega, hlt, hall 0 (by omega)⟩
        omega
      · exact iff_of_true (by omega) fun h => by omega
    · rw [h1]
      split at hu
      · refine ⟨fun hw h => ?_, fun hno => ?_⟩
        · have h0 : x.2 = 0 := by omega
          exact absurd h.2.2.2 (by rw [h3.mp h0]; decide)
        · have hdst : dst 0 = false := by
            rw [← Bool.not_eq_true]
            exact fun hdst => hno ⟨by omega, by omega, by omega, hdst⟩
          have h0 := h3.mpr hdst
          omega
      · exact iff_of_true (by omega) fun h => by omega
  · rename_i hbad
    subst hx
    dsimp only
    split at hu
    · refine iff_of_true (by omega) ?_
      rintro ⟨_, h1, h2, _⟩
      exact hbad (by omega)
    · exact iff_of_true (by omega) fun h => by omega

theorem filereadStored_within {strict : Prop} {P : IPtr → ℕ} {s : K} (h : Good strict s P) {f : FPtr}
    (htype : (s.file f).type = .inode) (dst : ℕ → Bool) (n : Int32) (r : ℤ × ℕ) :
    wp (filereadStored f dst n r) (fun x _ =>
      Within n.toInt (s.file f).off.toNat (node s.fs (s.fs.itable (s.file f).ip).inum).size x ↔
        ¬ ((s.file f).readable = true ∧
          Overreads dst n.toInt (s.file f).off.toNat (node s.fs (s.fs.itable (s.file f).ip).inum).size))
      (Fit strict) s := by
  refine wp_ite.mpr ⟨fun hr => ?_, fun hr => ?_⟩
  · refine iff_of_true ⟨le_max_right _ 0, (by decide : (-1 : ℤ) ≤ 0).trans (le_max_right _ 0), fun h0 => ?_⟩ fun hc => ?_
    · exact absurd h0 (by decide)
    · rw [hr] at hc
      exact absurd hc.1 (by decide)
  rw [Bool.not_eq_false] at hr
  show wp (match (s.file f).type with
    | .pipe => return r
    | .device => if 2 ^ 15 ≤ (s.file f).major ∨ NDEV ≤ (s.file f).major then return (-1, 0) else return r
    | .inode => do
      K.lift (ilock (s.file f).ip)
      let (r, stored) ← K.lift (readiStored (s.file f).ip dst (s.file f).off.toNat n.toUInt32.toNat)
      if 0 < r then setFile f ((s.file f).setOff ((s.file f).off + UInt32.ofNat r.toNat))
      K.lift (iunlock (s.file f).ip)
      return (r, stored)
    | .none => Prog.fail .fileread) _ _ s
  rw [htype]
  have hpos := h.accounts.users_le (users_pos_file (h.accounts.holds (.inl htype)))
  have hsame : wp (K.lift (ilock (s.file f).ip)) (fun _ t => ∀ j, (t.fs.itable j).inum = (s.fs.itable j).inum)
      (Fit strict) s := wp_lift.mpr ((ilock_go h.ok hpos).mono fun _ _ ht => ht.inum)
  have hlock := (ilock_kept h hpos).and hsame
  refine hlock.bind ?_
  rintro _ t ⟨⟨ht, hsame, hready, hnode⟩, hinum⟩
  refine wp_bind.mpr (wp_lift.mpr ((readiStored_spec ht.ok.wf hready (UInt32.toNat_lt _) (UInt32.toNat_lt _)).total.mono
    fun x u hx => ?_))
  obtain ⟨rfl, hsize, hx⟩ := hx
  rw [hnode, hinum] at hsize hx
  have hdone := within_iff hsize hx
  have hend : ∀ v : K, Good strict v P → Ready v.fs (s.file f).ip → wp (do K.lift (iunlock (s.file f).ip); return x)
      (fun x _ => Within n.toInt (s.file f).off.toNat (node s.fs (s.fs.itable (s.file f).ip).inum).size x ↔
        ¬ ((s.file f).readable = true ∧
          Overreads dst n.toInt (s.file f).off.toNat (node s.fs (s.fs.itable (s.file f).ip).inum).size))
      (Fit strict) v := fun v hv hrv => (iunlock_kept hv hrv).bind fun _ _ _ => by
    rw [wp_pure, hdone]
    exact not_congr (and_iff_right hr).symm
  have hf : t.file f = s.file f := by rw [hsame.file]
  exact wp_ite.mpr ⟨fun _ => hend _ (ht.setOff hf _) hready, fun _ => hend t ht hready⟩

/-- CORRECT (length of a read): a read from a pipe or from the console stores and returns at most `n` bytes, and nothing
    for a negative `n`. So does a read from an inode, which returns exactly what there is up to `n` bytes, unless `n` is
    negative and still below 0 when it is added to the offset: then the rest of the file is stored. -/
theorem read_within_length {image : FS} {s t u : K} {es : List Event} {f : FPtr} {dst : ℕ → Bool} {n : Int32}
    {r x : ℤ × ℕ} (himage : Image image) (hentered : Entered image) (hboot : boot image = some s)
    (hrun : run step s es = some t) (htype : (t.file f).type = .inode)
    (hread : filereadStored f dst n r t = .ok (x, u)) :
    (Within n.toInt (t.file f).off.toNat (node t.fs (t.fs.itable (t.file f).ip).inum).size x ↔
      ¬ ((t.file f).readable = true ∧
        Overreads dst n.toInt (t.file f).off.toNat (node t.fs (t.fs.itable (t.file f).ip).inum).size)) ∧
    (∀ (nproc : ℕ) (pi : Pipes.Pipe) (ls : List Pipes.Label) (t : Pipes.Sys) (p : ℕ) (r : ℤ),
      run (Pipes.step nproc) (.with pi) ls = some t → (t.proc p).pc = .run (.ret r) → (t.proc p).op = .read →
      r ≤ max (t.proc p).n 0 ∧
        ((Pipes.call p (trace (Pipes.step nproc) Pipes.seen (.with pi) ls)).stored.length : ℤ) ≤ max (t.proc p).n 0) ∧
    (∀ (ls : List Console.Label) (t : Console.Sys) (p : ℕ), run Console.step .init ls = some t →
      (t.proc p).pc = .idle →
      (t.proc p).ret ≤ max (t.proc p).target 0 ∧ ((t.proc p).got.length : ℤ) ≤ max (t.proc p).target 0) := by
  refine ⟨?_, fun nproc pi ls t p r hrun hpc hop => Pipes.piperead_le hrun hpc hop,
    fun ls t p hrun hpc => Console.consoleread_le hrun p hpc⟩
  exact (filereadStored_within (runs_kept himage hentered hboot hrun) htype dst n r).ok hread

theorem read_root_view : ((boot (.fresh .std)).bind fun s => run step s openRoot).any (fun t =>
    decide ((t.file 0).type = .inode ∧ (t.file 0).readable = true) &&
      match filereadStored 0 (fun _ => true) 16 (0, 0) t, filereadStored 0 (fun _ => true) (-1) (0, 0) t with
      | .ok (x, _), .ok (y, _) => decide (x = (16, 16) ∧ 0 < y.1 ∧ 0 < y.2)
      | _, _ => false) = true := by
  decide +kernel

/-- Reads from the root directory, from a pipe with three bytes and from a console without input. -/
theorem read_within_length_root :
    (∃ s t x u, boot (.fresh .std) = some s ∧ run step s openRoot = some t ∧
      filereadStored 0 (fun _ => true) 16 (0, 0) t = .ok (x, u) ∧
      Within 16 (t.file 0).off.toNat (node t.fs (t.fs.itable (t.file 0).ip).inum).size x) ∧
    (∃ t, run (Pipes.step 2) (.with (.init fun _ => 0)) (Pipes.writeThenReadInto 2).dropLast = some t ∧
      (2 : ℤ) ≤ max (t.proc 0).n 0) ∧
    (∃ t, run Console.step .init [.read 0 (-1) fun _ => true, .move 0, .move 0] = some t ∧
      (t.proc 0).ret ≤ max (t.proc 0).target 0) := by
  obtain ⟨s, t, ⟨hs, ht⟩, hview⟩ := Reaches.of_any read_root_view
  rw [Bool.and_eq_true] at hview
  obtain ⟨hfile, hview⟩ := hview
  split at hview
  · rename_i x u y v hx hy
    obtain ⟨hwithin, hpipe, hconsole⟩ := read_within_length (fresh_image _ Superblock.std_small) entered_fresh hs ht
      (of_decide_eq_true hfile).1 hx
    refine ⟨⟨s, t, x, u, hs, ht, hx, hwithin.mpr fun h => absurd h.2.1 (by decide)⟩, ?_, ?_⟩
    · have hview : (run (Pipes.step 2) (.with (.init fun _ => 0)) (Pipes.writeThenReadInto 2).dropLast).any (fun t =>
          decide ((t.proc 0).pc = .run (.ret 2) ∧ (t.proc 0).op = .read)) = true := by decide
      obtain ⟨t, ht, hat⟩ := (Option.any_eq_true ..).mp hview
      obtain ⟨hpc, hop⟩ := of_decide_eq_true hat
      exact ⟨t, ht, (hpipe 2 _ _ t 0 2 ht hpc hop).1⟩
    · have hview : (run Console.step .init [.read 0 (-1) fun _ => true, .move 0, .move 0]).any (fun t =>
          decide ((t.proc 0).pc = .idle)) = true := by decide
      obtain ⟨t, ht, hat⟩ := (Option.any_eq_true ..).mp hview
      exact ⟨t, ht, (hconsole _ t 0 ht (of_decide_eq_true hat)).1⟩
  · cases hview

/-- A length of -1: the whole directory is stored. -/
theorem negative_length_reads_all : ∃ s t x u, boot (.fresh .std) = some s ∧ run step s openRoot = some t ∧
    filereadStored 0 (fun _ => true) (-1) (0, 0) t = .ok (x, u) ∧ 0 < x.1 ∧ 0 < x.2 := by
  obtain ⟨s, t, ⟨hs, ht⟩, hview⟩ := Reaches.of_any read_root_view
  rw [Bool.and_eq_true] at hview
  obtain ⟨hfile, hview⟩ := hview
  split at hview
  · rename_i x u y v hx hy
    exact ⟨s, t, y, v, hs, ht, hy, (of_decide_eq_true hview).2⟩
  · cases hview

end Minios.Sysfile
