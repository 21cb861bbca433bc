import Minios.Fs.Mkfs
import Minios.Fs.Table

/-! `kernel/fs.c`: what a `writei` that stops early leaves behind.

    `either_copyin` copies page by page, `writei` block by block. When a page of the source is not
    mapped, the part of the block that had been copied stays in the buffer, and the buffer is not
    logged:

        file     [off ───── whole rounds ───── off + tot) [off + tot ── copied ──) ...
                          log_write                         in the buffer only

    `writei` returns `tot`. So the write is exact if and only if the bytes copied past `tot` are the ones
    that were there. -/

namespace Minios.Fs
open Schemes Function

variable {D D' : ℕ → Dinode} {i : ℕ} {p : IPtr} {s t u v : FS} {src : ℕ → Option UInt8} {off n tot : ℕ}

/-! ### Reading one byte -/

/-- The byte that `readi` returns for position `o` of the file. -/
def readAt (p : IPtr) (o : ℕ) (s : FS) : Option UInt8 := match readi p (fun _ => true) o 1 s with
  | .ok (r, _) => r.2.head?
  | .error _ => none

theorem readAt_eq (hmax : (s.itable p).d.size ≤ MAXFILE * BSIZE)
    (hfill : ∀ bn, bn * BSIZE < (s.itable p).d.size → ref s.disk (s.itable p).d (slotOf bn) ≠ 0) (o : ℕ) :
    readAt p o s = if o < (s.itable p).d.size then some (byteAt s.disk (s.itable p).d o) else none := by
  have hlt := MAXFILE_lt
  have hread : wp (readi p (fun _ => true) o 1) (fun r _ => r.2.head? =
      if o < (s.itable p).d.size then some (byteAt s.disk (s.itable p).d o) else none) (fun _ => False) s := by
    rw [readi, wp_bind, wp_inode]
    split
    · rw [wp_pure, if_neg (by omega)]
      rfl
    · have hmod : (o + 1) % 2 ^ 32 = o + 1 := Nat.mod_eq_of_lt (by omega)
      rw [hmod]
      rcases Nat.lt_or_ge o (s.itable p).d.size with ho | ho
      · rw [if_neg (by omega), if_pos ho]
        have hin : ∀ bn, bn * BSIZE < o + (1 - 0) → ref s.disk (s.itable p).d (slotOf bn) ≠ 0 :=
          fun bn hbn => hfill bn (Nat.lt_of_lt_of_le hbn ho)
        refine (readiLoop_spec 1 o 0 [] le_rfl (Nat.zero_le 1) (Nat.le_trans ho hmax) hin).mono fun r t hr => ?_
        rcases hr.2 with rfl | ⟨-, hbad⟩
        · rfl
        · exact absurd (fun _ _ => rfl) hbad
      · obtain rfl : o = (s.itable p).d.size := by omega
        rw [if_pos (by omega), if_neg (lt_irrefl _), Nat.sub_self]
        rfl
  obtain ⟨r, t, hr, h⟩ := hread.returns
  rw [readAt, hr]
  exact h

/-! ### The buffer after a copy -/

theorem putBytes_eq_iff {bp : Block} {o : ℕ} {xs : List UInt8} (h : o + xs.length ≤ BSIZE) :
    putBytes bp o xs = bp ↔ ∀ j, j < xs.length → xs.getD j 0 = getByte bp (o + j) := by
  constructor
  · intro heq j hj
    have hget := getByte_putBytes bp o xs (k := o + j) (by omega)
    rw [heq, if_pos (by omega), Nat.add_sub_cancel_left] at hget
    exact hget.symm
  · intro hall
    funext k
    have hk : ∀ bp' : Block, getByte bp' k.val = bp' k := fun bp' => dif_pos k.isLt
    rw [← hk (putBytes bp o xs), ← hk bp, getByte_putBytes _ _ _ k.isLt]
    split
    · next hin =>
      have := hall (k - o) (by omega)
      rwa [Nat.add_sub_cancel' hin.1] at this
    · rfl

theorem length_copyin_le (src : ℕ → Option UInt8) (tot m : ℕ) : (copyin src tot m).length ≤ m := by
  rw [copyin, List.length_map]
  refine (List.takeWhile_prefix _).length_le.trans ?_
  rw [List.length_map, List.length_range]

/-- What was copied in the round that failed. -/
def leftover (src : ℕ → Option UInt8) (n off tot : ℕ) : List UInt8 := copyin src tot (roundLen n off tot)

theorem leftover_fits (h : tot < n) : off % BSIZE + (leftover src n off tot).length ≤ BSIZE := by
  have h1 := length_copyin_le src tot (roundLen n off tot)
  have h2 := (round_bounds off (show 0 < n - tot by omega)).2.1
  rw [leftover]
  rw [roundLen] at *
  omega

/-! ### The end of `writei` -/

/-- No buffer has changes of earlier calls that were not logged. -/
def FS.unmarked (s : FS) : FS := { s with torn := fun _ => none }

/-- A state that differs from `v` in inode blocks, logged, and in the size of the copy of the inode. -/
structure Closed (i : ℕ) (p : IPtr) (D' : ℕ → Dinode) (size : ℕ) (v t : FS) : Prop where
  d : (t.itable p).d = (D' i).setSize size
  sb : t.sb = v.sb
  high : ∀ b, v.sb.bmapstart ≤ b → t.disk b = v.disk b
  torn : ∀ b, v.sb.bmapstart ≤ b → t.torn b = v.torn b
  low : ∀ b, b < v.sb.bmapstart → t.torn b = v.torn b ∨ t.torn b = none

theorem Ended.sb (h : Ended i src n off tot u D t) : t.sb = u.sb := by cases h <;> rfl

theorem Ended.itable (h : Ended i src n off tot u D t) : t.itable = u.itable := by cases h <;> rfl

/-- `writei` that returns a count: rounds, their end, and the inode written back. -/
theorem writei_closed (hw : Wf s) (hp : Ready s p) (hoff : off ≤ (s.itable p).d.size) (hn : n < 2 ^ 32) :
    wp (writei p src off n) (fun r t => ∀ tot : ℕ, r = tot → off + n ≤ MAXFILE * BSIZE ∧
      ∃ D' u v, Copied (s.itable p).inum p src n off 0 s (dinode s) (off + tot) tot u D' ∧
        Ended (s.itable p).inum src n (off + tot) tot u D' v ∧
        Closed (s.itable p).inum p D' (max (s.itable p).d.size (off + tot)) v t) (fun _ => True) s := by
  have hi := hp.live hw
  have hd := hp.d hw
  obtain ⟨hmax, hfill⟩ := hw.core.filled _ hi
  rw [← hd] at hmax
  have hlt := MAXFILE_lt
  rw [writei, wp_bind, wp_inode]
  split
  · intro tot h0
    omega
  · split
    · intro tot h0
      omega
    · next h1 h2 =>
      rw [Nat.mod_eq_of_lt (by omega)] at h2
      have hle : off + n ≤ MAXFILE * BSIZE := by omega
      refine (writeiLoop_copied n off 0 hw.core hi hd (Nat.le_add_right ..) (Nat.zero_le _) hle
        fun bn hbn => hfill bn (Nat.lt_of_lt_of_le hbn (hd ▸ hoff))).total.bind ?_
      rintro ⟨off', tot⟩ v ⟨u, D', hcop, hend⟩
      obtain rfl : off' = off + tot := hcop.moved
      have hentry : (v.itable p).d = D' (s.itable p).inum := by
        rw [hend.itable, hcop.itable, FS.tab_self]
        rfl
      have hsize : (v.itable p).d.size = (s.itable p).d.size := by
        rw [hentry, hcop.like.size, hd]
      -- both branches end with `iupdate` of the inode with the larger size
      have hupdate : ∀ w : FS, w.sb = v.sb → w.disk = v.disk → w.torn = v.torn →
          (w.itable p).inum = (s.itable p).inum →
          (w.itable p).d = (D' (s.itable p).inum).setSize (max (s.itable p).d.size (off + tot)) →
          wp (do iupdate p; pure (tot : ℤ)) (fun r t => ∀ tot : ℕ, r = tot → off + n ≤ MAXFILE * BSIZE ∧
            ∃ D' u v, Copied (s.itable p).inum p src n off 0 s (dinode s) (off + tot) tot u D' ∧
              Ended (s.itable p).inum src n (off + tot) tot u D' v ∧
              Closed (s.itable p).inum p D' (max (s.itable p).d.size (off + tot)) v t) (fun _ => True) w := by
        intro w hsb hdisk htorn hnum hwd
        have hblock : w.sb.iblock (w.itable p).inum < v.sb.bmapstart := by
          rw [hnum, hsb]
          refine Superblock.iblock_lt _ ?_
          rw [hend.sb, hcop.sb]
          exact hp.lt hw
        simp only [iupdate, inode, bread, logWrite, wp_bind, wp_get, wp_pure, wp_modify]
        intro tot' htot'
        obtain rfl : tot = tot' := Int.ofNat_inj.mp htot'
        refine ⟨hle, D', u, v, hcop, hend, hwd, hsb, fun b hb => ?_, fun b hb => ?_, fun b _ => ?_⟩
        · rw [← hdisk]
          exact update_of_ne (by omega) ..
        · rw [← htorn]
          exact update_of_ne (by omega) ..
        · rw [← htorn]
          exact w.torn_write _ _ b
      have hnum : (v.itable p).inum = (s.itable p).inum := by
        rw [hend.itable, hcop.itable, FS.tab_self]
        rfl
      simp only [wp_bind, wp_inode, hsize]
      split
      · next hgt =>
        rw [wp_bind, wp_setD]
        refine hupdate _ rfl rfl rfl ?_ ?_
        · rw [FS.setD_self]
          exact hnum
        · rw [FS.setD_self, Inode.withD_d, hentry, max_eq_right (le_of_lt hgt)]
      · next hge =>
        refine hupdate v rfl rfl rfl hnum ?_
        rw [max_eq_left (Nat.not_lt.mp hge), hentry, ← hsize, hentry]
        rfl

/-! ### Contents -/

section Contents
variable (hc : Core u.sb u.disk u.torn D) (hi : Live u.sb D i) (hv : Ended i src n off tot u D v)
include hc hi hv

theorem Ended.ref_eq (k : Slot) : ref v.disk (D i) k = ref u.disk (D i) k := by
  cases hv with
  | done | full => rfl
  | fault _ h0 _ =>
    exact ref_congr (fun _ => update_of_ne (hc.indirect_ne hi hi h0 fun he => slotOf_ne_IND _ (Prod.mk.inj he).2) ..) k

theorem Ended.closed_ref {size : ℕ} (ht : Closed i p D size v t) (k : Slot) :
    ref t.disk (t.itable p).d k = ref u.disk (D i) k := by
  rw [ht.d, ref_setSize, ← hv.ref_eq hc hi]
  refine ref_congr (fun h0 => ht.high _ ?_) k
  have hdata := (hc.held (k := .dir IND) hi h0).1.1
  have hmap := u.sb.bmapstart_lt
  rw [hv.sb]
  exact le_of_lt (lt_of_lt_of_le hmap hdata)

theorem Ended.closed_byteAt {size : ℕ} (ht : Closed i p D size v t) (o : ℕ) :
    byteAt t.disk (t.itable p).d o = byteAt v.disk (D i) o := by
  rw [byteAt, byteAt, hv.closed_ref hc hi ht, hv.ref_eq hc hi]
  split
  · rfl
  · next h0 =>
    have hdata := (hc.held hi h0).1.1
    have hmap := u.sb.bmapstart_lt
    rw [ht.high _ (by rw [hv.sb]; exact le_of_lt (lt_of_lt_of_le hmap hdata))]

omit hc hi hv in
/-- The copy left the buffer as it was, said of the file. -/
theorem leftover_same_iff (h0 : ref u.disk (D i) (slotOf (off / BSIZE)) ≠ 0) (hlt : tot < n) :
    putBytes (u.disk (ref u.disk (D i) (slotOf (off / BSIZE)))) (off % BSIZE) (leftover src n off tot) =
        u.disk (ref u.disk (D i) (slotOf (off / BSIZE))) ↔
      ∀ j, j < (leftover src n off tot).length → (leftover src n off tot).getD j 0 = byteAt u.disk (D i) (off + j) := by
  have hfits : off % BSIZE + (leftover src n off tot).length ≤ BSIZE := leftover_fits hlt
  rw [putBytes_eq_iff hfits]
  refine forall₂_congr fun j hj => ?_
  have h1 : (off + j) / BSIZE = off / BSIZE := by simp only [BSIZE] at *; omega
  have h2 : (off + j) % BSIZE = off % BSIZE + j := by simp only [BSIZE] at *; omega
  rw [byteAt_of_ne (h1.symm ▸ h0), h1, h2]

end Contents

/-! ### Exact writes -/

/-- A write that returned `tot` changed nothing beyond it: outside `[off, off + tot)` the file reads as
    before, and every buffer holds what was last passed to `log_write`. -/
structure Exact (p : IPtr) (off tot : ℕ) (s t : FS) : Prop where
  size : (t.itable p).d.size = max (s.itable p).d.size (off + tot)
  bytes : ∀ o, o < off ∨ off + tot ≤ o → readAt p o t = readAt p o s
  logged : ∀ b x, t.torn b = some x → x = t.disk b

/-- The bytes that were copied past the count, in a block of the file, are the ones that were there. -/
def Unchanged (p : IPtr) (src : ℕ → Option UInt8) (off n tot : ℕ) (s t : FS) : Prop :=
  tot < n → ref t.disk (t.itable p).d (slotOf ((off + tot) / BSIZE)) ≠ 0 →
    ∀ j, j < (leftover src n (off + tot) tot).length →
      (leftover src n (off + tot) tot).getD j 0 = byteAt s.disk (s.itable p).d (off + tot + j)

theorem Wf.unmarked (hw : Wf s) : Wf s.unmarked where
  core := ⟨hw.core.books, hw.core.fits, hw.core.filled, fun _ h => absurd rfl h⟩
  inum_lt := hw.inum_lt
  uniq := hw.uniq
  sync := hw.sync

/-- Past the count the rounds before left the file alone. -/
theorem Copied.past (h : Copied i p src n off 0 s D (off + tot) tot u D') (hle : off + n ≤ MAXFILE * BSIZE)
    (hlt : tot < n) {j : ℕ} (hj : j < (leftover src n (off + tot) tot).length) :
    byteAt u.disk (D' i) (off + tot + j) = byteAt s.disk (D i) (off + tot + j) := by
  have h1 := length_copyin_le src tot (roundLen n (off + tot) tot)
  have h2 := (round_bounds (off + tot) (show 0 < n - tot by omega)).2.2
  rw [leftover] at hj
  rw [roundLen] at *
  rw [h.own _ (by omega), if_neg (by omega)]

theorem tear_torn (hnone : ∀ b, u.torn b = none) {a b : ℕ} {y : Block} (x : Block)
    (h : (u.tear a x).torn b = some y) : b = a ∧ y = u.disk a := by
  change update u.torn a (some ((u.torn a).getD (u.disk a))) b = some y at h
  rcases eq_or_ne b a with rfl | hne
  · rw [update_self, hnone] at h
    exact ⟨rfl, (Option.some.inj h).symm⟩
  · rw [update_of_ne hne, hnone] at h
    cases h

/-- Marks are left by the round that failed only, on the block it failed in. -/
theorem Ended.marks (hc : Core u.sb u.disk u.torn D) (hi : Live u.sb D i) (hv : Ended i src n off tot u D v)
    (hnone : ∀ b, u.torn b = none) {b : ℕ} {x : Block} (hb : v.torn b = some x) :
    v.sb.bmapstart ≤ b ∧ x = u.disk b := by
  cases hv with
  | done | full =>
    rw [hnone] at hb
    cases hb
  | fault _ h0 _ =>
    obtain ⟨rfl, rfl⟩ := tear_torn hnone _ hb
    exact ⟨le_of_lt (lt_of_lt_of_le u.sb.bmapstart_lt (hc.held hi h0).1.1), rfl⟩

/-- What was copied past the count is what was there: the buffers are as the rounds before left them. -/
theorem Ended.disk_eq (hv : Ended i src n off tot u D v)
    (hun : tot < n → ref u.disk (D i) (slotOf (off / BSIZE)) ≠ 0 → ∀ j, j < (leftover src n off tot).length →
      (leftover src n off tot).getD j 0 = byteAt u.disk (D i) (off + j)) : v.disk = u.disk := by
  cases hv with
  | done | full => rfl
  | fault hlt h0 _ =>
    have hput := (leftover_same_iff h0 hlt).mpr (hun hlt h0)
    rw [leftover] at hput
    rw [hput]
    exact update_eq_self ..

/-- The same from a state in which every buffer holds what was last logged. -/
theorem exact_iff_unchanged (hw : Wf s) (hp : Ready s p) (hmarks : ∀ b, s.torn b = none)
    (hoff : off ≤ (s.itable p).d.size) (hn : n < 2 ^ 32) (h : writei p src off n s = .ok ((tot : ℤ), t)) :
    Exact p off tot s t ↔ Unchanged p src off n tot s t := by
  have hi := hp.live hw
  have hd := hp.d hw
  obtain ⟨hle, D', u, v, hcop, hend, ht⟩ := (writei_closed hw hp hoff hn).ok h tot rfl
  have hiu := hcop.live hi
  have hnone : ∀ b, u.torn b = none := fun b => (hcop.logged b).elim id fun hb => hb.1.trans (hmarks b)
  have hbyte := hend.closed_byteAt hcop.core hiu ht
  have href := hend.closed_ref hcop.core hiu ht
  have htot := hcop.le.2
  constructor
  · intro hx hlt h0 j hj
    rw [href] at h0
    rw [hd, ← hcop.past hle hlt hj]
    refine (leftover_same_iff h0 hlt).mp ?_ j hj
    cases hend with
    | done h => exact absurd h (Nat.ne_of_lt hlt)
    | full _ _ hz => exact absurd hz h0
    | fault _ _ _ =>
      have hmap : u.sb.bmapstart ≤ ref u.disk (D' (s.itable p).inum) (slotOf ((off + tot) / BSIZE)) :=
        le_of_lt (lt_of_lt_of_le u.sb.bmapstart_lt (hcop.core.held hiu h0).1.1)
      have htorn := (ht.torn _ hmap).trans (update_self ..)
      have hdisk := (ht.high _ hmap).trans (update_self ..)
      have hlog := hx.logged _ _ htorn
      rw [hdisk, hnone] at hlog
      exact hlog.symm
  · intro hun
    have hdisk : v.disk = u.disk := hend.disk_eq fun hlt h0 j hj => by
      rw [hcop.past hle hlt hj, ← hd]
      exact hun hlt (by rw [href]; exact h0) j hj
    obtain ⟨hmax, hfill⟩ := hw.core.filled _ hi
    rw [← hd] at hmax hfill
    have hsize : (t.itable p).d.size = max (s.itable p).d.size (off + tot) := by
      rw [ht.d]
      rfl
    refine ⟨hsize, fun o ho => ?_, fun b x hb => ?_⟩
    · have hfill' : ∀ bn, bn * BSIZE < (t.itable p).d.size → ref t.disk (t.itable p).d (slotOf bn) ≠ 0 := by
        intro bn hbn
        rw [href]
        rw [hsize] at hbn
        exact (lt_max_iff.mp hbn).elim (fun hbn => hcop.mono _ (hd ▸ hfill bn hbn)) (hcop.fill bn)
      have hle' : (t.itable p).d.size ≤ MAXFILE * BSIZE := by omega
      rw [readAt_eq hle' hfill', readAt_eq hmax hfill, hsize, hbyte, hdisk]
      rcases Nat.lt_or_ge o (s.itable p).d.size with h1 | h1
      · rw [if_pos (by omega), if_pos h1, hcop.own o (by omega), if_neg (by omega), ← hd]
      · rw [if_neg (by omega), if_neg (by omega)]
    · rcases Nat.lt_or_ge b v.sb.bmapstart with hlow | hhigh
      · rcases ht.low b hlow with h1 | h1
        · rw [h1] at hb
          have := (hend.marks hcop.core hiu hnone hb).1
          omega
        · rw [h1] at hb
          cases hb
      · rw [ht.torn b hhigh] at hb
        rw [ht.high b hhigh, hdisk]
        exact (hend.marks hcop.core hiu hnone hb).2

/-- A new file with the bytes `xs`, open and locked. -/
def newFile (xs : List UInt8) : M (Option IPtr) := do
  match ← ialloc T_FILE with
  | none => return none
  | some k =>
    ilock k
    let _ ← writei k (fun j => xs[j]?) 0 xs.length
    return some k

theorem newFile_spec {xs : List UInt8} (hxs : xs.length < 2 ^ 32) (hw : Wf s) :
    wp (newFile xs) (fun r t => ∀ k, r = some k → Wf t ∧ Ready t k) (fun _ => True) s := by
  have halloc := @ialloc_spec _ T_FILE hw (by decide) (by decide)
  refine halloc.weaken (fun _ _ => trivial) |>.bind fun r t ht => ?_
  rcases ht with ⟨rfl, rfl⟩ | ⟨k, i, rfl, ha⟩
  · rintro k ⟨⟩
  · have href : 0 < rc t k := by rw [ha.ref, plus, if_pos rfl]; exact Nat.succ_pos _
    refine (ilock_spec ha.wf href).weaken (fun _ _ => trivial) |>.bind fun _ u hu => ?_
    have hsrc : MappedSrc (fun j => xs[j]?) xs.length := fun j hj => by simpa using hj
    refine (writei_spec hu.wf hu.ready (by decide) hxs fun _ => hsrc).total.bind fun r v hv => ?_
    rintro k ⟨⟩
    split at hv
    · obtain ⟨tot, nd, -, -, hdid, -⟩ := hv
      have hview := congrFun hdid.view k
      simp only [view, Prod.mk.injEq] at hview
      exact ⟨hdid.wf, hview.1 ▸ hu.ready.ref, hview.2.2 ▸ hu.ready.valid⟩
    · rw [hv.2]
      exact ⟨hu.wf, hu.ready⟩

/-- On a fresh disk: a new file of two bytes, and a write of two bytes at its start. -/
def rewrite (src : ℕ → Option UInt8) : Option (IPtr × FS × ℤ × FS) := match newFile [1, 1] (.fresh .std) with
  | .ok (some k, s) => match writei k src 0 2 s.unmarked with
    | .ok (r, t) => some (k, s, r, t)
    | .error _ => none
  | _ => none

theorem rewrite_spec {r : ℤ} (h : rewrite src = some (p, s, r, t)) :
    Wf s ∧ Ready s p ∧ writei p src 0 2 s.unmarked = .ok (r, t) := by
  rw [rewrite] at h
  split at h
  · next k s' hnew =>
    split at h
    · next r' t' hwrite =>
      cases h
      have hw := (newFile_spec (by decide) (fresh_image .std Superblock.std_small).wf).ok hnew p rfl
      exact ⟨hw.1, hw.2, hwrite⟩
    · cases h
  · cases h

end Minios.Fs
