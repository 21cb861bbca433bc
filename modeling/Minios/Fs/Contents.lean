import Minios.Fs.Own
import Minios.Fs.Frame

/-! `kernel/fs.c`: the loops of `readi` and `writei`.

    The transfers go block by block: a round moves the bytes from `off` to the end of the block or of
    the request, whichever is first. On contents as a function of the offset (`byteAt`) the rounds of
    `readi` are adjacent slices, and those of `writei` replace adjacent slices. -/

namespace Minios.Fs
open Schemes Function

variable {D D' : ℕ → Dinode} {i j : ℕ} {p : IPtr} {s t : FS}

/-! ### `readi` -/

theorem bmap_present {bn : ℕ} (hbn : bn < MAXFILE) (h : ref s.disk (s.itable p).d (slotOf bn) ≠ 0) :
    wp (bmap p bn) (fun r t => r = ref s.disk (s.itable p).d (slotOf bn) ∧ t = s) (fun _ => False) s := by
  rw [bmap]
  rw [slotOf] at h ⊢
  split
  · rename_i hlt
    rw [dif_pos hlt, ref] at h
    simp only [bmapDirect, inode, wp_bind, wp_get, wp_pure, if_neg h, ref, and_self]
  · rename_i hge
    have hm : bn - NDIRECT < NINDIRECT := by simp only [MAXFILE, NINDIRECT, NDIRECT, BSIZE] at *; omega
    simp only [dif_neg hge, Nat.mod_eq_of_lt hm, ref] at h ⊢
    have h0 : (s.itable p).d.addrs IND ≠ 0 := fun he => h (if_pos he)
    rw [indAt, if_neg h0] at h ⊢
    simp only [if_pos hm, bmapDirect, inode, bread, wp_bind, wp_get, wp_pure, if_neg h0, if_neg h, and_self]

theorem byteAt_of_ne {disk : Disk} {d : Dinode} {o : ℕ} (h : ref disk d (slotOf (o / BSIZE)) ≠ 0) :
    byteAt disk d o = getByte (disk (ref disk d (slotOf (o / BSIZE)))) (o % BSIZE) :=
  if_neg h

theorem getBytes_eq_slice {disk : Disk} {d : Dinode} {off m : ℕ}
    (h : ref disk d (slotOf (off / BSIZE)) ≠ 0) (hm : off % BSIZE + m ≤ BSIZE) :
    getBytes (disk (ref disk d (slotOf (off / BSIZE)))) (off % BSIZE) m = slice (byteAt disk d) off m := by
  refine slice_congr fun k hk => ?_
  have h1 : (off + k) / BSIZE = off / BSIZE := by simp only [BSIZE] at *; omega
  have h2 : (off + k) % BSIZE = off % BSIZE + k := by simp only [BSIZE] at *; omega
  rw [byteAt_of_ne (h1.symm ▸ h), h1, h2]

/-- A round moves at least a byte and stays within its block and the request. -/
theorem round_bounds (off : ℕ) {r : ℕ} (hr : 0 < r) :
    0 < min r (BSIZE - off % BSIZE) ∧ off % BSIZE + min r (BSIZE - off % BSIZE) ≤ BSIZE ∧
      min r (BSIZE - off % BSIZE) ≤ r := by
  have := Nat.mod_lt off (show 0 < BSIZE by decide)
  omega

theorem block_lt {off : ℕ} (h : off < MAXFILE * BSIZE) : off / BSIZE < MAXFILE :=
  Nat.div_lt_of_lt_mul (by rwa [Nat.mul_comm])

theorem block_le (off : ℕ) : off / BSIZE * BSIZE ≤ off := Nat.div_mul_le_self ..

/-- `readi`'s loop reads the slice it is asked for, and stops early only at an unmapped address. -/
theorem readiLoop_spec {dst : ℕ → Bool} {n : ℕ} : ∀ (rounds off tot : ℕ) (out : List UInt8),
    n ≤ rounds + tot → tot ≤ n → off + (n - tot) ≤ MAXFILE * BSIZE →
    (∀ bn, bn * BSIZE < off + (n - tot) → ref s.disk (s.itable p).d (slotOf bn) ≠ 0) →
    wp (readiLoop p dst n rounds off tot out) (fun r t => t = s ∧
      (r = ((n : ℤ), out ++ slice (byteAt s.disk (s.itable p).d) off (n - tot)) ∨
        r.1 = -1 ∧ ¬ ∀ j, j < n → dst j = true)) (fun _ => False) s
  | 0, off, tot, out, hr, htot, _, _ => by
      obtain rfl : tot = n := by omega
      exact ⟨rfl, Or.inl (by rw [Nat.sub_self, slice_zero, List.append_nil])⟩
  | rounds + 1, off, tot, out, hr, htot, hmax, hfill => by
      rw [readiLoop]
      split
      · rename_i hlt
        have h0 := hfill (off / BSIZE) (lt_of_le_of_lt (block_le off) (by omega))
        refine (bmap_present (block_lt (by omega)) h0).bind fun addr t ht => ?_
        rw [ht.1, ht.2]
        obtain ⟨hpos, hm, hle⟩ := round_bounds off (show 0 < n - tot by omega)
        simp only [if_neg h0, bread, wp_bind, wp_get, wp_pure]
        rw [getBytes_eq_slice h0 hm]
        generalize min (n - tot) (BSIZE - off % BSIZE) = m at hm hpos hle ⊢
        have hrest : off + m + (n - (tot + m)) = off + (n - tot) := by omega
        split
        · refine (readiLoop_spec rounds (off + m) (tot + m) _ (by omega) (by omega) (hrest ▸ hmax)
            (hrest ▸ hfill)).mono fun r u hr => ⟨hr.1, hr.2.imp_left fun h => ?_⟩
          rw [h, List.append_assoc, ← slice_add, show m + (n - (tot + m)) = n - tot by omega]
        · rename_i hbad
          refine ⟨rfl, Or.inr ⟨rfl, fun hall => hbad ?_⟩⟩
          exact List.all_eq_true.mpr fun j hj => hall _ (by have := List.mem_range.mp hj; omega)
      · obtain rfl : tot = n := by omega
        exact ⟨rfl, Or.inl (by rw [Nat.sub_self, slice_zero, List.append_nil])⟩

/-! ### `writei` -/

/-- Every byte of a source of `n` bytes is mapped. -/
def MappedSrc (src : ℕ → Option UInt8) (n : ℕ) : Prop := ∀ j, j < n → (src j).isSome = true

/-- Byte `j` of a source that is mapped there. -/
def srcByte (src : ℕ → Option UInt8) (j : ℕ) : UInt8 := (src j).getD 0

theorem copyin_of_mapped {src : ℕ → Option UInt8} {tot m : ℕ}
    (h : ∀ j, j < m → (src (tot + j)).isSome = true) : copyin src tot m = slice (srcByte src) tot m := by
  have hall : ∀ x ∈ (List.range m).map fun j => src (tot + j), x.isSome = true := by
    simpa [List.mem_range] using h
  rw [copyin, List.takeWhile_eq_self_iff.mpr hall, List.map_map]
  rfl

theorem mapped_of_length_copyin {src : ℕ → Option UInt8} {tot m : ℕ}
    (h : (copyin src tot m).length = m) : ∀ j, j < m → (src (tot + j)).isSome = true := by
  intro j hj
  rw [copyin, List.length_map] at h
  have heq := (List.takeWhile_prefix Option.isSome
    (l := (List.range m).map fun j => src (tot + j))).eq_of_length (by simpa using h)
  exact List.takeWhile_eq_self_iff.mp heq _ (List.mem_map.mpr ⟨j, List.mem_range.mpr hj, rfl⟩)

theorem getByte_putBytes (bp : Block) (o : ℕ) (xs : List UInt8) {k : ℕ} (hk : k < BSIZE) :
    getByte (putBytes bp o xs) k = if o ≤ k ∧ k < o + xs.length then xs.getD (k - o) 0 else getByte bp k := by
  simp only [getByte, dif_pos hk, putBytes]
  split
  · rename_i hle
    rcases Nat.lt_or_ge (k - o) xs.length with hlt | hge
    · rw [if_pos ⟨hle, by omega⟩, List.getD_eq_getElem _ _ hlt, List.getD_eq_getElem _ _ hlt]
    · rw [if_neg (by omega), List.getD_eq_default _ _ hge]
  · rename_i hle
    rw [if_neg fun h => hle h.1]

/-- Contents of inode `i` after its block number `bn` was overwritten with `x`. -/
theorem byteAt_put {disk : Disk} {d : Dinode} {bn o : ℕ} (hbn : bn < MAXFILE) (ho : o < MAXFILE * BSIZE)
    (hind : d.addrs IND ≠ ref disk d (slotOf bn)) (h0 : ref disk d (slotOf bn) ≠ 0)
    (hinj : ∀ k, ref disk d k = ref disk d (slotOf bn) → k = slotOf bn) (x : Block) :
    byteAt (update disk (ref disk d (slotOf bn)) x) d o =
      if o / BSIZE = bn then getByte x (o % BSIZE) else byteAt disk d o := by
  have href : ∀ k, ref (update disk (ref disk d (slotOf bn)) x) d k = ref disk d k :=
    ref_congr fun _ => update_of_ne hind ..
  rw [byteAt, byteAt, href]
  split
  · rename_i hz
    rw [if_neg]
    rintro rfl
    exact h0 hz
  · rcases eq_or_ne (o / BSIZE) bn with rfl | hne
    · rw [if_pos rfl, update_self]
    · rw [if_neg hne, update_of_ne fun he => hne (slotOf_inj (block_lt ho) hbn (hinj _ he))]

/-- Overwriting a block of inode `i`; only a plain file's block may be left unlogged. -/
theorem Core.put (hc : Core s.sb s.disk s.torn D) (hi : Live s.sb D i) {bn : ℕ}
    (h0 : ref s.disk (D i) (slotOf bn) ≠ 0) {x : Block} (hsb : t.sb = s.sb)
    (hdisk : t.disk = update s.disk (ref s.disk (D i) (slotOf bn)) x)
    (htorn : ∀ b, t.torn b ≠ none → s.torn b ≠ none ∨
      b = ref s.disk (D i) (slotOf bn) ∧ (D i).type ≠ T_DIR) : Grow i s D t D := by
  obtain ⟨hdata, hused⟩ := hc.held hi h0
  have hind : ∀ {j}, Live s.sb D j → (D j).addrs IND ≠ 0 →
      t.disk ((D j).addrs IND) = s.disk ((D j).addrs IND) := by
    intro j hj _
    rw [hdisk]
    exact update_of_ne (hc.indirect_ne hi hj h0 fun he => slotOf_ne_IND _ (Prod.mk.inj he).2) ..
  have hmap : ∀ b, s.sb.IsMap b → t.disk b = s.disk b := by
    intro b hb
    rw [hdisk]
    refine update_of_ne ?_ ..
    rintro rfl
    exact hdata.not_isMap hb
  have hR : refs s.sb t.disk D = refs s.sb s.disk D := by
    funext ⟨j, m⟩
    simp only [refs]
    split
    · rename_i hj; exact ref_congr (hind hj) m
    · rfl
  refine ⟨⟨⟨?_, ?_, ?_, ?_⟩, hsb, fun _ _ => rfl, ?_, ?_⟩, .refl _, ?_, ?_⟩
  · rw [hsb, hR]; exact hc.books.congr hmap
  · rw [hsb]; exact hc.fits
  · intro j hj
    rw [hsb] at hj
    obtain ⟨h1, h2⟩ := hc.filled j hj
    exact ⟨h1, fun bn hbn => by rw [ref_congr (hind hj)]; exact h2 bn hbn⟩
  · intro b hb
    rw [hsb]
    rcases htorn b hb with hb | ⟨rfl, hplain⟩
    · obtain ⟨h1, h2⟩ := hc.torn b hb
      refine ⟨h1, fun j hj => ⟨(h2 j hj).1, fun ht k => ?_⟩⟩
      rw [ref_congr (hind hj)]
      exact (h2 j hj).2 ht k
    · refine ⟨hdata, fun j hj => ⟨hc.indirect_ne hi hj h0 fun he => slotOf_ne_IND _ (Prod.mk.inj he).2,
        fun ht k he => ?_⟩⟩
      rw [ref_congr (hind hj)] at he
      obtain ⟨rfl, -⟩ := hc.slot_inj hi hj h0 he.symm
      exact hplain ht
  · intro j hne hj o
    refine byteAt_congr (hind hj) fun hj0 => ?_
    rw [hdisk]
    exact update_of_ne (fun he => hne (hc.slot_inj hj hi hj0 he).1) ..
  · intro b hb
    rw [hdisk]
    refine update_of_ne ?_ ..
    rintro rfl
    have h1 := s.sb.bmapstart_lt
    have h2 := hdata.1
    omega
  · intro k hk; rw [ref_congr (hind hi)]; exact hk
  · intro hf b hb
    rw [bitAt_congr (hmap _ (s.sb.isMap_bblock hb))]
    exact hf b hb

theorem Core.write (hc : Core s.sb s.disk s.torn D) (hi : Live s.sb D i) {bn : ℕ}
    (h0 : ref s.disk (D i) (slotOf bn) ≠ 0) (x : Block) :
    Grow i s D (s.write (ref s.disk (D i) (slotOf bn)) x) D :=
  hc.put hi h0 rfl rfl fun b hb =>
    Or.inl ((s.torn_write _ x b).elim (fun h => h ▸ hb) fun h => absurd h hb)

theorem Core.tear (hc : Core s.sb s.disk s.torn D) (hi : Live s.sb D i) {bn : ℕ}
    (h0 : ref s.disk (D i) (slotOf bn) ≠ 0) (hplain : (D i).type ≠ T_DIR) (x : Block) :
    Grow i s D (s.tear (ref s.disk (D i) (slotOf bn)) x) D := by
  refine hc.put hi h0 rfl rfl fun b hb => ?_
  rcases eq_or_ne b (ref s.disk (D i) (slotOf bn)) with rfl | hne
  · exact Or.inr ⟨rfl, hplain⟩
  · rw [FS.tear] at hb
    dsimp only at hb
    rw [update_of_ne hne] at hb
    exact Or.inl hb

/-- Blocks up to the end of a round are there once its own block is. -/
theorem filled_round {disk : Disk} {d : Dinode} {off m : ℕ} (hm : off % BSIZE + m ≤ BSIZE)
    (hfill : ∀ bn, bn * BSIZE < off → ref disk d (slotOf bn) ≠ 0)
    (h0 : ref disk d (slotOf (off / BSIZE)) ≠ 0) :
    ∀ bn, bn * BSIZE < off + m → ref disk d (slotOf bn) ≠ 0 := by
  intro bn hbn
  rcases Nat.lt_or_ge (bn * BSIZE) off with h | h
  · exact hfill bn h
  · have : bn = off / BSIZE := by simp only [BSIZE] at *; omega
    rwa [this]

theorem byteAt_round {disk : Disk} {d : Dinode} {src : ℕ → Option UInt8} {off tot m o : ℕ}
    (h0 : ref disk d (slotOf (off / BSIZE)) ≠ 0) (hm : off % BSIZE + m ≤ BSIZE)
    {f : ℕ → UInt8} (hf : f o = if o / BSIZE = off / BSIZE then
      getByte (putBytes (disk (ref disk d (slotOf (off / BSIZE)))) (off % BSIZE)
        (slice (srcByte src) tot m)) (o % BSIZE) else byteAt disk d o) :
    f o = if off ≤ o ∧ o < off + m then srcByte src (tot + (o - off)) else byteAt disk d o := by
  rw [hf]
  rcases eq_or_ne (o / BSIZE) (off / BSIZE) with he | hne
  · rw [if_pos he, getByte_putBytes _ _ _ (Nat.mod_lt _ (by decide)), length_slice]
    have h1 : off % BSIZE ≤ o % BSIZE ∧ o % BSIZE < off % BSIZE + m ↔ off ≤ o ∧ o < off + m := by
      simp only [BSIZE] at *; omega
    rcases Classical.em (off ≤ o ∧ o < off + m) with h | h
    · have h2 : o % BSIZE - off % BSIZE = o - off := by simp only [BSIZE] at *; omega
      rw [if_pos (h1.mpr h), if_pos h, h2, List.getD_eq_getElem?_getD, getElem?_slice,
        if_pos (by omega)]
      rfl
    · rw [if_neg (mt h1.mp h), if_neg h, byteAt_of_ne (he.symm ▸ h0), he]
  · rw [if_neg hne, if_neg]
    simp only [BSIZE] at *
    omega

/-- What `writei`'s loop did to inode `i`: it put `tot' - tot` bytes at `off`, all of them unless the
    source is not mapped or there is a block missing and none free. -/
structure Written (i : ℕ) (p : IPtr) (src : ℕ → Option UInt8) (n off tot : ℕ) (s : FS) (D : ℕ → Dinode)
    (off' tot' : ℕ) (t : FS) (D' : ℕ → Dinode) : Prop extends Grow i s D t D' where
  itable : t.itable = s.tab p (D' i)
  le : tot ≤ tot' ∧ tot' ≤ n
  moved : off' + tot = off + tot'
  fill : ∀ bn, bn * BSIZE < off' → ref t.disk (D' i) (slotOf bn) ≠ 0
  own : MappedSrc src n → ∀ o, o < MAXFILE * BSIZE → byteAt t.disk (D' i) o =
    if off ≤ o ∧ o < off' then srcByte src (tot + (o - off)) else byteAt s.disk (D i) o
  short : MappedSrc src n → tot' < n → Full t.sb t.disk ∧ ref s.disk (D i) (slotOf (off' / BSIZE)) = 0 ∧
    (off' % BSIZE = 0 ∨ tot' = tot)
  torn : MappedSrc src n → ∀ b, t.torn b = s.torn b ∨ t.torn b = none

/-- What the rounds that ended in `log_write` did to inode `i`: they put `tot' - tot` bytes at `off`, and
    nothing is left unlogged. -/
structure Copied (i : ℕ) (p : IPtr) (src : ℕ → Option UInt8) (n off tot : ℕ) (s : FS) (D : ℕ → Dinode)
    (off' tot' : ℕ) (t : FS) (D' : ℕ → Dinode) : Prop extends Grow i s D t D' where
  itable : t.itable = s.tab p (D' i)
  le : tot ≤ tot' ∧ tot' ≤ n
  moved : off' + tot = off + tot'
  fill : ∀ bn, bn * BSIZE < off' → ref t.disk (D' i) (slotOf bn) ≠ 0
  own : ∀ o, o < MAXFILE * BSIZE → byteAt t.disk (D' i) o =
    if off ≤ o ∧ o < off' then srcByte src (tot + (o - off)) else byteAt s.disk (D i) o
  logged : Logged s t
  rounds : tot' < n → off' % BSIZE = 0 ∨ tot' = tot

/-- Bytes of the source in the round at `off`, with `tot` done. -/
def roundLen (n off tot : ℕ) : ℕ := min (n - tot) (BSIZE - off % BSIZE)

/-- How the loop ended, after rounds that led to `u`: all is done, there was no block, or the source was
    not mapped and the block was left with what had been copied. -/
inductive Ended (i : ℕ) (src : ℕ → Option UInt8) (n off tot : ℕ) (u : FS) (D : ℕ → Dinode) : FS → Prop
  | done (h : tot = n) : Ended i src n off tot u D u
  | full (h : tot < n) (hfull : Full u.sb u.disk) (h0 : ref u.disk (D i) (slotOf (off / BSIZE)) = 0) :
      Ended i src n off tot u D u
  | fault (h : tot < n) (h0 : ref u.disk (D i) (slotOf (off / BSIZE)) ≠ 0)
      (hlen : (copyin src tot (roundLen n off tot)).length ≠ roundLen n off tot) :
      Ended i src n off tot u D (u.tear (ref u.disk (D i) (slotOf (off / BSIZE)))
        (putBytes (u.disk (ref u.disk (D i) (slotOf (off / BSIZE)))) (off % BSIZE)
          (copyin src tot (roundLen n off tot))))

theorem Mapped.copied {src : ℕ → Option UInt8} {n off tot : ℕ} (h : Mapped i p s D t D') (hl : Logged s t)
    (htot : tot ≤ n) (hfill : ∀ bn, bn * BSIZE < off → ref s.disk (D i) (slotOf bn) ≠ 0) :
    Copied i p src n off tot s D off tot t D' where
  toGrow := h.toGrow
  itable := h.itable
  le := ⟨le_rfl, htot⟩
  moved := rfl
  fill bn hbn := h.mono _ (hfill bn hbn)
  own o _ := by rw [if_neg (by omega), h.own]
  logged := hl
  rounds _ := .inr rfl

theorem Copied.cons {src : ℕ → Option UInt8} {n off tot m off' tot' : ℕ} {D₁ : ℕ → Dinode} {t' u : FS}
    (hmap : Mapped i p s D t D₁) (hput : Grow i t D₁ t' D₁) (hitable : t'.itable = t.itable)
    (hown : ∀ o, o < MAXFILE * BSIZE → byteAt t'.disk (D₁ i) o =
      if off ≤ o ∧ o < off + m then srcByte src (tot + (o - off)) else byteAt t.disk (D₁ i) o)
    (hlogged : Logged s t') (hm : m = n - tot ∨ (off + m) % BSIZE = 0)
    (h : Copied i p src n (off + m) (tot + m) t' D₁ off' tot' u D') :
    Copied i p src n off tot s D off' tot' u D' where
  toGrow := (hmap.toGrow.trans hput).trans h.toGrow
  itable := by rw [h.itable, FS.tab_tab (hitable.trans hmap.itable)]
  le := ⟨by have := h.le.1; omega, h.le.2⟩
  moved := by have := h.moved; omega
  fill := h.fill
  own o ho := by
    have hmoved := h.moved
    have hle := h.le
    rw [h.own o ho, hown o ho, hmap.own]
    rcases Nat.lt_or_ge o off with h1 | h1
    · rw [if_neg (by omega), if_neg (by omega), if_neg (by omega)]
    · rcases Nat.lt_or_ge o (off + m) with h2 | h2
      · rw [if_neg (by omega), if_pos ⟨h1, h2⟩, if_pos (by omega)]
      · rw [if_neg (show ¬ (off ≤ o ∧ o < off + m) by omega)]
        rcases Nat.lt_or_ge o off' with h3 | h3
        · rw [if_pos ⟨h2, h3⟩, if_pos ⟨h1, h3⟩, show tot + m + (o - (off + m)) = tot + (o - off) by omega]
        · rw [if_neg (by omega), if_neg (by omega)]
  logged := trans_of Logged hlogged h.logged
  rounds hlt := by
    have hmoved := h.moved
    refine .inl ((h.rounds hlt).elim id fun he => ?_)
    obtain rfl : off' = off + m := by omega
    exact hm.resolve_left (by omega)

/-- The loop of `writei`: rounds that end in `log_write`, and then its end. -/
theorem writeiLoop_copied {src : ℕ → Option UInt8} {n : ℕ} : ∀ (rounds off tot : ℕ) {s : FS} {D : ℕ → Dinode},
    Core s.sb s.disk s.torn D → Live s.sb D i → (s.itable p).d = D i →
    n ≤ rounds + tot → tot ≤ n → off + (n - tot) ≤ MAXFILE * BSIZE →
    (∀ bn, bn * BSIZE < off → ref s.disk (D i) (slotOf bn) ≠ 0) →
    wp (writeiLoop p src n rounds off tot)
      (fun r t => ∃ u D', Copied i p src n off tot s D r.1 r.2 u D' ∧ Ended i src n r.1 r.2 u D' t)
      (fun _ => False) s
  | 0, off, tot, s, D, hc, hi, hp, hr, htot, _, hfill => by
      obtain rfl : tot = n := by omega
      exact ⟨s, D, (Mapped.refl hc hp).copied (refl_of Logged s) le_rfl hfill, .done rfl⟩
  | rounds + 1, off, tot, s, D, hc, hi, hp, hr, htot, hmax, hfill => by
      rw [writeiLoop]
      split
      · rename_i hlt
        refine ((bmap_spec (block_lt (by omega)) hc hi hp).and (keeps_bmap allows_logged p _ s)).bind
          fun addr t ht => ?_
        obtain ⟨⟨D₁, hmap, rfl, hfull⟩, hl⟩ := ht
        have hstop : Copied i p src n off tot s D off tot t D₁ := hmap.copied hl htot hfill
        split
        · rename_i h0
          exact ⟨t, D₁, hstop, .full hlt (hfull h0) h0⟩
        · rename_i h0
          obtain ⟨hpos, hm, hle⟩ := round_bounds off (show 0 < n - tot by omega)
          simp only [bread, wp_bind, wp_get, wp_pure]
          split
          · rename_i hlen
            have hend : roundLen n off tot = n - tot ∨ (off + roundLen n off tot) % BSIZE = 0 := by
              simp only [roundLen, BSIZE] at *; omega
            change 0 < roundLen n off tot at hpos
            change off % BSIZE + roundLen n off tot ≤ BSIZE at hm
            change roundLen n off tot ≤ n - tot at hle
            change (copyin src tot (roundLen n off tot)).length = roundLen n off tot at hlen
            change wp (do logWrite _ (putBytes _ _ (copyin src tot (roundLen n off tot)))
                          writeiLoop p src n rounds (off + roundLen n off tot) (tot + roundLen n off tot)) _ _ _
            generalize roundLen n off tot = m at *
            have hi₁ := hmap.live hi
            have hsrc := copyin_of_mapped (mapped_of_length_copyin hlen)
            have hput := hmap.core.write hi₁ h0
            rw [hsrc, logWrite, wp_bind, wp_modify]
            refine (writeiLoop_copied rounds (off + m) (tot + m) (hput _).core ((hput _).live hi₁) hmap.entry
              (by omega) (by omega) (by omega) ?_).mono fun r u hu => ?_
            · intro bn hbn
              exact (hput _).mono _ (filled_round hm (fun bn hbn => hmap.mono _ (hfill bn hbn)) h0 bn hbn)
            · obtain ⟨v, D', hw, hend'⟩ := hu
              refine ⟨v, D', hw.cons hmap (hput _) rfl (fun o ho => ?_)
                (trans_of Logged hl (allows_logged.write t _ _)) hend, hend'⟩
              exact byteAt_round h0 hm (byteAt_put (block_lt (by omega)) ho
                (hmap.core.indirect_ne hi₁ hi₁ h0 fun he => slotOf_ne_IND _ (Prod.mk.inj he).2) h0
                (fun k hk => (hmap.core.slot_inj hi₁ hi₁ h0 hk.symm).2.symm) _)
          · rename_i hlen
            exact ⟨t, D₁, hstop, .fault hlt h0 hlen⟩
      · obtain rfl : tot = n := by omega
        exact ⟨s, D, (Mapped.refl hc hp).copied (refl_of Logged s) le_rfl hfill, .done rfl⟩

theorem Copied.written {src : ℕ → Option UInt8} {n off tot off' tot' : ℕ}
    (h : Copied i p src n off tot s D off' tot' t D')
    (hshort : tot' < n → Full t.sb t.disk ∧ ref t.disk (D' i) (slotOf (off' / BSIZE)) = 0) :
    Written i p src n off tot s D off' tot' t D' where
  toGrow := h.toGrow
  itable := h.itable
  le := h.le
  moved := h.moved
  fill := h.fill
  own _ := h.own
  short _ hlt := ⟨(hshort hlt).1, not_imp_not.mp (h.mono _) (hshort hlt).2, h.rounds hlt⟩
  torn _ b := (h.logged b).elim .inr fun hb => .inl hb.1

theorem writeiLoop_spec {src : ℕ → Option UInt8} {n : ℕ} (rounds off tot : ℕ) {s : FS} {D : ℕ → Dinode}
    (hc : Core s.sb s.disk s.torn D) (hi : Live s.sb D i) (hp : (s.itable p).d = D i)
    (hdir : (D i).type = T_DIR → MappedSrc src n)
    (hr : n ≤ rounds + tot) (htot : tot ≤ n) (hmax : off + (n - tot) ≤ MAXFILE * BSIZE)
    (hfill : ∀ bn, bn * BSIZE < off → ref s.disk (D i) (slotOf bn) ≠ 0) :
    wp (writeiLoop p src n rounds off tot)
      (fun r t => ∃ D', Written i p src n off tot s D r.1 r.2 t D') (fun _ => False) s := by
  refine (writeiLoop_copied rounds off tot hc hi hp hr htot hmax hfill).mono fun r t ht => ?_
  obtain ⟨u, D', hw, hend⟩ := ht
  cases hend with
  | done h => exact ⟨D', hw.written fun hlt => absurd h (Nat.ne_of_lt hlt)⟩
  | full h hfull h0 => exact ⟨D', hw.written fun _ => ⟨hfull, h0⟩⟩
  | fault h h0 hlen =>
    have hbad : ¬ MappedSrc src n := fun hsrc => hlen (by
      have := (round_bounds r.1 (show 0 < n - r.2 by omega)).2.2
      rw [copyin_of_mapped fun j hj => hsrc _ (by rw [roundLen] at hj; omega), length_slice])
    have hput := hw.core.tear (hw.live hi) h0 fun htype => hbad (hdir (hw.like.type ▸ htype))
    exact ⟨D', hw.toGrow.trans (hput _), hw.itable, hw.le, hw.moved, fun bn hbn => (hput _).mono _ (hw.fill bn hbn),
      fun hsrc => absurd hsrc hbad, fun hsrc => absurd hsrc hbad, fun hsrc => absurd hsrc hbad⟩

end Minios.Fs
