import Minios.Schemes.Trace
import Minios.Fs.Mkfs
import Minios.Sysfile.Calls

/-! What one chunk of `filewrite` puts into the log.

    `writei` again, noting the number of every block that is passed to `log_write`; without the notes it is `writei`.
    A chunk of three blocks' length from an unaligned offset meets four blocks:

        data        1 2 3 4      the first one holds bytes of the file already, so it is not allocated here
        free map      2 3 4      one for each block that may be
        indirect    i, and the block of the free map where it was found
        inode       n                                               10 = MAXOPBLOCKS -/

namespace Minios.Fs.Noted
open Schemes Function

abbrev M := Noted FS ℕ Panic

def logWrite (b : ℕ) (x : Block) : M Unit := (Fs.logWrite b x).noting b

def bzero (b : ℕ) : M Unit := logWrite b fun _ => 0

def ballocLoop : ℕ → ℕ → M ℕ
  | 0, _ => return 0
  | rounds + 1, b => do
    let s ← Prog.get.silent
    if b < s.sb.size then
      let bp ← (bread (s.sb.bblock b)).silent
      match scanMap bp b s.sb.size BPB 0 with
      | some bi =>
        logWrite (s.sb.bblock b) (setBit bp bi)
        bzero (b + bi)
        return b + bi
      | none => ballocLoop rounds (b + BPB)
    else return 0

def balloc : M ℕ := do
  let s ← Prog.get.silent
  ballocLoop (s.sb.size + 1) 0

def bmapDirect (k : IPtr) (j : Fin (NDIRECT + 1)) : M ℕ := do
  let ip ← (inode k).silent
  if ip.d.addrs j = 0 then
    let addr ← balloc
    if addr = 0 then return 0
    (setD k (·.setAddr j addr)).silent
    return addr
  else return ip.d.addrs j

def bmap (k : IPtr) (bn : ℕ) : M ℕ := do
  if h : bn < NDIRECT then bmapDirect k ⟨bn, Nat.lt_succ_of_lt h⟩
  else
    let bn := bn - NDIRECT
    if bn < NINDIRECT then
      let ind ← bmapDirect k IND
      if ind = 0 then return 0
      let bp ← (bread ind).silent
      if getAddr bp bn = 0 then
        let addr ← balloc
        if addr ≠ 0 then logWrite ind (setAddr bp bn addr)
        return addr
      else return getAddr bp bn
    else Prog.fail .bmapOutOfRange

def iupdate (k : IPtr) : M Unit := do
  let s ← Prog.get.silent
  let ip ← (inode k).silent
  let bp ← (bread (s.sb.iblock ip.inum)).silent
  logWrite (s.sb.iblock ip.inum) (setDinode bp (ip.inum % IPB) ip.d)

def writeiLoop (k : IPtr) (src : ℕ → Option UInt8) (n : ℕ) : ℕ → ℕ → ℕ → M (ℕ × ℕ)
  | 0, off, tot => return (off, tot)
  | rounds + 1, off, tot => do
    if tot < n then
      let addr ← bmap k (off / BSIZE)
      if addr = 0 then return (off, tot)
      let bp ← (bread addr).silent
      let m := min (n - tot) (BSIZE - off % BSIZE)
      let xs := copyin src tot m
      if xs.length = m then
        logWrite addr (putBytes bp (off % BSIZE) xs)
        writeiLoop k src n rounds (off + m) (tot + m)
      else
        (tear addr (putBytes bp (off % BSIZE) xs)).silent
        return (off, tot)
    else return (off, tot)

def writei (k : IPtr) (src : ℕ → Option UInt8) (off n : ℕ) : M ℤ := do
  let ip ← (inode k).silent
  if off > ip.d.size ∨ (off + n) % 2 ^ 32 < off then return -1
  if (off + n) % 2 ^ 32 > MAXFILE * BSIZE then return -1
  let (off, tot) ← writeiLoop k src n n off 0
  let ip ← (inode k).silent
  if off > ip.d.size then (setD k (·.setSize off)).silent
  iupdate k
  return tot

/-! ### The same functions -/

theorem erases_logWrite (b : ℕ) (x : Block) : Erases (logWrite b x) (Fs.logWrite b x) := .noting b _

theorem erases_ballocLoop : ∀ rounds b, Erases (ballocLoop rounds b) (Fs.ballocLoop rounds b)
  | 0, _ => .pure _
  | rounds + 1, b => by
      refine .bind (.silent _) fun s => .ite (.bind (.silent _) fun bp => ?_) (.pure _)
      cases scanMap bp b s.sb.size BPB 0 with
      | some bi => exact .bind (erases_logWrite _ _) fun _ => .bind (erases_logWrite _ _) fun _ => .pure _
      | none => exact erases_ballocLoop rounds _

theorem erases_balloc : Erases balloc Fs.balloc := .bind (.silent _) fun _ => erases_ballocLoop _ _

theorem erases_bmapDirect (k : IPtr) (j : Fin (NDIRECT + 1)) : Erases (bmapDirect k j) (Fs.bmapDirect k j) := by
  refine .bind (.silent _) fun ip => .ite (.bind erases_balloc fun addr => .ite (.pure _) ?_) (.pure _)
  exact .bind (.silent _) fun _ => .pure _

theorem erases_bmap (k : IPtr) (bn : ℕ) : Erases (bmap k bn) (Fs.bmap k bn) := by
  rw [bmap, Fs.bmap]
  split
  · exact erases_bmapDirect _ _
  · refine .ite (.bind (erases_bmapDirect _ _) fun ind => .ite (.pure _) ?_) (.fail _)
    refine .bind (.silent _) fun bp => .ite (.bind erases_balloc fun addr => ?_) (.pure _)
    exact .ite (.bind (erases_logWrite _ _) fun _ => .pure _) (.pure _)

theorem erases_iupdate (k : IPtr) : Erases (iupdate k) (Fs.iupdate k) :=
  .bind (.silent _) fun _ => .bind (.silent _) fun _ => .bind (.silent _) fun _ => erases_logWrite _ _

theorem erases_writeiLoop (k : IPtr) (src : ℕ → Option UInt8) (n : ℕ) : ∀ rounds off tot,
    Erases (writeiLoop k src n rounds off tot) (Fs.writeiLoop k src n rounds off tot)
  | 0, _, _ => .pure _
  | rounds + 1, off, tot => by
      refine .ite (.bind (erases_bmap _ _) fun addr => .ite (.pure _) (.bind (.silent _) fun bp => ?_)) (.pure _)
      exact .ite (.bind (erases_logWrite _ _) fun _ => erases_writeiLoop k src n rounds _ _)
        (.bind (.silent _) fun _ => .pure _)

theorem erases_writei (k : IPtr) (src : ℕ → Option UInt8) (off n : ℕ) :
    Erases (writei k src off n) (Fs.writei k src off n) := by
  refine .bind (.silent _) fun ip => .ite (.pure _) (.ite (.pure _) ?_)
  refine .bind (erases_writeiLoop k src n _ _ _) fun r => .bind (.silent _) fun ip' => ?_
  have hend : Erases (do iupdate k; return (r.2 : ℤ)) (do Fs.iupdate k; return (r.2 : ℤ)) :=
    .bind (erases_iupdate k) fun _ => .pure _
  exact .ite (.bind (.silent _) fun _ => hend) hend

/-! ### What is noted -/

variable {k : IPtr} {st t : FS × List ℕ} {A : Finset ℕ} {E : Panic → Prop}

/-- The indirect block of an inode. -/
def ind (s : FS) (k : IPtr) : ℕ := (s.itable k).d.addrs IND

/-- Only blocks of `A` were noted, and the indirect block with a block of the free map for it. -/
def Within (k : IPtr) (st : FS × List ℕ) (A : Finset ℕ) : Prop :=
  ∃ bm, ∀ b ∈ st.2, b ∈ A ∨ ind st.1 k ≠ 0 ∧ (b = ind st.1 k ∨ b = bm)

theorem Within.mono {B : Finset ℕ} (h : Within k st A) (hAB : A ⊆ B) : Within k st B :=
  h.imp fun _ h b hb => (h b hb).imp_left fun hA => hAB hA

/-- More was noted, and the indirect block is the same. -/
theorem Within.step (h : Within k st A) (ls : List ℕ) (hind : ind t.1 k = ind st.1 k) (hl : t.2 = ls ++ st.2)
    (hls : ∀ b ∈ ls, b ∈ A ∨ ind st.1 k ≠ 0 ∧ b = ind st.1 k) : Within k t A := by
  obtain ⟨bm, h⟩ := h
  refine ⟨bm, fun b hb => ?_⟩
  rw [hl, List.mem_append] at hb
  rw [hind]
  rcases hb with hb | hb
  · exact (hls b hb).imp_right fun hb => ⟨hb.1, .inl hb.2⟩
  · exact h b hb

theorem ballocLoop_notes : ∀ rounds b st, wp (ballocLoop rounds b) (fun addr t => t.1.itable = st.1.itable ∧
    ((addr = 0 ∧ t.2 = st.2) ∨ ∃ bm, t.2 = [addr, bm] ++ st.2)) E st
  | 0, _, _ => ⟨rfl, .inl ⟨rfl, rfl⟩⟩
  | rounds + 1, b, st => by
      rw [ballocLoop, wp_bind, Prog.silent, wp_zoom, wp_get]
      refine wp_ite.mpr ⟨fun _ => ?_, fun _ => ⟨rfl, .inl ⟨rfl, rfl⟩⟩⟩
      rw [wp_bind, Prog.silent, wp_zoom, bread, wp_bind, wp_get, wp_pure]
      cases scanMap (st.1.disk (st.1.sb.bblock b)) b st.1.sb.size BPB 0 with
      | some bi => exact ⟨rfl, .inr ⟨_, rfl⟩⟩
      | none => exact ballocLoop_notes rounds _ _

theorem balloc_notes (st : FS × List ℕ) : wp balloc (fun addr t => t.1.itable = st.1.itable ∧
    ((addr = 0 ∧ t.2 = st.2) ∨ ∃ bm, t.2 = [addr, bm] ++ st.2)) E st := ballocLoop_notes _ _ _

theorem ind_of_itable {s s' : FS} (h : s'.itable = s.itable) : ind s' k = ind s k := by rw [ind, ind, h]

theorem Within.balloc {addr : ℕ} (h : Within k st A) (hit : t.1.itable = st.1.itable)
    (ht : (addr = 0 ∧ t.2 = st.2) ∨ ∃ bm, t.2 = [addr, bm] ++ st.2) : ∃ x, Within k t (insert x (insert addr A)) := by
  have hsub : ∀ x, A ⊆ insert x (insert addr A) := fun x =>
    (Finset.subset_insert _ _).trans (Finset.subset_insert _ _)
  rcases ht with ⟨-, hl⟩ | ⟨bm, hl⟩
  · exact ⟨0, (h.mono (hsub 0)).step [] (ind_of_itable hit) hl (List.forall_mem_nil _)⟩
  · refine ⟨bm, (h.mono (hsub bm)).step [addr, bm] (ind_of_itable hit) hl fun b hb => .inl ?_⟩
    simp only [List.mem_cons, List.not_mem_nil, or_false] at hb
    rcases hb with rfl | rfl
    · exact Finset.mem_insert_of_mem (Finset.mem_insert_self _ _)
    · exact Finset.mem_insert_self _ _

theorem ind_setD {s : FS} {j : Fin (NDIRECT + 1)} {addr : ℕ} :
    ind (s.setD k ((s.itable k).d.setAddr j addr)) k = if j = IND then addr else ind s k := by
  rw [ind, FS.setD_self]
  show update (s.itable k).d.addrs j addr IND = _
  split
  · rename_i h; rw [h, update_self]
  · rename_i h; rw [update_of_ne (Ne.symm h)]; rfl

theorem bmapDirect_notes {j : Fin (NDIRECT + 1)} (hj : j ≠ IND) (h : Within k st A) :
    wp (bmapDirect k j) (fun addr t => ∃ x, Within k t (insert x (insert addr A))) E st := by
  have hnow : ∃ x, Within k st (insert x (insert ((st.1.itable k).d.addrs j) A)) :=
    ⟨0, h.mono ((Finset.subset_insert _ _).trans (Finset.subset_insert _ _))⟩
  rw [bmapDirect, wp_bind, Prog.silent, wp_zoom, inode, wp_bind, wp_get, wp_pure]
  refine wp_ite.mpr ⟨fun _ => ?_, fun _ => hnow⟩
  refine (balloc_notes _).bind ?_
  rintro addr t ⟨hit, ht⟩
  obtain ⟨x, hx⟩ := h.balloc hit ht
  refine wp_ite.mpr ⟨fun h0 => ⟨x, by rw [← h0]; exact hx⟩, fun _ => ⟨x, ?_⟩⟩
  exact hx.step [] (by rw [ind_setD, if_neg hj]) rfl (List.forall_mem_nil _)

theorem bmapDirect_ind (h : Within k st A) : wp (bmapDirect k IND) (fun addr t =>
    (addr ≠ 0 ∧ addr = ind t.1 k ∧ Within k t A) ∨ (addr = 0 ∧ ∃ x, Within k t (insert x (insert 0 A)))) E st := by
  rw [bmapDirect, wp_bind, Prog.silent, wp_zoom, inode, wp_bind, wp_get, wp_pure]
  refine wp_ite.mpr ⟨fun hz => ?_, fun hne => .inl ⟨hne, rfl, h⟩⟩
  refine (balloc_notes _).bind ?_
  rintro addr t ⟨hit, ht⟩
  refine wp_ite.mpr ⟨fun h0 => .inr ⟨rfl, by rw [← h0]; exact h.balloc hit ht⟩, fun hne => .inl ⟨hne, ?_, ?_⟩⟩
  · exact (by rw [ind_setD, if_pos rfl] : ind _ k = addr).symm
  · -- nothing but blocks of `A` was noted as long as there was no indirect block
    have hA : ∀ b ∈ st.2, b ∈ A := fun b hb => by
      obtain ⟨bm, h⟩ := h
      exact (h b hb).resolve_right fun hb => hb.1 hz
    rcases ht with ⟨h0, -⟩ | ⟨bm, hl⟩
    · exact absurd h0 hne
    · refine ⟨bm, fun b hb => ?_⟩
      have hb : b ∈ t.2 := hb
      show b ∈ A ∨ ind (t.1.setD k _) k ≠ 0 ∧ (b = ind (t.1.setD k _) k ∨ b = bm)
      rw [ind_setD, if_pos rfl]
      rw [hl] at hb
      simp only [List.cons_append, List.nil_append, List.mem_cons] at hb
      rcases hb with rfl | rfl | hb
      · exact .inr ⟨hne, .inl rfl⟩
      · exact .inr ⟨hne, .inr rfl⟩
      · exact .inl (hA b hb)

theorem bmap_notes {bn : ℕ} (hbn : bn < MAXFILE) (h : Within k st A) :
    wp (bmap k bn) (fun addr t => ∃ x, Within k t (insert x (insert addr A))) E st := by
  rw [bmap]
  by_cases hd : bn < NDIRECT
  · rw [dif_pos hd]
    exact bmapDirect_notes (fun he => absurd (congrArg Fin.val he) (by show bn ≠ NDIRECT; omega)) h
  · have hlt : bn - NDIRECT < NINDIRECT := by simp only [MAXFILE] at hbn; omega
    simp only [dif_neg hd, if_pos hlt]
    refine (bmapDirect_ind h).bind fun addr t ht => ?_
    rcases ht with ⟨hne, haddr, ht⟩ | ⟨rfl, ht⟩
    · rw [if_neg hne, wp_bind, Prog.silent, wp_zoom, bread, wp_bind, wp_get, wp_pure]
      have hsub : ∀ x y, A ⊆ insert x (insert y A) := fun x y =>
        (Finset.subset_insert _ _).trans (Finset.subset_insert _ _)
      refine wp_ite.mpr ⟨fun _ => ?_, fun _ => ⟨0, ht.mono (hsub _ _)⟩⟩
      refine (balloc_notes _).bind ?_
      rintro b u ⟨hit, hu⟩
      obtain ⟨x, hx⟩ := ht.balloc hit hu
      refine wp_ite.mpr ⟨fun _ => ⟨x, ?_⟩, fun _ => ⟨x, hx⟩⟩
      have hind : ind u.1 k = addr := (ind_of_itable hit).trans haddr.symm
      refine hx.step [addr] rfl rfl fun c hc => .inr ?_
      rw [List.mem_singleton.mp hc, hind]
      exact ⟨hne, rfl⟩
    · exact ht

theorem bmap_there {bn : ℕ} (hbn : bn < MAXFILE) (h : ref st.1.disk (st.1.itable k).d (slotOf bn) ≠ 0) :
    wp (bmap k bn) (fun _ t => t = st) E st := by
  rw [bmap]
  by_cases hd : bn < NDIRECT
  · rw [slotOf, dif_pos hd, ref] at h
    rw [dif_pos hd, bmapDirect, wp_bind, Prog.silent, wp_zoom, inode, wp_bind, wp_get, wp_pure, if_neg h]
    rfl
  · have hlt : bn - NDIRECT < NINDIRECT := by simp only [MAXFILE] at hbn; omega
    rw [slotOf, dif_neg hd] at h
    have hind : (st.1.itable k).d.addrs IND ≠ 0 := fun h0 => h (if_pos h0)
    have haddr : getAddr (st.1.disk ((st.1.itable k).d.addrs IND)) (bn - NDIRECT) ≠ 0 := by
      rw [ref, indAt, if_neg hind] at h
      simpa only [Nat.mod_eq_of_lt hlt] using h
    simp only [dif_neg hd, if_pos hlt]
    rw [wp_bind, bmapDirect, wp_bind, Prog.silent, wp_zoom, inode, wp_bind, wp_get, wp_pure, if_neg hind, wp_pure,
      if_neg hind, wp_bind, Prog.silent, wp_zoom, bread, wp_bind, wp_get, wp_pure, if_neg haddr]
    rfl

/-! ### The loop -/

variable {src : ℕ → Option UInt8} {n : ℕ}

theorem writeiLoop_done {rounds off tot : ℕ} (h : n ≤ tot) : wp (writeiLoop k src n rounds off tot) (fun _ t => t = st) E st := by
  cases rounds with
  | zero => rfl
  | succ rounds =>
    rw [writeiLoop, if_neg (by omega)]
    rfl

theorem Within.write {addr : ℕ} {x : Block} (h : Within k st A) (ha : addr ∈ A) :
    Within k (st.1.write addr x, addr :: st.2) A :=
  h.step [addr] rfl rfl fun b hb => .inl (by rw [List.mem_singleton.mp hb]; exact ha)

/-- From the start of a block on: two blocks for each block of the rest. -/
theorem writeiLoop_notes : ∀ rounds off tot st A, off % BSIZE = 0 → off + (n - tot) ≤ MAXFILE * BSIZE → Within k st A →
    wp (writeiLoop k src n rounds off tot)
      (fun _ t => ∃ B : Finset ℕ, B.card ≤ A.card + 2 * ((n - tot + BSIZE - 1) / BSIZE) ∧ Within k t B) E st
  | 0, _, _, _, A, _, _, h => ⟨A, Nat.le_add_right _ _, h⟩
  | rounds + 1, off, tot, st, A, hal, hmax, h => by
      rw [writeiLoop]
      refine wp_ite.mpr ⟨fun hlt => ?_, fun _ => ⟨A, Nat.le_add_right _ _, h⟩⟩
      have hbn : off / BSIZE < MAXFILE := by simp only [MAXFILE, BSIZE] at hmax ⊢; omega
      refine (bmap_notes hbn h).bind ?_
      rintro addr t ⟨x, ht⟩
      have hcard : (insert x (insert addr A)).card ≤ A.card + 2 :=
        (Finset.card_insert_le _ _).trans (Nat.succ_le_succ (Finset.card_insert_le _ _))
      have hone : 1 ≤ (n - tot + BSIZE - 1) / BSIZE := by simp only [BSIZE]; omega
      have hstop : (insert x (insert addr A)).card ≤ A.card + 2 * ((n - tot + BSIZE - 1) / BSIZE) := by omega
      refine wp_ite.mpr ⟨fun _ => ⟨_, hstop, ht⟩, fun _ => ?_⟩
      rw [wp_bind, Prog.silent, wp_zoom, bread, wp_bind, wp_get, wp_pure]
      refine wp_ite.mpr ⟨fun _ => ?_, fun _ => ⟨_, hstop, ht.step [] rfl rfl (List.forall_mem_nil _)⟩⟩
      rw [hal, Nat.sub_zero]
      have hmem : addr ∈ insert x (insert addr A) := Finset.mem_insert_of_mem (Finset.mem_insert_self _ _)
      rcases Nat.le_total (n - tot) BSIZE with hle | hge
      · -- the last block
        rw [min_eq_left hle]
        exact (writeiLoop_done (by omega)).mono fun _ u hu => ⟨_, hstop, by rw [hu]; exact ht.write hmem⟩
      · rw [min_eq_right hge]
        have hnext : (off + BSIZE) % BSIZE = 0 := by rw [Nat.add_mod_right]; exact hal
        refine (writeiLoop_notes rounds _ _ _ _ hnext (by omega) (ht.write hmem)).mono ?_
        rintro _ u ⟨B, hB, hu⟩
        refine ⟨B, ?_, hu⟩
        simp only [BSIZE] at hB hge ⊢
        omega

/-- From anywhere on, if the block there is in the file: one block less. -/
theorem writeiLoop_chunk {off : ℕ} (hn : n ≤ 3 * BSIZE) (hmax : off + n ≤ MAXFILE * BSIZE)
    (hthere : off % BSIZE ≠ 0 → ref st.1.disk (st.1.itable k).d (slotOf (off / BSIZE)) ≠ 0) (hempty : st.2 = []) :
    wp (writeiLoop k src n n off 0) (fun _ t => ∃ B : Finset ℕ, B.card ≤ 7 ∧ Within k t B) E st := by
  simp only [BSIZE] at hn
  have hnone : Within k st ∅ := ⟨0, by rw [hempty]; exact List.forall_mem_nil _⟩
  rcases eq_or_ne (off % BSIZE) 0 with hal | hun
  · refine (writeiLoop_notes n off 0 st ∅ hal (by omega) hnone).mono ?_
    rintro _ t ⟨B, hc, ht⟩
    refine ⟨B, ?_, ht⟩
    simp only [Finset.card_empty, BSIZE] at hc
    omega
  · cases n with
    | zero => exact ⟨∅, by decide, hnone⟩
    | succ m =>
      rw [writeiLoop, if_pos (Nat.succ_pos m)]
      have hbn : off / BSIZE < MAXFILE := by simp only [MAXFILE, BSIZE] at hmax ⊢; omega
      refine (bmap_there hbn (hthere hun)).bind fun addr t hts => ?_
      rw [hts]
      have hone : Within k st {addr} := hnone.mono (Finset.empty_subset _)
      refine wp_ite.mpr ⟨fun _ => ⟨_, by decide, hnone⟩, fun _ => ?_⟩
      rw [wp_bind, Prog.silent, wp_zoom, bread, wp_bind, wp_get, wp_pure]
      refine wp_ite.mpr ⟨fun _ => ?_, fun _ => ⟨∅, by decide, hnone.step [] rfl rfl (List.forall_mem_nil _)⟩⟩
      have hw : ∀ x, Within k (st.1.write addr x, addr :: st.2) {addr} := fun x =>
        hone.write (Finset.mem_singleton_self addr)
      rcases Nat.le_total (m + 1 - 0) (BSIZE - off % BSIZE) with hle | hge
      · rw [min_eq_left hle]
        refine (writeiLoop_done (by omega)).mono fun _ u hu => ⟨{addr}, ?_, by rw [hu]; exact hw _⟩
        rw [Finset.card_singleton]
        decide
      · rw [min_eq_right hge]
        have hnext : (off + (BSIZE - off % BSIZE)) % BSIZE = 0 := by simp only [BSIZE]; omega
        refine (writeiLoop_notes m _ _ _ _ hnext (by omega) (hw _)).mono ?_
        rintro _ u ⟨B, hc, hu⟩
        refine ⟨B, ?_, hu⟩
        simp only [Finset.card_singleton, BSIZE] at hc hge
        omega

theorem Within.card_le (h : Within k st A) : st.2.toFinset.card ≤ A.card + 2 := by
  obtain ⟨bm, h⟩ := h
  have hsub : st.2.toFinset ⊆ insert (ind st.1 k) (insert bm A) := fun b hb => by
    rcases h b (List.mem_toFinset.mp hb) with hA | ⟨-, rfl | rfl⟩
    · exact Finset.mem_insert_of_mem (Finset.mem_insert_of_mem hA)
    · exact Finset.mem_insert_self _ _
    · exact Finset.mem_insert_of_mem (Finset.mem_insert_self _ _)
  exact (Finset.card_le_card hsub).trans ((Finset.card_insert_le _ _).trans (Nat.succ_le_succ (Finset.card_insert_le _ _)))

theorem iupdate_notes (h : Within k st A) : wp (iupdate k) (fun _ t => ∃ x, Within k t (insert x A)) E st := by
  rw [iupdate, wp_bind, Prog.silent, wp_zoom, wp_get, wp_bind, Prog.silent, wp_zoom, inode, wp_bind, wp_get, wp_pure, wp_bind,
    Prog.silent, wp_zoom, bread, wp_bind, wp_get, wp_pure]
  exact ⟨_, (h.mono (Finset.subset_insert _ _)).write (Finset.mem_insert_self _ _)⟩

theorem ind_setSize {s : FS} {size : ℕ} : ind (s.setD k ((s.itable k).d.setSize size)) k = ind s k := by
  rw [ind, FS.setD_self]
  rfl

theorem writei_notes {s : FS} (src : ℕ → Option UInt8) (off : ℕ) (hfill : Filled s.disk (s.itable k).d) (hn : n ≤ 3 * BSIZE) :
    wp (writei k src off n) (fun _ t => t.2.toFinset.card ≤ 10) E (s, []) := by
  rw [writei, wp_bind, Prog.silent, wp_zoom, inode, wp_bind, wp_get, wp_pure]
  refine wp_ite.mpr ⟨fun _ => Nat.zero_le _, fun hoff => wp_ite.mpr ⟨fun _ => Nat.zero_le _, fun hmax => ?_⟩⟩
  rw [not_or] at hoff
  have hmax : off + n ≤ MAXFILE * BSIZE := by simp only [MAXFILE, BSIZE] at hmax hn ⊢; omega
  refine (writeiLoop_chunk hn hmax (fun hun => hfill.2 _ ?_) rfl).bind ?_
  · have hsize : off ≤ (s.itable k).d.size := not_lt.mp hoff.1
    show off / BSIZE * BSIZE < (s.itable k).d.size
    simp only [BSIZE] at hun ⊢
    omega
  rintro ⟨off', tot⟩ t ⟨B, hc, ht⟩
  show wp (do let ip ← (inode k).silent; _) _ E t
  rw [wp_bind, Prog.silent, wp_zoom, inode, wp_bind, wp_get, wp_pure]
  -- with or without a new size, the inode's block is the last one
  have hend : ∀ u, Within k u B → wp (do iupdate k; return (tot : ℤ)) (fun _ t => t.2.toFinset.card ≤ 10) E u := by
    intro u hu
    refine (iupdate_notes hu).bind ?_
    rintro _ v ⟨x, hv⟩
    exact hv.card_le.trans (by have := Finset.card_insert_le x B; omega)
  refine wp_ite.mpr ⟨fun _ => ?_, fun _ => hend t ht⟩
  exact hend _ (ht.step [] ind_setSize rfl (List.forall_mem_nil _))

end Minios.Fs.Noted

namespace Minios.Sysfile
open Fs Schemes

/-- CORRECT (fits): of whatever inode and disk, from whatever offset and from whatever memory, the `writei` of a chunk that
    `filewrite` writes in one transaction passes no more than `MAXOPBLOCKS` different blocks to `log_write`. -/
theorem chunk_fits {s : FS} {k : IPtr} (src : ℕ → Option UInt8) (off : ℕ) {n : ℕ} (hfill : Filled s.disk (s.itable k).d)
    (hn : n ≤ WRITEMAX) : ∃ r t logged, Noted.writei k src off n (s, []) = .ok (r, t, logged) ∧
      writei k src off n s = .ok (r, t) ∧ logged.toFinset.card ≤ MAXOPBLOCKS := by
  obtain ⟨r, ⟨t, logged⟩, hrun, hcard⟩ := (Noted.writei_notes (E := fun _ => False) src off hfill hn).returns
  exact ⟨r, t, logged, hrun, (Noted.erases_writei k src off n s []).ok hrun, hcard⟩

/-- The longest chunk, to an empty file on a fresh disk. -/
theorem chunk_fits_fresh : ∃ r t logged, Noted.writei 0 (fun _ => some 1) 0 3072 (FS.fresh .std, []) = .ok (r, t, logged) ∧
    writei 0 (fun _ => some 1) 0 3072 (.fresh .std) = .ok (r, t) ∧ logged.toFinset.card ≤ MAXOPBLOCKS :=
  chunk_fits _ 0 ⟨Nat.zero_le _, fun _ h => absurd h (Nat.not_lt_zero _)⟩ (by decide)

end Minios.Sysfile
