import Minios.Log.Script

/-! `kernel/log.c`: a crash never leaves a transaction half done.

    The script of `commit()` is run on a machine with a disk and cached copies; every `bwrite` is
    one atomic disk write, recorded in order. A crash keeps the disk after some prefix of these
    writes and loses the memory; `recover_from_log()` then runs on that disk, and may be cut again.

    The argument is one abstraction function. `logical d` is the disk that `d` STANDS FOR: a block
    listed in the on-disk header is read from the log, every other block from its home. Every disk
    write of `commit()` and of recovery leaves `logical` alone outside the log, except the one
    header write that commits — it replaces `logical d` by the disk with the whole transaction
    applied. Installing a block twice is harmless because the log copy does not move. -/

namespace Minios.Log
open Schemes Function

/-- A machine running the log code: the disk, the valid cached copies, the block number each buffer
    variable stands for, and the disk writes made so far. -/
structure Machine where
  disk : Disk
  cache : ℕ → Option Block
  regs : Var → ℕ
  writes : List (ℕ × Block)

/-- What `bread(dev, b)` returns: the cached copy if there is one, else the disk's. -/
def Machine.content (m : Machine) (b : ℕ) : Block := (m.cache b).getD (m.disk b)

/-- The data of the buffer a variable holds. -/
def Machine.data (m : Machine) (v : Var) : Block := m.content (m.regs v)

/-- One buffer operation. -/
def Machine.exec (m : Machine) : Instr → Machine
  | .bread v b =>
    { m with cache := update m.cache b (some (m.content b)), regs := update m.regs v b }
  | .memmove dst src => { m with cache := update m.cache (m.regs dst) (some (m.data src)) }
  | .sethead v lh => { m with cache := update m.cache (m.regs v) (some (setHead lh (m.data v))) }
  | .bwrite v =>
    { m with disk := update m.disk (m.regs v) (m.data v),
             writes := m.writes ++ [(m.regs v, m.data v)] }
  | .bunpin _ => m
  | .brelse _ => m
  | .clear => m

/-- A whole script. -/
def Machine.execAll (m : Machine) (is : List Instr) : Machine := is.foldl Machine.exec m

/-- A machine just after boot: nothing cached, nothing written. -/
def boot (d : Disk) : Machine := { disk := d, cache := fun _ => none, regs := fun _ => 0, writes := [] }

/-- `recover_from_log()`: `read_head`, `install_trans(1)`, `log.lh.n = 0`, `write_head`. -/
def recoverFromLog (start : ℕ) (m : Machine) : Machine :=
  let m := m.exec (.bread .buf start)
  let lh := readHead (m.data .buf)
  m.execAll (.brelse .buf :: (installTrans start true 0 lh ++ .clear :: writeHead start []))

/-- The disk after some writes. -/
def applyWrites (d : Disk) (ws : List (ℕ × Block)) : Disk :=
  ws.foldl (fun d w => update d w.1 w.2) d

/-! ### The disk writes of the scripts -/

@[simp] theorem content_bread (m : Machine) (v : Var) (b : ℕ) :
    (m.exec (.bread v b)).content = m.content := by
  funext x
  by_cases h : x = b <;> simp [Machine.exec, Machine.content, h]

@[simp] theorem content_memmove (m : Machine) (dst src : Var) :
    (m.exec (.memmove dst src)).content = update m.content (m.regs dst) (m.data src) := by
  funext x
  by_cases h : x = m.regs dst <;> simp [Machine.exec, Machine.content, h]

@[simp] theorem content_bwrite (m : Machine) (v : Var) : (m.exec (.bwrite v)).content = m.content := by
  funext x
  cases hc : m.cache x with
  | some y => simp [Machine.exec, Machine.content, hc]
  | none =>
    by_cases h : x = m.regs v
    · subst h; simp [Machine.exec, Machine.content, Machine.data, hc]
    · simp [Machine.exec, Machine.content, h]

@[simp] theorem regs_bread (m : Machine) (v : Var) (b : ℕ) :
    (m.exec (.bread v b)).regs = update m.regs v b := rfl

@[simp] theorem writes_bread (m : Machine) (v : Var) (b : ℕ) :
    (m.exec (.bread v b)).writes = m.writes := rfl

/-- `memmove(dst->data, src->data, BSIZE); bwrite(dst)`, the body of both copy loops. -/
theorem copy_spec (m : Machine) (dst src : Var) :
    ((m.exec (.memmove dst src)).exec (.bwrite dst)).content =
      update m.content (m.regs dst) (m.data src) ∧
    ((m.exec (.memmove dst src)).exec (.bwrite dst)).writes =
      m.writes ++ [(m.regs dst, m.data src)] := by
  refine ⟨by rw [content_bwrite, content_memmove], ?_⟩
  have hdata : (m.exec (.memmove dst src)).data dst = m.data src := by
    rw [Machine.data, content_memmove]; exact update_self ..
  show m.writes ++ [(m.regs dst, (m.exec (.memmove dst src)).data dst)] = _
  rw [hdata]

/-- `x` lies in the log: `[log.start, log.start + log.size)`. -/
def InLog (start size x : ℕ) : Prop := start ≤ x ∧ x < start + size

instance (start size x : ℕ) : Decidable (InLog start size x) :=
  inferInstanceAs (Decidable (start ≤ x ∧ x < start + size))

/-- The writes of `write_log` when block `b` has contents `c b`. -/
def logWrites (start : ℕ) (c : ℕ → Block) (tail : ℕ) (lh : List ℕ) : List (ℕ × Block) :=
  (lh.zipIdx tail).map fun p => (start + p.2 + 1, c p.1)

/-- The writes of `install_trans` when block `b` has contents `c b`. -/
def homeWrites (start : ℕ) (c : ℕ → Block) (tail : ℕ) (lh : List ℕ) : List (ℕ × Block) :=
  (lh.zipIdx tail).map fun p => (p.1, c (start + p.2 + 1))

theorem logWrites_congr (start : ℕ) {c c' : ℕ → Block} (tail : ℕ) (lh : List ℕ)
    (h : ∀ b ∈ lh, c b = c' b) : logWrites start c tail lh = logWrites start c' tail lh := by
  refine List.map_congr_left fun p hp => ?_
  rw [h p.1 (List.fst_mem_of_mem_zipIdx hp)]

theorem homeWrites_congr (start : ℕ) {c c' : ℕ → Block} (tail : ℕ) (lh : List ℕ)
    (h : ∀ i < lh.length, c (start + (tail + i) + 1) = c' (start + (tail + i) + 1)) :
    homeWrites start c tail lh = homeWrites start c' tail lh := by
  refine List.map_congr_left fun p hp => ?_
  obtain ⟨h1, h2, -⟩ := List.mem_zipIdx hp
  have := h (p.2 - tail) (by omega)
  rw [show tail + (p.2 - tail) = p.2 by omega] at this
  rw [this]

theorem mem_homeWrites {start : ℕ} {c : ℕ → Block} {lh : List ℕ} {w : ℕ × Block} :
    w ∈ homeWrites start c 0 lh ↔ ∃ i, ∃ hi : i < lh.length, w = (lh[i], c (start + i + 1)) := by
  rw [homeWrites, List.mem_map]
  constructor
  · rintro ⟨⟨b, i⟩, hp, rfl⟩
    have hb : lh[i]? = some b := List.mem_zipIdx_iff_getElem?.mp hp
    obtain ⟨hi, rfl⟩ := List.getElem?_eq_some_iff.mp hb
    exact ⟨i, hi, rfl⟩
  · rintro ⟨i, hi, rfl⟩
    exact ⟨(lh[i], i), List.mem_zipIdx_iff_getElem?.mpr (List.getElem?_eq_getElem hi), rfl⟩

theorem mem_logWrites {start : ℕ} {c : ℕ → Block} {lh : List ℕ} {w : ℕ × Block} :
    w ∈ logWrites start c 0 lh ↔ ∃ i, ∃ hi : i < lh.length, w = (start + i + 1, c lh[i]) := by
  rw [logWrites, List.mem_map]
  constructor
  · rintro ⟨⟨b, i⟩, hp, rfl⟩
    have hb : lh[i]? = some b := List.mem_zipIdx_iff_getElem?.mp hp
    obtain ⟨hi, rfl⟩ := List.getElem?_eq_some_iff.mp hb
    exact ⟨i, hi, rfl⟩
  · rintro ⟨i, hi, rfl⟩
    exact ⟨(lh[i], i), List.mem_zipIdx_iff_getElem?.mpr (List.getElem?_eq_getElem hi), rfl⟩

variable {start size : ℕ}

/-- `write_log` writes the listed blocks' contents to the log and changes no block outside it. -/
theorem execAll_writeLog : ∀ (lh : List ℕ) (tail : ℕ) (m : Machine),
    (∀ b ∈ lh, ¬ InLog start size b) → tail + lh.length + 1 ≤ size →
    (m.execAll (writeLog start tail lh)).writes = m.writes ++ logWrites start m.content tail lh ∧
    (∀ x, (x < start + tail + 1 ∨ start + size ≤ x) →
      (m.execAll (writeLog start tail lh)).content x = m.content x) ∧
    ∀ i (hi : i < lh.length),
      (m.execAll (writeLog start tail lh)).content (start + tail + i + 1) = m.content lh[i]
  | [], _, m, _, _ => by simp [writeLog, Machine.execAll, logWrites]
  | b :: bs, tail, m, hout, hfit => by
      rw [List.length_cons] at hfit
      -- the machine after one round of the loop
      set m1 := m.execAll [.bread .to (start + tail + 1), .bread .frm b, .memmove .to .frm,
        .bwrite .to, .brelse .frm, .brelse .to] with hm1
      have hrun : m.execAll (writeLog start tail (b :: bs)) =
          m1.execAll (writeLog start (tail + 1) bs) := rfl
      obtain ⟨hc1, hw1⟩ := copy_spec ((m.exec (.bread .to (start + tail + 1))).exec (.bread .frm b))
        .to .frm
      change m1.content = _ at hc1
      change m1.writes = _ at hw1
      simp only [Machine.data, content_bread, regs_bread, writes_bread, update_self, ne_eq,
        reduceCtorEq, not_false_eq_true, update_of_ne] at hc1 hw1
      have hbs : ∀ x ∈ bs, m1.content x = m.content x := by
        intro x hx
        have hx' := hout x (List.mem_cons_of_mem _ hx)
        rw [hc1, update_of_ne]
        rintro rfl
        exact hx' ⟨by omega, by omega⟩
      obtain ⟨ih1, ih2, ih3⟩ := execAll_writeLog bs (tail + 1) m1
        (fun x hx => hout x (List.mem_cons_of_mem _ hx)) (by omega)
      refine ⟨?_, ?_, ?_⟩
      · rw [hrun, ih1, hw1, logWrites_congr start (tail + 1) bs hbs]
        simp [logWrites]
      · intro x hx
        rw [hrun, ih2 x (by omega), hc1, update_of_ne (by omega)]
      · intro i hi
        rw [hrun]
        cases i with
        | zero => rw [ih2 _ (by omega), hc1]; simp
        | succ i =>
          rw [List.length_cons] at hi
          rw [show start + tail + (i + 1) + 1 = start + (tail + 1) + i + 1 by omega,
            ih3 i (by omega), List.getElem_cons_succ]
          exact hbs _ (List.getElem_mem _)

/-- `install_trans` writes the log's copies to the listed blocks and changes no log block. -/
theorem execAll_installTrans (recovering : Bool) : ∀ (lh : List ℕ) (tail : ℕ) (m : Machine),
    (∀ b ∈ lh, ¬ InLog start size b) → tail + lh.length + 1 ≤ size →
    (m.execAll (installTrans start recovering tail lh)).writes =
      m.writes ++ homeWrites start m.content tail lh ∧
    ∀ x, InLog start size x →
      (m.execAll (installTrans start recovering tail lh)).content x = m.content x
  | [], _, m, _, _ => by simp [installTrans, Machine.execAll, homeWrites]
  | b :: bs, tail, m, hout, hfit => by
      rw [List.length_cons] at hfit
      have hb := hout b (List.mem_cons_self ..)
      set m1 := m.execAll [.bread .lbuf (start + tail + 1), .bread .dbuf b, .memmove .dbuf .lbuf,
        .bwrite .dbuf] with hm1
      -- `bunpin` and `brelse` do not touch contents or disk
      have hrun : m.execAll (installTrans start recovering tail (b :: bs)) =
          m1.execAll (installTrans start recovering (tail + 1) bs) := by
        cases recovering <;> rfl
      obtain ⟨hc1, hw1⟩ := copy_spec
        ((m.exec (.bread .lbuf (start + tail + 1))).exec (.bread .dbuf b)) .dbuf .lbuf
      change m1.content = _ at hc1
      change m1.writes = _ at hw1
      simp only [Machine.data, content_bread, regs_bread, writes_bread, update_self, ne_eq,
        reduceCtorEq, not_false_eq_true, update_of_ne] at hc1 hw1
      have hlog : ∀ x, InLog start size x → m1.content x = m.content x := by
        intro x hx
        rw [hc1, update_of_ne]
        rintro rfl
        exact hb hx
      obtain ⟨ih1, ih2⟩ := execAll_installTrans recovering bs (tail + 1) m1
        (fun x hx => hout x (List.mem_cons_of_mem _ hx)) (by omega)
      refine ⟨?_, fun x hx => ?_⟩
      · have hcongr : homeWrites start m1.content (tail + 1) bs =
            homeWrites start m.content (tail + 1) bs :=
          homeWrites_congr start (tail + 1) bs fun i hi => hlog _ ⟨by omega, by omega⟩
        rw [hrun, ih1, hw1, hcongr]; simp [homeWrites]
      · rw [hrun, ih2 x hx, hlog x hx]

/-- `write_head` makes one write, of the header block with `lh` stored in it. -/
theorem execAll_writeHead (start : ℕ) (m : Machine) (lh : List ℕ) :
    (m.execAll (writeHead start lh)).writes = m.writes ++ [(start, setHead lh (m.content start))] ∧
    ∀ x, x ≠ start → (m.execAll (writeHead start lh)).content x = m.content x := by
  refine ⟨?_, fun x hx => ?_⟩
  · simp [Machine.execAll, writeHead, Machine.exec, Machine.data, Machine.content]
  · simp [Machine.execAll, writeHead, Machine.exec, Machine.content, hx]

/-- The machine's disk is always what its recorded writes made of the disk it started with. -/
theorem disk_execAll (d : Disk) : ∀ (is : List Instr) (m : Machine),
    m.disk = applyWrites d m.writes → (m.execAll is).disk = applyWrites d (m.execAll is).writes
  | [], _, h => h
  | i :: is, m, h => by
      refine disk_execAll d is (m.exec i) ?_
      cases i with
      | bwrite v => simp [Machine.exec, applyWrites, h]
      | _ => exact h

/-! ### Transactions, crashes and reboots -/

/-- One transaction as `commit()` finds it: the block numbers in `log.lh`, as `log_write` lets them
    be recorded, and whatever is cached at that moment. -/
structure Txn (start size : ℕ) where
  blocks : List ℕ
  cache : ℕ → Option Block
  nodup : blocks.Nodup
  outside : ∀ b ∈ blocks, ¬ InLog start size b
  fits : blocks.length + 1 ≤ size
  logsize : blocks.length ≤ LOGSIZE
  uint : ∀ b ∈ blocks, b < 2 ^ 32

/-- The machine that is about to run `commit()`. -/
def Txn.machine (t : Txn start size) (d : Disk) : Machine :=
  { disk := d, cache := t.cache, regs := fun _ => 0, writes := [] }

/-- `commit()` of the transaction on disk `d`. -/
def Txn.commit (t : Txn start size) (d : Disk) : Machine :=
  (t.machine d).execAll (Log.commit start t.blocks)

/-- What the transaction means: its blocks get their cached contents, the others are left alone. -/
def Txn.apply (d : Disk) (t : Txn start size) : Disk :=
  fun b => if b ∈ t.blocks then (t.machine d).content b else d b

/-- The disk after a sequence of transactions committed one after the other. -/
def commitAll (d : Disk) (ts : List (Txn start size)) : Disk := ts.foldl (fun d t => (t.commit d).disk) d

/-- The disk after a sequence of transactions applied in full. -/
def applyAll (d : Disk) (ts : List (Txn start size)) : Disk := ts.foldl Txn.apply d

/-- A crash after the first `k` disk writes of a run on disk `d`. -/
def crashAt (d : Disk) (m : Machine) (k : ℕ) : Disk := applyWrites d (m.writes.take k)

/-- From disk `d`, recovery runs any number of times, each run cut by a crash after some of its
    writes, until one completes. -/
inductive Reboot (start : ℕ) : Disk → Disk → Prop
  | done (d : Disk) : Reboot start d (recoverFromLog start (boot d)).disk
  | cut (d : Disk) (k : ℕ) {d' : Disk} :
      Reboot start (crashAt d (recoverFromLog start (boot d)) k) d' → Reboot start d d'

/-- A non-empty header is among the first `k` disk writes of the transaction's `commit()`. -/
def Txn.headerReached (t : Txn start size) (d : Disk) (k : ℕ) : Prop :=
  ∃ w ∈ (t.commit d).writes.take k, w.1 = start ∧ headN w.2 ≠ 0

theorem homeWrites_eq_map {c c' : ℕ → Block} {lh : List ℕ}
    (h : ∀ i (hi : i < lh.length), c (start + 0 + i + 1) = c' lh[i]) :
    homeWrites start c 0 lh = lh.map fun b => (b, c' b) := by
  refine List.ext_getElem (by simp [homeWrites]) fun i h1 h2 => ?_
  have hi : i < lh.length := by simpa using h2
  simp only [homeWrites, List.getElem_map, List.getElem_zipIdx, Nat.zero_add]
  rw [← h i hi]; rfl

/-- The disk writes of a non-empty `commit()`: log copies, header, home blocks, empty header. -/
theorem commit_writes (t : Txn start size) (d : Disk) (hne : t.blocks ≠ []) :
    ∃ h₁ h₂, readHead h₁ = t.blocks ∧ headN h₁ ≠ 0 ∧ headN h₂ = 0 ∧
      (t.commit d).writes = logWrites start (t.machine d).content 0 t.blocks ++
        (start, h₁) :: (t.blocks.map (fun b => (b, (t.machine d).content b)) ++ [(start, h₂)]) := by
  set m := t.machine d
  set lh := t.blocks
  set m1 := m.execAll (writeLog start 0 lh) with hm1
  set m2 := m1.execAll (writeHead start lh) with hm2
  set m3 := m2.execAll (installTrans start false 0 lh) with hm3
  have hfit : 0 + lh.length + 1 ≤ size := by rw [Nat.zero_add]; exact t.fits
  obtain ⟨hw1, -, hlog1⟩ := execAll_writeLog lh 0 m t.outside hfit
  obtain ⟨hw2, hc2⟩ := execAll_writeHead start m1 lh
  obtain ⟨hw3, -⟩ := execAll_installTrans false lh 0 m2 t.outside hfit
  obtain ⟨hw4, -⟩ := execAll_writeHead start m3 []
  have hrun : t.commit d = m3.execAll (writeHead start []) := by
    rw [Txn.commit, Log.commit, if_neg hne, hm3, hm2, hm1]
    simp only [Machine.execAll, List.foldl_append]
    rfl
  have hhome : homeWrites start m2.content 0 lh = lh.map fun b => (b, m.content b) := by
    refine homeWrites_eq_map fun i hi => ?_
    rw [hc2 _ (by omega), hlog1 i hi]
  refine ⟨setHead lh (m1.content start), setHead [] (m3.content start),
    readHead_setHead _ _ t.logsize t.uint, ?_, headN_setHead _ _ (by simp), ?_⟩
  · rw [headN_setHead _ _ t.logsize]
    exact_mod_cast fun h => hne (List.length_eq_zero_iff.mp h)
  · rw [hrun, hw4, hw3, hw2, hw1, hhome]
    simp [m, Txn.machine]

theorem recover_writes (d : Disk) (hout : ∀ b ∈ readHead (d start), ¬ InLog start size b)
    (hfit : (readHead (d start)).length + 1 ≤ size) :
    ∃ h, headN h = 0 ∧ (recoverFromLog start (boot d)).writes =
      homeWrites start d 0 (readHead (d start)) ++ [(start, h)] := by
  set m0 := (boot d).exec (.bread .buf start)
  have hc0 : m0.content = d := by rw [content_bread]; rfl
  set lh := readHead (d start)
  have hlh : readHead (m0.data .buf) = lh := by
    rw [Machine.data, hc0, regs_bread, update_self]
  set m1 := m0.execAll (installTrans start true 0 lh) with hm1
  obtain ⟨hw1, -⟩ := execAll_installTrans true lh 0 m0 hout (by omega)
  obtain ⟨hw2, -⟩ := execAll_writeHead start m1 []
  have hrun : recoverFromLog start (boot d) = m1.execAll (writeHead start []) := by
    rw [recoverFromLog]
    simp only [hlh, hm1, m0, Machine.execAll, List.foldl_append, List.foldl_cons]
    rfl
  refine ⟨setHead [] (m1.content start), headN_setHead _ _ (by simp), ?_⟩
  rw [hrun, hw2, hw1, hc0]
  rfl

/-! ### The disk a disk stands for -/

/-- The disk that `d` stands for: blocks listed in the on-disk header live in the log. -/
def logical (start : ℕ) (d : Disk) : Disk := fun b =>
  if b ∈ readHead (d start) then d (start + (readHead (d start)).idxOf b + 1) else d b

/-- What the log code keeps true of the on-disk header at every write. -/
structure HeadOk (start size : ℕ) (d : Disk) : Prop where
  nodup : (readHead (d start)).Nodup
  outside : ∀ b ∈ readHead (d start), ¬ InLog start size b
  fits : (readHead (d start)).length + 1 ≤ size

theorem logical_of_empty {d : Disk} (h : readHead (d start) = []) : logical start d = d := by
  funext b; simp [logical, h]

theorem applyWrites_append (d : Disk) (ws vs : List (ℕ × Block)) :
    applyWrites d (ws ++ vs) = applyWrites (applyWrites d ws) vs := List.foldl_append ..

theorem applyWrites_of_notMem : ∀ (ws : List (ℕ × Block)) (d : Disk) {x : ℕ},
    (∀ w ∈ ws, w.1 ≠ x) → applyWrites d ws x = d x
  | [], _, _, _ => rfl
  | w :: ws, d, x, h => by
      change applyWrites (update d w.1 w.2) ws x = d x
      rw [applyWrites_of_notMem ws _ fun w' hw' => h w' (List.mem_cons_of_mem _ hw'),
        update_of_ne (h w (List.mem_cons_self ..)).symm]

/-- A list of writes that gives each block at most one value leaves that value there. -/
theorem applyWrites_of_mem : ∀ (ws : List (ℕ × Block)) (d : Disk) {f : ℕ → Block} {x : ℕ},
    (∀ w ∈ ws, w.2 = f w.1) → (∃ w ∈ ws, w.1 = x) → applyWrites d ws x = f x
  | [], _, _, _, _, h => by simp at h
  | w :: ws, d, f, x, hf, hx => by
      change applyWrites (update d w.1 w.2) ws x = f x
      by_cases hin : ∃ w' ∈ ws, w'.1 = x
      · exact applyWrites_of_mem ws _ (fun w' hw' => hf w' (List.mem_cons_of_mem _ hw')) hin
      · obtain ⟨w', hw', rfl⟩ := hx
        rcases List.mem_cons.mp hw' with rfl | hw''
        · rw [applyWrites_of_notMem ws _ fun v hv h => hin ⟨v, hv, h⟩, update_self]
          exact hf w' (List.mem_cons_self ..)
        · exact absurd ⟨w', hw'', rfl⟩ hin

/-- The log position of a listed block is inside the log and is not the header. -/
theorem HeadOk.logPos {d : Disk} (h : HeadOk start size d) {b : ℕ} (hb : b ∈ readHead (d start)) :
    InLog start size (start + (readHead (d start)).idxOf b + 1) := by
  have h1 := List.idxOf_lt_length_of_mem hb
  have h2 := h.fits
  exact ⟨by omega, by omega⟩

theorem HeadOk.start_inLog {d : Disk} (h : HeadOk start size d) : InLog start size start :=
  ⟨le_refl _, by have := h.fits; omega⟩

/-- INSTALL: writing listed blocks from their log copies, as often and in whatever order, does not
    change what the disk stands for, nor its header or log. -/
theorem install_logical {d : Disk} (h : HeadOk start size d) (ws : List (ℕ × Block))
    (hws : ∀ w ∈ ws, w.1 ∈ readHead (d start) ∧
      w.2 = d (start + (readHead (d start)).idxOf w.1 + 1)) :
    (∀ x, InLog start size x → applyWrites d ws x = d x) ∧
    ∀ b, ¬ InLog start size b → logical start (applyWrites d ws) b = logical start d b := by
  have hlog : ∀ x, InLog start size x → applyWrites d ws x = d x := by
    intro x hx
    refine applyWrites_of_notMem ws d fun w hw hwx => ?_
    exact h.outside w.1 (hws w hw).1 (hwx ▸ hx)
  refine ⟨hlog, fun b _ => ?_⟩
  have hhead := hlog start h.start_inLog
  by_cases hb : b ∈ readHead (d start)
  · simp only [logical, hhead, hb, if_true]
    exact hlog _ (h.logPos hb)
  · simp only [logical, hhead, hb, if_false]
    exact applyWrites_of_notMem ws d fun w hw hwb => hb (hwb ▸ (hws w hw).1)

/-- CLEAR: once every listed block is installed, emptying the header does not change what the disk
    stands for. -/
theorem clear_logical {d : Disk} {hd : Block} (hhd : headN hd = 0)
    (hinst : ∀ b ∈ readHead (d start), d b = d (start + (readHead (d start)).idxOf b + 1))
    {b : ℕ} (hb : b ≠ start) : logical start (update d start hd) b = logical start d b := by
  have hempty : readHead (update d start hd start) = [] := by
    rw [update_self]; exact readHead_eq_nil_iff.mpr hhd.le
  rw [logical_of_empty hempty, update_of_ne hb, logical]
  split
  · exact hinst b ‹_›
  · rfl

/-- Every prefix of "install all listed blocks, then clear the header" stands for the same disk. -/
theorem install_clear_prefix {d : Disk} (h : HeadOk start size d) {ws : List (ℕ × Block)}
    {hd : Block} (hhd : headN hd = 0)
    (hws : ∀ w ∈ ws, w.1 ∈ readHead (d start) ∧
      w.2 = d (start + (readHead (d start)).idxOf w.1 + 1))
    (hall : ∀ b ∈ readHead (d start), ∃ w ∈ ws, w.1 = b) (k : ℕ) :
    HeadOk start size (applyWrites d ((ws ++ [(start, hd)]).take k)) ∧
    (∀ b, ¬ InLog start size b →
      logical start (applyWrites d ((ws ++ [(start, hd)]).take k)) b = logical start d b) ∧
    (ws.length < k → headN (applyWrites d ((ws ++ [(start, hd)]).take k) start) = 0) := by
  by_cases hk : k ≤ ws.length
  · -- the cut falls among the home writes
    rw [List.take_append_of_le_length hk]
    obtain ⟨hlog, hlg⟩ := install_logical h (ws.take k)
      fun w hw => hws w (List.mem_of_mem_take hw)
    have hhead := hlog start h.start_inLog
    refine ⟨⟨?_, ?_, ?_⟩, hlg, fun hk' => absurd hk' (by omega)⟩
    · rw [hhead]; exact h.nodup
    · rw [hhead]; exact h.outside
    · rw [hhead]; exact h.fits
  · -- everything, the header included
    have hfull : applyWrites d ((ws ++ [(start, hd)]).take k) =
        update (applyWrites d ws) start hd := by
      rw [List.take_of_length_le (by rw [List.length_append, List.length_singleton]; omega),
        applyWrites_append]
      rfl
    obtain ⟨hlog, hlg⟩ := install_logical h ws hws
    have hhead := hlog start h.start_inLog
    have hempty : readHead (update (applyWrites d ws) start hd start) = [] := by
      rw [update_self]; exact readHead_eq_nil_iff.mpr hhd.le
    rw [hfull]
    refine ⟨⟨?_, ?_, ?_⟩, fun b hb => ?_, fun _ => by rw [update_self]; exact hhd⟩
    · rw [hempty]; exact List.nodup_nil
    · rw [hempty]; simp
    · rw [hempty]; have := h.fits; simp; omega
    · rw [← hlg b hb]
      refine clear_logical hhd (fun x hx => ?_) fun hbs => hb (hbs ▸ h.start_inLog)
      rw [hhead] at hx ⊢
      rw [hlog _ (h.logPos hx)]
      exact applyWrites_of_mem ws d (f := fun y => d (start + (readHead (d start)).idxOf y + 1))
        (fun w hw => (hws w hw).2) (hall x hx)

/-! ### Recovery and commit, cut anywhere -/

/-- Every prefix of a recovery run stands for the same disk; a complete one leaves `n = 0`. -/
theorem recover_prefix {d : Disk} (h : HeadOk start size d) (k : ℕ) :
    HeadOk start size (crashAt d (recoverFromLog start (boot d)) k) ∧
    (∀ b, ¬ InLog start size b →
      logical start (crashAt d (recoverFromLog start (boot d)) k) b = logical start d b) ∧
    ((recoverFromLog start (boot d)).writes.length ≤ k →
      headN (crashAt d (recoverFromLog start (boot d)) k start) = 0) := by
  obtain ⟨hd, hhd, hw⟩ := recover_writes d h.outside h.fits
  have hws : ∀ w ∈ homeWrites start d 0 (readHead (d start)), w.1 ∈ readHead (d start) ∧
      w.2 = d (start + (readHead (d start)).idxOf w.1 + 1) := by
    intro w hw
    obtain ⟨i, hi, rfl⟩ := mem_homeWrites.mp hw
    exact ⟨List.getElem_mem hi, by rw [h.nodup.idxOf_getElem]⟩
  have hall : ∀ b ∈ readHead (d start), ∃ w ∈ homeWrites start d 0 (readHead (d start)), w.1 = b := by
    intro b hb
    obtain ⟨i, hi, rfl⟩ := List.getElem_of_mem hb
    exact ⟨_, mem_homeWrites.mpr ⟨i, hi, rfl⟩, rfl⟩
  obtain ⟨h1, h2, h3⟩ := install_clear_prefix h hhd hws hall k
  rw [crashAt, hw]
  exact ⟨h1, h2, fun hk => h3 (by rw [List.length_append, List.length_singleton] at hk; omega)⟩

/-- The disk after a completed run is the disk after all its writes. -/
theorem recover_disk (d : Disk) : (recoverFromLog start (boot d)).disk =
    crashAt d (recoverFromLog start (boot d)) (recoverFromLog start (boot d)).writes.length := by
  rw [crashAt, List.take_length]
  exact disk_execAll d _ _ rfl

/-- However often recovery is cut, the disk it finally leaves is the one the first disk stood for. -/
theorem reboot_logical {d d' : Disk} (hr : Reboot start d d') (h : HeadOk start size d) :
    (∀ b, ¬ InLog start size b → d' b = logical start d b) ∧ headN (d' start) = 0 := by
  induction hr with
  | done d =>
    obtain ⟨-, h2, h3⟩ := recover_prefix h (recoverFromLog start (boot d)).writes.length
    rw [recover_disk]
    have hn := h3 (le_refl _)
    refine ⟨fun b hb => ?_, hn⟩
    rw [← h2 b hb, logical_of_empty (readHead_eq_nil_iff.mpr hn.le)]
  | cut d k _ ih =>
    obtain ⟨h1, h2, -⟩ := recover_prefix h k
    obtain ⟨ih1, ih2⟩ := ih h1
    exact ⟨fun b hb => (ih1 b hb).trans (h2 b hb), ih2⟩

/-- A crash before the header write keeps the old disk, whatever part of the log is written. -/
theorem before_header {d : Disk} (hn : headN (d start) = 0) (ws : List (ℕ × Block))
    (hws : ∀ w ∈ ws, InLog start size w.1 ∧ w.1 ≠ start) :
    readHead (applyWrites d ws start) = [] ∧
    ∀ b, ¬ InLog start size b → logical start (applyWrites d ws) b = d b := by
  have hhead : applyWrites d ws start = d start :=
    applyWrites_of_notMem ws d fun w hw => (hws w hw).2
  have hempty : readHead (applyWrites d ws start) = [] := by
    rw [hhead]; exact readHead_eq_nil_iff.mpr hn.le
  refine ⟨hempty, fun b hb => ?_⟩
  rw [logical_of_empty hempty]
  exact applyWrites_of_notMem ws d fun w hw hwb => hb (hwb ▸ (hws w hw).1)

/-- COMMIT POINT: with all log copies written, the header write makes the disk stand for the disk
    with the whole transaction applied. -/
theorem header_logical (t : Txn start size) {d d₂ : Disk} {h₁ : Block}
    (hh : readHead h₁ = t.blocks)
    (hd₂ : d₂ = update (applyWrites d (logWrites start (t.machine d).content 0 t.blocks)) start h₁) :
    HeadOk start size d₂ ∧ readHead (d₂ start) = t.blocks ∧
    (∀ b ∈ t.blocks, d₂ (start + t.blocks.idxOf b + 1) = (t.machine d).content b) ∧
    ∀ b, ¬ InLog start size b → logical start d₂ b = t.apply d b := by
  have hhead : readHead (d₂ start) = t.blocks := by rw [hd₂, update_self, hh]
  have hcopy : ∀ b ∈ t.blocks, d₂ (start + t.blocks.idxOf b + 1) = (t.machine d).content b := by
    intro b hb
    have hlt := List.idxOf_lt_length_of_mem hb
    rw [hd₂, update_of_ne (by omega)]
    have hf : ∀ w ∈ logWrites start (t.machine d).content 0 t.blocks,
        w.2 = (t.machine d).content (t.blocks.getD (w.1 - start - 1) 0) := by
      intro w hw
      obtain ⟨i, hi, rfl⟩ := mem_logWrites.mp hw
      simp only [show start + i + 1 - start - 1 = i by omega, List.getD_eq_getElem _ _ hi]
    rw [applyWrites_of_mem _ d (f := fun x => (t.machine d).content (t.blocks.getD (x - start - 1) 0))
      hf ⟨_, mem_logWrites.mpr ⟨_, hlt, rfl⟩, rfl⟩]
    simp only [show start + t.blocks.idxOf b + 1 - start - 1 = t.blocks.idxOf b by omega,
      List.getD_eq_getElem _ _ hlt, List.getElem_idxOf]
  refine ⟨⟨?_, ?_, ?_⟩, hhead, hcopy, fun b hb => ?_⟩
  · rw [hhead]; exact t.nodup
  · rw [hhead]; exact t.outside
  · rw [hhead]; exact t.fits
  · have hfits := t.fits
    have hbs : b ≠ start := fun h => hb (h ▸ ⟨le_refl _, by omega⟩)
    rw [logical, hhead, Txn.apply]
    split
    · exact hcopy b ‹_›
    · rw [hd₂, update_of_ne hbs]
      refine applyWrites_of_notMem _ d fun w hw hwb => hb ?_
      obtain ⟨i, hi, rfl⟩ := mem_logWrites.mp hw
      rw [← hwb]
      exact ⟨by show start ≤ start + i + 1; omega, by show start + i + 1 < start + size; omega⟩

/-- Every prefix of `commit()` stands for the old disk or for the disk with the transaction applied,
    the latter exactly from the header write on; a complete one leaves `n = 0`. -/
theorem commit_prefix (t : Txn start size) {d : Disk} (hn : headN (d start) = 0) (k : ℕ) :
    HeadOk start size (crashAt d (t.commit d) k) ∧
    (t.headerReached d k → ∀ b, ¬ InLog start size b →
      logical start (crashAt d (t.commit d) k) b = t.apply d b) ∧
    (¬ t.headerReached d k → ∀ b, ¬ InLog start size b →
      logical start (crashAt d (t.commit d) k) b = d b) ∧
    ((t.commit d).writes.length ≤ k → headN (crashAt d (t.commit d) k start) = 0) := by
  have hfits := t.fits
  by_cases hne : t.blocks = []
  · -- `commit()` of an empty transaction writes nothing
    have hw : (t.commit d).writes = [] := by
      rw [Txn.commit, Log.commit, if_pos hne]; rfl
    have hempty : readHead (d start) = [] := readHead_eq_nil_iff.mpr hn.le
    simp only [crashAt, Txn.headerReached, hw, List.take_nil]
    refine ⟨⟨?_, ?_, ?_⟩, ?_, fun _ b _ => congrFun (logical_of_empty hempty) b, fun _ => hn⟩
    · show (readHead (d start)).Nodup
      rw [hempty]; exact List.nodup_nil
    · show ∀ b ∈ readHead (d start), _
      rw [hempty]; simp
    · show (readHead (d start)).length + 1 ≤ size
      rw [hempty, List.length_nil]; omega
    · rintro ⟨w, hw, -⟩
      simp at hw
  obtain ⟨h₁, h₂, hh₁, hn₁, hn₂, hw⟩ := commit_writes t d hne
  set ls := logWrites start (t.machine d).content 0 t.blocks with hls
  set hs := t.blocks.map (fun b => (b, (t.machine d).content b)) with hhs
  have hlog : ∀ w ∈ ls, InLog start size w.1 ∧ w.1 ≠ start := by
    intro w hw
    obtain ⟨i, hi, rfl⟩ := mem_logWrites.mp hw
    exact ⟨⟨by show start ≤ start + i + 1; omega, by show start + i + 1 < start + size; omega⟩,
      by show start + i + 1 ≠ start; omega⟩
  by_cases hk : k ≤ ls.length
  · -- only log copies have been written
    have htake : (t.commit d).writes.take k = ls.take k := by
      rw [hw, List.take_append_of_le_length hk]
    obtain ⟨he, hl⟩ := before_header hn (ls.take k) fun w hw => hlog w (List.mem_of_mem_take hw)
    rw [crashAt, htake]
    have hnot : ¬ t.headerReached d k := by
      rintro ⟨w, hw', hws, -⟩
      rw [htake] at hw'
      exact (hlog w (List.mem_of_mem_take hw')).2 hws
    refine ⟨⟨?_, ?_, ?_⟩, fun h => absurd h hnot, fun _ => hl, fun hlen => ?_⟩
    · rw [he]; exact List.nodup_nil
    · rw [he]; simp
    · rw [he, List.length_nil]; omega
    · rw [hw, List.length_append, List.length_cons] at hlen; omega
  · -- the header is on disk; the rest is an install followed by a clear
    obtain ⟨j, rfl⟩ : ∃ j, k = ls.length + (j + 1) := ⟨k - ls.length - 1, by omega⟩
    have htake : (t.commit d).writes.take (ls.length + (j + 1)) =
        ls ++ (start, h₁) :: (hs ++ [(start, h₂)]).take j := by
      rw [hw, List.take_length_add_append, List.take_succ_cons]
    set d₂ := update (applyWrites d ls) start h₁ with hd₂
    obtain ⟨ho, hhd, hcopy, hlg⟩ := header_logical t hh₁ hd₂
    have hcrash : crashAt d (t.commit d) (ls.length + (j + 1)) =
        applyWrites d₂ ((hs ++ [(start, h₂)]).take j) := by
      rw [crashAt, htake, applyWrites_append]; rfl
    have hinst : ∀ w ∈ hs, w.1 ∈ readHead (d₂ start) ∧
        w.2 = d₂ (start + (readHead (d₂ start)).idxOf w.1 + 1) := by
      intro w hw'
      obtain ⟨b, hb, rfl⟩ := List.mem_map.mp hw'
      rw [hhd]
      exact ⟨hb, (hcopy b hb).symm⟩
    have hall : ∀ b ∈ readHead (d₂ start), ∃ w ∈ hs, w.1 = b := by
      intro b hb
      rw [hhd] at hb
      exact ⟨_, List.mem_map.mpr ⟨b, hb, rfl⟩, rfl⟩
    have hreached : t.headerReached d (ls.length + (j + 1)) :=
      ⟨(start, h₁), by rw [htake]; simp, rfl, hn₁⟩
    obtain ⟨p1, p2, p3⟩ := install_clear_prefix ho hn₂ hinst hall j
    rw [hcrash]
    refine ⟨p1, fun _ b hb => (p2 b hb).trans (hlg b hb), fun h => absurd hreached h, fun hlen => ?_⟩
    rw [hw, List.length_append, List.length_cons, List.length_append, List.length_singleton] at hlen
    exact p3 (by omega)

/-- A completed `commit()` applies its transaction and leaves `n = 0`. -/
theorem commit_disk (t : Txn start size) {d : Disk} (hn : headN (d start) = 0) :
    headN ((t.commit d).disk start) = 0 ∧
    ∀ b, ¬ InLog start size b → (t.commit d).disk b = t.apply d b := by
  have hdisk : (t.commit d).disk = crashAt d (t.commit d) (t.commit d).writes.length := by
    rw [crashAt, List.take_length]
    exact disk_execAll d _ _ rfl
  obtain ⟨-, h2, -, h4⟩ := commit_prefix t hn (t.commit d).writes.length
  rw [hdisk]
  have hn' := h4 (le_refl _)
  refine ⟨hn', fun b hb => ?_⟩
  rw [← logical_of_empty (readHead_eq_nil_iff.mpr hn'.le)]
  by_cases hne : t.blocks = []
  · have hw : (t.commit d).writes = [] := by rw [Txn.commit, Log.commit, if_pos hne]; rfl
    rw [crashAt, hw]
    show logical start d b = t.apply d b
    rw [logical_of_empty (readHead_eq_nil_iff.mpr hn.le), Txn.apply, if_neg (by simp [hne])]
  · obtain ⟨h₁, h₂, -, hn₁, -, hw⟩ := commit_writes t d hne
    exact h2 ⟨(start, h₁), by rw [List.take_length, hw]; simp, rfl, hn₁⟩ b hb

/-- Outside the log a transaction only looks at, and changes, blocks outside the log. -/
theorem Txn.apply_congr (t : Txn start size) {d d' : Disk}
    (h : ∀ b, ¬ InLog start size b → d b = d' b) :
    ∀ b, ¬ InLog start size b → t.apply d b = t.apply d' b := by
  intro b hb
  simp only [Txn.apply, Txn.machine, Machine.content, h b hb]

theorem applyAll_congr : ∀ (ts : List (Txn start size)) {d d' : Disk},
    (∀ b, ¬ InLog start size b → d b = d' b) →
    ∀ b, ¬ InLog start size b → applyAll d ts b = applyAll d' ts b
  | [], _, _, h => h
  | t :: ts, _, _, h => applyAll_congr ts (t.apply_congr h)

/-- Committing transactions one after the other applies them one after the other. -/
theorem commitAll_spec : ∀ (ts : List (Txn start size)) {d : Disk}, headN (d start) = 0 →
    headN (commitAll d ts start) = 0 ∧
    ∀ b, ¬ InLog start size b → commitAll d ts b = applyAll d ts b
  | [], _, hn => ⟨hn, fun _ _ => rfl⟩
  | t :: ts, d, hn => by
      obtain ⟨hn', hd⟩ := commit_disk t hn
      obtain ⟨ih1, ih2⟩ := commitAll_spec ts hn'
      exact ⟨ih1, fun b hb => (ih2 b hb).trans (applyAll_congr ts hd b hb)⟩

open Classical in
/-- CORRECT (crash atomicity): start from an empty log, commit the transactions `ts`, crash after any
    `k` disk writes of the next `commit()`, and reboot through any number of interrupted recoveries.
    Outside the log the final disk is the one with a prefix of the transactions applied in full —
    `ts`, and `t` exactly when its non-empty header had reached the disk — and the log is empty. -/
theorem crash_atomic (d : Disk) (hd : headN (d start) = 0) (ts : List (Txn start size))
    (t : Txn start size) (k : ℕ) {d' : Disk}
    (hr : Reboot start (crashAt (commitAll d ts) (t.commit (commitAll d ts)) k) d') :
    (∀ b, ¬ InLog start size b →
      d' b = applyAll d (ts ++ if t.headerReached (commitAll d ts) k then [t] else []) b) ∧
    headN (d' start) = 0 := by
  obtain ⟨hn, hts⟩ := commitAll_spec ts hd
  obtain ⟨ho, hyes, hno, -⟩ := commit_prefix t hn k
  obtain ⟨hl, hn'⟩ := reboot_logical hr ho
  refine ⟨fun b hb => ?_, hn'⟩
  rw [hl b hb]
  by_cases hreach : t.headerReached (commitAll d ts) k
  · rw [if_pos hreach, hyes hreach b hb, applyAll, List.foldl_append]
    exact t.apply_congr hts b hb
  · rw [if_neg hreach, hno hreach b hb, List.append_nil]
    exact hts b hb

/-- Two blocks, written with all ones, in the log geometry mkfs makes. -/
def twoBlocks : Txn 2 LOGSIZE where
  blocks := [46, 47]
  cache := fun _ => some fun _ => 255
  nodup := by decide
  outside := by decide
  fits := by decide
  logsize := by decide
  uint := by decide

/-- The disk after one such transaction and a crash that let the second one write its header and one
    of its home blocks. -/
def crashedDisk : Disk :=
  crashAt (commitAll (fun _ => 0) [twoBlocks]) (twoBlocks.commit (commitAll (fun _ => 0) [twoBlocks])) 4

open Classical in
theorem crash_atomic_twoBlocks : ∃ d', Reboot 2 crashedDisk d' ∧
    (∀ b, ¬ InLog 2 LOGSIZE b → d' b = applyAll (fun _ => 0) ([twoBlocks] ++
      if twoBlocks.headerReached (commitAll (fun _ => 0) [twoBlocks]) 4 then [twoBlocks] else []) b) ∧
    headN (d' 2) = 0 :=
  -- the first recovery is itself cut after one write
  ⟨_, .cut _ 1 (.done _),
    crash_atomic (fun _ => 0) (by decide) [twoBlocks] twoBlocks 4 (.cut _ 1 (.done _))⟩

end Minios.Log
