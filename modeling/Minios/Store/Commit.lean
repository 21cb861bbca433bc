import Minios.Schemes.Rely
import Minios.Store.System

/-! `kernel/log.c`: `commit()` as it sees blocks, whatever the cache does underneath.

    Through the buffers it holds, `commit()` reads and changes the CONTENT of blocks; `bwrite` copies
    content to disk and `bunpin` drops a pin. The others cannot start an operation while it runs, but
    one that logged a block and still holds its buffer may change that block until `write_log` has
    locked it (`bread .frm`). The result: the script is safe, which means that

    - no instruction changes the content of a block outside the log,
    - a block is unpinned only when disk and content agree on it,
    - a buffer is released only when they agree or its block is pinned. -/

namespace Minios.Store
open Schemes Function
open Log (Var Instr InLog writeLog writeHead installTrans)

/-- What `commit()` works on: the content of each block, the disk, the pins, the block in each of its
    variables, and which variables hold a buffer. -/
structure View where
  content : ℕ → Block
  disk : Disk
  pins : ℕ → ℕ
  regs : Var → ℕ
  live : List Var

/-- One operation of `commit()`. -/
def View.exec : Instr → View → View
  | .bread v b, w => { w with regs := update w.regs v b, live := v :: w.live }
  | .memmove d s, w => { w with content := update w.content (w.regs d) (w.content (w.regs s)) }
  | .sethead v lh, w =>
    { w with content := update w.content (w.regs v) (Log.setHead lh (w.content (w.regs v))) }
  | .bwrite v, w => { w with disk := update w.disk (w.regs v) (w.content (w.regs v)) }
  | .bunpin v, w => { w with pins := update w.pins (w.regs v) (w.pins (w.regs v) - 1) }
  | .brelse v, w => { w with live := w.live.erase v }
  | .clear, w => w

/-- What makes the next operation harmless. -/
def View.Ok (start size : ℕ) : Instr → View → Prop
  | .bread v _, w => v ∉ w.live
  | .memmove d s, w => d ∈ w.live ∧ s ∈ w.live ∧
      (¬ InLog start size (w.regs d) → w.content (w.regs s) = w.content (w.regs d))
  | .sethead v _, w => v ∈ w.live ∧ InLog start size (w.regs v)
  | .bwrite v, w => v ∈ w.live
  | .bunpin v, w => v ∈ w.live ∧ w.disk (w.regs v) = w.content (w.regs v) ∧ 0 < w.pins (w.regs v)
  | .brelse v, w => v ∈ w.live ∧ (w.disk (w.regs v) = w.content (w.regs v) ∨ 0 < w.pins (w.regs v))
  | .clear, _ => True

/-- What the others may do: change the content of blocks that `write_log` has still to lock. -/
def View.Rely (rest : List Instr) (w w' : View) : Prop :=
  w' = { w with content := w'.content } ∧ ∀ b, .bread .frm b ∉ rest → w'.content b = w.content b

/-- The rest of `commit()` is safe, and it ends with no buffer held. -/
def View.Safe (start size : ℕ) (rest : List Instr) (w : View) : Prop :=
  Schemes.Safe View.exec (View.Ok start size) View.Rely (fun w => w.live = []) rest w

namespace View
variable {start size : ℕ} {i : Instr} {rest : List Instr} {w w' w'' : View}

theorem Rely.refl (rest : List Instr) (w : View) : Rely rest w w := ⟨rfl, fun _ _ => rfl⟩

theorem Rely.trans (h : Rely rest w w') (h' : Rely rest w' w'') : Rely rest w w'' := by
  refine ⟨?_, fun b hb => (h'.2 b hb).trans (h.2 b hb)⟩
  rw [h'.1, h.1]

/-- Once `write_log` has locked every listed block, nothing changes but by `commit()`. -/
theorem Rely.eq (h : Rely rest w w') (hno : ∀ b, .bread .frm b ∉ rest) : w' = w := by
  rw [h.1, funext fun b => h.2 b (hno b)]

theorem Safe.stable (h : View.Safe start size rest w) (hr : Rely rest w w') :
    View.Safe start size rest w' :=
  Schemes.Safe.stable (fun _ _ _ _ => Rely.trans) (fun s t hst hs => by rw [hst.1]; exact hs) h hr

theorem Safe.head (h : View.Safe start size (i :: rest) w) :
    Ok start size i w ∧ View.Safe start size rest (exec i w) :=
  Schemes.Safe.head Rely.refl h

theorem safe_cons (hno : ∀ b, .bread .frm b ∉ i :: rest) (hok : Ok start size i w)
    (h : View.Safe start size rest (exec i w)) : View.Safe start size (i :: rest) w :=
  Schemes.Safe.cons_still (fun _ ht => ht.eq hno) hok h

/-- One operation, whatever contents `c` the others have left. -/
theorem safe_step (h : ∀ c, (∀ b, .bread .frm b ∉ i :: rest → c b = w.content b) →
    Ok start size i { w with content := c } ∧
    View.Safe start size rest (exec i { w with content := c })) :
    View.Safe start size (i :: rest) w := by
  intro w' hw'
  rw [hw'.1]
  exact h w'.content hw'.2

/-! ### The three parts of the script -/

/-- `write_log`, `install_trans` and what is between them work on a log whose blocks are on disk and
    on home blocks that are pinned. -/
structure Ready (start size : ℕ) (pinned : List ℕ) (w : View) : Prop where
  live : w.live = []
  log : ∀ b, InLog start size b → w.disk b = w.content b
  pins : ∀ b ∈ pinned, 0 < w.pins b

theorem not_frm_installTrans (start : ℕ) (b : ℕ) : ∀ (lh : List ℕ) (tail : ℕ),
    .bread .frm b ∉ installTrans start false tail lh
  | [], _ => by simp [installTrans]
  | x :: xs, tail => by simp [installTrans, not_frm_installTrans start b xs (tail + 1)]

theorem not_frm_writeHead (start : ℕ) (b : ℕ) (lh : List ℕ) :
    .bread .frm b ∉ writeHead start lh := by simp [writeHead]

theorem mem_writeLog (start b : ℕ) : ∀ (lh : List ℕ) (tail : ℕ),
    .bread .frm b ∈ writeLog start tail lh ↔ b ∈ lh
  | [], _ => by simp [writeLog]
  | x :: xs, tail => by simp [writeLog, mem_writeLog start b xs (tail + 1)]

/-- `write_head`: the header is a block of the log, and its buffer is written before its release. -/
theorem safe_writeHead {pinned lh : List ℕ} (hno : ∀ b, .bread .frm b ∉ rest)
    (h0 : InLog start size start) (hr : Ready start size pinned w)
    (h : ∀ w', Ready start size pinned w' →
      (∀ b, b ≠ start → w'.content b = w.content b) → View.Safe start size rest w') :
    View.Safe start size (writeHead start lh ++ rest) w := by
  have hlive := hr.live
  have hall : ∀ b, .bread .frm b ∉ writeHead start lh ++ rest := fun b hb =>
    (List.mem_append.mp hb).elim (not_frm_writeHead start b lh) (hno b)
  simp only [writeHead, List.cons_append, List.nil_append] at hall ⊢
  refine safe_cons hall (by simp [Ok, hlive]) ?_
  refine safe_cons (fun b hb => hno b (by simpa using hb)) ?_ ?_
  · simp [Ok, exec, h0]
  refine safe_cons (fun b hb => hno b (by simpa using hb)) (by simp [Ok, exec]) ?_
  refine safe_cons (fun b hb => hno b (by simpa using hb)) (by simp [Ok, exec]) ?_
  refine h _ ⟨by simp [exec, hlive], fun b hb => ?_, hr.pins⟩ fun b hb => ?_
  · rcases eq_or_ne b start with rfl | hne
    · simp [exec]
    · simpa [exec, hne] using hr.log b hb
  · simp [exec, hb]

/-- `install_trans` when the log copies agree with the home blocks: it copies each home block onto
    itself, and unpins it once it is on disk. -/
theorem safe_installTrans (hno : ∀ b, .bread .frm b ∉ rest) : ∀ (lh : List ℕ) (tail : ℕ) {w : View},
    lh.Nodup → (∀ b ∈ lh, ¬ InLog start size b) → tail + lh.length + 1 ≤ size →
    Ready start size lh w →
    (∀ k (hk : k < lh.length), w.content (start + (tail + k) + 1) = w.content lh[k]) →
    (∀ w', Ready start size [] w' → w'.content = w.content → View.Safe start size rest w') →
    View.Safe start size (installTrans start false tail lh ++ rest) w
  | [], _, w, _, _, _, hr, _, h => h w ⟨hr.live, hr.log, by simp⟩ rfl
  | x :: xs, tail, w, hnd, hout, hsz, hr, hcopy, h => by
      have hlive := hr.live
      rw [List.length_cons] at hsz
      obtain ⟨hx, hnd⟩ := List.nodup_cons.mp hnd
      have hlogx : InLog start size (start + tail + 1) := ⟨by omega, by omega⟩
      have hxlog : ¬ InLog start size x := hout x (List.mem_cons_self ..)
      have hne : start + tail + 1 ≠ x := fun h => hxlog (h ▸ hlogx)
      have hc0 : w.content (start + tail + 1) = w.content x := hcopy 0 (by simp)
      have hsame : update w.content x (w.content (start + tail + 1)) = w.content := by
        rw [hc0, update_eq_self]
      have hno' : ∀ b, .bread .frm b ∉ installTrans start false (tail + 1) xs ++ rest := fun b hb =>
        (List.mem_append.mp hb).elim (not_frm_installTrans start b xs _) (hno b)
      simp only [installTrans, Bool.false_eq_true, if_false, List.cons_append, List.nil_append]
      refine safe_cons (fun b => by simpa using hno' b) (by simp [Ok, hlive]) ?_
      refine safe_cons (fun b => by simpa using hno' b) (by simp [Ok, exec, hlive]) ?_
      refine safe_cons (fun b => by simpa using hno' b) (by simp [Ok, exec, hc0]) ?_
      refine safe_cons (fun b => by simpa using hno' b) (by simp [Ok, exec]) ?_
      refine safe_cons (fun b => by simpa using hno' b) ?_ ?_
      · simp [Ok, exec, hr.pins x (List.mem_cons_self ..)]
      refine safe_cons (fun b => by simpa using hno' b) ?_ ?_
      · -- the log copy was on disk all along
        simp [Ok, exec, hne, hr.log _ hlogx]
      refine safe_cons (fun b => by simpa using hno' b) (by simp [Ok, exec]) ?_
      refine safe_installTrans hno xs (tail + 1) hnd (fun b hb => hout b (List.mem_cons_of_mem _ hb))
        (by omega) ⟨by simp [exec, hlive], fun b hb => ?_, fun b hb => ?_⟩ (fun k hk => ?_)
        fun w' hw' hcw => h w' hw' (hcw.trans ?_)
      · have hbx : b ≠ x := fun h => hxlog (h ▸ hb)
        simpa [exec, hbx] using hr.log b hb
      · have hbx : b ≠ x := fun h => hx (h ▸ hb)
        simpa [exec, hbx] using hr.pins b (List.mem_cons_of_mem _ hb)
      · have := hcopy (k + 1) (by simpa using hk)
        simp only [exec, update_self, update_of_ne, ne_eq, reduceCtorEq, not_false_eq_true, hsame]
        rw [List.getElem_cons_succ] at this
        rw [← this]
        congr 1
        omega
      · simp only [exec, update_self, update_of_ne, ne_eq, reduceCtorEq, not_false_eq_true, hsame]

/-- `write_log`, with the first `done` of the listed blocks copied and the others still to be locked:
    each copy keeps agreeing with its home block, since nobody can change that block any more. -/
theorem safe_writeLog {lh : List ℕ} (hno : ∀ b, .bread .frm b ∉ rest) (hnd : lh.Nodup)
    (hout : ∀ b ∈ lh, ¬ InLog start size b) (hsz : lh.length + 1 ≤ size)
    (h : ∀ w', Ready start size lh w' →
      (∀ k (hk : k < lh.length), w'.content (start + k + 1) = w'.content lh[k]) →
      View.Safe start size rest w') :
    ∀ (todo done : List ℕ) {w : View}, lh = done ++ todo → Ready start size lh w →
      (∀ k (hk : k < done.length), w.content (start + k + 1) = w.content done[k]) →
      View.Safe start size (writeLog start done.length todo ++ rest) w
  | [], done, w, hl, hr, hcopy => h w hr (by rw [List.append_nil] at hl; subst hl; exact hcopy)
  | x :: xs, done, w, hl, hr, hcopy => by
      have hlive := hr.live
      set X := start + done.length + 1 with hX
      have hlen : done.length + xs.length + 1 = lh.length := by rw [hl]; simp; omega
      have hxl : x ∈ lh := by rw [hl]; simp
      have hXlog : InLog start size X := ⟨by omega, by omega⟩
      have hXx : X ≠ x := fun he => hout x hxl (he ▸ hXlog)
      have hnd' : (done ++ x :: xs).Nodup := hl ▸ hnd
      have hxs : x ∉ xs := (List.nodup_cons.mp (List.nodup_append.mp hnd').2.1).1
      have hdis : ∀ b ∈ done, b ∉ x :: xs := fun b hb hm => (List.nodup_append.mp hnd').2.2 b hb b hm rfl
      -- who can change: not the log's blocks, not the ones copied
      have hlogxs : ∀ b, InLog start size b → b ∉ x :: xs := fun b hb hm =>
        hout b (by rw [hl]; exact List.mem_append_right _ hm) hb
      have hlogX := not_or.mp (fun hm => hlogxs X hXlog (List.mem_cons.mpr hm))
      have hmem : ∀ b, .bread .frm b ∈ writeLog start (done.length + 1) xs ++ rest ↔ b ∈ xs := by
        intro b
        rw [List.mem_append, mem_writeLog]
        exact ⟨fun hb => hb.resolve_right (hno b), Or.inl⟩
      simp only [writeLog, List.cons_append]
      refine safe_step fun c1 a1 => ⟨by simp [Ok, hlive], ?_⟩
      refine safe_step fun c2 a2 => ⟨by simp [Ok, exec, hlive], ?_⟩
      refine safe_step fun c3 a3 => ⟨by simp [Ok, exec, ← hX, hXlog], ?_⟩
      refine safe_step fun c4 a4 => ⟨by simp [Ok, exec], ?_⟩
      refine safe_step fun c5 a5 => ⟨?_, ?_⟩
      · simp [Ok, exec, hr.pins x hxl]
      refine safe_step fun c6 a6 => ⟨?_, ?_⟩
      all_goals simp only [exec, update_self, update_of_ne, ne_eq, reduceCtorEq, not_false_eq_true,
        List.mem_cons, Instr.bread.injEq, false_or, true_and, false_and, hmem, ← hX] at a1 a2 a3 a4 a5 a6 ⊢
      · simp [Ok, a6 X (hlogX.2), a5 X hlogX.2]
      have hnew : ∀ b, b ∉ xs → c6 b = update c3 X (c3 x) b := fun b hb => by
        rw [a6 b hb, a5 b hb, a4 b hb]
      have hold : ∀ b, b ∉ x :: xs → b ≠ X → c6 b = w.content b := fun b hb hbX => by
        have hb' : ¬ (b = x ∨ b ∈ xs) := by simpa using hb
        have hbxs : b ∉ xs := fun hm => hb' (Or.inr hm)
        rw [hnew b hbxs, update_of_ne hbX, a3 b hbxs, a2 b hb', a1 b hb']
      have hX6 : c6 X = c6 x := by
        rw [hnew X hlogX.2, update_self, hnew x hxs, update_of_ne hXx.symm]
      have hrec := safe_writeLog hno hnd hout hsz h xs (done ++ [x]) (w :=
        { content := c6, disk := update w.disk X (c4 X), pins := w.pins
          regs := update (update w.regs .to X) .frm x
          live := ((Var.frm :: .to :: w.live).erase .frm).erase .to }) (by rw [hl]; simp)
        ⟨by simp [hlive], fun b hb => ?_, hr.pins⟩ fun k hk => ?_
      · rwa [List.length_append, List.length_singleton] at hrec
      · rcases eq_or_ne b X with rfl | hbX
        · dsimp only
          rw [update_self, a6 _ hlogX.2, a5 _ hlogX.2]
        · dsimp only
          rw [update_of_ne hbX, hold b (hlogxs b hb) hbX]
          exact hr.log b hb
      · rw [List.length_append, List.length_singleton] at hk
        dsimp only
        rcases Nat.lt_succ_iff_lt_or_eq.mp hk with hk | rfl
        · have hkX : InLog start size (start + k + 1) := ⟨by omega, by omega⟩
          have hkd : done[k] ∈ done := List.getElem_mem hk
          rw [List.getElem_append_left hk, hold _ (hlogxs _ hkX) (by omega), hold _ (hdis _ hkd) ?_]
          · exact hcopy k hk
          · intro he
            exact hout done[k] (by rw [hl]; exact List.mem_append_left _ hkd) (he ▸ hXlog)
        · rw [List.getElem_append_right (Nat.le_refl _)]
          simpa using hX6

/-- The whole of `commit()` is safe from a state in which every block that differs from the disk is
    listed and pinned. -/
theorem safe_commit {lh : List ℕ} (hnd : lh.Nodup) (hout : ∀ b ∈ lh, ¬ InLog start size b)
    (hsz : lh ≠ [] → lh.length + 1 ≤ size) (hr : Ready start size lh w) :
    View.Safe start size (Log.commit start lh) w := by
  rw [Log.commit]
  split
  · exact hr.live
  rename_i hne
  have h0 : InLog start size start := ⟨le_rfl, by have := hsz hne; omega⟩
  simp only [List.append_assoc]
  refine safe_writeLog (fun b hb => ?_) hnd hout (hsz hne) (fun w1 hr1 hc1 => ?_) lh [] rfl hr
    (by simp)
  · simp [not_frm_installTrans, writeHead] at hb
  refine safe_writeHead (fun b hb => ?_) h0 hr1 fun w2 hr2 hc2 => ?_
  · simp [not_frm_installTrans, writeHead] at hb
  refine safe_installTrans (fun b hb => ?_) lh 0 hnd hout (by have := hsz hne; omega) hr2
    (fun k hk => ?_) fun w3 hr3 _ => ?_
  · simp [writeHead] at hb
  · have hk' : lh[k] ≠ start := fun he => hout _ (List.getElem_mem hk) (he ▸ h0)
    rw [Nat.zero_add, hc2 _ (by omega), hc2 _ hk', hc1 k hk]
  refine safe_cons (fun b hb => ?_) trivial ?_
  · simp [writeHead] at hb
  rw [← List.append_nil (writeHead start [])]
  exact safe_writeHead (fun b => List.not_mem_nil) h0 hr3 fun w4 hr4 _ => hr4.live

end View
end Minios.Store
