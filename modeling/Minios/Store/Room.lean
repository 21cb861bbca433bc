import Minios.Store.Refine

/-! Cache and log: when `bget` finds a buffer.

    A buffer is referenced by the log, which pins it from `log_write` to `install_trans`, and by every call of `bget` that
    has not come to its `brelse`. There are as many buffers as the log can pin, and readers (`fileread`) enter without
    `begin_op` and wait for the disk with a buffer in hand:

        NBUF = LOGSIZE = 30        NPROC = 64

    So `bget` panics exactly if it is asked for a block that is not cached while `NBUF` blocks are in use. -/

namespace Minios.Store
open Schemes Function
open Log (Var Instr InLog)

/-- The blocks of the calls in progress. -/
def Sys.asked (s : Sys) : List ℕ := s.bio.calls.map fun c => s.req c.pid c.buf

/-- The blocks in use: pinned by the log, or of a call in progress. All of them are cached. -/
def Sys.inUse (s : Sys) : Finset ℕ :=
  (Finset.univ.image fun i => (s.buf i).blockno).filter fun b => 0 < s.log.pins b ∨ b ∈ s.asked

/-- The block is in the cache. -/
def Sys.cached (s : Sys) (b : ℕ) : Prop := ∃ i, (s.buf i).dev = ROOTDEV ∧ (s.buf i).blockno = b

instance (s : Sys) (b : ℕ) : Decidable (s.cached b) := inferInstanceAs (Decidable (∃ _, _))

/-- The block that a step calls `bget` for. -/
def wants (s : Sys) : Label → Option ℕ
  | .bread _ b => some b
  | .commit p => match s.log.procs p, s.pend with
    | .commit _ _ (.bread _ b :: _), .none => some b
    | _, _ => none
  | _ => none

/-- If a step calls `bget`, the block is cached or fewer than `NBUF` blocks are in use. -/
def HasRoom (s : Sys) (l : Label) : Prop := ∀ b ∈ wants s l, s.cached b ∨ s.inUse.card < NBUF

instance (s : Sys) (l : Label) : Decidable (HasRoom s l) := inferInstanceAs (Decidable (∀ b ∈ wants s l, _))

section
variable {start size : ℕ} {s t : Sys} {p b : ℕ} {i : Fin NBUF}

/-! ### Buffers and blocks in use -/

theorem Inv.asked_iff (h : Inv start size s) : b ∈ s.asked ↔ ∃ c ∈ s.bio.calls, (s.buf c.buf).blockno = b := by
  rw [Sys.asked, List.mem_map]
  refine exists_congr fun c => and_congr_right fun hc => ?_
  rw [(h.own c.buf).asked c hc rfl]

theorem Inv.refcnt_iff (h : Inv start size s) : 0 < (s.buf i).refcnt ↔
    (s.buf i).dev = ROOTDEV ∧ (0 < s.log.pins (s.buf i).blockno ∨ (s.buf i).blockno ∈ s.asked) := by
  constructor
  · intro hpos
    rw [Sys.buf, h.bio.refcnt i, Nat.add_pos_iff_pos_or_pos, List.countP_pos_iff] at hpos
    rcases hpos with ⟨c, hc, hci⟩ | hpin
    · obtain rfl := of_decide_eq_true hci
      exact ⟨h.dev_of_call hc, .inr (h.asked_iff.mpr ⟨c, hc, rfl⟩)⟩
    · have hd : (s.buf i).dev = ROOTDEV := (h.own i).dev.resolve_right fun hno => absurd hno.2.2 (Nat.ne_of_gt hpin)
      exact ⟨hd, .inl ((h.own i).pins hd ▸ hpin)⟩
  · rintro ⟨hd, hpin | hasked⟩
    · exact h.refcnt_pos_of_pins ((h.own i).pins hd ▸ hpin)
    · obtain ⟨c, hc, hb⟩ := h.asked_iff.mp hasked
      rw [← h.buf_unique (h.dev_of_call hc) hd hb]
      exact h.refcnt_pos hc

/-- As many blocks are in use as buffers are referenced. -/
theorem Inv.card_inUse (h : Inv start size s) :
    s.inUse.card = (Finset.univ.filter fun i => 0 < (s.buf i).refcnt).card := by
  have himage : s.inUse = (Finset.univ.filter fun i => 0 < (s.buf i).refcnt).image fun i => (s.buf i).blockno := by
    ext b
    simp only [Sys.inUse, Finset.mem_filter, Finset.mem_image, Finset.mem_univ, true_and]
    constructor
    · rintro ⟨-, huse⟩
      -- a block in use is cached
      obtain ⟨i, hd, rfl⟩ : ∃ i, (s.buf i).dev = ROOTDEV ∧ (s.buf i).blockno = b := by
        rcases huse with hpin | hasked
        · obtain ⟨i, hd, hb, -⟩ := h.pinned b hpin
          exact ⟨i, hd, hb⟩
        · obtain ⟨c, hc, hb⟩ := h.asked_iff.mp hasked
          exact ⟨c.buf, h.dev_of_call hc, hb⟩
      exact ⟨i, h.refcnt_iff.mpr ⟨hd, huse⟩, rfl⟩
    · rintro ⟨i, hpos, rfl⟩
      exact ⟨⟨i, rfl⟩, (h.refcnt_iff.mp hpos).2⟩
  rw [himage]
  refine Finset.card_image_of_injOn fun i hi j hj hb => ?_
  rw [Finset.coe_filter_univ] at hi hj
  exact h.buf_unique (h.refcnt_iff.mp hi).1 (h.refcnt_iff.mp hj).1 hb

/-- FULL: all buffers are referenced exactly if `NBUF` blocks are in use. -/
theorem Inv.full_iff (h : Inv start size s) : (∀ i, (s.buf i).refcnt ≠ 0) ↔ ¬ s.inUse.card < NBUF := by
  have hle := Finset.card_filter_le (Finset.univ : Finset (Fin NBUF)) fun i => 0 < (s.buf i).refcnt
  have huniv := Finset.card_fin NBUF
  have hall := Finset.card_filter_eq_iff (s := (Finset.univ : Finset (Fin NBUF))) (p := fun i => 0 < (s.buf i).refcnt)
  rw [h.card_inUse]
  constructor
  · intro hne
    have := hall.mpr fun i _ => Nat.pos_of_ne_zero (hne i)
    omega
  · intro hlt i
    exact Nat.ne_of_gt (hall.mp (by omega) i (Finset.mem_univ i))

/-- `bget` finds no buffer exactly if it has no room. -/
theorem Inv.bget_none_iff (h : Inv start size s) : Bio.bget s.bio.cache ROOTDEV b = none ↔
    ¬ (s.cached b ∨ s.inUse.card < NBUF) := by
  rw [not_or, ← h.full_iff]
  obtain ⟨xs, hxs⟩ := h.bio.ring
  rcases Bio.bget_cases hxs ROOTDEV b with ⟨i, hd, hb, he⟩ | ⟨hmiss, ⟨i, h0, -, he⟩ | ⟨hfull, he⟩⟩
  · rw [he]
    exact ⟨nofun, fun hn => absurd ⟨i, hd, hb⟩ hn.1⟩
  · rw [he]
    exact ⟨nofun, fun hn => absurd h0 (hn.2 i)⟩
  · rw [he]
    exact ⟨fun _ => ⟨not_exists.mpr hmiss, hfull⟩, fun _ => rfl⟩

/-! ### Steps -/

theorem Inv.bread_panics (h : Inv start size s) {k : Sys → Fin NBUF → Sys} (hk : ∀ t i, (k t i).bio = t.bio)
    (hp : s.bio.panicked = false) (ht : bread s p b k = some t) :
    t.bio.panicked = true ↔ ¬ (s.cached b ∨ s.inUse.card < NBUF) := by
  rw [← h.bget_none_iff]
  obtain ⟨bio, hbio, rfl⟩ := Option.map_eq_some_iff.mp ht
  rw [Bio.step, if_neg (by rw [hp]; simp)] at hbio
  cases hg : Bio.bget s.bio.cache ROOTDEV b with
  | none =>
    rw [hg] at hbio
    cases hbio
    simp
  | some r =>
    rw [hg] at hbio
    cases hbio
    simp [hk, hp]

theorem bio_panicked {c d : Bio.Sys} {l : Bio.Label} (hl : ∀ p dev blockno, l ≠ .bget p dev blockno)
    (hs : Bio.step c l = some d) : d.panicked = c.panicked := by
  cases l with
  | bget p dev blockno => exact absurd rfl (hl p dev blockno)
  | acquire p j | fill p j x | store p j x | release p j | drop p j | bunpin j =>
    obtain ⟨-, hs⟩ := Option.ite_none_right_eq_some.mp hs
    cases hs
    rfl
  | bpin j =>
    obtain ⟨-, hs⟩ := Option.ite_none_left_eq_some.mp hs
    cases hs
    rfl

/-- Everything a step can do to the panic: nothing, or what a call of `bget` does. -/
def Quiet (s : Sys) (l : Label) (t : Sys) : Prop := wants s l = none ∧ t.bio.panicked = s.bio.panicked

def Asks (s : Sys) (l : Label) (t : Sys) : Prop := ∃ p b k, wants s l = some b ∧ bread s p b k = some t ∧
  ∀ t i, (k t i).bio = t.bio

theorem Inv.commitInstr_bio (h : Inv start size s) {regs wrote ins rest}
    (hproc : s.log.procs p = .commit regs wrote (ins :: rest))
    (ht : commitInstr s p (Log.step s.log (.commit p)) ins = some t) :
    Quiet s (.commit p) t ∨ Asks s (.commit p) t := by
  have hc := h.commit p regs wrote _ hproc
  cases ins with
  | bread v b =>
    rw [commitInstr] at ht
    split at ht
    case _ hpend => exact .inr ⟨p, b, _, by simp only [wants, hproc, hpend], ht, fun _ _ => rfl⟩
    case _ j hpend =>
      obtain ⟨bio, hb, rfl⟩ := Option.map_eq_some_iff.mp ht
      exact .inl ⟨by simp only [wants, hproc, hpend], bio_panicked (by simp) hb⟩
    case _ j hpend =>
      have hw : wants s (.commit p) = none := by simp only [wants, hproc, hpend]
      split at ht
      · obtain ⟨L, -, rfl⟩ := Option.map_eq_some_iff.mp ht
        exact .inl ⟨hw, rfl⟩
      · obtain ⟨bio, hb, rfl⟩ := Option.map_eq_some_iff.mp ht
        exact .inl ⟨hw, bio_panicked (by simp) hb⟩
    case _ => cases ht
  | memmove _ _ | sethead _ _ | bunpin _ =>
    obtain ⟨bio, hb, ht⟩ := Option.bind_eq_some_iff.mp ht
    obtain ⟨L, -, rfl⟩ := Option.map_eq_some_iff.mp ht
    exact .inl ⟨by simp only [wants, hproc], bio_panicked (by simp) hb⟩
  | bwrite v =>
    -- the lock is held, so `bwrite` does not panic either
    obtain ⟨-, hv, -⟩ := hc.pend_none (by simp) (by simp)
    rw [commitInstr, if_pos (h.live hproc hv).1] at ht
    obtain ⟨L, -, rfl⟩ := Option.map_eq_some_iff.mp ht
    exact .inl ⟨by simp only [wants, hproc], rfl⟩
  | brelse v =>
    have hw : wants s (.commit p) = none := by simp only [wants, hproc]
    rw [commitInstr] at ht
    split at ht
    · obtain ⟨bio, hb, ht⟩ := Option.bind_eq_some_iff.mp ht
      obtain ⟨L, -, rfl⟩ := Option.map_eq_some_iff.mp ht
      exact .inl ⟨hw, bio_panicked (by simp) hb⟩
    · obtain ⟨bio, hb, rfl⟩ := Option.map_eq_some_iff.mp ht
      exact .inl ⟨hw, bio_panicked (by simp) hb⟩
  | clear =>
    obtain ⟨L, -, rfl⟩ := Option.map_eq_some_iff.mp ht
    exact .inl ⟨by simp only [wants, hproc], rfl⟩

theorem Inv.step_bio (h : Inv start size s) {l : Label} (ht : step s l = some t) : Quiet s l t ∨ Asks s l t := by
  cases l with
  | bread p b =>
    obtain ⟨-, ht⟩ := Option.ite_none_right_eq_some.mp ht
    exact .inr ⟨p, b, _, rfl, ht, fun _ _ => rfl⟩
  | acquire p i | fill p i | store p i x | drop p i =>
    obtain ⟨-, ht⟩ := Option.ite_none_right_eq_some.mp ht
    obtain ⟨bio, hb, rfl⟩ := Option.map_eq_some_iff.mp ht
    exact .inl ⟨rfl, bio_panicked (by simp) hb⟩
  | release p i =>
    obtain ⟨-, ht⟩ := Option.ite_none_right_eq_some.mp ht
    obtain ⟨bio, hb, rfl⟩ := Option.map_eq_some_iff.mp ht
    refine .inl ⟨rfl, ?_⟩
    split <;> exact bio_panicked (by simp) hb
  | logWrite p i =>
    obtain ⟨-, ht⟩ := Option.ite_none_right_eq_some.mp ht
    obtain ⟨L, -, ht⟩ := Option.bind_eq_some_iff.mp ht
    split at ht
    · cases ht
      exact .inl ⟨rfl, rfl⟩
    split at ht
    · obtain ⟨bio, hb, rfl⟩ := Option.map_eq_some_iff.mp ht
      exact .inl ⟨rfl, bio_panicked (by simp) hb⟩
    · cases ht
      exact .inl ⟨rfl, rfl⟩
  | beginOp p | endOp p =>
    obtain ⟨L, -, rfl⟩ := Option.map_eq_some_iff.mp ht
    exact .inl ⟨rfl, rfl⟩
  | commit p =>
    simp only [step] at ht
    split at ht
    case _ hproc =>
      obtain ⟨L, -, rfl⟩ := Option.map_eq_some_iff.mp ht
      exact .inl ⟨by simp only [wants, hproc], rfl⟩
    case _ hproc => exact h.commitInstr_bio hproc ht
    case _ => cases ht

/-- One step runs into the panic exactly if it calls `bget` without room. -/
theorem Inv.step_panics (h : Inv start size s) {l : Label} (hp : s.bio.panicked = false) (ht : step s l = some t) :
    t.bio.panicked = true ↔ ¬ HasRoom s l := by
  rcases h.step_bio ht with ⟨hw, hpan⟩ | ⟨p, b, k, hw, hread, hk⟩
  · rw [hpan, hp, HasRoom, hw]
    simp
  · rw [h.bread_panics hk hp hread, HasRoom, hw]
    simp

theorem Inv.step_panicked (h : Inv start size s) {l : Label} (hp : s.bio.panicked = true) (ht : step s l = some t) :
    t.bio.panicked = true := by
  rcases h.step_bio ht with ⟨-, hpan⟩ | ⟨p, b, k, -, hread, -⟩
  · rw [hpan, hp]
  · obtain ⟨bio, hbio, -⟩ := Option.map_eq_some_iff.mp hread
    rw [Bio.step, if_pos hp] at hbio
    cases hbio

/-- A run panics exactly if one of its steps has no room. -/
theorem run_panics_iff : ∀ (ls : List Label) {s t : Sys}, Inv start size s → s.bio.panicked = false →
    run step s ls = some t → (t.bio.panicked = true ↔ ¬ RunOk step HasRoom s ls)
  | [], s, t, _, hp, h => by
      rw [run_nil, Option.some.injEq] at h
      subst h
      simp [hp, RunOk]
  | l :: ls, s, t, hi, hp, h => by
      rw [run_cons, Option.bind_eq_some_iff] at h
      obtain ⟨u, hu, hrest⟩ := h
      have hl := hi.step_panics hp hu
      have hall : RunOk step HasRoom s (l :: ls) ↔ HasRoom s l ∧ RunOk step HasRoom u ls := by
        simp [RunOk, hu]
      rw [hall]
      cases hup : u.bio.panicked with
      | false =>
        have hok : HasRoom s l := by
          by_contra hno
          rw [hl.mpr hno] at hup
          cases hup
        rw [run_panics_iff ls (inv_step hi hu) hup hrest]
        simp [hok]
      | true =>
        have hstuck : Inv start size t ∧ t.bio.panicked = true :=
          run_inv (I := fun v => Inv start size v ∧ v.bio.panicked = true)
            (fun v m w hv hw => ⟨inv_step hv.1 hw, hv.1.step_panicked hv.2 hw⟩) ⟨inv_step hi hu, hup⟩ hrest
        have hno := hl.mp hup
        simp [hstuck.2, hno]

end

/-- CORRECT (room in the cache): a run of any processes never meets "bget: no buffers" exactly if each of its calls of
    `bget` is for a block that is cached, or is made while fewer than `NBUF` blocks are pinned or in use by calls. -/
theorem cache_room {start size : ℕ} {d : Disk} {ls : List Label} {s : Sys}
    (h : run step (Sys.init start size d) ls = some s) :
    s.bio.panicked = false ↔ RunOk step HasRoom (Sys.init start size d) ls := by
  rw [← not_iff_not, Bool.not_eq_false]
  exact run_panics_iff ls (inv_init start size d) rfl h

/-- One round of the loop of `readi`, by process `p`, on a block that is not cached: `bread` and `brelse`. -/
def readRound (p b : ℕ) (i : Fin NBUF) : List Label := [.bread p b, .acquire p i, .fill p i, .release p i, .drop p i]

/-- `n` processes at the start of their rounds, each on a block of its own. -/
def readers (n : ℕ) : List Label := (List.range n).flatMap fun p => (readRound p (46 + p) 0).take 1

/-- If 31 processes wait for the disk at once, the last one finds no buffer. No process has begun an operation, and
    nothing is logged. -/
theorem readers_run_dry : (run step (Sys.init 2 LOGSIZE fun _ _ => 0) (readers 31)).any fun s =>
    s.bio.panicked ∧ s.log.outstanding = 0 ∧ s.log.lh = [] := by
  decide +kernel

/-- Three readers find room. -/
theorem cache_room_readers : ∃ s, run step (Sys.init 2 LOGSIZE fun _ _ => 0) (readers 3) = some s ∧
    s.bio.panicked = false := by
  obtain ⟨s, hs⟩ := Option.isSome_iff_exists.mp
    (show (run step (Sys.init 2 LOGSIZE fun _ _ => 0) (readers 3)).isSome = true by decide +kernel)
  exact ⟨s, hs, (cache_room hs).mpr (by decide +kernel)⟩

end Minios.Store
