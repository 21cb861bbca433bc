import Minios.Schemes.Queue
import Minios.Console.Device

/-! `kernel/console.c`: the console is a line editor.

    The abstract console has a queue of committed characters and a pending line, both plain lists. Keys
    edit the pending line only, and commit it; reads take from the front of the committed queue only.
    The three wrapping indices of the code are positions in it:

        buf[r], ..., buf[w-1]  committed        buf[w], ..., buf[e-1]  pending

    REFINEMENT: whatever the handler and the readers do, the abstract console can do the same. -/

namespace Minios.Console
open Schemes Function

/-! ### The line editor -/

structure Editor where
  committed : List UInt8
  pending : List UInt8

/-- One more character in the pending line, committed at the end of a line, at ^D, or when full. -/
def Editor.add (E : Editor) (c : UInt8) : Editor :=
  if c = nl ∨ c = C 'D' ∨ E.committed.length + (E.pending ++ [c]).length = INPUT_BUF_SIZE then
    ⟨E.committed ++ (E.pending ++ [c]), []⟩
  else ⟨E.committed, E.pending ++ [c]⟩

/-- A key is typed. -/
def Editor.key (E : Editor) (c : UInt8) : Editor :=
  if c = C 'P' then E
  else if c = C 'U' then ⟨E.committed, []⟩
  else if c = C 'H' ∨ c = del then ⟨E.committed, E.pending.dropLast⟩
  else if c ≠ 0 ∧ E.committed.length + E.pending.length < INPUT_BUF_SIZE then E.add (if c = cr then nl else c)
  else E

/-- A call of `read`: it wants up to `n` bytes and has `got` some, or it is over and returned `r`. -/
inductive Call where
  | reading (n : ℤ) (got : List UInt8)
  | done (r : ℤ) (got : List UInt8)

/-- One round of a read: `none` while there is nothing to take. ^D ends the call; it stays in the queue
    when the call has got something. -/
def Editor.fetch (E : Editor) (n : ℤ) (got : List UInt8) : Option (Editor × Call) :=
  if (got.length : ℤ) < n then match E.committed with
    | [] => none
    | c :: q =>
      if c = C 'D' then some (if got = [] then ⟨q, E.pending⟩ else E, .done got.length got)
      else if c = nl then some (⟨q, E.pending⟩, .done (got.length + 1) (got ++ [c]))
      else some (⟨q, E.pending⟩, .reading n (got ++ [c]))
  else some (E, .done got.length got)

/-- The line editor and the calls of all processes. -/
structure Term where
  editor : Editor
  call : ℕ → Call

def Term.init : Term := ⟨⟨[], []⟩, fun _ => .done 0 []⟩

inductive Event where
  | key (c : UInt8)
  | read (p : ℕ) (n : ℤ)
  | fetch (p : ℕ)
  | abort (p : ℕ)

/-- What can happen: a key, a new call, a round of a call, and a call that is given up. -/
def Term.step (T : Term) : Event → Option Term
  | .key c => some { T with editor := T.editor.key c }
  | .read p n => match T.call p with
    | .done .. => some { T with call := update T.call p (.reading n []) }
    | .reading .. => none
  | .fetch p => match T.call p with
    | .reading n got => (T.editor.fetch n got).map fun r => ⟨r.1, update T.call p r.2⟩
    | .done .. => none
  | .abort p => match T.call p with
    | .reading _ got => some { T with call := update T.call p (.done (-1) got) }
    | .done .. => none

theorem Editor.committed_key (E : Editor) (c : UInt8) : E.committed <+: (E.key c).committed := by
  have hadd : ∀ c, E.committed <+: (E.add c).committed := by
    intro c
    rw [Editor.add]
    split
    · exact List.prefix_append ..
    · exact List.prefix_rfl
  rw [Editor.key]
  split
  · exact List.prefix_rfl
  split
  · exact List.prefix_rfl
  split
  · exact List.prefix_rfl
  split
  · exact hadd _
  · exact List.prefix_rfl

/-! ### The indices -/

variable {s : Cons} {c : UInt8}

/-- The abstraction of the ring. -/
def Cons.committed (s : Cons) : List UInt8 := queue INPUT_BUF_SIZE s.buf s.r s.w

def Cons.pending (s : Cons) : List UInt8 := queue INPUT_BUF_SIZE s.buf s.w s.e

def Cons.editor (s : Cons) : Editor := ⟨s.committed, s.pending⟩

/-- `r <= w <= e <= r + INPUT_BUF_SIZE`, modulo `2^32`. -/
structure Cons.Bounds (s : Cons) : Prop where
  le : (s.w - s.r).toNat ≤ (s.e - s.r).toNat
  cap : (s.e - s.r).toNat ≤ INPUT_BUF_SIZE

/-- Besides, no newline is pending: each one was committed when it came. -/
structure Cons.Fine (s : Cons) : Prop extends s.Bounds where
  clean : nl ∉ s.pending

theorem size_dvd : INPUT_BUF_SIZE ∣ 2 ^ 32 := by decide

theorem Cons.Bounds.length (h : s.Bounds) :
    s.committed.length + s.pending.length = (s.e - s.r).toNat := by
  have := h.le
  have := h.cap
  rw [Cons.committed, Cons.pending, length_queue, length_queue]
  simp only [INPUT_BUF_SIZE] at *
  bv_omega

/-- ERASE: the last pending character goes. -/
theorem pending_erase (h : s.Bounds) (hne : s.e ≠ s.w) :
    s.pending = s.erase.pending ++ [s.buf ((s.e - 1).toNat % INPUT_BUF_SIZE)] := by
  have hlt : (s.e - 1 - s.w).toNat + 1 < 2 ^ 32 := by
    have := h.le
    have := h.cap
    simp only [INPUT_BUF_SIZE] at *
    bv_omega
  have hpush : queue INPUT_BUF_SIZE s.buf s.w (s.e - 1 + 1) = _ := queue_push size_dvd hlt
  rwa [BitVec.sub_add_cancel] at hpush

theorem erase_fine (h : s.Fine) (hne : s.e ≠ s.w) : s.erase.Fine := by
  have hle := h.le
  have hcap := h.cap
  refine ⟨⟨?_, ?_⟩, fun hnl => h.clean ?_⟩
  · change (s.w - s.r).toNat ≤ (s.e - 1 - s.r).toNat
    simp only [INPUT_BUF_SIZE] at *
    bv_omega
  · change (s.e - 1 - s.r).toNat ≤ INPUT_BUF_SIZE
    simp only [INPUT_BUF_SIZE] at *
    bv_omega
  · rw [pending_erase h.toBounds hne]
    exact List.mem_append_left _ hnl

/-- KILL: the whole pending line goes. The test for a newline never stops the loop. -/
theorem killLine_spec : ∀ (k : ℕ) {s : Cons}, s.Fine → (s.e - s.w).toNat ≤ k →
    (s.killLine k).Fine ∧ (s.killLine k).editor = ⟨s.committed, []⟩
  | 0, s, h, hk => by
      have he : s.e = s.w := by bv_omega
      refine ⟨h, ?_⟩
      rw [Cons.killLine, Cons.editor, Cons.pending, he, queue_self]
  | k + 1, s, h, hk => by
      rw [Cons.killLine]
      split
      · next hc =>
        have hle : (s.erase.e - s.erase.w).toNat ≤ k := by
          change (s.e - 1 - s.w).toNat ≤ k
          have := hc.1
          bv_omega
        exact killLine_spec k (erase_fine h hc.1) hle
      · next hc =>
        have he : s.e = s.w := by
          by_contra hne
          refine h.clean ?_
          rw [pending_erase h.toBounds hne, not_not.mp fun hnl => hc ⟨hne, hnl⟩]
          exact List.mem_append_right _ (List.mem_singleton_self _)
        refine ⟨h, ?_⟩
        rw [Cons.editor, Cons.pending, he, queue_self]

theorem erase_editor (h : s.Fine) (hne : s.e ≠ s.w) : s.erase.editor = ⟨s.committed, s.pending.dropLast⟩ := by
  rw [pending_erase h.toBounds hne, List.dropLast_concat]
  rfl

/-- STORE: the character goes to the end of the pending line, and overwrites nothing. -/
theorem store_editor (h : s.Bounds) (hlt : (s.e - s.r).toNat < INPUT_BUF_SIZE) (c : UInt8) :
    (s.store c).editor = ⟨s.committed, s.pending ++ [c]⟩ := by
  have hle := h.le
  have hsub : (s.e - s.w).toNat < INPUT_BUF_SIZE := by
    simp only [INPUT_BUF_SIZE] at *
    bv_omega
  have hcommitted : (s.store c).committed = s.committed := queue_update_after size_dvd hle hlt c
  have hpending : (s.store c).pending = s.pending ++ [c] := by
    have hsucc : (s.e - s.w).toNat + 1 < 2 ^ 32 := by
      simp only [INPUT_BUF_SIZE] at *
      omega
    change queue INPUT_BUF_SIZE (update s.buf (s.e.toNat % INPUT_BUF_SIZE) c) s.w (s.e + 1) = _
    rw [queue_push size_dvd hsucc, queue_update size_dvd hsub, update_self]
    rfl
  rw [Cons.editor, hcommitted, hpending]

theorem store_bounds (h : s.Bounds) (hlt : (s.e - s.r).toNat < INPUT_BUF_SIZE) (c : UInt8) :
    (s.store c).Bounds := by
  have hle := h.le
  constructor
  · change (s.w - s.r).toNat ≤ (s.e + 1 - s.r).toNat
    simp only [INPUT_BUF_SIZE] at *
    bv_omega
  · change (s.e + 1 - s.r).toNat ≤ INPUT_BUF_SIZE
    simp only [INPUT_BUF_SIZE] at *
    bv_omega

/-- COMMIT: the pending line goes to the end of the committed queue. -/
theorem commit_editor (h : s.Bounds) : s.commit.editor = ⟨s.committed ++ s.pending, []⟩ := by
  have hcat : queue INPUT_BUF_SIZE s.buf s.r s.e = s.committed ++ s.pending := by
    have := h.le
    have := h.cap
    refine queue_append size_dvd ?_
    simp only [INPUT_BUF_SIZE] at *
    bv_omega
  rw [Cons.editor, Cons.commit, Cons.committed, Cons.pending, queue_self, ← hcat]

theorem commit_fine (h : s.Bounds) : s.commit.Fine := by
  refine ⟨⟨le_rfl, h.cap⟩, ?_⟩
  have hnil : s.commit.pending = [] := queue_self ..
  rw [hnil]
  exact List.not_mem_nil

theorem accept_refines (h : s.Fine) (hlt : (s.e - s.r).toNat < INPUT_BUF_SIZE) (c : UInt8) :
    (s.accept c).1.Fine ∧ (s.accept c).1.editor = s.editor.add c := by
  have hecho : (s.consputc c.toNat).Bounds := ⟨h.le, h.cap⟩
  have hb : ((s.consputc c.toNat).store c).Bounds := store_bounds hecho hlt c
  have hE : ((s.consputc c.toNat).store c).editor = ⟨s.committed, s.pending ++ [c]⟩ := store_editor hecho hlt c
  rw [Cons.accept]
  generalize (s.consputc c.toNat).store c = t at hb hE
  obtain ⟨hcommitted, hpending⟩ : t.committed = s.committed ∧ t.pending = s.pending ++ [c] := by
    rwa [Cons.editor, Editor.mk.injEq] at hE
  have hlen : (t.e - t.r).toNat = s.committed.length + (s.pending ++ [c]).length := by
    rw [← hb.length, hcommitted, hpending]
  simp only [hlen]
  rcases em (c = nl ∨ c = C 'D' ∨ s.committed.length + (s.pending ++ [c]).length = INPUT_BUF_SIZE) with hc | hc
  · have hadd : s.editor.add c = ⟨s.committed ++ (s.pending ++ [c]), []⟩ := if_pos hc
    rw [if_pos hc, hadd, ← hcommitted, ← hpending]
    exact ⟨commit_fine hb, commit_editor hb⟩
  · have hadd : s.editor.add c = ⟨s.committed, s.pending ++ [c]⟩ := if_neg hc
    rw [if_neg hc, hadd]
    refine ⟨⟨hb, ?_⟩, hE⟩
    rw [hpending, List.mem_append, List.mem_singleton]
    rintro (hnl | rfl)
    · exact h.clean hnl
    · exact hc (.inl rfl)

/-- KEYS: the handler does to the ring what a key does to the editor. -/
theorem consoleintr_refines (h : s.Fine) (c : UInt8) :
    (consoleintr s c).1.Fine ∧ (consoleintr s c).1.editor = s.editor.key c := by
  have hlen : s.editor.committed.length + s.editor.pending.length = (s.e - s.r).toNat := h.length
  rw [consoleintr, Editor.key, hlen]
  split
  · exact ⟨h, rfl⟩
  split
  · exact killLine_spec _ h le_rfl
  split
  · change (if s.e ≠ s.w then s.erase else s).Fine ∧ (if s.e ≠ s.w then s.erase else s).editor = _
    split
    · next hne => exact ⟨erase_fine h hne, erase_editor h hne⟩
    · next he =>
      refine ⟨h, ?_⟩
      have hnil : s.pending = [] := by rw [Cons.pending, not_not.mp he, queue_self]
      rw [Cons.editor, hnil]
      rfl
  split
  · next hc => exact accept_refines h hc.2 _
  · exact ⟨h, rfl⟩

/-! ### Readers -/

/-- A process as the abstract console sees it. -/
def Reader.call (pr : Reader) : Call := if pr.pc = .idle then .done pr.ret pr.got else .reading pr.target pr.got

def Sys.term (s : Sys) : Term := ⟨s.cons.editor, Reader.call ∘ s.proc⟩

/-- What is seen of a step. A reader that finds no input gives up when it has been killed, and shows
    nothing when it goes to sleep. -/
def events (s : Sys) : Label → Sys → List Event
  | .intr c, _ => [.key c]
  | .read p n _, _ => [.read p n]
  | .kill _, _ => []
  | .move p, _ =>
    if (s.proc p).pc = .loop then
      if 0 < (s.proc p).n ∧ s.cons.r = s.cons.w then if (s.proc p).killed then [.abort p] else []
      else [.fetch p]
    else []

/-- Copies to the reader succeed. -/
def Label.Copies : Label → Prop
  | .read _ _ dst => ∀ k, dst k = true
  | _ => True

/-- A call in progress has `n` bytes to go, and its buffer is writable. -/
structure Reader.Ok (pr : Reader) : Prop where
  todo : pr.pc ≠ .idle → pr.n = pr.target - pr.got.length
  copies : ∀ k, pr.dst k = true

structure Inv (s : Sys) : Prop where
  fine : s.cons.Fine
  readers : ∀ p, (s.proc p).Ok

variable {S : Sys} {p : ℕ} {pr : Reader}

theorem Inv.change (hI : Inv S) {cons : Cons} {lock : Option ℕ} (hf : cons.Fine) (hpr : pr.Ok) :
    Inv ⟨cons, lock, update S.proc p pr⟩ :=
  ⟨hf, (forall_update_iff S.proc fun _ pr => pr.Ok).mpr ⟨hpr, fun q _ => hI.readers q⟩⟩

theorem Reader.Ok.idle (h : pr.Ok) (r : ℤ) : Reader.Ok { pr with pc := .idle, ret := r } :=
  ⟨fun hpc => absurd rfl hpc, h.copies⟩

theorem term_change (S : Sys) (cons : Cons) (lock : Option ℕ) (p : ℕ) (pr : Reader) :
    Sys.term ⟨cons, lock, update S.proc p pr⟩ = ⟨cons.editor, update (Reader.call ∘ S.proc) p pr.call⟩ := by
  rw [Sys.term, comp_update]

theorem term_ret (S : Sys) (p : ℕ) (pr : Reader) (r : ℤ) :
    (S.ret p pr r).term = ⟨S.cons.editor, update (Reader.call ∘ S.proc) p (.done r pr.got)⟩ :=
  term_change ..

theorem term_same (S : Sys) (lock : Option ℕ) (h : pr.call = (S.proc p).call) :
    Sys.term ⟨S.cons, lock, update S.proc p pr⟩ = S.term := by
  rw [term_change, h]
  exact congrArg (Term.mk S.cons.editor) (update_eq_self p (Reader.call ∘ S.proc))

theorem fetch_step {T : Term} {n : ℤ} {got : List UInt8} {E : Editor} {c : Call} (hc : T.call p = .reading n got)
    (h : T.editor.fetch n got = some (E, c)) : run Term.step T [.fetch p] = some ⟨E, update T.call p c⟩ := by
  rw [run_cons, Term.step, hc]
  change ((T.editor.fetch n got).map _).bind _ = _
  rw [h]
  rfl

theorem take_refines (h : s.Fine) (hne : s.r ≠ s.w) :
    Cons.Fine { s with r := s.r + 1 } ∧ s.committed = s.head :: Cons.committed { s with r := s.r + 1 } := by
  have hle := h.le
  have hcap := h.cap
  refine ⟨⟨⟨?_, ?_⟩, h.clean⟩, queue_pop size_dvd hne⟩
  · change (s.w - (s.r + 1)).toNat ≤ (s.e - (s.r + 1)).toNat
    simp only [INPUT_BUF_SIZE] at *
    bv_omega
  · change (s.e - (s.r + 1)).toNat ≤ INPUT_BUF_SIZE
    simp only [INPUT_BUF_SIZE] at *
    bv_omega

theorem consume_refines (hI : Inv S) (hpc : (S.proc p).pc = .loop) (hn : 0 < (S.proc p).n)
    (hne : S.cons.r ≠ S.cons.w) :
    Inv (S.consume p S.cons.head) ∧ run Term.step S.term [.fetch p] = some (S.consume p S.cons.head).term := by
  have hok := hI.readers p
  have htodo := hok.todo (by rw [hpc]; decide)
  have hcall : S.term.call p = .reading (S.proc p).target (S.proc p).got := if_neg (by rw [hpc]; decide)
  obtain ⟨hfine, hq⟩ := take_refines hI.fine hne
  have hlt : ((S.proc p).got.length : ℤ) < (S.proc p).target := by omega
  have hfetch : S.term.editor.fetch (S.proc p).target (S.proc p).got = _ := if_pos hlt
  rw [show S.term.editor.committed = S.cons.head :: _ from hq] at hfetch
  have hback : S.cons.r + 1 - 1 = S.cons.r := BitVec.add_sub_cancel ..
  generalize S.cons.head = c at hfetch ⊢
  rw [Sys.consume]
  rcases eq_or_ne c (C 'D') with hD | hD
  · have hret : (S.proc p).target - (S.proc p).n = (S.proc p).got.length := by omega
    simp only [if_pos hD, hret, hback] at hfetch ⊢
    rcases eq_or_ne (S.proc p).got [] with hgot | hgot
    · rw [if_pos hgot] at hfetch
      have hlen : ¬ (S.proc p).n < (S.proc p).target := by rw [htodo, hgot]; simp
      rw [if_neg hlen]
      refine ⟨hI.change hfine (hok.idle _), (fetch_step hcall hfetch).trans ?_⟩
      rw [term_ret]
      rfl
    · rw [if_neg hgot] at hfetch
      have hlen : (S.proc p).n < (S.proc p).target := by
        have := List.length_pos_iff.mpr hgot
        omega
      rw [if_pos hlen]
      refine ⟨hI.change hI.fine (hok.idle _), (fetch_step hcall hfetch).trans ?_⟩
      rw [term_ret]
      rfl
  · have hret : (S.proc p).target - ((S.proc p).n - 1) = (S.proc p).got.length + 1 := by omega
    have hdst : ¬ (S.proc p).dst (S.proc p).got.length = false := by rw [hok.copies]; decide
    have hmore : Reader.Ok { S.proc p with got := (S.proc p).got ++ [c], n := (S.proc p).n - 1 } := by
      refine ⟨fun _ => ?_, hok.copies⟩
      rw [List.length_append, List.length_singleton]
      push_cast
      omega
    simp only [if_neg hD, if_neg hdst, hret] at hfetch ⊢
    split at hfetch
    · next hnl =>
      rw [if_pos hnl]
      refine ⟨hI.change hfine (hmore.idle _), (fetch_step hcall hfetch).trans ?_⟩
      rw [term_ret]
      rfl
    · next hnl =>
      rw [if_neg hnl]
      refine ⟨hI.change hfine hmore, (fetch_step hcall hfetch).trans ?_⟩
      rw [term_change, Reader.call, if_neg (by rw [hpc]; decide)]
      rfl

/-- READS: a round of `consoleread` is a round of the abstract read, or shows nothing. -/
theorem round_refines (hI : Inv S) (hpc : (S.proc p).pc = .loop) (t : Sys) :
    Inv (S.round p) ∧ run Term.step S.term (events S (.move p) t) = some (S.round p).term := by
  have hok := hI.readers p
  have htodo := hok.todo (by rw [hpc]; decide)
  have hcall : S.term.call p = .reading (S.proc p).target (S.proc p).got := if_neg (by rw [hpc]; decide)
  rw [events, if_pos hpc, Sys.round]
  by_cases hn : 0 < (S.proc p).n
  · by_cases hr : S.cons.r = S.cons.w
    · simp only [if_pos hn, if_pos hr, if_pos (And.intro hn hr)]
      split
      · refine ⟨hI.change hI.fine (hok.idle _), ?_⟩
        rw [run_cons, Term.step, hcall, term_ret]
        rfl
      · refine ⟨hI.change hI.fine ⟨fun _ => htodo, hok.copies⟩, ?_⟩
        have hasleep : ((S.proc p).at .asleep).call = (S.proc p).call := by
          rw [Reader.call, Reader.call, hpc]
          rfl
        rw [run_nil, term_same S none hasleep]
    · simp only [if_pos hn, if_neg hr, if_neg fun h : _ ∧ _ => hr h.2]
      exact consume_refines hI hpc hn hr
  · simp only [if_neg hn, if_neg fun h : _ ∧ _ => hn h.1]
    have hlt : ¬ ((S.proc p).got.length : ℤ) < (S.proc p).target := by omega
    have hret : (S.proc p).target - (S.proc p).n = (S.proc p).got.length := by omega
    refine ⟨hI.change hI.fine (hok.idle _), (fetch_step hcall (if_neg hlt)).trans ?_⟩
    rw [hret, term_ret]
    rfl

theorem wake_call (pr : Reader) : pr.wake.call = pr.call := by
  rw [Reader.wake]
  split
  · next h => rw [Reader.call, Reader.call, h]; rfl
  · rfl

theorem Reader.Ok.wake (h : pr.Ok) : pr.wake.Ok := by
  rw [Reader.wake]
  split
  · next hpc => exact ⟨fun _ => h.todo (by rw [hpc]; decide), h.copies⟩
  · exact h

/-- STEP: the invariant is kept, and the abstract console can do what is seen. -/
theorem step_refines (l : Label) (t : Sys) (hI : Inv S) (hl : l.Copies) (h : step S l = some t) :
    Inv t ∧ run Term.step S.term (events S l t) = some t.term := by
  cases l with
  | intr c =>
    obtain ⟨-, h⟩ := Option.ite_none_right_eq_some.mp h
    obtain ⟨hfine, hE⟩ := consoleintr_refines hI.fine c
    obtain rfl := Option.some.inj h
    refine ⟨⟨hfine, fun p => ?_⟩, ?_⟩
    · change ((if (consoleintr S.cons c).2 then fun p => (S.proc p).wake else S.proc) p).Ok
      split
      · exact (hI.readers p).wake
      · exact hI.readers p
    · have hcalls : Reader.call ∘ (if (consoleintr S.cons c).2 then fun p => (S.proc p).wake else S.proc) =
          Reader.call ∘ S.proc := by
        split
        · exact funext fun p => wake_call _
        · rfl
      change some (Term.mk (S.cons.editor.key c) (Reader.call ∘ S.proc)) = _
      rw [← hE, ← hcalls]
      rfl
  | read p n dst =>
    obtain ⟨hpc, h⟩ := Option.ite_none_right_eq_some.mp h
    obtain rfl := Option.some.inj h
    refine ⟨hI.change hI.fine ⟨fun _ => ?_, hl⟩, ?_⟩
    · rw [Reader.begin, List.length_nil, Nat.cast_zero, sub_zero]
    · have hcall : S.term.call p = .done (S.proc p).ret (S.proc p).got := if_pos hpc
      rw [events, run_cons, Term.step, hcall, term_change]
      rfl
  | kill p =>
    obtain rfl := Option.some.inj h
    have hkill : (S.proc p).kill.Ok := Reader.Ok.wake ⟨(hI.readers p).todo, (hI.readers p).copies⟩
    refine ⟨hI.change hI.fine hkill, ?_⟩
    have hcall : (S.proc p).kill.call = (S.proc p).call := wake_call _
    rw [events, run_nil, term_same S S.lock hcall]
  | move p =>
    rw [step] at h
    split at h
    · next hpc =>
      obtain ⟨-, h⟩ := Option.ite_none_right_eq_some.mp h
      obtain rfl := Option.some.inj h
      have hloop : ((S.proc p).at .loop).call = (S.proc p).call := by
        rw [Reader.call, Reader.call, hpc]
        rfl
      refine ⟨hI.change hI.fine ⟨fun _ => (hI.readers p).todo (by rw [hpc]; decide), (hI.readers p).copies⟩, ?_⟩
      rw [events, if_neg (by rw [hpc]; decide), run_nil, term_same S (some p) hloop]
    · next hpc =>
      obtain rfl := Option.some.inj h
      exact round_refines hI hpc _
    · cases h

/-! ### Whole runs -/

theorem Inv.init : Inv Sys.init := by
  refine ⟨⟨⟨by decide, by decide⟩, by decide⟩, fun p => ⟨fun h => absurd rfl h, fun k => rfl⟩⟩

theorem term_init : Sys.init.term = Term.init := rfl

/-- A ^D at the front of the queue is what the next call sees: it takes it and returns 0. -/
theorem Editor.fetch_eof {E : Editor} {q : List UInt8} {n : ℤ} (hn : 0 < n) (hE : E.committed = C 'D' :: q) :
    E.fetch n [] = some (⟨q, E.pending⟩, .done 0 []) := by
  rw [Editor.fetch, if_pos (by simpa using hn), hE]
  rfl

/-- CORRECT (line discipline): after every run in which copies to the readers succeed, the indices are
    in order, and what the handler and the readers did is a run of the line editor that ends in what the
    ring holds. Keys never remove committed characters, and a ^D that a read left in place makes the
    next read return 0. -/
theorem console_line_discipline {ls : List Label} {t : Sys} (hls : ∀ l ∈ ls, l.Copies)
    (h : run step Sys.init ls = some t) :
    t.cons.Bounds ∧ run Term.step Term.init (trace step events Sys.init ls) = some t.term ∧
    (∀ c, t.term.editor.committed <+: (t.term.editor.key c).committed) ∧
    ∀ q n, 0 < n → t.term.editor.committed = C 'D' :: q →
      t.term.editor.fetch n [] = some (⟨q, t.term.editor.pending⟩, .done 0 []) := by
  have hok : RunOk step (fun _ l => l.Copies) Sys.init ls := RunOk.of_forall _ hls
  have hI : Inv t := run_inv_of (fun s l t hI hl ht => (step_refines l t hI hl ht).1) Inv.init hok h
  refine ⟨hI.fine.toBounds, ?_, Editor.committed_key _, fun q n => Editor.fetch_eof⟩
  rw [← term_init]
  exact run_refines_of (fun s l t hI hl ht => (step_refines l t hI hl ht).1)
    (fun s l t hI hl ht => (step_refines l t hI hl ht).2) Inv.init hok h

/-- The first line of a session: "ab", a backspace, "c" and the end of the line, read by process 0. -/
theorem console_line_discipline_edit : ∃ t, run step Sys.init
      ([.read 0 10 fun _ => true, .intr 97, .intr 98, .intr (C 'H'), .intr 99, .intr cr] ++
        List.replicate 4 (.move 0)) = some t ∧
    t.cons.Bounds ∧ (t.proc 0).got = [97, 99, nl] ∧ (t.proc 0).ret = 3 := by
  have hview : (run step Sys.init
      ([.read 0 10 fun _ => true, .intr 97, .intr 98, .intr (C 'H'), .intr 99, .intr cr] ++
        List.replicate 4 (.move 0))).any
      (fun t => decide ((t.proc 0).got = [97, 99, nl] ∧ (t.proc 0).ret = 3)) = true := by decide +kernel
  obtain ⟨t, ht, hgot⟩ := (Option.any_eq_true ..).mp hview
  refine ⟨t, ht, (console_line_discipline (fun l hl => ?_) ht).1, of_decide_eq_true hgot⟩
  simp only [List.cons_append, List.nil_append, List.replicate, List.mem_cons, List.not_mem_nil, or_false] at hl
  rcases hl with rfl | rfl | rfl | rfl | rfl | rfl | rfl | rfl | rfl | rfl
  · exact fun _ => rfl
  all_goals exact trivial

/-- ^P is not zero, ^U, ^H or DEL, the console is empty, and the character is not appended. -/
theorem procdump_key_not_stored : C 'P' ≠ 0 ∧ C 'P' ≠ C 'U' ∧ C 'P' ≠ C 'H' ∧ C 'P' ≠ del ∧
    ∃ t, run step Sys.init [.intr (C 'P')] = some t ∧ t.cons.committed = [] ∧ t.cons.pending = [] := by
  refine ⟨by decide, by decide, by decide, by decide, _, rfl, ?_, ?_⟩
  · exact queue_self ..
  · exact queue_self ..

end Minios.Console
