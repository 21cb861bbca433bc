import Minios.Bio.Cache

/-! `kernel/bio.c`: the representation invariant of the buffer cache.

    One spec lemma for `bget` says what its two scans can find; every invariant is then kept by each
    kind of step, and so by every run. -/

namespace Minios.Bio
open Schemes Function

/-! ### Single buffers -/

@[simp] theorem modify_links (c : Bcache) (i : Fin NBUF) (f : Buf → Buf) :
    (c.modify i f).links = c.links := rfl

@[simp] theorem modify_buf_self (c : Bcache) (i : Fin NBUF) (f : Buf → Buf) :
    (c.modify i f).buf i = f (c.buf i) := by simp [Bcache.modify]

theorem modify_buf_ne (c : Bcache) {i j : Fin NBUF} (f : Buf → Buf) (h : j ≠ i) :
    (c.modify i f).buf j = c.buf j := by simp [Bcache.modify, h]

theorem brelse_buf (c : Bcache) (i : Fin NBUF) :
    (brelse c i).buf = (c.modify i .decRef).buf := by
  unfold brelse; dsimp only; split <;> rfl

theorem modify_dev {c : Bcache} {i : Fin NBUF} {f : Buf → Buf} (h : (f (c.buf i)).dev = (c.buf i).dev)
    (j : Fin NBUF) : ((c.modify i f).buf j).dev = (c.buf j).dev := by
  rcases eq_or_ne j i with rfl | hj
  · rw [modify_buf_self, h]
  · rw [modify_buf_ne c f hj]

theorem modify_blockno {c : Bcache} {i : Fin NBUF} {f : Buf → Buf}
    (h : (f (c.buf i)).blockno = (c.buf i).blockno) (j : Fin NBUF) :
    ((c.modify i f).buf j).blockno = (c.buf j).blockno := by
  rcases eq_or_ne j i with rfl | hj
  · rw [modify_buf_self, h]
  · rw [modify_buf_ne c f hj]

/-! ### The list -/

/-- The list visits every buffer exactly once: `xs` is the order along `next`. -/
def OnRing (c : Bcache) (xs : List (Fin NBUF)) : Prop :=
  xs.Nodup ∧ (∀ i, i ∈ xs) ∧ c.links.Ring none (xs.map some)

theorem OnRing.length {c : Bcache} {xs : List (Fin NBUF)} (h : OnRing c xs) : xs.length = NBUF := by
  have hperm : xs.Perm (List.finRange NBUF) :=
    (List.perm_ext_iff_of_nodup h.1 (List.nodup_finRange _)).mpr fun i => by simp [h.2.1 i]
  rw [hperm.length_eq, List.length_finRange]

theorem ring_binitLinks (is : List (Fin NBUF)) : ∀ (l : Links Ptr) (xs : List (Fin NBUF)),
    l.Ring none (xs.map some) → (is ++ xs).Nodup →
    (is.foldl (fun l i => l.insertHead none (some i)) l).Ring none ((is.reverse ++ xs).map some) := by
  induction is with
  | nil => intro l xs h _; exact h
  | cons i is ih =>
    intro l xs h hnd
    rw [List.cons_append, List.nodup_cons, List.mem_append, not_or] at hnd
    rw [List.foldl_cons, List.reverse_cons, List.append_assoc, List.singleton_append]
    refine ih _ _ (h.insertHead (b := some i) ?_) ?_
    · simpa using hnd.1.2
    · rw [List.nodup_append] at hnd ⊢
      refine ⟨hnd.2.1, List.nodup_cons.mpr ⟨hnd.1.2, hnd.2.2.1⟩, fun a ha b hb => ?_⟩
      rcases List.mem_cons.mp hb with rfl | hb
      · rintro rfl; exact hnd.1.1 ha
      · exact hnd.2.2.2 a ha b hb

theorem onRing_binit : OnRing binit (List.finRange NBUF).reverse := by
  refine ⟨List.nodup_reverse.mpr (List.nodup_finRange _), by simp, ?_⟩
  have hring := ring_binitLinks (List.finRange NBUF) ⟨fun _ => none, fun _ => none⟩ []
    ⟨List.nodup_singleton _, rfl, rfl⟩ (by simpa using List.nodup_finRange NBUF)
  rwa [List.append_nil] at hring

theorem OnRing.findCached {c : Bcache} {xs : List (Fin NBUF)} (h : OnRing c xs) (dev blockno : ℕ) :
    findCached c dev blockno = (xs.find? fun i =>
      (c.buf i).dev = dev ∧ (c.buf i).blockno = blockno).map some := by
  rw [Bio.findCached, h.2.2.2.scan (by simp) (by rw [List.length_map, h.length]; omega),
    List.find?_map]
  rfl

theorem OnRing.findUnused {c : Bcache} {xs : List (Fin NBUF)} (h : OnRing c xs) :
    findUnused c = (xs.reverse.find? fun i => (c.buf i).refcnt = 0).map some := by
  have hflip := Links.seg_flip h.2.2.2
  have := hflip.scan (P := fun q => q.any fun i => (c.buf i).refcnt = 0) (n := NBUF + 1) (by simp)
    (by rw [List.length_reverse, List.length_map, h.length]; omega)
  rw [← List.map_reverse, List.find?_map] at this
  exact this

/-- Everything `bget` can do: return the buffer that caches the block, or recycle the last unused
    one of the list when no buffer does, or panic when all are in use. -/
theorem bget_cases {c : Bcache} {xs : List (Fin NBUF)} (h : OnRing c xs) (dev blockno : ℕ) :
    (∃ i, (c.buf i).dev = dev ∧ (c.buf i).blockno = blockno ∧
      bget c dev blockno = some (c.modify i .incRef, i)) ∨
    ((∀ j, ¬ ((c.buf j).dev = dev ∧ (c.buf j).blockno = blockno)) ∧
      ((∃ i, (c.buf i).refcnt = 0 ∧ xs.reverse.find? (fun i => (c.buf i).refcnt = 0) = some i ∧
        bget c dev blockno = some (c.modify i (.recycle dev blockno), i)) ∨
       ((∀ i, (c.buf i).refcnt ≠ 0) ∧ bget c dev blockno = none))) := by
  unfold bget
  rw [h.findCached]
  cases hf : xs.find? fun i => (c.buf i).dev = dev ∧ (c.buf i).blockno = blockno with
  | some i =>
    have := List.find?_some hf
    simp only [Bool.decide_and, Bool.and_eq_true, decide_eq_true_eq] at this
    exact Or.inl ⟨i, this.1, this.2, rfl⟩
  | none =>
    refine Or.inr ⟨fun j hj => ?_, ?_⟩
    · have := List.find?_eq_none.mp hf j (h.2.1 j)
      simp [hj] at this
    · simp only [Option.map_none]
      rw [h.findUnused]
      cases hu : xs.reverse.find? fun i => (c.buf i).refcnt = 0 with
      | some i =>
        have := List.find?_some hu
        exact Or.inl ⟨i, by simpa using this, rfl, rfl⟩
      | none =>
        refine Or.inr ⟨fun i hi => ?_, rfl⟩
        have := List.find?_eq_none.mp hu i (by simp [h.2.1 i])
        simp [hi] at this

/-! ### The invariant -/

/-- What every step of every process keeps. -/
structure Inv (s : Sys) : Prop where
  ring : ∃ xs, OnRing s.cache xs
  unique : ∀ i j, (s.cache.buf i).dev ≠ 0 → (s.cache.buf i).dev = (s.cache.buf j).dev →
    (s.cache.buf i).blockno = (s.cache.buf j).blockno → i = j
  refcnt : ∀ i, (s.cache.buf i).refcnt = s.calls.countP (fun c => c.buf = i) + s.pins i

theorem inv_init : Inv Sys.init where
  ring := ⟨_, onRing_binit⟩
  unique _ _ h := absurd rfl h
  refcnt _ := rfl

/-- A step that changes one buffer, not what it caches, and keeps the counts right. -/
theorem Inv.of_modify {s t : Sys} (h : Inv s) (i : Fin NBUF) (f : Buf → Buf)
    (hc : t.cache = s.cache.modify i f) (hd : (f (s.cache.buf i)).dev = (s.cache.buf i).dev)
    (hb : (f (s.cache.buf i)).blockno = (s.cache.buf i).blockno)
    (hr : (f (s.cache.buf i)).refcnt = t.calls.countP (fun c => c.buf = i) + t.pins i)
    (hne : ∀ j, j ≠ i → t.calls.countP (fun c => c.buf = j) + t.pins j =
      s.calls.countP (fun c => c.buf = j) + s.pins j) : Inv t := by
  refine ⟨?_, fun a b => ?_, fun j => ?_⟩
  · obtain ⟨xs, h1, h2, h3⟩ := h.ring
    exact ⟨xs, h1, h2, by rw [hc]; exact h3⟩
  · rw [hc, modify_dev hd, modify_dev hd, modify_blockno hb, modify_blockno hb]
    exact h.unique a b
  · rcases eq_or_ne j i with rfl | hj
    · rw [hc, modify_buf_self, hr]
    · rw [hc, modify_buf_ne _ _ hj, hne j hj]
      exact h.refcnt j

theorem countP_advance (calls : List Call) (p : ℕ) (i : Fin NBUF) (a b : Stage) (j : Fin NBUF)
    (h : ⟨p, i, a⟩ ∈ calls) :
    (advance calls p i a b).countP (fun c => c.buf = j) = calls.countP (fun c => c.buf = j) := by
  rw [advance, (List.perm_cons_erase h).countP_eq, List.countP_cons, List.countP_cons]

theorem inv_bget {s : Sys} (h : Inv s) {p dev blockno : ℕ} {c : Bcache} {i : Fin NBUF}
    (hb : bget s.cache dev blockno = some (c, i)) :
    Inv { s with cache := c, calls := ⟨p, i, .waiting⟩ :: s.calls } := by
  obtain ⟨xs, hxs⟩ := h.ring
  have hcount : ∀ j, (⟨p, i, .waiting⟩ :: s.calls : List Call).countP (fun c => c.buf = j) =
      s.calls.countP (fun c => c.buf = j) + if i = j then 1 else 0 := by
    intro j; rw [List.countP_cons]; simp
  rcases bget_cases hxs dev blockno with ⟨k, -, -, hk⟩ | ⟨hmiss, ⟨k, hk0, -, hk⟩ | ⟨-, hk⟩⟩
  · -- a hit: one more reference
    rw [hk] at hb
    cases hb
    refine h.of_modify i .incRef rfl rfl rfl ?_ fun j hj => ?_
    · have := h.refcnt i
      rw [hcount i, if_pos rfl]
      dsimp only [Buf.incRef]
      omega
    · rw [hcount j, if_neg hj.symm, Nat.add_zero]
  · -- a miss: the buffer had no reference, and no other buffer caches the block
    rw [hk] at hb
    cases hb
    refine ⟨⟨xs, hxs⟩, fun a b hd hdd hbb => ?_, fun j => ?_⟩
    · dsimp only at hd hdd hbb
      rcases eq_or_ne a i with rfl | ha
      · rcases eq_or_ne b a with rfl | hb
        · rfl
        · rw [modify_buf_self, modify_buf_ne _ _ hb] at hdd hbb
          exact absurd ⟨hdd.symm, hbb.symm⟩ (hmiss b)
      · rcases eq_or_ne b i with rfl | hb
        · rw [modify_buf_self, modify_buf_ne _ _ ha] at hdd hbb
          exact absurd ⟨hdd, hbb⟩ (hmiss a)
        · rw [modify_buf_ne _ _ ha] at hd hdd hbb
          rw [modify_buf_ne _ _ hb] at hdd hbb
          exact h.unique a b hd hdd hbb
    · have hj := h.refcnt j
      dsimp only
      rw [hcount j]
      rcases eq_or_ne j i with rfl | hji
      · simp only [modify_buf_self, Buf.recycle, if_true]; omega
      · simp only [modify_buf_ne _ _ hji, if_neg (Ne.symm hji)]; omega
  · rw [hk] at hb; cases hb

theorem OnRing.toFront {c : Bcache} {as bs : List (Fin NBUF)} {i : Fin NBUF} (h : OnRing c (as ++ i :: bs)) :
    OnRing { c with links := (c.links.unlink (some i)).insertHead none (some i) } (i :: (as ++ bs)) := by
  obtain ⟨hnd, hall, hr⟩ := h
  have hi : i ∉ as ++ bs := (List.nodup_middle.mp hnd) |> List.nodup_cons.mp |>.1
  refine ⟨List.nodup_middle.mp hnd, fun j => ?_, ?_⟩
  · have := hall j
    simp only [List.mem_append, List.mem_cons] at this ⊢
    tauto
  · rw [List.map_append, List.map_cons] at hr
    have hu := hr.unlink
    rw [← List.map_append] at hu
    exact hu.insertHead (by simpa using hi)

theorem inv_drop {s : Sys} (h : Inv s) {p : ℕ} {i : Fin NBUF} (hc : ⟨p, i, .releasing⟩ ∈ s.calls) :
    Inv { s with cache := brelse s.cache i, calls := s.calls.erase ⟨p, i, .releasing⟩ } := by
  have hcount : ∀ j, s.calls.countP (fun c => c.buf = j) =
      (s.calls.erase ⟨p, i, .releasing⟩).countP (fun c => c.buf = j) + if i = j then 1 else 0 := by
    intro j
    rw [(List.perm_cons_erase hc).countP_eq, List.countP_cons]; simp
  refine ⟨?_, fun a b => ?_, fun j => ?_⟩
  · obtain ⟨xs, hxs⟩ := h.ring
    have hmod : OnRing (s.cache.modify i .decRef) xs := hxs
    dsimp only [brelse]
    split
    · obtain ⟨as, bs, rfl⟩ := List.append_of_mem (hxs.2.1 i)
      exact ⟨_, hmod.toFront⟩
    · exact ⟨xs, hmod⟩
  · dsimp only
    rw [brelse_buf, modify_dev rfl, modify_dev rfl, modify_blockno rfl, modify_blockno rfl]
    exact h.unique a b
  · have hj := h.refcnt j
    have hcj := hcount j
    dsimp only
    rw [brelse_buf]
    rcases eq_or_ne j i with rfl | hji
    · rw [if_pos rfl] at hcj
      simp only [modify_buf_self, Buf.decRef]
      omega
    · rw [if_neg (Ne.symm hji)] at hcj
      rw [modify_buf_ne _ _ hji]
      omega

theorem inv_step {s t : Sys} {l : Label} (h : Inv s) (hs : step s l = some t) : Inv t := by
  cases l with
  | bget p dev blockno =>
    rw [step] at hs
    split at hs
    · cases hs
    split at hs
    · cases hs; exact ⟨h.ring, h.unique, h.refcnt⟩
    · rename_i c i hb
      cases hs
      exact inv_bget h hb
  | acquire p i =>
    rw [step] at hs
    split at hs
    · rename_i hc
      cases hs
      refine h.of_modify i (.setLock (some p)) rfl rfl rfl ?_ fun j _ => ?_
      · rw [countP_advance _ _ _ _ _ _ hc.2.1]; exact h.refcnt i
      · rw [countP_advance _ _ _ _ _ _ hc.2.1]
    · cases hs
  | release p i =>
    rw [step] at hs
    split at hs
    · rename_i hc
      cases hs
      refine h.of_modify i (.setLock none) rfl rfl rfl ?_ fun j _ => ?_
      · rw [countP_advance _ _ _ _ _ _ hc.2.1]; exact h.refcnt i
      · rw [countP_advance _ _ _ _ _ _ hc.2.1]
    · cases hs
  | fill p i x =>
    rw [step] at hs
    split at hs
    · cases hs
      exact h.of_modify i (.read x) rfl rfl rfl (h.refcnt i) fun j _ => rfl
    · cases hs
  | store p i x =>
    rw [step] at hs
    split at hs
    · cases hs
      exact h.of_modify i (.setData x) rfl rfl rfl (h.refcnt i) fun j _ => rfl
    · cases hs
  | drop p i =>
    rw [step] at hs
    split at hs
    · rename_i hc
      cases hs
      exact inv_drop h hc.2
    · cases hs
  | bpin i =>
    rw [step] at hs
    split at hs
    · cases hs
    · cases hs
      refine h.of_modify i .incRef rfl rfl rfl ?_ fun j hj => ?_
      · have := h.refcnt i
        dsimp only [Buf.incRef]
        rw [update_self]
        omega
      · simp only [update_of_ne hj]
  | bunpin i =>
    rw [step] at hs
    split at hs
    · rename_i hc
      cases hs
      refine h.of_modify i .decRef rfl rfl rfl ?_ fun j hj => ?_
      · have := h.refcnt i
        dsimp only [Buf.decRef]
        rw [update_self]
        omega
      · simp only [update_of_ne hj]
    · cases hs

/-- Apart from `bget`, a step changes one buffer and never what it caches. -/
theorem step_modify {s t : Sys} {l : Label} (hl : ∀ p dev blockno, l ≠ .bget p dev blockno)
    (hs : step s l = some t) : ∃ i f, t.cache.buf = (s.cache.modify i f).buf ∧
      ∀ b : Buf, (f b).dev = b.dev ∧ (f b).blockno = b.blockno := by
  cases l with
  | bget p dev blockno => exact absurd rfl (hl p dev blockno)
  | drop p j =>
    rw [step] at hs
    split at hs
    · cases hs
      exact ⟨j, _, brelse_buf _ _, fun _ => ⟨rfl, rfl⟩⟩
    · cases hs
  | acquire p j | fill p j x | store p j x | release p j =>
    rw [step] at hs
    split at hs
    · cases hs
      exact ⟨j, _, rfl, fun _ => ⟨rfl, rfl⟩⟩
    · cases hs
  | bpin j =>
    rw [step] at hs
    split at hs
    · cases hs
    · cases hs
      exact ⟨j, .incRef, rfl, fun _ => ⟨rfl, rfl⟩⟩
  | bunpin j =>
    rw [step] at hs
    split at hs
    · cases hs
      exact ⟨j, .decRef, rfl, fun _ => ⟨rfl, rfl⟩⟩
    · cases hs

theorem step_identity {s t : Sys} {l : Label} (h : Inv s) (hs : step s l = some t) {i : Fin NBUF}
    (hi : 0 < (s.cache.buf i).refcnt) :
    (t.cache.buf i).dev = (s.cache.buf i).dev ∧ (t.cache.buf i).blockno = (s.cache.buf i).blockno := by
  by_cases hl : ∀ p dev blockno, l ≠ .bget p dev blockno
  · obtain ⟨j, f, hbuf, hf⟩ := step_modify hl hs
    rw [hbuf]
    exact ⟨modify_dev (hf _).1 i, modify_blockno (hf _).2 i⟩
  · push Not at hl
    obtain ⟨p, dev, blockno, rfl⟩ := hl
    rw [step] at hs
    split at hs
    · cases hs
    obtain ⟨xs, hxs⟩ := h.ring
    rcases bget_cases hxs dev blockno with ⟨k, -, -, hk⟩ | ⟨-, ⟨k, hk0, -, hk⟩ | ⟨-, hk⟩⟩
    · rw [hk] at hs; cases hs
      dsimp only
      exact ⟨modify_dev rfl i, modify_blockno rfl i⟩
    · -- the recycled buffer had no reference
      rw [hk] at hs; cases hs
      have hik : i ≠ k := by rintro rfl; omega
      dsimp only
      rw [modify_buf_ne _ _ hik]
      exact ⟨rfl, rfl⟩
    · rw [hk] at hs; cases hs
      exact ⟨rfl, rfl⟩

theorem reach_inv {s : Sys} (h : Reach step Sys.init s) : Inv s :=
  h.inv (fun _ _ _ hI hs => inv_step hI hs) inv_init

/-- CORRECT (representation invariant): in every state any interleaving can reach, `next` from the
    head visits each buffer exactly once and returns, `prev` visits them in reverse, no two buffers
    cache one block of a real device, `refcnt` counts the `bget` calls whose `brelse` has not yet
    decremented it plus the pins, and no step changes what a buffer with `refcnt > 0` caches. -/
theorem cache_invariant {s : Sys} (h : Reach step Sys.init s) :
    (∃ xs : List (Fin NBUF), xs.Nodup ∧ (∀ i, i ∈ xs) ∧
      Links.follow s.cache.links.next (NBUF + 1) none = xs.map some ++ [none] ∧
      Links.follow s.cache.links.prev (NBUF + 1) none = (xs.map some).reverse ++ [none]) ∧
    (∀ i j, (s.cache.buf i).dev ≠ 0 → (s.cache.buf i).dev = (s.cache.buf j).dev →
      (s.cache.buf i).blockno = (s.cache.buf j).blockno → i = j) ∧
    (∀ i, (s.cache.buf i).refcnt = s.calls.countP (fun c => c.buf = i) + s.pins i) ∧
    ∀ l t, step s l = some t → ∀ i, 0 < (s.cache.buf i).refcnt →
      (t.cache.buf i).dev = (s.cache.buf i).dev ∧
      (t.cache.buf i).blockno = (s.cache.buf i).blockno := by
  have hi := reach_inv h
  obtain ⟨xs, hxs⟩ := hi.ring
  obtain ⟨hn, hp⟩ := hxs.2.2.follow
  rw [List.length_map, hxs.length] at hn hp
  exact ⟨⟨xs, hxs.1, hxs.2.1, hn, hp⟩, hi.unique, hi.refcnt,
    fun l t hs i h0 => step_identity hi hs h0⟩

/-- Two processes get the same block, one waits for the other, and the block is pinned. -/
def sharedBlock : List Label :=
  [.bget 0 1 46, .acquire 0 0, .fill 0 0 (fun _ => 7), .bget 1 1 46, .bpin 0, .release 0 0, .drop 0 0,
    .acquire 1 0]

theorem cache_invariant_sharedBlock : ∃ s, run step Sys.init sharedBlock = some s ∧
    (s.cache.buf 0).refcnt = 2 ∧
    ∀ i, (s.cache.buf i).refcnt = s.calls.countP (fun c => c.buf = i) + s.pins i := by
  obtain ⟨s, hs⟩ := Option.isSome_iff_exists.mp
    (show (run step Sys.init sharedBlock).isSome = true by decide +kernel)
  have hr : (run step Sys.init sharedBlock).map (fun s => (s.cache.buf 0).refcnt) = some 2 := by
    decide +kernel
  rw [hs, Option.map_some, Option.some.injEq] at hr
  exact ⟨s, hs, hr, (cache_invariant ⟨sharedBlock, hs⟩).2.2.1⟩

end Minios.Bio
