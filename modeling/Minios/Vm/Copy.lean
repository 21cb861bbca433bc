import Minios.Vm.Maps

/-! `copyin`, `copyout` and `copyinstr` against the memory a user sees.

        user address a ──▶ page a / 4096 ──lookup, PTE_U──▶ frame, byte a % 4096          ubyte s root a

    Addresses are counted without wrapping around: beyond the end of the address space nothing is mapped, and the
    functions stop there as they do at any hole. -/

namespace Minios.Vm
open Schemes Function

variable {root : Frame} {p a n : ℕ} {s t u : Machine} {f : Frame} {E : Panic → Prop}

/-- The frame a user page is in. -/
def uframe (m : Frame → Page) (root : Frame) (p : ℕ) : Option Frame :=
  (lookup m root p).bind fun pte => if pte &&& PTE_U ≠ 0 then some (frame (PTE2PA pte)) else none

/-- User memory: the byte at an address, if a user may read it. -/
def ubyte (s : Machine) (root : Frame) (a : ℕ) : Option UInt8 :=
  if a < MAXVA.toNat then (uframe s.mem root (a / 4096)).map fun f => getByte (s.mem f) (a % 4096) else none

/-- A user may write there. -/
def Writable (s : Machine) (root : Frame) (a : ℕ) : Prop :=
  a < MAXVA.toNat ∧ ∃ pte, lookup s.mem root (a / 4096) = some pte ∧ pte &&& PTE_U ≠ 0 ∧ pte &&& PTE_W ≠ 0

/-- A page table whose user pages are in different frames, none of them a page of the table. -/
structure UserSpace (s : Machine) (root : Frame) : Prop where
  table : Table s.mem root
  data : ∀ p f, uframe s.mem root p = some f → f ∉ tables s.mem root ∧ f ≠ 0
  inj : ∀ p p' f, uframe s.mem root p = some f → uframe s.mem root p' = some f → p = p'

theorem ubyte_of_uframe (ha : a < MAXVA.toNat) (hf : uframe s.mem root (a / 4096) = some f) :
    ubyte s root a = some (getByte (s.mem f) (a % 4096)) := by
  rw [ubyte, if_pos ha, hf]; rfl

/-! ### `walkaddr` -/

theorem walkaddr_spec (hs : UserSpace s root) (va : Word) : wp (walkaddr root va) (fun r t => t = s ∧
    ((r = 0 ∧ ubyte s root va.toNat = none) ∨
      (r ≠ 0 ∧ va.toNat < MAXVA.toNat ∧ uframe s.mem root (pageno va) = some (frame r)))) E s := by
  rw [walkaddr]
  by_cases hva : va ≥ MAXVA
  · have hnone : ubyte s root va.toNat = none := if_neg (Nat.not_lt.mpr (BitVec.le_def.mp hva))
    rw [if_pos hva]
    exact ⟨rfl, .inl ⟨rfl, hnone⟩⟩
  have hlt : va < MAXVA := BitVec.not_le.mp hva
  have hltN : va.toNat < MAXVA.toNat := BitVec.lt_def.mp hlt
  -- an address without a user frame has no byte
  have hnone : uframe s.mem root (pageno va) = none → ubyte s root va.toNat = none := fun h => by
    rw [ubyte, if_pos hltN, ← pageno, h]; rfl
  rw [if_neg hva]
  refine (walk_false hlt).bind ?_
  rintro r t ⟨hts, hr⟩
  subst hts hr
  cases hq : slot t.mem root (pageno va) with
  | none => exact ⟨rfl, .inl ⟨rfl, hnone (by rw [uframe, slot_none hq]; rfl)⟩⟩
  | some q =>
    have hlook := lookup_of_slot (Nat.lt_trans (pageno_lt hlt) (by decide)) hq
    simp only [load, wp_bind, wp_get, wp_pure]
    by_cases hv : entry t.mem q &&& PTE_V = 0
    · rw [if_pos hv]
      exact ⟨rfl, .inl ⟨rfl, hnone (by rw [uframe, hlook, valid, if_neg (not_not.mpr hv)]; rfl)⟩⟩
    rw [if_neg hv]
    rw [valid_pos hv] at hlook
    by_cases hu : entry t.mem q &&& PTE_U = 0
    · rw [if_pos hu]
      exact ⟨rfl, .inl ⟨rfl, hnone (by rw [uframe, hlook]; exact if_neg (not_not.mpr hu))⟩⟩
    · rw [if_neg hu]
      have hf : uframe t.mem root (pageno va) = some (frame (PTE2PA (entry t.mem q))) := by
        rw [uframe, hlook]; exact if_pos hu
      refine ⟨rfl, .inr ⟨fun h => (hs.data _ _ hf).2 ?_, hltN, hf⟩⟩
      rw [h]; rfl

/-! ### Going through pages -/

/-- The user bytes from an address on. -/
def ubytes (s : Machine) (root : Frame) (a n : ℕ) : List UInt8 := slice (fun x => (ubyte s root x).getD 0) a n

/-- Where a round of a copy loop is: the offset in the page and how much of the page is left. -/
theorem round_offset (va : Word) : (va - PGROUNDDOWN va).toNat = va.toNat % 4096 ∧
    (PGSIZE - (va - PGROUNDDOWN va)).toNat = 4096 - va.toNat % 4096 := by
  have h := PGROUNDDOWN_toNat va
  rw [pageno] at h
  have hoff : (va - PGROUNDDOWN va).toNat = va.toNat % 4096 := by bv_omega
  exact ⟨hoff, by bv_omega⟩

theorem round_next {va : Word} (h : va.toNat < MAXVA.toNat) :
    (PGROUNDDOWN va + PGSIZE).toNat = va.toNat + (4096 - va.toNat % 4096) := by
  rw [show MAXVA.toNat = 2 ^ 38 from rfl] at h
  have hd := PGROUNDDOWN_toNat va
  rw [pageno] at hd
  bv_omega

theorem ubyte_page {va : Word} (hva : va.toNat < MAXVA.toNat) (hf : uframe s.mem root (pageno va) = some f) {j : ℕ}
    (hj : j < 4096 - va.toNat % 4096) :
    ubyte s root (va.toNat + j) = some (getByte (s.mem f) (va.toNat % 4096 + j)) := by
  rw [show MAXVA.toNat = 2 ^ 38 from rfl] at hva
  have hpage : (va.toNat + j) / 4096 = pageno va := by rw [pageno]; omega
  have hoff : (va.toNat + j) % 4096 = va.toNat % 4096 + j := by omega
  rw [ubyte_of_uframe (f := f) (by rw [show MAXVA.toNat = 2 ^ 38 from rfl]; omega) (by rw [hpage]; exact hf), hoff]

theorem ubytes_page {va : Word} (hva : va.toNat < MAXVA.toNat) (hf : uframe s.mem root (pageno va) = some f)
    (hn : n ≤ 4096 - va.toNat % 4096) : slice (getByte (s.mem f)) (va.toNat % 4096) n = ubytes s root va.toNat n :=
  slice_congr fun j hj => by rw [ubyte_page hva hf (by omega)]; rfl

/-- The address of a page has a byte exactly if the others of the page have. -/
theorem ubyte_rounddown {va : Word} (h : ubyte s root (PGROUNDDOWN va).toNat = none) : ubyte s root va.toNat = none := by
  have hd := PGROUNDDOWN_toNat va
  have hno : (PGROUNDDOWN va).toNat / 4096 = va.toNat / 4096 := by rw [hd, pageno]; omega
  have hmax : (PGROUNDDOWN va).toNat < MAXVA.toNat ↔ va.toNat < MAXVA.toNat := by
    rw [hd, pageno, show MAXVA.toNat = 2 ^ 38 from rfl]; omega
  rw [ubyte, hno] at h
  rw [ubyte]
  split at h
  · rename_i hlt
    rw [if_pos (hmax.mp hlt), Option.map_eq_none_iff.mp h]; rfl
  · rename_i hge
    exact if_neg fun hlt => hge (hmax.mpr hlt)

theorem walkaddr_round (hs : UserSpace s root) (va : Word) : wp (walkaddr root (PGROUNDDOWN va)) (fun r t => t = s ∧
    ((r = 0 ∧ ubyte s root va.toNat = none) ∨
      (r ≠ 0 ∧ va.toNat < MAXVA.toNat ∧ uframe s.mem root (pageno va) = some (frame r)))) E s := by
  refine (walkaddr_spec hs (PGROUNDDOWN va)).mono ?_
  rintro r t ⟨ht, hr⟩
  refine ⟨ht, ?_⟩
  have hd := PGROUNDDOWN_toNat va
  rcases hr with ⟨hr, hb⟩ | ⟨hr, hlt, hf⟩
  · exact .inl ⟨hr, ubyte_rounddown hb⟩
  · have hno : pageno (PGROUNDDOWN va) = pageno va := by rw [pageno, hd]; omega
    rw [hno] at hf
    refine .inr ⟨hr, ?_, hf⟩
    rw [hd, pageno, show MAXVA.toNat = 2 ^ 38 from rfl] at hlt
    rw [show MAXVA.toNat = 2 ^ 38 from rfl]
    omega

/-! ### `copyin` -/

/-- The result of a copy from user memory: how many bytes were copied, and why not more. -/
structure CopiedIn (s : Machine) (root : Frame) (a len : ℕ) (r : ℤ) (out : List UInt8) : Prop where
  bytes : ∃ n ≤ len, out = ubytes s root a n ∧ (∀ i < n, (ubyte s root (a + i)).isSome) ∧
    ((r = 0 ∧ n = len) ∨ (r = -1 ∧ n < len ∧ ubyte s root (a + n) = none))

theorem copyinLoop_spec (hs : UserSpace s root) : ∀ (rounds : ℕ) (va : Word) (len : ℕ) (dst : List UInt8), len < rounds →
    wp (copyinLoop root rounds va len dst) (fun r t => t = s ∧
      ∃ out, r.2 = dst ++ out ∧ CopiedIn s root va.toNat len r.1 out) E s
  | 0, _, _, _, h => absurd h (Nat.not_lt_zero _)
  | rounds + 1, va, len, dst, hlt => by
    rw [copyinLoop]
    by_cases hlen : 0 < len
    · rw [if_pos hlen]
      refine (walkaddr_round hs va).bind ?_
      rintro r t ⟨hts, hr⟩
      rw [hts]
      rcases hr with ⟨hr, hb⟩ | ⟨hr, hmax, hf⟩
      · rw [if_pos hr]
        exact ⟨rfl, [], (List.append_nil dst).symm, 0, Nat.zero_le _, rfl, fun i hi => absurd hi (Nat.not_lt_zero i),
          .inr ⟨rfl, hlen, hb⟩⟩
      · obtain ⟨hoff, hleft⟩ := round_offset va
        simp only [if_neg hr, wp_bind, wp_get, hoff, hleft]
        have hmod := Nat.mod_lt va.toNat (show 4096 > 0 by decide)
        -- the bytes of this page
        generalize hn : min (4096 - va.toNat % 4096) len = n
        have hsome : ∀ i < n, (ubyte s root (va.toNat + i)).isSome := fun i hi => by
          rw [ubyte_page hmax hf (by omega)]; rfl
        refine (copyinLoop_spec hs rounds (PGROUNDDOWN va + PGSIZE) (len - n) _ (by omega)).mono ?_
        rintro r' w ⟨hw, out, hout, hc⟩
        obtain ⟨m, hm, rfl, hall, hend⟩ := hc
        refine ⟨hw, _, by rw [hout, List.append_assoc], ?_⟩
        rw [ubytes_page hmax hf (by omega)]
        rcases Nat.lt_or_ge n len with hmore | hdone
        · rw [round_next hmax, show 4096 - va.toNat % 4096 = n by omega] at hall hend ⊢
          refine ⟨n + m, by omega, (slice_add _ _ n m).symm, fun i hi => ?_, ?_⟩
          · rcases Nat.lt_or_ge i n with h | h
            · exact hsome i h
            · have := hall (i - n) (by omega)
              rwa [show va.toNat + n + (i - n) = va.toNat + i by omega] at this
          · rcases hend with ⟨h0, hl⟩ | ⟨h1, hl, hno⟩
            · exact .inl ⟨h0, by omega⟩
            · exact .inr ⟨h1, by omega, by rwa [← Nat.add_assoc]⟩
        · -- the last round
          have hm0 : m = 0 := by omega
          subst hm0
          refine ⟨n, by omega, List.append_nil _, hsome, .inl ⟨?_, by omega⟩⟩
          rcases hend with ⟨h0, -⟩ | ⟨-, hl, -⟩
          · exact h0
          · omega
    · rw [if_neg hlen]
      exact ⟨rfl, [], (List.append_nil dst).symm, 0, Nat.zero_le _, rfl, fun i hi => absurd hi (Nat.not_lt_zero i),
        .inl ⟨rfl, by omega⟩⟩

theorem copyin_spec (hs : UserSpace s root) (va : Word) (len : ℕ) :
    wp (copyin root va len) (fun r t => t = s ∧ CopiedIn s root va.toNat len r.1 r.2) E s := by
  refine (copyinLoop_spec hs (len + 1) va len [] (Nat.lt_succ_self len)).mono ?_
  rintro r t ⟨ht, out, hout, hc⟩
  exact ⟨ht, by rw [hout]; exact hc⟩

/-! ### `copyinstr` -/

theorem copyinstrPage_spec (page : Page) : ∀ (n p : ℕ),
    (∃ k < n, copyinstrPage page p n = (true, slice (getByte page) p (k + 1)) ∧ getByte page (p + k) = 0 ∧
      ∀ i < k, getByte page (p + i) ≠ 0) ∨
    (copyinstrPage page p n = (false, slice (getByte page) p n) ∧ ∀ i < n, getByte page (p + i) ≠ 0)
  | 0, p => .inr ⟨rfl, fun i hi => absurd hi (Nat.not_lt_zero i)⟩
  | n + 1, p => by
    have hcons : ∀ m, slice (getByte page) p (m + 1) = getByte page p :: slice (getByte page) (p + 1) m := fun m => by
      rw [Nat.add_comm m 1, slice_add]; rfl
    -- a byte that is not NUL, before what the rest of the loop copies
    have hshift : ∀ {k}, getByte page p ≠ 0 → (∀ i < k, getByte page (p + 1 + i) ≠ 0) →
        ∀ i < k + 1, getByte page (p + i) ≠ 0 := fun h0 hk i hi => by
      cases i with
      | zero => exact h0
      | succ i => rw [show p + (i + 1) = p + 1 + i by omega]; exact hk i (by omega)
    rw [copyinstrPage]
    by_cases h0 : getByte page p = 0
    · rw [if_pos h0]
      exact .inl ⟨0, Nat.succ_pos n, by rw [hcons, h0]; rfl, h0, fun i hi => absurd hi (Nat.not_lt_zero i)⟩
    · rw [if_neg h0]
      rcases copyinstrPage_spec page n (p + 1) with ⟨k, hk, he, hz, hnz⟩ | ⟨he, hnz⟩
      · refine .inl ⟨k + 1, by omega, by rw [he, hcons], ?_, hshift h0 hnz⟩
        rw [show p + (k + 1) = p + 1 + k by omega]; exact hz
      · exact .inr ⟨by rw [he, hcons], hshift h0 hnz⟩

/-- The result of `copyinstr`: a string with its NUL, or what there was before the end or a hole. -/
def CopiedStr (s : Machine) (root : Frame) (a max : ℕ) (r : ℤ) (out : List UInt8) : Prop :=
  (r = 0 ∧ ∃ k < max, out = ubytes s root a (k + 1) ∧ ubyte s root (a + k) = some 0 ∧
    ∀ i < k, ∃ c ≠ 0, ubyte s root (a + i) = some c) ∨
  (r = -1 ∧ ∃ n ≤ max, out = ubytes s root a n ∧ (∀ i < n, ∃ c ≠ 0, ubyte s root (a + i) = some c) ∧
    (n < max → ubyte s root (a + n) = none))

theorem CopiedStr.cons {max : ℕ} {r : ℤ} {out : List UInt8} (hn : ∀ i < n, ∃ c ≠ 0, ubyte s root (a + i) = some c)
    (h : CopiedStr s root (a + n) max r out) : CopiedStr s root a (n + max) r (ubytes s root a n ++ out) := by
  have hall : ∀ {k}, (∀ i < k, ∃ c ≠ 0, ubyte s root (a + n + i) = some c) →
      ∀ i < n + k, ∃ c ≠ 0, ubyte s root (a + i) = some c := fun hk i hi => by
    rcases Nat.lt_or_ge i n with h | h
    · exact hn i h
    · have := hk (i - n) (by omega)
      rwa [show a + n + (i - n) = a + i by omega] at this
  rcases h with ⟨hr, k, hk, rfl, hz, hnz⟩ | ⟨hr, m, hm, rfl, hnz, hend⟩
  · exact .inl ⟨hr, n + k, by omega, (slice_add _ _ n (k + 1)).symm, by rwa [← Nat.add_assoc], hall hnz⟩
  · exact .inr ⟨hr, n + m, by omega, (slice_add _ _ n m).symm, hall hnz, fun h => by
      rw [← Nat.add_assoc]; exact hend (by omega)⟩

theorem copyinstrLoop_spec (hs : UserSpace s root) : ∀ (rounds : ℕ) (va : Word) (max : ℕ) (dst : List UInt8),
    max < rounds → wp (copyinstrLoop root rounds va max dst) (fun r t => t = s ∧
      ∃ out, r.2 = dst ++ out ∧ CopiedStr s root va.toNat max r.1 out) E s
  | 0, _, _, _, h => absurd h (Nat.not_lt_zero _)
  | rounds + 1, va, max, dst, hlt => by
    rw [copyinstrLoop]
    by_cases hmax0 : 0 < max
    · rw [if_pos hmax0]
      refine (walkaddr_round hs va).bind ?_
      rintro r t ⟨hts, hr⟩
      rw [hts]
      rcases hr with ⟨hr, hb⟩ | ⟨hr, hmax, hf⟩
      · rw [if_pos hr]
        exact ⟨rfl, [], (List.append_nil dst).symm, .inr ⟨rfl, 0, Nat.zero_le _, rfl,
          fun i hi => absurd hi (Nat.not_lt_zero i), fun _ => hb⟩⟩
      · obtain ⟨hoff, hleft⟩ := round_offset va
        simp only [if_neg hr, wp_bind, wp_get, hoff, hleft]
        have hmod := Nat.mod_lt va.toNat (show 4096 > 0 by decide)
        generalize hn : min (4096 - va.toNat % 4096) max = n
        have hbyte : ∀ i < n, ubyte s root (va.toNat + i) = some (getByte (s.mem (frame r)) (va.toNat % 4096 + i)) :=
          fun i hi => ubyte_page hmax hf (by omega)
        rcases copyinstrPage_spec (s.mem (frame r)) n (va.toNat % 4096) with ⟨k, hk, he, hz, hnz⟩ | ⟨he, hnz⟩
        · rw [he, if_pos rfl, ubytes_page hmax hf (by omega)]
          refine ⟨rfl, _, rfl, .inl ⟨rfl, k, by omega, rfl, by rw [hbyte k hk, hz], fun i hi => ?_⟩⟩
          exact ⟨_, hnz i hi, hbyte i (by omega)⟩
        · rw [he, if_neg Bool.false_ne_true, ubytes_page hmax hf (by omega)]
          refine (copyinstrLoop_spec hs rounds (PGROUNDDOWN va + PGSIZE) (max - n) _ (by omega)).mono
            ?_
          rintro r' w ⟨hw, out, hout, hc⟩
          refine ⟨hw, _, by rw [hout, List.append_assoc], ?_⟩
          have hpre : ∀ i < n, ∃ c ≠ 0, ubyte s root (va.toNat + i) = some c := fun i hi => ⟨_, hnz i hi, hbyte i hi⟩
          rcases Nat.lt_or_ge n max with hmore | hdone
          · rw [round_next hmax, show 4096 - va.toNat % 4096 = n by omega] at hc
            rw [show max = n + (max - n) by omega]
            exact hc.cons hpre
          · -- nothing is left to copy, whatever the address
            rw [show max - n = 0 by omega] at hc
            rcases hc with ⟨-, k, hk, -⟩ | ⟨hr', m, hm, rfl, -, -⟩
            · omega
            · rw [show m = 0 by omega]
              exact .inr ⟨hr', n, by omega, List.append_nil _, hpre, fun h => by omega⟩
    · rw [if_neg hmax0]
      exact ⟨rfl, [], (List.append_nil dst).symm, .inr ⟨rfl, 0, Nat.zero_le _, rfl,
        fun i hi => absurd hi (Nat.not_lt_zero i), fun h => absurd h hmax0⟩⟩

theorem copyinstr_spec (hs : UserSpace s root) (va : Word) (max : ℕ) :
    wp (copyinstr root va max) (fun r t => t = s ∧ CopiedStr s root va.toNat max r.1 r.2) E s := by
  refine (copyinstrLoop_spec hs (max + 1) va max [] (Nat.lt_succ_self max)).mono ?_
  rintro r t ⟨ht, out, hout, hc⟩
  exact ⟨ht, by rw [hout]; exact hc⟩

/-! ### `copyout` -/

/-- The bytes `xs` were stored at address `a` of user memory, and nothing else changed. -/
structure Stored (s t : Machine) (root : Frame) (a : ℕ) (xs : List UInt8) : Prop where
  rest : t = s.setMem t.mem
  table : SameTable s.mem t.mem root
  space : UserSpace t root
  ubyte : ∀ x, ubyte t root x = if a ≤ x ∧ x < a + xs.length then xs[x - a]? else ubyte s root x
  other : ∀ f, (∀ p < 2 ^ 26, uframe s.mem root p ≠ some f) → t.mem f = s.mem f

theorem SameTable.uframe {m m' : Frame → Page} (h : SameTable m m' root) : uframe m' root = uframe m root := by
  funext p
  rw [Vm.uframe, Vm.uframe, h.lookup]

theorem SameTable.writable (h : SameTable s.mem t.mem root) : Writable t root a ↔ Writable s root a := by
  rw [Writable, Writable, h.lookup]

theorem Stored.refl (hs : UserSpace s root) (a : ℕ) : Stored s s root a [] :=
  ⟨rfl, ⟨rfl, rfl, fun _ => rfl⟩, hs, fun x => (if_neg (by simp)).symm, fun _ _ => rfl⟩

theorem Stored.trans {xs ys : List UInt8} (h : Stored s t root a xs) (h' : Stored t u root (a + xs.length) ys) :
    Stored s u root a (xs ++ ys) where
  rest := by rw [h'.rest, h.rest]; rfl
  table := ⟨h'.table.tables.trans h.table.tables, h'.table.lookup.trans h.table.lookup,
    fun p => (h'.table.slot p).trans (h.table.slot p)⟩
  space := h'.space
  ubyte x := by
    rw [h'.ubyte, h.ubyte, List.length_append]
    rcases Nat.lt_or_ge x a with hx | hx
    · rw [if_neg (by omega), if_neg (by omega), if_neg (by omega)]
    rcases Nat.lt_or_ge x (a + xs.length) with hx' | hx'
    · rw [if_neg (by omega), if_pos ⟨hx, hx'⟩, if_pos ⟨hx, by omega⟩, List.getElem?_append_left (by omega)]
    · rw [if_neg (show ¬ (a ≤ x ∧ x < a + xs.length) by omega)]
      by_cases hy : x < a + xs.length + ys.length
      · rw [if_pos ⟨hx', hy⟩, if_pos ⟨hx, by omega⟩, List.getElem?_append_right (by omega)]
        congr 1
        omega
      · rw [if_neg (by omega), if_neg (by omega)]
  other f hf := by
    rw [h'.other f (by rw [h.table.uframe]; exact hf), h.other f hf]

theorem stored_page (hs : UserSpace s root) {va : Word} (hva : va.toNat < MAXVA.toNat)
    (hf : uframe s.mem root (pageno va) = some f) {xs : List UInt8} (hxs : xs.length ≤ 4096 - va.toNat % 4096) :
    Stored s (s.setMem (update s.mem f (setBytes (s.mem f) (va.toNat % 4096) xs))) root va.toNat xs := by
  have hmod := Nat.mod_lt va.toNat (show 4096 > 0 by decide)
  rw [show MAXVA.toNat = 2 ^ 38 from rfl] at hva
  have hsame : ∀ g ∈ tables s.mem root, update s.mem f (setBytes (s.mem f) (va.toNat % 4096) xs) g = s.mem g :=
    fun g hg => update_of_ne (by rintro rfl; exact (hs.data _ _ hf).1 hg) ..
  have htab := sameTable hsame
  refine ⟨rfl, htab, ⟨hs.table.congr hsame, ?_, ?_⟩, fun x => ?_, fun g hg => update_of_ne ?_ ..⟩
  · show ∀ p f, uframe (update s.mem _ _) root p = some f → f ∉ tables (update s.mem _ _) root ∧ f ≠ 0
    rw [htab.uframe, htab.tables]
    exact hs.data
  · show ∀ p p' f, uframe (update s.mem _ _) root p = some f → uframe (update s.mem _ _) root p' = some f → p = p'
    rw [htab.uframe]
    exact hs.inj
  · rw [ubyte, ubyte]
    show (if x < MAXVA.toNat then (uframe (update s.mem _ _) root (x / 4096)).map _ else none) = _
    rw [htab.uframe]
    by_cases hpage : x / 4096 = pageno va
    · -- an address of this page
      have hlt : x < MAXVA.toNat := by
        rw [pageno] at hpage
        rw [show MAXVA.toNat = 2 ^ 38 from rfl]
        omega
      have hoff : va.toNat % 4096 ≤ x % 4096 ∧ x % 4096 < va.toNat % 4096 + xs.length ↔
          va.toNat ≤ x ∧ x < va.toNat + xs.length := by rw [pageno] at hpage; omega
      rw [hpage, hf, if_pos hlt, if_pos hlt, Option.map_some, Option.map_some]
      show some (getByte (update s.mem f _ f) (x % 4096)) = _
      rw [update_self, getByte_setBytes _ (by omega)]
      by_cases hin : va.toNat ≤ x ∧ x < va.toNat + xs.length
      · have hidx : x % 4096 - va.toNat % 4096 = x - va.toNat := by rw [pageno] at hpage; omega
        rw [if_pos (hoff.mpr hin), if_pos hin, hidx, List.getD_eq_getElem _ _ (by omega), List.getElem?_eq_getElem (by omega)]
      · rw [if_neg fun h => hin (hoff.mp h), if_neg hin]
    · have hout : ¬ (va.toNat ≤ x ∧ x < va.toNat + xs.length) := by rw [pageno] at hpage; omega
      rw [if_neg hout]
      cases hx : uframe s.mem root (x / 4096) with
      | none => rfl
      | some g =>
        have hgf : g ≠ f := by rintro rfl; exact hpage (hs.inj _ _ _ hx hf)
        show (if x < MAXVA.toNat then some (getByte (update s.mem f _ g) (x % 4096)) else none) =
          if x < MAXVA.toNat then some (getByte (s.mem g) (x % 4096)) else none
        rw [update_of_ne hgf]
  · rintro rfl
    exact hg (pageno va) (by rw [pageno]; omega) hf

/-- The result of a copy to user memory: how many bytes were stored, and why not more. -/
def CopiedOut (s t : Machine) (root : Frame) (a : ℕ) (src : List UInt8) (r : ℤ) : Prop :=
  ∃ n ≤ src.length, Stored s t root a (src.take n) ∧ (∀ i < n, Writable s root (a + i)) ∧
    ((r = 0 ∧ n = src.length) ∨ (r = -1 ∧ n < src.length ∧ ¬ Writable s root (a + n)))

theorem CopiedOut.none {src : List UInt8} (hs : UserSpace s root) (hlen : 0 < src.length) (h : ¬ Writable s root a) :
    CopiedOut s s root a src (-1) :=
  ⟨0, Nat.zero_le _, by rw [List.take_zero]; exact .refl hs a, fun i hi => absurd hi (Nat.not_lt_zero i),
    .inr ⟨rfl, hlen, h⟩⟩

theorem writable_page {va : Word} {pte : Word} (hva : va.toNat < MAXVA.toNat) (hl : lookup s.mem root (pageno va) = some pte)
    (hu : pte &&& PTE_U ≠ 0) (hw : pte &&& PTE_W ≠ 0) {j : ℕ} (hj : j < 4096 - va.toNat % 4096) :
    Writable s root (va.toNat + j) := by
  rw [show MAXVA.toNat = 2 ^ 38 from rfl] at hva
  have hpage : (va.toNat + j) / 4096 = pageno va := by rw [pageno]; omega
  exact ⟨by rw [show MAXVA.toNat = 2 ^ 38 from rfl]; omega, pte, by rw [hpage]; exact hl, hu, hw⟩

theorem CopiedOut.move {r : ℤ} (h : CopiedOut s t root a [] r) (b : ℕ) : CopiedOut s t root b [] r := by
  obtain ⟨n, hn, hst, -, hend⟩ := h
  obtain rfl : n = 0 := Nat.le_zero.mp hn
  refine ⟨0, le_rfl, ⟨hst.rest, hst.table, hst.space, fun x => ?_, hst.other⟩, fun i hi => absurd hi (Nat.not_lt_zero i), ?_⟩
  · rw [hst.ubyte x, if_neg (by simp), if_neg (by simp)]
  · rcases hend with h0 | ⟨-, hl, -⟩
    · exact .inl h0
    · exact absurd hl (Nat.lt_irrefl 0)

theorem CopiedOut.cons {src : List UInt8} {r : ℤ} (hn : n ≤ src.length) (h : Stored s t root a (src.take n))
    (hw : ∀ i < n, Writable s root (a + i)) (h' : CopiedOut t u root (a + n) (src.drop n) r) :
    CopiedOut s u root a src r := by
  obtain ⟨m, hm, hst, hwm, hend⟩ := h'
  have hlen : (src.take n).length = n := by rw [List.length_take, min_eq_left hn]
  rw [List.length_drop] at hm hend
  refine ⟨n + m, by omega, ?_, fun i hi => ?_, ?_⟩
  · rw [List.take_add]
    exact h.trans (by rw [hlen]; exact hst)
  · rcases Nat.lt_or_ge i n with h1 | h1
    · exact hw i h1
    · have := h.table.writable.mp (hwm (i - n) (by omega))
      rwa [show a + n + (i - n) = a + i by omega] at this
  · rcases hend with ⟨h0, hl⟩ | ⟨h1, hl, hno⟩
    · exact .inl ⟨h0, by omega⟩
    · exact .inr ⟨h1, by omega, fun hc => hno (h.table.writable.mpr (by rwa [← Nat.add_assoc] at hc))⟩

theorem copyoutLoop_spec : ∀ (rounds : ℕ) (va : Word) (src : List UInt8) (s : Machine), UserSpace s root →
    src.length < rounds → wp (copyoutLoop root rounds va src) (fun r t => CopiedOut s t root va.toNat src r) E s
  | 0, _, _, _, _, h => absurd h (Nat.not_lt_zero _)
  | rounds + 1, va, src, s, hs, hlt => by
    rw [copyoutLoop]
    by_cases hlen : 0 < src.length
    · rw [if_pos hlen]
      have hd := PGROUNDDOWN_toNat va
      have hno : pageno (PGROUNDDOWN va) = pageno va := by rw [pageno, hd]; omega
      by_cases hmax : PGROUNDDOWN va ≥ MAXVA
      · rw [if_pos hmax]
        refine CopiedOut.none hs hlen fun hw => ?_
        have h1 := BitVec.le_def.mp hmax
        have h2 := hw.1
        rw [hd, pageno] at h1
        omega
      have hva : va.toNat < MAXVA.toNat := by
        have h1 := BitVec.lt_def.mp (BitVec.not_le.mp hmax)
        rw [hd, pageno, show MAXVA.toNat = 2 ^ 38 from rfl] at h1
        rw [show MAXVA.toNat = 2 ^ 38 from rfl]
        omega
      rw [if_neg hmax]
      refine (walk_false (BitVec.not_le.mp hmax)).bind ?_
      rintro r t ⟨hts, hr⟩
      rw [hno] at hr
      rw [hts]
      cases hq : slot s.mem root (pageno va) with
      | none =>
        rw [hq] at hr
        subst hr
        refine CopiedOut.none hs hlen ?_
        rintro ⟨_, pte, hl, _⟩
        rw [← pageno, slot_none hq] at hl
        cases hl
      | some q =>
        rw [hq] at hr
        subst hr
        have hmax : va < MAXVA := lt_MAXVA (by rw [show MAXVA.toNat = 2 ^ 38 from rfl] at hva; rw [pageno]; omega)
        have hlook := lookup_of_slot (Nat.lt_trans (pageno_lt hmax) (by decide)) hq
        simp only [load, wp_bind, wp_get, wp_pure]
        by_cases hbad : entry s.mem q &&& PTE_V = 0 ∨ entry s.mem q &&& PTE_U = 0 ∨ entry s.mem q &&& PTE_W = 0
        · rw [if_pos hbad]
          refine CopiedOut.none hs hlen ?_
          rintro ⟨_, pte, hl, hu, hw⟩
          rw [← pageno, hlook] at hl
          obtain ⟨rfl, hv⟩ := valid_eq_some hl
          rcases hbad with h | h | h
          · exact hv h
          · exact hu h
          · exact hw h
        · obtain ⟨hv, hu, hw⟩ : _ ∧ _ ∧ _ := by rw [not_or, not_or] at hbad; exact hbad
          rw [valid_pos hv] at hlook
          have hf : uframe s.mem root (pageno va) = some (frame (PTE2PA (entry s.mem q))) := by
            rw [uframe, hlook]; exact if_pos hu
          obtain ⟨hoff, hleft⟩ := round_offset va
          rw [if_neg hbad]
          simp only [memmove, wp_bind, wp_modify, hoff, hleft]
          have hmod := Nat.mod_lt va.toNat (show 4096 > 0 by decide)
          generalize hn : min (4096 - va.toNat % 4096) src.length = n
          have hfit : (src.take n).length ≤ 4096 - va.toNat % 4096 := by rw [List.length_take]; omega
          have hst := stored_page hs hva hf hfit
          have hwn : ∀ i < n, Writable s root (va.toNat + i) := fun i hi => writable_page hva hlook hu hw (by omega)
          refine (copyoutLoop_spec rounds (PGROUNDDOWN va + PGSIZE) (src.drop n) _ hst.space
            (by rw [List.length_drop]; omega)).mono fun r t ht => ?_
          rcases Nat.lt_or_ge n src.length with hmore | hdone
          · rw [round_next hva, show 4096 - va.toNat % 4096 = n by omega] at ht
            exact ht.cons (by omega) hst hwn
          · -- nothing is left to copy, whatever the address
            have hnil : src.drop n = [] := List.drop_eq_nil_of_le hdone
            rw [hnil] at ht
            exact CopiedOut.cons (by omega) hst hwn (by rw [hnil]; exact ht.move _)
    · rw [if_neg hlen]
      refine ⟨0, Nat.zero_le _, by rw [List.take_zero]; exact .refl hs _, fun i hi => absurd hi (Nat.not_lt_zero i), .inl ⟨rfl, by omega⟩⟩

theorem copyout_spec (hs : UserSpace s root) (va : Word) (src : List UInt8) :
    wp (copyout root va src) (fun r t => CopiedOut s t root va.toNat src r) E s :=
  copyoutLoop_spec (src.length + 1) va src s hs (Nat.lt_succ_self _)

/-! ### Exact and confined -/

/-- `copyin` of `len` bytes from `a` returned `r`, with these bytes in `dst`. -/
structure CopyinExact (s t : Machine) (root : Frame) (a len : ℕ) (r : ℤ) (dst : List UInt8) : Prop where
  result : r = 0 ∨ r = -1
  zero_iff : r = 0 ↔ ∀ i < len, (ubyte s root (a + i)).isSome
  exact : r = 0 → dst.map some = slice (ubyte s root) a len
  confined : t = s ∧ ∃ n ≤ len, dst.map some = slice (ubyte s root) a n

/-- `copyinstr` of at most `max` bytes from `a` returned `r`, with these bytes in `dst`. -/
structure CopyinstrExact (s t : Machine) (root : Frame) (a max : ℕ) (r : ℤ) (dst : List UInt8) : Prop where
  result : r = 0 ∨ r = -1
  zero_iff : r = 0 ↔ ∃ k < max, ubyte s root (a + k) = some 0 ∧ ∀ i < k, (ubyte s root (a + i)).isSome
  exact : r = 0 → ∃ k < max, dst.map some = slice (ubyte s root) a (k + 1) ∧ ubyte s root (a + k) = some 0 ∧
    ∀ i < k, ubyte s root (a + i) ≠ some 0
  confined : t = s ∧ ∃ n ≤ max, dst.map some = slice (ubyte s root) a n

/-- `copyout` of `src` to `a` returned `r`. -/
structure CopyoutExact (s t : Machine) (root : Frame) (a : ℕ) (src : List UInt8) (r : ℤ) : Prop where
  result : r = 0 ∨ r = -1
  zero_iff : r = 0 ↔ ∀ i < src.length, Writable s root (a + i)
  exact : r = 0 → ∀ x, ubyte t root x = if a ≤ x ∧ x < a + src.length then src[x - a]? else ubyte s root x
  inside : ∀ x, ¬ (a ≤ x ∧ x < a + src.length) → ubyte t root x = ubyte s root x
  confined : t = s.setMem t.mem ∧ ∀ f, (∀ p < 2 ^ 26, uframe s.mem root p ≠ some f) → t.mem f = s.mem f

theorem map_some_ubytes (h : ∀ i < n, (ubyte s root (a + i)).isSome) :
    (ubytes s root a n).map some = slice (ubyte s root) a n := by
  rw [ubytes, slice, slice, List.map_map]
  refine List.map_congr_left fun j hj => ?_
  obtain ⟨c, hc⟩ := Option.isSome_iff_exists.mp (h j (List.mem_range.mp hj))
  rw [Function.comp_apply, hc]; rfl

theorem CopiedIn.exact {len : ℕ} {r : ℤ} {out : List UInt8} (h : CopiedIn s root a len r out) :
    CopyinExact s s root a len r out := by
  obtain ⟨n, hn, rfl, hsome, hend⟩ := h
  have hmap := map_some_ubytes hsome
  rcases hend with ⟨rfl, rfl⟩ | ⟨rfl, hlt, hno⟩
  · exact ⟨.inl rfl, ⟨fun _ => hsome, fun _ => rfl⟩, fun _ => hmap, rfl, n, le_rfl, hmap⟩
  · refine ⟨.inr rfl, ⟨fun h => absurd h (by decide), fun h => ?_⟩, fun h => absurd h (by decide), rfl, n, hn, hmap⟩
    have := h n hlt
    rw [hno] at this
    cases this

theorem CopiedStr.exact {max : ℕ} {r : ℤ} {out : List UInt8} (h : CopiedStr s root a max r out) :
    CopyinstrExact s s root a max r out := by
  have hsome : ∀ {k}, (∀ i < k, ∃ c ≠ 0, ubyte s root (a + i) = some c) → ∀ i < k, (ubyte s root (a + i)).isSome :=
    fun hk i hi => by obtain ⟨c, -, hc⟩ := hk i hi; rw [hc]; rfl
  rcases h with ⟨rfl, k, hk, rfl, hz, hnz⟩ | ⟨rfl, n, hn, rfl, hnz, hend⟩
  · have hmap : (ubytes s root a (k + 1)).map some = slice (ubyte s root) a (k + 1) := map_some_ubytes fun i hi => by
      rcases Nat.lt_succ_iff_lt_or_eq.mp hi with h | rfl
      · exact hsome hnz i h
      · rw [hz]; rfl
    refine ⟨.inl rfl, ⟨fun _ => ⟨k, hk, hz, hsome hnz⟩, fun _ => rfl⟩, fun _ => ⟨k, hk, hmap, hz, fun i hi h0 => ?_⟩,
      rfl, k + 1, hk, hmap⟩
    obtain ⟨c, hc0, hc⟩ := hnz i hi
    rw [hc] at h0
    exact hc0 (Option.some.inj h0)
  · have hmap := map_some_ubytes (hsome hnz)
    refine ⟨.inr rfl, ⟨fun h => absurd h (by decide), ?_⟩, fun h => absurd h (by decide), rfl, n, hn, hmap⟩
    rintro ⟨k, hk, hz, hall⟩
    -- a NUL would have been found before the hole or the end
    rcases Nat.lt_or_ge k n with hkn | hkn
    · obtain ⟨c, hc0, hc⟩ := hnz k hkn
      rw [hc] at hz
      exact absurd (Option.some.inj hz) hc0
    · have hno := hend (by omega)
      rcases Nat.lt_or_eq_of_le hkn with h | rfl
      · have := hall n h
        rw [hno] at this
        cases this
      · rw [hno] at hz; cases hz

theorem CopiedOut.exact {src : List UInt8} {r : ℤ} (h : CopiedOut s t root a src r) : CopyoutExact s t root a src r := by
  obtain ⟨n, hn, hst, hw, hend⟩ := h
  have hlen : (src.take n).length = n := by rw [List.length_take, min_eq_left hn]
  have hin : ∀ x, ¬ (a ≤ x ∧ x < a + src.length) → ubyte t root x = ubyte s root x := fun x hx => by
    rw [hst.ubyte x, hlen, if_neg (by omega)]
  rcases hend with ⟨rfl, rfl⟩ | ⟨rfl, hlt, hno⟩
  · refine ⟨.inl rfl, ⟨fun _ => hw, fun _ => rfl⟩, fun _ x => ?_, hin, hst.rest, hst.other⟩
    rw [hst.ubyte x, List.take_length]
  · exact ⟨.inr rfl, ⟨fun h => absurd h (by decide), fun h => absurd (h n hlt) hno⟩, fun h => absurd h (by decide), hin,
      hst.rest, hst.other⟩

/-- For every page table whose user pages are in distinct frames, every address and every length:
    CORRECT (EXACT): the copies return 0 exactly if all pages they need are there for the user (and for `copyout`
    writable), and then have copied exactly the bytes asked for; `copyinstr` exactly if it meets a NUL before `max`
    bytes and before a hole. CORRECT (CONFINED): they do not panic, read user bytes only, and write only inside the
    range given, in frames of user pages. -/
theorem user_copies_exact (hs : UserSpace s root) (va : Word) :
    (∀ len, wp (copyin root va len) (fun r t => CopyinExact s t root va.toNat len r.1 r.2) (fun _ => False) s) ∧
    (∀ src, wp (copyout root va src) (fun r t => CopyoutExact s t root va.toNat src r) (fun _ => False) s) ∧
    ∀ max, wp (copyinstr root va max) (fun r t => CopyinstrExact s t root va.toNat max r.1 r.2) (fun _ => False) s := by
  refine ⟨fun len => ?_, fun src => ?_, fun max => ?_⟩
  · refine (copyin_spec hs va len).mono ?_
    rintro r t ⟨ht, hc⟩
    rw [ht]
    exact hc.exact
  · exact (copyout_spec hs va src).mono fun r t hc => hc.exact
  · refine (copyinstr_spec hs va max).mono ?_
    rintro r t ⟨ht, hc⟩
    rw [ht]
    exact hc.exact

/-- The bare machine with one page mapped for the user. -/
def Machine.onePage : Machine :=
  ((mappages 0x80100#52 0#64 PGSIZE 0x80200000#64 (PTE_R ||| PTE_W ||| PTE_U)).after .bare).getD .bare

theorem onePage_space : UserSpace .onePage 0x80100#52 := by
  have hb : Blank Machine.bare.mem 0x80100#52 := blank rfl
  have hask : Asked 0#64 PGSIZE 0 0 := ⟨rfl, rfl, by decide⟩
  have hrun : ((mappages 0x80100#52 0#64 PGSIZE 0x80200000#64 (PTE_R ||| PTE_W ||| PTE_U)) .bare).toOption.any
      (fun r => decide (r.1 = 0)) = true := by decide +kernel
  obtain ⟨r, t, hm, hk, hr⟩ := (mappages_spec (E := fun _ => False) hask 0x80200000#64 (PTE_R ||| PTE_W ||| PTE_U)
    bare_good fun x _ _ => by rw [hb.lookup]).returns
  have hone : Machine.onePage = t := by rw [Machine.onePage, Prog.after, hm]; rfl
  rw [hm] at hrun
  have hr0 : r = 0 := of_decide_eq_true hrun
  have hl : lookup t.mem 0x80100#52 = mapped (fun _ => none) 0 1 0x80200000#64 (PTE_R ||| PTE_W ||| PTE_U) := by
    rcases hr with ⟨-, hl⟩ | ⟨h1, -⟩
    · rw [hl, hb.lookup]
    · rw [hr0] at h1; cases h1
  -- the one user page is page 0
  have hu : ∀ p f, uframe t.mem 0x80100#52 p = some f → p = 0 ∧ f = 0x80200#52 := fun p f hf => by
    rw [uframe, hl, mapped] at hf
    split at hf
    · obtain rfl : p = 0 := by omega
      exact ⟨rfl, (Option.some.inj hf).symm.trans (by decide)⟩
    · cases hf
  rw [hone]
  refine ⟨hk.table, fun p f hf => ?_, fun p p' f hf hf' => by rw [(hu p f hf).1, (hu p' f hf').1]⟩
  obtain ⟨-, rfl⟩ := hu p f hf
  refine ⟨fun hm => ?_, by decide⟩
  have hmem : 0x80200#52 ∈ held .bare 0x80100#52 := hk.held ▸ mem_held.mpr (.inr hm)
  rw [held, hb.tables] at hmem
  revert hmem
  decide

/-- A copy across the end of the only page, and one inside it. -/
theorem user_copies_exact_onePage :
    wp (copyout 0x80100#52 0xffe#64 [1, 2, 3, 4]) (fun r t => CopyoutExact .onePage t 0x80100#52 0xffe [1, 2, 3, 4] r)
      (fun _ => False) .onePage ∧
    wp (copyin 0x80100#52 0xffe#64 2) (fun r t => CopyinExact .onePage t 0x80100#52 0xffe 2 r.1 r.2) (fun _ => False) .onePage :=
  ⟨(user_copies_exact onePage_space 0xffe#64).2.1 [1, 2, 3, 4], (user_copies_exact onePage_space 0xffe#64).1 2⟩

end Minios.Vm
