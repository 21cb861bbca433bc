import Minios.Grep.Match
import Minios.Schemes.Lines

/-! `user/grep.c`: `grep` and its buffer.

        buf    [ end of a line that is not whole yet | what read() returned ............ ]  NUL
                 0 ...                              m                          1023 at most

    Whole lines are matched and written; the rest is moved to the front. A line that does not fit with its newline fills the
    buffer; there is no room left to read into, `read` returns 0, and that looks like the end of the input. -/

namespace Minios.Grep
open Schemes

abbrev NL : UInt8 := 10

/-- `sizeof(buf)` -/
abbrev BUFSZ : ℕ := 1024

/-- `strchr` of the library: where `c` is in the string, which ends at a NUL. -/
def strchr (c : UInt8) : List UInt8 → Option ℕ
  | [] => none
  | b :: p => if b = 0 then none else if b = c then some 0 else (strchr c p).map (· + 1)

/-- The inner loop of `grep`, `p` being what the buffer holds from `p` on: what is written, and what is left. -/
def grepBuf (pattern : List UInt8) : ℕ → List UInt8 → List (List UInt8) × List UInt8
  | 0, p => ([], p)
  | rounds + 1, p =>
    match strchr NL p with
    | none => ([], p)
    | some q =>
      let (out, rest) := grepBuf pattern rounds (p.drop (q + 1))
      if matchText pattern (p.take q) then (p.take (q + 1) :: out, rest) else (out, rest)

/-- `read(fd, _, size)`: something of the input, how much is up to `chunk`; nothing just if `size` is 0 or there is no
    more input. -/
def readSome (chunk size : ℕ) (input : List UInt8) : List UInt8 := input.take (min size (max 1 chunk))

/-- The loop of `grep`: what is written, with `buf` (its first `m` bytes) left from before; `chunk j`: how much read `j`
    returns. -/
def grepLoop (pattern : List UInt8) (chunk : ℕ → ℕ) : ℕ → ℕ → List UInt8 → List UInt8 → List (List UInt8)
  | 0, _, _, _ => []
  | rounds + 1, j, buf, input =>
    let got := readSome (chunk j) (BUFSZ - buf.length - 1) input
    if got.length > 0 then
      let (out, rest) := grepBuf pattern (buf ++ got).length (buf ++ got)
      out ++ grepLoop pattern chunk rounds (j + 1) rest (input.drop got.length)
    else []

/-- `grep(pattern, fd)`: the texts it writes, one after the other. Every read but the last takes a byte at least. -/
def grep (pattern : List UInt8) (chunk : ℕ → ℕ) (input : List UInt8) : List (List UInt8) :=
  grepLoop pattern chunk (input.length + 1) 0 [] input

/-! ### One buffer -/

/-- A line: neither NUL nor newline inside. -/
def IsLine (l : List UInt8) : Prop := 0 ∉ l ∧ NL ∉ l

variable {pattern : List UInt8} {chunk : ℕ → ℕ} {l tail : List UInt8} {ls : List (List UInt8)}

/-- The lines that match, as they are written. -/
def matching (pattern : List UInt8) (ls : List (List UInt8)) : List (List UInt8) :=
  (ls.filter (matchText pattern)).map (· ++ [NL])

theorem matching_append (pattern : List UInt8) (ls ms : List (List UInt8)) :
    matching pattern (ls ++ ms) = matching pattern ls ++ matching pattern ms := by
  rw [matching, List.filter_append, List.map_append]
  rfl

theorem strchr_line (h : IsLine l) (p : List UInt8) : strchr NL (l ++ NL :: p) = some l.length := by
  induction l with
  | nil => rw [List.nil_append, strchr, if_neg (by decide), if_pos rfl]; rfl
  | cons b l ih =>
    obtain ⟨h0, hnl⟩ := h
    rw [List.mem_cons, not_or] at h0 hnl
    rw [List.cons_append, strchr, if_neg (Ne.symm h0.1), if_neg (Ne.symm hnl.1), ih ⟨h0.2, hnl.2⟩]
    rfl

theorem strchr_none : ∀ {p : List UInt8}, NL ∉ p → strchr NL p = none
  | [], _ => rfl
  | b :: p, h => by
      rw [List.mem_cons, not_or] at h
      rw [strchr, if_neg (Ne.symm h.1), strchr_none h.2]
      split <;> rfl

/-- BUFFER: the whole lines in it are dealt with, and the piece after them is left. -/
theorem grepBuf_lines (htail : NL ∉ tail) : ∀ {ls : List (List UInt8)} {rounds : ℕ}, (∀ l ∈ ls, IsLine l) → ls.length ≤ rounds →
    grepBuf pattern rounds (unlines NL ls ++ tail) = (matching pattern ls, tail)
  | [], 0, _, _ => rfl
  | [], rounds + 1, _, _ => by rw [unlines_nil, List.nil_append, grepBuf, strchr_none htail]; rfl
  | l :: ls, rounds + 1, hls, hr => by
      have hl := hls l List.mem_cons_self
      have ih : grepBuf pattern rounds (unlines NL ls ++ tail) = _ :=
        grepBuf_lines htail (fun m hm => hls m (List.mem_cons_of_mem _ hm)) (Nat.le_of_succ_le_succ hr)
      have htext : unlines NL (l :: ls) ++ tail = l ++ NL :: (unlines NL ls ++ tail) := by
        rw [unlines_cons, List.append_assoc, List.cons_append]
      have hdrop : (l ++ NL :: (unlines NL ls ++ tail)).drop (l.length + 1) = unlines NL ls ++ tail := by simp
      have htake : (l ++ NL :: (unlines NL ls ++ tail)).take l.length = l := by simp
      have htake' : (l ++ NL :: (unlines NL ls ++ tail)).take (l.length + 1) = l ++ [NL] := by
        rw [List.take_length_add_append]
        rfl
      rw [htext, grepBuf, strchr_line hl]
      simp only [hdrop, htake, htake', ih, matching, List.filter_cons]
      split <;> rfl

/-! ### The whole input -/

/-- The line fits into the buffer with its newline. -/
def Fits (l : List UInt8) : Bool := l.length + 1 < BUFSZ

theorem readSome_prefix (c size : ℕ) (input : List UInt8) :
    readSome c size input ++ input.drop (readSome c size input).length = input := by
  rw [readSome, List.length_take]
  rcases Nat.le_total (min size (max 1 c)) input.length with h | h
  · rw [Nat.min_eq_left h, List.take_append_drop]
  · rw [Nat.min_eq_right h, List.drop_length, List.append_nil, List.take_of_length_le h]

theorem readSome_length_le (c size : ℕ) (input : List UInt8) : (readSome c size input).length ≤ size := by
  rw [readSome, List.length_take]
  omega

/-- Nothing is read at the end of the input, and when there is no room. -/
theorem readSome_nil {c size : ℕ} {input : List UInt8} (h : ¬ (readSome c size input).length > 0) :
    input = [] ∨ size = 0 := by
  rw [readSome, List.length_take] at h
  rcases Nat.eq_zero_or_pos input.length with h0 | h0
  · exact .inl (List.length_eq_zero_iff.mp h0)
  · exact .inr (by omega)

/-- LOOP: what is in the buffer begins the next line; up to the first line that does not fit, the lines that match are
    written. The induction is on the rounds, of which there are enough. -/
theorem grepLoop_lines : ∀ {rounds j : ℕ} {buf input : List UInt8} {ls : List (List UInt8)}, (∀ l ∈ ls, IsLine l) →
    buf ++ input = unlines NL ls → NL ∉ buf → buf.length < BUFSZ → input.length < rounds →
    grepLoop pattern chunk rounds j buf input = matching pattern (ls.takeWhile Fits)
  | rounds + 1, j, buf, input, ls, hls, htext, hbuf, hlen, hr => by
      rw [grepLoop]
      dsimp only
      have hread := readSome_prefix (chunk j) (BUFSZ - buf.length - 1) input
      have hle := readSome_length_le (chunk j) (BUFSZ - buf.length - 1) input
      split
      · rename_i hgot
        generalize readSome (chunk j) (BUFSZ - buf.length - 1) input = got at hread hle hgot ⊢
        have hgotle : got.length ≤ input.length := by
          rw [← hread, List.length_append]
          exact Nat.le_add_right _ _
        rw [← hread, ← List.append_assoc] at htext
        obtain ⟨done, rest, tail, rfl, hdone, htail, hno⟩ := unlines_cut htext fun l hl => (hls l hl).2
        have hshort : (buf ++ got).length < BUFSZ := by
          rw [List.length_append]
          omega
        have hfits : ∀ l ∈ done, Fits l = true := fun l hl => by
          have := length_le_unlines NL hl
          rw [hdone, List.length_append] at hshort
          exact decide_eq_true (by omega)
        have hrounds : done.length ≤ (buf ++ got).length := by
          have := length_unlines NL done
          rw [hdone, List.length_append]
          omega
        have hlsd : ∀ l ∈ done, IsLine l := fun l hl => hls l (List.mem_append_left _ hl)
        have hbufs : grepBuf pattern (buf ++ got).length (unlines NL done ++ tail) = _ := grepBuf_lines hno hlsd hrounds
        rw [← hdone] at hbufs
        have htaillen : tail.length < BUFSZ := by
          rw [hdone, List.length_append] at hshort
          omega
        simp only [hbufs]
        rw [grepLoop_lines (fun l hl => hls l (List.mem_append_right _ hl)) htail hno htaillen
          (by rw [List.length_drop]; omega), ← matching_append, List.takeWhile_append_of_pos hfits]
      · rename_i hgot
        cases ls with
        | nil => rfl
        | cons l ls =>
          have hhead := length_le_head htext hbuf
          have hlong : Fits l = false := by
            rcases readSome_nil hgot with rfl | hfull
            · rw [List.append_nil] at htext
              exact absurd (unlines_eq_nil (htext ▸ hbuf)) (List.cons_ne_nil l ls)
            · exact decide_eq_false (by omega)
          rw [List.takeWhile_cons_of_neg (by rw [hlong]; exact Bool.false_ne_true)]
          rfl

theorem grep_lines (hls : ∀ l ∈ ls, IsLine l) :
    grep pattern chunk (unlines NL ls) = matching pattern (ls.takeWhile Fits) :=
  grepLoop_lines hls rfl nofun (by decide) (Nat.lt_succ_self _)

/-- CORRECT (grep): all the lines that match are written just if none of them comes with or after a line that does not
    fit. -/
theorem grep_writes_matching (hls : ∀ l ∈ ls, IsLine l) : grep pattern chunk (unlines NL ls) = matching pattern ls ↔
    ∀ l ∈ ls.dropWhile Fits, matchText pattern l = false := by
  have hsplit := matching_append pattern (ls.takeWhile Fits) (ls.dropWhile Fits)
  rw [List.takeWhile_append_dropWhile] at hsplit
  rw [grep_lines hls, hsplit, List.self_eq_append_right, matching, List.map_eq_nil_iff, List.filter_eq_nil_iff]
  simp

/-- `ab` matches `b`, and then there is a line `c`. -/
theorem grep_writes_matching_short : grep [98] (fun _ => 2) (unlines NL [[97, 98], [99]]) = [[97, 98, 10]] := by
  have hls : ∀ l ∈ [[97, 98], [99]], IsLine l := by
    simp only [IsLine]
    decide
  exact ((grep_writes_matching hls).mpr (by decide)).trans (by decide)

/-- A line of 1023 bytes that matches is not written. -/
theorem grep_misses_long_line : grep [97] (fun _ => 512) (unlines NL [List.replicate 1023 97]) = [] ∧
    matchText [97] (List.replicate 1023 97) = true := by
  have hls : ∀ l ∈ [List.replicate 1023 97], IsLine l := by
    intro l hl
    obtain rfl := List.mem_singleton.mp hl
    exact ⟨fun h => absurd (List.eq_of_mem_replicate h) (by decide), fun h => absurd (List.eq_of_mem_replicate h) (by decide)⟩
  refine ⟨?_, ?_⟩
  · rw [grep_lines hls, List.takeWhile_cons_of_neg (by rw [Fits, List.length_replicate]; decide)]
    rfl
  · rw [show 1023 = 1022 + 1 from rfl, List.replicate_succ, matchText, if_neg (by decide), matchLoop]
    rfl

end Minios.Grep
