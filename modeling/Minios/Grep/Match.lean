import Mathlib.Data.List.Basic

/-! `user/grep.c`: the regular expression matcher.

        pattern    h  .*  o  $
        items      lit h, star ., lit o, eol
        text       h │ e l l │ o │            each item has a piece of the text, one after the other

    `matchhere` takes the pattern from the left, `matchstar` tries the pieces of a `c*` from the shortest on. Strings are
    lists; the end of the list is the NUL. -/

namespace Minios.Grep

abbrev STAR : UInt8 := 42
abbrev DOLLAR : UInt8 := 36
abbrev DOT : UInt8 := 46
abbrev CARET : UInt8 := 94

/-- `matchstar(c, re, text)`: search for `c*re` at beginning of text; `here` is `matchhere` of `re`. -/
def matchstar (here : List UInt8 → Bool) (c : UInt8) : List UInt8 → Bool
  | [] => here []
  | t :: text => here (t :: text) || (t == c || c == DOT) && matchstar here c text

/-- `*text != '\0' && (c == '.' || c == *text)` -/
def matchchar (c : UInt8) (text : List UInt8) : Bool := text.head?.any fun t => c == DOT || c == t

/-- Search for `re` at beginning of text. -/
def matchhere : List UInt8 → List UInt8 → Bool
  | [], _ => true
  | [c], text => if c = DOLLAR then text.isEmpty else matchchar c text
  | c :: b :: re, text =>
    if b = STAR then matchstar (matchhere re) c text
    else matchchar c text && matchhere (b :: re) text.tail

/-- The loop of `match`: it must look at the empty string. -/
def matchLoop (re : List UInt8) : List UInt8 → Bool
  | [] => matchhere re []
  | t :: text => matchhere re (t :: text) || matchLoop re text

/-- `match(re, text)` -/
def matchText : List UInt8 → List UInt8 → Bool
  | [], text => matchLoop [] text
  | c :: re, text => if c = CARET then matchhere re text else matchLoop (c :: re) text

/-! ### What a pattern means -/

inductive Item where
  | star (c : UInt8)
  | eol
  | any
  | lit (c : UInt8)
  deriving DecidableEq

/-- The pattern read from left to right. -/
def items : List UInt8 → List Item
  | [] => []
  | [c] => if c = DOLLAR then [.eol] else if c = DOT then [.any] else [.lit c]
  | c :: b :: re => if b = STAR then .star c :: items re else (if c = DOT then .any else .lit c) :: items (b :: re)

/-- An item matches the piece `p` of the text, `rest` being what comes after it. -/
def Item.Matches (p rest : List UInt8) : Item → Prop
  | .star c => ∀ t ∈ p, c = DOT ∨ t = c
  | .eol => p = [] ∧ rest = []
  | .any => ∃ t, p = [t]
  | .lit c => p = [c]

/-- The items match consecutive pieces, from the beginning of the text on. -/
def Matches : List Item → List UInt8 → Prop
  | [], _ => True
  | item :: its, text => ∃ p rest, text = p ++ rest ∧ item.Matches p rest ∧ Matches its rest

/-- The language of a pattern: the text has a position, its start if the pattern begins with `^`, from which the rest of
    the pattern matches. -/
def Selects (re text : List UInt8) : Prop :=
  if re.head? = some CARET then Matches (items re.tail) text
  else ∃ before rest, text = before ++ rest ∧ Matches (items re) rest

/-! ### The matcher decides it -/

variable {c : UInt8} {re text : List UInt8} {its : List Item}

/-- STAR: the shortest piece that will do is found if there is any. -/
theorem matchstar_iff (here : List UInt8 → Bool) (c : UInt8) : ∀ text : List UInt8, matchstar here c text = true ↔
    ∃ p rest, text = p ++ rest ∧ (∀ t ∈ p, c = DOT ∨ t = c) ∧ here rest = true
  | [] => by
      rw [matchstar]
      refine ⟨fun h => ⟨[], [], rfl, nofun, h⟩, ?_⟩
      rintro ⟨p, rest, htext, -, h⟩
      obtain ⟨-, rfl⟩ := List.append_eq_nil_iff.mp htext.symm
      exact h
  | t :: text => by
      rw [matchstar, Bool.or_eq_true, Bool.and_eq_true, Bool.or_eq_true, beq_iff_eq, beq_iff_eq, matchstar_iff here c text]
      constructor
      · rintro (h | ⟨ht, p, rest, rfl, hp, h⟩)
        · exact ⟨[], t :: text, rfl, nofun, h⟩
        · refine ⟨t :: p, rest, rfl, fun x hx => ?_, h⟩
          rcases List.mem_cons.mp hx with rfl | hx
          · exact ht.symm
          · exact hp x hx
      · rintro ⟨p, rest, htext, hp, h⟩
        cases p with
        | nil => exact .inl (by rw [htext]; exact h)
        | cons x p =>
          obtain ⟨rfl, rfl⟩ := List.cons.inj htext
          exact .inr ⟨(hp t List.mem_cons_self).symm, p, rest, rfl, fun y hy => hp y (List.mem_cons_of_mem _ hy), h⟩

theorem matches_char (c : UInt8) (its : List Item) (text : List UInt8) :
    Matches ((if c = DOT then .any else .lit c) :: its) text ↔ matchchar c text = true ∧ Matches its text.tail := by
  rw [Matches]
  constructor
  · rintro ⟨p, rest, rfl, hp, h⟩
    split at hp
    · rename_i hc
      obtain ⟨t, rfl⟩ := hp
      exact ⟨by simp [matchchar, hc], h⟩
    · cases hp
      exact ⟨by simp [matchchar], h⟩
  · rintro ⟨hc, h⟩
    cases text with
    | nil => cases hc
    | cons t text =>
      have hc : c = DOT ∨ c = t := by simpa [matchchar] using hc
      refine ⟨[t], text, rfl, ?_, h⟩
      split
      · exact ⟨t, rfl⟩
      · rename_i hno
        rw [hc.resolve_left hno]
        exact rfl

theorem matches_eol : Matches [.eol] text ↔ text = [] := by
  rw [Matches]
  constructor
  · rintro ⟨p, rest, rfl, ⟨rfl, rfl⟩, -⟩
    rfl
  · rintro rfl
    exact ⟨[], [], rfl, ⟨rfl, rfl⟩, trivial⟩

/-- HERE: the matcher follows the items. -/
theorem matchhere_iff : ∀ re text : List UInt8, matchhere re text = true ↔ Matches (items re) text
  | [], text => iff_of_true (by rw [matchhere]) trivial
  | [c], text => by
      rw [matchhere, items]
      by_cases hc : c = DOLLAR
      · rw [if_pos hc, if_pos hc, List.isEmpty_iff, matches_eol]
      rw [if_neg hc, if_neg hc, ← apply_ite (fun x => [x]), matches_char]
      exact (and_iff_left trivial).symm
  | c :: b :: re, text => by
      rw [matchhere, items]
      by_cases hb : b = STAR
      · rw [if_pos hb, if_pos hb, matchstar_iff, Matches]
        exact exists_congr fun p => exists_congr fun rest => by rw [matchhere_iff re rest]; rfl
      rw [if_neg hb, if_neg hb, matches_char, Bool.and_eq_true, matchhere_iff (b :: re) text.tail]

theorem matchLoop_iff (re : List UInt8) : ∀ text : List UInt8, matchLoop re text = true ↔
    ∃ before rest, text = before ++ rest ∧ Matches (items re) rest
  | [] => by
      rw [matchLoop, matchhere_iff]
      refine ⟨fun h => ⟨[], [], rfl, h⟩, ?_⟩
      rintro ⟨before, rest, htext, h⟩
      obtain ⟨-, rfl⟩ := List.append_eq_nil_iff.mp htext.symm
      exact h
  | t :: text => by
      rw [matchLoop, Bool.or_eq_true, matchhere_iff, matchLoop_iff re text]
      constructor
      · rintro (h | ⟨before, rest, rfl, h⟩)
        · exact ⟨[], t :: text, rfl, h⟩
        · exact ⟨t :: before, rest, rfl, h⟩
      · rintro ⟨before, rest, htext, h⟩
        cases before with
        | nil => exact .inl (by rw [htext]; exact h)
        | cons x before =>
          obtain ⟨rfl, rfl⟩ := List.cons.inj htext
          exact .inr ⟨before, rest, rfl, h⟩

/-- CORRECT (the matcher): a text is selected just if it is in the language of the pattern. -/
theorem match_decides (re text : List UInt8) : matchText re text = true ↔ Selects re text := by
  rw [Selects]
  cases re with
  | nil => rw [if_neg nofun, matchText, matchLoop_iff]
  | cons c re =>
    rw [matchText]
    by_cases hc : c = CARET
    · rw [if_pos hc, if_pos (by rw [hc]; rfl)]
      exact matchhere_iff re text
    · rw [if_neg hc, if_neg (show (c :: re).head? ≠ some CARET from fun h => hc (Option.some.inj h))]
      exact matchLoop_iff (c :: re) text

/-- `^h.*o$` on `hello` and on `hell`. -/
example : matchText [94, 104, 46, 42, 111, 36] [104, 101, 108, 108, 111] = true ∧
    matchText [94, 104, 46, 42, 111, 36] [104, 101, 108, 108] = false := by decide

end Minios.Grep
