import Minios.Schemes.Lines

/-! `user/xargs.c`: one command per line.

        input      a b ↵ c ↵ d
        execs      cmd args (a b) │ cmd args c │ cmd args d

    Bytes are collected in a buffer until a newline comes or the input ends. The buffer has 512 bytes; what of a line does
    not fit is dropped, without a word. -/

namespace Minios.Xargs
open Schemes

abbrev NL : UInt8 := 10

/-- `sizeof(buf) - 1` -/
abbrev LIMIT : ℕ := 511

abbrev MAXARG : ℕ := 32

/-- A string without its NUL. -/
abbrev Arg := List UInt8

variable {argv : List Arg} {buf l last : Arg} {ls : List Arg} {input : List UInt8} {fork : ℕ → Bool} {k : ℕ}

/-- `exec_argv[base_argc] = buf; exec_argv[base_argc + 1] = 0;`, `none` if that is not in the array. -/
def execArgv (argv : List Arg) (buf : Arg) : Option (List Arg) :=
  if argv.length + 1 < MAXARG then some (argv ++ [buf]) else none

/-- The loop of `main`, and the last line after it: the vectors that are passed to `exec`. `buf` holds the `n` bytes of
    the line so far; `fork k`: the fork after `k` others is possible. -/
def xargsLoop (argv : List Arg) (fork : ℕ → Bool) : List UInt8 → Arg → ℕ → Option (List (List Arg))
  | [], buf, k =>
    if buf.length > 0 then do
      let v ← execArgv argv buf
      return if fork k then [v] else []
    else some []
  | c :: input, buf, k =>
    if c = NL then do
      let v ← execArgv argv buf
      if fork k then
        let vs ← xargsLoop argv fork input [] (k + 1)
        return v :: vs
      else return []
    else xargsLoop argv fork input (if buf.length < LIMIT then buf ++ [c] else buf) k

/-- `main`; `argv` is the command with its arguments. -/
def xargs (argv : List Arg) (fork : ℕ → Bool) (input : List UInt8) : Option (List (List Arg)) :=
  if argv = [] then some [] else xargsLoop argv fork input [] 0

/-- What is to be passed to `exec`: the command with each line, and with the last one if it is not empty. -/
def commands (argv : List Arg) (ls : List Arg) (last : Arg) : List (List Arg) :=
  (ls ++ if last = [] then [] else [last]).map fun l => argv ++ [l]

/-- BYTES: a piece of a line is added to the buffer, as far as there is room. -/
theorem xargsLoop_bytes : ∀ {l buf : Arg}, NL ∉ l → buf.length ≤ LIMIT →
    xargsLoop argv fork (l ++ input) buf k = xargsLoop argv fork input ((buf ++ l).take LIMIT) k
  | [], buf, _, hbuf => by rw [List.nil_append, List.append_nil, List.take_of_length_le hbuf]
  | c :: l, buf, hl, hbuf => by
      rw [List.mem_cons, not_or] at hl
      rw [List.cons_append, xargsLoop, if_neg (Ne.symm hl.1)]
      split
      · rename_i hroom
        rw [xargsLoop_bytes hl.2 (by rw [List.length_append]; exact hroom), List.append_assoc]
        rfl
      · rename_i hfull
        have heq : buf.length = LIMIT := by omega
        rw [xargsLoop_bytes hl.2 hbuf, List.take_append_of_le_length (by omega), List.take_append_of_le_length (by omega)]

/-- RUN: each line as far as it fits. -/
theorem xargsLoop_lines (hargv : argv.length + 1 < MAXARG) (hfork : ∀ k, fork k = true) (hlast : NL ∉ last) :
    ∀ {ls : List Arg} {k : ℕ}, (∀ l ∈ ls, NL ∉ l) → xargsLoop argv fork (unlines NL ls ++ last) [] k =
      some (commands argv (ls.map (·.take LIMIT)) (last.take LIMIT))
  | [], k, _ => by
      rw [unlines_nil, List.nil_append, ← List.append_nil last, xargsLoop_bytes hlast (Nat.zero_le _), List.nil_append,
        List.append_nil, xargsLoop, commands]
      cases last with
      | nil => rfl
      | cons c last =>
        rw [if_pos (by simp), if_neg (by simp), execArgv, if_pos hargv, hfork]
        rfl
  | l :: ls, k, hls => by
      have ih : xargsLoop argv fork (unlines NL ls ++ last) [] (k + 1) = _ :=
        xargsLoop_lines hargv hfork hlast fun m hm => hls m (List.mem_cons_of_mem _ hm)
      rw [unlines_cons, List.append_assoc, xargsLoop_bytes (hls l List.mem_cons_self) (Nat.zero_le _), List.cons_append,
        xargsLoop, if_pos rfl, execArgv, if_pos hargv, hfork, ih]
      rfl

/-- Every line fits, the last one too. -/
def Fit (ls : List Arg) (last : Arg) : Prop := (∀ l ∈ ls, l.length ≤ LIMIT) ∧ last.length ≤ LIMIT

theorem take_limit : l.take LIMIT = l ↔ l.length ≤ LIMIT :=
  ⟨fun h => by rw [← h]; exact List.length_take_le _ _, List.take_of_length_le⟩

theorem map_take_limit : ∀ {ls : List Arg}, ls.map (·.take LIMIT) = ls ↔ ∀ l ∈ ls, l.length ≤ LIMIT
  | [] => iff_of_true rfl nofun
  | l :: ls => by rw [List.map_cons, List.cons.injEq, take_limit, map_take_limit, List.forall_mem_cons]

theorem commands_limit (argv ls : List Arg) (last : Arg) :
    commands argv (ls.map (·.take LIMIT)) (last.take LIMIT) = commands argv ls last ↔ Fit ls last := by
  have hinj : Function.Injective fun l : Arg => argv ++ [l] := fun l m h =>
    List.singleton_injective (List.append_cancel_left h)
  have hnil : last.take LIMIT = [] ↔ last = [] := by
    rw [List.take_eq_nil_iff]
    exact or_iff_right (by decide)
  have htail : (if last.take LIMIT = [] then [] else [last.take LIMIT]) = (if last = [] then [] else [last]) ↔
      last.length ≤ LIMIT := by
    simp only [hnil]
    by_cases h0 : last = []
    · rw [if_pos h0, if_pos h0, h0]
      exact iff_of_true rfl (Nat.zero_le _)
    · rw [if_neg h0, if_neg h0, List.cons.injEq, and_iff_left rfl, take_limit]
  rw [commands, commands, (List.map_injective_iff.mpr hinj).eq_iff, Fit, ← map_take_limit, ← htail]
  constructor
  · intro h
    exact List.append_inj h (List.length_map ..)
  · rintro ⟨h1, h2⟩
    rw [h1, h2]

/-- CORRECT (xargs): with at most MAXARG - 2 words for the command, every line is passed on whole just if every line fits
    into the buffer. -/
theorem xargs_runs_lines (hcmd : argv ≠ []) (hargv : argv.length ≤ MAXARG - 2) (hfork : ∀ k, fork k = true)
    (hls : ∀ l ∈ ls, NL ∉ l) (hlast : NL ∉ last) :
    xargs argv fork (unlines NL ls ++ last) = some (commands argv ls last) ↔ Fit ls last := by
  have hlt : argv.length + 1 < MAXARG := by
    simp only [MAXARG] at hargv ⊢
    omega
  rw [xargs, if_neg hcmd, xargsLoop_lines hlt hfork hlast hls, Option.some_inj, commands_limit]

/-- `echo x` on the lines `a`, the empty one, and `b` without a newline. -/
theorem xargs_runs_lines_echo : xargs [[101], [120]] (fun _ => true) (unlines NL [[97], []] ++ [98]) =
    some [[[101], [120], [97]], [[101], [120], []], [[101], [120], [98]]] := by
  have h : xargs [[101], [120]] (fun _ => true) (unlines NL [[97], []] ++ [98]) =
      some (commands [[101], [120]] [[97], []] [98]) ↔ Fit [[97], []] [98] :=
    xargs_runs_lines (by decide) (by decide) (fun _ => rfl) (by decide) (by decide)
  exact (h.mpr ⟨by decide, by decide⟩).trans (by decide)

/-- Of a line of 512 bytes the last one is dropped. -/
theorem xargs_cuts_long_line : xargs [[101]] (fun _ => true) (unlines NL [List.replicate 512 97]) =
    some [[[101], List.replicate 511 97]] := by
  have hls : ∀ l ∈ [List.replicate 512 97], NL ∉ l := by
    intro l hl
    obtain rfl := List.mem_singleton.mp hl
    exact fun h => absurd (List.eq_of_mem_replicate h) (by decide)
  have h : xargsLoop [[101]] (fun _ => true) (unlines NL [List.replicate 512 97] ++ []) [] 0 = _ :=
    xargsLoop_lines (by decide) (fun _ => rfl) List.not_mem_nil hls
  rw [List.append_nil] at h
  rw [xargs, if_neg (by decide), h, commands, List.map_singleton, List.take_replicate]
  rfl

end Minios.Xargs
