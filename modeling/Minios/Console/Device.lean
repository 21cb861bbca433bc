import Minios.Schemes.Run

/-! `kernel/console.c`: input of the console under every interleaving.

    The interrupt handler puts characters into a ring, readers take them out again:

        buf:   . . [r] ─ committed ─ [w] ─ pending, still edited ─ [e] . .

    `r`, `w` and `e` are `uint`s that wrap around; position `k` is `buf[k % INPUT_BUF_SIZE]`. Both sides
    hold `cons.lock`. The handler never sleeps with it, so one `consoleintr` is one step; a reader gives
    it up in `sleep`, so its step is one round of the loop, and any reader or interrupt may come next
    once it sleeps. -/

namespace Minios.Console
open Schemes Function

abbrev INPUT_BUF_SIZE : ℕ := 128

/-- `C(x)`: Control-x. -/
def C (x : Char) : UInt8 := UInt8.ofNat (x.toNat - '@'.toNat)

/-- The newline, the carriage return and the delete key. -/
abbrev nl : UInt8 := 0x0a
abbrev cr : UInt8 := 0x0d
abbrev del : UInt8 := 0x7f

abbrev BACKSPACE : ℕ := 0x100

/-- `cons` without its lock, and in `tx` what `consputc` has sent to the uart. -/
structure Cons where
  buf : ℕ → UInt8
  r : BitVec 32
  w : BitVec 32
  e : BitVec 32
  tx : List UInt8

def Cons.init : Cons := ⟨fun _ => 0, 0, 0, 0, []⟩

/-- A backspace overwrites the last character on the screen with a blank. -/
def Cons.consputc (s : Cons) (c : ℕ) : Cons :=
  { s with tx := s.tx ++ if c = BACKSPACE then [0x08, 0x20, 0x08] else [UInt8.ofNat c] }

/-- `cons.e--; consputc(BACKSPACE);` -/
def Cons.erase (s : Cons) : Cons := { s with e := s.e - 1 }.consputc BACKSPACE

/-- The loop of `C('U')`. Every round brings `e` one closer to `w`, so it makes at most `e - w` rounds. -/
def Cons.killLine : ℕ → Cons → Cons
  | 0, s => s
  | k + 1, s => if s.e ≠ s.w ∧ s.buf ((s.e - 1).toNat % INPUT_BUF_SIZE) ≠ nl then killLine k s.erase else s

/-- `cons.buf[cons.e++ % INPUT_BUF_SIZE] = c;` -/
def Cons.store (s : Cons) (c : UInt8) : Cons :=
  { s with buf := update s.buf (s.e.toNat % INPUT_BUF_SIZE) c, e := s.e + 1 }

/-- `cons.w = cons.e;` -/
def Cons.commit (s : Cons) : Cons := { s with w := s.e }

/-- The `default:` case for a character that is stored; says whether the readers are woken. -/
def Cons.accept (s : Cons) (c : UInt8) : Cons × Bool :=
  let s := (s.consputc c.toNat).store c
  if c = nl ∨ c = C 'D' ∨ (s.e - s.r).toNat = INPUT_BUF_SIZE then (s.commit, true) else (s, false)

/-- `consoleintr(c)`, and whether it calls `wakeup(&cons.r)`. -/
def consoleintr (s : Cons) (c : UInt8) : Cons × Bool :=
  if c = C 'P' then (s, false)
  else if c = C 'U' then (s.killLine (s.e - s.w).toNat, false)
  else if c = C 'H' ∨ c = del then (if s.e ≠ s.w then s.erase else s, false)
  else if c ≠ 0 ∧ (s.e - s.r).toNat < INPUT_BUF_SIZE then s.accept (if c = cr then nl else c)
  else (s, false)

inductive Pc where
  | idle
  | acquire
  | loop
  | asleep
  deriving DecidableEq

/-- A process and its last call `consoleread(1, dst, target)`: `n` bytes to go, `got` the bytes stored
    at `dst`, `ret` what it returned. `dst k` says whether byte `k` of the buffer is writable. -/
structure Reader where
  killed : Bool
  pc : Pc
  target : ℤ
  n : ℤ
  dst : ℕ → Bool
  got : List UInt8
  ret : ℤ

def Reader.init : Reader := ⟨false, .idle, 0, 0, fun _ => true, [], 0⟩

def Reader.at (pr : Reader) (pc : Pc) : Reader := { pr with pc := pc }

/-- A call starts. -/
def Reader.begin (pr : Reader) (n : ℤ) (dst : ℕ → Bool) : Reader :=
  { pr with pc := .acquire, target := n, n := n, dst := dst, got := [] }

structure Sys where
  cons : Cons
  lock : Option ℕ
  proc : ℕ → Reader

def Sys.init : Sys := ⟨.init, none, fun _ => .init⟩

/-- `release(&cons.lock); return r;` -/
def Sys.ret (s : Sys) (p : ℕ) (pr : Reader) (r : ℤ) : Sys :=
  { s with lock := none, proc := update s.proc p { pr with pc := .idle, ret := r } }

/-- `c = cons.buf[cons.r % INPUT_BUF_SIZE]` -/
def Cons.head (s : Cons) : UInt8 := s.buf (s.r.toNat % INPUT_BUF_SIZE)

/-- The body of `consoleread`'s loop once there is input: `c` has been taken with `cons.r++`. -/
def Sys.consume (s : Sys) (p : ℕ) (c : UInt8) : Sys :=
  let pr := s.proc p
  let s := { s with cons.r := s.cons.r + 1 }
  if c = C 'D' then
    -- a ^D after other characters is put back, for the next call to return 0
    (if pr.n < pr.target then { s with cons.r := s.cons.r - 1 } else s).ret p pr (pr.target - pr.n)
  else if pr.dst pr.got.length = false then s.ret p pr (pr.target - pr.n)
  else
    let pr := { pr with got := pr.got ++ [c], n := pr.n - 1 }
    if c = nl then s.ret p pr (pr.target - pr.n) else { s with proc := update s.proc p pr }

/-- One round of `consoleread`'s loop, by the holder of the lock. -/
def Sys.round (s : Sys) (p : ℕ) : Sys :=
  let pr := s.proc p
  if 0 < pr.n then
    if s.cons.r = s.cons.w then
      if pr.killed then s.ret p pr (-1)
      else { s with lock := none, proc := update s.proc p (pr.at .asleep) }
    else s.consume p s.cons.head
  else s.ret p pr (pr.target - pr.n)

/-- A sleeping process becomes runnable, and has to acquire `cons.lock` again. -/
def Reader.wake (pr : Reader) : Reader := if pr.pc = .asleep then pr.at .acquire else pr

/-- `kill` -/
def Reader.kill (pr : Reader) : Reader := Reader.wake { pr with killed := true }

/-- An interrupt: the handler runs, and `wakeup(&cons.r)` if it calls it. -/
def Sys.intr (s : Sys) (c : UInt8) : Sys :=
  { s with
    cons := (consoleintr s.cons c).1
    proc := if (consoleintr s.cons c).2 then fun p => (s.proc p).wake else s.proc }

inductive Label where
  | intr (c : UInt8)
  | read (p : ℕ) (n : ℤ) (dst : ℕ → Bool)
  | kill (p : ℕ)
  | move (p : ℕ)

def step (s : Sys) : Label → Option Sys
  | .intr c =>
    if s.lock = none then some (s.intr c) else none
  | .read p n dst =>
    if (s.proc p).pc = .idle then
      some { s with proc := update s.proc p ((s.proc p).begin n dst) }
    else none
  | .kill p => some { s with proc := update s.proc p (s.proc p).kill }
  | .move p => match (s.proc p).pc with
    | .acquire =>
      if s.lock = none then
        some { s with lock := some p, proc := update s.proc p ((s.proc p).at .loop) }
      else none
    | .loop => some (s.round p)
    | _ => none

end Minios.Console
