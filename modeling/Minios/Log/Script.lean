import Minios.Param

/-! `kernel/log.c`: what `commit()` and `recover_from_log()` do to buffers.

    Once the log header is known, `write_log`, `write_head` and `install_trans` are straight-line
    code over buffers: their loops run over `log.lh.block[0..n-1]`. Each is modelled by the list of
    buffer operations it performs, in order. The same script is run in two ways: sequentially, to
    count disk writes and cut them by a crash (`Log.Crash`), and one operation at a time,
    interleaved with every other process (`Log.Group`).

        commit:   write_log ──▶ write_head n ──▶ install_trans ──▶ n = 0 ──▶ write_head 0
        recover:  read_head ──▶ install_trans ──▶ n = 0 ──▶ write_head 0 -/

namespace Minios.Log
open Schemes

/-- The buffer variables of `write_log` (`to`, `from`), `install_trans` (`lbuf`, `dbuf`) and
    `read_head`/`write_head` (`buf`). -/
inductive Var where | to | frm | lbuf | dbuf | buf
  deriving DecidableEq, Repr

/-- One buffer operation of the log code. `sethead` is the loop of `write_head` that stores
    `log.lh` (its block numbers, `n` of them) into the header buffer; `clear` is `log.lh.n = 0`. -/
inductive Instr where
  | bread (v : Var) (blockno : ℕ)
  | memmove (dst src : Var)
  | sethead (v : Var) (lh : List ℕ)
  | bwrite (v : Var)
  | bunpin (v : Var)
  | brelse (v : Var)
  | clear
  deriving DecidableEq, Repr

/-- Copy modified blocks from cache to log, from index `tail` of `log.lh.block` on. -/
def writeLog (start : ℕ) : ℕ → List ℕ → List Instr
  | _, [] => []
  | tail, b :: bs =>
    .bread .to (start + tail + 1) :: .bread .frm b :: .memmove .to .frm :: .bwrite .to ::
      .brelse .frm :: .brelse .to :: writeLog start (tail + 1) bs

/-- Copy committed blocks from log to their home location, from index `tail` on. -/
def installTrans (start : ℕ) (recovering : Bool) : ℕ → List ℕ → List Instr
  | _, [] => []
  | tail, b :: bs =>
    .bread .lbuf (start + tail + 1) :: .bread .dbuf b :: .memmove .dbuf .lbuf :: .bwrite .dbuf ::
      ((if recovering then [] else [.bunpin .dbuf]) ++
        .brelse .lbuf :: .brelse .dbuf :: installTrans start recovering (tail + 1) bs)

/-- Write in-memory log header to disk. -/
def writeHead (start : ℕ) (lh : List ℕ) : List Instr :=
  [.bread .buf start, .sethead .buf lh, .bwrite .buf, .brelse .buf]

/-- `commit()` with `log.lh.block[0..n-1] = lh`. -/
def commit (start : ℕ) (lh : List ℕ) : List Instr :=
  if lh = [] then []
  else writeLog start 0 lh ++ writeHead start lh ++ installTrans start false 0 lh ++ [.clear] ++
    writeHead start []

/-! ### The header block: `struct logheader { int n; int block[LOGSIZE]; }` -/

/-- A 32-bit pattern read as a C `int`. -/
def toInt (v : ℕ) : ℤ := if v < 2 ^ 31 then (v : ℤ) else (v : ℤ) - 2 ^ 32

/-- Field `n` of the header block. -/
def headN (b : Block) : ℤ := toInt (getLE b 0 4)

/-- The block numbers `read_head` copies out of the header block: `block[i]` for `0 ≤ i < n`. -/
def readHead (b : Block) : List ℕ :=
  (List.range (headN b).toNat).map fun i => getLE b (4 + 4 * i) 4

/-- `hb->block[i] = log.lh.block[i]` for the entries from `i` on. -/
def setBlocks (b : Block) : ℕ → List ℕ → Block
  | _, [] => b
  | i, x :: xs => setBlocks (setLE b (4 + 4 * i) 4 x) (i + 1) xs

/-- `write_head`'s update of the header buffer: `hb->n`, then `hb->block[0..n-1]`. -/
def setHead (lh : List ℕ) (b : Block) : Block := setBlocks (setLE b 0 4 lh.length) 0 lh

theorem getLE_setBlocks_lt : ∀ (lh : List ℕ) (b : Block) (i : ℕ) {j m : ℕ}, j + m ≤ 4 + 4 * i →
    getLE (setBlocks b i lh) j m = getLE b j m
  | [], _, _, _, _, _ => rfl
  | x :: xs, b, i, j, m, h => by
      rw [setBlocks, getLE_setBlocks_lt xs _ (i + 1) (by omega), getLE_setLE_disj _ (Or.inr h)]

theorem getLE_setBlocks : ∀ (lh : List ℕ) (b : Block) (i : ℕ), i + lh.length ≤ LOGSIZE →
    (∀ x ∈ lh, x < 2 ^ 32) → ∀ k (hk : k < lh.length),
      getLE (setBlocks b i lh) (4 + 4 * (i + k)) 4 = lh[k]
  | [], _, _, _, _, k, hk => absurd hk (Nat.not_lt_zero k)
  | x :: xs, b, i, hlen, hlt, 0, _ => by
      rw [setBlocks, getLE_setBlocks_lt xs _ (i + 1) (by omega)]
      rw [List.length_cons] at hlen
      rw [Nat.add_zero, getLE_setLE_same 4 b _ x (by simp only [LOGSIZE, MAXOPBLOCKS, BSIZE] at *; omega)]
      exact Nat.mod_eq_of_lt (hlt x (List.mem_cons_self ..))
  | x :: xs, b, i, hlen, hlt, k + 1, hk => by
      rw [List.length_cons] at hlen hk
      have hrec := getLE_setBlocks xs (setLE b (4 + 4 * i) 4 x) (i + 1) (by omega)
        (fun y hy => hlt y (List.mem_cons_of_mem _ hy)) k (by omega)
      rw [setBlocks, List.getElem_cons_succ, ← hrec]
      congr 1; omega

theorem headN_setHead (lh : List ℕ) (b : Block) (hlen : lh.length ≤ LOGSIZE) :
    headN (setHead lh b) = lh.length := by
  have h : getLE (setHead lh b) 0 4 = lh.length := by
    rw [setHead, getLE_setBlocks_lt lh _ 0 (by omega), getLE_setLE_same 4 b 0 _ (by decide)]
    exact Nat.mod_eq_of_lt (by simp only [LOGSIZE, MAXOPBLOCKS] at hlen; omega)
  rw [headN, h, toInt, if_pos (by simp only [LOGSIZE, MAXOPBLOCKS] at hlen; omega)]

/-- ROUND TRIP: recovery reads back exactly the block numbers the header write stored. -/
theorem readHead_setHead (lh : List ℕ) (b : Block) (hlen : lh.length ≤ LOGSIZE)
    (hlt : ∀ x ∈ lh, x < 2 ^ 32) : readHead (setHead lh b) = lh := by
  rw [readHead, headN_setHead lh b hlen, Int.toNat_natCast]
  refine List.ext_getElem (by simp) fun k h1 h2 => ?_
  simp only [List.getElem_map, List.getElem_range]
  have := getLE_setBlocks lh (setLE b 0 4 lh.length) 0 (by omega) hlt k h2
  rwa [Nat.zero_add] at this

theorem readHead_eq_nil_iff {b : Block} : readHead b = [] ↔ headN b ≤ 0 := by
  rw [readHead, List.map_eq_nil_iff, List.range_eq_nil, Int.toNat_eq_zero]

end Minios.Log
