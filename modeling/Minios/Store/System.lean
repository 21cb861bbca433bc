import Minios.Bio.Invariant
import Minios.Log.Crash
import Minios.Log.Discipline

/-! `kernel/bio.c` and `kernel/log.c` together: cache, pins, log and disk.

    The system is the buffer cache of `Bio.Cache` and the log of `Log.Group` run side by side over
    one disk. Processes read blocks (`bread` is `bget`, then `acquiresleep`, then a disk read if the
    buffer is not valid), change the data of buffers they hold, `log_write` them and release them;
    the last `end_op` runs the script of `commit()`, whose `bread`s and `brelse`s take the same
    steps as everybody else's. There is one device.

    What the processes owe: a holder that changed `b->data` calls `log_write(b)` before `brelse(b)`,
    and nobody logs a block of the log itself. A holder may keep a buffer past its `end_op`, into the
    commit. History variables: `spec` (the contents last left in each block by a holder that logged
    it), `content` (the same, counting the log's own blocks, which only `commit()` changes), `seen`
    and `logged` (what `bread` returned to the current holder of a buffer, and whether it has logged
    it), `req` (the block a process asked `bread` for when it was given a buffer), `live` (the
    variables of `commit()` that hold a buffer). The code tests none of them; `release` tests `seen`
    and `logged` to say what the processes owe. -/

namespace Minios.Store
open Schemes Function
open Log (Var Instr InLog)

/-- Where `commit()` stands inside a `bread` (it has chosen buffer `i`, or already locked it) or
    inside a `brelse` (it has unlocked buffer `i`). -/
inductive Pend where
  | none
  | waiting (i : Fin NBUF)
  | acquired (i : Fin NBUF)
  | released (i : Fin NBUF)

structure Sys where
  bio : Bio.Sys
  log : Log.Sys
  disk : Disk
  bufs : Var → Fin NBUF
  live : List Var
  pend : Pend
  spec : ℕ → Block
  content : ℕ → Block
  seen : Fin NBUF → Block
  logged : Fin NBUF → Bool
  req : ℕ → Fin NBUF → ℕ

/-- `ROOTDEV`, the only device. -/
abbrev ROOTDEV : ℕ := 1

/-- After boot on disk `d` with an empty log. -/
def Sys.init (start size : ℕ) (d : Disk) : Sys where
  bio := Bio.Sys.init
  log := Log.Sys.init start size
  disk := d
  bufs := fun _ => 0
  live := []
  pend := .none
  spec := d
  content := d
  seen := fun _ _ => 0
  logged := fun _ => false
  req := fun _ _ => 0

/-- Buffer `i`. -/
def Sys.buf (s : Sys) (i : Fin NBUF) : Bio.Buf := s.bio.cache.buf i

/-- Process `p` is not inside `commit()`. -/
def Sys.user (s : Sys) (p : ℕ) : Bool := match s.log.procs p with
  | .commit _ _ _ => false
  | _ => true

/-- Who moves, and how. `acquire` and `fill` are the later parts of a `bread`, `release` and `drop`
    the two parts of a `brelse`. -/
inductive Label where
  | bread (p blockno : ℕ)
  | acquire (p : ℕ) (i : Fin NBUF)
  | fill (p : ℕ) (i : Fin NBUF)
  | store (p : ℕ) (i : Fin NBUF) (x : Block)
  | logWrite (p : ℕ) (i : Fin NBUF)
  | release (p : ℕ) (i : Fin NBUF)
  | drop (p : ℕ) (i : Fin NBUF)
  | beginOp (p : ℕ)
  | endOp (p : ℕ)
  | commit (p : ℕ)

/-- `log_write(b)` with its `bpin(b)`, which it makes when the block is newly listed. -/
def logWrite (s : Sys) (p : ℕ) (i : Fin NBUF) : Option Sys :=
  let b := (s.buf i).blockno
  (Log.step s.log (.logWrite p b)).bind fun log =>
    if log.panicked.isSome then some { s with log := log }
    else if s.log.lh.idxOf b = s.log.lh.length then
      (Bio.step s.bio (.bpin i)).map fun bio =>
        { s with log := log, bio := bio, logged := update s.logged i true }
    else some { s with log := log, logged := update s.logged i true }

/-- The first part of `bread(ROOTDEV, b)` by process `p`: `bget` chooses a buffer or panics. `k` is
    what else happens when it chose buffer `i`. -/
def bread (s : Sys) (p b : ℕ) (k : Sys → Fin NBUF → Sys) : Option Sys :=
  (Bio.step s.bio (.bget p ROOTDEV b)).map fun bio =>
    match Bio.bget s.bio.cache ROOTDEV b with
    | none => { s with bio := bio }
    | some (_, i) => k { s with bio := bio, req := update s.req p (update (s.req p) i b) } i

/-- One step of the committing process `p` whose next buffer operation is `i`; `done` moves the
    script on. -/
def commitInstr (s : Sys) (p : ℕ) (done : Option Log.Sys) : Instr → Option Sys
  | .bread v b => match s.pend with
    | .none => bread s p b fun t i => { t with pend := .waiting i }
    | .waiting i =>
      (Bio.step s.bio (.acquire p i)).map fun bio => { s with bio := bio, pend := .acquired i }
    | .acquired i =>
      if (s.buf i).valid then
        done.map fun log =>
          { s with log := log, bufs := update s.bufs v i, live := v :: s.live, pend := .none }
      else (Bio.step s.bio (.fill p i (s.disk b))).map fun bio => { s with bio := bio }
    | .released _ => none
  | .memmove dst src =>
    let x := (s.buf (s.bufs src)).data
    (Bio.step s.bio (.store p (s.bufs dst) x)).bind fun bio =>
      done.map fun log =>
        { s with bio := bio, log := log, content := update s.content (s.buf (s.bufs dst)).blockno x }
  | .sethead v lh =>
    let x := Log.setHead lh (s.buf (s.bufs v)).data
    (Bio.step s.bio (.store p (s.bufs v) x)).bind fun bio =>
      done.map fun log =>
        { s with bio := bio, log := log, content := update s.content (s.buf (s.bufs v)).blockno x }
  | .bwrite v =>
    if (s.buf (s.bufs v)).lock = some p then
      done.map fun log =>
        { s with log := log, disk := update s.disk (s.buf (s.bufs v)).blockno (s.buf (s.bufs v)).data }
    else some { s with bio := { s.bio with panicked := true } }
  | .bunpin v =>
    (Bio.step s.bio (.bunpin (s.bufs v))).bind fun bio =>
      done.map fun log => { s with bio := bio, log := log }
  | .brelse v => match s.pend with
    | .released i =>
      (Bio.step s.bio (.drop p i)).bind fun bio =>
        done.map fun log => { s with bio := bio, log := log, pend := .none }
    | _ =>
      (Bio.step s.bio (.release p (s.bufs v))).map fun bio =>
        { s with bio := bio, live := s.live.erase v, pend := .released (s.bufs v) }
  | .clear => done.map fun log => { s with log := log }

/-- One step of the whole system. -/
def step (s : Sys) : Label → Option Sys
  | .bread p b =>
    if s.user p then bread s p b fun t _ => t else none
  | .acquire p i =>
    if s.user p then
      (Bio.step s.bio (.acquire p i)).map fun bio =>
        { s with bio := bio, seen := update s.seen i (s.buf i).data
                 logged := update s.logged i false }
    else none
  | .fill p i =>
    if s.user p then
      let x := s.disk (s.buf i).blockno
      (Bio.step s.bio (.fill p i x)).map fun bio => { s with bio := bio, seen := update s.seen i x }
    else none
  | .store p i x =>
    if s.user p ∧ (s.buf i).valid then
      (Bio.step s.bio (.store p i x)).map fun bio => { s with bio := bio }
    else none
  | .logWrite p i =>
    if s.user p ∧ (s.buf i).valid ∧ (s.buf i).lock = some p ∧
        ¬ InLog s.log.start s.log.size (s.buf i).blockno then logWrite s p i
    else none
  | .release p i =>
    if s.user p ∧ (s.buf i).valid ∧ (s.logged i ∨ (s.buf i).data = s.seen i) then
      (Bio.step s.bio (.release p i)).map fun bio =>
        if s.logged i then
          { s with bio := bio
                   spec := update s.spec (s.buf i).blockno (s.buf i).data
                   content := update s.content (s.buf i).blockno (s.buf i).data }
        else { s with bio := bio }
    else none
  | .drop p i =>
    if s.user p then (Bio.step s.bio (.drop p i)).map fun bio => { s with bio := bio } else none
  | .beginOp p => (Log.step s.log (.beginOp p)).map fun log => { s with log := log }
  | .endOp p => (Log.step s.log (.endOp p)).map fun log => { s with log := log }
  | .commit p => match s.log.procs p with
    | .commit _ _ [] => (Log.step s.log (.commit p)).map fun log => { s with log := log }
    | .commit _ _ (i :: _) => commitInstr s p (Log.step s.log (.commit p)) i
    | _ => none

/-! ### What an observer sees -/

/-- A `bread` of block `b` returned contents `x`, or a holder that logged block `b` left `x` in it. -/
inductive Event where
  | read (b : ℕ) (x : Block)
  | write (b : ℕ) (x : Block)

/-- The events of one step. A `bread` returns when it locks a valid buffer or has filled one; only
    blocks outside the log are observed. -/
def events (s : Sys) (l : Label) (t : Sys) : List Event := match l with
  | .acquire p i =>
    if (t.buf i).valid ∧ ¬ InLog s.log.start s.log.size (s.req p i) then
      [.read (s.req p i) (t.buf i).data] else []
  | .fill p i =>
    if ¬ InLog s.log.start s.log.size (s.req p i) then [.read (s.req p i) (t.buf i).data] else []
  | .release _ i => if s.logged i then [.write (s.buf i).blockno (s.buf i).data] else []
  | _ => []

/-- The abstract system: a plain map from block numbers to contents. -/
def plain (m : ℕ → Block) : Event → Option (ℕ → Block)
  | .read b x => if m b = x then some m else none
  | .write b x => some (update m b x)

end Minios.Store
