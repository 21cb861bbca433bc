import Minios.Param
import Minios.Schemes.Ring
import Minios.Schemes.Run

/-! `kernel/bio.c`: the buffer cache under every interleaving.

    The cache is an array of `NBUF` buffers on a circular list through `bcache.head`, most recently
    used first. `bget` scans the list under `bcache.lock`, releases it, and only then sleeps for the
    buffer's own lock; `brelse` releases that lock first and decrements `refcnt` later. So one call
    of `bget` and its `brelse` go through these steps, and every other process may move in between:

        bget(dev, b) ──▶ waiting ──acquiresleep──▶ held ──releasesleep──▶ releasing ──refcnt--──▶ ·

    `refcnt` is a natural number: it counts calls in progress and pins. -/

namespace Minios.Bio
open Schemes Function

/-- A pointer into the list: a buffer, or `none` for `&bcache.head`. -/
abbrev Ptr := Option (Fin NBUF)

/-- `struct buf` without its list pointers; `lock` is the sleep-lock, with the pid of its holder. -/
structure Buf where
  valid : Bool
  dev : ℕ
  blockno : ℕ
  lock : Option ℕ
  refcnt : ℕ
  data : Block

/-- `b->refcnt++` -/
def Buf.incRef (b : Buf) : Buf := { b with refcnt := b.refcnt + 1 }

/-- `b->refcnt--` -/
def Buf.decRef (b : Buf) : Buf := { b with refcnt := b.refcnt - 1 }

/-- `b->dev = dev; b->blockno = blockno; b->valid = 0; b->refcnt = 1;` -/
def Buf.recycle (dev blockno : ℕ) (b : Buf) : Buf :=
  { b with dev := dev, blockno := blockno, valid := false, refcnt := 1 }

/-- Take the sleep-lock for process `p`, or release it. -/
def Buf.setLock (p : Option ℕ) (b : Buf) : Buf := { b with lock := p }

/-- Overwrite `b->data`. -/
def Buf.setData (x : Block) (b : Buf) : Buf := { b with data := x }

/-- `virtio_disk_rw(b, 0); b->valid = 1;` when the disk holds `x`. -/
def Buf.read (x : Block) (b : Buf) : Buf := { b with data := x, valid := true }

/-- `bcache`: the buffers and the list pointers of buffers and head. -/
structure Bcache where
  buf : Fin NBUF → Buf
  links : Links Ptr

/-- Change one buffer. -/
def Bcache.modify (c : Bcache) (i : Fin NBUF) (f : Buf → Buf) : Bcache :=
  { c with buf := update c.buf i (f (c.buf i)) }

/-- The list part of `binit`: an empty ring, then each buffer of the array put behind the head. -/
def binitLinks : Links Ptr :=
  (List.finRange NBUF).foldl (fun l i => l.insertHead none (some i)) ⟨fun _ => none, fun _ => none⟩

/-- `bcache` after `binit` (static storage is zero). -/
def binit : Bcache where
  buf := fun _ => { valid := false, dev := 0, blockno := 0, lock := none, refcnt := 0, data := fun _ => 0 }
  links := binitLinks

/-- `bget`'s first loop: is the block already cached? From `head.next` along `next`. -/
def findCached (c : Bcache) (dev blockno : ℕ) : Option Ptr :=
  Links.scan c.links.next none
    (fun q => q.any fun i => (c.buf i).dev = dev ∧ (c.buf i).blockno = blockno) (NBUF + 1)
    (c.links.next none)

/-- `bget`'s second loop: the least recently used unused buffer. From `head.prev` along `prev`. -/
def findUnused (c : Bcache) : Option Ptr :=
  Links.scan c.links.prev none (fun q => q.any fun i => (c.buf i).refcnt = 0) (NBUF + 1)
    (c.links.prev none)

/-- The critical section of `bget`: the buffer it will wait for, `none` for the panic
    "bget: no buffers". -/
def bget (c : Bcache) (dev blockno : ℕ) : Option (Bcache × Fin NBUF) :=
  match findCached c dev blockno with
  | some (some i) => some (c.modify i .incRef, i)
  | _ => match findUnused c with
    | some (some i) => some (c.modify i (.recycle dev blockno), i)
    | _ => none

/-- The critical section of `brelse`: drop the reference, and if no one is waiting for the buffer
    move it to the head of the list. -/
def brelse (c : Bcache) (i : Fin NBUF) : Bcache :=
  let c := c.modify i .decRef
  if (c.buf i).refcnt = 0 then { c with links := (c.links.unlink (some i)).insertHead none (some i) }
  else c

def bpin (c : Bcache) (i : Fin NBUF) : Bcache := c.modify i .incRef

def bunpin (c : Bcache) (i : Fin NBUF) : Bcache := c.modify i .decRef

/-! ### Processes -/

/-- How far a `bget` call and its `brelse` have come. -/
inductive Stage where | waiting | held | releasing
  deriving DecidableEq

/-- A call of `bget` that chose its buffer and whose `brelse` has not yet decremented `refcnt`. -/
structure Call where
  pid : ℕ
  buf : Fin NBUF
  stage : Stage
  deriving DecidableEq

/-- The cache, the calls in progress, the `bpin`s not yet `bunpin`ned, and whether `bget` found no
    buffer. -/
structure Sys where
  cache : Bcache
  calls : List Call
  pins : Fin NBUF → ℕ
  panicked : Bool

def Sys.init : Sys where
  cache := binit
  calls := []
  pins := fun _ => 0
  panicked := false

/-- One step of a process. `fill` is `bread`'s disk read into a buffer that is not valid, `store` any
    write to the data of a held buffer. -/
inductive Label where
  | bget (p dev blockno : ℕ)
  | acquire (p : ℕ) (i : Fin NBUF)
  | fill (p : ℕ) (i : Fin NBUF) (x : Block)
  | store (p : ℕ) (i : Fin NBUF) (x : Block)
  | release (p : ℕ) (i : Fin NBUF)
  | drop (p : ℕ) (i : Fin NBUF)
  | bpin (i : Fin NBUF)
  | bunpin (i : Fin NBUF)

/-- Move one of `p`'s calls on buffer `i` from one stage to the next. -/
def advance (calls : List Call) (p : ℕ) (i : Fin NBUF) (s t : Stage) : List Call :=
  ⟨p, i, t⟩ :: calls.erase ⟨p, i, s⟩

/-- One step of the whole cache. Only the holder of a buffer's lock reads into it, stores to it or
    releases it, and a `bunpin` needs an earlier `bpin`. -/
def step (s : Sys) : Label → Option Sys
  | .bget p dev blockno =>
    if s.panicked then none else
    match bget s.cache dev blockno with
    | none => some { s with panicked := true }
    | some (c, i) => some { s with cache := c, calls := ⟨p, i, .waiting⟩ :: s.calls }
  | .acquire p i =>
    if s.panicked = false ∧ ⟨p, i, .waiting⟩ ∈ s.calls ∧ (s.cache.buf i).lock = none then
      some { s with cache := s.cache.modify i (.setLock (some p))
                    calls := advance s.calls p i .waiting .held }
    else none
  | .fill p i x =>
    if s.panicked = false ∧ (s.cache.buf i).lock = some p ∧ (s.cache.buf i).valid = false then
      some { s with cache := s.cache.modify i (.read x) }
    else none
  | .store p i x =>
    if s.panicked = false ∧ (s.cache.buf i).lock = some p then
      some { s with cache := s.cache.modify i (.setData x) }
    else none
  | .release p i =>
    if s.panicked = false ∧ ⟨p, i, .held⟩ ∈ s.calls ∧ (s.cache.buf i).lock = some p then
      some { s with cache := s.cache.modify i (.setLock none)
                    calls := advance s.calls p i .held .releasing }
    else none
  | .drop p i =>
    if s.panicked = false ∧ ⟨p, i, .releasing⟩ ∈ s.calls then
      some { s with cache := brelse s.cache i, calls := s.calls.erase ⟨p, i, .releasing⟩ }
    else none
  | .bpin i =>
    if s.panicked then none
    else some { s with cache := bpin s.cache i, pins := update s.pins i (s.pins i + 1) }
  | .bunpin i =>
    if s.panicked = false ∧ 0 < s.pins i then
      some { s with cache := bunpin s.cache i, pins := update s.pins i (s.pins i - 1) }
    else none

end Minios.Bio
