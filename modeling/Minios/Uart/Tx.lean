import Minios.Schemes.Queue
import Minios.Schemes.Run

/-! `kernel/uart.c`: the transmit buffer under every interleaving.

    Processes put bytes into the buffer with `uartputc`, and sleep on `&uart_tx_r` while it is full; `uartstart` gives
    bytes to the device as long as that is ready. It is called from `uartputc` and from `uartintr`, always under
    `uart_tx_lock`:

        uartputc ──▶ acquire ──▶ check ──▶ start ◀──────────── send: THR
        uartintr ──▶ acquire ─────│──────▶  │ │ take a byte     ▲
                        ▲         │ full    │ └──▶ wakeup: proc[0], proc[1], ...
                        │         ▼         ▼
                        └── asleep, dozing  release

    A step is what is done under one `p->lock`, or one round of a loop. Numbers below `nproc` are the processes, the
    others are the CPUs when they handle an interrupt. What the device's ready bit says is up to the label. -/

namespace Minios.Uart
open Schemes Function

abbrev UART_TX_BUF_SIZE : ℕ := 32

/-- Where one goes on that has acquired `uart_tx_lock`: in `uartputc` at the test of `panicked`, or at the loop after
    `sleep`, and at the top of `uartstart`'s loop. -/
inductive Entry where
  | enter (c : UInt8)
  | check (c : UInt8)
  | start
  deriving DecidableEq

/-- What the holder of the lock does next: one of these, the write to THR, or `release` and return. -/
inductive Next where
  | go (k : Entry)
  | send (c : UInt8)
  | ret
  deriving DecidableEq

/-- Where a process or a handler is; while `dozing`, it has released `uart_tx_lock` and holds its own `p->lock`. -/
inductive Pc where
  | idle
  | acquire (k : Entry)
  | run (k : Next)
  | wakeup (c : UInt8) (j : ℕ)
  | dozing (c : UInt8)
  | asleep (c : UInt8)
  | spin
  deriving DecidableEq

/-- The buffer with its counters, the lock, `panicked`, and everybody. -/
structure Sys where
  buf : ℕ → UInt8
  w : BitVec 64
  r : BitVec 64
  lock : Option ℕ
  panicked : Bool
  pc : ℕ → Pc

def Sys.init (buf : ℕ → UInt8) : Sys := ⟨buf, 0, 0, none, false, fun _ => .idle⟩

/-- `uart_tx_w == uart_tx_r + UART_TX_BUF_SIZE` -/
def Sys.full (s : Sys) : Bool := s.w = s.r + BitVec.ofNat 64 UART_TX_BUF_SIZE

/-- `uart_tx_w == uart_tx_r` -/
def Sys.empty (s : Sys) : Bool := s.w = s.r

/-- `uart_tx_buf[uart_tx_w % UART_TX_BUF_SIZE] = c; uart_tx_w += 1;` -/
def Sys.put (s : Sys) (c : UInt8) : Sys :=
  { s with buf := update s.buf (s.w.toNat % UART_TX_BUF_SIZE) c, w := s.w + 1 }

/-- `uart_tx_buf[uart_tx_r % UART_TX_BUF_SIZE]` -/
def Sys.head (s : Sys) : UInt8 := s.buf (s.r.toNat % UART_TX_BUF_SIZE)

/-- `uart_tx_r += 1;` -/
def Sys.take (s : Sys) : Sys := { s with r := s.r + 1 }

def Sys.setLock (s : Sys) (lock : Option ℕ) : Sys := { s with lock := lock }

def Sys.setPc (s : Sys) (p : ℕ) (pc : Pc) : Sys := { s with pc := update s.pc p pc }

@[simp] theorem Sys.setPc_self (s : Sys) (p : ℕ) (pc : Pc) : (s.setPc p pc).pc p = pc := update_self ..

@[simp] theorem Sys.setPc_ne (s : Sys) {p q : ℕ} (h : q ≠ p) (pc : Pc) : (s.setPc p pc).pc q = s.pc q :=
  update_of_ne h ..

/-- What the holder of `uart_tx_lock` does; `ready` is the bit of LSR, if it is read. -/
def Sys.exec (s : Sys) (p : ℕ) (ready : Bool) : Next → Sys
  | .go (.enter c) => if s.panicked then s.setPc p .spin else s.setPc p (.run (.go (.check c)))
  | .go (.check c) => if s.full then (s.setLock none).setPc p (.dozing c) else (s.put c).setPc p (.run (.go .start))
  | .go .start =>
    if s.empty then s.setPc p (.run .ret)
    else if ready = false then s.setPc p (.run .ret)
    else s.take.setPc p (.wakeup s.head 0)
  | .send _ => s.setPc p (.run (.go .start))
  | .ret => (s.setLock none).setPc p .idle

/-- `if(p->state == SLEEPING && p->chan == chan) p->state = RUNNABLE;` The process goes on in `sleep`, and then in the
    loop of `uartputc`. -/
def Pc.wake : Pc → Pc
  | .asleep c => .acquire (.check c)
  | pc => pc

def Pc.isDozing : Pc → Bool
  | .dozing _ => true
  | _ => false

/-- The next step of `p`. -/
def move (nproc : ℕ) (s : Sys) (p : ℕ) (ready : Bool) : Option Sys := match s.pc p with
  | .idle | .asleep _ | .spin => none
  | .acquire k => if s.lock = none then some ((s.setLock (some p)).setPc p (.run (.go k))) else none
  | .run k => some (s.exec p ready k)
  | .wakeup c j =>
    if j < nproc then
      if j = p then some (s.setPc p (.wakeup c (j + 1)))
      else if (s.pc j).isDozing then none
      else some ((s.setPc j (s.pc j).wake).setPc p (.wakeup c (j + 1)))
    else some (s.setPc p (.run (.send c)))
  | .dozing c => some (s.setPc p (.asleep c))

inductive Label where
  | putc (p : ℕ) (c : UInt8)
  | intr (p : ℕ)
  | kill (p : ℕ)
  | panic
  | move (p : ℕ) (ready : Bool)

/-- One step: a call of `uartputc`, an interrupt, a process is killed, some CPU panics, or somebody goes on. -/
def step (nproc : ℕ) (s : Sys) : Label → Option Sys
  | .putc p c => if p < nproc ∧ s.pc p = .idle then some (s.setPc p (.acquire (.enter c))) else none
  | .intr p => if nproc ≤ p ∧ s.pc p = .idle then some (s.setPc p (.acquire .start)) else none
  | .kill p => if p < nproc ∧ (s.pc p).isDozing = false then some (s.setPc p (s.pc p).wake) else none
  | .panic => some { s with panicked := true }
  | .move p ready => move nproc s p ready

/-- A byte is accepted by `uartputc`, or written to THR. -/
inductive Event where
  | accept (c : UInt8)
  | send (c : UInt8)
  deriving DecidableEq

/-- What a step shows. -/
def events (s : Sys) : Label → Sys → List Event
  | .move p _, _ => match s.pc p with
    | .run (.go (.check c)) => if s.full then [] else [.accept c]
    | .run (.send c) => [.send c]
    | _ => []
  | _, _ => []

def Event.accepted : Event → Option UInt8
  | .accept c => some c
  | .send _ => none

def Event.sent : Event → Option UInt8
  | .accept _ => none
  | .send c => some c

end Minios.Uart
