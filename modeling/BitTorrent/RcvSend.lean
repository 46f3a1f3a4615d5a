import Mathlib.Data.Rat.Floor
import BitTorrent.Tracker

/-!
# Senders, receivers, pools and timers

The records and functions of `rcv_send.c`.  Sequence numbers are natural numbers:
they never exceed the number of packets of a chunk, far below `2 ^ 32`.

`cwnd` is a `float`.  Its arithmetic is a parameter here, a type with the
operations the source applies to it, so that what is proved for every such type
holds whatever the rounding does.  Results about the size of the window take
the exact rationals.
-/

namespace BitTorrent

/-- The conversion `(uint32_t) x` of a floating-point value. -/
class TruncU32 (F : Type) where
  /-- The value of the conversion. -/
  truncU32 : F → Nat

export TruncU32 (truncU32)

instance : TruncU32 ℚ where
  truncU32 q := ⌊q⌋₊

theorem truncU32_rat (q : ℚ) : truncU32 q = ⌊q⌋₊ := rfl

/-- `SSTHRESH` -/
def ssthreshDefault : Nat := 64

/-- `CWND` -/
def cwndDefault : Nat := 1

/-- `DUP_ACK_NUM`: a sender counts a packet lost only after 3 duplicate ACKs in a row. -/
def dupAckMax : Nat := 3

/-- `my_timer_t`, without the length of the timeout: a timeout may fire at any time. -/
structure MyTimer where
  running : Bool
  id : Nat
deriving DecidableEq, Repr

/-- `init_timer` -/
def initTimer (id : Nat) : MyTimer := { running := false, id := id }

/-- `sender` -/
structure Sender (F : Type) where
  ssthresh : Nat
  cwnd : F
  lastSent : Nat
  lastAcked : Nat
  lastAvailable : Nat
  dupAckNum : Nat
  pktNum : Nat
  timer : MyTimer
  pkts : List Packet
  pReceiver : Option PeerRef

/-- `receiver` -/
structure Receiver where
  lastRead : Nat
  lastRcvd : Nat
  nextExpected : Nat
  chunk : ChunkRef
  pSender : PeerRef
deriving DecidableEq, Repr

/-! ## Senders -/

section Sender

variable {F : Type} [NatCast F] [Add F] [Div F] [LE F] [DecidableLE F] [TruncU32 F]

/-- The record `add_sender` allocates. -/
def newSender (pRcvr : Option PeerRef) (pkts : List Packet) (num : Nat) : Sender F where
  ssthresh := ssthreshDefault
  cwnd := (cwndDefault : F)
  lastSent := 0
  lastAcked := 0
  lastAvailable := cwndDefault
  dupAckNum := 0
  pktNum := num
  timer := initTimer 0
  pkts := pkts
  pReceiver := pRcvr

namespace Sender

/-- `retransmit`: go back to `lastAcked` and send everything after it again. -/
def retransmit (sdr : Sender F) (lastAcked : Nat) : Sender F :=
  let slow := sdr.cwnd ≤ (sdr.ssthresh : F)
  -- slow start again, or fast recovery with half the window
  let ssthresh := if slow then truncU32 sdr.cwnd else truncU32 (sdr.cwnd / ((2 : Nat) : F))
  let cwnd : F := if slow then ((1 : Nat) : F) else ((ssthresh + dupAckMax : Nat) : F)
  { sdr with
    lastSent := lastAcked
    lastAcked := lastAcked
    dupAckNum := 1
    ssthresh := ssthresh
    cwnd := cwnd
    lastAvailable := truncU32 ((lastAcked : F) + cwnd) }

/-- `t_start` once its wait is over: the timeout of `id` counts only if the timer
has not been set to another packet since. -/
def tStart (sdr : Sender F) (id : Nat) : Sender F :=
  if sdr.timer.id = id then sdr.retransmit id else sdr

/-- `stop_timer`.  A timeout that is already waiting does not read the flag again. -/
def stopTimer (sdr : Sender F) : Sender F :=
  { sdr with timer := { sdr.timer with running := false } }

end Sender

end Sender

/-! ## Threads -/

/-- Where the thread running `process_sender` is. -/
inductive Phase where
  | created | looping | returned
deriving DecidableEq, Repr

/-- A sender with the threads that work on it: the one running `process_sender`,
and one waiting in `t_start` for every timer started, with the packet number it
read from the timer. -/
structure SenderThread (F : Type) where
  sdr : Sender F
  timeouts : List Nat
  phase : Phase

namespace SenderThread

variable {F : Type}

/-- `start_timer`: the new thread finds the timer running and waits for the
packet number it then shows. -/
def startTimer (t : SenderThread F) : SenderThread F where
  sdr := { t.sdr with timer := { t.sdr.timer with running := true } }
  timeouts := t.sdr.timer.id :: t.timeouts
  phase := t.phase

/-- `init_timer` on the first packet of the window, then `start_timer`. -/
def armTimer (t : SenderThread F) : SenderThread F :=
  startTimer { t with sdr := { t.sdr with timer := initTimer t.sdr.lastAcked } }

end SenderThread

/-! ## Pools -/

/-- The pools of `define_pool`: a queue of workers, its limit, and a count kept
beside it. -/
structure Pool (α : Type) where
  maxNum : Int
  curNum : Int
  workers : List α

namespace Pool

variable {α : Type}

/-- `init_sender_pool` and `init_receiver_pool` -/
def init (max : Int) : Pool α := { maxNum := max, curNum := 0, workers := [] }

/-- The end of `add_sender` and `add_receiver`; `none` when the pool is full. -/
def add (pool : Pool α) (worker : α) : Option (Pool α) :=
  if pool.maxNum ≤ pool.curNum then none
  else some { pool with curNum := pool.curNum + 1, workers := pool.workers ++ [worker] }

/-- The search of `get_sender` and `get_receiver`. -/
def get (pool : Pool α) (serves : α → Bool) : Option α := pool.workers.find? serves

/-- The loop of `remove_sender` and `remove_receiver`, run `n` times: the front of
the queue is dropped if it is the one looked for, and put at the end otherwise.
The flag tells whether one was dropped. -/
def removeLoop (serves : α → Bool) : Nat → List α → List α × Bool
  | 0, queue => (queue, false)
  | _ + 1, [] => ([], false)
  | n + 1, w :: queue => if serves w then (queue, true) else removeLoop serves n (queue ++ [w])

/-- `remove_sender` and `remove_receiver` -/
def remove (pool : Pool α) (serves : α → Bool) : Pool α :=
  let (queue, found) := removeLoop serves pool.curNum.toNat pool.workers
  { pool with workers := queue, curNum := if found then pool.curNum - 1 else pool.curNum }

end Pool

/-- `receiver_pool_t` -/
abbrev ReceiverPool := Pool Receiver

/-- The record `add_receiver` allocates. -/
def newReceiver (pSdr : PeerRef) (chunk : ChunkRef) : Receiver where
  lastRead := 0
  lastRcvd := 0
  nextExpected := 1
  chunk := chunk
  pSender := pSdr

/-- `add_receiver` -/
def addReceiver (pool : ReceiverPool) (pSdr : PeerRef) (chunk : ChunkRef) : Option ReceiverPool :=
  pool.add (newReceiver pSdr chunk)

/-- `get_receiver`; nothing serves a `NULL` peer. -/
def getReceiver (pool : ReceiverPool) (pSdr : Option PeerRef) : Option Receiver :=
  pSdr.bind fun p ↦ pool.get fun r ↦ r.pSender == p

/-- `remove_receiver` -/
def removeReceiver (pool : ReceiverPool) (rcvr : Receiver) : ReceiverPool :=
  pool.remove fun r ↦ r.pSender == rcvr.pSender

end BitTorrent
