import BitTorrent.Library.Run
import BitTorrent.Handler.Upload
import BitTorrent.Handler.Download

/-!
# One upload

The system made of one sender, one receiver and the network between them, as
`add_sender` and `add_receiver` create them.  The network may lose, duplicate and
reorder packets; a handler runs to its end before the next step.

`Sending` is the sender's side on its own, driven by arbitrary acknowledgments.
`Upload` is the closed system, in which every acknowledgment comes from the
receiver.
-/

namespace BitTorrent

variable {F : Type} [NatCast F] [Add F] [Div F] [LE F] [DecidableLE F] [TruncU32 F]

/-! ## The sender's side -/

/-- A sender with its threads, and whether it is in `sender_pool`. -/
structure Sending (F : Type) extends SenderThread F where
  pooled : Bool

/-- What can happen to a sender. -/
inductive SendEvent where
  /-- The thread running `process_sender` starts. -/
  | begin
  /-- One iteration of its loop. -/
  | iterate
  /-- The timeout of packet `id` fires. -/
  | timeout (id : Nat)
  /-- `process_ACK` is called with the number `n`. -/
  | ack (n : Nat)
deriving DecidableEq, Repr

namespace Sending

/-- The sender as `add_sender` creates it. -/
def init (pRcvr : Option PeerRef) (pkts : List Packet) (num : Nat) : Sending F where
  sdr := newSender pRcvr pkts num
  timeouts := []
  phase := .created
  pooled := true

/-- `process_ACK`, which finds the sender as long as it is in the pool. -/
def processACK (s : Sending F) (n : Nat) : Sending F :=
  if s.pooled then
    { s with sdr := (s.sdr.processACK n).1, pooled := !(s.sdr.processACK n).2 }
  else s

/-- Start the thread. -/
def beginThread (s : Sending F) : Sending F := { s with toSenderThread := s.toSenderThread.begin }

/-- One iteration of the loop, with the packets it sends. -/
def iterate (s : Sending F) : Sending F × List Packet :=
  ({ s with toSenderThread := s.toSenderThread.iterate.1 }, s.toSenderThread.iterate.2)

/-- A timeout fires. -/
def timeout (s : Sending F) (id : Nat) : Sending F :=
  { s with toSenderThread := s.toSenderThread.timeout id }

/-- The steps of the sender's side. -/
def step (s : Sending F) : SendEvent → Option (Sending F)
  | .begin => if s.phase = .created then some s.beginThread else none
  | .iterate => if s.phase = .looping then some s.iterate.1 else none
  | .timeout id => if id ∈ s.timeouts then some (s.timeout id) else none
  | .ack n => some (s.processACK n)

end Sending

/-! ## The receiver's side -/

/-- A receiver, the buffer of its chunk, and whether it is in `receiver_pool`. -/
structure Receiving where
  rcvr : Receiver
  chunk : ChunkData
  opened : Bool

namespace Receiving

/-- The receiver as `add_receiver` creates it. -/
def init (pSdr : PeerRef) (chunk : ChunkRef) (buffer : ChunkData) : Receiving where
  rcvr := newReceiver pSdr chunk
  chunk := buffer
  opened := true

/-- `process_DATA`, which finds the receiver as long as it is in the pool, with
the acknowledgment it sends. -/
def processDATA (r : Receiving) (pkt : Packet) : Option (Receiving × List Packet) :=
  if r.opened then
    (r.rcvr.store r.chunk pkt).map fun (rcvr, chunk) ↦
      ({ rcvr := rcvr, chunk := chunk, opened := !decide rcvr.Complete },
        [makeACK (UInt32.ofNat rcvr.lastRcvd)])
  else some (r, [])

end Receiving

/-! ## The closed system -/

/-- One upload: both ends, the DATA and ACK packets in flight, and the sequence
numbers sent so far, which no step reads. -/
structure Upload (F : Type) where
  sending : Sending F
  receiving : Receiving
  data : List Packet
  acks : List Packet
  sent : List Nat

/-- What can happen during an upload. -/
inductive Event where
  | begin
  | iterate
  | timeout (id : Nat)
  /-- A DATA packet arrives. -/
  | deliverData (p : Packet)
  /-- An ACK packet arrives. -/
  | deliverAck (p : Packet)
  | loseData (p : Packet)
  | loseAck (p : Packet)
  | duplicateData (p : Packet)
  | duplicateAck (p : Packet)
deriving DecidableEq, Repr

/-- The event loses a packet. -/
def Event.IsLoss : Event → Prop
  | .loseData _ | .loseAck _ => True
  | _ => False

namespace Upload

/-- An upload of `content` from the state both ends are created in. -/
def init (pRcvr pSdr : PeerRef) (chunk : ChunkRef) (content buffer : ChunkData) : Upload F where
  sending := .init (some pRcvr) (chunk2pkts content).1 (chunk2pkts content).2
  receiving := .init pSdr chunk buffer
  data := []
  acks := []
  sent := []

/-- The sender. -/
abbrev sdr (u : Upload F) : Sender F := u.sending.sdr

/-- The receiver. -/
abbrev rcvr (u : Upload F) : Receiver := u.receiving.rcvr

/-- The steps of an upload. -/
def step (u : Upload F) : Event → Option (Upload F)
  | .begin => (u.sending.step .begin).map fun s ↦ { u with sending := s }
  | .iterate => (u.sending.step .iterate).map fun s ↦
      { u with
        sending := s
        data := u.sending.iterate.2 ++ u.data
        sent := u.sending.iterate.2.map (fun p ↦ p.header.seqNum.toNat) ++ u.sent }
  | .timeout id => (u.sending.step (.timeout id)).map fun s ↦ { u with sending := s }
  | .deliverData p =>
      if p ∈ u.data then
        (u.receiving.processDATA p).map fun (r, replies) ↦
          { u with receiving := r, data := u.data.erase p, acks := replies ++ u.acks }
      else none
  | .deliverAck p =>
      if p ∈ u.acks then
        (u.sending.step (.ack p.header.ackNum.toNat)).map fun s ↦
          { u with sending := s, acks := u.acks.erase p }
      else none
  | .loseData p => if p ∈ u.data then some { u with data := u.data.erase p } else none
  | .loseAck p => if p ∈ u.acks then some { u with acks := u.acks.erase p } else none
  | .duplicateData p => if p ∈ u.data then some { u with data := p :: u.data } else none
  | .duplicateAck p => if p ∈ u.acks then some { u with acks := p :: u.acks } else none

end Upload

end BitTorrent
