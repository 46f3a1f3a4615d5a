import BitTorrent.RcvSend

/-!
# Handlers of a serving peer

`process_WHOHAS`, `process_sender`, `process_ACK` and `process_GET` of `handler.c`.

A sender outlives its place in the pool: the thread that runs `process_sender`
keeps its pointer after `remove_sender`.  The senders of a peer are therefore
kept in the order they were added, for good, and the pool queues references.
-/

namespace BitTorrent

section Sender

variable {F : Type} [NatCast F] [Add F] [Div F] [LE F] [DecidableLE F] [TruncU32 F]

namespace Sender

/-- An ACK acknowledges more than the last one: the window moves on.  Slow start
adds one to the window.  Beyond the threshold the two branches of the source
differ in what they log only. -/
def advance (sdr : Sender F) (ackNum : Nat) : Sender F :=
  { sdr with
    lastAcked := ackNum
    lastAvailable := truncU32 ((ackNum : F) + sdr.cwnd)
    dupAckNum := 1
    cwnd := if sdr.cwnd ≤ (sdr.ssthresh : F) then sdr.cwnd + ((1 : Nat) : F)
      else sdr.cwnd + ((1 : Nat) : F) / sdr.cwnd }

/-- An ACK repeats the last one: at the third the sender goes back. -/
def duplicate (sdr : Sender F) (ackNum : Nat) : Sender F :=
  let sdr := { sdr with dupAckNum := sdr.dupAckNum + 1 }
  if dupAckMax ≤ sdr.dupAckNum then sdr.retransmit ackNum else sdr

/-- `process_ACK` once the sender is found.  The flag tells whether the sender is
removed from the pool.  Sequence numbers being unsigned, `ack_num < 0` never
holds. -/
def processACK (sdr : Sender F) (ackNum : Nat) : Sender F × Bool :=
  if sdr.pktNum ≤ ackNum then
    if sdr.lastSent < sdr.pktNum then (sdr, false) else (sdr.stopTimer, true)
  else if sdr.lastAcked < ackNum then ((sdr.advance ackNum).stopTimer, false)
  else if ackNum = sdr.lastAcked then ((sdr.duplicate ackNum).stopTimer, false)
  else (sdr.stopTimer, false)

end Sender

namespace SenderThread

/-- `process_sender` up to its loop. -/
def begin (t : SenderThread F) : SenderThread F := { t.armTimer with phase := .looping }

omit [NatCast F] [Add F] [Div F] [LE F] [DecidableLE F] [TruncU32 F] in
/-- The window has room for another packet, and there is one. -/
def CanSend (t : SenderThread F) : Prop :=
  t.sdr.lastSent < t.sdr.lastAvailable ∧ t.sdr.lastSent < t.sdr.pktNum

instance (t : SenderThread F) : Decidable t.CanSend := inferInstanceAs (Decidable (_ ∧ _))

/-- The sending half of an iteration: the packet after `last_sent`, if there is
room for it.  The timer is set for the first packet of the window only. -/
def trySend (t : SenderThread F) : SenderThread F × List Packet :=
  if t.CanSend then
    let t := if t.sdr.lastSent = t.sdr.lastAcked then t.armTimer else t
    ({ t with sdr := { t.sdr with lastSent := t.sdr.lastSent + 1 } },
      t.sdr.pkts[t.sdr.lastSent]?.toList)
  else (t, [])

/-- The exit test of the loop of `process_sender`. -/
def Done (t : SenderThread F) : Prop := t.sdr.pktNum ≤ t.sdr.lastAcked

instance (t : SenderThread F) : Decidable t.Done := inferInstanceAs (Decidable (_ ≤ _))

/-- One iteration of the loop of `process_sender`, with the packets it sends. -/
def iterate (t : SenderThread F) : SenderThread F × List Packet :=
  let (t, pkts) := t.trySend
  ({ t with phase := if t.Done then .returned else t.phase }, pkts)

/-- The timeout of packet `id` fires in the thread that waits for it. -/
def timeout (t : SenderThread F) (id : Nat) : SenderThread F :=
  { t with sdr := t.sdr.tStart id, timeouts := t.timeouts.erase id }

end SenderThread

/-! ## The peer -/

/-- A pointer to a `sender`. -/
abbrev SenderRef := Nat

/-- A serving peer: every sender it has added so far, and `sender_pool`. -/
structure Server (F : Type) where
  senders : List (SenderThread F)
  pool : Pool SenderRef

namespace Server

/-- The pool entry `i` is a sender to `pRcvr`. -/
def serves (srv : Server F) (pRcvr : Option PeerRef) (i : SenderRef) : Bool :=
  srv.senders[i]?.any fun t ↦ t.sdr.pReceiver == pRcvr

/-- `get_sender`; a `NULL` peer has no sender. -/
def getSender (srv : Server F) (pRcvr : Option PeerRef) : Option SenderRef :=
  pRcvr.bind fun _ ↦ srv.pool.get (srv.serves pRcvr)

/-- Replace the state of sender `i`. -/
def setSender (srv : Server F) (i : SenderRef) (t : SenderThread F) : Server F :=
  { srv with senders := srv.senders.set i t }

/-- `add_sender` and the creation of the thread; `none` when the pool is full. -/
def addSender (srv : Server F) (pRcvr : Option PeerRef) (pkts : List Packet) (num : Nat) :
    Option (Server F) :=
  (srv.pool.add srv.senders.length).map fun pool ↦
    { senders := srv.senders ++ [{ sdr := newSender pRcvr pkts num, timeouts := [], phase := .created }]
      pool := pool }

/-- `remove_sender` -/
def removeSender (srv : Server F) (i : SenderRef) (t : SenderThread F) : Server F :=
  { senders := srv.senders.set i { t with sdr := t.sdr.stopTimer }
    pool := srv.pool.remove (srv.serves t.sdr.pReceiver) }

/-- `process_ACK` -/
def processACK (srv : Server F) (pkt : Packet) (peer : Option PeerRef) : Server F :=
  match srv.getSender peer with
  | none => srv
  | some i =>
      match srv.senders[i]? with
      | none => srv
      | some t =>
          let (sdr, removed) := t.sdr.processACK pkt.header.ackNum.toNat
          if removed then srv.removeSender i { t with sdr := sdr }
          else srv.setSender i { t with sdr := sdr }

/-- A packet handed to `send_PKT`, which sends nothing to a `NULL` peer. -/
def sendPKT (peer : Option PeerRef) (pkt : Packet) : List (PeerRef × Packet) :=
  peer.toList.map fun p ↦ (p, pkt)

/-- `process_WHOHAS`, with the packet it sends: of all the packets `chunks2pkts` builds
for the reply only the first one. -/
def processWHOHAS (hasChunks : Option (List ChunkT)) (pkt : Packet) (peer : Option PeerRef) :
    Option (List (PeerRef × Packet)) :=
  (pkt2chunks pkt .whohas).map fun whoHas ↦
    let iHave := whichIHave hasChunks whoHas
    if iHave.isEmpty then []
    else (((chunks2pkts iHave .ihave).bind List.head?).toList).flatMap (sendPKT peer)

/-- `process_GET`.  `getDataChunk` stands for `get_data_chunk`: the chunk the
peer's files hold for the hash in the packet. -/
def processGET (getDataChunk : List UInt8 → ChunkData) (srv : Server F) (pkt : Packet)
    (peer : Option PeerRef) : Server F × List (PeerRef × Packet) :=
  match (srv.getSender peer).bind fun i ↦ srv.senders[i]?.map fun t ↦ (i, t) with
  | some (i, t) =>
      -- the previous request of this peer: closed if all of it was sent, else still busy
      if t.sdr.lastSent = t.sdr.pktNum then openUpload (srv.removeSender i t) else (srv, [])
  | none => openUpload srv
where
  /-- The request is denied if the pool is full, and opens an upload otherwise. -/
  openUpload (srv : Server F) : Server F × List (PeerRef × Packet) :=
    let (pkts, num) := chunk2pkts (getDataChunk (pkt.data.take sha1HashSize))
    match srv.addSender peer pkts num with
    | none => (srv, sendPKT peer (makePKT .denied 0 0 []))
    | some srv => (srv, [])

/-- `process_GET` with its accesses checked.  There is no value where the packet lacks
the twenty bytes of a hash, nor where `get_data_chunk` returns `NULL`, through which
`chunk2pkts` reads. -/
def processGETChecked (getDataChunk : List UInt8 → Option ChunkData) (srv : Server F) (pkt : Packet)
    (peer : Option PeerRef) : Option (Server F × List (PeerRef × Packet)) :=
  match (srv.getSender peer).bind fun i ↦ srv.senders[i]?.map fun t ↦ (i, t) with
  | some (i, t) =>
      if t.sdr.lastSent = t.sdr.pktNum then openUpload (srv.removeSender i t) else some (srv, [])
  | none => openUpload srv
where
  /-- The files are read only once there is room in the pool. -/
  openUpload (srv : Server F) : Option (Server F × List (PeerRef × Packet)) :=
    if srv.pool.maxNum ≤ srv.pool.curNum then some (srv, sendPKT peer (makePKT .denied 0 0 []))
    else
      (Bytes.slice pkt.data 0 sha1HashSize).bind fun hash ↦
        (getDataChunk hash).bind fun chunk ↦
          (srv.addSender peer (chunk2pkts chunk).1 (chunk2pkts chunk).2).map fun srv ↦ (srv, [])

omit [Add F] [Div F] [LE F] [DecidableLE F] [TruncU32 F] in
/-- `add_sender` refuses when the pool is full. -/
theorem addSender_of_full {srv : Server F} (h : srv.pool.maxNum ≤ srv.pool.curNum)
    (peer : Option PeerRef) (pkts : List Packet) (num : Nat) : srv.addSender peer pkts num = none := by
  rw [addSender, Pool.add, if_pos h]
  rfl

omit [Add F] [Div F] [LE F] [DecidableLE F] [TruncU32 F] in
/-- Where the accesses are right, the checked handler does what the plain one does. -/
theorem processGET_of_checked {getDataChunk : List UInt8 → ChunkData} {srv : Server F} {pkt : Packet}
    {peer : Option PeerRef} {r : Server F × List (PeerRef × Packet)}
    (h : srv.processGETChecked (fun hash ↦ some (getDataChunk hash)) pkt peer = some r) :
    srv.processGET getDataChunk pkt peer = r := by
  have hopen : ∀ srv' : Server F,
      processGETChecked.openUpload (fun hash ↦ some (getDataChunk hash)) pkt peer srv' = some r →
      processGET.openUpload getDataChunk pkt peer srv' = r := by
    intro srv' hr
    rw [processGETChecked.openUpload] at hr
    split at hr
    · next hfull =>
        simp only [processGET.openUpload, addSender_of_full hfull]
        exact Option.some.inj hr
    · next hroom =>
        obtain ⟨hash, hslice, hr⟩ := Option.bind_eq_some_iff.mp hr
        have hhash : pkt.data.take sha1HashSize = hash := by
          rw [Bytes.slice, Option.ite_none_right_eq_some, List.drop_zero] at hslice
          exact Option.some.inj hslice.2
        obtain ⟨srv'', hadd, rfl⟩ := Option.map_eq_some_iff.mp hr
        simp only [processGET.openUpload, hhash, hadd]
  cases hfound : (srv.getSender peer).bind fun i ↦ srv.senders[i]?.map fun t ↦ (i, t) with
  | none =>
      rw [processGETChecked, hfound] at h
      rw [processGET, hfound]
      exact hopen srv h
  | some it =>
      rw [processGETChecked, hfound] at h
      rw [processGET, hfound]
      by_cases hsent : it.2.sdr.lastSent = it.2.sdr.pktNum
      · simp only [hsent, if_true] at h ⊢
        exact hopen _ h
      · simp only [hsent, if_false] at h ⊢
        exact Option.some.inj h

end Server

end Sender

end BitTorrent
