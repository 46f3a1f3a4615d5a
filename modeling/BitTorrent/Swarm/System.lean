import BitTorrent.Swarm.Uploads

/-!
# A downloading peer and the peers that serve it

The network loses, duplicates, delays and reorders DATA and ACK packets.  GET and DENIED
packets arrive, in the order in which they were sent.  An IHAVE packet may arrive from any
peer at any time and list anything.  The serving peers also hear from other peers, whose
packets may be anything.
-/

namespace BitTorrent

variable {F : Type} [NatCast F] [Add F] [Div F] [LE F] [DecidableLE F] [TruncU32 F]

/-- The downloading peer, as the others know it, the hash function, and what each peer's
`get_data_chunk` finds for a hash. -/
structure Setting where
  downloading : PeerRef
  shahash : List UInt8 → List UInt8
  getDataChunk : PeerRef → List UInt8 → Option ChunkData

/-- The downloading peer, the serving ones, and for each of these the packets in flight:
GETs and ACKs to it, DENIEDs and DATA packets from it. -/
structure Swarm (F : Type) where
  client : Client
  servers : PeerRef → Server F
  gets : PeerRef → List Packet
  denied : PeerRef → List Packet
  data : PeerRef → List Packet
  acks : PeerRef → List Packet

/-- What can happen in a swarm. -/
inductive SwarmEvent where
  | lookAt
  /-- An IHAVE packet arrives at the downloading peer. -/
  | ihave (p : PeerRef) (pkt : Packet)
  | deliverGet (p : PeerRef)
  | deliverDenied (p : PeerRef)
  | deliverData (p : PeerRef) (pkt : Packet)
  | deliverAck (p : PeerRef) (pkt : Packet)
  /-- The network turns the DATA and ACK packets in flight into others among them. -/
  | network (p : PeerRef) (data acks : List Packet)
  /-- A GET packet of another peer arrives at `p`. -/
  | otherGet (p : PeerRef) (pkt : Packet) (q : PeerRef)
  /-- An ACK packet of another peer arrives at `p`. -/
  | otherAck (p : PeerRef) (pkt : Packet) (q : PeerRef)
  /-- A thread of upload `i` of `p` makes a step. -/
  | thread (p : PeerRef) (i : SenderRef) (e : SendEvent)

namespace Swarm

/-- A downloading peer with the lines of its chunk file, and serving peers, each with its
own limit. -/
def start (maxDown : Int) (lines : List (Int × List UInt8)) (maxUp : PeerRef → Int) : Swarm F where
  client := .start maxDown lines
  servers p := { senders := [], pool := .init (maxUp p) }
  gets _ := []
  denied _ := []
  data _ := []
  acks _ := []

/-- The packets among those sent that are for `p`. -/
def sentTo (p : PeerRef) (sent : List (PeerRef × Packet)) : List Packet :=
  (sent.filter fun m ↦ m.1 = p).map Prod.snd

/-- The packets a step of upload `i` of `p` sends to the downloading peer. -/
def sends (π : Setting) (s : Swarm F) (p : PeerRef) (i : SenderRef) : SendEvent → List Packet
  | .iterate =>
      match (s.servers p).upload i with
      | some u => if u.sdr.pReceiver = some π.downloading then u.iterate.2 else []
      | none => []
  | _ => []

/-- The steps of the peers and the network. -/
def step (π : Setting) (s : Swarm F) : SwarmEvent → Option (Swarm F)
  | .lookAt => some
      { s with
        client := s.client.lookAt.1
        gets := fun p ↦ s.gets p ++ sentTo p s.client.lookAt.2 }
  | .ihave p pkt => (s.client.processIHAVE pkt (some p)).map fun c ↦ { s with client := c }
  | .deliverGet p =>
      match s.gets p with
      | [] => none
      | pkt :: rest =>
          ((s.servers p).processGETChecked (π.getDataChunk p) pkt (some π.downloading)).map
            fun (srv, sent) ↦
              { s with
                servers := Function.update s.servers p srv
                gets := Function.update s.gets p rest
                denied := Function.update s.denied p (s.denied p ++ sentTo π.downloading sent) }
  | .deliverDenied p =>
      match s.denied p with
      | [] => none
      | _ :: rest => some { s with denied := Function.update s.denied p rest }
  | .deliverData p pkt =>
      if pkt ∈ s.data p then
        (s.client.processDATA π.shahash pkt (some p)).map fun (c, replies) ↦
          { s with
            client := c
            data := Function.update s.data p ((s.data p).erase pkt)
            acks := Function.update s.acks p (replies ++ s.acks p) }
      else none
  | .deliverAck p pkt =>
      if pkt ∈ s.acks p then some
        { s with
          servers := Function.update s.servers p
            ((s.servers p).processACK pkt (some π.downloading))
          acks := Function.update s.acks p ((s.acks p).erase pkt) }
      else none
  | .network p data acks =>
      if data ⊆ s.data p ∧ acks ⊆ s.acks p then some
        { s with
          data := Function.update s.data p data
          acks := Function.update s.acks p acks }
      else none
  | .otherGet p pkt q =>
      if q ≠ π.downloading then
        ((s.servers p).processGETChecked (π.getDataChunk p) pkt (some q)).map
          fun (srv, _) ↦ { s with servers := Function.update s.servers p srv }
      else none
  | .otherAck p pkt q =>
      if q ≠ π.downloading then some
        { s with
          servers := Function.update s.servers p ((s.servers p).processACK pkt (some q)) }
      else none
  | .thread _ _ (.ack _) => none
  | .thread p i e => ((s.servers p).thread i e).map fun srv ↦
      { s with
        servers := Function.update s.servers p srv
        data := Function.update s.data p (s.sends π p i e ++ s.data p) }

end Swarm

end BitTorrent
