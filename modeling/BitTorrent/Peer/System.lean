import BitTorrent.Download.System
import BitTorrent.Upload.Serving
import BitTorrent.Wire

/-!
# A peer

A running peer serves and downloads at once: its senders with `sender_pool`, and
its records with `receiver_pool`.  `process_PKT` reads a packet out of a datagram,
drops it if `correct` does not accept it, looks its sender up in the configuration
and hands both to the handler of its type.  Every handler runs to its end before
the next step.
-/

namespace BitTorrent

open Endian

/-- What `get_peer` and `recvfrom` know of a peer: `sin_addr` and `sin_port`. -/
structure SockAddr where
  addr : UInt32
  port : UInt16
deriving DecidableEq, Repr

/-- `get_peer`: the first configured peer with the sender's port. -/
def getPeer (peers : List SockAddr) (addr : SockAddr) : Option PeerRef :=
  peers.findIdx? fun p ↦ p.port == addr.port

/-- What a peer is started with, and what its handlers find outside of it. -/
structure Config where
  byteOrder : ByteOrder
  peers : List SockAddr
  maxConn : Int
  /-- What `list_chunks` reads from the has-chunk file. -/
  hasChunks : Option (List ChunkT)
  /-- What `get_data_chunk` finds for a hash. -/
  getDataChunk : List UInt8 → ChunkData
  shahash : List UInt8 → List UInt8

/-- A running peer. -/
structure Peer (F : Type) where
  server : Server F
  client : Client

/-- What can happen to a peer. -/
inductive PeerEvent where
  /-- `process_PKT` hands a packet to the handler of its type. -/
  | packet (type : PktType) (pkt : Packet) (peer : Option PeerRef)
  /-- `process_download` is called with the lines of a chunk file. -/
  | download (lines : List (Int × List UInt8))
  | lookAt
  /-- A thread of sender `i` makes a step. -/
  | thread (i : SenderRef) (e : SendEvent)

namespace Peer

variable {F : Type} [NatCast F] [Add F] [Div F] [LE F] [DecidableLE F] [TruncU32 F]

/-- The `switch` of `process_PKT`, with the packets the handler sends.
`process_DENIED` does nothing. -/
def handle (cfg : Config) (s : Peer F) (type : PktType) (pkt : Packet) (peer : Option PeerRef) :
    Option (Peer F × List (PeerRef × Packet)) :=
  match type with
  | .whohas => (Server.processWHOHAS cfg.hasChunks pkt peer).map fun sent ↦ (s, sent)
  | .ihave => (s.client.processIHAVE pkt peer).map fun c ↦ ({ s with client := c }, [])
  | .get =>
      (s.server.processGETChecked (fun hash ↦ some (cfg.getDataChunk hash)) pkt peer).map
        fun (srv, sent) ↦ ({ s with server := srv }, sent)
  | .ack => some ({ s with server := s.server.processACK pkt peer }, [])
  | .data => (s.client.processDATA cfg.shahash pkt peer).map
      fun (c, acks) ↦ ({ s with client := c }, acks.flatMap (Server.sendPKT peer))
  | .denied => some (s, [])

/-- `process_PKT` once the packet is in host byte order. -/
def processPacket (cfg : Config) (s : Peer F) (pkt : Packet) (addr : SockAddr) :
    Option (Peer F × List (PeerRef × Packet)) :=
  if pkt.header.correct then
    match pktParseType pkt.header.packetType with
    | some type => s.handle cfg type pkt (getPeer cfg.peers addr)
    | none => some (s, [])
  else some (s, [])

/-- `process_PKT` -/
def processPKT (cfg : Config) (s : Peer F) (datagram : List UInt8) (addr : SockAddr) :
    Option (Peer F × List (PeerRef × Packet)) :=
  (Packet.receive cfg.byteOrder datagram).bind fun pkt ↦ s.processPacket cfg pkt addr

/-- A peer that has just been started. -/
def start (cfg : Config) : Peer F where
  server := { senders := [], pool := .init cfg.maxConn }
  client := .start cfg.maxConn []

/-- The steps of a peer. -/
def step (cfg : Config) (s : Peer F) : PeerEvent → Option (Peer F)
  | .packet type pkt peer => (s.handle cfg type pkt peer).map Prod.fst
  | .download lines => some { s with client := .start cfg.maxConn lines }
  | .lookAt => some { s with client := s.client.lookAt.1 }
  | .thread i e =>
      match e with
      | .ack _ => none
      | e => (s.server.thread i e).map fun srv ↦ { s with server := srv }

end Peer

end BitTorrent
