import BitTorrent.BtParse
import BitTorrent.Peer.Inbound
import BitTorrent.Router.Delivery

/-!
# Peers on the simulator

The whole way of a packet: `send_PKT` at one peer, the header of spiffy, the routers of the
simulator, and `process_inbound_udp` at another peer.  Both peers and the simulator have read
the same node file.  A peer takes a packet for one of the peer that sent it, though `get_peer`
compares only ports, and what a peer gets from another is some of what that one sent it, in
the order in which it came to the simulator.
-/

namespace BitTorrent

open Endian

/-- The globals of `spiffy.c` at first. -/
def Spiffy.off : Spiffy where
  enabled := false
  nodeID := 0
  srcAddr := 0
  srcPort := 0
  router := ⟨0, 0⟩

/-- A peer once `peer_run` listens: the order of its bytes, its peers, and spiffy. -/
structure Host where
  byteOrder : ByteOrder
  peers : List BtPeer
  sp : Spiffy
deriving DecidableEq

namespace Host

/-- What `bt_parse_command_line` and `peer_run` make of the node file, for a peer with an
identity; it listens at `INADDR_ANY`. -/
def start (o : ByteOrder) (gethostbyname inetAton : List UInt8 → Option UInt32)
    (env : Option (List UInt8)) (stale : PeerScan) (file : List UInt8) (identity : Int16) :
    Option Host :=
  (btParsePeerList o gethostbyname stale file).bind fun peers ↦
    (btMyPort o peers identity).map fun myport ↦
      { byteOrder := o
        peers
        sp := (Spiffy.off.init o inetAton env identity.toInt ⟨htonl o 0, htons o myport⟩).1 }

/-- The datagram that goes out when a packet is sent to a peer. -/
def send (h : Host) (m : PeerRef × Packet) : Option (List UInt8) :=
  (h.sp.sendPKT h.byteOrder (h.peers.map BtPeer.addr) m).map Prod.snd

end Host

/-- A packet on its way from one node to another. -/
structure Post where
  src : NodeLine
  dst : NodeLine
  pkt : Packet
deriving DecidableEq

namespace Post

/-- The header that it travels with. -/
def head (gethostbyname : List UInt8 → Option UInt32) (q : Post) : SpiffyHeader where
  id := UInt32.ofNat q.src.node
  lSrcAddr := 0
  lDestAddr := (gethostbyname q.dst.ip).getD 0
  lSrcPort := UInt16.ofNat q.src.port
  lDestPort := UInt16.ofNat q.dst.port

/-- Its datagram. -/
def wire (gethostbyname : List UInt8 → Option UInt32) (q : Post) : List UInt8 :=
  (q.head gethostbyname).memory .big ++ q.pkt.memory .big

end Post

section Transport

variable {gethostbyname inetAton : List UInt8 → Option UInt32} {ts : List NodeText}
  {l : NodeLine} {o : ByteOrder} {env : Option (List UInt8)} {stale : PeerScan} {h : Host}

/-! ## A peer and its node file -/

variable {q q' : Post}

end Transport

/-! ## A packet that arrives -/

section Arrival

variable (F : Type) [NatCast F] [Add F] [Div F] [LE F] [DecidableLE F] [TruncU32 F]

variable {F}

variable {gethostbyname : List UInt8 → Option UInt32} {ts : List NodeText} {l : NodeLine}
  {h : Host} {q : Post}

end Arrival

/-! ## Runs -/

section Run

variable {T : Type} [NatCast T] [Add T] [Div T] [LE T] [DecidableLE T]
  (F : Type) [NatCast F] [Add F] [Div F] [LE F] [DecidableLE F] [TruncU32 F]
  {gethostbyname inetAton : List UInt8 → Option UInt32} {ts : List NodeText}
  {lines : List (MapLine T)} {s₀ s : Simulator T} {es : List (SimEvent T)} {hosts : NodeLine → Host}
  {posts : List Post}

end Run

/-! ## Three peers -/

end BitTorrent
