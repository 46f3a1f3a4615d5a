import BitTorrent.Library.Stdio
import BitTorrent.Peer.System
import BitTorrent.Router

/-!
# Datagrams behind a spiffy header

`spiffy.c`.  With `SPIFFY_ROUTER` set, `spiffy_sendto` puts a header in front of a datagram
and sends it to the simulator, and `spiffy_recvfrom` takes the header off again.  It copies
as many bytes as the buffer of its caller has, however few were received: what stands there
behind the datagram is what `malloc` left.

Addresses and ports are numbers as a host has them in a `sockaddr_in`: in network order,
read in its own.
-/

namespace BitTorrent

open Endian

/-- `BUFLEN` -/
def bufLen : Nat := 1500

/-- `spiffy_header` -/
structure SpiffyHeader where
  id : UInt32
  lSrcAddr : UInt32
  lDestAddr : UInt32
  lSrcPort : UInt16
  lDestPort : UInt16
deriving DecidableEq, Repr

namespace SpiffyHeader

/-- `sizeof(spiffy_header)` -/
def size : Nat := 16

/-- The bytes of a header in memory. -/
def memory (o : ByteOrder) (head : SpiffyHeader) : List UInt8 :=
  bytes o 4 head.id.toNat ++ bytes o 4 head.lSrcAddr.toNat ++ bytes o 4 head.lDestAddr.toNat ++
    bytes o 2 head.lSrcPort.toNat ++ bytes o 2 head.lDestPort.toNat

/-- The header that lies at the start of a piece of memory. -/
def ofMemory (o : ByteOrder) (mem : List UInt8) : SpiffyHeader where
  id := UInt32.ofNat (ofBytes o (mem.take 4))
  lSrcAddr := UInt32.ofNat (ofBytes o ((mem.drop 4).take 4))
  lDestAddr := UInt32.ofNat (ofBytes o ((mem.drop 8).take 4))
  lSrcPort := UInt16.ofNat (ofBytes o ((mem.drop 12).take 2))
  lDestPort := UInt16.ofNat (ofBytes o ((mem.drop 14).take 2))

end SpiffyHeader

/-- The globals of `spiffy.c`. -/
structure Spiffy where
  enabled : Bool
  nodeID : Int
  srcAddr : UInt32
  srcPort : UInt16
  router : SockAddr
deriving DecidableEq, Repr

/-- `atoi` -/
def atoi (s : List UInt8) : Int := ((Stdio.scanInt s).map Prod.fst).getD 0

/-- `spiffy_init`, with what it returns.  `env` is the value of `SPIFFY_ROUTER`, and `inetAton`
stands for `inet_aton`. -/
def Spiffy.init (o : ByteOrder) (inetAton : List UInt8 → Option UInt32)
    (env : Option (List UInt8)) (sp : Spiffy) (lNodeID : Int) (addr : SockAddr) : Spiffy × Int :=
  match env with
  | none => (sp, 1)
  | some name =>
      match Stdio.strchr name 58 with
      | none => (sp, -1)
      | some colon =>
          let port := htons o (UInt16.ofInt (atoi (Stdio.cString (name.drop (colon + 1)))))
          let sp := { sp with router := { sp.router with port := port } }
          match inetAton (name.take colon) with
          | none => (sp, -1)
          | some sinAddr =>
              ({ enabled := true
                 nodeID := lNodeID
                 srcAddr := addr.addr
                 srcPort := addr.port
                 router := { sp.router with addr := sinAddr } }, 0)

/-- `spiffy_sendto`: where it sends a message that is for `dst`, and the datagram. -/
def Spiffy.sendto (o : ByteOrder) (sp : Spiffy) (msg : List UInt8) (dst : SockAddr) :
    SockAddr × List UInt8 :=
  if sp.enabled then
    let head : SpiffyHeader :=
      { id := htonl o (UInt32.ofInt sp.nodeID)
        lSrcAddr := sp.srcAddr
        lDestAddr := dst.addr
        lSrcPort := sp.srcPort
        lDestPort := dst.port }
    (sp.router, head.memory o ++ msg)
  else (dst, msg)

/-- `send_PKT` to the peers it knows, with the packet converted in place and back. -/
def Spiffy.sendPKT (o : ByteOrder) (sp : Spiffy) (peers : List SockAddr) (m : PeerRef × Packet) :
    Option (SockAddr × List UInt8) :=
  (peers[m.1]?).bind fun addr ↦ (m.2.sendPKT o).1.map fun msg ↦ sp.sendto o msg addr

/-- Memory that was not written yet. -/
def unwritten (garbage : Nat → UInt8) (size : Nat) : List UInt8 := (List.range size).map garbage

/-- `recvfrom`: the number of bytes received, and the buffer. -/
def recvfrom (buffer datagram : List UInt8) : Nat × List UInt8 :=
  let received := datagram.take buffer.length
  (received.length, received ++ buffer.drop received.length)

/-- `spiffy_recvfrom`: what it returns, the buffer and the address.  `heap` is what `malloc`
leaves in its memory, and `src` where the datagram comes from. -/
def Spiffy.recvfrom (o : ByteOrder) (sp : Spiffy) (heap : Nat → UInt8) (buffer : List UInt8)
    (addr : SockAddr) (datagram : List UInt8) (src : SockAddr) : Int × List UInt8 × SockAddr :=
  if sp.enabled then
    let (retVal, newbuf) :=
      BitTorrent.recvfrom (unwritten heap (buffer.length + SpiffyHeader.size)) datagram
    if 0 < retVal then
      let head := SpiffyHeader.ofMemory o newbuf
      (retVal - SpiffyHeader.size, newbuf.drop SpiffyHeader.size, ⟨head.lSrcAddr, head.lSrcPort⟩)
    else (retVal, buffer, addr)
  else
    let (retVal, buffer) := BitTorrent.recvfrom buffer datagram
    (retVal, buffer, src)

/-- What a peer finds in the memory that it reads without having written it: where `malloc`
returns it, in the buffer of `process_inbound_udp`, and in its address. -/
structure Garbage where
  heap : Nat → UInt8
  buf : Nat → UInt8
  addr : SockAddr

/-- `process_inbound_udp` up to its call of `process_PKT`: the whole buffer, and the address. -/
def Spiffy.inbound (o : ByteOrder) (sp : Spiffy) (g : Garbage) (datagram : List UInt8)
    (src : SockAddr) : Option (List UInt8 × SockAddr) :=
  let (retVal, buf, addr) := sp.recvfrom o g.heap (unwritten g.buf bufLen) g.addr datagram src
  if retVal ≠ -1 then some (buf, addr) else none

/-- `process_inbound_udp`: the peer, and the packets sent. -/
def Peer.processInboundUdp {F : Type} [NatCast F] [Add F] [Div F] [LE F] [DecidableLE F] [TruncU32 F]
    (cfg : Config) (sp : Spiffy) (g : Garbage) (s : Peer F) (datagram : List UInt8)
    (src : SockAddr) : Option (Peer F × List (PeerRef × Packet)) :=
  match sp.inbound cfg.byteOrder g datagram src with
  | some (buf, addr) => s.processPKT cfg buf addr
  | none => some (s, [])

/-! ## The header on the way -/

/-- What a host with byte order `o` reads where one with byte order `o'` wrote an address. -/
def SockAddr.reorder (o o' : ByteOrder) (addr : SockAddr) : SockAddr :=
  ⟨UInt32.ofNat (Endian.reorder o o' 4 addr.addr.toNat),
    UInt16.ofNat (Endian.reorder o o' 2 addr.port.toNat)⟩

/-- An address and a port as a host has them in a `sockaddr_in`. -/
def SockAddr.net (o : ByteOrder) (addr : SockAddr) : SockAddr := addr.reorder o .big

namespace SpiffyHeader

variable {o o' : ByteOrder} {head : SpiffyHeader}

/-- The address of the sender. -/
def src (head : SpiffyHeader) : SockAddr := ⟨head.lSrcAddr, head.lSrcPort⟩

/-- What a host with byte order `o` reads where one with byte order `o'` wrote a header. -/
def reorder (o o' : ByteOrder) (head : SpiffyHeader) : SpiffyHeader where
  id := UInt32.ofNat (Endian.reorder o o' 4 head.id.toNat)
  lSrcAddr := UInt32.ofNat (Endian.reorder o o' 4 head.lSrcAddr.toNat)
  lDestAddr := UInt32.ofNat (Endian.reorder o o' 4 head.lDestAddr.toNat)
  lSrcPort := UInt16.ofNat (Endian.reorder o o' 2 head.lSrcPort.toNat)
  lDestPort := UInt16.ofNat (Endian.reorder o o' 2 head.lDestPort.toNat)

@[simp] theorem src_reorder (o o' : ByteOrder) (head : SpiffyHeader) :
    (head.reorder o o').src = head.src.reorder o o' := rfl

@[simp] theorem length_memory (o : ByteOrder) (head : SpiffyHeader) :
    (head.memory o).length = size := by
  simp only [memory, List.length_append, length_bytes]
  rfl

/-- Both headers are the same bytes. -/
theorem memory_reorder (o o' : ByteOrder) (head : SpiffyHeader) :
    (head.reorder o o').memory o = head.memory o' := by
  have h16 : ∀ x : UInt16, (UInt16.ofNat (Endian.reorder o o' 2 x.toNat)).toNat =
      Endian.reorder o o' 2 x.toNat := fun x ↦ UInt16.toNat_ofNat_of_lt' (reorder_lt o o' 2 x.toNat)
  have h32 : ∀ x : UInt32, (UInt32.ofNat (Endian.reorder o o' 4 x.toNat)).toNat =
      Endian.reorder o o' 4 x.toNat := fun x ↦ UInt32.toNat_ofNat_of_lt' (reorder_lt o o' 4 x.toNat)
  simp only [memory, reorder, h16, h32, bytes_reorder]

/-- A header is read back from where it was written. -/
theorem ofMemory_memory (o : ByteOrder) (head : SpiffyHeader) (rest : List UInt8) :
    ofMemory o (head.memory o ++ rest) = head := by
  have h16 : ∀ x : UInt16, UInt16.ofNat (ofBytes o (bytes o 2 x.toNat)) = x := fun x ↦ by
    rw [ofBytes_bytes o x.toNat_lt, UInt16.ofNat_toNat]
  have h32 : ∀ x : UInt32, UInt32.ofNat (ofBytes o (bytes o 4 x.toNat)) = x := fun x ↦ by
    rw [ofBytes_bytes o x.toNat_lt, UInt32.ofNat_toNat]
  simp [ofMemory, memory, List.drop_append, drop_bytes, h16, h32]

/-- What one host wrote another reads. -/
theorem ofMemory_reorder (o o' : ByteOrder) (head : SpiffyHeader) (rest : List UInt8) :
    ofMemory o (head.memory o' ++ rest) = head.reorder o o' := by
  rw [← memory_reorder o o' head, ofMemory_memory]

end SpiffyHeader

/-! ## What is received -/

@[simp] theorem length_unwritten (garbage : Nat → UInt8) (size : Nat) :
    (unwritten garbage size).length = size := by
  rw [unwritten, List.length_map, List.length_range]

/-- A datagram that fits is received whole; behind it the buffer stays as it was. -/
theorem recvfrom_of_le {buffer datagram : List UInt8} (h : datagram.length ≤ buffer.length) :
    recvfrom buffer datagram =
      (datagram.length, datagram ++ buffer.drop datagram.length) := by
  simp only [recvfrom, List.take_of_length_le h]

namespace Spiffy

variable {o : ByteOrder} {sp : Spiffy} {g : Garbage} {datagram msg : List UInt8} {src : SockAddr}

/-- Of a datagram with a header `process_PKT` gets what stands behind the header, followed by
what `malloc` left, and as the sender's address the one in the header. -/
theorem inbound_memory (h : sp.enabled = true) (o' : ByteOrder) (head : SpiffyHeader)
    (hlen : msg.length ≤ bufLen) :
    sp.inbound o g (head.memory o' ++ msg) src =
      some (msg ++ (unwritten g.heap (bufLen + SpiffyHeader.size)).drop
          (SpiffyHeader.size + msg.length), head.src.reorder o o') := by
  have hsize : (head.memory o' ++ msg).length = SpiffyHeader.size + msg.length := by
    rw [List.length_append, SpiffyHeader.length_memory]
  have hpos : 0 < SpiffyHeader.size + msg.length := Nat.lt_add_right _ (by decide)
  have hret : ((SpiffyHeader.size + msg.length : Nat) : Int) - (SpiffyHeader.size : Nat) ≠ -1 := by
    omega
  rw [inbound, Spiffy.recvfrom, if_pos h, recvfrom_of_le (by
    rw [hsize, length_unwritten, length_unwritten, Nat.add_comm]
    exact Nat.add_le_add_right hlen _)]
  simp only [hsize, if_pos hpos, length_unwritten, List.append_assoc, SpiffyHeader.ofMemory_reorder]
  rw [if_pos hret, List.drop_left' (SpiffyHeader.length_memory o' head)]
  rfl

/-- Without spiffy the datagram is in front of the buffer, and its address that of the socket. -/
theorem inbound_of_not_enabled (h : sp.enabled ≠ true) (hlen : msg.length ≤ bufLen) :
    sp.inbound o g msg src = some (msg ++ (unwritten g.buf bufLen).drop msg.length, src) := by
  have hret : (msg.length : Int) ≠ -1 := by omega
  rw [inbound, Spiffy.recvfrom, if_neg h, recvfrom_of_le (by rwa [length_unwritten])]
  exact if_pos hret

/-- Only datagrams of one byte less than a header are ignored: what `spiffy_recvfrom` returns
for them is what it returns for an error. -/
theorem inbound_eq_none_iff :
    sp.inbound o g datagram src = none ↔ sp.enabled = true ∧ datagram.length + 1 = SpiffyHeader.size := by
  have hnone : sp.inbound o g datagram src = none ↔
      (sp.recvfrom o g.heap (unwritten g.buf bufLen) g.addr datagram src).1 = -1 := by
    simp [inbound]
  rw [hnone, Spiffy.recvfrom]
  by_cases h : sp.enabled = true
  · simp only [BitTorrent.recvfrom, length_unwritten, List.length_take, bufLen, SpiffyHeader.size, h,
      if_true, true_and]
    split <;> simp only <;> omega
  · rw [if_neg h]
    refine ⟨fun hret ↦ ?_, fun hc ↦ absurd hc.1 h⟩
    exact absurd hret (Int.ne_of_gt (by simp only; omega))

end Spiffy

end BitTorrent
