import Mathlib.Data.List.Basic

/-!
# Packets

The packet layout of `packet.h` and the constructors of `packet.c`.  A packet is
held in host byte order: `send_PKT` swaps the multi-byte fields before the
datagram leaves and swaps them back afterwards, and `process_PKT` swaps them
once on arrival, so every handler sees the header the other peer built.

Header fields keep the widths of `pkt_header`.  `packet` ends in a flexible
array `data[0]`; here `data` holds the payload bytes that follow the header.
-/

namespace BitTorrent

/-- `PKT_SIZE`: the maximum packet size for UDP. -/
def pktSize : Nat := 1500

/-- `HDR_SIZE`: the header length. -/
def hdrSize : Nat := 16

/-- `DATA_SIZE`: the maximum data size. -/
def dataSize : Nat := 1400

/-- `MAGIC` -/
def magic : UInt16 := 15441

/-- `VERSION` -/
def version : UInt8 := 1

/-- `INIT_SEQ` -/
def initSeq : UInt32 := 0

/-- `INIT_ACK` -/
def initAck : UInt32 := 0

/-- `SHA1_HASH_SIZE` of `sha.h`. -/
def sha1HashSize : Nat := 20

/-- `pkt_type` -/
inductive PktType where
  | whohas | ihave | get | data | ack | denied
deriving DecidableEq, Repr

/-- The value of a `pkt_type` constant, as it stands in `packet_type`. -/
def PktType.code : PktType → UInt8
  | .whohas => 0
  | .ihave => 1
  | .get => 2
  | .data => 3
  | .ack => 4
  | .denied => 5

/-- `pkt_header` -/
structure PktHeader where
  magicNum : UInt16
  versionNum : UInt8
  packetType : UInt8
  headerLen : UInt16
  totalPktLen : UInt16
  seqNum : UInt32
  ackNum : UInt32
deriving DecidableEq, Repr

/-- `packet` -/
structure Packet where
  header : PktHeader
  data : List UInt8
deriving DecidableEq, Repr

/-- `init`: fill in the header and copy `totLen - HDR_SIZE` bytes of `data`. -/
def init (type : UInt8) (totLen : UInt16) (seq ack : UInt32) (data : List UInt8) : Packet where
  header :=
    { magicNum := magic
      versionNum := version
      packetType := type
      headerLen := UInt16.ofNat hdrSize
      totalPktLen := totLen
      seqNum := seq
      ackNum := ack }
  data := data.take (totLen.toNat - hdrSize)

/-- `make_PKT`: only a DATA packet carries a sequence number, only an ACK an
acknowledgment number. -/
def makePKT (type : PktType) (seqAck : UInt32) (size : Nat) (data : List UInt8) : Packet :=
  init type.code (UInt16.ofNat (hdrSize + size))
    (if type = .data then seqAck else initSeq) (if type = .ack then seqAck else initAck) data

/-- `make_WHOHAS` -/
def makeWHOHAS (size : Nat) (data : List UInt8) : Packet := makePKT .whohas 0 size data

/-- `make_IHAVE` -/
def makeIHAVE (size : Nat) (data : List UInt8) : Packet := makePKT .ihave 0 size data

/-- `make_GET` -/
def makeGET (data : List UInt8) : Packet := makePKT .get 0 sha1HashSize data

/-- `make_DATA` -/
def makeDATA (seqAck : UInt32) (size : Nat) (data : List UInt8) : Packet :=
  makePKT .data seqAck size data

/-- `make_ACK` -/
def makeACK (seqAck : UInt32) : Packet := makePKT .ack seqAck 0 []

/-! ## What the constructors put in a packet -/

/-- The length fields of a packet with a payload the 16-bit length can hold. -/
theorem totalPktLen_makePKT (type : PktType) (seqAck : UInt32) {size : Nat} (data : List UInt8)
    (h : hdrSize + size < 65536) :
    (makePKT type seqAck size data).header.totalPktLen.toNat = hdrSize + size := by
  simp only [makePKT, init, UInt16.toNat_ofNat']
  exact Nat.mod_eq_of_lt h

@[simp] theorem headerLen_makePKT (type : PktType) (seqAck : UInt32) (size : Nat)
    (data : List UInt8) : (makePKT type seqAck size data).header.headerLen.toNat = hdrSize := rfl

/-- The payload of a packet is the data handed to its constructor. -/
theorem data_makePKT (type : PktType) (seqAck : UInt32) {size : Nat} {data : List UInt8}
    (h : hdrSize + size < 65536) (hd : data.length = size) :
    (makePKT type seqAck size data).data = data := by
  have hlen := totalPktLen_makePKT type seqAck data h
  simp only [makePKT, init] at hlen ⊢
  rw [hlen, Nat.add_sub_cancel_left, ← hd, List.take_length]

@[simp] theorem seqNum_makeDATA (seq : UInt32) (size : Nat) (data : List UInt8) :
    (makeDATA seq size data).header.seqNum = seq := rfl

@[simp] theorem ackNum_makeACK (ack : UInt32) : (makeACK ack).header.ackNum = ack := rfl

end BitTorrent
