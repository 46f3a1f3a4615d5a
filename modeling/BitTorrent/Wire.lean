import BitTorrent.Library.Endian
import BitTorrent.Tracker.DataPackets
import BitTorrent.Tracker.HashLists

/-!
# Packets on the wire

`convert`, `send_PKT` and the checks of `correct` at the level of bytes.  A packet
in memory keeps its multi-byte fields in the byte order of the host, whatever that
is; `send_PKT` converts it in place, hands its first `total_pkt_len` bytes to the
socket and converts it back, and `process_PKT` converts what arrived.
-/

namespace BitTorrent

open Endian

variable {o o' : ByteOrder}

/-! ## Byte order -/

/-- `htons` on a host with byte order `o`. -/
def htons (o : ByteOrder) (x : UInt16) : UInt16 := UInt16.ofNat (reorder o .big 2 x.toNat)

/-- `ntohs` -/
def ntohs (o : ByteOrder) (x : UInt16) : UInt16 := UInt16.ofNat (reorder .big o 2 x.toNat)

/-- `htonl` -/
def htonl (o : ByteOrder) (x : UInt32) : UInt32 := UInt32.ofNat (reorder o .big 4 x.toNat)

/-- `ntohl` -/
def ntohl (o : ByteOrder) (x : UInt32) : UInt32 := UInt32.ofNat (reorder .big o 4 x.toNat)

theorem toNat_htons (o : ByteOrder) (x : UInt16) : (htons o x).toNat = reorder o .big 2 x.toNat :=
  UInt16.toNat_ofNat_of_lt' (reorder_lt o .big 2 x.toNat)

theorem toNat_htonl (o : ByteOrder) (x : UInt32) : (htonl o x).toNat = reorder o .big 4 x.toNat :=
  UInt32.toNat_ofNat_of_lt' (reorder_lt o .big 4 x.toNat)

@[simp] theorem ntohs_htons (o : ByteOrder) (x : UInt16) : ntohs o (htons o x) = x := by
  rw [ntohs, toNat_htons, reorder_reorder o .big x.toNat_lt, UInt16.ofNat_toNat]

@[simp] theorem ntohl_htonl (o : ByteOrder) (x : UInt32) : ntohl o (htonl o x) = x := by
  rw [ntohl, toNat_htonl, reorder_reorder o .big x.toNat_lt, UInt32.ofNat_toNat]

/-- `value_type` -/
inductive ValueType where
  | host | net
deriving DecidableEq, Repr

namespace PktHeader

/-- `convert` -/
def convert (o : ByteOrder) (header : PktHeader) : ValueType → PktHeader
  | .host =>
      { header with
        magicNum := ntohs o header.magicNum
        headerLen := ntohs o header.headerLen
        totalPktLen := ntohs o header.totalPktLen
        seqNum := ntohl o header.seqNum
        ackNum := ntohl o header.ackNum }
  | .net =>
      { header with
        magicNum := htons o header.magicNum
        headerLen := htons o header.headerLen
        totalPktLen := htons o header.totalPktLen
        seqNum := htonl o header.seqNum
        ackNum := htonl o header.ackNum }

@[simp] theorem convert_host_net (o : ByteOrder) (header : PktHeader) :
    (header.convert o .net).convert o .host = header := by
  simp only [convert, ntohs_htons, ntohl_htonl]

/-- The bytes of a `pkt_header` in memory. -/
def memory (o : ByteOrder) (header : PktHeader) : List UInt8 :=
  bytes o 2 header.magicNum.toNat ++ [header.versionNum, header.packetType] ++
    bytes o 2 header.headerLen.toNat ++ bytes o 2 header.totalPktLen.toNat ++
    bytes o 4 header.seqNum.toNat ++ bytes o 4 header.ackNum.toNat

/-- The `pkt_header` that lies at the start of a piece of memory. -/
def ofMemory (o : ByteOrder) (mem : List UInt8) : PktHeader where
  magicNum := UInt16.ofNat (ofBytes o (mem.take 2))
  versionNum := (mem.drop 2).headD 0
  packetType := (mem.drop 3).headD 0
  headerLen := UInt16.ofNat (ofBytes o ((mem.drop 4).take 2))
  totalPktLen := UInt16.ofNat (ofBytes o ((mem.drop 6).take 2))
  seqNum := UInt32.ofNat (ofBytes o ((mem.drop 8).take 4))
  ackNum := UInt32.ofNat (ofBytes o ((mem.drop 12).take 4))

@[simp] theorem length_memory (o : ByteOrder) (header : PktHeader) :
    (header.memory o).length = hdrSize := by
  simp only [memory, List.length_append, length_bytes, List.length_cons, List.length_nil]
  rfl

/-- A header is read back from where it was written. -/
theorem ofMemory_memory (o : ByteOrder) (header : PktHeader) (rest : List UInt8) :
    ofMemory o (header.memory o ++ rest) = header := by
  have h16 : ∀ x : UInt16, UInt16.ofNat (ofBytes o (bytes o 2 x.toNat)) = x := fun x ↦ by
    rw [ofBytes_bytes o x.toNat_lt, UInt16.ofNat_toNat]
  have h32 : ∀ x : UInt32, UInt32.ofNat (ofBytes o (bytes o 4 x.toNat)) = x := fun x ↦ by
    rw [ofBytes_bytes o x.toNat_lt, UInt32.ofNat_toNat]
  simp [ofMemory, memory, List.drop_append, drop_bytes, h16, h32]

/-- In network order a header is written the same on every host. -/
theorem memory_convert_net (o : ByteOrder) (header : PktHeader) :
    (header.convert o .net).memory o = header.memory .big := by
  simp only [memory, convert, toNat_htons, toNat_htonl, bytes_reorder]

/-- A header written in network order is read back by any host. -/
theorem convert_ofMemory (o : ByteOrder) (header : PktHeader) (rest : List UInt8) :
    (ofMemory o (header.memory .big ++ rest)).convert o .host = header := by
  rw [← memory_convert_net o header, ofMemory_memory, convert_host_net]

end PktHeader

/-! ## Sending and receiving -/

namespace Packet

/-- The bytes of a packet in memory. -/
def memory (o : ByteOrder) (pkt : Packet) : List UInt8 := pkt.header.memory o ++ pkt.data

/-- `send_PKT` to a known peer: the bytes handed to the socket, and the packet it
leaves in memory. -/
def sendPKT (o : ByteOrder) (pkt : Packet) : Option (List UInt8) × Packet :=
  let net := { pkt with header := pkt.header.convert o .net }
  (Bytes.slice (net.memory o) 0 (ntohs o net.header.totalPktLen).toNat,
    { net with header := net.header.convert o .host })

/-- `send_PKT` called again and again with the same packet. -/
def sendTimes (o : ByteOrder) (pkt : Packet) : Nat → List (Option (List UInt8)) × Packet
  | 0 => ([], pkt)
  | n + 1 =>
      let (sent, pkt) := pkt.sendPKT o
      let (rest, pkt) := pkt.sendTimes o n
      (sent :: rest, pkt)

/-- `process_PKT` up to its conversion: the packet in a datagram that holds at least
a header. -/
def receive (o : ByteOrder) (datagram : List UInt8) : Option Packet :=
  if hdrSize ≤ datagram.length then
    some
      { header := (PktHeader.ofMemory o datagram).convert o .host
        data := datagram.drop hdrSize }
  else none

/-- The header announces the payload that is there. -/
def Sized (pkt : Packet) : Prop := pkt.header.totalPktLen.toNat = hdrSize + pkt.data.length

/-- A packet of the announced size goes out whole, the header in network order, and is
left as it was. -/
theorem sendPKT_of_sized {pkt : Packet} (h : pkt.Sized) (o : ByteOrder) :
    pkt.sendPKT o = (some (pkt.memory .big), pkt) := by
  let net : Packet := { pkt with header := pkt.header.convert o .net }
  have hmem : net.memory o = pkt.memory .big := by
    rw [memory, memory, PktHeader.memory_convert_net]
  have hlen : (ntohs o net.header.totalPktLen).toNat = (net.memory o).length := by
    rw [hmem, memory, List.length_append, PktHeader.length_memory, ← h]
    exact congrArg UInt16.toNat (ntohs_htons o _)
  have hslice : Bytes.slice (net.memory o) 0 (ntohs o net.header.totalPktLen).toNat =
      some (pkt.memory .big) := by
    rw [Bytes.slice_of_le (by rw [Nat.zero_add, hlen]), hlen, hmem, List.drop_zero, List.take_length]
  rw [sendPKT, hslice, PktHeader.convert_host_net]

/-- Sending changes nothing, so every further call sends the same bytes. -/
theorem sendTimes_of_sized {pkt : Packet} (h : pkt.Sized) (o : ByteOrder) (n : Nat) :
    pkt.sendTimes o n = (List.replicate n (some (pkt.memory .big)), pkt) := by
  induction n with
  | zero => rfl
  | succ n ih =>
      rw [sendTimes, sendPKT_of_sized h]
      simp only [ih]
      rfl

/-- What one host sends another receives, whatever their byte orders. -/
theorem receive_memory (o : ByteOrder) (pkt : Packet) : receive o (pkt.memory .big) = some pkt := by
  have hlen : (pkt.header.memory .big).length = hdrSize := PktHeader.length_memory ..
  rw [receive, if_pos (by rw [memory, List.length_append, hlen]; exact Nat.le_add_right ..)]
  rw [show PktHeader.convert o (PktHeader.ofMemory o (pkt.memory .big)) .host = pkt.header from
    PktHeader.convert_ofMemory o pkt.header pkt.data, memory, List.drop_left' hlen]

end Packet

/-! ## The validator -/

/-- `pkt_parse_type`; nothing is returned for any other value. -/
def pktParseType (type : UInt8) : Option PktType :=
  match type.toNat with
  | 0 => some .whohas
  | 1 => some .ihave
  | 2 => some .get
  | 3 => some .data
  | 4 => some .ack
  | 5 => some .denied
  | _ => none

theorem pktParseType_eq_some_iff {code : UInt8} {type : PktType} :
    pktParseType code = some type ↔ code = type.code := by
  constructor
  · intro h
    rw [pktParseType] at h
    split at h
    case h_7 => cases h
    all_goals
      next hcode =>
        cases h
        exact UInt8.toNat_inj.mp hcode
  · rintro rfl
    cases type <;> rfl

theorem exists_pktParseType {code : UInt8} (h : ¬ PktType.denied.code < code) :
    ∃ type, pktParseType code = some type := by
  have hle : code.toNat ≤ 5 := Nat.le_of_not_lt h
  obtain h | h | h | h | h | h : code.toNat = 0 ∨ code.toNat = 1 ∨ code.toNat = 2 ∨
      code.toNat = 3 ∨ code.toNat = 4 ∨ code.toNat = 5 := by omega
  all_goals
    rw [pktParseType, h]
    exact ⟨_, rfl⟩

/-- `correct`.  All fields are unsigned. -/
def PktHeader.correct (header : PktHeader) : Bool :=
  let type := pktParseType header.packetType
  if header.magicNum ≠ magic ∨ header.versionNum ≠ version ∨
      PktType.denied.code < header.packetType ∨ header.packetType < PktType.whohas.code then false
  else if (type = some .data ∧ (header.seqNum ≤ 0 ∨ 0 < header.ackNum)) ∨
      (type = some .ack ∧ (0 < header.seqNum ∨ header.ackNum < 0)) ∨
      (type ≠ some .data ∧ type ≠ some .ack ∧ (0 < header.seqNum ∨ 0 < header.ackNum)) then false
  else true

/-- Two headers alike in all that `correct` reads. -/
structure PktHeader.SameKind (header header' : PktHeader) : Prop where
  magicNum : header.magicNum = header'.magicNum
  versionNum : header.versionNum = header'.versionNum
  packetType : header.packetType = header'.packetType
  seqNum : header.seqNum = header'.seqNum
  ackNum : header.ackNum = header'.ackNum

/-- `correct` accepts exactly the headers of packets `make_PKT` builds, of any type and
with any number, a DATA packet not being number 0. -/
theorem correct_iff (header : PktHeader) :
    header.correct = true ↔ ∃ (type : PktType) (k : UInt32), (type = .data → 0 < k) ∧
      ∀ size data, header.SameKind (makePKT type k size data).header := by
  have hcode : ∀ type : PktType, ¬ (PktType.denied.code < type.code ∨
      type.code < PktType.whohas.code) := by
    intro type
    cases type <;> decide
  constructor
  · intro h
    rw [PktHeader.correct] at h
    split at h
    · cases h
    · next hfixed =>
        simp only [not_or, ne_eq, not_not] at hfixed
        obtain ⟨hmagic, hversion, hle, -⟩ := hfixed
        obtain ⟨type, hparse⟩ := exists_pktParseType hle
        have htype := pktParseType_eq_some_iff.mp hparse
        rw [hparse] at h
        split at h
        · cases h
        · next hnums =>
            rw [not_or, not_or] at hnums
            obtain ⟨hdata, hack, hother⟩ := hnums
            by_cases hd : type = .data
            · subst hd
              rw [not_and, not_or] at hdata
              obtain ⟨hseq, hnum⟩ := hdata rfl
              refine ⟨.data, header.seqNum, fun _ ↦ UInt32.not_le.mp hseq, fun size data ↦ ?_⟩
              exact ⟨hmagic, hversion, htype, rfl, UInt32.le_zero_iff.mp (UInt32.not_lt.mp hnum)⟩
            by_cases ha : type = .ack
            · subst ha
              rw [not_and, not_or] at hack
              obtain ⟨hseq, -⟩ := hack rfl
              refine ⟨.ack, header.ackNum, fun hc ↦ absurd hc hd, fun size data ↦ ?_⟩
              exact ⟨hmagic, hversion, htype, UInt32.le_zero_iff.mp (UInt32.not_lt.mp hseq), rfl⟩
            · simp only [ne_eq, Option.some.injEq, hd, ha, not_false_eq_true, true_and, not_or,
                UInt32.not_lt, UInt32.le_zero_iff] at hother
              refine ⟨type, 0, fun hc ↦ absurd hc hd, fun size data ↦ ?_⟩
              exact ⟨hmagic, hversion, htype, hother.1.trans (if_neg hd).symm,
                hother.2.trans (if_neg ha).symm⟩
  · rintro ⟨type, k, hk, hsame⟩
    obtain ⟨hmagic, hversion, htype, hseq, hack⟩ := hsame 0 []
    have hparse : pktParseType header.packetType = some type := pktParseType_eq_some_iff.mpr htype
    have hfixed : ¬ (header.magicNum ≠ magic ∨ header.versionNum ≠ version ∨
        PktType.denied.code < header.packetType ∨ header.packetType < PktType.whohas.code) := by
      rintro (h | h | h)
      · exact h hmagic
      · exact h hversion
      · rw [htype] at h
        exact hcode type h
    rw [PktHeader.correct, if_neg hfixed, hparse, hseq, hack]
    cases type with
    | data =>
        have hpos := hk rfl
        have hnot : ¬ k ≤ 0 := UInt32.not_le.mpr hpos
        simp [makePKT, init, initAck, hnot]
    | ack => simp [makePKT, init, initSeq]
    | _ => simp [makePKT, init, initSeq, initAck]

/-! ## The packets the program builds -/

/-- The packets some function of the program builds. -/
inductive Built : Packet → Prop
  | hashes {type : PktType} {queue : List ChunkT} {pkts : List Packet} {pkt : Packet} :
      chunks2pkts queue type = some pkts → pkt ∈ pkts → Built pkt
  | get {hash : List UInt8} : hash.length = sha1HashSize → Built (makeGET hash)
  | data {content : ChunkData} {pkt : Packet} : pkt ∈ (chunk2pkts content).1 → Built pkt
  | ack (n : UInt32) : Built (makeACK n)
  | denied : Built (makePKT .denied 0 0 [])

theorem mem_chunks2pktsLoop {type : PktType} {n k : Nat} {cur : List ChunkT} {pkt : Packet}
    (h : pkt ∈ chunks2pktsLoop type n k cur) :
    ∃ m ≤ shaMaxNum, ∃ cur', pkt = makePKT type 0 (4 + sha1HashSize * m) (hashList m cur') := by
  induction k generalizing cur with
  | zero => cases h
  | succ k ih =>
      rw [chunks2pktsLoop] at h
      rcases List.mem_cons.mp h with rfl | h
      · refine ⟨_, ?_, cur, rfl⟩
        split
        · exact Nat.le_refl _
        · exact Nat.le_of_lt mod_shaMaxNum_lt
      · exact ih h

/-- Every packet built is one of `make_PKT`, with the payload it was given, and fits in a
datagram; a DATA packet has a number. -/
theorem Built.exists_makePKT {pkt : Packet} (h : Built pkt) :
    ∃ type k data, pkt = makePKT type k data.length data ∧ (type = .data → 0 < k) ∧
      hdrSize + data.length ≤ pktSize := by
  cases h with
  | @hashes type queue pkts _ hpkts hmem =>
      rw [chunks2pkts, Option.ite_none_right_eq_some, Option.some.injEq] at hpkts
      obtain ⟨ht, rfl⟩ := hpkts
      obtain ⟨m, hm, cur', rfl⟩ := mem_chunks2pktsLoop hmem
      refine ⟨type, 0, hashList m cur', by rw [length_hashList], ?_, ?_⟩
      · rintro rfl
        rcases ht with h | h <;> cases h
      · rw [length_hashList]
        rw [shaMaxNum_eq] at hm
        simp only [hdrSize, sha1HashSize, pktSize]
        omega
  | @get hash hlen =>
      refine ⟨.get, 0, hash, by rw [hlen]; rfl, PktType.noConfusion, ?_⟩
      rw [hlen]
      decide
  | @data content _ hmem =>
      obtain ⟨i, hi, rfl⟩ := mem_chunk2pkts.mp hmem
      have hle := Nat.min_le_left dataSize (btChunkSize - i * dataSize)
      refine ⟨.data, UInt32.ofNat (i + 1), (content.bytes.drop (i * dataSize)).take dataSize,
        by rw [length_payload]; rfl, fun _ ↦ ?_, ?_⟩
      · have hseq : (dataPacket content i).header.seqNum.toNat = i + 1 := seqNum_dataPacket hi
        rw [dataPacket, seqNum_makeDATA] at hseq
        rw [UInt32.lt_iff_toNat_lt, hseq]
        exact Nat.succ_pos i
      · rw [length_payload]
        exact Nat.le_trans (Nat.add_le_add_left hle _) (by decide)
  | ack n => exact ⟨.ack, n, [], rfl, PktType.noConfusion, by decide⟩
  | denied => exact ⟨.denied, 0, [], rfl, PktType.noConfusion, by decide⟩

/-- Encoder and validator agree: what `send_PKT` puts on the wire is received, by a
host of any byte order, as the packet that was built and passes `correct`; sending it
again puts the same bytes on the wire; and `correct` accepts nothing else. -/
theorem encoder_validator_agree :
    (∀ pkt, Built pkt → ∃ wire : List UInt8,
      (∀ o n, pkt.sendTimes o n = (List.replicate n (some wire), pkt)) ∧
      (∀ o, Packet.receive o wire = some pkt) ∧ pkt.header.correct = true ∧
      wire.length = hdrSize + pkt.data.length ∧ wire.length ≤ pktSize ∧
      pkt.header.totalPktLen.toNat = wire.length ∧ pkt.header.headerLen.toNat = hdrSize) ∧
    (∀ header : PktHeader, header.correct = true ↔
      ∃ (type : PktType) (k : UInt32), (type = .data → 0 < k) ∧
        ∀ size data, header.SameKind (makePKT type k size data).header) := by
  refine ⟨fun pkt h ↦ ?_, correct_iff⟩
  obtain ⟨type, k, data, rfl, hk, hsize⟩ := h.exists_makePKT
  have hlt : hdrSize + data.length < 65536 := Nat.lt_of_le_of_lt hsize (by decide)
  have hdata : (makePKT type k data.length data).data = data := data_makePKT type k hlt rfl
  have hsized : (makePKT type k data.length data).Sized := by
    rw [Packet.Sized, hdata]
    exact totalPktLen_makePKT type k data hlt
  have hwire : ((makePKT type k data.length data).memory .big).length = hdrSize + data.length := by
    rw [Packet.memory, List.length_append, PktHeader.length_memory, hdata]
  refine ⟨_, fun o n ↦ Packet.sendTimes_of_sized hsized o n, fun o ↦ Packet.receive_memory o _, ?_,
    ?_, ?_, ?_, rfl⟩
  · exact (correct_iff _).mpr ⟨type, k, hk, fun _ _ ↦ ⟨rfl, rfl, rfl, rfl, rfl⟩⟩
  · rw [hwire, hdata]
  · rw [hwire]
    exact hsize
  · rw [hwire]
    exact totalPktLen_makePKT type k data hlt

/-- ACK 7. -/
theorem encoder_validator_agree_ack : ∃ wire : List UInt8,
    (∀ o n, (makeACK 7).sendTimes o n = (List.replicate n (some wire), makeACK 7)) ∧
    ∀ o, Packet.receive o wire = some (makeACK 7) := by
  obtain ⟨wire, hsent, hreceived, -⟩ := encoder_validator_agree.1 (makeACK 7) (.ack 7)
  exact ⟨wire, hsent, hreceived⟩

end BitTorrent
