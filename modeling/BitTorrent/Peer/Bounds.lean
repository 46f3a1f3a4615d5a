import BitTorrent.Peer.Pools

/-!
# What a datagram makes a peer read and write

Nothing in `process_PKT` compares the count byte or the length fields of a packet
with the datagram they came in.  The accesses of each handler lie inside the datagram
and inside the chunk's buffer exactly under a condition on the packet and, for GET
and DATA, on the pools.
-/

namespace BitTorrent

set_option linter.unusedSectionVars false

variable {F : Type} [NatCast F] [Add F] [Div F] [LE F] [DecidableLE F] [TruncU32 F]

/-! ## Each handler -/

/-- The payload has a count byte and the hashes it counts; a count that is not positive
as a signed `char` counts none. -/
def Packet.HoldsHashes (pkt : Packet) : Prop :=
  ∃ sha1Num ∈ pkt.data.head?, sha1Num.toInt8.toInt ≤ 0 ∨
    4 + sha1Num.toInt8.toInt * sha1HashSize ≤ pkt.data.length

theorem isSome_pkt2chunks {pkt : Packet} {type : PktType} (h : type = .whohas ∨ type = .ihave) :
    (pkt2chunks pkt type).isSome = true ↔ pkt.HoldsHashes := by
  rw [pkt2chunks, if_pos h, Packet.HoldsHashes]
  cases pkt.data.head? with
  | none =>
      refine ⟨fun h ↦ Bool.noConfusion h, ?_⟩
      rintro ⟨_, hmem, -⟩
      cases hmem
  | some sha1Num =>
      rw [Option.bind_some, Bytes.isSome_mapM_slice, sha1HashSize]
      constructor
      · intro hread
        exact ⟨sha1Num, rfl, by omega⟩
      · rintro ⟨n, hn, hread⟩
        cases hn
        omega

namespace Server

variable {srv : Server F} {pkt : Packet} {peer : Option PeerRef}
  {getDataChunk : List UInt8 → Option ChunkData}

/-- `process_GET` comes to open an upload: no upload to the peer is open, or the one that
is has been fully sent, and without it there is room in the pool. -/
def Opens (srv : Server F) (peer : Option PeerRef) : Prop :=
  match (srv.getSender peer).bind fun i ↦ srv.senders[i]?.map fun t ↦ (i, t) with
  | some (i, t) => t.sdr.lastSent = t.sdr.pktNum ∧
      (srv.removeSender i t).pool.curNum < (srv.removeSender i t).pool.maxNum
  | none => srv.pool.curNum < srv.pool.maxNum

/-- With room in the pool the hash is read and the chunk of it. -/
theorem isSome_openUpload :
    (processGETChecked.openUpload getDataChunk pkt peer srv).isSome = true ↔
      (srv.pool.curNum < srv.pool.maxNum →
        ∃ hash ∈ Bytes.slice pkt.data 0 sha1HashSize, (getDataChunk hash).isSome = true) := by
  rw [processGETChecked.openUpload]
  split
  · next hfull => exact ⟨fun _ hroom ↦ absurd hfull (Int.not_le.mpr hroom), fun _ ↦ rfl⟩
  · next hroom =>
      constructor
      · intro h _
        obtain ⟨r, hr⟩ := Option.isSome_iff_exists.mp h
        obtain ⟨hash, hslice, hr⟩ := Option.bind_eq_some_iff.mp hr
        obtain ⟨chunk, hchunk, -⟩ := Option.bind_eq_some_iff.mp hr
        exact ⟨hash, hslice, by rw [hchunk]; rfl⟩
      · intro h
        obtain ⟨hash, hslice, hread⟩ := h (Int.not_le.mp hroom)
        obtain ⟨chunk, hchunk⟩ := Option.isSome_iff_exists.mp hread
        rw [Option.mem_def.mp hslice, Option.bind_some, hchunk, Option.bind_some, Option.isSome_map,
          addSender, Option.isSome_map, Pool.add, if_neg hroom]
        rfl

/-- `process_GET` reads a hash and a chunk only if it comes to open an upload. -/
theorem isSome_processGETChecked :
    (srv.processGETChecked getDataChunk pkt peer).isSome = true ↔
      (srv.Opens peer →
        ∃ hash ∈ Bytes.slice pkt.data 0 sha1HashSize, (getDataChunk hash).isSome = true) := by
  cases hfound : (srv.getSender peer).bind fun i ↦ srv.senders[i]?.map fun t ↦ (i, t) with
  | none =>
      simp only [processGETChecked, Opens, hfound]
      exact isSome_openUpload
  | some it =>
      simp only [processGETChecked, Opens, hfound]
      by_cases hsent : it.2.sdr.lastSent = it.2.sdr.pktNum
      · rw [if_pos hsent, isSome_openUpload]
        exact ⟨fun h hopens ↦ h hopens.2, fun h hroom ↦ h ⟨hsent, hroom⟩⟩
      · rw [if_neg hsent]
        exact ⟨fun _ hopens ↦ absurd hopens.1 hsent, fun _ ↦ rfl⟩

end Server

namespace Receiver

/-- The length the header announces is that of a part of the payload, and so many bytes
fit into the buffer after those received. -/
structure Fits (rcvr : Receiver) (pkt : Packet) : Prop where
  nonneg : 0 ≤ pkt.header.payloadLen
  inside : pkt.header.payloadLen ≤ pkt.data.length
  fits : (rcvr.lastRcvd * dataSize : Nat) + pkt.header.payloadLen ≤ btChunkSize

theorem isSome_memcpy (rcvr : Receiver) (data : ChunkData) (pkt : Packet) :
    (data.memcpy (rcvr.lastRcvd * dataSize) pkt.data pkt.header.payloadLen).isSome = true ↔
      rcvr.Fits pkt := by
  rw [ChunkData.memcpy]
  split
  · next h =>
      refine ⟨fun _ ↦ ?_, fun _ ↦ rfl⟩
      obtain ⟨hnonneg, hinside, hfits⟩ := h
      exact ⟨hnonneg, by omega, by omega⟩
  · next h =>
      refine ⟨fun hsome ↦ Bool.noConfusion hsome, fun hfits ↦ absurd ?_ h⟩
      obtain ⟨hnonneg, hinside, hfits⟩ := hfits
      exact ⟨hnonneg, by omega, by omega⟩

theorem isSome_store (rcvr : Receiver) (data : ChunkData) (pkt : Packet) :
    (rcvr.store data pkt).isSome = true ↔ (rcvr.Expects pkt → rcvr.Fits pkt) := by
  rw [store]
  by_cases hexp : rcvr.Expects pkt
  · rw [if_pos hexp, Option.isSome_map, isSome_memcpy]
    exact ⟨fun h _ ↦ h, fun h ↦ h hexp⟩
  · rw [if_neg hexp]
    exact ⟨fun _ h ↦ absurd h hexp, fun _ ↦ rfl⟩

end Receiver

/-- `process_DATA` copies the payload only if a receiver waits for the packet. -/
theorem Client.isSome_processDATA {shahash : List UInt8 → List UInt8} {c : Client} {pkt : Packet}
    {peer : Option PeerRef} :
    (c.processDATA shahash pkt peer).isSome = true ↔
      ∀ rcvr ∈ getReceiver c.receiverPool peer, rcvr.Expects pkt → rcvr.Fits pkt := by
  rw [processDATA]
  cases getReceiver c.receiverPool peer with
  | none => exact ⟨fun _ _ hmem ↦ absurd hmem (Option.not_mem_none _), fun _ ↦ rfl⟩
  | some rcvr =>
      simp only [Option.isSome_map, Receiver.isSome_store, Option.mem_some_iff, forall_eq']

/-! ## The datagram -/

namespace Peer

variable {cfg : Config}

/-- What the handler of a packet needs of it. -/
def HandlesInBounds (s : Peer F) (type : PktType) (pkt : Packet) (peer : Option PeerRef) : Prop :=
  match type with
  | .whohas | .ihave => pkt.HoldsHashes
  | .get => s.server.Opens peer → sha1HashSize ≤ pkt.data.length
  | .data => ∀ rcvr ∈ getReceiver s.client.receiverPool peer, rcvr.Expects pkt → rcvr.Fits pkt
  | .ack | .denied => True

theorem isSome_handle {s : Peer F} {type : PktType} {pkt : Packet} {peer : Option PeerRef} :
    (s.handle cfg type pkt peer).isSome = true ↔ s.HandlesInBounds type pkt peer := by
  cases type with
  | whohas =>
      show (Option.map _ (Option.map _ _)).isSome = true ↔ _
      rw [Option.isSome_map, Option.isSome_map]
      exact isSome_pkt2chunks (.inl rfl)
  | ihave =>
      show (Option.map _ (Option.map _ _)).isSome = true ↔ _
      rw [Option.isSome_map, Option.isSome_map]
      exact isSome_pkt2chunks (.inr rfl)
  | get =>
      show (Option.map _ _).isSome = true ↔ _
      rw [Option.isSome_map, Server.isSome_processGETChecked]
      refine forall_congr' fun _ ↦ ?_
      have hslice : (Bytes.slice pkt.data 0 sha1HashSize).isSome = true ↔ sha1HashSize ≤ pkt.data.length := by
        rw [Bytes.isSome_slice, Nat.zero_add]
      rw [← hslice, Option.isSome_iff_exists]
      exact exists_congr fun hash ↦ and_iff_left rfl
  | ack => exact ⟨fun _ ↦ trivial, fun _ ↦ rfl⟩
  | data =>
      show (Option.map _ _).isSome = true ↔ _
      rw [Option.isSome_map]
      exact Client.isSome_processDATA
  | denied => exact ⟨fun _ ↦ trivial, fun _ ↦ rfl⟩

/-- The datagram holds a header, and if `correct` accepts it the handler of its type finds
what it reads. -/
def InBounds (cfg : Config) (s : Peer F) (datagram : List UInt8) (addr : SockAddr) : Prop :=
  ∃ pkt, Packet.receive cfg.byteOrder datagram = some pkt ∧
    (pkt.header.correct = true → ∀ type, pktParseType pkt.header.packetType = some type →
      s.HandlesInBounds type pkt (getPeer cfg.peers addr))

theorem isSome_processPacket {s : Peer F} {pkt : Packet} {addr : SockAddr} :
    (s.processPacket cfg pkt addr).isSome = true ↔
      (pkt.header.correct = true → ∀ type, pktParseType pkt.header.packetType = some type →
        s.HandlesInBounds type pkt (getPeer cfg.peers addr)) := by
  rw [processPacket]
  split
  · next hcorrect =>
      split
      · next type htype =>
          rw [isSome_handle]
          constructor
          · rintro h - type' htype'
            rw [htype, Option.some.injEq] at htype'
            rwa [← htype']
          · exact fun h ↦ h hcorrect type htype
      · next htype =>
          refine ⟨fun _ _ type htype' ↦ ?_, fun _ ↦ rfl⟩
          rw [htype] at htype'
          cases htype'
  · next hcorrect => exact ⟨fun _ h ↦ absurd h hcorrect, fun _ ↦ rfl⟩

/-- A datagram that meets the condition is handled. -/
theorem InBounds.isSome {s : Peer F} {datagram : List UInt8} {addr : SockAddr}
    (h : s.InBounds cfg datagram addr) : (s.processPKT cfg datagram addr).isSome = true := by
  obtain ⟨pkt, hpkt, h⟩ := h
  rw [processPKT, hpkt, Option.bind_some, isSome_processPacket]
  exact h

/-- No access of `process_PKT` fails exactly if the datagram meets the condition. -/
theorem processPKT_inBounds_iff (cfg : Config) (s : Peer F) (datagram : List UInt8)
    (addr : SockAddr) : (s.processPKT cfg datagram addr).isSome = true ↔ s.InBounds cfg datagram addr := by
  constructor
  · intro h
    rw [processPKT] at h
    cases hpkt : Packet.receive cfg.byteOrder datagram with
    | none =>
        rw [hpkt] at h
        cases h
    | some pkt =>
        rw [hpkt, Option.bind_some, isSome_processPacket] at h
        exact ⟨pkt, hpkt, h⟩
  · exact InBounds.isSome

/-- A WHOHAS packet without a payload, as it travels. -/
def emptyWHOHAS : List UInt8 := (makePKT .whohas 0 0 []).memory .big

/-- Its count byte is read behind the end of the datagram. -/
theorem processPKT_empty : ¬ ∀ (cfg : Config) (s : Peer ℚ) (datagram : List UInt8) (addr : SockAddr),
    Machine.Reaches (step cfg) (start cfg) s → datagram.length ≤ pktSize →
      (s.processPKT cfg datagram addr).isSome = true := by
  intro h
  have hsome := h oneSlot (start oneSlot) emptyWHOHAS ⟨0, 0⟩ (.refl _) (by decide)
  rw [processPKT, emptyWHOHAS, Packet.receive_memory] at hsome
  cases hsome

end Peer

end BitTorrent
