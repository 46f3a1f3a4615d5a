import BitTorrent.Download.Resume
import BitTorrent.Peer.Bounds
import BitTorrent.Peer.Frame
import BitTorrent.Spiffy

/-!
# What stands behind a datagram

`process_inbound_udp` hands its whole buffer to `process_PKT`, whatever the length of the
datagram.  A packet whose handler stays inside the datagram is handled as if nothing stood
behind it; so is every packet the program builds.
-/

namespace BitTorrent

open Endian

set_option linter.unusedSectionVars false

variable {F : Type} [NatCast F] [Add F] [Div F] [LE F] [DecidableLE F] [TruncU32 F]

/-- A packet with more behind its payload. -/
def Packet.append (pkt : Packet) (rest : List UInt8) : Packet :=
  { pkt with data := pkt.data ++ rest }

section Append

variable {pkt : Packet} {peer : Option PeerRef} (rest : List UInt8)

/-! ## Each handler -/

theorem pkt2chunks_append {type : PktType} {chunks : List ChunkT}
    (h : pkt2chunks pkt type = some chunks) : pkt2chunks (pkt.append rest) type = some chunks := by
  rw [pkt2chunks, Option.ite_none_right_eq_some] at h
  obtain ⟨htype, h⟩ := h
  obtain ⟨sha1Num, hhead, h⟩ := Option.bind_eq_some_iff.mp h
  have hhead' : (pkt.append rest).data.head? = some sha1Num := by
    rw [Packet.append, List.head?_append, hhead]
    rfl
  rw [pkt2chunks, if_pos htype, hhead', Option.bind_some]
  refine Bytes.mapM_of_imp (fun i c hc ↦ ?_) h
  obtain ⟨hash, hslice, rfl⟩ := Option.map_eq_some_iff.mp hc
  rw [Packet.append, Bytes.slice_append hslice]
  rfl

theorem Server.processGETChecked_append {srv : Server F}
    {getDataChunk : List UInt8 → Option ChunkData} {r : Server F × List (PeerRef × Packet)}
    (h : srv.processGETChecked getDataChunk pkt peer = some r) :
    srv.processGETChecked getDataChunk (pkt.append rest) peer = some r := by
  have hopen : ∀ srv' : Server F,
      processGETChecked.openUpload getDataChunk pkt peer srv' = some r →
      processGETChecked.openUpload getDataChunk (pkt.append rest) peer srv' = some r := by
    intro srv' hr
    rw [processGETChecked.openUpload] at hr ⊢
    split at hr
    · next hfull => rwa [if_pos hfull]
    · next hroom =>
        obtain ⟨hash, hslice, hr⟩ := Option.bind_eq_some_iff.mp hr
        rw [if_neg hroom, Packet.append, Bytes.slice_append hslice]
        exact hr
  rw [processGETChecked] at h ⊢
  split at h
  · next i t _ =>
      split at h
      · next hsent =>
          rw [if_pos hsent]
          exact hopen _ h
      · next hsent => rwa [if_neg hsent]
  · exact hopen _ h

theorem ChunkData.memcpy_append {d d' : ChunkData} {off : Nat} {src : List UInt8} {n : Int}
    (h : d.memcpy off src n = some d') : d.memcpy off (src ++ rest) n = some d' := by
  rw [ChunkData.memcpy] at h
  split at h
  · next hle =>
      cases h
      have hle' : 0 ≤ n ∧ n.toNat ≤ (src ++ rest).length ∧ off + n.toNat ≤ btChunkSize :=
        ⟨hle.1, hle.2.1.trans (by rw [List.length_append]; exact Nat.le_add_right ..), hle.2.2⟩
      rw [ChunkData.memcpy, dif_pos hle']
      simp only [List.take_append_of_le_length hle.2.1]
  · cases h

theorem Receiver.store_append {rcvr : Receiver} {data : ChunkData} {r : Receiver × ChunkData}
    (h : rcvr.store data pkt = some r) : rcvr.store data (pkt.append rest) = some r := by
  rw [Receiver.store] at h ⊢
  split at h
  · next hexp =>
      obtain ⟨data', hcopy, rfl⟩ := Option.map_eq_some_iff.mp h
      rw [if_pos (show rcvr.Expects (pkt.append rest) from hexp), Packet.append,
        ChunkData.memcpy_append rest hcopy]
      rfl
  · next hexp => rwa [if_neg (show ¬ rcvr.Expects (pkt.append rest) from hexp)]

theorem Client.processDATA_append {shahash : List UInt8 → List UInt8} {c : Client}
    {r : Client × List Packet} (h : c.processDATA shahash pkt peer = some r) :
    c.processDATA shahash (pkt.append rest) peer = some r := by
  rw [processDATA] at h ⊢
  split at h
  · exact h
  · next rcvr _ =>
      obtain ⟨stored, hstore, rfl⟩ := Option.map_eq_some_iff.mp h
      simp only [Receiver.store_append rest hstore]
      rfl

namespace Peer

variable {cfg : Config} {s : Peer F} {r : Peer F × List (PeerRef × Packet)}

/-- What a handler does if all it reads lies inside the packet, it does whatever stands
behind the packet. -/
theorem handle_append {type : PktType} (h : s.handle cfg type pkt peer = some r) :
    s.handle cfg type (pkt.append rest) peer = some r := by
  cases type with
  | whohas =>
      obtain ⟨sent, hsent, rfl⟩ := Option.map_eq_some_iff.mp h
      obtain ⟨whoHas, hwho, rfl⟩ := Option.map_eq_some_iff.mp hsent
      rw [handle, Server.processWHOHAS, pkt2chunks_append rest hwho]
      rfl
  | ihave =>
      obtain ⟨c, hc, rfl⟩ := Option.map_eq_some_iff.mp h
      obtain ⟨iHave, hi, rfl⟩ := Option.map_eq_some_iff.mp hc
      rw [handle, Client.processIHAVE, pkt2chunks_append rest hi]
      rfl
  | get =>
      obtain ⟨r', hget, rfl⟩ := Option.map_eq_some_iff.mp h
      rw [handle, Server.processGETChecked_append rest hget]
      rfl
  | ack => exact h
  | data =>
      obtain ⟨r', hdata, rfl⟩ := Option.map_eq_some_iff.mp h
      rw [handle, Client.processDATA_append rest hdata]
      rfl
  | denied => exact h

theorem processPacket_append {addr : SockAddr} (h : s.processPacket cfg pkt addr = some r) :
    s.processPacket cfg (pkt.append rest) addr = some r := by
  rw [processPacket] at h ⊢
  split at h
  · next hcorrect =>
      rw [if_pos (show (pkt.append rest).header.correct = true from hcorrect)]
      cases htype : pktParseType pkt.header.packetType with
      | none =>
          rw [htype] at h
          rw [show pktParseType (pkt.append rest).header.packetType = none from htype]
          exact h
      | some type =>
          rw [htype] at h
          rw [show pktParseType (pkt.append rest).header.packetType = some type from htype]
          exact handle_append rest h
  · next hcorrect =>
      rwa [if_neg (show ¬ (pkt.append rest).header.correct = true from hcorrect)]

end Peer

/-! ## The datagram -/

theorem PktHeader.ofMemory_append {o : ByteOrder} {mem : List UInt8} (h : hdrSize ≤ mem.length) :
    ofMemory o (mem ++ rest) = ofMemory o mem := by
  have hsize : 16 ≤ mem.length := h
  have hfield : ∀ off n : Nat, off + n ≤ 16 →
      ((mem ++ rest).drop off).take n = (mem.drop off).take n := by
    intro off n hle
    rw [List.drop_append_of_le_length (by omega),
      List.take_append_of_le_length (by rw [List.length_drop]; omega)]
  have hbyte : ∀ off : Nat, off < 16 → ((mem ++ rest).drop off).headD 0 = (mem.drop off).headD 0 := by
    intro off hlt
    rw [List.drop_append_of_le_length (by omega), List.headD_eq_head?_getD,
      List.headD_eq_head?_getD, List.head?_append_of_ne_nil]
    exact List.ne_nil_of_length_pos (by rw [List.length_drop]; omega)
  have htake : (mem ++ rest).take 2 = mem.take 2 := hfield 0 2 (by decide)
  simp only [ofMemory, htake, hbyte 2 (by decide), hbyte 3 (by decide), hfield 4 2 (by decide),
    hfield 6 2 (by decide), hfield 8 4 (by decide), hfield 12 4 (by decide)]

theorem Packet.receive_append {o : ByteOrder} {datagram : List UInt8} {pkt : Packet}
    (h : receive o datagram = some pkt) :
    receive o (datagram ++ rest) = some (pkt.append rest) := by
  rw [receive, Option.ite_none_right_eq_some, Option.some.injEq] at h
  obtain ⟨hle, rfl⟩ := h
  rw [receive, if_pos (by rw [List.length_append]; exact Nat.le_add_right_of_le hle),
    PktHeader.ofMemory_append rest hle, List.drop_append_of_le_length hle]
  rfl

/-- `process_PKT` too. -/
theorem Peer.processPKT_append {cfg : Config} {s : Peer F} {r : Peer F × List (PeerRef × Packet)}
    {datagram : List UInt8} {addr : SockAddr} (h : s.processPKT cfg datagram addr = some r) :
    s.processPKT cfg (datagram ++ rest) addr = some r := by
  obtain ⟨pkt, hpkt, h⟩ := Option.bind_eq_some_iff.mp h
  rw [processPKT, Packet.receive_append rest hpkt]
  exact processPacket_append rest h

end Append

/-- A host that runs with spiffy. -/
def Spiffy.oneHost : Spiffy where
  enabled := true
  nodeID := 1
  srcAddr := 0
  srcPort := 80
  router := ⟨1, 2⟩

/-- Memory that happens to be cleared. -/
def Garbage.zero : Garbage where
  heap := fun _ ↦ 0
  buf := fun _ ↦ 0
  addr := ⟨0, 0⟩

namespace Peer

variable {cfg : Config} {s s' : Peer F} {pkt : Packet} {peer : Option PeerRef} {sp : Spiffy}
  {msg : List UInt8}

/-- A message that `process_PKT` does not read beyond is handled as it would be by itself,
whatever stands behind it in the buffer. -/
theorem processInboundUdp_of_inBounds {g : Garbage} {datagram rest : List UInt8}
    {src addr : SockAddr}
    (hin : sp.inbound cfg.byteOrder g datagram src = some (msg ++ rest, addr))
    (h : s.InBounds cfg msg addr) :
    s.processInboundUdp cfg sp g datagram src = s.processPKT cfg msg addr := by
  obtain ⟨r, hr⟩ := Option.isSome_iff_exists.mp h.isSome
  rw [processInboundUdp, hin, hr]
  exact processPKT_append rest hr

/-! ## The packets of the program -/

/-- The counters of all receivers agree. -/
def Counting (pool : ReceiverPool) : Prop :=
  ∀ p rcvr, getReceiver pool (some p) = some rcvr → rcvr.nextExpected = rcvr.lastRcvd + 1

theorem Counting.lookAt {c : Client} (hpool : c.receiverPool.Ok) (h : Counting c.receiverPool) :
    Counting c.lookAt.1.receiverPool := by
  intro q rcvr hget
  rcases Client.receivers_lookAt hpool with ⟨-, heq⟩ | ⟨p, down, -, hall⟩
  · rw [heq] at hget
    exact h q rcvr hget
  · rw [hall] at hget
    split at hget
    · cases hget
      rfl
    · exact h q rcvr hget

theorem Counting.processDATA {c c' : Client} {shahash : List UInt8 → List UInt8}
    {acks : List Packet} (hpool : c.receiverPool.Ok) (h : Counting c.receiverPool)
    (hproc : c.processDATA shahash pkt peer = some (c', acks)) : Counting c'.receiverPool := by
  rcases Client.processDATA_cases hpool hproc with rfl | ⟨p, rcvr, r', rfl, hget, hstore, -, hconn,
    hframe, -⟩
  · exact h
  · intro q rcvr' hget'
    by_cases hq : p = q
    · subst hq
      rw [hconn.get] at hget'
      split at hget'
      · cases hget'
        exact Client.next_eq_of_store hstore (h p rcvr hget)
      · cases hget'
    · rw [hframe.others q hq] at hget'
      exact h q rcvr' hget'

theorem Counting.step {e : PeerEvent} (hpool : s.client.receiverPool.Ok)
    (h : Counting s.client.receiverPool) (hstep : s.step cfg e = some s') :
    Counting s'.client.receiverPool := by
  cases e with
  | packet type pkt peer =>
      obtain ⟨⟨s', sent⟩, hr, rfl⟩ := Option.map_eq_some_iff.mp hstep
      cases type with
      | whohas =>
          obtain ⟨_, -, heq⟩ := Option.map_eq_some_iff.mp hr
          cases heq
          exact h
      | ihave =>
          obtain ⟨c, hc, heq⟩ := Option.map_eq_some_iff.mp hr
          cases heq
          obtain ⟨-, -, -, hsame⟩ := Client.processIHAVE_frame hc
          simp only [hsame]
          exact h
      | get =>
          obtain ⟨r, hsrv, heq⟩ := Option.map_eq_some_iff.mp hr
          cases heq
          exact h
      | ack =>
          cases hr
          exact h
      | data =>
          obtain ⟨⟨c, acks⟩, hc, heq⟩ := Option.map_eq_some_iff.mp hr
          cases heq
          exact h.processDATA hpool hc
      | denied =>
          cases hr
          exact h
  | download lines =>
      cases hstep
      rintro p rcvr ⟨⟩
  | lookAt =>
      cases hstep
      exact h.lookAt hpool
  | thread i e =>
      cases e with
      | ack n => cases hstep
      | _ =>
          obtain ⟨srv, hsrv, rfl⟩ := Option.map_eq_some_iff.mp hstep
          exact h

theorem counting_of_reaches (h : Machine.Reaches (step cfg) (start cfg) s) :
    Counting s.client.receiverPool := by
  let P (t : Peer F) : Prop :=
    Machine.Reaches (step cfg) (start cfg) t ∧ Counting t.client.receiverPool
  have hboth : P s := by
    refine h.invariant (fun t e t' ht hstep ↦ ⟨ht.1.trans (.single hstep), ?_⟩) ⟨.refl _, ?_⟩
    · exact ht.2.step (intact_of_reaches ht.1).receiverPool hstep
    · rintro p rcvr ⟨⟩
  exact hboth.2

theorem holdsHashes_hashPacket {type : PktType} {m : Nat} (hm : m ≤ shaMaxNum) (cur : List ChunkT) :
    (makePKT type 0 (4 + sha1HashSize * m) (hashList m cur)).HoldsHashes := by
  have hcount : ∀ k < 75, (UInt8.ofNat k).toInt8.toInt = k := by decide
  refine ⟨UInt8.ofNat m, ?_, .inr ?_⟩
  · rw [data_hashPacket hm]
    rfl
  · rw [data_hashPacket hm, length_hashList, hcount m (by rw [shaMaxNum_eq] at hm; omega)]
    push_cast
    rw [Int.mul_comm]

theorem fits_dataPacket {rcvr : Receiver} {content : ChunkData} {i : Nat} (hi : i < dataPktNum)
    (hnext : rcvr.nextExpected = rcvr.lastRcvd + 1) (hexp : rcvr.Expects (dataPacket content i)) :
    rcvr.Fits (dataPacket content i) := by
  have hlast : rcvr.lastRcvd = i := by
    rw [Receiver.Expects, seqNum_dataPacket hi, hnext] at hexp
    exact (Nat.succ_inj.mp hexp).symm
  have hlen : (dataPacket content i).data.length = min dataSize (btChunkSize - i * dataSize) := by
    rw [data_dataPacket, length_payload]
  refine ⟨?_, ?_, ?_⟩
  · rw [payloadLen_dataPacket]
    exact Int.natCast_nonneg _
  · rw [payloadLen_dataPacket]
  · rw [payloadLen_dataPacket, hlen, hlast]
    simp only [dataSize, btChunkSize_eq, dataPktNum] at hi ⊢
    omega

/-- A packet that some function of the program builds stays within the bounds of its handler,
whenever it arrives. -/
theorem Counting.handlesInBounds {type : PktType} (h : Counting s.client.receiverPool)
    (hpkt : Built pkt) (htype : pktParseType pkt.header.packetType = some type)
    (peer : Option PeerRef) : s.HandlesInBounds type pkt peer := by
  have hself : ∀ (t : PktType) (k : UInt32) (n : Nat) (data : List UInt8),
      pktParseType (makePKT t k n data).header.packetType = some t := fun t k n data ↦
    pktParseType_eq_some_iff.mpr rfl
  cases hpkt with
  | hashes hpkts hmem =>
      rw [chunks2pkts, Option.ite_none_right_eq_some, Option.some.injEq] at hpkts
      obtain ⟨ht, rfl⟩ := hpkts
      obtain ⟨m, hm, cur', rfl⟩ := mem_chunks2pktsLoop hmem
      rw [hself, Option.some.injEq] at htype
      subst htype
      rcases ht with rfl | rfl
      · exact holdsHashes_hashPacket hm cur'
      · exact holdsHashes_hashPacket hm cur'
  | @get hash hlen =>
      rw [makeGET, hself, Option.some.injEq] at htype
      subst htype
      intro _
      rw [makeGET, data_makePKT .get 0 (by decide) hlen, hlen]
  | data hmem =>
      obtain ⟨i, hi, rfl⟩ := mem_chunk2pkts.mp hmem
      rw [dataPacket, makeDATA, hself, Option.some.injEq] at htype
      subst htype
      intro rcvr hget hexp
      obtain ⟨p, rfl⟩ := exists_peer_of_getReceiver hget
      exact fits_dataPacket hi (h p rcvr hget) hexp
  | ack n =>
      rw [makeACK, hself, Option.some.injEq] at htype
      subst htype
      trivial
  | denied =>
      rw [hself, Option.some.injEq] at htype
      subst htype
      trivial

/-- The header of a packet that is built announces its length, and it fits into a datagram. -/
theorem sized_of_built (h : Built pkt) : pkt.Sized ∧ (pkt.memory .big).length ≤ pktSize := by
  obtain ⟨type, k, data, rfl, -, hsize⟩ := h.exists_makePKT
  have hlt : hdrSize + data.length < 65536 := Nat.lt_of_le_of_lt hsize (by decide)
  have hdata : (makePKT type k data.length data).data = data := data_makePKT type k hlt rfl
  refine ⟨?_, ?_⟩
  · rw [Packet.Sized, hdata]
    exact totalPktLen_makePKT type k data hlt
  · rwa [Packet.memory, List.length_append, PktHeader.length_memory, hdata]

theorem inBounds_of_built (h : Counting s.client.receiverPool) (hpkt : Built pkt) (addr : SockAddr) :
    s.InBounds cfg (pkt.memory .big) addr :=
  ⟨pkt, Packet.receive_memory cfg.byteOrder pkt, fun _ _ htype ↦ h.handlesInBounds hpkt htype _⟩

/-- Any packet the program builds, sent with `send_PKT` by any host and received in any state
of a peer, both with spiffy or both without it, is handled as the packet it is and as one from
the host that sent it, whatever was left in memory. -/
theorem processInboundUdp_sendPKT {o : ByteOrder} {sp' : Spiffy} {peers : List SockAddr}
    {p : PeerRef} {dst : SockAddr} {datagram : List UInt8}
    (hs : Machine.Reaches (step cfg) (start cfg) s) (henabled : sp'.enabled = sp.enabled)
    (hpkt : Built pkt) (hsend : sp'.sendPKT o peers (p, pkt) = some (dst, datagram))
    (g : Garbage) (src : SockAddr) :
    ∃ r, s.processInboundUdp cfg sp g datagram src = some r ∧
      s.processPacket cfg pkt (if sp.enabled then
        SockAddr.reorder cfg.byteOrder o ⟨sp'.srcAddr, sp'.srcPort⟩ else src) = some r := by
  obtain ⟨hsized, hlen⟩ := sized_of_built hpkt
  have hcounting := counting_of_reaches hs
  obtain ⟨addr, -, hsend⟩ := Option.bind_eq_some_iff.mp hsend
  rw [Packet.sendPKT_of_sized hsized, Option.map_some, Option.some.injEq, Spiffy.sendto, henabled]
    at hsend
  have hpacket : ∀ addr, s.processPKT cfg (pkt.memory .big) addr = s.processPacket cfg pkt addr := by
    intro addr
    rw [processPKT, Packet.receive_memory, Option.bind_some]
  have hsome : ∀ addr, ∃ r, s.processPacket cfg pkt addr = some r := by
    intro addr
    rw [← hpacket]
    exact Option.isSome_iff_exists.mp (inBounds_of_built hcounting hpkt addr).isSome
  by_cases h : sp.enabled = true
  · rw [if_pos h] at hsend ⊢
    obtain ⟨r, hr⟩ := hsome (SockAddr.reorder cfg.byteOrder o ⟨sp'.srcAddr, sp'.srcPort⟩)
    cases hsend
    refine ⟨r, ?_, hr⟩
    rw [processInboundUdp_of_inBounds (Spiffy.inbound_memory h o _ hlen)
      (inBounds_of_built hcounting hpkt _), hpacket]
    exact hr
  · rw [if_neg h] at hsend ⊢
    obtain ⟨r, hr⟩ := hsome src
    cases hsend
    refine ⟨r, ?_, hr⟩
    rw [processInboundUdp_of_inBounds (Spiffy.inbound_of_not_enabled h hlen)
      (inBounds_of_built hcounting hpkt _), hpacket]
    exact hr

/-- ACK 7. -/
theorem processInboundUdp_sendPKT_ack : ∃ datagram r,
    Spiffy.oneHost.sendPKT .big [⟨1, 80⟩] (0, makeACK 7) = some (⟨1, 2⟩, datagram) ∧
    (start oneSlot : Peer ℚ).processInboundUdp oneSlot Spiffy.oneHost Garbage.zero datagram ⟨1, 2⟩ =
      some r ∧
    (start oneSlot : Peer ℚ).processPacket oneSlot (makeACK 7) (SockAddr.reorder .little .big ⟨0, 80⟩) =
      some r := by
  have hsend : ∃ datagram,
      Spiffy.oneHost.sendPKT .big [⟨1, 80⟩] (0, makeACK 7) = some (⟨1, 2⟩, datagram) := ⟨_, rfl⟩
  obtain ⟨datagram, hsend⟩ := hsend
  have hs : Machine.Reaches (step oneSlot) (start oneSlot) (start oneSlot : Peer ℚ) := .refl _
  obtain ⟨r, hr, hpacket⟩ :=
    processInboundUdp_sendPKT hs rfl (.ack 7) hsend Garbage.zero ⟨1, 2⟩
  exact ⟨datagram, r, hsend, hr, hpacket⟩

end Peer

end BitTorrent
