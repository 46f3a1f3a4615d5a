import BitTorrent.Handler.Download

/-!
# The packets of a chunk

`chunk2pkts` cuts a chunk into 374 packets of 1400 bytes and a last one of 688.
A packet's number is its place in that sequence, so a packet handed to the
receiver that waits for it carries the bytes the receiver's buffer lacks next.
-/

namespace BitTorrent

/-- The number of DATA packets of a chunk. -/
def dataPktNum : Nat := 375

/-- The DATA packet with number `i + 1`: what is left of the chunk from its
offset on, up to `DATA_SIZE` bytes. -/
def dataPacket (content : ChunkData) (i : Nat) : Packet :=
  makeDATA (UInt32.ofNat (i + 1)) (min dataSize (btChunkSize - i * dataSize))
    ((content.bytes.drop (i * dataSize)).take dataSize)

variable {content : ChunkData} {i : Nat}

theorem length_payload (content : ChunkData) (i : Nat) :
    ((content.bytes.drop (i * dataSize)).take dataSize).length =
      min dataSize (btChunkSize - i * dataSize) := by
  rw [List.length_take, List.length_drop, content.size_eq]

/-- `chunk2pkts` builds the packets in the order of their numbers. -/
theorem chunk2pkts_eq (content : ChunkData) :
    chunk2pkts content = ((List.range dataPktNum).map (dataPacket content), dataPktNum) := by
  have hfull : ∀ i ∈ List.range 374, dataPacket content i =
      makeDATA (UInt32.ofNat (i + 1)) dataSize ((content.bytes.drop (i * dataSize)).take dataSize) := by
    intro i hi
    have hlt := List.mem_range.mp hi
    rw [dataPacket, Nat.min_eq_left]
    simp only [dataSize, btChunkSize_eq]
    omega
  have hlast : dataPacket content 374 = makeDATA (UInt32.ofNat (374 + 1)) (btChunkSize % dataSize)
      ((content.bytes.drop (374 * dataSize)).take (btChunkSize % dataSize)) := by
    have hrest : (content.bytes.drop (374 * dataSize)).length = btChunkSize % dataSize := by
      rw [List.length_drop, content.size_eq]
      rfl
    rw [dataPacket, List.take_of_length_le (Nat.le_of_eq hrest),
      List.take_of_length_le (hrest.trans_le (by decide))]
    rfl
  have hrange : List.range dataPktNum = List.range 374 ++ [374] := List.range_succ
  rw [hrange, List.map_append, List.map_singleton, hlast, List.map_congr_left hfull]
  rfl

@[simp] theorem chunk2pkts_snd (content : ChunkData) : (chunk2pkts content).2 = dataPktNum := by
  rw [chunk2pkts_eq]

@[simp] theorem length_chunk2pkts (content : ChunkData) :
    (chunk2pkts content).1.length = dataPktNum := by
  rw [chunk2pkts_eq, List.length_map, List.length_range]

theorem mem_chunk2pkts {p : Packet} :
    p ∈ (chunk2pkts content).1 ↔ ∃ i < dataPktNum, dataPacket content i = p := by
  rw [chunk2pkts_eq, List.mem_map]
  simp only [List.mem_range]

theorem getElem?_chunk2pkts (h : i < dataPktNum) :
    (chunk2pkts content).1[i]? = some (dataPacket content i) := by
  rw [chunk2pkts_eq, List.getElem?_map, List.getElem?_range h]
  rfl

/-! ## Fields -/

/-- The packet sent from place `i` is number `i + 1`. -/
@[simp] theorem seqNum_dataPacket (h : i < dataPktNum) :
    (dataPacket content i).header.seqNum.toNat = i + 1 := by
  rw [dataPacket, seqNum_makeDATA, UInt32.toNat_ofNat']
  rw [dataPktNum] at h
  exact Nat.mod_eq_of_lt (by omega)

theorem data_dataPacket (content : ChunkData) (i : Nat) :
    (dataPacket content i).data = (content.bytes.drop (i * dataSize)).take dataSize := by
  refine data_makePKT .data _ ?_ (length_payload content i)
  have hle := Nat.min_le_left dataSize (btChunkSize - i * dataSize)
  simp only [hdrSize, dataSize] at hle ⊢
  omega

/-- A packet's header announces the payload it carries. -/
theorem payloadLen_dataPacket (content : ChunkData) (i : Nat) :
    (dataPacket content i).header.payloadLen = (dataPacket content i).data.length := by
  have hle := Nat.min_le_left dataSize (btChunkSize - i * dataSize)
  have htotal : (dataPacket content i).header.totalPktLen.toNat =
      hdrSize + min dataSize (btChunkSize - i * dataSize) := by
    refine totalPktLen_makePKT .data _ _ ?_
    simp only [hdrSize, dataSize] at hle ⊢
    omega
  rw [PktHeader.payloadLen, htotal, data_dataPacket, length_payload, dataPacket, makeDATA,
    headerLen_makePKT]
  push_cast
  omega

/-- A receiver is complete exactly when it has the last packet. -/
theorem Receiver.complete_iff (rcvr : Receiver) : rcvr.Complete ↔ dataPktNum ≤ rcvr.lastRcvd := by
  rw [Receiver.Complete, btChunkSize_eq, dataSize, dataPktNum]
  omega

/-! ## Storing -/

section Store

variable {rcvr : Receiver} {buffer : ChunkData} {p : Packet}

/-- A packet other than the expected one changes nothing. -/
theorem Receiver.store_of_ne (h : ¬ rcvr.Expects p) : rcvr.store buffer p = some (rcvr, buffer) :=
  if_neg h

/-- The packet with the number a receiver expects extends the part of the buffer
that agrees with the content by the packet's bytes. -/
theorem Receiver.store_dataPacket (rcvr : Receiver) (content buffer : ChunkData)
    (hnext : rcvr.nextExpected = rcvr.lastRcvd + 1)
    (hlt : rcvr.lastRcvd < dataPktNum) :
    ∃ buffer', rcvr.store buffer (dataPacket content rcvr.lastRcvd) =
        some ({ rcvr with lastRcvd := rcvr.lastRcvd + 1, nextExpected := rcvr.lastRcvd + 2 }, buffer') ∧
      ∀ old : List UInt8, old.length = btChunkSize →
        buffer.bytes = Bytes.blend (rcvr.lastRcvd * dataSize) content.bytes old →
        buffer'.bytes = Bytes.blend ((rcvr.lastRcvd + 1) * dataSize) content.bytes old := by
  have hexp : rcvr.Expects (dataPacket content rcvr.lastRcvd) :=
    (seqNum_dataPacket hlt).trans hnext.symm
  have hlen : (dataPacket content rcvr.lastRcvd).data.length =
      min dataSize (btChunkSize - rcvr.lastRcvd * dataSize) := by
    rw [data_dataPacket, length_payload]
  have hfit : rcvr.lastRcvd * dataSize + (dataPacket content rcvr.lastRcvd).data.length ≤
      btChunkSize := by
    rw [hlen]
    simp only [dataSize, btChunkSize_eq, dataPktNum] at hlt ⊢
    omega
  obtain ⟨buffer', hcopy⟩ := buffer.memcpy_of_le (Nat.le_refl _) hfit
  refine ⟨buffer', ?_, ?_⟩
  · rw [Receiver.store, if_pos hexp, payloadLen_dataPacket, hcopy, hnext]
    rfl
  · intro old hold hbuf
    have hinto := ChunkData.copyInto_of_memcpy hcopy
    rw [List.take_length, hbuf, data_dataPacket] at hinto
    rw [List.take_eq_take_min, List.length_drop, content.size_eq,
      Bytes.copyInto_blend (content.size_eq.trans hold.symm)
      (by rw [content.size_eq, ← hlen]; exact hfit), Option.some.injEq] at hinto
    rw [← hinto]
    rcases Nat.le_total dataSize (btChunkSize - rcvr.lastRcvd * dataSize) with hle | hle
    · rw [Nat.min_eq_left hle, Nat.succ_mul]
    · rw [Nat.min_eq_right hle, Bytes.blend_of_length_le, Bytes.blend_of_length_le]
      all_goals simp only [content.size_eq, hold, dataSize, btChunkSize_eq, dataPktNum] at hlt hle ⊢; omega

/-- Whatever the buffer was, storing a packet of a chunk changes no byte but to the
chunk's byte in the same place. -/
theorem Receiver.getElem?_store {rcvr' : Receiver} {buffer' : ChunkData} {content : ChunkData} {i : Nat}
    (hi : i < dataPktNum) (hnext : rcvr.nextExpected = rcvr.lastRcvd + 1)
    (h : rcvr.store buffer (dataPacket content i) = some (rcvr', buffer')) (j : Nat) :
    buffer'.bytes[j]? = buffer.bytes[j]? ∨ buffer'.bytes[j]? = content.bytes[j]? := by
  rw [Receiver.store] at h
  split at h
  · next hexp =>
    obtain ⟨d, hcopy, heq⟩ := Option.map_eq_some_iff.mp h
    cases heq
    have hlast : i = rcvr.lastRcvd := by
      rw [Receiver.Expects, seqNum_dataPacket hi, hnext] at hexp
      exact Nat.succ_inj.mp hexp
    rw [payloadLen_dataPacket] at hcopy
    have hinto := ChunkData.copyInto_of_memcpy hcopy
    rw [List.take_length, data_dataPacket, hlast] at hinto
    rcases Bytes.getElem?_copyInto hinto j with hsame | ⟨hge, hlt, hnew⟩
    · exact .inl hsame
    · refine .inr ?_
      have hshort : j - rcvr.lastRcvd * dataSize < dataSize := by
        have hle := List.length_take_le dataSize (content.bytes.drop (rcvr.lastRcvd * dataSize))
        omega
      rw [hnew, List.getElem?_take_of_lt hshort, List.getElem?_drop, Nat.add_sub_cancel' hge]
  · cases h
    exact .inl rfl

end Store

end BitTorrent
