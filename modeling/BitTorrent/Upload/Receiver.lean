import BitTorrent.Tracker.DataPackets
import BitTorrent.Upload.System

/-!
# What one packet does to a receiver

A receiver that is handed packets of one chunk takes each in one of three ways:
it is closed and stays silent, it repeats its last acknowledgment, or it stores
the packet it waits for.
-/

namespace BitTorrent

/-- The number of an acknowledgment is the one it was built with. -/
theorem ackNum_toNat_makeACK {n : Nat} (h : n ≤ dataPktNum) :
    (makeACK (UInt32.ofNat n)).header.ackNum.toNat = n := by
  rw [ackNum_makeACK, UInt32.toNat_ofNat']
  rw [dataPktNum] at h
  exact Nat.mod_eq_of_lt (by omega)

namespace Receiving

/-- The counters of a receiver agree, and it is open until the last packet. -/
structure Ok (r : Receiving) : Prop where
  next_eq : r.rcvr.nextExpected = r.rcvr.lastRcvd + 1
  rcvd_le : r.rcvr.lastRcvd ≤ dataPktNum
  opened_iff : r.opened = true ↔ r.rcvr.lastRcvd < dataPktNum

theorem ok_init (pSdr : PeerRef) (chunk : ChunkRef) (buffer : ChunkData) :
    (init pSdr chunk buffer).Ok := ⟨rfl, Nat.zero_le _, by simp [init, newReceiver, dataPktNum]⟩

/-- The receiver after the packet it waits for, with the chunk's new bytes. -/
def next (r : Receiving) (chunk : ChunkData) : Receiving where
  rcvr := { r.rcvr with lastRcvd := r.rcvr.lastRcvd + 1, nextExpected := r.rcvr.lastRcvd + 2 }
  chunk := chunk
  opened := decide (r.rcvr.lastRcvd + 1 < dataPktNum)

theorem ok_next {r : Receiving} {chunk : ChunkData} (h : r.rcvr.lastRcvd < dataPktNum) :
    (r.next chunk).Ok := ⟨rfl, h, by simp [next]⟩

variable {r : Receiving} {content : ChunkData} {i : Nat}

theorem processDATA_of_closed (h : r.opened = false) (p : Packet) :
    r.processDATA p = some (r, []) := by
  rw [processDATA, h]
  rfl

/-- Any other packet makes an open receiver repeat its acknowledgment. -/
theorem processDATA_other (hr : r.Ok) (h : r.rcvr.lastRcvd < dataPktNum) {p : Packet}
    (hp : ¬ r.rcvr.Expects p) :
    r.processDATA p = some (r, [makeACK (UInt32.ofNat r.rcvr.lastRcvd)]) := by
  have hopen : r.opened = true := hr.opened_iff.mpr h
  have hincomplete : ¬ r.rcvr.Complete := fun hc ↦
    absurd (r.rcvr.complete_iff.mp hc) (Nat.not_le_of_lt h)
  rw [processDATA, if_pos hopen, Receiver.store_of_ne hp, Option.map_some]
  simp only [hincomplete, decide_false, Bool.not_false]
  rw [← hopen]

/-- The packet an open receiver waits for is stored and acknowledged. -/
theorem processDATA_expected (content : ChunkData) (hr : r.Ok) (h : r.rcvr.lastRcvd < dataPktNum) :
    ∃ chunk, r.processDATA (dataPacket content r.rcvr.lastRcvd) =
        some (r.next chunk, [makeACK (UInt32.ofNat (r.rcvr.lastRcvd + 1))]) ∧
      ∀ old : List UInt8, old.length = btChunkSize →
        r.chunk.bytes = Bytes.blend (r.rcvr.lastRcvd * dataSize) content.bytes old →
        chunk.bytes = Bytes.blend ((r.rcvr.lastRcvd + 1) * dataSize) content.bytes old := by
  obtain ⟨chunk, hstore, hblend⟩ := r.rcvr.store_dataPacket content r.chunk hr.next_eq h
  refine ⟨chunk, ?_, hblend⟩
  rw [processDATA, if_pos (hr.opened_iff.mpr h), hstore, Option.map_some]
  have hopened : (!decide ({ r.rcvr with
      lastRcvd := r.rcvr.lastRcvd + 1, nextExpected := r.rcvr.lastRcvd + 2 } : Receiver).Complete) =
      decide (r.rcvr.lastRcvd + 1 < dataPktNum) := by
    rw [← decide_not]
    exact decide_eq_decide.mpr ((not_congr (Receiver.complete_iff _)).trans Nat.not_le)
  exact congrArg (fun o ↦ some (({ (r.next chunk) with opened := o } : Receiving), _)) hopened

/-- A fresh receiver stores the first packet of a chunk. -/
theorem processDATA_first (content : ChunkData) (pSdr : PeerRef) (chunk : ChunkRef)
    (buffer : ChunkData) :
    ∃ stored, (init pSdr chunk buffer).processDATA (dataPacket content 0) =
        some ((init pSdr chunk buffer).next stored, [makeACK 1]) ∧
      stored.bytes = Bytes.blend dataSize content.bytes buffer.bytes := by
  obtain ⟨stored, hproc, hblend⟩ := processDATA_expected content (ok_init pSdr chunk buffer)
    (show 0 < dataPktNum by decide)
  refine ⟨stored, hproc, ?_⟩
  have hbytes := hblend buffer.bytes buffer.size_eq (by
    show buffer.bytes = Bytes.blend (0 * dataSize) _ _
    rw [Nat.zero_mul, Bytes.blend_zero])
  rw [hbytes]
  show Bytes.blend ((0 + 1) * dataSize) _ _ = _
  rw [Nat.zero_add, Nat.one_mul]

/-- The three ways a receiver takes a packet of its chunk. -/
inductive DataStep (r : Receiving) (content : ChunkData) (i : Nat) : Receiving × List Packet → Prop
  | closed : r.rcvr.lastRcvd = dataPktNum → DataStep r content i (r, [])
  | repeated : r.rcvr.lastRcvd < dataPktNum → i ≠ r.rcvr.lastRcvd →
      DataStep r content i (r, [makeACK (UInt32.ofNat r.rcvr.lastRcvd)])
  | stored {chunk} : r.rcvr.lastRcvd < dataPktNum → i = r.rcvr.lastRcvd →
      (∀ old : List UInt8, old.length = btChunkSize →
        r.chunk.bytes = Bytes.blend (r.rcvr.lastRcvd * dataSize) content.bytes old →
        chunk.bytes = Bytes.blend ((r.rcvr.lastRcvd + 1) * dataSize) content.bytes old) →
      DataStep r content i (r.next chunk, [makeACK (UInt32.ofNat (r.rcvr.lastRcvd + 1))])

/-- A receiver always takes a packet of its chunk, in one of these ways. -/
theorem processDATA_cases (content : ChunkData) (hr : r.Ok) (hi : i < dataPktNum) :
    ∃ out, r.processDATA (dataPacket content i) = some out ∧ r.DataStep content i out := by
  rcases Nat.lt_or_ge r.rcvr.lastRcvd dataPktNum with h | h
  · by_cases hexp : i = r.rcvr.lastRcvd
    · obtain ⟨chunk, hproc, hblend⟩ := processDATA_expected content hr h
      rw [hexp]
      exact ⟨_, hproc, .stored h rfl hblend⟩
    · refine ⟨_, processDATA_other hr h ?_, .repeated h hexp⟩
      intro hp
      apply hexp
      rw [Receiver.Expects, seqNum_dataPacket hi, hr.next_eq] at hp
      exact Nat.succ_inj.mp hp
  · have hclosed : r.opened = false := by
      rw [← Bool.not_eq_true, hr.opened_iff]
      exact Nat.not_lt_of_le h
    exact ⟨_, processDATA_of_closed hclosed _, .closed (Nat.le_antisymm hr.rcvd_le h)⟩

theorem DataStep.ok {out : Receiving × List Packet} (h : r.DataStep content i out) (hr : r.Ok) :
    out.1.Ok := by
  cases h with
  | closed => exact hr
  | repeated => exact hr
  | stored hlt => exact ok_next hlt

end Receiving

end BitTorrent
