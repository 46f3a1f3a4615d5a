import BitTorrent.Library.Counting
import BitTorrent.Download.Delivery
import BitTorrent.Upload.Receiver

/-!
# Reassembly of a chunk

The packets of a chunk arrive in any order, any number of times, or not at all.
The receiver has then stored the longest prefix of the chunk's packets that
arrived in order, in their places, and is removed with the last one.
-/

namespace BitTorrent

namespace Client

/-- One packet from peer `p`. -/
def deliver (shahash : List UInt8 → List UInt8) (p : PeerRef) (c : Client) (pkt : Packet) :
    Option Client :=
  (c.processDATA shahash pkt (some p)).map Prod.fst

/-- The sequence numbers of packets. -/
def seqNums (pkts : List Packet) : List Nat := pkts.map fun q ↦ q.header.seqNum.toNat

/-- The numbers of a chunk's first packets. -/
theorem seqNums_range (content : ChunkData) {n : Nat} (h : n ≤ dataPktNum) :
    seqNums ((List.range n).map (dataPacket content)) = (List.range n).map (· + 1) := by
  rw [seqNums, List.map_map]
  exact List.map_congr_left fun i hi ↦ seqNum_dataPacket ((List.mem_range.mp hi).trans_le h)

/-- What a fresh receiver for `p` on `chunk` has made of the packets delivered to it,
the first `k` of the chunk being the longest prefix among them. -/
structure Reassembled (content : ChunkData) (old : ChunkData) (p : PeerRef) (chunk : ChunkRef)
    (pkts : List Packet) (k : Nat) (c : Client) : Prop where
  greatest : IsGreatest {k | (List.range' 1 k).Sublist (seqNums pkts)} k
  receiver : getReceiver c.receiverPool (some p) =
    if k < dataPktNum then some { newReceiver p chunk with lastRcvd := k, nextExpected := k + 1 }
    else none
  filled : (c.chunks chunk).data.bytes.take (min (k * dataSize) btChunkSize) =
    content.bytes.take (min (k * dataSize) btChunkSize)
  unchanged : (c.chunks chunk).data.bytes.drop (min (k * dataSize) btChunkSize) =
    old.bytes.drop (min (k * dataSize) btChunkSize)

/-! ## The invariant -/

/-- The connection of `p` while packets of its chunk arrive, since the state `c₀`. -/
structure Filling (content : ChunkData) (c₀ : Client) (p : PeerRef) (chunk : ChunkRef)
    (pkts : List Packet) (c : Client) (r : Receiving) : Prop where
  conn : c.Connection p r
  frame : c₀.DeliveryFrame c p chunk
  ok : r.Ok
  rcvr : r.rcvr = { newReceiver p chunk with
    lastRcvd := Counting.count (seqNums pkts), nextExpected := Counting.count (seqNums pkts) + 1 }
  buffer : r.chunk.bytes =
    Bytes.blend (Counting.count (seqNums pkts) * dataSize) content.bytes (c₀.chunks chunk).data.bytes

variable {shahash : List UInt8 → List UInt8} {content : ChunkData} {p : PeerRef}
  {chunk : ChunkRef} {pkts : List Packet} {c₀ c : Client} {r : Receiving}

theorem Filling.rcvd (h : Filling content c₀ p chunk pkts c r) :
    r.rcvr.lastRcvd = Counting.count (seqNums pkts) := by rw [h.rcvr]

theorem Filling.count_le (h : Filling content c₀ p chunk pkts c r) :
    Counting.count (seqNums pkts) ≤ dataPktNum := h.rcvd ▸ h.ok.rcvd_le

/-- The buffer of the chunk is the one the receiver fills. -/
theorem Filling.data (h : Filling content c₀ p chunk pkts c r) : (c.chunks chunk).data = r.chunk := by
  have hdata := h.conn.data
  rw [h.rcvr] at hdata
  exact hdata

/-- A fresh receiver has nothing. -/
theorem filling_of_get (content : ChunkData) (hpool : c.receiverPool.Ok)
    (hget : getReceiver c.receiverPool (some p) = some (newReceiver p chunk)) :
    Filling content c p chunk [] c (.init p chunk (c.chunks chunk).data) where
  conn := connection_of_get hget
  frame := .refl hpool p chunk
  ok := Receiving.ok_init p chunk _
  rcvr := rfl
  buffer := by
    show _ = Bytes.blend (0 * dataSize) content.bytes _
    rw [Nat.zero_mul, Bytes.blend_zero]
    rfl

theorem filling_of_add (content : ChunkData) {pool' : ReceiverPool} (hpool : c.receiverPool.Ok)
    (hfree : getReceiver c.receiverPool (some p) = none)
    (hadd : addReceiver c.receiverPool p chunk = some pool') :
    Filling content { c with receiverPool := pool' } p chunk [] { c with receiverPool := pool' }
      (.init p chunk (c.chunks chunk).data) :=
  filling_of_get (c := { c with receiverPool := pool' }) content (hpool.add hfree hadd)
    ((getReceiver_addReceiver hfree hadd hpool.counts).trans (if_pos rfl))

/-- One more packet of the chunk. -/
theorem Filling.step (shahash : List UInt8 → List UInt8)
    (h : Filling content c₀ p chunk pkts c r) {i : Nat} (hi : i < dataPktNum) :
    ∃ c' r', c.processDATA shahash (dataPacket content i) (some p) =
        some (c', if Counting.count (seqNums pkts) < dataPktNum then
          [makeACK (UInt32.ofNat (Counting.count (seqNums (pkts ++ [dataPacket content i]))))] else []) ∧
      Filling content c₀ p chunk (pkts ++ [dataPacket content i]) c' r' ∧
      (Counting.count (seqNums pkts) = dataPktNum → c' = c) := by
  have hcount : Counting.count (seqNums (pkts ++ [dataPacket content i])) =
      if i + 1 = Counting.count (seqNums pkts) + 1 then Counting.count (seqNums pkts) + 1
      else Counting.count (seqNums pkts) := by
    rw [seqNums, List.map_append, List.map_singleton, Counting.count_concat, seqNum_dataPacket hi]
    rfl
  obtain ⟨⟨r', replies⟩, hproc, hcase⟩ := Receiving.processDATA_cases content h.ok hi
  obtain ⟨c', hproc', hconn', hframe, hsame, -⟩ := h.conn.processDATA shahash h.frame.pool hproc
  have hok' : r'.Ok := hcase.ok h.ok
  have hframe' : c₀.DeliveryFrame c' p chunk := by
    have hchunk : r.rcvr.chunk = chunk := by rw [h.rcvr]; rfl
    rw [hchunk] at hframe
    exact h.frame.trans hframe
  have hopen : r.opened = false ↔ ¬ Counting.count (seqNums pkts) < dataPktNum := by
    rw [← Bool.not_eq_true, h.ok.opened_iff, h.rcvd]
  have hclosed : Counting.count (seqNums pkts) = dataPktNum → c' = c :=
    fun hfull ↦ hsame (hopen.mpr (Nat.not_lt_of_le (Nat.le_of_eq hfull.symm)))
  cases hcase with
  | closed hfull =>
      rw [h.rcvd] at hfull
      have hne : i + 1 ≠ Counting.count (seqNums pkts) + 1 := by
        rw [hfull]
        exact fun heq ↦ absurd (Nat.succ_inj.mp heq) (Nat.ne_of_lt hi)
      rw [if_neg hne] at hcount
      refine ⟨c', r, ?_, ⟨hconn', hframe', hok', ?_, ?_⟩, hclosed⟩
      · rw [if_neg (Nat.not_lt_of_le (Nat.le_of_eq hfull.symm)), hproc']
      · rw [hcount]
        exact h.rcvr
      · rw [hcount]
        exact h.buffer
  | repeated hlt hother =>
      rw [h.rcvd] at hlt hother hproc'
      have hne : i + 1 ≠ Counting.count (seqNums pkts) + 1 := fun heq ↦ hother (Nat.succ_inj.mp heq)
      rw [if_neg hne] at hcount
      refine ⟨c', r, ?_, ⟨hconn', hframe', hok', ?_, ?_⟩, hclosed⟩
      · rw [if_pos hlt, hproc', hcount]
      · rw [hcount]
        exact h.rcvr
      · rw [hcount]
        exact h.buffer
  | stored hlt heq hblend =>
      rw [h.rcvd] at hlt heq hproc'
      rw [if_pos (congrArg (· + 1) heq)] at hcount
      refine ⟨c', _, ?_, ⟨hconn', hframe', hok', ?_, ?_⟩, hclosed⟩
      · rw [if_pos hlt, hproc', hcount]
      · rw [hcount, Receiving.next, h.rcvr]
      · rw [hcount]
        have hbuf := hblend _ (c₀.chunks chunk).data.size_eq (h.rcvd ▸ h.buffer)
        rw [h.rcvd] at hbuf
        exact hbuf

/-- Any number of packets of the chunk. -/
theorem Filling.run (shahash : List UInt8 → List UInt8)
    (h : Filling content c₀ p chunk pkts c r) {more : List Packet}
    (hmore : ∀ q ∈ more, q ∈ (chunk2pkts content).1) :
    ∃ c' r', Machine.run (deliver shahash p) c more = some c' ∧
      Filling content c₀ p chunk (pkts ++ more) c' r' := by
  induction more generalizing c r pkts with
  | nil => exact ⟨c, r, rfl, by rwa [List.append_nil]⟩
  | cons q more ih =>
      obtain ⟨i, hi, rfl⟩ := mem_chunk2pkts.mp (hmore q (List.mem_cons_self ..))
      obtain ⟨c', r', hproc, hfill, -⟩ := h.step shahash hi
      obtain ⟨c'', r'', hrun, hfill'⟩ := ih hfill fun q hq ↦ hmore q (List.mem_cons_of_mem _ hq)
      refine ⟨c'', r'', Machine.run_cons_eq_some.mpr ⟨c', ?_, hrun⟩, ?_⟩
      · rw [deliver, hproc]
        rfl
      · rwa [List.append_assoc, List.singleton_append] at hfill'

/-- Packets of the chunk, delivered to a receiver that was just added. -/
theorem exists_filling (shahash : List UInt8 → List UInt8) {pool' : ReceiverPool}
    (hpool : c.receiverPool.Ok) (hfree : getReceiver c.receiverPool (some p) = none)
    (hadd : addReceiver c.receiverPool p chunk = some pool')
    (hpkts : ∀ q ∈ pkts, q ∈ (chunk2pkts content).1) :
    ∃ c' r, Machine.run (deliver shahash p) { c with receiverPool := pool' } pkts = some c' ∧
      Filling content { c with receiverPool := pool' } p chunk pkts c' r :=
  (filling_of_add content hpool hfree hadd).run shahash hpkts

/-- The receiver is gone once the last packet is stored. -/
theorem Filling.gone_iff (h : Filling content c₀ p chunk pkts c r) :
    getReceiver c.receiverPool (some p) = none ↔ Counting.count (seqNums pkts) = dataPktNum := by
  rw [h.conn.get]
  split
  · next hopen =>
      have hlt := h.ok.opened_iff.mp hopen
      rw [h.rcvd] at hlt
      exact iff_of_false (Option.some_ne_none _) (Nat.ne_of_lt hlt)
  · next hclosed =>
      rw [h.ok.opened_iff, h.rcvd] at hclosed
      exact iff_of_true rfl (Nat.le_antisymm h.count_le (Nat.le_of_not_lt hclosed))

/-- What the invariant says about the pool and the buffer. -/
theorem Filling.reassembled (h : Filling content c₀ p chunk pkts c r) :
    Reassembled content (c₀.chunks chunk).data p chunk pkts (Counting.count (seqNums pkts)) c := by
  refine ⟨Counting.isGreatest_count _, ?_, ?_, ?_⟩
  · rw [h.conn.get]
    simp only [h.ok.opened_iff, h.rcvr]
  · rw [h.data, h.buffer, ← content.size_eq]
    exact Bytes.take_blend
  · rw [h.data, h.buffer, ← content.size_eq]
    exact Bytes.drop_blend (content.size_eq.trans (c₀.chunks chunk).data.size_eq.symm)

/-- The buffer is the content once the last packet is stored, and not before if the
two differ there. -/
theorem Filling.buffer_eq_iff (h : Filling content c₀ p chunk pkts c r) :
    (Counting.count (seqNums pkts) = dataPktNum → r.chunk = content) ∧
    ((c₀.chunks chunk).data.bytes.drop ((dataPktNum - 1) * dataSize) ≠
        content.bytes.drop ((dataPktNum - 1) * dataSize) →
      r.chunk = content → Counting.count (seqNums pkts) = dataPktNum) := by
  constructor
  · intro hfull
    ext1
    rw [h.buffer, hfull]
    have hsize : btChunkSize ≤ dataPktNum * dataSize := by decide
    exact Bytes.blend_of_length_le (content.size_eq.trans_le hsize)
      ((c₀.chunks chunk).data.size_eq.trans_le hsize)
  · intro hne heq
    refine Nat.le_antisymm h.count_le (Nat.le_of_not_lt fun hlt ↦ hne ?_)
    have hblend : Bytes.blend (Counting.count (seqNums pkts) * dataSize) content.bytes
        (c₀.chunks chunk).data.bytes = content.bytes := by rw [← h.buffer, heq]
    have hdrop := Bytes.blend_eq_left_iff.mp hblend
    have hle : Counting.count (seqNums pkts) * dataSize ≤ (dataPktNum - 1) * dataSize :=
      Nat.mul_le_mul_right _ (Nat.le_sub_one_of_lt hlt)
    rw [← Nat.sub_add_cancel hle, Nat.add_comm, ← List.drop_drop, hdrop, List.drop_drop]

/-- Packets of a chunk delivered to a fresh receiver, in any order, with any
repetition and any omission: the receiver has the longest prefix of the chunk's
packets that arrived in order and its bytes are in their places; while it exists
each delivery is answered by one ACK with the last number received; and it is
removed with the last packet, whose delivery completes the chunk.  That is the
first delivery after which the buffer is the content, unless the buffer had the
content's last bytes to begin with. -/
theorem reassembly (shahash : List UInt8 → List UInt8) (p : PeerRef) (chunk : ChunkRef)
    {pool' : ReceiverPool}
    (hpool : c.receiverPool.Ok) (hfree : getReceiver c.receiverPool (some p) = none)
    (hadd : addReceiver c.receiverPool p chunk = some pool')
    (hpkts : ∀ q ∈ pkts, q ∈ (chunk2pkts content).1) :
    ∃ c' k, Machine.run (deliver shahash p) { c with receiverPool := pool' } pkts = some c' ∧
      Reassembled content (c.chunks chunk).data p chunk pkts k c' ∧
      (∀ q ∈ (chunk2pkts content).1, ∃ c'' k',
        c'.processDATA shahash q (some p) =
          some (c'', if k < dataPktNum then [makeACK (UInt32.ofNat k')] else []) ∧
        Reassembled content (c.chunks chunk).data p chunk (pkts ++ [q]) k' c'' ∧
        k ≤ k' ∧ (k = dataPktNum → c'' = c')) ∧
      (getReceiver c'.receiverPool (some p) = none ↔ k = dataPktNum) ∧
      (k = dataPktNum → (c'.chunks chunk).data = content) ∧
      ((c.chunks chunk).data.bytes.drop ((dataPktNum - 1) * dataSize) ≠
          content.bytes.drop ((dataPktNum - 1) * dataSize) →
        ((c'.chunks chunk).data = content ↔ k = dataPktNum)) := by
  obtain ⟨c', r, hrun, hfill⟩ := exists_filling shahash hpool hfree hadd hpkts
  refine ⟨c', _, hrun, hfill.reassembled, ?_, hfill.gone_iff, ?_, ?_⟩
  · intro q hq
    obtain ⟨i, hi, rfl⟩ := mem_chunk2pkts.mp hq
    obtain ⟨c'', r', hproc, hfill', hclosed⟩ := hfill.step shahash hi
    refine ⟨c'', _, hproc, hfill'.reassembled, ?_, hclosed⟩
    rw [seqNums, seqNums, List.map_append, List.map_singleton]
    exact Counting.count_le_concat _ _
  · rw [hfill.data]
    exact hfill.buffer_eq_iff.1
  · intro hne
    rw [hfill.data]
    exact ⟨hfill.buffer_eq_iff.2 hne, hfill.buffer_eq_iff.1⟩

/-! ## A chunk of zeros -/

/-- A peer about to fetch one chunk, into a record of cleared bytes. -/
def oneChunk : Client where
  chunks := fun _ ↦ initChunk 0 []
  downChunks := [0]
  doneChunks := []
  receiverPool := .init 1

/-- The packets of a chunk of zeros, delivered in order to a fresh receiver. -/
theorem reassembly_zeros : ∃ c k, Machine.run (deliver id 0)
    { oneChunk with receiverPool := { maxNum := 1, curNum := 1, workers := [newReceiver 0 0] } }
      (chunk2pkts (.fill 0)).1 = some c ∧
    Reassembled (.fill 0) (.fill 0) 0 0 (chunk2pkts (.fill 0)).1 k c := by
  have hpool : oneChunk.receiverPool.Ok := ⟨rfl, List.nodup_nil⟩
  obtain ⟨c, k, hrun, hre, -⟩ := reassembly id 0 0 hpool rfl rfl fun q hq ↦ hq
  exact ⟨c, k, hrun, hre⟩

/-- With a buffer of zeros the content is there from the start, and the receiver
stays: being removed does not mark the delivery that completes the buffer. -/
theorem not_removed_when_equal :
    ¬ ∀ (content : ChunkData) (c c' : Client) (pool' : ReceiverPool) (p : PeerRef) (chunk : ChunkRef)
      (pkts : List Packet), c.receiverPool.Ok → getReceiver c.receiverPool (some p) = none →
      addReceiver c.receiverPool p chunk = some pool' → (∀ q ∈ pkts, q ∈ (chunk2pkts content).1) →
      Machine.run (deliver id p) { c with receiverPool := pool' } pkts = some c' → pkts ≠ [] →
      ((c'.chunks chunk).data = content ↔ getReceiver c'.receiverPool (some p) = none) := by
  intro h
  have hpool : oneChunk.receiverPool.Ok := ⟨rfl, List.nodup_nil⟩
  have hpkts : ∀ q ∈ [dataPacket (.fill 0) 0], q ∈ (chunk2pkts (.fill 0)).1 := by
    intro q hq
    rw [List.mem_singleton] at hq
    exact mem_chunk2pkts.mpr ⟨0, by decide, hq.symm⟩
  obtain ⟨c, r, hrun, hfill⟩ := exists_filling (p := 0) id hpool rfl rfl hpkts
  have hiff := h (.fill 0) oneChunk c _ 0 0 _ hpool rfl rfl hpkts hrun (List.cons_ne_nil _ _)
  have hcount : Counting.count (seqNums [dataPacket (.fill 0) 0]) = 1 := by
    rw [seqNums, List.map_singleton, seqNum_dataPacket (by decide)]
    rfl
  have hdata : (c.chunks 0).data = .fill 0 := by
    ext1
    rw [hfill.data, hfill.buffer]
    exact Bytes.blend_self
  have hgone := hfill.gone_iff.mp (hiff.mp hdata)
  rw [hcount] at hgone
  cases hgone

end Client

end BitTorrent
