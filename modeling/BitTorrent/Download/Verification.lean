import BitTorrent.Download.Reassembly
import BitTorrent.Tracker.Files

/-!
# Whether an honest transfer verifies

`make_chunks` hashes the pieces a file is read in, the last one being as long as what is
left.  `check_chunk` hashes a whole buffer, which came from the file at an offset of type
`int`.
-/

namespace BitTorrent

/-! ## The pieces of a file -/

section Pieces

variable {file piece : List UInt8} {i n : Nat}

/-- Reading piece by piece cuts the file at the multiples of the chunk size. -/
theorem getElem?_filePieces (h : file.length ≤ n) (i : Nat) :
    (filePieces n file)[i]? =
      if i * btChunkSize < file.length then some ((file.drop (i * btChunkSize)).take btChunkSize)
      else none := by
  refine filePieces_induction (P := fun file pieces ↦ ∀ i, pieces[i]? =
    if i * btChunkSize < file.length then some ((file.drop (i * btChunkSize)).take btChunkSize)
    else none) ?_ ?_ h i
  · intro i
    rw [List.length_nil, if_neg (Nat.not_lt_zero _)]
    rfl
  · intro file pieces hfile ih i
    cases i with
    | zero =>
        rw [Nat.zero_mul, if_pos (List.length_pos_iff.mpr hfile), List.drop_zero,
          List.getElem?_cons_zero]
    | succ i =>
        rw [List.getElem?_cons_succ, ih, List.length_drop, List.drop_drop, Nat.succ_mul,
          Nat.add_comm btChunkSize]
        exact if_congr Nat.lt_sub_iff_add_lt rfl rfl

/-- The piece with a number, and when it is as long as a chunk. -/
theorem eq_piece (hpiece : (filePieces file.length file)[i]? = some piece) :
    piece = (file.drop (i * btChunkSize)).take btChunkSize ∧
      (piece.length = btChunkSize ↔ (i + 1) * btChunkSize ≤ file.length) := by
  rw [getElem?_filePieces (Nat.le_refl _), Option.ite_none_right_eq_some, Option.some.injEq] at hpiece
  obtain ⟨hlt, rfl⟩ := hpiece
  refine ⟨rfl, ?_⟩
  rw [List.length_take, List.length_drop, Nat.succ_mul]
  omega

end Pieces

/-! ## What is read for a chunk -/

section Reading

variable {file : List UInt8} {i : Nat}

/-- Up to two gigabytes the offset is that of the chunk. -/
theorem chunkOffset_of_lt (h : i < 4096) : Client.chunkOffset i = (i * btChunkSize : Nat) := by
  rw [Client.chunkOffset, Int.natCast_mul]
  apply Int.bmod_eq_of_le
  · exact Int.le_trans (by decide) (Int.mul_nonneg (Int.natCast_nonneg i) (Int.natCast_nonneg _))
  · rw [btChunkSize_eq]
    omega

/-- It is never behind that of the chunk. -/
theorem chunkOffset_le (i : Nat) : (Client.chunkOffset i).toNat ≤ i * btChunkSize := by
  rw [Int.toNat_le, Int.natCast_mul, Client.chunkOffset]
  have hnonneg : (0 : Int) ≤ i * btChunkSize := by positivity
  generalize (i * btChunkSize : Int) = off at hnonneg
  rw [Int.bmod_def]
  split
  all_goals omega

/-- At the offset of the chunk and at the one the file is read from, the file has the same
bytes. -/
def ReadsOwn (file : List UInt8) (i : Nat) : Prop :=
  (file.drop (Client.chunkOffset i).toNat).take btChunkSize =
    (file.drop (i * btChunkSize)).take btChunkSize

theorem readsOwn_of_lt (file : List UInt8) (h : i < 4096) : ReadsOwn file i := by
  rw [ReadsOwn, chunkOffset_of_lt h, Int.toNat_natCast]

/-- If the file holds the whole chunk, nothing of the old buffer is left. -/
theorem bytes_readChunk (old : ChunkData) (h : (i + 1) * btChunkSize ≤ file.length) :
    (readChunk old file i).bytes = (file.drop (Client.chunkOffset i).toNat).take btChunkSize := by
  have hlen : ((file.drop (Client.chunkOffset i).toNat).take btChunkSize).length = btChunkSize := by
    apply List.length_take_of_le
    have hle := chunkOffset_le i
    rw [List.length_drop]
    rw [Nat.succ_mul] at h
    omega
  show _ ++ old.bytes.drop _ = _
  rw [hlen, List.drop_of_length_le (Nat.le_of_eq old.size_eq), List.append_nil]

end Reading

namespace Client

variable {shahash : List UInt8 → List UInt8} {file : List UInt8} {i : Nat} {content : ChunkData}
  {c c' : Client} {p : PeerRef} {chunk : ChunkRef} {pool' : ReceiverPool} {pkts : List Packet}

/-- Once the receiver is gone the buffer is what was sent. -/
theorem data_of_gone (hpool : c.receiverPool.Ok) (hfree : getReceiver c.receiverPool (some p) = none)
    (hadd : addReceiver c.receiverPool p chunk = some pool')
    (hpkts : ∀ q ∈ pkts, q ∈ (chunk2pkts content).1)
    (hrun : Machine.run (deliver shahash p) { c with receiverPool := pool' } pkts = some c')
    (hgone : getReceiver c'.receiverPool (some p) = none) : (c'.chunks chunk).data = content := by
  obtain ⟨c'', r, hrun', hfill⟩ := exists_filling shahash hpool hfree hadd hpkts
  rw [hrun, Option.some.injEq] at hrun'
  subst hrun'
  rw [hfill.data]
  exact hfill.buffer_eq_iff.1 (hfill.gone_iff.mp hgone)

/-- The packets of a chunk, each delivered once and in order, are enough. -/
theorem exists_transfer (shahash : List UInt8 → List UInt8) (p : PeerRef) (chunk : ChunkRef)
    (content : ChunkData) {pool' : ReceiverPool} (hpool : c.receiverPool.Ok) (hfree : getReceiver c.receiverPool (some p) = none)
    (hadd : addReceiver c.receiverPool p chunk = some pool') :
    ∃ c', Machine.run (deliver shahash p) { c with receiverPool := pool' } (chunk2pkts content).1 =
        some c' ∧ getReceiver c'.receiverPool (some p) = none := by
  obtain ⟨c', r, hrun, hfill⟩ := exists_filling shahash hpool hfree hadd fun q hq ↦ hq
  refine ⟨c', hrun, hfill.gone_iff.mpr ?_⟩
  rw [chunk2pkts_eq, seqNums_range content (Nat.le_refl _), Counting.count_range]

/-- An honest transfer of chunk `i`, in any order and with any loss and repetition: the
buffer that is checked in the end is the piece of the file that was hashed exactly if that
piece has the size of a chunk and is what the file holds where it was read from. -/
theorem honest_transfer_iff (hi : i < (makeChunks shahash file).length) (old : ChunkData)
    (hpool : c.receiverPool.Ok) (hfree : getReceiver c.receiverPool (some p) = none)
    (hadd : addReceiver c.receiverPool p chunk = some pool')
    (hpkts : ∀ q ∈ pkts, q ∈ (chunk2pkts (readChunk old file i)).1)
    (hrun : Machine.run (deliver shahash p) { c with receiverPool := pool' } pkts = some c')
    (hgone : getReceiver c'.receiverPool (some p) = none) :
    ∃ piece, (filePieces file.length file)[i]? = some piece ∧
      (makeChunks shahash file)[i]? = some (shahash piece) ∧
      ((c'.chunks chunk).data.bytes = piece ↔
        (i + 1) * btChunkSize ≤ file.length ∧ (i < 4096 ∨ ReadsOwn file i)) ∧
      ((c'.chunks chunk).data.bytes = piece → checkChunk shahash (c'.chunks chunk).data
        (binary2hex (shahash piece) sha1HashSize) = true) := by
  rw [makeChunks, List.length_map] at hi
  have hpiece := List.getElem?_eq_getElem hi
  obtain ⟨heq, hlen⟩ := eq_piece hpiece
  refine ⟨_, hpiece, ?_, ?_, ?_⟩
  · rw [makeChunks, List.getElem?_map, hpiece]
    rfl
  · rw [data_of_gone hpool hfree hadd hpkts hrun hgone]
    constructor
    · intro hsame
      have hfull := hlen.mp (hsame ▸ (readChunk old file i).size_eq)
      refine ⟨hfull, .inr ?_⟩
      rw [ReadsOwn, ← bytes_readChunk old hfull, hsame, heq]
    · rintro ⟨hfull, hown⟩
      have hown' : ReadsOwn file i := hown.elim (readsOwn_of_lt file) id
      rw [bytes_readChunk old hfull, heq]
      exact hown'
  · intro hsame
    rw [checkChunk, hsame]
    exact beq_self_eq_true _

theorem length_makeChunks_pos (shahash : List UInt8 → List UInt8) (h : file ≠ []) :
    0 < (makeChunks shahash file).length := by
  have hpiece := getElem?_filePieces (Nat.le_refl file.length) 0
  rw [Nat.zero_mul, if_pos (List.length_pos_iff.mpr h)] at hpiece
  rw [makeChunks, List.length_map]
  exact (List.getElem?_eq_some_iff.mp hpiece).1

/-- A file of one full chunk of zeros. -/
theorem honest_transfer_iff_full : ∃ c' piece,
    Machine.run (deliver id 0) { oneChunk with receiverPool := ⟨1, 1, [newReceiver 0 0]⟩ }
      (chunk2pkts (readChunk (.fill 1) (ChunkData.fill 0).bytes 0)).1 = some c' ∧
    (filePieces btChunkSize (ChunkData.fill 0).bytes)[0]? = some piece ∧
    ((c'.chunks 0).data.bytes = piece ↔ (0 + 1) * btChunkSize ≤ (ChunkData.fill 0).bytes.length ∧
      (0 < 4096 ∨ ReadsOwn (ChunkData.fill 0).bytes 0)) := by
  have hpool : oneChunk.receiverPool.Ok := ⟨rfl, List.nodup_nil⟩
  obtain ⟨c', hrun, hgone⟩ :=
    exists_transfer id 0 0 (readChunk (.fill 1) (ChunkData.fill 0).bytes 0) hpool rfl rfl
  have hpos : 0 < (makeChunks id (ChunkData.fill 0).bytes).length :=
    length_makeChunks_pos id fun hnil ↦ by
      have hsize := (ChunkData.fill 0).size_eq
      rw [hnil] at hsize
      cases hsize
  obtain ⟨piece, hpiece, -, hiff, -⟩ :=
    honest_transfer_iff hpos (.fill 1) hpool rfl rfl (fun q hq ↦ hq) hrun hgone
  rw [(ChunkData.fill 0).size_eq] at hpiece
  exact ⟨c', piece, hrun, hpiece, hiff⟩

/-- A file of one byte: a whole buffer is checked, and one byte was hashed. -/
theorem not_honest_transfer : ¬ ∀ (shahash : List UInt8 → List UInt8) (file : List UInt8) (i : Nat)
    (old : ChunkData) (c c' : Client) (pool' : ReceiverPool) (p : PeerRef) (chunk : ChunkRef)
    (pkts : List Packet), i < (makeChunks shahash file).length → c.receiverPool.Ok →
      getReceiver c.receiverPool (some p) = none → addReceiver c.receiverPool p chunk = some pool' →
      (∀ q ∈ pkts, q ∈ (chunk2pkts (readChunk old file i)).1) →
      Machine.run (deliver shahash p) { c with receiverPool := pool' } pkts = some c' →
      getReceiver c'.receiverPool (some p) = none →
      (filePieces file.length file)[i]? = some (c'.chunks chunk).data.bytes := by
  intro h
  have hpool : oneChunk.receiverPool.Ok := ⟨rfl, List.nodup_nil⟩
  obtain ⟨c', hrun, hgone⟩ :=
    exists_transfer id 0 0 (readChunk (.fill 1) [0] (0 : Nat)) hpool rfl rfl
  have hpiece := h id [0] 0 (.fill 1) oneChunk c' _ 0 0 _ (length_makeChunks_pos id (List.cons_ne_nil _ _))
    hpool rfl rfl (fun q hq ↦ hq) hrun hgone
  have hfull := (eq_piece hpiece).2.mp (c'.chunks 0).data.size_eq
  exact absurd hfull (by decide)

end Client

end BitTorrent
