import BitTorrent.Download.Finished
import BitTorrent.Download.Verification
import BitTorrent.Library.OutFile

/-!
# The output file

`chunks2file` writes the chunks in the order in which they were finished, each at its offset,
and seeks over those that are still to come.  `get_data_chunk` seeks to the same offset, which
is a product of two `int`s, and has to fit into one.
-/

namespace BitTorrent

namespace Client

open Stdio (OutFile)

variable {shahash : List UInt8 → List UInt8} {c : Client}

/-- The file that `chunks2file` leaves, `none` if it creates none. -/
def outputFile (shahash : List UInt8 → List UInt8) (c : Client) : Option (List UInt8) :=
  if c.downChunks ≠ [] ∨ c.doneChunks = [] then none
  else some (OutFile.create.writeAll
    ((chunks2file shahash c).map fun w ↦ (w.1, w.2.bytes))).bytes

/-! ## Any order of the queue -/

/-- The number and the bytes of a chunk. -/
def block (c : Client) (r : ChunkRef) : Nat × List UInt8 :=
  ((c.chunks r).id.toNat, (c.chunks r).data.bytes)

/-- With every chunk right and no offset that wraps, the file is that of the blocks. -/
theorem outputFile_eq (hdown : c.downChunks = []) (hdone : c.doneChunks ≠ [])
    (hcheck : ∀ r ∈ c.doneChunks, checkChunk shahash (c.chunks r).data (c.chunks r).sha1 = true)
    (hid : ∀ r ∈ c.doneChunks, 0 ≤ (c.chunks r).id ∧ (c.chunks r).id < 4096) :
    outputFile shahash c = some (Stdio.writeBlocks btChunkSize (c.doneChunks.map c.block)) := by
  have hwrites : (chunks2file shahash c).map (fun w ↦ (w.1, w.2.bytes)) =
      (c.doneChunks.map c.block).map fun b ↦ (((b.1 * btChunkSize : Nat) : Int), b.2) := by
    rw [chunks2file_eq hdown hcheck, List.map_map, List.map_map]
    apply List.map_congr_left
    intro r hr
    obtain ⟨hnonneg, hlt⟩ := hid r hr
    have hoff := chunkOffset_of_lt (i := (c.chunks r).id.toNat) (by omega)
    rw [Int.toNat_of_nonneg hnonneg] at hoff
    exact Prod.ext hoff rfl
  rw [outputFile, if_neg (by simp [hdown, hdone]), hwrites, Stdio.bytes_writeAll]
  rfl

/-- Non-negative numbers that differ differ as naturals. -/
theorem nodup_block (hid : ∀ r ∈ c.doneChunks, 0 ≤ (c.chunks r).id ∧ (c.chunks r).id < 4096)
    (hnodup : (c.doneChunks.map fun r ↦ (c.chunks r).id).Nodup) :
    ((c.doneChunks.map c.block).map Prod.fst).Nodup := by
  rw [List.map_map]
  refine List.Nodup.map_on ?_ hnodup.of_map
  intro r hr r' hr' heq
  refine List.inj_on_of_nodup_map hnodup hr hr' ?_
  have hr₀ := (hid r hr).1
  have hr₀' := (hid r' hr').1
  simp only [Function.comp_apply, block] at heq
  omega

/-- With every chunk right and numbers of their own, the file holds each chunk at its place. -/
theorem holds_outputFile (hdown : c.downChunks = []) (hdone : c.doneChunks ≠ [])
    (hcheck : ∀ r ∈ c.doneChunks, checkChunk shahash (c.chunks r).data (c.chunks r).sha1 = true)
    (hid : ∀ r ∈ c.doneChunks, 0 ≤ (c.chunks r).id ∧ (c.chunks r).id < 4096)
    (hnodup : (c.doneChunks.map fun r ↦ (c.chunks r).id).Nodup) :
    ∃ file, outputFile shahash c = some file ∧
      Stdio.Holds btChunkSize (c.doneChunks.map c.block) file := by
  refine ⟨_, outputFile_eq hdown hdone hcheck hid,
    Stdio.holds_writeBlocks (by decide) (nodup_block hid hnodup) fun b hb ↦ ?_⟩
  obtain ⟨r, -, rfl⟩ := List.mem_map.mp hb
  exact (c.chunks r).data.size_eq

/-- A done queue whose chunks are right and have numbers of their own below 4096 makes one and
the same file in any order: the bytes of each chunk at its place, zeros where chunks are
missing, and nothing behind the last one. -/
theorem outputFile_of_checked (hdown : c.downChunks = []) (hdone : c.doneChunks ≠ [])
    (hcheck : ∀ r ∈ c.doneChunks, checkChunk shahash (c.chunks r).data (c.chunks r).sha1 = true)
    (hid : ∀ r ∈ c.doneChunks, 0 ≤ (c.chunks r).id ∧ (c.chunks r).id < 4096)
    (hnodup : (c.doneChunks.map fun r ↦ (c.chunks r).id).Nodup) :
    ∃ file, (∀ done : List ChunkRef, done.Perm c.doneChunks →
        outputFile shahash { c with doneChunks := done } = some file) ∧
      (∀ r ∈ c.doneChunks, ∀ j < btChunkSize,
        file[(c.chunks r).id.toNat * btChunkSize + j]? = (c.chunks r).data.bytes[j]?) ∧
      (∀ i : Nat, (∀ r ∈ c.doneChunks, (c.chunks r).id ≠ i) →
        (∃ r ∈ c.doneChunks, i < (c.chunks r).id) → ∀ j < btChunkSize,
          file[i * btChunkSize + j]? = some 0) ∧
      ∃ top ∈ c.doneChunks, (∀ r ∈ c.doneChunks, (c.chunks r).id ≤ (c.chunks top).id) ∧
        file.length = ((c.chunks top).id.toNat + 1) * btChunkSize := by
  have hsize : 0 < btChunkSize := by decide
  obtain ⟨file, -, hholds⟩ := holds_outputFile hdown hdone hcheck hid hnodup
  refine ⟨file, ?_, ?_, ?_, ?_⟩
  · intro done hperm
    have hmem : ∀ r ∈ done, r ∈ c.doneChunks := fun r hr ↦ hperm.mem_iff.mp hr
    obtain ⟨file', hfile', hholds'⟩ := holds_outputFile (c := { c with doneChunks := done }) hdown
      (fun hnil ↦ hdone (List.nil_perm.mp (hnil ▸ hperm))) (fun r hr ↦ hcheck r (hmem r hr))
      (fun r hr ↦ hid r (hmem r hr)) ((hperm.map _).nodup_iff.mpr hnodup)
    rw [hfile']
    exact congrArg some ((hholds'.of_perm (hperm.map _)).unique hsize hholds)
  · intro r hr j hj
    exact hholds.getElem?_of_mem (List.mem_map_of_mem hr) (c.chunks r).data.size_eq hj
  · rintro i hmissing ⟨r, hr, hlt⟩ j hj
    refine hholds.getElem?_of_lt (List.mem_map_of_mem hr) (Int.lt_toNat.mpr hlt) ?_ hj
    intro b hb hnum
    obtain ⟨r', hr', rfl⟩ := List.mem_map.mp hb
    rw [block] at hnum
    exact hmissing r' hr' (hnum ▸ (Int.toNat_of_nonneg (hid r' hr').1).symm)
  · obtain ⟨b, hb, hhigh, heq⟩ := hholds.exists_last hsize (hdone ∘ List.map_eq_nil_iff.mp)
    obtain ⟨top, htop, rfl⟩ := List.mem_map.mp hb
    refine ⟨top, htop, fun r hr ↦ ?_, heq⟩
    exact Int.toNat_le.mp (hhigh _ (List.mem_map_of_mem hr)) |>.trans_eq
      (Int.toNat_of_nonneg (hid top htop).1)

/-- Chunks 2 and 0 are done, chunk 1 was not asked for. -/
def twoDone : Client where
  chunks := fun r ↦
    { initChunk (if r = 0 then 2 else 0) ((List.replicate sha1HashSize (UInt8.ofNat r)).flatMap byteHex) with
      data := .fill (UInt8.ofNat r)
      cState := .finished }
  downChunks := []
  doneChunks := [0, 1]
  receiverPool := .init 1

/-- The other order makes the same file, three chunks long. -/
theorem outputFile_of_checked_two : ∃ file, outputFile firstBytes twoDone = some file ∧
    outputFile firstBytes { twoDone with doneChunks := [1, 0] } = some file ∧
    file[1 * btChunkSize + 0]? = some 0 ∧ file.length = 3 * btChunkSize := by
  have hcheck : ∀ r ∈ twoDone.doneChunks,
      checkChunk firstBytes (twoDone.chunks r).data (twoDone.chunks r).sha1 = true := by
    intro r _
    show checkChunk firstBytes (ChunkData.fill (UInt8.ofNat r)) _ = true
    rw [checkChunk, firstBytes_fill, binary2hex]
    exact beq_self_eq_true _
  obtain ⟨file, hany, -, hzero, top, htop, hhigh, hlen⟩ :=
    outputFile_of_checked (c := twoDone) rfl (List.cons_ne_nil _ _) hcheck (by decide) (by decide)
  have hfirst : ∀ top ∈ twoDone.doneChunks,
      (∀ r ∈ twoDone.doneChunks, (twoDone.chunks r).id ≤ (twoDone.chunks top).id) →
        (twoDone.chunks top).id = 2 := by decide
  refine ⟨file, hany _ (.refl _), hany _ (.swap _ _ _), ?_, ?_⟩
  · exact hzero 1 (by decide) ⟨0, by decide, by decide⟩ 0 (by decide)
  · rw [hlen, hfirst top htop hhigh]
    rfl

/-! ## The offset of a chunk -/

/-- Where `get_data_chunk` reads a chunk: the file has just been opened. -/
def readPos (id : Int) : Nat := Stdio.seek 0 (chunkOffset id)

theorem bytes_readChunk_eq (old : ChunkData) (file : List UInt8) (id : Int) :
    (readChunk old file id).bytes = (file.drop (readPos id)).take btChunkSize ++
      old.bytes.drop ((file.drop (readPos id)).take btChunkSize).length := by
  rw [readPos, Stdio.seek_zero]
  rfl

/-- Where `chunks2file` writes a chunk in a file it has written to. -/
def writePos (f : OutFile) (id : Int) : Nat := (f.fseek (chunkOffset id)).pos

/-- Byte `k` of a file belongs to the chunk at `pos`. -/
def InChunk (pos k : Nat) : Prop := pos ≤ k ∧ k < pos + btChunkSize

/-- The product fits into an `int`, and the chunk is read and written at its place. -/
structure OffsetExact (id : Int) : Prop where
  product : id * btChunkSize < 2 ^ 31
  read : (readPos id : Int) = id * btChunkSize
  write : ∀ f, (writePos f id : Int) = id * btChunkSize

/-- The offsets of two chunks are exact, and if they are not the same chunk no byte belongs to
both, whether read or written. -/
structure OffsetsExact (i j : Int) : Prop where
  left : OffsetExact i
  right : OffsetExact j
  read : i ≠ j → ∀ k, ¬ (InChunk (readPos i) k ∧ InChunk (readPos j) k)
  write : i ≠ j → ∀ f f' k, ¬ (InChunk (writePos f i) k ∧ InChunk (writePos f' j) k)

/-- The offset of a chunk is exact up to two gigabytes. -/
theorem offsetExact_iff (i : Nat) : OffsetExact i ↔ i < 4096 := by
  constructor
  · rintro ⟨hproduct, -, -⟩
    rw [btChunkSize_eq] at hproduct
    omega
  · intro hlt
    have hoff := chunkOffset_of_lt hlt
    refine ⟨?_, ?_, ?_⟩
    · rw [btChunkSize_eq]
      omega
    · rw [readPos, hoff, Stdio.seek_natCast, Int.natCast_mul]
    · intro f
      rw [writePos, OutFile.fseek, hoff]
      exact congrArg Nat.cast (Stdio.seek_natCast f.pos _)

/-- At multiples of the chunk size no byte belongs to two chunks. -/
theorem not_inChunk {i j : Int} {pos pos' : Nat} (hi : (pos : Int) = i * btChunkSize)
    (hj : (pos' : Int) = j * btChunkSize) (hne : i ≠ j) (k : Nat) :
    ¬ (InChunk pos k ∧ InChunk pos' k) := by
  rintro ⟨⟨hlow, hhigh⟩, hlow', hhigh'⟩
  rw [btChunkSize_eq] at hi hj hhigh hhigh'
  omega

/-- For any two numbers the offsets are exact precisely if both are below 4096. -/
theorem offsetsExact_iff (i j : Nat) : OffsetsExact i j ↔ i < 4096 ∧ j < 4096 := by
  constructor
  · rintro ⟨hi, hj, -, -⟩
    exact ⟨(offsetExact_iff i).mp hi, (offsetExact_iff j).mp hj⟩
  · rintro ⟨hlt, hlt'⟩
    have hi := (offsetExact_iff i).mpr hlt
    have hj := (offsetExact_iff j).mpr hlt'
    exact ⟨hi, hj, not_inChunk hi.read hj.read,
      fun hne f f' ↦ not_inChunk (hi.write f) (hj.write f') hne⟩

/-- A line with the number 4096. -/
def farLine : List UInt8 := [52, 48, 57, 54, 32] ++ List.replicate 40 48 ++ [10]

/-- `list_chunks` reads that number, and the offset of the chunk is negative. -/
theorem not_offsetsExact : ¬ ∀ (chunkfile : Option (List UInt8)) (chunks : List ChunkT),
    listChunks chunkfile = some chunks → ∀ a ∈ chunks, ∀ b ∈ chunks, 0 ≤ a.id → 0 ≤ b.id →
      OffsetsExact a.id b.id := by
  intro h
  have hlist : listChunks (some farLine) = some [chunkOfLine farLine] := rfl
  have hmem := List.mem_singleton_self (chunkOfLine farLine)
  have hid : (chunkOfLine farLine).id = (4096 : Nat) := by decide
  have hexact := (h (some farLine) _ hlist _ hmem _ hmem (by rw [hid]; decide)
    (by rw [hid]; decide)).left
  rw [hid, offsetExact_iff] at hexact
  exact absurd hexact (by decide)

end Client

end BitTorrent
