import BitTorrent.Library.Stdio
import BitTorrent.Handler.Download

/-!
# Chunk files

The functions that read files: `list_chunks` and `get_data_chunk` of `tracker.c` and
`make_chunks` of `chunk.c`.  A file is its bytes, and `none` where it cannot be opened.

`feof` is not modelled: it is asked in front of a call of `fgets` only, which fails
at the end of the file anyway.
-/

namespace BitTorrent

/-! ## Lines with a hash -/

/-- An `id` and an array `sha1[255]`. -/
structure ScanTarget where
  id : Int
  sha1 : List UInt8

/-- `sscanf(line, "%d %s", &id, sha1)`: what is not found in the line stays as it was. -/
def ScanTarget.sscanf (old : ScanTarget) (line : List UInt8) : ScanTarget :=
  match Stdio.scanInt (Stdio.cString line) with
  | none => old
  | some (id, s) =>
      match Stdio.scanWord s with
      | none => { old with id := id }
      | some word => { id := id, sha1 := Stdio.store old.sha1 word }

/-- The memory of a new record, cleared. -/
def ScanTarget.zero : ScanTarget := { id := 0, sha1 := List.replicate trackerLineLen 0 }

/-- The record `list_chunks` makes of a line. -/
def chunkOfLine (line : List UInt8) : ChunkT :=
  let target := ScanTarget.zero.sscanf line
  initChunk target.id target.sha1

/-- `list_chunks` -/
def listChunks (chunkfile : Option (List UInt8)) : Option (List ChunkT) :=
  chunkfile.map fun file ↦ (Stdio.lines trackerLineLen file).map chunkOfLine

/-! ## Chunks of a file -/

/-- What `fseek` and `fread` leave in the buffer of a chunk: the bytes of the file from the
chunk's offset on, and the bytes that were there where the file ends.  A negative offset
is refused, and the file is then read from its start. -/
def readChunk (old : ChunkData) (file : List UInt8) (id : Int) : ChunkData where
  bytes :=
    let read := (file.drop (Client.chunkOffset id).toNat).take btChunkSize
    read ++ old.bytes.drop read.length
  size_eq := by
    have hle := List.length_take_le btChunkSize (file.drop (Client.chunkOffset id).toNat)
    simp only [List.length_append, List.length_drop, old.size_eq]
    exact Nat.add_sub_cancel' hle

section ReadChunk

variable {old : ChunkData} {file : List UInt8} {id : Int}

/-- Byte `i` of the chunk of a file: where the file has ended, what the buffer held. -/
def chunkByte (old : ChunkData) (file : List UInt8) (id : Int) (i : Nat) : Option UInt8 :=
  file[(Client.chunkOffset id).toNat + i]?.or old.bytes[i]?

theorem getElem?_readChunk {i : Nat} (hi : i < btChunkSize) :
    (readChunk old file id).bytes[i]? = chunkByte old file id i := by
  let read := (file.drop (Client.chunkOffset id).toNat).take btChunkSize
  have hread : read[i]? = file[(Client.chunkOffset id).toNat + i]? := by
    rw [List.getElem?_take_of_lt hi, List.getElem?_drop]
  show (read ++ old.bytes.drop read.length)[i]? = _
  rw [chunkByte, ← hread]
  rcases Nat.lt_or_ge i read.length with hlt | hge
  · rw [List.getElem?_append_left hlt, List.getElem?_eq_getElem hlt, Option.some_or]
  · rw [List.getElem?_append_right hge, List.getElem?_drop, Nat.add_sub_cancel' hge,
      List.getElem?_eq_none hge, Option.none_or]

end ReadChunk

/-- The loop of `get_data_chunk` over the lines of the chunk file: it stops at the first one
that agrees with the hash in `SHA1_HASH_SIZE` characters, and with the last line if there
is none.

The record's text starts as a terminator with unknown bytes behind it.  These are zero
here: no comparison looks behind a terminator, which no hash text contains. -/
def findLine (sha1 : List UInt8) : ScanTarget → List (List UInt8) → ScanTarget
  | target, [] => target
  | target, line :: lines =>
      let target := target.sscanf line
      if sha1.take sha1HashSize == target.sha1.take sha1HashSize then target
      else findLine sha1 target lines

/-- `sscanf(file_line, "File: %s\n", file_name)`, into a name that holds whatever it held. -/
def scanFileName (old line : List UInt8) : List UInt8 :=
  match Stdio.cString line with
  | 70 :: 105 :: 108 :: 101 :: 58 :: s => (Stdio.scanWord s).getD old
  | _ => old

/-- The name of the data file, which the first line of a chunk file gives. -/
def dataFileName (old file : List UInt8) : List UInt8 :=
  scanFileName old ((Stdio.fgets trackerLineLen file).getD ([], [])).1

/-- What `get_data_chunk` finds in memory it does not clear: a file name and the buffer of
the chunk. -/
structure Uncleared where
  fileName : List UInt8
  data : ChunkData

/-- `get_data_chunk`.  `fopen` gives the files by name.  There is no value where the source
returns `NULL` or reads through a `NULL` file. -/
def getDataChunk (fopen : List UInt8 → Option (List UInt8)) (uncleared : Uncleared)
    (chunkfile : Option (List UInt8)) (hash : List UInt8) : Option ChunkData :=
  chunkfile.bind fun file ↦
    let sha1 := binary2hex hash sha1HashSize
    -- behind the line with the name another one is skipped
    let rest := ((Stdio.fgets trackerLineLen file).getD ([], [])).2
    let rest := ((Stdio.fgets trackerLineLen rest).getD ([], [])).2
    let target := findLine sha1 .zero (Stdio.lines trackerLineLen rest)
    (fopen (dataFileName uncleared.fileName file)).map fun data ↦
      readChunk uncleared.data data target.id

/-- The loop of `make_chunks`, run `n` times at most: the pieces of the file it hashes. -/
def filePieces : Nat → List UInt8 → List (List UInt8)
  | 0, _ => []
  | n + 1, file =>
      let buffer := file.take btChunkSize
      if buffer = [] then [] else buffer :: filePieces n (file.drop btChunkSize)

/-- Induction on the rounds of the loop, run to the end of the file. -/
theorem filePieces_induction {P : List UInt8 → List (List UInt8) → Prop} (nil : P [] [])
    (cons : ∀ file pieces, file ≠ [] → P (file.drop btChunkSize) pieces →
      P file (file.take btChunkSize :: pieces))
    {file : List UInt8} {n : Nat} (h : file.length ≤ n) : P file (filePieces n file) := by
  induction n generalizing file with
  | zero =>
      rw [List.length_eq_zero_iff.mp (Nat.le_zero.mp h)]
      exact nil
  | succ n ih =>
      by_cases hfile : file = []
      · rw [hfile, filePieces, List.take_nil, if_pos rfl]
        exact nil
      · have hread : file.take btChunkSize ≠ [] := fun hnil ↦
          (List.take_eq_nil_iff.mp hnil).elim (by decide) hfile
        have hrest : (file.drop btChunkSize).length ≤ n := by
          rw [List.length_drop, btChunkSize_eq]
          omega
        rw [filePieces, if_neg hread]
        exact cons file _ hfile (ih hrest)

/-- `make_chunks` -/
def makeChunks (shahash : List UInt8 → List UInt8) (file : List UInt8) : List (List UInt8) :=
  (filePieces file.length file).map shahash

/-- There is a chunk whatever the hash, if only the files can be opened. -/
theorem isSome_getDataChunk {fopen : List UInt8 → Option (List UInt8)} {uncleared : Uncleared}
    {chunkfile : Option (List UInt8)} {hash : List UInt8} :
    (getDataChunk fopen uncleared chunkfile hash).isSome = true ↔
      ∃ file, chunkfile = some file ∧ (fopen (dataFileName uncleared.fileName file)).isSome = true := by
  rw [getDataChunk]
  cases chunkfile with
  | none => exact ⟨fun h ↦ Bool.noConfusion h, fun ⟨_, h, _⟩ ↦ Option.noConfusion rfl (heq_of_eq h)⟩
  | some file =>
      rw [Option.bind_some, Option.isSome_map]
      constructor
      · exact fun h ↦ ⟨file, rfl, h⟩
      · rintro ⟨file', hfile, h⟩
        cases hfile
        exact h

/-! ## Lines fit into their arrays -/

theorem ScanTarget.length_sscanf {old : ScanTarget} {line : List UInt8}
    (hline : line.length < trackerLineLen) (hold : old.sha1.length = trackerLineLen) :
    (old.sscanf line).sha1.length = trackerLineLen := by
  rw [sscanf]
  split
  · exact hold
  · next id s hint =>
      split
      · exact hold
      · next word hword =>
          have hlen : word.length < trackerLineLen :=
            Nat.lt_of_le_of_lt (Stdio.length_of_scanWord hword) (Nat.lt_of_le_of_lt
              (Nat.le_trans (Stdio.length_rest_of_scanInt hint) (Stdio.length_cString_le line)) hline)
          exact (Stdio.length_store (hold ▸ hlen)).trans hold

/-- Whatever the file holds, each record's text stays within its array. -/
theorem length_sha1_listChunks {chunkfile : Option (List UInt8)} {chunks : List ChunkT}
    (h : listChunks chunkfile = some chunks) : ∀ c ∈ chunks, c.sha1.length = trackerLineLen := by
  obtain ⟨file, -, rfl⟩ := Option.map_eq_some_iff.mp h
  intro c hc
  obtain ⟨line, hline, rfl⟩ := List.mem_map.mp hc
  exact ScanTarget.length_sscanf (Stdio.length_of_mem_lines (by decide) hline) List.length_replicate

end BitTorrent
