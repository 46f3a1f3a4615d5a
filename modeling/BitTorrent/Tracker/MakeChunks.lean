import Mathlib.Data.Rat.Floor
import BitTorrent.Tracker.Listing

/-!
# The array of `make-chunks`

`main` allocates a place for each chunk of the file, as many as `get_numchunks` makes of the file's
size, and `make_chunks` reads the file to its end whatever the size of the array.  Both come to the
same number of chunks, as long as it is an `int`.
-/

namespace BitTorrent

/-- `get_numchunks`, of the size that `stat` finds, with an exact division.  There is no value where
the result is no `int`. -/
def getNumchunks : Option Nat → Option Int
  | some size =>
      let numchunks := ⌈(size : ℚ) / btChunkSize⌉
      if numchunks < 2 ^ 31 then some numchunks else none
  | none => some (-1)

/-- An array of hashes, with `none` where none has been written. -/
abbrev HashArray := List (Option (List UInt8))

/-- The loop of `make_chunks`, with what is left of the file and the number of hashes so far.  There
is no value where a hash is written outside of the array. -/
def makeChunksLoop (shahash : List UInt8 → List UInt8) (fp : List UInt8) (numchunks : Nat)
    (chunkHashes : HashArray) : Option (Nat × HashArray) :=
  let buffer := fp.take btChunkSize
  if _hread : 0 < buffer.length then
    if numchunks < chunkHashes.length then
      makeChunksLoop shahash (fp.drop btChunkSize) (numchunks + 1)
        (chunkHashes.set numchunks (some (shahash buffer)))
    else none
  else some (numchunks, chunkHashes)
termination_by fp.length
decreasing_by
  rw [List.length_take, btChunkSize_eq] at _hread
  rw [List.length_drop, btChunkSize_eq]
  omega

/-- `make_chunks`, with the array it writes to. -/
def makeChunksInto (shahash : List UInt8 → List UInt8) (fp : List UInt8) (chunkHashes : HashArray) :
    Option (Nat × HashArray) :=
  makeChunksLoop shahash fp 0 chunkHashes

/-- `main`, with what `stat` and `fopen` give for the file: the exit status and what is printed.
`malloc` gives what it is asked for, also where this is no byte. -/
def makeChunksMain (shahash : List UInt8 → List UInt8) (stat : Option Nat)
    (fp : Option (List UInt8)) : Option (Int × List UInt8) :=
  (getNumchunks stat).bind fun numchunks ↦
    match fp with
    | none => some (-1, [])
    | some fp =>
        if numchunks < 0 then some (-1, [])
        else (makeChunksInto shahash fp (List.replicate numchunks.toNat none)).bind fun made ↦
          ((made.2.take made.1).mapM id).map fun hashes ↦ (0, printChunks hashes)

variable {shahash : List UInt8 → List UInt8} {file piece : List UInt8} {n : Nat}

/-! ## The pieces of a file -/

theorem flatten_filePieces (h : file.length ≤ n) : (filePieces n file).flatten = file := by
  refine filePieces_induction (P := fun file pieces ↦ pieces.flatten = file) ?_ ?_ h
  · rfl
  · intro file pieces hfile ih
    rw [List.flatten_cons, ih, List.take_append_drop]

theorem of_mem_filePieces (h : file.length ≤ n) :
    ∀ piece ∈ filePieces n file, piece ≠ [] ∧ piece.length ≤ btChunkSize := by
  refine filePieces_induction
    (P := fun _ pieces ↦ ∀ piece ∈ pieces, piece ≠ [] ∧ piece.length ≤ btChunkSize) ?_ ?_ h
  · exact List.forall_mem_nil _
  · intro file pieces hfile ih
    refine List.forall_mem_cons.mpr ⟨⟨fun hnil ↦ ?_, List.length_take_le ..⟩, ih⟩
    exact (List.take_eq_nil_iff.mp hnil).elim (by decide) hfile

/-- One chunk more in front. -/
theorem ceil_chunks_eq_add_one {size : Nat} (h : 0 < size) : ⌈(size : ℚ) / btChunkSize⌉ =
    ⌈((size - btChunkSize : Nat) : ℚ) / btChunkSize⌉ + 1 := by
  rw [Rat.ceil_natCast_div_natCast, Rat.ceil_natCast_div_natCast, btChunkSize_eq]
  omega

/-- The file is read in as many pieces as there are chunks, where the last one counts in full. -/
theorem length_filePieces (h : file.length ≤ n) :
    ((filePieces n file).length : Int) = ⌈(file.length : ℚ) / btChunkSize⌉ := by
  refine filePieces_induction
    (P := fun file pieces ↦ (pieces.length : Int) = ⌈(file.length : ℚ) / btChunkSize⌉) ?_ ?_ h
  · simp
  · intro file pieces hfile ih
    rw [List.length_cons, Nat.cast_add_one, ih, List.length_drop,
      ← ceil_chunks_eq_add_one (List.length_pos_iff.mpr hfile)]

/-- The number of chunks is an `int` up to about a petabyte. -/
theorem getNumchunks_eq (size : Nat) : getNumchunks (some size) =
    if size ≤ (2 ^ 31 - 1) * btChunkSize then some ⌈(size : ℚ) / btChunkSize⌉ else none := by
  refine if_congr ?_ rfl rfl
  rw [Rat.ceil_natCast_div_natCast, btChunkSize_eq]
  omega

/-! ## The read loop -/

/-- One round. -/
theorem makeChunksLoop_of_ne_nil (hfile : file ≠ []) (i : Nat) (chunkHashes : HashArray) :
    makeChunksLoop shahash file i chunkHashes =
      if i < chunkHashes.length then
        makeChunksLoop shahash (file.drop btChunkSize) (i + 1)
          (chunkHashes.set i (some (shahash (file.take btChunkSize))))
      else none := by
  have hread : 0 < (file.take btChunkSize).length := by
    rw [List.length_take]
    exact Nat.lt_min.mpr ⟨by decide, List.length_pos_iff.mpr hfile⟩
  rw [makeChunksLoop, dif_pos hread]

/-- With a place left for each of the pieces the array is filled to its end. -/
theorem makeChunksLoop_eq (shahash : List UInt8 → List UInt8) (h : file.length ≤ n) :
    ∀ done free : HashArray, free.length = (filePieces n file).length →
      makeChunksLoop shahash file done.length (done ++ free) = some ((done ++ free).length,
        done ++ (filePieces n file).map fun piece ↦ some (shahash piece)) := by
  refine filePieces_induction (P := fun file pieces ↦ ∀ done free : HashArray,
    free.length = pieces.length →
      makeChunksLoop shahash file done.length (done ++ free) = some ((done ++ free).length,
        done ++ pieces.map fun piece ↦ some (shahash piece))) ?_ ?_ h
  · intro done free hfree
    rw [List.length_eq_zero_iff.mp hfree, List.append_nil, List.map_nil, List.append_nil,
      makeChunksLoop, dif_neg (by simp)]
  · intro file pieces hfile ih done free hfree
    match free with
    | place :: free =>
        rw [List.length_cons, List.length_cons, Nat.add_right_cancel_iff] at hfree
        have hroom : done.length < (done ++ place :: free).length := by simp
        have hset : (done ++ place :: free).set done.length
            (some (shahash (file.take btChunkSize))) =
              (done ++ [some (shahash (file.take btChunkSize))]) ++ free := by simp
        have hdone : done.length + 1 =
            (done ++ [some (shahash (file.take btChunkSize))]).length := by simp
        rw [makeChunksLoop_of_ne_nil hfile, if_pos hroom, hset, hdone, ih _ _ hfree]
        simp

/-! ## The array is as large as it has to be -/

/-- The pieces that `make_chunks` hashes fill the array of `n` places that `main` allocates. -/
structure Fills (file : List UInt8) (n : Nat) (pieces : List (List UInt8)) : Prop where
  allocated : getNumchunks (some file.length) = some (n : Int)
  filled : ∀ shahash, makeChunksInto shahash file (List.replicate n none) =
    some (n, pieces.map fun piece ↦ some (shahash piece))
  length_eq : pieces.length = n
  flatten_eq : pieces.flatten = file
  ne_nil : ∀ piece ∈ pieces, piece ≠ []
  length_le : ∀ piece ∈ pieces, piece.length ≤ btChunkSize

theorem fills_filePieces (h : file.length ≤ (2 ^ 31 - 1) * btChunkSize) :
    Fills file (filePieces file.length file).length (filePieces file.length file) where
  allocated := by rw [getNumchunks_eq, if_pos h, length_filePieces (Nat.le_refl _)]
  filled shahash := by
    have := makeChunksLoop_eq shahash (Nat.le_refl file.length) []
      (List.replicate (filePieces file.length file).length none) (List.length_replicate ..)
    rwa [List.nil_append, List.nil_append, List.length_replicate] at this
  length_eq := rfl
  flatten_eq := flatten_filePieces (Nat.le_refl _)
  ne_nil piece hpiece := (of_mem_filePieces (Nat.le_refl _) piece hpiece).1
  length_le piece hpiece := (of_mem_filePieces (Nat.le_refl _) piece hpiece).2

/-- What is printed are the hashes of the pieces. -/
theorem makeChunksMain_eq (shahash : List UInt8 → List UInt8)
    (h : file.length ≤ (2 ^ 31 - 1) * btChunkSize) :
    makeChunksMain shahash (some file.length) (some file) =
      some (0, printChunks (makeChunks shahash file)) := by
  have hfills := fills_filePieces h
  have hnonneg : ¬ ((filePieces file.length file).length : Int) < 0 := by omega
  rw [makeChunksMain, hfills.allocated, Option.bind_some]
  show (if _ then _ else _) = _
  rw [if_neg hnonneg, Int.toNat_natCast, hfills.filled, Option.bind_some,
    List.take_of_length_le (by rw [List.length_map]), List.mapM_map]
  show Option.map _ ((filePieces file.length file).mapM fun piece ↦ pure (shahash piece)) = _
  rw [List.mapM_pure]
  rfl

/-- `make_chunks` fills the array exactly, whatever the size of the file, as long as the number of
chunks is an `int`. -/
theorem exists_fills_iff (file : List UInt8) :
    (∃ n pieces, Fills file n pieces) ↔ file.length ≤ (2 ^ 31 - 1) * btChunkSize := by
  constructor
  · rintro ⟨n, pieces, h⟩
    have halloc := h.allocated
    rw [getNumchunks_eq] at halloc
    by_contra hlarge
    rw [if_neg hlarge] at halloc
    cases halloc
  · exact fun h ↦ ⟨_, _, fills_filePieces h⟩

theorem not_exists_fills_petabyte : ¬ ∀ file : List UInt8, ∃ n pieces, Fills file n pieces := by
  intro hall
  obtain ⟨n, pieces, h⟩ := hall (List.replicate (2 ^ 50) 0)
  have halloc := h.allocated
  rw [List.length_replicate, getNumchunks_eq, if_neg (by decide)] at halloc
  cases halloc

end BitTorrent
