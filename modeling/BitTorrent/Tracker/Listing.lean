import Mathlib.Data.List.Forall2
import Mathlib.Data.List.TakeWhile
import BitTorrent.Chunk.Hex
import BitTorrent.Library.Lines
import BitTorrent.Library.Numerals
import BitTorrent.Tracker.HashLists
import BitTorrent.Tracker.Files

/-!
# Chunk files as they are printed and listed

`make-chunks` prints a line for every hash, and `list_chunks` makes a record of every line.  What
was printed is listed as it was.  In other files `list_chunks` makes a record of every piece
`fgets` reads, whatever `sscanf` finds in it.
-/

namespace BitTorrent

/-- A line `<id> <40 hex digits>`, with a newline at its end or without one. -/
def NamesChunk (line : List UInt8) (id : Nat) (hash : List UInt8) : Prop :=
  ∃ digits ending, line = digits ++ 32 :: (hash ++ ending) ∧
    (digits ≠ [] ∧ (∀ d ∈ digits, Stdio.isDigit d = true) ∧ Stdio.digitsValue digits = id) ∧
    (hash.length = 2 * sha1HashSize ∧ ∀ d ∈ hash, isxdigit d = true) ∧
    (ending = [10] ∨ ending = [])

/-- A line with a number and a hash, as `make-chunks` prints it with `"%d %s\n"`. -/
def printChunk (i : Nat) (hash : List UInt8) : List UInt8 :=
  Stdio.decimal i ++ 32 :: (Stdio.cString (binary2hex hash sha1HashSize) ++ [10])

/-- What `make-chunks` prints for its hashes. -/
def printChunks (hashes : List (List UInt8)) : List UInt8 :=
  hashes.zipIdx.flatMap fun (hash, i) ↦ printChunk i hash

/-- The record carries the id and the hash of the line. -/
def Carries (line : List UInt8) (c : ChunkT) : Prop :=
  ∃ id hash, NamesChunk line id hash ∧ c.id = id ∧ c.hash = hash

/-- Each record comes from a line of its own that names a chunk, in the order of the lines. -/
def FromLines (file : List UInt8) (chunks : List ChunkT) : Prop :=
  ∃ lines, lines.Sublist (Stdio.textLines file) ∧ List.Forall₂ Carries lines chunks

/-- A record nobody has worked with: its id and its hash, as a string of forty lower-case digits. -/
structure IsNewChunk (c : ChunkT) (id : Nat) (hash : List UInt8) : Prop where
  id_eq : c.id = id
  text : Stdio.cString c.sha1 = hash.flatMap byteHex
  length_text : (Stdio.cString c.sha1).length = 2 * sha1HashSize
  decodes : hex2binary c.sha1 (2 * sha1HashSize) = hash
  ready : c.cState = .ready
  no_holders : c.holders = []

variable {c : UInt8} {line hash file : List UInt8} {hashes : List (List UInt8)} {id i : Nat}

/-! ## One line -/

/-- A hex digit is neither a terminator nor a blank nor a newline. -/
theorem ne_of_isxdigit (h : isxdigit c = true) : c ≠ 0 ∧ Stdio.isSpace c = false ∧ c ≠ 10 :=
  forall_byte (P := fun c ↦ isxdigit c = true → c ≠ 0 ∧ Stdio.isSpace c = false ∧ c ≠ 10)
    (by decide +kernel) c h

theorem ne_of_isDigit (h : Stdio.isDigit c = true) : c ≠ 0 ∧ c ≠ 10 :=
  forall_byte (P := fun c ↦ Stdio.isDigit c = true → c ≠ 0 ∧ c ≠ 10) (by decide +kernel) c h

/-- There is no terminator in such a line. -/
theorem cString_of_namesChunk (h : NamesChunk line id hash) : Stdio.cString line = line := by
  obtain ⟨digits, ending, rfl, ⟨-, hdigits, -⟩, ⟨-, hhash⟩, hending⟩ := h
  rw [Stdio.cString, List.takeWhile_eq_self_iff]
  intro d hd
  rw [decide_eq_true_iff]
  rcases List.mem_append.mp hd with hd | hd
  · exact (ne_of_isDigit (hdigits d hd)).1
  · rcases List.mem_cons.mp hd with rfl | hd
    · decide
    · rcases List.mem_append.mp hd with hd | hd
      · exact (ne_of_isxdigit (hhash d hd)).1
      · rcases hending with rfl | rfl
        · rw [List.mem_singleton.mp hd]
          decide
        · exact absurd hd List.not_mem_nil

/-- What `sscanf` finds in a line that names a chunk. -/
theorem sscanf_of_namesChunk (h : NamesChunk line id hash) (old : ScanTarget) :
    old.sscanf line = { id := Stdio.toInt id, sha1 := Stdio.store old.sha1 hash } := by
  have hline := cString_of_namesChunk h
  obtain ⟨digits, ending, rfl, ⟨hne, hdigits, rfl⟩, ⟨hlen, hhash⟩, hending⟩ := h
  have hword : Stdio.scanWord (32 :: (hash ++ ending)) = some hash := by
    rw [Stdio.scanWord_cons rfl]
    apply Stdio.scanWord_append ?_ fun d hd ↦ (ne_of_isxdigit (hhash d hd)).2.1
    · rcases hending with rfl | rfl
      · rintro d ⟨⟩
        rfl
      · rintro d ⟨⟩
    · rintro rfl
      cases hlen
  rw [ScanTarget.sscanf, hline, Stdio.scanInt_append hne hdigits rfl]
  simp only [hword]

/-- The record of a line that names a chunk. -/
theorem chunkOfLine_of_namesChunk (h : NamesChunk line id hash) :
    chunkOfLine line = initChunk (Stdio.toInt id) (sha1Array hash) := by
  have hstore : Stdio.store ScanTarget.zero.sha1 hash = sha1Array hash := by
    obtain ⟨-, -, -, -, ⟨hlen, -⟩, -⟩ := h
    rw [Stdio.store, ScanTarget.zero, List.drop_replicate, sha1Array, hlen]
    rfl
  rw [chunkOfLine, sscanf_of_namesChunk h, hstore]

/-- The text of the hash is the hash of the record. -/
theorem hash_initChunk (id : Int) (h : hash.length = 2 * sha1HashSize) :
    (initChunk id (sha1Array hash)).hash = hash := by
  rw [ChunkT.hash, sha1_initChunk, sha1Array, ← h, List.take_left]

/-- If every line fits into its array, there is a record for each of them. -/
theorem listChunks_of_fit (h : ∀ line ∈ Stdio.textLines file, line.length < trackerLineLen) :
    listChunks (some file) = some ((Stdio.textLines file).map chunkOfLine) := by
  rw [← Stdio.lines_eq_textLines (by decide) h]
  rfl

/-- Numerals and hashes are printed without a newline. -/
theorem notMem_line (i : Nat) (hhash : ∀ d ∈ hash, isxdigit d = true) :
    10 ∉ Stdio.decimal i ++ 32 :: hash := by
  rw [List.mem_append, List.mem_cons]
  rintro (h | h | h)
  · exact (ne_of_isDigit (Stdio.isDigit_of_mem_decimal h)).2 rfl
  · exact absurd h (by decide)
  · exact (ne_of_isxdigit (hhash 10 h)).2.2 rfl

/-- A line with an `int` and a hash fits into the array it is read into. -/
theorem length_line_lt (hi : i < 2 ^ 31) (hlen : hash.length = 2 * sha1HashSize) :
    (Stdio.decimal i ++ 32 :: (hash ++ [10])).length < trackerLineLen := by
  have hdigits : (Stdio.decimal i).length ≤ 10 :=
    Stdio.length_decimal_le (by decide) (Nat.lt_trans hi (by decide))
  rw [List.length_append, List.length_cons, List.length_append, hlen]
  show _ + (2 * 20 + 1 + 1) < 255
  omega

/-! ## Any file -/

/-- Each record comes from a line that names its chunk exactly if every line names one, with an
id in the range of `int`, and fits into the array it is read into. -/
theorem list_chunks_from_lines_iff (file : List UInt8) :
    (∀ chunks, listChunks (some file) = some chunks → FromLines file chunks) ↔
      ∀ line ∈ Stdio.textLines file, line.length < trackerLineLen ∧
        ∃ id hash, NamesChunk line id hash ∧ id < 2 ^ 31 := by
  have hsize : 2 ≤ trackerLineLen := by decide
  have hlist : listChunks (some file) = some ((Stdio.lines trackerLineLen file).map chunkOfLine) := rfl
  rw [hlist]
  constructor
  · intro h
    obtain ⟨lines, hsub, hall⟩ := h _ rfl
    -- there is a record for every piece, and a line for every record
    have hcount : (Stdio.lines trackerLineLen file).length = lines.length := by
      rw [hall.length_eq, List.length_map]
    obtain ⟨hle, hfit⟩ := Stdio.length_textLines_le hsize file
    have hsame : lines = Stdio.textLines file :=
      hsub.eq_of_length_le (Nat.le_trans hle (Nat.le_of_eq hcount))
    subst hsame
    have hshort := hfit hcount
    rw [Stdio.lines_eq_textLines hsize hshort, List.forall₂_map_right_iff, List.forall₂_same] at hall
    intro line hline
    obtain ⟨id, hash, hnames, hid, -⟩ := hall line hline
    refine ⟨hshort line hline, id, hash, hnames, ?_⟩
    rw [chunkOfLine_of_namesChunk hnames] at hid
    have hint : Stdio.toInt id = id := hid
    have hlt := Stdio.toInt_lt id
    rw [hint] at hlt
    exact_mod_cast hlt
  · intro h
    rw [← hlist, listChunks_of_fit fun line hline ↦ (h line hline).1]
    rintro chunks ⟨⟩
    refine ⟨Stdio.textLines file, List.Sublist.refl _, ?_⟩
    rw [List.forall₂_map_right_iff, List.forall₂_same]
    intro line hline
    obtain ⟨-, id, hash, hnames, hid⟩ := h line hline
    refine ⟨id, hash, hnames, ?_⟩
    rw [chunkOfLine_of_namesChunk hnames, Stdio.toInt_of_lt hid]
    obtain ⟨-, -, -, -, ⟨hlen, -⟩, -⟩ := hnames
    exact ⟨rfl, hash_initChunk _ hlen⟩

/-- An empty line. -/
theorem not_list_chunks_from_lines : ¬ ∀ file chunks,
    listChunks (some file) = some chunks → FromLines file chunks := by
  intro h
  obtain ⟨-, id, hash, hnames, -⟩ :=
    (list_chunks_from_lines_iff [10]).mp (h [10]) [10] (by decide)
  obtain ⟨digits, ending, heq, ⟨hne, -⟩, -⟩ := hnames
  obtain ⟨d, ds, rfl⟩ := List.exists_cons_of_ne_nil hne
  exact List.append_ne_nil_of_right_ne_nil ds (List.cons_ne_nil _ _) (List.cons_eq_cons.mp heq).2.symm

/-! ## What `make-chunks` prints -/

theorem isxdigit_byteHex (b : UInt8) : ∀ d ∈ byteHex b, isxdigit d = true :=
  forall_byte (P := fun b ↦ ∀ d ∈ byteHex b, isxdigit d = true) (by decide +kernel) b

theorem isxdigit_of_mem_hexText {bs : List UInt8} (h : c ∈ bs.flatMap byteHex) :
    isxdigit c = true := by
  obtain ⟨b, -, hc⟩ := List.mem_flatMap.mp h
  exact isxdigit_byteHex b c hc

/-- A text of hex digits, as the string it is in front of a terminator. -/
theorem cString_hexText (bs rest : List UInt8) :
    Stdio.cString (bs.flatMap byteHex ++ 0 :: rest) = bs.flatMap byteHex := by
  have hdigits : ∀ d ∈ bs.flatMap byteHex, decide (d ≠ 0) = true := fun d hd ↦
    decide_eq_true (ne_of_isxdigit (isxdigit_of_mem_hexText hd)).1
  rw [Stdio.cString, List.takeWhile_append_of_pos hdigits, List.takeWhile_cons]
  exact List.append_nil _

theorem printChunk_eq (i : Nat) (h : hash.length = sha1HashSize) :
    printChunk i hash = Stdio.decimal i ++ 32 :: (hash.flatMap byteHex ++ [10]) := by
  rw [printChunk, ← h, binary2hex_length, cString_hexText]

theorem length_hexText (h : hash.length = sha1HashSize) :
    (hash.flatMap byteHex).length = 2 * sha1HashSize := by
  rw [length_flatMap_byteHex, h]

/-- What is printed for a hash names its chunk. -/
theorem namesChunk_printChunk (i : Nat) (h : hash.length = sha1HashSize) :
    NamesChunk (printChunk i hash) i (hash.flatMap byteHex) :=
  ⟨Stdio.decimal i, [10], printChunk_eq i h,
    ⟨Stdio.decimal_ne_nil i, fun _ ↦ Stdio.isDigit_of_mem_decimal, Stdio.digitsValue_decimal i⟩,
    ⟨length_hexText h, fun _ ↦ isxdigit_of_mem_hexText⟩, .inl rfl⟩

/-- It fits into the array it is read into. -/
theorem length_printChunk_lt (h : hash.length = sha1HashSize) (hi : i < 2 ^ 31) :
    (printChunk i hash).length < trackerLineLen := by
  rw [printChunk_eq i h]
  exact length_line_lt hi (length_hexText h)

/-- The lines of what is printed. -/
theorem textLines_printChunks (hsize : ∀ h ∈ hashes, h.length = sha1HashSize) :
    Stdio.textLines (printChunks hashes) =
      hashes.zipIdx.map fun (hash, i) ↦ printChunk i hash := by
  have hline : ∀ x ∈ hashes.zipIdx, printChunk x.2 x.1 =
      (Stdio.decimal x.2 ++ 32 :: x.1.flatMap byteHex) ++ [10] := by
    intro x hx
    rw [printChunk_eq x.2 (hsize x.1 (List.fst_mem_of_mem_zipIdx hx)), List.append_assoc,
      List.cons_append]
  rw [printChunks, List.flatMap_congr hline, Stdio.textLines_flatMap fun x _ ↦
    notMem_line x.2 fun _ ↦ isxdigit_of_mem_hexText]
  exact List.map_congr_left fun x hx ↦ (hline x hx).symm

/-- The record of a line that was printed. -/
theorem isNewChunk_printChunk (h : hash.length = sha1HashSize) (hi : i < 2 ^ 31) :
    IsNewChunk (chunkOfLine (printChunk i hash)) i hash := by
  have htext : (hash.flatMap byteHex).length = 2 * sha1HashSize := length_hexText h
  have hsha1 : sha1Array (hash.flatMap byteHex) =
      hash.flatMap byteHex ++ 0 :: List.replicate (trackerLineLen - 2 * sha1HashSize - 1) 0 := by
    rw [sha1Array, htext]
    rfl
  rw [chunkOfLine_of_namesChunk (namesChunk_printChunk i h), Stdio.toInt_of_lt hi, hsha1]
  refine ⟨rfl, cString_hexText hash _, ?_, ?_, rfl, rfl⟩
  · rw [sha1_initChunk, cString_hexText, htext]
  · rw [sha1_initChunk, ← h]
    exact hex2binary_flatMap_byteHex hash _

/-- There is a record for each line. -/
theorem listChunks_of_printed (hsize : ∀ h ∈ hashes, h.length = sha1HashSize)
    (hcount : hashes.length < 2 ^ 31) : listChunks (some (printChunks hashes)) =
      some (hashes.zipIdx.map fun x ↦ chunkOfLine (printChunk x.2 x.1)) := by
  have hshort : ∀ line ∈ Stdio.textLines (printChunks hashes), line.length < trackerLineLen := by
    rw [textLines_printChunks hsize]
    intro line hline
    obtain ⟨x, hx, rfl⟩ := List.mem_map.mp hline
    exact length_printChunk_lt (hsize x.1 (List.fst_mem_of_mem_zipIdx hx))
      (Nat.lt_trans (List.snd_lt_of_mem_zipIdx hx) hcount)
  rw [listChunks_of_fit hshort, textLines_printChunks hsize, List.map_map]
  rfl

/-- What `make-chunks` prints for a list of hashes is listed as one new record for each of them,
in their order. -/
theorem listChunks_printChunks (hsize : ∀ h ∈ hashes, h.length = sha1HashSize)
    (hcount : hashes.length < 2 ^ 31) :
    ∃ chunks, listChunks (some (printChunks hashes)) = some chunks ∧
      chunks.length = hashes.length ∧
      ∀ i c hash, chunks[i]? = some c → hashes[i]? = some hash → IsNewChunk c i hash := by
  refine ⟨_, listChunks_of_printed hsize hcount, ?_, ?_⟩
  · rw [List.length_map, List.length_zipIdx]
  · intro i c hash hc hi
    have hlen : hash.length = sha1HashSize := hsize hash (List.mem_of_getElem? hi)
    have hlt : i < 2 ^ 31 := Nat.lt_trans (List.getElem?_eq_some_iff.mp hi).1 hcount
    rw [List.getElem?_map, List.getElem?_zipIdx, hi, Nat.zero_add, Option.map_some,
      Option.map_some, Option.some.injEq] at hc
    rw [← hc]
    exact isNewChunk_printChunk hlen hlt

/-- Two hashes. -/
theorem listChunks_printChunks_two :
    ∃ chunks, listChunks (some (printChunks [List.replicate 20 0, List.replicate 20 255])) =
        some chunks ∧ chunks.length = 2 ∧
      ∀ c, chunks[1]? = some c → IsNewChunk c 1 (List.replicate 20 255) := by
  have hsize : ∀ h ∈ [List.replicate 20 (0 : UInt8), List.replicate 20 255],
      h.length = sha1HashSize := by decide
  obtain ⟨chunks, hlist, hlen, hall⟩ := listChunks_printChunks hsize (by decide)
  exact ⟨chunks, hlist, hlen, fun c hc ↦ hall 1 c _ hc rfl⟩

end BitTorrent
