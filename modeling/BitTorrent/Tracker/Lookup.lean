import BitTorrent.Tracker.Announce
import BitTorrent.Tracker.Listing

/-!
# Looking up a chunk

`get_data_chunk` reads one line of the master chunk file after the other into the same record and
stops where the first twenty of the forty digits agree.  It leaves the loop in the same way when
there is no such line, with what the last one said.
-/

namespace BitTorrent

/-- A line with an id and a hash of forty lower-case digits. -/
structure HashLine where
  id : Nat
  hash : List UInt8
  id_lt : id < 2 ^ 31
  length_hash : hash.length = 2 * sha1HashSize
  lower : ∀ d ∈ hash, IsLowerHex d

namespace HashLine

/-- The line as it stands in a file. -/
def text (l : HashLine) : List UInt8 := Stdio.decimal l.id ++ 32 :: (l.hash ++ [10])

end HashLine

/-- A master chunk file: the name of the data file, and the lines of its chunks. -/
structure MasterFile where
  name : List UInt8
  lines : List HashLine
  name_ne : name ≠ []
  name_plain : ∀ c ∈ name, c ≠ 0 ∧ Stdio.isSpace c = false

namespace MasterFile

/-- A line `File: <name>` and a line `Chunks:`. -/
def header (m : MasterFile) : List UInt8 :=
  [70, 105, 108, 101, 58, 32] ++ m.name ++ 10 :: ([67, 104, 117, 110, 107, 115, 58] ++ [10])

/-- The text of the file: these, and the lines of the chunks. -/
def text (m : MasterFile) : List UInt8 := m.header ++ m.lines.flatMap HashLine.text

/-- What there is room for of the name in the array its line is read into. -/
def openedName (m : MasterFile) : List UInt8 := m.name.take (trackerLineLen - 1 - 6)

/-- What two calls of `fgets` leave of the first two lines: nothing, if the name fits. -/
def unread (m : MasterFile) : List UInt8 :=
  let rest := ((Stdio.fgets trackerLineLen m.header).getD ([], [])).2
  ((Stdio.fgets trackerLineLen rest).getD ([], [])).2

/-- What `sscanf` finds in each line of the loop, read into a cleared record. -/
def records (m : MasterFile) : List ScanTarget :=
  (Stdio.lines trackerLineLen m.unread ++ m.lines.map HashLine.text).map ScanTarget.zero.sscanf

end MasterFile

/-- What a call of `get_data_chunk` comes to: `NULL`, a record with its id and its data, or a read
through a `NULL` file. -/
inductive Lookup where
  | null
  | chunk (id : Int) (data : ChunkData)
  | crash

/-- `get_data_chunk`, with all that can come of it. -/
def lookupChunk (fopen : List UInt8 → Option (List UInt8)) (uncleared : Uncleared)
    (chunkfile : Option (List UInt8)) (hash : List UInt8) : Lookup :=
  match chunkfile with
  | none => .null
  | some file =>
      let rest := ((Stdio.fgets trackerLineLen file).getD ([], [])).2
      let rest := ((Stdio.fgets trackerLineLen rest).getD ([], [])).2
      let target :=
        findLine (binary2hex hash sha1HashSize) .zero (Stdio.lines trackerLineLen rest)
      match fopen (dataFileName uncleared.fileName file) with
      | none => .crash
      | some data => .chunk target.id (readChunk uncleared.data data target.id)

/-- The data of the chunk, where there is one. -/
def Lookup.data : Lookup → Option ChunkData
  | null => none
  | chunk _ data => some data
  | crash => none

/-- The data is that of `getDataChunk`. -/
theorem data_lookupChunk (fopen : List UInt8 → Option (List UInt8)) (uncleared : Uncleared)
    (chunkfile : Option (List UInt8)) (hash : List UInt8) :
    (lookupChunk fopen uncleared chunkfile hash).data =
      getDataChunk fopen uncleared chunkfile hash := by
  cases chunkfile with
  | none => rfl
  | some file =>
      rw [getDataChunk, Option.bind_some, lookupChunk]
      simp only
      cases fopen (dataFileName uncleared.fileName file) with
      | none => rfl
      | some data => rfl

/-- The answer to a hash is right: for the first line with its hex text the record has the id
and the bytes of the data file that belong to it, and without such a line there is no chunk
and no upload is opened for a peer that has none. -/
def LooksUpRight (F : Type) [NatCast F] (fopen : List UInt8 → Option (List UInt8))
    (uncleared : Uncleared) (m : MasterFile) (hash : List UInt8) : Prop :=
  match m.lines.find? fun l ↦ l.hash == hash.flatMap byteHex with
  | some l => ∃ data file, lookupChunk fopen uncleared (some m.text) hash = .chunk l.id data ∧
      fopen m.name = some file ∧
      data.bytes = (file.drop (l.id * btChunkSize)).take btChunkSize
  | none => lookupChunk fopen uncleared (some m.text) hash = .null ∧
      ∀ (srv : Server F) p, srv.getSender (some p) = none →
        ¬ StartsUpload (getDataChunk fopen uncleared (some m.text)) srv hash p

variable {m : MasterFile} {l : HashLine} {hash old : List UInt8}

/-! ## Reading the file -/

theorem HashLine.isxdigit (l : HashLine) : ∀ d ∈ l.hash, isxdigit d = true := by
  have hdigit : ∀ n < 16, BitTorrent.isxdigit (hexDigit n) = true := by decide
  intro d hd
  obtain ⟨n, hn, rfl⟩ := l.lower d hd
  exact hdigit n hn

theorem namesChunk_text (l : HashLine) : NamesChunk l.text l.id l.hash :=
  ⟨Stdio.decimal l.id, [10], rfl, ⟨Stdio.decimal_ne_nil _, fun _ ↦ Stdio.isDigit_of_mem_decimal,
    Stdio.digitsValue_decimal _⟩, ⟨l.length_hash, l.isxdigit⟩, .inl rfl⟩

/-- The lines of the chunks are read one by one. -/
theorem lines_hashLines (ls : List HashLine) :
    Stdio.lines trackerLineLen (ls.flatMap HashLine.text) = ls.map HashLine.text := by
  have hsplit : ∀ l : HashLine, l.text = (Stdio.decimal l.id ++ 32 :: l.hash) ++ [10] := fun l ↦ by
    rw [HashLine.text, List.append_assoc, List.cons_append]
  have htext : Stdio.textLines (ls.flatMap HashLine.text) = ls.map HashLine.text := by
    rw [funext hsplit]
    exact Stdio.textLines_flatMap fun l _ ↦ notMem_line l.id l.isxdigit
  rw [← htext]
  apply Stdio.lines_eq_textLines (by decide)
  rw [htext]
  intro line hline
  obtain ⟨l, -, rfl⟩ := List.mem_map.mp hline
  exact length_line_lt l.id_lt l.length_hash

/-- The name in a line `File: <name>`. -/
theorem scanFileName_line {word ending : List UInt8} (hne : word ≠ [])
    (hword : ∀ c ∈ word, c ≠ 0 ∧ Stdio.isSpace c = false) (hending : ending = [10] ∨ ending = []) :
    scanFileName old ([70, 105, 108, 101, 58, 32] ++ word ++ ending) = word := by
  have htag : [70, 105, 108, 101, 58, 32].all (fun c ↦ decide (c ≠ (0 : UInt8))) = true := rfl
  have hplain : ∀ c ∈ [70, 105, 108, 101, 58, 32] ++ word ++ ending, decide (c ≠ 0) = true := by
    intro c hc
    rcases List.mem_append.mp hc with hc | hc
    · rcases List.mem_append.mp hc with hc | hc
      · exact List.all_eq_true.mp htag c hc
      · exact decide_eq_true (hword c hc).1
    · rcases hending with rfl | rfl
      · rw [List.mem_singleton.mp hc]
        rfl
      · exact absurd hc List.not_mem_nil
  have hscan : Stdio.scanWord (32 :: (word ++ ending)) = some word := by
    rw [Stdio.scanWord_cons rfl]
    apply Stdio.scanWord_append hne fun c hc ↦ (hword c hc).2
    rcases hending with rfl | rfl
    · rintro d ⟨⟩
      rfl
    · rintro d ⟨⟩
  rw [scanFileName, Stdio.cString, List.takeWhile_eq_self_iff.mpr hplain]
  show (Stdio.scanWord (32 :: (word ++ ending))).getD old = word
  rw [hscan, Option.getD_some]

/-- There is no newline in front of the first one. -/
theorem notMem_name (m : MasterFile) : 10 ∉ [70, 105, 108, 101, 58, 32] ++ m.name := by
  intro h
  rcases List.mem_append.mp h with h | h
  · revert h
    decide
  · exact absurd (m.name_plain 10 h).2 (by decide)

/-- The file, cut behind its first and its second line. -/
theorem text_eq (m : MasterFile) :
    m.text = [70, 105, 108, 101, 58, 32] ++ m.name ++ 10 ::
      ([67, 104, 117, 110, 107, 115, 58] ++ 10 :: m.lines.flatMap HashLine.text) := by
  rw [MasterFile.text, MasterFile.header]
  simp only [List.append_assoc, List.cons_append, List.nil_append]

/-- The name that is opened is the one of the first line, as far as there was room for it. -/
theorem dataFileName_text (old : List UInt8) (m : MasterFile) :
    dataFileName old m.text = m.openedName := by
  have hne : m.openedName ≠ [] := by
    rw [MasterFile.openedName, ne_eq, List.take_eq_nil_iff]
    exact fun h ↦ h.elim (by decide) m.name_ne
  have hplain : ∀ c ∈ m.openedName, c ≠ 0 ∧ Stdio.isSpace c = false := fun c hc ↦
    m.name_plain c (List.mem_of_mem_take hc)
  rw [dataFileName, text_eq, Stdio.fgets_append_newline (notMem_name m), Option.getD_some]
  by_cases hfits : ([70, 105, 108, 101, 58, 32] ++ m.name).length < trackerLineLen - 1
  · have hname : m.openedName = m.name := by
      apply List.take_of_length_le
      rw [List.length_append] at hfits
      exact Nat.le_of_lt (Nat.lt_sub_iff_add_lt'.mpr hfits)
    rw [if_pos hfits, ← hname]
    exact scanFileName_line hne hplain (.inl rfl)
  · have htake : ([70, 105, 108, 101, 58, 32] ++ m.name).take (trackerLineLen - 1) =
        [70, 105, 108, 101, 58, 32] ++ m.openedName ++ [] := by
      rw [List.append_nil]
      rfl
    rw [if_neg hfits, htake]
    exact scanFileName_line hne hplain (.inr rfl)

/-- Two calls of `fgets` further, what is left are the lines of the chunks, behind what the two
calls have left of the lines in front of them. -/
theorem lines_text (m : MasterFile) :
    Stdio.lines trackerLineLen
      ((Stdio.fgets trackerLineLen ((Stdio.fgets trackerLineLen m.text).getD ([], [])).2).getD
        ([], [])).2 = Stdio.lines trackerLineLen m.unread ++ m.lines.map HashLine.text := by
  have htag : 10 ∉ [67, 104, 117, 110, 107, 115, (58 : UInt8)] := by decide
  rw [text_eq, MasterFile.unread, MasterFile.header, Stdio.fgets_append_newline (notMem_name m),
    Stdio.fgets_append_newline (notMem_name m), Option.getD_some, Option.getD_some]
  by_cases hfits : ([70, 105, 108, 101, 58, 32] ++ m.name).length < trackerLineLen - 1
  · rw [if_pos hfits, if_pos hfits, Stdio.fgets_append_newline htag, Stdio.fgets_append_newline htag,
      Option.getD_some, Option.getD_some, if_pos (by decide), if_pos (by decide), lines_hashLines]
    rfl
  · have hrest : 10 ∉ ([70, 105, 108, 101, 58, 32] ++ m.name).drop (trackerLineLen - 1) := fun h ↦
      notMem_name m (List.mem_of_mem_drop h)
    rw [if_neg hfits, if_neg hfits, Stdio.fgets_append_newline hrest, Stdio.fgets_append_newline hrest,
      Option.getD_some, Option.getD_some]
    split
    · rw [Stdio.lines_append (by decide) htag, lines_hashLines]
    · have hrest' := fun h ↦ hrest (List.mem_of_mem_drop (i := trackerLineLen - 1) h)
      simp only
      rw [Stdio.lines_append (by decide) hrest' (_ ++ 10 :: _), Stdio.lines_append (by decide) htag,
        lines_hashLines, Stdio.lines_append (by decide) hrest' (_ ++ [10]), List.append_assoc]

/-! ## Finding the line -/

/-- The text of a hash, in as many characters as are compared, and the record agree. -/
def Agrees (text : List UInt8) (target : ScanTarget) : Bool :=
  text.take sha1HashSize == target.sha1.take sha1HashSize

section Agrees

variable {text : List UInt8} {old target : ScanTarget} {lines : List (List UInt8)}

/-- Whether a word agrees does not depend on the array it is written into. -/
theorem agrees_store (h0 : 0 ∉ text.take sha1HashSize) (id id' : Int)
    (sha1 sha1' word : List UInt8) :
    Agrees text { id := id, sha1 := Stdio.store sha1 word } =
      Agrees text { id := id', sha1 := Stdio.store sha1' word } := by
  rcases Nat.lt_or_ge word.length sha1HashSize with hlt | hge
  · -- the terminator is among the characters compared
    have hne : ∀ sha1 : List UInt8,
        text.take sha1HashSize ≠ (Stdio.store sha1 word).take sha1HashSize := by
      intro sha1 heq
      apply h0
      rw [heq, Stdio.store, List.take_append, ← Nat.succ_pred (Nat.sub_ne_zero_of_lt hlt)]
      exact List.mem_append_right _ (List.mem_cons_self ..)
    rw [Agrees, Agrees, beq_eq_false_iff_ne.mpr (hne sha1), beq_eq_false_iff_ne.mpr (hne sha1')]
  · rw [Agrees, Agrees, Stdio.store, Stdio.store, List.take_append_of_le_length hge,
      List.take_append_of_le_length hge]

/-- A line that is read into a record that does not agree makes it agree exactly if it does so
with a cleared one, and then with the same id. -/
theorem agrees_sscanf (h0 : 0 ∉ text.take sha1HashSize)
    (hzero : Agrees text .zero = false) (hold : Agrees text old = false) (line : List UInt8) :
    Agrees text (old.sscanf line) = Agrees text (ScanTarget.zero.sscanf line) ∧
      (Agrees text (old.sscanf line) = true →
        (old.sscanf line).id = (ScanTarget.zero.sscanf line).id) := by
  rw [ScanTarget.sscanf, ScanTarget.sscanf]
  cases Stdio.scanInt (Stdio.cString line) with
  | none => exact ⟨hold.trans hzero.symm, fun h ↦ absurd (hold.symm.trans h) Bool.noConfusion⟩
  | some out =>
      obtain ⟨id, s⟩ := out
      simp only
      cases Stdio.scanWord s with
      | none => exact ⟨hold.trans hzero.symm, fun _ ↦ rfl⟩
      | some word => exact ⟨agrees_store h0 .., fun _ ↦ rfl⟩

/-- The search stops at the first line that agrees, read by itself. -/
theorem id_findLine (h0 : 0 ∉ text.take sha1HashSize)
    (hzero : Agrees text .zero = false)
    (h : (lines.map ScanTarget.zero.sscanf).find? (Agrees text) = some target)
    (hold : Agrees text old = false) : (findLine text old lines).id = target.id := by
  induction lines generalizing old with
  | nil => cases h
  | cons line lines ih =>
      obtain ⟨hsame, hid⟩ := agrees_sscanf h0 hzero hold line
      rw [List.map_cons, List.find?_cons, ← hsame] at h
      rw [findLine]
      show (if Agrees text (old.sscanf line) = true then _ else _ : ScanTarget).id = _
      cases hagree : Agrees text (old.sscanf line) with
      | true =>
          rw [hagree] at h
          cases h
          rw [if_pos rfl]
          exact hid hagree
      | false =>
          rw [hagree] at h
          rw [if_neg Bool.false_ne_true]
          exact ih h hagree

end Agrees

/-- The line of a chunk agrees with the text of its hash. -/
theorem agrees_text (l : HashLine) : Agrees l.hash (ScanTarget.zero.sscanf l.text) = true := by
  have hle : sha1HashSize ≤ l.hash.length := by
    rw [l.length_hash]
    decide
  rw [Agrees, sscanf_of_namesChunk (namesChunk_text l), Stdio.store,
    List.take_append_of_le_length hle]
  exact beq_self_eq_true _

/-- The text a hash is printed as, in as many characters as are compared. -/
theorem take_binary2hex_hash (h : hash.length = sha1HashSize) :
    (binary2hex hash sha1HashSize).take sha1HashSize =
      (hash.flatMap byteHex).take sha1HashSize := by
  rw [← h, binary2hex_length, List.take_append_of_le_length]
  rw [length_flatMap_byteHex]
  omega

/-- A terminator is not among the characters compared. -/
theorem notMem_take_hexText (hash : List UInt8) :
    0 ∉ (hash.flatMap byteHex).take sha1HashSize := fun h ↦
  (ne_of_isxdigit (isxdigit_of_mem_hexText (List.mem_of_mem_take h))).1 rfl

/-- Where the search for a hash ends, if some line agrees with it. -/
theorem id_findLine_binary2hex (h : hash.length = sha1HashSize) {first : ScanTarget}
    (hfirst : m.records.find? (Agrees (hash.flatMap byteHex)) = some first) :
    (findLine (binary2hex hash sha1HashSize) .zero
      (Stdio.lines trackerLineLen m.unread ++ m.lines.map HashLine.text)).id = first.id := by
  have hagrees : Agrees (hash.flatMap byteHex) = Agrees (binary2hex hash sha1HashSize) := by
    funext target
    rw [Agrees, Agrees, take_binary2hex_hash h]
  have h0 : 0 ∉ (binary2hex hash sha1HashSize).take sha1HashSize := by
    rw [take_binary2hex_hash h]
    exact notMem_take_hexText hash
  have hzero : Agrees (binary2hex hash sha1HashSize) .zero = false := by
    apply beq_eq_false_iff_ne.mpr
    intro heq
    apply h0
    rw [heq]
    show 0 ∈ List.replicate sha1HashSize 0
    exact List.mem_replicate.mpr ⟨by decide, rfl⟩
  rw [hagrees] at hfirst
  exact id_findLine h0 hzero hfirst hzero

variable {fopen : List UInt8 → Option (List UInt8)} {uncleared : Uncleared}

/-- There is a record, with the id of the line the search ended with, if the file is there. -/
theorem lookupChunk_text (hash : List UInt8) (fopen : List UInt8 → Option (List UInt8))
    (uncleared : Uncleared) (m : MasterFile) :
    lookupChunk fopen uncleared (some m.text) hash =
      match fopen m.openedName with
      | none => .crash
      | some data =>
          let id := (findLine (binary2hex hash sha1HashSize) .zero
            (Stdio.lines trackerLineLen m.unread ++ m.lines.map HashLine.text)).id
          .chunk id (readChunk uncleared.data data id) := by
  rw [lookupChunk]
  simp only [lines_text, dataFileName_text]

/-- What is read for a chunk is a part of a file exactly if each of its bytes is. -/
theorem bytes_readChunk_eq_iff {old : ChunkData} {file file' : List UInt8} {id : Int} {n : Nat} :
    (readChunk old file id).bytes = (file'.drop n).take btChunkSize ↔
      ∀ j < btChunkSize, chunkByte old file id j = file'[n + j]? := by
  have hpart : ∀ j < btChunkSize, ((file'.drop n).take btChunkSize)[j]? = file'[n + j]? := by
    intro j hj
    rw [List.getElem?_take_of_lt hj, List.getElem?_drop]
  constructor
  · intro h j hj
    rw [← getElem?_readChunk hj, h, hpart j hj]
  · intro h
    apply List.ext_getElem?
    intro j
    rcases Nat.lt_or_ge j btChunkSize with hj | hj
    · rw [getElem?_readChunk hj, hpart j hj, h j hj]
    · have hlen := (readChunk old file id).size_eq.trans_le hj
      rw [List.getElem?_eq_none hlen, List.getElem?_eq_none (Nat.le_trans (List.length_take_le ..) hj)]

/-! ## When the answer is right -/

/-- Some line has the hash, the first one read that agrees with it in twenty digits has the id
of the first one that agrees in all forty, and from the offset used the file that is opened has
the bytes that belong to that id. -/
def LeadsToChunk (fopen : List UInt8 → Option (List UInt8)) (uncleared : Uncleared) (m : MasterFile)
    (hash : List UInt8) : Prop :=
  ∃ l first file opened, m.lines.find? (fun l ↦ l.hash == hash.flatMap byteHex) = some l ∧
    m.records.find? (Agrees (hash.flatMap byteHex)) = some first ∧ first.id = l.id ∧
    fopen m.name = some file ∧ fopen m.openedName = some opened ∧
    ∀ j < btChunkSize, chunkByte uncleared.data opened l.id j = file[l.id * btChunkSize + j]?

/-- A line that agrees in all digits agrees in twenty of them. -/
theorem exists_find_records {text : List UInt8}
    (h : m.lines.find? (fun l ↦ l.hash == text) = some l) :
    ∃ first, m.records.find? (Agrees text) = some first := by
  apply Option.isSome_iff_exists.mp
  rw [List.find?_isSome]
  have hbeq : (l.hash == text) = true :=
    List.find?_some (p := fun l : HashLine ↦ l.hash == text) h
  refine ⟨ScanTarget.zero.sscanf l.text, ?_, eq_of_beq hbeq ▸ agrees_text l⟩
  apply List.mem_map_of_mem
  exact List.mem_append_right _ (List.mem_map_of_mem (List.mem_of_find?_eq_some h))

/-- The answer is right exactly then. -/
theorem looksUpRight_iff {F : Type} [NatCast F] (h : hash.length = sha1HashSize)
    (fopen : List UInt8 → Option (List UInt8)) (uncleared : Uncleared) (m : MasterFile) :
    LooksUpRight F fopen uncleared m hash ↔ LeadsToChunk fopen uncleared m hash := by
  rw [LooksUpRight, LeadsToChunk, lookupChunk_text]
  cases hfind : m.lines.find? fun l ↦ l.hash == hash.flatMap byteHex with
  | none =>
      constructor
      · rintro ⟨hnull, -⟩
        cases hopen : fopen m.openedName with
        | none =>
            rw [hopen] at hnull
            cases hnull
        | some data =>
            rw [hopen] at hnull
            cases hnull
      · rintro ⟨l, -, -, -, hl, -⟩
        cases hl
  | some l =>
      obtain ⟨first, hfirst⟩ := exists_find_records hfind
      rw [id_findLine_binary2hex h hfirst]
      constructor
      · rintro ⟨data, file, hchunk, hfile, hdata⟩
        cases hopen : fopen m.openedName with
        | none =>
            rw [hopen] at hchunk
            cases hchunk
        | some opened =>
            rw [hopen] at hchunk
            obtain ⟨hsame, rfl⟩ := Lookup.chunk.inj hchunk
            rw [hsame] at hdata
            exact ⟨l, first, file, opened, rfl, hfirst, hsame, hfile, rfl,
              bytes_readChunk_eq_iff.mp hdata⟩
      · rintro ⟨l', first', file, opened, hl, hfirst', hsame, hfile, hopen, hbytes⟩
        cases hl
        rw [hfirst, Option.some.injEq] at hfirst'
        subst hfirst'
        rw [hopen, hsame]
        exact ⟨_, file, rfl, hfile, bytes_readChunk_eq_iff.mpr hbytes⟩

/-- A master chunk file with one line, that of the hash of twenty zero bytes. -/
def zeroMaster : MasterFile where
  name := [102]
  lines := [{
    id := 0
    hash := List.replicate 40 48
    id_lt := by decide
    length_hash := rfl
    lower := fun d hd ↦ ⟨0, by decide, List.eq_of_mem_replicate hd⟩ }]
  name_ne := List.cons_ne_nil _ _
  name_plain := List.forall_mem_singleton.mpr (by decide)

/-- The hash of its line. -/
theorem looksUpRight_iff_zero :
    LooksUpRight ℚ oneByteFile .zero zeroMaster (List.replicate 20 0) ↔
      LeadsToChunk oneByteFile .zero zeroMaster (List.replicate 20 0) :=
  looksUpRight_iff rfl oneByteFile .zero zeroMaster

/-- For a hash it does not list, the chunk of its line is returned. -/
theorem not_looksUpRight : ¬ ∀ (fopen : List UInt8 → Option (List UInt8)) (uncleared : Uncleared)
    (m : MasterFile) (hash : List UInt8), hash.length = sha1HashSize →
      (fopen m.name).isSome = true → LooksUpRight ℚ fopen uncleared m hash := by
  intro h
  have hlen : (List.replicate 20 (1 : UInt8)).length = sha1HashSize := rfl
  have hright := h oneByteFile .zero zeroMaster (List.replicate 20 1) hlen rfl
  obtain ⟨l, -, -, -, hl, -⟩ := (looksUpRight_iff hlen oneByteFile .zero zeroMaster).mp hright
  have hnone : (zeroMaster.lines.find? fun l ↦ l.hash == (List.replicate 20 1).flatMap byteHex) = none := by
    decide
  rw [hnone] at hl
  cases hl

end BitTorrent
