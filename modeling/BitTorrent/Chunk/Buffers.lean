import BitTorrent.Chunk.Hex
import BitTorrent.Tracker

/-!
# Hex texts in their buffers

`binary2hex` and `hex2binary` write as much as their argument `len` says, into whatever they are
given: `2 * len + 1` characters the one, half of `len` bytes the other.  Here each is run on a
buffer of a size, in which every write is checked, and on the buffers of its five callers.
-/

namespace BitTorrent

variable {buf : List UInt8} {i len : Nat}

/-! ## Checked writes -/

/-- The loop of `binary2hex` from byte `i` on.  Each `sprintf` writes two digits and a
terminator, over which the next one writes. -/
def binary2hexLoop (hex : List UInt8) (i : Nat) : List UInt8 → Option (List UInt8)
  | [] => Bytes.copyInto hex (i * 2) [0]
  | b :: buf =>
      (Bytes.copyInto hex (i * 2) (byteHex b ++ [0])).bind fun hex ↦ binary2hexLoop hex (i + 1) buf

/-- `binary2hex` into the array `hex`; no value if it writes outside. -/
def binary2hexInto (buf : List UInt8) (len : Nat) (hex : List UInt8) : Option (List UInt8) :=
  binary2hexLoop hex 0 (buf.take len)

/-- The loop of `hex2binary`, with `len` characters to go and byte `i` the next to write. -/
def hex2binaryLoop (buf : List UInt8) (i : Nat) : List UInt8 → Nat → Option (List UInt8)
  | _, 0 => some buf
  | hex, 1 =>
      Bytes.copyInto buf i [hex2binaryDigit (hex.getD 0 0) <<< 4 ||| hex2binaryDigit (hex.getD 1 0)]
  | hex, len + 2 =>
      (Bytes.copyInto buf i
        [hex2binaryDigit (hex.getD 0 0) <<< 4 ||| hex2binaryDigit (hex.getD 1 0)]).bind fun buf ↦
          hex2binaryLoop buf (i + 1) (hex.drop 2) len

/-- `hex2binary` into the array `buf`; no value if it writes outside. -/
def hex2binaryInto (hex : List UInt8) (len : Nat) (buf : List UInt8) : Option (List UInt8) :=
  hex2binaryLoop buf 0 hex len

/-- With `i` bytes done, their digits stand in front of the rest of the array. -/
theorem binary2hexLoop_append (pre hex buf : List UInt8) (hpre : pre.length = i * 2) :
    binary2hexLoop (pre ++ hex) i buf =
      if 2 * buf.length + 1 ≤ hex.length then
        some (pre ++ (buf.flatMap byteHex ++ 0 :: hex.drop (2 * buf.length + 1)))
      else none := by
  induction buf generalizing pre hex i with
  | nil =>
      rw [binary2hexLoop, ← hpre, Bytes.copyInto_append]
      rfl
  | cons b buf ih =>
      have hwritten : (byteHex b ++ [0]).length = 3 := rfl
      rw [binary2hexLoop, ← hpre, Bytes.copyInto_append, List.length_cons, hwritten]
      by_cases hdigits : 3 ≤ hex.length
      · have hpre' : (pre ++ byteHex b).length = (i + 1) * 2 := by
          rw [List.length_append, hpre, length_byteHex, Nat.succ_mul]
        have hrest := ih (pre ++ byteHex b) (0 :: hex.drop 3) hpre'
        rw [if_pos hdigits, Option.bind_some]
        simp only [List.append_assoc, List.cons_append, List.nil_append, List.length_cons,
          List.length_drop, List.drop_succ_cons, List.drop_drop, List.flatMap_cons] at hrest ⊢
        refine hrest.trans (if_congr (by omega) ?_ rfl)
        rw [show 3 + 2 * buf.length = 2 * (buf.length + 1) + 1 by omega]
      · rw [if_neg hdigits, if_neg (by omega)]
        rfl

/-- `binary2hex` stays inside an array of at least `2 * len + 1` characters. -/
theorem binary2hexInto_eq (h : len ≤ buf.length) (hex : List UInt8) :
    binary2hexInto buf len hex =
      if 2 * len + 1 ≤ hex.length then some (binary2hex buf len ++ hex.drop (2 * len + 1))
      else none := by
  have hloop := binary2hexLoop_append [] hex (buf.take len) (Nat.zero_mul 2).symm
  rw [List.length_take_of_le h, List.nil_append, List.nil_append] at hloop
  rw [binary2hexInto, hloop, binary2hex, List.append_assoc]
  rfl

theorem isSome_binary2hexInto (h : len ≤ buf.length) (hex : List UInt8) :
    (binary2hexInto buf len hex).isSome = true ↔ 2 * len + 1 ≤ hex.length := by
  rw [binary2hexInto_eq h]
  split
  · next hle => exact iff_of_true rfl hle
  · next hle => exact iff_of_false Bool.noConfusion hle

/-- With `i` bytes done, they stand in front of the rest of the array. -/
theorem hex2binaryLoop_append (pre buf hex : List UInt8) (len : Nat) (hpre : pre.length = i) :
    hex2binaryLoop (pre ++ buf) i hex len =
      if (len + 1) / 2 ≤ buf.length then
        some (pre ++ (hex2binary hex len ++ buf.drop ((len + 1) / 2)))
      else none := by
  induction len using Nat.twoStepInduction generalizing pre buf hex i with
  | zero => rfl
  | one =>
      rw [hex2binaryLoop, ← hpre, Bytes.copyInto_append]
      rfl
  | more len ih _ =>
      rw [hex2binaryLoop, ← hpre, Bytes.copyInto_append]
      cases buf with
      | nil =>
          rw [if_neg (by simp), if_neg (by simp only [List.length_nil]; omega)]
          rfl
      | cons b buf =>
          rw [if_pos (by simp), Option.bind_some, hex2binary]
          have hrest := ih (pre ++ [hex2binaryDigit (hex.getD 0 0) <<< 4 |||
            hex2binaryDigit (hex.getD 1 0)]) buf (hex.drop 2) List.length_append
          rw [List.append_assoc] at hrest
          refine hrest.trans (if_congr ?_ ?_ rfl)
          · rw [List.length_cons]
            omega
          · rw [show (len + 2 + 1) / 2 = (len + 1) / 2 + 1 by omega, List.drop_succ_cons,
              List.append_assoc]
            rfl

/-- `hex2binary` stays inside an array of at least half of `len` bytes. -/
theorem hex2binaryInto_eq (hex : List UInt8) (len : Nat) (buf : List UInt8) :
    hex2binaryInto hex len buf =
      if (len + 1) / 2 ≤ buf.length then some (hex2binary hex len ++ buf.drop ((len + 1) / 2))
      else none :=
  hex2binaryLoop_append [] buf hex len rfl

theorem isSome_hex2binaryInto (hex : List UInt8) (len : Nat) (buf : List UInt8) :
    (hex2binaryInto hex len buf).isSome = true ↔ (len + 1) / 2 ≤ buf.length := by
  rw [hex2binaryInto_eq]
  split
  · next hle => exact iff_of_true rfl hle
  · next hle => exact iff_of_false Bool.noConfusion hle

/-! ## The callers -/

/-- The functions that call one of the two conversions. -/
inductive HexCaller where
  | chunks2pkts | pkt2chunks | getDataChunk | checkChunk | lookAt
deriving DecidableEq, Repr

namespace HexCaller

/-- The size of the array the caller has written: `bin_sha1`, `chunk->sha1`, `sha1`,
`target_hex` and `bin_sha1`. -/
def bufSize : HexCaller → Nat
  | chunks2pkts => sha1HashSize
  | pkt2chunks => trackerLineLen
  | getDataChunk => trackerLineLen
  | checkChunk => sha1HashSize
  | lookAt => sha1HashSize

/-- Its call, for a chunk or for a hash of a packet. -/
def call (shahash : List UInt8 → List UInt8) (chunk : ChunkT) (hash buf : List UInt8) :
    HexCaller → Option (List UInt8)
  | chunks2pkts => hex2binaryInto chunk.sha1 (2 * sha1HashSize) buf
  | pkt2chunks => binary2hexInto hash sha1HashSize buf
  | getDataChunk => binary2hexInto hash sha1HashSize buf
  | checkChunk => binary2hexInto (shahash chunk.data.bytes) sha1HashSize buf
  -- the size of the text, where the others give that of a hash
  | lookAt => hex2binaryInto chunk.sha1 trackerLineLen buf

end HexCaller

/-- `check_chunk`, with an array `target_hex` of any size. -/
def checkChunkIn (shahash : List UInt8 → List UInt8) (targetHex : List UInt8) (data : ChunkData)
    (sha1 : List UInt8) : Option Bool :=
  (binary2hexInto (shahash data.bytes) sha1HashSize targetHex).map fun targetHex ↦
    targetHex.take (2 * sha1HashSize) == sha1.take (2 * sha1HashSize)

section Callers

variable {shahash : List UInt8 → List UInt8} {chunk : ChunkT} {data : ChunkData} {pkt : Packet}
  {hash sha1 targetHex : List UInt8} {off : Nat}

/-- A hash of a packet is written into the record as `pkt2chunks` is modelled to. -/
theorem pkt2chunks_call (h : hash.length = sha1HashSize) :
    HexCaller.call shahash chunk hash (List.replicate trackerLineLen 0) .pkt2chunks =
      some (chunkOfHash hash).sha1 := by
  have hlen : (binary2hex hash sha1HashSize).length = 2 * sha1HashSize + 1 := by
    rw [binary2hex, List.length_append, length_flatMap_byteHex, List.length_take, h]
    rfl
  rw [HexCaller.call, binary2hexInto_eq (Nat.le_of_eq h.symm), List.length_replicate,
    if_pos (by decide), List.drop_replicate, chunkOfHash, sha1_initChunk, sha1Array, hlen]

/-- With room for the text, `check_chunk` compares it as it is modelled to. -/
theorem checkChunkIn_eq (hsha : (shahash data.bytes).length = sha1HashSize)
    (hroom : 2 * sha1HashSize + 1 ≤ targetHex.length) :
    checkChunkIn shahash targetHex data sha1 = some (checkChunk shahash data sha1) := by
  have hle : sha1HashSize ≤ (shahash data.bytes).length := Nat.le_of_eq hsha.symm
  rw [checkChunkIn, binary2hexInto_eq hle, if_pos hroom, Option.map_some, take_binary2hex hle,
    checkChunk, ← List.append_nil (binary2hex _ _), take_binary2hex hle]

/-- `check_chunk` is true exactly if the text of the data's hash is the one given. -/
theorem checkChunk_iff (hsha : (shahash data.bytes).length = sha1HashSize) :
    checkChunk shahash data sha1 = true ↔
      (shahash data.bytes).flatMap byteHex = sha1.take (2 * sha1HashSize) := by
  have hle : sha1HashSize ≤ (shahash data.bytes).length := Nat.le_of_eq hsha.symm
  rw [checkChunk, ← List.append_nil (binary2hex _ _), take_binary2hex hle,
    List.take_of_length_le (Nat.le_of_eq hsha), beq_iff_eq]

/-- For every chunk and every packet the calls of `chunks2pkts`, `pkt2chunks` and
`get_data_chunk` stay inside their arrays, and those of `check_chunk` and `look_at` never do.
With an array that has room for the text, `check_chunk` returns 1 exactly if the lower-case
text of the data's hash is the text given. -/
theorem hex_calls_in_bounds_iff (hsha : ∀ data, (shahash data).length = sha1HashSize)
    (hslice : Bytes.slice pkt.data off sha1HashSize = some hash) (chunk : ChunkT)
    (caller : HexCaller) (hbuf : buf.length = caller.bufSize) :
    ((caller.call shahash chunk hash buf).isSome = true ↔
      caller ≠ .checkChunk ∧ caller ≠ .lookAt) ∧
    ∀ targetHex sha1, 2 * sha1HashSize + 1 ≤ targetHex.length →
      (checkChunkIn shahash targetHex chunk.data sha1 = some true ↔
        (shahash chunk.data.bytes).flatMap byteHex = sha1.take (2 * sha1HashSize)) := by
  have hhash : sha1HashSize ≤ hash.length := Nat.le_of_eq (Bytes.length_of_slice hslice).symm
  have htarget : sha1HashSize ≤ (shahash chunk.data.bytes).length := Nat.le_of_eq (hsha _).symm
  constructor
  · cases caller with
    | chunks2pkts =>
        rw [HexCaller.call, isSome_hex2binaryInto, hbuf]
        decide
    | pkt2chunks =>
        rw [HexCaller.call, isSome_binary2hexInto hhash, hbuf]
        decide
    | getDataChunk =>
        rw [HexCaller.call, isSome_binary2hexInto hhash, hbuf]
        decide
    | checkChunk =>
        rw [HexCaller.call, isSome_binary2hexInto htarget, hbuf]
        decide
    | lookAt =>
        rw [HexCaller.call, isSome_hex2binaryInto, hbuf]
        decide
  · intro targetHex sha1 hroom
    rw [checkChunkIn_eq (hsha _) hroom, Option.some.injEq, checkChunk_iff (hsha _)]

/-- The twenty bytes of a hash, zero. -/
def zeroHash (_ : List UInt8) : List UInt8 := List.replicate sha1HashSize 0

/-- The call of `chunks2pkts`, and the check of a chunk with a text of forty-one bytes. -/
theorem hex_calls_in_bounds_iff_zero :
    ((HexCaller.chunks2pkts.call zeroHash (initChunk 0 []) (List.replicate 20 0)
        (List.replicate 20 0)).isSome = true ↔
      HexCaller.chunks2pkts ≠ .checkChunk ∧ HexCaller.chunks2pkts ≠ .lookAt) ∧
    (checkChunkIn zeroHash (List.replicate 41 0) (initChunk 0 []).data (List.replicate 40 48) =
        some true ↔
      (zeroHash (initChunk 0 []).data.bytes).flatMap byteHex =
        (List.replicate 40 48).take (2 * sha1HashSize)) := by
  have hslice : Bytes.slice (makeGET (List.replicate 20 0)).data 0 sha1HashSize =
      some (List.replicate 20 0) := rfl
  have hsha : ∀ data, (zeroHash data).length = sha1HashSize := fun _ ↦ List.length_replicate
  have hbuf : (List.replicate 20 (0 : UInt8)).length = HexCaller.chunks2pkts.bufSize := rfl
  obtain ⟨hcall, hcheck⟩ :=
    hex_calls_in_bounds_iff hsha hslice (initChunk 0 []) .chunks2pkts hbuf
  exact ⟨hcall, hcheck _ _ (by decide)⟩

/-- `check_chunk` writes forty-one characters into an array of twenty. -/
theorem not_hex_calls_in_bounds : ¬ ∀ (caller : HexCaller) (shahash : List UInt8 → List UInt8)
    (chunk : ChunkT) (hash buf : List UInt8), (∀ data, (shahash data).length = sha1HashSize) →
      hash.length = sha1HashSize → buf.length = caller.bufSize →
      (caller.call shahash chunk hash buf).isSome = true := by
  intro h
  have hsome := h .checkChunk zeroHash (initChunk 0 []) (List.replicate 20 0) (List.replicate 20 0)
    (fun _ ↦ List.length_replicate) rfl rfl
  have htarget : sha1HashSize ≤ (zeroHash (initChunk 0 []).data.bytes).length :=
    Nat.le_of_eq List.length_replicate.symm
  rw [HexCaller.call, isSome_binary2hexInto htarget] at hsome
  exact absurd hsome (by decide)

end Callers

end BitTorrent
