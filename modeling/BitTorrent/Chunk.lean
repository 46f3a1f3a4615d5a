import Mathlib.Data.List.Basic
import BitTorrent.Packet

/-!
# Chunks and their hashes

The two text conversions of `chunk.c` and the data of one chunk.  Texts are byte
lists, as a C `char` array holds them.

SHA-1 itself is never computed here: every definition that hashes takes the
hash function as a parameter, the only fact used about it being that it is a
function.
-/

namespace BitTorrent

/-- `BT_CHUNK_SIZE` -/
def btChunkSize : Nat := 512 * 1024

theorem btChunkSize_eq : btChunkSize = 524288 := rfl

/-- The bytes of one chunk: the array `data[BT_CHUNK_SIZE]` of `chunk_t`. -/
structure ChunkData where
  bytes : List UInt8
  size_eq : bytes.length = btChunkSize

namespace ChunkData

/-- A chunk all of whose bytes are `b`. -/
def fill (b : UInt8) : ChunkData := ⟨List.replicate btChunkSize b, List.length_replicate⟩

@[ext] theorem ext {c d : ChunkData} (h : c.bytes = d.bytes) : c = d := by
  cases c
  cases d
  cases h
  rfl

end ChunkData

/-- One lower-case digit of `sprintf("%.2x")`. -/
def hexDigit (n : Nat) : UInt8 := UInt8.ofNat (if n < 10 then 48 + n else 87 + n)

/-- The two digits of a byte. -/
def byteHex (b : UInt8) : List UInt8 := [hexDigit (b.toNat / 16), hexDigit (b.toNat % 16)]

/-- `binary2hex`: the hex text of the first `len` bytes and its terminator. -/
def binary2hex (buf : List UInt8) (len : Nat) : List UInt8 := (buf.take len).flatMap byteHex ++ [0]

/-- `toupper` in the C locale. -/
def toupper (c : UInt8) : UInt8 := if 97 ≤ c ∧ c ≤ 122 then c - 32 else c

/-- `_hex2binary`: the value of one digit.  `char` is signed, so a byte from 128
on compares below `'9'`. -/
def hex2binaryDigit (hex : UInt8) : UInt8 :=
  let hex := toupper hex
  if hex ≤ 57 ∨ 128 ≤ hex then hex - 48 else hex - 55

/-- `hex2binary`: one byte for every two characters of the first `len`. -/
def hex2binary : List UInt8 → Nat → List UInt8
  | _, 0 => []
  | hex, 1 => [hex2binaryDigit (hex.getD 0 0) <<< 4 ||| hex2binaryDigit (hex.getD 1 0)]
  | hex, len + 2 =>
      (hex2binaryDigit (hex.getD 0 0) <<< 4 ||| hex2binaryDigit (hex.getD 1 0)) ::
        hex2binary (hex.drop 2) len

/-! ## Hex texts -/

/-- A lower-case hex digit. -/
def IsLowerHex (c : UInt8) : Prop := ∃ n < 16, c = hexDigit n

@[simp] theorem length_byteHex (b : UInt8) : (byteHex b).length = 2 := rfl

theorem hexDigit_inj {m n : Nat} (hm : m < 16) (hn : n < 16) (h : hexDigit m = hexDigit n) : m = n := by
  have key : ∀ m < 16, ∀ n < 16, hexDigit m = hexDigit n → m = n := by decide
  exact key m hm n hn h

theorem byteHex_inj {a b : UInt8} (h : byteHex a = byteHex b) : a = b := by
  obtain ⟨hhigh, hlow⟩ := List.cons_eq_cons.mp h
  have hdiv : a.toNat / 16 = b.toNat / 16 :=
    hexDigit_inj (Nat.div_lt_of_lt_mul a.toNat_lt) (Nat.div_lt_of_lt_mul b.toNat_lt) hhigh
  have hmod : a.toNat % 16 = b.toNat % 16 :=
    hexDigit_inj (Nat.mod_lt _ (by decide)) (Nat.mod_lt _ (by decide)) (List.cons_eq_cons.mp hlow).1
  apply UInt8.toNat_inj.mp
  rw [← Nat.div_add_mod a.toNat 16, ← Nat.div_add_mod b.toNat 16, hdiv, hmod]

/-- Different byte strings have different hex texts. -/
theorem flatMap_byteHex_inj {as bs : List UInt8} (h : as.flatMap byteHex = bs.flatMap byteHex) :
    as = bs := by
  induction as generalizing bs with
  | nil =>
      cases bs with
      | nil => rfl
      | cons b bs => cases h
  | cons a as ih =>
      cases bs with
      | nil => cases h
      | cons b bs =>
          rw [List.flatMap_cons, List.flatMap_cons] at h
          obtain ⟨hfirst, hrest⟩ := List.append_inj h rfl
          rw [byteHex_inj hfirst, ih hrest]

theorem length_flatMap_byteHex (bs : List UInt8) : (bs.flatMap byteHex).length = 2 * bs.length := by
  induction bs with
  | nil => rfl
  | cons b bs ih =>
      rw [List.flatMap_cons, List.length_append, ih, length_byteHex, List.length_cons]
      omega

/-- The digits in front of the terminator. -/
theorem take_binary2hex {buf : List UInt8} {len : Nat} (h : len ≤ buf.length) (rest : List UInt8) :
    (binary2hex buf len ++ rest).take (2 * len) = (buf.take len).flatMap byteHex := by
  have hlen : ((buf.take len).flatMap byteHex).length = 2 * len := by
    rw [length_flatMap_byteHex, List.length_take_of_le h]
  rw [binary2hex, List.append_assoc, List.take_append_of_le_length (Nat.le_of_eq hlen.symm),
    ← hlen, List.take_length]

theorem length_hex2binary (hex : List UInt8) (n : Nat) : (hex2binary hex (2 * n)).length = n := by
  induction n generalizing hex with
  | zero => rfl
  | succ n ih => rw [Nat.mul_succ, hex2binary, List.length_cons, ih]

/-- The first bytes come from the first characters. -/
theorem take_hex2binary (hex : List UInt8) {n len : Nat} (h : 2 * n ≤ len) :
    (hex2binary hex len).take n = hex2binary hex (2 * n) := by
  induction n generalizing hex len with
  | zero => rfl
  | succ n ih =>
      obtain ⟨m, rfl⟩ := Nat.exists_eq_add_of_le' (Nat.le_trans (Nat.le_add_left 2 (2 * n)) h)
      rw [Nat.mul_succ, hex2binary, hex2binary, List.take_succ_cons,
        ih (hex.drop 2) (Nat.le_of_add_le_add_right h)]

/-- A digit pair survives being read and printed again. -/
theorem byteHex_hex2binaryDigit {m n : Nat} (hm : m < 16) (hn : n < 16) :
    byteHex (hex2binaryDigit (hexDigit m) <<< 4 ||| hex2binaryDigit (hexDigit n)) =
      [hexDigit m, hexDigit n] := by
  have key : ∀ m < 16, ∀ n < 16,
      byteHex (hex2binaryDigit (hexDigit m) <<< 4 ||| hex2binaryDigit (hexDigit n)) =
        [hexDigit m, hexDigit n] := by decide
  exact key m hm n hn

/-- Reading a lower-case hex text and printing the bytes gives the text back. -/
theorem flatMap_byteHex_hex2binary {hex : List UInt8} {n : Nat} (hlen : 2 * n ≤ hex.length)
    (hhex : ∀ c ∈ hex.take (2 * n), IsLowerHex c) :
    (hex2binary hex (2 * n)).flatMap byteHex = hex.take (2 * n) := by
  induction n generalizing hex with
  | zero => simp [hex2binary]
  | succ n ih =>
      match hex, hlen, hhex with
      | a :: b :: rest, hlen, hhex =>
          obtain ⟨x, hx, rfl⟩ := hhex a (by simp [Nat.mul_succ])
          obtain ⟨y, hy, rfl⟩ := hhex b (by simp [Nat.mul_succ])
          have hrest : ∀ c ∈ rest.take (2 * n), IsLowerHex c := fun c hc ↦
            hhex c (by simp only [Nat.mul_succ, List.take_succ_cons, List.mem_cons]; exact .inr (.inr hc))
          have hle : 2 * n ≤ rest.length := by
            simp only [List.length_cons] at hlen
            omega
          rw [Nat.mul_succ, hex2binary, List.flatMap_cons, List.take_succ_cons, List.take_succ_cons]
          simp only [List.getD_cons_zero, List.getD_cons_succ, List.drop_succ_cons, List.drop_zero]
          rw [byteHex_hex2binaryDigit hx hy, ih hle hrest]
          rfl

end BitTorrent
