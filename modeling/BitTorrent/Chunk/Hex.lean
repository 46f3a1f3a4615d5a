import Mathlib.Algebra.Group.Nat.Even
import Mathlib.Data.List.Induction
import BitTorrent.Chunk

/-!
# Hex texts read and printed

`hex2binary` takes two characters at a time, through `toupper` and 8-bit arithmetic, and
`binary2hex` prints two digits for every byte.  On hex texts of even length, whatever the case
of their letters, each undoes the other, up to case.
-/

namespace BitTorrent

/-- `isxdigit` -/
def isxdigit (c : UInt8) : Bool :=
  (48 ≤ c && c ≤ 57) || (65 ≤ c && c ≤ 70) || (97 ≤ c && c ≤ 102)

/-- `tolower` in the C locale. -/
def tolower (c : UInt8) : UInt8 := if 65 ≤ c ∧ c ≤ 90 then c + 32 else c

/-- A text of hex digits, in either case, two for every byte. -/
structure IsHexText (s : List UInt8) : Prop where
  digits : ∀ c ∈ s, isxdigit c = true
  even : Even s.length

variable {a b c : UInt8} {s t : List UInt8}

/-! ## One byte -/

theorem forall_byte {P : UInt8 → Prop} (h : ∀ n < 256, P (UInt8.ofNat n)) (c : UInt8) : P c := by
  have hc := h c.toNat c.toNat_lt
  rw [UInt8.ofNat_toNat] at hc
  exact hc

/-- A digit is read as a number below sixteen, which is printed as the digit in lower case. -/
theorem hexDigit_hex2binaryDigit (h : isxdigit c = true) :
    (hex2binaryDigit c).toNat < 16 ∧ hexDigit (hex2binaryDigit c).toNat = tolower c :=
  forall_byte (P := fun c ↦ isxdigit c = true →
    (hex2binaryDigit c).toNat < 16 ∧ hexDigit (hex2binaryDigit c).toNat = tolower c)
    (by decide +kernel) c h

/-- Two numbers below sixteen in one byte are printed one after the other. -/
theorem byteHex_or (ha : a.toNat < 16) (hb : b.toNat < 16) :
    byteHex (a <<< 4 ||| b) = [hexDigit a.toNat, hexDigit b.toNat] := by
  have key : ∀ m < 16, ∀ n < 16,
      byteHex (UInt8.ofNat m <<< 4 ||| UInt8.ofNat n) = [hexDigit m, hexDigit n] := by decide
  have hab := key _ ha _ hb
  rw [UInt8.ofNat_toNat, UInt8.ofNat_toNat] at hab
  exact hab

/-- A pair of digits read and printed again. -/
theorem byteHex_of_isxdigit (ha : isxdigit a = true) (hb : isxdigit b = true) :
    byteHex (hex2binaryDigit a <<< 4 ||| hex2binaryDigit b) = [tolower a, tolower b] := by
  obtain ⟨hlt, hlow⟩ := hexDigit_hex2binaryDigit ha
  obtain ⟨hlt', hlow'⟩ := hexDigit_hex2binaryDigit hb
  rw [byteHex_or hlt hlt', hlow, hlow']

/-- A byte printed and read again. -/
theorem hex2binary_byteHex (b : UInt8) (rest : List UInt8) (len : Nat) :
    hex2binary (byteHex b ++ rest) (len + 2) = b :: hex2binary rest len := by
  have hb : hex2binaryDigit (hexDigit (b.toNat / 16)) <<< 4 |||
      hex2binaryDigit (hexDigit (b.toNat % 16)) = b :=
    forall_byte (P := fun b ↦ hex2binaryDigit (hexDigit (b.toNat / 16)) <<< 4 |||
      hex2binaryDigit (hexDigit (b.toNat % 16)) = b) (by decide +kernel) b
  simp only [byteHex, List.cons_append, List.nil_append, hex2binary, List.getD_cons_zero,
    List.getD_cons_succ, List.drop_succ_cons, List.drop_zero, hb]

/-! ## Texts of any length -/

/-- Bytes that were printed are read back, whatever stands behind them. -/
theorem hex2binary_flatMap_byteHex (bs rest : List UInt8) :
    hex2binary (bs.flatMap byteHex ++ rest) (2 * bs.length) = bs := by
  induction bs with
  | nil => rfl
  | cons b bs ih =>
      rw [List.flatMap_cons, List.append_assoc, List.length_cons, Nat.mul_succ, hex2binary_byteHex,
        ih]

/-- A text that was read is printed in lower case. -/
theorem flatMap_byteHex_of_isHexText (h : IsHexText s) :
    (hex2binary s s.length).flatMap byteHex = s.map tolower := by
  induction s using List.twoStepInduction with
  | nil => rfl
  | singleton a => exact absurd h.even Nat.not_even_one
  | cons_cons a b s ih _ =>
      have ha : isxdigit a = true := h.digits a (List.mem_cons_self ..)
      have hb : isxdigit b = true := h.digits b (List.mem_cons_of_mem _ (List.mem_cons_self ..))
      have heven : Even (s.length + 2) := h.even
      have hs : IsHexText s :=
        ⟨fun c hc ↦ h.digits c (List.mem_cons_of_mem _ (List.mem_cons_of_mem _ hc)),
          (Nat.even_add.mp heven).mpr (by decide)⟩
      rw [List.length_cons, List.length_cons, hex2binary, List.flatMap_cons]
      simp only [List.getD_cons_zero, List.getD_cons_succ, List.drop_succ_cons, List.drop_zero,
        List.map_cons]
      rw [byteHex_of_isxdigit ha hb, ih hs]
      rfl

/-- The text `binary2hex` makes of a whole byte string. -/
theorem binary2hex_length (bs : List UInt8) : binary2hex bs bs.length = bs.flatMap byteHex ++ [0] := by
  rw [binary2hex, List.take_length]

theorem length_hex2binary_of_isHexText (h : IsHexText s) :
    (hex2binary s s.length).length = s.length / 2 := by
  obtain ⟨n, hn⟩ := h.even
  rw [hn, ← Nat.two_mul, length_hex2binary, Nat.mul_div_cancel_left n Nat.two_pos]

/-- Two texts are read as the same bytes exactly if they are the same up to case. -/
theorem hex2binary_eq_iff (hs : IsHexText s) (ht : IsHexText t) :
    hex2binary s s.length = hex2binary t t.length ↔ s.map tolower = t.map tolower := by
  rw [← flatMap_byteHex_of_isHexText hs, ← flatMap_byteHex_of_isHexText ht]
  exact ⟨fun h ↦ h ▸ rfl, flatMap_byteHex_inj⟩

/-- `hex2binary` undoes `binary2hex`, which undoes `hex2binary` up to case; so the texts that
are read as the same bytes are those that differ in case only. -/
theorem hex_round_trip :
    (∀ bs : List UInt8, hex2binary (binary2hex bs bs.length) (2 * bs.length) = bs) ∧
    (∀ s, IsHexText s →
      binary2hex (hex2binary s s.length) (s.length / 2) = s.map tolower ++ [0]) ∧
    (∀ s t, IsHexText s → IsHexText t →
      (hex2binary s s.length = hex2binary t t.length ↔ s.map tolower = t.map tolower)) := by
  refine ⟨fun bs ↦ ?_, fun s hs ↦ ?_, fun s t hs ht ↦ hex2binary_eq_iff hs ht⟩
  · rw [binary2hex_length]
    exact hex2binary_flatMap_byteHex bs [0]
  · rw [← length_hex2binary_of_isHexText hs, binary2hex_length, flatMap_byteHex_of_isHexText hs]

/-- The texts `aF` and `Af`. -/
theorem hex_round_trip_mixed :
    binary2hex (hex2binary [97, 70] 2) 1 = [97, 102, 0] ∧
      (hex2binary [97, 70] 2 = hex2binary [65, 102] 2 ↔
        [97, 70].map tolower = [65, 102].map tolower) := by
  have hs : IsHexText [97, 70] := ⟨List.all_eq_true.mp rfl, 1, rfl⟩
  have ht : IsHexText [65, 102] := ⟨List.all_eq_true.mp rfl, 1, rfl⟩
  exact ⟨hex_round_trip.2.1 [97, 70] hs, hex_round_trip.2.2 [97, 70] [65, 102] hs ht⟩

end BitTorrent
