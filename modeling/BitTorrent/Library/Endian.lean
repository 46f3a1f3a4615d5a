import Mathlib.Algebra.Group.Nat.Defs
import Mathlib.Data.List.Basic

/-!
# Numbers in memory

A number kept in a fixed count of bytes, in either order.  Reading the bytes in the
order they were written gives the number back as long as it fits, and every
sequence of bytes is the one that its value is written as.
-/

namespace Endian

/-- The order in which a machine keeps the bytes of a number. -/
inductive ByteOrder where
  | little | big
deriving DecidableEq, Repr

/-- The `n` low bytes of a number, the least significant one first. -/
def bytesLE : Nat → Nat → List UInt8
  | 0, _ => []
  | n + 1, x => UInt8.ofNat x :: bytesLE n (x / 256)

/-- The number with the given bytes, the least significant one first. -/
def ofBytesLE : List UInt8 → Nat
  | [] => 0
  | b :: bs => b.toNat + 256 * ofBytesLE bs

@[simp] theorem length_bytesLE (n x : Nat) : (bytesLE n x).length = n := by
  induction n generalizing x with
  | zero => rfl
  | succ n ih => rw [bytesLE, List.length_cons, ih]

theorem ofBytesLE_bytesLE (n x : Nat) : ofBytesLE (bytesLE n x) = x % 256 ^ n := by
  induction n generalizing x with
  | zero => rw [Nat.pow_zero, Nat.mod_one]; rfl
  | succ n ih =>
      rw [bytesLE, ofBytesLE, ih, Nat.pow_succ', Nat.mod_mul]
      rfl

theorem bytesLE_ofBytesLE (bs : List UInt8) : bytesLE bs.length (ofBytesLE bs) = bs := by
  induction bs with
  | nil => rfl
  | cons b bs ih =>
      have hdiv : (b.toNat + 256 * ofBytesLE bs) / 256 = ofBytesLE bs := by
        have := b.toNat_lt
        omega
      have hmod : UInt8.ofNat (b.toNat + 256 * ofBytesLE bs) = b := by
        apply UInt8.toNat_inj.mp
        have := b.toNat_lt
        rw [UInt8.toNat_ofNat']
        omega
      rw [List.length_cons, ofBytesLE, bytesLE, hdiv, hmod, ih]

theorem ofBytesLE_lt (bs : List UInt8) : ofBytesLE bs < 256 ^ bs.length := by
  have h := ofBytesLE_bytesLE bs.length (ofBytesLE bs)
  rw [bytesLE_ofBytesLE] at h
  rw [h]
  exact Nat.mod_lt _ (Nat.pow_pos (by decide))

/-- Only the low bytes of a number are written. -/
theorem bytesLE_mod (n x : Nat) : bytesLE n (x % 256 ^ n) = bytesLE n x := by
  have h := bytesLE_ofBytesLE (bytesLE n x)
  rwa [length_bytesLE, ofBytesLE_bytesLE] at h

/-- A number in two parts. -/
theorem bytesLE_add (m n : Nat) {x : Nat} (y : Nat) (hx : x < 256 ^ m) :
    bytesLE (m + n) (x + 256 ^ m * y) = bytesLE m x ++ bytesLE n y := by
  induction m generalizing x with
  | zero =>
      rw [Nat.pow_zero, Nat.lt_one_iff] at hx
      rw [hx, Nat.zero_add, Nat.zero_add, Nat.pow_zero, Nat.one_mul]
      rfl
  | succ m ih =>
      have hsum : x + 256 ^ (m + 1) * y = x + 256 * (256 ^ m * y) := by
        rw [Nat.pow_succ', Nat.mul_assoc]
      have hdiv : (x + 256 * (256 ^ m * y)) / 256 = x / 256 + 256 ^ m * y := by omega
      have hlow : UInt8.ofNat (x + 256 * (256 ^ m * y)) = UInt8.ofNat x := by
        apply UInt8.toNat_inj.mp
        rw [UInt8.toNat_ofNat', UInt8.toNat_ofNat']
        omega
      rw [Nat.pow_succ'] at hx
      rw [hsum, Nat.succ_add, bytesLE, bytesLE, hdiv, hlow, ih (Nat.div_lt_of_lt_mul hx),
        List.cons_append]

/-! ## Either order -/

variable {o o' : ByteOrder} {n x : Nat}

/-- The `n` bytes of a number in memory. -/
def bytes (o : ByteOrder) (n x : Nat) : List UInt8 :=
  match o with
  | .little => bytesLE n x
  | .big => (bytesLE n x).reverse

/-- The number that bytes in memory stand for. -/
def ofBytes (o : ByteOrder) (bs : List UInt8) : Nat :=
  match o with
  | .little => ofBytesLE bs
  | .big => ofBytesLE bs.reverse

@[simp] theorem length_bytes (o : ByteOrder) (n x : Nat) : (bytes o n x).length = n := by
  cases o with
  | little => exact length_bytesLE n x
  | big => rw [bytes, List.length_reverse, length_bytesLE]

theorem drop_bytes (o : ByteOrder) {m : Nat} (h : n ≤ m) : (bytes o n x).drop m = [] :=
  List.drop_of_length_le (by rwa [length_bytes])

/-- A number that fits is read back. -/
theorem ofBytes_bytes (o : ByteOrder) (h : x < 256 ^ n) : ofBytes o (bytes o n x) = x := by
  have hmod : ofBytesLE (bytesLE n x) = x := by rw [ofBytesLE_bytesLE, Nat.mod_eq_of_lt h]
  cases o with
  | little => exact hmod
  | big => rw [bytes, ofBytes, List.reverse_reverse, hmod]

/-- Bytes are those of the number they stand for. -/
theorem bytes_ofBytes (o : ByteOrder) {bs : List UInt8} (h : bs.length = n) :
    bytes o n (ofBytes o bs) = bs := by
  subst h
  cases o with
  | little => exact bytesLE_ofBytesLE bs
  | big =>
      rw [bytes, ofBytes, ← List.length_reverse, bytesLE_ofBytesLE, List.reverse_reverse]

theorem ofBytes_lt (o : ByteOrder) {bs : List UInt8} (h : bs.length = n) : ofBytes o bs < 256 ^ n := by
  subst h
  cases o with
  | little => exact ofBytesLE_lt bs
  | big =>
      rw [ofBytes, ← List.length_reverse]
      exact ofBytesLE_lt bs.reverse

/-- The number whose bytes, in the order of one machine, are those of `x` in the order
of another: what the conversions between host and network order compute. -/
def reorder (o o' : ByteOrder) (n x : Nat) : Nat := ofBytes o (bytes o' n x)

theorem reorder_lt (o o' : ByteOrder) (n x : Nat) : reorder o o' n x < 256 ^ n :=
  ofBytes_lt o (length_bytes o' n x)

/-- In memory the reordered number is the number in the other order. -/
theorem bytes_reorder (o o' : ByteOrder) (n x : Nat) : bytes o n (reorder o o' n x) = bytes o' n x :=
  bytes_ofBytes o (length_bytes o' n x)

/-- Reordering there and back. -/
theorem reorder_reorder (o o' : ByteOrder) (h : x < 256 ^ n) :
    reorder o' o n (reorder o o' n x) = x := by
  rw [reorder, bytes_reorder, ofBytes_bytes o' h]

end Endian
