import Mathlib.Algebra.Order.Ring.Int
import Mathlib.Data.List.Basic
import Mathlib.Data.List.TakeWhile

/-!
# Reading text in C

Streams and strings of the C library as byte lists: `fgets`, the loop over the lines
of a file, and the conversions `%d` and `%s` of `sscanf`.  A stream is what is still
to be read of it.
-/

namespace Stdio

variable {size n : Nat} {stream line rest : List UInt8}

/-! ## Lines -/

/-- The first `n` bytes of a stream, or fewer up to and including a newline, and what is
left of it. -/
def takeLine : Nat → List UInt8 → List UInt8 × List UInt8
  | 0, stream => ([], stream)
  | _ + 1, [] => ([], [])
  | n + 1, c :: stream =>
      if c = 10 then ([c], stream)
      else
        let (line, rest) := takeLine n stream
        (c :: line, rest)

/-- `fgets` into a buffer of `size` bytes, one of which is for the terminator; `none` at
the end of the stream. -/
def fgets (size : Nat) (stream : List UInt8) : Option (List UInt8 × List UInt8) :=
  if stream = [] then none else some (takeLine (size - 1) stream)

/-- The loop `while (fgets(..))`, for at most `n` times. -/
def linesLoop (size : Nat) : Nat → List UInt8 → List (List UInt8)
  | 0, _ => []
  | n + 1, stream =>
      match fgets size stream with
      | none => []
      | some (line, rest) => line :: linesLoop size n rest

/-- The lines of a stream, as the loop reads them. -/
def lines (size : Nat) (stream : List UInt8) : List (List UInt8) :=
  linesLoop size stream.length stream

/-- What is read and what is left make up the stream. -/
theorem takeLine_append (n : Nat) (stream : List UInt8) :
    (takeLine n stream).1 ++ (takeLine n stream).2 = stream := by
  induction n generalizing stream with
  | zero => rfl
  | succ n ih =>
      cases stream with
      | nil => rfl
      | cons c stream =>
          rw [takeLine]
          split
          · rfl
          · rw [List.cons_append, ih]

theorem length_takeLine_le (n : Nat) (stream : List UInt8) : (takeLine n stream).1.length ≤ n := by
  induction n generalizing stream with
  | zero => exact Nat.le_refl _
  | succ n ih =>
      cases stream with
      | nil => exact Nat.zero_le _
      | cons c stream =>
          rw [takeLine]
          split
          · exact Nat.succ_le_succ (Nat.zero_le n)
          · exact Nat.succ_le_succ (ih stream)

/-- A line fits into its buffer. -/
theorem length_lt_of_fgets (hsize : 0 < size) (h : fgets size stream = some (line, rest)) :
    line.length < size := by
  rw [fgets, Option.ite_none_left_eq_some, Option.some.injEq] at h
  obtain ⟨-, h⟩ := h
  have hle := length_takeLine_le (size - 1) stream
  rw [h] at hle
  exact Nat.lt_of_le_sub_one hsize hle

/-- With room for a byte and the terminator, every call makes progress. -/
theorem length_rest_of_fgets (hsize : 2 ≤ size) (h : fgets size stream = some (line, rest)) :
    rest.length < stream.length := by
  rw [fgets, Option.ite_none_left_eq_some, Option.some.injEq] at h
  obtain ⟨hne, h⟩ := h
  have happend := takeLine_append (size - 1) stream
  rw [h] at happend
  have hpos : line ≠ [] := by
    obtain ⟨c, stream, rfl⟩ := List.exists_cons_of_ne_nil hne
    obtain ⟨n, hn⟩ := Nat.exists_eq_add_of_le' hsize
    rw [hn, show n + 2 - 1 = n + 1 from rfl, takeLine] at h
    split at h
    · cases h
      exact List.cons_ne_nil _ _
    · cases h
      exact List.cons_ne_nil _ _
  rw [← happend, List.length_append]
  exact Nat.lt_add_of_pos_left (List.length_pos_iff.mpr hpos)

/-- The loop comes to the end of the stream by itself. -/
theorem linesLoop_of_le (hsize : 2 ≤ size) (h : stream.length ≤ n) :
    linesLoop size n stream = lines size stream := by
  suffices hlen : ∀ (m n : Nat) (stream : List UInt8), stream.length ≤ m → stream.length ≤ n →
      linesLoop size m stream = linesLoop size n stream from hlen n _ stream h (Nat.le_refl _)
  intro m
  induction m with
  | zero =>
      intro n stream hm _
      rw [List.length_eq_zero_iff.mp (Nat.le_zero.mp hm)]
      cases n <;> rfl
  | succ m ih =>
      intro n stream hm hn
      cases hget : fgets size stream with
      | none =>
          rw [linesLoop, hget]
          cases n with
          | zero => rfl
          | succ n => rw [linesLoop, hget]
      | some r =>
          obtain ⟨line, rest⟩ := r
          have hlt := length_rest_of_fgets hsize hget
          obtain ⟨n, rfl⟩ : ∃ n', n = n' + 1 :=
            Nat.exists_eq_succ_of_ne_zero (Nat.ne_of_gt (Nat.lt_of_lt_of_le (Nat.zero_lt_of_lt hlt) hn))
          rw [linesLoop, linesLoop, hget]
          simp only
          rw [ih n rest (Nat.le_of_lt_succ (Nat.lt_of_lt_of_le hlt hm))
            (Nat.le_of_lt_succ (Nat.lt_of_lt_of_le hlt hn))]

/-- One turn of the loop. -/
theorem lines_eq (hsize : 2 ≤ size) (stream : List UInt8) :
    lines size stream =
      match fgets size stream with
      | none => []
      | some (line, rest) => line :: lines size rest := by
  rw [← linesLoop_of_le hsize (Nat.le_succ _), linesLoop]
  cases hget : fgets size stream with
  | none => rfl
  | some r =>
      simp only
      rw [linesLoop_of_le hsize (Nat.le_of_lt (length_rest_of_fgets hsize hget))]

/-- No line is longer than the buffer allows. -/
theorem length_of_mem_lines (hsize : 2 ≤ size) (h : line ∈ lines size stream) :
    line.length < size := by
  induction hn : stream.length using Nat.strongRecOn generalizing stream with
  | ind n ih =>
      rw [lines_eq hsize] at h
      cases hget : fgets size stream with
      | none =>
          rw [hget] at h
          cases h
      | some r =>
          obtain ⟨first, rest⟩ := r
          rw [hget] at h
          rcases List.mem_cons.mp h with rfl | hmem
          · exact length_lt_of_fgets (Nat.lt_of_lt_of_le Nat.two_pos hsize) hget
          · exact ih rest.length (hn ▸ length_rest_of_fgets hsize hget) hmem rfl

/-! ## Conversions -/

/-- `isspace` in the C locale. -/
def isSpace (c : UInt8) : Bool := c == 32 || (9 ≤ c && c ≤ 13)

/-- `isdigit` -/
def isDigit (c : UInt8) : Bool := 48 ≤ c && c ≤ 57

/-- The string in a buffer: the bytes in front of the first terminator. -/
def cString (buf : List UInt8) : List UInt8 := buf.takeWhile (· ≠ 0)

/-- A blank in a format. -/
def skipSpace (s : List UInt8) : List UInt8 := s.dropWhile isSpace

/-- The value of a string of digits. -/
def digitsValue (digits : List UInt8) : Nat :=
  digits.foldl (fun n c ↦ 10 * n + (c.toNat - 48)) 0

/-- The value `%d` stores: it is read as a `long`, within whose range it stays, and cut
down to an `int`. -/
def toInt (n : Int) : Int := (max (-2 ^ 63) (min n (2 ^ 63 - 1))).bmod (2 ^ 32)

/-- The conversion `%d`: blanks, a sign, digits; `none` when there are no digits. -/
def scanInt (s : List UInt8) : Option (Int × List UInt8) :=
  let s := skipSpace s
  let (negative, s) := match s with
    | 45 :: s => (true, s)
    | 43 :: s => (false, s)
    | s => (false, s)
  let digits := s.takeWhile isDigit
  if digits = [] then none
  else
    let n : Int := digitsValue digits
    some (toInt (if negative then -n else n), s.dropWhile isDigit)

/-- The conversion `%s`: blanks, then a word; `none` at the end of the string. -/
def scanWord (s : List UInt8) : Option (List UInt8) :=
  let word := (skipSpace s).takeWhile fun c ↦ !isSpace c
  if word = [] then none else some word

/-- The conversion `%120s` and the like: blanks, then at most `width` bytes of a word, with
what is left; `none` at the end of the string. -/
def scanWordMax (width : Nat) (s : List UInt8) : Option (List UInt8 × List UInt8) :=
  let s := skipSpace s
  let word := (s.takeWhile fun c ↦ !isSpace c).take width
  if word = [] then none else some (word, s.drop word.length)

/-- A string written into an array: its bytes and a terminator, and the rest as before. -/
def store (old word : List UInt8) : List UInt8 := word ++ 0 :: old.drop (word.length + 1)

/-! ## Strings -/

section Strings

variable {s buf : List UInt8} {c : UInt8}

/-- `strchr`, as the number of bytes in front of what is found. -/
def strchr (buf : List UInt8) (c : UInt8) : Option Nat :=
  if c ∈ cString buf then some ((cString buf).idxOf c) else none

theorem notMem_cString (buf : List UInt8) : 0 ∉ cString buf := fun h ↦ by
  simpa using List.mem_takeWhile_imp h

theorem cString_append (h : 0 ∉ s) (t : List UInt8) : cString (s ++ t) = s ++ cString t := by
  apply List.takeWhile_append_of_pos
  intro a ha
  rw [decide_eq_true_iff]
  rintro rfl
  exact h ha

theorem cString_append_zero (h : 0 ∉ s) (t : List UInt8) : cString (s ++ 0 :: t) = s := by
  rw [cString_append h]
  exact List.append_nil s

/-- A buffer with a terminator holds a string. -/
theorem exists_cString (h : 0 ∈ buf) : ∃ rest, buf = cString buf ++ 0 :: rest := by
  induction buf with
  | nil => exact absurd h List.not_mem_nil
  | cons a buf ih =>
      by_cases ha : a = 0
      · subst ha
        exact ⟨buf, rfl⟩
      · obtain ⟨rest, hrest⟩ := ih ((List.mem_cons.mp h).resolve_left (Ne.symm ha))
        have hcons : cString (a :: buf) = a :: cString buf := by
          rw [cString, List.takeWhile_cons, if_pos (decide_eq_true ha)]
          rfl
        refine ⟨rest, ?_⟩
        rw [hcons, List.cons_append, ← hrest]

/-- Behind a terminator nothing belongs to it. -/
theorem cString_append_of_mem (h : 0 ∈ buf) (t : List UInt8) : cString (buf ++ t) = cString buf := by
  obtain ⟨rest, hrest⟩ := exists_cString h
  rw [hrest, List.append_assoc, List.cons_append, cString_append_zero (notMem_cString buf),
    cString_append_zero (notMem_cString buf)]

theorem strchr_of_notMem (h : c ∉ cString buf) : strchr buf c = none := if_neg h

theorem strchr_of_mem (h : c ∈ cString buf) : strchr buf c = some ((cString buf).idxOf c) := if_pos h

/-- The first occurrence is found. -/
theorem strchr_append (hs : 0 ∉ s) (hc : c ∉ s) (hne : c ≠ 0) (t : List UInt8) :
    strchr (s ++ c :: t) c = some s.length := by
  have hstring : cString (s ++ c :: t) = s ++ c :: cString t := by
    rw [cString_append hs, cString, List.takeWhile_cons, if_pos (decide_eq_true hne)]
    rfl
  rw [strchr, hstring, if_pos (List.mem_append_right _ (List.mem_cons_self ..)),
    List.idxOf_append_of_notMem hc, List.idxOf_cons_self, Nat.add_zero]

/-- In front of it stand other characters of the string. -/
theorem exists_of_strchr {r : Nat} (h : strchr buf c = some r) :
    ∃ body t, buf = body ++ c :: t ∧ body.length = r ∧ 0 ∉ body ∧ c ∉ body ∧ c ≠ 0 := by
  obtain ⟨hmem, hr⟩ := Option.ite_none_right_eq_some.mp h
  obtain ⟨body, rest, hsplit, hbody⟩ := List.eq_append_cons_of_mem hmem
  have h0 := notMem_cString buf
  rw [hsplit, List.mem_append, List.mem_cons] at h0
  obtain ⟨t, ht⟩ : ∃ t, buf = body ++ c :: t := by
    refine ⟨rest ++ buf.dropWhile (· ≠ 0), ?_⟩
    rw [← List.cons_append, ← List.append_assoc, ← hsplit]
    exact List.takeWhile_append_dropWhile.symm
  refine ⟨body, t, ht, ?_, fun hc ↦ h0 (.inl hc), hbody, fun hc ↦ h0 (.inr (.inl hc.symm))⟩
  rw [hsplit, List.idxOf_append_of_notMem hbody, List.idxOf_cons_self, Nat.add_zero] at hr
  exact Option.some.inj hr

end Strings

/-! ## Lengths -/

theorem length_cString_le (buf : List UInt8) : (cString buf).length ≤ buf.length :=
  (List.takeWhile_sublist _).length_le

theorem length_skipSpace_le (s : List UInt8) : (skipSpace s).length ≤ s.length :=
  (List.dropWhile_sublist _).length_le

theorem length_rest_of_scanInt {s rest : List UInt8} {i : Int} (h : scanInt s = some (i, rest)) :
    rest.length ≤ s.length := by
  simp only [scanInt] at h
  rw [Option.ite_none_left_eq_some, Option.some.injEq, Prod.mk.injEq] at h
  obtain ⟨-, -, rfl⟩ := h
  refine Nat.le_trans (List.dropWhile_sublist _).length_le (Nat.le_trans ?_ (length_skipSpace_le s))
  split
  · next heq => rw [heq]; exact Nat.le_succ _
  · next heq => rw [heq]; exact Nat.le_succ _
  · exact Nat.le_refl _

theorem length_of_scanWord {s word : List UInt8} (h : scanWord s = some word) :
    word.length ≤ s.length := by
  rw [scanWord, Option.ite_none_left_eq_some, Option.some.injEq] at h
  obtain ⟨-, rfl⟩ := h
  exact Nat.le_trans (List.takeWhile_sublist _).length_le (length_skipSpace_le s)

/-- A string that fits leaves the array as long as it was. -/
theorem length_store {old word : List UInt8} (h : word.length < old.length) :
    (store old word).length = old.length := by
  rw [store, List.length_append, List.length_cons, List.length_drop]
  omega

/-- A decimal numeral as `%d` reads it: one blank behind it ends it. -/
example : scanInt [49, 50, 32, 97] = some (12, [32, 97]) := by decide

end Stdio
