import BitTorrent.Library.Stdio

/-!
# Numbers and words printed and read

What `printf` makes of a number with `%d`, and what the conversions of `sscanf` find in a text
that starts with a numeral or with a word.
-/

namespace Stdio

variable {n : Nat} {c : UInt8} {s digits word rest : List UInt8}

/-- The conversion `%d` of `printf`, for a number that is not negative. -/
def decimal (n : Nat) : List UInt8 := (Nat.toDigits 10 n).map fun c ↦ UInt8.ofNat c.toNat

/-! ## Numerals -/

/-- The last digit of a numeral stands for the remainder of a division by ten. -/
theorem decimal_eq (n : Nat) :
    decimal n = (if n < 10 then [] else decimal (n / 10)) ++ [UInt8.ofNat (48 + n % 10)] := by
  have hdigit : ∀ d < 10, UInt8.ofNat (Nat.digitChar d).toNat = UInt8.ofNat (48 + d) := by decide
  rw [decimal, Nat.toDigits_eq_if (by decide)]
  split
  · next hlt => rw [List.map_singleton, hdigit n hlt, Nat.mod_eq_of_lt hlt, List.nil_append]
  · rw [List.map_append, List.map_singleton, hdigit _ (Nat.mod_lt n (by decide)), decimal]

theorem decimal_ne_nil (n : Nat) : decimal n ≠ [] := by
  rw [decimal_eq]
  exact List.append_ne_nil_of_right_ne_nil _ (List.cons_ne_nil _ _)

theorem toNat_digit (n : Nat) : (UInt8.ofNat (48 + n % 10)).toNat = 48 + n % 10 := by
  rw [UInt8.toNat_ofNat']
  omega

theorem isDigit_iff : isDigit c = true ↔ 48 ≤ c.toNat ∧ c.toNat ≤ 57 := by
  simp [isDigit, UInt8.le_iff_toNat_le]

theorem isSpace_iff : isSpace c = true ↔ c.toNat = 32 ∨ 9 ≤ c.toNat ∧ c.toNat ≤ 13 := by
  simp [isSpace, UInt8.le_iff_toNat_le, ← UInt8.toNat_inj]

/-- A digit is neither a blank nor a sign. -/
theorem ne_of_isDigit (h : isDigit c = true) : isSpace c = false ∧ c ≠ 45 ∧ c ≠ 43 := by
  rw [isDigit_iff] at h
  refine ⟨Bool.eq_false_iff.mpr fun hspace ↦ ?_, ?_, ?_⟩
  · rw [isSpace_iff] at hspace
    omega
  · rintro rfl
    exact absurd h.1 (by decide)
  · rintro rfl
    exact absurd h.1 (by decide)

theorem isDigit_of_mem_decimal (h : c ∈ decimal n) : isDigit c = true := by
  induction n using Nat.strongRecOn with
  | ind n ih =>
      rw [decimal_eq] at h
      rcases List.mem_append.mp h with h | h
      · split at h
        · exact absurd h List.not_mem_nil
        · exact ih (n / 10) (by omega) h
      · rw [List.mem_singleton.mp h, isDigit_iff, toNat_digit]
        omega

theorem digitsValue_concat (digits : List UInt8) (c : UInt8) :
    digitsValue (digits ++ [c]) = 10 * digitsValue digits + (c.toNat - 48) := by
  rw [digitsValue, List.foldl_append]
  rfl

/-- A numeral has the value that was printed. -/
theorem digitsValue_decimal (n : Nat) : digitsValue (decimal n) = n := by
  induction n using Nat.strongRecOn with
  | ind n ih =>
      rw [decimal_eq, digitsValue_concat, toNat_digit]
      split
      · show 10 * 0 + _ = n
        omega
      · rw [ih (n / 10) (by omega)]
        omega

theorem length_decimal_le {k : Nat} (hk : 0 < k) (h : n < 10 ^ k) : (decimal n).length ≤ k := by
  rw [decimal, List.length_map]
  exact (Nat.length_toDigits_le_iff (by decide) hk).mpr h

/-! ## Scanning -/

/-- A number in the range of `int` is stored as it is. -/
theorem toInt_of_lt (h : n < 2 ^ 31) : toInt n = n := by
  rw [toInt, min_eq_left (by omega), max_eq_right (by omega)]
  exact Int.bmod_eq_of_le (by omega) (by omega)

/-- What is stored is in that range. -/
theorem toInt_lt (i : Int) : toInt i < 2 ^ 31 := by
  rw [toInt]
  exact Int.bmod_lt (by decide)

theorem skipSpace_of_not_isSpace (h : isSpace c = false) (s : List UInt8) :
    skipSpace (c :: s) = c :: s := by
  rw [skipSpace, List.dropWhile_cons, h]
  rfl

theorem skipSpace_cons (h : isSpace c = true) (s : List UInt8) : skipSpace (c :: s) = skipSpace s := by
  rw [skipSpace, List.dropWhile_cons, h]
  rfl

/-- A text that starts with digits starts with the number they stand for. -/
theorem scanInt_append (hne : digits ≠ []) (hdigits : ∀ d ∈ digits, isDigit d = true)
    (hc : isDigit c = false) (s : List UInt8) :
    scanInt (digits ++ c :: s) = some (toInt (digitsValue digits), c :: s) := by
  have htake : (digits ++ c :: s).takeWhile isDigit = digits := by
    rw [List.takeWhile_append_of_pos hdigits, List.takeWhile_cons, hc]
    exact List.append_nil _
  have hdrop : (digits ++ c :: s).dropWhile isDigit = c :: s := by
    rw [List.dropWhile_append_of_pos hdigits, List.dropWhile_cons, hc]
    rfl
  obtain ⟨d, ds, rfl⟩ := List.exists_cons_of_ne_nil hne
  obtain ⟨hspace, hminus, hplus⟩ := ne_of_isDigit (hdigits d (List.mem_cons_self ..))
  rw [List.cons_append] at htake hdrop ⊢
  simp only [scanInt, skipSpace_of_not_isSpace hspace]
  split
  · next heq => exact absurd (List.cons_eq_cons.mp heq).1 hminus
  · next heq => exact absurd (List.cons_eq_cons.mp heq).1 hplus
  · simp only [htake, hdrop]
    rfl

/-- A word ends at a blank or at the end of the text. -/
theorem scanWord_append (hne : word ≠ []) (hword : ∀ d ∈ word, isSpace d = false)
    (hrest : ∀ d ∈ rest.head?, isSpace d = true) :
    scanWord (word ++ rest) = some word := by
  have hskip : skipSpace (word ++ rest) = word ++ rest := by
    obtain ⟨d, ds, rfl⟩ := List.exists_cons_of_ne_nil hne
    exact skipSpace_of_not_isSpace (hword d (List.mem_cons_self ..)) _
  have htake : (word ++ rest).takeWhile (fun d ↦ !isSpace d) = word := by
    rw [List.takeWhile_append_of_pos fun d hd ↦ by rw [hword d hd]; rfl]
    cases rest with
    | nil => exact List.append_nil _
    | cons d rest =>
        rw [List.takeWhile_cons, hrest d rfl]
        exact List.append_nil _
  rw [scanWord, hskip, htake]
  exact if_neg hne

/-- Blanks in front of it do not matter. -/
theorem scanWord_cons (h : isSpace c = true) (s : List UInt8) : scanWord (c :: s) = scanWord s := by
  rw [scanWord, scanWord, skipSpace_cons h]

/-- Blanks in front of a number do not matter. -/
theorem scanInt_cons (h : isSpace c = true) (s : List UInt8) : scanInt (c :: s) = scanInt s := by
  rw [scanInt, scanInt, skipSpace_cons h]

theorem scanWordMax_cons (h : isSpace c = true) (width : Nat) (s : List UInt8) :
    scanWordMax width (c :: s) = scanWordMax width s := by
  rw [scanWordMax, scanWordMax, skipSpace_cons h]

/-- A word that is not cut ends at a blank, or at the end of the text. -/
theorem scanWordMax_append {width : Nat} (hne : word ≠ []) (hword : ∀ d ∈ word, isSpace d = false)
    (hs : ∀ d ∈ s.head?, isSpace d = true) (hlen : word.length ≤ width) :
    scanWordMax width (word ++ s) = some (word, s) := by
  have hskip : skipSpace (word ++ s) = word ++ s := by
    obtain ⟨d, ds, rfl⟩ := List.exists_cons_of_ne_nil hne
    exact skipSpace_of_not_isSpace (hword d (List.mem_cons_self ..)) _
  have htake := scanWord_append hne hword hs
  rw [scanWord, hskip, Option.ite_none_left_eq_some, Option.some.injEq] at htake
  simp only [scanWordMax, hskip, htake.2, List.take_of_length_le hlen, if_neg hne, List.drop_left]

end Stdio
