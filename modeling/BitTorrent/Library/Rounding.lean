import Mathlib.Algebra.Order.Field.Basic
import Mathlib.Algebra.Order.Floor.Ring
import Mathlib.Algebra.Order.Field.Power
import Mathlib.Data.Int.Log
import Mathlib.Tactic.FieldSimp
import Mathlib.Tactic.Linarith
import Mathlib.Tactic.NormNum
import Mathlib.Tactic.Ring

/-!
# Rounding to a number of binary digits

A function that gives for each argument one of the nearest values of a set is
monotone and leaves that set alone; which of two nearest values it gives does not
matter.  `round p` is such a function for the values of at most `p` binary digits:
what a floating-point format with a precision of `p` makes of exact results, as
long as they stay within the range of its exponents.
-/

universe u

namespace Rounding

/-! ## Binary digits -/

section Digits

variable {K : Type u} [Field K] {p : ℕ}

/-- The values of at most `p` binary digits. -/
def Digits (K : Type u) [Field K] (p : ℕ) : Set K := {x | ∃ m e : ℤ, |m| ≤ 2 ^ p ∧ x = m * 2 ^ e}

theorem natCast_mem_digits {n : ℕ} (h : n ≤ 2 ^ p) : (n : K) ∈ Digits K p := by
  refine ⟨n, 0, ?_, ?_⟩
  · rw [Nat.abs_cast]
    exact_mod_cast h
  · rw [zpow_zero, mul_one, Int.cast_natCast]

/-- Dividing by two moves the point. -/
theorem half_mem_digits [CharZero K] {x : K} (h : x ∈ Digits K p) : x / 2 ∈ Digits K p := by
  obtain ⟨m, e, hm, rfl⟩ := h
  refine ⟨m, e - 1, hm, ?_⟩
  rw [zpow_sub_one₀ two_ne_zero, mul_div_assoc, div_eq_mul_inv]

end Digits

variable {K : Type u} [Field K] [LinearOrder K] [IsStrictOrderedRing K] {p : ℕ}

/-! ## Nearest values -/

/-- All values are in the set, and no element of the set is nearer. -/
structure Nearest (R : Set K) (rnd : K → K) : Prop where
  mem : ∀ x, rnd x ∈ R
  nearest : ∀ x, ∀ w ∈ R, |x - rnd x| ≤ |x - w|

namespace Nearest

variable {R : Set K} {rnd : K → K} {x y w : K}

theorem eq_self (h : Nearest R rnd) (hx : x ∈ R) : rnd x = x := by
  have hle := h.nearest x x hx
  rw [sub_self, abs_zero] at hle
  exact (sub_eq_zero.mp (abs_nonpos_iff.mp hle)).symm

/-- An argument at least as near to a value as to a smaller one is above their middle. -/
theorem add_le_of_abs_le {v w : K} (hlt : w < v) (h : |x - v| ≤ |x - w|) : v + w ≤ 2 * x := by
  rw [← sq_le_sq] at h
  have hmul : (v - w) * (v + w) ≤ (v - w) * (2 * x) := by linarith
  exact le_of_mul_le_mul_left hmul (sub_pos.mpr hlt)

/-- An argument at least as near to a value as to a greater one is below their middle. -/
theorem le_add_of_abs_le {v w : K} (hlt : v < w) (h : |x - v| ≤ |x - w|) : 2 * x ≤ v + w := by
  rw [← sq_le_sq] at h
  have hmul : (w - v) * (2 * x) ≤ (w - v) * (v + w) := by linarith
  exact le_of_mul_le_mul_left hmul (sub_pos.mpr hlt)

/-- Were the value of the smaller argument the greater one, both arguments would be in
the middle between the values. -/
theorem mono (h : Nearest R rnd) : Monotone rnd := by
  intro x y hxy
  by_contra hgt
  have hlt := lt_of_not_ge hgt
  have hx := add_le_of_abs_le hlt (h.nearest x _ (h.mem y))
  have hy := le_add_of_abs_le hlt (h.nearest y _ (h.mem x))
  have heq : x = y := by linarith
  exact hgt (heq ▸ le_refl _)

theorem le_of_le (h : Nearest R rnd) (hw : w ∈ R) (hx : x ≤ w) : rnd x ≤ w :=
  (h.mono hx).trans_eq (h.eq_self hw)

theorem le_of_ge (h : Nearest R rnd) (hw : w ∈ R) (hx : w ≤ x) : w ≤ rnd x :=
  (h.eq_self hw).symm.trans_le (h.mono hx)

end Nearest

/-! ## Whole numbers -/

variable [FloorRing K]

/-- The nearest whole number, the even one if there are two. -/
def toEven (x : K) : ℤ :=
  let k := ⌊x⌋
  if x - k < 1 / 2 then k else if 1 / 2 < x - k then k + 1 else k + k % 2

theorem abs_sub_toEven_le (x : K) : |x - toEven x| ≤ 1 / 2 := by
  have hlow := Int.floor_le x
  have hhigh := Int.lt_floor_add_one x
  rw [toEven]
  split
  · next hbelow => rw [abs_of_nonneg (sub_nonneg.mpr hlow)]; exact hbelow.le
  · split
    · next habove =>
      push_cast
      rw [abs_of_nonpos (by linarith)]
      linarith
    · next hbelow habove =>
      have hmid : x - ⌊x⌋ = 1 / 2 := le_antisymm (le_of_not_gt habove) (le_of_not_gt hbelow)
      rcases Int.emod_two_eq_zero_or_one ⌊x⌋ with heven | hodd
      · rw [heven, add_zero, hmid, abs_of_pos one_half_pos]
      · rw [hodd]
        push_cast
        rw [abs_of_nonpos (by linarith)]
        linarith

/-- It is one of the nearest. -/
theorem nearest_toEven : Nearest (Set.range ((↑) : ℤ → K)) fun x ↦ (toEven x : K) where
  mem x := ⟨toEven x, rfl⟩
  nearest := by
    rintro x _ ⟨k, rfl⟩
    by_cases hk : toEven x = k
    · rw [hk]
    · have hone : (1 : K) ≤ |(k : K) - toEven x| := by
        rw [← Int.cast_sub, ← Int.cast_abs, ← Int.cast_one, Int.cast_le]
        exact Int.one_le_abs (sub_ne_zero.mpr (Ne.symm hk))
      have htriangle := abs_sub_le (k : K) x (toEven x)
      have hhalf := abs_sub_toEven_le x
      rw [abs_sub_comm (k : K) x] at htriangle
      linarith

theorem abs_toEven_le {x : K} {k : ℤ} (h : |x| ≤ k) : |(toEven x : K)| ≤ k := by
  obtain ⟨hlow, hhigh⟩ := abs_le.mp h
  refine abs_le.mpr ⟨nearest_toEven.le_of_ge ⟨-k, Int.cast_neg k⟩ hlow, ?_⟩
  exact nearest_toEven.le_of_le ⟨k, rfl⟩ hhigh

/-! ## Rounding -/

/-- The unit in the last of `p` places. -/
def unit (p : ℕ) (x : K) : K := 2 ^ (Int.log 2 |x| + 1 - p)

/-- The nearest value of `p` binary digits, in the middle the one whose last digit is even. -/
def round (p : ℕ) (x : K) : K := toEven (x / unit p x) * unit p x

variable {x : K}

/-- A rounded multiple of a power of two that is large enough. -/
theorem toEven_mul_mem_digits {e : ℤ} (h : |x| ≤ 2 ^ (e + p)) :
    (toEven (x / 2 ^ e) * 2 ^ e : K) ∈ Digits K p := by
  refine ⟨_, e, ?_, rfl⟩
  have hpos : (0 : K) < 2 ^ e := zpow_pos two_pos e
  have hquot : |x / 2 ^ e| ≤ ((2 ^ p : ℤ) : K) := by
    rw [abs_div, abs_of_pos hpos, div_le_iff₀ hpos]
    rw [zpow_add₀ two_ne_zero, zpow_natCast, mul_comm] at h
    exact_mod_cast h
  exact_mod_cast abs_toEven_le hquot

/-- The error is half of the power of two at most. -/
theorem abs_sub_toEven_mul_le (e : ℤ) (x : K) : |x - toEven (x / 2 ^ e) * 2 ^ e| ≤ 2 ^ e / 2 := by
  have hpos : (0 : K) < 2 ^ e := zpow_pos two_pos e
  have hscale : x - toEven (x / 2 ^ e) * 2 ^ e = (x / 2 ^ e - toEven (x / 2 ^ e)) * 2 ^ e := by
    rw [sub_mul, div_mul_cancel₀ x hpos.ne']
  have hhalf := mul_le_mul_of_nonneg_right (abs_sub_toEven_le (x / 2 ^ e)) hpos.le
  rw [hscale, abs_mul, abs_of_pos hpos]
  linarith

/-- No multiple of the power of two is nearer. -/
theorem abs_sub_toEven_mul_le_abs_sub (e k : ℤ) (x : K) :
    |x - toEven (x / 2 ^ e) * 2 ^ e| ≤ |x - k * 2 ^ e| := by
  have hpos : (0 : K) < 2 ^ e := zpow_pos two_pos e
  have hscale : ∀ y : K, |x - y * 2 ^ e| = |x / 2 ^ e - y| * 2 ^ e := by
    intro y
    rw [← abs_of_pos hpos, ← abs_mul, abs_of_pos hpos, sub_mul, div_mul_cancel₀ x hpos.ne']
  rw [hscale, hscale]
  exact mul_le_mul_of_nonneg_right (nearest_toEven.nearest _ _ ⟨k, rfl⟩) hpos.le

theorem round_mem_digits (p : ℕ) (x : K) : round p x ∈ Digits K p := by
  refine toEven_mul_mem_digits ?_
  rw [sub_add_cancel]
  exact (Int.lt_zpow_succ_log_self one_lt_two |x|).le

/-- The power of two below `x` is a multiple of the unit. -/
theorem abs_sub_round_le (hp : 0 < p) (hx : x ≠ 0) :
    |x - round p x| ≤ |x| - 2 ^ Int.log 2 |x| := by
  have hlow : (2 : K) ^ Int.log 2 |x| ≤ |x| :=
    Int.zpow_log_le_self one_lt_two (abs_pos.mpr hx)
  have hmul : ((2 ^ (p - 1) : ℤ) : K) * 2 ^ (Int.log 2 |x| + 1 - p) = 2 ^ Int.log 2 |x| := by
    rw [Int.cast_pow, Int.cast_ofNat, ← zpow_natCast, ← zpow_add₀ two_ne_zero]
    congr 1
    omega
  have hnear := fun k ↦ abs_sub_toEven_mul_le_abs_sub (Int.log 2 |x| + 1 - p) k x
  rw [round, unit]
  generalize (2 : K) ^ Int.log 2 |x| = below at hlow hmul
  rcases le_total 0 x with hpos | hneg
  · refine (hnear (2 ^ (p - 1))).trans_eq ?_
    rw [hmul]
    rw [abs_of_nonneg hpos] at hlow ⊢
    exact abs_of_nonneg (sub_nonneg.mpr hlow)
  · refine (hnear (-2 ^ (p - 1))).trans_eq ?_
    rw [Int.cast_neg, neg_mul, hmul]
    rw [abs_of_nonpos hneg] at hlow ⊢
    rw [abs_of_nonpos (by linarith)]
    ring

@[simp] theorem round_zero (p : ℕ) : round p (0 : K) = 0 := by
  have hzero : (toEven (0 : K) : K) = 0 := nearest_toEven.eq_self ⟨0, Int.cast_zero⟩
  rw [round, zero_div, hzero, zero_mul]

/-- A value with coarser digits is not beyond the power of two below `x`. -/
theorem nearest_round (hp : 0 < p) : Nearest (Digits K p) (round p) where
  mem := round_mem_digits p
  nearest := by
    rintro x _ ⟨m, f, hm, rfl⟩
    by_cases hx : x = 0
    · rw [hx, round_zero, sub_zero, abs_zero]
      exact abs_nonneg _
    rcases le_or_gt (Int.log 2 |x| + 1 - p) f with hfine | hcoarse
    · obtain ⟨n, hn⟩ := Int.eq_ofNat_of_zero_le (sub_nonneg.mpr hfine)
      have hmul : (m : K) * 2 ^ f = ((m * 2 ^ n : ℤ) : K) * 2 ^ (Int.log 2 |x| + 1 - p) := by
        rw [Int.cast_mul, Int.cast_pow, Int.cast_ofNat, mul_assoc, ← zpow_natCast, ← hn,
          ← zpow_add₀ two_ne_zero, sub_add_cancel]
      rw [hmul]
      exact abs_sub_toEven_mul_le_abs_sub _ _ x
    · have hm' : |(m : K)| ≤ 2 ^ p := by exact_mod_cast hm
      have hw : |(m : K) * 2 ^ f| ≤ 2 ^ Int.log 2 |x| := by
        have hpos : (0 : K) < 2 ^ f := zpow_pos two_pos f
        rw [abs_mul, abs_of_pos hpos]
        calc |(m : K)| * 2 ^ f ≤ 2 ^ p * 2 ^ f := mul_le_mul_of_nonneg_right hm' hpos.le
          _ = 2 ^ (p + f) := by rw [zpow_add₀ two_ne_zero, zpow_natCast]
          _ ≤ 2 ^ Int.log 2 |x| := zpow_le_zpow_right₀ one_le_two (by omega)
      have hback := abs_sub_abs_le_abs_sub x (m * 2 ^ f)
      have hround := abs_sub_round_le hp hx
      linarith

/-- The error of an argument below a power of two. -/
theorem abs_sub_round_le_of_le (hp : 0 < p) {e : ℤ} (h : |x| ≤ 2 ^ (e + p)) :
    |x - round p x| ≤ 2 ^ e / 2 :=
  ((nearest_round hp).nearest x _ (toEven_mul_mem_digits h)).trans (abs_sub_toEven_mul_le e x)

end Rounding
