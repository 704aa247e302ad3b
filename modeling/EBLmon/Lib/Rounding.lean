import Mathlib.Data.Rat.Floor
import Mathlib.Data.Int.Log
import Mathlib.Tactic.Linarith
import Mathlib.Tactic.Positivity
import Mathlib.Tactic.NormNum
import Mathlib.Tactic.Ring
import Mathlib.Tactic.FieldSimp

/-!
# Rounding of rational values

The value of a floating-point operation is the exact rational result, rounded
to the nearest value of the format, ties to even.  `Format.round` is that
rounding.  It works on `ℚ` and evaluates.  It has no upper limit on the
exponent, so it stands for a machine format as long as the values stay in its
range.

A format value below `x` stays below the rounded `x`, and the same from above
(`Format.le_round` and `Format.round_le`).  These two facts are all that
comparisons of a rounded value with format values need.  `KeepsIntegers` is
what is left of them for bounds by integers, and the rules of `Within` carry
such a bound through an expression, one operation at a time.

`roundAway` rounds to an integer, halves away from zero, as `roundf` does.
`roundAway_eq_iff` gives the interval of each result.
-/

namespace EBLmon.Rounding

/-! ## To the nearest integer, ties to even -/

/-- The nearest integer; the even one of two that are equally near. -/
def roundEven (x : ℚ) : ℤ :=
  if x - ⌊x⌋ < 1 / 2 then ⌊x⌋
  else if 1 / 2 < x - ⌊x⌋ then ⌊x⌋ + 1
  else if ⌊x⌋ % 2 = 0 then ⌊x⌋ else ⌊x⌋ + 1

theorem roundEven_eq_or (x : ℚ) :
    roundEven x = ⌊x⌋ ∨ (roundEven x = ⌊x⌋ + 1 ∧ 1 / 2 ≤ x - ⌊x⌋) := by
  unfold roundEven
  split
  · exact Or.inl rfl
  · rename_i hlow
    have hge : 1 / 2 ≤ x - ⌊x⌋ := not_lt.mp hlow
    split
    · exact Or.inr ⟨rfl, hge⟩
    · split
      · exact Or.inl rfl
      · exact Or.inr ⟨rfl, hge⟩

/-- An integer below `x` is below the rounded `x`. -/
theorem le_roundEven {k : ℤ} {x : ℚ} (h : (k : ℚ) ≤ x) : k ≤ roundEven x := by
  have hfloor : k ≤ ⌊x⌋ := Int.le_floor.mpr h
  rcases roundEven_eq_or x with heq | ⟨heq, _⟩ <;> omega

/-- An integer above `x` is above the rounded `x`. -/
theorem roundEven_le {k : ℤ} {x : ℚ} (h : x ≤ (k : ℚ)) : roundEven x ≤ k := by
  have hfloor : ⌊x⌋ ≤ k := by
    have := Int.floor_le x
    exact_mod_cast this.trans h
  rcases roundEven_eq_or x with heq | ⟨heq, hhalf⟩
  · omega
  · -- `x` is not an integer, so it lies strictly below `k`
    have hlt : (⌊x⌋ : ℚ) < k := by linarith
    have : ⌊x⌋ < k := by exact_mod_cast hlt
    omega

/-! ## To the nearest value of a format -/

/-- A binary format: the digits of the significand and the least exponent. -/
structure Format where
  digits : ℕ
  minExp : ℤ
  digits_pos : 0 < digits

namespace Format

variable (F : Format)

/-- The exponent of the last digit of `x`. -/
def exponent (x : ℚ) : ℤ := max (Int.log 2 |x| + 1 - F.digits) F.minExp

/-- The nearest value of the format. -/
def round (x : ℚ) : ℚ :=
  roundEven (x / 2 ^ F.exponent x) * 2 ^ F.exponent x

/-- A value of the format. -/
def Value (m : ℚ) : Prop :=
  ∃ k e : ℤ, F.minExp ≤ e ∧ |k| ≤ 2 ^ F.digits ∧ m = k * 2 ^ e

variable {F}

theorem two_zpow_pos (e : ℤ) : (0 : ℚ) < 2 ^ e := zpow_pos (by norm_num) e

theorem round_zero : F.round 0 = 0 := by
  have h : roundEven 0 = 0 := by decide +kernel
  rw [round, zero_div, h, Int.cast_zero, zero_mul]

/-- A multiple of the last digit of `x` that is below `x`. -/
theorem le_round_of_grid {k : ℤ} {x : ℚ}
    (h : (k : ℚ) * 2 ^ F.exponent x ≤ x) :
    (k : ℚ) * 2 ^ F.exponent x ≤ F.round x := by
  have hpos := two_zpow_pos (F.exponent x)
  have hk : k ≤ roundEven (x / 2 ^ F.exponent x) :=
    le_roundEven ((le_div_iff₀ hpos).mpr h)
  unfold round
  exact mul_le_mul_of_nonneg_right (by exact_mod_cast hk) hpos.le

theorem round_le_of_grid {k : ℤ} {x : ℚ}
    (h : x ≤ (k : ℚ) * 2 ^ F.exponent x) :
    F.round x ≤ (k : ℚ) * 2 ^ F.exponent x := by
  have hpos := two_zpow_pos (F.exponent x)
  have hk : roundEven (x / 2 ^ F.exponent x) ≤ k :=
    roundEven_le ((div_le_iff₀ hpos).mpr h)
  unfold round
  exact mul_le_mul_of_nonneg_right (by exact_mod_cast hk) hpos.le

/-- A value whose last digit is the larger one is a multiple of the smaller
one. -/
theorem exists_grid (k : ℤ) {e f : ℤ} (h : f ≤ e) :
    ∃ n : ℤ, (k : ℚ) * 2 ^ e = n * 2 ^ f := by
  obtain ⟨j, hj⟩ := Int.le.dest h
  refine ⟨k * 2 ^ j, ?_⟩
  rw [← hj, zpow_add₀ (by norm_num), zpow_natCast]
  push_cast
  ring

/-- Above the least exponent `x` has a full significand. -/
theorem pow_le_of_minExp_lt {x : ℚ} (hx : 0 < x)
    (h : F.minExp < F.exponent x) :
    (2 : ℚ) ^ (F.exponent x + F.digits - 1) ≤ x := by
  have hexp : F.exponent x + F.digits - 1 = Int.log 2 x := by
    unfold exponent at h ⊢
    rw [abs_of_pos hx] at h ⊢
    omega
  rw [hexp]
  exact_mod_cast Int.zpow_log_le_self (by norm_num) hx

/-- A format value with a smaller last digit than `x` is at most the least
number with the last digit of `x`. -/
theorem Value.le_pow {k e f : ℤ} (hk : |k| ≤ 2 ^ F.digits) (h : e < f) :
    (k : ℚ) * 2 ^ e ≤ 2 ^ (f + F.digits - 1) := by
  have hk' : (k : ℚ) ≤ 2 ^ (F.digits : ℤ) := by
    rw [zpow_natCast]
    exact_mod_cast (le_abs_self k).trans hk
  calc (k : ℚ) * 2 ^ e ≤ 2 ^ (F.digits : ℤ) * 2 ^ e :=
        mul_le_mul_of_nonneg_right hk' (two_zpow_pos e).le
    _ = 2 ^ ((F.digits : ℤ) + e) := (zpow_add₀ (by norm_num) _ _).symm
    _ ≤ 2 ^ (f + F.digits - 1) :=
        zpow_le_zpow_right₀ (by norm_num) (by omega)

/-- The least number with the last digit of `x` is a multiple of it. -/
theorem pow_eq_grid (F : Format) (f : ℤ) :
    (2 : ℚ) ^ (f + F.digits - 1)
      = ((2 ^ (F.digits - 1) : ℤ) : ℚ) * 2 ^ f := by
  have hdigits := F.digits_pos
  push_cast
  rw [← zpow_natCast, ← zpow_add₀ (by norm_num)]
  congr 1
  omega

/-- A format value below `x` is below the rounded `x`. -/
theorem le_round {m x : ℚ} (hm : F.Value m) (hx : 0 ≤ x) (h : m ≤ x) :
    m ≤ F.round x := by
  obtain ⟨k, e, hmin, hk, rfl⟩ := hm
  rcases hx.eq_or_lt with rfl | hpos
  · rw [round_zero]
    exact h
  · rcases le_or_gt (F.exponent x) e with hle | hlt
    · obtain ⟨n, hn⟩ := exists_grid k hle
      rw [hn] at h ⊢
      exact le_round_of_grid h
    · -- the least number with the last digit of `x` is in between
      have hgt : F.minExp < F.exponent x := by omega
      have hfull := pow_le_of_minExp_lt hpos hgt
      apply (Value.le_pow hk hlt).trans
      rw [pow_eq_grid] at hfull ⊢
      exact le_round_of_grid hfull

/-- A format value above `x` is above the rounded `x`. -/
theorem round_le {m x : ℚ} (hm : F.Value m) (hx : 0 ≤ x) (h : x ≤ m) :
    F.round x ≤ m := by
  obtain ⟨k, e, hmin, hk, rfl⟩ := hm
  rcases hx.eq_or_lt with rfl | hpos
  · rw [round_zero]
    exact h
  · rcases le_or_gt (F.exponent x) e with hle | hlt
    · obtain ⟨n, hn⟩ := exists_grid k hle
      rw [hn] at h ⊢
      exact round_le_of_grid h
    · -- then `x` is the least number with its last digit
      have hgt : F.minExp < F.exponent x := by omega
      have hfull := pow_le_of_minExp_lt hpos hgt
      have hle := Value.le_pow hk hlt
      have hx' : x ≤ 2 ^ (F.exponent x + F.digits - 1) := h.trans hle
      rw [pow_eq_grid] at hfull hx'
      exact (round_le_of_grid hx').trans (hfull.trans h)

/-- A format value is its own rounding. -/
theorem round_value {m : ℚ} (hm : F.Value m) (hpos : 0 ≤ m) :
    F.round m = m :=
  le_antisymm (round_le hm hpos (le_refl m)) (le_round hm hpos (le_refl m))

theorem round_nonneg {x : ℚ} (hx : 0 ≤ x) : 0 ≤ F.round x :=
  le_round ⟨0, F.minExp, le_refl _, by simp, by simp⟩ hx hx

theorem round_nonpos {x : ℚ} (hx : x ≤ 0) : F.round x ≤ 0 := by
  have hgrid : x ≤ ((0 : ℤ) : ℚ) * 2 ^ F.exponent x := by simpa using hx
  simpa using round_le_of_grid hgrid

end Format

/-- IEEE 754 single precision. -/
def binary32 : Format where
  digits := 24
  minExp := -149
  digits_pos := by decide

/-- The rounding of a `float` operation. -/
def float32 (x : ℚ) : ℚ := binary32.round x

theorem value_natCast {n : ℕ} (h : n ≤ 16777216) : binary32.Value n := by
  refine ⟨n, 0, by decide, ?_, by simp⟩
  rw [abs_of_nonneg (by positivity)]
  exact_mod_cast h

theorem float32_natCast {n : ℕ} (h : n ≤ 16777216) : float32 n = n :=
  Format.round_value (value_natCast h) (by positivity)

/-! ## Bounds through roundings -/

/-- A rounding that does not carry a value past an integer.  Single precision
does not as long as the integer has 24 bits, and neither does exact
arithmetic. -/
structure KeepsIntegers (rnd : ℚ → ℚ) : Prop where
  le : ∀ {x : ℚ} {n : ℕ}, n ≤ 16777216 → x ≤ n → rnd x ≤ n
  ge : ∀ {x : ℚ} {n : ℕ}, n ≤ 16777216 → (n : ℚ) ≤ x → (n : ℚ) ≤ rnd x

theorem keepsIntegers_id : KeepsIntegers id :=
  ⟨fun _ h => h, fun _ h => h⟩

theorem keepsIntegers_float32 : KeepsIntegers float32 where
  le := by
    intro x n hn hx
    rcases le_or_gt 0 x with hpos | hneg
    · exact Format.round_le (value_natCast hn) hpos hx
    · have hzero : float32 x ≤ 0 := Format.round_nonpos hneg.le
      exact hzero.trans (by positivity)
  ge := by
    intro x n hn hx
    have hpos : 0 ≤ x := le_trans (by positivity) hx
    exact Format.le_round (value_natCast hn) hpos hx

/-- A value between zero and an integer. -/
structure Within (x : ℚ) (n : ℕ) : Prop where
  nonneg : 0 ≤ x
  le : x ≤ n

namespace Within

variable {x y : ℚ} {n m : ℕ}

theorem natCast (h : n ≤ m) : Within n m :=
  ⟨by positivity, by exact_mod_cast h⟩

/-- A rounding stays within. -/
theorem round {rnd : ℚ → ℚ} (hrnd : KeepsIntegers rnd) (hn : n ≤ 16777216)
    (h : Within x n) : Within (rnd x) n := by
  refine ⟨?_, hrnd.le hn h.le⟩
  have hzero := hrnd.ge (n := 0) (by decide) (by simpa using h.nonneg)
  simpa using hzero

theorem add (hx : Within x n) (hy : Within y m) : Within (x + y) (n + m) := by
  refine ⟨add_nonneg hx.nonneg hy.nonneg, ?_⟩
  rw [Nat.cast_add]
  exact add_le_add hx.le hy.le

theorem mul (hx : Within x n) (hy : Within y m) : Within (x * y) (n * m) := by
  refine ⟨mul_nonneg hx.nonneg hy.nonneg, ?_⟩
  rw [Nat.cast_mul]
  exact mul_le_mul hx.le hy.le hy.nonneg (by positivity)

/-- A divisor that is at least `k` makes the bound `k` times smaller. -/
theorem div {k : ℕ} (hx : Within x n) (hk : 0 < k) (hy : (k : ℚ) ≤ y)
    (hn : n ≤ m * k) : Within (x / y) m := by
  have hkpos : (0 : ℚ) < k := by exact_mod_cast hk
  have hypos : 0 < y := hkpos.trans_le hy
  refine ⟨div_nonneg hx.nonneg hypos.le, ?_⟩
  have hn' : (n : ℚ) ≤ m * k := by exact_mod_cast hn
  rw [div_le_iff₀ hypos]
  calc x ≤ n := hx.le
    _ ≤ m * k := hn'
    _ ≤ m * y := mul_le_mul_of_nonneg_left hy (by positivity)

end Within

/-! ## To an integer, halves away from zero -/

/-- `roundf` -/
def roundAway (x : ℚ) : ℤ :=
  if 0 ≤ x then ⌊x + 1 / 2⌋ else -⌊-x + 1 / 2⌋

theorem roundAway_eq_iff {x : ℚ} (hx : 0 ≤ x) {r : ℤ} :
    roundAway x = r ↔ (r : ℚ) - 1 / 2 ≤ x ∧ x < r + 1 / 2 := by
  rw [roundAway, if_pos hx, Int.floor_eq_iff]
  constructor
  · rintro ⟨h1, h2⟩
    exact ⟨by linarith, by linarith⟩
  · rintro ⟨h1, h2⟩
    exact ⟨by linarith, by linarith⟩

theorem roundAway_le_iff {x : ℚ} (hx : 0 ≤ x) {r : ℤ} :
    roundAway x ≤ r ↔ x < r + 1 / 2 := by
  rw [roundAway, if_pos hx, ← Int.lt_add_one_iff, Int.floor_lt]
  push_cast
  constructor <;> intro h <;> linarith

theorem lt_roundAway_iff {x : ℚ} (hx : 0 ≤ x) {r : ℤ} :
    r < roundAway x ↔ r + 1 / 2 ≤ x := by
  rw [← not_le, roundAway_le_iff hx, not_lt]

theorem roundAway_nonneg {x : ℚ} (hx : 0 ≤ x) : 0 ≤ roundAway x := by
  rw [roundAway, if_pos hx]
  exact Int.floor_nonneg.mpr (by linarith)

end EBLmon.Rounding
