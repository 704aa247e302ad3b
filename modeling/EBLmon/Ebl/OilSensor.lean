import EBLmon.Lib.Rounding

/-!
# The oil pressure sensor

`oilLaw` is the law of the 100 psi sensor, stated over the raw counts: nothing
up to 102 counts, 100 psi from 921 counts on, and a straight line in between.

`oilReading` is what `oil_pressure` makes of the counts that it divides, in
`float`.  The quotient is compared with half-integers, which are `float`
values, so the comparison of the rounded quotient comes down to one of
integers.  The reading misses the law at 614 counts, where the law is 62.5 psi
exactly and goes up, while the `float` quotient comes out just below.
-/

namespace EBLmon.Ebl

open Rounding

/-! ## The law of the oil pressure sensor -/

/-- The reading of the sensor for raw counts `n`: 100 psi over the counts 102
to 921, and no reading outside. -/
def oilLaw (n : ℕ) : ℤ :=
  roundAway (((min (max n 102) 921 - 102 : ℕ) : ℚ) / (8192 / 1000))

/-- In integers: one psi is `1024 / 125` counts. -/
theorem oilLaw_eq (n : ℕ) : oilLaw n
    = ((125 * (min (max n 102) 921 - 102) + 512) / 1024 : ℕ) := by
  unfold oilLaw
  generalize min (max n 102) 921 - 102 = m
  generalize hr : (125 * m + 512) / 1024 = r
  have hle : 1024 * r ≤ 125 * m + 512 := by omega
  have hlt : 125 * m + 512 < 1024 * r + 1024 := by omega
  have hle' : (1024 * r : ℚ) ≤ 125 * m + 512 := by exact_mod_cast hle
  have hlt' : (125 * m + 512 : ℚ) < 1024 * r + 1024 := by exact_mod_cast hlt
  rw [roundAway_eq_iff (by positivity), Int.cast_natCast]
  exact ⟨by linarith, by linarith⟩

theorem oilLaw_mono {n m : ℕ} (h : n ≤ m) : oilLaw n ≤ oilLaw m := by
  rw [oilLaw_eq, oilLaw_eq]
  omega

theorem oilLaw_eq_zero {n : ℕ} (h : n ≤ 102) : oilLaw n = 0 := by
  rw [oilLaw_eq]
  omega

theorem oilLaw_le (n : ℕ) : oilLaw n ≤ 100 := by
  rw [oilLaw_eq]
  omega

/-! ## The `float` quotient -/

/-- The constant `8.192F`. -/
theorem float32_slope : float32 (8192 / 1000) = 8589935 / 1048576 := by
  decide +kernel

/-- The pressure for `c` counts above the offset, before `roundf`. -/
def oilQuotient (c : ℕ) : ℚ := float32 (float32 c / float32 (8192 / 1000))

/-- The reading for `c` counts above the offset. -/
def oilReading (c : ℕ) : ℤ := roundAway (oilQuotient c)

theorem oilQuotient_eq {c : ℕ} (h : c ≤ 65535) :
    oilQuotient c = float32 (c * 1048576 / 8589935) := by
  unfold oilQuotient
  rw [float32_natCast (by omega), float32_slope, div_div_eq_mul_div]

theorem oilQuotient_nonneg {c : ℕ} (h : c ≤ 65535) : 0 ≤ oilQuotient c := by
  rw [oilQuotient_eq h]
  exact Format.round_nonneg (by positivity)

/-- A half-integer, as a reading is compared with it from below. -/
theorem value_half {r : ℕ} (h : r ≤ 8000) : binary32.Value (r + 1 / 2) := by
  refine ⟨2 * r + 1, -1, by decide, ?_, ?_⟩
  · rw [abs_of_nonneg (by positivity)]
    show (2 * r + 1 : ℤ) ≤ 2 ^ 24
    omega
  · push_cast
    ring

/-- The last `float` below a half-integer. -/
theorem value_below_half {r : ℕ} (h : r ≤ 127) :
    binary32.Value (r + 1 / 2 - 1 / 131072) := by
  refine ⟨131072 * r + 65535, -17, by decide, ?_, ?_⟩
  · rw [abs_of_nonneg (by positivity)]
    show (131072 * r + 65535 : ℤ) ≤ 2 ^ 24
    omega
  · push_cast
    ring

/-- A quotient from half a psi below `r + 1` on is read as `r + 1` or more. -/
theorem lt_oilReading {c r : ℕ} (hc : c ≤ 65535) (hr : r ≤ 8000)
    (h : (2 * r + 1) * 8589935 ≤ 2097152 * c) : (r : ℤ) < oilReading c := by
  have h' : ((2 * r + 1) * 8589935 : ℚ) ≤ 2097152 * c := by exact_mod_cast h
  unfold oilReading
  rw [lt_roundAway_iff (oilQuotient_nonneg hc), oilQuotient_eq hc]
  apply Format.le_round (value_half hr) (by positivity)
  linarith

/-- A quotient that stays one `float` below `r` and a half is read as `r` or
less. -/
theorem oilReading_le {c r : ℕ} (hc : c ≤ 65535) (hr : r ≤ 127)
    (h : 137438953472 * c ≤ (131072 * r + 65535) * 8589935) :
    oilReading c ≤ r := by
  have h' : (137438953472 * c : ℚ) ≤ (131072 * r + 65535) * 8589935 := by
    exact_mod_cast h
  have hle : oilQuotient c ≤ r + 1 / 2 - 1 / 131072 := by
    rw [oilQuotient_eq hc]
    apply Format.round_le (value_below_half hr) (by positivity)
    linarith
  unfold oilReading
  rw [roundAway_le_iff (oilQuotient_nonneg hc), Int.cast_natCast]
  linarith

theorem oilReading_nonneg {c : ℕ} (hc : c ≤ 65535) : 0 ≤ oilReading c :=
  roundAway_nonneg (oilQuotient_nonneg hc)

/-- No 16-bit word reads more than 8000 psi. -/
theorem oilReading_le_max {c : ℕ} (hc : c ≤ 65535) : oilReading c ≤ 8001 := by
  have hc' : (c : ℚ) ≤ 65535 := by exact_mod_cast hc
  have hle : oilQuotient c ≤ (8000 : ℕ) + 1 / 2 := by
    rw [oilQuotient_eq hc]
    apply Format.round_le (value_half (le_refl 8000)) (by positivity)
    push_cast
    linarith
  unfold oilReading
  rw [roundAway_le_iff (oilQuotient_nonneg hc)]
  push_cast at hle ⊢
  linarith

/-! ## The reading against the law -/

/-- The counts for which the reading is the one of the law. -/
def OilInRange (n : ℕ) : Prop := n ≤ 4 ∨ (103 ≤ n ∧ n ≤ 925 ∧ n ≠ 614)

/-- Behind the offset: the law is kept up to 925 counts, apart from 614. -/
theorem oilReading_sub_iff {n : ℕ} (hlo : 102 < n) (hhi : n ≤ 65535) :
    oilReading (n - 102) = oilLaw n ↔ n ≤ 925 ∧ n ≠ 614 := by
  obtain ⟨c, rfl⟩ : ∃ c, n = c + 102 := ⟨n - 102, by omega⟩
  have hclamp : min (max (c + 102) 102) 921 - 102 = min c 819 := by omega
  rw [Nat.add_sub_cancel, oilLaw_eq, hclamp]
  generalize hr : (125 * min c 819 + 512) / 1024 = r
  have hr100 : r ≤ 100 := by omega
  constructor
  · intro heq
    by_contra hout
    rcases (by omega : c = 512 ∨ 824 ≤ c) with rfl | hbig
    · have h62 : oilReading 512 = 62 := by decide +kernel
      omega
    · have := lt_oilReading (c := c) (r := 100) (by omega) (by omega) (by omega)
      omega
  · rintro ⟨hle, hne⟩
    refine le_antisymm (oilReading_le (by omega) (by omega) (by omega)) ?_
    cases r with
    | zero => exact oilReading_nonneg (by omega)
    | succ r =>
      -- only 512 counts lie on a half-integer of the law
      have hoff : 1024 * (r + 1) ≤ 125 * c + 511 := by omega
      have := lt_oilReading (c := c) (r := r) (by omega) (by omega) (by omega)
      push_cast
      omega

/-- Up to the offset: nothing is subtracted, and five counts already read as
one psi. -/
theorem oilReading_iff {n : ℕ} (h : n ≤ 102) :
    oilReading n = oilLaw n ↔ n ≤ 4 := by
  rw [oilLaw_eq_zero h]
  constructor
  · intro heq
    by_contra hout
    have := lt_oilReading (c := n) (r := 0) (by omega) (by omega) (by omega)
    omega
  · intro hle
    have h0 := oilReading_le (c := n) (r := 0) (by omega) (by omega) (by omega)
    exact le_antisymm h0 (oilReading_nonneg (by omega))

end EBLmon.Ebl
