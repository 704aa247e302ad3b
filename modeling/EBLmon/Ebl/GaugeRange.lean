import EBLmon.Ebl.Gauges

/-!
# The range of the gauge readings

A bound for each accessor, over every content of the arrays.  The ADC words
are taken as they stand, so all 16 bits count.

The three accessors that compute in `float` are bounded for every rounding
that keeps the integers in order (`KeepsIntegers`), exact arithmetic among
them.  Each bound follows the operations of the source: an operand between two
integers gives a result between two integers.
-/

namespace EBLmon.Ebl

open Rounding

/-! ## The integer readings -/

section Readings

variable (d : Decoder)

theorem engineSpeed_le : (engineSpeed d).toNat ≤ 7968 := by
  have hb := UInt8.toNat_lt d.eblMem[0xf3]
  unfold engineSpeed
  rw [UInt32.toNat_add, UInt32.toNat_mul, UInt8.toNat_toUInt32,
    UInt8.toNat_toUInt32, UInt8.toNat_div, show (31 : UInt32).toNat = 31 from rfl,
    show (4 : UInt8).toNat = 4 from rfl]
  generalize (d.eblMem[0xf3]).toNat = b at hb ⊢
  have hproduct : b * 31 % 2 ^ 32 = b * 31 := Nat.mod_eq_of_lt (by omega)
  have hsum : (b * 31 + b / 4) % 2 ^ 32 = b * 31 + b / 4 :=
    Nat.mod_eq_of_lt (by omega)
  rw [hproduct, hsum]
  omega

theorem groundSpeed_le : (groundSpeed d).toNat ≤ 255 := by
  have hb := UInt8.toNat_lt d.eblMem[0x34]
  unfold groundSpeed
  rw [UInt8.toNat_toUInt32]
  omega

theorem voltage_le : (voltage d).toNat ≤ 255 := by
  have hb := UInt8.toNat_lt d.eblMem[0x45]
  unfold voltage
  rw [UInt8.toNat_toUInt32]
  omega

end Readings

/-! ## The readings computed in `float` -/

/-- A value up to the integer `n` is read as `n` or less. -/
theorem toUnsigned_roundAway_le {x : ℚ} {n : ℕ} (hx : Within x n)
    (hn : n < 4294967296) : (toUnsigned (roundAway x)).toNat ≤ n := by
  have hle : roundAway x ≤ n := by
    have := hx.le
    rw [roundAway_le_iff hx.nonneg, Int.cast_natCast]
    linarith
  rw [toUnsigned_toNat (by omega)]
  omega

section Float

variable {rnd : ℚ → ℚ}

theorem oilPressure_le (hrnd : KeepsIntegers rnd) (d : Decoder) :
    (oilPressure rnd d).toNat ≤ 8192 := by
  have hword := UInt16.toNat_lt d.eblAdc[2]
  have hcounts := oilOffset_le (show (d.eblAdc[2]).toNat ≤ 65535 by omega)
  unfold oilPressure
  dsimp only
  rw [oilOffset_toNat, UInt16.toNat_toUInt32]
  generalize oilOffset (d.eblAdc[2]).toNat = counts at hcounts ⊢
  have hnum : Within (rnd counts) 65535 :=
    (Within.natCast hcounts).round hrnd (by decide)
  have hden : ((8 : ℕ) : ℚ) ≤ rnd (8192 / 1000) :=
    hrnd.ge (by decide) (by norm_num)
  have hquot : Within (rnd counts / rnd (8192 / 1000)) 8192 :=
    hnum.div (by decide) hden (by decide)
  exact toUnsigned_roundAway_le (hquot.round hrnd (by decide)) (by decide)

theorem waterTemperature_le (hrnd : KeepsIntegers rnd) (d : Decoder) :
    (waterTemperature rnd d).toNat ≤ 255 := by
  have hbyte := UInt8.toNat_lt d.eblMem[0xe3]
  unfold waterTemperature
  dsimp only
  generalize (d.eblMem[0xe3]).toNat = n at hbyte ⊢
  have hnum : Within (rnd n) 255 :=
    (Within.natCast (by omega)).round hrnd (by decide)
  have hslope : Within (rnd (75 / 100)) 1 :=
    Within.round hrnd (by decide) ⟨by norm_num, by norm_num⟩
  have hoffset : Within (rnd 40) 40 :=
    Within.round hrnd (by decide) ⟨by norm_num, by norm_num⟩
  have hscaled : Within (rnd (rnd n * rnd (75 / 100))) 255 :=
    (hnum.mul hslope).round hrnd (by decide)
  have htemp : rnd (rnd (rnd n * rnd (75 / 100)) - rnd 40) ≤ (255 : ℕ) := by
    apply hrnd.le (by decide)
    have hle := hscaled.le
    have hnonneg := hoffset.nonneg
    linarith
  split
  · exact Nat.zero_le 255
  · rename_i hpos
    exact toUnsigned_roundAway_le ⟨not_lt.mp hpos, htemp⟩ (by decide)

theorem afr_le (hrnd : KeepsIntegers rnd) (d : Decoder) :
    (afr rnd d).toNat ≤ 6530 := by
  have hword := UInt16.toNat_lt d.eblAdc[1]
  unfold afr
  dsimp only
  rw [UInt16.toNat_toUInt32]
  generalize (d.eblAdc[1]).toNat = counts at hword ⊢
  have hnum : Within (rnd counts) 65535 :=
    (Within.natCast (by omega)).round hrnd (by decide)
  have hden : ((102 : ℕ) : ℚ) ≤ rnd (1024 / 10) :=
    hrnd.ge (by decide) (by norm_num)
  have hquot : Within (rnd counts / rnd (1024 / 10)) 643 :=
    hnum.div (by decide) hden (by decide)
  have hoffset : Within (rnd (96 / 10)) 10 :=
    Within.round hrnd (by decide) ⟨by norm_num, by norm_num⟩
  have hratio := ((hquot.round hrnd (by decide)).add hoffset).round hrnd
    (by decide)
  have hten : Within (rnd 10) 10 :=
    Within.round hrnd (by decide) ⟨by norm_num, by norm_num⟩
  exact toUnsigned_roundAway_le ((hratio.mul hten).round hrnd (by decide))
    (by decide)

end Float

end EBLmon.Ebl
