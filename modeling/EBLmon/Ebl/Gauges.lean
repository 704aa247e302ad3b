import EBLmon.Ebl.Account
import EBLmon.Ebl.OilSensor

/-!
# The gauge readings

The accessors of `src/ebl.cpp`, from `engine_speed` to `engine_running`.  They
read the arrays and change nothing.

Three of them compute in `float`.  The rounding of the `float` operations is a
parameter `rnd` of these definitions.  On the target it is `float32`; with
`id` the same definitions give the reading in exact arithmetic.
-/

namespace EBLmon.Ebl

open Rounding

/-- The conversion of a `float` with an integer value to `unsigned`. -/
def toUnsigned (z : ℤ) : UInt32 := UInt32.ofNat z.toNat

theorem toUnsigned_toNat {z : ℤ} (h : z < 4294967296) :
    (toUnsigned z).toNat = z.toNat := by
  unfold toUnsigned
  rw [UInt32.toNat_ofNat']
  omega

/-! ## The accessors -/

/-- `unsigned engine_speed()` -/
def engineSpeed (d : Decoder) : UInt32 :=
  (d.eblMem[0xf3]).toUInt32 * (31 : UInt32) + (d.eblMem[0xf3] / 4).toUInt32

/-- `unsigned ground_speed()` -/
def groundSpeed (d : Decoder) : UInt32 := (d.eblMem[0x34]).toUInt32

section Float

variable (rnd : ℚ → ℚ)

/-- `unsigned oil_pressure()` -/
def oilPressure (d : Decoder) : UInt32 :=
  let counts := (d.eblAdc[2]).toUInt32
  let counts :=
    if counts > 102 then counts - 102
    else if counts > 921 then 921
    else counts
  let pressure := rnd (rnd counts.toNat / rnd (8192 / 1000))
  toUnsigned (roundAway pressure)

/-- `unsigned water_temperature()` -/
def waterTemperature (d : Decoder) : UInt32 :=
  let temperature :=
    rnd (rnd (rnd (d.eblMem[0xe3]).toNat * rnd (75 / 100)) - rnd 40)
  if temperature < 0 then 0 else toUnsigned (roundAway temperature)

/-- `unsigned afr()` -/
def afr (d : Decoder) : UInt32 :=
  let counts := (d.eblAdc[1]).toUInt32
  let ratio := rnd (rnd (rnd counts.toNat / rnd (1024 / 10)) + rnd (96 / 10))
  toUnsigned (roundAway (rnd (ratio * rnd 10)))

end Float

/-- `unsigned voltage()` -/
def voltage (d : Decoder) : UInt32 := (d.eblMem[0x45]).toUInt32

/-- `bool ses_set()` -/
def sesSet (d : Decoder) : Bool := d.eblMem[0x0b] &&& 0x01 ≠ 0

/-- `bool engine_running()` -/
def engineRunning (d : Decoder) : Bool := d.eblMem[0x01] &&& 0x80 ≠ 0

/-! ## The oil pressure of an accepted frame -/

/-- The counts that go into the quotient. -/
def oilOffset (n : ℕ) : ℕ := if 102 < n then n - 102 else n

/-- Behind the test for the offset the branch for 921 is never taken. -/
theorem oilOffset_toNat (w : UInt32) :
    (if w > 102 then w - 102 else if w > 921 then 921 else w).toNat
      = oilOffset w.toNat := by
  have h102 : w > 102 ↔ 102 < w.toNat := UInt32.lt_iff_toNat_lt
  have h921 : w > 921 ↔ 921 < w.toNat := UInt32.lt_iff_toNat_lt
  unfold oilOffset
  by_cases h : 102 < w.toNat
  · rw [if_pos (h102.mpr h), if_pos h,
      UInt32.toNat_sub_of_le _ _ (UInt32.le_of_lt (h102.mpr h))]
    rfl
  · have hnot : ¬ 921 < w.toNat := by omega
    rw [if_neg (mt h102.mp h), if_neg (mt h921.mp hnot), if_neg h]

theorem oilOffset_le {n : ℕ} (h : n ≤ 65535) : oilOffset n ≤ 65535 := by
  unfold oilOffset
  split <;> omega

theorem oilPressure_eq (d : Decoder) :
    ((oilPressure float32 d).toNat : ℤ)
      = oilReading (oilOffset (d.eblAdc[2]).toNat) := by
  have hn := UInt16.toNat_lt d.eblAdc[2]
  have hc := oilOffset_le (show (d.eblAdc[2]).toNat ≤ 65535 by omega)
  have hmax := oilReading_le_max hc
  have hmin := oilReading_nonneg hc
  have heq : oilPressure float32 d
      = toUnsigned (oilReading (oilOffset (d.eblAdc[2]).toNat)) := by
    unfold oilPressure oilReading oilQuotient
    simp only [oilOffset_toNat, UInt16.toNat_toUInt32]
  rw [heq, toUnsigned_toNat (by omega)]
  omega

/-- Channel 2 of a packet. -/
def Packet.oilCounts (q : Packet) : ℕ := (q.adc[2]).toNat

/-- The reading is the one of the law, with what follows from that. -/
structure OilFollows (d : Decoder) (n : ℕ) : Prop where
  law : ((oilPressure float32 d).toNat : ℤ) = oilLaw n
  zero : n ≤ 102 → oilPressure float32 d = 0
  max : (oilPressure float32 d).toNat ≤ 100

theorem oilFollows_of_eq {d : Decoder} {n : ℕ}
    (h : ((oilPressure float32 d).toNat : ℤ) = oilLaw n) : OilFollows d n := by
  refine ⟨h, fun hn => ?_, ?_⟩
  · rw [oilLaw_eq_zero hn] at h
    apply UInt32.toNat.inj
    exact_mod_cast h
  · have := oilLaw_le n
    omega

/-- The reading of the decoder against the law. -/
theorem oilFollows_iff {d : Decoder} {n : ℕ} (hn : (d.eblAdc[2]).toNat = n) :
    OilFollows d n ↔ OilInRange n := by
  have hlt := UInt16.toNat_lt d.eblAdc[2]
  have hiff : ((oilPressure float32 d).toNat : ℤ) = oilLaw n ↔ OilInRange n := by
    rw [oilPressure_eq, hn]
    unfold oilOffset OilInRange
    split
    · rename_i h
      rw [oilReading_sub_iff h (by omega)]
      omega
    · rename_i h
      rw [oilReading_iff (by omega)]
      omega
  rw [← hiff]
  exact ⟨fun h => h.law, oilFollows_of_eq⟩

/-- Over every run: the reading of an accepted frame is the one of the law
exactly for the counts in range, and for those counts the readings of any two
accepted frames are ordered as their counts are. -/
theorem oilPressure_follows_iff {ops ops' : List Op} {q q' : Packet}
    {d d' : Decoder} (hq : Accepted ops q) (hd : exec ops = some d)
    (hq' : Accepted ops' q') (hd' : exec ops' = some d') :
    (OilFollows d q.oilCounts ↔ OilInRange q.oilCounts) ∧
      (OilInRange q.oilCounts → OilInRange q'.oilCounts →
        q.oilCounts ≤ q'.oilCounts →
        oilPressure float32 d ≤ oilPressure float32 d') := by
  have hn : (d.eblAdc[2]).toNat = q.oilCounts := by
    rw [Packet.oilCounts, ← (hq.holds hd).2]
  have hn' : (d'.eblAdc[2]).toNat = q'.oilCounts := by
    rw [Packet.oilCounts, ← (hq'.holds hd').2]
  refine ⟨oilFollows_iff hn, fun hin hin' hle => ?_⟩
  have hlaw := ((oilFollows_iff hn).mpr hin).law
  have hlaw' := ((oilFollows_iff hn').mpr hin').law
  have hmono := oilLaw_mono hle
  rw [UInt32.le_iff_toNat_le]
  omega

/-- A packet with `w` counts on channel 2 and zeros elsewhere. -/
def oilPacket (w : UInt16) : Packet :=
  encode (Vector.replicate 256 0) 0 ((Vector.replicate 8 0).set 2 w)

theorem oilPacket_oilCounts (w : UInt16) :
    (oilPacket w).oilCounts = w.toNat := by
  unfold Packet.oilCounts oilPacket
  simp only [adc_encode, Vector.getElem_set_self]

/-- The frames with 500 and with 921 counts. -/
theorem oilPressure_follows_500 :
    ∃ d d', exec ((oilPacket 500).bytes.map .decode) = some d ∧
      exec ((oilPacket 921).bytes.map .decode) = some d' ∧
      (OilFollows d (oilPacket 500).oilCounts ↔
        OilInRange (oilPacket 500).oilCounts) ∧
      (OilInRange (oilPacket 500).oilCounts →
        OilInRange (oilPacket 921).oilCounts →
        (oilPacket 500).oilCounts ≤ (oilPacket 921).oilCounts →
        oilPressure float32 d ≤ oilPressure float32 d') := by
  obtain ⟨d, hd, _⟩ := exec_accounts ((oilPacket 500).bytes.map .decode)
  obtain ⟨d', hd', _⟩ := exec_accounts ((oilPacket 921).bytes.map .decode)
  have hq : Accepted _ (oilPacket 500) := accepted_bytes (by decide +kernel)
  have hq' : Accepted _ (oilPacket 921) := accepted_bytes (by decide +kernel)
  exact ⟨d, d', hd, hd', oilPressure_follows_iff hq hd hq' hd'⟩

/-- At 102 counts the sensor says 0 psi, and the gauge shows 12. -/
theorem oilPressure_not_follows_102 :
    ∃ d, exec ((oilPacket 102).bytes.map .decode) = some d ∧
      Accepted ((oilPacket 102).bytes.map .decode) (oilPacket 102) ∧
      oilPressure float32 d = 12 ∧
      ¬ OilFollows d (oilPacket 102).oilCounts := by
  obtain ⟨d, hd, _⟩ := exec_accounts ((oilPacket 102).bytes.map .decode)
  have hq : Accepted _ (oilPacket 102) := accepted_bytes (by decide +kernel)
  have hn : (d.eblAdc[2]).toNat = 102 := by
    have h := oilPacket_oilCounts 102
    rw [Packet.oilCounts, ← (hq.holds hd).2] at h
    exact h
  have hreading : oilReading 102 = 12 := by decide +kernel
  have heq := oilPressure_eq d
  rw [hn, show oilOffset 102 = 102 from rfl, hreading] at heq
  have h12 : oilPressure float32 d = 12 := UInt32.toNat.inj (by exact_mod_cast heq)
  refine ⟨d, hd, hq, h12, fun h => ?_⟩
  have hzero := h.zero (by rw [oilPacket_oilCounts]; decide)
  rw [h12] at hzero
  exact absurd hzero (by decide)

end EBLmon.Ebl
