import EBLmon.Ui.Tick
import EBLmon.Ebl.GaugeRange

/-!
# The text buffers are wide enough

`sprintf` writes its text and a NUL, whatever the size of the buffer.  `Fits`
says that the texts of a refresh stay inside the buffers of `namespace UI`, and
that the status text is always as wide as the line that shows it.

A text is the decimal of a reading and some fixed characters.  The width of
the decimal comes from the range of the reading (`EBLmon.Ebl.GaugeRange`), and
the name of a trouble code is six characters wide.  The degree sign is the one
byte `0xb0`.

`fits_refresh` is about any content of the arrays, so it holds in the middle of
a frame as well.  `noOverrun` carries it to every state of every run.
-/

namespace EBLmon.Ui

open Machine Ebl Rounding

/-- The size of `road_speed` and the five other buffers of a reading. -/
def readingSize : ℕ := 8

/-- The size of `ebl_status`. -/
def statusSize : ℕ := 22

/-- A text and its NUL stay inside a buffer. -/
def FitsIn (size : ℕ) (text : String) : Prop := text.length + 1 ≤ size

instance (size : ℕ) (text : String) : Decidable (FitsIn size text) :=
  inferInstanceAs (Decidable (_ ≤ _))

/-- The texts stay inside their buffers. -/
structure Fits (t : Texts) : Prop where
  roadSpeed : FitsIn readingSize t.roadSpeed
  engineSpeed : FitsIn readingSize t.engineSpeed
  waterTemperature : FitsIn readingSize t.waterTemperature
  oilPressure : FitsIn readingSize t.oilPressure
  batteryVoltage : FitsIn readingSize t.batteryVoltage
  airFuelRatio : FitsIn readingSize t.airFuelRatio
  eblStatus : FitsIn statusSize t.eblStatus
  statusWidth : t.eblStatus.length = 21

/-! ## The width of a text -/

/-- The decimal of a number below `10 ^ k` has at most `k` digits. -/
theorem length_decimal_le {n : UInt32} {k : ℕ} (hk : 0 < k)
    (h : n.toNat < 10 ^ k) : (decimal n).length ≤ k :=
  (Nat.length_repr_le_iff hk).mpr h

/-- A decimal and a unit. -/
theorem fitsIn_decimal_append {n : UInt32} {k size : ℕ} {unit : String}
    (hk : 0 < k) (h : n.toNat < 10 ^ k) (hsize : k + unit.length + 1 ≤ size) :
    FitsIn size (decimal n ++ unit) := by
  have hlen := length_decimal_le hk h
  unfold FitsIn
  rw [String.length_append]
  omega

/-- The two parts of a number with one decimal place. -/
theorem length_tenths_le {n : UInt32} {k : ℕ} (hk : 0 < k)
    (h : n.toNat < 10 ^ (k + 1)) :
    (decimal (n / 10)).length ≤ k ∧ (decimal (n % 10)).length ≤ 1 := by
  constructor
  · apply length_decimal_le hk
    rw [UInt32.toNat_div, show (10 : UInt32).toNat = 10 from rfl]
    rw [Nat.pow_succ] at h
    omega
  · apply length_decimal_le Nat.one_pos
    rw [UInt32.toNat_mod, show (10 : UInt32).toNat = 10 from rfl]
    omega

/-- The names of the trouble codes are six characters wide. -/
theorem length_dtcString {d : Decoder} {i : UInt8} {name : String}
    (h : dtcString d i = some name) : name.length = 6 := by
  have hwidth : ∀ e ∈ priorityTable, e.name.length = 6 := by decide
  rw [dtcString_nth] at h
  have hmem := List.mem_of_getElem? h
  unfold activeCodes at hmem
  obtain ⟨e, he, rfl⟩ := List.mem_map.mp hmem
  exact hwidth e (List.mem_of_mem_filter he)

/-- The name in the status text, or its stand-in. -/
theorem length_getD_dtcString (d : Decoder) :
    ((dtcString d 0).getD "??????").length = 6 := by
  cases h : dtcString d 0 with
  | none => rfl
  | some name => exact length_dtcString h

/-! ## A refresh -/

section Refresh

variable {rnd : ℚ → ℚ}

/-- The status text is 21 characters wide in each of its three forms. -/
theorem length_eblStatus (rnd : ℚ → ℚ) (d : Decoder) :
    (refresh rnd d).eblStatus.length = 21 := by
  show (if sesSet d then _ else _ : String).length = 21
  split
  · rw [String.length_append, String.length_append, length_getD_dtcString]
    rfl
  · split <;> rfl

/-- The texts of any content of the arrays. -/
theorem fits_refresh (hrnd : KeepsIntegers rnd) (d : Decoder) :
    Fits (refresh rnd d) where
  roadSpeed := by
    have hle := groundSpeed_le d
    exact fitsIn_decimal_append (k := 3) (by decide) (by omega) (by decide)
  engineSpeed := by
    -- the buffer is full to the last byte
    have hle := engineSpeed_le d
    exact fitsIn_decimal_append (k := 4) (by decide) (by omega) (by decide)
  waterTemperature := by
    have hle := waterTemperature_le hrnd d
    exact fitsIn_decimal_append (k := 3) (by decide) (by omega) (by decide)
  oilPressure := by
    have hle := oilPressure_le hrnd d
    exact fitsIn_decimal_append (k := 4) (by decide) (by omega) (by decide)
  batteryVoltage := by
    have hle := voltage_le d
    obtain ⟨hwhole, htenth⟩ :=
      length_tenths_le (n := voltage d) (k := 2) (by decide) (by omega)
    show (decimal _ ++ "." ++ decimal _ ++ "v").length + 1 ≤ 8
    rw [String.length_append, String.length_append, String.length_append,
      show ".".length = 1 from rfl, show "v".length = 1 from rfl]
    omega
  airFuelRatio := by
    have hle := afr_le hrnd d
    obtain ⟨hwhole, htenth⟩ :=
      length_tenths_le (n := afr rnd d) (k := 3) (by decide) (by omega)
    show (decimal _ ++ "." ++ decimal _).length + 1 ≤ 8
    rw [String.length_append, String.length_append,
      show ".".length = 1 from rfl]
    omega
  eblStatus := by
    have hlen := length_eblStatus rnd d
    show (refresh rnd d).eblStatus.length + 1 ≤ 22
    omega
  statusWidth := length_eblStatus rnd d

end Refresh

/-! ## Every run -/

/-- No refresh writes past the end of a buffer: not for any content of the
arrays, and not in any run. -/
structure NoOverrun (rnd : ℚ → ℚ) : Prop where
  refresh : ∀ d, Fits (refresh rnd d)
  run : ∀ ops, ∃ s, exec rnd ops = some s ∧ Fits s.texts

theorem fits_initial : Fits Texts.initial := by
  constructor <;> decide

section Runs

variable {rnd : ℚ → ℚ}

/-- One step: a refresh writes new texts, and nothing else touches them. -/
theorem step_fits (hrnd : KeepsIntegers rnd) (s : System) (op : Step)
    (s' : System) (h : Fits s.texts) (hstep : Step.step rnd s op = some s') :
    Fits s'.texts := by
  cases op with
  | decode c =>
    obtain ⟨d, _, hs'⟩ := Option.map_eq_some_iff.mp hstep
    rw [← hs']
    exact h
  | tick =>
    have hs' : tick rnd s = s' := Option.some.inj hstep
    rw [← hs']
    by_cases hflag : (wasUpdated s.decoder).1 = true
    · rw [tick_texts hflag]
      exact fits_refresh hrnd _
    · rw [tick_texts_same hflag]
      exact h

/-- No run overruns a buffer, whether the readings are computed exactly or in
a format that keeps the integers. -/
theorem noOverrun (hrnd : KeepsIntegers rnd) : NoOverrun rnd where
  refresh := fits_refresh hrnd
  run := by
    intro ops
    obtain ⟨s, hs, _⟩ := exec_decoder rnd ops
    exact ⟨s, hs, run_preserves (step_fits hrnd) fits_initial hs⟩

end Runs

/-- The text buffers are never overrun, in exact arithmetic and in single
precision. -/
theorem texts_fit : NoOverrun id ∧ NoOverrun float32 :=
  ⟨noOverrun keepsIntegers_id, noOverrun keepsIntegers_float32⟩

end EBLmon.Ui
