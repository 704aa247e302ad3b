import EBLmon.Lib.Machine

/-!
# The EBL protocol decoder

`src/ebl.cpp`: the globals of `namespace EBL`, the three `static` variables of
`decode`, and the functions `decode` and `was_updated`.

The globals and the statics are one record, `Decoder`.  `unsigned` is 32 bits
wide on the target, so the counters, the running sum and the field index are
`UInt32`, and their arithmetic wraps.  A write outside `ebl_mem` or `ebl_adc`
is undefined in the source, so `decode` answers `none` there.

The lemmas below `decode` give its result in each control state.  Later
modules use them and do not unfold `decode`.
-/

namespace EBLmon.Ebl

open Machine

/-- `enum DecodeState` -/
inductive DecodeState where
  | waitH1
  | waitH2
  | array
  | status
  | adc
  | waitC1
  | waitC2
  deriving DecidableEq, Repr

/-- The globals of `namespace EBL` and the statics of `decode`. -/
@[ext] structure Decoder where
  eblMem : Vector UInt8 256
  eblAdc : Vector UInt16 8
  updated : Bool
  rxCount : UInt32
  goodPackets : UInt32
  badPackets : UInt32
  runningSum : UInt32
  fieldIndex : UInt32
  state : DecodeState
  deriving DecidableEq

/-- The initial values, and zero for the arrays in `.bss`. -/
def Decoder.reset : Decoder where
  eblMem := Vector.replicate 256 0
  eblAdc := Vector.replicate 8 0
  updated := false
  rxCount := 0
  goodPackets := 0
  badPackets := 0
  runningSum := 0
  fieldIndex := 0
  state := .waitH1

/-- `running_sum += c; rx_count++;` at the top of `decode`. -/
def Decoder.receive (d : Decoder) (c : UInt8) : Decoder :=
  { d with
    runningSum := d.runningSum + c.toUInt32
    rxCount := d.rxCount + 1 }

/-- `void decode(uint8_t c)` -/
def decode (d : Decoder) (c : UInt8) : Option Decoder :=
  let d := d.receive c
  match d.state with
  | .waitH1 =>
    if c = 0x55 then
      some { d with state := .waitH2, runningSum := c.toUInt32 }
    else some d
  | .waitH2 =>
    if c = 0xaa then some { d with state := .array, fieldIndex := 0 }
    else some { d with state := .waitH1 }
  | .array => do
    let eblMem ← store d.eblMem d.fieldIndex.toNat c
    let d := { d with eblMem, fieldIndex := d.fieldIndex + 1 }
    if d.fieldIndex = 256 then some { d with state := .status } else some d
  | .status =>
    -- the status byte is discarded
    some { d with state := .adc, fieldIndex := 0 }
  | .adc => do
    let i := (d.fieldIndex / 2).toNat
    let eblAdc ←
      if d.fieldIndex &&& 1 = 0 then store d.eblAdc i c.toUInt16
      else do
        let w ← load d.eblAdc i
        store d.eblAdc i (w + c.toUInt16 <<< 8)
    let d := { d with eblAdc, fieldIndex := d.fieldIndex + 1 }
    if d.fieldIndex = 16 then some { d with state := .waitC1 } else some d
  | .waitC1 =>
    -- the checksum byte is not part of the sum, and it is the high byte of it
    let d := { d with runningSum := d.runningSum - c.toUInt32 }
    let d := { d with runningSum := d.runningSum - c.toUInt32 <<< 8 }
    some { d with state := .waitC2 }
  | .waitC2 =>
    -- what is left of the sum should be its low byte
    let d := { d with runningSum := d.runningSum - c.toUInt32 }
    let d :=
      if d.runningSum = c.toUInt32 then
        { d with updated := true, goodPackets := d.goodPackets + 1 }
      else { d with badPackets := d.badPackets + 1 }
    some { d with state := .waitH1 }

/-- `bool was_updated()`: the answer and the globals after the call. -/
def wasUpdated (d : Decoder) : Bool × Decoder :=
  if d.updated then (true, { d with updated := false }) else (false, d)

/-- `decode` for a whole stream. -/
def feed (d : Decoder) (cs : List UInt8) : Option Decoder := run decode d cs

/-! ## Counters and the field index -/

theorem ofNat_succ (n : Nat) : UInt32.ofNat n + 1 = UInt32.ofNat (n + 1) :=
  (UInt32.ofNat_add n 1).symm

theorem toNat_ofNat {n : Nat} (h : n < 4294967296) :
    (UInt32.ofNat n).toNat = n :=
  UInt32.toNat_ofNat_of_lt' h

theorem ofNat_eq_iff {n m : Nat} (hn : n < 4294967296)
    (hm : m < 4294967296) : UInt32.ofNat n = UInt32.ofNat m ↔ n = m := by
  rw [← UInt32.toNat_inj, UInt32.toNat_ofNat', UInt32.toNat_ofNat']
  omega

/-- A counter that wraps still moves at every step. -/
theorem ne_add_one (n : UInt32) : n ≠ n + 1 := by
  intro h
  have h1 := congrArg UInt32.toNat h
  rw [UInt32.toNat_add, show (1 : UInt32).toNat = 1 from rfl] at h1
  have h2 := UInt32.toNat_lt n
  omega

theorem half_toNat {n : Nat} (h : n < 4294967296) :
    (UInt32.ofNat n / 2).toNat = n / 2 := by
  rw [UInt32.toNat_div, UInt32.toNat_ofNat', Nat.mod_eq_of_lt (by omega)]
  rfl

theorem low_iff {n : Nat} (h : n < 4294967296) :
    UInt32.ofNat n &&& 1 = 0 ↔ n % 2 = 0 := by
  rw [← UInt32.toNat_inj, UInt32.toNat_and, UInt32.toNat_ofNat',
    Nat.mod_eq_of_lt (by omega), show (1 : UInt32).toNat = 1 from rfl,
    Nat.and_one_is_mod]
  rfl

/-! ## One lemma for each control state -/

section Steps

variable {d : Decoder} {c : UInt8}

theorem decode_waitH1 (h : d.state = .waitH1) :
    decode d c = some (if c = 0x55 then
      { d.receive c with state := .waitH2, runningSum := c.toUInt32 }
      else d.receive c) := by
  simp only [decode, Decoder.receive, h]
  split <;> rfl

theorem decode_waitH2 (h : d.state = .waitH2) :
    decode d c = some (if c = 0xaa then
      { d.receive c with state := .array, fieldIndex := 0 }
      else { d.receive c with state := .waitH1 }) := by
  simp only [decode, Decoder.receive, h]
  split <;> rfl

theorem decode_array {n : Nat} (h : d.state = .array)
    (hindex : d.fieldIndex = UInt32.ofNat n) (hn : n < 256) :
    decode d c = some
      { d.receive c with
        eblMem := d.eblMem.set n c hn
        fieldIndex := UInt32.ofNat (n + 1)
        state := if n + 1 = 256 then .status else .array } := by
  have hnat : (UInt32.ofNat n).toNat = n := toNat_ofNat (by omega)
  have hlast : UInt32.ofNat (n + 1) = 256 ↔ n + 1 = 256 :=
    ofNat_eq_iff (m := 256) (by omega) (by decide)
  simp only [decode, Decoder.receive, h, hindex, hnat, store_of_lt _ _ hn,
    Option.bind_eq_bind, Option.bind_some, hlast, ofNat_succ]
  by_cases he : n + 1 = 256 <;> simp only [he, if_true, if_false]

theorem decode_status (h : d.state = .status) :
    decode d c = some { d.receive c with state := .adc, fieldIndex := 0 } := by
  simp only [decode, Decoder.receive, h]

/-- The word that `decode` stores for byte `j` of the ADC field: a low byte
replaces the word, a high byte is added to it. -/
def adcWord (w : UInt16) (j : Nat) (c : UInt8) : UInt16 :=
  if j % 2 = 0 then c.toUInt16 else w + c.toUInt16 <<< 8

theorem decode_adc {j : Nat} (h : d.state = .adc)
    (hindex : d.fieldIndex = UInt32.ofNat j) (hj : j / 2 < 8) :
    decode d c = some
      { d.receive c with
        eblAdc := d.eblAdc.set (j / 2) (adcWord d.eblAdc[j / 2] j c) hj
        fieldIndex := UInt32.ofNat (j + 1)
        state := if j + 1 = 16 then .waitC1 else .adc } := by
  have hhalf : (UInt32.ofNat j / 2).toNat = j / 2 := half_toNat (by omega)
  have hlow : UInt32.ofNat j &&& 1 = 0 ↔ j % 2 = 0 := low_iff (by omega)
  have hlast : UInt32.ofNat (j + 1) = 16 ↔ j + 1 = 16 :=
    ofNat_eq_iff (m := 16) (by omega) (by decide)
  simp only [decode, Decoder.receive, h, hindex, hhalf, load_of_lt _ hj,
    store_of_lt _ _ hj, Option.bind_eq_bind, Option.bind_some, adcWord, hlow,
    hlast, ofNat_succ]
  by_cases hj2 : j % 2 = 0
  · simp only [hj2, if_true]
    by_cases he : j + 1 = 16 <;> simp only [he, if_true, if_false]
  · simp only [hj2, if_false]
    by_cases he : j + 1 = 16 <;> simp only [he, if_true, if_false]

theorem decode_waitC1 (h : d.state = .waitC1) :
    decode d c = some
      { d.receive c with
        runningSum := d.runningSum - c.toUInt32 <<< 8
        state := .waitC2 } := by
  simp only [decode, Decoder.receive, h, UInt32.add_sub_cancel]

theorem decode_waitC2_good (h : d.state = .waitC2)
    (hsum : d.runningSum = c.toUInt32) :
    decode d c = some
      { d.receive c with
        runningSum := d.runningSum
        updated := true
        goodPackets := d.goodPackets + 1
        state := .waitH1 } := by
  simp only [decode, Decoder.receive, h, UInt32.add_sub_cancel, hsum, if_true]

theorem decode_waitC2_bad (h : d.state = .waitC2)
    (hsum : d.runningSum ≠ c.toUInt32) :
    decode d c = some
      { d.receive c with
        runningSum := d.runningSum
        badPackets := d.badPackets + 1
        state := .waitH1 } := by
  simp only [decode, Decoder.receive, h, UInt32.add_sub_cancel, if_neg hsum]

end Steps

end EBLmon.Ebl
