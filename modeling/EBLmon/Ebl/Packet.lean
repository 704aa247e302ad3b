import EBLmon.Lib.Framing
import EBLmon.Lib.Checksum
import Mathlib.Data.List.GetD

/-!
# The packet format

The layout of `ebl_format.txt`, stated without the decoder: a header
`0x55 0xaa`, a 256-byte memory dump, a status byte, eight ADC words of two
bytes each (channel 0 first, low byte first, as `decode` assembles them), and
a two-byte trailer, high byte first.

`Packet` is a frame of that format.  Its fields are read off the body by
position: body byte `i` is byte `2 + i` of the packet.

There are two readings of the checksum rule.  `Packet.Valid` is the rule of
the document for a 16-bit trailer: the trailer is the sum of the preceding 275
bytes modulo `65536`.  `Packet.Exact` asks for the sum itself.

`encode` builds the packet of a memory dump, a status byte and eight ADC
words.  `mem_encode`, `adc_encode` and `valid_encode` are its three
properties.
-/

namespace EBLmon.Ebl

open Framing Checksum

/-- The header and the body of a packet. -/
def packetFormat : Format UInt8 where
  h1 := 0x55
  h2 := 0xaa
  bodyLen := 275
  h1_ne_h2 := by decide
  bodyLen_pos := by decide

@[simp] theorem packetFormat_h1 : packetFormat.h1 = 0x55 := rfl

@[simp] theorem packetFormat_h2 : packetFormat.h2 = 0xaa := rfl

@[simp] theorem packetFormat_bodyLen : packetFormat.bodyLen = 275 := rfl

/-- A complete packet. -/
abbrev Packet := Frame packetFormat

/-- The sum of the header and what stands behind it. -/
theorem byteSum_header (bs : List UInt8) :
    byteSum (0x55 :: 0xaa :: bs) = 255 + byteSum bs := by
  rw [byteSum_cons, byteSum_cons, ← Nat.add_assoc]
  rfl

/-! ## The fields of a body -/

/-- ADC channel `k` of a body.  A high byte that has not arrived counts as
zero. -/
def adcOf (body : List UInt8) (k : Nat) : UInt16 :=
  (body.getD (257 + 2 * k) 0).toUInt16 +
    (body.getD (258 + 2 * k) 0).toUInt16 <<< 8

namespace Packet

/-- The memory dump. -/
def mem (p : Packet) : Vector UInt8 256 :=
  Vector.ofFn fun i => p.body.getD i 0

/-- The ADC words. -/
def adc (p : Packet) : Vector UInt16 8 :=
  Vector.ofFn fun k => adcOf p.body k

/-- The sum of the first 275 bytes. -/
def sum (p : Packet) : Nat := byteSum (p.bytes.take 275)

/-- The value of the last two bytes, high byte first. -/
def trailer (p : Packet) : Nat :=
  Checksum.trailer (p.body.getD 273 0) (p.body.getD 274 0)

/-- The trailer is the 16-bit sum. -/
def Valid (p : Packet) : Prop := p.trailer = p.sum % 65536

/-- The trailer is the sum. -/
def Exact (p : Packet) : Prop := p.trailer = p.sum

instance (p : Packet) : Decidable p.Valid :=
  inferInstanceAs (Decidable (_ = _))

instance (p : Packet) : Decidable p.Exact :=
  inferInstanceAs (Decidable (_ = _))

theorem length_body (p : Packet) : p.body.length = 275 := p.2

theorem length_bytes (p : Packet) : p.bytes.length = 277 := by
  simp [Frame.bytes, p.length_body]

theorem bytes_getD (p : Packet) (i : Nat) :
    p.bytes.getD (2 + i) 0 = p.body.getD i 0 := by
  rw [Nat.add_comm, Frame.bytes, List.getD_cons_succ, List.getD_cons_succ]

/-- The sum is the sum of the header and of the first 273 body bytes. -/
theorem sum_eq (p : Packet) : p.sum = 255 + byteSum (p.body.take 273) := by
  rw [sum, Frame.bytes, List.take_succ_cons, List.take_succ_cons]
  exact byteSum_header (p.body.take 273)

theorem trailer_lt (p : Packet) : p.trailer < 65536 := Checksum.trailer_lt _ _

theorem Exact.sum_lt {p : Packet} (h : p.Exact) : p.sum < 65536 := by
  have := p.trailer_lt
  rw [Exact] at h
  omega

theorem Exact.valid {p : Packet} (h : p.Exact) : p.Valid := by
  have := h.sum_lt
  rw [Exact] at h
  rw [Valid]
  omega

/-- The two readings differ for sums that do not fit the trailer. -/
theorem Valid.exact_iff {p : Packet} (h : p.Valid) :
    p.Exact ↔ p.sum < 65536 := by
  refine ⟨Exact.sum_lt, fun hlt => ?_⟩
  rw [Valid] at h
  rw [Exact]
  omega

theorem mem_getElem (p : Packet) {i : Nat} (hi : i < 256) :
    p.mem[i] = p.bytes.getD (2 + i) 0 := by
  rw [bytes_getD, mem, Vector.getElem_ofFn]

end Packet

/-- The value of a word from its two bytes, low byte first. -/
theorem toNat_word (lo hi : UInt8) :
    (lo.toUInt16 + hi.toUInt16 <<< 8).toNat = lo.toNat + 256 * hi.toNat := by
  have h1 := UInt8.toNat_lt lo
  have h2 := UInt8.toNat_lt hi
  simp only [UInt16.toNat_add, UInt16.toNat_shiftLeft, UInt8.toNat_toUInt16,
    Nat.shiftLeft_eq, show (8 : UInt16).toNat % 16 = 8 from rfl]
  omega

/-- The two bytes of a word, low byte first. -/
def wordBytes (w : UInt16) : List UInt8 := [w.toUInt8, (w >>> 8).toUInt8]

/-- The two bytes make up the word again. -/
theorem word_of_wordBytes (w : UInt16) :
    w.toUInt8.toUInt16 + (w >>> 8).toUInt8.toUInt16 <<< 8 = w := by
  apply UInt16.toNat.inj
  have hw := UInt16.toNat_lt w
  rw [toNat_word]
  simp only [UInt16.toNat_toUInt8, UInt16.toNat_shiftRight,
    Nat.shiftRight_eq_div_pow, show (8 : UInt16).toNat % 16 = 8 from rfl]
  omega

theorem Packet.adc_getElem (p : Packet) {k : Nat} (hk : k < 8) :
    (p.adc[k]).toNat = (p.bytes.getD (259 + 2 * k) 0).toNat
      + 256 * (p.bytes.getD (260 + 2 * k) 0).toNat := by
  have hlo := p.bytes_getD (257 + 2 * k)
  have hhi := p.bytes_getD (258 + 2 * k)
  rw [show 2 + (257 + 2 * k) = 259 + 2 * k by omega] at hlo
  rw [show 2 + (258 + 2 * k) = 260 + 2 * k by omega] at hhi
  rw [adc, Vector.getElem_ofFn, adcOf, toNat_word, hlo, hhi]

/-! ## Encoding -/

/-- The body up to the trailer. -/
def payload (mem : Vector UInt8 256) (status : UInt8) (adc : Vector UInt16 8) :
    List UInt8 :=
  mem.toList ++ status :: adc.toList.flatMap wordBytes

theorem length_flatMap_wordBytes (ws : List UInt16) :
    (ws.flatMap wordBytes).length = 2 * ws.length := by
  induction ws with
  | nil => rfl
  | cons w ws ih =>
    rw [List.flatMap_cons, List.length_append, ih, List.length_cons]
    simp only [wordBytes, List.length_cons, List.length_nil]
    omega

theorem flatMap_wordBytes_getD {ws : List UInt16} {k : Nat}
    (hk : k < ws.length) :
    (ws.flatMap wordBytes).getD (2 * k) 0 = (ws[k]).toUInt8 ∧
      (ws.flatMap wordBytes).getD (2 * k + 1) 0 = (ws[k] >>> 8).toUInt8 := by
  induction ws generalizing k with
  | nil => exact absurd hk (Nat.not_lt_zero k)
  | cons w ws ih =>
    cases k with
    | zero => exact ⟨rfl, rfl⟩
    | succ k => exact ih (by simpa using hk)

theorem length_payload (mem : Vector UInt8 256) (status : UInt8)
    (adc : Vector UInt16 8) : (payload mem status adc).length = 273 := by
  rw [payload, List.length_append, List.length_cons, length_flatMap_wordBytes,
    Vector.length_toList, Vector.length_toList]

/-- The packet of a memory dump, a status byte and eight ADC words.  The
trailer holds the 16-bit sum of everything before it. -/
def encode (mem : Vector UInt8 256) (status : UInt8) (adc : Vector UInt16 8) :
    Packet where
  body := payload mem status adc ++
    trailerBytes (byteSum (0x55 :: 0xaa :: payload mem status adc))
  length_body := by
    rw [List.length_append, length_payload]
    rfl

/-- The packet of zeros. -/
def zeroPacket : Packet :=
  encode (Vector.replicate 256 0) 0 (Vector.replicate 8 0)

section Encode

variable (mem : Vector UInt8 256) (status : UInt8) (adc : Vector UInt16 8)

theorem encode_take : (encode mem status adc).body.take 273
    = payload mem status adc := by
  rw [encode, List.take_append_of_le_length (by rw [length_payload]),
    List.take_of_length_le (by rw [length_payload])]

theorem encode_getD {i : Nat} (hi : i < 273) :
    (encode mem status adc).body.getD i 0 = (payload mem status adc).getD i 0 :=
  List.getD_append _ _ _ _ (by rw [length_payload]; exact hi)

/-- The sum of a packet in terms of what it carries. -/
theorem sum_encode : (encode mem status adc).sum
    = byteSum (0x55 :: 0xaa :: payload mem status adc) := by
  rw [Packet.sum_eq, encode_take, byteSum_header]

theorem mem_encode : (encode mem status adc).mem = mem := by
  apply Vector.ext
  intro i hi
  rw [Packet.mem, Vector.getElem_ofFn, encode_getD mem status adc (by omega),
    payload, List.getD_append _ _ _ _ (by rw [Vector.length_toList]; exact hi),
    List.getD_eq_getElem _ _ (by rw [Vector.length_toList]; exact hi),
    Vector.getElem_toList]

theorem adc_encode : (encode mem status adc).adc = adc := by
  apply Vector.ext
  intro k hk
  have hlen : k < adc.toList.length := by rw [Vector.length_toList]; exact hk
  have hpast : ∀ j, (payload mem status adc).getD (257 + j) 0
      = (adc.toList.flatMap wordBytes).getD j 0 := by
    intro j
    rw [payload, List.getD_append_right _ _ _ _
      (by rw [Vector.length_toList]; omega), Vector.length_toList,
      show 257 + j - 256 = j + 1 by omega, List.getD_cons_succ]
  obtain ⟨hlo, hhi⟩ := flatMap_wordBytes_getD hlen
  rw [Packet.adc, Vector.getElem_ofFn, adcOf,
    encode_getD mem status adc (by omega), encode_getD mem status adc (by omega),
    hpast, show 258 + 2 * k = 257 + (2 * k + 1) by omega, hpast, hlo, hhi,
    word_of_wordBytes, Vector.getElem_toList]

theorem trailer_encode : (encode mem status adc).trailer
    = byteSum (0x55 :: 0xaa :: payload mem status adc) % 65536 := by
  have hlen := length_payload mem status adc
  rw [Packet.trailer, encode,
    List.getD_append_right _ _ _ _ (by omega),
    List.getD_append_right _ _ _ _ (by omega), hlen]
  exact trailer_ofNat _

/-- An encoded packet keeps the checksum rule of the document. -/
theorem valid_encode : (encode mem status adc).Valid := by
  rw [Packet.Valid, trailer_encode, sum_encode]

end Encode

end EBLmon.Ebl
