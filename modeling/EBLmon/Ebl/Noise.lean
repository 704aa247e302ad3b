import EBLmon.Ebl.Hunt

/-!
# The decoder under line noise

`Bounded cs d` is the invariant of `decode`, for the state `d` behind the
stream `cs`, one control state at a time: where the field index may stand, what
a word of `ebl_adc` holds when its high byte comes in, and what the running sum
is worth from an accepted header up to the trailer.  Outside of that stretch
`running_sum` wraps freely, and nothing is said of it.

`feed_bounded` proves it behind every stream.  The stream of a frame in
progress is named through its header: `BehindHeader cs got` says that `got` has
come in since `decode` accepted a header of `cs`.
-/

namespace EBLmon.Ebl

open Machine Framing Checksum

/-- The bytes `got` have come in behind an accepted header.  While they are
fewer than a body it is the last one that was accepted. -/
def BehindHeader (cs got : List UInt8) : Prop :=
  ∃ pre d₀, cs = pre ++ 0x55 :: 0xaa :: got ∧
    feed Decoder.reset (pre ++ [0x55, 0xaa]) = some d₀ ∧ Opened d₀

/-- The control states from an accepted header up to the trailer. -/
def Summing (s : DecodeState) : Prop :=
  s = .array ∨ s = .status ∨ s = .adc ∨ s = .waitC1

theorem Summing.not_hunting {s : DecodeState} (h : Summing s) :
    s ≠ .waitH1 ∧ s ≠ .waitH2 := by
  rcases h with rfl | rfl | rfl | rfl <;> decide

/-- The invariant of `decode` behind the stream `cs`. -/
structure Bounded (cs : List UInt8) (d : Decoder) : Prop where
  array : d.state = .array → d.fieldIndex.toNat < 256
  adc : d.state = .adc → d.fieldIndex.toNat < 16
  defined : ∀ c, ∃ d', decode d c = some d'
  highByte : d.state = .adc → d.fieldIndex &&& 1 ≠ 0 →
    ∃ lo w, cs.getLast? = some lo ∧
      load d.eblAdc (d.fieldIndex / 2).toNat = some w ∧ w = lo.toUInt16 ∧
      ∀ c : UInt8, (w + c.toUInt16 <<< 8).toNat = w.toNat + 256 * c.toNat
  sum : Summing d.state →
    ∃ got, BehindHeader cs got ∧ got.length ≤ 273 ∧
      d.runningSum.toNat = byteSum (0x55 :: 0xaa :: got) ∧
      byteSum (0x55 :: 0xaa :: got) ≤ 69870

/-! ## Inside a body -/

section Body

variable {d : Decoder} {got : List UInt8}

/-- The exact sum of a frame up to the trailer is far below `2 ^ 32`. -/
theorem byteSum_frame_le (h : got.length ≤ 273) :
    byteSum (0x55 :: 0xaa :: got) ≤ 69870 := by
  have hgot := byteSum_le got
  rw [byteSum_header]
  omega

/-- Before the trailer the running sum is the exact sum. -/
theorem InBody.sum_exact (h : InBody d got) (hlen : got.length ≤ 273) :
    d.runningSum.toNat = byteSum (0x55 :: 0xaa :: got) := by
  have hle := byteSum_frame_le hlen
  rw [byteSum_header] at hle
  rw [h.sum, sumAt, List.take_of_length_le hlen, List.drop_eq_nil_of_le hlen,
    byteSum_nil, Nat.mul_zero, byteSum_header]
  show (UInt32.ofNat (255 + byteSum got) - 0).toNat = _
  rw [UInt32.sub_zero, toNat_ofNat (by omega)]

/-- When a high byte is due, the word holds the low byte that came in last. -/
theorem InBody.lowByte (h : InBody d got) (hs : d.state = .adc)
    (hodd : d.fieldIndex &&& 1 ≠ 0) :
    ∃ lo, got.getLast? = some lo ∧
      load d.eblAdc (d.fieldIndex / 2).toNat = some lo.toUInt16 := by
  obtain ⟨j, hlen, hj, hindex⟩ := h.index_adc hs
  have hmod : ¬ j % 2 = 0 := by
    rw [hindex] at hodd
    exact fun h0 => hodd ((low_iff (by omega)).mpr h0)
  have hhalf : (d.fieldIndex / 2).toNat = j / 2 := by
    rw [hindex]
    exact half_toNat (by omega)
  have hlast : 257 + 2 * (j / 2) < got.length := by omega
  refine ⟨got[257 + 2 * (j / 2)], ?_, ?_⟩
  · rw [List.getLast?_eq_getElem?,
      show got.length - 1 = 257 + 2 * (j / 2) by omega,
      List.getElem?_eq_getElem hlast]
  · rw [hhalf, load_of_lt _ (show j / 2 < 8 by omega),
      h.fields.adc (j / 2) (by omega) hlast, adcOf,
      List.getD_eq_getElem _ _ hlast,
      List.getD_eq_default _ _ (show got.length ≤ 258 + 2 * (j / 2) by omega)]
    simp

/-- Adding the high byte does not carry out of the word. -/
theorem toNat_add_high (lo c : UInt8) :
    (lo.toUInt16 + c.toUInt16 <<< 8).toNat
      = lo.toUInt16.toNat + 256 * c.toNat := by
  rw [toNat_word, UInt8.toNat_toUInt16]

/-- The control states up to the trailer. -/
theorem InBody.length_of_summing (h : InBody d got) (hs : Summing d.state) :
    got.length ≤ 273 := by
  rw [h.control] at hs
  rcases hs with hs | hs | hs | hs
  · have := controlAt_array hs
    omega
  · have := controlAt_status hs
    omega
  · have := controlAt_adc hs
    omega
  · have := controlAt_waitC1 hs
    omega

end Body

/-! ## Every stream -/

section Streams

variable {cs : List UInt8} {d : Decoder}

/-- A body in progress stands behind an accepted header. -/
theorem behindHeader_of_body {got : List UInt8}
    {room : got.length < packetFormat.bodyLen}
    (h : (Phase.hunt : Phase packetFormat).feed cs = .body got room) :
    BehindHeader cs got := by
  obtain ⟨pre, hcs, hpre⟩ := Phase.feed_eq_body h
  obtain ⟨d₀, hrun, hfollows⟩ := feed_tracks tracks_reset (pre ++ [0x55, 0xaa])
  have htracks := hfollows.tracks
  rw [show (Phase.hunt : Phase packetFormat).feed (pre ++ [0x55, 0xaa])
    = .body [] packetFormat.bodyLen_pos from hpre] at htracks
  exact ⟨pre, d₀, hcs, hrun, htracks.opened⟩

/-- A frame in progress: its bytes behind the header. -/
theorem Follows.inBody (h : Follows Decoder.reset .hunt d cs)
    (hs : Summing d.state) : ∃ got, InBody d got ∧ BehindHeader cs got := by
  obtain ⟨h1, h2⟩ := hs.not_hunting
  obtain ⟨got, room, hphase, hbody⟩ := h.tracks.inBody h1 h2
  exact ⟨got, hbody, behindHeader_of_body hphase⟩

theorem BehindHeader.getLast? {got : List UInt8} {lo : UInt8}
    (h : BehindHeader cs got) (hlo : got.getLast? = some lo) :
    cs.getLast? = some lo := by
  obtain ⟨pre, _, rfl, _⟩ := h
  obtain ⟨init, rfl⟩ := List.getLast?_eq_some_iff.mp hlo
  have hassoc : pre ++ 0x55 :: 0xaa :: (init ++ [lo])
      = (pre ++ 0x55 :: 0xaa :: init) ++ [lo] := by
    rw [List.append_assoc, List.cons_append, List.cons_append]
  rw [hassoc, List.getLast?_concat]

theorem Follows.bounded (h : Follows Decoder.reset .hunt d cs) :
    Bounded cs d where
  array := by
    intro hs
    obtain ⟨got, hbody, _⟩ := h.inBody (Or.inl hs)
    obtain ⟨hlen, hindex⟩ := hbody.index_array hs
    rw [hindex, toNat_ofNat (by omega)]
    exact hlen
  adc := by
    intro hs
    obtain ⟨got, hbody, _⟩ := h.inBody (Or.inr (Or.inr (Or.inl hs)))
    obtain ⟨j, _, hj, hindex⟩ := hbody.index_adc hs
    rw [hindex, toNat_ofNat (by omega)]
    exact hj
  defined := by
    intro c
    obtain ⟨d', hstep⟩ := decode_tracks h.tracks c
    exact ⟨d', hstep.run⟩
  highByte := by
    intro hs hodd
    obtain ⟨got, hbody, hbehind⟩ := h.inBody (Or.inr (Or.inr (Or.inl hs)))
    obtain ⟨lo, hlo, hload⟩ := hbody.lowByte hs hodd
    exact ⟨lo, _, hbehind.getLast? hlo, hload, rfl, toNat_add_high lo⟩
  sum := by
    intro hs
    obtain ⟨got, hbody, hbehind⟩ := h.inBody hs
    have hlen := hbody.length_of_summing hs
    exact ⟨got, hbehind, hlen, hbody.sum_exact hlen, byteSum_frame_le hlen⟩

/-- Behind every stream the decoder is defined and keeps its bounds. -/
theorem feed_bounded (cs : List UInt8) :
    ∃ d, feed Decoder.reset cs = some d ∧ Bounded cs d := by
  obtain ⟨d, hrun, hfollows⟩ := feed_tracks tracks_reset cs
  exact ⟨d, hrun, hfollows.bounded⟩

end Streams

end EBLmon.Ebl
