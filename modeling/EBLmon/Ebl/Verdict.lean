import EBLmon.Ebl.Refine

/-!
# One packet from the hunt

What `decode` makes of one whole packet that it meets while it waits for a
header, whatever else its globals and statics hold.

`feed_packet` is the common part: the decoder is back at `waitH1`, it holds the
fields of the packet, and it has counted it.  The packet is counted good
exactly when its trailer is its sum (`Packet.Exact`).  The sender writes the
sum modulo `65536`, so the two sides agree below `65536` and only there:
`feed_encode_iff_sum_fits` is the exact condition for the round trip.

`feed_corrupted` is the detection of one replaced byte.  It needs no such
condition, because a sum that does not fit the trailer is rejected anyway.
-/

namespace EBLmon.Ebl

open Machine Framing Checksum

/-- A packet that arrives while the decoder waits for a header. -/
theorem feed_packet {d : Decoder} (hd : d.state = .waitH1) (q : Packet) :
    ∃ d', feed d q.bytes = some d' ∧ d'.state = .waitH1 ∧
      Counted d d' [q] ∧ Holds d' q ∧ d'.rxCount = d.rxCount + 277 := by
  obtain ⟨d', hrun, hfollows⟩ := feed_tracks (tracks_hunt hd) q.bytes
  have htracks := hfollows.tracks
  have hcounted := hfollows.counted
  have hholds := hfollows.holds q
  rw [Phase.feed_frame] at htracks
  rw [Phase.frames_frame] at hcounted
  rw [Phase.frames_frame, Phase.feed_frame] at hholds
  refine ⟨d', hrun, htracks, hcounted, hholds rfl rfl, ?_⟩
  rw [hfollows.rx, q.length_bytes]
  rfl

/-! ## The round trip -/

/-- `decode` recovers what the packet was built from and counts it good. -/
def Recovers (d : Decoder) (mem : Vector UInt8 256) (status : UInt8)
    (adc : Vector UInt16 8) : Prop :=
  ∃ d', feed d (encode mem status adc).bytes = some d' ∧
    d'.state = .waitH1 ∧ d'.eblMem = mem ∧ d'.eblAdc = adc ∧
    d'.updated = true ∧ d'.goodPackets = d.goodPackets + 1 ∧
    d'.badPackets = d.badPackets ∧ d'.rxCount = d.rxCount + 277

section RoundTrip

variable {d : Decoder} {mem : Vector UInt8 256} {status : UInt8}
  {adc : Vector UInt16 8}

/-- A packet is accepted when its sum fits the trailer. -/
theorem exact_encode_iff : (encode mem status adc).Exact ↔
    byteSum (0x55 :: 0xaa :: payload mem status adc) < 65536 := by
  rw [(valid_encode mem status adc).exact_iff, sum_encode]

theorem recovers_of_exact (hd : d.state = .waitH1)
    (h : (encode mem status adc).Exact) : Recovers d mem status adc := by
  obtain ⟨d', hrun, hstate, hcounted, ⟨hmem, hadc⟩, hrx⟩ :=
    feed_packet hd (encode mem status adc)
  obtain ⟨hgood, hbad, hupd⟩ := hcounted.of_exact h
  rw [mem_encode] at hmem
  rw [adc_encode] at hadc
  exact ⟨d', hrun, hstate, hmem, hadc, hupd, hgood, hbad, hrx⟩

/-- A rejected packet leaves `good_packets` alone. -/
theorem not_recovers_of_not_exact (hd : d.state = .waitH1)
    (h : ¬ (encode mem status adc).Exact) : ¬ Recovers d mem status adc := by
  rintro ⟨d₁, hrun₁, _, _, _, _, hgood₁, _⟩
  obtain ⟨d', hrun, _, hcounted, _⟩ := feed_packet hd (encode mem status adc)
  obtain ⟨hgood, _⟩ := hcounted.of_not_exact h
  rw [hrun, Option.some.injEq] at hrun₁
  subst hrun₁
  rw [hgood] at hgood₁
  exact ne_add_one _ hgood₁

/-- The round trip holds exactly for packets whose first 275 bytes sum to less
than `65536`.  Above that the sum that `decode` keeps is not the 16-bit sum
that the trailer holds. -/
theorem feed_encode_iff_sum_fits (hd : d.state = .waitH1) :
    Recovers d mem status adc ↔
      byteSum (0x55 :: 0xaa :: payload mem status adc) < 65536 := by
  rw [← exact_encode_iff]
  refine ⟨fun h => ?_, recovers_of_exact hd⟩
  by_contra hne
  exact not_recovers_of_not_exact hd hne h

/-- A packet of zeros is recovered from reset. -/
theorem feed_encode_zero :
    Recovers Decoder.reset (Vector.replicate 256 0) 0 (Vector.replicate 8 0) ↔
      byteSum (0x55 :: 0xaa ::
        payload (Vector.replicate 256 0) 0 (Vector.replicate 8 0)) < 65536 :=
  feed_encode_iff_sum_fits rfl

/-- A packet of `0xff` bytes sums to `69870`.  Its trailer holds `4334`, and
`decode` rejects it. -/
theorem not_recovers_all_ff :
    ¬ Recovers Decoder.reset (Vector.replicate 256 0xff) 0xff
      (Vector.replicate 8 0xffff) := by
  have hsum : ¬ byteSum (0x55 :: 0xaa :: payload (Vector.replicate 256 0xff)
      0xff (Vector.replicate 8 0xffff)) < 65536 := by
    decide +kernel
  exact not_recovers_of_not_exact rfl fun he => hsum (exact_encode_iff.mp he)

end RoundTrip

/-! ## One replaced byte -/

/-- The packet with body byte `i` replaced. -/
def Packet.replace (q : Packet) (i : Nat) (v : UInt8) : Packet where
  body := q.body.set i v
  length_body := by
    rw [List.length_set, q.length_body, packetFormat_bodyLen]

/-- In the stream that is byte `2 + i`. -/
theorem Packet.bytes_replace (q : Packet) (i : Nat) (v : UInt8) :
    (Packet.replace q i v).bytes = q.bytes.set (2 + i) v := by
  rw [Nat.add_comm]
  rfl

/-- A replaced byte before the trailer moves the sum and keeps the trailer. -/
theorem Packet.Valid.not_exact_replace_body {q : Packet} (hq : q.Valid)
    {i : Nat} (hi : i < 273) {v : UInt8} (hv : v ≠ q.body.getD i 0) :
    ¬ (Packet.replace q i v).Exact := by
  have hlen := q.length_body
  have hbytes := q.length_bytes
  have htrailer : (Packet.replace q i v).trailer = q.trailer := by
    rw [Packet.trailer, Packet.trailer, Packet.replace,
      List.getD_eq_getElem _ _ (by rw [List.length_set]; omega),
      List.getD_eq_getElem _ _ (by rw [List.length_set]; omega),
      List.getElem_set_ne (by omega), List.getElem_set_ne (by omega),
      List.getD_eq_getElem _ _ (by omega), List.getD_eq_getElem _ _ (by omega)]
  have hsum : (Packet.replace q i v).sum
      = byteSum ((q.bytes.take 275).set (2 + i) v) := by
    rw [Packet.sum, Packet.bytes_replace, List.take_set]
  have hin : 2 + i < (q.bytes.take 275).length := by
    rw [List.length_take]
    omega
  have hne : v ≠ (q.bytes.take 275)[2 + i] := by
    rw [List.getElem_take, ← List.getD_eq_getElem _ 0 (by omega), q.bytes_getD]
    exact hv
  intro hexact
  rw [Packet.Exact, htrailer, hq, hsum] at hexact
  exact byteSum_set_ne hin hne hexact.symm

/-- A replaced byte of the trailer keeps the sum and moves the trailer. -/
theorem Packet.Valid.not_exact_replace_trailer {q : Packet} (hq : q.Valid)
    {i : Nat} (hlo : 273 ≤ i) (hhi : i < 275) {v : UInt8}
    (hv : v ≠ q.body.getD i 0) : ¬ (Packet.replace q i v).Exact := by
  have hlen := q.length_body
  have hsum : (Packet.replace q i v).sum = q.sum := by
    rw [Packet.sum_eq, Packet.sum_eq, Packet.replace, List.take_set,
      List.set_eq_of_length_le]
    rw [List.length_take]
    omega
  rw [Packet.Exact, hsum]
  apply ne_of_ne_mod (Packet.trailer_lt _)
  rw [← hq]
  intro heq
  obtain ⟨hhigh, hlow⟩ := trailer_inj heq
  rw [Packet.replace, List.getD_eq_getElem _ _ (by rw [List.length_set]; omega),
    List.getD_eq_getElem _ _ (by omega), List.getElem_set] at hhigh hlow
  rw [List.getD_eq_getElem _ _ (by omega)] at hv
  rcases (by omega : i = 273 ∨ i = 274) with rfl | rfl
  · exact hv (by simpa using hhigh)
  · exact hv (by simpa using hlow)

/-- No replaced byte behind the header leaves a packet with the sum that its
trailer says. -/
theorem Packet.Valid.not_exact_replace {q : Packet} (hq : q.Valid) {i : Nat}
    (hi : i < 275) {v : UInt8} (hv : v ≠ q.body.getD i 0) :
    ¬ (Packet.replace q i v).Exact := by
  rcases Nat.lt_or_ge i 273 with hlt | hge
  · exact hq.not_exact_replace_body hlt hv
  · exact hq.not_exact_replace_trailer hge hi hv

/-- A packet with any one byte behind the header replaced is counted bad. -/
theorem feed_corrupted {d : Decoder} (hd : d.state = .waitH1) {q : Packet}
    (hq : q.Valid) {p : Nat} (hlo : 2 ≤ p) (hhi : p ≤ 276) {v : UInt8}
    (hv : v ≠ q.bytes.getD p 0) :
    ∃ d', feed d (q.bytes.set p v) = some d' ∧ d'.state = .waitH1 ∧
      d'.badPackets = d.badPackets + 1 ∧ d'.goodPackets = d.goodPackets ∧
      d'.updated = d.updated := by
  obtain ⟨i, rfl⟩ : ∃ i, p = 2 + i := ⟨p - 2, by omega⟩
  rw [q.bytes_getD] at hv
  have hbad := hq.not_exact_replace (by omega) hv
  obtain ⟨d', hrun, hstate, hcounted, _⟩ :=
    feed_packet hd (Packet.replace q i v)
  obtain ⟨hgood', hbad', hupd'⟩ := hcounted.of_not_exact hbad
  rw [Packet.bytes_replace] at hrun
  exact ⟨d', hrun, hstate, hbad', hgood', hupd'⟩

/-- The low trailer byte of the packet of zeros, replaced. -/
theorem feed_corrupted_zero :
    ∃ d', feed Decoder.reset (zeroPacket.bytes.set 276 0) = some d' ∧
      d'.state = .waitH1 ∧
      d'.badPackets = Decoder.reset.badPackets + 1 ∧
      d'.goodPackets = Decoder.reset.goodPackets ∧
      d'.updated = Decoder.reset.updated :=
  feed_corrupted rfl (valid_encode _ _ _) (by decide) (by decide)
    (by decide +kernel)

end EBLmon.Ebl
