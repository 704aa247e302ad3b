import EBLmon.Ebl.Decode
import EBLmon.Ebl.Packet
import Mathlib.Tactic.SplitIfs

/-!
# `decode` refines the frame receiver

`EBLmon.Lib.Framing` has a receiver that keeps the bytes of the frame in
progress as a list.  This module relates `decode` to it.  `Tracks d p` says
what the globals and statics of `decode` hold in each phase `p`:

* hunting, only the control state matters;
* half way into a header, the running sum is the first header byte;
* with the body bytes `got` received, `InBody` fixes the control state, the
  field index, the running sum and the filled part of the two arrays.

`decode_tracks` is the step theorem.  It is the only place where the control
states of `decode` are taken one by one.  A step that completes a packet counts
it: `Counted` says that `good_packets` counts the packets with `Packet.Exact`
and `bad_packets` the others.  `feed_tracks` is the run theorem.
-/

namespace EBLmon.Ebl

open Machine Framing Checksum

/-! ## What the decoder holds inside a body -/

/-- The control state that waits for body byte `n`. -/
def controlAt (n : Nat) : DecodeState :=
  if n < 256 then .array
  else if n = 256 then .status
  else if n < 273 then .adc
  else if n = 273 then .waitC1
  else .waitC2

/-- The running sum after the body bytes `got`.  The first trailer byte is
taken out of it with weight 256. -/
def sumAt (got : List UInt8) : UInt32 :=
  UInt32.ofNat (255 + byteSum (got.take 273)) -
    UInt32.ofNat (256 * byteSum (got.drop 273))

/-- The arrays hold what the body bytes `got` say. -/
structure Fields (d : Decoder) (got : List UInt8) : Prop where
  mem : ∀ i (hi : i < 256), i < got.length → d.eblMem[i] = got.getD i 0
  adc : ∀ k (hk : k < 8), 257 + 2 * k < got.length →
    d.eblAdc[k] = adcOf got k

/-- The decoder has received the body bytes `got`. -/
structure InBody (d : Decoder) (got : List UInt8) : Prop where
  control : d.state = controlAt got.length
  memIndex : got.length ≤ 256 → d.fieldIndex = UInt32.ofNat got.length
  adcIndex : 257 ≤ got.length → got.length ≤ 273 →
    d.fieldIndex = UInt32.ofNat (got.length - 257)
  sum : d.runningSum = sumAt got
  fields : Fields d got

/-- The decoder is in phase `p` of the receiver. -/
def Tracks (d : Decoder) : Phase packetFormat → Prop
  | .hunt => d.state = .waitH1
  | .half => d.state = .waitH2 ∧ d.runningSum = 0x55
  | .body got _ => InBody d got

/-! ## Sums and indices -/

theorem toUInt32_eq (c : UInt8) : c.toUInt32 = UInt32.ofNat c.toNat :=
  (UInt32.ofNat_uInt8ToNat c).symm

theorem toUInt32_shift (c : UInt8) :
    c.toUInt32 <<< 8 = UInt32.ofNat (256 * c.toNat) := by
  have hc := UInt8.toNat_lt c
  apply UInt32.toNat.inj
  rw [UInt32.toNat_shiftLeft, UInt8.toNat_toUInt32, UInt32.toNat_ofNat',
    Nat.shiftLeft_eq, show (8 : UInt32).toNat % 32 = 8 from rfl]
  omega

/-- Below the trailer a byte is added to the sum. -/
theorem sumAt_concat {got : List UInt8} (c : UInt8) (h : got.length < 273) :
    sumAt (got ++ [c]) = sumAt got + c.toUInt32 := by
  have hlen : (got ++ [c]).length ≤ 273 := by
    rw [List.length_append, List.length_singleton]
    omega
  rw [sumAt, sumAt, List.take_of_length_le hlen, List.drop_eq_nil_of_le hlen,
    List.take_of_length_le (by omega), List.drop_eq_nil_of_le (by omega),
    byteSum_append, toUInt32_eq, byteSum_cons, byteSum_nil, Nat.add_zero,
    ← Nat.add_assoc, UInt32.ofNat_add (255 + byteSum got)]
  simp

/-- The first trailer byte is taken out of the sum. -/
theorem sumAt_concat_high {got : List UInt8} (c : UInt8)
    (h : got.length = 273) :
    sumAt (got ++ [c]) = sumAt got - c.toUInt32 <<< 8 := by
  rw [sumAt, sumAt, List.take_append_of_le_length (by omega),
    List.drop_append_of_le_length (by omega),
    List.drop_eq_nil_of_le (by omega), toUInt32_shift]
  simp

/-- Equality of the wrapped sums is equality of the sums: neither side reaches
`2 ^ 32`. -/
theorem sub_eq_ofNat_iff {s t u : Nat} (hs : s < 4294967296)
    (ht : t + u < 4294967296) :
    UInt32.ofNat s - UInt32.ofNat t = UInt32.ofNat u ↔ s = t + u := by
  rw [← UInt32.toNat_inj, UInt32.toNat_sub, UInt32.toNat_ofNat',
    UInt32.toNat_ofNat', UInt32.toNat_ofNat']
  omega

/-- What the last step compares is the checksum of the packet. -/
theorem sumAt_eq_iff_exact {got : List UInt8} {c : UInt8}
    (h : (got ++ [c]).length = packetFormat.bodyLen) :
    sumAt got = c.toUInt32 ↔ Packet.Exact ⟨got ++ [c], h⟩ := by
  have hlen : got.length = 274 := by
    rw [List.length_append, List.length_singleton, packetFormat_bodyLen] at h
    omega
  have hhigh : byteSum (got.drop 273) = (got.getD 273 0).toNat := by
    rw [List.drop_eq_getElem_cons (by omega), List.drop_eq_nil_of_le (by omega),
      byteSum_cons, byteSum_nil, List.getD_eq_getElem _ _ (by omega),
      Nat.add_zero]
  have hsum := byteSum_le (got.take 273)
  have hc := UInt8.toNat_lt c
  have hg := UInt8.toNat_lt (got.getD 273 0)
  rw [List.length_take, hlen] at hsum
  rw [sumAt, toUInt32_eq, hhigh, sub_eq_ofNat_iff (by omega) (by omega),
    Packet.Exact, Packet.sum_eq, Packet.trailer, Checksum.trailer,
    List.take_append_of_le_length (by omega),
    List.getD_append _ _ _ _ (by omega),
    List.getD_append_right _ _ _ _ (by omega), hlen]
  exact eq_comm

/-! ## The arrays after one more byte -/

theorem adcOf_concat {got : List UInt8} {k : Nat} (c : UInt8)
    (h : 258 + 2 * k < got.length) : adcOf (got ++ [c]) k = adcOf got k := by
  rw [adcOf, adcOf, List.getD_append _ _ _ _ (by omega),
    List.getD_append _ _ _ _ (by omega)]

/-- A byte that is not stored: the status byte or a trailer byte. -/
theorem Fields.concat_same {d d' : Decoder} {got : List UInt8} (c : UInt8)
    (h : Fields d got) (hmem : d'.eblMem = d.eblMem)
    (hadc : d'.eblAdc = d.eblAdc)
    (hlen : got.length = 256 ∨ 273 ≤ got.length) :
    Fields d' (got ++ [c]) := by
  refine ⟨fun i hi hgot => ?_, fun k hk hgot => ?_⟩
  · rw [hmem, List.getD_append _ _ _ _ (by omega), h.mem i hi (by omega)]
  · rw [List.length_append, List.length_singleton] at hgot
    rw [hadc, adcOf_concat c (by omega), h.adc k hk (by omega)]

/-- A byte of the memory dump. -/
theorem Fields.concat_mem {d d' : Decoder} {got : List UInt8} {c : UInt8}
    (h : Fields d got) (hlen : got.length < 256)
    (hmem : d'.eblMem = d.eblMem.set got.length c hlen) :
    Fields d' (got ++ [c]) := by
  refine ⟨fun i hi hgot => ?_, fun k hk hgot => ?_⟩
  · rw [List.length_append, List.length_singleton] at hgot
    by_cases hig : i = got.length
    · subst hig
      simp [hmem]
    · rw [List.getD_append _ _ _ _ (by omega), ← h.mem i hi (by omega)]
      simp only [hmem]
      rw [Vector.getElem_set_ne hlen hi (Ne.symm hig)]
  · rw [List.length_append, List.length_singleton] at hgot
    omega

/-- A byte of the ADC field.  A low byte replaces its word; the high byte is
added to a word that holds the low byte only. -/
theorem Fields.concat_adc {d d' : Decoder} {got : List UInt8} {c : UInt8}
    {j : Nat} (h : Fields d got) (hj : j / 2 < 8)
    (hlen : got.length = 257 + j) (hmem : d'.eblMem = d.eblMem)
    (hadc : d'.eblAdc = d.eblAdc.set (j / 2) (adcWord d.eblAdc[j / 2] j c) hj) :
    Fields d' (got ++ [c]) := by
  refine ⟨fun i hi hgot => ?_, fun k hk hgot => ?_⟩
  · rw [hmem, List.getD_append _ _ _ _ (by omega), h.mem i hi (by omega)]
  · rw [List.length_append, List.length_singleton] at hgot
    by_cases hkj : k = j / 2
    · subst hkj
      simp only [hadc, Vector.getElem_set_self]
      rw [adcWord]
      by_cases hlow : j % 2 = 0
      · -- the word is the low byte; no high byte has arrived
        have hat : 257 + 2 * (j / 2) = got.length := by omega
        have hlo : (got ++ [c]).getD (257 + 2 * (j / 2)) 0 = c := by
          rw [hat, List.getD_append_right _ _ _ _ (Nat.le_refl _)]
          simp
        have hhi : (got ++ [c]).getD (258 + 2 * (j / 2)) 0 = 0 :=
          List.getD_eq_default _ _ (by simp; omega)
        rw [if_pos hlow, adcOf, hlo, hhi]
        simp
      · have hat : 258 + 2 * (j / 2) = got.length := by omega
        have hlo : (got ++ [c]).getD (257 + 2 * (j / 2)) 0
            = got.getD (257 + 2 * (j / 2)) 0 :=
          List.getD_append _ _ _ _ (by omega)
        have hhi : (got ++ [c]).getD (258 + 2 * (j / 2)) 0 = c := by
          rw [hat, List.getD_append_right _ _ _ _ (Nat.le_refl _)]
          simp
        have hnone : got.getD (258 + 2 * (j / 2)) 0 = 0 :=
          List.getD_eq_default _ _ (by omega)
        rw [if_neg hlow, h.adc (j / 2) (by omega) (by omega), adcOf, adcOf,
          hlo, hhi, hnone]
        simp
    · rw [adcOf_concat c (by omega), ← h.adc k hk (by omega)]
      simp only [hadc]
      rw [Vector.getElem_set_ne _ hk (Ne.symm hkj)]

/-! ## Counting packets -/

/-- The packets with the checksum that `decode` accepts. -/
def goodCount (ps : List Packet) : Nat := ps.countP fun p => p.Exact

/-- The packets without it. -/
def badCount (ps : List Packet) : Nat := ps.countP fun p => ¬ p.Exact

theorem goodCount_append (ps qs : List Packet) :
    goodCount (ps ++ qs) = goodCount ps + goodCount qs :=
  List.countP_append

theorem badCount_append (ps qs : List Packet) :
    badCount (ps ++ qs) = badCount ps + badCount qs :=
  List.countP_append

/-- Every packet is counted once. -/
theorem goodCount_add_badCount (ps : List Packet) :
    goodCount ps + badCount ps = ps.length := by
  rw [goodCount, badCount,
    List.length_eq_countP_add_countP (fun p : Packet => decide p.Exact)]
  simp

/-- From `d` to `d'` the decoder has counted the packets `ps`. -/
structure Counted (d d' : Decoder) (ps : List Packet) : Prop where
  good : d'.goodPackets = d.goodPackets + UInt32.ofNat (goodCount ps)
  bad : d'.badPackets = d.badPackets + UInt32.ofNat (badCount ps)
  updated : d'.updated = (d.updated || ps.any fun p => p.Exact)

theorem Counted.none {d d' : Decoder} (hgood : d'.goodPackets = d.goodPackets)
    (hbad : d'.badPackets = d.badPackets) (hupd : d'.updated = d.updated) :
    Counted d d' [] := by
  refine ⟨?_, ?_, ?_⟩
  · rw [hgood]
    exact (UInt32.add_zero _).symm
  · rw [hbad]
    exact (UInt32.add_zero _).symm
  · rw [hupd, List.any_nil, Bool.or_false]

theorem Counted.refl (d : Decoder) : Counted d d [] :=
  Counted.none rfl rfl rfl

theorem Counted.trans {d d' d'' : Decoder} {ps qs : List Packet}
    (h : Counted d d' ps) (h' : Counted d' d'' qs) :
    Counted d d'' (ps ++ qs) := by
  refine ⟨?_, ?_, ?_⟩
  · rw [h'.good, h.good, goodCount_append, UInt32.ofNat_add, UInt32.add_assoc]
  · rw [h'.bad, h.bad, badCount_append, UInt32.ofNat_add, UInt32.add_assoc]
  · rw [h'.updated, h.updated, List.any_append, Bool.or_assoc]

/-- The counters after a packet that `decode` accepts. -/
theorem Counted.of_exact {d d' : Decoder} {q : Packet}
    (h : Counted d d' [q]) (hq : q.Exact) :
    d'.goodPackets = d.goodPackets + 1 ∧ d'.badPackets = d.badPackets ∧
      d'.updated = true := by
  refine ⟨?_, ?_, ?_⟩
  · rw [h.good]
    simp [goodCount, hq]
  · rw [h.bad]
    simp [badCount, hq]
  · rw [h.updated]
    simp [hq]

/-- The counters after a packet that `decode` rejects. -/
theorem Counted.of_not_exact {d d' : Decoder} {q : Packet}
    (h : Counted d d' [q]) (hq : ¬ q.Exact) :
    d'.goodPackets = d.goodPackets ∧ d'.badPackets = d.badPackets + 1 ∧
      d'.updated = d.updated := by
  refine ⟨?_, ?_, ?_⟩
  · rw [h.good]
    simp [goodCount, hq]
  · rw [h.bad]
    simp [badCount, hq]
  · rw [h.updated]
    simp [hq]

/-! ## One byte -/

/-- One call of `decode` in phase `p`. -/
structure StepOk (d : Decoder) (p : Phase packetFormat) (c : UInt8)
    (d' : Decoder) : Prop where
  run : decode d c = some d'
  tracks : Tracks d' (p.step c)
  counted : Counted d d' (p.frames [c])
  rx : d'.rxCount = d.rxCount + 1
  fields : ∀ q ∈ p.frames [c], Fields d' q.body
  same : p.frames [c] = [] → (p.step c).received = [] →
    p.received = [] ∧ d'.eblMem = d.eblMem ∧ d'.eblAdc = d.eblAdc

section Step

variable {d : Decoder} {c : UInt8} {got : List UInt8}

theorem stepOk_hunt (h : d.state = .waitH1) :
    ∃ d', StepOk d .hunt c d' := by
  have hframes : (Phase.hunt : Phase packetFormat).frames [c] = [] := by
    rw [Phase.frames_singleton, Phase.out]
    split <;> rfl
  refine ⟨_, decode_waitH1 h, ?_, ?_, ?_, by rw [hframes]; simp, ?_⟩
  · by_cases hc : c = 0x55
    · rw [if_pos hc, Phase.step, packetFormat_h1, if_pos hc]
      exact ⟨rfl, by rw [hc]; rfl⟩
    · rw [if_neg hc, Phase.step, packetFormat_h1, if_neg hc]
      exact h
  · rw [hframes]
    split <;> exact Counted.none rfl rfl rfl
  · split <;> rfl
  · intro _ _
    split <;> exact ⟨rfl, rfl, rfl⟩

theorem stepOk_half (h : d.state = .waitH2) (hsum : d.runningSum = 0x55) :
    ∃ d', StepOk d .half c d' := by
  have hframes : (Phase.half : Phase packetFormat).frames [c] = [] := by
    rw [Phase.frames_singleton, Phase.out]
    split <;> rfl
  refine ⟨_, decode_waitH2 h, ?_, ?_, ?_, by rw [hframes]; simp, ?_⟩
  · by_cases hc : c = 0xaa
    · rw [if_pos hc, Phase.step, packetFormat_h2, if_pos hc]
      refine ⟨rfl, fun _ => rfl, fun h => absurd h (by simp), ?_, ?_, ?_⟩
      · rw [Decoder.receive, hsum, hc]
        rfl
      · intro i _ h
        exact absurd h (by simp)
      · intro k _ h
        exact absurd h (by simp)
    · rw [if_neg hc, Phase.step, packetFormat_h2, if_neg hc]
      rfl
  · rw [hframes]
    split <;> exact Counted.none rfl rfl rfl
  · split <;> rfl
  · intro _ _
    split <;> exact ⟨rfl, rfl, rfl⟩

/-- A byte that does not complete the body. -/
theorem stepOk_room {d' : Decoder} {h : got.length < packetFormat.bodyLen}
    (hlen : got.length < 274) (hrun : decode d c = some d')
    (hbody : InBody d' (got ++ [c])) (hcounted : Counted d d' [])
    (hrx : d'.rxCount = d.rxCount + 1) : StepOk d (.body got h) c d' := by
  have room : (got ++ [c]).length < packetFormat.bodyLen := by
    rw [List.length_append, List.length_singleton, packetFormat_bodyLen]
    omega
  obtain ⟨hstep, hout⟩ := Phase.step_body_room (h := h) room
  have hframes : (Phase.body got h).frames [c] = [] := by
    rw [Phase.frames_singleton, hout]
    rfl
  refine ⟨hrun, ?_, ?_, hrx, ?_, ?_⟩
  · rw [hstep]
    exact hbody
  · rw [hframes]
    exact hcounted
  · rw [hframes]
    simp
  · rw [hstep]
    intro _ hnil
    exact absurd hnil (by simp [Phase.received])

theorem controlAt_concat (got : List UInt8) (c : UInt8) :
    controlAt (got ++ [c]).length = controlAt (got.length + 1) := by
  rw [List.length_append, List.length_singleton]

theorem stepOk_mem {h : got.length < packetFormat.bodyLen}
    (hbody : InBody d got) (hlen : got.length < 256) :
    ∃ d', StepOk d (.body got h) c d' := by
  have hstate : d.state = .array := by
    rw [hbody.control, controlAt, if_pos hlen]
  have hindex := hbody.memIndex (by omega)
  refine ⟨_, stepOk_room (by omega) (decode_array hstate hindex hlen)
    ⟨?_, ?_, ?_, ?_, ?_⟩ (Counted.none rfl rfl rfl) rfl⟩
  · rw [controlAt_concat]
    by_cases hlast : got.length + 1 = 256
    · rw [if_pos hlast, hlast]
      rfl
    · rw [if_neg hlast, controlAt, if_pos (by omega)]
  · intro _
    rw [List.length_append, List.length_singleton]
  · intro hge _
    rw [List.length_append, List.length_singleton] at hge
    omega
  · rw [sumAt_concat c (by omega), ← hbody.sum]
    rfl
  · exact hbody.fields.concat_mem hlen rfl

theorem stepOk_status {h : got.length < packetFormat.bodyLen}
    (hbody : InBody d got) (hlen : got.length = 256) :
    ∃ d', StepOk d (.body got h) c d' := by
  have hstate : d.state = .status := by
    rw [hbody.control, hlen]
    rfl
  refine ⟨_, stepOk_room (by omega) (decode_status hstate)
    ⟨?_, ?_, ?_, ?_, ?_⟩ (Counted.none rfl rfl rfl) rfl⟩
  · rw [controlAt_concat, hlen]
    rfl
  · intro hle
    rw [List.length_append, List.length_singleton] at hle
    omega
  · intro _ _
    rw [List.length_append, List.length_singleton, hlen]
    rfl
  · rw [sumAt_concat c (by omega), ← hbody.sum]
    rfl
  · exact hbody.fields.concat_same c rfl rfl (Or.inl hlen)

theorem stepOk_adc {h : got.length < packetFormat.bodyLen}
    (hbody : InBody d got) (hlo : 257 ≤ got.length) (hhi : got.length < 273) :
    ∃ d', StepOk d (.body got h) c d' := by
  obtain ⟨j, hj⟩ : ∃ j, got.length = 257 + j := ⟨got.length - 257, by omega⟩
  have hstate : d.state = .adc := by
    rw [hbody.control, controlAt, if_neg (by omega), if_neg (by omega),
      if_pos hhi]
  have hindex : d.fieldIndex = UInt32.ofNat j := by
    rw [hbody.adcIndex hlo (by omega), hj, Nat.add_sub_cancel_left]
  refine ⟨_, stepOk_room (by omega) (decode_adc hstate hindex (by omega))
    ⟨?_, ?_, ?_, ?_, ?_⟩ (Counted.none rfl rfl rfl) rfl⟩
  · rw [controlAt_concat]
    by_cases hlast : j + 1 = 16
    · rw [if_pos hlast, show got.length + 1 = 273 by omega]
      rfl
    · rw [if_neg hlast, controlAt, if_neg (by omega), if_neg (by omega),
        if_pos (by omega)]
  · intro hle
    rw [List.length_append, List.length_singleton] at hle
    omega
  · intro _ _
    rw [List.length_append, List.length_singleton,
      show got.length + 1 - 257 = j + 1 by omega]
  · rw [sumAt_concat c hhi, ← hbody.sum]
    rfl
  · exact hbody.fields.concat_adc (by omega) hj rfl rfl

theorem stepOk_high {h : got.length < packetFormat.bodyLen}
    (hbody : InBody d got) (hlen : got.length = 273) :
    ∃ d', StepOk d (.body got h) c d' := by
  have hstate : d.state = .waitC1 := by
    rw [hbody.control, hlen]
    rfl
  refine ⟨_, stepOk_room (by omega) (decode_waitC1 hstate)
    ⟨?_, ?_, ?_, ?_, ?_⟩ (Counted.none rfl rfl rfl) rfl⟩
  · rw [controlAt_concat, hlen]
    rfl
  · intro hle
    rw [List.length_append, List.length_singleton] at hle
    omega
  · intro _ hle
    rw [List.length_append, List.length_singleton] at hle
    omega
  · rw [sumAt_concat_high c hlen, ← hbody.sum]
  · exact hbody.fields.concat_same c rfl rfl (Or.inr (by omega))

/-- The last byte: the comparison of `decode` is the checksum of the packet. -/
theorem stepOk_low {h : got.length < packetFormat.bodyLen}
    (hbody : InBody d got) (hlen : got.length = 274) :
    ∃ d', StepOk d (.body got h) c d' := by
  have hstate : d.state = .waitC2 := by
    rw [hbody.control, hlen]
    rfl
  have full : (got ++ [c]).length = packetFormat.bodyLen := by
    rw [List.length_append, List.length_singleton, hlen, packetFormat_bodyLen]
  obtain ⟨hstep, hout⟩ := Phase.step_body_last (h := h) full
  have hframes : (Phase.body got h).frames [c] = [⟨got ++ [c], full⟩] := by
    rw [Phase.frames_singleton, hout]
    rfl
  have hiff : d.runningSum = c.toUInt32 ↔
      Packet.Exact ⟨got ++ [c], full⟩ := by
    rw [hbody.sum]
    exact sumAt_eq_iff_exact full
  by_cases hsum : d.runningSum = c.toUInt32
  · have hexact := hiff.mp hsum
    refine ⟨_, decode_waitC2_good hstate hsum, ?_, ?_, rfl, ?_,
      fun hnil => absurd hnil (by simp [hframes])⟩
    · rw [hstep]
      rfl
    · rw [hframes]
      refine ⟨?_, ?_, ?_⟩
      · simp [goodCount, hexact]
      · simp [badCount, hexact, Decoder.receive]
      · simp [hexact]
    · rw [hframes]
      simp only [List.mem_singleton, forall_eq]
      exact hbody.fields.concat_same c rfl rfl (Or.inr (by omega))
  · have hexact : ¬ Packet.Exact ⟨got ++ [c], full⟩ :=
      fun he => hsum (hiff.mpr he)
    refine ⟨_, decode_waitC2_bad hstate hsum, ?_, ?_, rfl, ?_,
      fun hnil => absurd hnil (by simp [hframes])⟩
    · rw [hstep]
      rfl
    · rw [hframes]
      refine ⟨?_, ?_, ?_⟩
      · simp [goodCount, hexact, Decoder.receive]
      · simp [badCount, hexact]
      · simp [hexact, Decoder.receive]
    · rw [hframes]
      simp only [List.mem_singleton, forall_eq]
      exact hbody.fields.concat_same c rfl rfl (Or.inr (by omega))

end Step

/-- The step theorem: one call of `decode` is one step of the receiver. -/
theorem decode_tracks {d : Decoder} {p : Phase packetFormat}
    (h : Tracks d p) (c : UInt8) : ∃ d', StepOk d p c d' := by
  cases p with
  | hunt => exact stepOk_hunt h
  | half => exact stepOk_half h.1 h.2
  | body got room =>
    have hroom : got.length < 275 := room
    by_cases h1 : got.length < 256
    · exact stepOk_mem h h1
    · by_cases h2 : got.length = 256
      · exact stepOk_status h h2
      · by_cases h3 : got.length < 273
        · exact stepOk_adc h (by omega) h3
        · by_cases h4 : got.length = 273
          · exact stepOk_high h h4
          · exact stepOk_low h (by omega)

/-! ## Reading the phase off the decoder -/

/-- The control state of a phase. -/
def controlOf : Phase packetFormat → DecodeState
  | .hunt => .waitH1
  | .half => .waitH2
  | .body got _ => controlAt got.length

theorem Tracks.control {d : Decoder} {p : Phase packetFormat}
    (h : Tracks d p) : d.state = controlOf p := by
  cases p with
  | hunt => exact h
  | half => exact h.1
  | body got room =>
    have hbody : InBody d got := h
    exact hbody.control

/-- Outside of the two hunting states a body is in progress. -/
theorem Tracks.inBody {d : Decoder} {p : Phase packetFormat} (h : Tracks d p)
    (h1 : d.state ≠ .waitH1) (h2 : d.state ≠ .waitH2) :
    ∃ got room, p = .body got room ∧ InBody d got := by
  cases p with
  | hunt => exact absurd h h1
  | half => exact absurd h.1 h2
  | body got room => exact ⟨got, room, rfl, h⟩

theorem controlAt_array {n : Nat} (h : controlAt n = .array) : n < 256 := by
  unfold controlAt at h
  split_ifs at h
  assumption

theorem controlAt_status {n : Nat} (h : controlAt n = .status) : n = 256 := by
  unfold controlAt at h
  split_ifs at h
  assumption

theorem controlAt_adc {n : Nat} (h : controlAt n = .adc) :
    257 ≤ n ∧ n < 273 := by
  unfold controlAt at h
  split_ifs at h
  omega

theorem controlAt_waitC1 {n : Nat} (h : controlAt n = .waitC1) : n = 273 := by
  unfold controlAt at h
  split_ifs at h
  assumption

/-- The field index in `array`. -/
theorem InBody.index_array {d : Decoder} {got : List UInt8}
    (h : InBody d got) (hs : d.state = .array) :
    got.length < 256 ∧ d.fieldIndex = UInt32.ofNat got.length := by
  have hlen := controlAt_array (h.control.symm.trans hs)
  exact ⟨hlen, h.memIndex (by omega)⟩

/-- The field index in `adc`. -/
theorem InBody.index_adc {d : Decoder} {got : List UInt8}
    (h : InBody d got) (hs : d.state = .adc) :
    ∃ j, got.length = 257 + j ∧ j < 16 ∧ d.fieldIndex = UInt32.ofNat j := by
  obtain ⟨hlo, hhi⟩ := controlAt_adc (h.control.symm.trans hs)
  exact ⟨got.length - 257, by omega, by omega, h.adcIndex hlo (by omega)⟩

/-! ## The verdict on a packet -/

/-- The arrays hold the fields of packet `q`. -/
def Holds (d : Decoder) (q : Packet) : Prop :=
  d.eblMem = q.mem ∧ d.eblAdc = q.adc

theorem Fields.holds {d : Decoder} {q : Packet} (h : Fields d q.body) :
    Holds d q := by
  have hlen := q.length_body
  refine ⟨Vector.ext fun i hi => ?_, Vector.ext fun k hk => ?_⟩
  · rw [h.mem i hi (by omega), Packet.mem, Vector.getElem_ofFn]
  · rw [h.adc k hk (by omega), Packet.adc, Vector.getElem_ofFn]

/-- The arrays keep the last packet, or hold a new one. -/
theorem StepOk.holds_last {d d' : Decoder} {p : Phase packetFormat}
    {c : UInt8} (h : StepOk d p c d') {ps : List Packet}
    (hd : ∀ q, ps.getLast? = some q → p.received = [] → Holds d q) {q : Packet}
    (hlast : (ps ++ p.frames [c]).getLast? = some q)
    (hnil : (p.step c).received = []) : Holds d' q := by
  cases hnew : p.frames [c] with
  | nil =>
    -- the packet is an old one, and this byte was not stored
    rw [hnew, List.append_nil] at hlast
    obtain ⟨hrec, hmem, hadc⟩ := h.same hnew hnil
    obtain ⟨hm, ha⟩ := hd q hlast hrec
    exact ⟨hmem.trans hm, hadc.trans ha⟩
  | cons f fs =>
    rw [List.getLast?_append_of_ne_nil _ (by simp [hnew])] at hlast
    exact (h.fields q (List.mem_of_getLast? hlast)).holds

/-- What one byte does to the counters and the flag, with the packets that it
completes. -/
inductive Verdict (d d' : Decoder) : List Packet → Prop where
  | none (good : d'.goodPackets = d.goodPackets)
      (bad : d'.badPackets = d.badPackets)
      (updated : d'.updated = d.updated) : Verdict d d' []
  | good (q : Packet) (exact : q.Exact) (holds : Holds d' q)
      (good : d'.goodPackets = d.goodPackets + 1)
      (bad : d'.badPackets = d.badPackets)
      (updated : d'.updated = true) : Verdict d d' [q]
  | bad (q : Packet) (exact : ¬ q.Exact)
      (good : d'.goodPackets = d.goodPackets)
      (bad : d'.badPackets = d.badPackets + 1)
      (updated : d'.updated = d.updated) : Verdict d d' [q]

theorem StepOk.verdict {d d' : Decoder} {p : Phase packetFormat} {c : UInt8}
    (h : StepOk d p c d') : Verdict d d' (p.frames [c]) := by
  have hcounted := h.counted
  have hfields := h.fields
  rcases p.frames_singleton_cases c with hnew | ⟨q, hnew⟩
  · rw [hnew] at hcounted ⊢
    refine Verdict.none ?_ ?_ ?_
    · rw [hcounted.good]
      exact UInt32.add_zero _
    · rw [hcounted.bad]
      exact UInt32.add_zero _
    · rw [hcounted.updated, List.any_nil, Bool.or_false]
  · rw [hnew] at hcounted hfields ⊢
    by_cases hq : Packet.Exact q
    · obtain ⟨hgood, hbad, hupd⟩ := hcounted.of_exact hq
      exact Verdict.good q hq (hfields q List.mem_cons_self).holds hgood hbad
        hupd
    · obtain ⟨hgood, hbad, hupd⟩ := hcounted.of_not_exact hq
      exact Verdict.bad q hq hgood hbad hupd

/-- The flag is set by a step that counts a packet good, and kept by every
other step. -/
theorem Verdict.updated_iff {d d' : Decoder} {ps : List Packet}
    (h : Verdict d d' ps) :
    d'.updated = true ↔
      d.updated = true ∨ d'.goodPackets = d.goodPackets + 1 := by
  cases h with
  | none good bad updated =>
    rw [updated, good, or_iff_left (ne_add_one _)]
  | good q exact holds good bad updated =>
    exact iff_of_true updated (Or.inr good)
  | bad q exact good bad updated =>
    rw [updated, good, or_iff_left (ne_add_one _)]

/-! ## A stream -/

/-- From `d` in phase `p` the stream `cs` has led to `d'`.  The arrays hold
the last complete packet as long as no body byte of the next one has come
in. -/
structure Follows (d : Decoder) (p : Phase packetFormat) (d' : Decoder)
    (cs : List UInt8) : Prop where
  tracks : Tracks d' (p.feed cs)
  counted : Counted d d' (p.frames cs)
  rx : d'.rxCount = d.rxCount + UInt32.ofNat cs.length
  holds : ∀ q, (p.frames cs).getLast? = some q → (p.feed cs).received = [] →
    Holds d' q

theorem Follows.refl {d : Decoder} {p : Phase packetFormat} (h : Tracks d p) :
    Follows d p d [] :=
  ⟨h, Counted.refl d, (UInt32.add_zero _).symm, by simp⟩

theorem Follows.concat {d d' d'' : Decoder} {p : Phase packetFormat}
    {cs : List UInt8} {c : UInt8} (h : Follows d p d' cs)
    (hstep : StepOk d' (p.feed cs) c d'') : Follows d p d'' (cs ++ [c]) := by
  refine ⟨?_, ?_, ?_, ?_⟩
  · rw [Phase.feed_append]
    exact hstep.tracks
  · rw [Phase.frames_append]
    exact h.counted.trans hstep.counted
  · rw [hstep.rx, h.rx, List.length_append, List.length_singleton,
      UInt32.ofNat_add, UInt32.add_assoc]
    rfl
  · intro q hlast hnil
    rw [Phase.frames_append] at hlast
    rw [Phase.feed_append] at hnil
    exact hstep.holds_last h.holds hlast hnil

/-- The run theorem: `decode` is defined on every stream and follows the
receiver. -/
theorem feed_tracks {d : Decoder} {p : Phase packetFormat} (h : Tracks d p)
    (cs : List UInt8) : ∃ d', feed d cs = some d' ∧ Follows d p d' cs := by
  refine run_history (P := fun d' cs => Follows d p d' cs) ?_
    (Follows.refl h) cs
  intro d' cs c hd'
  obtain ⟨d'', hstep⟩ := decode_tracks hd'.tracks c
  exact ⟨d'', hstep.run, hd'.concat hstep⟩

/-- A decoder that waits for a header is in the hunt, whatever else it
holds. -/
theorem tracks_hunt {d : Decoder} (h : d.state = .waitH1) :
    Tracks d .hunt := h

theorem tracks_reset : Tracks Decoder.reset .hunt := rfl

end EBLmon.Ebl
