import EBLmon.Ebl.Refine

/-!
# The verdict does not depend on the history

Two decoders that both wait for a header, with whatever earlier traffic has
left in their globals and statics, read the same stream.  The leftovers are
dead: `running_sum` is set by the first header byte, and `field_index` is set
before each of the two arrays.

Both decoders follow the receiver of `EBLmon.Lib.Framing` from the hunt, so
they agree on the control state and count the same packets.  The arrays keep
what they hold until they are written, so they agree from the first complete
packet on: it fills them, and `Tracks.arrays_congr` says that after that every
byte does the same to both.

`feed_alike` puts this together, at every place of every stream.
-/

namespace EBLmon.Ebl

open Machine Framing

/-! ## What a byte does to the arrays -/

section Arrays

variable {d d' e e' : Decoder} {p : Phase packetFormat} {c : UInt8}

/-- Only `array` and `adc` store the byte. -/
theorem decode_arrays_same (harray : d.state ≠ .array) (hadc : d.state ≠ .adc)
    (h : decode d c = some d') :
    d'.eblMem = d.eblMem ∧ d'.eblAdc = d.eblAdc := by
  cases hs : d.state with
  | waitH1 =>
    rw [decode_waitH1 hs, Option.some.injEq] at h
    rw [← h]
    split <;> exact ⟨rfl, rfl⟩
  | waitH2 =>
    rw [decode_waitH2 hs, Option.some.injEq] at h
    rw [← h]
    split <;> exact ⟨rfl, rfl⟩
  | array => exact absurd hs harray
  | status =>
    rw [decode_status hs, Option.some.injEq] at h
    rw [← h]
    exact ⟨rfl, rfl⟩
  | adc => exact absurd hs hadc
  | waitC1 =>
    rw [decode_waitC1 hs, Option.some.injEq] at h
    rw [← h]
    exact ⟨rfl, rfl⟩
  | waitC2 =>
    by_cases hsum : d.runningSum = c.toUInt32
    · rw [decode_waitC2_good hs hsum, Option.some.injEq] at h
      rw [← h]
      exact ⟨rfl, rfl⟩
    · rw [decode_waitC2_bad hs hsum, Option.some.injEq] at h
      rw [← h]
      exact ⟨rfl, rfl⟩

/-- Two decoders in one phase do the same to equal arrays: inside an array
the phase fixes the field index. -/
theorem Tracks.arrays_congr (hd : Tracks d p) (he : Tracks e p)
    (hmem : d.eblMem = e.eblMem) (hadc : d.eblAdc = e.eblAdc)
    (hd' : decode d c = some d') (he' : decode e c = some e') :
    d'.eblMem = e'.eblMem ∧ d'.eblAdc = e'.eblAdc := by
  have hstate : e.state = d.state := he.control.trans hd.control.symm
  by_cases harr : d.state = .array
  · obtain ⟨got, room, rfl, hbody⟩ :=
      hd.inBody (by rw [harr]; decide) (by rw [harr]; decide)
    obtain ⟨hlen, hindex⟩ := hbody.index_array harr
    have hbody' : InBody e got := he
    obtain ⟨_, hindex'⟩ := hbody'.index_array (hstate.trans harr)
    rw [decode_array harr hindex hlen, Option.some.injEq] at hd'
    rw [decode_array (hstate.trans harr) hindex' hlen, Option.some.injEq]
      at he'
    rw [← hd', ← he']
    exact ⟨by simp only [hmem], hadc⟩
  · by_cases hads : d.state = .adc
    · obtain ⟨got, room, rfl, hbody⟩ :=
        hd.inBody (by rw [hads]; decide) (by rw [hads]; decide)
      obtain ⟨j, hlen, hj, hindex⟩ := hbody.index_adc hads
      have hbody' : InBody e got := he
      obtain ⟨j', hlen', _, hindex'⟩ := hbody'.index_adc (hstate.trans hads)
      obtain rfl : j = j' := by omega
      rw [decode_adc hads hindex (by omega), Option.some.injEq] at hd'
      rw [decode_adc (hstate.trans hads) hindex' (by omega),
        Option.some.injEq] at he'
      rw [← hd', ← he']
      exact ⟨hmem, by simp only [hadc]⟩
    · obtain ⟨hdm, hda⟩ := decode_arrays_same harr hads hd'
      obtain ⟨hem, hea⟩ := decode_arrays_same (by rwa [hstate])
        (by rwa [hstate]) he'
      exact ⟨by rw [hdm, hem, hmem], by rw [hda, hea, hadc]⟩

end Arrays

/-! ## Two runs -/

/-- A whole frame has come in, in the cut of the stream into gap bytes and
frames. -/
def Completed (cs : List UInt8) : Prop :=
  ((Parse.start : Parse packetFormat).feed cs).frames ≠ []

theorem completed_iff (cs : List UInt8) :
    Completed cs ↔ (Phase.hunt : Phase packetFormat).frames cs ≠ [] := by
  unfold Completed
  rw [Parse.frames_feed]
  rfl

theorem Completed.append {cs : List UInt8} (h : Completed cs)
    (ds : List UInt8) : Completed (cs ++ ds) := by
  rw [completed_iff] at h ⊢
  rw [Phase.frames_append]
  exact List.append_ne_nil_of_left_ne_nil h _

/-- A frame that stays complete is complete in every longer part of the
stream. -/
theorem Completed.take_mono {cs : List UInt8} {j k : ℕ} (hjk : j ≤ k)
    (h : Completed (cs.take j)) : Completed (cs.take k) := by
  have hsplit : cs.take k = cs.take j ++ (cs.drop j).take (k - j) := by
    rw [← List.take_add, Nat.add_sub_cancel' hjk]
  rw [hsplit]
  exact h.append _

/-- From `d` to `d'` and from `e` to `e'`: the same control state, and the
same counts. -/
structure Alike (d e d' e' : Decoder) : Prop where
  state : d'.state = e'.state
  good : d'.goodPackets - d.goodPackets = e'.goodPackets - e.goodPackets
  bad : d'.badPackets - d.badPackets = e'.badPackets - e.badPackets
  rx : d'.rxCount - d.rxCount = e'.rxCount - e.rxCount

theorem sub_self_add (n m : UInt32) : n + m - n = m := by
  rw [UInt32.add_comm, UInt32.add_sub_cancel]

/-- Two decoders that follow the receiver along one stream. -/
theorem Follows.alike {d d' e e' : Decoder} {p : Phase packetFormat}
    {cs : List UInt8} (hd : Follows d p d' cs) (he : Follows e p e' cs) :
    Alike d e d' e' where
  state := hd.tracks.control.trans he.tracks.control.symm
  good := by
    rw [hd.counted.good, he.counted.good, sub_self_add, sub_self_add]
  bad := by
    rw [hd.counted.bad, he.counted.bad, sub_self_add, sub_self_add]
  rx := by
    rw [hd.rx, he.rx, sub_self_add, sub_self_add]

section TwoRuns

variable {d e : Decoder}

/-- Behind a complete frame the arrays agree.  The frame itself fills them;
from then on they stay equal byte by byte. -/
theorem arrays_agree (hd : d.state = .waitH1) (he : e.state = .waitH1)
    {cs : List UInt8} (hc : Completed cs) {d' e' : Decoder}
    (hd' : feed d cs = some d') (he' : feed e cs = some e') :
    d'.eblMem = e'.eblMem ∧ d'.eblAdc = e'.eblAdc := by
  induction cs using List.reverseRecOn generalizing d' e' with
  | nil => exact absurd rfl hc
  | append_singleton cs c ih =>
    obtain ⟨d₁, hd₁, hfd⟩ := feed_tracks (tracks_hunt hd) cs
    obtain ⟨e₁, he₁, hfe⟩ := feed_tracks (tracks_hunt he) cs
    have hdstep := (run_concat_of_eq_some c hd₁).symm.trans hd'
    have hestep := (run_concat_of_eq_some c he₁).symm.trans he'
    rcases Phase.frames_singleton_cases (Phase.hunt.feed cs) c with
      hnew | ⟨q, hnew⟩
    · have hold : Completed cs := by
        rw [completed_iff, Phase.frames_append, hnew, List.append_nil] at hc
        rw [completed_iff]
        exact hc
      obtain ⟨hmem, hadc⟩ := ih hold hd₁ he₁
      exact hfd.tracks.arrays_congr hfe.tracks hmem hadc hdstep hestep
    · -- the byte completes a frame, and both decoders hold its fields
      obtain ⟨d₂, hokd⟩ := decode_tracks hfd.tracks c
      obtain ⟨e₂, hoke⟩ := decode_tracks hfe.tracks c
      have hd₂ : d₂ = d' := Option.some.inj (hokd.run.symm.trans hdstep)
      have he₂ : e₂ = e' := Option.some.inj (hoke.run.symm.trans hestep)
      have hq : q ∈ (Phase.hunt.feed cs).frames [c] := by
        rw [hnew]
        exact List.mem_singleton_self q
      obtain ⟨hdm, hda⟩ := (hokd.fields q hq).holds
      obtain ⟨hem, hea⟩ := (hoke.fields q hq).holds
      rw [← hd₂, ← he₂]
      exact ⟨hdm.trans hem.symm, hda.trans hea.symm⟩

/-- After every byte of every stream the two decoders are in the same control
state and have counted the same, and from the first complete frame on their
arrays are equal. -/
theorem feed_alike (hd : d.state = .waitH1) (he : e.state = .waitH1)
    (cs : List UInt8) (k : ℕ) :
    ∃ d' e', feed d (cs.take k) = some d' ∧ feed e (cs.take k) = some e' ∧
      Alike d e d' e' ∧
      ∀ j, j ≤ k → Completed (cs.take j) →
        d'.eblMem = e'.eblMem ∧ d'.eblAdc = e'.eblAdc := by
  obtain ⟨d', hd', hfd⟩ := feed_tracks (tracks_hunt hd) (cs.take k)
  obtain ⟨e', he', hfe⟩ := feed_tracks (tracks_hunt he) (cs.take k)
  refine ⟨d', e', hd', he', hfd.alike hfe, fun j hjk hc => ?_⟩
  exact arrays_agree hd he (hc.take_mono hjk) hd' he'

/-- A decoder at reset and one that has rejected the start of a header, behind
a packet of zeros and the first bytes of the next one. -/
theorem feed_alike_zero :
    ∃ e, feed Decoder.reset [0x55, 0x00] = some e ∧
    ∃ d' e',
      feed Decoder.reset ((zeroPacket.bytes ++ [0x55, 0xaa, 1]).take 280)
        = some d' ∧
      feed e ((zeroPacket.bytes ++ [0x55, 0xaa, 1]).take 280) = some e' ∧
      Alike Decoder.reset e d' e' ∧
      ∀ j, j ≤ 280 →
        Completed ((zeroPacket.bytes ++ [0x55, 0xaa, 1]).take j) →
        d'.eblMem = e'.eblMem ∧ d'.eblAdc = e'.eblAdc := by
  obtain ⟨e, he, hfollows⟩ := feed_tracks tracks_reset [0x55, 0x00]
  exact ⟨e, he, feed_alike rfl hfollows.tracks _ 280⟩

end TwoRuns

end EBLmon.Ebl
