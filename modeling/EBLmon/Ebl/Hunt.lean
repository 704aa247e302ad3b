import EBLmon.Ebl.Refine

/-!
# Hunting for a header

The control states `waitH1` and `waitH2` of `decode`, over whole streams.

`OpensAtFirstHeader d cs` says that `decode` enters `array` for the first time
at the byte that completes the first pair `0x55 0xaa` of `cs`, and never
without such a pair.  `decode` does not keep this for every stream.  When the
byte after a `0x55` is not `0xaa`, it goes back to `waitH1` also when that byte
is a `0x55` itself and could start the header.  So a run of `0x55` bytes is
taken in pairs, and a header is found when the run that it ends has odd length:
`opensAtFirstHeader_iff` is the exact condition.
-/

namespace EBLmon.Ebl

open Machine Framing

/-- `decode` has just entered `array`. -/
structure Opened (d : Decoder) : Prop where
  state : d.state = .array
  fieldIndex : d.fieldIndex = 0
  runningSum : d.runningSum = 0x55 + 0xaa

/-- The body is open exactly behind the first header of the stream. -/
structure OpensAtFirstHeader (d : Decoder) (cs : List UInt8) : Prop where
  opens : ∀ i, FirstPair packetFormat cs i →
    ∃ d', feed d (cs.take (i + 2)) = some d' ∧ Opened d'
  notBefore : ∀ i, FirstPair packetFormat cs i → ∀ k, k < i + 2 →
    ∃ d', feed d (cs.take k) = some d' ∧ d'.state ≠ .array
  never : NoPair packetFormat cs → ∀ k,
    ∃ d', feed d (cs.take k) = some d' ∧ d'.state ≠ .array

/-- The run of `0x55` bytes that ends in the first header has odd length. -/
def OddRun (cs : List UInt8) : Prop :=
  ∀ i, FirstPair packetFormat cs i → trailing 0x55 (cs.take (i + 1)) % 2 = 1

variable {d : Decoder} {cs : List UInt8}

/-- The phase behind a header fixes the three variables. -/
theorem Tracks.opened {room : 0 < packetFormat.bodyLen}
    (h : Tracks d (.body [] room)) : Opened d := by
  have hbody : InBody d [] := h
  exact ⟨hbody.control, hbody.memIndex (Nat.zero_le _), hbody.sum⟩

/-- Outside a body the control state is one of the two hunting states. -/
theorem Tracks.state_ne_array {p : Phase packetFormat} (h : Tracks d p)
    (hp : p = .hunt ∨ p = .half) : d.state ≠ .array := by
  rcases hp with rfl | rfl
  · rw [show d.state = .waitH1 from h]
    decide
  · rw [h.1]
    decide

/-- No body opens in a stream without a header. -/
theorem feed_noPair (hd : d.state = .waitH1) (h : NoPair packetFormat cs) :
    ∃ d', feed d cs = some d' ∧ d'.state ≠ .array := by
  obtain ⟨d', hrun, hfollows⟩ := feed_tracks (tracks_hunt hd) cs
  exact ⟨d', hrun, hfollows.tracks.state_ne_array (Phase.feed_of_noPair h)⟩

/-- The decoder at the byte that completes the first header. -/
theorem feed_firstPair {i : Nat} (hd : d.state = .waitH1)
    (h : FirstPair packetFormat cs i) :
    ∃ d', feed d (cs.take (i + 2)) = some d' ∧
      if trailing 0x55 (cs.take (i + 1)) % 2 = 1 then Opened d'
      else d'.state = .waitH1 := by
  obtain ⟨d', hrun, hfollows⟩ := feed_tracks (tracks_hunt hd) (cs.take (i + 2))
  have htracks := hfollows.tracks
  rw [Phase.feed_firstPair h, packetFormat_h1] at htracks
  refine ⟨d', hrun, ?_⟩
  split at htracks
  · rename_i hodd
    rw [if_pos hodd]
    exact htracks.opened
  · rename_i heven
    rw [if_neg heven]
    exact htracks

/-- The first header is found exactly when the run of `0x55` bytes that it
ends has odd length. -/
theorem opensAtFirstHeader_iff (hd : d.state = .waitH1) :
    OpensAtFirstHeader d cs ↔ OddRun cs := by
  constructor
  · intro h i hi
    by_contra heven
    obtain ⟨d₁, hrun₁, hopen⟩ := h.opens i hi
    obtain ⟨d₂, hrun₂, hstate⟩ := feed_firstPair hd hi
    rw [if_neg heven] at hstate
    rw [hrun₁, Option.some.injEq] at hrun₂
    subst hrun₂
    rw [hopen.state] at hstate
    exact absurd hstate (by decide)
  · intro h
    refine ⟨fun i hi => ?_, fun i hi k hk => ?_, fun hnone k => ?_⟩
    · obtain ⟨d', hrun, hopen⟩ := feed_firstPair hd hi
      rw [if_pos (h i hi)] at hopen
      exact ⟨d', hrun, hopen⟩
    · exact feed_noPair hd (hi.noPair_take (by omega))
    · exact feed_noPair hd (hnone.take k)

/-- A header behind a gap byte, read from reset. -/
theorem opensAtFirstHeader_gap :
    OpensAtFirstHeader Decoder.reset [0x00, 0x55, 0xaa] ↔
      OddRun [0x00, 0x55, 0xaa] :=
  opensAtFirstHeader_iff rfl

/-- A header behind one more `0x55` is missed. -/
theorem not_opensAtFirstHeader_double :
    ¬ OpensAtFirstHeader Decoder.reset [0x55, 0x55, 0xaa] := by
  intro h
  have hfirst : FirstPair packetFormat [0x55, 0x55, 0xaa] 1 := by
    refine ⟨⟨rfl, rfl⟩, fun j hj hpair => ?_⟩
    rw [Nat.lt_one_iff.mp hj] at hpair
    exact absurd hpair.2 (by decide)
  obtain ⟨d', hrun, hopen⟩ := h.opens 1 hfirst
  have hstate : (feed Decoder.reset [0x55, 0x55, 0xaa]).map Decoder.state
      = some .waitH1 := by
    decide +kernel
  have hrun' : feed Decoder.reset [0x55, 0x55, 0xaa] = some d' := hrun
  rw [hrun', Option.map_some, hopen.state] at hstate
  exact absurd hstate (by decide)

end EBLmon.Ebl
