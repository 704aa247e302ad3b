import EBLmon.Ebl.Verdict

/-!
# Loss of synchronisation

A receiver that is switched on in the middle of the traffic, or that has lost a
byte, sits anywhere: inside a phantom packet, half way into a header, or
hunting.  One well-formed packet is what it takes to synchronise again.
`feed_clean_packets` follows a row of packets from any phase.  The first one
brings the receiver back to the hunt and costs at most one entry in
`bad_packets`, and every packet behind it is accepted.
-/

namespace EBLmon.Ebl

open Machine Framing

/-- A packet that `decode` accepts and that holds no second header. -/
structure Packet.WellFormed (q : Packet) : Prop where
  clean : q.Clean
  exact : q.Exact

instance (q : Packet) : Decidable q.WellFormed :=
  decidable_of_iff (q.Clean ∧ q.Exact)
    ⟨fun h => ⟨h.1, h.2⟩, fun h => ⟨h.clean, h.exact⟩⟩

/-- `decode` has taken packet `q` in on the way from `d` to `d'`. -/
structure Accepts (d d' : Decoder) (q : Packet) : Prop where
  good : d'.goodPackets = d.goodPackets + 1
  bad : d'.badPackets = d.badPackets
  updated : d'.updated = true
  state : d'.state = .waitH1
  holds : Holds d' q

theorem accepts_of_exact {d : Decoder} (hd : d.state = .waitH1) {q : Packet}
    (hq : q.Exact) : ∃ d', feed d q.bytes = some d' ∧ Accepts d d' q := by
  obtain ⟨d', hrun, hstate, hcounted, hholds, _⟩ := feed_packet hd q
  obtain ⟨hgood, hbad, hupd⟩ := hcounted.of_exact hq
  exact ⟨d', hrun, hgood, hbad, hupd, hstate, hholds⟩

/-! ## The counters over a row of packets -/

theorem goodCount_of_exact {qs : List Packet} (h : ∀ q ∈ qs, q.Exact) :
    goodCount qs = qs.length := by
  unfold goodCount
  rw [List.countP_eq_length]
  intro q hq
  exact decide_eq_true (h q hq)

/-- What the counters can gain over one clean packet and the exact packets
behind it. -/
theorem counts_of_exact {ps qs : List Packet} (hps : ps.length ≤ 1)
    (hqs : ∀ q ∈ qs, q.Exact) :
    qs.length ≤ goodCount (ps ++ qs) ∧ badCount (ps ++ qs) ≤ 1 := by
  have hgood := goodCount_of_exact hqs
  have hsum := goodCount_add_badCount (ps ++ qs)
  rw [List.length_append] at hsum
  rw [goodCount_append] at hsum ⊢
  omega

/-! ## A row of packets from any phase -/

section Row

variable {d : Decoder} {p : Phase packetFormat} {q : Packet}

/-- Behind a clean packet the decoder waits for a header. -/
theorem feed_clean_row (hd : Tracks d p) (hq : q.Clean) (qs : List Packet) :
    ∃ d', feed d ((q :: qs).flatMap Frame.bytes) = some d' ∧
      d'.state = .waitH1 ∧ Counted d d' (p.frames q.bytes ++ qs) := by
  obtain ⟨d', hrun, hfollows⟩ :=
    feed_tracks hd ((q :: qs).flatMap Frame.bytes)
  obtain ⟨hphase, hframes⟩ := Phase.feed_clean_frames p hq qs
  have htracks := hfollows.tracks
  have hcounted := hfollows.counted
  rw [hphase] at htracks
  rw [hframes] at hcounted
  exact ⟨d', hrun, htracks, hcounted⟩

/-- The packet in the row behind a clean packet and some more is accepted. -/
theorem feed_clean_next (hd : Tracks d p) (hq : q.Clean) (qs : List Packet)
    {r : Packet} (hr : r.Exact) :
    ∃ d₁ d₂, feed d ((q :: qs).flatMap Frame.bytes) = some d₁ ∧
      feed d ((q :: (qs ++ [r])).flatMap Frame.bytes) = some d₂ ∧
      Accepts d₁ d₂ r := by
  obtain ⟨d₁, hrun₁, hstate₁, _⟩ := feed_clean_row hd hq qs
  obtain ⟨d₂, hrun₂, haccepts⟩ := accepts_of_exact hstate₁ hr
  refine ⟨d₁, d₂, hrun₁, ?_, haccepts⟩
  have hbytes : (q :: (qs ++ [r])).flatMap Frame.bytes
      = (q :: qs).flatMap Frame.bytes ++ r.bytes := by
    rw [← List.cons_append, List.flatMap_append, List.flatMap_singleton]
  rw [hbytes]
  unfold feed at hrun₁ hrun₂ ⊢
  rw [run_append_of_eq_some _ hrun₁]
  exact hrun₂

end Row

/-- From any state that a stream can leave the decoder in, a row of
well-formed packets is read from the second one on. -/
theorem feed_clean_packets {noise : List UInt8} {d : Decoder}
    (hd : feed Decoder.reset noise = some d) {qs : List Packet}
    (hne : qs ≠ []) (hqs : ∀ q ∈ qs, q.WellFormed) :
    (∃ d' good bad, feed d (qs.flatMap Frame.bytes) = some d' ∧
      d'.goodPackets = d.goodPackets + UInt32.ofNat good ∧
      d'.badPackets = d.badPackets + UInt32.ofNat bad ∧
      qs.length - 1 ≤ good ∧ bad ≤ 1 ∧ good + bad ≤ qs.length) ∧
    ∀ i (hi : i + 1 < qs.length), ∃ d₁ d₂,
      feed d ((qs.take (i + 1)).flatMap Frame.bytes) = some d₁ ∧
      feed d ((qs.take (i + 2)).flatMap Frame.bytes) = some d₂ ∧
      Accepts d₁ d₂ qs[i + 1] := by
  have hfollows := of_eq_some (feed_tracks tracks_reset noise) hd
  have htracks := hfollows.tracks
  cases qs with
  | nil => exact absurd rfl hne
  | cons q qs =>
    have hclean : q.Clean := (hqs q List.mem_cons_self).clean
    have hexact : ∀ r ∈ qs, r.Exact :=
      fun r hr => (hqs r (List.mem_cons_of_mem q hr)).exact
    constructor
    · obtain ⟨d', hrun, _, hcounted⟩ := feed_clean_row htracks hclean qs
      have hlen := (Phase.feed_clean (Phase.hunt.feed noise) hclean).2
      obtain ⟨hgood, hbad⟩ := counts_of_exact hlen hexact
      have hsum := goodCount_add_badCount
        (((Phase.hunt.feed noise).frames q.bytes) ++ qs)
      rw [List.length_append] at hsum
      exact ⟨d', _, _, hrun, hcounted.good, hcounted.bad, hgood, hbad,
        by rw [List.length_cons]; omega⟩
    · intro i hi
      have hi' : i < qs.length := by simpa using hi
      have htake : qs.take (i + 1) = qs.take i ++ [qs[i]] :=
        List.take_succ_eq_append_getElem hi'
      rw [List.take_succ_cons, List.take_succ_cons, htake,
        List.getElem_cons_succ]
      exact feed_clean_next htracks hclean _
        (hexact qs[i] (List.getElem_mem hi'))

theorem wellFormed_zeroPacket : zeroPacket.WellFormed := by decide +kernel

/-- Two packets of zeros behind a header and three bytes of a packet that
never ends. -/
theorem feed_clean_packets_zero :
    ∃ d, feed Decoder.reset [0x55, 0xaa, 1, 2, 3] = some d ∧
    (∃ d' good bad,
      feed d ([zeroPacket, zeroPacket].flatMap Frame.bytes) = some d' ∧
      d'.goodPackets = d.goodPackets + UInt32.ofNat good ∧
      d'.badPackets = d.badPackets + UInt32.ofNat bad ∧
      2 - 1 ≤ good ∧ bad ≤ 1 ∧ good + bad ≤ 2) ∧
    ∀ i (hi : i + 1 < 2), ∃ d₁ d₂,
      feed d (([zeroPacket, zeroPacket].take (i + 1)).flatMap Frame.bytes)
        = some d₁ ∧
      feed d (([zeroPacket, zeroPacket].take (i + 2)).flatMap Frame.bytes)
        = some d₂ ∧
      Accepts d₁ d₂ [zeroPacket, zeroPacket][i + 1] := by
  obtain ⟨d, hrun, _⟩ := feed_tracks tracks_reset [0x55, 0xaa, 1, 2, 3]
  refine ⟨d, hrun, feed_clean_packets hrun (by simp) ?_⟩
  intro q hmem
  rw [List.mem_pair, or_self] at hmem
  exact hmem ▸ wellFormed_zeroPacket

end EBLmon.Ebl
