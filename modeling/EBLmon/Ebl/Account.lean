import EBLmon.Ebl.Refine

/-!
# Runs of `decode` and `was_updated`

The comms process calls `decode` and the GUI process calls `was_updated`, in
any order.  `exec` runs such a sequence of calls from reset.

`Accounts ops d` is what the globals hold after the calls `ops`: the counters
count the frames that the receiver of `EBLmon.Lib.Framing` finds in the bytes,
and the arrays hold the last one as long as the next body has not begun.
`exec_accounts` proves it for every sequence.  `was_updated` touches nothing
but its flag, and the flag stands for a frame counted good since the last call
that answered `true` (`updated_iff`).

`exec_accounted` puts the parts together: the bytes are cut into gap bytes and
frames, every frame is counted once, and what is counted good is a frame with
the right trailer whose fields are in the arrays at that moment.
-/

namespace EBLmon.Ebl

open Machine Framing

/-- One call into the module. -/
inductive Op where
  | decode (c : UInt8)
  | wasUpdated
  deriving DecidableEq, Repr

namespace Op

/-- The globals after one call. -/
def step (d : Decoder) : Op → Option Decoder
  | decode c => Ebl.decode d c
  | wasUpdated => some (Ebl.wasUpdated d).2

/-- The byte of one call. -/
def byte? : Op → Option UInt8
  | decode c => some c
  | wasUpdated => none

end Op

/-- The globals after a sequence of calls from reset. -/
def exec (ops : List Op) : Option Decoder := run Op.step Decoder.reset ops

/-- The bytes of a sequence of calls. -/
def bytesOf (ops : List Op) : List UInt8 := ops.filterMap Op.byte?

/-- The bytes of a sequence of calls, cut into gap bytes and frames. -/
def parse (ops : List Op) : Parse packetFormat := Parse.start.feed (bytesOf ops)

theorem bytesOf_decode (ops : List Op) (c : UInt8) :
    bytesOf (ops ++ [.decode c]) = bytesOf ops ++ [c] := by
  unfold bytesOf
  rw [List.filterMap_append]
  rfl

theorem bytesOf_wasUpdated (ops : List Op) :
    bytesOf (ops ++ [.wasUpdated]) = bytesOf ops := by
  unfold bytesOf
  rw [List.filterMap_append]
  exact List.append_nil _

theorem bytesOf_map (cs : List UInt8) : bytesOf (cs.map .decode) = cs := by
  unfold bytesOf
  rw [List.filterMap_map]
  exact List.filterMap_some

/-- The cut is a partition of the bytes. -/
theorem parse_bytes (ops : List Op) : (parse ops).bytes = bytesOf ops :=
  Parse.bytes_start_feed _

theorem parse_wasUpdated (ops : List Op) :
    parse (ops ++ [.wasUpdated]) = parse ops := by
  unfold parse
  rw [bytesOf_wasUpdated]

theorem parse_phase_decode (ops : List Op) (c : UInt8) :
    (parse (ops ++ [.decode c])).phase = (parse ops).phase.step c := by
  unfold parse
  rw [bytesOf_decode, Parse.phase_feed, Phase.feed_append, Parse.phase_feed]
  rfl

theorem parse_frames_decode (ops : List Op) (c : UInt8) :
    (parse (ops ++ [.decode c])).frames
      = (parse ops).frames ++ (parse ops).phase.frames [c] := by
  unfold parse
  rw [bytesOf_decode, Parse.feed_append, Parse.frames_feed]

/-! ## What the globals hold -/

/-- The globals after the calls `ops`. -/
structure Accounts (ops : List Op) (d : Decoder) : Prop where
  tracks : Tracks d (parse ops).phase
  good : d.goodPackets = UInt32.ofNat (goodCount (parse ops).frames)
  bad : d.badPackets = UInt32.ofNat (badCount (parse ops).frames)
  rx : d.rxCount = UInt32.ofNat (bytesOf ops).length
  holds : ∀ q, (parse ops).frames.getLast? = some q →
    (parse ops).phase.received = [] → Holds d q

theorem Accounts.reset : Accounts [] Decoder.reset where
  tracks := tracks_reset
  good := rfl
  bad := rfl
  rx := rfl
  holds := by
    intro q h
    exact absurd h (by simp [parse, bytesOf, Parse.feed, Parse.start,
      Parse.frames])

/-- One more byte. -/
theorem Accounts.decode {ops : List Op} {d d' : Decoder} {c : UInt8}
    (h : Accounts ops d) (hstep : StepOk d (parse ops).phase c d') :
    Accounts (ops ++ [.decode c]) d' := by
  have hcounted := hstep.counted
  refine ⟨?_, ?_, ?_, ?_, ?_⟩
  · rw [parse_phase_decode]
    exact hstep.tracks
  · rw [parse_frames_decode, goodCount_append, UInt32.ofNat_add, ← h.good]
    exact hcounted.good
  · rw [parse_frames_decode, badCount_append, UInt32.ofNat_add, ← h.bad]
    exact hcounted.bad
  · rw [bytesOf_decode, List.length_append, UInt32.ofNat_add, ← h.rx]
    exact hstep.rx
  · intro q hlast hnil
    rw [parse_phase_decode] at hnil
    rw [parse_frames_decode] at hlast
    exact hstep.holds_last h.holds hlast hnil

/-- `was_updated` touches nothing but the flag. -/
theorem wasUpdated_snd (d : Decoder) :
    (wasUpdated d).2 = { d with updated := false } := by
  unfold wasUpdated
  by_cases hupd : d.updated = true
  · rw [if_pos hupd]
  · rw [if_neg hupd, ← Bool.eq_false_iff.mpr hupd]

theorem wasUpdated_fst (d : Decoder) : (wasUpdated d).1 = d.updated := by
  unfold wasUpdated
  cases d.updated <;> rfl

theorem Tracks.wasUpdated {d : Decoder} {p : Phase packetFormat}
    (h : Tracks d p) : Tracks (wasUpdated d).2 p := by
  rw [wasUpdated_snd]
  cases p with
  | hunt => exact h
  | half => exact h
  | body got room =>
    have hbody : InBody d got := h
    exact ⟨hbody.control, hbody.memIndex, hbody.adcIndex, hbody.sum,
      hbody.fields.mem, hbody.fields.adc⟩

theorem Accounts.wasUpdated {ops : List Op} {d : Decoder}
    (h : Accounts ops d) :
    Accounts (ops ++ [.wasUpdated]) (wasUpdated d).2 := by
  have htracks := h.tracks.wasUpdated
  rw [wasUpdated_snd] at htracks ⊢
  refine ⟨?_, ?_, ?_, ?_, ?_⟩
  · rw [parse_wasUpdated]
    exact htracks
  · rw [parse_wasUpdated]
    exact h.good
  · rw [parse_wasUpdated]
    exact h.bad
  · rw [bytesOf_wasUpdated]
    exact h.rx
  · rw [parse_wasUpdated]
    exact h.holds

/-- The run theorem: every sequence of calls is defined and accounted for. -/
theorem exec_accounts (ops : List Op) :
    ∃ d, exec ops = some d ∧ Accounts ops d := by
  refine run_history (P := fun d ops => Accounts ops d) ?_ Accounts.reset ops
  intro d ops op h
  cases op with
  | decode c =>
    obtain ⟨d', hstep⟩ := decode_tracks h.tracks c
    exact ⟨d', hstep.run, h.decode hstep⟩
  | wasUpdated => exact ⟨_, rfl, h.wasUpdated⟩

/-- After the calls `ops` the last complete frame is `q`, it was accepted, and
no body byte of a further frame has come in. -/
structure Accepted (ops : List Op) (q : Packet) : Prop where
  last : (parse ops).frames.getLast? = some q
  exact : q.Exact
  quiet : (parse ops).phase.received = []

/-- A frame on its own. -/
theorem accepted_bytes {q : Packet} (hq : q.Exact) :
    Accepted (q.bytes.map .decode) q := by
  have hparse : parse (q.bytes.map .decode) = Parse.start.feed q.bytes := by
    unfold parse
    rw [bytesOf_map]
  refine ⟨?_, hq, ?_⟩
  · rw [hparse, Parse.frames_feed]
    show ([] ++ (Phase.hunt : Phase packetFormat).frames q.bytes).getLast? = _
    rw [Phase.frames_frame]
    rfl
  · rw [hparse, Parse.phase_feed]
    show ((Phase.hunt : Phase packetFormat).feed q.bytes).received = []
    rw [Phase.feed_frame]
    rfl

/-- The arrays hold the fields of that frame. -/
theorem Accepted.holds {ops : List Op} {q : Packet} {d : Decoder}
    (h : Accepted ops q) (hd : exec ops = some d) : Holds d q := by
  have haccounts := of_eq_some (exec_accounts ops) hd
  exact haccounts.holds q h.last h.quiet

/-- One more call. -/
theorem exec_concat {ops : List Op} {d : Decoder} (h : exec ops = some d)
    (op : Op) : exec (ops ++ [op]) = op.step d :=
  run_concat_of_eq_some op h

/-! ## The flag -/

/-- The byte `c` after the calls `ops` made `decode` count a frame good. -/
def CountsGood (ops : List Op) (c : UInt8) : Prop :=
  ∃ d d', exec ops = some d ∧ exec (ops ++ [.decode c]) = some d' ∧
    d'.goodPackets = d.goodPackets + 1

/-- `was_updated` called after the calls `ops` answers `true`. -/
def AnswersTrue (ops : List Op) : Prop :=
  ∃ d, exec ops = some d ∧ (wasUpdated d).1 = true

/-- Among the calls `ops` a frame was counted good, and `was_updated` has not
answered `true` after that. -/
def GoodSince (ops : List Op) : Prop :=
  ∃ pre c post, ops = pre ++ .decode c :: post ∧ CountsGood pre c ∧
    ∀ mid rest, post = mid ++ .wasUpdated :: rest →
      ¬ AnswersTrue (pre ++ .decode c :: mid)

theorem countsGood_iff {ops : List Op} {c : UInt8} {d d' : Decoder}
    (hd : exec ops = some d) (hd' : exec (ops ++ [.decode c]) = some d') :
    CountsGood ops c ↔ d'.goodPackets = d.goodPackets + 1 := by
  constructor
  · rintro ⟨d₁, d₁', hd₁, hd₁', hgood⟩
    rw [hd, Option.some.injEq] at hd₁
    rw [hd', Option.some.injEq] at hd₁'
    rw [hd₁, hd₁']
    exact hgood
  · intro hgood
    exact ⟨d, d', hd, hd', hgood⟩

theorem answersTrue_iff {ops : List Op} {d : Decoder}
    (hd : exec ops = some d) : AnswersTrue ops ↔ d.updated = true := by
  constructor
  · rintro ⟨d₁, hd₁, htrue⟩
    rw [hd, Option.some.injEq] at hd₁
    rw [hd₁, ← wasUpdated_fst]
    exact htrue
  · intro hupd
    exact ⟨d, hd, by rw [wasUpdated_fst, hupd]⟩

theorem not_goodSince_nil : ¬ GoodSince [] := by
  rintro ⟨pre, c, post, h, _⟩
  exact absurd h (by simp)

theorem goodSince_decode (ops : List Op) (c : UInt8) :
    GoodSince (ops ++ [.decode c]) ↔ CountsGood ops c ∨ GoodSince ops := by
  constructor
  · rintro ⟨pre, c', post, heq, hgood, hnone⟩
    rcases concat_eq_split_iff.mp heq with ⟨rfl, hc, _⟩ | ⟨post', heq', rfl⟩
    · rw [Op.decode.injEq] at hc
      exact Or.inl (hc ▸ hgood)
    · refine Or.inr ⟨pre, c', post', heq', hgood, fun mid rest hmid => ?_⟩
      exact hnone mid (rest ++ [.decode c])
        (concat_eq_split_iff.mpr (Or.inr ⟨rest, hmid, rfl⟩))
  · rintro (hgood | ⟨pre, c', post, heq, hgood, hnone⟩)
    · exact ⟨ops, c, [], rfl, hgood, fun mid rest h => absurd h (by simp)⟩
    · refine ⟨pre, c', post ++ [.decode c], ?_, hgood, fun mid rest hmid => ?_⟩
      · exact concat_eq_split_iff.mpr (Or.inr ⟨post, heq, rfl⟩)
      · rcases concat_eq_split_iff.mp hmid with ⟨_, hop, _⟩ | ⟨rest', hmid', _⟩
        · exact absurd hop (by simp)
        · exact hnone mid rest' hmid'

theorem goodSince_wasUpdated (ops : List Op) :
    GoodSince (ops ++ [.wasUpdated]) ↔ GoodSince ops ∧ ¬ AnswersTrue ops := by
  constructor
  · rintro ⟨pre, c, post, heq, hgood, hnone⟩
    rcases concat_eq_split_iff.mp heq with ⟨_, hop, _⟩ | ⟨post', heq', rfl⟩
    · exact absurd hop (by simp)
    · refine ⟨⟨pre, c, post', heq', hgood, fun mid rest hmid => ?_⟩, ?_⟩
      · exact hnone mid (rest ++ [.wasUpdated])
          (concat_eq_split_iff.mpr (Or.inr ⟨rest, hmid, rfl⟩))
      · rw [heq']
        exact hnone post' [] rfl
  · rintro ⟨⟨pre, c, post, heq, hgood, hnone⟩, hfalse⟩
    refine ⟨pre, c, post ++ [.wasUpdated], ?_, hgood, fun mid rest hmid => ?_⟩
    · exact concat_eq_split_iff.mpr (Or.inr ⟨post, heq, rfl⟩)
    · rcases concat_eq_split_iff.mp hmid with ⟨rfl, _, _⟩ | ⟨rest', hmid', _⟩
      · rw [← heq]
        exact hfalse
      · exact hnone mid rest' hmid'

/-- The flag is set when a frame was counted good since `was_updated` last
answered `true`. -/
theorem updated_iff {ops : List Op} {d : Decoder} (hd : exec ops = some d) :
    d.updated = true ↔ GoodSince ops := by
  induction ops using List.reverseRecOn generalizing d with
  | nil =>
    have hreset : Decoder.reset = d := Option.some.inj hd
    rw [← hreset]
    exact iff_of_false (by decide) not_goodSince_nil
  | append_singleton ops op ih =>
    obtain ⟨d₁, hd₁, haccounts⟩ := exec_accounts ops
    have hlast := hd
    rw [exec_concat hd₁ op] at hlast
    cases op with
    | decode c =>
      obtain ⟨d₂, hstep⟩ := decode_tracks haccounts.tracks c
      have hd₂ : d₂ = d := Option.some.inj (hstep.run.symm.trans hlast)
      subst hd₂
      rw [goodSince_decode, ← ih hd₁, countsGood_iff hd₁ hd,
        hstep.verdict.updated_iff, or_comm]
    | wasUpdated =>
      have hd' : (wasUpdated d₁).2 = d := Option.some.inj hlast
      rw [goodSince_wasUpdated, ← ih hd₁, answersTrue_iff hd₁, ← hd',
        wasUpdated_snd, and_not_self_iff]
      exact iff_of_false Bool.false_ne_true not_false

/-! ## The account of a run -/

/-- The byte `c` after the calls `ops`: it completes no frame, or it completes
one frame and counts it once.  A frame that is counted good has the right
trailer, and the arrays hold its fields. -/
def ByteAccounted (ops : List Op) (c : UInt8) : Prop :=
  ∃ d d' new, exec ops = some d ∧ exec (ops ++ [.decode c]) = some d' ∧
    (parse (ops ++ [.decode c])).frames = (parse ops).frames ++ new ∧
    ((new = [] ∧ d'.goodPackets = d.goodPackets ∧
        d'.badPackets = d.badPackets) ∨
      (∃ q, new = [q] ∧ d'.goodPackets = d.goodPackets ∧
        d'.badPackets = d.badPackets + 1) ∨
      ∃ q : Packet, new = [q] ∧ d'.goodPackets = d.goodPackets + 1 ∧
        d'.badPackets = d.badPackets ∧ q.Valid ∧
        (∀ i (hi : i < 256), d'.eblMem[i] = q.bytes.getD (2 + i) 0) ∧
        ∀ k (hk : k < 8), (d'.eblAdc[k]).toNat
          = (q.bytes.getD (259 + 2 * k) 0).toNat
            + 256 * (q.bytes.getD (260 + 2 * k) 0).toNat)

theorem byteAccounted (ops : List Op) (c : UInt8) : ByteAccounted ops c := by
  obtain ⟨d, hd, haccounts⟩ := exec_accounts ops
  obtain ⟨d', hstep⟩ := decode_tracks haccounts.tracks c
  have hd' : exec (ops ++ [.decode c]) = some d' := by
    rw [exec_concat hd]
    exact hstep.run
  have hverdict := hstep.verdict
  refine ⟨d, d', _, hd, hd', parse_frames_decode ops c, ?_⟩
  generalize (parse ops).phase.frames [c] = new at hverdict ⊢
  cases hverdict with
  | none good bad updated => exact Or.inl ⟨rfl, good, bad⟩
  | bad q exact good bad updated => exact Or.inr (Or.inl ⟨q, rfl, good, bad⟩)
  | good q exact holds good bad updated =>
    refine Or.inr (Or.inr ⟨q, rfl, good, bad, exact.valid, ?_, ?_⟩)
    · intro i hi
      simp only [holds.1]
      exact q.mem_getElem hi
    · intro k hk
      simp only [holds.2]
      exact q.adc_getElem hk

/-- The counters add up to the number of complete frames. -/
theorem Accounts.total {ops : List Op} {d : Decoder} (h : Accounts ops d) :
    d.goodPackets + d.badPackets
      = UInt32.ofNat (parse ops).frames.length := by
  rw [h.good, h.bad, ← UInt32.ofNat_add, goodCount_add_badCount]

/-- A frame stands in the stream as 277 bytes behind the header pair. -/
theorem Packet.bytes_shape (q : Packet) :
    q.bytes.length = 277 ∧ q.bytes.take 2 = [0x55, 0xaa] :=
  ⟨q.length_bytes, rfl⟩

/-- The account of every run: the cut of the bytes, the counters, every byte
and every answer. -/
theorem exec_accounted (ops : List Op) :
    ∃ d, exec ops = some d ∧ (parse ops).bytes = bytesOf ops ∧
      (∀ q ∈ (parse ops).frames,
        q.bytes.length = 277 ∧ q.bytes.take 2 = [0x55, 0xaa]) ∧
      d.goodPackets + d.badPackets
        = UInt32.ofNat (parse ops).frames.length ∧
      (∀ pre c post, ops = pre ++ .decode c :: post → ByteAccounted pre c) ∧
      ∀ pre post, ops = pre ++ .wasUpdated :: post →
        (AnswersTrue pre ↔ GoodSince pre) := by
  obtain ⟨d, hd, haccounts⟩ := exec_accounts ops
  refine ⟨d, hd, parse_bytes ops, fun q _ => Packet.bytes_shape q, haccounts.total,
    fun pre c _ _ => byteAccounted pre c, fun pre _ _ => ?_⟩
  obtain ⟨d₁, hd₁, _⟩ := exec_accounts pre
  rw [answersTrue_iff hd₁, updated_iff hd₁]

end EBLmon.Ebl
