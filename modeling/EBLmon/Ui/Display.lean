import EBLmon.Ebl.Resync
import EBLmon.Ui.Tick

/-!
# What the display shows

`EBLmon.Ui.Tick` is about a refresh that finds the flag set.  This module is
about the texts behind any refresh.

A refresh that finds the flag clear leaves the texts of an earlier one.  They
are the texts of the last frame all the same, as long as that frame was accepted
and no body byte has come in since: the frame has set the flag, and the refresh
that cleared it found the arrays as they are now (`display_current`).

`accepted_of_row` says where such a frame comes from.  Behind a row of two or
more well-formed packets it is the last one of the row, whatever came before.
-/

namespace EBLmon.Ui

open Machine Framing Ebl Rounding

/-- A byte that leaves the flag clear, with the last frame undisturbed behind it,
finds that frame undisturbed. -/
theorem accepted_of_decode {ops : List Op} {c : UInt8} {q : Packet} {d d' : Decoder}
    (hstep : StepOk d (parse ops).phase c d') (hclear : d'.updated = false)
    (h : Accepted (ops ++ [.decode c]) q) : Accepted ops q ∧ d.updated = false := by
  have hlast := h.last
  have hquiet := h.quiet
  have hverdict := hstep.verdict
  rw [parse_frames_decode] at hlast
  rw [parse_phase_decode] at hquiet
  generalize hnew : (parse ops).phase.frames [c] = new at hlast hverdict
  cases hverdict with
  | none good bad updated =>
    rw [List.append_nil] at hlast
    have hbefore := (hstep.same hnew hquiet).1
    exact ⟨⟨hlast, h.exact, hbefore⟩, updated.symm.trans hclear⟩
  | good p exact holds good bad updated =>
    rw [updated] at hclear
    cases hclear
  | bad p exact good bad updated =>
    -- the last frame is the one that was just rejected
    rw [List.getLast?_concat, Option.some.injEq] at hlast
    exact absurd h.exact (hlast ▸ exact)

/-- The state after the steps `ops`.  With the flag clear, the texts are those of
the last frame as long as it is undisturbed. -/
structure Current (rnd : ℚ → ℚ) (s : System) (ops : List Step) : Prop where
  decoder : Ebl.exec (calls ops) = some s.decoder
  texts : ∀ q, Accepted (calls ops) q → s.decoder.updated = false →
    s.texts = display rnd q

section Current

variable {rnd : ℚ → ℚ} {s : System} {ops : List Step} {q : Packet}

theorem calls_concat (ops : List Step) (op : Step) :
    calls (ops ++ [op]) = calls ops ++ [op.op] := List.map_append

/-- A refresh takes no byte. -/
theorem accepted_tick_iff : Accepted (calls (ops ++ [.tick])) q ↔ Accepted (calls ops) q := by
  have hparse : parse (calls (ops ++ [.tick])) = parse (calls ops) := by
    rw [calls_concat]
    exact parse_wasUpdated _
  constructor
  · intro h
    exact ⟨hparse ▸ h.last, h.exact, hparse ▸ h.quiet⟩
  · intro h
    exact ⟨hparse.symm ▸ h.last, h.exact, hparse.symm ▸ h.quiet⟩

theorem Current.reset : Current rnd System.reset [] where
  decoder := rfl
  texts := by
    intro q hq
    have hlast := hq.last
    simp [calls, parse, bytesOf, Parse.feed, Parse.start, Parse.frames] at hlast

/-- A refresh shows the last frame as long as it is undisturbed. -/
theorem Current.tick_texts (h : Current rnd s ops) (hq : Accepted (calls ops) q) :
    (tick rnd s).texts = display rnd q := by
  cases hupd : s.decoder.updated with
  | true =>
    have hholds := hq.holds h.decoder
    rw [Ui.tick_texts (by rw [wasUpdated_fst, hupd]), wasUpdated_snd]
    exact refresh_of_holds hholds
  | false =>
    rw [tick_texts_same (by simp [wasUpdated_fst, hupd])]
    exact h.texts q hq hupd

theorem Current.tick (h : Current rnd s ops) :
    Current rnd (tick rnd s) (ops ++ [.tick]) where
  decoder := by
    rw [calls_concat, exec_concat h.decoder, tick_decoder]
    rfl
  texts := by
    intro q hq _
    exact h.tick_texts (accepted_tick_iff.mp hq)

theorem Current.decode (h : Current rnd s ops) (c : UInt8) :
    ∃ d, Ebl.decode s.decoder c = some d ∧
      Current rnd { s with decoder := d } (ops ++ [.decode c]) := by
  have haccounts := of_eq_some (exec_accounts (calls ops)) h.decoder
  obtain ⟨d, hstep⟩ := decode_tracks haccounts.tracks c
  refine ⟨d, hstep.run, ?_, fun q hq hclear => ?_⟩
  · rw [calls_concat, exec_concat h.decoder]
    exact hstep.run
  · rw [calls_concat] at hq
    obtain ⟨hq', hclear'⟩ := accepted_of_decode hstep hclear hq
    exact h.texts q hq' hclear'

/-- The run theorem. -/
theorem exec_current (rnd : ℚ → ℚ) (ops : List Step) :
    ∃ s, exec rnd ops = some s ∧ Current rnd s ops := by
  refine run_history (P := fun s ops => Current rnd s ops) ?_ Current.reset ops
  intro s ops op h
  cases op with
  | tick => exact ⟨_, rfl, h.tick⟩
  | decode c =>
    obtain ⟨d, hd, h'⟩ := h.decode c
    refine ⟨_, ?_, h'⟩
    show (Ebl.decode s.decoder c).map _ = _
    rw [hd, Option.map_some]

/-- In any run of `decode` and `tick`: as long as the last complete frame is one
that was accepted, and no body byte of a next one has come in, the display shows
that frame behind every refresh, and not only behind one that finds the flag
set. -/
theorem display_current (h : Accepted (calls ops) q) :
    ∃ s, exec rnd (ops ++ [.tick]) = some s ∧ s.texts = display rnd q := by
  obtain ⟨s, hs, hcurrent⟩ := exec_current rnd ops
  exact ⟨_, run_concat_of_eq_some Step.tick hs, hcurrent.tick_texts h⟩

/-- A packet of zeros and two refreshes.  The second one finds the flag clear. -/
theorem display_current_zero :
    ∃ s, exec float32 (zeroPacket.bytes.map .decode ++ [.tick] ++ [.tick]) = some s ∧
      s.texts = display float32 zeroPacket := by
  have hcalls : calls (zeroPacket.bytes.map .decode) = zeroPacket.bytes.map .decode := by
    unfold calls
    rw [List.map_map]
    rfl
  refine display_current (accepted_tick_iff.mpr ?_)
  rw [hcalls]
  exact accepted_bytes wellFormed_zeroPacket.exact

end Current

/-! ## A row of packets -/

/-- Behind a row of two or more well-formed packets the last one is the last
complete frame, and it is accepted. -/
theorem accepted_of_row {ops : List Op} {bs : List UInt8} {p q : Packet}
    {qs : List Packet} (hbytes : bytesOf ops = bs ++ (p :: (qs ++ [q])).flatMap Frame.bytes)
    (hp : p.Clean) (hq : q.Exact) : Accepted ops q := by
  obtain ⟨hfeed, hframes⟩ :=
    Phase.feed_clean_frames ((Phase.hunt : Phase packetFormat).feed bs) hp (qs ++ [q])
  have hparse : parse ops = (Parse.start.feed bs).feed
      ((p :: (qs ++ [q])).flatMap Frame.bytes) := by
    unfold parse
    rw [hbytes, Parse.feed_append]
  have hphase : (Parse.start.feed bs : Parse packetFormat).phase = Phase.hunt.feed bs :=
    Parse.phase_feed _ _
  refine ⟨?_, hq, ?_⟩
  · rw [hparse, Parse.frames_feed, hphase, hframes, ← List.append_assoc,
      ← List.append_assoc]
    exact List.getLast?_concat
  · rw [hparse, Parse.phase_feed, hphase, hfeed]
    rfl

end EBLmon.Ui
