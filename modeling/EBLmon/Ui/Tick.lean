import EBLmon.Ebl.Account
import EBLmon.Ebl.Gauges
import EBLmon.Ebl.TroubleCodes

/-!
# The display refresh

`src/ui.cpp`: the text buffers of `namespace UI` and the block of `tick` that
`was_updated` guards.  The calls into the graphics library before that block
draw the buffers and change none of them.

A `System` is the decoder together with the buffers.  The comms process calls
`decode` and the GUI process calls `tick`, in any order.  The GUI process has
the highest priority and does not sleep inside `tick`, so a refresh is one
step.

The flag that `tick` looks at says that a frame was accepted since the last
refresh.  It does not say that the arrays still hold that frame: `decode`
writes the next frame into the same arrays and leaves the flag alone.
`coherent_of_quiet` is the condition under which every refresh of a run shows
the last accepted frame.  `nextFrame` is a run whose refresh shows the road speed
of a frame that is still coming in.
-/

namespace EBLmon.Ui

open Machine Framing Ebl Rounding

/-- The text buffers, up to the terminating NUL. -/
structure Texts where
  roadSpeed : String
  engineSpeed : String
  waterTemperature : String
  oilPressure : String
  batteryVoltage : String
  airFuelRatio : String
  eblStatus : String
  deriving DecidableEq, Repr

/-- The initial texts. -/
def Texts.initial : Texts where
  roadSpeed := "-"
  engineSpeed := "-"
  waterTemperature := "-"
  oilPressure := "-"
  batteryVoltage := "-"
  airFuelRatio := "-"
  eblStatus := "NOT CONNECTED        "

/-- `%u` -/
def decimal (n : UInt32) : String := n.toNat.repr

section Refresh

variable (rnd : ℚ → ℚ)

/-- The `sprintf` calls of `tick`. -/
def refresh (d : Decoder) : Texts where
  roadSpeed := decimal (groundSpeed d) ++ "mph"
  engineSpeed := decimal (engineSpeed d) ++ "rpm"
  waterTemperature := decimal (waterTemperature rnd d) ++ "\xb0"
  oilPressure := decimal (oilPressure rnd d) ++ "#"
  batteryVoltage :=
    decimal (voltage d / 10) ++ "." ++ decimal (voltage d % 10) ++ "v"
  airFuelRatio := decimal (afr rnd d / 10) ++ "." ++ decimal (afr rnd d % 10)
  eblStatus :=
    if sesSet d then
      "CHECK ENGINE [" ++ (dtcString d 0).getD "??????" ++ "]"
    else if engineRunning d then "OK                   "
    else "NOT RUNNING          "

/-- The decoder and the text buffers. -/
structure System where
  decoder : Decoder
  texts : Texts
  deriving DecidableEq

/-- `void tick()` -/
def tick (s : System) : System :=
  match wasUpdated s.decoder with
  | (true, d) => ⟨d, refresh rnd d⟩
  | (false, d) => ⟨d, s.texts⟩

/-- One step of the comms process or of the GUI process. -/
inductive Step where
  | decode (c : UInt8)
  | tick
  deriving DecidableEq, Repr

/-- The system after one step. -/
def Step.step (s : System) : Step → Option System
  | decode c => (Ebl.decode s.decoder c).map fun d => { s with decoder := d }
  | tick => some (Ui.tick rnd s)

/-- The system at reset. -/
def System.reset : System := ⟨Decoder.reset, Texts.initial⟩

/-- The system after a sequence of steps from reset. -/
def exec (ops : List Step) : Option System :=
  run (Step.step rnd) System.reset ops

end Refresh

/-- The call into the decoder that a step makes. -/
def Step.op : Step → Op
  | decode c => .decode c
  | tick => .wasUpdated

/-- The calls into the decoder. -/
def calls (ops : List Step) : List Op := ops.map Step.op

/-! ## The decoder of the system -/

section Decoder

variable {rnd : ℚ → ℚ}

theorem tick_decoder (s : System) :
    (tick rnd s).decoder = (wasUpdated s.decoder).2 := by
  unfold tick
  split
  · rename_i h
    rw [h]
  · rename_i h
    rw [h]

/-- A refresh that finds the flag set writes the texts of the arrays. -/
theorem tick_texts {s : System} (h : (wasUpdated s.decoder).1 = true) :
    (tick rnd s).texts = refresh rnd (wasUpdated s.decoder).2 := by
  unfold tick
  split
  · rename_i heq
    rw [heq]
  · rename_i heq
    rw [heq] at h
    exact absurd h Bool.false_ne_true

/-- A refresh that finds the flag clear leaves the texts alone. -/
theorem tick_texts_same {s : System} (h : ¬ (wasUpdated s.decoder).1 = true) :
    (tick rnd s).texts = s.texts := by
  unfold tick
  split
  · rename_i heq
    rw [heq] at h
    exact absurd rfl h
  · rfl

theorem step_decoder (rnd : ℚ → ℚ) (s : System) (op : Step) :
    (Step.step rnd s op).map System.decoder = Op.step s.decoder op.op := by
  cases op with
  | decode c =>
    unfold Step.step Step.op Op.step
    rw [Option.map_map]
    exact Option.map_id'
  | tick =>
    unfold Step.step Step.op Op.step
    rw [Option.map_some, tick_decoder]

/-- The decoder of the system runs the calls of the steps. -/
theorem exec_decoder (rnd : ℚ → ℚ) (ops : List Step) :
    ∃ s, exec rnd ops = some s ∧ Ebl.exec (calls ops) = some s.decoder := by
  refine run_history
    (P := fun (s : System) ops => Ebl.exec (calls ops) = some s.decoder)
    ?_ rfl ops
  intro s ops op hs
  obtain ⟨d', hd', _⟩ := exec_accounts (calls (ops ++ [op]))
  have hcalls : calls (ops ++ [op]) = calls ops ++ [op.op] := List.map_append
  rw [hcalls] at hd' ⊢
  have hstep := step_decoder rnd s op
  rw [exec_concat hs] at hd' ⊢
  rw [hd'] at hstep
  obtain ⟨s', hs', hdec⟩ := Option.map_eq_some_iff.mp hstep
  exact ⟨s', hs', by rw [hd', hdec]⟩

end Decoder

/-! ## Coherent refreshes -/

/-- The last frame of the calls `ops` with the right checksum. -/
def LastAccepted (ops : List Op) (q : Packet) : Prop :=
  ((parse ops).frames.filter fun p => Packet.Exact p).getLast? = some q

/-- The refresh after the steps `pre` finds the flag set. -/
def Refreshes (rnd : ℚ → ℚ) (pre : List Step) : Prop :=
  ∃ s, exec rnd pre = some s ∧ (wasUpdated s.decoder).1 = true

/-- The texts of the fields of a frame. -/
def display (rnd : ℚ → ℚ) (q : Packet) : Texts :=
  refresh rnd { Decoder.reset with eblMem := q.mem, eblAdc := q.adc }

/-- The refresh after the steps `pre` shows the last accepted frame: the
arrays hold its fields, and the texts are made of them. -/
def ShowsAccepted (rnd : ℚ → ℚ) (pre : List Step) : Prop :=
  ∃ s s' q, exec rnd pre = some s ∧ exec rnd (pre ++ [.tick]) = some s' ∧
    LastAccepted (calls pre) q ∧ Holds s.decoder q ∧
    s'.texts = display rnd q

/-- Every refresh of the run shows the last accepted frame. -/
def Coherent (rnd : ℚ → ℚ) (ops : List Step) : Prop :=
  ∀ pre post, ops = pre ++ .tick :: post → Refreshes rnd pre →
    ShowsAccepted rnd pre

/-- No body byte has come in between the last accepted frame and a refresh,
and neither has a frame that was rejected. -/
def Quiet (rnd : ℚ → ℚ) (ops : List Step) : Prop :=
  ∀ pre post, ops = pre ++ .tick :: post → Refreshes rnd pre →
    ∃ q, Accepted (calls pre) q

section Coherence

variable {rnd : ℚ → ℚ}

theorem lastAccepted_of_accepted {ops : List Op} {q : Packet}
    (h : Accepted ops q) : LastAccepted ops q := by
  obtain ⟨ps, hps⟩ := List.getLast?_eq_some_iff.mp h.last
  unfold LastAccepted
  rw [hps, List.filter_append, List.filter_singleton]
  simp [h.exact]

/-- The texts depend on the arrays only. -/
theorem refresh_of_holds {d : Decoder} {q : Packet} (h : Holds d q) :
    refresh rnd d = display rnd q := by
  unfold display
  rw [← h.1, ← h.2]
  rfl

/-- One refresh: with the last accepted frame undisturbed it shows that
frame. -/
theorem showsAccepted_of_accepted {pre : List Step} {q : Packet}
    (hflag : Refreshes rnd pre) (hq : Accepted (calls pre) q) :
    ShowsAccepted rnd pre := by
  obtain ⟨s, hs, htrue⟩ := hflag
  have hdec := of_eq_some (exec_decoder rnd pre) hs
  have hholds := hq.holds hdec
  have htick : exec rnd (pre ++ [.tick]) = some (tick rnd s) :=
    run_concat_of_eq_some Step.tick hs
  refine ⟨s, tick rnd s, q, hs, htick, lastAccepted_of_accepted hq, hholds, ?_⟩
  rw [tick_texts htrue, wasUpdated_snd]
  exact refresh_of_holds hholds

/-- In a run whose refreshes all meet the last accepted frame undisturbed,
every refresh shows the last accepted frame. -/
theorem coherent_of_quiet {ops : List Step} (h : Quiet rnd ops) :
    Coherent rnd ops := by
  intro pre post hops hflag
  obtain ⟨q, hq⟩ := h pre post hops hflag
  exact showsAccepted_of_accepted hflag hq

/-- One accepted frame and one refresh. -/
theorem quiet_frame {q : Packet} (hq : q.Exact) :
    Quiet rnd (q.bytes.map .decode ++ [.tick]) := by
  intro pre post hops _
  have hcalls : calls (q.bytes.map .decode) = q.bytes.map .decode := by
    unfold calls
    rw [List.map_map]
    rfl
  rcases concat_eq_split_iff.mp hops with ⟨hpre, _, _⟩ | ⟨post', hpre, _⟩
  · rw [← hpre, hcalls]
    exact ⟨q, accepted_bytes hq⟩
  · -- there is no refresh among the bytes
    have hmem : Step.tick ∈ q.bytes.map Step.decode := by
      rw [hpre]
      simp
    exact absurd hmem (by simp)

theorem coherent_zeroPacket :
    Coherent float32 (zeroPacket.bytes.map .decode ++ [.tick]) :=
  coherent_of_quiet (quiet_frame (by decide +kernel))

/-- The bytes of an accepted frame with all fields zero, then a header and the
body bytes of the next frame up to the road speed, `ebl_mem[0x34]`. -/
def nextFrame : List Step :=
  (zeroPacket.bytes ++ [0x55, 0xaa] ++ List.replicate 0x34 0 ++ [0x63]).map
    .decode

theorem lastAccepted_nextFrame : LastAccepted (calls nextFrame) zeroPacket := by
  have hbody : ((parse (calls nextFrame)).frames.filter
      fun p => Packet.Exact p).getLast?.map Frame.body
        = some zeroPacket.body := by
    decide +kernel
  obtain ⟨q, hq, hqbody⟩ := Option.map_eq_some_iff.mp hbody
  rw [Frame.ext hqbody] at hq
  exact hq

/-- A refresh that comes in the middle of the next frame shows the road speed
of that frame, and not the one of the last accepted frame. -/
theorem not_coherent_nextFrame :
    ¬ Coherent float32 (nextFrame ++ [.tick]) ∧
      ∃ s', exec float32 (nextFrame ++ [.tick]) = some s' ∧
        LastAccepted (calls nextFrame) zeroPacket ∧
        s'.texts.roadSpeed = "99mph" ∧
        (display float32 zeroPacket).roadSpeed = "0mph" := by
  have hstate : (Ebl.exec (calls nextFrame)).map
      (fun d => (d.updated, groundSpeed d)) = some (true, 99) := by
    decide +kernel
  obtain ⟨s, hs, hdec⟩ := exec_decoder float32 nextFrame
  rw [hdec, Option.map_some, Option.some.injEq, Prod.mk.injEq] at hstate
  have hflag : (wasUpdated s.decoder).1 = true := by
    rw [wasUpdated_fst, hstate.1]
  have htick : exec float32 (nextFrame ++ [.tick]) = some (tick float32 s) :=
    run_concat_of_eq_some Step.tick hs
  have hshown : (tick float32 s).texts.roadSpeed = "99mph" := by
    rw [tick_texts hflag, wasUpdated_snd]
    exact congrArg (fun n => decimal n ++ "mph") hstate.2
  have hzero : (display float32 zeroPacket).roadSpeed = "0mph" := by
    decide +kernel
  refine ⟨?_, _, htick, lastAccepted_nextFrame, hshown, hzero⟩
  intro h
  obtain ⟨_, s', q, _, hs', hlast, _, htexts⟩ :=
    h nextFrame [] rfl ⟨s, hs, hflag⟩
  -- the last accepted frame is the zero frame, and the texts are not those of it
  rw [htick, Option.some.injEq] at hs'
  unfold LastAccepted at hlast
  rw [lastAccepted_nextFrame, Option.some.injEq] at hlast
  rw [← hs', ← hlast] at htexts
  rw [htexts, hzero] at hshown
  exact absurd hshown (by decide)

end Coherence

end EBLmon.Ui
