import EBLmon.Board.Ring
import EBLmon.Ebl.Refine

/-!
# The receive path

The receive interrupt puts bytes into the buffer, and the comms process takes
them out one at a time and calls `decode` with each (`TCommsProc::exec` in
`src/main.cpp`).  A `Receiver` is the buffer, the decoder and the byte that the
process holds between the two calls.  Any order of the steps is a run.

`receive_fifo` is about every run.  The bytes that `com_getc` has returned and
the pending ones, in this order, are a subsequence of the received ones, and
they are all of them as long as no byte meets a full buffer.  So the decoder
is where a prefix of the received bytes takes it, whatever the schedule: the
bytes that `com_getc` has returned, up to the one that the process holds.
-/

namespace EBLmon.Board

open Machine RingBuffer Ebl

/-- The buffer, the decoder and the comms process between `com_getc` and
`decode`.  `returned` is the history of what `com_getc` has returned. -/
structure Receiver where
  ring : RxRing
  decoder : Decoder
  held : Option UInt8
  returned : List UInt8

/-- Nothing received. -/
def Receiver.reset : Receiver where
  ring := RxRing.reset
  decoder := Decoder.reset
  held := none
  returned := []

/-- A receive interrupt, or one of the two calls of the comms process. -/
inductive RecvOp where
  | rx (c : UInt8)
  | getc
  | decode
  deriving DecidableEq, Repr

/-- `com_getc` behind its loop: the first byte of the buffer is returned. -/
def Receiver.take (s : Receiver) : Option Receiver :=
  s.ring.take.map fun r =>
    { s with
      ring := r.2
      held := some r.1
      returned := s.returned ++ [r.1] }

namespace RecvOp

/-- The state after one step.  `com_getc` is called when the last byte has been
decoded, and waits while the buffer is empty. -/
def step (s : Receiver) : RecvOp → Option Receiver
  | rx c => (s.ring.put c).map fun r => { s with ring := r.1 }
  | getc =>
    match s.held with
    | some _ => some s
    | none =>
      if s.ring.Empty then some s else s.take
  | decode =>
    match s.held with
    | some c =>
      (Ebl.decode s.decoder c).map fun d =>
        { s with decoder := d, held := none }
    | none => some s

/-- The byte of a receive interrupt. -/
def byte? : RecvOp → Option UInt8
  | rx c => some c
  | getc => none
  | decode => none

end RecvOp

/-- The state after a sequence of steps. -/
def receive (ops : List RecvOp) : Option Receiver :=
  run RecvOp.step Receiver.reset ops

/-- The received bytes. -/
def received (ops : List RecvOp) : List UInt8 := ops.filterMap RecvOp.byte?

/-- No byte is received while 1023 bytes are pending. -/
def NoOverflow (ops : List RecvOp) : Prop :=
  ∀ pre c post, ops = pre ++ .rx c :: post → ∀ s, receive pre = some s →
    s.ring.pending.length ≠ 1023

theorem NoOverflow.of_concat {ops : List RecvOp} {op : RecvOp}
    (h : NoOverflow (ops ++ [op])) : NoOverflow ops := by
  intro pre c post hops
  apply h pre c (post ++ [op])
  exact concat_eq_split_iff.mpr (Or.inr ⟨post, hops, rfl⟩)

theorem received_concat (ops : List RecvOp) (op : RecvOp) :
    received (ops ++ [op]) = received ops ++ op.byte?.toList := by
  unfold received
  rw [List.filterMap_append]
  cases op <;> rfl

/-- What holds after the steps `ops`. -/
structure Fifo (s : Receiver) (ops : List RecvOp) : Prop where
  run : receive ops = some s
  valid : s.ring.Valid
  sublist : (s.returned ++ s.ring.pending).Sublist (received ops)
  complete : NoOverflow ops → s.returned ++ s.ring.pending = received ops
  decoded : ∃ cs, s.returned = cs ++ s.held.toList ∧
    feed Decoder.reset cs = some s.decoder

theorem Fifo.reset : Fifo Receiver.reset [] where
  run := rfl
  valid := RxRing.reset_valid
  sublist := List.Sublist.refl _
  complete := fun _ => rfl
  decoded := ⟨[], rfl, rfl⟩

section Steps

variable {s s' : Receiver} {ops : List RecvOp}

theorem receive_concat (h : receive ops = some s) {op : RecvOp}
    (hstep : op.step s = some s') : receive (ops ++ [op]) = some s' :=
  (run_concat_of_eq_some op h).trans hstep

/-- A received byte comes in behind the pending ones, or is dropped. -/
theorem Fifo.rx (h : Fifo s ops) (c : UInt8) :
    ∃ s', RecvOp.step s (.rx c) = some s' ∧ Fifo s' (ops ++ [.rx c]) := by
  obtain ⟨r, hput, hvalid, hpending⟩ := RxRing.put_spec h.valid c
  have hstep : RecvOp.step s (.rx c) = some { s with ring := r } := by
    show (s.ring.put c).map _ = _
    rw [hput]
    rfl
  have hreceived : received (ops ++ [.rx c]) = received ops ++ [c] :=
    received_concat ops (.rx c)
  refine ⟨_, hstep, receive_concat h.run hstep, hvalid, ?_, ?_, h.decoded⟩
  · rw [hreceived]
    show (s.returned ++ r.pending).Sublist _
    rw [hpending, offer]
    split
    · rw [← List.append_assoc]
      exact h.sublist.append (List.Sublist.refl [c])
    · exact h.sublist.trans (List.sublist_append_left _ _)
  · intro hno
    have hlen : s.ring.pending.length ≠ 1023 := hno ops c [] rfl s h.run
    have hle := RxRing.length_pending_le h.valid
    rw [hreceived, ← h.complete hno.of_concat]
    show s.returned ++ r.pending = _
    rw [hpending, offer, if_pos (by omega), List.append_assoc]

/-- A step of the comms process that receives nothing. -/
theorem Fifo.of_same (h : Fifo s ops) {op : RecvOp}
    (hstep : op.step s = some s') (hbyte : op.byte? = none)
    (hvalid : s'.ring.Valid)
    (hfifo : s'.returned ++ s'.ring.pending = s.returned ++ s.ring.pending)
    (hdecoded : ∃ cs, s'.returned = cs ++ s'.held.toList ∧
      feed Decoder.reset cs = some s'.decoder) : Fifo s' (ops ++ [op]) := by
  have hreceived : received (ops ++ [op]) = received ops := by
    rw [received_concat, hbyte]
    exact List.append_nil _
  refine ⟨receive_concat h.run hstep, hvalid, ?_, ?_, hdecoded⟩
  · rw [hreceived, hfifo]
    exact h.sublist
  · intro hno
    rw [hreceived, hfifo]
    exact h.complete hno.of_concat

/-- With a byte pending `com_getc` returns the first one. -/
theorem Receiver.take_spec (hvalid : s.ring.Valid) (hne : ¬ s.ring.Empty) :
    ∃ c ring, s.take = some
        { s with ring, held := some c, returned := s.returned ++ [c] } ∧
      ring.Valid ∧ s.ring.pending = c :: ring.pending := by
  obtain ⟨c, ring, htake, hvalid', hpending⟩ := RxRing.take_spec hvalid hne
  refine ⟨c, ring, ?_, hvalid', hpending⟩
  rw [Receiver.take, htake, Option.map_some]

/-- `com_getc` moves the first pending byte to the returned ones. -/
theorem Fifo.take (h : Fifo s ops) (hheld : s.held = none)
    (hne : ¬ s.ring.Empty) :
    ∃ s', s.take = some s' ∧ Fifo s' (ops ++ [.getc]) := by
  obtain ⟨c, r, htake, hvalid, hpending⟩ := Receiver.take_spec h.valid hne
  have hstep : RecvOp.step s .getc = some
      { s with ring := r, held := some c, returned := s.returned ++ [c] } := by
    simp only [RecvOp.step, hheld, if_neg hne, htake]
  obtain ⟨cs, hcs, hfeed⟩ := h.decoded
  refine ⟨_, htake, h.of_same hstep rfl hvalid ?_ ⟨cs, ?_, hfeed⟩⟩
  · show s.returned ++ [c] ++ r.pending = _
    rw [hpending, List.append_assoc, List.singleton_append]
  · rw [hheld] at hcs
    show s.returned ++ [c] = cs ++ [c]
    rw [hcs, Option.toList_none, List.append_nil]

/-- A call of `com_getc` in any state. -/
theorem Fifo.getc (h : Fifo s ops) :
    ∃ s', RecvOp.step s .getc = some s' ∧ Fifo s' (ops ++ [.getc]) := by
  cases hheld : s.held with
  | some c =>
    have hstep : RecvOp.step s .getc = some s := by
      simp only [RecvOp.step, hheld]
    exact ⟨s, hstep, h.of_same hstep rfl h.valid rfl h.decoded⟩
  | none =>
    by_cases hempty : s.ring.Empty
    · have hstep : RecvOp.step s .getc = some s := by
        simp only [RecvOp.step, hheld, if_pos hempty]
      exact ⟨s, hstep, h.of_same hstep rfl h.valid rfl h.decoded⟩
    · obtain ⟨s', htake, hfifo⟩ := h.take hheld hempty
      refine ⟨s', ?_, hfifo⟩
      simp only [RecvOp.step, hheld, if_neg hempty, htake]

/-- `decode` takes the byte that the process holds. -/
theorem Fifo.decode (h : Fifo s ops) :
    ∃ s', RecvOp.step s .decode = some s' ∧ Fifo s' (ops ++ [.decode]) := by
  cases hheld : s.held with
  | none =>
    have hstep : RecvOp.step s .decode = some s := by
      simp only [RecvOp.step, hheld]
    exact ⟨s, hstep, h.of_same hstep rfl h.valid rfl h.decoded⟩
  | some c =>
    obtain ⟨cs, hcs, hfeed⟩ := h.decoded
    rw [hheld] at hcs
    obtain ⟨d, hd, _⟩ := feed_tracks tracks_reset (cs ++ [c])
    have hdecode : Ebl.decode s.decoder c = some d :=
      (run_concat_of_eq_some c hfeed).symm.trans hd
    have hstep : RecvOp.step s .decode = some
        { s with decoder := d, held := none } := by
      simp only [RecvOp.step, hheld, hdecode, Option.map_some]
    refine ⟨_, hstep, h.of_same hstep rfl h.valid rfl ⟨cs ++ [c], ?_, hd⟩⟩
    show s.returned = cs ++ [c] ++ []
    rw [List.append_nil]
    exact hcs

end Steps

/-- The run theorem. -/
theorem receive_fifo_run (ops : List RecvOp) :
    ∃ s, run RecvOp.step Receiver.reset ops = some s ∧ Fifo s ops := by
  refine run_history (P := fun s ops => Fifo s ops) ?_ Fifo.reset ops
  intro s ops op h
  cases op with
  | rx c => exact h.rx c
  | getc => exact h.getc
  | decode => exact h.decode

/-- The receive path over every run: the indices stay inside the buffer and
every access is defined, nothing is reordered, duplicated or invented, and
without an overflow nothing is lost: the decoder has been fed with what
`com_getc` has returned, up to the byte that the process holds. -/
theorem receive_fifo (ops : List RecvOp) :
    ∃ s, receive ops = some s ∧
      s.ring.rxHead.toNat < 1024 ∧ s.ring.rxTail.toNat < 1024 ∧
      (s.returned ++ s.ring.pending).Sublist (received ops) ∧
      (NoOverflow ops →
        s.returned ++ s.ring.pending = received ops ∧
        ∃ cs, cs <+: received ops ∧ s.returned = cs ++ s.held.toList ∧
          feed Decoder.reset cs = some s.decoder) := by
  obtain ⟨s, hrun, h⟩ := receive_fifo_run ops
  refine ⟨s, hrun, h.valid.head, h.valid.tail, h.sublist, fun hno => ?_⟩
  obtain ⟨cs, hcs, hfeed⟩ := h.decoded
  have hcomplete := h.complete hno
  refine ⟨hcomplete, cs, ?_, hcs, hfeed⟩
  rw [← hcomplete, hcs, List.append_assoc]
  exact List.prefix_append cs _

end EBLmon.Board
