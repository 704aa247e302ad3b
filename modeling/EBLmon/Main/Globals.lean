import EBLmon.Board.Comms
import EBLmon.Os.Flags
import EBLmon.Ui.Tick

/-!
# The globals of the firmware

The receive path, the decoder, the display and the LED, as a service of the
kernel: what the processes of `src/main.cpp` call, and `usart1_isr`.

`com_getc` holds a critical section up to the loop of `sched` in `wait`, so it is
one step up to there and one step behind it.  `Got` says what such a step does.
It ends with a byte, or with the process suspended and the buffer empty.

`Sound` is the invariant of the globals for any program.  The decoder and the text
buffers are where some run of `EBLmon.Ui.Tick` takes them.  `Fed` says that this
run is on the bytes that `com_getc` has returned, which needs the loop of
`TCommsProc::exec`: it does not call `com_getc` again before `decode`.

`led` is the state of the LED as `board.h` describes `led_set` and `led_toggle`.
The board calls `gpio_set` and `gpio_toggle` for them, which are functions of
libopencm3: that they set and toggle the pin of the LED is assumed.
-/

namespace EBLmon.Main

open Machine Os

/-- The globals, and the byte that `TCommsProc::exec` holds (`receiver.held`). -/
structure Globals where
  rxDataAvail : TEventFlag
  receiver : Board.Receiver
  comInterrupts : UInt32
  texts : Ui.Texts
  led : Bool

/-- The calls of the processes. -/
inductive Call where
  | tick
  | comGetc
  | decode
  | ledToggle
  deriving DecidableEq, Repr

namespace Globals

/-- The initial values, and the LED as `led_set(true)` in `main` leaves it. -/
def reset : Globals where
  rxDataAvail := TEventFlag.init
  receiver := Board.Receiver.reset
  comInterrupts := 0
  texts := Ui.Texts.initial
  led := true

/-- The comms process in `com_getc`. -/
def comms (g : Globals) (k : TKernel) (pc : Board.Pc) : Board.Comms where
  kernel := k
  rxDataAvail := g.rxDataAvail
  receiver := g.receiver
  pc := pc

/-- The globals behind a step of the comms process. -/
def ofComms (g : Globals) (s : Board.Comms) : Globals :=
  { g with rxDataAvail := s.rxDataAvail, receiver := s.receiver }

/-- `uint8_t com_getc(void)`, from its loop condition to the end or to the loop
of `sched`.  `n` bounds the rounds of the loop. -/
def comGetc : ℕ → TKernel → Globals → Option (Outcome Unit Unit × TKernel × Globals)
  | 0, _, _ => none
  | n + 1, k, g => do
    let s ← (g.comms k .loop).comGetc
    match s.pc with
    | .loop => comGetc n s.kernel (g.ofComms s)
    | .suspended => some (.suspended (), s.kernel, g.ofComms s)
    | .outside => some (.returned (), s.kernel, g.ofComms s)

/-- `void UI::tick()` -/
def tick (rnd : ℚ → ℚ) (g : Globals) : Globals :=
  let s := Ui.tick rnd ⟨g.receiver.decoder, g.texts⟩
  { g with receiver := { g.receiver with decoder := s.decoder }, texts := s.texts }

/-- `EBL::decode(c)` with the byte that `com_getc` has returned. -/
def decode (g : Globals) : Option Globals :=
  (Board.RecvOp.step g.receiver .decode).map fun receiver => { g with receiver }

/-- `void led_toggle()`, with the effect that is assumed of `gpio_toggle`. -/
def ledToggle (g : Globals) : Globals := { g with led := !g.led }

/-- `void usart1_isr(void)`.  There is no byte when the interrupt comes without
`USART_SR_RXNE`. -/
def usart1Isr (k : TKernel) (g : Globals) (c : Option UInt8) :
    Option (TKernel × Globals) :=
  let g := { g with comInterrupts := g.comInterrupts + 1 }
  match c with
  | none => some (k, g)
  | some c => ((g.comms k .outside).comRx c).map fun s => (s.kernel, g.ofComms s)

end Globals

/-- The globals as a service.  Two rounds of the loop of `com_getc` are enough:
`wait` returns at once only from a flag that is on, and leaves it off. -/
abbrev service (rnd : ℚ → ℚ) : Service where
  Obj := Globals
  Call := Call
  Wait := Unit
  Isr := Option UInt8
  Ans := Unit
  Map := Unit
  map := fun g _ => g.rxDataAvail.processMap
  waitsAt := fun _ => ()
  timed := fun _ => true
  enter := fun k g c =>
    match c with
    | .tick => some (.returned (), k, g.tick rnd)
    | .comGetc => g.comGetc 2 k
    | .decode => g.decode.map fun g => (.returned (), k, g)
    | .ledToggle => some (.returned (), k, g.ledToggle)
  again := fun k g _ =>
    let s := (g.comms k .suspended).waitReturns
    (g.ofComms s).comGetc 2 s.kernel
  isr := Globals.usart1Isr

/-! ## The receive path -/

/-- What `com_getc` does to the receiver: the first pending byte is returned. -/
inductive Fetches (r : Board.Receiver) : Board.Receiver → Prop where
  | byte (c : UInt8) {ring : Board.RxRing} (valid : ring.Valid)
      (pending : r.ring.pending = c :: ring.pending) :
      Fetches r { r with ring, held := some c, returned := r.returned ++ [c] }

/-- A step of `com_getc`. -/
inductive Got (k : TKernel) (g : Globals) :
    Outcome Unit Unit × TKernel × Globals → Prop where
  | taken {receiver : Board.Receiver} (fetches : Fetches g.receiver receiver) :
      Got k g (.returned (), k, { g with receiver })
  | blocked {k' : TKernel} {w : TProcessMap} (empty : g.receiver.ring.Empty)
      (suspends : TService.Suspends
        { k with timeout := Function.update k.timeout k.curProcPriority 0 } k'
        g.rxDataAvail.processMap w) :
      Got k g (.suspended (), k', { g with rxDataAvail := ⟨w, false⟩ })

section Got

variable {k : TKernel} {g : Globals}

/-- Bytes are pending. -/
theorem comGetc_taken (hvalid : g.receiver.ring.Valid)
    (hne : ¬ g.receiver.ring.Empty) (n : ℕ) :
    ∃ a, g.comGetc (n + 1) k = some a ∧ Got k g a := by
  obtain ⟨c, ring, htake, hvalid', hpending⟩ :=
    Board.Receiver.take_spec hvalid hne
  refine ⟨_, ?_, Got.taken (Fetches.byte c hvalid' hpending)⟩
  simp only [Globals.comGetc, Board.Comms.comGetc, Globals.comms, if_neg hne, htake,
    Option.map_some, Option.bind_eq_bind, Option.bind_some, Globals.ofComms]

/-- Nothing is pending, and the flag is off. -/
theorem comGetc_blocked (hempty : g.receiver.ring.Empty)
    (hoff : g.rxDataAvail.value = false) (hcur : k.curProcPriority < 32)
    (hother : ∃ p, p ≠ k.curProcPriority ∧ k.Ready p) (n : ℕ) :
    ∃ k' w, g.comGetc (n + 1) k
        = some (.suspended (), k', { g with rxDataAvail := ⟨w, false⟩ }) ∧
      TService.Suspends
        { k with timeout := Function.update k.timeout k.curProcPriority 0 } k'
        g.rxDataAvail.processMap w := by
  obtain ⟨k', w, hwait, hsusp⟩ :=
    TEventFlag.waitBegin_suspends hoff hcur hother 0
  refine ⟨k', w, ?_, hsusp⟩
  simp only [Globals.comGetc, Board.Comms.comGetc, Globals.comms, if_pos hempty,
    hwait, Option.bind_eq_bind, Option.bind_some, Globals.ofComms, hoff]

theorem comGetc_spec (hvalid : g.receiver.ring.Valid) (hcur : k.curProcPriority < 32)
    (hother : ∃ p, p ≠ k.curProcPriority ∧ k.Ready p) :
    ∃ a, g.comGetc 2 k = some a ∧ Got k g a := by
  by_cases hempty : g.receiver.ring.Empty
  · cases hv : g.rxDataAvail.value with
    | false =>
      obtain ⟨k', w, heq, hsusp⟩ := comGetc_blocked hempty hv hcur hother 1
      exact ⟨_, heq, Got.blocked hempty hsusp⟩
    | true =>
      -- the flag has been left on, and the loop goes round once more
      let g' : Globals :=
        { g with rxDataAvail := { g.rxDataAvail with value := false } }
      have hround : g.comGetc 2 k = g'.comGetc 1 k := by
        simp only [Globals.comGetc, Board.Comms.comGetc, Globals.comms,
          if_pos hempty, TEventFlag.waitBegin_on hv, Option.bind_eq_bind,
          Option.bind_some, Globals.ofComms]
        rfl
      obtain ⟨k', w, heq, hsusp⟩ :=
        comGetc_blocked (g := g') hempty rfl hcur hother 0
      exact ⟨_, hround.trans heq, Got.blocked hempty hsusp⟩
  · exact comGetc_taken hvalid hempty 1

end Got

/-- What `usart1_isr` does with a byte.  The signal resumes the processes that
are blocked by the flag. -/
structure Arrived (k : TKernel) (g : Globals) (c : UInt8) (k' : TKernel)
    (ring : Board.RxRing) (f : TEventFlag) : Prop where
  valid : ring.Valid
  pending : ring.pending = RingBuffer.offer 1023 g.receiver.ring.pending c
  wakes : (¬ g.receiver.ring.pending.length < 1023 ∧ k' = k ∧ f = g.rxDataAvail) ∨
    TService.Resumed (TService.Blocked k g.rxDataAvail.processMap) k k'
      g.rxDataAvail.processMap f.processMap

theorem usart1Isr_byte (k : TKernel) {g : Globals} (hvalid : g.receiver.ring.Valid)
    (c : UInt8) :
    ∃ k' ring f, g.usart1Isr k (some c) = some (k',
        { g with
          rxDataAvail := f
          receiver := { g.receiver with ring }
          comInterrupts := g.comInterrupts + 1 }) ∧
      Arrived k g c k' ring f := by
  obtain ⟨ring, hput, hvalid', hpending⟩ := Board.RxRing.put_spec hvalid c
  let g₁ : Globals := { g with comInterrupts := g.comInterrupts + 1 }
  have hput' : (g₁.comms k .outside).receiver.ring.put c = some
      (ring, decide (g.receiver.ring.pending.length < 1023)) := hput
  by_cases hlen : g.receiver.ring.pending.length < 1023
  · obtain ⟨k', w, v, hsignal, -, hres⟩ :=
      TEventFlag.signalIsr_spec k g.rxDataAvail
    rw [decide_eq_true hlen] at hput'
    have hrx := Board.Comms.comRx_stored (s := g₁.comms k .outside) hput' hsignal
    refine ⟨k', ring, ⟨w, v⟩, ?_, hvalid', hpending, Or.inr hres⟩
    show ((g₁.comms k .outside).comRx c).map _ = _
    rw [hrx]
    rfl
  · rw [decide_eq_false hlen] at hput'
    have hrx := Board.Comms.comRx_dropped hput'
    refine ⟨k, ring, g.rxDataAvail, ?_, hvalid', hpending,
      Or.inl ⟨hlen, rfl, rfl⟩⟩
    show ((g₁.comms k .outside).comRx c).map _ = _
    rw [hrx]
    rfl

/-! ## The invariant of the globals -/

/-- The decoder and the text buffers are where a run of `decode` and `tick` takes
them on the bytes `bs`. -/
def Shown (rnd : ℚ → ℚ) (g : Globals) (bs : List UInt8) : Prop :=
  ∃ ops, Ui.exec rnd ops = some ⟨g.receiver.decoder, g.texts⟩ ∧
    Ebl.bytesOf (Ui.calls ops) = bs

/-- The buffer is valid, and the decoder and the text buffers are those of some
run. -/
structure Sound (rnd : ℚ → ℚ) (g : Globals) : Prop where
  valid : g.receiver.ring.Valid
  shown : ∃ bs, Shown rnd g bs

/-- The decoder has been fed with the bytes that `com_getc` has returned, up to
the one that is held. -/
def Fed (rnd : ℚ → ℚ) (g : Globals) : Prop :=
  ∃ bs, Shown rnd g bs ∧ g.receiver.returned = bs ++ g.receiver.held.toList

section Shown

variable {rnd : ℚ → ℚ} {g : Globals} {bs : List UInt8}

theorem Shown.reset : Shown rnd Globals.reset [] := ⟨[], rfl, rfl⟩

theorem Fed.reset : Fed rnd Globals.reset := ⟨[], Shown.reset, rfl⟩

theorem Shown.tick (h : Shown rnd g bs) : Shown rnd (g.tick rnd) bs := by
  obtain ⟨ops, hops, hbytes⟩ := h
  refine ⟨ops ++ [Ui.Step.tick], run_concat_of_eq_some Ui.Step.tick hops, ?_⟩
  unfold Ui.calls at hbytes ⊢
  rw [List.map_append, ← hbytes]
  exact Ebl.bytesOf_wasUpdated _

theorem Fed.tick (h : Fed rnd g) : Fed rnd (g.tick rnd) := by
  obtain ⟨bs, hshown, hreturned⟩ := h
  exact ⟨bs, hshown.tick, hreturned⟩

/-- `decode` is defined on every byte. -/
theorem Shown.decode_defined (h : Shown rnd g bs) (c : UInt8) :
    ∃ d, Ebl.decode g.receiver.decoder c = some d := by
  obtain ⟨ops, hops, -⟩ := h
  obtain ⟨s, hs, -⟩ := Ui.exec_decoder rnd (ops ++ [.decode c])
  have hstep : Ui.Step.step rnd ⟨g.receiver.decoder, g.texts⟩ (.decode c) = some s :=
    (run_concat_of_eq_some _ hops).symm.trans hs
  obtain ⟨d, hd, -⟩ := Option.map_eq_some_iff.mp hstep
  exact ⟨d, hd⟩

theorem Shown.decode (h : Shown rnd g bs) {c : UInt8} {d : Ebl.Decoder}
    (hd : Ebl.decode g.receiver.decoder c = some d) :
    Shown rnd { g with receiver := { g.receiver with decoder := d, held := none } }
      (bs ++ [c]) := by
  obtain ⟨ops, hops, hbytes⟩ := h
  refine ⟨ops ++ [Ui.Step.decode c], ?_, ?_⟩
  · refine (run_concat_of_eq_some (Ui.Step.decode c) hops).trans ?_
    exact congrArg (Option.map _) hd
  · unfold Ui.calls at hbytes ⊢
    rw [List.map_append, ← hbytes]
    exact Ebl.bytesOf_decode _ c

/-- A step of `com_getc` with no byte held before it. -/
theorem Fed.of_got (h : Fed rnd g) (hheld : g.receiver.held = none) {k : TKernel}
    {a : Outcome Unit Unit × TKernel × Globals} (hgot : Got k g a) :
    Fed rnd a.2.2 := by
  obtain ⟨bs, hshown, hreturned⟩ := h
  cases hgot with
  | blocked hempty hsusp => exact ⟨bs, hshown, hreturned⟩
  | taken hfetch =>
    cases hfetch with
    | byte c valid pending =>
      refine ⟨bs, hshown, ?_⟩
      rw [hheld, Option.toList_none, List.append_nil] at hreturned
      show g.receiver.returned ++ [c] = bs ++ [c]
      rw [hreturned]

end Shown

namespace Sound

variable {rnd : ℚ → ℚ} {g : Globals}

theorem reset : Sound rnd Globals.reset := ⟨Board.RxRing.reset_valid, [], Shown.reset⟩

theorem fetches (h : Sound rnd g) {r : Board.Receiver} (hf : Fetches g.receiver r) :
    Sound rnd { g with receiver := r } := by
  cases hf with
  | byte c valid pending => exact ⟨valid, h.shown⟩

theorem tick (h : Sound rnd g) : Sound rnd (g.tick rnd) := by
  obtain ⟨bs, hshown⟩ := h.shown
  exact ⟨h.valid, bs, hshown.tick⟩

/-- `decode` takes the byte that is held. -/
theorem decode (h : Sound rnd g) :
    ∃ r, g.decode = some { g with receiver := r } ∧ r.ring = g.receiver.ring ∧
      r.returned = g.receiver.returned ∧ r.held = none ∧
      Sound rnd { g with receiver := r } ∧
      (Fed rnd g → Fed rnd { g with receiver := r }) := by
  cases hheld : g.receiver.held with
  | none =>
    refine ⟨g.receiver, ?_, rfl, rfl, hheld, h, id⟩
    simp only [Globals.decode, Board.RecvOp.step, hheld, Option.map_some]
  | some c =>
    obtain ⟨bs, hshown⟩ := h.shown
    obtain ⟨d, hd⟩ := hshown.decode_defined c
    refine ⟨{ g.receiver with decoder := d, held := none }, ?_, rfl, rfl, rfl,
      ⟨h.valid, _, hshown.decode hd⟩, fun hfed => ?_⟩
    · simp only [Globals.decode, Board.RecvOp.step, hheld, hd, Option.map_some]
    · obtain ⟨bs', hshown', hreturned⟩ := hfed
      refine ⟨bs' ++ [c], hshown'.decode hd, ?_⟩
      rw [hheld] at hreturned
      show g.receiver.returned = _ ++ []
      rw [List.append_nil]
      exact hreturned

theorem of_same (h : Sound rnd g) {ring : Board.RxRing} (hvalid : ring.Valid)
    (f : TEventFlag) (n : UInt32) (led : Bool) :
    Sound rnd ⟨f, { g.receiver with ring }, n, g.texts, led⟩ :=
  ⟨hvalid, h.shown⟩

end Sound

/-! ## The rules for a service -/

section Lawful

variable {rnd : ℚ → ℚ} {s : System (service rnd)}

/-- `wait` in `com_getc` returns, and the loop goes on. -/
theorem again_spec (h : Coherent s) (hs : Sound rnd s.obj)
    (hp : s.place s.cur = .waiting ()) :
    ∃ a k w, (service rnd).again s.kernel s.obj () = some a ∧
      TService.Leaves s.kernel k s.obj.rxDataAvail.processMap w ∧
      Got k { s.obj with rxDataAvail := { s.obj.rxDataAvail with processMap := w } }
        a := by
  obtain ⟨b, k, w, hend, -, hl⟩ :=
    TEventFlag.waitEnd_spec s.obj.rxDataAvail h.cur_lt_32
  let g : Globals :=
    { s.obj with rxDataAvail := { s.obj.rxDataAvail with processMap := w } }
  have hother : ∃ p, p ≠ k.curProcPriority ∧ k.Ready p := by
    obtain ⟨p, hne, hr⟩ := h.exists_other (h.ne_idle_of_waiting hp)
    exact ⟨p, hl.cur ▸ hne, (hl.ready_iff p).mpr hr⟩
  have hcur : k.curProcPriority < 32 := hl.cur ▸ h.cur_lt_32
  obtain ⟨a, heq, hgot⟩ := comGetc_spec (g := g) hs.valid hcur hother
  refine ⟨a, k, w, ?_, hl, hgot⟩
  have hreturns : (s.obj.comms s.kernel .suspended).waitReturns
      = g.comms k .loop := by
    unfold Board.Comms.waitReturns Globals.comms
    rw [hend]
  show (s.obj.ofComms _).comGetc 2 _ = some a
  rw [hreturns]
  exact heq

theorem lawful (rnd : ℚ → ℚ) : (service rnd).Lawful (Sound rnd) where
  enter := by
    intro s c h hsound hs
    have hsame : ∀ o : Globals,
        o.rxDataAvail.processMap = s.obj.rxDataAvail.processMap →
        Finishes (service rnd) s.kernel s.kernel s.obj o := fun o ho =>
      h.finishes_active hs (h.wakes_same fun _ => ho) rfl
    cases c with
    | tick => exact ⟨_, rfl, Ends.returned _ (hsame _ rfl), hsound.tick⟩
    | ledToggle =>
      exact ⟨_, rfl, Ends.returned _ (hsame _ rfl),
        hsound.of_same hsound.valid _ _ _⟩
    | decode =>
      obtain ⟨r, heq, -, -, -, hsound', -⟩ := hsound.decode
      exact ⟨(.returned (), s.kernel, { s.obj with receiver := r }),
        by simp only [heq, Option.map_some], Ends.returned _ (hsame _ rfl), hsound'⟩
    | comGetc =>
      obtain ⟨a, heq, hgot⟩ :=
        comGetc_spec hsound.valid h.cur_lt_32 (h.exists_other hs.2)
      refine ⟨a, heq, ?_⟩
      cases hgot with
      | taken hf => exact ⟨Ends.returned _ (hsame _ rfl), hsound.fetches hf⟩
      | blocked hempty hsusp =>
        refine ⟨Ends.suspended (S := service rnd) () ?_,
          hsound.of_same hsound.valid _ _ _⟩
        exact blocks_suspended (fun q hq => Function.update_of_ne hq _ _) (by simp)
          hsusp (fun _ hm => absurd rfl hm) (fun _ hm => absurd rfl hm)
  again := by
    intro s w h hsound hp hready
    obtain ⟨a, k, m, heq, hl, hgot⟩ := again_spec h hsound hp
    refine ⟨a, heq, ?_⟩
    have hsound' := hsound.of_same hsound.valid
      { s.obj.rxDataAvail with processMap := m } s.obj.comInterrupts s.obj.led
    cases hgot with
    | taken hf =>
      exact ⟨Ends.returned _ (h.finishes_left hp hready hl fun _ hm => absurd rfl hm),
        hsound'.fetches hf⟩
    | blocked hempty hsusp =>
      refine ⟨Ends.suspended (S := service rnd) () ?_,
        hsound'.of_same hsound'.valid _ _ _⟩
      exact h.blocks_left hp hl
        (fun q hq => Function.update_of_ne (hl.cur ▸ hq) _ _) (by simp) hsusp
        fun _ hm => absurd rfl hm
  isr := by
    intro s c h hsound
    cases c with
    | none =>
      exact ⟨_, _, rfl, h.wakes_same fun _ => rfl, rfl,
        hsound.of_same hsound.valid _ _ _⟩
    | some c =>
      obtain ⟨k, ring, f, heq, harr⟩ := usart1Isr_byte s.kernel hsound.valid c
      refine ⟨k, _, heq, ?_⟩
      rcases harr.wakes with ⟨-, rfl, rfl⟩ | hres
      · exact ⟨h.wakes_same fun _ => rfl, rfl, hsound.of_same harr.valid _ _ _⟩
      · exact ⟨h.wakes_resumed (m := ()) (fun _ hq => hq) hres
          fun _ hm => absurd rfl hm, hres.timeout, hsound.of_same harr.valid _ _ _⟩

end Lawful

/-! ## The way of a byte -/

/-- What is recorded of a step. -/
abbrev Record := Obs Call Unit (Option UInt8) Unit

/-- The byte of a receive interrupt. -/
def arrival? : Record → Option UInt8
  | .isr c => c
  | .done _ _ _ | .blocked _ _ | .returned _ _ _ | .tick | .wakeUp _
  | .forceWakeUp _ => none

/-- The bytes that have arrived. -/
def arrivals (log : List Record) : List UInt8 := log.filterMap arrival?

/-- A receive interrupt. -/
def isInterrupt : Record → Bool
  | .isr _ => true
  | .done _ _ _ | .blocked _ _ | .returned _ _ _ | .tick | .wakeUp _
  | .forceWakeUp _ => false

/-- The bytes that `com_getc` has returned, and the pending ones. -/
def Globals.stream (g : Globals) : List UInt8 :=
  g.receiver.returned ++ g.receiver.ring.pending

/-- The buffer has room for a byte. -/
def Globals.HasRoom (g : Globals) : Prop := g.receiver.ring.pending.length < 1023

instance (g : Globals) : Decidable g.HasRoom := inferInstanceAs (Decidable (_ < _))

/-- What a step does to the stream and to the count of the interrupts. -/
inductive Flows {rnd : ℚ → ℚ} (s s' : System (service rnd)) : Prop where
  | quiet (new : List Record) (log : s'.log = s.log ++ new)
      (none : ∀ r ∈ new, arrival? r = none ∧ isInterrupt r = false)
      (stream : s'.obj.stream = s.obj.stream)
      (count : s'.obj.comInterrupts = s.obj.comInterrupts)
  | interrupt (c : Option UInt8) (log : s'.log = s.log ++ [.isr c])
      (stream : s'.obj.stream
        = s.obj.stream ++ if s.obj.HasRoom then c.toList else [])
      (count : s'.obj.comInterrupts = s.obj.comInterrupts + 1)

section Flow

variable {rnd : ℚ → ℚ} {s s' : System (service rnd)}

theorem stream_fetches {g : Globals} {r : Board.Receiver}
    (h : Fetches g.receiver r) :
    ({ g with receiver := r } : Globals).stream = g.stream := by
  cases h with
  | byte c valid pending =>
    unfold Globals.stream
    rw [pending, ← List.append_cons]

/-- A step of a call of a process. -/
theorem settle_flows {a : (service rnd).Step} {record : Unit → Record}
    (hrecord : ∀ r, arrival? (record r) = none ∧ isInterrupt (record r) = false)
    (hstream : a.2.2.stream = s.obj.stream)
    (hcount : a.2.2.comInterrupts = s.obj.comInterrupts) :
    Flows s (s.settle record a) := by
  obtain ⟨o, k, g⟩ := a
  cases o with
  | returned r =>
    exact Flows.quiet [record r] rfl (by simpa using hrecord r) hstream hcount
  | rescheduled r =>
    exact Flows.quiet [record r] rfl (by simpa using hrecord r) hstream hcount
  | suspended w =>
    exact Flows.quiet [.blocked s.cur w] rfl
      (by simp [arrival?, isInterrupt]) hstream hcount

theorem got_flows {k : TKernel} {g : Globals} {a : Outcome Unit Unit × TKernel × Globals}
    (h : Got k g a) :
    a.2.2.stream = g.stream ∧ a.2.2.comInterrupts = g.comInterrupts := by
  cases h with
  | taken hf => exact ⟨stream_fetches hf, rfl⟩
  | blocked hempty hsusp => exact ⟨rfl, rfl⟩

/-- Every step. -/
theorem effect_flows (h : Coherent s) (hsound : Sound rnd s.obj)
    (heffect : Effect s s') : Flows s s' := by
  cases heffect with
  | stirred => exact Flows.quiet [] (List.append_nil _).symm (by simp) rfl rfl
  | ticked =>
    exact Flows.quiet [.tick] rfl (by simp [arrival?, isInterrupt]) rfl rfl
  | woken p =>
    exact Flows.quiet [.wakeUp p] rfl (by simp [arrival?, isInterrupt]) rfl rfl
  | forced p o active hp admits ho =>
    refine Flows.quiet [o] rfl ?_ rfl rfl
    rcases ho with rfl | ⟨rfl, -⟩ <;> simp [arrival?, isInterrupt]
  | isr c heq =>
    cases c with
    | none =>
      obtain ⟨rfl, rfl⟩ := Prod.mk.inj (Option.some.inj heq)
      refine Flows.interrupt none rfl ?_ rfl
      rw [Option.toList_none, ite_self, List.append_nil]
      rfl
    | some c =>
      obtain ⟨k, ring, f, heq', harr⟩ := usart1Isr_byte s.kernel hsound.valid c
      obtain ⟨rfl, rfl⟩ := Prod.mk.inj (Option.some.inj (heq'.symm.trans heq))
      refine Flows.interrupt (some c) rfl ?_ rfl
      show s.obj.receiver.returned ++ ring.pending = _
      rw [harr.pending, RingBuffer.offer]
      by_cases hroom : s.obj.HasRoom
      · rw [if_pos hroom, if_pos (show _ < 1023 from hroom), ← List.append_assoc]
        rfl
      · rw [if_neg hroom, if_neg (show ¬ _ < 1023 from hroom), List.append_nil]
        rfl
  | called c active heq =>
    have hrecord : ∀ r, arrival? (.done s.cur c r) = none ∧
        isInterrupt (.done s.cur c r) = false := fun _ => ⟨rfl, rfl⟩
    cases c with
    | tick =>
      obtain rfl := Option.some.inj heq
      exact settle_flows hrecord rfl rfl
    | ledToggle =>
      obtain rfl := Option.some.inj heq
      exact settle_flows hrecord rfl rfl
    | decode =>
      obtain ⟨r, heq', hring, hreturned, -⟩ := hsound.decode
      simp only [heq', Option.map_some, Option.some.injEq] at heq
      subst heq
      refine settle_flows hrecord ?_ rfl
      show r.returned ++ r.ring.pending = _
      rw [hring, hreturned]
      rfl
    | comGetc =>
      obtain ⟨a, heq', hgot⟩ :=
        comGetc_spec hsound.valid h.cur_lt_32 (h.exists_other active.2)
      obtain rfl := Option.some.inj (heq'.symm.trans heq)
      obtain ⟨hstream, hcount⟩ := got_flows hgot
      exact settle_flows hrecord hstream hcount
  | resumed w waits ready heq =>
    obtain ⟨a, k, m, heq', -, hgot⟩ := again_spec h hsound waits
    obtain rfl := Option.some.inj (heq'.symm.trans heq)
    obtain ⟨hstream, hcount⟩ := got_flows hgot
    exact settle_flows (fun _ => ⟨rfl, rfl⟩) hstream hcount

/-- The stream is a part of what has arrived, and every interrupt is counted. -/
structure Flow (s : System (service rnd)) : Prop where
  sublist : s.obj.stream.Sublist (arrivals s.log)
  count : s.obj.comInterrupts = UInt32.ofNat (s.log.countP isInterrupt)

theorem Flow.init : Flow (System.init (S := service rnd) Globals.reset) where
  sublist := by
    show ([] ++ Board.RxRing.reset.pending).Sublist _
    rw [Board.RxRing.reset_pending]
    exact List.nil_sublist _
  count := by
    show 0 = UInt32.ofNat ([] : List Record).length
    rfl

theorem arrivals_quiet (log : List Record) {new : List Record}
    (hnone : ∀ r ∈ new, arrival? r = none ∧ isInterrupt r = false) :
    arrivals (log ++ new) = arrivals log ∧
      (log ++ new).countP isInterrupt = log.countP isInterrupt := by
  have harr : new.filterMap arrival? = [] :=
    List.filterMap_eq_nil_iff.mpr fun r hr => (hnone r hr).1
  have hcount : new.countP isInterrupt = 0 :=
    List.countP_eq_zero.mpr fun r hr => by simp [(hnone r hr).2]
  unfold arrivals
  rw [List.filterMap_append, List.countP_append, harr, hcount, List.append_nil]
  exact ⟨rfl, rfl⟩

theorem arrivals_isr (log : List Record) (c : Option UInt8) :
    arrivals (log ++ [.isr c]) = arrivals log ++ c.toList := by
  unfold arrivals
  rw [List.filterMap_append]
  cases c <;> rfl

theorem Flow.of_flows (h : Flow s) (hflows : Flows s s') : Flow s' := by
  cases hflows with
  | quiet new log none stream count =>
    obtain ⟨harr, hcount⟩ := arrivals_quiet s.log none
    refine ⟨?_, ?_⟩
    · rw [stream, log, harr]
      exact h.sublist
    · rw [count, log, hcount]
      exact h.count
  | interrupt c log stream count =>
    refine ⟨?_, ?_⟩
    · rw [log, arrivals_isr, stream]
      by_cases hroom : s.obj.HasRoom
      · rw [if_pos hroom]
        exact h.sublist.append (List.Sublist.refl _)
      · rw [if_neg hroom]
        exact h.sublist.append (List.nil_sublist _)
    · have hone : [Obs.isr c].countP isInterrupt = 1 := by
        simp [isInterrupt]
      rw [count, log, List.countP_append, hone, ← Ebl.ofNat_succ, h.count]

end Flow

end EBLmon.Main
