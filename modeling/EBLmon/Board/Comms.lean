import EBLmon.Board.Receive
import EBLmon.Os.EventFlag

/-!
# The comms process and the receive interrupt

`Board::com_getc`, `Board::com_rx` and `usart1_isr` with the event flag
`_rx_data_avail` and the kernel, and the comms process that loops on
`com_getc` and `decode`.

`com_getc` holds a critical section, so no interrupt comes between its test of
the buffer and what it does next.  The one exception is the loop of `sched`
inside `wait`: there interrupts are enabled, and the process goes on when the
scheduler has picked it again.  `Pc` names the three places.

An event that is not enabled in a state changes nothing.  Interrupts, the
timer and the other processes come at any moment outside the critical section.

`step_effect` says once what an event can do.  `Inv` is the invariant of every
run (`exec_inv`).  A process that waits and has not been made ready finds an
empty buffer, and it is in the map of the flag, so the next byte that is
received wakes it.
-/

namespace EBLmon.Board

open Machine RingBuffer Ebl Os

/-- `TCommsProc` -/
def commsPriority : ℕ := pr1

theorem commsPriority_lt : commsPriority < 32 := by decide

/-- Where the comms process is: outside of `com_getc`, at its loop condition in
the critical section, or in the loop of `sched` inside `wait`. -/
inductive Pc where
  | outside
  | loop
  | suspended
  deriving DecidableEq, Repr

/-- The kernel, the flag and the receive path. -/
structure Comms where
  kernel : TKernel
  rxDataAvail : TEventFlag
  receiver : Receiver
  pc : Pc

/-- The state at reset. -/
def Comms.reset : Comms where
  kernel := TKernel.init
  rxDataAvail := TEventFlag.init
  receiver := Receiver.reset
  pc := .outside

/-- An interrupt, a step of another process or a step of the comms process. -/
inductive Event where
  | usart1Isr (c : UInt8)
  | isrExit
  | sysTick
  | contextSwitch
  | sleep (timeout : UInt16)
  | enter
  | check
  | resume
  | decode
  deriving DecidableEq, Repr

namespace Comms

/-- `void com_rx(uint8_t c)` -/
def comRx (s : Comms) (c : UInt8) : Option Comms := do
  let (ring, stored) ← s.receiver.ring.put c
  let s := { s with receiver := { s.receiver with ring } }
  if stored then
    -- wake anyone that might be waiting
    let (kernel, rxDataAvail) := TEventFlag.signalIsr s.kernel s.rxDataAvail
    some { s with kernel, rxDataAvail }
  else some s

/-- `com_getc` at its loop condition: wait while the buffer is empty, and take
a byte otherwise.  The answer of `wait` is not used. -/
def comGetc (s : Comms) : Option Comms :=
  if s.receiver.ring.Empty then
    match TEventFlag.waitBegin s.kernel s.rxDataAvail 0 with
    | (.returned, kernel, rxDataAvail) => some { s with kernel, rxDataAvail }
    | (.suspended, kernel, rxDataAvail) =>
      some { s with kernel, rxDataAvail, pc := .suspended }
  else s.receiver.take.map fun receiver => { s with receiver, pc := .outside }

/-- `wait` behind the loop of `sched`, back to the loop condition. -/
def waitReturns (s : Comms) : Comms :=
  let (_, kernel, rxDataAvail) := TEventFlag.waitEnd s.kernel s.rxDataAvail
  { s with kernel, rxDataAvail, pc := .loop }

theorem comRx_dropped {s : Comms} {c : UInt8} {b : RxRing}
    (hput : s.receiver.ring.put c = some (b, false)) :
    s.comRx c = some { s with receiver := { s.receiver with ring := b } } := by
  unfold comRx
  rw [hput]
  rfl

theorem comRx_stored {s : Comms} {c : UInt8} {b : RxRing} {k : TKernel}
    {f : TEventFlag} (hput : s.receiver.ring.put c = some (b, true))
    (hsignal : TEventFlag.signalIsr s.kernel s.rxDataAvail = (k, f)) :
    s.comRx c = some
      { s with
        kernel := k
        rxDataAvail := f
        receiver := { s.receiver with ring := b } } := by
  unfold comRx
  rw [hput]
  simp only [Option.bind_eq_bind, Option.bind_some, if_true, hsignal]

/-- Interrupts are masked in the critical section. -/
def Unmasked (s : Comms) : Prop := s.pc ≠ .loop

instance (s : Comms) : Decidable s.Unmasked :=
  inferInstanceAs (Decidable (_ ≠ _))

/-- The comms process has the processor. -/
def Running (s : Comms) : Prop := s.kernel.curProcPriority = commsPriority

instance (s : Comms) : Decidable s.Running :=
  inferInstanceAs (Decidable (_ = _))

end Comms

/-- The state after one event. -/
def Event.step (s : Comms) : Event → Option Comms
  | usart1Isr c => if s.Unmasked then s.comRx c else some s
  | isrExit =>
    if s.Unmasked then some { s with kernel := s.kernel.schedIsr } else some s
  | sysTick =>
    if s.Unmasked then some { s with kernel := s.kernel.systemTimer }
    else some s
  | contextSwitch =>
    if s.Unmasked ∧ s.kernel.contextSwitchRaised then
      some { s with kernel := s.kernel.contextSwitchHook }
    else some s
  | sleep timeout =>
    -- the GUI process and the heartbeat process sleep
    if s.Unmasked ∧
        (s.kernel.curProcPriority = pr0 ∨ s.kernel.curProcPriority = pr2) then
      some { s with kernel := s.kernel.sleep timeout }
    else some s
  | enter =>
    if s.Running ∧ s.pc = .outside ∧ s.receiver.held = none then
      some { s with pc := .loop }
    else some s
  | check => if s.pc = .loop then s.comGetc else some s
  | resume =>
    -- the loop of `sched` ends when the scheduler has picked this process
    if s.Running ∧ s.pc = .suspended ∧
        s.kernel.schedProcPriority = s.kernel.curProcPriority then
      some s.waitReturns
    else some s
  | decode =>
    if s.Running ∧ s.pc = .outside then
      (RecvOp.step s.receiver .decode).map fun receiver =>
        { s with receiver }
    else some s

/-- The state after a sequence of events. -/
def execEvents (es : List Event) : Option Comms :=
  run Event.step Comms.reset es

/-! ## What an event can do -/

/-- The answers of `Event.step`, with the guards that let the event through.
The events of the kernel and of the other processes are one case. -/
inductive Effect (s : Comms) : Event → Option Comms → Prop where
  | disabled (e : Event) : Effect s e (some s)
  | received (c : UInt8) (unmasked : s.Unmasked) :
      Effect s (.usart1Isr c) (s.comRx c)
  | elsewhere (e : Event) (k : TKernel) (unmasked : s.Unmasked)
      (alone : s.kernel.timeout commsPriority = 0 →
        TKernel.Undisturbed commsPriority s.kernel k) :
      Effect s e (some { s with kernel := k })
  | entered (running : s.Running) (pc : s.pc = .outside)
      (held : s.receiver.held = none) :
      Effect s .enter (some { s with pc := .loop })
  | checked (pc : s.pc = .loop) : Effect s .check s.comGetc
  | resumed (running : s.Running) (pc : s.pc = .suspended)
      (sched : s.kernel.schedProcPriority = s.kernel.curProcPriority) :
      Effect s .resume (some s.waitReturns)
  | decoded (running : s.Running) (pc : s.pc = .outside) :
      Effect s .decode ((RecvOp.step s.receiver .decode).map fun receiver =>
        { s with receiver })

/-- The two other processes are not the comms process. -/
theorem sleeper_ne {pr : ℕ} (h : pr = pr0 ∨ pr = pr2) :
    pr < 32 ∧ pr ≠ commsPriority := by
  rcases h with rfl | rfl <;> decide

theorem step_effect (s : Comms) (e : Event) : Effect s e (e.step s) := by
  have hlt := commsPriority_lt
  cases e with
  | usart1Isr c =>
    by_cases h : s.Unmasked
    · rw [Event.step, if_pos h]
      exact Effect.received c h
    · rw [Event.step, if_neg h]
      exact Effect.disabled _
  | isrExit =>
    by_cases h : s.Unmasked
    · rw [Event.step, if_pos h]
      exact Effect.elsewhere _ _ h fun _ =>
        TKernel.schedIsr_undisturbed hlt s.kernel
    · rw [Event.step, if_neg h]
      exact Effect.disabled _
  | sysTick =>
    by_cases h : s.Unmasked
    · rw [Event.step, if_pos h]
      exact Effect.elsewhere _ _ h (TKernel.systemTimer_undisturbed hlt)
    · rw [Event.step, if_neg h]
      exact Effect.disabled _
  | contextSwitch =>
    by_cases h : s.Unmasked ∧ s.kernel.contextSwitchRaised
    · rw [Event.step, if_pos h]
      exact Effect.elsewhere _ _ h.1 fun _ =>
        TKernel.contextSwitchHook_undisturbed _ s.kernel
    · rw [Event.step, if_neg h]
      exact Effect.disabled _
  | sleep timeout =>
    by_cases h : s.Unmasked ∧
        (s.kernel.curProcPriority = pr0 ∨ s.kernel.curProcPriority = pr2)
    · obtain ⟨hcur, hne⟩ := sleeper_ne h.2
      rw [Event.step, if_pos h]
      exact Effect.elsewhere _ _ h.1 fun _ =>
        TKernel.sleep_undisturbed hlt hcur hne timeout
    · rw [Event.step, if_neg h]
      exact Effect.disabled _
  | enter =>
    by_cases h : s.Running ∧ s.pc = .outside ∧ s.receiver.held = none
    · rw [Event.step, if_pos h]
      exact Effect.entered h.1 h.2.1 h.2.2
    · rw [Event.step, if_neg h]
      exact Effect.disabled _
  | check =>
    by_cases h : s.pc = .loop
    · rw [Event.step, if_pos h]
      exact Effect.checked h
    · rw [Event.step, if_neg h]
      exact Effect.disabled _
  | resume =>
    by_cases h : s.Running ∧ s.pc = .suspended ∧
        s.kernel.schedProcPriority = s.kernel.curProcPriority
    · rw [Event.step, if_pos h]
      exact Effect.resumed h.1 h.2.1 h.2.2
    · rw [Event.step, if_neg h]
      exact Effect.disabled _
  | decode =>
    by_cases h : s.Running ∧ s.pc = .outside
    · rw [Event.step, if_pos h]
      exact Effect.decoded h.1 h.2
    · rw [Event.step, if_neg h]
      exact Effect.disabled _

/-! ## The invariant -/

/-- What holds between any two events. -/
structure Inv (s : Comms) : Prop where
  receives : ∃ ops, Fifo s.receiver ops
  timeout : s.kernel.timeout commsPriority = 0
  running : s.pc = .loop → s.Running
  held : s.pc ≠ .outside → s.receiver.held = none
  awake : s.pc ≠ .suspended → s.kernel.Ready commsPriority
  waits : s.rxDataAvail.processMap =
    if s.kernel.Ready commsPriority then 0#32 else getPrioTag commsPriority
  empty : ¬ s.kernel.Ready commsPriority → s.receiver.ring.Empty
  sched : s.pc = .suspended →
    s.kernel.schedProcPriority = commsPriority → s.kernel.Ready commsPriority

namespace Inv

variable {s : Comms}

theorem reset : Inv Comms.reset where
  receives := ⟨[], Fifo.reset⟩
  timeout := rfl
  running := by decide
  held := by decide
  awake := by decide
  waits := by decide
  empty := by decide
  sched := by decide

theorem valid (h : Inv s) : s.receiver.ring.Valid := by
  obtain ⟨ops, hfifo⟩ := h.receives
  exact hfifo.valid

/-- A change of the kernel that leaves the comms process alone. -/
theorem of_undisturbed (h : Inv s) (hpc : s.Unmasked) {k : TKernel}
    (hk : TKernel.Undisturbed commsPriority s.kernel k) :
    Inv { s with kernel := k } := by
  refine ⟨h.receives, hk.timeout.trans h.timeout, fun hloop => ?_, h.held,
    fun hne => hk.ready.mpr (h.awake hne), ?_, ?_, ?_⟩
  · exact absurd hloop hpc
  · rw [h.waits]
    exact if_congr hk.ready.symm rfl rfl
  · intro hready
    exact h.empty fun hold => hready (hk.ready.mpr hold)
  · intro hsusp
    exact hk.sched (h.sched hsusp)

/-- Nobody is in the map of the flag while the process is ready. -/
theorem nobody_waits (h : Inv s) (hready : s.kernel.Ready commsPriority) :
    s.rxDataAvail.processMap = 0#32 := by
  rw [h.waits, if_pos hready]

/-- While the process is ready, the buffer, the flag value and the place of
the process are free. -/
theorem of_ready {s' : Comms} (h : Inv s)
    (hready : s.kernel.Ready commsPriority)
    (hreceives : ∃ ops, Fifo s'.receiver ops)
    (hkernel : s'.kernel = s.kernel)
    (hmap : s'.rxDataAvail.processMap = s.rxDataAvail.processMap)
    (hrunning : s'.pc = .loop → s'.Running)
    (hheld : s'.pc ≠ .outside → s'.receiver.held = none) : Inv s' := by
  have hready' : s'.kernel.Ready commsPriority := by
    rw [hkernel]
    exact hready
  refine ⟨hreceives, ?_, hrunning, hheld, fun _ => hready', ?_,
    fun hnot => absurd hready' hnot, fun _ _ => hready'⟩
  · rw [hkernel]
    exact h.timeout
  · rw [hmap, if_pos hready']
    exact h.nobody_waits hready

/-- A received byte.  If the process waits, then the buffer was empty, so the
byte is stored and the signal makes the process ready. -/
theorem comRx (h : Inv s) (hpc : s.Unmasked) (c : UInt8) :
    ∃ s', s.comRx c = some s' ∧ Inv s' := by
  obtain ⟨b, hput, _, _⟩ := RxRing.put_spec h.valid c
  obtain ⟨ops, hfifo⟩ := h.receives
  obtain ⟨r, hstep, hfifo'⟩ := hfifo.rx c
  have hr : { s.receiver with ring := b } = r := by
    have hstep' : (s.receiver.ring.put c).map _ = some r := hstep
    rw [hput] at hstep'
    exact Option.some.inj hstep'
  rw [← hr] at hfifo'
  have hloop : s.pc ≠ .loop := hpc
  have hready' : (s.kernel.setProcessReady commsPriority).Ready commsPriority :=
    (tagged_set_iff commsPriority_lt).mpr (Or.inr rfl)
  by_cases hlen : s.receiver.ring.pending.length < 1023
  · rw [decide_eq_true hlen] at hput
    by_cases hready : s.kernel.Ready commsPriority
    · -- nobody waits, so the signal stays in the flag
      have hsignal := TEventFlag.signalIsr_idle (k := s.kernel)
        (h.nobody_waits hready)
      refine ⟨_, Comms.comRx_stored hput hsignal, ?_⟩
      exact h.of_ready hready ⟨_, hfifo'⟩ rfl rfl
        (fun hl => absurd hl hloop) h.held
    · have hwaits : s.rxDataAvail.processMap = getPrioTag commsPriority := by
        rw [h.waits, if_neg hready]
      have hsignal := TEventFlag.signalIsr_waiting commsPriority_lt hwaits
        hready
      refine ⟨_, Comms.comRx_stored hput hsignal, ?_⟩
      exact ⟨⟨_, hfifo'⟩, h.timeout, fun hl => absurd hl hloop, h.held,
        fun _ => hready', (if_pos hready').symm,
        fun hnot => absurd hready' hnot, fun _ _ => hready'⟩
  · rw [decide_eq_false hlen] at hput
    have hready : s.kernel.Ready commsPriority := by
      by_contra hnot
      have hnil := (RxRing.empty_iff h.valid).mp (h.empty hnot)
      rw [hnil] at hlen
      exact hlen (by decide)
    refine ⟨_, Comms.comRx_dropped hput, ?_⟩
    exact h.of_ready hready ⟨_, hfifo'⟩ rfl rfl
      (fun hl => absurd hl hloop) h.held

/-- The loop condition of `com_getc`.  Without a byte and with the flag off
the process goes to sleep on an empty buffer. -/
theorem comGetc (h : Inv s) (hpc : s.pc = .loop) :
    ∃ s', s.comGetc = some s' ∧ Inv s' := by
  have hnot : s.pc ≠ .suspended := by
    rw [hpc]
    decide
  have hready := h.awake hnot
  have hmap := h.nobody_waits hready
  have hheld : s.receiver.held = none := h.held (by rw [hpc]; decide)
  obtain ⟨ops, hfifo⟩ := h.receives
  unfold Comms.comGetc
  by_cases hempty : s.receiver.ring.Empty
  · rw [if_pos hempty]
    cases hv : s.rxDataAvail.value with
    | true =>
      rw [TEventFlag.waitBegin_on hv]
      refine ⟨_, rfl, ?_⟩
      exact h.of_ready hready ⟨ops, hfifo⟩ rfl rfl h.running (fun _ => hheld)
    | false =>
      obtain ⟨k, f, hwait, hsusp⟩ :=
        TEventFlag.waitBegin_off commsPriority_lt (h.running hpc) hv hmap
      rw [hwait]
      refine ⟨_, rfl, ⟨ops, hfifo⟩, hsusp.timeout, ?_, fun _ => hheld, ?_, ?_,
        fun _ => hempty, fun _ hs => absurd hs hsusp.sched⟩
      · intro hl
        exact absurd hl (by simp)
      · intro hne
        exact absurd rfl hne
      · rw [if_neg hsusp.ready]
        exact hsusp.waits
  · rw [if_neg hempty]
    obtain ⟨r, htake, hfifo'⟩ := hfifo.take hheld hempty
    rw [htake]
    refine ⟨_, rfl, ?_⟩
    exact h.of_ready hready ⟨_, hfifo'⟩ rfl rfl
      (fun hl => absurd hl (by simp)) (fun hne => absurd rfl hne)

/-- `wait` returns to a process that has been made ready. -/
theorem waitReturns (h : Inv s) (hrunning : s.Running)
    (hpc : s.pc = .suspended)
    (hsched : s.kernel.schedProcPriority = s.kernel.curProcPriority) :
    Inv s.waitReturns := by
  have hready := h.sched hpc (hsched.trans hrunning)
  have hmap := h.nobody_waits hready
  have hheld : s.receiver.held = none := h.held (by rw [hpc]; decide)
  unfold Comms.waitReturns
  rw [TEventFlag.waitEnd_signalled hmap]
  refine ⟨h.receives, ?_, fun _ => hrunning, fun _ => hheld,
    fun _ => hready, ?_, fun hnot => absurd hready hnot, fun _ _ => hready⟩
  · show Function.update s.kernel.timeout s.kernel.curProcPriority 0
      commsPriority = 0
    rw [show s.kernel.curProcPriority = commsPriority from hrunning,
      Function.update_self]
  · exact hmap.trans (if_pos hready).symm

/-- `decode` takes the byte that the process holds. -/
theorem decode (h : Inv s) (hrunning : s.Running) (hpc : s.pc = .outside) :
    ∃ r, RecvOp.step s.receiver .decode = some r ∧
      Inv { s with receiver := r } := by
  obtain ⟨ops, hfifo⟩ := h.receives
  obtain ⟨r, hstep, hfifo'⟩ := hfifo.decode
  have hready : s.kernel.Ready commsPriority :=
    h.awake (by rw [hpc]; decide)
  refine ⟨r, hstep, ?_⟩
  exact h.of_ready hready ⟨_, hfifo'⟩ rfl rfl (fun _ => hrunning)
    (fun hne => absurd hpc hne)

end Inv

/-! ## Runs -/

/-- The step theorem: every event is defined and keeps the invariant. -/
theorem step_inv {s : Comms} (h : Inv s) (e : Event) :
    ∃ s', e.step s = some s' ∧ Inv s' := by
  have heffect := step_effect s e
  generalize e.step s = answer at heffect ⊢
  cases heffect with
  | disabled => exact ⟨s, rfl, h⟩
  | received c unmasked => exact h.comRx unmasked c
  | elsewhere _ k unmasked alone =>
    exact ⟨_, rfl, h.of_undisturbed unmasked (alone h.timeout)⟩
  | entered running pc held =>
    have hready := h.awake (by rw [pc]; decide)
    exact ⟨_, rfl, h.of_ready hready h.receives rfl rfl (fun _ => running)
      (fun _ => held)⟩
  | checked pc => exact h.comGetc pc
  | resumed running pc sched =>
    exact ⟨_, rfl, h.waitReturns running pc sched⟩
  | decoded running pc =>
    obtain ⟨r, hstep, hinv⟩ := h.decode running pc
    rw [hstep]
    exact ⟨_, rfl, hinv⟩

/-- The run theorem. -/
theorem exec_inv (es : List Event) : ∃ s, execEvents es = some s ∧ Inv s := by
  refine run_history (P := fun (s : Comms) _ => Inv s) ?_ Inv.reset es
  intro s es e h
  exact step_inv h e

/-! ## Bytes taken -/

theorem comRx_returned {s s' : Comms} {c : UInt8} (h : s.comRx c = some s') :
    s'.receiver.returned = s.receiver.returned := by
  unfold Comms.comRx at h
  cases hput : s.receiver.ring.put c with
  | none =>
    rw [hput] at h
    exact absurd h (by simp)
  | some r =>
    obtain ⟨b, stored⟩ := r
    rw [hput] at h
    cases stored with
    | true =>
      have heq := Option.some.inj h
      rw [← heq]
    | false =>
      have heq := Option.some.inj h
      rw [← heq]

/-- On an empty buffer `com_getc` takes nothing, whatever the flag says. -/
theorem comGetc_returned {s s' : Comms} (hempty : s.receiver.ring.Empty)
    (h : s.comGetc = some s') :
    s'.receiver.returned = s.receiver.returned := by
  unfold Comms.comGetc at h
  rw [if_pos hempty] at h
  split at h
  · have heq := Option.some.inj h
    rw [← heq]
  · have heq := Option.some.inj h
    rw [← heq]

theorem decode_returned {r r' : Receiver}
    (h : RecvOp.step r .decode = some r') : r'.returned = r.returned := by
  simp only [RecvOp.step] at h
  split at h
  · obtain ⟨d, _, heq⟩ := Option.map_eq_some_iff.mp h
    rw [← heq]
  · rw [← Option.some.inj h]

/-- No event takes a byte from an empty buffer. -/
theorem step_returned {s s' : Comms} {e : Event}
    (hempty : s.receiver.ring.Empty) (h : e.step s = some s') :
    s'.receiver.returned = s.receiver.returned := by
  have heffect := step_effect s e
  rw [h] at heffect
  generalize hanswer : some s' = answer at heffect
  cases heffect with
  | disabled | elsewhere | entered => rw [Option.some.inj hanswer]
  | resumed =>
    rw [Option.some.inj hanswer]
    rfl
  | received c => exact comRx_returned hanswer.symm
  | checked => exact comGetc_returned hempty hanswer.symm
  | decoded =>
    obtain ⟨r, hr, heq⟩ := Option.map_eq_some_iff.mp hanswer.symm
    rw [← heq]
    exact decode_returned hr

/-- The event `e` after the events `pre` takes a byte from the buffer. -/
def Takes (pre : List Event) (e : Event) : Prop :=
  ∃ s s', execEvents pre = some s ∧ execEvents (pre ++ [e]) = some s' ∧
    s'.receiver.returned ≠ s.receiver.returned

/-- No wake-up is lost and no byte is made up, over every run: a process that
is suspended and not ready finds an empty buffer, and a byte is taken only when
the buffer is not empty. -/
theorem no_lost_wakeup (es : List Event) :
    ∃ s, execEvents es = some s ∧
      (s.pc = .suspended → ¬ s.kernel.Ready commsPriority →
        s.receiver.ring.Empty) ∧
      ∀ pre e post, es = pre ++ e :: post → Takes pre e →
        ∃ s, execEvents pre = some s ∧ ¬ s.receiver.ring.Empty := by
  obtain ⟨s, hs, hinv⟩ := exec_inv es
  refine ⟨s, hs, fun _ => hinv.empty, fun pre e _ _ htakes => ?_⟩
  obtain ⟨s₁, s₂, hs₁, hs₂, hne⟩ := htakes
  have hstep : e.step s₁ = some s₂ :=
    (run_concat_of_eq_some e hs₁).symm.trans hs₂
  exact ⟨s₁, hs₁, fun hempty => hne (step_returned hempty hstep)⟩

end EBLmon.Board
