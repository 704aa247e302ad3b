import EBLmon.Main.Firmware
import EBLmon.Ui.Display

/-!
# From the serial line to the display

What becomes of the bytes that `usart1_isr` receives, over every run of the
firmware.

* `refines_display`: the decoder and the text buffers are where some run of
  `EBLmon.Ui.Tick` takes them, on a part of the received bytes in their order.
  Behind it stand the bytes that are still in flight, and when the comms process
  is blocked there are none.
* `interrupts_accounted`: the two counters of the debug line differ by what is
  in flight, what came when the receive buffer was full, and what was no byte.
* `comms_drains`: once it has the processor, the comms process needs two
  statements for each byte in flight until it is blocked again.
* `GuiAsleep.returns`: while the comms process is blocked, the GUI process is back
  when the ticks that it sleeps for have come.
* `display_recovers`: whatever has happened before, two well-formed packets bring
  the display back.
-/

namespace EBLmon.Main

open Machine Framing Os Rounding

/-- The bytes of the inputs. -/
def received (is : List Input) : List UInt8 := is.filterMap Input.byte?

/-- The bytes between the interrupt and the decoder. -/
def Globals.inFlight (g : Globals) : List UInt8 :=
  g.receiver.held.toList ++ g.receiver.ring.pending

/-- The input brings a byte that finds the receive buffer full. -/
def Drops {rnd : ℚ → ℚ} (f : Firmware rnd) (i : Input) : Prop :=
  i.byte? ≠ none ∧ ¬ f.sys.obj.HasRoom

instance {rnd : ℚ → ℚ} (f : Firmware rnd) (i : Input) : Decidable (Drops f i) :=
  inferInstanceAs (Decidable (_ ∧ _))

/-- The number of bytes that came when the receive buffer was full. -/
def dropCount (rnd : ℚ → ℚ) (is : List Input) : ℕ :=
  runCount Input.step Drops (Firmware.init : Firmware rnd) is

/-- An interrupt without a byte. -/
def isSpurious : Record → Bool
  | .isr c => c.isNone
  | .done _ _ _ | .blocked _ _ | .returned _ _ _ | .tick | .wakeUp _
  | .forceWakeUp _ => false

/-! ## Arrivals -/

section Arrivals

variable {rnd : ℚ → ℚ} {f f' : Firmware rnd} {s s' : System (service rnd)}
  {e : Event (service rnd)} {i : Input}

theorem arrivals_step (hstep : e.step s = some s') :
    arrivals s'.log = arrivals s.log ++ (eventByte? e).toList := by
  cases e with
  | isr c =>
    obtain ⟨r, -, rfl⟩ := Option.map_eq_some_iff.mp hstep
    exact arrivals_isr s.log c
  | call | isrExit | sysTick | contextSwitch | sleep | wakeUp | forceWakeUp | resume =>
    obtain ⟨new, hlog, hnew⟩ := log_step hstep
    have hnone : new.filterMap arrival? = [] := by
      refine List.filterMap_eq_nil_iff.mpr fun r hr => ?_
      have hrecords := hnew r hr
      cases r with
      | isr c => simp [Event.Records] at hrecords
      | done | blocked | returned | tick | wakeUp | forceWakeUp => rfl
    unfold arrivals
    rw [hlog, List.filterMap_append, hnone]
    rfl

theorem Does.arrivals (h : Does f i f') :
    arrivals f'.sys.log = arrivals f.sys.log ++ i.byte?.toList := by
  cases h with
  | rests byte =>
    rw [byte]
    exact (List.append_nil _).symm
  | outside he byte step =>
    rw [← byte]
    exact arrivals_step step
  | starts pc => exact (List.append_nil _).symm
  | resumes step => exact arrivals_step step
  | delays hd step => exact arrivals_step step
  | refreshes hs hcur pc step | pauses hs hcur pc step | fetches hs hcur pc step
  | decodes hs hcur pc step | naps hs hcur pc step | toggles hs hcur pc step =>
    exact arrivals_step step

theorem received_concat (is : List Input) (i : Input) :
    received (is ++ [i]) = received is ++ i.byte?.toList := by
  unfold received
  rw [List.filterMap_append]
  cases h : i.byte? <;> simp [h]

/-- What has arrived is what was received. -/
theorem exec_arrivals (rnd : ℚ → ℚ) (is : List Input) :
    ∃ f, exec rnd is = some f ∧ Steady f ∧ Main.arrivals f.sys.log = received is := by
  refine run_history (P := fun f is => Steady f ∧ Main.arrivals f.sys.log = received is)
    ?_ ⟨Steady.init, rfl⟩ is
  intro f is i h
  obtain ⟨f', hf', hdoes⟩ := h.1.step i
  refine ⟨f', hf', h.1.of_does hdoes, ?_⟩
  rw [received_concat, hdoes.arrivals, h.2]

theorem Steady.flows (h : Steady f) (he : Unforced e) (hstep : e.step f.sys = some s) :
    Flows f.sys s := by
  obtain ⟨s', hs', heffect, -, -⟩ :=
    step_effect (lawful rnd) h.coherent h.sound e he.admits
  obtain rfl := Option.some.inj (hs'.symm.trans hstep)
  exact effect_flows h.coherent h.sound heffect

theorem Does.flows (h : Does f i f') (hf : Steady f) : Flows f.sys f'.sys := by
  cases h with
  | rests byte | starts pc =>
    exact Flows.quiet [] (List.append_nil _).symm (by simp) rfl rfl
  | outside he byte step => exact hf.flows (unforced_outside he) step
  | resumes step => exact hf.flows unforced_resume step
  | delays hd step | pauses hs hcur pc step | naps hs hcur pc step =>
    exact hf.flows (unforced_sleep _) step
  | refreshes hs hcur pc step | fetches hs hcur pc step | decodes hs hcur pc step
  | toggles hs hcur pc step =>
    exact hf.flows (unforced_call _) step

/-- A byte that comes is put behind the stream when the buffer has room. -/
theorem Does.stream (h : Does f i f') (hf : Steady f) :
    f'.sys.obj.stream
      = f.sys.obj.stream ++ if f.sys.obj.HasRoom then i.byte?.toList else [] := by
  have harrivals := h.arrivals
  cases h.flows hf with
  | quiet new log none stream count =>
    rw [log, (arrivals_quiet _ none).1, List.self_eq_append_right] at harrivals
    rw [stream, harrivals, ite_self, List.append_nil]
  | interrupt c log stream count =>
    rw [log, arrivals_isr, List.append_cancel_left_eq] at harrivals
    rw [stream, harrivals]

/-- Every byte that comes is put behind the stream or is dropped. -/
theorem Does.length_stream (h : Does f i f') (hf : Steady f) :
    f.sys.obj.stream.length + i.byte?.toList.length
      = f'.sys.obj.stream.length + if Drops f i then 1 else 0 := by
  rw [h.stream hf, List.length_append]
  by_cases hroom : f.sys.obj.HasRoom
  · rw [if_pos hroom, if_neg fun hdrops : Drops f i => hdrops.2 hroom]
    rfl
  · rw [if_neg hroom]
    cases hbyte : i.byte? with
    | none =>
      rw [if_neg fun hdrops : Drops f i => hdrops.1 hbyte]
      rfl
    | some c =>
      have hdrops : Drops f i := ⟨by simp [hbyte], hroom⟩
      rw [if_pos hdrops]
      rfl

theorem received_cons (i : Input) (is : List Input) :
    received (i :: is) = i.byte?.toList ++ received is := by
  unfold received
  rw [List.filterMap_cons]
  cases i.byte? <;> rfl

theorem stream_init : (Firmware.init : Firmware rnd).sys.obj.stream = [] := by
  show [] ++ Board.RxRing.reset.pending = []
  rw [Board.RxRing.reset_pending, List.append_nil]

/-- The bytes of a run are put behind the stream, or are dropped. -/
theorem length_stream_run (hf : Steady f) (is : List Input) :
    ∃ f', run Input.step f is = some f' ∧
      f.sys.obj.stream.length + (received is).length
        = f'.sys.obj.stream.length + runCount Input.step Drops f is := by
  induction is generalizing f with
  | nil => exact ⟨f, rfl, rfl⟩
  | cons i is ih =>
    obtain ⟨f₁, hf₁, hdoes⟩ := hf.step i
    have hlength := hdoes.length_stream hf
    obtain ⟨f', hf', h⟩ := ih (hf.of_does hdoes)
    refine ⟨f', by rw [run_cons, hf₁, Option.bind_some, hf'], ?_⟩
    rw [received_cons, List.length_append, runCount, hf₁, Option.elim_some]
    omega

end Arrivals

/-! ## The bytes in flight -/

section InFlight

variable {rnd : ℚ → ℚ} {f : Firmware rnd}

/-- When the comms process is blocked nothing is in flight. -/
theorem Steady.drained (h : Steady f) (hnot : ¬ f.sys.kernel.Ready pr1) :
    f.sys.obj.inFlight = [] := by
  have hplace : ∀ place, f.sys.place pr1 = place → place ≠ .running := by
    intro place hp hrunning
    rcases h.coherent.unready pr1 (by decide) hnot with hs | ⟨w, hs⟩
    · rw [hp, hrunning] at hs
      cases hs
    · rw [hp, hrunning] at hs
      cases hs
  cases h.comms with
  | getc pc place held => exact absurd rfl (hplace _ place)
  | decode pc place held => exact absurd rfl (hplace _ place)
  | waits pc place held empty =>
    have hnil := (Board.RxRing.empty_iff h.sound.valid).mp (empty hnot)
    unfold Globals.inFlight
    rw [held, hnil]
    rfl

/-- The stream is what the decoder has taken, and what is in flight. -/
theorem Steady.shown (h : Steady f) : ∃ ops,
    Ui.exec rnd ops = some ⟨f.sys.obj.receiver.decoder, f.sys.obj.texts⟩ ∧
      f.sys.obj.stream = Ebl.bytesOf (Ui.calls ops) ++ f.sys.obj.inFlight := by
  obtain ⟨_, ⟨ops, hops, rfl⟩, hreturned⟩ := h.fed
  refine ⟨ops, hops, ?_⟩
  unfold Globals.stream Globals.inFlight
  rw [hreturned, List.append_assoc]

/-- The firmware refines the display machine.  The bytes that it feeds to it are
those received, in their order and each at most once, up to the ones in
flight. -/
theorem refines_display (rnd : ℚ → ℚ) (is : List Input) :
    ∃ f ops, exec rnd is = some f ∧
      Ui.exec rnd ops = some ⟨f.sys.obj.receiver.decoder, f.sys.obj.texts⟩ ∧
      (Ebl.bytesOf (Ui.calls ops) ++ f.sys.obj.inFlight).Sublist (received is) ∧
      (¬ f.sys.kernel.Ready pr1 → f.sys.obj.inFlight = []) := by
  obtain ⟨f, hf, h, harrivals⟩ := exec_arrivals rnd is
  obtain ⟨ops, hops, hstream⟩ := h.shown
  refine ⟨f, ops, hf, hops, ?_, h.drained⟩
  rw [← hstream, ← harrivals]
  exact h.flow.sublist

theorem arrivals_cons (r : Record) (log : List Record) :
    arrivals (r :: log) = (arrival? r).toList ++ arrivals log := by
  unfold arrivals
  rw [List.filterMap_cons]
  cases arrival? r <;> rfl

theorem countP_isInterrupt (log : List Record) :
    log.countP isInterrupt = (arrivals log).length + log.countP isSpurious := by
  induction log with
  | nil => rfl
  | cons r log ih =>
    rw [List.countP_cons, List.countP_cons, arrivals_cons, List.length_append, ih]
    have hone : (if isInterrupt r = true then 1 else 0)
        = (arrival? r).toList.length + (if isSpurious r = true then 1 else 0) := by
      cases r with
      | isr c => cases c <;> rfl
      | done | blocked | returned | tick | wakeUp | forceWakeUp => rfl
    omega

/-- Every interrupt is accounted for.  It has brought a byte that was decoded, a
byte that is in flight, a byte that found no room, or none.  And every byte that
came is in the stream or has found no room. -/
theorem interrupts_accounted (rnd : ℚ → ℚ) (is : List Input) :
    ∃ f, exec rnd is = some f ∧
      (received is).length = f.sys.obj.stream.length + dropCount rnd is ∧
      f.sys.obj.comInterrupts = f.sys.obj.receiver.decoder.rxCount
        + UInt32.ofNat f.sys.obj.inFlight.length
        + UInt32.ofNat (dropCount rnd is)
        + UInt32.ofNat (f.sys.log.countP isSpurious) := by
  obtain ⟨f, hf, h, harrivals⟩ := exec_arrivals rnd is
  obtain ⟨ops, hops, hstream⟩ := h.shown
  have hdecoder := of_eq_some (Ui.exec_decoder rnd ops) hops
  have haccounts := of_eq_some (Ebl.exec_accounts (Ui.calls ops)) hdecoder
  have hreceived : (received is).length
      = f.sys.obj.stream.length + dropCount rnd is := by
    have hrun := of_eq_some (length_stream_run Steady.init is) hf
    rw [stream_init, List.length_nil, Nat.zero_add] at hrun
    exact hrun
  refine ⟨f, hf, hreceived, ?_⟩
  have hlength := congrArg List.length hstream
  rw [List.length_append] at hlength
  rw [h.flow.count, countP_isInterrupt, harrivals, haccounts.rx, ← UInt32.ofNat_add,
    ← UInt32.ofNat_add, ← UInt32.ofNat_add]
  refine congrArg UInt32.ofNat ?_
  omega

end InFlight

/-! ## The comms process on its own -/

section Drains

variable {rnd : ℚ → ℚ} {f : Firmware rnd}

/-- The comms process has the processor. -/
structure AtWork (f : Firmware rnd) : Prop where
  steady : Steady f
  active : f.sys.Active
  cur : f.sys.cur = pr1

theorem AtWork.step_run (h : AtWork f) : Input.step f .run = f.commsExec := by
  have hne : f.sys.cur ≠ pr0 := by rw [h.cur]; decide
  show f.run = _
  rw [Firmware.run, if_pos h.active, if_neg hne, if_pos h.cur]

/-- The comms process is blocked, and the context switch has not come yet. -/
structure CommsBlocked (f : Firmware rnd) : Prop where
  ready : ¬ f.sys.kernel.Ready pr1
  timeout : f.sys.kernel.timeout pr1 = 0
  cur : f.sys.cur = pr1

/-- The GUI process is left alone. -/
structure GuiAside (f f' : Firmware rnd) : Prop where
  gui : f'.gui = f.gui
  place : f'.sys.place pr0 = f.sys.place pr0
  timeout : f'.sys.kernel.timeout pr0 = f.sys.kernel.timeout pr0

theorem GuiAside.refl (f : Firmware rnd) : GuiAside f f := ⟨rfl, rfl, rfl⟩

theorem GuiAside.trans {f₁ f₂ f₃ : Firmware rnd} (h : GuiAside f₁ f₂)
    (h' : GuiAside f₂ f₃) : GuiAside f₁ f₃ :=
  ⟨h'.gui.trans h.gui, h'.place.trans h.place, h'.timeout.trans h.timeout⟩

/-- `decode` -/
theorem AtWork.decodes (h : AtWork f) (pc : f.comms = .decode) :
    ∃ f', Input.step f .run = some f' ∧ AtWork f' ∧ f'.comms = .getc ∧
      f'.sys.obj.receiver.ring = f.sys.obj.receiver.ring ∧
      f'.sys.obj.stream = f.sys.obj.stream ∧ GuiAside f f' := by
  obtain ⟨s, hs⟩ := h.steady.step_defined (unforced_call .decode)
  have hsteady := h.steady.of_does (Does.decodes h.active h.cur pc hs)
  obtain ⟨r, heq, hring, hreturned, -⟩ := step_decode h.active h.steady.sound hs
  subst heq
  refine ⟨_, ?_, ⟨hsteady, h.active, h.cur⟩, rfl, hring, ?_, rfl, rfl, rfl⟩
  · rw [h.step_run, Firmware.commsExec, pc]
    exact congrArg (Option.map _) hs
  · show r.returned ++ r.ring.pending = _
    rw [hring, hreturned]
    rfl

/-- `com_getc` takes a byte, or the process is blocked. -/
theorem AtWork.fetches (h : AtWork f) (pc : f.comms = .getc) :
    ∃ f', Input.step f .run = some f' ∧ Steady f' ∧
      f'.sys.obj.stream = f.sys.obj.stream ∧ GuiAside f f' ∧
      ((CommsBlocked f' ∧ f.sys.obj.receiver.ring.pending = []) ∨
        (AtWork f' ∧ f'.comms = .decode ∧
          f.sys.obj.receiver.ring.pending.length
            = f'.sys.obj.receiver.ring.pending.length + 1)) := by
  obtain ⟨s, hs⟩ := h.steady.step_defined (unforced_call .comGetc)
  have hsteady := h.steady.of_does (Does.fetches h.active h.cur pc hs)
  obtain ⟨a, hgot, heq⟩ :=
    step_comGetc h.steady.coherent h.active h.steady.sound hs
  have hstream : s.obj.stream = f.sys.obj.stream := by
    rw [heq, settle_obj]
    exact (got_flows hgot).1
  have hstep : Input.step f .run = some { f with sys := s, comms := .decode } := by
    rw [h.step_run, Firmware.commsExec, pc]
    exact congrArg (Option.map _) hs
  have hplace : s.place pr0 = f.sys.place pr0 := place_step hs (by rw [h.cur]; decide)
  have hne : pr0 ≠ f.sys.cur := by rw [h.cur]; decide
  subst heq
  cases hgot with
  | blocked empty suspends =>
    refine ⟨_, hstep, hsteady, hstream, ⟨rfl, hplace, ?_⟩,
      Or.inl ⟨⟨fun hready => ?_, ?_, suspends.cur.trans h.cur⟩, ?_⟩⟩
    · exact (congrFun suspends.timeout pr0).trans (Function.update_of_ne hne _ _)
    · exact ((suspends.ready pr1).mp hready).2 h.cur.symm
    · refine (congrFun suspends.timeout pr1).trans ?_
      show Function.update f.sys.kernel.timeout f.sys.cur 0 pr1 = 0
      rw [h.cur, Function.update_self]
    · exact (Board.RxRing.empty_iff h.steady.sound.valid).mp empty
  | taken hfetch =>
    cases hfetch with
    | byte c valid pending =>
      refine ⟨_, hstep, hsteady, hstream, ⟨rfl, hplace, rfl⟩,
        Or.inr ⟨⟨hsteady, ⟨?_, h.active.2⟩, h.cur⟩, rfl, ?_⟩⟩
      · show (f.sys.moves .running f.sys.cur).isRunning = true
        rw [Coherent.moves_self]
        rfl
      · exact (congrArg List.length pending).trans List.length_cons

theorem AtWork.drains {n : ℕ} (h : AtWork f) (pc : f.comms = .getc)
    (hn : f.sys.obj.receiver.ring.pending.length = n) :
    ∃ f', Machine.run Input.step f (List.replicate (2 * n + 1) .run) = some f' ∧
      Steady f' ∧ CommsBlocked f' ∧ f'.sys.obj.stream = f.sys.obj.stream ∧
      GuiAside f f' := by
  induction n generalizing f with
  | zero =>
    obtain ⟨f', hf', hsteady, hstream, hgui, ⟨hblocked, -⟩ | ⟨-, -, hlength⟩⟩ :=
      h.fetches pc
    · exact ⟨f', by rw [List.replicate_one, run_cons, hf', Option.bind_some, run_nil],
        hsteady, hblocked, hstream, hgui⟩
    · omega
  | succ n ih =>
    obtain ⟨f₁, hf₁, -, hstream₁, hgui₁, ⟨-, hnil⟩ | ⟨h₁, hpc₁, hlength⟩⟩ :=
      h.fetches pc
    · rw [hnil] at hn
      cases hn
    · obtain ⟨f₂, hf₂, h₂, hpc₂, hring₂, hstream₂, hgui₂⟩ := h₁.decodes hpc₁
      obtain ⟨f', hf', hsteady, hblocked, hstream, hgui⟩ :=
        ih h₂ hpc₂ (by rw [hring₂]; omega)
      refine ⟨f', ?_, hsteady, hblocked, hstream.trans (hstream₂.trans hstream₁),
        (hgui₁.trans hgui₂).trans hgui⟩
      rw [show 2 * (n + 1) + 1 = 2 * n + 1 + 1 + 1 by omega, List.replicate_succ,
        List.replicate_succ, run_cons, hf₁, Option.bind_some, run_cons, hf₂,
        Option.bind_some, hf']

/-- Interrupts leave the comms process at work. -/
theorem AtWork.interrupted {is : List Input} (h : AtWork f)
    (his : ∀ i ∈ is, ∃ c, i = .usart1Isr c) :
    ∃ f', Machine.run Input.step f is = some f' ∧ AtWork f' ∧ f'.comms = f.comms ∧
      GuiAside f f' := by
  induction is generalizing f with
  | nil => exact ⟨f, rfl, h, rfl, GuiAside.refl f⟩
  | cons i is ih =>
    obtain ⟨c, rfl⟩ := his i List.mem_cons_self
    obtain ⟨k, o, heq, hwakes, htimeout, -⟩ :=
      (lawful rnd).isr f.sys c h.steady.coherent h.steady.sound
    have hstep : Event.step f.sys (.isr c) = some
        { f.sys with kernel := k, obj := o, log := f.sys.log ++ [.isr c] } := by
      rw [Event.step, heq, Option.map_some]
    have hcur : k.curProcPriority = f.sys.cur := hwakes.cur
    have houtside : Event.FromOutside (.isr c : Event (service rnd)) := trivial
    have hsteady := h.steady.of_does (Does.outside (i := .usart1Isr c) houtside rfl hstep)
    have hactive : System.Active
        { f.sys with kernel := k, obj := o, log := f.sys.log ++ [.isr c] } := by
      unfold System.Active System.cur
      rw [hcur]
      exact h.active
    obtain ⟨f', hf', h', hpc, hgui⟩ := ih ⟨hsteady, hactive, hcur.trans h.cur⟩
      fun i hi => his i (List.mem_cons_of_mem _ hi)
    have hside : GuiAside f { f with
        sys := { f.sys with kernel := k, obj := o, log := f.sys.log ++ [.isr c] } } :=
      ⟨rfl, rfl, congrFun htimeout pr0⟩
    refine ⟨f', ?_, h', hpc, hside.trans hgui⟩
    rw [run_cons, show Input.step f (.usart1Isr c) = _ from congrArg (Option.map _) hstep]
    exact hf'

/-- The GUI process starts, refreshes the display and sleeps, and the comms process
gets the processor. -/
def boot : List Input := [.run, .run, .run, .contextSwitch]

end Drains

/-! ## The GUI process comes back -/

section GuiReturns

variable {rnd : ℚ → ℚ} {f : Firmware rnd} {n : ℕ}

/-- The GUI process sleeps in its loop for `n` more ticks, and the comms process is
blocked. -/
structure GuiAsleep (n : ℕ) (f : Firmware rnd) : Prop where
  steady : Steady f
  gui : f.gui = .tick
  place : f.sys.place pr0 = .sleeping
  timeout : (f.sys.kernel.timeout pr0).toNat = n
  comms : CommsBlocked f

/-- A tick before the last one. -/
theorem GuiAsleep.sysTick (h : GuiAsleep (n + 1) f) :
    ∃ f', Input.step f .sysTick = some f' ∧ GuiAsleep n f' ∧
      (n = 0 → f'.sys.kernel.Ready pr0) := by
  obtain ⟨htimeout, hready, hcur, -⟩ := TKernel.systemTimer_spec f.sys.kernel
  obtain ⟨hzero, hstill⟩ := TKernel.systemTimer_of_zero h.comms.timeout
  have hstep : Event.step f.sys .sysTick = some
      { f.sys with kernel := f.sys.kernel.systemTimer, log := f.sys.log ++ [.tick] } :=
    rfl
  have houtside : Event.FromOutside (.sysTick : Event (service rnd)) := trivial
  have hdoes := Does.outside (i := .sysTick) houtside rfl hstep
  have hleft := htimeout pr0
  rw [if_pos (by decide), h.timeout, Nat.add_sub_cancel] at hleft
  refine ⟨_, rfl, ⟨h.steady.of_does hdoes, h.gui, h.place, hleft,
    ⟨fun hr => h.comms.ready (hstill.mp hr), hzero, hcur.trans h.comms.cur⟩⟩, ?_⟩
  rintro rfl
  exact (hready pr0).mpr (Or.inr ⟨by decide, h.timeout⟩)

/-- The last tick makes the GUI process ready. -/
theorem GuiAsleep.ticks (h : GuiAsleep (n + 1) f) :
    ∃ f', Machine.run Input.step f (List.replicate (n + 1) .sysTick) = some f' ∧
      GuiAsleep 0 f' ∧ f'.sys.kernel.Ready pr0 := by
  induction n generalizing f with
  | zero =>
    obtain ⟨f', hf', h', hready⟩ := h.sysTick
    refine ⟨f', ?_, h', hready rfl⟩
    rw [List.replicate_one, run_cons, hf', Option.bind_some, run_nil]
  | succ n ih =>
    obtain ⟨f₁, hf₁, h₁, -⟩ := h.sysTick
    obtain ⟨f', hf', h'⟩ := ih h₁
    exact ⟨f', by rw [List.replicate_succ, run_cons, hf₁, Option.bind_some, hf'], h'⟩

/-- The GUI process has the highest priority. -/
theorem Steady.highest (h : Steady f) (hready : f.sys.kernel.Ready pr0) :
    highestPriority f.sys.kernel.readyProcessMap = pr0 := by
  refine (highestPriority_eq_iff (ne_zero_iff_tagged.mpr ⟨pr0, hready⟩)).mpr
    ⟨hready, fun p hp => ?_⟩
  exact Nat.le_of_lt_succ (h.coherent.ready_lt p hp)

/-- The end of an interrupt, the context switch and the return from `sched`. -/
def switch : List Input := [.isrExit, .contextSwitch, .resume]

/-- A GUI process that has been made ready is switched in, and goes on behind its
`sleep`. -/
theorem GuiAsleep.switches (h : GuiAsleep n f) (hready : f.sys.kernel.Ready pr0) :
    Machine.run Input.step f switch = some
      { f with
        sys := { f.sys with
          kernel := { f.sys.kernel with
            curProcPriority := pr0
            schedProcPriority := pr0
            contextSwitchRaised := false }
          place := Function.update f.sys.place pr0 .running } } := by
  have hne : pr0 ≠ f.sys.kernel.curProcPriority := by
    rw [show f.sys.kernel.curProcPriority = pr1 from h.comms.cur]
    decide
  have hsched : f.sys.kernel.schedIsr =
      { f.sys.kernel with schedProcPriority := pr0, contextSwitchRaised := true } := by
    unfold TKernel.schedIsr TKernel.requestSwitch
    simp only [h.steady.highest hready, ne_eq, hne, not_false_eq_true, if_true]
  simp [switch, Input.step, Firmware.does, Event.step, hsched,
    TKernel.contextSwitchHook, System.cur, System.moves, h.place]

/-- When the comms process is blocked and the GUI process is asleep for `n` ticks,
then with the next `n` ticks and the end of the interrupt it is back in its
loop. -/
theorem GuiAsleep.returns (h : GuiAsleep (n + 1) f) :
    ∃ f', Machine.run Input.step f (List.replicate (n + 1) .sysTick ++ switch) = some f' ∧
      f'.sys.Active ∧ f'.sys.cur = pr0 ∧ f'.gui = .tick ∧
      ¬ f'.sys.kernel.Ready pr1 := by
  obtain ⟨f₁, hf₁, h₁, hready⟩ := h.ticks
  refine ⟨_, (run_append_of_eq_some _ hf₁).trans (h₁.switches hready), ⟨?_, ?_⟩, rfl,
    h₁.gui, h₁.comms.ready⟩
  · show (Function.update f₁.sys.place pr0 .running pr0).isRunning = true
    rw [Function.update_self]
    rfl
  · show pr0 ≠ prIDLE
    decide

end GuiReturns

/-! ## Recovery -/

section Recovery

variable {rnd : ℚ → ℚ}

/-- A byte that comes finds room in the receive buffer. -/
def Roomy (f : Firmware rnd) (i : Input) : Prop :=
  i.byte? ≠ none → f.sys.obj.HasRoom

/-- With room for every byte, the stream takes up what is received. -/
theorem stream_run {f : Firmware rnd} {is : List Input} (hf : Steady f)
    (hroom : Guarded Input.step Roomy f is) :
    ∃ f', Machine.run Input.step f is = some f' ∧
      f'.sys.obj.stream = f.sys.obj.stream ++ received is := by
  induction is generalizing f with
  | nil => exact ⟨f, rfl, (List.append_nil _).symm⟩
  | cons i is ih =>
    obtain ⟨f₁, hf₁, hdoes⟩ := hf.step i
    obtain ⟨f', hf', hstream⟩ := ih (hf.of_does hdoes) (hroom.2 f₁ hf₁)
    refine ⟨f', by rw [run_cons, hf₁, Option.bind_some, hf'], ?_⟩
    have htaken : f₁.sys.obj.stream = f.sys.obj.stream ++ i.byte?.toList := by
      rw [hdoes.stream hf]
      cases hbyte : i.byte? with
      | none => rw [Option.toList_none, ite_self]
      | some c => rw [if_pos (hroom.1 (by simp [hbyte]))]
    rw [hstream, htaken, received_cons, List.append_assoc]

/-- What `com_getc` has returned only grows. -/
theorem Does.returned_le {f f' : Firmware rnd} {i : Input} (h : Does f i f')
    (hf : Steady f) :
    f.sys.obj.receiver.returned.length ≤ f'.sys.obj.receiver.returned.length := by
  have hgot : ∀ {k g a}, Got k g a →
      g.receiver.returned.length ≤ a.2.2.receiver.returned.length := by
    intro k g a h
    cases h with
    | blocked hempty hsusp => exact Nat.le_refl _
    | taken hfetch =>
      cases hfetch with
      | byte c valid pending => simp
  cases h with
  | rests byte | starts pc => exact Nat.le_refl _
  | outside he byte step =>
    obtain ⟨flag, ring, n, hobj⟩ := outside_obj hf.sound he step
    exact Nat.le_of_eq (congrArg (fun g => g.receiver.returned.length) hobj.symm)
  | resumes step =>
    rcases resume_obj hf.coherent hf.sound step with hobj | ⟨k, w, a, hobj, h⟩
    · exact Nat.le_of_eq (congrArg (fun g => g.receiver.returned.length) hobj.symm)
    · have hle := hgot h
      rw [← hobj] at hle
      exact hle
  | delays hd step | pauses hs hcur pc step | naps hs hcur pc step =>
    exact Nat.le_of_eq
      (congrArg (fun g => g.receiver.returned.length) (sleep_obj step).symm)
  | refreshes hs hcur pc step | toggles hs hcur pc step =>
    rw [step_call hs rfl step]
    exact Nat.le_refl _
  | decodes hs hcur pc step =>
    obtain ⟨r, rfl, -, hreturned, -⟩ := step_decode hs hf.sound step
    exact Nat.le_of_eq (congrArg List.length hreturned.symm)
  | fetches hs hcur pc step =>
    obtain ⟨a, h, rfl⟩ := step_comGetc hf.coherent hs hf.sound step
    rw [settle_obj]
    exact hgot h

/-- A burst that fits the free part of the buffer finds room, whatever the
processes do in the meantime. -/
theorem roomy_of_length {f : Firmware rnd} {is : List Input} (hf : Steady f)
    (hfits : f.sys.obj.receiver.ring.pending.length + (received is).length ≤ 1023) :
    Guarded Input.step Roomy f is := by
  induction is generalizing f with
  | nil => exact trivial
  | cons i is ih =>
    rw [received_cons, List.length_append] at hfits
    have hroom : Roomy f i := by
      intro hne
      obtain ⟨c, hc⟩ := Option.ne_none_iff_exists'.mp hne
      rw [hc, Option.toList_some, List.length_singleton] at hfits
      show _ < 1023
      omega
    refine ⟨hroom, fun f' hstep => ?_⟩
    have hdoes := of_eq_some (hf.step i) hstep
    refine ih (hf.of_does hdoes) ?_
    -- the process takes bytes out, and the interrupt puts this one in
    have hstream := hdoes.length_stream hf
    have hreturned := hdoes.returned_le hf
    rw [if_neg fun hdrops : Drops f i => hdrops.2 (hroom hdrops.1)] at hstream
    unfold Globals.stream at hstream
    simp only [List.length_append] at hstream
    omega

/-- A burst of bytes that fits the free part of the receive buffer is kept,
whatever the processes do in the meantime. -/
theorem burst_kept {pre post : List Input} {f₀ : Firmware rnd}
    (hpre : exec rnd pre = some f₀)
    (hfits : f₀.sys.obj.receiver.ring.pending.length + (received post).length ≤ 1023) :
    ∃ f, exec rnd (pre ++ post) = some f ∧
      f.sys.obj.stream = f₀.sys.obj.stream ++ received post := by
  have hsteady := of_eq_some (exec_steady rnd pre) hpre
  obtain ⟨f, hf, hstream⟩ := stream_run hsteady (roomy_of_length hsteady hfits)
  exact ⟨f, (run_append_of_eq_some post hpre).trans hf, hstream⟩

theorem atWork_boot : ∃ f, exec float32 boot = some f ∧ AtWork f ∧ f.comms = .getc ∧
    f.sys.obj.receiver.ring.pending = [] ∧ f.gui = .tick ∧
    f.sys.place pr0 = .sleeping ∧ f.sys.kernel.timeout pr0 = 10 := by
  have hstate : (exec float32 boot).map (fun f =>
      (decide f.sys.Active, f.sys.cur, f.comms, f.sys.obj.receiver.ring.pending))
      = some (true, pr1, .getc, []) := by
    decide +kernel
  have hsleeps : (exec float32 boot).map (fun f =>
      (f.gui, (f.sys.place pr0).isRunning, f.sys.kernel.timeout pr0))
      = some (.tick, false, 10) := by
    decide +kernel
  obtain ⟨f, hf, h⟩ := exec_steady float32 boot
  simp only [hf, Option.map_some, Option.some.injEq, Prod.mk.injEq,
    decide_eq_true_iff] at hstate hsleeps
  obtain ⟨hs, hcur, hpc, hnil⟩ := hstate
  obtain ⟨hgui, hnot, htimeout⟩ := hsleeps
  refine ⟨f, hf, ⟨h, hs, hcur⟩, hpc, hnil, hgui, ?_, htimeout⟩
  have hne : f.sys.place pr0 ≠ .running := by
    intro hplace
    rw [hplace] at hnot
    cases hnot
  cases h.gui with
  | init pc place | tick pc place => exact place.resolve_left hne
  | sleep pc place => exact absurd place hne

/-- The bytes of two packets of zeros, one interrupt after the other. -/
def burst : List Input :=
  ([Ebl.zeroPacket, Ebl.zeroPacket].flatMap Frame.bytes).map fun c => .usart1Isr (some c)

theorem received_burst :
    received burst = [Ebl.zeroPacket, Ebl.zeroPacket].flatMap Frame.bytes := by
  unfold received burst
  rw [List.filterMap_map]
  exact List.filterMap_some

theorem length_received_burst : (received burst).length = 554 := by
  rw [received_burst, List.flatMap_cons, List.flatMap_singleton, List.length_append,
    Ebl.Packet.length_bytes]

theorem burst_isr : ∀ i ∈ burst, ∃ c, i = .usart1Isr c := by
  intro i hi
  obtain ⟨c, -, rfl⟩ := List.mem_map.mp hi
  exact ⟨some c, rfl⟩

theorem burst_kept_zero : ∃ f₀ f, exec float32 boot = some f₀ ∧
    exec float32 (boot ++ burst) = some f ∧
    f.sys.obj.stream = f₀.sys.obj.stream ++ received burst := by
  obtain ⟨f₀, hf₀, -, -, hnil, -⟩ := atWork_boot
  obtain ⟨f, hf⟩ := burst_kept hf₀ (by rw [hnil, length_received_burst]; decide)
  exact ⟨f₀, f, hf₀, hf⟩

/-- Whatever has happened before, with two or more well-formed packets the display
recovers, as long as the receive buffer has room for them.  When the comms
process is blocked behind them, the arrays hold the last packet, and the next
refresh shows it. -/
theorem display_recovers {pre post : List Input} {f₀ : Firmware rnd}
    {p q : Ebl.Packet} {qs : List Ebl.Packet} (hpre : exec rnd pre = some f₀)
    (hroom : Guarded Input.step Roomy f₀ post)
    (hrow : received post = (p :: (qs ++ [q])).flatMap Frame.bytes)
    (hp : p.Clean) (hq : q.Exact) :
    ∃ f, exec rnd (pre ++ post) = some f ∧
      (¬ f.sys.kernel.Ready pr1 → Ebl.Holds f.sys.obj.receiver.decoder q ∧
        (f.sys.Active → f.sys.cur = pr0 → f.gui = .tick →
          ∃ f', exec rnd (pre ++ post ++ [.run]) = some f' ∧
            f'.sys.obj.texts = Ui.display rnd q)) := by
  obtain ⟨f, hrun, hstream⟩ := stream_run (of_eq_some (exec_steady rnd pre) hpre) hroom
  have hf : exec rnd (pre ++ post) = some f :=
    (run_append_of_eq_some post hpre).trans hrun
  have h := of_eq_some (exec_steady rnd (pre ++ post)) hf
  refine ⟨f, hf, fun hblocked => ?_⟩
  obtain ⟨ops, hops, hshown⟩ := h.shown
  rw [h.drained hblocked, List.append_nil, hstream, hrow] at hshown
  have haccepted : Ebl.Accepted (Ui.calls ops) q :=
    Ui.accepted_of_row hshown.symm hp hq
  have hcurrent := of_eq_some (Ui.exec_current rnd ops) hops
  refine ⟨haccepted.holds hcurrent.decoder, fun hs hcur hpc => ?_⟩
  obtain ⟨f', hf', hdoes⟩ := h.guiExec hs hcur
  refine ⟨f', ?_, ?_⟩
  · refine (run_concat_of_eq_some _ hf).trans ?_
    show f.run = some f'
    rw [Firmware.run, if_pos hs, if_pos hcur, hf']
  · rw [Firmware.guiExec, hpc] at hf'
    obtain ⟨s, hstep, rfl⟩ := Option.map_eq_some_iff.mp hf'
    have hs' : s.obj = f.sys.obj.tick rnd := by rw [step_call hs rfl hstep]
    show s.obj.texts = _
    rw [hs']
    exact hcurrent.tick_texts haccepted

/-- Two packets of zeros come in one burst, and the comms process takes them.  Ten
ticks later the GUI process is back. -/
def recovery (n : ℕ) : List Input :=
  burst ++ (List.replicate n .run ++ (List.replicate 10 .sysTick ++ switch))

theorem received_recovery (n : ℕ) : received (recovery n) = received burst := by
  have hquiet : received (List.replicate n .run ++
      (List.replicate 10 .sysTick ++ switch)) = [] := by
    unfold received
    rw [List.filterMap_append, List.filterMap_replicate_of_none rfl]
    rfl
  unfold recovery
  unfold received at hquiet ⊢
  rw [List.filterMap_append, hquiet, List.append_nil]

theorem exec_recovery : ∃ n f, exec float32 (boot ++ recovery n) = some f ∧
    f.sys.Active ∧ f.sys.cur = pr0 ∧ f.gui = .tick ∧ ¬ f.sys.kernel.Ready pr1 := by
  obtain ⟨f₀, hf₀, h₀, hpc, -, hgui₀⟩ := atWork_boot
  obtain ⟨f₁, hf₁, h₁, hpc₁, hgui₁⟩ := h₀.interrupted burst_isr
  obtain ⟨m, hm⟩ : ∃ m, f₁.sys.obj.receiver.ring.pending.length = m := ⟨_, rfl⟩
  obtain ⟨f₂, hf₂, h₂, hblocked, -, hgui₂⟩ := h₁.drains (hpc₁.trans hpc) hm
  obtain ⟨hgui, hplace, htimeout⟩ := hgui₁.trans hgui₂
  have hasleep : GuiAsleep 10 f₂ :=
    ⟨h₂, hgui.trans hgui₀.1, hplace.trans hgui₀.2.1,
      by rw [htimeout, hgui₀.2.2]; rfl, hblocked⟩
  obtain ⟨f, hf, hback⟩ := hasleep.returns
  refine ⟨2 * m + 1, f, ?_, hback⟩
  refine (run_append_of_eq_some _ hf₀).trans ?_
  refine (run_append_of_eq_some _ hf₁).trans ?_
  exact (run_append_of_eq_some _ hf₂).trans hf

theorem display_recovers_zero :
    ∃ n f f', exec float32 (boot ++ recovery n) = some f ∧
      ¬ f.sys.kernel.Ready pr1 ∧
      Ebl.Holds f.sys.obj.receiver.decoder Ebl.zeroPacket ∧
      exec float32 (boot ++ recovery n ++ [.run]) = some f' ∧
      f'.sys.obj.texts = Ui.display float32 Ebl.zeroPacket := by
  obtain ⟨f₀, hf₀, h₀, -, hnil, -⟩ := atWork_boot
  obtain ⟨n, f, hf, hs, hcur, hpc, hblocked⟩ := exec_recovery
  have hroom : Guarded Input.step Roomy f₀ (recovery n) :=
    roomy_of_length h₀.steady (by
      rw [received_recovery, hnil, length_received_burst]
      decide)
  have hrow : received (recovery n)
      = (Ebl.zeroPacket :: ([] ++ [Ebl.zeroPacket])).flatMap Frame.bytes :=
    (received_recovery n).trans received_burst
  have hshows := of_eq_some (display_recovers hf₀ hroom hrow
    Ebl.wellFormed_zeroPacket.clean Ebl.wellFormed_zeroPacket.exact) hf
  obtain ⟨hholds, hrefresh⟩ := hshows hblocked
  obtain ⟨f', hf', htexts⟩ := hrefresh hs hcur hpc
  exact ⟨n, f, f', hf, hblocked, hholds, hf', htexts⟩

end Recovery

end EBLmon.Main
