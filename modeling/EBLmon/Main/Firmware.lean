import EBLmon.Main.Globals
import EBLmon.Os.Priority
import EBLmon.Ui.Display

/-!
# The firmware

`src/main.cpp`: the three processes and their loops, over the kernel and the
globals of `EBLmon.Main.Globals`.

An `Input` is an interrupt, the context switch, the return from `sched`, or the
next statement of the current process.  The interrupts and the timer come at any
moment.  `UI::init` sleeps as often and as long as the graphics library asks for
(`delay`).

`Does` says once what an input can do.  `Steady` is the invariant of every run:
the kernel is coherent, the globals are sound, and each process is at a place
that its loop allows.  The comms process holds a byte exactly between `com_getc`
and `decode`, and when it is blocked the receive buffer is empty (`CommsAt`).
So no byte that `com_getc` returns is left out of `decode` (`Fed`).
-/

namespace EBLmon.Main

open Machine Os

/-- Where `TGUIProc::exec` is. -/
inductive GuiPc where
  | init
  | tick
  | sleep
  deriving DecidableEq, Repr

/-- Where `TCommsProc::exec` is. -/
inductive CommsPc where
  | getc
  | decode
  deriving DecidableEq, Repr

/-- Where `TLEDProc::exec` is. -/
inductive LedPc where
  | sleep
  | toggle
  deriving DecidableEq, Repr

/-- The kernel with the globals, and the three processes. -/
structure Firmware (rnd : ℚ → ℚ) where
  sys : System (service rnd)
  gui : GuiPc
  comms : CommsPc
  led : LedPc

/-- What happens next. -/
inductive Input where
  | usart1Isr (c : Option UInt8)
  | isrExit
  | sysTick
  | contextSwitch
  | resume
  | delay (val : UInt16)
  | run
  deriving DecidableEq, Repr

namespace Firmware

variable {rnd : ℚ → ℚ}

/-- `main`, up to `OS::run`. -/
def init : Firmware rnd where
  sys := System.init Globals.reset
  gui := .init
  comms := .getc
  led := .sleep

/-- A step of the kernel or of a call. -/
def does (f : Firmware rnd) (e : Event (service rnd)) : Option (Firmware rnd) :=
  (e.step f.sys).map fun sys => { f with sys }

/-- `void TGUIProc::exec()` -/
def guiExec (f : Firmware rnd) : Option (Firmware rnd) :=
  match f.gui with
  | .init => some { f with gui := .tick }
  | .tick => { f with gui := .sleep }.does (.call .tick)
  | .sleep => { f with gui := .tick }.does (.sleep 10)

/-- `void TCommsProc::exec()` -/
def commsExec (f : Firmware rnd) : Option (Firmware rnd) :=
  match f.comms with
  | .getc => { f with comms := .decode }.does (.call .comGetc)
  | .decode => { f with comms := .getc }.does (.call .decode)

/-- `void TLEDProc::exec()`, without the `debug` calls. -/
def ledExec (f : Firmware rnd) : Option (Firmware rnd) :=
  match f.led with
  | .sleep => { f with led := .toggle }.does (.sleep 500)
  | .toggle => { f with led := .sleep }.does (.call .ledToggle)

/-- The next statement of the current process. -/
def run (f : Firmware rnd) : Option (Firmware rnd) :=
  if f.sys.Active then
    if f.sys.cur = pr0 then f.guiExec
    else if f.sys.cur = pr1 then f.commsExec
    else f.ledExec
  else some f

/-- `UI::init` is in `u8g_Delay`. -/
def Delays (f : Firmware rnd) : Prop :=
  f.sys.Active ∧ f.sys.cur = pr0 ∧ f.gui = .init

instance (f : Firmware rnd) : Decidable f.Delays :=
  inferInstanceAs (Decidable (_ ∧ _))

end Firmware

section Exec

variable {rnd : ℚ → ℚ}

/-- The state after one input.  An input that is not enabled changes nothing. -/
def Input.step (f : Firmware rnd) : Input → Option (Firmware rnd)
  | usart1Isr c => f.does (.isr c)
  | isrExit => f.does .isrExit
  | sysTick => f.does .sysTick
  | contextSwitch => f.does .contextSwitch
  | resume => f.does .resume
  | delay val => if f.Delays then f.does (.sleep val) else some f
  | run => f.run

end Exec

/-- The firmware after a sequence of inputs. -/
def exec (rnd : ℚ → ℚ) (is : List Input) : Option (Firmware rnd) :=
  Machine.run Input.step Firmware.init is

/-! ## What an input does -/

/-- The byte that comes with an input. -/
def Input.byte? : Input → Option UInt8
  | usart1Isr c => c
  | isrExit | sysTick | contextSwitch | resume | delay _ | run => none

/-- The byte that comes with an event of the kernel. -/
def eventByte? {rnd : ℚ → ℚ} : Event (service rnd) → Option UInt8
  | .isr c => c
  | .call _ | .isrExit | .sysTick | .contextSwitch | .sleep _ | .wakeUp _
  | .forceWakeUp _ | .resume => none

/-- What an input can do. -/
inductive Does {rnd : ℚ → ℚ} (f : Firmware rnd) : Input → Firmware rnd → Prop where
  | rests {i : Input} (byte : i.byte? = none) : Does f i f
  | outside {i : Input} {e : Event (service rnd)} {s : System (service rnd)}
      (he : e.FromOutside) (byte : eventByte? e = i.byte?)
      (step : e.step f.sys = some s) : Does f i { f with sys := s }
  | resumes {s : System (service rnd)} (step : Event.step f.sys .resume = some s) :
      Does f .resume { f with sys := s }
  | delays {val : UInt16} {s : System (service rnd)} (delays : f.Delays)
      (step : Event.step f.sys (.sleep val) = some s) :
      Does f (.delay val) { f with sys := s }
  | starts (pc : f.gui = .init) : Does f .run { f with gui := .tick }
  | refreshes {s : System (service rnd)} (active : f.sys.Active)
      (cur : f.sys.cur = pr0) (pc : f.gui = .tick)
      (step : Event.step f.sys (.call .tick) = some s) :
      Does f .run { f with sys := s, gui := .sleep }
  | pauses {s : System (service rnd)} (active : f.sys.Active)
      (cur : f.sys.cur = pr0) (pc : f.gui = .sleep)
      (step : Event.step f.sys (.sleep 10) = some s) :
      Does f .run { f with sys := s, gui := .tick }
  | fetches {s : System (service rnd)} (active : f.sys.Active)
      (cur : f.sys.cur = pr1) (pc : f.comms = .getc)
      (step : Event.step f.sys (.call .comGetc) = some s) :
      Does f .run { f with sys := s, comms := .decode }
  | decodes {s : System (service rnd)} (active : f.sys.Active)
      (cur : f.sys.cur = pr1) (pc : f.comms = .decode)
      (step : Event.step f.sys (.call .decode) = some s) :
      Does f .run { f with sys := s, comms := .getc }
  | naps {s : System (service rnd)} (active : f.sys.Active)
      (cur : f.sys.cur = pr2) (pc : f.led = .sleep)
      (step : Event.step f.sys (.sleep 500) = some s) :
      Does f .run { f with sys := s, led := .toggle }
  | toggles {s : System (service rnd)} (active : f.sys.Active)
      (cur : f.sys.cur = pr2) (pc : f.led = .toggle)
      (step : Event.step f.sys (.call .ledToggle) = some s) :
      Does f .run { f with sys := s, led := .sleep }

/-! ## The invariant -/

/-- The comms process in its loop. -/
inductive CommsAt {rnd : ℚ → ℚ} (f : Firmware rnd) : Prop where
  | getc (pc : f.comms = .getc) (place : f.sys.place pr1 = .running)
      (held : f.sys.obj.receiver.held = none)
  | decode (pc : f.comms = .decode) (place : f.sys.place pr1 = .running)
      (held : f.sys.obj.receiver.held ≠ none)
  | waits (pc : f.comms = .decode) (place : f.sys.place pr1 = .waiting ())
      (held : f.sys.obj.receiver.held = none)
      (empty : ¬ f.sys.kernel.Ready pr1 → f.sys.obj.receiver.ring.Empty)

/-- The GUI process in its loop. -/
inductive GuiAt {rnd : ℚ → ℚ} (f : Firmware rnd) : Prop where
  | init (pc : f.gui = .init)
      (place : f.sys.place pr0 = .running ∨ f.sys.place pr0 = .sleeping)
  | tick (pc : f.gui = .tick)
      (place : f.sys.place pr0 = .running ∨ f.sys.place pr0 = .sleeping)
  | sleep (pc : f.gui = .sleep) (place : f.sys.place pr0 = .running)

/-- The heartbeat process in its loop. -/
inductive LedAt {rnd : ℚ → ℚ} (f : Firmware rnd) : Prop where
  | sleep (pc : f.led = .sleep) (place : f.sys.place pr2 = .running)
  | toggle (pc : f.led = .toggle)
      (place : f.sys.place pr2 = .running ∨ f.sys.place pr2 = .sleeping)

/-- The invariant of every run. -/
structure Steady {rnd : ℚ → ℚ} (f : Firmware rnd) : Prop where
  coherent : Coherent f.sys
  sound : Sound rnd f.sys.obj
  fed : Fed rnd f.sys.obj
  flow : Flow f.sys
  comms : CommsAt f
  gui : GuiAt f
  led : LedAt f

theorem Steady.init {rnd : ℚ → ℚ} : Steady (Firmware.init : Firmware rnd) where
  coherent := Coherent.init fun _ _ => not_tagged_zero
  sound := Sound.reset
  fed := Fed.reset
  flow := Flow.init
  comms := CommsAt.getc rfl rfl rfl
  gui := GuiAt.init rfl (Or.inl rfl)
  led := LedAt.sleep rfl rfl

section Frame

variable {rnd : ℚ → ℚ} {f f' : Firmware rnd}

theorem GuiAt.frame (h : GuiAt f) (pc : f'.gui = f.gui)
    (place : f'.sys.place pr0 = f.sys.place pr0 ∨ f'.sys.place pr0 = .running) :
    GuiAt f' := by
  cases h with
  | init pc' place' =>
    refine GuiAt.init (pc.trans pc') ?_
    rcases place with h | h
    · rwa [h]
    · exact Or.inl h
  | tick pc' place' =>
    refine GuiAt.tick (pc.trans pc') ?_
    rcases place with h | h
    · rwa [h]
    · exact Or.inl h
  | sleep pc' place' =>
    refine GuiAt.sleep (pc.trans pc') ?_
    rcases place with h | h
    · exact h.trans place'
    · exact h

theorem LedAt.frame (h : LedAt f) (pc : f'.led = f.led)
    (place : f'.sys.place pr2 = f.sys.place pr2 ∨ f'.sys.place pr2 = .running) :
    LedAt f' := by
  cases h with
  | sleep pc' place' =>
    refine LedAt.sleep (pc.trans pc') ?_
    rcases place with h | h
    · exact h.trans place'
    · exact h
  | toggle pc' place' =>
    refine LedAt.toggle (pc.trans pc') ?_
    rcases place with h | h
    · rwa [h]
    · exact Or.inl h

/-- A step that leaves the comms process where it is. -/
structure Aside (s s' : System (service rnd)) : Prop where
  place : s'.place pr1 = s.place pr1
  held : s'.obj.receiver.held = s.obj.receiver.held
  empty : s.place pr1 = .waiting () →
    (¬ s.kernel.Ready pr1 → s.obj.receiver.ring.Empty) →
    ¬ s'.kernel.Ready pr1 → s'.obj.receiver.ring.Empty

theorem Aside.of_ready {s s' : System (service rnd)}
    (place : s'.place pr1 = s.place pr1)
    (held : s'.obj.receiver.held = s.obj.receiver.held)
    (ring : s'.obj.receiver.ring = s.obj.receiver.ring)
    (ready : s.kernel.Ready pr1 → s'.kernel.Ready pr1) : Aside s s' :=
  ⟨place, held, fun _ h hnot => ring ▸ h (mt ready hnot)⟩

theorem CommsAt.frame (h : CommsAt f) (pc : f'.comms = f.comms)
    (aside : Aside f.sys f'.sys) : CommsAt f' := by
  cases h with
  | getc pc' place held =>
    exact CommsAt.getc (pc.trans pc') (aside.place.trans place)
      (aside.held.trans held)
  | decode pc' place held =>
    exact CommsAt.decode (pc.trans pc') (aside.place.trans place)
      (aside.held ▸ held)
  | waits pc' place held empty =>
    exact CommsAt.waits (pc.trans pc') (aside.place.trans place)
      (aside.held.trans held) (aside.empty place empty)

end Frame

/-! ## Steps -/

section Steps

variable {rnd : ℚ → ℚ} {s s' : System (service rnd)} {e : Event (service rnd)}

/-- The processes do not wake each other up. -/
def Unforced (e : Event (service rnd)) : Prop :=
  ∀ p, e ≠ .wakeUp p ∧ e ≠ .forceWakeUp p

theorem unforced_call (c : Call) : Unforced (.call c : Event (service rnd)) :=
  fun p => ⟨by simp, by simp⟩

theorem unforced_sleep (t : UInt16) : Unforced (.sleep t : Event (service rnd)) :=
  fun p => ⟨by simp, by simp⟩

theorem unforced_resume : Unforced (.resume : Event (service rnd)) :=
  fun p => ⟨by simp, by simp⟩

theorem unforced_outside (he : e.FromOutside) : Unforced e := by
  cases e with
  | isr | isrExit | sysTick | contextSwitch => exact fun p => ⟨by simp, by simp⟩
  | call | sleep | wakeUp | forceWakeUp | resume => exact absurd he id

theorem Unforced.admits (he : Unforced e) : e.Admits s := by
  cases e with
  | forceWakeUp p => exact absurd rfl (he p).2
  | call | isr | isrExit | sysTick | contextSwitch | sleep | wakeUp | resume =>
    exact trivial

/-- An interrupt fills the buffer, signals the flag and counts, and does nothing
else to the globals. -/
theorem outside_obj (hsound : Sound rnd s.obj) (he : e.FromOutside)
    (hstep : e.step s = some s') : ∃ f ring n, s'.obj =
      ⟨f, { s.obj.receiver with ring }, n, s.obj.texts, s.obj.led⟩ := by
  cases Event.fires hstep with
  | refused | isrExit | sysTick | contextSwitch => exact ⟨_, _, _, rfl⟩
  | isr c serves =>
    cases c with
    | none =>
      obtain ⟨rfl, rfl⟩ := Prod.mk.inj (Option.some.inj serves)
      exact ⟨_, _, _, rfl⟩
    | some c =>
      obtain ⟨k, ring, f, heq, -⟩ := usart1Isr_byte s.kernel hsound.valid c
      obtain ⟨rfl, rfl⟩ := Prod.mk.inj (Option.some.inj (heq.symm.trans serves))
      exact ⟨f, ring, _, rfl⟩
  | call | sleep | wakesNone | wakeUp | forceWakeUp | comesBack | again =>
    exact absurd he id

theorem fed_outside (hfed : Fed rnd s.obj) (hsound : Sound rnd s.obj)
    (he : e.FromOutside) (hstep : e.step s = some s') : Fed rnd s'.obj := by
  obtain ⟨flag, ring, n, hobj⟩ := outside_obj hsound he hstep
  rw [hobj]
  exact hfed

theorem sleep_obj {t : UInt16} (hstep : Event.step s (.sleep t) = some s') :
    s'.obj = s.obj := by
  cases Event.fires hstep with
  | refused | sleep => rfl

/-- Behind the loop of `sched` the comms process goes on in `com_getc`. -/
theorem resume_obj (hco : Coherent s) (hsound : Sound rnd s.obj)
    (hstep : Event.step s .resume = some s') :
    s'.obj = s.obj ∨ ∃ k w a, s'.obj = a.2.2 ∧
      Got k { s.obj with rxDataAvail := { s.obj.rxDataAvail with processMap := w } }
        a := by
  cases Event.fires hstep with
  | refused | comesBack => exact Or.inl rfl
  | again picked waits again =>
    obtain ⟨a, k, m, heq, -, hgot⟩ := again_spec hco hsound waits
    obtain rfl := Option.some.inj (heq.symm.trans again)
    exact Or.inr ⟨k, m, a, settle_obj s _ a, hgot⟩

/-- A byte that arrives wakes the comms process when it is blocked. -/
theorem aside_byte (hco : Coherent s) (hsound : Sound rnd s.obj) {c : UInt8}
    (hstep : Event.step s (.isr (some c)) = some s') : Aside s s' := by
  obtain ⟨k, ring, f, heq, harr⟩ := usart1Isr_byte s.kernel hsound.valid c
  simp only [Event.step, heq, Option.map_some, Option.some.injEq] at hstep
  subst hstep
  refine ⟨rfl, rfl, fun hplace hempty hnot => ?_⟩
  rcases harr.wakes with ⟨hfull, rfl, -⟩ | hres
  · -- a full buffer is not empty
    have hnil := (Board.RxRing.empty_iff hsound.valid).mp (hempty hnot)
    rw [hnil] at hfull
    exact absurd (by decide) hfull
  · have hold : ¬ s.kernel.Ready pr1 := fun hr => hnot ((hres.ready pr1).mpr (Or.inl hr))
    have hblocked : TService.Blocked s.kernel s.obj.rxDataAvail.processMap pr1 :=
      ⟨hco.blocked pr1 () hplace hold, hold⟩
    exact absurd ((hres.ready pr1).mpr (Or.inr hblocked)) hnot

theorem aside_outside (hco : Coherent s) (hsound : Sound rnd s.obj)
    (he : e.FromOutside) (hstep : e.step s = some s') : Aside s s' := by
  cases Event.fires hstep with
  | refused | contextSwitch => exact Aside.of_ready rfl rfl rfl id
  | isr c serves =>
    cases c with
    | some c => exact aside_byte hco hsound hstep
    | none =>
      obtain ⟨rfl, rfl⟩ := Prod.mk.inj (Option.some.inj serves)
      exact Aside.of_ready rfl rfl rfl id
  | isrExit => exact Aside.of_ready rfl rfl rfl TKernel.requestSwitch_ready_iff.mpr
  | sysTick =>
    obtain ⟨-, hready, -, -⟩ := TKernel.systemTimer_spec s.kernel
    exact Aside.of_ready rfl rfl rfl fun hr => (hready pr1).mpr (Or.inl hr)
  | call | sleep | wakesNone | wakeUp | forceWakeUp | comesBack | again =>
    exact absurd he id

/-- A process other than the comms process goes to sleep. -/
theorem aside_sleep (hco : Coherent s) (hs : s.Active) (hcur : s.cur ≠ pr1)
    {t : UInt16} (hstep : Event.step s (.sleep t) = some s') :
    Aside s s' ∧ s'.place s.cur = .sleeping := by
  obtain ⟨-, hready, -, -⟩ :=
    TKernel.sleep_spec hco.cur_lt_32 (hco.exists_other hs.2) t
  rw [Event.step, if_pos hs, Option.some.injEq] at hstep
  subst hstep
  refine ⟨Aside.of_ready (Coherent.moves_of_ne s _ (Ne.symm hcur)) rfl rfl fun hr => ?_,
    Coherent.moves_self s _⟩
  exact (hready pr1).mpr ⟨hr, Ne.symm hcur⟩

/-- A call that returns at once. -/
theorem step_call (hs : s.Active) {c : Call} {g : Globals}
    (henter : (service rnd).enter s.kernel s.obj c = some (.returned (), s.kernel, g))
    (hstep : Event.step s (.call c) = some s') :
    s' = { s with obj := g, log := s.log ++ [.done s.cur c ()] } := by
  rw [Event.step, if_pos hs, henter, Option.map_some, Option.some.injEq] at hstep
  rw [← hstep]
  simp only [System.settle, Coherent.moves_running hs]

theorem step_decode (hs : s.Active) (hsound : Sound rnd s.obj)
    (hstep : Event.step s (.call .decode) = some s') :
    ∃ r, s' = { s with obj := { s.obj with receiver := r }
                       log := s.log ++ [.done s.cur .decode ()] } ∧
      r.ring = s.obj.receiver.ring ∧ r.returned = s.obj.receiver.returned ∧
      r.held = none ∧ (Fed rnd s.obj → Fed rnd { s.obj with receiver := r }) := by
  obtain ⟨r, heq, hring, hreturned, hnone, -, hfed⟩ := hsound.decode
  refine ⟨r, step_call hs ?_ hstep, hring, hreturned, hnone, hfed⟩
  simp only [heq, Option.map_some]

theorem step_comGetc (hco : Coherent s) (hs : s.Active) (hsound : Sound rnd s.obj)
    (hstep : Event.step s (.call .comGetc) = some s') :
    ∃ a, Got s.kernel s.obj a ∧ s' = s.settle (.done s.cur .comGetc) a := by
  obtain ⟨a, heq, hgot⟩ :=
    comGetc_spec hsound.valid hco.cur_lt_32 (hco.exists_other hs.2)
  refine ⟨a, hgot, ?_⟩
  rw [Event.step, if_pos hs] at hstep
  replace hstep : (s.obj.comGetc 2 s.kernel).map (s.settle (.done s.cur .comGetc))
    = some s' := hstep
  rw [heq] at hstep
  exact (Option.some.inj hstep).symm

theorem moves_running (s : System (service rnd)) (p : ℕ) :
    s.moves .running p = s.place p ∨ s.moves .running p = .running := by
  by_cases hp : p = s.cur
  · exact Or.inr (hp ▸ Coherent.moves_self s _)
  · exact Or.inl (Coherent.moves_of_ne s _ hp)

end Steps

section Keeps

variable {rnd : ℚ → ℚ} {f f' : Firmware rnd} {e : Event (service rnd)} {i : Input}

/-- A step of `com_getc`, with no byte held before it. -/
theorem CommsAt.of_got {s : System (service rnd)} {k : TKernel} {g : Globals}
    {a : (service rnd).Step} (hgot : Got k g a) (hcur : s.cur = pr1)
    (hheld : g.receiver.held = none) (record : Unit → Record)
    (hsys : f'.sys = s.settle record a) (pc : f'.comms = .decode) : CommsAt f' := by
  have hself : ∀ place : Place Unit, s.moves place pr1 = place := fun place =>
    hcur ▸ Coherent.moves_self s place
  cases hgot with
  | taken hfetch =>
    refine CommsAt.decode pc ?_ ?_
    · rw [hsys]
      exact hself .running
    · rw [hsys]
      cases hfetch with
      | byte c valid pending => exact Option.some_ne_none c
  | blocked empty suspends =>
    refine CommsAt.waits pc ?_ ?_ fun _ => ?_
    · rw [hsys]
      exact hself (.waiting ())
    · rw [hsys]
      exact hheld
    · rw [hsys]
      exact empty

/-- The comms process does not sleep. -/
theorem CommsAt.not_sleeping (h : CommsAt f) : f.sys.place pr1 ≠ .sleeping ∧
    f.sys.place pr1 ≠ .switching := by
  cases h with
  | getc pc place held => simp [place]
  | decode pc place held => simp [place]
  | waits pc place held empty => simp [place]

theorem CommsAt.held_of_getc (h : CommsAt f) (pc : f.comms = .getc) :
    f.sys.obj.receiver.held = none := by
  cases h with
  | getc pc' place held => exact held
  | decode pc' place held =>
    rw [pc] at pc'
    cases pc'
  | waits pc' place held empty => exact held

namespace Steady

theorem onward (h : Steady f) (he : Unforced e) {s : System (service rnd)}
    (hstep : e.step f.sys = some s) : Coherent s ∧ Sound rnd s.obj ∧ Flow s := by
  obtain ⟨s', hs', heffect, hco, hsound⟩ :=
    step_effect (lawful rnd) h.coherent h.sound e he.admits
  obtain rfl := Option.some.inj (hs'.symm.trans hstep)
  exact ⟨hco, hsound, h.flow.of_flows (effect_flows h.coherent h.sound heffect)⟩

theorem step_defined (h : Steady f) (he : Unforced e) : ∃ s, e.step f.sys = some s := by
  obtain ⟨s, hs, -⟩ := step_effect (lawful rnd) h.coherent h.sound e he.admits
  exact ⟨s, hs⟩

/-- Only the comms process waits. -/
theorem cur_of_waiting (h : Steady f) (hp : f.sys.place f.sys.cur = .waiting ()) :
    f.sys.cur = pr1 := by
  have hlt := h.coherent.cur_lt
  have hgui : f.sys.place pr0 ≠ .waiting () := by
    cases h.gui with
    | init pc place | tick pc place => rcases place with h | h <;> simp [h]
    | sleep pc place => simp [place]
  have hled : f.sys.place pr2 ≠ .waiting () := by
    cases h.led with
    | sleep pc place => simp [place]
    | toggle pc place => rcases place with h | h <;> simp [h]
  have hidle : f.sys.cur ≠ prIDLE := h.coherent.ne_idle_of_waiting hp
  have h3 : f.sys.cur ≠ pr0 := fun heq => hgui (heq ▸ hp)
  have h1 : f.sys.cur ≠ pr2 := fun heq => hled (heq ▸ hp)
  unfold prIDLE at hidle
  unfold pr0 at h3
  unfold pr2 at h1
  unfold pr1
  omega

/-- The processes that make calls. -/
theorem cur_cases (h : Steady f) (hs : f.sys.Active) :
    f.sys.cur = pr0 ∨ f.sys.cur = pr1 ∨ f.sys.cur = pr2 := by
  have hlt := h.coherent.cur_lt
  have hidle : f.sys.cur ≠ prIDLE := hs.2
  unfold prIDLE at hidle
  unfold pr0 pr1 pr2
  omega

/-- The loop of `sched` ends. -/
theorem resumes (h : Steady f) {s : System (service rnd)}
    (hstep : Event.step f.sys .resume = some s) : Steady { f with sys := s } := by
  obtain ⟨hco, hsound, hflow⟩ := h.onward unforced_resume hstep
  cases Event.fires hstep with
  | refused => exact h
  | comesBack picked left =>
    have hne : pr1 ≠ f.sys.cur := by
      intro heq
      have hnot := h.comms.not_sleeping
      rw [heq] at hnot
      rcases left with hp | hp <;> simp [hp] at hnot
    have haside : Aside f.sys { f.sys with place := f.sys.moves .running } :=
      Aside.of_ready (Coherent.moves_of_ne f.sys _ hne) rfl rfl id
    exact ⟨hco, hsound, h.fed, hflow, h.comms.frame rfl haside,
      h.gui.frame rfl (moves_running f.sys pr0),
      h.led.frame rfl (moves_running f.sys pr2)⟩
  | again picked waits again =>
    have hcur := h.cur_of_waiting waits
    obtain ⟨a, k, m, heq, -, hgot⟩ := again_spec h.coherent h.sound waits
    obtain rfl := Option.some.inj (heq.symm.trans again)
    have hgui := place_step (p := pr0) hstep (by rw [hcur]; decide)
    have hled := place_step (p := pr2) hstep (by rw [hcur]; decide)
    cases h.comms with
    | getc pc place held | decode pc place held =>
      rw [hcur, place] at waits
      cases waits
    | waits pc place held empty =>
      have hfed : Fed rnd (f.sys.settle (.returned f.sys.cur ()) a).obj := by
        rw [settle_obj]
        refine Fed.of_got ?_ ?_ hgot
        · exact h.fed
        · exact held
      exact ⟨hco, hsound, hfed, hflow, CommsAt.of_got hgot hcur held _ rfl pc,
        h.gui.frame rfl (Or.inl hgui), h.led.frame rfl (Or.inl hled)⟩

/-- Every input keeps the invariant. -/
theorem of_does (h : Steady f) (hdoes : Does f i f') : Steady f' := by
  cases hdoes with
  | rests byte => exact h
  | resumes step => exact h.resumes step
  | outside he byte step =>
    obtain ⟨hco, hsound, hflow⟩ := h.onward (unforced_outside he) step
    have hplace := he.place step
    exact ⟨hco, hsound, fed_outside h.fed h.sound he step, hflow,
      h.comms.frame rfl (aside_outside h.coherent h.sound he step),
      h.gui.frame rfl (Or.inl (congrFun hplace pr0)),
      h.led.frame rfl (Or.inl (congrFun hplace pr2))⟩
  | starts pc =>
    have haside : Aside f.sys f.sys := Aside.of_ready rfl rfl rfl id
    refine ⟨h.coherent, h.sound, h.fed, h.flow, h.comms.frame rfl haside, ?_,
      h.led.frame rfl (Or.inl rfl)⟩
    cases h.gui with
    | init pc' place => exact GuiAt.tick rfl place
    | tick pc' place => exact GuiAt.tick rfl place
    | sleep pc' place => exact GuiAt.tick rfl (Or.inl place)
  | delays hd step =>
    obtain ⟨hs, hcur, hpc⟩ := hd
    obtain ⟨hco, hsound, hflow⟩ := h.onward (unforced_sleep _) step
    obtain ⟨haside, hplace⟩ := aside_sleep h.coherent hs (by rw [hcur]; decide) step
    rw [hcur] at hplace
    exact ⟨hco, hsound, sleep_obj step ▸ h.fed, hflow, h.comms.frame rfl haside,
      GuiAt.init hpc (Or.inr hplace),
      h.led.frame rfl (Or.inl (place_step step (by rw [hcur]; decide)))⟩
  | pauses hs hcur pc step =>
    obtain ⟨hco, hsound, hflow⟩ := h.onward (unforced_sleep _) step
    obtain ⟨haside, hplace⟩ := aside_sleep h.coherent hs (by rw [hcur]; decide) step
    rw [hcur] at hplace
    exact ⟨hco, hsound, sleep_obj step ▸ h.fed, hflow, h.comms.frame rfl haside,
      GuiAt.tick rfl (Or.inr hplace),
      h.led.frame rfl (Or.inl (place_step step (by rw [hcur]; decide)))⟩
  | naps hs hcur pc step =>
    obtain ⟨hco, hsound, hflow⟩ := h.onward (unforced_sleep _) step
    obtain ⟨haside, hplace⟩ := aside_sleep h.coherent hs (by rw [hcur]; decide) step
    rw [hcur] at hplace
    exact ⟨hco, hsound, sleep_obj step ▸ h.fed, hflow, h.comms.frame rfl haside,
      h.gui.frame rfl (Or.inl (place_step step (by rw [hcur]; decide))),
      LedAt.toggle rfl (Or.inr hplace)⟩
  | refreshes hs hcur pc step =>
    obtain ⟨hco, hsound, hflow⟩ := h.onward (unforced_call _) step
    have hrunning := hcur ▸ Coherent.place_of_active hs
    obtain rfl := step_call hs rfl step
    exact ⟨hco, hsound, h.fed.tick, hflow, h.comms.frame rfl (Aside.of_ready rfl rfl rfl id),
      GuiAt.sleep rfl hrunning, h.led.frame rfl (Or.inl rfl)⟩
  | toggles hs hcur pc step =>
    obtain ⟨hco, hsound, hflow⟩ := h.onward (unforced_call _) step
    have hrunning := hcur ▸ Coherent.place_of_active hs
    obtain rfl := step_call hs rfl step
    exact ⟨hco, hsound, h.fed, hflow, h.comms.frame rfl (Aside.of_ready rfl rfl rfl id),
      h.gui.frame rfl (Or.inl rfl), LedAt.sleep rfl hrunning⟩
  | fetches hs hcur pc step =>
    obtain ⟨hco, hsound, hflow⟩ := h.onward (unforced_call _) step
    have hgui := place_step (p := pr0) step (by rw [hcur]; decide)
    have hled := place_step (p := pr2) step (by rw [hcur]; decide)
    obtain ⟨a, hgot, rfl⟩ := step_comGetc h.coherent hs h.sound step
    have hheld := h.comms.held_of_getc pc
    have hfed : Fed rnd (f.sys.settle (.done f.sys.cur .comGetc) a).obj := by
      rw [settle_obj]
      exact h.fed.of_got hheld hgot
    exact ⟨hco, hsound, hfed, hflow, CommsAt.of_got hgot hcur hheld _ rfl rfl,
      h.gui.frame rfl (Or.inl hgui), h.led.frame rfl (Or.inl hled)⟩
  | decodes hs hcur pc step =>
    obtain ⟨hco, hsound, hflow⟩ := h.onward (unforced_call _) step
    have hrunning := hcur ▸ Coherent.place_of_active hs
    obtain ⟨r, rfl, -, -, hnone, hfed⟩ := step_decode hs h.sound step
    exact ⟨hco, hsound, hfed h.fed, hflow, CommsAt.getc rfl hrunning hnone,
      h.gui.frame rfl (Or.inl rfl), h.led.frame rfl (Or.inl rfl)⟩

/-- The step of the kernel or of a call in an input. -/
theorem does_step (h : Steady f) (he : Unforced e) (g : Firmware rnd)
    (hg : g.sys = f.sys)
    (hdoes : ∀ s, e.step f.sys = some s → Does f i { g with sys := s }) :
    ∃ f', g.does e = some f' ∧ Does f i f' := by
  obtain ⟨s, hs⟩ := h.step_defined he
  refine ⟨{ g with sys := s }, ?_, hdoes s hs⟩
  rw [Firmware.does, hg, hs, Option.map_some]

theorem guiExec (h : Steady f) (hs : f.sys.Active) (hcur : f.sys.cur = pr0) :
    ∃ f', f.guiExec = some f' ∧ Does f .run f' := by
  unfold Firmware.guiExec
  cases hpc : f.gui with
  | init => exact ⟨_, rfl, Does.starts hpc⟩
  | tick =>
    exact h.does_step (unforced_call _) _ rfl fun s => Does.refreshes hs hcur hpc
  | sleep => exact h.does_step (unforced_sleep _) _ rfl fun s => Does.pauses hs hcur hpc

theorem commsExec (h : Steady f) (hs : f.sys.Active) (hcur : f.sys.cur = pr1) :
    ∃ f', f.commsExec = some f' ∧ Does f .run f' := by
  unfold Firmware.commsExec
  cases hpc : f.comms with
  | getc => exact h.does_step (unforced_call _) _ rfl fun s => Does.fetches hs hcur hpc
  | decode => exact h.does_step (unforced_call _) _ rfl fun s => Does.decodes hs hcur hpc

theorem ledExec (h : Steady f) (hs : f.sys.Active) (hcur : f.sys.cur = pr2) :
    ∃ f', f.ledExec = some f' ∧ Does f .run f' := by
  unfold Firmware.ledExec
  cases hpc : f.led with
  | sleep => exact h.does_step (unforced_sleep _) _ rfl fun s => Does.naps hs hcur hpc
  | toggle => exact h.does_step (unforced_call _) _ rfl fun s => Does.toggles hs hcur hpc

theorem run (h : Steady f) : ∃ f', f.run = some f' ∧ Does f .run f' := by
  unfold Firmware.run
  by_cases hs : f.sys.Active
  · rw [if_pos hs]
    rcases h.cur_cases hs with hcur | hcur | hcur
    · rw [if_pos hcur]
      exact h.guiExec hs hcur
    · rw [if_neg (by rw [hcur]; decide), if_pos hcur]
      exact h.commsExec hs hcur
    · rw [if_neg (by rw [hcur]; decide), if_neg (by rw [hcur]; decide)]
      exact h.ledExec hs hcur
  · rw [if_neg hs]
    exact ⟨f, rfl, Does.rests rfl⟩

/-- The step theorem: every input is defined. -/
theorem step (h : Steady f) (i : Input) : ∃ f', i.step f = some f' ∧ Does f i f' := by
  have houtside : ∀ e : Event (service rnd), e.FromOutside → eventByte? e = i.byte? →
      ∃ f', f.does e = some f' ∧ Does f i f' := fun e he hbyte =>
    h.does_step (unforced_outside he) f rfl fun s => Does.outside he hbyte
  cases i with
  | usart1Isr c => exact houtside (.isr c) trivial rfl
  | isrExit => exact houtside .isrExit trivial rfl
  | sysTick => exact houtside .sysTick trivial rfl
  | contextSwitch => exact houtside .contextSwitch trivial rfl
  | resume => exact h.does_step unforced_resume f rfl fun s => Does.resumes
  | run => exact h.run
  | delay val =>
    by_cases hd : f.Delays
    · obtain ⟨f', hf', hdoes⟩ :=
        h.does_step (unforced_sleep val) f rfl fun s => Does.delays hd
      exact ⟨f', (if_pos hd).trans hf', hdoes⟩
    · exact ⟨f, if_neg hd, Does.rests rfl⟩

end Steady

end Keeps

/-! ## Runs -/

section Runs

variable {rnd : ℚ → ℚ} {P : Firmware rnd → Prop} {pre : List Input}
  {f₀ : Firmware rnd}

/-- The run theorem. -/
theorem exec_steady (rnd : ℚ → ℚ) (is : List Input) :
    ∃ f, exec rnd is = some f ∧ Steady f := by
  refine run_history (P := fun f _ => Steady f) ?_ Steady.init is
  intro f is i h
  obtain ⟨f', hf', hdoes⟩ := h.step i
  exact ⟨f', hf', h.of_does hdoes⟩

/-- The rule for the rest of a run.  What holds in a state that a run has come to,
and is kept by all that an input can do, holds at the end. -/
theorem exec_append (hpre : exec rnd pre = some f₀) (h₀ : P f₀)
    (hstep : ∀ f i f', Steady f → Does f i f' → P f → P f') (post : List Input) :
    ∃ f, exec rnd (pre ++ post) = some f ∧ Steady f ∧ P f := by
  have hsteady := of_eq_some (exec_steady rnd pre) hpre
  have hrun : exec rnd (pre ++ post) = Machine.run Input.step f₀ post :=
    run_append_of_eq_some post hpre
  rw [hrun]
  refine run_history (P := fun f _ => Steady f ∧ P f) ?_ ⟨hsteady, h₀⟩ post
  intro f is i h
  obtain ⟨f', hf', hdoes⟩ := h.1.step i
  exact ⟨f', hf', h.1.of_does hdoes, hstep f i f' h.1 hdoes h.2⟩

end Runs

end EBLmon.Main
