import EBLmon.Os.Services
import EBLmon.Lib.Machine

/-!
# Processes that use a service

The kernel with its three processes, the idle process, the interrupts and one
service.  A process may call the service, sleep, or wake another process, at
any time and in any order, so the runs of `System` contain those of every
program.

A service function holds a critical section, and only the loop of `sched`
leaves it.  So a call is one step up to that loop, and one step for each time
the process comes back from it.  `Place` says where a process is:
`switching` is the loop of `sched` behind the call, `sleeping` the one in
`sleep`, and `waiting` the one in `suspend`.

`Fires` says once what an event does and what it relies on, and `Event.fires` is
the inversion lemma of `step`.  A step makes the records of its event, and none
is ever taken back (`log_step`, `run_log`).

`Coherent` is what holds between any two steps, for every service that plays by
the rules of `Service.Lawful`: a process that is not ready sleeps or waits, and
the maps of the service hold exactly the processes that wait and have not been
resumed.  `exec_inv` is the invariant rule for the services.

The waits of a service whose flag `timed` is off do not look whether the timer
or `force_wake_up` has ended them.  `Admits` keeps `force_wake_up` away
from a process in such a wait.  `wake_up` and the timer do nothing to it.
-/

namespace EBLmon.Os

open Machine

/-- How a step of a call ends: the call is done, without or with a reschedule
as its last action, or the process is suspended. -/
inductive Outcome (W R : Type) where
  | returned (r : R)
  | rescheduled (r : R)
  | suspended (w : W)
  deriving DecidableEq, Repr

/-- A class that is derived from `TService`: its objects with their process
maps, the calls of processes, and the calls of interrupts.  `enter` is a call
up to the loop of `sched`.  A `Wait` is a call that has come to `suspend`, and
`again` goes on behind it. -/
structure Service where
  Obj : Type
  Call : Type
  Wait : Type
  Isr : Type
  Ans : Type
  Map : Type
  map : Obj → Map → TProcessMap
  waitsAt : Wait → Map
  timed : Wait → Bool
  enter : TKernel → Obj → Call → Option (Outcome Wait Ans × TKernel × Obj)
  again : TKernel → Obj → Wait → Option (Outcome Wait Ans × TKernel × Obj)
  isr : TKernel → Obj → Isr → Option (TKernel × Obj)

/-- Where a process is. -/
inductive Place (W : Type) where
  | running
  | switching
  | sleeping
  | waiting (w : W)
  deriving DecidableEq, Repr

def Place.isRunning {W : Type} : Place W → Bool
  | running => true
  | switching | sleeping | waiting _ => false

/-- What is recorded of a step. -/
inductive Obs (C W I R : Type) where
  | done (p : ℕ) (c : C) (r : R)
  | blocked (p : ℕ) (w : W)
  | returned (p : ℕ) (w : W) (r : R)
  | isr (i : I)
  | tick
  | wakeUp (p : ℕ)
  | forceWakeUp (p : ℕ)
  deriving DecidableEq, Repr

/-- What is recorded of a step of a system with the service `S`. -/
abbrev Service.Obs (S : Service) : Type := Os.Obs S.Call S.Wait S.Isr S.Ans

/-- How a step of a call ends, with the kernel and the object. -/
abbrev Service.Step (S : Service) : Type :=
  Outcome S.Wait S.Ans × TKernel × S.Obj

/-- The kernel, the service, the places of the processes and the record of the
steps so far. -/
structure System (S : Service) where
  kernel : TKernel
  obj : S.Obj
  place : ℕ → Place S.Wait
  log : List S.Obs

/-- An interrupt, the context switch, or a step of the current process. -/
inductive Event (S : Service) where
  | call (c : S.Call)
  | isr (i : S.Isr)
  | isrExit
  | sysTick
  | contextSwitch
  | sleep (timeout : UInt16)
  | wakeUp (p : ℕ)
  | forceWakeUp (p : ℕ)
  | resume

variable {S : Service}

namespace System

/-- The state at reset. -/
def init (obj : S.Obj) : System S where
  kernel := TKernel.init
  obj := obj
  place := fun _ => .running
  log := []

/-- The current process. -/
def cur (s : System S) : ℕ := s.kernel.curProcPriority

/-- The current process is outside of a call.  The idle process makes none. -/
def Active (s : System S) : Prop :=
  (s.place s.cur).isRunning = true ∧ s.cur ≠ prIDLE

instance (s : System S) : Decidable s.Active :=
  inferInstanceAs (Decidable (_ ∧ _))

/-- The current process goes on to another place. -/
def moves (s : System S) (place : Place S.Wait) : ℕ → Place S.Wait :=
  Function.update s.place s.cur place

/-- The place behind a reschedule. -/
def placeAfter (k : TKernel) : Place S.Wait :=
  if k.Switching then .switching else .running

/-- The state behind a step of a call of the current process.  `record` is what
is recorded of its answer. -/
def settle (s : System S) (record : S.Ans → S.Obs) : S.Step → System S
  | (.returned r, kernel, obj) =>
    { kernel, obj, place := s.moves .running, log := s.log ++ [record r] }
  | (.rescheduled r, kernel, obj) =>
    { kernel, obj, place := s.moves (placeAfter kernel)
      log := s.log ++ [record r] }
  | (.suspended w, kernel, obj) =>
    { kernel, obj, place := s.moves (.waiting w)
      log := s.log ++ [.blocked s.cur w] }

end System

namespace Event

/-- The state after one event.  An event that is not enabled changes
nothing. -/
def step (s : System S) : Event S → Option (System S)
  | call c =>
    if s.Active then
      (S.enter s.kernel s.obj c).map (s.settle (.done s.cur c))
    else some s
  | isr i =>
    (S.isr s.kernel s.obj i).map fun r =>
      { s with kernel := r.1, obj := r.2, log := s.log ++ [.isr i] }
  | isrExit => some { s with kernel := s.kernel.schedIsr }
  | sysTick =>
    some { s with kernel := s.kernel.systemTimer, log := s.log ++ [.tick] }
  | contextSwitch =>
    if s.kernel.contextSwitchRaised then
      some { s with kernel := s.kernel.contextSwitchHook }
    else some s
  | sleep timeout =>
    if s.Active then
      some { s with
        kernel := s.kernel.sleep timeout
        place := s.moves .sleeping }
    else some s
  | wakeUp p =>
    if s.Active ∧ p < 4 then
      let kernel := s.kernel.wakeUp p
      some { s with
        kernel
        place := s.moves
          (if s.kernel.timeout p ≠ 0 then System.placeAfter kernel else .running)
        log := s.log ++ [.wakeUp p] }
    else some s
  | forceWakeUp p =>
    if s.Active ∧ p < 4 then
      let kernel := s.kernel.forceWakeUp p
      some { s with
        kernel
        place := s.moves (System.placeAfter kernel)
        log := s.log ++ [.forceWakeUp p] }
    else some s
  | resume =>
    -- the loop of `sched` ends when the scheduler has picked this process
    if s.kernel.schedProcPriority = s.cur then
      match s.place s.cur with
      | .running => some s
      | .switching | .sleeping => some { s with place := s.moves .running }
      | .waiting w =>
        (S.again s.kernel s.obj w).map (s.settle (.returned s.cur w))
    else some s

/-- What an event does.  An event that is not enabled is refused. -/
inductive Fires (s : System S) : Event S → System S → Prop where
  | refused (e : Event S) : Fires s e s
  | call (c : S.Call) {a : S.Step} (active : s.Active)
      (enters : S.enter s.kernel s.obj c = some a) :
      Fires s (.call c) (s.settle (.done s.cur c) a)
  | isr (i : S.Isr) {k : TKernel} {o : S.Obj}
      (serves : S.isr s.kernel s.obj i = some (k, o)) :
      Fires s (.isr i) { s with kernel := k, obj := o, log := s.log ++ [.isr i] }
  | isrExit : Fires s .isrExit { s with kernel := s.kernel.schedIsr }
  | sysTick : Fires s .sysTick
      { s with kernel := s.kernel.systemTimer, log := s.log ++ [.tick] }
  | contextSwitch (raised : s.kernel.contextSwitchRaised = true) :
      Fires s .contextSwitch { s with kernel := s.kernel.contextSwitchHook }
  | sleep (t : UInt16) (active : s.Active) : Fires s (.sleep t)
      { s with kernel := s.kernel.sleep t, place := s.moves .sleeping }
  | wakesNone {p : ℕ} (active : s.Active) (lt : p < 4) (zero : s.kernel.timeout p = 0) :
      Fires s (.wakeUp p)
        { s with place := s.moves .running, log := s.log ++ [.wakeUp p] }
  | wakeUp {p : ℕ} (active : s.Active) (lt : p < 4) (timed : s.kernel.timeout p ≠ 0) :
      Fires s (.wakeUp p)
        { s with
          kernel := s.kernel.forceWakeUp p
          place := s.moves (System.placeAfter (s.kernel.forceWakeUp p))
          log := s.log ++ [.wakeUp p] }
  | forceWakeUp {p : ℕ} (active : s.Active) (lt : p < 4) : Fires s (.forceWakeUp p)
      { s with
        kernel := s.kernel.forceWakeUp p
        place := s.moves (System.placeAfter (s.kernel.forceWakeUp p))
        log := s.log ++ [.forceWakeUp p] }
  | comesBack (picked : s.kernel.schedProcPriority = s.cur)
      (left : s.place s.cur = .switching ∨ s.place s.cur = .sleeping) :
      Fires s .resume { s with place := s.moves .running }
  | again {w : S.Wait} {a : S.Step} (picked : s.kernel.schedProcPriority = s.cur)
      (waits : s.place s.cur = .waiting w)
      (again : S.again s.kernel s.obj w = some a) :
      Fires s .resume (s.settle (.returned s.cur w) a)

/-- The inversion lemma of `step`. -/
theorem fires {s s' : System S} {e : Event S} (hstep : e.step s = some s') :
    Fires s e s' := by
  cases e with
  | call c =>
    simp only [step] at hstep
    split at hstep
    · next hs =>
      obtain ⟨a, heq, rfl⟩ := Option.map_eq_some_iff.mp hstep
      exact Fires.call c hs heq
    · exact Option.some.inj hstep ▸ Fires.refused _
  | isr i =>
    obtain ⟨r, heq, rfl⟩ := Option.map_eq_some_iff.mp hstep
    exact Fires.isr i heq
  | isrExit => exact Option.some.inj hstep ▸ Fires.isrExit
  | sysTick => exact Option.some.inj hstep ▸ Fires.sysTick
  | contextSwitch =>
    simp only [step] at hstep
    split at hstep
    · next hraised => exact Option.some.inj hstep ▸ Fires.contextSwitch hraised
    · exact Option.some.inj hstep ▸ Fires.refused _
  | sleep t =>
    simp only [step] at hstep
    split at hstep
    · next hs => exact Option.some.inj hstep ▸ Fires.sleep t hs
    · exact Option.some.inj hstep ▸ Fires.refused _
  | wakeUp p =>
    simp only [step, TKernel.wakeUp_eq] at hstep
    split at hstep
    · next hs =>
      rw [← Option.some.inj hstep]
      by_cases hzero : s.kernel.timeout p = 0
      · simp only [hzero, ne_eq, not_true_eq_false, if_false]
        exact Fires.wakesNone hs.1 hs.2 hzero
      · simp only [hzero, ne_eq, not_false_eq_true, if_true]
        exact Fires.wakeUp hs.1 hs.2 hzero
    · exact Option.some.inj hstep ▸ Fires.refused _
  | forceWakeUp p =>
    simp only [step] at hstep
    split at hstep
    · next hs => exact Option.some.inj hstep ▸ Fires.forceWakeUp hs.1 hs.2
    · exact Option.some.inj hstep ▸ Fires.refused _
  | resume =>
    simp only [step] at hstep
    split at hstep
    · next hpicked =>
      cases hp : s.place s.cur with
      | running =>
        simp only [hp, Option.some.injEq] at hstep
        exact hstep ▸ Fires.refused _
      | switching =>
        simp only [hp, Option.some.injEq] at hstep
        exact hstep ▸ Fires.comesBack hpicked (Or.inl hp)
      | sleeping =>
        simp only [hp, Option.some.injEq] at hstep
        exact hstep ▸ Fires.comesBack hpicked (Or.inr hp)
      | waiting w =>
        simp only [hp] at hstep
        obtain ⟨a, heq, rfl⟩ := Option.map_eq_some_iff.mp hstep
        exact Fires.again hpicked hp heq
    · exact Option.some.inj hstep ▸ Fires.refused _

/-- `force_wake_up` is not used on a process in a wait that does not look for
it. -/
def Admits (s : System S) : Event S → Prop
  | forceWakeUp p => ∀ w, s.place p = .waiting w → S.timed w = true
  | _ => True

end Event

/-! ## Records -/

section Records

variable {s s' : System S} {e : Event S}

/-- The records that an event can make. -/
def Event.Records : Event S → S.Obs → Prop
  | call c, r => (∃ p a, r = .done p c a) ∨ ∃ p w, r = .blocked p w
  | resume, r => (∃ p w a, r = .returned p w a) ∨ ∃ p w, r = .blocked p w
  | isr i, r => r = .isr i
  | sysTick, r => r = .tick
  | wakeUp p, r => r = .wakeUp p
  | forceWakeUp p, r => r = .forceWakeUp p
  | isrExit, _ | contextSwitch, _ | sleep _, _ => False

theorem settle_log {record : S.Ans → S.Obs} (hdone : ∀ b, e.Records (record b))
    (hblocked : ∀ w, e.Records (.blocked s.cur w)) (a : S.Step) :
    ∃ new, (s.settle record a).log = s.log ++ new ∧ ∀ r ∈ new, e.Records r := by
  obtain ⟨o, k, obj⟩ := a
  cases o with
  | returned b => exact ⟨[record b], rfl, by simpa using hdone b⟩
  | rescheduled b => exact ⟨[record b], rfl, by simpa using hdone b⟩
  | suspended w => exact ⟨[.blocked s.cur w], rfl, by simpa using hblocked w⟩

/-- A step makes the records of its event. -/
theorem log_step (hstep : e.step s = some s') :
    ∃ new, s'.log = s.log ++ new ∧ ∀ r ∈ new, e.Records r := by
  cases Event.fires hstep with
  | refused | isrExit | contextSwitch | sleep | comesBack =>
    exact ⟨[], (List.append_nil _).symm, by simp⟩
  | isr | sysTick | wakesNone | wakeUp | forceWakeUp =>
    exact ⟨_, rfl, by simp [Event.Records]⟩
  | @call c a =>
    refine settle_log (fun b => ?_) (fun w => ?_) a
    · exact Or.inl ⟨_, b, rfl⟩
    · exact Or.inr ⟨_, w, rfl⟩
  | @again w a =>
    refine settle_log (fun b => ?_) (fun w' => ?_) a
    · exact Or.inl ⟨_, w, b, rfl⟩
    · exact Or.inr ⟨_, w', rfl⟩

/-- The record only grows. -/
theorem run_log {es : List (Event S)} (hrun : run Event.step s es = some s') :
    ∃ new, s'.log = s.log ++ new := by
  induction es generalizing s with
  | nil =>
    obtain rfl := Option.some.inj hrun
    exact ⟨[], (List.append_nil _).symm⟩
  | cons e es ih =>
    rw [run_cons, Option.bind_eq_some_iff] at hrun
    obtain ⟨s₁, hs₁, hrest⟩ := hrun
    obtain ⟨new₁, hlog₁, -⟩ := log_step hs₁
    obtain ⟨new, hlog⟩ := ih hrest
    exact ⟨new₁ ++ new, by rw [hlog, hlog₁, List.append_assoc]⟩

end Records

/-! ## Runs -/

/-- The state after a sequence of events. -/
def System.exec (obj : S.Obj) (es : List (Event S)) : Option (System S) :=
  run Event.step (System.init obj) es

/-- Every `force_wake_up` of the run is admitted. -/
def System.Admitted (obj : S.Obj) (es : List (Event S)) : Prop :=
  Guarded Event.step Event.Admits (System.init obj) es

end EBLmon.Os
