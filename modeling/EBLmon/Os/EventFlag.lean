import EBLmon.Os.Kernel

/-!
# Services and the event flag

`src/scmRTOS/Common/OS_Services.h` and `OS_Services.cpp`: the part of
`TService` that `TEventFlag` uses, and `wait` and `signal_isr`.

`wait` gives the processor away in the middle.  `waitBegin` is the part up to
there and `waitEnd` is the part behind it.

A flag with one waiting process is in one of two states: the map of waiting
processes is empty, or it is the tag of that process.  The lemmas say what each
operation does in these states.
-/

namespace EBLmon.Os

/-- `TEventFlag` -/
structure TEventFlag where
  processMap : TProcessMap
  value : Bool
  deriving DecidableEq

/-- The constructor: nobody waits, and the flag is off. -/
def TEventFlag.init : TEventFlag := ⟨0#32, false⟩

namespace TService

/-- `void suspend(TProcessMap volatile & waiters_map)`, up to the loop of
`sched`. -/
def suspend (k : TKernel) (waitersMap : TProcessMap) :
    TKernel × TProcessMap :=
  let prioTag := getPrioTag k.curProcPriority
  let k' := { k with readyProcessMap := clrPrioTag k.readyProcessMap prioTag }
  (k'.sched, setPrioTag waitersMap prioTag)

/-- `bool is_timeouted(TProcessMap volatile & waiters_map)` -/
def isTimeouted (k : TKernel) (waitersMap : TProcessMap) :
    Bool × TProcessMap :=
  let prioTag := getPrioTag k.curProcPriority
  if waitersMap &&& prioTag ≠ 0#32 then (true, clrPrioTag waitersMap prioTag)
  else (false, waitersMap)

/-- `bool resume_all_isr(TProcessMap volatile & waiters_map)` -/
def resumeAllIsr (k : TKernel) (waitersMap : TProcessMap) :
    Bool × TKernel × TProcessMap :=
  let timeouted := k.readyProcessMap
  if waitersMap &&& ~~~timeouted ≠ 0#32 then
    (true, { k with readyProcessMap := setPrioTag k.readyProcessMap waitersMap },
      clrPrioTag waitersMap (~~~timeouted))
  else (false, k, waitersMap)

end TService

namespace TEventFlag

/-- `void signal_isr()` -/
def signalIsr (k : TKernel) (f : TEventFlag) : TKernel × TEventFlag :=
  match TService.resumeAllIsr k f.processMap with
  | (true, k, processMap) => (k, { f with processMap })
  | (false, k, processMap) => (k, { processMap, value := true })

/-- How `wait` begins: it returns at once, or the process is suspended. -/
inductive Wait where
  | returned
  | suspended
  deriving DecidableEq, Repr

/-- `bool wait(timeout_t timeout)` up to the loop of `sched`. -/
def waitBegin (k : TKernel) (f : TEventFlag) (timeout : UInt16) :
    Wait × TKernel × TEventFlag :=
  if f.value then (.returned, k, { f with value := false })
  else
    let k := { k with
      timeout := Function.update k.timeout k.curProcPriority timeout }
    let (k, processMap) := TService.suspend k f.processMap
    (.suspended, k, { f with processMap })

/-- `wait` from the return of `suspend` on: the answer, the kernel and the
flag. -/
def waitEnd (k : TKernel) (f : TEventFlag) : Bool × TKernel × TEventFlag :=
  match TService.isTimeouted k f.processMap with
  | (true, processMap) => (false, k, { f with processMap })
  | (false, processMap) =>
    (true, { k with timeout := Function.update k.timeout k.curProcPriority 0 },
      { f with processMap })

/-! ## A flag with one waiting process -/

section Lemmas

variable {k : TKernel} {f : TEventFlag} {p : ℕ}

/-- Nobody waits: the signal stays in the flag. -/
theorem signalIsr_idle (hf : f.processMap = 0#32) :
    signalIsr k f = (k, { f with value := true }) := by
  unfold signalIsr TService.resumeAllIsr
  simp only [hf, BitVec.zero_and, ne_eq, not_true_eq_false, if_false]

/-- The process that waits is made ready, and the flag stays as it is. -/
theorem signalIsr_waiting (hp : p < 32) (hf : f.processMap = getPrioTag p)
    (hready : ¬ k.Ready p) :
    signalIsr k f = (k.setProcessReady p, { f with processMap := 0#32 }) := by
  have hnot := tag_and_not hp hready
  have hclr : clrPrioTag (getPrioTag p) (~~~k.readyProcessMap) = 0#32 := by
    unfold clrPrioTag
    rw [BitVec.not_not]
    exact tag_and_eq_zero hready
  unfold signalIsr TService.resumeAllIsr
  simp only [hf, hnot, ne_eq, tag_ne_zero hp, not_false_eq_true, if_true, hclr]
  rfl

/-- A flag that is on is taken at once. -/
theorem waitBegin_on (hv : f.value = true) (timeout : UInt16) :
    waitBegin k f timeout = (.returned, k, { f with value := false }) := by
  unfold waitBegin
  rw [if_pos hv]

/-- What a process leaves behind when it suspends itself. -/
structure Suspended (p : ℕ) (k k' : TKernel) (f f' : TEventFlag) : Prop where
  waits : f'.processMap = getPrioTag p
  value : f'.value = f.value
  ready : ¬ k'.Ready p
  sched : k'.schedProcPriority ≠ p
  cur : k'.curProcPriority = k.curProcPriority
  timeout : k'.timeout p = 0

/-- A flag that is off suspends the process: it waits, it is not ready, and
the scheduler picks another one. -/
theorem waitBegin_off (hp : p < 32) (hcur : k.curProcPriority = p)
    (hv : f.value = false) (hf : f.processMap = 0#32) :
    ∃ k' f', waitBegin k f 0 = (.suspended, k', f') ∧
      Suspended p k k' f f' := by
  subst hcur
  let k₁ : TKernel :=
    { k with
      readyProcessMap := clrPrioTag k.readyProcessMap (getPrioTag k.curProcPriority)
      timeout := Function.update k.timeout k.curProcPriority 0 }
  have hready : ¬ k₁.Ready k.curProcPriority := by
    intro h
    exact ((tagged_clr_iff hp hp).mp h).2 rfl
  have hnext : highestPriority k₁.readyProcessMap ≠ k₁.curProcPriority := by
    intro h
    exact hready (tagged_of_highestPriority hp h)
  have hsched : k₁.sched =
      { k₁ with
        schedProcPriority := highestPriority k₁.readyProcessMap
        contextSwitchRaised := true } := by
    unfold TKernel.sched TKernel.requestSwitch
    rw [if_pos hnext]
  refine ⟨k₁.sched, { f with processMap := getPrioTag k.curProcPriority }, ?_, ?_⟩
  · unfold waitBegin TService.suspend
    rw [if_neg (by rw [hv]; exact Bool.false_ne_true)]
    simp only [hf, setPrioTag, BitVec.zero_or]
    rfl
  · rw [hsched]
    refine ⟨rfl, rfl, hready, fun h => hnext h, rfl, ?_⟩
    exact Function.update_self _ 0 k.timeout

/-- A process that a signal has made ready is no longer in the map, so `wait`
answers `true`. -/
theorem waitEnd_signalled (hf : f.processMap = 0#32) :
    waitEnd k f =
      (true, { k with timeout := Function.update k.timeout k.curProcPriority 0 },
        f) := by
  obtain ⟨processMap, value⟩ := f
  obtain rfl : processMap = 0#32 := hf
  unfold waitEnd TService.isTimeouted
  simp only [BitVec.zero_and, ne_eq, not_true_eq_false, if_false]

end Lemmas

end TEventFlag

end EBLmon.Os
