import Mathlib.Data.List.Basic
import Mathlib.Logic.Function.Basic

/-!
# The scmRTOS kernel

`src/scmRTOS`: the process maps of `OS_Target.h` and the part of `TKernel`
that decides which process runs.  The configuration is that of
`scmRTOS_CONFIG.h`: three processes and the idle process, priority order 1, so
a larger number is a higher priority, and `uint_fast8_t` is 32 bits wide.

`ISR_NestCount` is left out.  It is zero whenever a process runs, and an
interrupt that is nested in another one calls `sched_isr` later rather than
sooner: here `schedIsr` is a step of its own, which may come at any time.  The
loop at the end of `sched`, in which a process waits for its context switch, is
a state of the process and is in `EBLmon.Board.Comms`.

`Undisturbed p k k'` collects what a process that waits relies on: the others
and the timer leave its ready bit and its timeout alone, and the scheduler
picks ready processes only.
-/

namespace EBLmon.Os

/-! ## Process maps -/

abbrev TProcessMap := BitVec 32

/-- `enum TPriority` -/
def prIDLE : ℕ := 0
def pr2 : ℕ := 1
def pr1 : ℕ := 2
def pr0 : ℕ := 3

def getPrioTag (pr : ℕ) : TProcessMap := 1#32 <<< pr

/-- `31 - clz(pm)` -/
def highestPriority (pm : TProcessMap) : ℕ := (31#32 - pm.clz).toNat

def setPrioTag (pm tag : TProcessMap) : TProcessMap := pm ||| tag

def clrPrioTag (pm tag : TProcessMap) : TProcessMap := pm &&& ~~~tag

/-- The process with priority `pr` is in the map. -/
def Tagged (pm : TProcessMap) (pr : ℕ) : Prop := pm.getLsbD pr = true

instance (pm : TProcessMap) (pr : ℕ) : Decidable (Tagged pm pr) :=
  inferInstanceAs (Decidable (_ = _))

section Maps

variable {pm : TProcessMap} {p q : ℕ}

theorem getLsbD_getPrioTag (hp : p < 32) (q : ℕ) :
    (getPrioTag p).getLsbD q = decide (p = q) := by
  unfold getPrioTag
  rw [← BitVec.twoPow_eq, BitVec.getLsbD_twoPow, decide_eq_true hp,
    Bool.true_and]

theorem tagged_set_iff (hp : p < 32) :
    Tagged (setPrioTag pm (getPrioTag p)) q ↔ Tagged pm q ∨ p = q := by
  unfold Tagged setPrioTag
  rw [BitVec.getLsbD_or, getLsbD_getPrioTag hp, Bool.or_eq_true,
    decide_eq_true_iff]

theorem tagged_clr_iff (hp : p < 32) (hq : q < 32) :
    Tagged (clrPrioTag pm (getPrioTag p)) q ↔ Tagged pm q ∧ p ≠ q := by
  unfold Tagged clrPrioTag
  rw [BitVec.getLsbD_and, BitVec.getLsbD_not, getLsbD_getPrioTag hp,
    decide_eq_true hq, Bool.and_eq_true, Bool.true_and, Bool.not_eq_true',
    decide_eq_false_iff_not]

/-- The tag of a process that is not in the map is new to it. -/
theorem tag_and_eq_zero (h : ¬ Tagged pm p) : getPrioTag p &&& pm = 0#32 := by
  unfold getPrioTag
  rw [← BitVec.twoPow_eq, BitVec.twoPow_and,
    if_neg (show ¬ pm.getLsbD p = true from h)]

theorem tag_ne_zero (hp : p < 32) : getPrioTag p ≠ 0#32 := by
  intro h
  have hbit := getLsbD_getPrioTag hp p
  rw [h, decide_eq_true rfl] at hbit
  exact absurd hbit (by simp)

theorem tag_and_not (hp : p < 32) (h : ¬ Tagged pm p) :
    getPrioTag p &&& ~~~pm = getPrioTag p := by
  unfold getPrioTag
  have hbit : (~~~pm).getLsbD p = true := by
    rw [BitVec.getLsbD_not, decide_eq_true hp, Bool.true_and,
      Bool.not_eq_true']
    exact Bool.eq_false_iff.mpr h
  rw [← BitVec.twoPow_eq, BitVec.twoPow_and, if_pos hbit]

/-- The highest priority of a map is in the map. -/
theorem tagged_of_highestPriority (hp : p < 32)
    (h : highestPriority pm = p) : Tagged pm p := by
  have hne : pm ≠ 0#32 := by
    rintro rfl
    have hzero : highestPriority 0#32 = 4294967295 := by decide
    omega
  have hlt : pm.clz < 32#32 := (BitVec.clz_lt_iff_ne_zero).mpr hne
  have hlt' : pm.clz.toNat < 32 := hlt
  have heq : highestPriority pm = 31 - pm.clz.toNat := by
    unfold highestPriority
    rw [BitVec.toNat_sub_of_le (by rw [BitVec.le_def]; simp; omega)]
    rfl
  have hbit := BitVec.getLsbD_true_clz_of_ne_zero (by decide) hne
  unfold Tagged
  rw [← h, heq]
  exact hbit

end Maps

/-! ## The kernel -/

/-- The data of `TKernel`, with the timeouts of the processes in
`ProcessTable` and the pending bit of the context switch exception. -/
structure TKernel where
  curProcPriority : ℕ
  readyProcessMap : TProcessMap
  schedProcPriority : ℕ
  timeout : ℕ → UInt16
  contextSwitchRaised : Bool

namespace TKernel

/-- The constructor of `TKernel`: all processes are ready. -/
def init : TKernel where
  curProcPriority := pr0
  readyProcessMap := (1#32 <<< 4) - 1#32
  schedProcPriority := 0
  timeout := fun _ => 0
  contextSwitchRaised := false

def setProcessReady (k : TKernel) (pr : ℕ) : TKernel :=
  { k with readyProcessMap := setPrioTag k.readyProcessMap (getPrioTag pr) }

def setProcessUnready (k : TKernel) (pr : ℕ) : TKernel :=
  { k with readyProcessMap := clrPrioTag k.readyProcessMap (getPrioTag pr) }

/-- The common part of the two schedulers. -/
def requestSwitch (k : TKernel) : TKernel :=
  let nextPrty := highestPriority k.readyProcessMap
  if nextPrty ≠ k.curProcPriority then
    { k with schedProcPriority := nextPrty, contextSwitchRaised := true }
  else k

/-- `void TKernel::sched()` up to its loop. -/
def sched (k : TKernel) : TKernel := k.requestSwitch

/-- `void TKernel::sched_isr()` -/
def schedIsr (k : TKernel) : TKernel := k.requestSwitch

/-- `stack_item_t* TKernel::context_switch_hook(stack_item_t*)`, without the
stacks. -/
def contextSwitchHook (k : TKernel) : TKernel :=
  { k with
    curProcPriority := k.schedProcPriority
    contextSwitchRaised := false }

/-- One process of the loop in `system_timer`. -/
def timerProcess (k : TKernel) (pr : ℕ) : TKernel :=
  if k.timeout pr > 0 then
    let k := { k with
      timeout := Function.update k.timeout pr (k.timeout pr - 1) }
    if k.timeout pr = 0 then k.setProcessReady pr else k
  else k

/-- `void TKernel::system_timer()` -/
def systemTimer (k : TKernel) : TKernel := [1, 2, 3].foldl timerProcess k

/-- `void TBaseProcess::sleep(timeout_t)`, up to the loop of `sched`. -/
def sleep (k : TKernel) (timeout : UInt16) : TKernel :=
  let k := { k with
    timeout := Function.update k.timeout k.curProcPriority timeout }
  (k.setProcessUnready k.curProcPriority).sched

/-- `void TBaseProcess::wake_up()` of the process with priority `pr`. -/
def wakeUp (k : TKernel) (pr : ℕ) : TKernel :=
  if k.timeout pr ≠ 0 then
    let k := { k with timeout := Function.update k.timeout pr 0 }
    (k.setProcessReady pr).sched
  else k

/-- `void TBaseProcess::force_wake_up()` of the process with priority `pr`. -/
def forceWakeUp (k : TKernel) (pr : ℕ) : TKernel :=
  let k := { k with timeout := Function.update k.timeout pr 0 }
  (k.setProcessReady pr).sched

/-- `sched` goes into its loop: another process is to run. -/
def Switching (k : TKernel) : Prop :=
  highestPriority k.readyProcessMap ≠ k.curProcPriority

instance (k : TKernel) : Decidable k.Switching :=
  inferInstanceAs (Decidable (_ ≠ _))

/-- The process with priority `pr` is ready. -/
def Ready (k : TKernel) (pr : ℕ) : Prop := Tagged k.readyProcessMap pr

instance (k : TKernel) (pr : ℕ) : Decidable (k.Ready pr) :=
  inferInstanceAs (Decidable (Tagged _ _))

/-! ## What a waiting process relies on -/

/-- On the way from `k` to `k'` process `p` is left alone. -/
structure Undisturbed (p : ℕ) (k k' : TKernel) : Prop where
  ready : k'.Ready p ↔ k.Ready p
  timeout : k'.timeout p = k.timeout p
  sched : (k.schedProcPriority = p → k.Ready p) →
    k'.schedProcPriority = p → k'.Ready p

namespace Undisturbed

variable {p : ℕ} {k k' k'' : TKernel}

theorem refl (p : ℕ) (k : TKernel) : Undisturbed p k k :=
  ⟨Iff.rfl, rfl, id⟩

theorem trans (h : Undisturbed p k k') (h' : Undisturbed p k' k'') :
    Undisturbed p k k'' :=
  ⟨h'.ready.trans h.ready, h'.timeout.trans h.timeout,
    fun hk => h'.sched (h.sched hk)⟩

end Undisturbed

section Steps

variable {p : ℕ}

/-- The scheduler picks a ready process. -/
theorem requestSwitch_undisturbed (hp : p < 32) (k : TKernel) :
    Undisturbed p k k.requestSwitch := by
  unfold requestSwitch
  dsimp only
  split
  · exact ⟨Iff.rfl, rfl, fun _ h => tagged_of_highestPriority hp h⟩
  · exact Undisturbed.refl p k

theorem schedIsr_undisturbed (hp : p < 32) (k : TKernel) :
    Undisturbed p k k.schedIsr :=
  requestSwitch_undisturbed hp k

theorem contextSwitchHook_undisturbed (p : ℕ) (k : TKernel) :
    Undisturbed p k k.contextSwitchHook :=
  ⟨Iff.rfl, rfl, id⟩

/-- The timer does not wake a process without a timeout. -/
theorem timerProcess_undisturbed (hp : p < 32) {k : TKernel}
    (hk : k.timeout p = 0) {i : ℕ} (hi : i < 32) :
    Undisturbed p k (k.timerProcess i) := by
  unfold timerProcess
  by_cases hpos : k.timeout i > 0
  · have hne : i ≠ p := by
      rintro rfl
      rw [hk] at hpos
      exact absurd hpos (by decide)
    have hne' : p ≠ i := Ne.symm hne
    rw [if_pos hpos]
    dsimp only
    split
    · refine ⟨?_, Function.update_of_ne hne' _ _, fun h hs => ?_⟩
      · unfold setProcessReady Ready
        rw [tagged_set_iff hi]
        exact or_iff_left hne
      · unfold setProcessReady Ready
        rw [tagged_set_iff hi]
        exact Or.inl (h hs)
    · exact ⟨Iff.rfl, Function.update_of_ne hne' _ _, id⟩
  · rw [if_neg hpos]
    exact Undisturbed.refl p k

theorem systemTimer_undisturbed (hp : p < 32) {k : TKernel}
    (hk : k.timeout p = 0) : Undisturbed p k k.systemTimer := by
  have h1 := timerProcess_undisturbed hp hk (i := 1) (by decide)
  have hk1 := h1.timeout.trans hk
  have h2 := timerProcess_undisturbed hp hk1 (i := 2) (by decide)
  have hk2 := h2.timeout.trans hk1
  have h3 := timerProcess_undisturbed hp hk2 (i := 3) (by decide)
  exact (h1.trans h2).trans h3

/-- Another process that goes to sleep takes its own ready bit away only. -/
theorem sleep_undisturbed (hp : p < 32) {k : TKernel}
    (hcur : k.curProcPriority < 32) (hne : k.curProcPriority ≠ p)
    (t : UInt16) : Undisturbed p k (k.sleep t) := by
  unfold sleep sched
  refine Undisturbed.trans ?_ (requestSwitch_undisturbed hp _)
  have hready : ∀ k' : TKernel, k'.curProcPriority = k.curProcPriority →
      k'.readyProcessMap = k.readyProcessMap →
      ((k'.setProcessUnready k'.curProcPriority).Ready p ↔ k.Ready p) := by
    intro k' hcur' hmap
    unfold setProcessUnready Ready
    rw [hcur', hmap, tagged_clr_iff hcur hp]
    exact and_iff_left hne
  refine ⟨hready _ rfl rfl, Function.update_of_ne (Ne.symm hne) _ _, ?_⟩
  intro h hs
  exact (hready _ rfl rfl).mpr (h hs)

end Steps

end TKernel

end EBLmon.Os
