import EBLmon.Os.EventFlag
import Mathlib.Tactic.SplitIfs

/-!
# What the services do to the process maps

The rest of `TService` in `src/scmRTOS/Common/OS_Services.h` and
`OS_Services.cpp`, and one theorem for each function of the kernel and of
`TService` that says which processes are ready and which are in the map
afterwards.

A process is `Blocked` on a map when it is in the map and not ready.  A process
that is in the map and ready has been resumed by the timer, or by `wake_up` or
`force_wake_up`, and takes itself out of the map later.  `Resumed A` is what
the three `resume` functions do: they make the blocked processes of `A` ready
and take them out of the map.
-/

namespace EBLmon.Os

/-! ## Maps -/

section Maps

variable {pm tag : TProcessMap} {p q : ℕ}

theorem Tagged.lt (h : Tagged pm p) : p < 32 := by
  by_contra hge
  have hfalse : pm.getLsbD p = false := BitVec.getLsbD_of_ge pm p (by omega)
  exact absurd (hfalse.symm.trans h) (by simp)

theorem not_tagged_zero : ¬ Tagged 0#32 p := by
  simp [Tagged]

theorem tagged_tag_iff (hp : p < 32) : Tagged (getPrioTag p) q ↔ p = q := by
  unfold Tagged
  rw [getLsbD_getPrioTag hp, decide_eq_true_iff]

theorem tagged_setPrioTag_iff :
    Tagged (setPrioTag pm tag) q ↔ Tagged pm q ∨ Tagged tag q := by
  simp [Tagged, setPrioTag]

theorem tagged_clrPrioTag_iff :
    Tagged (clrPrioTag pm tag) q ↔ Tagged pm q ∧ ¬ Tagged tag q := by
  unfold Tagged clrPrioTag
  rw [BitVec.getLsbD_and, BitVec.getLsbD_not, Bool.and_eq_true,
    Bool.and_eq_true, decide_eq_true_iff, Bool.not_eq_true', Bool.not_eq_true]
  constructor
  · rintro ⟨hpm, -, hnot⟩
    exact ⟨hpm, hnot⟩
  · rintro ⟨hpm, hnot⟩
    exact ⟨hpm, Tagged.lt hpm, hnot⟩

theorem tagged_not_iff : Tagged (~~~pm) q ↔ q < 32 ∧ ¬ Tagged pm q := by
  simp [Tagged]

theorem tagged_and_not_iff :
    Tagged (pm &&& ~~~tag) q ↔ Tagged pm q ∧ ¬ Tagged tag q :=
  tagged_clrPrioTag_iff

theorem ne_zero_iff_tagged : pm ≠ 0#32 ↔ ∃ p, Tagged pm p := by
  constructor
  · intro hne
    by_contra hnone
    apply hne
    apply BitVec.eq_of_getLsbD_eq
    intro i _
    rw [BitVec.getLsbD_zero]
    exact Bool.eq_false_iff.mpr fun h => hnone ⟨i, h⟩
  · rintro ⟨p, hp⟩ rfl
    exact not_tagged_zero hp

theorem toNat_highestPriority (hne : pm ≠ 0#32) :
    highestPriority pm = 31 - pm.clz.toNat := by
  have hlt : pm.clz.toNat < 32 := (BitVec.clz_lt_iff_ne_zero).mpr hne
  unfold highestPriority
  rw [BitVec.toNat_sub_of_le (by rw [BitVec.le_def]; simp; omega)]
  rfl

theorem tagged_highestPriority (hne : pm ≠ 0#32) :
    Tagged pm (highestPriority pm) := by
  have hlt : pm.clz.toNat < 32 := (BitVec.clz_lt_iff_ne_zero).mpr hne
  refine tagged_of_highestPriority ?_ rfl
  rw [toNat_highestPriority hne]
  omega

/-- No process of a map has a higher priority than `highest_priority`. -/
theorem le_highestPriority (h : Tagged pm q) : q ≤ highestPriority pm := by
  have hne : pm ≠ 0#32 := ne_zero_iff_tagged.mpr ⟨q, h⟩
  rw [toNat_highestPriority hne]
  by_contra hgt
  have hbit : pm.toNat.testBit q = false :=
    Nat.testBit_lt_two_pow (Nat.lt_of_lt_of_le BitVec.toNat_lt_two_pow_sub_clz
      (Nat.pow_le_pow_right (by decide) (by omega)))
  exact absurd (hbit.symm.trans h) (by simp)

theorem highestPriority_eq_iff (hne : pm ≠ 0#32) :
    highestPriority pm = q ↔ Tagged pm q ∧ ∀ p, Tagged pm p → p ≤ q := by
  constructor
  · rintro rfl
    exact ⟨tagged_highestPriority hne, fun p hp => le_highestPriority hp⟩
  · rintro ⟨htag, hmax⟩
    exact Nat.le_antisymm (hmax _ (tagged_highestPriority hne))
      (le_highestPriority htag)

end Maps

/-! ## The kernel -/

namespace TKernel

variable {k : TKernel} {p q : ℕ}

@[simp] theorem requestSwitch_cur (k : TKernel) :
    k.requestSwitch.curProcPriority = k.curProcPriority := by
  unfold requestSwitch
  dsimp only
  split <;> rfl

@[simp] theorem requestSwitch_map (k : TKernel) :
    k.requestSwitch.readyProcessMap = k.readyProcessMap := by
  unfold requestSwitch
  dsimp only
  split <;> rfl

@[simp] theorem requestSwitch_timeout (k : TKernel) :
    k.requestSwitch.timeout = k.timeout := by
  unfold requestSwitch
  dsimp only
  split <;> rfl

@[simp] theorem requestSwitch_ready_iff :
    k.requestSwitch.Ready q ↔ k.Ready q := by
  simp [Ready]

/-- After the scheduler the process to run next is ready, unless it was not
ready before and the current process has the highest priority. -/
theorem requestSwitch_sched (hne : ∃ p, k.Ready p)
    (h : k.Ready k.schedProcPriority ∨ ¬ k.Ready k.curProcPriority) :
    k.requestSwitch.Ready k.requestSwitch.schedProcPriority := by
  have htop := tagged_highestPriority (ne_zero_iff_tagged.mpr hne)
  rw [requestSwitch_ready_iff]
  unfold requestSwitch
  dsimp only
  split
  · exact htop
  · next heq =>
    have hcur : k.Ready k.curProcPriority := by
      rw [ne_eq, not_not] at heq
      rw [← heq]
      exact htop
    exact h.resolve_right fun hnot => hnot hcur

/-- The scheduler has left its choice alone, or has picked the ready process
with the highest priority and raised the context switch. -/
inductive Picks (k k' : TKernel) : Prop where
  | same (sched : k'.schedProcPriority = k.schedProcPriority)
      (raised : k'.contextSwitchRaised = k.contextSwitchRaised)
  | top (sched : k'.schedProcPriority = highestPriority k'.readyProcessMap)
      (raised : k'.contextSwitchRaised = true)
      (ne : k'.schedProcPriority ≠ k'.curProcPriority)

theorem requestSwitch_picks (k : TKernel) : Picks k k.requestSwitch := by
  unfold requestSwitch
  dsimp only
  split
  · next hne => exact Picks.top rfl rfl hne
  · exact Picks.same rfl rfl

/-- A choice after steps that leave the scheduler alone. -/
theorem Picks.of_same {k₁ k' : TKernel} (h : Picks k₁ k')
    (hsched : k₁.schedProcPriority = k.schedProcPriority)
    (hraised : k₁.contextSwitchRaised = k.contextSwitchRaised) : Picks k k' := by
  cases h with
  | same hs hr => exact Picks.same (hs.trans hsched) (hr.trans hraised)
  | top hs hr hne => exact Picks.top hs hr hne

/-- The scheduler runs once more. -/
theorem Picks.requestSwitch {k' : TKernel} (h : Picks k k') :
    Picks k k'.requestSwitch := by
  cases requestSwitch_picks k' with
  | top hs hr hne => exact Picks.top hs hr hne
  | same hs hr =>
    cases h with
    | same hs' hr' => exact Picks.same (hs.trans hs') (hr.trans hr')
    | top hs' hr' hne =>
      refine Picks.top ?_ (hr.trans hr') ?_
      · rw [hs, hs', requestSwitch_map]
      · rw [hs, requestSwitch_cur]
        exact hne

theorem setProcessReady_ready_iff (hp : p < 32) :
    (k.setProcessReady p).Ready q ↔ k.Ready q ∨ p = q :=
  tagged_set_iff hp

/-! ### The timer -/

/-- The loop body for one process: its timeout counts down, and it is made
ready when the timeout comes to zero. -/
theorem timerProcess_spec (hp : p < 32) (k : TKernel) :
    (∀ q, ((k.timerProcess p).timeout q).toNat
        = if q = p then (k.timeout q).toNat - 1 else (k.timeout q).toNat) ∧
      (∀ q, (k.timerProcess p).Ready q
        ↔ k.Ready q ∨ (q = p ∧ (k.timeout q).toNat = 1)) ∧
      (k.timerProcess p).curProcPriority = k.curProcPriority ∧
      (k.timerProcess p).schedProcPriority = k.schedProcPriority := by
  unfold timerProcess
  by_cases h : k.timeout p > 0
  · have hpos : 0 < (k.timeout p).toNat := UInt16.lt_iff_toNat_lt.mp h
    have hle : (1 : UInt16) ≤ k.timeout p := UInt16.le_iff_toNat_le.mpr hpos
    have hsub : (k.timeout p - 1).toNat = (k.timeout p).toNat - 1 :=
      UInt16.toNat_sub_of_le _ _ hle
    have hzero : k.timeout p - 1 = 0 ↔ (k.timeout p).toNat = 1 := by
      rw [← UInt16.toNat_inj, hsub, UInt16.toNat_zero]
      omega
    have htimeout : ∀ q, (Function.update k.timeout p (k.timeout p - 1) q).toNat
        = if q = p then (k.timeout q).toNat - 1 else (k.timeout q).toNat := by
      intro q
      by_cases hq : q = p
      · subst hq
        rw [Function.update_self, if_pos rfl, hsub]
      · rw [Function.update_of_ne hq, if_neg hq]
    rw [if_pos h]
    simp only [Function.update_self, hzero]
    by_cases hone : (k.timeout p).toNat = 1
    · rw [if_pos hone]
      refine ⟨htimeout, fun q => ?_, rfl, rfl⟩
      rw [setProcessReady_ready_iff hp]
      constructor
      · rintro (hq | rfl)
        · exact Or.inl hq
        · exact Or.inr ⟨rfl, hone⟩
      · rintro (hq | ⟨rfl, -⟩)
        · exact Or.inl hq
        · exact Or.inr rfl
    · rw [if_neg hone]
      refine ⟨htimeout, fun q => ?_, rfl, rfl⟩
      constructor
      · exact Or.inl
      · rintro (hq | ⟨rfl, hq⟩)
        · exact hq
        · exact absurd hq hone
  · have hzero : (k.timeout p).toNat = 0 := by
      by_contra hne
      exact h (UInt16.lt_iff_toNat_lt.mpr (Nat.pos_of_ne_zero hne))
    rw [if_neg h]
    refine ⟨fun q => ?_, fun q => ?_, rfl, rfl⟩
    · split
      · next hq => rw [hq, hzero]
      · rfl
    · constructor
      · exact Or.inl
      · rintro (hq | ⟨rfl, hq⟩)
        · exact hq
        · omega

/-- The loop over distinct processes. -/
theorem foldl_timerProcess_spec (ps : List ℕ) (hps : ∀ p ∈ ps, p < 32)
    (hnodup : ps.Nodup) (k : TKernel) :
    (∀ q, ((ps.foldl timerProcess k).timeout q).toNat
        = if q ∈ ps then (k.timeout q).toNat - 1 else (k.timeout q).toNat) ∧
      (∀ q, (ps.foldl timerProcess k).Ready q
        ↔ k.Ready q ∨ (q ∈ ps ∧ (k.timeout q).toNat = 1)) ∧
      (ps.foldl timerProcess k).curProcPriority = k.curProcPriority ∧
      (ps.foldl timerProcess k).schedProcPriority = k.schedProcPriority := by
  induction ps generalizing k with
  | nil => simp
  | cons p ps ih =>
    rw [List.nodup_cons] at hnodup
    obtain ⟨ht₁, hr₁, hc₁, hs₁⟩ :=
      timerProcess_spec (hps p List.mem_cons_self) k
    obtain ⟨ht, hr, hc, hs⟩ := ih (fun q hq => hps q (List.mem_cons_of_mem p hq))
      hnodup.2 (k.timerProcess p)
    rw [List.foldl_cons]
    refine ⟨fun q => ?_, fun q => ?_, hc.trans hc₁, hs.trans hs₁⟩
    · rw [ht, ht₁]
      by_cases hq : q = p
      · subst hq
        rw [if_neg hnodup.1, if_pos rfl, if_pos List.mem_cons_self]
      · simp [hq]
    · rw [hr, hr₁, ht₁]
      by_cases hq : q = p
      · subst hq
        simp [hnodup.1]
      · simp [hq]

/-- A process that the timer looks at. -/
def Clocked (p : ℕ) : Prop := p ∈ [1, 2, 3]

instance (p : ℕ) : Decidable (Clocked p) :=
  inferInstanceAs (Decidable (p ∈ [1, 2, 3]))

theorem clocked_iff : Clocked p ↔ 0 < p ∧ p < 4 := by
  simp [Clocked]
  omega

/-- The timer: every timeout counts down, and the processes whose timeout comes
to zero are made ready. -/
theorem systemTimer_spec (k : TKernel) :
    (∀ q, (k.systemTimer.timeout q).toNat
        = if Clocked q then (k.timeout q).toNat - 1 else (k.timeout q).toNat) ∧
      (∀ q, k.systemTimer.Ready q
        ↔ k.Ready q ∨ (Clocked q ∧ (k.timeout q).toNat = 1)) ∧
      k.systemTimer.curProcPriority = k.curProcPriority ∧
      k.systemTimer.schedProcPriority = k.schedProcPriority :=
  foldl_timerProcess_spec [1, 2, 3] (by decide) (by decide) k

/-- A process without a timeout is left alone by the timer. -/
theorem systemTimer_of_zero (h : k.timeout q = 0) :
    k.systemTimer.timeout q = 0 ∧ (k.systemTimer.Ready q ↔ k.Ready q) := by
  obtain ⟨ht, hr, -, -⟩ := systemTimer_spec k
  have hzero : (k.timeout q).toNat = 0 := by rw [h, UInt16.toNat_zero]
  refine ⟨?_, ?_⟩
  · rw [← UInt16.toNat_inj, ht, UInt16.toNat_zero, hzero]
    simp
  · rw [hr, hzero]
    simp

/-- A process that the timer makes ready has no timeout left. -/
theorem systemTimer_woken (hr : k.systemTimer.Ready q) (hnot : ¬ k.Ready q) :
    Clocked q ∧ (k.timeout q).toNat = 1 ∧ k.systemTimer.timeout q = 0 := by
  obtain ⟨ht, hready, -, -⟩ := systemTimer_spec k
  obtain ⟨hclocked, hone⟩ := ((hready q).mp hr).resolve_left hnot
  refine ⟨hclocked, hone, ?_⟩
  rw [← UInt16.toNat_inj, ht, UInt16.toNat_zero, if_pos hclocked, hone]

/-- A process that goes to sleep takes itself out of the ready map, and another
one is to run. -/
theorem sleep_spec (hcur : k.curProcPriority < 32)
    (hother : ∃ p, p ≠ k.curProcPriority ∧ k.Ready p) (t : UInt16) :
    (k.sleep t).timeout = Function.update k.timeout k.curProcPriority t ∧
      (∀ q, (k.sleep t).Ready q ↔ k.Ready q ∧ q ≠ k.curProcPriority) ∧
      (k.sleep t).curProcPriority = k.curProcPriority ∧
      (k.sleep t).Ready (k.sleep t).schedProcPriority := by
  have hready : ∀ q, Tagged (clrPrioTag k.readyProcessMap
      (getPrioTag k.curProcPriority)) q ↔ k.Ready q ∧ q ≠ k.curProcPriority := by
    intro q
    rw [tagged_clrPrioTag_iff, tagged_tag_iff hcur]
    exact and_congr_right fun _ => not_congr eq_comm
  unfold sleep sched
  refine ⟨requestSwitch_timeout _, fun q => ?_, requestSwitch_cur _, ?_⟩
  · rw [requestSwitch_ready_iff]
    exact hready q
  · obtain ⟨p, hne, hp⟩ := hother
    exact requestSwitch_sched ⟨p, (hready p).mpr ⟨hp, hne⟩⟩
      (Or.inr fun h => ((hready _).mp h).2 rfl)

/-- `force_wake_up` makes the process ready, whatever it does. -/
theorem forceWakeUp_spec (hp : p < 32) (hsched : k.Ready k.schedProcPriority) :
    (k.forceWakeUp p).timeout = Function.update k.timeout p 0 ∧
      (∀ q, (k.forceWakeUp p).Ready q ↔ k.Ready q ∨ q = p) ∧
      (k.forceWakeUp p).curProcPriority = k.curProcPriority ∧
      (k.forceWakeUp p).Ready (k.forceWakeUp p).schedProcPriority := by
  have hready : ∀ q, Tagged (setPrioTag k.readyProcessMap (getPrioTag p)) q
      ↔ k.Ready q ∨ q = p := by
    intro q
    rw [tagged_set_iff hp]
    exact or_congr_right eq_comm
  unfold forceWakeUp sched
  refine ⟨requestSwitch_timeout _, fun q => ?_, requestSwitch_cur _, ?_⟩
  · rw [requestSwitch_ready_iff]
    exact hready q
  · exact requestSwitch_sched ⟨p, (hready p).mpr (Or.inr rfl)⟩
      (Or.inl ((hready _).mpr (Or.inl hsched)))

/-- `wake_up` does nothing to a process without a timeout. -/
theorem wakeUp_eq (k : TKernel) (p : ℕ) :
    k.wakeUp p = if k.timeout p ≠ 0 then k.forceWakeUp p else k := rfl

end TKernel

/-! ## The functions of `TService` -/

namespace TService

/-- `TProcessMap highest_prio_tag(TProcessMap map)` -/
def highestPrioTag (map : TProcessMap) : TProcessMap :=
  getPrioTag (highestPriority map)

/-- `bool resume_all(TProcessMap volatile & waiters_map)` -/
def resumeAll (k : TKernel) (waitersMap : TProcessMap) :
    Bool × TKernel × TProcessMap :=
  match resumeAllIsr k waitersMap with
  | (true, k, waitersMap) => (true, k.sched, waitersMap)
  | (false, k, waitersMap) => (false, k, waitersMap)

/-- `bool resume_next_ready_isr(TProcessMap volatile & waiters_map)` -/
def resumeNextReadyIsr (k : TKernel) (waitersMap : TProcessMap) :
    Bool × TKernel × TProcessMap :=
  let active := k.readyProcessMap
  let timeouted := active
  let ready := waitersMap &&& ~~~timeouted
  if ready ≠ 0#32 then
    let prioTag := highestPrioTag ready
    (true, { k with readyProcessMap := setPrioTag active prioTag },
      clrPrioTag waitersMap prioTag)
  else (false, k, waitersMap)

/-- `bool resume_next_ready(TProcessMap volatile & waiters_map)` -/
def resumeNextReady (k : TKernel) (waitersMap : TProcessMap) :
    Bool × TKernel × TProcessMap :=
  match resumeNextReadyIsr k waitersMap with
  | (true, k, waitersMap) => (true, k.sched, waitersMap)
  | (false, k, waitersMap) => (false, k, waitersMap)

/-- The process waits in the map for a `resume`. -/
def Blocked (k : TKernel) (waitersMap : TProcessMap) (p : ℕ) : Prop :=
  Tagged waitersMap p ∧ ¬ k.Ready p

/-- The blocked processes in `A` are made ready and taken out of the map. -/
structure Resumed (A : ℕ → Prop) (k k' : TKernel) (waitersMap waitersMap' : TProcessMap) :
    Prop where
  cur : k'.curProcPriority = k.curProcPriority
  timeout : k'.timeout = k.timeout
  ready : ∀ q, k'.Ready q ↔ k.Ready q ∨ A q
  map : ∀ q, Tagged waitersMap' q ↔ Tagged waitersMap q ∧ ¬ A q
  sched : k.Ready k.schedProcPriority → k'.Ready k'.schedProcPriority
  picks : TKernel.Picks k k'

section Specs

variable {k : TKernel} {w : TProcessMap} {p q : ℕ} {A : ℕ → Prop}

theorem blocked_iff_tagged :
    Blocked k w q ↔ Tagged (w &&& ~~~k.readyProcessMap) q :=
  tagged_and_not_iff.symm

theorem exists_blocked_iff :
    w &&& ~~~k.readyProcessMap ≠ 0#32 ↔ ∃ q, Blocked k w q := by
  simp only [ne_zero_iff_tagged, blocked_iff_tagged]

/-- Nobody is resumed. -/
theorem Resumed.refl (h : ∀ q, ¬ A q) : Resumed A k k w w :=
  ⟨rfl, rfl, fun q => by simp [h q], fun q => by simp [h q], id,
    TKernel.Picks.same rfl rfl⟩

/-- A reschedule after the processes have been resumed. -/
theorem Resumed.sched_spec {k' : TKernel} {w' : TProcessMap}
    (h : Resumed A k k' w w') (hsched : k.Ready k.schedProcPriority) :
    Resumed A k k'.sched w w' := by
  have hready := h.sched hsched
  refine ⟨(TKernel.requestSwitch_cur k').trans h.cur,
    (TKernel.requestSwitch_timeout k').trans h.timeout, fun q => ?_, h.map,
    fun _ => TKernel.requestSwitch_sched ⟨_, hready⟩ (Or.inl hready),
    h.picks.requestSwitch⟩
  exact TKernel.requestSwitch_ready_iff.trans (h.ready q)

/-- All blocked processes are resumed. -/
theorem resumeAllIsr_spec (k : TKernel) (w : TProcessMap) :
    ∃ b k' w', resumeAllIsr k w = (b, k', w') ∧
      (b = true ↔ ∃ q, Blocked k w q) ∧ Resumed (Blocked k w) k k' w w' := by
  unfold resumeAllIsr
  by_cases h : w &&& ~~~k.readyProcessMap ≠ 0#32
  · rw [if_pos h]
    refine ⟨_, _, _, rfl, iff_of_true rfl (exists_blocked_iff.mp h), rfl, rfl,
      fun q => ?_, fun q => ?_, fun hs => tagged_setPrioTag_iff.mpr (Or.inl hs),
      TKernel.Picks.same rfl rfl⟩
    · show Tagged (setPrioTag k.readyProcessMap w) q ↔ _
      rw [tagged_setPrioTag_iff]
      unfold Blocked TKernel.Ready
      tauto
    · rw [tagged_clrPrioTag_iff, tagged_not_iff]
      have hlt : Tagged w q → q < 32 := Tagged.lt
      unfold Blocked TKernel.Ready
      tauto
  · rw [if_neg h]
    have hnone : ¬ ∃ q, Blocked k w q := mt exists_blocked_iff.mpr h
    exact ⟨_, _, _, rfl, iff_of_false (by simp) hnone,
      Resumed.refl fun q hq => hnone ⟨q, hq⟩⟩

/-- The blocked process with the highest priority. -/
def Next (k : TKernel) (w : TProcessMap) (p : ℕ) : Prop :=
  Blocked k w p ∧ ∀ q, Blocked k w q → q ≤ p

theorem exists_next (h : ∃ q, Blocked k w q) : ∃ q, Next k w q := by
  have hne := exists_blocked_iff.mpr h
  refine ⟨highestPriority (w &&& ~~~k.readyProcessMap),
    blocked_iff_tagged.mpr (tagged_highestPriority hne), fun q hq => ?_⟩
  exact le_highestPriority (blocked_iff_tagged.mp hq)

/-- The blocked process with the highest priority is resumed. -/
theorem resumeNextReadyIsr_spec (k : TKernel) (w : TProcessMap) :
    ∃ b k' w', resumeNextReadyIsr k w = (b, k', w') ∧
      (b = true ↔ ∃ q, Blocked k w q) ∧ Resumed (Next k w) k k' w w' := by
  unfold resumeNextReadyIsr
  dsimp only
  by_cases h : w &&& ~~~k.readyProcessMap ≠ 0#32
  · have hnext : ∀ q, Tagged (highestPrioTag (w &&& ~~~k.readyProcessMap)) q
        ↔ Next k w q := by
      intro q
      have hlt := Tagged.lt (tagged_highestPriority h)
      unfold highestPrioTag Next
      simp only [tagged_tag_iff hlt, highestPriority_eq_iff h, blocked_iff_tagged]
    rw [if_pos h]
    refine ⟨_, _, _, rfl, iff_of_true rfl (exists_blocked_iff.mp h), rfl, rfl,
      fun q => ?_, fun q => ?_, fun hs => tagged_setPrioTag_iff.mpr (Or.inl hs),
      TKernel.Picks.same rfl rfl⟩
    · rw [← hnext]
      exact tagged_setPrioTag_iff
    · rw [← hnext]
      exact tagged_clrPrioTag_iff
  · rw [if_neg h]
    have hnone : ¬ ∃ q, Blocked k w q := mt exists_blocked_iff.mpr h
    exact ⟨_, _, _, rfl, iff_of_false (by simp) hnone,
      Resumed.refl fun q hq => hnone ⟨q, hq.1⟩⟩

theorem resumeAll_spec (w : TProcessMap) (hsched : k.Ready k.schedProcPriority) :
    ∃ b k' w', resumeAll k w = (b, k', w') ∧
      (b = true ↔ ∃ q, Blocked k w q) ∧ Resumed (Blocked k w) k k' w w' := by
  obtain ⟨b, k', w', heq, hb, h⟩ := resumeAllIsr_spec k w
  unfold resumeAll
  rw [heq]
  cases b with
  | true => exact ⟨_, _, _, rfl, hb, h.sched_spec hsched⟩
  | false => exact ⟨_, _, _, rfl, hb, h⟩

theorem resumeNextReady_spec (w : TProcessMap)
    (hsched : k.Ready k.schedProcPriority) :
    ∃ b k' w', resumeNextReady k w = (b, k', w') ∧
      (b = true ↔ ∃ q, Blocked k w q) ∧ Resumed (Next k w) k k' w w' := by
  obtain ⟨b, k', w', heq, hb, h⟩ := resumeNextReadyIsr_spec k w
  unfold resumeNextReady
  rw [heq]
  cases b with
  | true => exact ⟨_, _, _, rfl, hb, h.sched_spec hsched⟩
  | false => exact ⟨_, _, _, rfl, hb, h⟩

/-- What `suspend` does: the current process is in the map and not ready, and
another process is to run. -/
structure Suspends (k k' : TKernel) (w w' : TProcessMap) : Prop where
  cur : k'.curProcPriority = k.curProcPriority
  timeout : k'.timeout = k.timeout
  ready : ∀ q, k'.Ready q ↔ k.Ready q ∧ q ≠ k.curProcPriority
  map : ∀ q, Tagged w' q ↔ Tagged w q ∨ q = k.curProcPriority
  sched : k'.Ready k'.schedProcPriority
  picks : TKernel.Picks k k'

theorem suspend_spec (w : TProcessMap) (hcur : k.curProcPriority < 32)
    (hother : ∃ p, p ≠ k.curProcPriority ∧ k.Ready p) :
    ∃ k' w', suspend k w = (k', w') ∧ Suspends k k' w w' := by
  have hready : ∀ q, Tagged (clrPrioTag k.readyProcessMap
      (getPrioTag k.curProcPriority)) q ↔ k.Ready q ∧ q ≠ k.curProcPriority := by
    intro q
    rw [tagged_clrPrioTag_iff, tagged_tag_iff hcur]
    exact and_congr_right fun _ => not_congr eq_comm
  obtain ⟨p, hne, hp⟩ := hother
  refine ⟨_, _, rfl, TKernel.requestSwitch_cur _, TKernel.requestSwitch_timeout _,
    fun q => ?_, fun q => ?_, ?_,
    TKernel.Picks.requestSwitch (TKernel.Picks.same rfl rfl)⟩
  · exact TKernel.requestSwitch_ready_iff.trans (hready q)
  · rw [tagged_set_iff hcur]
    exact or_congr_right eq_comm
  · exact TKernel.requestSwitch_sched ⟨p, (hready p).mpr ⟨hp, hne⟩⟩
      (Or.inr fun h => ((hready _).mp h).2 rfl)

/-- What `is_timeouted` does: it tells whether the current process is still in
the map, and takes it out. -/
theorem isTimeouted_spec (w : TProcessMap) (hcur : k.curProcPriority < 32) :
    ∃ b w', isTimeouted k w = (b, w') ∧
      (b = true ↔ Tagged w k.curProcPriority) ∧
      ∀ q, Tagged w' q ↔ Tagged w q ∧ q ≠ k.curProcPriority := by
  have hbit : w &&& getPrioTag k.curProcPriority ≠ 0#32
      ↔ Tagged w k.curProcPriority := by
    rw [ne_zero_iff_tagged]
    simp only [Tagged, BitVec.getLsbD_and, getLsbD_getPrioTag hcur,
      Bool.and_eq_true, decide_eq_true_iff]
    constructor
    · rintro ⟨q, hq, rfl⟩
      exact hq
    · intro hq
      exact ⟨_, hq, rfl⟩
  unfold isTimeouted
  dsimp only
  by_cases h : w &&& getPrioTag k.curProcPriority ≠ 0#32
  · rw [if_pos h]
    refine ⟨_, _, rfl, iff_of_true rfl (hbit.mp h), fun q => ?_⟩
    rw [tagged_clrPrioTag_iff, tagged_tag_iff hcur]
    exact and_congr_right fun _ => not_congr eq_comm
  · rw [if_neg h]
    have hnot := mt hbit.mpr h
    refine ⟨_, _, rfl, iff_of_false (by simp) hnot, fun q => ?_⟩
    constructor
    · intro hq
      exact ⟨hq, fun heq => hnot (heq ▸ hq)⟩
    · exact fun hq => hq.1

end Specs

/-- What the end of a wait that looks at `is_timeouted` does: the current
process is out of the map, and keeps its timeout only when it was in there. -/
structure Leaves (k k' : TKernel) (w w' : TProcessMap) : Prop where
  cur : k'.curProcPriority = k.curProcPriority
  sched : k'.schedProcPriority = k.schedProcPriority
  raised : k'.contextSwitchRaised = k.contextSwitchRaised
  ready : k'.readyProcessMap = k.readyProcessMap
  timeout : ∀ q, q ≠ k.curProcPriority → k'.timeout q = k.timeout q
  expired : Tagged w k.curProcPriority →
    k'.timeout k.curProcPriority = k.timeout k.curProcPriority
  quiet : ¬ Tagged w k.curProcPriority → k'.timeout k.curProcPriority = 0
  map : ∀ q, Tagged w' q ↔ Tagged w q ∧ q ≠ k.curProcPriority

theorem Leaves.ready_iff {k k' : TKernel} {w w' : TProcessMap}
    (h : Leaves k k' w w') (q : ℕ) : k'.Ready q ↔ k.Ready q := by
  unfold TKernel.Ready
  rw [h.ready]

end TService

end EBLmon.Os
