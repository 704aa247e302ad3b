import EBLmon.Os.Coherent

/-!
# The mutex

`OS::TMutex` of `src/scmRTOS/Common/OS_Services.h` and `OS_Services.cpp`, used
by any number of processes in any order.

`owner` reads the owner off the record of a run: the process whose `lock` has
returned last, until it calls `unlock` or an interrupt calls `unlock_isr`.
`mutual_exclusion` says that no `lock` returns while there is an owner.

`unlock` frees the mutex and makes one process ready, but the mutex is not
handed over: another process may take it first, and then the resumed process
waits again.  `no_lost_unlock` says that nevertheless a process never waits for
a free mutex without another one on its way to it.
-/

namespace EBLmon.Os

open Machine

/-- `TMutex` -/
structure TMutex where
  processMap : TProcessMap
  valueTag : TProcessMap
  deriving DecidableEq

namespace TMutex

/-- The calls of processes. -/
inductive Call where
  | lock
  | unlock
  | lockSoftly
  | isLocked
  deriving DecidableEq, Repr

/-- The constructor. -/
def init : TMutex := ⟨0#32, 0#32⟩

/-- `void lock()`, one round of its loop. -/
def lock (k : TKernel) (m : TMutex) :
    Outcome Unit (Option Bool) × TKernel × TMutex :=
  if m.valueTag ≠ 0#32 then
    let (k, processMap) := TService.suspend k m.processMap
    (.suspended (), k, { m with processMap })
  else (.returned none, k, { m with valueTag := getPrioTag k.curProcPriority })

/-- `void unlock()` -/
def unlock (k : TKernel) (m : TMutex) :
    Outcome Unit (Option Bool) × TKernel × TMutex :=
  if m.valueTag ≠ getPrioTag k.curProcPriority then (.returned none, k, m)
  else
    match TService.resumeNextReady k m.processMap with
    | (true, k, processMap) =>
      (.rescheduled none, k, { processMap, valueTag := 0#32 })
    | (false, k, processMap) =>
      (.returned none, k, { processMap, valueTag := 0#32 })

/-- `void unlock_isr()` -/
def unlockIsr (k : TKernel) (m : TMutex) : TKernel × TMutex :=
  let (_, k, processMap) := TService.resumeNextReadyIsr k m.processMap
  (k, { processMap, valueTag := 0#32 })

/-- `bool lock_softly()` -/
def lockSoftly (k : TKernel) (m : TMutex) :
    Outcome Unit (Option Bool) × TKernel × TMutex :=
  if m.valueTag ≠ 0#32 then (.returned (some false), k, m)
  else
    let (_, k, m) := lock k m
    (.returned (some true), k, m)

/-- `bool is_locked() const` -/
def isLocked (m : TMutex) : Bool := m.valueTag ≠ 0#32

/-- The mutex as a service.  The answer is that of `lock_softly` or
`is_locked`. -/
abbrev service : Service where
  Obj := TMutex
  Call := Call
  Wait := Unit
  Isr := Unit
  Ans := Option Bool
  Map := Unit
  map := fun m _ => m.processMap
  waitsAt := fun _ => ()
  timed := fun _ => false
  enter := fun k m c =>
    some <| match c with
      | .lock => lock k m
      | .unlock => unlock k m
      | .lockSoftly => lockSoftly k m
      | .isLocked => (.returned (some m.isLocked), k, m)
  again := fun k m _ => some (lock k m)
  isr := fun k m _ => some (unlockIsr k m)

/-! ## One call -/

section Calls

variable {s : System service}

/-- A process that waits for a mutex that is taken, or takes a free one. -/
theorem lock_ends (h : Coherent s) (hne : s.cur ≠ prIDLE)
    (hcur : ¬ Tagged s.obj.processMap s.cur)
    (hquiet : s.kernel.timeout s.cur = 0) :
    Ends service s.kernel s.obj (lock s.kernel s.obj) := by
  unfold lock
  by_cases hv : s.obj.valueTag ≠ 0#32
  · obtain ⟨k, w, heq, hsusp⟩ :=
      TService.suspend_spec s.obj.processMap h.cur_lt_32 (h.exists_other hne)
    rw [if_pos hv, heq]
    have hblocks : Blocks service () s.kernel k s.obj
        { s.obj with processMap := w } :=
      blocks_suspended (f := s.kernel.timeout) (fun _ _ => rfl) (fun _ => hquiet)
        hsusp (fun _ hm => absurd rfl hm) (fun _ hm => absurd rfl hm)
    exact Ends.suspended (S := service) () hblocks
  · rw [if_neg hv]
    have hfin : Finishes service s.kernel s.kernel s.obj
        { s.obj with valueTag := getPrioTag s.kernel.curProcPriority } :=
      ⟨h.wakes_same fun _ => rfl, fun _ => hcur, hquiet, fun _ _ => rfl⟩
    exact Ends.returned (S := service) none hfin

theorem unlock_ends (h : Coherent s) (hs : s.Active) :
    Ends service s.kernel s.obj (unlock s.kernel s.obj) := by
  unfold unlock
  by_cases hv : s.obj.valueTag ≠ getPrioTag s.kernel.curProcPriority
  · rw [if_pos hv]
    exact Ends.returned none
      (h.finishes_active hs (h.wakes_same fun _ => rfl) rfl)
  · obtain ⟨b, k, w, heq, -, hres⟩ :=
      TService.resumeNextReady_spec s.obj.processMap h.sched
    have hfin : Finishes service s.kernel k s.obj ⟨w, 0#32⟩ :=
      h.finishes_active hs
        (h.wakes_resumed (m := ()) (fun _ hq => hq.1) hres
          fun _ hm => absurd rfl hm) hres.timeout
    rw [if_neg hv, heq]
    cases b with
    | true => exact Ends.rescheduled none hfin
    | false => exact Ends.returned none hfin

theorem lockSoftly_ends (h : Coherent s) (hs : s.Active) :
    Ends service s.kernel s.obj (lockSoftly s.kernel s.obj) := by
  have hsame : ∀ v, Finishes service s.kernel s.kernel s.obj
      { s.obj with valueTag := v } := fun v =>
    h.finishes_active hs (h.wakes_same fun _ => rfl) rfl
  unfold lockSoftly lock
  by_cases hv : s.obj.valueTag ≠ 0#32
  · rw [if_pos hv]
    exact Ends.returned _ (hsame s.obj.valueTag)
  · rw [if_neg hv, if_neg hv]
    exact Ends.returned _ (hsame _)

theorem lawful : service.Lawful fun _ => True where
  enter := by
    intro s c h _ hs
    have hnot := h.not_tagged (Coherent.waits_of_active hs) ()
    have hquiet := h.quiet _ (Or.inl (Coherent.place_of_active hs))
    refine ⟨_, rfl, ?_, trivial⟩
    cases c with
    | lock => exact lock_ends h hs.2 hnot hquiet
    | unlock => exact unlock_ends h hs
    | lockSoftly => exact lockSoftly_ends h hs
    | isLocked =>
      exact Ends.returned _ (h.finishes_active hs (h.wakes_same fun _ => rfl) rfl)
  again := by
    intro s w h _ hp hready
    obtain ⟨hquiet, hnot⟩ := h.untimed _ w hp rfl
    exact ⟨_, rfl, lock_ends h (h.ne_idle_of_waiting hp)
      (fun htag => hnot ⟨hready, htag⟩) hquiet, trivial⟩
  isr := by
    intro s i h _
    obtain ⟨b, k, w, heq, -, hres⟩ :=
      TService.resumeNextReadyIsr_spec s.kernel s.obj.processMap
    have hisr : unlockIsr s.kernel s.obj = (k, ⟨w, 0#32⟩) := by
      unfold unlockIsr
      rw [heq]
    refine ⟨k, ⟨w, 0#32⟩, congrArg some hisr, ?_, hres.timeout, trivial⟩
    exact h.wakes_resumed (m := ()) (fun _ hq => hq.1) hres
      fun _ hm => absurd rfl hm

end Calls

/-! ## The owner -/

/-- What is recorded of a step. -/
abbrev Record := Obs Call Unit Unit (Option Bool)

/-- The process that has taken the mutex in a step. -/
def takes : Record → Option ℕ
  | .done p .lock _ => some p
  | .done p .lockSoftly (some true) => some p
  | .returned p _ _ => some p
  | _ => none

/-- The owner behind a step: `unlock` is for the owner only, and `unlock_isr`
is not. -/
def ownerStep (owner : Option ℕ) (r : Record) : Option ℕ :=
  match takes r with
  | some p => some p
  | none =>
    match r with
    | .done p .unlock _ => if owner = some p then none else owner
    | .isr _ => none
    | _ => owner

/-- The owner behind the recorded steps. -/
def owner (log : List Record) : Option ℕ := log.foldl ownerStep none

@[simp] theorem owner_concat (log : List Record) (r : Record) :
    owner (log ++ [r]) = ownerStep (owner log) r := by
  simp [owner]

/-- Nobody takes a mutex that has an owner. -/
def Exclusive (log : List Record) : Prop :=
  ∀ pre r post, log = pre ++ r :: post → takes r ≠ none → owner pre = none

theorem Exclusive.concat {log : List Record} (h : Exclusive log) {r : Record}
    (hr : takes r ≠ none → owner log = none) : Exclusive (log ++ [r]) := by
  intro pre r' post heq htakes
  rcases concat_eq_split_iff.mp heq with ⟨rfl, rfl, -⟩ | ⟨post', hlog, -⟩
  · exact hr htakes
  · exact h pre r' post' hlog htakes

/-- The steps of the kernel leave the owner alone. -/
theorem owner_of_kernel {log obs : List Record}
    (hobs : ∀ r ∈ obs, r.OfKernel) : owner (log ++ obs) = owner log := by
  induction obs generalizing log with
  | nil => rw [List.append_nil]
  | cons r obs ih =>
    have hr := hobs r List.mem_cons_self
    rw [List.append_cons, ih fun r' hr' => hobs r' (List.mem_cons_of_mem r hr'),
      owner_concat]
    cases r <;> first | rfl | exact hr.elim

theorem Exclusive.of_kernel {log obs : List Record} (h : Exclusive log)
    (hobs : ∀ r ∈ obs, r.OfKernel) : Exclusive (log ++ obs) := by
  induction obs generalizing log with
  | nil =>
    rw [List.append_nil]
    exact h
  | cons r obs ih =>
    have hr := hobs r List.mem_cons_self
    rw [List.append_cons]
    refine ih (h.concat fun htakes => ?_) fun r' hr' =>
      hobs r' (List.mem_cons_of_mem r hr')
    cases r <;> first | exact absurd rfl htakes | exact hr.elim

/-- A process waits for the mutex and has not been resumed. -/
def Waits (s : System service) (p : ℕ) : Prop :=
  s.place p = .waiting () ∧ ¬ s.kernel.Ready p

/-- What holds in every run. -/
structure Guards (s : System service) : Prop where
  tag : s.obj.valueTag = (owner s.log).elim 0#32 getPrioTag
  owner_lt : ∀ p, owner s.log = some p → p < 4
  exclusive : Exclusive s.log
  waiters : ∀ p, Waits s p → s.obj.valueTag ≠ 0#32 ∨
    ∃ q, s.place q = .waiting () ∧ s.kernel.Ready q

namespace Guards

variable {s : System service}

theorem init : Guards (System.init TMutex.init) where
  tag := rfl
  owner_lt := by
    intro p hp
    cases hp
  exclusive := by
    intro pre r post heq
    exact absurd heq (by simp [System.init])
  waiters := by
    rintro p ⟨hp, -⟩
    cases hp

/-- The mutex is free when it has no owner. -/
theorem free_iff (h : Guards s) :
    s.obj.valueTag = 0#32 ↔ owner s.log = none := by
  rw [h.tag]
  cases ho : owner s.log with
  | none => simp
  | some p =>
    have hlt := h.owner_lt p ho
    simpa using tag_ne_zero (Nat.lt_trans hlt (by decide))

/-- The tag of the mutex is that of its owner. -/
theorem owner_iff (h : Guards s) {p : ℕ} (hp : p < 32) :
    s.obj.valueTag = getPrioTag p ↔ owner s.log = some p := by
  rw [h.tag]
  cases ho : owner s.log with
  | none => simpa using (tag_ne_zero hp).symm
  | some q =>
    have hq : q < 32 := Nat.lt_trans (h.owner_lt q ho) (by decide)
    simp only [Option.elim_some, Option.some.injEq]
    constructor
    · intro heq
      have htag := (tagged_tag_iff hq).mpr rfl
      rw [heq, tagged_tag_iff hp] at htag
      exact htag.symm
    · rintro rfl
      rfl

/-- A step that is recorded and changes nothing. -/
theorem of_record (h : Guards s) {r : Record}
    (howner : ownerStep (owner s.log) r = owner s.log) (htakes : takes r = none) :
    Guards { s with log := s.log ++ [r] } where
  tag := by
    rw [owner_concat, howner]
    exact h.tag
  owner_lt := by
    rw [owner_concat, howner]
    exact h.owner_lt
  exclusive := h.exclusive.concat fun hne => absurd htakes hne
  waiters := h.waiters

/-- A step that leaves the mutex with an owner. -/
theorem of_taken {s' : System service} {r : Record}
    (hlog : s'.log = s.log ++ [r]) (h : Guards s)
    (htag : s'.obj.valueTag = (ownerStep (owner s.log) r).elim 0#32 getPrioTag)
    (hlt : ∀ p, ownerStep (owner s.log) r = some p → p < 4)
    (hfree : takes r ≠ none → owner s.log = none)
    (howner : ownerStep (owner s.log) r ≠ none) : Guards s' := by
  have hlog' : owner s'.log = ownerStep (owner s.log) r := by
    rw [hlog, owner_concat]
  refine ⟨by rw [hlog']; exact htag, by rw [hlog']; exact hlt, ?_, fun _ _ => ?_⟩
  · rw [hlog]
    exact h.exclusive.concat hfree
  · left
    cases ho : ownerStep (owner s.log) r with
    | none => exact absurd ho howner
    | some p =>
      rw [htag, ho]
      exact tag_ne_zero (Nat.lt_trans (hlt p ho) (by decide))

/-- A step that frees the mutex and resumes the next process. -/
theorem of_freed {s' : System service} {r : Record} (hco : Coherent s)
    (hlog : s'.log = s.log ++ [r]) (h : Guards s)
    (howner : ownerStep (owner s.log) r = none) (htakes : takes r = none)
    (htag : s'.obj.valueTag = 0#32)
    (hplace : ∀ p, s'.place p = .waiting () ↔ s.place p = .waiting ())
    (hres : TService.Resumed (TService.Next s.kernel s.obj.processMap) s.kernel
      s'.kernel s.obj.processMap s'.obj.processMap) : Guards s' := by
  have hlog' : owner s'.log = none := by rw [hlog, owner_concat, howner]
  refine ⟨by rw [hlog']; exact htag, by simp [hlog'], ?_, ?_⟩
  · rw [hlog]
    exact h.exclusive.concat fun hne => absurd htakes hne
  · rintro p ⟨hp, hnot⟩
    right
    have hblocked : TService.Blocked s.kernel s.obj.processMap p := by
      have hold : ¬ s.kernel.Ready p := fun hr => hnot ((hres.ready p).mpr (Or.inl hr))
      exact ⟨hco.blocked p () ((hplace p).mp hp) hold, hold⟩
    obtain ⟨q, hq⟩ := TService.exists_next ⟨p, hblocked⟩
    obtain ⟨_, hwait, -⟩ := hco.tagged () q hq.1.1
    exact ⟨q, (hplace q).mpr hwait, (hres.ready q).mpr (Or.inr hq)⟩

/-- A round of the loop of `lock`. -/
theorem of_lock (hco : Coherent s) (h : Guards s) {record : Option Bool → Record}
    (htakes : takes (record none) = some s.cur) :
    Guards (s.settle record (lock s.kernel s.obj)) := by
  unfold lock
  by_cases hv : s.obj.valueTag ≠ 0#32
  · rw [if_pos hv]
    refine of_taken (r := .blocked s.cur ()) rfl h h.tag h.owner_lt (fun hne => ?_) ?_
    · exact absurd rfl hne
    · exact fun hnone => hv (h.free_iff.mpr hnone)
  · have howner : ownerStep (owner s.log) (record none) = some s.cur := by
      unfold ownerStep
      rw [htakes]
    rw [if_neg hv]
    refine of_taken (r := record none) rfl h ?_ ?_ (fun _ => ?_) ?_
    · rw [howner]
      rfl
    · rw [howner]
      rintro p hp
      rw [Option.some.injEq] at hp
      exact hp ▸ hco.cur_lt
    · exact h.free_iff.mp (not_not.mp hv)
    · rw [howner]
      simp

/-- A process leaves `unlock`. -/
theorem of_unlock (hco : Coherent s) (hs : s.Active) (h : Guards s) :
    Guards (s.settle (.done s.cur .unlock) (unlock s.kernel s.obj)) := by
  have howner := h.owner_iff (p := s.cur) hco.cur_lt_32
  unfold unlock
  by_cases hv : s.obj.valueTag ≠ getPrioTag s.kernel.curProcPriority
  · rw [if_pos hv]
    show Guards { s with place := s.moves .running, log := _ }
    rw [Coherent.moves_running hs]
    refine h.of_record ?_ rfl
    exact if_neg fun heq => hv (howner.mpr heq)
  · have hstep : ownerStep (owner s.log) (.done s.cur .unlock none) = none :=
      if_pos (howner.mp (not_not.mp hv))
    obtain ⟨b, k, w, heq, -, hres⟩ :=
      TService.resumeNextReady_spec s.obj.processMap hco.sched
    rw [if_neg hv, heq]
    cases b with
    | true =>
      refine of_freed hco rfl h hstep rfl rfl (fun p => ?_) hres
      refine Coherent.waiting_moves (Coherent.waits_of_active hs) ?_ p ()
      rintro c hc
      rcases Coherent.placeAfter_cases (S := service) k with hp | hp
      · rw [hp] at hc
        cases hc
      · rw [hp] at hc
        cases hc
    | false =>
      refine of_freed hco rfl h hstep rfl rfl (fun p => ?_) hres
      exact Coherent.waiting_moves (Coherent.waits_of_active hs) (by simp) p ()

/-- A process leaves `lock_softly`. -/
theorem of_lockSoftly (hco : Coherent s) (hs : s.Active) (h : Guards s) :
    Guards (s.settle (.done s.cur .lockSoftly) (lockSoftly s.kernel s.obj)) := by
  unfold lockSoftly lock
  by_cases hv : s.obj.valueTag ≠ 0#32
  · rw [if_pos hv]
    show Guards { s with place := s.moves .running, log := _ }
    rw [Coherent.moves_running hs]
    exact h.of_record rfl rfl
  · rw [if_neg hv, if_neg hv]
    refine of_taken (r := .done s.cur .lockSoftly (some true)) rfl h rfl ?_
      (fun _ => h.free_iff.mp (not_not.mp hv)) (by simp [ownerStep, takes])
    intro p hp
    obtain rfl : s.cur = p := Option.some.inj hp
    exact hco.cur_lt

/-- Every step keeps the invariant. -/
theorem of_change {s' : System service} (hco : Coherent s) (h : Guards s)
    (hchange : Change s s') : Guards s' := by
  cases hchange with
  | nudged hn hobs =>
    refine ⟨?_, ?_, h.exclusive.of_kernel hobs, ?_⟩
    · rw [owner_of_kernel hobs]
      exact h.tag
    · rw [owner_of_kernel hobs]
      exact h.owner_lt
    · rintro p ⟨hp, hnot⟩
      have hp' := (hn.waiting p ()).mp hp
      rcases h.waiters p ⟨hp', fun hr => hnot (hn.ready p () hp' hr)⟩ with
        hv | ⟨q, hq, hr⟩
      · exact Or.inl hv
      · exact Or.inr ⟨q, (hn.waiting q ()).mpr hq, hn.ready q () hq hr⟩
  | isr i heq =>
    obtain ⟨b, k, w, hnext, -, hres⟩ :=
      TService.resumeNextReadyIsr_spec s.kernel s.obj.processMap
    have hisr : unlockIsr s.kernel s.obj = (k, ⟨w, 0#32⟩) := by
      unfold unlockIsr
      rw [hnext]
    obtain ⟨rfl, rfl⟩ := Prod.mk.inj (hisr.symm.trans (Option.some.inj heq))
    exact of_freed hco rfl h rfl rfl rfl (fun _ => Iff.rfl) hres
  | called c hs heq =>
    obtain rfl := Option.some.inj heq
    cases c with
    | lock => exact of_lock hco h rfl
    | unlock => exact of_unlock hco hs h
    | lockSoftly => exact of_lockSoftly hco hs h
    | isLocked =>
      show Guards { s with place := s.moves .running, log := _ }
      rw [Coherent.moves_running hs]
      exact h.of_record rfl rfl
  | resumed w hp hr heq =>
    obtain rfl := Option.some.inj heq
    exact of_lock hco h rfl

end Guards

/-! ## Runs -/

/-- The run theorem. -/
theorem exec_guards {es : List (Event service)}
    (hes : System.Admitted TMutex.init es) :
    ∃ s, System.exec TMutex.init es = some s ∧ Coherent s ∧ Guards s := by
  obtain ⟨s, hs, hco, -, hg⟩ := exec_inv lawful trivial
    (fun _ p => not_tagged_zero) Guards.init
    (fun s s' h _ _ hg heffect => hg.of_change h (heffect.change h)) hes
  exact ⟨s, hs, hco, hg⟩

/-- Mutual exclusion over every run: `lock` and `lock_softly` take the mutex
only while it has no owner, and `is_locked` tells whether it has one. -/
theorem mutual_exclusion (es : List (Event service))
    (hes : System.Admitted TMutex.init es) :
    ∃ s, System.exec TMutex.init es = some s ∧ Exclusive s.log ∧
      (s.obj.isLocked = true ↔ ∃ p, owner s.log = some p) := by
  obtain ⟨s, hs, -, hg⟩ := exec_guards hes
  refine ⟨s, hs, hg.exclusive, ?_⟩
  rw [isLocked, decide_eq_true_iff, ne_eq, hg.free_iff, ← ne_eq,
    Option.ne_none_iff_exists']

/-- Two processes meet at the mutex: the first sleeps while it is the owner. -/
def contended : List (Event service) :=
  [.call .lock, .sleep 2, .contextSwitch, .call .lock, .contextSwitch, .sysTick,
    .sysTick, .isrExit, .contextSwitch, .resume]

theorem contended_admitted : System.Admitted TMutex.init contended :=
  admitted_of_unforced (by simp [contended]) _

theorem mutual_exclusion_contended :
    ∃ s, System.exec TMutex.init contended = some s ∧ Exclusive s.log ∧
      (s.obj.isLocked = true ↔ ∃ p, owner s.log = some p) :=
  mutual_exclusion contended contended_admitted

/-- No process is left waiting for a free mutex: when the mutex has no owner,
another process has been resumed and will try to take it. -/
theorem no_lost_unlock (es : List (Event service))
    (hes : System.Admitted TMutex.init es) :
    ∃ s, System.exec TMutex.init es = some s ∧
      ∀ p, Waits s p → owner s.log = none →
        ∃ q, s.place q = .waiting () ∧ s.kernel.Ready q := by
  obtain ⟨s, hs, -, hg⟩ := exec_guards hes
  refine ⟨s, hs, fun p hp hnone => ?_⟩
  exact (hg.waiters p hp).resolve_left fun hv => hv (hg.free_iff.mpr hnone)

/-- Two processes wait for the mutex when its owner calls `unlock`. -/
def queued : List (Event service) :=
  [.call .lock, .sleep 2, .contextSwitch, .call .lock, .contextSwitch, .call .lock,
    .contextSwitch, .sysTick, .sysTick, .isrExit, .contextSwitch, .resume,
    .call .unlock]

theorem no_lost_unlock_queued :
    ∃ s, System.exec TMutex.init queued = some s ∧
      Waits s pr2 ∧ owner s.log = none ∧
      ∃ q, s.place q = .waiting () ∧ s.kernel.Ready q := by
  have hstate : (System.exec TMutex.init queued).map (fun s =>
      (decide (s.place pr2 = .waiting ()), decide (s.kernel.Ready pr2), owner s.log))
      = some (true, false, none) := by
    decide +kernel
  obtain ⟨s, hs, hwaiting⟩ :=
    no_lost_unlock queued (admitted_of_unforced (by simp [queued]) _)
  rw [hs, Option.map_some, Option.some.injEq, Prod.mk.injEq, Prod.mk.injEq,
    decide_eq_true_iff, decide_eq_false_iff_not] at hstate
  obtain ⟨hplace, hnot, hnone⟩ := hstate
  exact ⟨s, hs, ⟨hplace, hnot⟩, hnone, hwaiting pr2 ⟨hplace, hnot⟩ hnone⟩

/-- The map of the mutex holds the processes that wait for it. -/
theorem blocked_iff {s : System service} (h : Coherent s) {p : ℕ} :
    TService.Blocked s.kernel s.obj.processMap p ↔ Waits s p := by
  constructor
  · rintro ⟨htag, hnot⟩
    obtain ⟨_, hp, -⟩ := h.tagged () p htag
    exact ⟨hp, hnot⟩
  · rintro ⟨hp, hnot⟩
    exact ⟨h.blocked p () hp hnot, hnot⟩

/-- `unlock` after any run: a process that is not the owner changes nothing,
and the owner frees the mutex and makes exactly one process ready, the waiting
one with the highest priority. -/
theorem unlock_resumes_next (es : List (Event service))
    (hes : System.Admitted TMutex.init es) :
    ∃ s, System.exec TMutex.init es = some s ∧ (s.Active →
      ∃ s', Event.step s (.call .unlock) = some s' ∧
        (owner s.log ≠ some s.cur → s'.kernel = s.kernel ∧ s'.obj = s.obj) ∧
        (owner s.log = some s.cur → s'.obj.isLocked = false ∧
          ∀ p, s'.kernel.Ready p ↔ s.kernel.Ready p ∨
            (Waits s p ∧ ∀ q, Waits s q → q ≤ p))) := by
  obtain ⟨s, hs, hco, hg⟩ := exec_guards hes
  refine ⟨s, hs, fun hactive => ?_⟩
  have howner := hg.owner_iff (p := s.cur) hco.cur_lt_32
  refine ⟨s.settle (.done s.cur .unlock) (unlock s.kernel s.obj), ?_, ?_, ?_⟩
  · simp only [Event.step, if_pos hactive]
    rfl
  · intro hne
    have hv : s.obj.valueTag ≠ getPrioTag s.kernel.curProcPriority :=
      fun heq => hne (howner.mp heq)
    unfold unlock
    rw [if_pos hv]
    exact ⟨rfl, rfl⟩
  · intro heq
    have hv : ¬ s.obj.valueTag ≠ getPrioTag s.kernel.curProcPriority :=
      not_not.mpr (howner.mpr heq)
    obtain ⟨b, k, w, hres_eq, -, hres⟩ :=
      TService.resumeNextReady_spec s.obj.processMap hco.sched
    have hready : ∀ p, k.Ready p ↔ s.kernel.Ready p ∨
        (Waits s p ∧ ∀ q, Waits s q → q ≤ p) := by
      intro p
      rw [hres.ready, TService.Next]
      simp only [blocked_iff hco]
    unfold unlock
    rw [if_neg hv, hres_eq]
    cases b with
    | true => exact ⟨rfl, hready⟩
    | false => exact ⟨rfl, hready⟩

theorem unlock_resumes_next_contended :
    ∃ s, System.exec TMutex.init contended = some s ∧ (s.Active →
      ∃ s', Event.step s (.call .unlock) = some s' ∧
        (owner s.log ≠ some s.cur → s'.kernel = s.kernel ∧ s'.obj = s.obj) ∧
        (owner s.log = some s.cur → s'.obj.isLocked = false ∧
          ∀ p, s'.kernel.Ready p ↔ s.kernel.Ready p ∨
            (Waits s p ∧ ∀ q, Waits s q → q ≤ p))) :=
  unlock_resumes_next contended contended_admitted

end TMutex

end EBLmon.Os
