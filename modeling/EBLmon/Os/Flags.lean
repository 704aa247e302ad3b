import EBLmon.Lib.Latch
import EBLmon.Os.Coherent

/-!
# The event flag

`OS::TEventFlag` of `src/scmRTOS/Common/OS_Services.h` and `OS_Services.cpp`,
used by any number of processes, with and without timeouts.

What the flag is for is the latch of `EBLmon.Lib.Latch`.  `view` reads the state
of the latch off the flag, the ready map and the timeouts: a process in a wait
is blocked until it is ready, and its answer is `true` when a signal has taken
it out of the map of the flag.  `refines_latch` says that every run of the
flag, with its answers, is a run of the latch.
-/

namespace EBLmon.Os

open Machine

namespace TEventFlag

/-- The calls of processes. -/
inductive Call where
  | wait (timeout : UInt16)
  | signal
  | clear
  | isSignaled
  deriving DecidableEq, Repr

/-- `void signal()` -/
def signal (k : TKernel) (f : TEventFlag) :
    Outcome UInt16 (Option Bool) × TKernel × TEventFlag :=
  match TService.resumeAll k f.processMap with
  | (true, k, processMap) => (.rescheduled none, k, { f with processMap })
  | (false, k, processMap) => (.returned none, k, { processMap, value := true })

/-- `void clear()` -/
def clear (f : TEventFlag) : TEventFlag := { f with value := false }

/-- `bool is_signaled()` -/
def isSignaled (f : TEventFlag) : Bool := f.value

/-- `bool wait(timeout_t timeout)` up to the loop of `sched`, as a call. -/
def waitCall (k : TKernel) (f : TEventFlag) (timeout : UInt16) :
    Outcome UInt16 (Option Bool) × TKernel × TEventFlag :=
  match waitBegin k f timeout with
  | (.returned, k, f) => (.returned (some true), k, f)
  | (.suspended, k, f) => (.suspended timeout, k, f)

/-- The flag as a service.  A wait is known by its timeout. -/
abbrev service : Service where
  Obj := TEventFlag
  Call := Call
  Wait := UInt16
  Isr := Unit
  Ans := Option Bool
  Map := Unit
  map := fun f _ => f.processMap
  waitsAt := fun _ => ()
  timed := fun _ => true
  enter := fun k f c =>
    some <| match c with
      | .wait timeout => waitCall k f timeout
      | .signal => signal k f
      | .clear => (.returned none, k, f.clear)
      | .isSignaled => (.returned (some f.isSignaled), k, f)
  again := fun k f _ =>
    let (answer, k, f) := waitEnd k f
    some (.returned (some answer), k, f)
  isr := fun k f _ => some (signalIsr k f)

/-! ## One call -/

section Specs

variable {k : TKernel} {f : TEventFlag}

/-- A signal resumes the processes that are blocked, and sets the flag when
there are none. -/
theorem signalIsr_spec (k : TKernel) (f : TEventFlag) :
    ∃ k' w v, signalIsr k f = (k', ⟨w, v⟩) ∧
      (v = true ↔ f.value = true ∨ ¬ ∃ q, TService.Blocked k f.processMap q) ∧
      TService.Resumed (TService.Blocked k f.processMap) k k' f.processMap w := by
  obtain ⟨b, k', w, heq, hb, hres⟩ := TService.resumeAllIsr_spec k f.processMap
  unfold signalIsr
  rw [heq]
  cases b with
  | true => exact ⟨k', w, f.value, rfl, by simp [hb.mp rfl], hres⟩
  | false => exact ⟨k', w, true, rfl, by simp [← hb], hres⟩

theorem signal_spec (f : TEventFlag) (hsched : k.Ready k.schedProcPriority) :
    ∃ a k' w v, signal k f = (a, k', ⟨w, v⟩) ∧
      (a = .rescheduled none ∨ a = .returned none) ∧
      (v = true ↔ f.value = true ∨ ¬ ∃ q, TService.Blocked k f.processMap q) ∧
      TService.Resumed (TService.Blocked k f.processMap) k k' f.processMap w := by
  obtain ⟨b, k', w, heq, hb, hres⟩ := TService.resumeAll_spec f.processMap hsched
  unfold signal
  rw [heq]
  cases b with
  | true => exact ⟨_, k', w, f.value, rfl, Or.inl rfl, by simp [hb.mp rfl], hres⟩
  | false => exact ⟨_, k', w, true, rfl, Or.inr rfl, by simp [← hb], hres⟩

/-- A flag that is off suspends the process with its timeout. -/
theorem waitBegin_suspends (hoff : f.value = false) (hcur : k.curProcPriority < 32)
    (hother : ∃ p, p ≠ k.curProcPriority ∧ k.Ready p) (t : UInt16) :
    ∃ k' w, waitBegin k f t = (.suspended, k', { f with processMap := w }) ∧
      TService.Suspends
        { k with timeout := Function.update k.timeout k.curProcPriority t } k'
        f.processMap w := by
  obtain ⟨k', w, heq, hsusp⟩ := TService.suspend_spec
    (k := { k with timeout := Function.update k.timeout k.curProcPriority t })
    f.processMap hcur hother
  refine ⟨k', w, ?_, hsusp⟩
  unfold waitBegin
  rw [if_neg (by simp [hoff])]
  dsimp only
  rw [heq]

/-- Behind the loop of `sched`: the answer is `false` to a process that is
still in the map. -/
theorem waitEnd_spec (f : TEventFlag) (hcur : k.curProcPriority < 32) :
    ∃ b k' w, waitEnd k f = (b, k', { f with processMap := w }) ∧
      (b = false ↔ Tagged f.processMap k.curProcPriority) ∧
      TService.Leaves k k' f.processMap w := by
  obtain ⟨b, w, heq, hb, hw⟩ := TService.isTimeouted_spec f.processMap hcur
  unfold waitEnd
  rw [heq]
  cases b with
  | true =>
    have htag := hb.mp rfl
    exact ⟨_, _, w, rfl, by simp [htag], rfl, rfl, rfl, rfl, fun _ _ => rfl,
      fun _ => rfl, fun hnot => absurd htag hnot, hw⟩
  | false =>
    have hnot : ¬ Tagged f.processMap k.curProcPriority := by simp [← hb]
    exact ⟨_, _, w, rfl, by simp [hnot], rfl, rfl, rfl, rfl,
      fun q hq => Function.update_of_ne hq _ _, fun htag => absurd htag hnot,
      fun _ => Function.update_self _ _ _, hw⟩

end Specs

section Calls

variable {s : System service}

theorem signal_ends (h : Coherent s) (hs : s.Active) :
    Ends service s.kernel s.obj (signal s.kernel s.obj) := by
  obtain ⟨a, k, w, v, heq, ha, -, hres⟩ := signal_spec s.obj h.sched
  have hfin : Finishes service s.kernel k s.obj ⟨w, v⟩ :=
    h.finishes_active hs
      (h.wakes_resumed (m := ()) (fun _ hq => hq) hres fun _ hm => absurd rfl hm)
      hres.timeout
  rw [heq]
  rcases ha with rfl | rfl
  · exact Ends.rescheduled none hfin
  · exact Ends.returned none hfin

theorem waitCall_ends (h : Coherent s) (hs : s.Active) (t : UInt16) :
    Ends service s.kernel s.obj (waitCall s.kernel s.obj t) := by
  cases hv : s.obj.value with
  | true =>
    unfold waitCall
    rw [waitBegin_on hv]
    exact Ends.returned _ (h.finishes_active hs (h.wakes_same fun _ => rfl) rfl)
  | false =>
    obtain ⟨k, w, heq, hsusp⟩ :=
      waitBegin_suspends hv h.cur_lt_32 (h.exists_other hs.2) t
    unfold waitCall
    rw [heq]
    have hblocks : Blocks service t s.kernel k s.obj
        { s.obj with processMap := w } :=
      blocks_suspended (fun q hq => Function.update_of_ne hq _ _) (by simp)
        hsusp (fun _ hm => absurd rfl hm) (fun _ hm => absurd rfl hm)
    exact Ends.suspended (S := service) t hblocks

theorem lawful : service.Lawful fun _ => True where
  enter := by
    intro s c h _ hs
    refine ⟨_, rfl, ?_, trivial⟩
    cases c with
    | wait t => exact waitCall_ends h hs t
    | signal => exact signal_ends h hs
    | clear =>
      exact Ends.returned _ (h.finishes_active hs (h.wakes_same fun _ => rfl) rfl)
    | isSignaled =>
      exact Ends.returned _ (h.finishes_active hs (h.wakes_same fun _ => rfl) rfl)
  again := by
    intro s t h _ hp hready
    obtain ⟨b, k, w, heq, -, hl⟩ := waitEnd_spec s.obj h.cur_lt_32
    have hfin : Finishes service s.kernel k s.obj { s.obj with processMap := w } :=
      h.finishes_left hp hready hl fun _ hm => absurd rfl hm
    refine ⟨(.returned (some b), k, _), ?_, Ends.returned _ hfin, trivial⟩
    simp only [heq]
  isr := by
    intro s i h _
    obtain ⟨k, w, v, heq, -, hres⟩ := signalIsr_spec s.kernel s.obj
    refine ⟨k, ⟨w, v⟩, congrArg some heq, ?_, hres.timeout, trivial⟩
    exact h.wakes_resumed (m := ()) (fun _ hq => hq) hres fun _ hm => absurd rfl hm

end Calls

/-! ## The flag as a latch -/

/-- What is recorded of a step. -/
abbrev Record := Obs Call UInt16 Unit (Option Bool)

/-- What a step does to the latch. -/
def action : Record → Latch.Action ℕ
  | .done p (.wait _) r => .take p (r.getD false)
  | .done _ .signal _ => .signal
  | .done _ .clear _ => .clear
  | .done _ .isSignaled r => .look (r.getD false)
  | .blocked p t => .block p t.toNat
  | .returned p _ r => .leave p (r.getD false)
  | .isr _ => .signal
  | .tick => .tick
  | .wakeUp p => .wake p
  | .forceWakeUp p => .force p

/-- What a process has to do with the flag. -/
def waiter (s : System service) (p : ℕ) : Latch.Waiter :=
  match s.place p with
  | .waiting _ =>
    if s.kernel.Ready p then .released (decide (¬ Tagged s.obj.processMap p))
    else .blocked (s.kernel.timeout p).toNat
  | .running | .switching | .sleeping => .absent

/-- The state of the latch. -/
def view (s : System service) : Latch.State ℕ := ⟨s.obj.value, waiter s⟩

/-- The record so far is a run of the latch, up to the state that is seen. -/
def Refines (s : System service) : Prop :=
  Machine.run Latch.step Latch.init (s.log.map action) = some (view s)

section Views

variable {s s' : System service} {p : ℕ}

theorem waiter_of_ready {t : UInt16} (hp : s.place p = .waiting t)
    (hr : s.kernel.Ready p) :
    waiter s p = .released (decide (¬ Tagged s.obj.processMap p)) := by
  unfold waiter
  rw [hp]
  exact if_pos hr

theorem waiter_of_not_ready {t : UInt16} (hp : s.place p = .waiting t)
    (hr : ¬ s.kernel.Ready p) : waiter s p = .blocked (s.kernel.timeout p).toNat := by
  unfold waiter
  rw [hp]
  exact if_neg hr

theorem waiter_of_absent (hp : ∀ t, s.place p ≠ .waiting t) :
    waiter s p = .absent := by
  unfold waiter
  cases h : s.place p with
  | running | switching | sleeping => rfl
  | waiting t => exact absurd h (hp t)

theorem ready_of_released {b : Bool} (h : waiter s p = .released b) :
    s.kernel.Ready p := by
  by_contra hnot
  cases hp : s.place p with
  | waiting t =>
    rw [waiter_of_not_ready hp hnot] at h
    cases h
  | running | switching | sleeping =>
    rw [waiter, hp] at h
    cases h

theorem blocked_iff_place : Latch.Blocked (view s) p ↔
    (∃ t, s.place p = .waiting t) ∧ ¬ s.kernel.Ready p := by
  constructor
  · rintro ⟨u, hu⟩
    have hp : ∃ t, s.place p = .waiting t := by
      by_contra hnone
      have habsent := waiter_of_absent (s := s) (p := p) fun t ht => hnone ⟨t, ht⟩
      rw [show waiter s p = _ from hu] at habsent
      cases habsent
    obtain ⟨t, ht⟩ := hp
    refine ⟨⟨t, ht⟩, fun hr => ?_⟩
    have hreleased := waiter_of_ready ht hr
    rw [show waiter s p = _ from hu] at hreleased
    cases hreleased
  · rintro ⟨⟨t, ht⟩, hr⟩
    exact ⟨_, waiter_of_not_ready ht hr⟩

theorem blocked_iff_map (h : Coherent s) :
    Latch.Blocked (view s) p ↔ TService.Blocked s.kernel s.obj.processMap p := by
  rw [blocked_iff_place]
  constructor
  · rintro ⟨⟨t, ht⟩, hr⟩
    exact ⟨h.blocked p t ht hr, hr⟩
  · rintro ⟨htag, hr⟩
    obtain ⟨t, ht, -⟩ := h.tagged () p htag
    exact ⟨⟨t, ht⟩, hr⟩

theorem Refines.init : Refines (System.init TEventFlag.init) := rfl

/-- One more record, with what it has to do to the latch. -/
theorem Refines.concat (h : Refines s) {r : Record}
    (hlog : s'.log = s.log ++ [r]) (hallowed : (action r).Allowed (view s))
    (hon : s'.obj.value = (action r).onAfter (view s))
    (hwaiter : ∀ p, waiter s' p = (action r).onWaiter p (waiter s p)) :
    Refines s' := by
  unfold Refines at h ⊢
  rw [hlog, List.map_append, List.map_singleton, run_concat_of_eq_some _ h,
    Latch.step_of_allowed hallowed]
  unfold view
  rw [hon, funext hwaiter]
  rfl

/-- A process whose wait is as it was. -/
theorem waiter_congr (hplace : ∀ t, s'.place p = .waiting t ↔ s.place p = .waiting t)
    (hready : ∀ t, s.place p = .waiting t → (s'.kernel.Ready p ↔ s.kernel.Ready p))
    (htimeout : ∀ t, s.place p = .waiting t → ¬ s.kernel.Ready p →
      s'.kernel.timeout p = s.kernel.timeout p)
    (htag : ∀ t, s.place p = .waiting t → s.kernel.Ready p →
      (Tagged s'.obj.processMap p ↔ Tagged s.obj.processMap p)) :
    waiter s' p = waiter s p := by
  by_cases hp : ∃ t, s.place p = .waiting t
  · obtain ⟨t, hp⟩ := hp
    have hp' := (hplace t).mpr hp
    by_cases hr : s.kernel.Ready p
    · rw [waiter_of_ready hp hr, waiter_of_ready hp' ((hready t hp).mpr hr)]
      simp only [htag t hp hr]
    · rw [waiter_of_not_ready hp hr,
        waiter_of_not_ready hp' (mt (hready t hp).mp hr), htimeout t hp hr]
  · rw [not_exists] at hp
    rw [waiter_of_absent hp, waiter_of_absent fun t => mt (hplace t).mp (hp t)]

end Views

/-! ## Steps -/

section Steps

variable {s s' : System service} {p : ℕ}

theorem Refines.stirred (h : Refines s) {k : TKernel} {place : ℕ → Place UInt16}
    (hstirs : Stirs s k place) : Refines { s with kernel := k, place } := by
  have hview : view { s with kernel := k, place } = view s := by
    unfold view
    congr 1
    funext p
    exact waiter_congr (hstirs.waiting p) (hstirs.ready p)
      (fun t ht _ => hstirs.timeout p t ht) fun _ _ _ => Iff.rfl
  unfold Refines
  rw [hview]
  exact h

/-- A tick of the clock. -/
theorem Refines.ticked (h : Refines s) (hco : Coherent s)
    (hlog : s'.log = s.log ++ [.tick]) (hkernel : s'.kernel = s.kernel.systemTimer)
    (hobj : s'.obj = s.obj) (hplace : s'.place = s.place) : Refines s' := by
  obtain ⟨ht, hr, -, -⟩ := TKernel.systemTimer_spec s.kernel
  rw [← hkernel] at ht hr
  refine h.concat hlog trivial (congrArg _ hobj) fun p => ?_
  show waiter s' p = (waiter s p).tick
  by_cases hp : ∃ t, s.place p = .waiting t
  · obtain ⟨t, hp⟩ := hp
    have hp' : s'.place p = .waiting t := hplace ▸ hp
    have hclocked : TKernel.Clocked p :=
      TKernel.clocked_iff.mpr ⟨Nat.pos_of_ne_zero (hco.ne_idle_of_waiting hp),
        hco.waits_lt p t hp⟩
    have htimeout := ht p
    rw [if_pos hclocked] at htimeout
    by_cases hold : s.kernel.Ready p
    · rw [waiter_of_ready hp hold, waiter_of_ready hp' ((hr p).mpr (Or.inl hold)),
        hobj]
      rfl
    · rw [waiter_of_not_ready hp hold]
      by_cases hone : (s.kernel.timeout p).toNat = 1
      · -- the process is still in the map
        have htag := hco.blocked p t hp hold
        rw [waiter_of_ready hp' ((hr p).mpr (Or.inr ⟨hclocked, hone⟩)), hobj, hone]
        simp [htag, Latch.Waiter.tick]
      · have hnot : ¬ s'.kernel.Ready p := by
          rw [hr]
          rintro (hq | ⟨-, hq⟩)
          · exact hold hq
          · exact hone hq
        rw [waiter_of_not_ready hp' hnot, htimeout]
        unfold Latch.Waiter.tick
        split <;> simp_all
  · rw [not_exists] at hp
    rw [waiter_of_absent hp, waiter_of_absent (by rwa [hplace])]
    rfl

/-- A signal. -/
theorem Refines.signalled (h : Refines s) (hco : Coherent s) {r : Record}
    (hlog : s'.log = s.log ++ [r]) (haction : action r = .signal)
    (hplace : ∀ p t, s'.place p = .waiting t ↔ s.place p = .waiting t)
    (hon : s'.obj.value = true ↔ s.obj.value = true ∨
      ¬ ∃ q, TService.Blocked s.kernel s.obj.processMap q)
    (hres : TService.Resumed (TService.Blocked s.kernel s.obj.processMap) s.kernel
      s'.kernel s.obj.processMap s'.obj.processMap) : Refines s' := by
  refine h.concat hlog ?_ ?_ fun p => ?_
  · rw [haction]
    trivial
  · rw [haction, Bool.eq_iff_iff, Latch.Action.onAfter_signal_iff, hon]
    simp only [blocked_iff_map hco, not_exists]
    rfl
  · rw [haction]
    show waiter s' p = (waiter s p).signal
    by_cases hp : ∃ t, s.place p = .waiting t
    · obtain ⟨t, hp⟩ := hp
      have hp' := (hplace p t).mpr hp
      by_cases hold : s.kernel.Ready p
      · have hnot : ¬ TService.Blocked s.kernel s.obj.processMap p :=
          fun hb => hb.2 hold
        rw [waiter_of_ready hp hold,
          waiter_of_ready hp' ((hres.ready p).mpr (Or.inl hold))]
        simp [hres.map, hnot, Latch.Waiter.signal]
      · have hb : TService.Blocked s.kernel s.obj.processMap p :=
          ⟨hco.blocked p t hp hold, hold⟩
        rw [waiter_of_not_ready hp hold,
          waiter_of_ready hp' ((hres.ready p).mpr (Or.inr hb))]
        simp [hres.map, hb, Latch.Waiter.signal]
    · rw [not_exists] at hp
      rw [waiter_of_absent hp, waiter_of_absent fun t => mt (hplace p t).mp (hp t)]
      rfl

/-- What `force_wake_up` does to the waiters. -/
theorem waiter_forced (hco : Coherent s)
    (hkernel : s'.kernel = s.kernel.forceWakeUp p) (hlt : p < 4)
    (hobj : s'.obj = s.obj)
    (hplace : ∀ q t, s'.place q = .waiting t ↔ s.place q = .waiting t) (q : ℕ) :
    waiter s' q = (Latch.Action.force p).onWaiter q (waiter s q) := by
  obtain ⟨ht, hr, -, -⟩ :=
    TKernel.forceWakeUp_spec (Nat.lt_trans hlt (by decide)) hco.sched
  rw [← hkernel] at ht hr
  show _ = if q = p then _ else _
  split
  · next hq =>
    subst hq
    have hready : s'.kernel.Ready q := (hr q).mpr (Or.inr rfl)
    by_cases hp : ∃ t, s.place q = .waiting t
    · obtain ⟨t, hp⟩ := hp
      rw [waiter_of_ready ((hplace q t).mpr hp) hready, hobj]
      by_cases hold : s.kernel.Ready q
      · rw [waiter_of_ready hp hold]
        rfl
      · have htag := hco.blocked q t hp hold
        rw [waiter_of_not_ready hp hold]
        simp [htag, Latch.Waiter.force]
    · rw [not_exists] at hp
      rw [waiter_of_absent hp, waiter_of_absent fun t => mt (hplace q t).mp (hp t)]
      rfl
  · next hq =>
    refine waiter_congr (hplace q) (fun _ _ => ?_) (fun _ _ _ => ?_) fun _ _ _ => ?_
    · rw [hr]
      exact or_iff_left hq
    · rw [ht, Function.update_of_ne hq]
    · rw [hobj]

/-- A timeout that is not zero is no obstacle to `wake_up`. -/
theorem force_eq_wake (hne : s.kernel.timeout p ≠ 0) :
    (waiter s p).force = (waiter s p).wake := by
  cases hw : waiter s p with
  | absent | released => rfl
  | blocked u =>
    cases u with
    | succ u => rfl
    | zero =>
      obtain ⟨⟨t, hp⟩, hnot⟩ := blocked_iff_place.mp ⟨0, hw⟩
      rw [waiter_of_not_ready hp hnot, Latch.Waiter.blocked.injEq] at hw
      exact absurd (UInt16.toNat_inj.mp hw) hne

/-- `force_wake_up`, and `wake_up` of a process with a timeout. -/
theorem Refines.forced (h : Refines s) (hco : Coherent s) {r : Record}
    (hlog : s'.log = s.log ++ [r])
    (haction : action r = .force p ∨
      (action r = .wake p ∧ s.kernel.timeout p ≠ 0))
    (hkernel : s'.kernel = s.kernel.forceWakeUp p) (hlt : p < 4)
    (hobj : s'.obj = s.obj)
    (hplace : ∀ q t, s'.place q = .waiting t ↔ s.place q = .waiting t) :
    Refines s' := by
  have hwaiter := waiter_forced hco hkernel hlt hobj hplace
  rcases haction with haction | ⟨haction, hne⟩
  · refine h.concat hlog ?_ ?_ ?_
    · rw [haction]
      trivial
    · rw [haction, hobj]
      rfl
    · rw [haction]
      exact hwaiter
  · refine h.concat hlog ?_ ?_ ?_
    · rw [haction]
      trivial
    · rw [haction, hobj]
      rfl
    · rw [haction]
      intro q
      rw [hwaiter]
      show (if q = p then _ else _) = if q = p then _ else _
      split
      · next hq => rw [hq, force_eq_wake hne]
      · rfl

/-- `wake_up` of a process without a timeout. -/
theorem Refines.woken (h : Refines s) {k : TKernel} {place : ℕ → Place UInt16}
    (hstirs : Stirs s k place) (hzero : s.kernel.timeout p = 0) :
    Refines { s with kernel := k, place, log := s.log ++ [.wakeUp p] } := by
  refine h.concat rfl trivial rfl fun q => ?_
  have hsame : waiter { s with kernel := k, place, log := s.log ++ [.wakeUp p] } q
      = waiter s q :=
    waiter_congr (hstirs.waiting q) (hstirs.ready q)
      (fun t ht _ => hstirs.timeout q t ht) fun _ _ _ => Iff.rfl
  rw [hsame]
  show _ = if q = p then _ else _
  split
  · next hq =>
    subst hq
    cases hw : waiter s q with
    | absent | released => rfl
    | blocked u =>
      obtain ⟨⟨t, hp⟩, hnot⟩ := blocked_iff_place.mp ⟨u, hw⟩
      rw [waiter_of_not_ready hp hnot, hzero, UInt16.toNat_zero,
        Latch.Waiter.blocked.injEq] at hw
      rw [← hw]
      rfl
  · rfl

/-- A call that leaves the kernel and the map alone. -/
theorem Refines.looked (h : Refines s) {r : Record}
    (hlog : s'.log = s.log ++ [r]) (hallowed : (action r).Allowed (view s))
    (hon : s'.obj.value = (action r).onAfter (view s))
    (hwaiter : ∀ q w, (action r).onWaiter q w = w) (hkernel : s'.kernel = s.kernel)
    (hmap : s'.obj.processMap = s.obj.processMap) (hplace : s'.place = s.place) :
    Refines s' := by
  refine h.concat hlog hallowed hon fun q => ?_
  rw [hwaiter]
  exact waiter_congr (by simp [hplace]) (by simp [hkernel]) (by simp [hkernel])
    (by simp [hmap])

/-- A process comes to `suspend`. -/
theorem Refines.blocked (h : Refines s) (hs : s.Active) {t : UInt16}
    (hlog : s'.log = s.log ++ [.blocked s.cur t]) (hoff : s.obj.value = false)
    (hvalue : s'.obj.value = s.obj.value) (hplace : s'.place = s.moves (.waiting t))
    (hsusp : TService.Suspends
      { s.kernel with
        timeout := Function.update s.kernel.timeout s.kernel.curProcPriority t }
      s'.kernel s.obj.processMap s'.obj.processMap) : Refines s' := by
  have habsent := waiter_of_absent (Coherent.waits_of_active hs)
  refine h.concat hlog ⟨hoff, habsent⟩ hvalue fun q => ?_
  show _ = if q = s.cur then Latch.Waiter.blocked t.toNat else _
  by_cases hq : q = s.cur
  · subst hq
    have hp : s'.place s.cur = .waiting t := by
      rw [hplace]
      exact Coherent.moves_self s _
    have hnot : ¬ s'.kernel.Ready s.cur := fun hr => ((hsusp.ready _).mp hr).2 rfl
    rw [if_pos rfl, waiter_of_not_ready hp hnot, hsusp.timeout]
    exact congrArg (fun u : UInt16 => Latch.Waiter.blocked u.toNat)
      (Function.update_self _ _ _)
  · rw [if_neg hq]
    refine waiter_congr (fun u => ?_) (fun u _ => ?_) (fun u _ _ => ?_) fun u _ _ => ?_
    · rw [hplace, Coherent.moves_of_ne s _ hq]
    · rw [hsusp.ready]
      exact and_iff_left hq
    · rw [hsusp.timeout]
      exact Function.update_of_ne hq _ _
    · rw [hsusp.map]
      exact or_iff_left hq

/-- A process returns from its wait. -/
theorem Refines.left (h : Refines s) {t : UInt16} (hp : s.place s.cur = .waiting t)
    (hready : s.kernel.Ready s.cur) {b : Bool} {k : TKernel} {w : TProcessMap}
    (hb : b = false ↔ Tagged s.obj.processMap s.cur)
    (hl : TService.Leaves s.kernel k s.obj.processMap w) :
    Refines (s.settle (.returned s.cur t)
      (.returned (some b), k, { s.obj with processMap := w })) := by
  have hreleased : waiter s s.cur = .released b := by
    rw [waiter_of_ready hp hready]
    congr 1
    cases b with
    | false => exact decide_eq_false (not_not.mpr (hb.mp rfl))
    | true => exact decide_eq_true fun htag => absurd (hb.mpr htag) (by simp)
  refine h.concat (r := .returned s.cur t (some b)) rfl hreleased rfl fun q => ?_
  show _ = if q = s.cur then Latch.Waiter.absent else _
  by_cases hq : q = s.cur
  · subst hq
    rw [if_pos rfl]
    refine waiter_of_absent fun u => ?_
    show s.moves .running s.cur ≠ _
    rw [Coherent.moves_self]
    simp
  · rw [if_neg hq]
    refine waiter_congr (fun u => ?_) (fun u _ => hl.ready_iff q)
      (fun u _ _ => hl.timeout q hq) fun u _ _ => ?_
    · show s.moves .running q = _ ↔ _
      rw [Coherent.moves_of_ne s _ hq]
    · exact (hl.map q).trans (and_iff_left hq)

/-- A call of a process. -/
theorem Refines.called (h : Refines s) (hco : Coherent s) (hs : s.Active) (c : Call)
    {a : service.Step} (heq : service.enter s.kernel s.obj c = some a) :
    Refines (s.settle (.done s.cur c) a) := by
  have hrun := Coherent.moves_running hs
  obtain rfl := Option.some.inj heq
  cases c with
  | wait t =>
    show Refines (s.settle _ (waitCall s.kernel s.obj t))
    cases hv : s.obj.value with
    | true =>
      unfold waitCall
      rw [waitBegin_on hv]
      exact h.looked (r := .done s.cur (.wait t) (some true)) rfl
        ⟨hv, waiter_of_absent (Coherent.waits_of_active hs), rfl⟩ rfl
        (fun _ _ => rfl) rfl rfl hrun
    | false =>
      obtain ⟨k, w, heq', hsusp⟩ :=
        waitBegin_suspends hv hco.cur_lt_32 (hco.exists_other hs.2) t
      unfold waitCall
      rw [heq']
      exact h.blocked hs rfl hv rfl rfl hsusp
  | signal =>
    show Refines (s.settle _ (signal s.kernel s.obj))
    obtain ⟨a, k, w, v, heq', ha, hv, hres⟩ := signal_spec s.obj hco.sched
    rw [heq']
    have hwaits := Coherent.waits_of_active hs
    rcases ha with rfl | rfl
    · refine h.signalled hco (r := .done s.cur .signal none) rfl rfl (fun p t => ?_)
        hv hres
      refine Coherent.waiting_moves hwaits (fun u => ?_) p t
      rcases Coherent.placeAfter_cases (S := service) k with hp | hp <;> simp [hp]
    · exact h.signalled hco (r := .done s.cur .signal none) rfl rfl
        (Coherent.waiting_moves hwaits (by simp)) hv hres
  | clear =>
    exact h.looked (r := .done s.cur .clear none) rfl trivial rfl
      (fun _ _ => rfl) rfl rfl hrun
  | isSignaled =>
    exact h.looked (r := .done s.cur .isSignaled (some s.obj.value)) rfl rfl rfl
      (fun _ _ => rfl) rfl rfl hrun

/-- Every step of the flag is a step of the latch, or none. -/
theorem Refines.of_effect (h : Refines s) (hco : Coherent s)
    (heffect : Effect s s') : Refines s' := by
  cases heffect with
  | stirred hstirs => exact h.stirred hstirs
  | ticked => exact h.ticked hco rfl rfl rfl rfl
  | woken p hstirs hzero => exact h.woken hstirs hzero
  | forced p o active hp admits ho hplace =>
    refine h.forced hco (r := o) rfl ?_ rfl hp rfl ?_
    · rcases ho with rfl | ⟨rfl, hne⟩
      · exact Or.inl rfl
      · exact Or.inr ⟨rfl, hne⟩
    · refine Coherent.waiting_moves (Coherent.waits_of_active active) fun t => ?_
      rcases hplace with rfl | rfl <;> simp
  | isr i heq =>
    obtain ⟨k, w, v, heq', hv, hres⟩ := signalIsr_spec s.kernel s.obj
    obtain ⟨rfl, rfl⟩ := Prod.mk.inj (heq'.symm.trans (Option.some.inj heq))
    exact h.signalled hco (r := .isr i) rfl rfl (fun _ _ => Iff.rfl) hv hres
  | called c active heq => exact h.called hco active c heq
  | resumed t waits ready heq =>
    obtain ⟨b, k, w, hend, hb, hl⟩ := waitEnd_spec s.obj hco.cur_lt_32
    simp only [hend, Option.some.injEq] at heq
    subst heq
    exact h.left waits ready hb hl

end Steps

/-! ## Runs -/

/-- The run theorem. -/
theorem exec_refines (es : List (Event service)) :
    ∃ s, System.exec TEventFlag.init es = some s ∧ Coherent s ∧ Refines s := by
  obtain ⟨s, hs, hco, -, h⟩ := exec_inv (P := Refines) lawful trivial
    (fun _ p => not_tagged_zero) Refines.init
    (fun s s' hco _ _ h heffect => h.of_effect hco heffect)
    (admitted_of_timed (fun _ => rfl) TEventFlag.init es)
  exact ⟨s, hs, hco, h⟩

/-- The flag is a latch with timed waits: every run, with the answers of its
calls, is a run of the latch, and the processes it leaves blocked are those
that wait and are not ready. -/
theorem refines_latch (es : List (Event service)) :
    ∃ s a, System.exec TEventFlag.init es = some s ∧
      run Latch.step Latch.init (s.log.map action) = some a ∧
      a.on = s.obj.isSignaled ∧
      ∀ p, Latch.Blocked a p ↔
        (∃ t, s.place p = .waiting t) ∧ ¬ s.kernel.Ready p := by
  obtain ⟨s, hs, -, h⟩ := exec_refines es
  exact ⟨s, view s, hs, h, rfl, fun _ => blocked_iff_place⟩

/-! ### Timeouts -/

/-- The process does not return from a wait. -/
def Stays (p : ℕ) (post : List Record) : Prop :=
  ∀ t r, Obs.returned p t r ∉ post

/-- `wake_up` or `force_wake_up` is called for the process. -/
def Woken (p : ℕ) (post : List Record) : Prop :=
  Obs.wakeUp p ∈ post ∨ Obs.forceWakeUp p ∈ post

/-- The flag is signalled. -/
def Signalled (post : List Record) : Prop :=
  ∃ r ∈ post, action r = .signal

section Timeouts

variable {s : System service} {p : ℕ} {t : UInt16} {pre post rest : List Record}

theorem count_tick (post : List Record) :
    (post.map action).count .tick = post.count .tick := by
  induction post with
  | nil => rfl
  | cons r post ih =>
    rw [List.map_cons, List.count_cons, List.count_cons, ih]
    congr 1
    cases r with
    | done p c r => cases c <;> rfl
    | blocked | returned | isr | tick | wakeUp | forceWakeUp => rfl

theorem Stays.map (h : Stays p post) : Latch.Stays p (post.map action) := by
  intro answer hmem
  obtain ⟨r, hr, heq⟩ := List.mem_map.mp hmem
  cases r with
  | done q c r => cases c <;> cases heq
  | blocked | isr | tick | wakeUp | forceWakeUp => cases heq
  | returned q u r =>
    rw [action, Latch.Action.leave.injEq] at heq
    exact h u r (heq.1 ▸ hr)

theorem unwoken_map (h : ¬ Woken p post) : Latch.Unwoken p (post.map action) := by
  constructor
  · intro hmem
    obtain ⟨r, hr, heq⟩ := List.mem_map.mp hmem
    cases r with
    | done q c r => cases c <;> cases heq
    | blocked | isr | tick | returned | forceWakeUp => cases heq
    | wakeUp q =>
      rw [action, Latch.Action.wake.injEq] at heq
      exact h (Or.inl (heq ▸ hr))
  · intro hmem
    obtain ⟨r, hr, heq⟩ := List.mem_map.mp hmem
    cases r with
    | done q c r => cases c <;> cases heq
    | blocked | isr | tick | returned | wakeUp => cases heq
    | forceWakeUp q =>
      rw [action, Latch.Action.force.injEq] at heq
      exact h (Or.inr (heq ▸ hr))

/-- The latch at a place of the record where the process is in a wait. -/
theorem Refines.waited (h : Refines s)
    (hlog : s.log = pre ++ .blocked p t :: (post ++ rest)) (hstays : Stays p post) :
    ∃ a, Latch.Waited p t.toNat (post.map action) (a.waiter p) ∧
      run Latch.step a (rest.map action) = some (view s) := by
  unfold Refines at h
  rw [hlog, List.map_append, List.map_cons, List.map_append, run_append,
    Option.bind_eq_some_iff] at h
  obtain ⟨a₁, -, h⟩ := h
  rw [run_cons, Option.bind_eq_some_iff] at h
  obtain ⟨a₂, hblock, h⟩ := h
  rw [run_append, Option.bind_eq_some_iff] at h
  obtain ⟨a₃, hpost, hrest⟩ := h
  obtain ⟨-, -, hwaiter⟩ := Latch.step_eq_some hblock
  refine ⟨a₃, Latch.run_waited ?_ hstays.map hpost, hrest⟩
  rw [hwaiter]
  exact if_pos rfl

end Timeouts

/-! ### Signals -/

/-- The event is a call of `signal` or of `signal_isr`. -/
def Signals (s : System service) (e : Event service) : Prop :=
  e = .isr () ∨ (e = .call .signal ∧ s.Active)

/-- A call of `wait` has taken the flag, or it was cleared. -/
def Consumed (post : List Record) : Prop :=
  ∃ r ∈ post, action r = .clear ∨ ∃ p b, action r = .take p b

theorem untaken_map {post : List Record} (h : ¬ Consumed post) :
    Latch.Untaken (post.map action) := by
  constructor
  · intro hmem
    obtain ⟨r, hr, heq⟩ := List.mem_map.mp hmem
    exact h ⟨r, hr, Or.inl heq⟩
  · intro p b hmem
    obtain ⟨r, hr, heq⟩ := List.mem_map.mp hmem
    exact h ⟨r, hr, Or.inr ⟨p, b, heq⟩⟩

/-- A signal is recorded. -/
theorem Signals.log {s s' : System service} {e : Event service} (h : Signals s e)
    (hco : Coherent s) (hstep : e.step s = some s') :
    ∃ r, s'.log = s.log ++ [r] ∧ action r = .signal := by
  rcases h with rfl | ⟨rfl, hs⟩
  · rw [Event.step, Option.map_eq_some_iff] at hstep
    obtain ⟨a, -, rfl⟩ := hstep
    exact ⟨_, rfl, rfl⟩
  · rw [Event.step, if_pos hs] at hstep
    obtain ⟨a, heq, rfl⟩ := Option.map_eq_some_iff.mp hstep
    obtain ⟨b, k, w, v, heq', hb, -⟩ := signal_spec s.obj hco.sched
    obtain rfl := Option.some.inj ((congrArg some heq').symm.trans heq)
    rcases hb with rfl | rfl
    · exact ⟨_, rfl, rfl⟩
    · exact ⟨_, rfl, rfl⟩

/-- What a signal has done to the latch at the end of the run. -/
theorem Refines.signal_kept {s₁ s : System service} {r : Record} {post : List Record}
    (h₁ : Refines s₁) (h : Refines s) (hlog : s.log = s₁.log ++ r :: post)
    (hr : action r = .signal) :
    ((∃ p, Latch.Blocked (view s₁) p) ∨ Consumed post ∨ s.obj.value = true) ∧
      ∀ p, waiter s₁ p ≠ .absent → Stays p post → ∃ b, waiter s p = .released b := by
  unfold Refines at h h₁
  rw [hlog, List.map_append, List.map_cons, hr, run_append_of_eq_some _ h₁, run_cons,
    Option.bind_eq_some_iff] at h
  obtain ⟨a, hsignal, hrest⟩ := h
  obtain ⟨-, hon, hwaiter⟩ := Latch.step_eq_some hsignal
  constructor
  · by_cases hblocked : ∃ p, Latch.Blocked (view s₁) p
    · exact Or.inl hblocked
    · refine Or.inr (or_iff_not_imp_left.mpr fun hnot => ?_)
      refine Latch.run_on ?_ (untaken_map hnot) hrest
      rw [hon, Latch.Action.onAfter_signal_iff]
      exact Or.inr fun p hp => hblocked ⟨p, hp⟩
  · intro p hp hstays
    have hreleased : ∃ b, a.waiter p = .released b := by
      rw [hwaiter]
      show ∃ b, (waiter s₁ p).signal = .released b
      cases hw : waiter s₁ p with
      | absent => exact absurd hw hp
      | blocked t => exact ⟨true, rfl⟩
      | released b => exact ⟨b, rfl⟩
    obtain ⟨b, hb⟩ := hreleased
    exact ⟨b, Latch.run_released hb hstays.map hrest⟩

/-- No signal is lost.  Nobody is blocked while the flag is on.  When nobody was
blocked by the flag at a signal, then the flag is still on, or it has been taken
or cleared since.  A process that was in `wait` at the signal and has not returned
is ready. -/
theorem no_lost_signal (pre post : List (Event service)) (e : Event service) :
    ∃ s₁ s, System.exec TEventFlag.init pre = some s₁ ∧
      System.exec TEventFlag.init (pre ++ e :: post) = some s ∧
      (s.obj.isSignaled = true → ∀ p t, s.place p = .waiting t →
        s.kernel.Ready p) ∧
      (Signals s₁ e → ∃ r rest, s.log = s₁.log ++ r :: rest ∧
        ((∃ p t, s₁.place p = .waiting t ∧ ¬ s₁.kernel.Ready p) ∨
          Consumed rest ∨ s.obj.isSignaled = true) ∧
        ∀ p t, s₁.place p = .waiting t → Stays p rest → s.kernel.Ready p) := by
  obtain ⟨s₁, hs₁, hco₁, h₁⟩ := exec_refines pre
  obtain ⟨s, hs, -, h⟩ := exec_refines (pre ++ e :: post)
  refine ⟨s₁, s, hs₁, hs, fun hon p t hp => ?_, fun hsignals => ?_⟩
  · by_contra hnot
    exact Latch.run_settled h hon p (blocked_iff_place.mpr ⟨⟨t, hp⟩, hnot⟩)
  -- the record of the signal, and what has been recorded since
  have hrun : run Event.step s₁ (e :: post) = some s :=
    (run_append_of_eq_some (e :: post) hs₁).symm.trans hs
  rw [run_cons, Option.bind_eq_some_iff] at hrun
  obtain ⟨s₂, hs₂, hpost⟩ := hrun
  obtain ⟨r, hlog₂, hr⟩ := hsignals.log hco₁ hs₂
  obtain ⟨rest, hlog⟩ := run_log hpost
  rw [hlog₂, List.append_assoc, List.singleton_append] at hlog
  obtain ⟨hflag, hwaits⟩ := h₁.signal_kept h hlog hr
  refine ⟨r, rest, hlog, ?_, fun p t hp hstays => ?_⟩
  · rcases hflag with ⟨p, hp⟩ | hflag
    · obtain ⟨⟨t, ht⟩, hnot⟩ := blocked_iff_place.mp hp
      exact Or.inl ⟨p, t, ht, hnot⟩
    · exact Or.inr hflag
  · have hpresent : waiter s₁ p ≠ .absent := by
      by_cases hready : s₁.kernel.Ready p
      · rw [waiter_of_ready hp hready]
        exact nofun
      · rw [waiter_of_not_ready hp hready]
        exact nofun
    obtain ⟨b, hb⟩ := hwaits p hpresent hstays
    exact ready_of_released hb

/-- No wait outlasts its timeout: when the timer has ticked often enough, the
process is ready. -/
theorem wait_expires (es : List (Event service)) :
    ∃ s, System.exec TEventFlag.init es = some s ∧
      ∀ p t pre post, s.log = pre ++ .blocked p t :: post → Stays p post →
        t ≠ 0 → t.toNat ≤ post.count .tick → s.kernel.Ready p := by
  obtain ⟨s, hs, -, h⟩ := exec_refines es
  refine ⟨s, hs, fun p t pre post hlog hstays hne hle => ?_⟩
  have hsplit : s.log = pre ++ .blocked p t :: (post ++ []) := by
    rw [List.append_nil]
    exact hlog
  obtain ⟨a, hwaited, hrun⟩ := h.waited hsplit hstays
  obtain rfl := Option.some.inj hrun
  have hpos : t.toNat ≠ 0 := fun heq => hne (UInt16.toNat_inj.mp heq)
  by_contra hnot
  have hwaits : ∃ u, s.place p = .waiting u := by
    by_contra hnone
    exact hwaited.present (waiter_of_absent fun u hu => hnone ⟨u, hu⟩)
  obtain ⟨u, hu⟩ := hwaits
  have hblocked := hwaited.blocked _ (waiter_of_not_ready hu hnot)
  rw [if_neg hpos, count_tick] at hblocked
  omega

/-- What `wait` answers to a process that was blocked: `true` only after a
signal, and `false` only when the timeout has run out or another process has
ended the wait. -/
theorem wait_answers (es : List (Event service)) :
    ∃ s, System.exec TEventFlag.init es = some s ∧
      ∀ p t u b pre post rest,
        s.log = pre ++ .blocked p t :: (post ++ .returned p u (some b) :: rest) →
        Stays p post →
        (b = true → Signalled post) ∧
        (b = false → Woken p post ∨ (t ≠ 0 ∧ t.toNat ≤ post.count .tick)) := by
  obtain ⟨s, hs, -, h⟩ := exec_refines es
  refine ⟨s, hs, fun p t u b pre post rest hlog hstays => ?_⟩
  obtain ⟨a, hwaited, hrun⟩ := h.waited hlog hstays
  rw [List.map_cons, run_cons, Option.bind_eq_some_iff] at hrun
  obtain ⟨a', hleave, -⟩ := hrun
  have hreleased : a.waiter p = .released b := (Latch.step_eq_some hleave).1
  rw [hreleased] at hwaited
  constructor
  · rintro rfl
    obtain ⟨r, hr, heq⟩ := List.mem_map.mp (hwaited.signalled rfl)
    exact ⟨r, hr, heq⟩
  · rintro rfl
    by_cases hwoken : Woken p post
    · exact Or.inl hwoken
    · obtain ⟨hpos, hle⟩ := hwaited.expired rfl (unwoken_map hwoken)
      rw [count_tick] at hle
      refine Or.inr ⟨?_, hle⟩
      rintro rfl
      exact absurd hpos (by simp)

end TEventFlag

end EBLmon.Os
