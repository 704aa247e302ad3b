import EBLmon.Lib.Machine
import Mathlib.Data.List.Count
import Mathlib.Logic.Function.Basic

/-!
# Latches with timed waits

A latch is on or off.  A process that waits for it takes a latch that is on and
turns it off, and is blocked by one that is off.  A signal releases all blocked
processes, and turns the latch on when there are none.

A wait has a timeout, in ticks of a clock.  It counts down while the process is
blocked and releases the process when it comes to zero, with the answer
`false`.  A timeout of zero from the start means to wait for ever.

`step` says which actions a latch allows.

* `run_settled`: nobody is blocked while the latch is on.
* `run_on`, `run_released`: what a signal has done stays until the latch is taken
  or cleared, or the process returns.
* `run_waited`: how long a process is blocked, and what has released it.
-/

namespace EBLmon.Latch

open Machine

/-- What a process has to do with the latch. -/
inductive Waiter where
  | absent
  | blocked (t : ℕ)
  | released (answer : Bool)
  deriving DecidableEq, Repr

namespace Waiter

def signal : Waiter → Waiter
  | blocked _ => released true
  | w => w

/-- A tick of the clock. -/
def tick : Waiter → Waiter
  | blocked 1 => released false
  | blocked t => blocked (t - 1)
  | w => w

/-- The end of a wait that has a timeout. -/
def wake : Waiter → Waiter
  | blocked 0 => blocked 0
  | blocked (_ + 1) => released false
  | w => w

/-- The end of any wait. -/
def force : Waiter → Waiter
  | blocked _ => released false
  | w => w

end Waiter

/-- A latch and the processes. -/
structure State (P : Type) where
  on : Bool
  waiter : P → Waiter

/-- The process is blocked. -/
def Blocked {P : Type} (s : State P) (p : P) : Prop := ∃ t, s.waiter p = .blocked t

/-- `take` is a wait that returns at once, and `leave` the return of one that
was blocked.  Both carry the answer, and so does `look`. -/
inductive Action (P : Type) where
  | take (p : P) (answer : Bool)
  | block (p : P) (t : ℕ)
  | leave (p : P) (answer : Bool)
  | signal
  | clear
  | look (answer : Bool)
  | tick
  | wake (p : P)
  | force (p : P)
  deriving DecidableEq, Repr

/-- The process does not return from its wait. -/
def Stays {P : Type} (p : P) (as : List (Action P)) : Prop :=
  ∀ answer, Action.leave p answer ∉ as

/-- Nobody else ends the wait of the process. -/
def Unwoken {P : Type} (p : P) (as : List (Action P)) : Prop :=
  Action.wake p ∉ as ∧ Action.force p ∉ as

theorem Unwoken.of_concat {P : Type} {p : P} {as : List (Action P)} {a : Action P}
    (h : Unwoken p (as ++ [a])) : Unwoken p as :=
  ⟨fun hmem => h.1 (List.mem_append_left _ hmem),
    fun hmem => h.2 (List.mem_append_left _ hmem)⟩

/-- Nobody waits, and the latch is off. -/
def init {P : Type} : State P := ⟨false, fun _ => .absent⟩

variable {P : Type} [DecidableEq P]

namespace Action

/-- What an action does to one process. -/
def onWaiter (p : P) : Action P → Waiter → Waiter
  | take _ _, w => w
  | block q t, w => if p = q then .blocked t else w
  | leave q _, w => if p = q then .absent else w
  | signal, w => w.signal
  | clear, w => w
  | look _, w => w
  | tick, w => w.tick
  | wake q, w => if p = q then w.wake else w
  | force q, w => if p = q then w.force else w

/-- When a latch allows an action. -/
def Allowed (s : State P) : Action P → Prop
  | take p answer => s.on = true ∧ s.waiter p = .absent ∧ answer = true
  | block p _ => s.on = false ∧ s.waiter p = .absent
  | leave p answer => s.waiter p = .released answer
  | look answer => answer = s.on
  | signal | clear | tick | wake _ | force _ => True

open Classical in
/-- Whether the latch is on after an action. -/
noncomputable def onAfter (s : State P) : Action P → Bool
  | take _ _ | clear => false
  | signal => decide (s.on = true ∨ ∀ p, ¬ Blocked s p)
  | block _ _ | leave _ _ | look _ | tick | wake _ | force _ => s.on

theorem onAfter_signal_iff {P : Type} (s : State P) :
    (signal : Action P).onAfter s = true ↔ s.on = true ∨ ∀ p, ¬ Blocked s p := by
  simp [onAfter]

end Action

open Classical in
/-- The state after an action, if the latch allows the action. -/
noncomputable def step (s : State P) (a : Action P) : Option (State P) :=
  if a.Allowed s then some ⟨a.onAfter s, fun p => a.onWaiter p (s.waiter p)⟩
  else none

theorem step_of_allowed {s : State P} {a : Action P} (h : a.Allowed s) :
    step s a = some ⟨a.onAfter s, fun p => a.onWaiter p (s.waiter p)⟩ := if_pos h

theorem step_eq_some {s s' : State P} {a : Action P} (h : step s a = some s') :
    a.Allowed s ∧ s'.on = a.onAfter s ∧
      ∀ p, s'.waiter p = a.onWaiter p (s.waiter p) := by
  simp only [step, Option.ite_none_right_eq_some, Option.some.injEq] at h
  obtain ⟨hallowed, rfl⟩ := h
  exact ⟨hallowed, rfl, fun _ => rfl⟩

/-! ## Signals -/

/-- Nobody is blocked while the latch is on. -/
def Settled (s : State P) : Prop := s.on = true → ∀ p, ¬ Blocked s p

/-- A process that an action leaves blocked was blocked before, or blocks
now. -/
theorem blocked_of_onWaiter {a : Action P} {p : P} {w : Waiter} {t : ℕ}
    (h : a.onWaiter p w = .blocked t) :
    a = .block p t ∨ (a ≠ .signal ∧ ∃ u, w = .blocked u) := by
  cases a with
  | take | clear | look => exact Or.inr ⟨by simp, t, h⟩
  | block q u =>
    simp only [Action.onWaiter] at h
    split at h
    · next hq =>
      rw [Waiter.blocked.injEq] at h
      exact Or.inl (by rw [hq, h])
    · exact Or.inr ⟨by simp, t, h⟩
  | leave q answer =>
    simp only [Action.onWaiter] at h
    split at h
    · cases h
    · exact Or.inr ⟨by simp, t, h⟩
  | signal => cases w <;> cases h
  | tick =>
    refine Or.inr ⟨by simp, ?_⟩
    cases w with
    | blocked u => exact ⟨u, rfl⟩
    | absent | released => cases h
  | wake q =>
    refine Or.inr ⟨by simp, ?_⟩
    simp only [Action.onWaiter] at h
    split at h
    · cases w with
      | blocked u => exact ⟨u, rfl⟩
      | absent | released => cases h
    · exact ⟨t, h⟩
  | force q =>
    refine Or.inr ⟨by simp, ?_⟩
    simp only [Action.onWaiter] at h
    split at h
    · cases w with
      | blocked u => exact ⟨u, rfl⟩
      | absent | released => cases h
    · exact ⟨t, h⟩

theorem step_settled {s s' : State P} {a : Action P} (h : Settled s)
    (hstep : step s a = some s') : Settled s' := by
  obtain ⟨hallowed, hon, hwaiter⟩ := step_eq_some hstep
  intro hon' p hp
  obtain ⟨t, ht⟩ := hp
  rw [hwaiter] at ht
  rw [hon] at hon'
  rcases blocked_of_onWaiter ht with rfl | ⟨hne, hold⟩
  · rw [Action.onAfter, hallowed.1] at hon'
    cases hon'
  · have hoff : s.on = true → False := fun hs => h hs p hold
    cases a with
    | take | clear => cases hon'
    | signal => exact hne rfl
    | block | leave | look | tick | wake | force => exact hoff hon'

theorem run_settled {s : State P} {as : List (Action P)}
    (h : run step init as = some s) : Settled s := by
  refine run_preserves (fun _ _ _ => step_settled) ?_ h
  intro hon
  cases hon

/-- No process takes the latch, and it is not cleared. -/
def Untaken (as : List (Action P)) : Prop :=
  Action.clear ∉ as ∧ ∀ p answer, Action.take p answer ∉ as

/-- A latch that is on stays on. -/
theorem run_on {s s' : State P} {as : List (Action P)} (hon : s.on = true)
    (has : Untaken as) (hrun : run step s as = some s') : s'.on = true := by
  induction as generalizing s with
  | nil =>
    obtain rfl := Option.some.inj hrun
    exact hon
  | cons a as ih =>
    rw [run_cons, Option.bind_eq_some_iff] at hrun
    obtain ⟨s₁, hs₁, hrest⟩ := hrun
    obtain ⟨-, hafter, -⟩ := step_eq_some hs₁
    refine ih ?_ ⟨fun hmem => has.1 (List.mem_cons_of_mem a hmem),
      fun p answer hmem => has.2 p answer (List.mem_cons_of_mem a hmem)⟩ hrest
    rw [hafter]
    cases a with
    | take p answer => exact absurd List.mem_cons_self (has.2 p answer)
    | clear => exact absurd List.mem_cons_self has.1
    | signal => exact (Action.onAfter_signal_iff s).mpr (Or.inl hon)
    | block | leave | look | tick | wake | force => exact hon

/-- A process that has been released stays so until it returns. -/
theorem step_released {s s' : State P} {a : Action P} {p : P} {answer : Bool}
    (hw : s.waiter p = .released answer) (hleave : ∀ b, a ≠ .leave p b)
    (hstep : step s a = some s') : s'.waiter p = .released answer := by
  obtain ⟨hallowed, -, hwaiter⟩ := step_eq_some hstep
  rw [hwaiter, hw]
  cases a with
  | take | clear | look | signal | tick => rfl
  | block q t =>
    have hne : p ≠ q := by
      rintro rfl
      rw [hallowed.2] at hw
      cases hw
    exact if_neg hne
  | leave q b =>
    have hne : p ≠ q := by
      rintro rfl
      exact hleave b rfl
    exact if_neg hne
  | wake q | force q => exact ite_self _

theorem run_released {s s' : State P} {as : List (Action P)} {p : P} {answer : Bool}
    (hw : s.waiter p = .released answer) (hstays : Stays p as)
    (hrun : run step s as = some s') : s'.waiter p = .released answer := by
  induction as generalizing s with
  | nil =>
    obtain rfl := Option.some.inj hrun
    exact hw
  | cons a as ih =>
    rw [run_cons, Option.bind_eq_some_iff] at hrun
    obtain ⟨s₁, hs₁, hrest⟩ := hrun
    refine ih (step_released hw (fun b heq => hstays b ?_) hs₁)
      (fun b hmem => hstays b (List.mem_cons_of_mem a hmem)) hrest
    rw [heq]
    exact List.mem_cons_self

/-! ## Timeouts -/

section Timeouts

variable {p : P} {t : ℕ} {as : List (Action P)} {w : Waiter}

/-- A process that was blocked with the timeout `t` before the actions `as`:
its timeout has counted down, or a tick or a signal has released it. -/
structure Waited (p : P) (t : ℕ) (as : List (Action P)) (w : Waiter) : Prop where
  present : w ≠ .absent
  blocked : ∀ u, w = .blocked u →
    if t = 0 then u = 0 else 0 < u ∧ u + as.count .tick = t
  expired : w = .released false → Unwoken p as → 0 < t ∧ t ≤ as.count .tick
  signalled : w = .released true → Action.signal ∈ as

theorem Waited.start (p : P) (t : ℕ) : Waited p t [] (.blocked t) where
  present := by simp
  blocked := by
    intro u hu
    rw [Waiter.blocked.injEq] at hu
    subst hu
    split
    · assumption
    · simp
      omega
  expired := by simp
  signalled := by simp

/-- An action that does nothing to the process. -/
theorem Waited.same (h : Waited p t as w) {a : Action P} (ha : a ≠ .tick) :
    Waited p t (as ++ [a]) w where
  present := h.present
  blocked := by
    have hcount : (as ++ [a]).count .tick = as.count .tick := by
      rw [List.count_append, List.count_singleton]
      simp [ha]
    rw [hcount]
    exact h.blocked
  expired := by
    intro hw hun
    obtain ⟨hpos, hle⟩ := h.expired hw hun.of_concat
    rw [List.count_append]
    omega
  signalled := fun hw => List.mem_append_left _ (h.signalled hw)

theorem Waited.tick (h : Waited p t as w) :
    Waited p t (as ++ [.tick]) w.tick := by
  have hcount : (as ++ [Action.tick]).count Action.tick = as.count .tick + 1 := by
    rw [List.count_append, List.count_singleton_self]
  cases w with
  | absent => exact absurd rfl h.present
  | released answer =>
    refine ⟨by simp [Waiter.tick], by simp [Waiter.tick], fun hw hun => ?_,
      fun hw => ?_⟩
    · obtain ⟨hpos, hle⟩ := h.expired hw hun.of_concat
      omega
    · exact List.mem_append_left _ (h.signalled hw)
  | blocked u =>
    have hold := h.blocked u rfl
    by_cases hone : u = 1
    · subst hone
      split at hold
      · cases hold
      · refine ⟨by simp [Waiter.tick], by simp [Waiter.tick], fun _ _ => ?_,
          by simp [Waiter.tick]⟩
        omega
    · have htick : (Waiter.blocked u).tick = .blocked (u - 1) := by
        unfold Waiter.tick
        split <;> simp_all
      rw [htick]
      refine ⟨by simp, fun v hv => ?_, by simp, by simp⟩
      rw [Waiter.blocked.injEq] at hv
      split at hold
      · rw [if_pos (by assumption)]
        omega
      · rw [if_neg (by assumption)]
        omega

/-- An action that may end the wait of the process, with the answer `false`. -/
theorem Waited.ended (h : Waited p t as w) {a : Action P} {f : Waiter → Waiter}
    (ha : a ≠ .tick) (hend : ¬ Unwoken p (as ++ [a]))
    (hblocked : ∀ u, f (.blocked u) = .blocked u ∨ f (.blocked u) = .released false)
    (hreleased : ∀ answer, f (.released answer) = .released answer) :
    Waited p t (as ++ [a]) (f w) := by
  cases w with
  | absent => exact absurd rfl h.present
  | released answer =>
    rw [hreleased]
    exact h.same ha
  | blocked u =>
    rcases hblocked u with heq | heq
    · rw [heq]
      exact h.same ha
    · rw [heq]
      exact ⟨by simp, by simp, fun _ hun => absurd hun hend, by simp⟩

/-- One more action. -/
theorem Waited.step {s s' : State P} {a : Action P} (h : Waited p t as (s.waiter p))
    (hleave : ∀ answer, a ≠ .leave p answer) (hstep : Latch.step s a = some s') :
    Waited p t (as ++ [a]) (s'.waiter p) := by
  obtain ⟨hallowed, -, hwaiter⟩ := step_eq_some hstep
  rw [hwaiter]
  have hlast : a ∈ as ++ [a] := by simp
  cases a with
  | take | clear | look => exact h.same (by simp)
  | block q u =>
    have hne : p ≠ q := by
      rintro rfl
      exact h.present hallowed.2
    simp only [Action.onWaiter, if_neg hne]
    exact h.same (by simp)
  | leave q answer =>
    have hne : p ≠ q := by
      rintro rfl
      exact hleave answer rfl
    simp only [Action.onWaiter, if_neg hne]
    exact h.same (by simp)
  | tick => exact h.tick
  | signal =>
    cases hw : s.waiter p with
    | absent => exact absurd hw h.present
    | released answer =>
      rw [hw] at h
      exact h.same (by simp)
    | blocked u =>
      simp only [Action.onWaiter, Waiter.signal]
      exact ⟨by simp, by simp, by simp, fun _ => hlast⟩
  | wake q =>
    by_cases hq : p = q
    · subst hq
      simp only [Action.onWaiter, if_true]
      refine h.ended (by simp) (fun hun => hun.1 hlast) (fun u => ?_) fun _ => rfl
      cases u with
      | zero => exact Or.inl rfl
      | succ u => exact Or.inr rfl
    · simp only [Action.onWaiter, if_neg hq]
      exact h.same (by simp)
  | force q =>
    by_cases hq : p = q
    · subst hq
      simp only [Action.onWaiter, if_true]
      exact h.ended (by simp) (fun hun => hun.2 hlast) (fun _ => Or.inr rfl) fun _ => rfl
    · simp only [Action.onWaiter, if_neg hq]
      exact h.same (by simp)

/-- A wait over any actions. -/
theorem run_waited {s s' : State P} (hs : s.waiter p = .blocked t)
    (hstays : Stays p as) (hrun : run Latch.step s as = some s') :
    Waited p t as (s'.waiter p) := by
  induction as using List.reverseRecOn generalizing s' with
  | nil =>
    rw [run_nil, Option.some.injEq] at hrun
    rw [← hrun, hs]
    exact Waited.start p t
  | append_singleton as a ih =>
    rw [run_concat, Option.bind_eq_some_iff] at hrun
    obtain ⟨s₁, hs₁, hstep⟩ := hrun
    refine (ih (fun answer hmem => hstays answer ?_) hs₁).step
      (fun answer heq => ?_) hstep
    · exact List.mem_append_left _ hmem
    · exact hstays answer (by simp [heq])

end Timeouts

end EBLmon.Latch
