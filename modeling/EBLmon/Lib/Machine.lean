import Mathlib.Data.List.Basic
import Mathlib.Data.List.Induction

/-!
# Partial machines

A partial machine is a step function into `Option`.  The answer `none` is a
step with no defined result: an access outside an array, for example.  `run`
feeds a list of inputs and is undefined as soon as one step is.

The rules of this module carry a fact about one step to a fact about every
run:

* `run_append` and `run_concat` cut a run at any point;
* `run_preserves` is the invariant rule for runs that are known to be
  defined;
* `run_history` is the invariant rule for a relation between the state and
  the inputs so far.  It also proves that the run is defined;
* `run_guarded` is the invariant rule for runs whose inputs are admitted by a
  guard in the state that they meet.  It also proves that the run is defined;
* `of_eq_some` turns what such a rule says of some result into a fact about
  the result at hand.

`runCount` counts the inputs of a run that meet a state of some kind.

`load` and `store` are the checked accesses to a fixed array that such step
functions use.
-/

namespace EBLmon.Machine

variable {σ α : Type}

/-- Feed the inputs one by one. -/
def run (step : σ → α → Option σ) : σ → List α → Option σ
  | s, [] => some s
  | s, a :: as => (step s a).bind fun s' => run step s' as

variable {step : σ → α → Option σ}

@[simp] theorem run_nil (s : σ) : run step s [] = some s := rfl

@[simp] theorem run_cons (s : σ) (a : α) (as : List α) :
    run step s (a :: as) = (step s a).bind fun s' => run step s' as := rfl

/-- A run over two lists is the run over the second from where the first
ends. -/
theorem run_append (s : σ) (as bs : List α) :
    run step s (as ++ bs) = (run step s as).bind fun s' => run step s' bs := by
  induction as generalizing s with
  | nil => rfl
  | cons a as ih =>
    rw [List.cons_append, run_cons, run_cons, Option.bind_assoc]
    exact congrArg _ (funext fun s' => ih s')

theorem run_append_of_eq_some {s s' : σ} {as : List α} (bs : List α)
    (h : run step s as = some s') :
    run step s (as ++ bs) = run step s' bs := by
  rw [run_append, h, Option.bind_some]

/-- One more input after a run. -/
theorem run_concat (s : σ) (as : List α) (a : α) :
    run step s (as ++ [a]) = (run step s as).bind fun s' => step s' a := by
  rw [run_append]
  congr 1
  funext s'
  rw [run_cons]
  cases step s' a <;> rfl

theorem run_concat_of_eq_some {s s' : σ} {as : List α} (a : α)
    (h : run step s as = some s') : run step s (as ++ [a]) = step s' a := by
  rw [run_concat, h, Option.bind_some]

/-- The invariant rule for a run that is known to be defined. -/
theorem run_preserves {Inv : σ → Prop}
    (hstep : ∀ s a s', Inv s → step s a = some s' → Inv s')
    {s s' : σ} {as : List α} (hinv : Inv s) (hrun : run step s as = some s') :
    Inv s' := by
  induction as generalizing s with
  | nil =>
    rw [run_nil, Option.some.injEq] at hrun
    exact hrun ▸ hinv
  | cons a as ih =>
    rw [run_cons, Option.bind_eq_some_iff] at hrun
    obtain ⟨s₁, hs₁, hrest⟩ := hrun
    exact ih (hstep s a s₁ hinv hs₁) hrest

/-- The history rule.  The state is related to the list of inputs that led to
it, one more input at a time. -/
theorem run_history {P : σ → List α → Prop}
    (hstep : ∀ s as a, P s as → ∃ s', step s a = some s' ∧ P s' (as ++ [a]))
    {s : σ} (h : P s []) (as : List α) :
    ∃ s', run step s as = some s' ∧ P s' as := by
  induction as using List.reverseRecOn with
  | nil => exact ⟨s, rfl, h⟩
  | append_singleton as a ih =>
    obtain ⟨s₁, hs₁, hP⟩ := ih
    obtain ⟨s', hs', hP'⟩ := hstep s₁ as a hP
    exact ⟨s', by rw [run_concat_of_eq_some a hs₁, hs'], hP'⟩

/-- Every input is admitted in the state that it meets. -/
def Guarded (step : σ → α → Option σ) (G : σ → α → Prop) : σ → List α → Prop
  | _, [] => True
  | s, a :: as => G s a ∧ ∀ s', step s a = some s' → Guarded step G s' as

/-- The invariant rule for a run with a guard. -/
theorem run_guarded {G : σ → α → Prop} {P : σ → Prop}
    (hstep : ∀ s a, P s → G s a → ∃ s', step s a = some s' ∧ P s')
    {s : σ} (h : P s) {as : List α} (hguard : Guarded step G s as) :
    ∃ s', run step s as = some s' ∧ P s' := by
  induction as generalizing s with
  | nil => exact ⟨s, rfl, h⟩
  | cons a as ih =>
    obtain ⟨s₁, hs₁, h₁⟩ := hstep s a h hguard.1
    obtain ⟨s', hrun, h'⟩ := ih h₁ (hguard.2 s₁ hs₁)
    exact ⟨s', by rw [run_cons, hs₁, Option.bind_some, hrun], h'⟩

/-- A guard that admits everything. -/
theorem guarded_of_forall {G : σ → α → Prop} (h : ∀ s a, G s a) (s : σ)
    (as : List α) : Guarded step G s as := by
  induction as generalizing s with
  | nil => trivial
  | cons a as ih => exact ⟨h s a, fun s' _ => ih s'⟩

/-- A run has one result. -/
theorem of_eq_some {o : Option σ} {P : σ → Prop} {s : σ}
    (h : ∃ s', o = some s' ∧ P s') (hs : o = some s) : P s := by
  obtain ⟨s', hs', hP⟩ := h
  rw [hs, Option.some.injEq] at hs'
  exact hs' ▸ hP

/-- The number of inputs of a run that come in a state with `P`. -/
def runCount (step : σ → α → Option σ) (P : σ → α → Prop)
    [∀ s a, Decidable (P s a)] : σ → List α → ℕ
  | _, [] => 0
  | s, a :: as =>
    (if P s a then 1 else 0)
      + (step s a).elim 0 fun s' => runCount step P s' as

/-- A place in a run that is one input longer: the last input, or a place in
the run before it. -/
theorem concat_eq_split_iff {as pre post : List α} {a b : α} :
    as ++ [a] = pre ++ b :: post ↔
      (as = pre ∧ a = b ∧ post = []) ∨
        ∃ post', as = pre ++ b :: post' ∧ post = post' ++ [a] := by
  constructor
  · intro h
    rcases List.eq_nil_or_concat post with rfl | ⟨post', c, rfl⟩
    · obtain ⟨hpre, hab⟩ := List.append_inj' h rfl
      exact Or.inl ⟨hpre, by simpa using hab, rfl⟩
    · rw [List.concat_eq_append] at h ⊢
      rw [← List.cons_append, ← List.append_assoc] at h
      obtain ⟨hpre, hac⟩ := List.append_inj' h rfl
      exact Or.inr ⟨post', hpre, by rw [hac]⟩
  · rintro (⟨rfl, rfl, rfl⟩ | ⟨post', rfl, rfl⟩)
    · rfl
    · rw [List.append_assoc, List.cons_append]

/-! ## Checked array access -/

/-- Read a cell.  There is no result outside the array. -/
def load {n : Nat} (v : Vector α n) (i : Nat) : Option α :=
  if h : i < n then some v[i] else none

/-- Write a cell.  There is no result outside the array. -/
def store {n : Nat} (v : Vector α n) (i : Nat) (x : α) :
    Option (Vector α n) :=
  if h : i < n then some (v.set i x h) else none

theorem load_of_lt {n : Nat} (v : Vector α n) {i : Nat} (h : i < n) :
    load v i = some v[i] := by
  rw [load, dif_pos h]

theorem store_of_lt {n : Nat} (v : Vector α n) {i : Nat} (x : α) (h : i < n) :
    store v i x = some (v.set i x h) := by
  rw [store, dif_pos h]

end EBLmon.Machine
