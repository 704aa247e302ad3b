import EBLmon.Lib.RingBuffer
import Mathlib.Data.List.Forall2

/-!
# Deques in a ring

A ring buffer that counts its elements can use all of its cells.  `Arc` is its
pair of indices: the queue starts at `first` and has `count` elements.  Such a
queue grows and shrinks at both ends.

`Arc.contents` reads the queue out of the cells.  There is one theorem for each
of the four index updates, wherever the indices stand and however they wrap,
and `Arc.getElem_contents` says where an element lies.

The second part is the queue alone: `Deque.step` is a deque with a bound, and
`Deque.exec` its run.  A pop from an empty deque has no answer of its own, so an
implementation may answer anything there (`Deque.Agrees`).
-/

namespace EBLmon.RingBuffer

variable {α : Type}

/-! ## Indices -/

/-- The indices of a ring with a count. -/
structure Arc (size : ℕ) where
  first : ℕ
  count : ℕ
  first_lt : first < size
  count_le : count ≤ size

namespace Arc

variable {size : ℕ} (a : Arc size)

/-- The cell behind the last element. -/
def last : ℕ := wrap size (a.first + a.count)

/-- The cell before an index. -/
def before (size i : ℕ) : ℕ := if i = 0 then size - 1 else i - 1

theorem last_lt : a.last < size := by
  have h1 := a.first_lt
  have h2 := a.count_le
  exact wrap_lt (by omega)

theorem before_lt {i : ℕ} (h : i < size) : before size i < size := by
  unfold before
  split <;> omega

/-- One more element at the end. -/
def pushBack (h : a.count < size) : Arc size where
  first := a.first
  count := a.count + 1
  first_lt := a.first_lt
  count_le := h

/-- One more element at the start. -/
def pushFront (h : a.count < size) : Arc size where
  first := before size a.first
  count := a.count + 1
  first_lt := before_lt a.first_lt
  count_le := h

/-- One element less at the start. -/
def popFront : Arc size where
  first := wrap size (a.first + 1)
  count := a.count - 1
  first_lt := wrap_lt (by have := a.first_lt; omega)
  count_le := by have := a.count_le; omega

/-- One element less at the end. -/
def popBack : Arc size where
  first := a.first
  count := a.count - 1
  first_lt := a.first_lt
  count_le := by have := a.count_le; omega

theorem last_pushBack (h : a.count < size) :
    (a.pushBack h).last = wrap size (a.last + 1) := by
  have h1 := a.first_lt
  unfold last pushBack wrap
  dsimp only
  split_ifs <;> omega

theorem last_pushFront (h : a.count < size) :
    (a.pushFront h).last = a.last := by
  have h1 := a.first_lt
  unfold last pushFront before wrap
  dsimp only
  split_ifs <;> omega

theorem last_popFront (h : 0 < a.count) : a.popFront.last = a.last := by
  have h1 := a.first_lt
  have h2 := a.count_le
  unfold last popFront wrap
  dsimp only
  split_ifs <;> omega

theorem last_popBack (h : 0 < a.count) :
    a.popBack.last = before size a.last := by
  have h1 := a.first_lt
  have h2 := a.count_le
  unfold last popBack before wrap
  dsimp only
  split_ifs <;> omega

/-! ## Contents -/

/-- The queue that the cells hold. -/
def contents (cells : ℕ → α) : List α :=
  (List.range a.count).map fun i => cells (wrap size (a.first + i))

@[simp] theorem length_contents (cells : ℕ → α) :
    (a.contents cells).length = a.count := by
  simp [contents]

/-- Where an element lies. -/
theorem getElem_contents (cells : ℕ → α) {i : ℕ}
    (h : i < (a.contents cells).length) :
    (a.contents cells)[i] = cells (wrap size (a.first + i)) := by
  simp [contents]

/-- Two elements of the queue lie in two cells, and so does the free cell. -/
theorem wrap_inj {i j : ℕ} (hi : i < size) (hj : j < size)
    (h : wrap size (a.first + i) = wrap size (a.first + j)) : i = j := by
  have h1 := a.first_lt
  unfold wrap at h
  split_ifs at h <;> omega

/-- A new element in the free cell comes in at the end. -/
theorem contents_pushBack (cells : ℕ → α) (x : α) (h : a.count < size) :
    (a.pushBack h).contents (Function.update cells a.last x)
      = a.contents cells ++ [x] := by
  show (List.range (a.count + 1)).map _ = _
  rw [List.range_succ, List.map_append, List.map_singleton]
  have hold : ∀ i ∈ List.range a.count,
      Function.update cells a.last x (wrap size (a.first + i))
        = cells (wrap size (a.first + i)) := by
    intro i hi
    have hi' := List.mem_range.mp hi
    apply Function.update_of_ne
    intro heq
    have := a.wrap_inj (by omega) h heq
    omega
  exact congrArg₂ _ (List.map_congr_left hold)
    (congrArg (fun y => [y]) (Function.update_self a.last x cells))

/-- A new element in the cell before the first comes in at the start. -/
theorem contents_pushFront (cells : ℕ → α) (x : α) (h : a.count < size) :
    (a.pushFront h).contents
        (Function.update cells (before size a.first) x)
      = x :: a.contents cells := by
  have h1 := a.first_lt
  have hbefore := before_lt h1
  show (List.range (a.count + 1)).map _ = _
  rw [List.range_succ_eq_map, List.map_cons, List.map_map]
  have hfirst : wrap size ((a.pushFront h).first + 0) = before size a.first := by
    exact if_pos hbefore
  have hnext : ∀ i < a.count, wrap size ((a.pushFront h).first + (i + 1))
      = wrap size (a.first + i) := by
    intro i hi
    unfold pushFront before wrap
    dsimp only
    split_ifs <;> omega
  have hold : ∀ i ∈ List.range a.count,
      Function.update cells (before size a.first) x
          (wrap size ((a.pushFront h).first + (i + 1)))
        = cells (wrap size (a.first + i)) := by
    intro i hi
    have hi' := List.mem_range.mp hi
    rw [hnext i hi']
    apply Function.update_of_ne
    unfold before wrap
    split_ifs <;> omega
  refine congrArg₂ _ ?_ (List.map_congr_left hold)
  rw [hfirst, Function.update_self]

/-- The element at `first` is the first of the queue. -/
theorem contents_popFront (cells : ℕ → α) (h : 0 < a.count) :
    a.contents cells = cells a.first :: a.popFront.contents cells := by
  have h1 := a.first_lt
  have hcount : a.count = a.popFront.count + 1 := by
    show a.count = a.count - 1 + 1
    omega
  unfold contents
  rw [hcount, List.range_succ_eq_map, List.map_cons, List.map_map]
  have hnext : ∀ i ∈ List.range a.popFront.count,
      cells (wrap size (a.first + (i + 1)))
        = cells (wrap size (a.popFront.first + i)) := by
    intro i hi
    have hi' := List.mem_range.mp hi
    have h2 := a.count_le
    congr 1
    unfold popFront wrap
    dsimp only
    split_ifs <;> omega
  refine congrArg₂ _ ?_ (List.map_congr_left hnext)
  rw [wrap, Nat.add_zero, if_pos h1]

/-- The element before `last` is the last of the queue. -/
theorem contents_popBack (cells : ℕ → α) (h : 0 < a.count) :
    a.contents cells = a.popBack.contents cells ++ [cells a.popBack.last] := by
  have hcount : a.count = a.popBack.count + 1 := by
    show a.count = a.count - 1 + 1
    omega
  unfold contents
  rw [hcount, List.range_succ, List.map_append, List.map_singleton]
  rfl

end Arc

end EBLmon.RingBuffer

/-! ## Deques with a bound -/

namespace EBLmon.Deque

variable {α : Type}

/-- The operations of a deque. -/
inductive Op (α : Type) where
  | pushBack (x : α)
  | pushFront (x : α)
  | popFront
  | popBack
  | write (xs : List α)
  | read (n : ℕ)
  | flush
  | getCount
  | getFreeSize
  deriving DecidableEq, Repr

/-- What an operation answers. -/
inductive Answer (α : Type) where
  | done
  | flag (b : Bool)
  | item (x : α)
  | items (xs : List α)
  | size (n : ℕ)
  deriving DecidableEq, Repr

/-- One operation of a deque with `cap` places: the deque and the answer.
`write` is all or nothing, and `read` takes what there is. -/
def step (cap : ℕ) (q : List α) : Op α → List α × Option (Answer α)
  | .pushBack x =>
    if q.length < cap then (q ++ [x], some (.flag true))
    else (q, some (.flag false))
  | .pushFront x =>
    if q.length < cap then (x :: q, some (.flag true))
    else (q, some (.flag false))
  | .popFront =>
    match q with
    | [] => ([], none)
    | x :: q => (q, some (.item x))
  | .popBack => (q.dropLast, q.getLast?.map .item)
  | .write xs =>
    if q.length + xs.length ≤ cap then (q ++ xs, some (.flag true))
    else (q, some (.flag false))
  | .read n => (q.drop n, some (.items (q.take n)))
  | .flush => ([], some .done)
  | .getCount => (q, some (.size q.length))
  | .getFreeSize => (q, some (.size (cap - q.length)))

/-- A run from the empty deque: the deque and all answers. -/
def exec (cap : ℕ) (ops : List (Op α)) : List α × List (Option (Answer α)) :=
  ops.foldl
    (fun s op => ((step cap s.1 op).1, s.2 ++ [(step cap s.1 op).2])) ([], [])

theorem exec_concat (cap : ℕ) (ops : List (Op α)) (op : Op α) :
    exec cap (ops ++ [op]) =
      ((step cap (exec cap ops).1 op).1,
        (exec cap ops).2 ++ [(step cap (exec cap ops).1 op).2]) := by
  simp [exec]

/-- An implementation gives the answer that the deque gives. -/
def Agrees : Option (Answer α) → Answer α → Prop
  | none, _ => True
  | some a, b => a = b

end EBLmon.Deque
