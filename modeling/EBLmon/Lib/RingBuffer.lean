import Mathlib.Data.List.Basic
import Mathlib.Logic.Function.Basic
import Mathlib.Tactic.SplitIfs

/-!
# Ring buffers and bounded queues

A ring buffer keeps a queue in the cells `0` to `size - 1`.  `Span` is its
pair of indices: the queue starts at `head` and ends before `tail`.  The ring
is empty when the two meet, so it holds at most `size - 1` elements.

`Span.contents` reads the queue out of the cells.  `Span.contents_push` and
`Span.contents_pop` say what the two index updates do to it, wherever the
indices stand and however they wrap.

The second part is about the queue alone.  A queue with a bound has two ways
to take an element when it is full: `offer` drops the new one, and
`offerNewest` drops the oldest one.  `offer_eq_offerNewest_iff` says when the
difference cannot be seen.
-/

namespace EBLmon.RingBuffer

variable {α : Type}

/-! ## Indices -/

/-- An index below `2 * size`, taken back into the ring. -/
def wrap (size i : ℕ) : ℕ := if i < size then i else i - size

theorem wrap_lt {size i : ℕ} (h : i < 2 * size) : wrap size i < size := by
  unfold wrap
  split <;> omega

theorem wrap_eq_mod {size i : ℕ} (h : i < 2 * size) :
    wrap size i = i % size := by
  unfold wrap
  split
  · rw [Nat.mod_eq_of_lt ‹_›]
  · rw [Nat.mod_eq_sub_mod (by omega), Nat.mod_eq_of_lt (by omega)]

/-- The two indices of a ring. -/
structure Span (size : ℕ) where
  head : ℕ
  tail : ℕ
  head_lt : head < size
  tail_lt : tail < size

namespace Span

variable {size : ℕ} (s : Span size)

/-- The number of elements. -/
def used : ℕ := wrap size (s.tail + size - s.head)

/-- There is no room: one more element would make the ring look empty. -/
def Full : Prop := wrap size (s.tail + 1) = s.head

instance : Decidable s.Full := inferInstanceAs (Decidable (_ = _))

/-- One more element at the end. -/
def push : Span size where
  head := s.head
  tail := wrap size (s.tail + 1)
  head_lt := s.head_lt
  tail_lt := wrap_lt (by have := s.tail_lt; omega)

/-- One element less at the start. -/
def pop : Span size where
  head := wrap size (s.head + 1)
  tail := s.tail
  head_lt := wrap_lt (by have := s.head_lt; omega)
  tail_lt := s.tail_lt

theorem used_lt : s.used < size := by
  have h1 := s.head_lt
  have h2 := s.tail_lt
  exact wrap_lt (by omega)

theorem used_eq_zero_iff : s.used = 0 ↔ s.tail = s.head := by
  have h1 := s.head_lt
  have h2 := s.tail_lt
  unfold used wrap
  split <;> omega

theorem full_iff : s.Full ↔ s.used + 1 = size := by
  have h1 := s.head_lt
  have h2 := s.tail_lt
  unfold Full used wrap
  split <;> split <;> omega

theorem used_push (h : ¬ s.Full) : s.push.used = s.used + 1 := by
  have h1 := s.head_lt
  have h2 := s.tail_lt
  unfold used push
  unfold Full at h
  dsimp only
  unfold wrap at h ⊢
  split_ifs at h ⊢ <;> omega

theorem used_pop (h : s.tail ≠ s.head) : s.used = s.pop.used + 1 := by
  have h1 := s.head_lt
  have h2 := s.tail_lt
  unfold used pop
  dsimp only
  unfold wrap
  split_ifs <;> omega

/-- The queue ends before `tail`. -/
theorem wrap_head_add_used : wrap size (s.head + s.used) = s.tail := by
  have h1 := s.head_lt
  have h2 := s.tail_lt
  unfold used wrap
  split <;> split <;> omega

/-! ## Contents -/

/-- The queue that the cells hold. -/
def contents (cells : ℕ → α) : List α :=
  (List.range s.used).map fun i => cells (wrap size (s.head + i))

@[simp] theorem length_contents (cells : ℕ → α) :
    (s.contents cells).length = s.used := by
  unfold contents
  rw [List.length_map, List.length_range]

theorem contents_eq_nil_iff (cells : ℕ → α) :
    s.contents cells = [] ↔ s.tail = s.head := by
  rw [← List.length_eq_zero_iff, length_contents, used_eq_zero_iff]

/-- An element of the queue does not lie in the free cell. -/
theorem wrap_ne_tail {i : ℕ} (h : i < s.used) :
    wrap size (s.head + i) ≠ s.tail := by
  have h1 := s.head_lt
  have h2 := s.tail_lt
  have h3 := s.used_lt
  have h4 := s.wrap_head_add_used
  unfold wrap at h4 ⊢
  split <;> split at h4 <;> omega

/-- A new element in the free cell comes in at the end of the queue. -/
theorem contents_push (cells : ℕ → α) (x : α)
    (h : ¬ s.Full) :
    s.push.contents (Function.update cells s.tail x)
      = s.contents cells ++ [x] := by
  have hlast : wrap size (s.push.head + s.used) = s.tail :=
    s.wrap_head_add_used
  unfold contents
  rw [s.used_push h, List.range_succ, List.map_append, List.map_singleton,
    hlast, Function.update_self]
  congr 1
  apply List.map_congr_left
  intro i hi
  exact Function.update_of_ne (s.wrap_ne_tail (List.mem_range.mp hi)) x cells

/-- The element at `head` is the first of the queue. -/
theorem contents_pop (cells : ℕ → α) (h : s.tail ≠ s.head) :
    s.contents cells = cells s.head :: s.pop.contents cells := by
  have h1 := s.head_lt
  have h3 := s.used_lt
  have hused := s.used_pop h
  unfold contents
  rw [hused, List.range_succ_eq_map, List.map_cons, List.map_map]
  congr 1
  · rw [wrap, if_pos (by omega), Nat.add_zero]
  · apply List.map_congr_left
    intro i hi
    have hi' := List.mem_range.mp hi
    have hwrap : wrap size (s.head + (i + 1))
        = wrap size (s.pop.head + i) := by
      unfold pop
      dsimp only
      unfold wrap
      split_ifs <;> omega
    exact congrArg cells hwrap

end Span

/-! ## Queues with a bound -/

/-- A full queue drops the new element. -/
def offer (cap : ℕ) (q : List α) (x : α) : List α :=
  if q.length < cap then q ++ [x] else q

/-- A full queue drops its oldest elements: what stays are the last `cap`
ones. -/
def offerNewest (cap : ℕ) (q : List α) (x : α) : List α :=
  (q ++ [x]).drop (q.length + 1 - cap)

/-- A queue is its own rest with `x` behind it when it holds nothing but
`x`. -/
theorem eq_tail_concat_iff {q : List α} (hne : q ≠ []) (x : α) :
    q = q.tail ++ [x] ↔ ∀ y ∈ q, y = x := by
  constructor
  · intro h
    induction q with
    | nil => exact absurd rfl hne
    | cons y q ih =>
      rw [List.tail_cons] at h
      cases q with
      | nil =>
        rw [List.nil_append, List.cons.injEq] at h
        simpa using h.1
      | cons z q =>
        rw [List.cons_append, List.cons.injEq] at h
        have hrest := ih (by simp) h.2
        intro w hw
        rcases List.mem_cons.mp hw with rfl | hw
        · rw [h.1]
          exact hrest z List.mem_cons_self
        · exact hrest w hw
  · intro h
    have hrep : q = List.replicate q.length x := List.eq_replicate_of_mem h
    obtain ⟨n, hn⟩ : ∃ n, q.length = n + 1 :=
      ⟨q.length - 1, by have := List.length_pos_iff.mpr hne; omega⟩
    rw [hn] at hrep
    rw [hrep, List.tail_replicate, Nat.add_sub_cancel,
      ← List.replicate_succ']

/-- The two ways agree below the bound, and for a full queue of equal
elements. -/
theorem offer_eq_offerNewest_iff {cap : ℕ} {q : List α} {x : α}
    (hcap : 0 < cap) (hle : q.length ≤ cap) :
    offer cap q x = offerNewest cap q x ↔
      q.length < cap ∨ ∀ y ∈ q, y = x := by
  unfold offer offerNewest
  by_cases hlt : q.length < cap
  · have hzero : q.length + 1 - cap = 0 := by omega
    rw [if_pos hlt, hzero, List.drop_zero]
    exact iff_of_true rfl (Or.inl hlt)
  · have hone : q.length + 1 - cap = 1 := by omega
    have hne : q ≠ [] := List.ne_nil_of_length_pos (by omega)
    rw [if_neg hlt, hone, List.drop_one, List.tail_append_of_ne_nil hne,
      eq_tail_concat_iff hne, or_iff_right hlt]

end EBLmon.RingBuffer
