import EBLmon.Lib.Deque
import EBLmon.Lib.Machine
import Mathlib.Algebra.Group.Nat.Defs

/-!
# The ring buffer template

`usr::ring_buffer<T, Size, S>` of `src/scmRTOS/Common/usrlib.h`.  `S` is an
unsigned type of `w` bits, and its arithmetic wraps.  An access outside `Buf` is
undefined in the source, so the functions answer `none` there.

`Holds b q` says that the buffer `b` holds the queue `q`.  There is one theorem
for each operation, and `run_is_deque` is about every run: no access is outside
`Buf`, and the answers are those of a deque with `Size` places.

`operator[]` computes `First + index` in `S`.  `at_spec` says which element it
answers when that sum wraps.
-/

namespace EBLmon.Usr

open Machine RingBuffer

/-- `template<typename T, uint16_t Size, typename S> class ring_buffer` -/
structure RingBuffer (T : Type) (Size w : ℕ) where
  count : BitVec w
  first : BitVec w
  last : BitVec w
  buf : Vector T Size
  deriving DecidableEq

namespace RingBuffer

variable {T : Type} {Size w : ℕ}

/-- The constructor.  `Buf` has whatever values the memory has. -/
def init (buf : Vector T Size) : RingBuffer T Size w := ⟨0#w, 0#w, 0#w, buf⟩

/-- `S get_count() const` -/
def getCount (b : RingBuffer T Size w) : BitVec w := b.count

/-- `S get_free_size() const` -/
def getFreeSize (b : RingBuffer T Size w) : BitVec w :=
  BitVec.ofNat w Size - b.count

/-- `void flush()` -/
def flush (b : RingBuffer T Size w) : RingBuffer T Size w :=
  { b with count := 0#w, last := b.first }

/-- `void push_item(const T item)` -/
def pushItem (b : RingBuffer T Size w) (item : T) :
    Option (RingBuffer T Size w) := do
  let buf ← store b.buf b.last.toNat item
  let last := b.last + 1#w
  let count := b.count + 1#w
  some { b with buf, count, last := if last.toNat = Size then 0#w else last }

/-- `void push_item_front(const T item)` -/
def pushItemFront (b : RingBuffer T Size w) (item : T) :
    Option (RingBuffer T Size w) := do
  let first := if b.first = 0#w then BitVec.ofNat w Size - 1#w else b.first - 1#w
  let buf ← store b.buf first.toNat item
  some { b with buf, first, count := b.count + 1#w }

/-- `T pop_item()` -/
def popItem (b : RingBuffer T Size w) : Option (T × RingBuffer T Size w) := do
  let item ← load b.buf b.first.toNat
  let count := b.count - 1#w
  let first := b.first + 1#w
  some (item,
    { b with count, first := if first.toNat = Size then 0#w else first })

/-- `T pop_item_back()` -/
def popItemBack (b : RingBuffer T Size w) :
    Option (T × RingBuffer T Size w) := do
  let last := if b.last = 0#w then BitVec.ofNat w Size - 1#w else b.last - 1#w
  let count := b.count - 1#w
  let item ← load b.buf last.toNat
  some (item, { b with count, last })

/-- `bool push_back(const T item)`, and `push` -/
def pushBack (b : RingBuffer T Size w) (item : T) :
    Option (Bool × RingBuffer T Size w) :=
  if b.count.toNat = Size then some (false, b)
  else (b.pushItem item).map fun b => (true, b)

/-- `bool push_front(const T item)` -/
def pushFront (b : RingBuffer T Size w) (item : T) :
    Option (Bool × RingBuffer T Size w) :=
  if b.count.toNat = Size then some (false, b)
  else (b.pushItemFront item).map fun b => (true, b)

/-- `T pop_front()`, and `pop` -/
def popFront (b : RingBuffer T Size w) : Option (T × RingBuffer T Size w) :=
  if b.count ≠ 0#w then b.popItem
  else (load b.buf b.first.toNat).map fun item => (item, b)

/-- `T pop_back()` -/
def popBack (b : RingBuffer T Size w) : Option (T × RingBuffer T Size w) :=
  if b.count ≠ 0#w then b.popItemBack
  else (load b.buf b.first.toNat).map fun item => (item, b)

/-- The loop of `write`. -/
def pushItems (b : RingBuffer T Size w) : List T → Option (RingBuffer T Size w)
  | [] => some b
  | item :: data => do (← b.pushItem item).pushItems data

/-- The loop of `read`. -/
def popItems (b : RingBuffer T Size w) :
    ℕ → Option (List T × RingBuffer T Size w)
  | 0 => some ([], b)
  | n + 1 => do
    let (item, b) ← b.popItem
    let (data, b) ← b.popItems n
    some (item :: data, b)

/-- `bool write(const T* data, const S cnt)`, where `cnt` is the length of
`data`.  The comparison is one of integers. -/
def write (b : RingBuffer T Size w) (data : List T) :
    Option (Bool × RingBuffer T Size w) :=
  if (data.length : ℤ) > Size - b.count.toNat then some (false, b)
  else (b.pushItems data).map fun b => (true, b)

/-- `void read(T* const data, const S cnt)`: the items that it stores. -/
def read (b : RingBuffer T Size w) (cnt : BitVec w) :
    Option (List T × RingBuffer T Size w) :=
  let nItems := if cnt ≤ b.count then cnt else b.count
  b.popItems nItems.toNat

/-- The index into `Buf` that `operator[]` computes. -/
def index (b : RingBuffer T Size w) (i : BitVec w) : ℕ :=
  let x := b.first + i
  if x.toNat < Size then x.toNat else x.toNat - Size

/-- `T& operator[](const S index)`: the element that the reference refers
to. -/
def «at» (b : RingBuffer T Size w) (i : BitVec w) : Option T :=
  load b.buf (b.index i)

/-! ## The queue in the buffer -/

/-- The cells of the buffer. -/
def cells (b : RingBuffer T Size w) (i : ℕ) : Option T := b.buf[i]?

/-- The buffer `b` holds the queue `q`. -/
structure Holds (b : RingBuffer T Size w) (q : List T) : Prop where
  first_lt : b.first.toNat < Size
  count_le : b.count.toNat ≤ Size
  last : b.last.toNat = wrap Size (b.first.toNat + b.count.toNat)
  queue : Arc.contents ⟨_, _, first_lt, count_le⟩ b.cells = q.map some

section Specs

variable {b : RingBuffer T Size w} {q : List T}

/-- The indices of a buffer that holds a queue. -/
def Holds.arc (h : Holds b q) : Arc Size :=
  ⟨b.first.toNat, b.count.toNat, h.first_lt, h.count_le⟩

theorem Holds.contents (h : Holds b q) :
    h.arc.contents b.cells = q.map some := h.queue

theorem Holds.count (h : Holds b q) : b.count.toNat = q.length := by
  have hlen := congrArg List.length h.contents
  rw [Arc.length_contents, List.length_map] at hlen
  exact hlen

theorem Holds.length_le (h : Holds b q) : q.length ≤ Size := by
  rw [← h.count]
  exact h.count_le

/-- The rule for a new state: its indices, and the queue in its cells. -/
theorem Holds.of_arc {a : Arc Size} {q : List T}
    (hfirst : b.first.toNat = a.first) (hcount : b.count.toNat = a.count)
    (hlast : b.last.toNat = a.last)
    (hqueue : a.contents b.cells = q.map some) : Holds b q := by
  have h1 := a.first_lt
  have h2 := a.count_le
  refine ⟨by omega, by omega, ?_, ?_⟩
  · rw [hlast, hfirst, hcount]
    rfl
  · rw [← hqueue]
    congr

/-- A store changes one cell. -/
theorem cells_set (b : RingBuffer T Size w) (x : T) {n : ℕ} (h : n < Size) :
    (fun i => (b.buf.set n x h)[i]?) = Function.update b.cells n (some x) := by
  funext i
  rw [Function.update_apply, Vector.getElem?_set, cells]
  by_cases hi : n = i
  · rw [if_pos hi, if_pos hi.symm]
  · rw [if_neg hi, if_neg (Ne.symm hi)]

theorem cells_of_lt (b : RingBuffer T Size w) {i : ℕ} (h : i < Size) :
    b.cells i = some b.buf[i] := by
  rw [cells, Vector.getElem?_eq_getElem h]

theorem init_holds (hpos : 0 < Size) (buf : Vector T Size) :
    Holds (init buf : RingBuffer T Size w) [] := by
  refine Holds.of_arc (a := ⟨0, 0, hpos, Nat.zero_le _⟩) rfl rfl ?_ rfl
  show (0 : ℕ) = wrap Size 0
  rw [wrap, if_pos hpos]

theorem flush_holds (h : Holds b q) : Holds b.flush [] := by
  have h1 := h.first_lt
  refine Holds.of_arc (a := ⟨_, 0, h1, Nat.zero_le _⟩) rfl rfl ?_ rfl
  show b.first.toNat = wrap Size b.first.toNat
  rw [wrap, if_pos h1]

/-! ## Index arithmetic -/

theorem toNat_add_one (hw : Size < 2 ^ w) {i : BitVec w} (h : i.toNat < Size) :
    (i + 1#w).toNat = i.toNat + 1 := by
  rw [BitVec.toNat_add, BitVec.toNat_ofNat, Nat.add_mod_mod]
  exact Nat.mod_eq_of_lt (by omega)

theorem toNat_sub_one {i : BitVec w} (h : 0 < i.toNat) :
    (i - 1#w).toNat = i.toNat - 1 := by
  have hlt := i.isLt
  have hone : (1#w).toNat = 1 := by
    rw [BitVec.toNat_ofNat, Nat.mod_eq_of_lt (by omega)]
  rw [BitVec.toNat_sub_of_le (by rw [BitVec.le_def, hone]; exact h), hone]

/-- An index that steps forward. -/
theorem next_toNat (hw : Size < 2 ^ w) {i : BitVec w} (h : i.toNat < Size) :
    (if (i + 1#w).toNat = Size then 0#w else i + 1#w).toNat
      = wrap Size (i.toNat + 1) := by
  have hone := toNat_add_one hw h
  unfold wrap
  rw [hone]
  by_cases hlt : i.toNat + 1 < Size
  · rw [if_pos hlt, if_neg (by omega), hone]
  · rw [if_neg hlt, if_pos (by omega), BitVec.toNat_ofNat, Nat.zero_mod]
    omega

/-- An index that steps back. -/
theorem before_toNat (hw : Size < 2 ^ w) {i : BitVec w} (h : i.toNat < Size) :
    (if i = 0#w then BitVec.ofNat w Size - 1#w else i - 1#w).toNat
      = Arc.before Size i.toNat := by
  unfold Arc.before
  by_cases hi : i = 0#w
  · subst hi
    have hsize : (BitVec.ofNat w Size).toNat = Size := by
      rw [BitVec.toNat_ofNat, Nat.mod_eq_of_lt hw]
    rw [if_pos rfl, if_pos BitVec.toNat_zero, toNat_sub_one (by omega), hsize]
  · have hne : i.toNat ≠ 0 := by
      intro h0
      exact hi (BitVec.eq_of_toNat_eq (by rw [h0, BitVec.toNat_zero]))
    rw [if_neg hi, if_neg hne, toNat_sub_one (by omega)]

/-! ## What the operations do -/

theorem pushItem_spec (hw : Size < 2 ^ w) (h : Holds b q)
    (hlt : q.length < Size) (x : T) :
    ∃ b', b.pushItem x = some b' ∧ Holds b' (q ++ [x]) := by
  have hcount : h.arc.count < Size := by
    show b.count.toNat < Size
    rw [h.count]
    exact hlt
  have hlast : b.last.toNat = h.arc.last := h.last
  have hlastlt : b.last.toNat < Size := by
    rw [hlast]
    exact h.arc.last_lt
  have hstore := store_of_lt b.buf x hlastlt
  refine ⟨_, by unfold pushItem; rw [hstore]; rfl, ?_⟩
  refine Holds.of_arc (a := h.arc.pushBack hcount) rfl ?_ ?_ ?_
  · exact toNat_add_one hw hcount
  · rw [Arc.last_pushBack, ← hlast]
    exact next_toNat hw hlastlt
  · show Arc.contents _ (fun i => (b.buf.set _ x hlastlt)[i]?) = _
    rw [cells_set, hlast, Arc.contents_pushBack, h.contents, List.map_append,
      List.map_singleton]

theorem pushItemFront_spec (hw : Size < 2 ^ w) (h : Holds b q)
    (hlt : q.length < Size) (x : T) :
    ∃ b', b.pushItemFront x = some b' ∧ Holds b' (x :: q) := by
  have hcount : h.arc.count < Size := by
    show b.count.toNat < Size
    rw [h.count]
    exact hlt
  have hbefore := before_toNat hw h.first_lt
  have hbeforelt := Arc.before_lt h.first_lt
  rw [← hbefore] at hbeforelt
  have hstore := store_of_lt b.buf x hbeforelt
  refine ⟨_, by unfold pushItemFront; dsimp only; rw [hstore]; rfl, ?_⟩
  refine Holds.of_arc (a := h.arc.pushFront hcount) hbefore ?_ ?_ ?_
  · exact toNat_add_one hw hcount
  · rw [Arc.last_pushFront]
    exact h.last
  · show Arc.contents _ (fun i => (b.buf.set _ x hbeforelt)[i]?) = _
    have hindex : (if b.first = 0#w then BitVec.ofNat w Size - 1#w
        else b.first - 1#w).toNat = Arc.before Size h.arc.first := hbefore
    rw [cells_set, hindex, Arc.contents_pushFront, h.contents, List.map_cons]

theorem popItem_spec (hw : Size < 2 ^ w) {x : T} (h : Holds b (x :: q)) :
    ∃ b', b.popItem = some (x, b') ∧ Holds b' q := by
  have hcount : 0 < h.arc.count := by
    show 0 < b.count.toNat
    rw [h.count, List.length_cons]
    omega
  have hcontents := h.contents
  rw [Arc.contents_popFront _ _ hcount, List.map_cons, List.cons.injEq] at hcontents
  have hload : load b.buf b.first.toNat = some x := by
    rw [load_of_lt _ h.first_lt, ← cells_of_lt]
    exact hcontents.1
  refine ⟨_, by unfold popItem; rw [hload]; rfl, ?_⟩
  refine Holds.of_arc (a := h.arc.popFront) ?_ ?_ ?_ hcontents.2
  · exact next_toNat hw h.first_lt
  · exact toNat_sub_one hcount
  · rw [Arc.last_popFront _ hcount]
    exact h.last

theorem popItemBack_spec (hw : Size < 2 ^ w) {x : T} (h : Holds b (q ++ [x])) :
    ∃ b', b.popItemBack = some (x, b') ∧ Holds b' q := by
  have hcount : 0 < h.arc.count := by
    show 0 < b.count.toNat
    rw [h.count, List.length_append, List.length_singleton]
    omega
  have hlast : b.last.toNat = h.arc.last := h.last
  have hlastlt : b.last.toNat < Size := by
    rw [hlast]
    exact h.arc.last_lt
  have hbefore := before_toNat hw hlastlt
  rw [hlast, ← Arc.last_popBack _ hcount] at hbefore
  have hcontents := h.contents
  rw [Arc.contents_popBack _ _ hcount, List.map_append, List.map_singleton] at hcontents
  obtain ⟨hrest, hitem⟩ := List.append_inj' hcontents rfl
  have hload : load b.buf (if b.last = 0#w then BitVec.ofNat w Size - 1#w
      else b.last - 1#w).toNat = some x := by
    have hlt := h.arc.popBack.last_lt
    rw [hbefore, load_of_lt _ hlt, ← cells_of_lt]
    exact List.cons.inj hitem |>.1
  refine ⟨_, by unfold popItemBack; dsimp only; rw [hload]; rfl, ?_⟩
  refine Holds.of_arc (a := h.arc.popBack) rfl ?_ hbefore hrest
  exact toNat_sub_one hcount

/-- The loop of `write`. -/
theorem pushItems_spec (hw : Size < 2 ^ w) (h : Holds b q) {xs : List T}
    (hle : q.length + xs.length ≤ Size) :
    ∃ b', b.pushItems xs = some b' ∧ Holds b' (q ++ xs) := by
  induction xs generalizing b q with
  | nil => exact ⟨b, rfl, by rw [List.append_nil]; exact h⟩
  | cons x xs ih =>
    rw [List.length_cons] at hle
    obtain ⟨b₁, hpush, h₁⟩ := pushItem_spec hw h (by omega) x
    obtain ⟨b', hrest, h'⟩ := ih h₁ (by simp; omega)
    refine ⟨b', ?_, by rw [List.append_cons]; exact h'⟩
    rw [pushItems, hpush]
    exact hrest

/-- The loop of `read`. -/
theorem popItems_spec (hw : Size < 2 ^ w) {xs : List T} (h : Holds b (xs ++ q)) :
    ∃ b', b.popItems xs.length = some (xs, b') ∧ Holds b' q := by
  induction xs generalizing b with
  | nil => exact ⟨b, rfl, h⟩
  | cons x xs ih =>
    obtain ⟨b₁, hpop, h₁⟩ := popItem_spec hw h
    obtain ⟨b', hrest, h'⟩ := ih h₁
    refine ⟨b', ?_, h'⟩
    rw [List.length_cons, popItems, hpop]
    simp only [Option.bind_eq_bind, Option.bind_some, hrest]

/-- The buffer is full when the queue has `Size` elements. -/
theorem full_iff (h : Holds b q) :
    b.count.toNat = Size ↔ ¬ q.length < Size := by
  have hle := h.length_le
  rw [h.count]
  omega

theorem count_ne_zero_iff (h : Holds b q) : b.count ≠ 0#w ↔ q ≠ [] := by
  rw [ne_eq, ne_eq, ← BitVec.toNat_inj, h.count, BitVec.toNat_zero,
    List.length_eq_zero_iff]

theorem getFreeSize_toNat (hw : Size < 2 ^ w) (h : Holds b q) :
    b.getFreeSize.toNat = Size - q.length := by
  have hle := h.count_le
  have hsize : (BitVec.ofNat w Size).toNat = Size := by
    rw [BitVec.toNat_ofNat, Nat.mod_eq_of_lt hw]
  rw [getFreeSize, BitVec.toNat_sub_of_le (by rw [BitVec.le_def, hsize]; exact hle),
    hsize, h.count]

theorem write_spec (hw : Size < 2 ^ w) (h : Holds b q) (data : List T) :
    ∃ b', b.write data = some (decide (q.length + data.length ≤ Size), b') ∧
      Holds b' (if q.length + data.length ≤ Size then q ++ data else q) := by
  have hle := h.length_le
  unfold write
  rw [h.count]
  by_cases hfits : q.length + data.length ≤ Size
  · obtain ⟨b', hpush, h'⟩ := pushItems_spec hw h hfits
    rw [if_neg (by omega), hpush, if_pos hfits, decide_eq_true hfits]
    exact ⟨b', rfl, h'⟩
  · rw [if_pos (by omega), if_neg hfits, decide_eq_false hfits]
    exact ⟨b, rfl, h⟩

theorem read_spec (hw : Size < 2 ^ w) (h : Holds b q) (cnt : BitVec w) :
    ∃ b', b.read cnt = some (q.take cnt.toNat, b') ∧
      Holds b' (q.drop cnt.toNat) := by
  have hlen : (if cnt ≤ b.count then cnt else b.count).toNat
      = (q.take cnt.toNat).length := by
    rw [List.length_take, ← h.count]
    split
    · next hle =>
      have hle' : cnt.toNat ≤ b.count.toNat := hle
      omega
    · next hgt =>
      have hlt : ¬ cnt.toNat ≤ b.count.toNat := hgt
      omega
  unfold read
  dsimp only
  rw [hlen]
  exact popItems_spec hw (by rw [List.take_append_drop]; exact h)

/-! ## Runs -/

/-- The public operations. -/
inductive Op (T : Type) (w : ℕ) where
  | pushBack (item : T)
  | pushFront (item : T)
  | popFront
  | popBack
  | write (data : List T)
  | read (cnt : BitVec w)
  | flush
  | getCount
  | getFreeSize
  deriving DecidableEq, Repr

namespace Op

/-- The operation of the deque. -/
def spec : Op T w → Deque.Op T
  | pushBack item => .pushBack item
  | pushFront item => .pushFront item
  | popFront => .popFront
  | popBack => .popBack
  | write data => .write data
  | read cnt => .read cnt.toNat
  | flush => .flush
  | getCount => .getCount
  | getFreeSize => .getFreeSize

/-- One operation: the answer, and the buffer. -/
def apply (b : RingBuffer T Size w) :
    Op T w → Option (Deque.Answer T × RingBuffer T Size w)
  | pushBack item => (b.pushBack item).map fun r => (.flag r.1, r.2)
  | pushFront item => (b.pushFront item).map fun r => (.flag r.1, r.2)
  | popFront => b.popFront.map fun r => (.item r.1, r.2)
  | popBack => b.popBack.map fun r => (.item r.1, r.2)
  | write data => (b.write data).map fun r => (.flag r.1, r.2)
  | read cnt => (b.read cnt).map fun r => (.items r.1, r.2)
  | flush => some (.done, b.flush)
  | getCount => some (.size b.getCount.toNat, b)
  | getFreeSize => some (.size b.getFreeSize.toNat, b)

/-- The step theorem: the buffer does what the deque does. -/
theorem apply_spec (hw : Size < 2 ^ w) (h : Holds b q) (op : Op T w) :
    ∃ a b', op.apply b = some (a, b') ∧
      Holds b' (Deque.step Size q op.spec).1 ∧
      Deque.Agrees (Deque.step Size q op.spec).2 a := by
  cases op with
  | pushBack item =>
    simp only [apply, RingBuffer.pushBack, spec, Deque.step, full_iff h]
    by_cases hlt : q.length < Size
    · obtain ⟨b', hpush, h'⟩ := pushItem_spec hw h hlt item
      simp only [hlt, not_true_eq_false, if_false, if_true, hpush]
      exact ⟨_, b', rfl, h', rfl⟩
    · simp only [hlt, not_false_eq_true, if_true, if_false]
      exact ⟨_, b, rfl, h, rfl⟩
  | pushFront item =>
    simp only [apply, RingBuffer.pushFront, spec, Deque.step, full_iff h]
    by_cases hlt : q.length < Size
    · obtain ⟨b', hpush, h'⟩ := pushItemFront_spec hw h hlt item
      simp only [hlt, not_true_eq_false, if_false, if_true, hpush]
      exact ⟨_, b', rfl, h', rfl⟩
    · simp only [hlt, not_false_eq_true, if_true, if_false]
      exact ⟨_, b, rfl, h, rfl⟩
  | popFront =>
    simp only [apply, RingBuffer.popFront, spec, count_ne_zero_iff h]
    cases q with
    | nil =>
      rw [if_neg (by simp), load_of_lt _ h.first_lt]
      exact ⟨_, b, rfl, h, trivial⟩
    | cons x q =>
      obtain ⟨b', hpop, h'⟩ := popItem_spec hw h
      rw [if_pos (by simp), hpop]
      exact ⟨_, b', rfl, h', rfl⟩
  | popBack =>
    simp only [apply, RingBuffer.popBack, spec, count_ne_zero_iff h]
    rcases List.eq_nil_or_concat q with rfl | ⟨q, x, rfl⟩
    · rw [if_neg (by simp), load_of_lt _ h.first_lt]
      exact ⟨_, b, rfl, h, trivial⟩
    · rw [List.concat_eq_append] at h ⊢
      obtain ⟨b', hpop, h'⟩ := popItemBack_spec hw h
      rw [if_pos (by simp), hpop]
      exact ⟨_, b', rfl, by simpa [Deque.step] using h', by simp [Deque.step, Deque.Agrees]⟩
  | write data =>
    obtain ⟨b', hwrite, h'⟩ := write_spec hw h data
    simp only [apply, hwrite, spec, Deque.step]
    by_cases hfits : q.length + data.length ≤ Size
    · rw [if_pos hfits] at h' ⊢
      exact ⟨_, b', rfl, h', by simp [Deque.Agrees, hfits]⟩
    · rw [if_neg hfits] at h' ⊢
      exact ⟨_, b', rfl, h', by simp [Deque.Agrees, hfits]⟩
  | read cnt =>
    obtain ⟨b', hread, h'⟩ := read_spec hw h cnt
    simp only [apply, hread]
    exact ⟨_, b', rfl, h', rfl⟩
  | flush => exact ⟨_, _, rfl, flush_holds h, rfl⟩
  | getCount => exact ⟨_, b, rfl, h, congrArg Deque.Answer.size h.count.symm⟩
  | getFreeSize =>
    exact ⟨_, b, rfl, h, congrArg Deque.Answer.size (getFreeSize_toNat hw h).symm⟩

/-- One operation, with the answers so far. -/
def step (s : RingBuffer T Size w × List (Deque.Answer T)) (op : Op T w) :
    Option (RingBuffer T Size w × List (Deque.Answer T)) :=
  (op.apply s.1).map fun r => (r.2, s.2 ++ [r.1])

end Op

/-- The buffer and all answers after a sequence of operations. -/
def exec (buf : Vector T Size) (ops : List (Op T w)) :
    Option (RingBuffer T Size w × List (Deque.Answer T)) :=
  run Op.step (init buf, []) ops

/-- The run theorem: the buffer is a deque with `Size` places. -/
theorem exec_holds (hw : Size < 2 ^ w) (hpos : 0 < Size) (buf : Vector T Size)
    (ops : List (Op T w)) :
    ∃ s, exec buf ops = some s ∧
      Holds s.1 (Deque.exec Size (ops.map Op.spec)).1 ∧
      List.Forall₂ Deque.Agrees (Deque.exec Size (ops.map Op.spec)).2 s.2 := by
  refine run_history
    (P := fun (s : RingBuffer T Size w × List (Deque.Answer T)) ops =>
      Holds s.1 (Deque.exec Size (ops.map Op.spec)).1 ∧
      List.Forall₂ Deque.Agrees (Deque.exec Size (ops.map Op.spec)).2 s.2)
    ?_ ⟨init_holds hpos buf, List.Forall₂.nil⟩ ops
  rintro s ops op ⟨hq, hanswers⟩
  obtain ⟨a, b', happly, h', hagrees⟩ := Op.apply_spec hw hq op
  refine ⟨(b', s.2 ++ [a]), ?_, ?_⟩
  · rw [Op.step, happly, Option.map_some]
  · rw [List.map_append, List.map_singleton, Deque.exec_concat]
    exact ⟨h', List.rel_append hanswers (List.Forall₂.cons hagrees List.Forall₂.nil)⟩

/-- The ring buffer over every run: no access is outside `Buf`, the counts are
those of a deque with `Size` places, and so is every answer. -/
theorem run_is_deque (hw : Size < 2 ^ w) (hpos : 0 < Size) (buf : Vector T Size)
    (ops : List (Op T w)) :
    ∃ b answers, exec buf ops = some (b, answers) ∧
      b.getCount.toNat = (Deque.exec Size (ops.map Op.spec)).1.length ∧
      b.getFreeSize.toNat
        = Size - (Deque.exec Size (ops.map Op.spec)).1.length ∧
      List.Forall₂ Deque.Agrees (Deque.exec Size (ops.map Op.spec)).2
        answers := by
  obtain ⟨s, hs, hq, hanswers⟩ := exec_holds hw hpos buf ops
  exact ⟨s.1, s.2, hs, hq.count, getFreeSize_toNat hw hq, hanswers⟩

/-- Three places, and items put in and taken out at both ends. -/
theorem run_is_deque_three :
    ∃ b answers, exec (w := 8) (Vector.replicate 3 'a')
        [.write ['b', 'c'], .popFront, .pushFront 'd', .popBack, .getCount]
          = some (b, answers) ∧
      b.getCount.toNat = 1 ∧ b.getFreeSize.toNat = 2 ∧
      List.Forall₂ Deque.Agrees
        [some (.flag true), some (.item 'b'), some (.flag true),
          some (.item 'c'), some (.size 1)] answers :=
  run_is_deque (by decide) (by decide) _ _

/-! ## The index operator -/

/-- The element that `operator[]` answers.  Where `First + index` wraps, it is
the one `2 ^ w - Size` places earlier. -/
theorem at_spec (hw : Size < 2 ^ w) (h : Holds b q) {i : BitVec w}
    (hi : i.toNat < q.length) :
    b.at i = q[if b.first.toNat + i.toNat < 2 ^ w then i.toNat
      else i.toNat + Size - 2 ^ w]? := by
  have h1 := h.first_lt
  have h2 := h.length_le
  generalize hj : (if b.first.toNat + i.toNat < 2 ^ w then i.toNat
    else i.toNat + Size - 2 ^ w) = j
  have hx : (b.first + i).toNat = (b.first.toNat + i.toNat) % 2 ^ w :=
    BitVec.toNat_add b.first i
  have hjlt : j < q.length := by
    split at hj <;> omega
  have hindex : b.index i = wrap Size (b.first.toNat + j) := by
    unfold index wrap
    dsimp only
    rw [hx]
    split at hj
    · next hfits => rw [Nat.mod_eq_of_lt hfits, hj]
    · next hover =>
      have hmod : (b.first.toNat + i.toNat) % 2 ^ w
          = b.first.toNat + i.toNat - 2 ^ w := by
        rw [Nat.mod_eq_sub_mod (by omega), Nat.mod_eq_of_lt (by omega)]
      rw [hmod]
      split <;> split <;> omega
  have hlt : b.index i < Size := by
    rw [hindex]
    exact wrap_lt (by omega)
  have hcell : (h.arc.contents b.cells)[j]? = (q.map some)[j]? := by
    rw [h.contents]
  have hjarc : j < (h.arc.contents b.cells).length := by
    rw [h.contents, List.length_map]
    exact hjlt
  rw [List.getElem?_eq_getElem hjarc, Arc.getElem_contents, List.getElem?_map,
    show wrap Size (h.arc.first + j) = b.index i from hindex.symm,
    cells_of_lt b hlt] at hcell
  unfold «at»
  rw [load_of_lt _ hlt]
  simpa [List.getElem?_eq_getElem hjlt] using hcell

/-- In every state of every run, `operator[]` answers the element at its
index. -/
def IndexCorrect (T : Type) (Size w : ℕ) : Prop :=
  ∀ (buf : Vector T Size) (ops : List (Op T w)) b answers (i : BitVec w),
    exec buf ops = some (b, answers) →
    i.toNat < (Deque.exec Size (ops.map Op.spec)).1.length →
    b.at i = (Deque.exec Size (ops.map Op.spec)).1[i.toNat]?

theorem pushItem_first {b' : RingBuffer T Size w} {x : T}
    (h : b.pushItem x = some b') : b'.first = b.first := by
  unfold pushItem at h
  obtain ⟨buf, _, heq⟩ := Option.bind_eq_some_iff.mp h
  rw [← Option.some.inj heq]

theorem pushItems_first {b' : RingBuffer T Size w} {xs : List T}
    (h : b.pushItems xs = some b') : b'.first = b.first := by
  induction xs generalizing b with
  | nil => rw [← Option.some.inj h]
  | cons x xs ih =>
    obtain ⟨b₁, hpush, hrest⟩ := Option.bind_eq_some_iff.mp h
    rw [ih hrest, pushItem_first hpush]

/-- A buffer that is filled from its last cell on: one item to the front, and
the others behind it. -/
theorem exec_filled (hw : Size < 2 ^ w) (hsize : 2 ≤ Size) (buf : Vector T Size)
    (x : T) {xs : List T} (hlen : xs.length = Size - 1) :
    ∃ b answers, exec (w := w) buf [.pushFront x, .write xs] = some (b, answers) ∧
      b.first.toNat = Size - 1 ∧ Holds b (x :: xs) := by
  have hinit := init_holds (w := w) (show 0 < Size by omega) buf
  obtain ⟨b₁, hfront, h₁⟩ := pushItemFront_spec hw hinit (by simp; omega) x
  have hfirst₁ : b₁.first.toNat = Size - 1 := by
    have hbefore := before_toNat hw hinit.first_lt
    unfold pushItemFront at hfront
    obtain ⟨_, _, heq⟩ := Option.bind_eq_some_iff.mp hfront
    rw [← Option.some.inj heq]
    exact hbefore
  have hfits : [x].length + xs.length ≤ Size := by
    rw [List.length_singleton]
    omega
  obtain ⟨b, hpush, h⟩ := pushItems_spec hw h₁ hfits
  have hne : ¬ (init buf : RingBuffer T Size w).count.toNat = Size := by
    show ¬ (0#w).toNat = Size
    rw [BitVec.toNat_zero]
    omega
  have hroom : ¬ ((xs.length : ℤ) > Size - b₁.count.toNat) := by
    rw [h₁.count, List.length_singleton]
    omega
  refine ⟨b, [.flag true, .flag true], ?_, ?_, h⟩
  · simp [exec, Op.step, Op.apply, RingBuffer.pushFront, RingBuffer.write, hne,
      hfront, hpush, if_neg hroom]
  · rw [pushItems_first hpush, hfirst₁]

/-- `operator[]` is right in every state of every run exactly for buffers of
at most half the range of `S`, and one item more. -/
theorem indexCorrect_iff [Nontrivial T] (hw : Size < 2 ^ w) (hpos : 0 < Size) :
    IndexCorrect T Size w ↔ 2 * Size ≤ 2 ^ w + 1 := by
  constructor
  · intro hcorrect
    by_contra hlarge
    obtain ⟨x, y, hxy⟩ := exists_pair_ne T
    have hw1 : 2 ≤ 2 ^ w := by
      cases w with
      | zero => omega
      | succ n =>
        have := Nat.one_le_two_pow (n := n)
        rw [Nat.pow_succ]
        omega
    have hsize : 2 ≤ Size := by omega
    -- all items but the last are equal, and index `Size - 1` wraps
    have hlen : (List.replicate (Size - 2) x ++ [y]).length = Size - 1 := by
      simp
      omega
    obtain ⟨b, answers, hexec, hfirst, h⟩ := exec_filled hw hsize
      (Vector.replicate Size x) x hlen
    have hspec : (Deque.exec Size ([Op.pushFront x,
        Op.write (List.replicate (Size - 2) x ++ [y])].map (Op.spec (w := w)))).1
          = x :: (List.replicate (Size - 2) x ++ [y]) := by
      have hfits : 1 + (List.replicate (Size - 2) x ++ [y]).length ≤ Size := by
        simp
        omega
      simp only [Deque.exec, Deque.step, Op.spec, List.map_cons, List.map_nil,
        List.foldl_cons, List.foldl_nil, List.length_nil, hpos, if_true,
        List.length_singleton, hfits, List.singleton_append]
    have hi : (BitVec.ofNat w (Size - 1)).toNat = Size - 1 := by
      rw [BitVec.toNat_ofNat, Nat.mod_eq_of_lt (by omega)]
    have hread := hcorrect _ _ b answers (BitVec.ofNat w (Size - 1)) hexec
      (by rw [hspec, hi]; simp; omega)
    rw [at_spec hw h (by rw [hi]; simp; omega), hspec, hi, hfirst,
      if_neg (by omega)] at hread
    have hlast : (x :: (List.replicate (Size - 2) x ++ [y]))[Size - 1]? = some y := by
      have hzero : Size - 1 - (x :: List.replicate (Size - 2) x).length = 0 := by
        simp
        omega
      rw [← List.cons_append, List.getElem?_append_right (by simp; omega), hzero]
      rfl
    have hearlier : (x :: (List.replicate (Size - 2) x ++ [y]))[Size - 1 + Size - 2 ^ w]?
        = some x := by
      rw [← List.cons_append, ← List.replicate_succ,
        List.getElem?_append_left (by simp; omega), List.getElem?_replicate,
        if_pos (by omega)]
    rw [hlast, hearlier] at hread
    exact hxy (Option.some.inj hread)
  · intro hsmall buf ops b answers i hexec hi
    have h := (of_eq_some (exec_holds hw hpos buf ops) hexec).1
    have h1 := h.first_lt
    have h2 := h.length_le
    rw [at_spec hw h hi, if_pos (by omega)]

/-- The default `S` has eight bits. -/
theorem indexCorrect_uint8 :
    IndexCorrect Bool 128 8 ∧ ¬ IndexCorrect Bool 200 8 :=
  ⟨(indexCorrect_iff (by decide) (by decide)).mpr (by decide),
    mt (indexCorrect_iff (by decide) (by decide)).mp (by decide)⟩

end Specs

end RingBuffer

end EBLmon.Usr
