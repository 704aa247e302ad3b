import EBLmon.Usr.RingBuffer

/-!
# The byte buffer

`usr::TCbuf` of `src/scmRTOS/Common/usrlib.h` and `usrlib.cpp`: a circular
buffer of bytes that the caller provides.  It is the ring buffer template for
bytes with 8-bit indices, written out by hand and without the operations at the
other end.  `toRing` is the correspondence, and there is one theorem for each
operation that says so.

`run_is_queue` is about every run.  `getByte_exec` says which byte `get_byte`
answers: its index is computed in eight bits, so it is off in a buffer of more
than 128 bytes once the queue lies across the end.
-/

namespace EBLmon.Usr

open Machine

/-- `class TCbuf`.  Its `size` never changes, and `buf` has that many bytes. -/
structure TCbuf (size : BitVec 8) where
  count : BitVec 8
  first : BitVec 8
  last : BitVec 8
  buf : Vector UInt8 size.toNat
  deriving DecidableEq

namespace TCbuf

variable {size : BitVec 8}

/-- `TCbuf(uint8_t* const Address, const uint8_t Size)` -/
def init (address : Vector UInt8 size.toNat) : TCbuf size :=
  ⟨0#8, 0#8, 0#8, address⟩

/-- `uint8_t get_count() const` -/
def getCount (b : TCbuf size) : BitVec 8 := b.count

/-- `uint8_t get_free_size() const` -/
def getFreeSize (b : TCbuf size) : BitVec 8 := size - b.count

/-- `void clear()` -/
def clear (b : TCbuf size) : TCbuf size :=
  { b with count := 0#8, last := b.first }

/-- `void push(const uint8_t item)` -/
def push (b : TCbuf size) (item : UInt8) : Option (TCbuf size) := do
  let buf ← store b.buf b.last.toNat item
  let last := b.last + 1#8
  let count := b.count + 1#8
  some { b with buf, count, last := if last = size then 0#8 else last }

/-- `uint8_t pop()` -/
def pop (b : TCbuf size) : Option (UInt8 × TCbuf size) := do
  let item ← load b.buf b.first.toNat
  let count := b.count - 1#8
  let first := b.first + 1#8
  some (item, { b with count, first := if first = size then 0#8 else first })

/-- `bool put(const uint8_t item)` -/
def put (b : TCbuf size) (item : UInt8) : Option (Bool × TCbuf size) :=
  if b.count = size then some (false, b)
  else (b.push item).map fun b => (true, b)

/-- `uint8_t get()` -/
def get (b : TCbuf size) : Option (UInt8 × TCbuf size) :=
  if b.count ≠ 0#8 then b.pop else some (0, b)

/-- The loop of `write`. -/
def pushAll (b : TCbuf size) : List UInt8 → Option (TCbuf size)
  | [] => some b
  | item :: data => do (← b.push item).pushAll data

/-- The loop of `read`. -/
def popAll (b : TCbuf size) : ℕ → Option (List UInt8 × TCbuf size)
  | 0 => some ([], b)
  | n + 1 => do
    let (item, b) ← b.pop
    let (data, b) ← b.popAll n
    some (item :: data, b)

/-- `bool write(const uint8_t* data, const uint8_t Count)`, where `Count` is the
length of `data`. -/
def write (b : TCbuf size) (data : List UInt8) : Option (Bool × TCbuf size) :=
  if (data.length : ℤ) > size.toNat - b.count.toNat then some (false, b)
  else (b.pushAll data).map fun b => (true, b)

/-- `void read(uint8_t* const data, const uint8_t Count)` -/
def read (b : TCbuf size) (count : BitVec 8) :
    Option (List UInt8 × TCbuf size) :=
  let n := if count ≤ b.count then count else b.count
  b.popAll n.toNat

/-- `uint8_t get_byte(const uint8_t index) const` -/
def getByte (b : TCbuf size) (index : BitVec 8) : Option UInt8 :=
  let x := b.first + index
  if x < size then load b.buf x.toNat else load b.buf (x.toNat - size.toNat)

/-! ## The buffer as an instance of the template -/

/-- The ring buffer with the same indices and bytes. -/
def toRing (b : TCbuf size) : RingBuffer UInt8 size.toNat 8 :=
  ⟨b.count, b.first, b.last, b.buf⟩

section Correspondence

variable (b : TCbuf size)

theorem push_toRing (item : UInt8) :
    (b.push item).map toRing = b.toRing.pushItem item := by
  unfold push RingBuffer.pushItem
  simp only [toRing, BitVec.toNat_inj]
  cases store b.buf b.last.toNat item <;> rfl

theorem pop_toRing :
    b.pop.map (fun r => (r.1, r.2.toRing)) = b.toRing.popItem := by
  unfold pop RingBuffer.popItem
  simp only [toRing, BitVec.toNat_inj]
  cases load b.buf b.first.toNat <;> rfl

theorem pushAll_toRing (data : List UInt8) :
    (b.pushAll data).map toRing = b.toRing.pushItems data := by
  induction data generalizing b with
  | nil => rfl
  | cons item data ih =>
    rw [pushAll, RingBuffer.pushItems, ← push_toRing]
    cases b.push item with
    | none => rfl
    | some b' => exact ih b'

theorem popAll_toRing (n : ℕ) :
    (b.popAll n).map (fun r => (r.1, r.2.toRing)) = b.toRing.popItems n := by
  induction n generalizing b with
  | zero => rfl
  | succ n ih =>
    rw [popAll, RingBuffer.popItems, ← pop_toRing]
    cases b.pop with
    | none => rfl
    | some r =>
      show ((r.2.popAll n).bind _).map _ = (r.2.toRing.popItems n).bind _
      rw [← ih r.2]
      cases r.2.popAll n <;> rfl

theorem put_toRing (item : UInt8) :
    (b.put item).map (fun r => (r.1, r.2.toRing)) = b.toRing.pushBack item := by
  unfold put RingBuffer.pushBack
  rw [← push_toRing]
  simp only [toRing, BitVec.toNat_inj]
  split
  · rfl
  · cases b.push item <;> rfl

theorem write_toRing (data : List UInt8) :
    (b.write data).map (fun r => (r.1, r.2.toRing)) = b.toRing.write data := by
  unfold write RingBuffer.write
  rw [← pushAll_toRing]
  by_cases hfull : (data.length : ℤ) > size.toNat - b.count.toNat
  · rw [if_pos hfull, if_pos (show (data.length : ℤ) > size.toNat
      - b.toRing.count.toNat from hfull)]
    rfl
  · rw [if_neg hfull, if_neg (show ¬ (data.length : ℤ) > size.toNat
      - b.toRing.count.toNat from hfull)]
    cases b.pushAll data <;> rfl

theorem read_toRing (count : BitVec 8) :
    (b.read count).map (fun r => (r.1, r.2.toRing)) = b.toRing.read count :=
  popAll_toRing b _

theorem getByte_toRing (index : BitVec 8) :
    b.getByte index = b.toRing.at index := by
  unfold getByte RingBuffer.at
  by_cases h : b.first + index < size
  · rw [if_pos h]
    exact congrArg (load b.buf) (if_pos h).symm
  · rw [if_neg h]
    exact congrArg (load b.buf) (if_neg h).symm

end Correspondence

/-! ## Runs -/

/-- The public operations. -/
inductive Op where
  | put (item : UInt8)
  | get
  | write (data : List UInt8)
  | read (count : BitVec 8)
  | clear
  | getCount
  | getFreeSize
  deriving DecidableEq, Repr

namespace Op

/-- The operation of the deque. -/
def spec : Op → Deque.Op UInt8
  | put item => .pushBack item
  | get => .popFront
  | write data => .write data
  | read count => .read count.toNat
  | clear => .flush
  | getCount => .getCount
  | getFreeSize => .getFreeSize

/-- One operation: the answer, and the buffer. -/
def apply (b : TCbuf size) : Op → Option (Deque.Answer UInt8 × TCbuf size)
  | put item => (b.put item).map fun r => (.flag r.1, r.2)
  | get => b.get.map fun r => (.item r.1, r.2)
  | write data => (b.write data).map fun r => (.flag r.1, r.2)
  | read count => (b.read count).map fun r => (.items r.1, r.2)
  | clear => some (.done, b.clear)
  | getCount => some (.size b.getCount.toNat, b)
  | getFreeSize => some (.size b.getFreeSize.toNat, b)

/-- The operation of the template. -/
def ring : Op → RingBuffer.Op UInt8 8
  | put item => .pushBack item
  | get => .popFront
  | write data => .write data
  | read count => .read count
  | clear => .flush
  | getCount => .getCount
  | getFreeSize => .getFreeSize

theorem spec_ring (op : Op) : op.ring.spec = op.spec := by cases op <;> rfl

/-- Every operation but `get` does what the template does. -/
theorem apply_toRing (b : TCbuf size) {op : Op} (h : op ≠ get) :
    (op.apply b).map (fun r => (r.1, r.2.toRing)) = op.ring.apply b.toRing := by
  cases op with
  | put item =>
    simp only [apply, ring, RingBuffer.Op.apply, ← put_toRing, Option.map_map]
    rfl
  | get => exact absurd rfl h
  | write data =>
    simp only [apply, ring, RingBuffer.Op.apply, ← write_toRing, Option.map_map]
    rfl
  | read count =>
    simp only [apply, ring, RingBuffer.Op.apply, ← read_toRing, Option.map_map]
    rfl
  | clear => rfl
  | getCount => rfl
  | getFreeSize =>
    simp [apply, ring, RingBuffer.Op.apply, TCbuf.getFreeSize,
      RingBuffer.getFreeSize, toRing]

/-- The step theorem.  `get` answers zero on an empty buffer, where the template
answers an old item. -/
theorem apply_spec {b : TCbuf size} {q : List UInt8} (h : b.toRing.Holds q)
    (op : Op) :
    ∃ a b', op.apply b = some (a, b') ∧
      b'.toRing.Holds (Deque.step size.toNat q op.spec).1 ∧
      Deque.Agrees (Deque.step size.toNat q op.spec).2 a := by
  by_cases hget : op = get
  · subst hget
    have hcount : b.count ≠ 0#8 ↔ q ≠ [] := RingBuffer.count_ne_zero_iff h
    simp only [apply, TCbuf.get, hcount, spec]
    cases q with
    | nil => exact ⟨_, b, by rw [if_neg (by simp)]; rfl, h, trivial⟩
    | cons x q =>
      obtain ⟨r, hpop, h'⟩ := RingBuffer.popItem_spec size.isLt h
      rw [← pop_toRing] at hpop
      obtain ⟨s, hs, heq⟩ := Option.map_eq_some_iff.mp hpop
      obtain ⟨rfl, rfl⟩ := Prod.mk.inj heq
      exact ⟨_, s.2, by rw [if_pos (by simp), hs]; rfl, h', rfl⟩
  · obtain ⟨a, r, happly, h', hagrees⟩ :=
      RingBuffer.Op.apply_spec size.isLt h op.ring
    rw [← apply_toRing b hget] at happly
    obtain ⟨s, hs, heq⟩ := Option.map_eq_some_iff.mp happly
    obtain ⟨rfl, rfl⟩ := Prod.mk.inj heq
    rw [spec_ring] at h' hagrees
    exact ⟨s.1, s.2, hs, h', hagrees⟩

/-- One operation, with the answers so far. -/
def step (s : TCbuf size × List (Deque.Answer UInt8)) (op : Op) :
    Option (TCbuf size × List (Deque.Answer UInt8)) :=
  (op.apply s.1).map fun r => (r.2, s.2 ++ [r.1])

end Op

/-- The buffer and all answers after a sequence of operations. -/
def exec (address : Vector UInt8 size.toNat) (ops : List Op) :
    Option (TCbuf size × List (Deque.Answer UInt8)) :=
  run Op.step (init address, []) ops

/-- The run theorem: the buffer is a queue with `size` places. -/
theorem exec_holds (hpos : 0 < size.toNat) (address : Vector UInt8 size.toNat)
    (ops : List Op) :
    ∃ s, exec address ops = some s ∧
      s.1.toRing.Holds (Deque.exec size.toNat (ops.map Op.spec)).1 ∧
      List.Forall₂ Deque.Agrees
        (Deque.exec size.toNat (ops.map Op.spec)).2 s.2 := by
  refine run_history
    (P := fun (s : TCbuf size × List (Deque.Answer UInt8)) ops =>
      s.1.toRing.Holds (Deque.exec size.toNat (ops.map Op.spec)).1 ∧
      List.Forall₂ Deque.Agrees
        (Deque.exec size.toNat (ops.map Op.spec)).2 s.2)
    ?_ ⟨?_, List.Forall₂.nil⟩ ops
  swap
  · exact RingBuffer.init_holds hpos address
  rintro s ops op ⟨hq, hanswers⟩
  obtain ⟨a, b', happly, h', hagrees⟩ := Op.apply_spec hq op
  refine ⟨(b', s.2 ++ [a]), ?_, ?_⟩
  · rw [Op.step, happly, Option.map_some]
  · rw [List.map_append, List.map_singleton, Deque.exec_concat]
    exact ⟨h', List.rel_append hanswers (List.Forall₂.cons hagrees List.Forall₂.nil)⟩

/-- The byte buffer over every run: no access is outside the memory it was
given, and every answer is that of a queue with `size` places. -/
theorem run_is_queue (hpos : 0 < size.toNat) (address : Vector UInt8 size.toNat)
    (ops : List Op) :
    ∃ b answers, exec address ops = some (b, answers) ∧
      b.getCount.toNat
        = (Deque.exec size.toNat (ops.map Op.spec)).1.length ∧
      List.Forall₂ Deque.Agrees
        (Deque.exec size.toNat (ops.map Op.spec)).2 answers := by
  obtain ⟨s, hs, hq, hanswers⟩ := exec_holds hpos address ops
  exact ⟨s.1, s.2, hs, hq.count, hanswers⟩

/-- A buffer of three bytes that refuses the fourth. -/
theorem run_is_queue_three :
    ∃ b answers, exec (Vector.replicate (3#8).toNat 0)
        [.write [7, 8], .get, .put 9, .write [1, 2], .read 5#8]
          = some (b, answers) ∧
      b.getCount.toNat = 0 ∧
      List.Forall₂ Deque.Agrees
        [some (.flag true), some (.item 7), some (.flag true),
          some (.flag false), some (.items [8, 9])] answers :=
  run_is_queue (by decide) _ _

/-- `get_byte` over every run: the byte at the index, or the one that lies
`256 - size` places earlier when `first + index` does not fit in eight bits.
Below 129 bytes it always fits. -/
theorem getByte_exec (hpos : 0 < size.toNat) (address : Vector UInt8 size.toNat)
    (ops : List Op) :
    ∃ b answers, exec address ops = some (b, answers) ∧
      ∀ index : BitVec 8,
        index.toNat < (Deque.exec size.toNat (ops.map Op.spec)).1.length →
        b.getByte index = (Deque.exec size.toNat (ops.map Op.spec)).1[
          if b.first.toNat + index.toNat < 256 then index.toNat
          else index.toNat + size.toNat - 256]? ∧
        (size.toNat ≤ 128 → b.first.toNat + index.toNat < 256) := by
  obtain ⟨s, hs, hq, _⟩ := exec_holds hpos address ops
  refine ⟨s.1, s.2, hs, fun index hindex => ⟨?_, fun hsmall => ?_⟩⟩
  · rw [getByte_toRing]
    exact RingBuffer.at_spec size.isLt hq hindex
  · have h1 : s.1.first.toNat < size.toNat := hq.first_lt
    have h2 := hq.length_le
    omega

/-- The operations leave the bytes 0 to 119 behind, from place 150 of 200 on. -/
def across : List Op :=
  [.write (List.replicate 150 0), .read 150#8, .write ((List.range 120).map UInt8.ofNat)]

/-- The last index that fits and the first one that does not. -/
theorem getByte_exec_across :
    ∃ b answers, exec (Vector.replicate (200#8).toNat 0) across = some (b, answers) ∧
      b.getByte 105#8 = some 105 ∧ b.getByte 106#8 = some 50 := by
  have hqueue : (Deque.exec (200#8).toNat (across.map Op.spec)).1
      = (List.range 120).map UInt8.ofNat := by
    decide +kernel
  have hfirst : (exec (Vector.replicate (200#8).toNat 0) across).map
      (fun r => r.1.first) = some 150#8 := by
    decide +kernel
  obtain ⟨b, answers, hexec, hbyte⟩ :=
    getByte_exec (by decide) (Vector.replicate (200#8).toNat 0) across
  rw [hexec, Option.map_some, Option.some.injEq] at hfirst
  rw [hqueue, hfirst] at hbyte
  refine ⟨b, answers, hexec, ?_, ?_⟩
  · exact (hbyte 105#8 (by decide)).1
  · exact (hbyte 106#8 (by decide)).1

end TCbuf

end EBLmon.Usr
