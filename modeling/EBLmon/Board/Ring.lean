import EBLmon.Lib.Machine
import EBLmon.Lib.RingBuffer
import Mathlib.Data.List.GetD

/-!
# The receive buffer

`src/board.cpp` and `src/board.h`: `_rx_buf`, `_rx_head` and `_rx_tail`, with
what `com_rx` and `com_getc` do to them.  The event flag that the two also use
is in `EBLmon.Board.Comms`.

An access outside `_rx_buf` is undefined in the source, so both functions
answer `none` there.  `put_spec` and `take_spec` say that this does not happen
below `Valid`, and what becomes of the pending bytes.

The source says of a full buffer that it drops the oldest byte.  It drops the
new one.  `keepsNewest_iff` says in which runs the difference cannot be seen.
-/

namespace EBLmon.Board

open Machine RingBuffer

/-- `_rx_buf_size` -/
def rxBufSize : UInt32 := 1024

/-- The receive buffer of `Board`. -/
structure RxRing where
  rxBuf : Vector UInt8 1025
  rxHead : UInt32
  rxTail : UInt32
  deriving DecidableEq

namespace RxRing

/-- The initial values, and zero for the buffer of a static object. -/
def reset : RxRing where
  rxBuf := Vector.replicate 1025 0
  rxHead := 0
  rxTail := 0

/-- `com_rx` up to the signal: the buffer, and whether the byte was stored. -/
def put (b : RxRing) (c : UInt8) : Option (RxRing × Bool) :=
  let next := (b.rxTail + 1) % rxBufSize
  -- "rx buffer overflow, drop oldest byte"
  if next = b.rxHead then some (b, false)
  else do
    let rxBuf ← store b.rxBuf b.rxTail.toNat c
    some ({ b with rxBuf, rxTail := next }, true)

/-- The loop condition of `com_getc`. -/
def Empty (b : RxRing) : Prop := b.rxTail = b.rxHead

instance (b : RxRing) : Decidable b.Empty := inferInstanceAs (Decidable (_ = _))

/-- `com_getc` behind the loop: the byte, and the buffer. -/
def take (b : RxRing) : Option (UInt8 × RxRing) := do
  let c ← load b.rxBuf b.rxHead.toNat
  some (c, { b with rxHead := (b.rxHead + 1) % rxBufSize })

/-- The bytes from `_rx_head` up to `_rx_tail`, cyclically. -/
def pending (b : RxRing) : List UInt8 :=
  (List.range ((b.rxTail.toNat + 1024 - b.rxHead.toNat) % 1024)).map fun i =>
    b.rxBuf.toList.getD ((b.rxHead.toNat + i) % 1024) 0

/-- The indices stay inside the buffer. -/
structure Valid (b : RxRing) : Prop where
  head : b.rxHead.toNat < 1024
  tail : b.rxTail.toNat < 1024

/-! ## The buffer as a ring -/

theorem reset_valid : reset.Valid := ⟨by decide, by decide⟩

theorem reset_pending : reset.pending = [] := rfl

/-- The indices as a span. -/
def Valid.span {b : RxRing} (h : b.Valid) : Span 1024 :=
  ⟨b.rxHead.toNat, b.rxTail.toNat, h.head, h.tail⟩

/-- The cells of the buffer. -/
def cells (b : RxRing) (i : ℕ) : UInt8 := b.rxBuf.toList.getD i 0

theorem cells_eq (b : RxRing) {i : ℕ} (h : i < 1025) :
    b.cells i = b.rxBuf[i] := by
  unfold cells
  rw [List.getD_eq_getElem _ _ (by rw [Vector.length_toList]; exact h),
    Vector.getElem_toList]

/-- A store changes one cell. -/
theorem cells_set (b : RxRing) (c : UInt8) {n : ℕ} (h : n < 1025) :
    (fun i => (b.rxBuf.set n c h).toList.getD i 0)
      = Function.update b.cells n c := by
  funext i
  rw [Vector.toList_set, Function.update_apply, cells,
    List.getD_eq_getElem?_getD, List.getD_eq_getElem?_getD,
    List.getElem?_set]
  by_cases hi : n = i
  · rw [if_pos hi, if_pos (by rw [Vector.length_toList]; exact h),
      if_pos hi.symm, Option.getD_some]
  · rw [if_neg hi, if_neg (Ne.symm hi)]

theorem pending_eq {b : RxRing} (h : b.Valid) :
    b.pending = h.span.contents b.cells := by
  have h1 := h.head
  have h2 := h.tail
  have hused : (b.rxTail.toNat + 1024 - b.rxHead.toNat) % 1024 = h.span.used :=
    (wrap_eq_mod (by omega)).symm
  unfold pending Span.contents
  rw [hused]
  apply List.map_congr_left
  intro i hi
  have hi' := List.mem_range.mp hi
  have hlt := h.span.used_lt
  have hwrap : (b.rxHead.toNat + i) % 1024 = wrap 1024 (h.span.head + i) :=
    (wrap_eq_mod (by omega)).symm
  rw [hwrap]
  rfl

theorem length_pending_le {b : RxRing} (h : b.Valid) :
    b.pending.length ≤ 1023 := by
  have := h.span.used_lt
  rw [pending_eq h, Span.length_contents]
  omega

theorem empty_iff {b : RxRing} (h : b.Valid) : b.Empty ↔ b.pending = [] := by
  rw [pending_eq h, Span.contents_eq_nil_iff]
  exact UInt32.toNat_inj.symm

/-- The next index, as the source computes it. -/
theorem next_toNat {i : UInt32} (h : i.toNat < 1024) :
    ((i + 1) % rxBufSize).toNat = wrap 1024 (i.toNat + 1) := by
  rw [wrap_eq_mod (by omega), UInt32.toNat_mod, UInt32.toNat_add]
  show (i.toNat + 1) % 4294967296 % 1024 = (i.toNat + 1) % 1024
  omega

theorem next_eq_iff {b : RxRing} (h : b.Valid) :
    (b.rxTail + 1) % rxBufSize = b.rxHead ↔ h.span.Full := by
  rw [← UInt32.toNat_inj, next_toNat h.tail]
  rfl

theorem full_iff_length {b : RxRing} (h : b.Valid) :
    h.span.Full ↔ ¬ b.pending.length < 1023 := by
  have hlt := h.span.used_lt
  rw [Span.full_iff, pending_eq h, Span.length_contents]
  omega

/-! ## What the two operations do -/

/-- A received byte: it comes in at the end of the pending bytes when there
are less than 1023, and is dropped otherwise. -/
theorem put_spec {b : RxRing} (h : b.Valid) (c : UInt8) :
    ∃ b', b.put c = some (b', decide (b.pending.length < 1023)) ∧ b'.Valid ∧
      b'.pending = offer 1023 b.pending c := by
  by_cases hfull : h.span.Full
  · have hlen := (full_iff_length h).mp hfull
    refine ⟨b, ?_, h, ?_⟩
    · unfold put
      rw [if_pos ((next_eq_iff h).mpr hfull), decide_eq_false hlen]
    · unfold offer
      rw [if_neg hlen]
  · have hlen : b.pending.length < 1023 := by
      by_contra hge
      exact hfull ((full_iff_length h).mpr hge)
    have htail : b.rxTail.toNat < 1025 := by have := h.tail; omega
    let b' : RxRing :=
      { b with
        rxBuf := b.rxBuf.set b.rxTail.toNat c htail
        rxTail := (b.rxTail + 1) % rxBufSize }
    have hnext : b'.rxTail.toNat = wrap 1024 (b.rxTail.toNat + 1) :=
      next_toNat h.tail
    have h' : b'.Valid := by
      refine ⟨h.head, ?_⟩
      rw [hnext]
      exact wrap_lt (by have := h.tail; omega)
    have hspan : h'.span = h.span.push := by
      unfold Valid.span Span.push
      simp only [hnext]
      rfl
    have hcells : b'.cells = Function.update b.cells h.span.tail c :=
      cells_set b c htail
    refine ⟨b', ?_, h', ?_⟩
    · unfold put
      rw [if_neg (mt (next_eq_iff h).mp hfull), store_of_lt _ _ htail,
        decide_eq_true hlen]
      rfl
    · rw [pending_eq h', hspan, hcells, Span.contents_push _ _ _ hfull,
        ← pending_eq h, offer, if_pos hlen]

/-- A byte taken: it is the first pending one. -/
theorem take_spec {b : RxRing} (h : b.Valid) (hne : ¬ b.Empty) :
    ∃ c b', b.take = some (c, b') ∧ b'.Valid ∧
      b.pending = c :: b'.pending := by
  have hhead : b.rxHead.toNat < 1025 := by have := h.head; omega
  let b' : RxRing := { b with rxHead := (b.rxHead + 1) % rxBufSize }
  have hnext : b'.rxHead.toNat = wrap 1024 (b.rxHead.toNat + 1) :=
    next_toNat h.head
  have h' : b'.Valid := by
    refine ⟨?_, h.tail⟩
    rw [hnext]
    exact wrap_lt (by have := h.head; omega)
  have hspan : h'.span = h.span.pop := by
    unfold Valid.span Span.pop
    simp only [hnext]
    rfl
  have hne' : h.span.tail ≠ h.span.head := fun heq =>
    hne (UInt32.toNat_inj.mp heq)
  refine ⟨b.rxBuf[b.rxHead.toNat], b', ?_, h', ?_⟩
  · unfold take
    rw [load_of_lt _ hhead]
    rfl
  · rw [pending_eq h, Span.contents_pop _ _ hne', pending_eq h', hspan]
    congr 1
    exact cells_eq b hhead

end RxRing

/-! ## Runs -/

/-- One operation on the buffer.  `com_getc` waits while the buffer is
empty. -/
inductive RxOp where
  | rx (c : UInt8)
  | getc
  deriving DecidableEq, Repr

/-- The buffer after one operation. -/
def RxOp.step (b : RxRing) : RxOp → Option RxRing
  | rx c => (b.put c).map Prod.fst
  | getc => if b.Empty then some b else b.take.map Prod.snd

/-- The buffer after a sequence of operations from the empty buffer. -/
def exec (ops : List RxOp) : Option RxRing := run RxOp.step RxRing.reset ops

theorem step_rx {b : RxRing} (h : b.Valid) (c : UInt8) :
    ∃ b', RxOp.step b (.rx c) = some b' ∧ b'.Valid ∧
      b'.pending = offer 1023 b.pending c := by
  obtain ⟨b', hput, hvalid, hpending⟩ := RxRing.put_spec h c
  refine ⟨b', ?_, hvalid, hpending⟩
  show (b.put c).map Prod.fst = some b'
  rw [hput]
  rfl

theorem step_getc {b : RxRing} (h : b.Valid) :
    ∃ b', RxOp.step b .getc = some b' ∧ b'.Valid ∧
      b'.pending = b.pending.tail := by
  show ∃ b', (if b.Empty then some b else b.take.map Prod.snd) = some b' ∧ _
  by_cases hempty : b.Empty
  · rw [if_pos hempty]
    refine ⟨b, rfl, h, ?_⟩
    rw [(RxRing.empty_iff h).mp hempty]
    rfl
  · obtain ⟨c, b', htake, hvalid, hpending⟩ := RxRing.take_spec h hempty
    rw [if_neg hempty, htake]
    exact ⟨b', rfl, hvalid, by rw [hpending, List.tail_cons]⟩

/-- Every run is defined, and its indices stay inside the buffer. -/
theorem exec_valid (ops : List RxOp) : ∃ b, exec ops = some b ∧ b.Valid := by
  refine run_history (P := fun (b : RxRing) _ => b.Valid) ?_
    RxRing.reset_valid ops
  intro b ops op h
  cases op with
  | rx c =>
    obtain ⟨b', hstep, hvalid, _⟩ := step_rx h c
    exact ⟨b', hstep, hvalid⟩
  | getc =>
    obtain ⟨b', hstep, hvalid, _⟩ := step_getc h
    exact ⟨b', hstep, hvalid⟩

/-- One more received byte. -/
theorem exec_rx {ops : List RxOp} {b : RxRing} (hb : exec ops = some b)
    (c : UInt8) :
    ∃ b', exec (ops ++ [.rx c]) = some b' ∧
      b'.pending = offer 1023 b.pending c := by
  have hvalid := of_eq_some (exec_valid ops) hb
  obtain ⟨b', hstep, _, hpending⟩ := step_rx hvalid c
  exact ⟨b', (run_concat_of_eq_some (RxOp.rx c) hb).trans hstep, hpending⟩

/-! ## What an overflow keeps -/

/-- After every received byte the pending bytes are the last ones of the old
pending bytes and the new byte, as many as fit. -/
def KeepsNewest (ops : List RxOp) : Prop :=
  ∀ pre c post, ops = pre ++ .rx c :: post →
    ∃ b b', exec pre = some b ∧ exec (pre ++ [.rx c]) = some b' ∧
      b'.pending = offerNewest 1023 b.pending c

/-- No byte is received while 1023 bytes are pending, unless all of them are
that byte. -/
def OverflowUnseen (ops : List RxOp) : Prop :=
  ∀ pre c post, ops = pre ++ .rx c :: post → ∀ b, exec pre = some b →
    b.pending.length < 1023 ∨ ∀ y ∈ b.pending, y = c

/-- One received byte, under the two policies. -/
theorem exec_rx_newest_iff {ops : List RxOp} {b b' : RxRing} {c : UInt8}
    (hb : exec ops = some b) (hb' : exec (ops ++ [.rx c]) = some b') :
    b'.pending = offerNewest 1023 b.pending c ↔
      b.pending.length < 1023 ∨ ∀ y ∈ b.pending, y = c := by
  have hvalid := of_eq_some (exec_valid ops) hb
  have hpending := of_eq_some (exec_rx hb c) hb'
  rw [hpending]
  exact offer_eq_offerNewest_iff (by decide) (RxRing.length_pending_le hvalid)

/-- The buffer keeps the newest bytes in exactly the runs without an overflow
that can be seen. -/
theorem keepsNewest_iff (ops : List RxOp) :
    KeepsNewest ops ↔ OverflowUnseen ops := by
  constructor
  · intro h pre c post hops b hb
    obtain ⟨b₁, b', hb₁, hb', hpending⟩ := h pre c post hops
    rw [hb, Option.some.injEq] at hb₁
    subst hb₁
    exact (exec_rx_newest_iff hb hb').mp hpending
  · intro h pre c post hops
    obtain ⟨b, hb, _⟩ := exec_valid pre
    obtain ⟨b', hb', _⟩ := exec_rx hb c
    exact ⟨b, b', hb, hb',
      (exec_rx_newest_iff hb hb').mpr (h pre c post hops b hb)⟩

/-- The buffer fills up from the start. -/
theorem exec_replicate {n : ℕ} (hn : n ≤ 1023) (c : UInt8) :
    ∃ b, exec (List.replicate n (.rx c)) = some b ∧
      b.pending = List.replicate n c := by
  induction n with
  | zero => exact ⟨RxRing.reset, rfl, RxRing.reset_pending⟩
  | succ n ih =>
    obtain ⟨b, hb, hpending⟩ := ih (by omega)
    obtain ⟨b', hb', hpending'⟩ := exec_rx hb c
    refine ⟨b', ?_, ?_⟩
    · rw [List.replicate_succ']
      exact hb'
    · rw [hpending', hpending, offer, List.length_replicate, if_pos (by omega),
        ← List.replicate_succ']

/-- A 1 behind 1023 zeros is lost. -/
theorem not_keepsNewest_full :
    ¬ KeepsNewest (List.replicate 1023 (.rx 0) ++ [.rx 1]) := by
  intro h
  obtain ⟨b, hb, hpending⟩ := exec_replicate (Nat.le_refl 1023) 0
  obtain ⟨b₁, b', hb₁, hb', hnewest⟩ := h _ 1 [] rfl
  rw [hb, Option.some.injEq] at hb₁
  subst hb₁
  rcases (exec_rx_newest_iff hb hb').mp hnewest with hlt | hall
  · rw [hpending, List.length_replicate] at hlt
    exact absurd hlt (by decide)
  · have hzero : (0 : UInt8) = 1 := by
      apply hall
      rw [hpending]
      exact List.mem_replicate.mpr ⟨by decide, rfl⟩
    exact absurd hzero (by decide)

end EBLmon.Board
