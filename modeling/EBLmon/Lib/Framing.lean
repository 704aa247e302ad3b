import Mathlib.Data.List.Basic
import Mathlib.Data.List.Infix

/-!
# Frames behind a two-symbol header

A stream carries frames of one fixed length.  A frame is a header of two
different symbols `h1 h2` and a body of `bodyLen` symbols.  The receiver of
this module is the usual one with three phases and no backtracking: it hunts
for `h1`, it looks for `h2` right after it, and it then collects a body.  A
symbol that fails to be `h2` is dropped together with the `h1` before it, also
when that symbol is `h1` again.

`Parse` is the receiver with its whole history: the stream so far, cut into
gap symbols and complete frames, and the phase of the unfinished rest.

* `Parse.bytes_feed` says that the cut is a partition of the stream.
* `Phase.feed_frame` and `Phase.outs_frame` read one frame from the hunt.
* `Phase.feed_eq_body` goes back from a body in progress to its header.
* `Phase.feed_of_noPair` and `Phase.feed_trailing` describe the hunt through
  a stream without the header pair.  The receiver is half way into a header
  exactly when the stream ends in an odd run of `h1`.
* `Phase.feed_clean` is the bound on the loss of synchronisation: one frame
  without a false header brings every phase back to the hunt.
-/

namespace EBLmon.Framing

/-- A frame format: the header pair and the length of the body. -/
structure Format (α : Type) where
  h1 : α
  h2 : α
  bodyLen : Nat
  h1_ne_h2 : h1 ≠ h2
  bodyLen_pos : 0 < bodyLen

/-- A complete frame. -/
@[ext] structure Frame {α : Type} (F : Format α) where
  body : List α
  length_body : body.length = F.bodyLen

/-- The frame as it stands in the stream. -/
def Frame.bytes {α : Type} {F : Format α} (f : Frame F) : List α :=
  F.h1 :: F.h2 :: f.body

/-- The phase of the receiver.  A body that is being collected has room for
at least one more symbol. -/
inductive Phase {α : Type} (F : Format α) where
  | hunt
  | half
  | body (got : List α) (room : got.length < F.bodyLen)

/-- A piece of the stream that is settled. -/
inductive Segment {α : Type} (F : Format α) where
  | gap (c : α)
  | frame (f : Frame F)

namespace Segment

variable {α : Type} {F : Format α}

/-- The symbols of one piece. -/
def bytes : Segment F → List α
  | gap c => [c]
  | frame f => f.bytes

/-- The frame of one piece, if it is one. -/
def frame? : Segment F → Option (Frame F)
  | gap _ => none
  | frame f => some f

end Segment

namespace Phase

variable {α : Type} {F : Format α}

/-- The symbols of an unfinished header or frame. -/
def bytes : Phase F → List α
  | hunt => []
  | half => [F.h1]
  | body got _ => F.h1 :: F.h2 :: got

/-- The body symbols received so far. -/
def received : Phase F → List α
  | hunt => []
  | half => []
  | body got _ => got

variable [DecidableEq α]

/-- The phase after one symbol. -/
def step : Phase F → α → Phase F
  | hunt, c => if c = F.h1 then half else hunt
  | half, c => if c = F.h2 then body [] F.bodyLen_pos else hunt
  | body got _, c =>
    if room : (got ++ [c]).length < F.bodyLen then body (got ++ [c]) room
    else hunt

/-- The pieces that one symbol settles. -/
def out : Phase F → α → List (Segment F)
  | hunt, c => if c = F.h1 then [] else [.gap c]
  | half, c => if c = F.h2 then [] else [.gap F.h1, .gap c]
  | body got h, c =>
    if room : (got ++ [c]).length < F.bodyLen then []
    else [.frame ⟨got ++ [c], by simp at room ⊢; omega⟩]

/-- The phase after a stream. -/
def feed (p : Phase F) (cs : List α) : Phase F := cs.foldl step p

/-- The pieces that a stream settles. -/
def outs : Phase F → List α → List (Segment F)
  | _, [] => []
  | p, c :: cs => p.out c ++ (p.step c).outs cs

@[simp] theorem feed_nil (p : Phase F) : p.feed [] = p := rfl

@[simp] theorem feed_cons (p : Phase F) (c : α) (cs : List α) :
    p.feed (c :: cs) = (p.step c).feed cs := rfl

theorem feed_append (p : Phase F) (cs ds : List α) :
    p.feed (cs ++ ds) = (p.feed cs).feed ds :=
  List.foldl_append

@[simp] theorem outs_nil (p : Phase F) : p.outs [] = [] := rfl

@[simp] theorem outs_cons (p : Phase F) (c : α) (cs : List α) :
    p.outs (c :: cs) = p.out c ++ (p.step c).outs cs := rfl

theorem outs_append (p : Phase F) (cs ds : List α) :
    p.outs (cs ++ ds) = p.outs cs ++ (p.feed cs).outs ds := by
  induction cs generalizing p with
  | nil => rfl
  | cons c cs ih =>
    rw [List.cons_append, outs_cons, outs_cons, feed_cons, ih,
      List.append_assoc]

/-! ## The cut is a partition -/

theorem out_bytes (p : Phase F) (c : α) :
    (p.out c).flatMap Segment.bytes ++ (p.step c).bytes = p.bytes ++ [c] := by
  cases p with
  | hunt =>
    by_cases hc : c = F.h1
    · simp [out, step, bytes, hc]
    · simp [out, step, bytes, hc, Segment.bytes]
  | half =>
    by_cases hc : c = F.h2
    · simp [out, step, bytes, hc]
    · simp [out, step, bytes, hc, Segment.bytes]
  | body got h =>
    by_cases room : (got ++ [c]).length < F.bodyLen
    · rw [out, step, dif_pos room, dif_pos room]
      simp [bytes]
    · rw [out, step, dif_neg room, dif_neg room]
      simp [bytes, Segment.bytes, Frame.bytes]

/-- The settled pieces and the unfinished rest make up the stream. -/
theorem outs_bytes (p : Phase F) (cs : List α) :
    (p.outs cs).flatMap Segment.bytes ++ (p.feed cs).bytes
      = p.bytes ++ cs := by
  induction cs generalizing p with
  | nil => simp
  | cons c cs ih =>
    rw [outs_cons, feed_cons, List.flatMap_append, List.append_assoc, ih,
      ← List.append_assoc, out_bytes, List.append_assoc, List.singleton_append]

/-! ## The frames of a stream -/

/-- The frames that a stream completes, in order. -/
def frames (p : Phase F) (cs : List α) : List (Frame F) :=
  (p.outs cs).filterMap Segment.frame?

@[simp] theorem frames_nil (p : Phase F) : p.frames [] = [] := rfl

theorem frames_append (p : Phase F) (cs ds : List α) :
    p.frames (cs ++ ds) = p.frames cs ++ (p.feed cs).frames ds := by
  rw [frames, outs_append, List.filterMap_append, frames, frames]

theorem frames_cons (p : Phase F) (c : α) (cs : List α) :
    p.frames (c :: cs)
      = (p.out c).filterMap Segment.frame? ++ (p.step c).frames cs := by
  rw [frames, outs_cons, List.filterMap_append, frames]

theorem frames_singleton (p : Phase F) (c : α) :
    p.frames [c] = (p.out c).filterMap Segment.frame? := by
  rw [frames_cons, frames_nil, List.append_nil]

/-- One symbol completes one frame or none. -/
theorem frames_singleton_cases (p : Phase F) (c : α) :
    p.frames [c] = [] ∨ ∃ f, p.frames [c] = [f] := by
  cases p with
  | hunt =>
    left
    rw [frames_singleton, out]
    split <;> rfl
  | half =>
    left
    rw [frames_singleton, out]
    split <;> rfl
  | body got h =>
    rw [frames_singleton]
    by_cases room : (got ++ [c]).length < F.bodyLen
    · rw [out, dif_pos room]
      exact Or.inl rfl
    · rw [out, dif_neg room]
      exact Or.inr ⟨_, rfl⟩

/-- A symbol inside the body. -/
theorem step_body_room {got : List α} {h : got.length < F.bodyLen} {c : α}
    (room : (got ++ [c]).length < F.bodyLen) :
    (body got h).step c = body (got ++ [c]) room ∧ (body got h).out c = [] := by
  rw [step, out, dif_pos room, dif_pos room]
  exact ⟨rfl, rfl⟩

/-- The last symbol of the body. -/
theorem step_body_last {got : List α} {h : got.length < F.bodyLen} {c : α}
    (full : (got ++ [c]).length = F.bodyLen) :
    (body got h).step c = hunt ∧
      (body got h).out c = [.frame ⟨got ++ [c], full⟩] := by
  have hnot : ¬ (got ++ [c]).length < F.bodyLen := by omega
  rw [step, out, dif_neg hnot, dif_neg hnot]
  exact ⟨rfl, rfl⟩

/-- A body in progress takes the rest of its symbols and closes. -/
theorem feed_body_rest {got rest : List α} {h : got.length < F.bodyLen}
    (full : (got ++ rest).length = F.bodyLen) :
    (body got h).feed rest = hunt ∧
      (body got h).outs rest = [.frame ⟨got ++ rest, full⟩] := by
  induction rest generalizing got with
  | nil =>
    rw [List.append_nil] at full
    exact absurd h (by omega)
  | cons c rest ih =>
    cases rest with
    | nil =>
      obtain ⟨hs, ho⟩ := step_body_last (h := h) full
      rw [feed_cons, outs_cons, hs, ho]
      exact ⟨rfl, rfl⟩
    | cons d rest =>
      have hassoc : got ++ [c] ++ d :: rest = got ++ c :: d :: rest := by
        rw [List.append_assoc, List.singleton_append]
      have room : (got ++ [c]).length < F.bodyLen := by
        simp only [List.length_append, List.length_cons, List.length_nil]
          at full ⊢
        omega
      obtain ⟨hs, ho⟩ := step_body_room (h := h) room
      obtain ⟨hf, hout⟩ := ih (h := room) (by rw [hassoc]; exact full)
      rw [feed_cons, outs_cons, hs, ho, hf, hout, List.nil_append]
      simp [hassoc]

/-- The header opens a body. -/
theorem feed_header (cs : List α) :
    (hunt : Phase F).feed (F.h1 :: F.h2 :: cs)
        = (body [] F.bodyLen_pos).feed cs ∧
      (hunt : Phase F).outs (F.h1 :: F.h2 :: cs)
        = (body [] F.bodyLen_pos).outs cs := by
  simp [step, out]

/-- The hunt reads one whole frame and is back at the hunt. -/
theorem feed_frame (f : Frame F) : (hunt : Phase F).feed f.bytes = hunt := by
  rw [Frame.bytes, (feed_header _).1]
  exact (feed_body_rest (by simpa using f.length_body)).1

theorem outs_frame (f : Frame F) :
    (hunt : Phase F).outs f.bytes = [.frame f] := by
  rw [Frame.bytes, (feed_header _).2]
  exact (feed_body_rest (by simpa using f.length_body)).2

theorem frames_frame (f : Frame F) :
    (hunt : Phase F).frames f.bytes = [f] := by
  rw [frames, outs_frame]
  rfl

/-- The hunt reads frames that stand back to back. -/
theorem feed_frames (fs : List (Frame F)) :
    (hunt : Phase F).feed (fs.flatMap Frame.bytes) = hunt ∧
      (hunt : Phase F).frames (fs.flatMap Frame.bytes) = fs := by
  induction fs with
  | nil => exact ⟨rfl, rfl⟩
  | cons f fs ih =>
    rw [List.flatMap_cons, feed_append, frames_append, feed_frame,
      frames_frame]
    exact ⟨ih.1, by rw [ih.2, List.singleton_append]⟩

/-! ## Where a body begins -/

/-- Half way into a header the last symbol was `h1`. -/
theorem feed_eq_half {cs : List α} (h : (hunt : Phase F).feed cs = half) :
    ∃ pre, cs = pre ++ [F.h1] := by
  have hbytes := outs_bytes (hunt : Phase F) cs
  rw [h] at hbytes
  exact ⟨_, hbytes.symm⟩

/-- A body in progress goes back to the header that opened it. -/
theorem feed_eq_body {cs got : List α} {room : got.length < F.bodyLen}
    (h : (hunt : Phase F).feed cs = body got room) :
    ∃ pre, cs = pre ++ F.h1 :: F.h2 :: got ∧
      (hunt : Phase F).feed (pre ++ [F.h1, F.h2]) = body [] F.bodyLen_pos := by
  induction cs using List.reverseRecOn generalizing got with
  | nil => cases h
  | append_singleton cs c ih =>
    have hstep := h
    rw [feed_append, feed_cons, feed_nil] at hstep
    cases hp : (hunt : Phase F).feed cs with
    | hunt =>
      rw [hp, step] at hstep
      split at hstep <;> cases hstep
    | half =>
      rw [hp, step] at hstep
      split at hstep
      · rename_i hc
        cases hstep
        obtain ⟨pre, rfl⟩ := feed_eq_half hp
        rw [hc, List.append_assoc, List.singleton_append] at h ⊢
        exact ⟨pre, rfl, h⟩
      · cases hstep
    | body got' room' =>
      rw [hp, step] at hstep
      split at hstep
      · cases hstep
        obtain ⟨pre, rfl, hpre⟩ := ih hp
        refine ⟨pre, ?_, hpre⟩
        rw [List.append_assoc, List.cons_append, List.cons_append]
      · cases hstep

end Phase

/-! ## Hunting -/

section Hunting

variable {α : Type}

/-- The header pair stands at position `i` of the stream. -/
def PairAt (F : Format α) (cs : List α) (i : Nat) : Prop :=
  cs[i]? = some F.h1 ∧ cs[i + 1]? = some F.h2

/-- The header pair stands nowhere in the stream. -/
def NoPair (F : Format α) (cs : List α) : Prop :=
  ∀ i, ¬ PairAt F cs i

/-- The first header pair of the stream stands at position `i`. -/
def FirstPair (F : Format α) (cs : List α) (i : Nat) : Prop :=
  PairAt F cs i ∧ ∀ j, j < i → ¬ PairAt F cs j

variable {F : Format α}

theorem NoPair.nil : NoPair F [] := by
  rintro i ⟨h, _⟩
  simp at h

theorem PairAt.append {cs : List α} {i : Nat} (h : PairAt F cs i)
    (ds : List α) : PairAt F (cs ++ ds) i := by
  obtain ⟨h1, h2⟩ := h
  obtain ⟨hlt1, -⟩ := List.getElem?_eq_some_iff.mp h1
  obtain ⟨hlt2, -⟩ := List.getElem?_eq_some_iff.mp h2
  rw [PairAt, List.getElem?_append_left hlt1, List.getElem?_append_left hlt2]
  exact ⟨h1, h2⟩

theorem PairAt.drop {cs : List α} {k i : Nat} (h : PairAt F (cs.drop k) i) :
    PairAt F cs (k + i) := by
  rw [PairAt, List.getElem?_drop, List.getElem?_drop] at h
  exact h

theorem NoPair.of_append {cs : List α} (ds : List α)
    (h : NoPair F (cs ++ ds)) : NoPair F cs :=
  fun i hi => h i (hi.append ds)

/-- Up to the `h1` of the first pair there is no pair. -/
theorem FirstPair.noPair_take {cs : List α} {i k : Nat}
    (h : FirstPair F cs i) (hk : k ≤ i + 1) : NoPair F (cs.take k) := by
  intro j hj
  have hlt : j + 1 < k := by
    obtain ⟨hlt, _⟩ := List.getElem?_eq_some_iff.mp hj.2
    rw [List.length_take] at hlt
    omega
  have hpair := hj.append (cs.drop k)
  rw [List.take_append_drop] at hpair
  exact h.2 j (by omega) hpair

theorem NoPair.take {cs : List α} (h : NoPair F cs) (k : Nat) :
    NoPair F (cs.take k) := by
  apply NoPair.of_append (cs.drop k)
  rw [List.take_append_drop]
  exact h

/-- A stream without the pair does not end in `h1` before an `h2`. -/
theorem NoPair.getLast_ne {cs : List α} (h : NoPair F (cs ++ [F.h2])) :
    cs.getLast? ≠ some F.h1 := by
  intro hlast
  obtain ⟨ds, rfl⟩ := List.getLast?_eq_some_iff.mp hlast
  refine h ds.length ⟨?_, ?_⟩
  · simp
  · simp

/-- A frame with no false header: the pair stands only at its start, and its
last symbol cannot be the start of a header either. -/
structure Frame.Clean (f : Frame F) : Prop where
  pair : ∀ i, PairAt F f.bytes i → i = 0
  last : f.bytes.getLast? ≠ some F.h1

/-- Only the positions inside the frame have to be looked at. -/
theorem Frame.clean_iff {f : Frame F} : f.Clean ↔
    (∀ i, i < f.bytes.length → PairAt F f.bytes i → i = 0) ∧
      f.bytes.getLast? ≠ some F.h1 := by
  refine ⟨fun h => ⟨fun i _ => h.pair i, h.last⟩, fun h => ⟨fun i hi => ?_, h.2⟩⟩
  obtain ⟨hlt, _⟩ := List.getElem?_eq_some_iff.mp hi.1
  exact h.1 i hlt hi

instance [DecidableEq α] (cs : List α) (i : Nat) : Decidable (PairAt F cs i) :=
  inferInstanceAs (Decidable (_ ∧ _))

instance [DecidableEq α] (f : Frame F) : Decidable f.Clean :=
  decidable_of_iff _ Frame.clean_iff.symm

theorem Frame.Clean.noPair_drop {f : Frame F} (h : f.Clean) {k : Nat}
    (hk : 0 < k) : NoPair F (f.bytes.drop k) := by
  intro i hi
  have := h.pair (k + i) hi.drop
  omega

theorem Frame.Clean.getLast?_drop {f : Frame F} (h : f.Clean) (k : Nat) :
    (f.bytes.drop k).getLast? ≠ some F.h1 := by
  rw [List.getLast?_drop]
  split
  · simp
  · exact h.last

variable [DecidableEq α]

/-- The length of the run of `a` at the end of the stream. -/
def trailing (a : α) (cs : List α) : Nat :=
  (cs.reverse.takeWhile (· = a)).length

theorem trailing_concat_self (a : α) (cs : List α) :
    trailing a (cs ++ [a]) = trailing a cs + 1 := by
  simp [trailing]

theorem trailing_concat_of_ne {a c : α} (cs : List α) (h : c ≠ a) :
    trailing a (cs ++ [c]) = 0 := by
  simp [trailing, h]

/-- A run of odd length is not empty, so its symbol is the last one. -/
theorem getLast?_of_trailing_pos {a : α} {cs : List α}
    (h : 0 < trailing a cs) : cs.getLast? = some a := by
  rcases List.eq_nil_or_concat cs with rfl | ⟨ds, c, rfl⟩
  · exact absurd h (Nat.lt_irrefl 0)
  · rw [List.concat_eq_append] at h ⊢
    by_cases hc : c = a
    · rw [hc, List.getLast?_concat]
    · rw [trailing_concat_of_ne ds hc] at h
      exact absurd h (Nat.lt_irrefl 0)

namespace Phase

/-- The hunt through a stream without the pair ends half way into a header
exactly when the stream ends in an odd run of `h1`: each further `h1` of the
run takes the receiver from one phase to the other. -/
theorem feed_trailing {cs : List α} (h : NoPair F cs) :
    (hunt : Phase F).feed cs
      = if trailing F.h1 cs % 2 = 1 then half else hunt := by
  induction cs using List.reverseRecOn with
  | nil => rfl
  | append_singleton cs c ih =>
    rw [feed_append, ih (h.of_append _), feed_cons, feed_nil]
    by_cases hc : c = F.h1
    · subst hc
      rw [trailing_concat_self]
      by_cases hodd : trailing F.h1 cs % 2 = 1
      · rw [if_pos hodd, if_neg (by omega), step, if_neg F.h1_ne_h2]
      · rw [if_neg hodd, if_pos (by omega), step, if_pos rfl]
    · rw [trailing_concat_of_ne cs hc, if_neg (show ¬ 0 % 2 = 1 by decide)]
      by_cases hodd : trailing F.h1 cs % 2 = 1
      · have hne : c ≠ F.h2 := by
          rintro rfl
          exact h.getLast_ne (getLast?_of_trailing_pos (by omega))
        rw [if_pos hodd, step, if_neg hne]
      · rw [if_neg hodd, step, if_neg hc]

/-- At the first header pair the receiver opens a body when the run of `h1`
that the pair ends has odd length.  Otherwise it has taken the `h1` of the
pair for a failed `h2`, and goes on hunting. -/
theorem feed_firstPair {cs : List α} {i : Nat} (h : FirstPair F cs i) :
    (hunt : Phase F).feed (cs.take (i + 2))
      = if trailing F.h1 (cs.take (i + 1)) % 2 = 1 then body [] F.bodyLen_pos
        else hunt := by
  obtain ⟨hlt, hh2⟩ := List.getElem?_eq_some_iff.mp h.1.2
  have htake : cs.take (i + 2) = cs.take (i + 1) ++ [F.h2] := by
    rw [List.take_succ_eq_append_getElem hlt, hh2]
  rw [htake, feed_append, feed_trailing (h.noPair_take (Nat.le_refl _)),
    feed_cons, feed_nil]
  split
  · rw [step, if_pos rfl]
  · rw [step, if_neg (Ne.symm F.h1_ne_h2)]

/-- No body opens in a stream without the pair. -/
theorem feed_of_noPair {cs : List α} (h : NoPair F cs) :
    (hunt : Phase F).feed cs = hunt ∨ (hunt : Phase F).feed cs = half := by
  rw [feed_trailing h]
  split
  · exact Or.inr rfl
  · exact Or.inl rfl

/-- A stream without the pair that does not end in `h1` leaves the receiver
hunting. -/
theorem feed_hunt_of_noPair {cs : List α} (h : NoPair F cs)
    (hlast : cs.getLast? ≠ some F.h1) : (hunt : Phase F).feed cs = hunt := by
  rw [feed_trailing h, if_neg]
  intro hodd
  exact hlast (getLast?_of_trailing_pos (by omega))

/-- No frame is completed in a stream without the pair. -/
theorem frames_of_noPair {cs : List α} (h : NoPair F cs) :
    (hunt : Phase F).frames cs = [] := by
  induction cs using List.reverseRecOn with
  | nil => rfl
  | append_singleton cs c ih =>
    rw [frames_append, ih (h.of_append _), List.nil_append, frames_cons]
    rcases feed_of_noPair (h.of_append _) with hp | hp
    · rw [hp, out]
      split <;> rfl
    · rw [hp, out]
      split <;> rfl

/-! ## Synchronisation -/

/-- From a hunt that starts inside a clean frame, the rest of the frame
leaves the receiver hunting and completes nothing. -/
theorem feed_clean_drop {f : Frame F} (h : f.Clean) {k : Nat} (hk : 0 < k) :
    (hunt : Phase F).feed (f.bytes.drop k) = hunt ∧
      (hunt : Phase F).frames (f.bytes.drop k) = [] :=
  ⟨feed_hunt_of_noPair (h.noPair_drop hk) (h.getLast?_drop k),
    frames_of_noPair (h.noPair_drop hk)⟩

/-- One clean frame brings every phase back to the hunt, and at most one
frame is completed on the way: the frame itself when the receiver was
hunting, or the phantom frame that was in progress. -/
theorem feed_clean (p : Phase F) {f : Frame F} (h : f.Clean) :
    p.feed f.bytes = hunt ∧ (p.frames f.bytes).length ≤ 1 := by
  cases p with
  | hunt =>
    rw [feed_frame, frames_frame]
    exact ⟨rfl, Nat.le_refl 1⟩
  | half =>
    have hdrop : f.bytes = F.h1 :: f.bytes.drop 1 := rfl
    have hstep : (half : Phase F).step F.h1 = hunt := by
      rw [step, if_neg F.h1_ne_h2]
    have hout : ((half : Phase F).out F.h1).filterMap Segment.frame? = [] := by
      rw [out, if_neg F.h1_ne_h2]
      rfl
    obtain ⟨hfeed, hframes⟩ := feed_clean_drop h Nat.one_pos
    rw [hdrop, feed_cons, frames_cons, hstep, hout, hfeed, hframes]
    exact ⟨rfl, Nat.zero_le 1⟩
  | body got room =>
    -- the phantom frame takes the first `r` symbols of `f`
    let r := F.bodyLen - got.length
    have hlen : f.bytes.length = F.bodyLen + 2 := by
      rw [Frame.bytes, List.length_cons, List.length_cons, f.length_body]
    have hr : (got ++ f.bytes.take r).length = F.bodyLen := by
      rw [List.length_append, List.length_take, hlen]
      omega
    obtain ⟨hfeed, houts⟩ := feed_body_rest (h := room) hr
    obtain ⟨hfeed', hframes'⟩ := feed_clean_drop h (show 0 < r by omega)
    have hsplit : f.bytes = f.bytes.take r ++ f.bytes.drop r :=
      (List.take_append_drop r f.bytes).symm
    rw [hsplit, feed_append, frames_append, hfeed, hfeed', hframes', frames,
      houts]
    exact ⟨rfl, Nat.le_refl 1⟩

/-- A clean frame and any further frames behind it are all read, from every
phase, apart from the first one. -/
theorem feed_clean_frames (p : Phase F) {f : Frame F} (h : f.Clean)
    (fs : List (Frame F)) :
    p.feed ((f :: fs).flatMap Frame.bytes) = hunt ∧
      p.frames ((f :: fs).flatMap Frame.bytes) = p.frames f.bytes ++ fs := by
  obtain ⟨hfeed, hframes⟩ := feed_frames fs
  rw [List.flatMap_cons, feed_append, frames_append, (feed_clean p h).1,
    hfeed, hframes]
  exact ⟨rfl, rfl⟩

end Phase

end Hunting

/-! ## The receiver with its history -/

/-- The stream so far, cut into pieces, and the phase of the rest. -/
structure Parse {α : Type} (F : Format α) where
  segments : List (Segment F)
  phase : Phase F

namespace Parse

variable {α : Type} {F : Format α}

/-- Nothing received. -/
def start : Parse F := ⟨[], .hunt⟩

/-- The whole stream that was received. -/
def bytes (p : Parse F) : List α :=
  p.segments.flatMap Segment.bytes ++ p.phase.bytes

/-- The complete frames of the stream. -/
def frames (p : Parse F) : List (Frame F) :=
  p.segments.filterMap Segment.frame?

variable [DecidableEq α]

/-- Receive one symbol. -/
def push (p : Parse F) (c : α) : Parse F :=
  ⟨p.segments ++ p.phase.out c, p.phase.step c⟩

/-- Receive a stream. -/
def feed (p : Parse F) (cs : List α) : Parse F := cs.foldl push p

theorem feed_eq (p : Parse F) (cs : List α) :
    p.feed cs = ⟨p.segments ++ p.phase.outs cs, p.phase.feed cs⟩ := by
  induction cs generalizing p with
  | nil => simp [feed]
  | cons c cs ih =>
    rw [feed, List.foldl_cons, ← feed, ih, push, Phase.outs_cons,
      Phase.feed_cons, List.append_assoc]

theorem feed_append (p : Parse F) (cs ds : List α) :
    p.feed (cs ++ ds) = (p.feed cs).feed ds :=
  List.foldl_append

@[simp] theorem phase_feed (p : Parse F) (cs : List α) :
    (p.feed cs).phase = p.phase.feed cs := by
  rw [feed_eq]

theorem frames_feed (p : Parse F) (cs : List α) :
    (p.feed cs).frames = p.frames ++ p.phase.frames cs := by
  rw [feed_eq, frames, List.filterMap_append, frames, Phase.frames]

/-- The cut is a partition of the stream. -/
theorem bytes_feed (p : Parse F) (cs : List α) :
    (p.feed cs).bytes = p.bytes ++ cs := by
  rw [feed_eq, bytes, List.flatMap_append, List.append_assoc,
    Phase.outs_bytes, ← List.append_assoc, bytes]

theorem bytes_start_feed (cs : List α) :
    ((start : Parse F).feed cs).bytes = cs := by
  rw [bytes_feed]
  rfl

end Parse

end EBLmon.Framing
