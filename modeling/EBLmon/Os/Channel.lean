import EBLmon.Os.Coherent
import EBLmon.Usr.Cbuf

/-!
# The channel

`OS::TChannel` of `src/scmRTOS/Common/OS_Services.h` and `OS_Services.cpp`: a
byte buffer between processes.  A process that puts bytes in waits for room, and
one that takes bytes out waits for bytes.

Every transfer that is done resumes all processes on the other side, and each of
them looks at the buffer again.  `Round` says what one round of the loop of a
transfer does: it suspends the process, or it moves bytes and resumes.

The results are about every run of a channel in static storage, where the process
maps start as zero.  `run_is_fifo`: the bytes taken out, and then those in the
buffer, are the bytes put in.  `waits_justified`: a process that is not ready waits
for something that the buffer does not have.
-/

namespace EBLmon.Os

open Machine Usr

/-- The two process maps of a channel. -/
inductive Side where
  | producers
  | consumers
  deriving DecidableEq, Repr

/-- `TChannel` -/
structure TChannel (size : BitVec 8) where
  producersProcessMap : TProcessMap
  consumersProcessMap : TProcessMap
  cbuf : TCbuf size

/-- A call that may wait. -/
inductive Transfer where
  | push (x : UInt8)
  | pop
  | write (data : List UInt8)
  | read (count : BitVec 8)
  deriving DecidableEq, Repr

namespace Side

def other : Side → Side
  | producers => consumers
  | consumers => producers

end Side

namespace Transfer

/-- Where a transfer waits. -/
def side : Transfer → Side
  | push _ | write _ => .producers
  | pop | read _ => .consumers

end Transfer

namespace TChannel

variable {size : BitVec 8}

/-- `TChannel(uint8_t* buf, uint8_t size)`.  The constructor leaves the two maps as
they are in memory. -/
def construct (producersProcessMap consumersProcessMap : TProcessMap)
    (buf : Vector UInt8 size.toNat) : TChannel size :=
  ⟨producersProcessMap, consumersProcessMap, TCbuf.init buf⟩

/-- A channel in static storage, where the memory is zero. -/
def static (buf : Vector UInt8 size.toNat) : TChannel size := construct 0#32 0#32 buf

/-- A process map. -/
def map (c : TChannel size) : Side → TProcessMap
  | .producers => c.producersProcessMap
  | .consumers => c.consumersProcessMap

/-- The channel with another process map. -/
def withMap (c : TChannel size) (w : TProcessMap) : Side → TChannel size
  | .producers => { c with producersProcessMap := w }
  | .consumers => { c with consumersProcessMap := w }

/-- A step of a call of a channel. -/
abbrev Step (size : BitVec 8) : Type :=
  Outcome Transfer (List UInt8) × TKernel × TChannel size

/-- `suspend` in the loop of a transfer. -/
def suspend (k : TKernel) (c : TChannel size) (t : Transfer) : Step size :=
  let (k, w) := TService.suspend k (c.map t.side)
  (.suspended t, k, c.withMap w t.side)

/-- `resume_all` at the end of a call that answers `data`. -/
def resumeAll (k : TKernel) (c : TChannel size) (side : Side) (data : List UInt8) :
    Step size :=
  match TService.resumeAll k (c.map side) with
  | (true, k, w) => (.rescheduled data, k, c.withMap w side)
  | (false, k, w) => (.returned data, k, c.withMap w side)

/-- `void push(uint8_t x)`, one round of its loop. -/
def push (k : TKernel) (c : TChannel size) (x : UInt8) : Option (Step size) :=
  if c.cbuf.getFreeSize = 0#8 then some (suspend k c (.push x))
  else (c.cbuf.put x).map fun r =>
    resumeAll k { c with cbuf := r.2 } .consumers []

/-- `uint8_t pop()` -/
def pop (k : TKernel) (c : TChannel size) : Option (Step size) :=
  if c.cbuf.getCount = 0#8 then some (suspend k c .pop)
  else c.cbuf.get.map fun r =>
    resumeAll k { c with cbuf := r.2 } .producers [r.1]

/-- `void write(const uint8_t* data, const uint8_t count)`, where `count` is the
length of `data`. -/
def write (k : TKernel) (c : TChannel size) (data : List UInt8) : Option (Step size) :=
  if c.cbuf.getFreeSize.toNat < data.length then some (suspend k c (.write data))
  else (c.cbuf.write data).map fun r =>
    resumeAll k { c with cbuf := r.2 } .consumers []

/-- `void read(uint8_t* const data, const uint8_t count)` -/
def read (k : TKernel) (c : TChannel size) (count : BitVec 8) : Option (Step size) :=
  if c.cbuf.getCount < count then some (suspend k c (.read count))
  else (c.cbuf.read count).map fun r =>
    resumeAll k { c with cbuf := r.2 } .producers r.1

/-- One round of the loop of a call. -/
def transfer (k : TKernel) (c : TChannel size) : Transfer → Option (Step size)
  | .push x => push k c x
  | .pop => pop k c
  | .write data => write k c data
  | .read count => read k c count

/-- The channel as a service.  The answer is what is taken out. -/
abbrev service (size : BitVec 8) : Service where
  Obj := TChannel size
  Call := Transfer
  Wait := Transfer
  Isr := Empty
  Ans := List UInt8
  Map := Side
  map := map
  waitsAt := Transfer.side
  timed := fun _ => false
  enter := transfer
  again := transfer
  isr := fun _ _ i => i.elim

end TChannel

/-! ## One transfer -/

namespace Transfer

variable {size : BitVec 8}

/-- The buffer has the room or the bytes, with `n` bytes in it. -/
def Fits (size : BitVec 8) (n : ℕ) : Transfer → Prop
  | push _ => n < size.toNat
  | pop => 0 < n
  | write data => n + data.length ≤ size.toNat
  | read count => count.toNat ≤ n

/-- The bytes that a transfer puts in. -/
def bytes : Transfer → List UInt8
  | push x => [x]
  | write data => data
  | pop | read _ => []

/-- A producer that does not fit in does not fit in behind another one, and a
consumer likewise. -/
theorem Fits.of_same_side {t t' : Transfer} {n n' : ℕ}
    (h : t'.Fits size n') (hside : t'.side = t.side)
    (hn : if t.side = .producers then n ≤ n' else n' ≤ n) : t'.Fits size n := by
  cases ht : t.side with
  | producers =>
    rw [ht, if_pos rfl] at hn
    rw [ht] at hside
    cases t' with
    | push x => exact Nat.lt_of_le_of_lt hn h
    | write data => exact Nat.le_trans (Nat.add_le_add_right hn _) h
    | pop | read => cases hside
  | consumers =>
    rw [ht, if_neg (by simp)] at hn
    rw [ht] at hside
    cases t' with
    | pop => exact Nat.lt_of_lt_of_le h hn
    | read count => exact Nat.le_trans h hn
    | push | write => cases hside

end Transfer

namespace TChannel

section Calls

variable {size : BitVec 8}

/-- What a transfer that fits does to the buffer. -/
structure Moved (q q' : List UInt8) (t : Transfer) (data : List UInt8) : Prop where
  queue : q ++ t.bytes = data ++ q'
  grows : if t.side = .producers then q.length ≤ q'.length else q'.length ≤ q.length

/-- A round of a transfer, with the queue `q` in the buffer. -/
inductive Round (k : TKernel) (c : TChannel size) (q : List UInt8) (t : Transfer) :
    Option (Step size) → Prop where
  | stays (unfit : ¬ t.Fits size q.length) : Round k c q t (some (suspend k c t))
  | moves {cbuf : TCbuf size} {q' data : List UInt8} (holds : cbuf.toRing.Holds q')
      (moved : Moved q q' t data) :
      Round k c q t (some (resumeAll k { c with cbuf } t.side.other data))

section Rounds

variable {c : TChannel size} {q : List UInt8}

theorem getFreeSize_toNat (h : c.cbuf.toRing.Holds q) :
    c.cbuf.getFreeSize.toNat = size.toNat - q.length := by
  have heq : c.cbuf.toRing.getFreeSize = c.cbuf.getFreeSize := by
    simp [TCbuf.getFreeSize, RingBuffer.getFreeSize, TCbuf.toRing]
  rw [← heq]
  exact RingBuffer.getFreeSize_toNat size.isLt h

theorem getCount_toNat (h : c.cbuf.toRing.Holds q) : c.cbuf.getCount.toNat = q.length :=
  h.count

theorem push_spec (k : TKernel) (h : c.cbuf.toRing.Holds q) (x : UInt8) :
    Round k c q (.push x) (push k c x) := by
  have hfree := getFreeSize_toNat h
  have hle := h.length_le
  have hfull : c.cbuf.getFreeSize = 0#8 ↔ ¬ q.length < size.toNat := by
    rw [← BitVec.toNat_inj, hfree, BitVec.toNat_zero]
    omega
  unfold push
  by_cases hfits : q.length < size.toNat
  · obtain ⟨a, b, happly, h', -⟩ := TCbuf.Op.apply_spec h (.put x)
    obtain ⟨r, hput, heq⟩ := Option.map_eq_some_iff.mp happly
    obtain ⟨rfl, rfl⟩ := Prod.mk.inj heq
    simp only [TCbuf.Op.spec, Deque.step, if_pos hfits] at h'
    rw [if_neg fun hzero => hfull.mp hzero hfits, hput]
    exact Round.moves h' ⟨rfl, by simp [Transfer.side]⟩
  · rw [if_pos (hfull.mpr hfits)]
    exact Round.stays hfits

theorem pop_spec (k : TKernel) (h : c.cbuf.toRing.Holds q) :
    Round k c q .pop (pop k c) := by
  have hnone : c.cbuf.getCount = 0#8 ↔ ¬ 0 < q.length := by
    rw [← BitVec.toNat_inj, getCount_toNat h, BitVec.toNat_zero]
    omega
  unfold pop
  by_cases hfits : 0 < q.length
  · obtain ⟨a, b, happly, h', hagrees⟩ := TCbuf.Op.apply_spec h .get
    obtain ⟨r, hget, heq⟩ := Option.map_eq_some_iff.mp happly
    obtain ⟨rfl, rfl⟩ := Prod.mk.inj heq
    rw [if_neg fun hzero => hnone.mp hzero hfits, hget]
    cases q with
    | nil => cases hfits
    | cons x q =>
      have hitem : Deque.Answer.item x = Deque.Answer.item r.1 := hagrees
      have hx : x = r.1 := Deque.Answer.item.inj hitem
      refine Round.moves h' ⟨?_, by simp [Transfer.side, TCbuf.Op.spec, Deque.step]⟩
      rw [← hx]
      exact List.append_nil _
  · rw [if_pos (hnone.mpr hfits)]
    exact Round.stays hfits

theorem write_spec (k : TKernel) (h : c.cbuf.toRing.Holds q) (data : List UInt8) :
    Round k c q (.write data) (write k c data) := by
  have hle := h.length_le
  have hfull : c.cbuf.getFreeSize.toNat < data.length
      ↔ ¬ q.length + data.length ≤ size.toNat := by
    rw [getFreeSize_toNat h]
    omega
  unfold write
  by_cases hfits : q.length + data.length ≤ size.toNat
  · obtain ⟨a, b, happly, h', -⟩ := TCbuf.Op.apply_spec h (.write data)
    obtain ⟨r, hwrite, heq⟩ := Option.map_eq_some_iff.mp happly
    obtain ⟨rfl, rfl⟩ := Prod.mk.inj heq
    simp only [TCbuf.Op.spec, Deque.step, if_pos hfits] at h'
    rw [if_neg fun hlt => hfull.mp hlt hfits, hwrite]
    exact Round.moves h' ⟨rfl, by simp [Transfer.side]⟩
  · rw [if_pos (hfull.mpr hfits)]
    exact Round.stays hfits

theorem read_spec (k : TKernel) (h : c.cbuf.toRing.Holds q) (count : BitVec 8) :
    Round k c q (.read count) (read k c count) := by
  have hfew : c.cbuf.getCount < count ↔ ¬ count.toNat ≤ q.length := by
    rw [BitVec.lt_def, getCount_toNat h]
    omega
  unfold read
  by_cases hfits : count.toNat ≤ q.length
  · obtain ⟨a, b, happly, h', hagrees⟩ := TCbuf.Op.apply_spec h (.read count)
    obtain ⟨r, hread, heq⟩ := Option.map_eq_some_iff.mp happly
    obtain ⟨rfl, rfl⟩ := Prod.mk.inj heq
    have hitems : Deque.Answer.items (q.take count.toNat) = .items r.1 := hagrees
    have hdata : q.take count.toNat = r.1 := Deque.Answer.items.inj hitems
    rw [if_neg fun hlt => hfew.mp hlt hfits, hread]
    refine Round.moves h' ⟨?_, by simp [Transfer.side, TCbuf.Op.spec, Deque.step]⟩
    rw [← hdata]
    exact (List.append_nil q).trans (List.take_append_drop _ q).symm
  · rw [if_pos (hfew.mpr hfits)]
    exact Round.stays hfits

theorem transfer_spec (k : TKernel) (h : c.cbuf.toRing.Holds q) (t : Transfer) :
    Round k c q t (transfer k c t) := by
  cases t with
  | push x => exact push_spec k h x
  | pop => exact pop_spec k h
  | write data => exact write_spec k h data
  | read count => exact read_spec k h count

end Rounds

variable {s : System (service size)}

theorem map_withMap (c : TChannel size) (w : TProcessMap) (side : Side) :
    (c.withMap w side).map side = w := by cases side <;> rfl

theorem map_withMap_of_ne (c : TChannel size) (w : TProcessMap) {side side' : Side}
    (h : side' ≠ side) : (c.withMap w side).map side' = c.map side' := by
  cases side <;> cases side' <;> first | rfl | exact absurd rfl h

theorem cbuf_withMap (c : TChannel size) (w : TProcessMap) (side : Side) :
    (c.withMap w side).cbuf = c.cbuf := by cases side <;> rfl

/-- A transfer that does not fit suspends the process. -/
theorem suspend_spec (h : Coherent s) (hne : s.cur ≠ prIDLE)
    (hcur : ∀ side, ¬ Tagged (s.obj.map side) s.cur)
    (hquiet : s.kernel.timeout s.cur = 0) (t : Transfer) :
    ∃ k o, suspend s.kernel s.obj t = (.suspended t, k, o) ∧ o.cbuf = s.obj.cbuf ∧
      Blocks (service size) t s.kernel k s.obj o := by
  obtain ⟨k, w, heq, hsusp⟩ :=
    TService.suspend_spec (s.obj.map t.side) h.cur_lt_32 (h.exists_other hne)
  refine ⟨k, s.obj.withMap w t.side, ?_, cbuf_withMap _ _ _, ?_⟩
  · rw [suspend, heq]
  · refine blocks_suspended (f := s.kernel.timeout) (fun _ _ => rfl) (fun _ => hquiet)
      ?_ (fun m hm => map_withMap_of_ne _ _ hm) (fun m _ => hcur m)
    show TService.Suspends _ _ _ ((s.obj.withMap w t.side).map t.side)
    rw [map_withMap]
    exact hsusp

/-- A transfer that fits resumes the other side. -/
theorem resumeAll_spec (h : Coherent s) (cbuf : TCbuf size) (side : Side)
    (data : List UInt8) :
    ∃ k o, (resumeAll s.kernel { s.obj with cbuf } side data = (.returned data, k, o) ∨
        resumeAll s.kernel { s.obj with cbuf } side data = (.rescheduled data, k, o)) ∧
      o.cbuf = cbuf ∧ (∀ side', side' ≠ side → o.map side' = s.obj.map side') ∧
      TService.Resumed (TService.Blocked s.kernel (s.obj.map side)) s.kernel k
        (s.obj.map side) (o.map side) := by
  have hmap : ∀ side', TChannel.map { s.obj with cbuf } side' = s.obj.map side' := by
    intro side'
    cases side' <;> rfl
  obtain ⟨b, k, w, heq, -, hres⟩ := TService.resumeAll_spec (s.obj.map side) h.sched
  refine ⟨k, TChannel.withMap { s.obj with cbuf } w side, ?_, cbuf_withMap _ _ _,
    fun side' hne => (map_withMap_of_ne _ _ hne).trans (hmap side'), ?_⟩
  · unfold resumeAll
    rw [hmap, heq]
    cases b with
    | true => exact Or.inr rfl
    | false => exact Or.inl rfl
  · rw [map_withMap]
    exact hres

/-- The process that calls is in no map. -/
theorem finishes (h : Coherent s) (hcur : ∀ side, ¬ Tagged (s.obj.map side) s.cur)
    (hquiet : s.kernel.timeout s.cur = 0) {k : TKernel} {o : TChannel size} {side : Side}
    (hother : ∀ side', side' ≠ side → o.map side' = s.obj.map side')
    (hres : TService.Resumed (TService.Blocked s.kernel (s.obj.map side)) s.kernel k
      (s.obj.map side) (o.map side)) :
    Finishes (service size) s.kernel k s.obj o := by
  have hw : Wakes (service size) s.kernel k s.obj o :=
    h.wakes_resumed (m := side) (fun _ hq => hq) hres hother
  refine ⟨hw, fun m hm => hcur m (hw.tagged m _ hm), ?_, fun q _ => ?_⟩
  · rw [hres.timeout]
    exact hquiet
  · rw [hres.timeout]

/-- The buffer holds a queue. -/
def Sound (c : TChannel size) : Prop := ∃ q, c.cbuf.toRing.Holds q

theorem transfer_ends (h : Coherent s) (hne : s.cur ≠ prIDLE)
    (hcur : ∀ side, ¬ Tagged (s.obj.map side) s.cur)
    (hquiet : s.kernel.timeout s.cur = 0) (hsound : Sound s.obj) (t : Transfer) :
    ∃ a, transfer s.kernel s.obj t = some a ∧
      Ends (service size) s.kernel s.obj a ∧ Sound a.2.2 := by
  obtain ⟨q, hq⟩ := hsound
  have hround := transfer_spec s.kernel hq t
  generalize hr : transfer s.kernel s.obj t = r at hround
  cases hround with
  | stays unfit =>
    obtain ⟨k, o, hsusp, hcbuf, hblocks⟩ := suspend_spec h hne hcur hquiet t
    refine ⟨_, rfl, ?_⟩
    rw [hsusp]
    exact ⟨Ends.suspended (S := service size) t hblocks, q, hcbuf ▸ hq⟩
  | @moves cbuf q' data hq' moved =>
    obtain ⟨k, o, heq, hcbuf, hother, hres⟩ := resumeAll_spec h cbuf t.side.other data
    have hfin := finishes h hcur hquiet hother hres
    have hsound' : Sound o := ⟨q', hcbuf ▸ hq'⟩
    refine ⟨_, rfl, ?_⟩
    rcases heq with heq | heq
    · rw [heq]
      exact ⟨Ends.returned data hfin, hsound'⟩
    · rw [heq]
      exact ⟨Ends.rescheduled data hfin, hsound'⟩

/-- A process that comes back from `suspend` is in no map, and has no timeout. -/
theorem no_map (h : Coherent s) {t : Transfer} (hp : s.place s.cur = .waiting t)
    (hready : s.kernel.Ready s.cur) :
    (∀ side, ¬ Tagged (s.obj.map side) s.cur) ∧ s.kernel.timeout s.cur = 0 := by
  obtain ⟨hquiet, hnot⟩ := h.untimed _ t hp rfl
  refine ⟨fun side htag => ?_, hquiet⟩
  by_cases hside : side = t.side
  · subst hside
    exact hnot ⟨hready, htag⟩
  · exact h.not_tagged_other hp hside htag

theorem lawful (size : BitVec 8) : (service size).Lawful Sound where
  enter := by
    intro s t h hsound hs
    have hquiet := h.quiet _ (Or.inl (Coherent.place_of_active hs))
    exact transfer_ends h hs.2 (h.not_tagged (Coherent.waits_of_active hs)) hquiet
      hsound t
  again := by
    intro s t h hsound hp hready
    obtain ⟨hcur, hquiet⟩ := no_map h hp hready
    exact transfer_ends h (h.ne_idle_of_waiting hp) hcur hquiet hsound t
  isr := by
    intro s i
    cases i

end Calls

/-! ## The record -/

/-- What is recorded of a step. -/
abbrev Record := Obs Transfer Transfer Empty (List UInt8)

/-- The bytes that a step has put in. -/
def bytesIn : Record → List UInt8
  | .done _ t _ | .returned _ t _ => t.bytes
  | .blocked _ _ | .isr _ | .tick | .wakeUp _ | .forceWakeUp _ => []

/-- The bytes that a step has taken out. -/
def bytesOut : Record → List UInt8
  | .done _ _ data | .returned _ _ data => data
  | .blocked _ _ | .isr _ | .tick | .wakeUp _ | .forceWakeUp _ => []

section Runs

variable {size : BitVec 8} {s s' : System (service size)} {q : List UInt8}

/-- What holds in every run, with the queue in the buffer. -/
structure Carries (s : System (service size)) (q : List UInt8) : Prop where
  holds : s.obj.cbuf.toRing.Holds q
  queue : s.log.flatMap bytesOut ++ q = s.log.flatMap bytesIn
  stuck : ∀ p t, s.place p = .waiting t → ¬ s.kernel.Ready p → ¬ t.Fits size q.length

theorem Carries.init (hpos : 0 < size.toNat) (buf : Vector UInt8 size.toNat) :
    Carries (System.init (TChannel.static buf)) [] where
  holds := RingBuffer.init_holds hpos buf
  queue := rfl
  stuck := by
    intro p t hp
    cases hp

/-- A round that suspends the process. -/
theorem Carries.suspended (h : Carries s q) {t : Transfer} (hfits : ¬ t.Fits size q.length)
    {k : TKernel} {o : TChannel size} (hcbuf : o.cbuf = s.obj.cbuf)
    (hready : ∀ p, k.Ready p ↔ s.kernel.Ready p ∧ p ≠ s.cur) :
    Carries { kernel := k, obj := o, place := s.moves (.waiting t)
              log := s.log ++ [.blocked s.cur t] } q where
  holds := by
    show o.cbuf.toRing.Holds q
    rw [hcbuf]
    exact h.holds
  queue := by
    rw [List.flatMap_append, List.flatMap_append, List.flatMap_singleton,
      List.flatMap_singleton, bytesOut, bytesIn, List.append_nil, List.append_nil]
    exact h.queue
  stuck := by
    intro p t' hp hnot
    by_cases hcur : p = s.cur
    · subst hcur
      have heq := (Coherent.moves_self s (.waiting t)).symm.trans hp
      rw [Place.waiting.injEq] at heq
      exact heq ▸ hfits
    · have hold := (Coherent.moves_of_ne s (.waiting t) hcur).symm.trans hp
      exact h.stuck p t' hold fun hr => hnot ((hready p).mpr ⟨hr, hcur⟩)

/-- A round that ends the call. -/
theorem Carries.moved (hco : Coherent s) (h : Carries s q) {t : Transfer} {q' data : List UInt8}
    (hmoved : Moved q q' t data) {k : TKernel} {o : TChannel size}
    (hholds : o.cbuf.toRing.Holds q')
    (hres : TService.Resumed (TService.Blocked s.kernel (s.obj.map t.side.other)) s.kernel k
      (s.obj.map t.side.other) (o.map t.side.other))
    {place : Place Transfer} (hplace : place = .running ∨ place = .switching)
    {r : Record} (hin : bytesIn r = t.bytes) (hout : bytesOut r = data) :
    Carries { kernel := k, obj := o, place := s.moves place, log := s.log ++ [r] } q' where
  holds := hholds
  queue := by
    rw [List.flatMap_append, List.flatMap_append, List.flatMap_singleton,
      List.flatMap_singleton, hin, hout, List.append_assoc, ← hmoved.queue,
      ← List.append_assoc, h.queue]
  stuck := by
    intro p t' hp hnot
    have hold := (Coherent.of_moves hp (by rcases hplace with rfl | rfl <;> simp)).2
    have hnot' : ¬ s.kernel.Ready p := fun hr => hnot ((hres.ready p).mpr (Or.inl hr))
    by_cases hside : t'.side = t.side.other
    · -- the transfer has resumed everybody on the other side
      have htag := hco.blocked p t' hold hnot'
      rw [show (service size).waitsAt t' = t.side.other from hside] at htag
      exact absurd ((hres.ready p).mpr (Or.inr ⟨htag, hnot'⟩)) hnot
    · have hsame : t'.side = t.side := by
        cases ht' : t'.side <;> cases ht : t.side <;> simp [ht', ht, Side.other] at hside ⊢
      exact fun hfits => h.stuck p t' hold hnot' (hfits.of_same_side hsame hmoved.grows)

/-- A round of the loop of a call. -/
theorem Carries.transferred (hco : Coherent s) (h : Carries s q) (hne : s.cur ≠ prIDLE)
    (hcur : ∀ side, ¬ Tagged (s.obj.map side) s.cur)
    (hquiet : s.kernel.timeout s.cur = 0) {t : Transfer} {record : List UInt8 → Record}
    (hin : ∀ data, bytesIn (record data) = t.bytes)
    (hout : ∀ data, bytesOut (record data) = data) {a : Step size}
    (heq : transfer s.kernel s.obj t = some a) :
    ∃ q', Carries (s.settle record a) q' := by
  have hround := transfer_spec s.kernel h.holds t
  rw [heq] at hround
  cases hround with
  | stays unfit =>
    obtain ⟨k, o, hsusp, hcbuf, hblocks⟩ := suspend_spec hco hne hcur hquiet t
    rw [hsusp]
    exact ⟨q, h.suspended unfit hcbuf hblocks.ready⟩
  | @moves cbuf q' data hq' moved =>
    obtain ⟨k, o, hres_eq, hcbuf, -, hres⟩ := resumeAll_spec hco cbuf t.side.other data
    have hholds : o.cbuf.toRing.Holds q' := hcbuf ▸ hq'
    rcases hres_eq with hres_eq | hres_eq
    · rw [hres_eq]
      exact ⟨q', h.moved hco moved hholds hres (Or.inl rfl) (hin data) (hout data)⟩
    · rw [hres_eq]
      exact ⟨q', h.moved hco moved hholds hres (Coherent.placeAfter_cases k) (hin data)
        (hout data)⟩

theorem bytes_of_kernel {obs : List Record} (hobs : ∀ r ∈ obs, r.OfKernel) :
    obs.flatMap bytesIn = [] ∧ obs.flatMap bytesOut = [] := by
  simp only [List.flatMap_eq_nil_iff]
  constructor
  · intro r hr
    have hkernel := hobs r hr
    cases r <;> first | rfl | exact hkernel.elim
  · intro r hr
    have hkernel := hobs r hr
    cases r <;> first | rfl | exact hkernel.elim

/-- Every step keeps the invariant. -/
theorem Carries.of_change (hco : Coherent s) (h : Carries s q) (hchange : Change s s') :
    ∃ q', Carries s' q' := by
  cases hchange with
  | nudged hn hobs =>
    obtain ⟨hin, hout⟩ := bytes_of_kernel hobs
    refine ⟨q, h.holds, ?_, ?_⟩
    · rw [List.flatMap_append, List.flatMap_append, hin, hout, List.append_nil,
        List.append_nil]
      exact h.queue
    · intro p t hp hnot
      have hp' := (hn.waiting p t).mp hp
      exact h.stuck p t hp' fun hr => hnot (hn.ready p t hp' hr)
  | isr i => cases i
  | called t hs heq =>
    have hquiet := hco.quiet _ (Or.inl (Coherent.place_of_active hs))
    exact h.transferred hco hs.2 (hco.not_tagged (Coherent.waits_of_active hs)) hquiet
      (fun _ => rfl) (fun _ => rfl) heq
  | resumed t hp hr heq =>
    obtain ⟨hcur, hquiet⟩ := no_map hco hp hr
    exact h.transferred hco (hco.ne_idle_of_waiting hp) hcur hquiet (fun _ => rfl)
      (fun _ => rfl) heq

/-- The run theorem. -/
theorem exec_carries (hpos : 0 < size.toNat) (buf : Vector UInt8 size.toNat)
    {es : List (Event (service size))} (hes : System.Admitted (TChannel.static buf) es) :
    ∃ s q, System.exec (TChannel.static buf) es = some s ∧ Coherent s ∧ Carries s q := by
  have hsound : Sound (TChannel.static buf) := ⟨[], RingBuffer.init_holds hpos buf⟩
  have hmaps : ∀ side p, ¬ Tagged ((TChannel.static buf).map side) p := by
    intro side p
    cases side with
    | producers => exact not_tagged_zero
    | consumers => exact not_tagged_zero
  have heffect : ∀ s s' : System (service size), Coherent s → Sound s.obj →
      Coherent s' → (∃ q, Carries s q) → Effect s s' → ∃ q, Carries s' q := by
    intro s s' hco _ _ hcarries heffect
    obtain ⟨q, h⟩ := hcarries
    exact h.of_change hco (heffect.change hco)
  obtain ⟨s, hs, hco, -, q, h⟩ :=
    exec_inv (lawful size) hsound hmaps ⟨[], Carries.init hpos buf⟩ heffect hes
  exact ⟨s, q, hs, hco, h⟩

/-- The channel over every run: no transfer fails, and the bytes taken out and
then those in the buffer are the bytes put in. -/
theorem run_is_fifo (hpos : 0 < size.toNat) (buf : Vector UInt8 size.toNat)
    (es : List (Event (service size))) (hes : System.Admitted (TChannel.static buf) es) :
    ∃ s q, System.exec (TChannel.static buf) es = some s ∧
      s.obj.cbuf.toRing.Holds q ∧
      s.log.flatMap bytesOut ++ q = s.log.flatMap bytesIn ∧
      s.obj.cbuf.getCount.toNat = q.length ∧ q.length ≤ size.toNat := by
  obtain ⟨s, q, hs, -, h⟩ := exec_carries hpos buf hes
  exact ⟨s, q, hs, h.holds, h.queue, getCount_toNat h.holds, h.holds.length_le⟩

/-- One process waits for bytes and then for room, and another one helps it out. -/
def meeting : List (Event (service 3#8)) :=
  [.call .pop, .contextSwitch, .call (.write [7, 8, 9]), .contextSwitch, .resume,
    .call (.push 1), .call (.push 2), .contextSwitch, .resume, .call .pop,
    .contextSwitch, .resume]

theorem meeting_admitted :
    System.Admitted (TChannel.static (Vector.replicate (3#8).toNat 0)) meeting :=
  admitted_of_unforced (by simp [meeting]) _

theorem run_is_fifo_meeting :
    ∃ s q, System.exec (TChannel.static (Vector.replicate (3#8).toNat 0)) meeting = some s ∧
      s.obj.cbuf.toRing.Holds q ∧
      s.log.flatMap bytesOut ++ q = s.log.flatMap bytesIn ∧
      s.obj.cbuf.getCount.toNat = q.length ∧ q.length ≤ 3 :=
  run_is_fifo (by decide) _ meeting meeting_admitted

/-- No transfer is left waiting that could go on: a process that waits and is not
ready does not find the room or the bytes that it waits for. -/
theorem waits_justified (hpos : 0 < size.toNat) (buf : Vector UInt8 size.toNat)
    (es : List (Event (service size))) (hes : System.Admitted (TChannel.static buf) es) :
    ∃ s, System.exec (TChannel.static buf) es = some s ∧
      ∀ p t, s.place p = .waiting t → ¬ s.kernel.Ready p →
        ¬ t.Fits size s.obj.cbuf.getCount.toNat := by
  obtain ⟨s, q, hs, -, h⟩ := exec_carries hpos buf hes
  refine ⟨s, hs, fun p t hp hnot => ?_⟩
  rw [getCount_toNat h.holds]
  exact h.stuck p t hp hnot

/-- In the middle of the meeting the channel is full, and `push` waits. -/
theorem waits_justified_meeting :
    ∃ s, System.exec (TChannel.static (Vector.replicate (3#8).toNat 0)) (meeting.take 8)
        = some s ∧
      s.place pr0 = .waiting (.push 2) ∧ ¬ s.kernel.Ready pr0 ∧
      s.obj.cbuf.getCount = 3#8 ∧
      ¬ (Transfer.push 2).Fits 3#8 s.obj.cbuf.getCount.toNat := by
  have hstate : (System.exec (TChannel.static (Vector.replicate (3#8).toNat 0))
      (meeting.take 8)).map (fun s => (decide (s.place pr0 = .waiting (.push 2)),
        decide (s.kernel.Ready pr0), s.obj.cbuf.getCount)) = some (true, false, 3#8) := by
    decide +kernel
  obtain ⟨s, hs, hjustified⟩ := waits_justified (by decide)
    (Vector.replicate (3#8).toNat 0) (meeting.take 8)
    (admitted_of_unforced (by simp [meeting]) _)
  rw [hs, Option.map_some, Option.some.injEq, Prod.mk.injEq, Prod.mk.injEq,
    decide_eq_true_iff, decide_eq_false_iff_not] at hstate
  obtain ⟨hplace, hnot, hcount⟩ := hstate
  exact ⟨s, hs, hplace, hnot, hcount, hjustified pr0 _ hplace hnot⟩

end Runs

end TChannel

end EBLmon.Os
