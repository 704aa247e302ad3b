import EBLmon.Os.System

/-!
# The invariant of the processes

`Coherent` relates the places of the processes to the ready map, the timeouts
and the maps of the service.  `Wakes` and `Blocks` are what a service function
may do to them, and a service is `Lawful` when its functions do nothing else.
Then every step keeps `Coherent` (`step_effect`), and a property of the service
holds in every run as soon as each `Effect` keeps it (`exec_inv`).
-/

namespace EBLmon.Os

open Machine

variable {S : Service}

/-- What holds between any two steps. -/
structure Coherent (s : System S) : Prop where
  cur_lt : s.cur < 4
  ready_lt : ∀ p, s.kernel.Ready p → p < 4
  idle : s.kernel.Ready prIDLE
  sched : s.kernel.Ready s.kernel.schedProcPriority
  idle_runs : s.place prIDLE = .running
  waits_lt : ∀ p c, s.place p = .waiting c → p < 4
  unready : ∀ p < 4, ¬ s.kernel.Ready p →
    s.place p = .sleeping ∨ ∃ c, s.place p = .waiting c
  quiet : ∀ p, s.place p = .running ∨ s.place p = .switching →
    s.kernel.timeout p = 0
  slept : ∀ p, s.place p = .sleeping → s.kernel.Ready p →
    s.kernel.timeout p = 0
  tagged : ∀ m p, Tagged (S.map s.obj m) p →
    ∃ c, s.place p = .waiting c ∧ S.waitsAt c = m
  blocked : ∀ p c, s.place p = .waiting c → ¬ s.kernel.Ready p →
    Tagged (S.map s.obj (S.waitsAt c)) p
  expired : ∀ p c, s.place p = .waiting c → s.kernel.Ready p →
    Tagged (S.map s.obj (S.waitsAt c)) p → s.kernel.timeout p = 0
  untimed : ∀ p c, s.place p = .waiting c → S.timed c = false →
    s.kernel.timeout p = 0 ∧
      ¬ (s.kernel.Ready p ∧ Tagged (S.map s.obj (S.waitsAt c)) p)

/-! ## What a service may do -/

/-- Processes that wait are resumed and leave the maps. -/
structure Wakes (S : Service) (k k' : TKernel) (o o' : S.Obj) : Prop where
  cur : k'.curProcPriority = k.curProcPriority
  ready : ∀ q, k.Ready q → k'.Ready q
  woken : ∀ q, k'.Ready q → k.Ready q ∨ ∃ m, Tagged (S.map o m) q
  sched : k'.Ready k'.schedProcPriority
  tagged : ∀ m q, Tagged (S.map o' m) q → Tagged (S.map o m) q
  blocked : ∀ m q, Tagged (S.map o m) q → ¬ k'.Ready q → Tagged (S.map o' m) q
  left : ∀ m q, Tagged (S.map o' m) q → k'.Ready q → k.Ready q
  picks : TKernel.Picks k k'

/-- The current process is suspended. -/
structure Blocks (S : Service) (w : S.Wait) (k k' : TKernel) (o o' : S.Obj) :
    Prop where
  cur : k'.curProcPriority = k.curProcPriority
  timeout : ∀ q, q ≠ k.curProcPriority → k'.timeout q = k.timeout q
  untimed : S.timed w = false → k'.timeout k.curProcPriority = 0
  ready : ∀ q, k'.Ready q ↔ k.Ready q ∧ q ≠ k.curProcPriority
  sched : k'.Ready k'.schedProcPriority
  tagged : ∀ m q, Tagged (S.map o' m) q ↔
    (Tagged (S.map o m) q ∧ q ≠ k.curProcPriority) ∨
      (q = k.curProcPriority ∧ m = S.waitsAt w)
  picks : TKernel.Picks k k'

/-- The current process is done with a call. -/
structure Finishes (S : Service) (k k' : TKernel) (o o' : S.Obj) : Prop where
  wakes : Wakes S k k' o o'
  gone : ∀ m, ¬ Tagged (S.map o' m) k.curProcPriority
  quiet : k'.timeout k.curProcPriority = 0
  timeout : ∀ q, q ≠ k.curProcPriority → k'.timeout q = k.timeout q

/-- A step of a call that ends as it should. -/
inductive Ends (S : Service) (k : TKernel) (o : S.Obj) : S.Step → Prop where
  | returned (r : S.Ans) {k' : TKernel} {o' : S.Obj}
      (h : Finishes S k k' o o') : Ends S k o (.returned r, k', o')
  | rescheduled (r : S.Ans) {k' : TKernel} {o' : S.Obj}
      (h : Finishes S k k' o o') : Ends S k o (.rescheduled r, k', o')
  | suspended (w : S.Wait) {k' : TKernel} {o' : S.Obj}
      (h : Blocks S w k k' o o') : Ends S k o (.suspended w, k', o')

/-- The rules for a service.  `Inv` is the invariant of its objects. -/
structure Service.Lawful (S : Service) (Inv : S.Obj → Prop) : Prop where
  enter : ∀ (s : System S) c, Coherent s → Inv s.obj → s.Active →
    ∃ a, S.enter s.kernel s.obj c = some a ∧ Ends S s.kernel s.obj a ∧
      Inv a.2.2
  again : ∀ (s : System S) w, Coherent s → Inv s.obj →
    s.place s.cur = .waiting w → s.kernel.Ready s.cur →
    ∃ a, S.again s.kernel s.obj w = some a ∧ Ends S s.kernel s.obj a ∧
      Inv a.2.2
  isr : ∀ (s : System S) i, Coherent s → Inv s.obj →
    ∃ k o, S.isr s.kernel s.obj i = some (k, o) ∧ Wakes S s.kernel k s.obj o ∧
      k.timeout = s.kernel.timeout ∧ Inv o

theorem Service.Lawful.of_isr {Inv : S.Obj → Prop} (law : S.Lawful Inv) {s : System S}
    (h : Coherent s) (hinv : Inv s.obj) {i : S.Isr} {k : TKernel} {o : S.Obj}
    (heq : S.isr s.kernel s.obj i = some (k, o)) :
    Wakes S s.kernel k s.obj o ∧ k.timeout = s.kernel.timeout ∧ Inv o := by
  obtain ⟨k', o', heq', hisr⟩ := law.isr s i h hinv
  obtain ⟨rfl, rfl⟩ := Prod.mk.inj (Option.some.inj (heq'.symm.trans heq))
  exact hisr

namespace Coherent

variable {s : System S}

theorem init {obj : S.Obj} (h : ∀ m p, ¬ Tagged (S.map obj m) p) :
    Coherent (System.init obj) where
  cur_lt := by
    show pr0 < 4
    decide
  ready_lt := by
    intro p hp
    have hlt := Tagged.lt hp
    have hall : ∀ q < 32, TKernel.init.Ready q → q < 4 := by decide
    exact hall p hlt hp
  idle := by
    show TKernel.init.Ready prIDLE
    decide
  sched := by
    show TKernel.init.Ready TKernel.init.schedProcPriority
    decide
  idle_runs := rfl
  waits_lt := by
    intro p c hp
    cases hp
  unready := by
    intro p hlt hp
    have hall : ∀ q < 4, TKernel.init.Ready q := by decide
    exact absurd (hall p hlt) hp
  quiet := fun _ _ => rfl
  slept := fun _ _ _ => rfl
  tagged := fun m p hp => absurd hp (h m p)
  blocked := by
    intro p c hp
    cases hp
  expired := by
    intro p c hp
    cases hp
  untimed := by
    intro p c hp
    cases hp

/-- A process is in one map at most. -/
theorem map_unique (h : Coherent s) {m m' : S.Map} {p : ℕ}
    (hm : Tagged (S.map s.obj m) p) (hm' : Tagged (S.map s.obj m') p) :
    m = m' := by
  obtain ⟨c, hc, rfl⟩ := h.tagged m p hm
  obtain ⟨c', hc', rfl⟩ := h.tagged m' p hm'
  rw [hc, Place.waiting.injEq] at hc'
  rw [hc']

/-- Only a process that waits is in a map. -/
theorem not_tagged (h : Coherent s) {p : ℕ} (hp : ∀ c, s.place p ≠ .waiting c)
    (m : S.Map) : ¬ Tagged (S.map s.obj m) p := by
  intro htag
  obtain ⟨c, hc, -⟩ := h.tagged m p htag
  exact hp c hc

/-- A process that waits is in no other map than its own. -/
theorem not_tagged_other (h : Coherent s) {p : ℕ} {c : S.Wait}
    (hp : s.place p = .waiting c) {m : S.Map} (hm : m ≠ S.waitsAt c) :
    ¬ Tagged (S.map s.obj m) p := by
  intro htag
  obtain ⟨c', hc', rfl⟩ := h.tagged m p htag
  rw [hp, Place.waiting.injEq] at hc'
  exact hm (congrArg S.waitsAt hc'.symm)

/-- The current process outside of a call is ready. -/
theorem ready_of_active (h : Coherent s) (hs : s.Active) :
    s.kernel.Ready s.cur := by
  by_contra hnot
  rcases h.unready s.cur h.cur_lt hnot with hp | ⟨c, hp⟩
  · exact absurd hs.1 (by rw [hp]; simp [Place.isRunning])
  · exact absurd hs.1 (by rw [hp]; simp [Place.isRunning])

theorem place_of_active (hs : s.Active) : s.place s.cur = .running := by
  have hrun := hs.1
  cases hp : s.place s.cur with
  | running => rfl
  | switching | sleeping | waiting c =>
    rw [hp] at hrun
    exact absurd hrun (by simp [Place.isRunning])

/-- A call that returns at once leaves the process where it is. -/
theorem moves_running (hs : s.Active) : s.moves .running = s.place := by
  rw [System.moves, ← place_of_active hs, Function.update_eq_self]

/-- A process that waits is not the idle process. -/
theorem ne_idle_of_waiting (h : Coherent s) {p : ℕ} {c : S.Wait}
    (hp : s.place p = .waiting c) : p ≠ prIDLE := by
  rintro rfl
  rw [h.idle_runs] at hp
  cases hp

/-- There is another process to run. -/
theorem exists_other (h : Coherent s) (hne : s.cur ≠ prIDLE) :
    ∃ p, p ≠ s.kernel.curProcPriority ∧ s.kernel.Ready p :=
  ⟨prIDLE, Ne.symm hne, h.idle⟩

theorem cur_lt_32 (h : Coherent s) : s.kernel.curProcPriority < 32 :=
  Nat.lt_trans h.cur_lt (by decide)

/-! ## The steps -/

/-- The interrupt calls of a service. -/
theorem isr (h : Coherent s) {k : TKernel} {o : S.Obj}
    (hw : Wakes S s.kernel k s.obj o) (ht : k.timeout = s.kernel.timeout)
    (log : List S.Obs) :
    Coherent { s with kernel := k, obj := o, log } where
  cur_lt := by
    show k.curProcPriority < 4
    rw [hw.cur]
    exact h.cur_lt
  ready_lt := by
    intro p hp
    rcases hw.woken p hp with hp | ⟨m, hp⟩
    · exact h.ready_lt p hp
    · obtain ⟨c, hc, -⟩ := h.tagged m p hp
      exact h.waits_lt p c hc
  idle := hw.ready _ h.idle
  sched := hw.sched
  idle_runs := h.idle_runs
  waits_lt := h.waits_lt
  unready := fun p hlt hp => h.unready p hlt fun hold => hp (hw.ready p hold)
  quiet := by
    intro p hp
    show k.timeout p = 0
    rw [ht]
    exact h.quiet p hp
  slept := by
    intro p hp hready
    show k.timeout p = 0
    rw [ht]
    rcases hw.woken p hready with hready | ⟨m, htag⟩
    · exact h.slept p hp hready
    · exact absurd htag (h.not_tagged (by simp [show s.place p = _ from hp]) m)
  tagged := fun m p hp => h.tagged m p (hw.tagged m p hp)
  blocked := by
    intro p c hp hnot
    exact hw.blocked _ p (h.blocked p c hp fun hold => hnot (hw.ready p hold)) hnot
  expired := by
    intro p c hp hready htag
    show k.timeout p = 0
    rw [ht]
    exact h.expired p c hp (hw.left _ p htag hready) (hw.tagged _ p htag)
  untimed := by
    intro p c hp hc
    obtain ⟨hzero, hnot⟩ := h.untimed p c hp hc
    refine ⟨(congrFun ht p).trans hzero, fun hboth => hnot ?_⟩
    exact ⟨hw.left _ p hboth.2 hboth.1, hw.tagged _ p hboth.2⟩

theorem moves_self (s : System S) (place : Place S.Wait) :
    s.moves place s.cur = place := Function.update_self _ _ _

theorem moves_of_ne (s : System S) (place : Place S.Wait) {p : ℕ}
    (hp : p ≠ s.cur) : s.moves place p = s.place p :=
  Function.update_of_ne hp _ _

/-- A process that is at another place than the one the current process goes to. -/
theorem of_moves {place q : Place S.Wait} {p : ℕ} (hp : s.moves place p = q)
    (hq : q ≠ place) : p ≠ s.cur ∧ s.place p = q := by
  by_cases hcur : p = s.cur
  · subst hcur
    rw [moves_self] at hp
    exact absurd hp.symm hq
  · rw [moves_of_ne s place hcur] at hp
    exact ⟨hcur, hp⟩

/-- The current process is done with a call: it runs, or is in the loop of
`sched`. -/
theorem finishes (h : Coherent s) (hne : s.cur ≠ prIDLE)
    (hready : s.kernel.Ready s.cur) {k : TKernel} {o : S.Obj}
    (hf : Finishes S s.kernel k s.obj o) {place : Place S.Wait}
    (hplace : place = .running ∨ place = .switching)
    (log : List S.Obs) :
    Coherent { kernel := k, obj := o, place := s.moves place, log } := by
  have hw := hf.wakes
  have hwait : ∀ p c, s.moves place p = .waiting c →
      p ≠ s.cur ∧ s.place p = .waiting c := fun p c hp =>
    of_moves hp (by rcases hplace with rfl | rfl <;> simp)
  have hsleep : ∀ p, s.moves place p = .sleeping →
      p ≠ s.cur ∧ s.place p = .sleeping := fun p hp =>
    of_moves hp (by rcases hplace with rfl | rfl <;> simp)
  refine ⟨?cur_lt, ?ready_lt, hw.ready _ h.idle, hw.sched, ?idle_runs, ?waits_lt,
    ?unready, ?quiet, ?slept, ?tagged, ?blocked, ?expired, ?untimed⟩
  case cur_lt =>
    show k.curProcPriority < 4
    rw [hw.cur]
    exact h.cur_lt
  case ready_lt =>
    intro p hp
    rcases hw.woken p hp with hp | ⟨m, hp⟩
    · exact h.ready_lt p hp
    · obtain ⟨c, hc, -⟩ := h.tagged m p hp
      exact h.waits_lt p c hc
  case idle_runs => exact (moves_of_ne s place (Ne.symm hne)).trans h.idle_runs
  case waits_lt =>
    intro p c hp
    exact h.waits_lt p c (hwait p c hp).2
  case unready =>
    intro p hlt hp
    have hcur : p ≠ s.cur := by
      rintro rfl
      exact hp (hw.ready _ hready)
    show s.moves place p = _ ∨ ∃ c, s.moves place p = _
    rw [moves_of_ne s place hcur]
    exact h.unready p hlt fun hold => hp (hw.ready p hold)
  case quiet =>
    intro p hp
    by_cases hcur : p = s.cur
    · subst hcur
      exact hf.quiet
    · have hp' : s.moves place p = .running ∨ s.moves place p = .switching := hp
      rw [moves_of_ne s place hcur] at hp'
      exact (hf.timeout p hcur).trans (h.quiet p hp')
  case slept =>
    intro p hp hr
    obtain ⟨hcur, hp⟩ := hsleep p hp
    refine (hf.timeout p hcur).trans (h.slept p hp ?_)
    rcases hw.woken p hr with hr | ⟨m, htag⟩
    · exact hr
    · exact absurd htag (h.not_tagged (by simp [hp]) m)
  case tagged =>
    intro m p hp
    have hcur : p ≠ s.cur := by
      rintro rfl
      exact hf.gone m hp
    show ∃ c, s.moves place p = _ ∧ _
    rw [moves_of_ne s place hcur]
    exact h.tagged m p (hw.tagged m p hp)
  case blocked =>
    intro p c hp hnot
    have hp' := (hwait p c hp).2
    exact hw.blocked _ p (h.blocked p c hp' fun hold => hnot (hw.ready p hold)) hnot
  case expired =>
    intro p c hp hr htag
    obtain ⟨hcur, hp⟩ := hwait p c hp
    exact (hf.timeout p hcur).trans
      (h.expired p c hp (hw.left _ p htag hr) (hw.tagged _ p htag))
  case untimed =>
    intro p c hp hc
    obtain ⟨hcur, hp⟩ := hwait p c hp
    obtain ⟨hzero, hnot⟩ := h.untimed p c hp hc
    refine ⟨(hf.timeout p hcur).trans hzero, fun hboth => hnot ?_⟩
    exact ⟨hw.left _ p hboth.2 hboth.1, hw.tagged _ p hboth.2⟩

/-- The current process is suspended. -/
theorem blocks (h : Coherent s) (hne : s.cur ≠ prIDLE) {c : S.Wait}
    {k : TKernel} {o : S.Obj} (hb : Blocks S c s.kernel k s.obj o)
    (log : List S.Obs) :
    Coherent { kernel := k, obj := o, place := s.moves (.waiting c), log } := by
  have hself : s.moves (.waiting c) s.cur = .waiting c := moves_self s _
  have hother : ∀ p, p ≠ s.cur → s.moves (.waiting c) p = s.place p :=
    fun p hp => moves_of_ne s _ hp
  have hcur_not : ¬ k.Ready s.cur := fun hr => ((hb.ready _).mp hr).2 rfl
  have hold : ∀ p, k.Ready p → s.kernel.Ready p := fun p hr =>
    ((hb.ready p).mp hr).1
  have hne_of_ready : ∀ p, k.Ready p → p ≠ s.cur := fun p hr =>
    ((hb.ready p).mp hr).2
  have hmap : ∀ m p, p ≠ s.cur → Tagged (S.map o m) p →
      Tagged (S.map s.obj m) p := by
    intro m p hcur htag
    rcases (hb.tagged m p).mp htag with htag | ⟨heq, -⟩
    · exact htag.1
    · exact absurd heq hcur
  refine ⟨?cur_lt, fun p hp => h.ready_lt p (hold p hp), ?idle, hb.sched, ?idle_runs,
    ?waits_lt, ?unready, ?quiet, ?slept, ?tagged, ?blocked, ?expired, ?untimed⟩
  case cur_lt =>
    show k.curProcPriority < 4
    rw [hb.cur]
    exact h.cur_lt
  case idle => exact (hb.ready _).mpr ⟨h.idle, Ne.symm hne⟩
  case idle_runs => exact (hother _ (Ne.symm hne)).trans h.idle_runs
  case waits_lt =>
    intro p c' hp
    by_cases hcur : p = s.cur
    · subst hcur
      exact h.cur_lt
    · exact h.waits_lt p c' ((hother p hcur).symm.trans hp)
  case unready =>
    intro p hlt hp
    by_cases hcur : p = s.cur
    · subst hcur
      exact Or.inr ⟨c, hself⟩
    · show s.moves _ p = _ ∨ ∃ c, s.moves _ p = _
      rw [hother p hcur]
      exact h.unready p hlt fun hr => hp ((hb.ready p).mpr ⟨hr, hcur⟩)
  case quiet =>
    intro p hp
    by_cases hcur : p = s.cur
    · subst hcur
      rcases hp with hp | hp
      · exact absurd (hself.symm.trans hp) (by simp)
      · exact absurd (hself.symm.trans hp) (by simp)
    · have hp' : s.moves (.waiting c) p = .running ∨
          s.moves (.waiting c) p = .switching := hp
      rw [hother p hcur] at hp'
      exact (hb.timeout p hcur).trans (h.quiet p hp')
  case slept =>
    intro p hp hr
    have hcur := hne_of_ready p hr
    exact (hb.timeout p hcur).trans
      (h.slept p ((hother p hcur).symm.trans hp) (hold p hr))
  case tagged =>
    intro m p hp
    rcases (hb.tagged m p).mp hp with ⟨htag, hcur⟩ | ⟨rfl, rfl⟩
    · show ∃ c, s.moves _ p = _ ∧ _
      rw [hother p hcur]
      exact h.tagged m p htag
    · exact ⟨c, hself, rfl⟩
  case blocked =>
    intro p c' hp hnot
    refine (hb.tagged _ p).mpr ?_
    by_cases hcur : p = s.cur
    · subst hcur
      have hc := hself.symm.trans hp
      rw [Place.waiting.injEq] at hc
      exact Or.inr ⟨rfl, congrArg S.waitsAt hc.symm⟩
    · refine Or.inl ⟨h.blocked p c' ((hother p hcur).symm.trans hp) ?_, hcur⟩
      exact fun hr => hnot ((hb.ready p).mpr ⟨hr, hcur⟩)
  case expired =>
    intro p c' hp hr htag
    have hcur := hne_of_ready p hr
    exact (hb.timeout p hcur).trans
      (h.expired p c' ((hother p hcur).symm.trans hp) (hold p hr)
        (hmap _ p hcur htag))
  case untimed =>
    intro p c' hp hc
    by_cases hcur : p = s.cur
    · subst hcur
      have hcc := hself.symm.trans hp
      rw [Place.waiting.injEq] at hcc
      subst hcc
      exact ⟨hb.untimed hc, fun hboth => hcur_not hboth.1⟩
    · obtain ⟨hzero, hnot⟩ :=
        h.untimed p c' ((hother p hcur).symm.trans hp) hc
      refine ⟨(hb.timeout p hcur).trans hzero, fun hboth => hnot ?_⟩
      exact ⟨hold p hboth.1, hmap _ p hcur hboth.2⟩

/-- The place behind a reschedule. -/
theorem placeAfter_cases (k : TKernel) :
    (System.placeAfter k : Place S.Wait) = .running ∨
      (System.placeAfter k : Place S.Wait) = .switching := by
  unfold System.placeAfter
  split
  · exact Or.inr rfl
  · exact Or.inl rfl

/-- A step of a call. -/
theorem settle (h : Coherent s) (hne : s.cur ≠ prIDLE)
    (hready : s.kernel.Ready s.cur) (record : S.Ans → S.Obs) {a : S.Step}
    (ha : Ends S s.kernel s.obj a) :
    Coherent (s.settle record a) := by
  cases ha with
  | returned r hf => exact h.finishes hne hready hf (Or.inl rfl) _
  | rescheduled r hf => exact h.finishes hne hready hf (placeAfter_cases _) _
  | suspended w hb => exact h.blocks hne hb _

end Coherent

/-! ## The steps of the kernel -/

/-- The processes that wait for the service are left alone. -/
structure Stirs (s : System S) (k : TKernel) (place : ℕ → Place S.Wait) :
    Prop where
  waiting : ∀ p c, place p = .waiting c ↔ s.place p = .waiting c
  ready : ∀ p c, s.place p = .waiting c → (k.Ready p ↔ s.kernel.Ready p)
  timeout : ∀ p c, s.place p = .waiting c → k.timeout p = s.kernel.timeout p

/-- Processes that wait for the service may be made ready, with a timeout of
zero. -/
structure Nudges (s : System S) (k : TKernel) (place : ℕ → Place S.Wait) :
    Prop where
  waiting : ∀ p c, place p = .waiting c ↔ s.place p = .waiting c
  ready : ∀ p c, s.place p = .waiting c → s.kernel.Ready p → k.Ready p
  woken : ∀ p c, s.place p = .waiting c → k.Ready p →
    s.kernel.Ready p ∨ (k.timeout p = 0 ∧ S.timed c = true)
  timeout : ∀ p c, s.place p = .waiting c → s.kernel.timeout p = 0 →
    k.timeout p = 0

theorem Stirs.refl (s : System S) : Stirs s s.kernel s.place :=
  ⟨fun _ _ => Iff.rfl, fun _ _ _ => Iff.rfl, fun _ _ _ => rfl⟩

theorem Stirs.nudges {s : System S} {k : TKernel} {place : ℕ → Place S.Wait}
    (h : Stirs s k place) : Nudges s k place where
  waiting := h.waiting
  ready := fun p c hp => (h.ready p c hp).mpr
  woken := fun p c hp hr => Or.inl ((h.ready p c hp).mp hr)
  timeout := fun p c hp hz => (h.timeout p c hp).trans hz

namespace Coherent

variable {s : System S}

/-- A step of the kernel, with what it has to say of the processes that do not
wait. -/
theorem of_nudges (h : Coherent s) {k : TKernel} {place : ℕ → Place S.Wait}
    (hn : Nudges s k place) (hcur : k.curProcPriority < 4)
    (hlt : ∀ p, k.Ready p → p < 4) (hidle : k.Ready prIDLE)
    (hsched : k.Ready k.schedProcPriority) (hruns : place prIDLE = .running)
    (hunready : ∀ p < 4, ¬ k.Ready p →
      place p = .sleeping ∨ ∃ c, place p = .waiting c)
    (hquiet : ∀ p, place p = .running ∨ place p = .switching → k.timeout p = 0)
    (hslept : ∀ p, place p = .sleeping → k.Ready p → k.timeout p = 0)
    (log : List S.Obs) :
    Coherent { kernel := k, obj := s.obj, place, log } where
  cur_lt := hcur
  ready_lt := hlt
  idle := hidle
  sched := hsched
  idle_runs := hruns
  waits_lt := fun p c hp => h.waits_lt p c ((hn.waiting p c).mp hp)
  unready := hunready
  quiet := hquiet
  slept := hslept
  tagged := by
    intro m p hp
    obtain ⟨c, hc, hm⟩ := h.tagged m p hp
    exact ⟨c, (hn.waiting p c).mpr hc, hm⟩
  blocked := by
    intro p c hp hnot
    have hp' := (hn.waiting p c).mp hp
    exact h.blocked p c hp' fun hr => hnot (hn.ready p c hp' hr)
  expired := by
    intro p c hp hr htag
    have hp' := (hn.waiting p c).mp hp
    rcases hn.woken p c hp' hr with hold | ⟨hz, -⟩
    · exact hn.timeout p c hp' (h.expired p c hp' hold htag)
    · exact hz
  untimed := by
    intro p c hp hc
    have hp' := (hn.waiting p c).mp hp
    obtain ⟨hz, hnot⟩ := h.untimed p c hp' hc
    refine ⟨hn.timeout p c hp' hz, fun hboth => ?_⟩
    rcases hn.woken p c hp' hboth.1 with hold | ⟨-, htimed⟩
    · exact hnot ⟨hold, hboth.2⟩
    · rw [hc] at htimed
      cases htimed

/-- The current process moves between places where it does not wait. -/
theorem waiting_moves {place : Place S.Wait}
    (hold : ∀ c, s.place s.cur ≠ .waiting c) (hnew : ∀ c, place ≠ .waiting c)
    (p : ℕ) (c : S.Wait) :
    s.moves place p = .waiting c ↔ s.place p = .waiting c := by
  by_cases hcur : p = s.cur
  · subst hcur
    rw [moves_self]
    exact iff_of_false (hnew c) (hold c)
  · rw [moves_of_ne s place hcur]

theorem waits_of_active (hs : s.Active) (c : S.Wait) :
    s.place s.cur ≠ .waiting c := by
  rw [place_of_active hs]
  simp

/-- The end of an interrupt. -/
theorem stirs_schedIsr (s : System S) : Stirs s s.kernel.schedIsr s.place where
  waiting := fun _ _ => Iff.rfl
  ready := fun _ _ _ => TKernel.requestSwitch_ready_iff
  timeout := fun p _ _ => congrFun (TKernel.requestSwitch_timeout s.kernel) p

theorem schedIsr (h : Coherent s) :
    Coherent { s with kernel := s.kernel.schedIsr } := by
  have hready : ∀ p, s.kernel.schedIsr.Ready p ↔ s.kernel.Ready p :=
    fun _ => TKernel.requestSwitch_ready_iff
  have htimeout : s.kernel.schedIsr.timeout = s.kernel.timeout :=
    TKernel.requestSwitch_timeout s.kernel
  refine h.of_nudges (stirs_schedIsr s).nudges ?_ ?_ ?_ ?_ h.idle_runs ?_ ?_ ?_ _
  · rw [show s.kernel.schedIsr.curProcPriority = s.cur from
      TKernel.requestSwitch_cur s.kernel]
    exact h.cur_lt
  · exact fun p hp => h.ready_lt p ((hready p).mp hp)
  · exact (hready _).mpr h.idle
  · exact TKernel.requestSwitch_sched ⟨_, h.idle⟩ (Or.inl h.sched)
  · exact fun p hp hnot => h.unready p hp fun hr => hnot ((hready p).mpr hr)
  · intro p hp
    rw [htimeout]
    exact h.quiet p hp
  · intro p hp hr
    rw [htimeout]
    exact h.slept p hp ((hready p).mp hr)

/-- The context switch. -/
theorem stirs_contextSwitch (s : System S) :
    Stirs s s.kernel.contextSwitchHook s.place :=
  ⟨fun _ _ => Iff.rfl, fun _ _ _ => Iff.rfl, fun _ _ _ => rfl⟩

theorem contextSwitch (h : Coherent s) :
    Coherent { s with kernel := s.kernel.contextSwitchHook } :=
  h.of_nudges (stirs_contextSwitch s).nudges (h.ready_lt _ h.sched) h.ready_lt
    h.idle h.sched h.idle_runs h.unready h.quiet h.slept _

/-- The current process goes to sleep. -/
theorem stirs_sleep (h : Coherent s) (hs : s.Active) (t : UInt16) :
    Stirs s (s.kernel.sleep t) (s.moves .sleeping) := by
  obtain ⟨ht, hr, -, -⟩ :=
    TKernel.sleep_spec h.cur_lt_32 (h.exists_other hs.2) t
  have hne : ∀ p c, s.place p = .waiting c → p ≠ s.kernel.curProcPriority := by
    rintro p c hp rfl
    exact waits_of_active hs c hp
  refine ⟨waiting_moves (waits_of_active hs) (by simp), ?_, ?_⟩
  · intro p c hp
    exact (hr p).trans (and_iff_left (hne p c hp))
  · intro p c hp
    rw [ht, Function.update_of_ne (hne p c hp)]

theorem sleep (h : Coherent s) (hs : s.Active) (t : UInt16) :
    Coherent { s with
      kernel := s.kernel.sleep t
      place := s.moves .sleeping } := by
  obtain ⟨ht, hr, hc, hsched⟩ :=
    TKernel.sleep_spec h.cur_lt_32 (h.exists_other hs.2) t
  have hother : ∀ p, p ≠ s.cur → s.moves .sleeping p = s.place p :=
    fun p hp => moves_of_ne s _ hp
  have htimeout : ∀ p, p ≠ s.cur →
      (s.kernel.sleep t).timeout p = s.kernel.timeout p := by
    intro p hp
    rw [ht]
    exact Function.update_of_ne hp _ _
  refine h.of_nudges (h.stirs_sleep hs t).nudges ?_ ?_ ?_ hsched ?_ ?_ ?_ ?_ _
  · rw [hc]
    exact h.cur_lt
  · exact fun p hp => h.ready_lt p ((hr p).mp hp).1
  · exact (hr _).mpr ⟨h.idle, Ne.symm hs.2⟩
  · rw [hother _ (Ne.symm hs.2)]
    exact h.idle_runs
  · intro p hp hnot
    by_cases hcur : p = s.cur
    · subst hcur
      exact Or.inl (moves_self s _)
    · rw [hother p hcur]
      exact h.unready p hp fun hready => hnot ((hr p).mpr ⟨hready, hcur⟩)
  · intro p hp
    by_cases hcur : p = s.cur
    · subst hcur
      rw [moves_self] at hp
      rcases hp with hp | hp <;> cases hp
    · rw [hother p hcur] at hp
      exact (htimeout p hcur).trans (h.quiet p hp)
  · intro p hp hready
    have hcur : p ≠ s.cur := ((hr p).mp hready).2
    rw [hother p hcur] at hp
    exact (htimeout p hcur).trans (h.slept p hp ((hr p).mp hready).1)

/-- The current process comes back from `sched`, and does not wait for the
service. -/
theorem stirs_comesBack (hp : ∀ c, s.place s.cur ≠ .waiting c) :
    Stirs s s.kernel (s.moves .running) :=
  ⟨waiting_moves hp (by simp), fun _ _ _ => Iff.rfl, fun _ _ _ => rfl⟩

theorem waits_of_left (hp : s.place s.cur = .switching ∨ s.place s.cur = .sleeping)
    (c : S.Wait) : s.place s.cur ≠ .waiting c := by
  rcases hp with hp | hp <;> simp [hp]

theorem comesBack (h : Coherent s) (hready : s.kernel.Ready s.cur)
    (hp : s.place s.cur = .switching ∨ s.place s.cur = .sleeping) :
    Coherent { s with place := s.moves .running } := by
  have hwait := waits_of_left hp
  have hquiet : s.kernel.timeout s.cur = 0 := by
    rcases hp with hp | hp
    · exact h.quiet _ (Or.inr hp)
    · exact h.slept _ hp hready
  refine h.of_nudges (stirs_comesBack hwait).nudges h.cur_lt h.ready_lt h.idle h.sched
    ?_ ?_ ?_ ?_ _
  · by_cases hcur : prIDLE = s.cur
    · rw [hcur]
      exact moves_self s _
    · rw [moves_of_ne s _ hcur]
      exact h.idle_runs
  · intro p hlt hnot
    have hcur : p ≠ s.cur := by
      rintro rfl
      exact hnot hready
    rw [moves_of_ne s _ hcur]
    exact h.unready p hlt hnot
  · intro p hp
    by_cases hcur : p = s.cur
    · subst hcur
      exact hquiet
    · rw [moves_of_ne s _ hcur] at hp
      exact h.quiet p hp
  · intro p hp hr
    by_cases hcur : p = s.cur
    · subst hcur
      exact hquiet
    · rw [moves_of_ne s _ hcur] at hp
      exact h.slept p hp hr

/-- A tick of the timer. -/
theorem nudges_tick (h : Coherent s) : Nudges s s.kernel.systemTimer s.place where
  waiting := fun _ _ => Iff.rfl
  ready := by
    obtain ⟨-, hr, -, -⟩ := TKernel.systemTimer_spec s.kernel
    exact fun p _ _ hp => (hr p).mpr (Or.inl hp)
  woken := by
    intro p c hp hr
    by_cases hold : s.kernel.Ready p
    · exact Or.inl hold
    · obtain ⟨-, hone, hzero⟩ := TKernel.systemTimer_woken hr hold
      refine Or.inr ⟨hzero, ?_⟩
      by_contra hc
      have hz := (h.untimed p c hp (by simpa using hc)).1
      rw [hz, UInt16.toNat_zero] at hone
      cases hone
  timeout := fun _ _ _ hz => (TKernel.systemTimer_of_zero hz).1

theorem tick (h : Coherent s) (log : List S.Obs) :
    Coherent { s with kernel := s.kernel.systemTimer, log } := by
  obtain ⟨-, hr, hc, hsc⟩ := TKernel.systemTimer_spec s.kernel
  have hmono : ∀ p, s.kernel.Ready p → s.kernel.systemTimer.Ready p :=
    fun p hp => (hr p).mpr (Or.inl hp)
  refine h.of_nudges h.nudges_tick ?_ ?_ (hmono _ h.idle) ?_ h.idle_runs ?_ ?_ ?_ _
  · rw [hc]
    exact h.cur_lt
  · intro p hp
    rcases (hr p).mp hp with hp | ⟨hp, -⟩
    · exact h.ready_lt p hp
    · exact (TKernel.clocked_iff.mp hp).2
  · rw [hsc]
    exact hmono _ h.sched
  · exact fun p hp hnot => h.unready p hp fun hold => hnot (hmono p hold)
  · exact fun p hp => (TKernel.systemTimer_of_zero (h.quiet p hp)).1
  · intro p hp hready
    by_cases hold : s.kernel.Ready p
    · exact (TKernel.systemTimer_of_zero (h.slept p hp hold)).1
    · exact (TKernel.systemTimer_woken hready hold).2.2

/-- `force_wake_up` of a process, with the place of its caller. -/
theorem nudges_forced (h : Coherent s) (hs : s.Active) {p : ℕ} (hp : p < 4)
    (hadmits : ∀ c, s.place p = .waiting c → S.timed c = true)
    {place : Place S.Wait} (hplace : place = .running ∨ place = .switching) :
    Nudges s (s.kernel.forceWakeUp p) (s.moves place) := by
  obtain ⟨ht, hr, -, -⟩ :=
    TKernel.forceWakeUp_spec (Nat.lt_trans hp (by decide)) h.sched
  refine ⟨waiting_moves (waits_of_active hs) ?_,
    fun q _ _ hq => (hr q).mpr (Or.inl hq), ?_, ?_⟩
  · intro c
    rcases hplace with rfl | rfl <;> simp
  · intro q c hq hready
    rcases (hr q).mp hready with hold | rfl
    · exact Or.inl hold
    · exact Or.inr ⟨by rw [ht, Function.update_self], hadmits c hq⟩
  · intro q _ _ hq
    rw [ht, Function.update_apply]
    split
    · rfl
    · exact hq

theorem forced (h : Coherent s) (hs : s.Active) {p : ℕ} (hp : p < 4)
    (hadmits : ∀ c, s.place p = .waiting c → S.timed c = true)
    {place : Place S.Wait} (hplace : place = .running ∨ place = .switching)
    (log : List S.Obs) :
    Coherent
      { s with
        kernel := s.kernel.forceWakeUp p
        place := s.moves place
        log } := by
  have hn := h.nudges_forced hs hp hadmits hplace
  obtain ⟨ht, hr, hc, hsc⟩ :=
    TKernel.forceWakeUp_spec (Nat.lt_trans hp (by decide)) h.sched
  generalize s.kernel.forceWakeUp p = k at hn ht hr hc hsc ⊢
  have hrun := place_of_active hs
  have hmono : ∀ q, s.kernel.Ready q → k.Ready q := fun q hq =>
    (hr q).mpr (Or.inl hq)
  have hzero : ∀ q, s.kernel.timeout q = 0 → k.timeout q = 0 := by
    intro q hq
    rw [ht, Function.update_apply]
    split
    · rfl
    · exact hq
  refine h.of_nudges hn ?_ ?_ (hmono _ h.idle) hsc ?_ ?_ ?_ ?_ _
  · rw [hc]
    exact h.cur_lt
  · intro q hq
    rcases (hr q).mp hq with hq | rfl
    · exact h.ready_lt q hq
    · exact hp
  · rw [moves_of_ne s _ (Ne.symm hs.2)]
    exact h.idle_runs
  · intro q hq hnot
    have hcur : q ≠ s.cur := by
      rintro rfl
      exact hnot (hmono _ (h.ready_of_active hs))
    rw [moves_of_ne s _ hcur]
    exact h.unready q hq fun hold => hnot (hmono q hold)
  · intro q hq
    apply hzero
    by_cases hcur : q = s.cur
    · subst hcur
      exact h.quiet _ (Or.inl hrun)
    · rw [moves_of_ne s _ hcur] at hq
      exact h.quiet q hq
  · intro q hq hready
    have hcur : q ≠ s.cur := by
      rintro rfl
      rw [moves_self] at hq
      rcases hplace with rfl | rfl <;> cases hq
    rw [moves_of_ne s _ hcur] at hq
    rcases (hr q).mp hready with hold | rfl
    · exact hzero q (h.slept q hq hold)
    · rw [ht, Function.update_self]

end Coherent

/-! ## Rules for the functions of a service -/

section Rules

variable {s : System S} {k : TKernel} {o : S.Obj}

/-- A function that leaves the kernel and the maps alone. -/
theorem Coherent.wakes_same (h : Coherent s)
    (hmap : ∀ m, S.map o m = S.map s.obj m) :
    Wakes S s.kernel s.kernel s.obj o where
  cur := rfl
  ready := fun _ hq => hq
  woken := fun _ hq => Or.inl hq
  sched := h.sched
  tagged := fun m q hq => by rw [← hmap]; exact hq
  blocked := fun m q hq _ => by rw [hmap]; exact hq
  left := fun _ _ _ hq => hq
  picks := TKernel.Picks.same rfl rfl

/-- A function that resumes blocked processes of one map. -/
theorem Coherent.wakes_resumed (h : Coherent s) {A : ℕ → Prop} {m : S.Map}
    (hA : ∀ q, A q → TService.Blocked s.kernel (S.map s.obj m) q)
    (hres : TService.Resumed A s.kernel k (S.map s.obj m) (S.map o m))
    (hother : ∀ m', m' ≠ m → S.map o m' = S.map s.obj m') :
    Wakes S s.kernel k s.obj o where
  cur := hres.cur
  ready := fun q hq => (hres.ready q).mpr (Or.inl hq)
  woken := fun q hq =>
    ((hres.ready q).mp hq).imp_right fun ha => ⟨m, (hA q ha).1⟩
  sched := hres.sched h.sched
  tagged := by
    intro m' q hq
    by_cases hm : m' = m
    · subst hm
      exact ((hres.map q).mp hq).1
    · rw [← hother m' hm]
      exact hq
  blocked := by
    intro m' q hq hnot
    by_cases hm : m' = m
    · subst hm
      exact (hres.map q).mpr ⟨hq, fun ha => hnot ((hres.ready q).mpr (Or.inr ha))⟩
    · rw [hother m' hm]
      exact hq
  left := by
    intro m' q hq hready
    rcases (hres.ready q).mp hready with hold | ha
    · exact hold
    · by_cases hm : m' = m
      · subst hm
        exact absurd ha ((hres.map q).mp hq).2
      · rw [hother m' hm] at hq
        exact absurd (h.map_unique hq (hA q ha).1) hm
  picks := hres.picks

/-- A call of a process that has not waited is done. -/
theorem Coherent.finishes_active (h : Coherent s) (hs : s.Active)
    (hw : Wakes S s.kernel k s.obj o) (ht : k.timeout = s.kernel.timeout) :
    Finishes S s.kernel k s.obj o where
  wakes := hw
  gone := fun m hm =>
    h.not_tagged (Coherent.waits_of_active hs) m (hw.tagged m _ hm)
  quiet := by
    rw [ht]
    exact h.quiet _ (Or.inl (Coherent.place_of_active hs))
  timeout := fun q _ => congrFun ht q

/-- A process that has waited is done. -/
theorem Coherent.finishes_left (h : Coherent s) {w : S.Wait}
    (hp : s.place s.cur = .waiting w) (hready : s.kernel.Ready s.cur)
    (hl : TService.Leaves s.kernel k (S.map s.obj (S.waitsAt w)) (S.map o (S.waitsAt w)))
    (hother : ∀ m, m ≠ S.waitsAt w → S.map o m = S.map s.obj m) :
    Finishes S s.kernel k s.obj o := by
  have hmap : ∀ m q, Tagged (S.map o m) q ↔
      Tagged (S.map s.obj m) q ∧ q ≠ s.kernel.curProcPriority := by
    intro m q
    by_cases hm : m = S.waitsAt w
    · subst hm
      exact hl.map q
    · rw [hother m hm]
      refine (and_iff_left_of_imp ?_).symm
      rintro htag rfl
      exact h.not_tagged_other hp hm htag
  refine ⟨⟨hl.cur, fun q => (hl.ready_iff q).mpr,
    fun q hq => Or.inl ((hl.ready_iff q).mp hq), ?_, fun m q hq => ((hmap m q).mp hq).1,
    fun m q hq hnot => (hmap m q).mpr ⟨hq, ?_⟩, fun _ q _ hq => (hl.ready_iff q).mp hq,
    TKernel.Picks.same hl.sched hl.raised⟩,
    fun m hq => ((hmap m _).mp hq).2 rfl, ?_, hl.timeout⟩
  · rw [hl.ready_iff, hl.sched]
    exact h.sched
  · rintro rfl
    exact hnot ((hl.ready_iff _).mpr hready)
  · by_cases htag : Tagged (S.map s.obj (S.waitsAt w)) s.kernel.curProcPriority
    · rw [hl.expired htag]
      exact h.expired _ w hp hready htag
    · exact hl.quiet htag

/-- A call comes to `suspend`, with the timeout of the process set before. -/
theorem blocks_suspended {f : ℕ → UInt16} {w : S.Wait}
    (hf : ∀ q, q ≠ s.cur → f q = s.kernel.timeout q)
    (huntimed : S.timed w = false → f s.cur = 0)
    (hsusp : TService.Suspends { s.kernel with timeout := f } k
      (S.map s.obj (S.waitsAt w)) (S.map o (S.waitsAt w)))
    (hother : ∀ m, m ≠ S.waitsAt w → S.map o m = S.map s.obj m)
    (hcur : ∀ m, m ≠ S.waitsAt w → ¬ Tagged (S.map s.obj m) s.cur) :
    Blocks S w s.kernel k s.obj o where
  cur := hsusp.cur
  timeout := by
    intro q hq
    rw [hsusp.timeout]
    exact hf q hq
  untimed := by
    intro hw
    rw [hsusp.timeout]
    exact huntimed hw
  ready := hsusp.ready
  sched := hsusp.sched
  tagged := by
    intro m q
    by_cases hm : m = S.waitsAt w
    · subst hm
      rw [hsusp.map q]
      by_cases hq : q = s.kernel.curProcPriority
      · simp [hq]
      · simp [hq]
    · rw [hother m hm]
      have hq : Tagged (S.map s.obj m) q → q ≠ s.kernel.curProcPriority := by
        rintro htag rfl
        exact hcur m hm htag
      simp only [hm, and_false, or_false]
      exact (and_iff_left_of_imp hq).symm
  picks := hsusp.picks.of_same rfl rfl

/-- A process that has waited goes back to `suspend`. -/
theorem Coherent.blocks_left (h : Coherent s) {k₁ : TKernel} {w₁ : TProcessMap}
    {f : ℕ → UInt16} {w : S.Wait} (hp : s.place s.cur = .waiting w)
    (hl : TService.Leaves s.kernel k₁ (S.map s.obj (S.waitsAt w)) w₁)
    (hf : ∀ q, q ≠ s.cur → f q = k₁.timeout q)
    (huntimed : S.timed w = false → f s.cur = 0)
    (hsusp : TService.Suspends { k₁ with timeout := f } k w₁ (S.map o (S.waitsAt w)))
    (hother : ∀ m, m ≠ S.waitsAt w → S.map o m = S.map s.obj m) :
    Blocks S w s.kernel k s.obj o where
  cur := hsusp.cur.trans hl.cur
  timeout := by
    intro q hq
    rw [hsusp.timeout]
    exact (hf q hq).trans (hl.timeout q hq)
  untimed := by
    intro hw
    rw [hsusp.timeout]
    exact huntimed hw
  ready := by
    intro q
    rw [hsusp.ready, ← hl.ready_iff, ← hl.cur]
    rfl
  sched := hsusp.sched
  tagged := by
    intro m q
    have hcur : k₁.curProcPriority = s.kernel.curProcPriority := hl.cur
    by_cases hm : m = S.waitsAt w
    · subst hm
      rw [hsusp.map q, hl.map q]
      simp [hcur]
    · rw [hother m hm]
      have hq : Tagged (S.map s.obj m) q → q ≠ s.kernel.curProcPriority := by
        rintro htag rfl
        exact h.not_tagged_other hp hm htag
      simp only [hm, and_false, or_false]
      exact (and_iff_left_of_imp hq).symm
  picks := (hsusp.picks.of_same rfl rfl).of_same hl.sched hl.raised

end Rules

/-! ## What an event can do -/

/-- The steps that change something, with what they rely on.  The steps of the
kernel that leave the service and the record alone are one case. -/
inductive Effect (s : System S) : System S → Prop where
  | stirred {k : TKernel} {place : ℕ → Place S.Wait} (h : Stirs s k place) :
      Effect s { s with kernel := k, place }
  | ticked : Effect s
      { s with kernel := s.kernel.systemTimer, log := s.log ++ [.tick] }
  | woken (p : ℕ) {k : TKernel} {place : ℕ → Place S.Wait} (h : Stirs s k place)
      (hzero : s.kernel.timeout p = 0) :
      Effect s { s with kernel := k, place, log := s.log ++ [.wakeUp p] }
  | forced (p : ℕ) (o : S.Obs) {place : Place S.Wait}
      (active : s.Active) (hp : p < 4)
      (admits : ∀ c, s.place p = .waiting c → S.timed c = true)
      (ho : o = .forceWakeUp p ∨ (o = .wakeUp p ∧ s.kernel.timeout p ≠ 0))
      (hplace : place = .running ∨ place = .switching) :
      Effect s
        { s with
          kernel := s.kernel.forceWakeUp p
          place := s.moves place
          log := s.log ++ [o] }
  | isr (i : S.Isr) {k : TKernel} {o : S.Obj}
      (h : S.isr s.kernel s.obj i = some (k, o)) :
      Effect s { s with kernel := k, obj := o, log := s.log ++ [.isr i] }
  | called (c : S.Call) {a : S.Step}
      (active : s.Active) (h : S.enter s.kernel s.obj c = some a) :
      Effect s (s.settle (.done s.cur c) a)
  | resumed (w : S.Wait) {a : S.Step}
      (waits : s.place s.cur = .waiting w) (ready : s.kernel.Ready s.cur)
      (h : S.again s.kernel s.obj w = some a) :
      Effect s (s.settle (.returned s.cur w) a)

/-- A record of the kernel. -/
def Obs.OfKernel {C W I R : Type} : Obs C W I R → Prop
  | tick | wakeUp _ | forceWakeUp _ => True
  | done _ _ _ | blocked _ _ | returned _ _ _ | isr _ => False

/-- The effects as a service sees them that does not look at the clock. -/
inductive Change (s : System S) : System S → Prop where
  | nudged {k : TKernel} {place : ℕ → Place S.Wait} {obs : List S.Obs}
      (h : Nudges s k place) (hobs : ∀ o ∈ obs, o.OfKernel) :
      Change s { s with kernel := k, place, log := s.log ++ obs }
  | isr (i : S.Isr) {k : TKernel} {o : S.Obj}
      (h : S.isr s.kernel s.obj i = some (k, o)) :
      Change s { s with kernel := k, obj := o, log := s.log ++ [.isr i] }
  | called (c : S.Call) {a : S.Step} (active : s.Active)
      (h : S.enter s.kernel s.obj c = some a) :
      Change s (s.settle (.done s.cur c) a)
  | resumed (w : S.Wait) {a : S.Step} (waits : s.place s.cur = .waiting w)
      (ready : s.kernel.Ready s.cur) (h : S.again s.kernel s.obj w = some a) :
      Change s (s.settle (.returned s.cur w) a)

theorem Effect.change {s s' : System S} (h : Effect s s') (hs : Coherent s) :
    Change s s' := by
  cases h with
  | @stirred k place h =>
    have hchange : Change s { s with kernel := k, place, log := s.log ++ [] } :=
      Change.nudged h.nudges (by simp)
    rw [List.append_nil] at hchange
    exact hchange
  | ticked =>
    exact Change.nudged hs.nudges_tick (by simp [Obs.OfKernel])
  | woken p h hzero =>
    exact Change.nudged h.nudges (by simp [Obs.OfKernel])
  | forced p o active hp admits ho hplace =>
    refine Change.nudged (hs.nudges_forced active hp admits hplace) ?_
    rcases ho with rfl | ⟨rfl, -⟩ <;> simp [Obs.OfKernel]
  | isr i h => exact Change.isr i h
  | called c active h => exact Change.called c active h
  | resumed w waits ready h => exact Change.resumed w waits ready h

section Runs

variable {Inv : S.Obj → Prop} {s : System S}

theorem settle_obj (s : System S) (record : S.Ans → S.Obs) (a : S.Step) :
    (s.settle record a).obj = a.2.2 := by
  obtain ⟨o, k, obj⟩ := a
  cases o <;> rfl

/-- The scheduler has picked the current process, so it is ready. -/
theorem Coherent.ready_of_picked (h : Coherent s)
    (hpicked : s.kernel.schedProcPriority = s.cur) : s.kernel.Ready s.cur := by
  rw [← hpicked]
  exact h.sched

/-- Every event is defined. -/
theorem step_defined (law : S.Lawful Inv) (h : Coherent s) (hinv : Inv s.obj)
    (e : Event S) : ∃ s', e.step s = some s' := by
  cases e with
  | call c =>
    simp only [Event.step]
    split
    · next hs =>
      obtain ⟨a, heq, -⟩ := law.enter s c h hinv hs
      exact ⟨_, by rw [heq, Option.map_some]⟩
    · exact ⟨s, rfl⟩
  | isr i =>
    obtain ⟨k, o, heq, -⟩ := law.isr s i h hinv
    exact ⟨_, by rw [Event.step, heq, Option.map_some]⟩
  | isrExit | sysTick => exact ⟨_, rfl⟩
  | contextSwitch | sleep | wakeUp | forceWakeUp =>
    simp only [Event.step]
    split
    · exact ⟨_, rfl⟩
    · exact ⟨s, rfl⟩
  | resume =>
    simp only [Event.step]
    split
    · next hpicked =>
      cases hp : s.place s.cur with
      | running | switching | sleeping => exact ⟨_, rfl⟩
      | waiting w =>
        obtain ⟨a, heq, -⟩ := law.again s w h hinv hp (h.ready_of_picked hpicked)
        exact ⟨_, congrArg (Option.map _) heq⟩
    · exact ⟨s, rfl⟩

/-- What an event does is one of the effects, and keeps the invariants. -/
theorem Event.Fires.effect {s' : System S} {e : Event S} (hfires : e.Fires s s')
    (law : S.Lawful Inv) (h : Coherent s) (hinv : Inv s.obj) (hadmits : e.Admits s) :
    Effect s s' ∧ Coherent s' ∧ Inv s'.obj := by
  cases hfires with
  | refused => exact ⟨Effect.stirred (Stirs.refl s), h, hinv⟩
  | call c active enters =>
    obtain ⟨hends, hinv'⟩ := of_eq_some (law.enter s c h hinv active) enters
    refine ⟨Effect.called c active enters,
      h.settle active.2 (h.ready_of_active active) _ hends, ?_⟩
    rw [settle_obj]
    exact hinv'
  | isr i serves =>
    obtain ⟨hwakes, ht, hinv'⟩ := law.of_isr h hinv serves
    exact ⟨Effect.isr i serves, h.isr hwakes ht _, hinv'⟩
  | isrExit =>
    exact ⟨Effect.stirred (Coherent.stirs_schedIsr s), h.schedIsr, hinv⟩
  | sysTick => exact ⟨Effect.ticked, h.tick _, hinv⟩
  | contextSwitch raised =>
    exact ⟨Effect.stirred (Coherent.stirs_contextSwitch s), h.contextSwitch, hinv⟩
  | sleep t active =>
    exact ⟨Effect.stirred (h.stirs_sleep active t), h.sleep active t, hinv⟩
  | wakesNone active lt zero =>
    have hplace : s.moves .running = s.place := by
      rw [System.moves, ← Coherent.place_of_active active, Function.update_eq_self]
    rw [hplace]
    refine ⟨Effect.woken _ (Stirs.refl s) zero, ?_, hinv⟩
    exact h.of_nudges (Stirs.refl s).nudges h.cur_lt h.ready_lt h.idle h.sched
      h.idle_runs h.unready h.quiet h.slept _
  | @wakeUp p active lt timed =>
    have hwaits : ∀ c, s.place p = .waiting c → S.timed c = true := by
      intro c hc
      by_contra hnot
      exact timed (h.untimed p c hc (by simpa using hnot)).1
    exact ⟨Effect.forced p _ active lt hwaits (Or.inr ⟨rfl, timed⟩)
        (Coherent.placeAfter_cases _),
      h.forced active lt hwaits (Coherent.placeAfter_cases _) _, hinv⟩
  | @forceWakeUp p active lt =>
    exact ⟨Effect.forced p _ active lt hadmits (Or.inl rfl)
        (Coherent.placeAfter_cases _),
      h.forced active lt hadmits (Coherent.placeAfter_cases _) _, hinv⟩
  | comesBack picked left =>
    exact ⟨Effect.stirred (Coherent.stirs_comesBack (Coherent.waits_of_left left)),
      h.comesBack (h.ready_of_picked picked) left, hinv⟩
  | again picked waits again =>
    have hready := h.ready_of_picked picked
    obtain ⟨hends, hinv'⟩ := of_eq_some (law.again s _ h hinv waits hready) again
    refine ⟨Effect.resumed _ waits hready again,
      h.settle (h.ne_idle_of_waiting waits) hready _ hends, ?_⟩
    rw [settle_obj]
    exact hinv'

/-- The step theorem: every event is defined, it is one of the effects, and it
keeps the invariants. -/
theorem step_effect (law : S.Lawful Inv) (h : Coherent s) (hinv : Inv s.obj)
    (e : Event S) (hadmits : e.Admits s) :
    ∃ s', e.step s = some s' ∧ Effect s s' ∧ Coherent s' ∧ Inv s'.obj := by
  obtain ⟨s', hs'⟩ := step_defined law h hinv e
  exact ⟨s', hs', (Event.fires hs').effect law h hinv hadmits⟩

/-- The invariant rule for a service: what every effect keeps holds in every
run. -/
theorem exec_inv (law : S.Lawful Inv) {obj : S.Obj} (hinv : Inv obj)
    (hmaps : ∀ m p, ¬ Tagged (S.map obj m) p) {P : System S → Prop}
    (hP : P (System.init obj))
    (heffect : ∀ s s', Coherent s → Inv s.obj → Coherent s' → P s →
      Effect s s' → P s')
    {es : List (Event S)} (hes : System.Admitted obj es) :
    ∃ s, System.exec obj es = some s ∧ Coherent s ∧ Inv s.obj ∧ P s := by
  refine run_guarded (P := fun s => Coherent s ∧ Inv s.obj ∧ P s) ?_
    ⟨Coherent.init hmaps, hinv, hP⟩ hes
  rintro s e ⟨h, hi, hp⟩ hadmits
  obtain ⟨s', heq, heff, h', hi'⟩ := step_effect law h hi e hadmits
  exact ⟨s', heq, h', hi', heffect s s' h hi h' hp heff⟩

/-- A service whose calls all look for the timer has no bad runs. -/
theorem admitted_of_timed (h : ∀ c, S.timed c = true) (obj : S.Obj)
    (es : List (Event S)) : System.Admitted obj es := by
  refine guarded_of_forall (fun s e => ?_) _ es
  cases e with
  | forceWakeUp p => exact fun c _ => h c
  | call | isr | isrExit | sysTick | contextSwitch | sleep | wakeUp | resume =>
    trivial

/-- A run without `force_wake_up`. -/
theorem admitted_of_unforced {es : List (Event S)}
    (h : ∀ e ∈ es, ∀ p, e ≠ .forceWakeUp p) (obj : S.Obj) :
    System.Admitted obj es := by
  unfold System.Admitted
  generalize System.init obj = s
  induction es generalizing s with
  | nil => trivial
  | cons e es ih =>
    refine ⟨?_, fun s' _ => ih (fun e' he' => h e' (List.mem_cons_of_mem e he')) s'⟩
    cases e with
    | forceWakeUp p => exact absurd rfl (h _ List.mem_cons_self p)
    | call | isr | isrExit | sysTick | contextSwitch | sleep | wakeUp | resume =>
      trivial

end Runs

end EBLmon.Os
