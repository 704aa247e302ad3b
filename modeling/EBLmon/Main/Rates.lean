import EBLmon.Main.Firmware

/-!
# The rates of the firmware

How often the display is refreshed and the heartbeat LED is toggled, counted in
ticks of the timer, over every run.

Both loops sleep for a fixed time in every round, and `Slept` counts the sleeps.
The GUI process refreshes before it sleeps, so between two refreshes there are 10
ticks.  The heartbeat process sleeps before it toggles.  `rates` is about any
window of a run, and `heartbeat` about the whole run.
-/

namespace EBLmon.Main

open Machine Os

/-! ## What is counted -/

/-- A record of a call that is done. -/
def isDone (c : Call) : Record → Bool
  | .done _ c' _ => c' = c
  | .blocked _ _ | .returned _ _ _ | .isr _ | .tick | .wakeUp _ | .forceWakeUp _ =>
    false

namespace Firmware

variable {rnd : ℚ → ℚ}

/-- The calls of `led_toggle` so far. -/
def toggles (f : Firmware rnd) : ℕ := f.sys.log.countP (isDone .ledToggle)

/-- The calls of `UI::tick` so far. -/
def refreshes (f : Firmware rnd) : ℕ := f.sys.log.countP (isDone .tick)

end Firmware

/-- The heartbeat process has begun a sleep for the next toggle. -/
def LedPc.ahead : LedPc → ℕ
  | sleep => 0
  | toggle => 1

/-- The GUI process has refreshed the display, and has not slept since. -/
def GuiPc.behind : GuiPc → ℕ
  | init | tick => 0
  | sleep => 1

section Steps

variable {rnd : ℚ → ℚ} {s s' : System (service rnd)} {e : Event (service rnd)}

/-- A step counts its own call only. -/
theorem count_step {c : Call} (hstep : e.step s = some s') (hne : e ≠ .call c) :
    s'.log.countP (isDone c) = s.log.countP (isDone c) := by
  obtain ⟨new, hlog, hnew⟩ := log_step hstep
  have hzero : new.countP (isDone c) = 0 := by
    rw [List.countP_eq_zero]
    intro r hr hdone
    have hrecords := hnew r hr
    cases r with
    | done p c' b =>
      obtain rfl := of_decide_eq_true hdone
      cases e with
      | call c =>
        rcases hrecords with ⟨q, a, heq⟩ | ⟨q, w, heq⟩
        · cases heq
          exact hne rfl
        · cases heq
      | resume => rcases hrecords with ⟨q, w, a, heq⟩ | ⟨q, w, heq⟩ <;> cases heq
      | isr | sysTick | wakeUp | forceWakeUp => cases hrecords
      | isrExit | contextSwitch | sleep => exact hrecords
    | blocked | returned | isr | tick | wakeUp | forceWakeUp => cases hdone
  rw [hlog, List.countP_append, hzero, Nat.add_zero]

/-- A call that returns at once. -/
theorem count_call {c : Call} {g : Globals} (hs : s.Active)
    (henter : (service rnd).enter s.kernel s.obj c = some (.returned (), s.kernel, g))
    (hstep : Event.step s (.call c) = some s') :
    s'.log.countP (isDone c) = s.log.countP (isDone c) + 1 := by
  rw [step_call hs henter hstep]
  simp [List.countP_append, isDone]

theorem step_slept {p t b m : ℕ} (hco : Coherent s) (hsound : Sound rnd s.obj)
    (hp : TKernel.Clocked p) (h : Slept p t b m s) (he : Unforced e)
    (hstep : e.step s = some s') : Slept p t b m s' :=
  h.step (lawful rnd) hco hsound hp (he p).1 (he p).2 hstep

end Steps

section Paced

variable {rnd : ℚ → ℚ} {f f' : Firmware rnd} {b n : ℕ} {e : Event (service rnd)} {i : Input}

/-- Since the tick `b` the heartbeat process has slept for all but `n` of its
toggles. -/
def LedPaced (b n : ℕ) (f : Firmware rnd) : Prop :=
  ∃ m, Slept pr2 500 b m f.sys ∧ f.toggles + f.led.ahead ≤ n + m

/-- Since the tick `b` the GUI process has slept behind all but `n` of its
refreshes, and perhaps the last one. -/
def GuiPaced (b n : ℕ) (f : Firmware rnd) : Prop :=
  ∃ m, Slept pr0 10 b m f.sys ∧ f.refreshes ≤ n + m + f.gui.behind

theorem LedPaced.frame (h : LedPaced b n f) (hf : Steady f) (he : Unforced e)
    (hstep : e.step f.sys = some f'.sys) (hne : e ≠ .call .ledToggle)
    (pc : f'.led = f.led) : LedPaced b n f' := by
  obtain ⟨m, hslept, hle⟩ := h
  refine ⟨m, step_slept hf.coherent hf.sound (by decide) hslept he hstep, ?_⟩
  have hcount : f'.toggles = f.toggles := count_step hstep hne
  rw [hcount, pc]
  exact hle

theorem GuiPaced.frame (h : GuiPaced b n f) (hf : Steady f) (he : Unforced e)
    (hstep : e.step f.sys = some f'.sys) (hne : e ≠ .call .tick)
    (pc : f'.gui = f.gui) : GuiPaced b n f' := by
  obtain ⟨m, hslept, hle⟩ := h
  refine ⟨m, step_slept hf.coherent hf.sound (by decide) hslept he hstep, ?_⟩
  have hcount : f'.refreshes = f.refreshes := count_step hstep hne
  rw [hcount, pc]
  exact hle

/-- The step lemma of the heartbeat process. -/
theorem LedPaced.of_does (h : LedPaced b n f) (hf : Steady f) (hdoes : Does f i f') :
    LedPaced b n f' := by
  cases hdoes with
  | rests byte => exact h
  | starts pc => exact h
  | outside he byte step =>
    refine h.frame hf (unforced_outside he) step ?_ rfl
    rintro rfl
    exact he
  | resumes step => exact h.frame hf unforced_resume step (by simp) rfl
  | delays hd step => exact h.frame hf (unforced_sleep _) step (by simp) rfl
  | pauses hs hcur pc step => exact h.frame hf (unforced_sleep _) step (by simp) rfl
  | refreshes hs hcur pc step => exact h.frame hf (unforced_call _) step (by simp) rfl
  | fetches hs hcur pc step => exact h.frame hf (unforced_call _) step (by simp) rfl
  | decodes hs hcur pc step => exact h.frame hf (unforced_call _) step (by simp) rfl
  | naps hs hcur pc step =>
    obtain ⟨m, hslept, hle⟩ := h
    have hbegun := hslept.of_running (hcur ▸ Coherent.place_of_active hs)
    have hstart := Slept.start (t := 500) hbegun hf.coherent hs step
    rw [hcur] at hstart
    refine ⟨m + 1, hstart, ?_⟩
    have hcount := count_step step (c := .ledToggle) (by simp)
    unfold Firmware.toggles at hle ⊢
    rw [pc, LedPc.ahead] at hle
    rw [hcount, LedPc.ahead]
    omega
  | toggles hs hcur pc step =>
    obtain ⟨m, hslept, hle⟩ := h
    refine ⟨m, step_slept hf.coherent hf.sound (by decide) hslept (unforced_call _) step,
      ?_⟩
    have hcount := count_call hs rfl step
    unfold Firmware.toggles at hle ⊢
    rw [pc, LedPc.ahead] at hle
    rw [hcount, LedPc.ahead]
    omega

/-- The step lemma of the GUI process. -/
theorem GuiPaced.of_does (h : GuiPaced b n f) (hf : Steady f) (hdoes : Does f i f') :
    GuiPaced b n f' := by
  cases hdoes with
  | rests byte => exact h
  | starts pc =>
    obtain ⟨m, hslept, hle⟩ := h
    rw [pc] at hle
    exact ⟨m, hslept, hle⟩
  | outside he byte step =>
    refine h.frame hf (unforced_outside he) step ?_ rfl
    rintro rfl
    exact he
  | resumes step => exact h.frame hf unforced_resume step (by simp) rfl
  | delays hd step => exact h.frame hf (unforced_sleep _) step (by simp) rfl
  | naps hs hcur pc step => exact h.frame hf (unforced_sleep _) step (by simp) rfl
  | toggles hs hcur pc step => exact h.frame hf (unforced_call _) step (by simp) rfl
  | fetches hs hcur pc step => exact h.frame hf (unforced_call _) step (by simp) rfl
  | decodes hs hcur pc step => exact h.frame hf (unforced_call _) step (by simp) rfl
  | pauses hs hcur pc step =>
    obtain ⟨m, hslept, hle⟩ := h
    have hbegun := hslept.of_running (hcur ▸ Coherent.place_of_active hs)
    have hstart := Slept.start (t := 10) hbegun hf.coherent hs step
    rw [hcur] at hstart
    refine ⟨m + 1, hstart, ?_⟩
    have hcount := count_step step (c := .tick) (by simp)
    unfold Firmware.refreshes at hle ⊢
    rw [pc, GuiPc.behind] at hle
    rw [hcount, GuiPc.behind]
    omega
  | refreshes hs hcur pc step =>
    obtain ⟨m, hslept, hle⟩ := h
    refine ⟨m, step_slept hf.coherent hf.sound (by decide) hslept (unforced_call _) step,
      ?_⟩
    have hcount := count_call hs rfl step
    unfold Firmware.refreshes at hle ⊢
    rw [pc, GuiPc.behind] at hle
    rw [hcount, GuiPc.behind]
    omega

theorem LedPaced.le_ticks (h : LedPaced b n f) (hf : Steady f) :
    b + 500 * (f.toggles - n) ≤ f.sys.ticks := by
  obtain ⟨m, hslept, hle⟩ := h
  have hbegun := hslept.begun
  cases hf.led with
  | sleep pc place =>
    have hall := hslept.of_running place
    rw [pc, LedPc.ahead] at hle
    omega
  | toggle pc place =>
    rw [pc, LedPc.ahead] at hle
    omega

theorem GuiPaced.le_ticks (h : GuiPaced b n f) (hf : Steady f) :
    b + 10 * (f.refreshes - n - 1) ≤ f.sys.ticks := by
  obtain ⟨m, hslept, hle⟩ := h
  have hbegun := hslept.begun
  cases hf.gui with
  | init pc place | tick pc place =>
    rw [pc, GuiPc.behind] at hle
    omega
  | sleep pc place =>
    have hall := hslept.of_running place
    rw [pc, GuiPc.behind] at hle
    omega

end Paced

/-! ## The LED -/

section Lit

variable {rnd : ℚ → ℚ} {f f' : Firmware rnd} {i : Input}

theorem Got.led {k : TKernel} {g : Globals} {a : Outcome Unit Unit × TKernel × Globals}
    (h : Got k g a) : a.2.2.led = g.led := by
  cases h with
  | taken hfetch => rfl
  | blocked hempty hsusp => rfl

/-- The LED is on when the number of toggles is even. -/
def Lit (f : Firmware rnd) : Prop := f.sys.obj.led = decide (f.toggles % 2 = 0)

theorem Lit.frame (h : Lit f) {e : Event (service rnd)}
    (hstep : e.step f.sys = some f'.sys) (hne : e ≠ .call .ledToggle)
    (led : f'.sys.obj.led = f.sys.obj.led) : Lit f' := by
  have hcount : f'.toggles = f.toggles := count_step hstep hne
  unfold Lit
  rw [led, hcount]
  exact h

theorem Lit.of_does (h : Lit f) (hf : Steady f) (hdoes : Does f i f') : Lit f' := by
  cases hdoes with
  | rests byte => exact h
  | starts pc => exact h
  | outside he byte step =>
    obtain ⟨flag, ring, n, hobj⟩ := outside_obj hf.sound he step
    have hled := congrArg Globals.led hobj
    refine h.frame step ?_ hled
    rintro rfl
    exact he
  | resumes step =>
    refine h.frame step (by simp) ?_
    rcases resume_obj hf.coherent hf.sound step with hobj | ⟨k, w, a, hobj, hgot⟩
    · exact congrArg Globals.led hobj
    · exact (congrArg Globals.led hobj).trans hgot.led
  | delays hd step | pauses hs hcur pc step | naps hs hcur pc step =>
    exact h.frame step (by simp) (congrArg Globals.led (sleep_obj step))
  | refreshes hs hcur pc step =>
    exact h.frame step (by simp) (by rw [step_call hs rfl step]; rfl)
  | decodes hs hcur pc step =>
    obtain ⟨r, heq, -⟩ := step_decode hs hf.sound step
    exact h.frame step (by simp) (by rw [heq])
  | fetches hs hcur pc step =>
    obtain ⟨a, hgot, heq⟩ := step_comGetc hf.coherent hs hf.sound step
    refine h.frame step (by simp) ?_
    rw [heq, settle_obj]
    exact hgot.led
  | toggles hs hcur pc step =>
    have hcount := count_call hs rfl step
    unfold Lit Firmware.toggles at h ⊢
    rw [hcount, step_call hs rfl step]
    show (!f.sys.obj.led) = _
    rw [h, ← decide_not, decide_eq_decide]
    omega

end Lit

/-! ## Runs -/

/-- In any window of a run, `k` toggles of the LED take at least `500 * (k - 1)`
ticks, and `k` refreshes at least `10 * (k - 1)`. -/
theorem rates (rnd : ℚ → ℚ) (pre post : List Input) :
    ∃ f₀ f, exec rnd pre = some f₀ ∧ exec rnd (pre ++ post) = some f ∧
      f₀.sys.ticks + 500 * (f.toggles - f₀.toggles - 1) ≤ f.sys.ticks ∧
      f₀.sys.ticks + 10 * (f.refreshes - f₀.refreshes - 1) ≤ f.sys.ticks := by
  obtain ⟨f₀, hpre, h₀⟩ := exec_steady rnd pre
  have hled : LedPaced f₀.sys.ticks (f₀.toggles + 1) f₀ := by
    refine ⟨0, Slept.of_le (Nat.le_refl _), ?_⟩
    cases hpc : f₀.led with
    | sleep => exact Nat.le_succ _
    | toggle => exact Nat.le_refl _
  have hgui : GuiPaced f₀.sys.ticks f₀.refreshes f₀ :=
    ⟨0, Slept.of_le (Nat.le_refl _), Nat.le_add_right _ _⟩
  obtain ⟨f, hf, h, hled', hgui'⟩ := exec_append
    (P := fun f => LedPaced f₀.sys.ticks (f₀.toggles + 1) f ∧
      GuiPaced f₀.sys.ticks f₀.refreshes f) hpre ⟨hled, hgui⟩
    (fun f i f' h hdoes hP => ⟨hP.1.of_does h hdoes, hP.2.of_does h hdoes⟩) post
  refine ⟨f₀, f, hpre, hf, ?_, hgui'.le_ticks h⟩
  have hle := hled'.le_ticks h
  rwa [Nat.sub_add_eq] at hle

/-- The heartbeat: the LED is toggled at most once in 500 ticks, the first time
not before the tick with that number, and it shows whether the number of toggles
is even. -/
theorem heartbeat (rnd : ℚ → ℚ) (is : List Input) :
    ∃ f, exec rnd is = some f ∧ 500 * f.toggles ≤ f.sys.ticks ∧
      (f.sys.obj.led = true ↔ Even f.toggles) := by
  have hled : LedPaced 0 0 (Firmware.init : Firmware rnd) :=
    ⟨0, Slept.of_le (Nat.le_refl _), Nat.le_refl _⟩
  have hlit : Lit (Firmware.init : Firmware rnd) := rfl
  have hinit : exec rnd [] = some Firmware.init := rfl
  obtain ⟨f, hf, h, hled', hlit'⟩ := exec_append
    (P := fun f => LedPaced 0 0 f ∧ Lit f) hinit ⟨hled, hlit⟩
    (fun f i f' h hdoes hP => ⟨hP.1.of_does h hdoes, hP.2.of_does h hdoes⟩) is
  have hle := hled'.le_ticks h
  refine ⟨f, hf, by omega, ?_⟩
  rw [hlit', decide_eq_true_iff, Nat.even_iff]

end EBLmon.Main
