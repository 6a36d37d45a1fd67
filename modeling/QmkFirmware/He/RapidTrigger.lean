import QmkFirmware.He.KeyState
import QmkFirmware.He.Settings

/-!
Rapid-trigger releases. A key that was released because it rose `release_dist` off its peak
may still be past the actuation point. The re-press test looks at the level, not at a
crossing, so such a key is pressed again by the next scan.
-/

set_option autoImplicit false

namespace QmkFirmware.He

/-- The samples of one key in rapid-trigger mode, one after the other. -/
def travels (tuning : Tuning) (c : KeyConfig) (pressed : Bool) : List UInt8 → KeyConfig × Bool
  | [] => (c, pressed)
  | t :: ts =>
    let r := heComputePressed .rapidTrigger tuning c pressed t
    travels tuning r.1 r.2 ts

def keyScan (n : Nat) (mode : ActuationMode) (tuning : Tuning) (c : KeyConfig)
    (phys stable : Bool) (travel : UInt8) : KeyConfig × Bool × Bool :=
  let p := heComputePressed mode tuning c phys travel
  let d := debounceStep n p.2 stable p.1.debounce
  ({ p.1 with debounce := d.2 }, p.2, d.1)

theorem sampleSensor_keyScan (n : Nat) (input : ScanInput) (s : HeState) {i : Sensor}
    (hi : i ≠ heEncPushIndex) (hc : s.calibrating = false) :
    let r := keyScan n s.mode s.tuning (s.config i) (s.physPressed i) (s.debounced i)
      (heRawToTravel (s.config i) (input.sample i))
    let q := sampleSensor n input s i
    q.config = r.1 ∧ q.phys = r.2.1 ∧ q.debounced = r.2.2 := by
  simp [sampleSensor, keyScan, hi, hc]

def keyScans (n : Nat) (tuning : Tuning) : List UInt8 → KeyConfig × Bool × Bool →
    KeyConfig × Bool × Bool
  | [], p => p
  | t :: ts, p => keyScans n tuning ts (keyScan n .rapidTrigger tuning p.1 p.2.1 p.2.2 t)

/-- At travel `t` a held key is released for having risen off its peak, above the deadzone. -/
def DropRelease (tuning : Tuning) (c : KeyConfig) (t : UInt8) : Prop :=
  tuning.deadzone < t ∧ tuning.releaseDist ≤ (if c.peak < t then t else c.peak)-t

/-- No sample has gone down by `engage` from the lowest one (`low`), or crossed the actuation
point since the one before it (`prev`). -/
def NoTrigger (actuation engage : UInt8) : UInt8 → UInt8 → List UInt8 → Prop
  | _, _, [] => True
  | prev, low, t :: ts =>
    let low := if t < low then t else low
    ¬ (engage.toNat : Int) ≤ t.toNat-low.toNat ∧ ¬ (prev < actuation ∧ actuation ≤ t)
      ∧ NoTrigger actuation engage t low ts

/-- A release at travel `t` of a held key sticks. -/
structure ReleaseSticks (tuning : Tuning) (c : KeyConfig) (stable : Bool) (t : UInt8) : Prop where
  /-- The key stays released until a sample triggers it. -/
  quiet : ∀ ts, NoTrigger c.actuation tuning.engage t t ts →
    (travels tuning c true (t :: ts)).2 = false
  /-- The same travel once more changes nothing. -/
  again : (travels tuning c true [t,t]).2 = (travels tuning c true [t]).2
  /-- Held for `HE_DEBOUNCE` scans, the release is the stable state. -/
  debounced : (keyScans heDebounce tuning (List.replicate heDebounce t) (c,true,stable)).2.2
    = false

theorem compute_drop {tuning : Tuning} {c : KeyConfig} {t : UInt8} (h : DropRelease tuning c t) :
    heComputePressed .rapidTrigger tuning c true t
      = ({ c with travel := t, peak := if c.peak < t then t else c.peak, valley := t }, false) := by
  obtain ⟨-, hdrop⟩ := h
  simp only [heComputePressed, if_true]
  by_cases hp : c.peak < t
  · simp only [if_pos hp] at hdrop ⊢
    rw [if_pos (.inr hdrop)]
  · simp only [if_neg hp] at hdrop ⊢
    rw [if_pos (.inr hdrop)]

theorem travels_quiet (tuning : Tuning) (c : KeyConfig) {prev : UInt8} (ts : List UInt8)
    (hp : prev < c.actuation) (h : NoTrigger c.actuation tuning.engage prev c.valley ts) :
    (travels tuning c false ts).2 = false := by
  induction ts generalizing c prev with
  | nil => rfl
  | cons t ts ih =>
    obtain ⟨hrise, hcross, hrest⟩ := h
    have hlow : ¬ c.actuation ≤ t := fun h => hcross ⟨hp, h⟩
    -- whichever branch is taken, the valley is the lowest sample and the key stays up
    have hstep : ∃ c', heComputePressed .rapidTrigger tuning c false t = (c', false)
        ∧ c'.actuation = c.actuation ∧ c'.valley = if t < c.valley then t else c.valley := by
      simp only [heComputePressed, Bool.false_eq_true, if_false]
      by_cases hv : t < c.valley
      · simp only [if_pos hv] at hrise ⊢
        split
        · exact ⟨_, rfl, rfl, rfl⟩
        · rw [if_neg (by simp only [not_or]; exact ⟨hlow, hrise⟩)]
          exact ⟨_, rfl, rfl, rfl⟩
      · simp only [if_neg hv] at hrise ⊢
        split
        · exact ⟨_, rfl, rfl, rfl⟩
        · rw [if_neg (by simp only [not_or]; exact ⟨hlow, hrise⟩)]
          exact ⟨_, rfl, rfl, rfl⟩
    obtain ⟨c', hc, hact, hval⟩ := hstep
    rw [travels, hc]
    exact ih c' (by rw [hact]; exact UInt8.not_le.mp hlow) (by rw [hact, hval]; exact hrest)

/-- A released key at rest above the deadzone: with its valley at the same travel nothing
moves below the actuation point, and from the actuation point on the key is pressed. -/
theorem compute_rest {tuning : Tuning} {c : KeyConfig} {t : UInt8} (hv : c.valley = t)
    (hd : tuning.deadzone < t) (he : 0 < tuning.engage) :
    heComputePressed .rapidTrigger tuning c false t
      = if c.actuation ≤ t then ({ c with travel := t, peak := t }, true)
        else ({ c with travel := t }, false) := by
  have hpos : ¬ (tuning.engage.toNat : Int) ≤ t.toNat-c.valley.toNat := by
    rw [hv]
    have := UInt8.lt_iff_toNat_lt.mp he
    simp only [UInt8.toNat_zero] at this
    omega
  have hnot : ¬ t < c.valley := by
    rw [hv]
    exact UInt8.lt_irrefl t
  simp only [heComputePressed, Bool.false_eq_true, if_false, if_neg hnot,
    if_neg (UInt8.not_le.mpr hd), hpos, or_false]

theorem debounceStep_differs {n : Nat} {phys stable : Bool} (h : phys ≠ stable) {count : UInt8}
    (hc : count.toNat+1 < 256) : debounceStep n phys stable count
      = if n ≤ count.toNat+1 then (phys, 0) else (stable, count+1) := by
  have hcount : (count+1).toNat = count.toNat+1 := by
    rw [UInt8.toNat_add, show (1 : UInt8).toNat = 1 from rfl]
    exact Nat.mod_eq_of_lt hc
  simp only [debounceStep, if_pos h, hcount]

theorem keyScans_rest {tuning : Tuning} {t : UInt8} (hd : tuning.deadzone < t)
    (he : 0 < tuning.engage) {n : Nat} (hn : n < 256) (k : Nat) (c : KeyConfig) (stable : Bool)
    (hv : c.valley = t) (ha : ¬ c.actuation ≤ t)
    (hk : stable = true → 0 < k ∧ c.debounce.toNat+k = n) :
    (keyScans n tuning (List.replicate k t) (c,false,stable)).2.2 = false := by
  induction k generalizing c stable with
  | zero =>
    cases stable with
    | false => rfl
    | true => exact absurd (hk rfl).1 (by omega)
  | succ k ih =>
    rw [List.replicate_succ, keyScans, keyScan, compute_rest hv hd he, if_neg ha]
    cases stable with
    | false => exact ih _ _ hv ha (fun h => by cases h)
    | true =>
      obtain ⟨-, hsum⟩ := hk rfl
      have hcount : (c.debounce+1).toNat = c.debounce.toNat+1 := by
        rw [UInt8.toNat_add, show (1 : UInt8).toNat = 1 from rfl]
        exact Nat.mod_eq_of_lt (by omega)
      simp only [debounceStep_differs Bool.false_ne_true
        (show c.debounce.toNat+1 < 256 by omega)]
      by_cases hlast : n ≤ c.debounce.toNat+1
      · simp only [if_pos hlast]
        exact ih _ _ hv ha (fun h => by cases h)
      · simp only [if_neg hlast]
        exact ih _ _ hv ha (fun _ => ⟨by omega, by simp only [hcount]; omega⟩)

def confirmState (s : HeState) (i : Sensor) : UInt8 × Bool × Bool :=
  ((s.config i).debounce, s.physPressed i, s.debounced i)

theorem SettingsOnly.confirmState {s t : HeState} (h : SettingsOnly s t) :
    confirmState t = confirmState s := by
  funext i
  rw [He.confirmState, h.phys, h.debounced,
    show (t.config i).debounce = (s.config i).debounce from congrArg (fun k => k.2.2.2.1) (h.keys i)]
  rfl

def Confirmed (s : HeState) : Prop :=
  ∀ i, s.physPressed i = s.debounced i → (s.config i).debounce = 0

theorem Confirmed.of_same {s t : HeState} (h : Confirmed s)
    (hst : confirmState t = confirmState s) : Confirmed t := by
  intro i
  have hi := congrFun hst i
  simp only [confirmState, Prod.mk.injEq] at hi
  rw [hi.1, hi.2.1, hi.2.2]
  exact h i

theorem debounceStep_agrees {n : Nat} {phys stable : Bool} {count : UInt8}
    (h : phys = (debounceStep n phys stable count).1) :
    (debounceStep n phys stable count).2 = 0 := by
  simp only [debounceStep] at h ⊢
  by_cases hne : phys ≠ stable
  · simp only [if_pos hne] at h ⊢
    split
    · rfl
    · rename_i hn
      rw [if_neg hn] at h
      exact absurd h hne
  · rw [if_neg hne]

theorem scan_confirmed (n : Nat) (input : ScanInput) (s : HeState) :
    Confirmed (matrixScanCustom n input s).2 := by
  simp only [matrixScanCustom]
  generalize ({ s with scanCount := s.scanCount+1 } : HeState) = s'
  have h₁ : Confirmed (storeSampled (sampleSensor n input s') s') := fun i h => by
    simp only [storeSampled, sampleSensor] at h ⊢
    exact debounceStep_agrees h
  generalize storeSampled (sampleSensor n input s') s' = t at h₁
  have h₂ := (SettingsOnly.lockInRest t).confirmState
  have h₃ : ∀ newly, confirmState (commitReported (socdResolve newly (lockInRest t))).2
      = confirmState (lockInRest t) := fun newly => by
    unfold socdResolve
    split <;> rfl
  exact h₁.of_same ((SettingsOnly.task input.now _).confirmState.trans ((h₃ _).trans h₂))

theorem exec_confirmed {s : HeState} (h : Confirmed s) (n : Nat) (step : Step) :
    Confirmed (exec n s step) := by
  cases hs : step.isScan with
  | true =>
    cases step with
    | scan input => exact scan_confirmed n input s
    | _ => cases hs
  | false => exact h.of_same (exec_settingsOnly n s hs).confirmState

theorem run_confirmed (n : Nat) (e : KbDatablock) (steps : List Step) :
    Confirmed (run n steps (boot e)) := by
  suffices ∀ s, Confirmed s → Confirmed (run n steps s) from this _ fun _ _ => rfl
  induction steps with
  | nil => exact fun s h => h
  | cons step steps ih => exact fun s h => ih _ (exec_confirmed h n step)

theorem releaseSticks_iff {tuning : Tuning} {c : KeyConfig} {stable : Bool} {t : UInt8}
    (he : 0 < tuning.engage) (hc : stable = true → c.debounce = 0)
    (h : DropRelease tuning c t) : ReleaseSticks tuning c stable t ↔ t < c.actuation := by
  have hdrop := compute_drop h
  generalize hc' : ({ c with travel := t, peak := if c.peak < t then t else c.peak, valley := t } :
    KeyConfig) = c' at hdrop
  have hval : c'.valley = t := by rw [← hc']
  have hact : c'.actuation = c.actuation := by rw [← hc']
  have hcnt : c'.debounce = c.debounce := by rw [← hc']
  have hrest := compute_rest hval h.1 he
  rw [hact] at hrest
  constructor
  · intro hs
    by_contra hge
    have hagain := hs.again
    rw [if_pos (UInt8.not_lt.mp hge)] at hrest
    simp only [travels, hdrop, hrest] at hagain
    cases hagain
  · intro hlt
    have hup : ¬ c.actuation ≤ t := UInt8.not_le.mpr hlt
    rw [if_neg hup] at hrest
    refine ⟨fun ts hts => ?_, ?_, ?_⟩
    · rw [travels, hdrop]
      exact travels_quiet tuning c' ts (by rw [hact]; exact hlt) (by rw [hact, hval]; exact hts)
    · simp only [travels, hdrop, hrest]
    · have hrun := fun c₂ stable₂ => keyScans_rest h.1 he (n := heDebounce) (by decide)
        (heDebounce-1) c₂ stable₂
      rw [show List.replicate heDebounce t = t :: List.replicate (heDebounce-1) t from rfl,
        keyScans, keyScan, hdrop]
      cases stable with
      | false => exact hrun _ _ hval (by rw [hact]; exact hup) (fun h => by cases h)
      | true =>
        rw [hc rfl] at hcnt
        simp only [debounceStep_differs Bool.false_ne_true
          (show c'.debounce.toNat+1 < 256 by rw [hcnt]; decide)]
        rw [hcnt]
        exact hrun _ _ hval (by rw [hact]; exact hup) (fun _ => ⟨by decide, rfl⟩)

/-- In every state the keyboard reaches, a release for dropping off the peak sticks exactly
when it happens below the key's actuation point. -/
theorem release_sticks_iff (e : KbDatablock) (steps : List Step) (i : Sensor) (t : UInt8)
    (hp : (run heDebounce steps (boot e)).physPressed i = true)
    (h : DropRelease (run heDebounce steps (boot e)).tuning
      ((run heDebounce steps (boot e)).config i) t) :
    let s := run heDebounce steps (boot e)
    ReleaseSticks s.tuning (s.config i) (s.debounced i) t ↔ t < (s.config i).actuation := by
  intro s
  have hclamp := run_clamped heDebounce e steps
  have hconf := run_confirmed heDebounce e steps i
  refine releaseSticks_iff ?_ (fun hd => hconf (by rw [hp, hd])) h
  exact Std.lt_of_lt_of_le (by decide) hclamp.engage.1

/-- Every analog key pressed down. -/
def bottomOut : ScanInput := ⟨fun _ => 2728,false,0⟩

/-- With the power-on settings a key released at 80 percent is pressed again by the same
travel. -/
theorem release_pressed_again :
    let s := run heDebounce [.scan bottomOut] (boot ⟨eeconfigKbDataVersion,ByteMem.blank⟩)
    s.mode = .rapidTrigger ∧ s.physPressed 0 = true ∧ DropRelease s.tuning (s.config 0) 80
      ∧ (travels s.tuning (s.config 0) true [80]).2 = false
      ∧ (travels s.tuning (s.config 0) true [80,80]).2 = true
      ∧ ¬ ReleaseSticks s.tuning (s.config 0) (s.debounced 0) 80 := by
  refine ⟨by decide +kernel, by decide +kernel, ⟨by decide +kernel, by decide +kernel⟩,
    by decide +kernel, by decide +kernel, fun h => ?_⟩
  have hagain := h.again
  revert hagain
  decide +kernel

theorem release_sticks_deep_actuation :
    let s := run heDebounce [.setActuation 90,.setDeadzone 15,.scan bottomOut]
      (boot ⟨eeconfigKbDataVersion,ByteMem.blank⟩)
    ReleaseSticks s.tuning (s.config 0) (s.debounced 0) 80 :=
  (release_sticks_iff ⟨eeconfigKbDataVersion,ByteMem.blank⟩
    [.setActuation 90,.setDeadzone 15,.scan bottomOut] 0 80 (by decide +kernel)
    ⟨by decide +kernel, by decide +kernel⟩).mpr (by decide +kernel)

end QmkFirmware.He
