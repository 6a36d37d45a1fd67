import Mathlib.Data.List.Induction
import QmkFirmware.He.Frame

/-!
The peak and the valley of a key across mode changes. They are kept in rapid-trigger scans
only, while scans in the other modes press and release the key as well.
-/

set_option autoImplicit false

namespace QmkFirmware.He

/-- The highest travel sampled since the last press of a key, and the lowest one since its last
release. -/
structure Extremes where
  high : UInt8
  low : Option UInt8
  deriving DecidableEq, Repr

def Extremes.follow (before after : Bool) (t : UInt8) (x : Extremes) : Extremes :=
  if after then
    { x with high := if before then (if x.high < t then t else x.high) else t }
  else
    { x with low := if before then some t else x.low.map fun v => if t < v then t else v }

structure Watch where
  mode : Option ActuationMode
  extremes : Sensor → Extremes

def Watch.start : Watch := ⟨none,fun _ => ⟨0,none⟩⟩

def watch (s t : HeState) (step : Step) (w : Watch) : Watch :=
  if step.isScan then
    { mode := some s.mode
      extremes := fun i =>
        (w.extremes i).follow (s.physPressed i) (t.physPressed i) (t.config i).travel }
  else w

def watchOf (n : Nat) (e : KbDatablock) (steps : List Step) : Watch :=
  (steps.foldl (fun p step => (exec n p.1 step,watch p.1 (exec n p.1 step) step p.2))
    (boot e,Watch.start)).2

theorem watched_state (n : Nat) (steps : List Step) (p : HeState × Watch) :
    (steps.foldl (fun p step => (exec n p.1 step,watch p.1 (exec n p.1 step) step p.2)) p).1
      = run n steps p.1 := by
  induction steps generalizing p with
  | nil => rfl
  | cons step steps ih => exact ih _

theorem watchOf_snoc (n : Nat) (e : KbDatablock) (steps : List Step) (step : Step) :
    watchOf n e (steps ++ [step]) = watch (run n steps (boot e))
      (run n (steps ++ [step]) (boot e)) step (watchOf n e steps) := by
  rw [watchOf, List.foldl_concat, watched_state, run_snoc]
  rfl

/-- The peak of a held key is the highest travel since it was pressed, the valley of a
released key the lowest one since it was released. -/
def Faithful (c : KeyConfig) (pressed : Bool) (x : Extremes) : Prop :=
  (pressed = true → c.peak = x.high) ∧ (pressed = false → ∀ v, x.low = some v → c.valley = v)

/-- Travel `t` releases a held key in rapid-trigger mode. -/
def Releases (tuning : Tuning) (c : KeyConfig) (t : UInt8) : Prop :=
  t ≤ tuning.deadzone ∨ tuning.releaseDist ≤ (if c.peak < t then t else c.peak)-t

/-- Travel `t` presses a released key in rapid-trigger mode. -/
def Presses (tuning : Tuning) (c : KeyConfig) (t : UInt8) : Prop :=
  tuning.deadzone < t ∧ (c.actuation ≤ t
    ∨ (tuning.engage.toNat : Int) ≤ t.toNat-(if t < c.valley then t else c.valley).toNat)

theorem compute_held (tuning : Tuning) (c : KeyConfig) (t : UInt8) :
    let r := heComputePressed .rapidTrigger tuning c true t
    (r.2 = true ↔ ¬ Releases tuning c t) ∧ r.1.travel = t
      ∧ r.1.peak = (if c.peak < t then t else c.peak) ∧ (r.2 = false → r.1.valley = t) := by
  simp only [heComputePressed, if_true, Releases]
  by_cases hp : c.peak < t
  · simp only [if_pos hp]
    split <;> simp_all
  · simp only [if_neg hp]
    split <;> simp_all

theorem compute_released (tuning : Tuning) (c : KeyConfig) (t : UInt8) :
    let r := heComputePressed .rapidTrigger tuning c false t
    (r.2 = true ↔ Presses tuning c t) ∧ r.1.travel = t
      ∧ r.1.valley = (if t < c.valley then t else c.valley) ∧ (r.2 = true → r.1.peak = t) := by
  simp only [heComputePressed, Bool.false_eq_true, if_false, Presses]
  by_cases hv : t < c.valley
  · simp only [if_pos hv]
    split
    · rename_i hd
      simp [UInt8.not_lt.mpr hd]
    · split <;> simp_all
  · simp only [if_neg hv]
    split
    · rename_i hd
      simp [UInt8.not_lt.mpr hd]
    · split <;> simp_all

/-- Before a rapid-trigger scan that finds travel `t` the stored extreme of a key is the sampled
one, or both give way to `t`, or the scan turns the key over. -/
def Current (tuning : Tuning) (c : KeyConfig) (pressed : Bool) (t : UInt8) (x : Extremes) : Prop :=
  (pressed = true → Releases tuning c t ∨ c.peak = x.high ∨ c.peak ≤ t ∧ x.high ≤ t)
    ∧ (pressed = false → Presses tuning c t ∨ ∀ v, x.low = some v → c.valley = v
      ∨ t ≤ c.valley ∧ t ≤ v)

/-- Travel `t` neither releases a held key above the deadzone nor presses a released one below
its actuation point. -/
def Rests (tuning : Tuning) (c : KeyConfig) (pressed : Bool) (t : UInt8) : Prop :=
  (pressed = true → tuning.deadzone < t → ¬ Releases tuning c t)
    ∧ (pressed = false → t < c.actuation → ¬ Presses tuning c t)

theorem max_eq_iff {a b t : UInt8} :
    (if a < t then t else a) = (if b < t then t else b) ↔ a = b ∨ a ≤ t ∧ b ≤ t := by
  simp only [← UInt8.toNat_inj, UInt8.lt_iff_toNat_lt, UInt8.le_iff_toNat_le]
  split <;> split <;> omega

theorem min_eq_iff {a b t : UInt8} :
    (if t < a then t else a) = (if t < b then t else b) ↔ a = b ∨ t ≤ a ∧ t ≤ b := by
  simp only [← UInt8.toNat_inj, UInt8.lt_iff_toNat_lt, UInt8.le_iff_toNat_le]
  split <;> split <;> omega

theorem compute_faithful_iff (tuning : Tuning) (c : KeyConfig) (pressed : Bool) (t : UInt8)
    (x : Extremes) :
    let r := heComputePressed .rapidTrigger tuning c pressed t
    Faithful r.1 r.2 (x.follow pressed r.2 t) ↔ Current tuning c pressed t x := by
  cases pressed with
  | true =>
    obtain ⟨hout, -, hpeak, hvalley⟩ := compute_held tuning c t
    dsimp only at hout hpeak hvalley ⊢
    generalize heComputePressed .rapidTrigger tuning c true t = r at hout hpeak hvalley
    cases hr : r.2 with
    | true =>
      have hstay := hout.mp hr
      simp [Faithful, Current, Extremes.follow, hpeak, max_eq_iff, hstay]
    | false =>
      have hrel : Releases tuning c t := by
        by_contra h
        simp [hout.mpr h] at hr
      simp [Faithful, Current, Extremes.follow, hvalley hr, hrel]
  | false =>
    obtain ⟨hout, -, hvalley, hpeak⟩ := compute_released tuning c t
    dsimp only at hout hpeak hvalley ⊢
    generalize heComputePressed .rapidTrigger tuning c false t = r at hout hpeak hvalley
    cases hr : r.2 with
    | true => simp [Faithful, Current, Extremes.follow, hpeak hr, hout.mp hr]
    | false =>
      have hstay : ¬ Presses tuning c t := fun h => by simp [hout.mpr h] at hr
      cases hx : x.low <;>
        simp [Faithful, Current, Extremes.follow, hx, hvalley, hstay, min_eq_iff]

variable {n : Nat} {input : ScanInput} {s : HeState} {i : Sensor}

theorem decided_span (hm : s.mode = .rapidTrigger) : decided input s i
    = heComputePressed .rapidTrigger s.tuning
      (spanned s.calibrating (input.sample i) (s.config i)) (s.physPressed i)
      (sampledTravel input s i) := by
  rw [decided, hm]

theorem current_spanned (calibrating : Bool) (raw : UInt16) (tuning : Tuning) (c : KeyConfig)
    (pressed : Bool) (t : UInt8) (x : Extremes) :
    Current tuning (spanned calibrating raw c) pressed t x ↔ Current tuning c pressed t x := by
  obtain ⟨hpeak, hvalley, hact, -⟩ := spanned_fields calibrating raw c
  simp only [Current, Releases, Presses, hpeak, hvalley, hact]

theorem scan_travel (hm : s.mode = .rapidTrigger) (hi : i ≠ heEncPushIndex) :
    ((matrixScanCustom n input s).2.config i).travel = sampledTravel input s i := by
  have h := (scan_decided n input s hi).2.1
  rw [h, decided_span hm]
  cases s.physPressed i with
  | true => exact (compute_held _ _ _).2.1
  | false => exact (compute_released _ _ _).2.1

theorem scan_faithful_iff (hm : s.mode = .rapidTrigger) (hi : i ≠ heEncPushIndex)
    (x : Extremes) :
    let t := (matrixScanCustom n input s).2
    Faithful (t.config i) (t.physPressed i)
        (x.follow (s.physPressed i) (t.physPressed i) (t.config i).travel)
      ↔ Current s.tuning (s.config i) (s.physPressed i) (sampledTravel input s i) x := by
  obtain ⟨hphys, -, hpeak, hvalley⟩ := scan_decided n input s hi
  dsimp only at hphys hpeak hvalley ⊢
  rw [scan_travel hm hi, hphys, Faithful, hpeak, hvalley, ← Faithful, decided_span hm]
  exact (compute_faithful_iff _ _ _ _ x).trans (current_spanned _ _ _ _ _ _ _)

/-- The scan turns over neither a held key above the deadzone nor a released key below its
actuation point. -/
def Quiet (s t : HeState) (i : Sensor) : Prop :=
  (s.physPressed i = true → s.tuning.deadzone < (t.config i).travel → t.physPressed i = true)
    ∧ (s.physPressed i = false → (t.config i).travel < (s.config i).actuation →
      t.physPressed i = false)

theorem scan_quiet_iff (hm : s.mode = .rapidTrigger) (hi : i ≠ heEncPushIndex) :
    Quiet s (matrixScanCustom n input s).2 i
      ↔ Rests s.tuning (s.config i) (s.physPressed i) (sampledTravel input s i) := by
  have hphys := (scan_decided n input s hi).1
  obtain ⟨hpeak, hvalley, hact, -⟩ := spanned_fields s.calibrating (input.sample i) (s.config i)
  rw [Quiet, scan_travel hm hi, hphys, decided_span hm]
  cases s.physPressed i with
  | true =>
    have hout := (compute_held s.tuning (spanned s.calibrating (input.sample i) (s.config i))
      (sampledTravel input s i)).1
    rw [hout]
    simp [Rests, Releases, hpeak]
  | false =>
    have hout := not_congr (compute_released s.tuning
      (spanned s.calibrating (input.sample i) (s.config i)) (sampledTravel input s i)).1
    rw [Bool.not_eq_true, Presses, hvalley, hact, ← Presses] at hout
    rw [hout]
    simp [Rests]

/-- A scan in rapid-trigger mode: the extremes of every analog key are the sampled ones, and if
the scan before it was made in another mode and the travel of a key has not moved since, the
key is left as it was. -/
structure KeepsExtremes (s t : HeState) (w w' : Watch) (input : ScanInput) : Prop where
  faithful : ∀ i ≠ heEncPushIndex, Faithful (t.config i) (t.physPressed i) (w'.extremes i)
  quiet : ∀ m, w.mode = some m → m ≠ .rapidTrigger → ∀ i ≠ heEncPushIndex,
    sampledTravel input s i = (s.config i).travel → Quiet s t i

/-- Rapid-trigger mode is entered with extremes that are current, and no key with unmoved travel
is past the point where it turns over. -/
def EntersCurrent (s : HeState) (w : Watch) (input : ScanInput) : Prop :=
  ∀ i ≠ heEncPushIndex,
    Current s.tuning (s.config i) (s.physPressed i) (sampledTravel input s i) (w.extremes i)
      ∧ (sampledTravel input s i = (s.config i).travel →
        Rests s.tuning (s.config i) (s.physPressed i) (sampledTravel input s i))

theorem Faithful.current {c : KeyConfig} {pressed : Bool} {x : Extremes}
    (h : Faithful c pressed x) (tuning : Tuning) (t : UInt8) : Current tuning c pressed t x :=
  ⟨fun hp => .inr (.inl (h.1 hp)), fun hp => .inr fun v hv => .inl (h.2 hp v hv)⟩

variable (n : Nat) (e : KbDatablock)

theorem run_faithful {steps : List Step}
    (hc : ∀ pre input, pre ++ [.scan input] <+: steps →
      (run n pre (boot e)).mode = .rapidTrigger →
      ∀ m, (watchOf n e pre).mode = some m → m ≠ .rapidTrigger →
      EntersCurrent (run n pre (boot e)) (watchOf n e pre) input)
    {pre : List Step} (hpre : pre <+: steps)
    (hm : ∀ m, (watchOf n e pre).mode = some m → m = .rapidTrigger) :
    ∀ i ≠ heEncPushIndex, Faithful ((run n pre (boot e)).config i)
      ((run n pre (boot e)).physPressed i) ((watchOf n e pre).extremes i) := by
  induction pre using List.reverseRecOn with
  | nil => exact fun i _ => ⟨fun h => (by cases h), fun _ v hv => (by cases hv)⟩
  | append_singleton pre step ih =>
    have hpre' := (List.prefix_append pre [step]).trans hpre
    intro i hi
    rw [watchOf_snoc, run_snoc] at hm ⊢
    cases hscan : step.isScan with
    | true =>
      cases step with
      | scan input =>
        simp only [watch, Step.isScan, if_true] at hm ⊢
        have hmode := hm _ rfl
        refine (scan_faithful_iff hmode hi _).mpr ?_
        by_cases hin : ∃ m, (watchOf n e pre).mode = some m ∧ m ≠ .rapidTrigger
        · obtain ⟨m, hm', hne⟩ := hin
          exact (hc pre input hpre hmode m hm' hne i hi).1
        · refine (ih hpre' (fun m hm' => ?_) i hi).current _ _
          by_contra hne
          exact hin ⟨m, hm', hne⟩
      | _ => cases hscan
    | false =>
      have hfr := exec_frame n (run n pre (boot e)) hscan
      simp only [watch, hscan, Bool.false_eq_true, if_false] at hm ⊢
      rw [Faithful, hfr.phys, hfr.peak, hfr.valley]
      exact ih hpre' hm i hi

/-- In every rapid-trigger scan of a run the extremes are faithful and unmoved keys stay as
they were when the mode is entered, exactly if the mode is always entered with extremes that
are current. -/
theorem extremes_faithful_iff (steps : List Step) :
    (∀ pre input, pre ++ [.scan input] <+: steps →
      (run n pre (boot e)).mode = .rapidTrigger →
      KeepsExtremes (run n pre (boot e)) (run n (pre ++ [.scan input]) (boot e))
        (watchOf n e pre) (watchOf n e (pre ++ [.scan input])) input)
    ↔ ∀ pre input, pre ++ [.scan input] <+: steps →
      (run n pre (boot e)).mode = .rapidTrigger →
      ∀ m, (watchOf n e pre).mode = some m → m ≠ .rapidTrigger →
      EntersCurrent (run n pre (boot e)) (watchOf n e pre) input := by
  have hsnoc := fun pre input => run_snoc n pre (.scan input) (boot e)
  constructor
  · intro h pre input hpre hm m hw hne i hi
    have hk := h pre input hpre hm
    rw [watchOf_snoc, hsnoc] at hk
    exact ⟨(scan_faithful_iff hm hi _).mp (hk.faithful i hi),
      fun hmoved => (scan_quiet_iff hm hi).mp (hk.quiet m hw hne i hi hmoved)⟩
  · intro hc pre input hpre hm
    refine ⟨run_faithful n e hc hpre fun m hw => ?_, fun m hw hne i hi hmoved => ?_⟩
    · rw [watchOf_snoc] at hw
      cases hw
      exact hm
    · rw [hsnoc]
      exact (scan_quiet_iff hm hi).mpr ((hc pre input hpre hm m hw hne i hi).2 hmoved)

/-- The first two keys at these raw values, the others at rest. -/
def twoKeys (first second : UInt16) : ScanInput :=
  ⟨fun i => if i = 0 then first else if i = 1 then second else 2028,false,0⟩

/-- Peaks of 100 and 65 percent are left over when both keys are pressed to 60 percent in
normal mode. -/
def stalePeaks : List Step :=
  [.scan (twoKeys 2728 2483),.setMode 0,.scan (twoKeys 2028 2028),.scan (twoKeys 2448 2448),
    .setMode 1]

/-- The first key is released where it rests, the second one keeps a peak it did not reach. -/
theorem stale_peaks_used :
    let e : KbDatablock := ⟨eeconfigKbDataVersion,ByteMem.blank⟩
    let input := twoKeys 2448 2448
    let s := run heDebounce stalePeaks (boot e)
    let t := run heDebounce (stalePeaks ++ [.scan input]) (boot e)
    s.mode = .rapidTrigger ∧ (watchOf heDebounce e stalePeaks).mode = some .normal
      ∧ sampledTravel input s 0 = 60 ∧ (s.config 0).travel = 60 ∧ s.tuning.deadzone = 50
      ∧ s.physPressed 0 = true ∧ t.physPressed 0 = false
      ∧ t.physPressed 1 = true ∧ (t.config 1).peak = 65
      ∧ ((watchOf heDebounce e (stalePeaks ++ [.scan input])).extremes 1).high = 60
      ∧ ¬ KeepsExtremes s t (watchOf heDebounce e stalePeaks)
        (watchOf heDebounce e (stalePeaks ++ [.scan input])) input := by
  intro e input s t
  have hw : (watchOf heDebounce e stalePeaks).mode = some .normal := by decide +kernel
  have ht : t.physPressed 1 = true := by decide +kernel
  have hp : (t.config 1).peak = 65 := by decide +kernel
  have hh : ((watchOf heDebounce e (stalePeaks ++ [.scan input])).extremes 1).high = 60 := by
    decide +kernel
  refine ⟨by decide +kernel, hw, by decide +kernel, by decide +kernel, by decide +kernel,
    by decide +kernel, by decide +kernel, ht, hp, hh, fun h => ?_⟩
  have hpeak := (h.faithful 1 (by decide)).1 ht
  rw [hp, hh] at hpeak
  cases hpeak

end QmkFirmware.He
