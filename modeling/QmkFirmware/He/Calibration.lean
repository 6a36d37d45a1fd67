import Mathlib.Data.Bool.AllAny
import QmkFirmware.He.Frame

/-!
Calibration: what a run from `he_start_calibration` to `he_end_calibration` leaves as the span of a
sensor.
-/

set_option autoImplicit false

namespace QmkFirmware.He

structure AdcInput extends ScanInput where
  bits : ∀ i, sample i ≤ heAdcRawMax

inductive CalStep where
  | start
  | scan (input : AdcInput)
  | stop

def CalStep.step : CalStep → Step
  | .start => .startCalibration
  | .scan input => .scan input.toScanInput
  | .stop => .endCalibration

/-- The keyboard, the samples of the calibration that is going on, and whether the boot
calibration was locked in since its start. -/
structure Measuring where
  state : HeState
  samples : Sensor → List UInt16
  lockedIn : Bool

def Measuring.next (n : Nat) (w : Measuring) (step : CalStep) : Measuring :=
  let state := exec n w.state step.step
  match step with
  | .start => ⟨state,fun _ => [],false⟩
  | .scan input =>
    if w.state.calibrating then
      ⟨state,fun i => w.samples i ++ [input.sample i],
        w.lockedIn || decide (state.scanCount = heAdcRestSampleScans)⟩
    else { w with state := state }
  | .stop => ⟨state,fun _ => [],false⟩

def measuring (n : Nat) (steps : List CalStep) (e : KbDatablock) : Measuring :=
  steps.foldl (Measuring.next n) ⟨boot e,fun _ => [],false⟩

section Scan

variable (n : Nat) (input : ScanInput) (s : HeState)

theorem heComputePressed_raw (mode : ActuationMode) (tuning : Tuning) (c : KeyConfig)
    (pressed : Bool) (travel : UInt8) :
    (heComputePressed mode tuning c pressed travel).1.rawMin = c.rawMin
      ∧ (heComputePressed mode tuning c pressed travel).1.rawMax = c.rawMax := by
  unfold heComputePressed
  cases mode <;> dsimp only <;> split_ifs <;> exact ⟨rfl,rfl⟩

theorem heViaCommitThresholds_raw (i : Sensor) :
    ((heViaCommitThresholds s).config i).rawMin = (s.config i).rawMin
      ∧ ((heViaCommitThresholds s).config i).rawMax = (s.config i).rawMax
      ∧ (heViaCommitThresholds s).calibrating = s.calibrating
      ∧ (heViaCommitThresholds s).scanCount = s.scanCount := by
  unfold heViaCommitThresholds
  dsimp only
  split <;> exact ⟨rfl,rfl,rfl,rfl⟩

theorem heViaTask_raw (now : UInt16) (i : Sensor) :
    ((heViaTask now s).config i).rawMin = (s.config i).rawMin
      ∧ ((heViaTask now s).config i).rawMax = (s.config i).rawMax
      ∧ (heViaTask now s).calibrating = s.calibrating
      ∧ (heViaTask now s).scanCount = s.scanCount := by
  unfold heViaTask
  split
  · exact heViaCommitThresholds_raw { s with via := { s.via with autosavePending := false } } i
  · exact ⟨rfl,rfl,rfl,rfl⟩

theorem socdResolve_raw (newlyPressed : Sensor → Bool) :
    (socdResolve newlyPressed s).config = s.config
      ∧ (socdResolve newlyPressed s).calibrating = s.calibrating
      ∧ (socdResolve newlyPressed s).scanCount = s.scanCount := by
  unfold socdResolve
  dsimp only
  split <;> exact ⟨rfl,rfl,rfl⟩

theorem lockInRest_counters :
    (lockInRest s).calibrating = s.calibrating ∧ (lockInRest s).scanCount = s.scanCount := by
  unfold lockInRest
  split <;> exact ⟨rfl,rfl⟩

theorem scan_counters : (matrixScanCustom n input s).2.calibrating = s.calibrating
    ∧ (matrixScanCustom n input s).2.scanCount = s.scanCount+1 := by
  obtain ⟨-, -, htask, htask'⟩ := heViaTask_raw (commitReported (socdResolve (fun i =>
    (sampleSensor n input { s with scanCount := s.scanCount+1 } i).newlyPressed) (lockInRest
      (storeSampled (sampleSensor n input { s with scanCount := s.scanCount+1 })
        { s with scanCount := s.scanCount+1 })))).2 input.now 0
  rw [matrixScanCustom]
  dsimp only
  rw [htask, htask', commitReported]
  dsimp only
  rw [(socdResolve_raw ..).2.1, (socdResolve_raw ..).2.2, (lockInRest_counters _).1,
    (lockInRest_counters _).2]
  exact ⟨rfl,rfl⟩

/-- Outside of the scan that locks in the rest, the raw values of a key are what the calibration
makes of the sample. -/
theorem scan_raw (hlock : s.scanCount+1 ≠ heAdcRestSampleScans) {i : Sensor}
    (hi : i ≠ heEncPushIndex) :
    ((matrixScanCustom n input s).2.config i).rawMin
        = (spanned s.calibrating (input.sample i) (s.config i)).rawMin
      ∧ ((matrixScanCustom n input s).2.config i).rawMax
        = (spanned s.calibrating (input.sample i) (s.config i)).rawMax := by
  have hstore : lockInRest (storeSampled (sampleSensor n input { s with scanCount := s.scanCount+1 })
      { s with scanCount := s.scanCount+1 }) = storeSampled (sampleSensor n input
        { s with scanCount := s.scanCount+1 }) { s with scanCount := s.scanCount+1 } :=
    if_neg hlock
  obtain ⟨hmin, hmax, -⟩ := heViaTask_raw (commitReported (socdResolve (fun i =>
    (sampleSensor n input { s with scanCount := s.scanCount+1 } i).newlyPressed)
      (storeSampled (sampleSensor n input { s with scanCount := s.scanCount+1 })
        { s with scanCount := s.scanCount+1 }))).2 input.now i
  rw [matrixScanCustom]
  dsimp only
  rw [hstore, hmin, hmax, commitReported]
  dsimp only
  rw [(socdResolve_raw ..).1, storeSampled]
  dsimp only
  simp only [sampleSensor, if_neg hi]
  exact heComputePressed_raw ..

end Scan

structure Measured (c : KeyConfig) (samples : List UInt16) : Prop where
  low : ∀ x ∈ samples, c.rawMin ≤ x
  high : ∀ x ∈ samples, x ≤ c.rawMax
  lowest : c.rawMin ∈ samples ∨ c.rawMin = heAdcRawMax
  highest : c.rawMax ∈ samples ∨ c.rawMax = 0

theorem Measured.sample {c c' : KeyConfig} {samples : List UInt16} {raw : UInt16}
    (h : Measured c samples) (hmin : c'.rawMin = (spanned true raw c).rawMin)
    (hmax : c'.rawMax = (spanned true raw c).rawMax) : Measured c' (samples ++ [raw]) := by
  have hmin' : c'.rawMin = if raw < c.rawMin then raw else c.rawMin := by
    rw [hmin, spanned, if_pos rfl]
    dsimp only
    split_ifs <;> rfl
  have hmax' : c'.rawMax = if c.rawMax < raw then raw else c.rawMax := by
    rw [hmax, spanned, if_pos rfl]
    dsimp only
    split_ifs <;> rfl
  refine ⟨fun x hx => ?_,fun x hx => ?_,?_,?_⟩
  · rw [hmin']
    rcases List.mem_append.mp hx with hx | hx
    · have := h.low x hx
      split_ifs <;> grind
    · rw [List.mem_singleton.mp hx]
      split_ifs <;> grind
  · rw [hmax']
    rcases List.mem_append.mp hx with hx | hx
    · have := h.high x hx
      split_ifs <;> grind
    · rw [List.mem_singleton.mp hx]
      split_ifs <;> grind
  · rw [hmin', List.mem_append, List.mem_singleton]
    have := h.lowest
    split_ifs <;> grind
  · rw [hmax', List.mem_append, List.mem_singleton]
    have := h.highest
    split_ifs <;> grind

theorem Measured.exact {c : KeyConfig} {samples : List UInt16} {lo hi : UInt16}
    (h : Measured c samples) (hbits : ∀ x ∈ samples, x ≤ heAdcRawMax) (hlo : lo ∈ samples)
    (hlo' : ∀ x ∈ samples, lo ≤ x) (hhi : hi ∈ samples) (hhi' : ∀ x ∈ samples, x ≤ hi) :
    c.rawMin = lo ∧ c.rawMax = hi := by
  refine ⟨Std.le_antisymm (h.low lo hlo) ?_,Std.le_antisymm ?_ (h.high hi hhi)⟩
  · rcases h.lowest with hmem | heq
    · exact hlo' _ hmem
    · rw [heq]
      exact hbits lo hlo
  · rcases h.highest with hmem | heq
    · exact hhi' _ hmem
    · rw [heq]
      exact UInt16.zero_le

structure Measuring.Inv (w : Measuring) : Prop where
  bits : ∀ i, ∀ x ∈ w.samples i, x ≤ heAdcRawMax
  idle : w.state.calibrating = false → ∀ i, w.samples i = []
  measured : w.state.calibrating = true → w.lockedIn = false → ∀ i, i ≠ heEncPushIndex →
    Measured (w.state.config i) (w.samples i)

theorem Measuring.Inv.next {w : Measuring} (h : w.Inv) (n : Nat) (step : CalStep) :
    (w.next n step).Inv := by
  cases step with
  | start =>
    refine ⟨fun i x hx => ?_,fun hcal => ?_,fun _ _ i hi => ?_⟩
    · cases hx
    · cases hcal
    · refine ⟨fun x hx => ?_,fun x hx => ?_,.inr ?_,.inr ?_⟩
      · cases hx
      · cases hx
      · simp [Measuring.next, exec, CalStep.step, heStartCalibration, hi]
      · simp [Measuring.next, exec, CalStep.step, heStartCalibration, hi]
  | stop =>
    refine ⟨fun i x hx => ?_,fun _ i => rfl,fun hcal => ?_⟩
    · cases hx
    · cases hcal
  | scan input =>
    have hcal : (matrixScanCustom n input.toScanInput w.state).2.calibrating = w.state.calibrating :=
      (scan_counters ..).1
    have hcount := (scan_counters n input.toScanInput w.state).2
    cases hw : w.state.calibrating with
    | false =>
      have hnext : w.next n (.scan input)
          = { w with state := (matrixScanCustom n input.toScanInput w.state).2 } := by
        simp [Measuring.next, hw, exec, CalStep.step]
      rw [hnext]
      refine ⟨h.bits,fun _ => h.idle hw,fun htrue => ?_⟩
      rw [hcal, hw] at htrue
      cases htrue
    | true =>
      have hnext : w.next n (.scan input) = ⟨(matrixScanCustom n input.toScanInput w.state).2,
          fun i => w.samples i ++ [input.sample i],
          w.lockedIn || decide (w.state.scanCount+1 = heAdcRestSampleScans)⟩ := by
        simp [Measuring.next, hw, exec, CalStep.step, hcount]
      rw [hnext]
      refine ⟨fun i x hx => ?_,fun hfalse => ?_,fun _ hfree i hi => ?_⟩
      · rcases List.mem_append.mp hx with hx | hx
        · exact h.bits i x hx
        · rw [List.mem_singleton.mp hx]
          exact input.bits i
      · rw [hcal, hw] at hfalse
        cases hfalse
      · obtain ⟨hbefore, hlock⟩ := Bool.or_eq_false_iff.mp hfree
        obtain ⟨hmin, hmax⟩ := scan_raw n input.toScanInput w.state (of_decide_eq_false hlock) hi
        rw [hw] at hmin hmax
        exact (h.measured hw hbefore i hi).sample hmin hmax

theorem measuring_inv (n : Nat) (steps : List CalStep) (e : KbDatablock) :
    (measuring n steps e).Inv := by
  have hrun : ∀ w : Measuring, w.Inv → (steps.foldl (Measuring.next n) w).Inv := by
    induction steps with
    | nil => exact fun w h => h
    | cons step steps ih => exact fun w h => ih _ (h.next n step)
  exact hrun _ ⟨fun _ _ hx => (nomatch hx),fun _ _ => rfl,fun hcal => (nomatch hcal)⟩

theorem restBase_lt {floor : UInt16} (h : floor < heAdcRawMax) : restBase floor < heAdcRawMax := by
  unfold restBase
  split_ifs with hmargin
  · unfold heAdcRawMax heAdcRestMargin at *
    grind
  · decide

theorem fallback_span {base : UInt16} (h : base < heAdcRawMax) :
    base.toNat+heAdcMinSpan.toNat ≤ (base+heAdcTravelSpan).toNat := by
  have hlt : base.toNat < 4095 := h
  rw [UInt16.toNat_add]
  have hspan : heAdcTravelSpan.toNat = 700 := rfl
  have hmin : heAdcMinSpan.toNat = 200 := rfl
  omega

theorem endCalibration_span (s : HeState) {i : Sensor} (hi : i ≠ heEncPushIndex) :
    ((heEndCalibration s).config i).rawMin.toNat+heAdcMinSpan.toNat
      ≤ ((heEndCalibration s).config i).rawMax.toNat := by
  simp only [heEndCalibration, if_neg hi]
  split_ifs with hspan hfloor
  · exact fallback_span (restBase_lt hfloor)
  · exact fallback_span (show heAdcRawMid < heAdcRawMax by decide)
  · omega

theorem endCalibration_keeps {s : HeState} {i : Sensor}
    (h : (s.config i).rawMin.toNat+heAdcMinSpan.toNat ≤ (s.config i).rawMax.toNat) :
    (heEndCalibration s).config i = s.config i := by
  simp only [heEndCalibration]
  split_ifs <;> first | rfl | omega

/-- The least and the greatest of the samples. -/
structure LeastGreatest (samples : List UInt16) (lo hi : UInt16) : Prop where
  lo_mem : lo ∈ samples
  lo_le : ∀ x ∈ samples, lo ≤ x
  hi_mem : hi ∈ samples
  le_hi : ∀ x ∈ samples, x ≤ hi

/-- At the end of a calibration every span is wide enough, and unless the boot calibration was
locked in during the run a measured span that is wide enough is kept. -/
theorem calibration_end (n : Nat) (steps : List CalStep) (e : KbDatablock) (i : Sensor)
    (hi : i ≠ heEncPushIndex) :
    let w := measuring n steps e
    let c := (heEndCalibration w.state).config i
    c.rawMin.toNat+heAdcMinSpan.toNat ≤ c.rawMax.toNat
      ∧ (w.lockedIn = false → ∀ lo hi, LeastGreatest (w.samples i) lo hi →
        lo.toNat+heAdcMinSpan.toNat ≤ hi.toNat → c.rawMin = lo ∧ c.rawMax = hi) := by
  intro w c
  refine ⟨endCalibration_span w.state hi,fun hfree lo hi' hext hspan => ?_⟩
  have hinv := measuring_inv n steps e
  have hcal : w.state.calibrating = true := by
    by_contra hidle
    have hmem := hext.lo_mem
    rw [hinv.idle (Bool.eq_false_iff.mpr hidle) i] at hmem
    cases hmem
  obtain ⟨hmin, hmax⟩ := (hinv.measured hcal hfree i hi).exact (hinv.bits i) hext.lo_mem hext.lo_le
    hext.hi_mem hext.le_hi
  have hkeep : c = w.state.config i := endCalibration_keeps (by rw [hmin, hmax]; exact hspan)
  rw [hkeep]
  exact ⟨hmin,hmax⟩

/-- A scan with one sample for all sensors. -/
def level (raw : UInt16) (h : raw ≤ heAdcRawMax) : CalStep :=
  .scan ⟨⟨fun _ => raw,false,0⟩,fun _ => h⟩

theorem rest_bits : (2000 : UInt16) ≤ heAdcRawMax := by decide

theorem press_bits : (3000 : UInt16) ≤ heAdcRawMax := by decide

/-- A calibration that is started before the first scan: one pressed sample, then the resting value
until the boot calibration is locked in. -/
def earlyCalibration : List CalStep :=
  .start :: level 3000 press_bits :: List.replicate 63 (level 2000 rest_bits)

/-- The measured span of 2000 to 3000 is lost to the boot calibration. -/
theorem measurement_lost :
    let w := measuring heDebounce earlyCalibration ⟨0,ByteMem.blank⟩
    let c := (heEndCalibration w.state).config 0
    LeastGreatest (w.samples 0) 2000 3000 ∧ c.rawMin = 1980 ∧ c.rawMax = 2680 :=
  ⟨⟨by decide +kernel,List.all_iff_forall_prop.mp (by decide +kernel),by decide +kernel,
    List.all_iff_forall_prop.mp (by decide +kernel)⟩,by decide +kernel,by decide +kernel⟩

/-- The same samples after the boot window. -/
theorem calibration_end_late :
    let steps := List.replicate 64 (level 2000 rest_bits) ++ earlyCalibration
    let c := (heEndCalibration (measuring heDebounce steps ⟨0,ByteMem.blank⟩).state).config 0
    c.rawMin = 2000 ∧ c.rawMax = 3000 :=
  (calibration_end heDebounce _ ⟨0,ByteMem.blank⟩ 0 (by decide)).2 (by decide +kernel) 2000 3000
    ⟨by decide +kernel,List.all_iff_forall_prop.mp (by decide +kernel),by decide +kernel,
      List.all_iff_forall_prop.mp (by decide +kernel)⟩ (by decide)

end QmkFirmware.He
