import QmkFirmware.He.Scan

/-!
Bounds on the settings. Every way to change a threshold goes through a clamp, so the values
the scan works with stay within the slider ranges.
-/

set_option autoImplicit false

namespace QmkFirmware.He

structure Clamped (s : HeState) : Prop where
  actuation : ∀ i, heActuationMin ≤ (s.config i).actuation
    ∧ (s.config i).actuation ≤ heActuationMax
  release : ∀ i, heReleaseMin ≤ (s.config i).release ∧ (s.config i).release ≤ heReleaseMax
  deadzone : heDeadzoneMin ≤ s.tuning.deadzone ∧ s.tuning.deadzone ≤ heDeadzoneMax
  engage : heEngageMin ≤ s.tuning.engage ∧ s.tuning.engage ≤ heEngageMax
  releaseDist : heReleaseDistMin ≤ s.tuning.releaseDist
    ∧ s.tuning.releaseDist ≤ heReleaseDistMax

theorem heClampU8_bounds (value : UInt8) {lo hi : UInt8} (h : lo ≤ hi) :
    lo ≤ heClampU8 value lo hi ∧ heClampU8 value lo hi ≤ hi :=
  ⟨le_heClampU8 h, heClampU8_le h⟩

theorem boot_clamped (e : KbDatablock) : Clamped (boot e) where
  actuation _ := show heActuationMin ≤ heActuationDefault ∧ heActuationDefault ≤ heActuationMax
    by decide
  release _ := show heReleaseMin ≤ heReleaseDefault ∧ heReleaseDefault ≤ heReleaseMax by decide
  deadzone := show heDeadzoneMin ≤ heDeadzoneDefault ∧ heDeadzoneDefault ≤ heDeadzoneMax
    by decide
  engage := show heEngageMin ≤ heEngageDefault ∧ heEngageDefault ≤ heEngageMax by decide
  releaseDist := show heReleaseDistMin ≤ heReleaseDistDefault
    ∧ heReleaseDistDefault ≤ heReleaseDistMax by decide

theorem Clamped.of_same {s t : HeState} (h : Clamped s)
    (hc : ∀ i, (t.config i).actuation = (s.config i).actuation
      ∧ (t.config i).release = (s.config i).release) (ht : t.tuning = s.tuning) : Clamped t where
  actuation i := by rw [(hc i).1]; exact h.actuation i
  release i := by rw [(hc i).2]; exact h.release i
  deadzone := by rw [ht]; exact h.deadzone
  engage := by rw [ht]; exact h.engage
  releaseDist := by rw [ht]; exact h.releaseDist

theorem Clamped.save {s : HeState} (h : Clamped s) : Clamped (heSaveToEeprom s) :=
  h.of_same (fun _ => ⟨rfl, rfl⟩) rfl

theorem Clamped.setActuation {s : HeState} (h : Clamped s) (value : UInt8) :
    Clamped (heSetActuation value s) :=
  { h with actuation := fun _ => heClampU8_bounds value (by decide) }

theorem Clamped.setRelease {s : HeState} (h : Clamped s) (value : UInt8) :
    Clamped (heSetRelease value s) :=
  { h with release := fun _ => heClampU8_bounds value (by decide) }

theorem Clamped.setDeadzone {s : HeState} (h : Clamped s) (value : UInt8) :
    Clamped (heSetDeadzone value s) :=
  { h with deadzone := heClampU8_bounds value (by decide) }

theorem Clamped.setEngage {s : HeState} (h : Clamped s) (value : UInt8) :
    Clamped (heSetEngage value s) :=
  { h with engage := heClampU8_bounds value (by decide) }

theorem Clamped.setReleaseDist {s : HeState} (h : Clamped s) (value : UInt8) :
    Clamped (heSetReleaseDist value s) :=
  { h with releaseDist := heClampU8_bounds value (by decide) }

theorem Clamped.setMode {s : HeState} (h : Clamped s) (value : UInt8) :
    Clamped (heSetMode value s) := by
  unfold heSetMode
  split
  · exact h.of_same (fun _ => ⟨rfl, rfl⟩) rfl
  · exact h

theorem Clamped.load {s : HeState} (h : Clamped s) : Clamped (heLoadFromEeprom s) := by
  unfold heLoadFromEeprom
  split
  · exact h.save
  · exact ⟨fun _ => heClampU8_bounds _ (by decide), fun _ => heClampU8_bounds _ (by decide),
      heClampU8_bounds _ (by decide), heClampU8_bounds _ (by decide),
      heClampU8_bounds _ (by decide)⟩

theorem Clamped.startCalibration {s : HeState} (h : Clamped s) :
    Clamped (heStartCalibration s) :=
  h.of_same (fun i => by simp only [heStartCalibration]; split <;> exact ⟨rfl, rfl⟩) rfl

theorem Clamped.endCalibration {s : HeState} (h : Clamped s) : Clamped (heEndCalibration s) :=
  h.of_same (fun i => by
    simp only [heEndCalibration]
    split
    · exact ⟨rfl, rfl⟩
    · split <;> exact ⟨rfl, rfl⟩) rfl

theorem Clamped.commit {s : HeState} (h : Clamped s) : Clamped (heViaCommitThresholds s) := by
  unfold heViaCommitThresholds
  split
  · have hset := (h.setActuation s.via.stagedActuation).setRelease s.via.stagedRelease
    exact Clamped.save (hset.of_same (fun _ => ⟨rfl, rfl⟩) rfl)
  · exact h.save

theorem Clamped.setValue {s : HeState} (h : Clamped s) (now : UInt16) (valueId value : UInt8) :
    Clamped (heViaSetValue now valueId value s) := by
  have harm : ∀ {t : HeState}, Clamped t → Clamped (heViaArmAutosave now t) := fun ht =>
    ht.of_same (fun _ => ⟨rfl, rfl⟩) rfl
  unfold heViaSetValue
  split
  · exact harm (h.of_same (fun _ => ⟨rfl, rfl⟩) rfl)
  · exact harm (h.of_same (fun _ => ⟨rfl, rfl⟩) rfl)
  · exact h.commit
  · exact h.setMode value
  · exact harm (h.setDeadzone value)
  · exact harm (h.setEngage value)
  · exact harm (h.setReleaseDist value)
  · exact Clamped.commit (h.of_same (fun _ => ⟨rfl, rfl⟩) rfl)
  · exact h.startCalibration
  · exact h.endCalibration
  · exact h

theorem heComputePressed_thresholds (mode : ActuationMode) (tuning : Tuning) (c : KeyConfig)
    (pressed : Bool) (travel : UInt8) :
    (heComputePressed mode tuning c pressed travel).1.actuation = c.actuation
      ∧ (heComputePressed mode tuning c pressed travel).1.release = c.release
      ∧ (heComputePressed mode tuning c pressed travel).1.debounce = c.debounce := by
  simp only [heComputePressed]
  split
  · split
    · split <;> split <;> exact ⟨rfl, rfl, rfl⟩
    · split <;> split <;> try split
      all_goals exact ⟨rfl, rfl, rfl⟩
  · split <;> exact ⟨rfl, rfl, rfl⟩
  · split <;> exact ⟨rfl, rfl, rfl⟩

theorem sampleSensor_thresholds (n : Nat) (input : ScanInput) (s : HeState) (i : Sensor) :
    (sampleSensor n input s i).config.actuation = (s.config i).actuation
      ∧ (sampleSensor n input s i).config.release = (s.config i).release := by
  simp only [sampleSensor]
  split
  · exact ⟨rfl, rfl⟩
  · rw [(heComputePressed_thresholds _ _ _ _ _).1, (heComputePressed_thresholds _ _ _ _ _).2.1]
    split
    · split <;> split <;> exact ⟨rfl, rfl⟩
    · exact ⟨rfl, rfl⟩

theorem Clamped.scan {s : HeState} (h : Clamped s) (n : Nat) (input : ScanInput) :
    Clamped (matrixScanCustom n input s).2 := by
  simp only [matrixScanCustom]
  generalize hs : ({ s with scanCount := s.scanCount+1 } : HeState) = s'
  have h₁ : Clamped s' := by
    rw [← hs]
    exact h.of_same (fun _ => ⟨rfl, rfl⟩) rfl
  have h₂ : Clamped (storeSampled (sampleSensor n input s') s') :=
    h₁.of_same (sampleSensor_thresholds n input s') rfl
  generalize storeSampled (sampleSensor n input s') s' = t at h₂
  have h₃ : Clamped (lockInRest t) := by
    unfold lockInRest
    split
    · exact h₂.of_same (fun i => by dsimp only; split <;> exact ⟨rfl, rfl⟩) rfl
    · exact h₂
  have h₄ : ∀ newly, Clamped (commitReported (socdResolve newly (lockInRest t))).2 := fun newly =>
    h₃.of_same (fun i => by
      simp only [commitReported, socdResolve]
      split <;> exact ⟨rfl, rfl⟩) (by
      simp only [commitReported, socdResolve]
      split <;> rfl)
  unfold heViaTask
  split
  · exact Clamped.commit ((h₄ _).of_same (fun _ => ⟨rfl, rfl⟩) rfl)
  · exact h₄ _

theorem Clamped.exec {s : HeState} (h : Clamped s) (n : Nat) (step : Step) :
    Clamped (exec n s step) := by
  cases step with
  | scan input => exact h.scan n input
  | packet now data =>
    simp only [He.exec, viaCustomValueCommandKb]
    split
    · exact h
    · split
      · exact h.setValue now _ _
      · split
        · exact h
        · split
          · exact h.commit
          · exact h
  | keycode keycode pressed =>
    simp only [He.exec, heHandleKeycode]
    split
    · dsimp only
      split
      · exact h.setMode 0
      · exact h
    · split
      · dsimp only
        split
        · exact h.setMode 1
        · exact h
      · split
        · dsimp only
          split
          · exact h.setMode 2
          · exact h
        · exact h
  | setMode value => exact h.setMode value
  | setActuation value => exact h.setActuation value
  | setRelease value => exact h.setRelease value
  | setDeadzone value => exact h.setDeadzone value
  | setEngage value => exact h.setEngage value
  | setReleaseDist value => exact h.setReleaseDist value
  | startCalibration => exact h.startCalibration
  | endCalibration => exact h.endCalibration
  | load => exact h.load
  | save => exact h.save

theorem run_clamped (n : Nat) (e : KbDatablock) (steps : List Step) :
    Clamped (run n steps (boot e)) := by
  suffices ∀ s, Clamped s → Clamped (run n steps s) from this _ (boot_clamped e)
  induction steps with
  | nil => exact fun s h => h
  | cons step steps ih => exact fun s h => ih _ (h.exec n step)

end QmkFirmware.He
