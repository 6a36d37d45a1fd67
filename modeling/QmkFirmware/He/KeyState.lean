import QmkFirmware.He.Scan

/-!
What everything but a scan leaves alone: of the keys only the settings change, and neither a
press state nor the matrix.
-/

set_option autoImplicit false

namespace QmkFirmware.He

def KeyConfig.scanned (c : KeyConfig) : UInt8 × UInt8 × UInt8 × UInt8 × Bool :=
  (c.travel, c.peak, c.valley, c.debounce, c.pressed)

structure SettingsOnly (s t : HeState) : Prop where
  phys : t.physPressed = s.physPressed
  debounced : t.debounced = s.debounced
  winner : t.socdWinner = s.socdWinner
  matrix : t.matrix = s.matrix
  keys : ∀ i, (t.config i).scanned = (s.config i).scanned

namespace SettingsOnly

variable {s t u : HeState}

theorem refl (s : HeState) : SettingsOnly s s := ⟨rfl, rfl, rfl, rfl, fun _ => rfl⟩

theorem trans (h : SettingsOnly s t) (h' : SettingsOnly t u) : SettingsOnly s u where
  phys := h'.phys.trans h.phys
  debounced := h'.debounced.trans h.debounced
  winner := h'.winner.trans h.winner
  matrix := h'.matrix.trans h.matrix
  keys i := (h'.keys i).trans (h.keys i)

theorem commit (s : HeState) : SettingsOnly s (heViaCommitThresholds s) := by
  unfold heViaCommitThresholds
  split <;> exact ⟨rfl, rfl, rfl, rfl, fun _ => rfl⟩

theorem task (now : UInt16) (s : HeState) : SettingsOnly s (heViaTask now s) := by
  unfold heViaTask
  split
  · have h := commit { s with via := { s.via with autosavePending := false } }
    exact ⟨h.phys, h.debounced, h.winner, h.matrix, h.keys⟩
  · exact refl s

theorem setMode (value : UInt8) (s : HeState) : SettingsOnly s (heSetMode value s) := by
  unfold heSetMode
  split
  · exact ⟨rfl, rfl, rfl, rfl, fun _ => rfl⟩
  · exact refl s

theorem load (s : HeState) : SettingsOnly s (heLoadFromEeprom s) := by
  unfold heLoadFromEeprom
  split <;> exact ⟨rfl, rfl, rfl, rfl, fun _ => rfl⟩

theorem startCalibration (s : HeState) : SettingsOnly s (heStartCalibration s) := by
  refine ⟨rfl, rfl, rfl, rfl, fun i => ?_⟩
  simp only [heStartCalibration]
  split <;> rfl

theorem endCalibration (s : HeState) : SettingsOnly s (heEndCalibration s) := by
  refine ⟨rfl, rfl, rfl, rfl, fun i => ?_⟩
  simp only [heEndCalibration]
  split
  · rfl
  · split <;> rfl

theorem setValue (now : UInt16) (valueId value : UInt8) (s : HeState) :
    SettingsOnly s (heViaSetValue now valueId value s) := by
  unfold heViaSetValue
  split
  · exact ⟨rfl, rfl, rfl, rfl, fun _ => rfl⟩
  · exact ⟨rfl, rfl, rfl, rfl, fun _ => rfl⟩
  · exact commit s
  · exact setMode value s
  · exact ⟨rfl, rfl, rfl, rfl, fun _ => rfl⟩
  · exact ⟨rfl, rfl, rfl, rfl, fun _ => rfl⟩
  · exact ⟨rfl, rfl, rfl, rfl, fun _ => rfl⟩
  · have h := commit { s with via := { s.via with
      stagedActuation := value
      stagedRelease := if 0 < value then value-1 else 0
      stagedDirty := true } }
    exact ⟨h.phys, h.debounced, h.winner, h.matrix, h.keys⟩
  · exact startCalibration s
  · exact endCalibration s
  · exact refl s

theorem packet (now : UInt16) (data : ViaData) (s : HeState) :
    SettingsOnly s (viaCustomValueCommandKb now data s).2 := by
  unfold viaCustomValueCommandKb
  split
  · exact refl s
  · split
    · exact setValue now _ _ s
    · split
      · exact refl s
      · split
        · exact commit s
        · exact refl s

theorem keycode (keycode : UInt16) (pressed : Bool) (s : HeState) :
    SettingsOnly s (heHandleKeycode keycode pressed s).2 := by
  have h : ∀ value, SettingsOnly s (if pressed then heSetMode value s else s) := by
    intro value
    split
    · exact setMode value s
    · exact refl s
  unfold heHandleKeycode
  split
  · exact h 0
  · split
    · exact h 1
    · split
      · exact h 2
      · exact refl s

theorem lockInRest (s : HeState) : SettingsOnly s (lockInRest s) := by
  unfold He.lockInRest
  split
  · refine ⟨rfl, rfl, rfl, rfl, fun i => ?_⟩
    dsimp only
    split <;> rfl
  · exact refl s

end SettingsOnly

def Step.isScan : Step → Bool
  | .scan _ => true
  | _ => false

theorem exec_settingsOnly (n : Nat) (s : HeState) {step : Step} (h : step.isScan = false) :
    SettingsOnly s (exec n s step) := by
  cases step with
  | scan input => cases h
  | packet now data => exact .packet now data s
  | keycode keycode pressed => exact .keycode keycode pressed s
  | setMode value => exact .setMode value s
  | setActuation value => exact ⟨rfl, rfl, rfl, rfl, fun _ => rfl⟩
  | setRelease value => exact ⟨rfl, rfl, rfl, rfl, fun _ => rfl⟩
  | setDeadzone value => exact ⟨rfl, rfl, rfl, rfl, fun _ => rfl⟩
  | setEngage value => exact ⟨rfl, rfl, rfl, rfl, fun _ => rfl⟩
  | setReleaseDist value => exact ⟨rfl, rfl, rfl, rfl, fun _ => rfl⟩
  | startCalibration => exact .startCalibration s
  | endCalibration => exact .endCalibration s
  | load => exact .load s
  | save => exact ⟨rfl, rfl, rfl, rfl, fun _ => rfl⟩

theorem run_snoc (n : Nat) (steps : List Step) (step : Step) (s : HeState) :
    run n (steps ++ [step]) s = exec n (run n steps s) step := by
  rw [run, List.foldl_concat, run]

end QmkFirmware.He
