import QmkFirmware.He.Settings

/-!
What the keyboard data block holds: the bytes that a save writes and what a load makes of them.
-/

set_option autoImplicit false

namespace QmkFirmware.He

theorem pairs_getD {n : Nat} (f g : Fin n → UInt8) (i : Fin n) (d : UInt8) :
    ((List.finRange n).flatMap fun j => [f j,g j]).getD (2*i.val) d = f i
      ∧ ((List.finRange n).flatMap fun j => [f j,g j]).getD (2*i.val+1) d = g i := by
  induction n with
  | zero => exact i.elim0
  | succ n ih =>
    have hrest := fun j : Fin n => ih (fun j => f j.succ) (fun j => g j.succ) j
    rw [List.finRange_succ, List.flatMap_cons, List.flatMap_map]
    refine Fin.cases ⟨rfl, rfl⟩ (fun j => ?_) i
    simpa [Nat.mul_add] using hrest j

theorem load_valid {s : HeState} (hv : eeconfigIsKbDatablockValid s.eeprom = true) :
    (∀ i, ((heLoadFromEeprom s).config i).actuation
        = heClampU8 (s.eeprom.block (2*i.val)) heActuationMin heActuationMax
      ∧ ((heLoadFromEeprom s).config i).release
        = heClampU8 (s.eeprom.block (2*i.val+1)) heReleaseMin heReleaseMax)
    ∧ (heLoadFromEeprom s).mode = (ActuationMode.ofCode (s.eeprom.block 138)).getD s.mode
    ∧ (heLoadFromEeprom s).tuning
      = ⟨heClampU8 (s.eeprom.block 139) heDeadzoneMin heDeadzoneMax,
        heClampU8 (s.eeprom.block 140) heEngageMin heEngageMax,
        heClampU8 (s.eeprom.block 141) heReleaseDistMin heReleaseDistMax⟩
    ∧ (heLoadFromEeprom s).eeprom = s.eeprom ∧ (heLoadFromEeprom s).via = s.via := by
  have hrec : ∀ k < 138, (eeconfigReadKbDatablock 0 (2*heSensorCount) s.eeprom).getD k 0
      = s.eeprom.block k := fun k hk => by
    rw [eeconfigReadKbDatablock, if_pos hv]
    simp [ByteMem.read, heSensorCount, eeconfigKbDataSize, hk]
  rw [heLoadFromEeprom, hv]
  refine ⟨fun i => ?_, ?_, ?_, rfl, rfl⟩
  · have hi : i.val < 69 := i.isLt
    exact ⟨congrArg (heClampU8 · _ _) (hrec _ (by omega)),
      congrArg (heClampU8 · _ _) (hrec _ (by omega))⟩
  · simp [eeconfigReadKbDatablock, hv, ByteMem.read, heSettingsEepromOffset, eeconfigKbDataSize]
  · simp [eeconfigReadKbDatablock, hv, ByteMem.read, heSettingsEepromOffset, eeconfigKbDataSize]

theorem saveSettings_block (s : HeState) :
    (∀ x < 138, (heSaveSettingsToEeprom s).eeprom.block x = s.eeprom.block x)
      ∧ (heSaveSettingsToEeprom s).eeprom.block 138 = s.mode.code
      ∧ (heSaveSettingsToEeprom s).eeprom.block 139 = s.tuning.deadzone
      ∧ (heSaveSettingsToEeprom s).eeprom.block 140 = s.tuning.engage
      ∧ (heSaveSettingsToEeprom s).eeprom.block 141 = s.tuning.releaseDist
      ∧ eeconfigIsKbDatablockValid (heSaveSettingsToEeprom s).eeprom = true := by
  have hlast : ∀ k < 4, (heSaveSettingsToEeprom s).eeprom.block (138+k)
      = [s.mode.code,s.tuning.deadzone,s.tuning.engage,s.tuning.releaseDist].getD k 0 := by
    intro k hk
    simp only [heSaveSettingsToEeprom, eeconfigUpdateKbDatablock, ByteMem.write_apply,
      heSettingsEepromOffset, eeconfigKbDataSize, List.length_cons, List.length_nil]
    rw [if_pos (by omega), Nat.add_sub_cancel_left]
    obtain rfl | rfl | rfl | rfl : k = 0 ∨ k = 1 ∨ k = 2 ∨ k = 3 := by omega
    all_goals rfl
  exact ⟨fun x hx => ByteMem.write_outside (.inl hx), hlast 0 (by omega), hlast 1 (by omega),
    hlast 2 (by omega), hlast 3 (by omega), rfl⟩

theorem save_block (s : HeState) :
    (∀ i : Sensor, (heSaveToEeprom s).eeprom.block (2*i.val) = (s.config i).actuation
      ∧ (heSaveToEeprom s).eeprom.block (2*i.val+1) = (s.config i).release)
    ∧ (heSaveToEeprom s).eeprom.block 138 = s.mode.code
    ∧ (heSaveToEeprom s).eeprom.block 139 = s.tuning.deadzone
    ∧ (heSaveToEeprom s).eeprom.block 140 = s.tuning.engage
    ∧ (heSaveToEeprom s).eeprom.block 141 = s.tuning.releaseDist
    ∧ eeconfigIsKbDatablockValid (heSaveToEeprom s).eeprom = true := by
  unfold heSaveToEeprom
  generalize hrec : (List.finRange heSensorCount).flatMap (fun i =>
    [(s.config i).actuation,(s.config i).release]) = record
  have hlen : record.length = 138 := by simp [← hrec, heSensorCount]
  obtain ⟨hlow, hset⟩ := saveSettings_block
    { s with eeprom := eeconfigUpdateKbDatablock record 0 s.eeprom }
  refine ⟨fun i => ?_, hset⟩
  have hi : i.val < 69 := i.isLt
  have hpair := fun d => pairs_getD (fun j => (s.config j).actuation)
    (fun j => (s.config j).release) i d
  rw [hrec] at hpair
  rw [hlow _ (by omega), hlow _ (by omega)]
  simp only [eeconfigUpdateKbDatablock, ByteMem.write_apply, Nat.zero_le, if_true, Nat.sub_zero,
    Nat.zero_add, hlen, eeconfigKbDataSize]
  rw [List.take_of_length_le (by omega)]
  exact ⟨(hpair _).1, (hpair _).2⟩

theorem heClampU8_same {value lo hi : UInt8} (h : lo ≤ value ∧ value ≤ hi) :
    heClampU8 value lo hi = value := by
  rw [heClampU8, if_neg (UInt8.not_lt.mpr h.1), if_neg (UInt8.not_lt.mpr h.2)]

theorem ofCode_code (mode : ActuationMode) : ActuationMode.ofCode mode.code = some mode := by
  cases mode <;> rfl

structure SameSettings (s t : HeState) : Prop where
  thresholds : ∀ i, (t.config i).actuation = (s.config i).actuation
    ∧ (t.config i).release = (s.config i).release
  mode : t.mode = s.mode
  tuning : t.tuning = s.tuning
  eeprom : t.eeprom = s.eeprom
  via : t.via = s.via

theorem SameSettings.clamped {s t : HeState} (h : SameSettings s t) (hs : Clamped s) :
    Clamped t := hs.of_same h.thresholds h.tuning

theorem startCalibration_settings (s : HeState) : SameSettings s (heStartCalibration s) :=
  ⟨fun i => by simp only [heStartCalibration]; split <;> exact ⟨rfl, rfl⟩, rfl, rfl, rfl, rfl⟩

theorem endCalibration_settings (s : HeState) : SameSettings s (heEndCalibration s) :=
  ⟨fun i => by
    simp only [heEndCalibration]
    split
    · exact ⟨rfl, rfl⟩
    · split <;> exact ⟨rfl, rfl⟩, rfl, rfl, rfl, rfl⟩

theorem scan_settings (n : Nat) (input : ScanInput) (s : HeState) :
    ∃ u, SameSettings s u ∧ (matrixScanCustom n input s).2 = heViaTask input.now u := by
  refine ⟨_, ?_, rfl⟩
  generalize hu : ({ s with scanCount := s.scanCount+1 } : HeState) = u
  have h₀ : SameSettings s u := by
    rw [← hu]
    exact ⟨fun _ => ⟨rfl, rfl⟩, rfl, rfl, rfl, rfl⟩
  have h₁ := sampleSensor_thresholds n input u
  have h₂ : ∀ v, SameSettings v (lockInRest v) := fun v => by
    unfold lockInRest
    split
    · exact ⟨fun i => by dsimp only; split <;> exact ⟨rfl, rfl⟩, rfl, rfl, rfl, rfl⟩
    · exact ⟨fun _ => ⟨rfl, rfl⟩, rfl, rfl, rfl, rfl⟩
  have h₃ : ∀ newly v, SameSettings v (commitReported (socdResolve newly v)).2 := fun newly v => by
    unfold socdResolve
    split <;> exact ⟨fun _ => ⟨rfl, rfl⟩, rfl, rfl, rfl, rfl⟩
  have h₄ := h₂ (storeSampled (sampleSensor n input u) u)
  have h₅ := h₃ (fun i => (sampleSensor n input u i).newlyPressed)
    (lockInRest (storeSampled (sampleSensor n input u) u))
  refine ⟨fun i => ?_, h₅.mode.trans (h₄.mode.trans h₀.mode),
    h₅.tuning.trans (h₄.tuning.trans h₀.tuning), h₅.eeprom.trans (h₄.eeprom.trans h₀.eeprom),
    h₅.via.trans (h₄.via.trans h₀.via)⟩
  exact ⟨(h₅.thresholds i).1.trans ((h₄.thresholds i).1.trans ((h₁ i).1.trans
      (h₀.thresholds i).1)),
    (h₅.thresholds i).2.trans ((h₄.thresholds i).2.trans ((h₁ i).2.trans (h₀.thresholds i).2))⟩

def committed (s : HeState) (i : Sensor) : UInt8 × UInt8 :=
  if s.via.stagedDirty then
    (heClampU8 s.via.stagedActuation heActuationMin heActuationMax,
      heClampU8 s.via.stagedRelease heReleaseMin heReleaseMax)
  else ((s.config i).actuation,(s.config i).release)

theorem commit_saves (s : HeState) : ∃ u, heViaCommitThresholds s = heSaveToEeprom u
    ∧ (∀ i, ((u.config i).actuation,(u.config i).release) = committed s i)
    ∧ u.mode = s.mode ∧ u.tuning = s.tuning
    ∧ u.via = { s.via with stagedDirty := false } := by
  unfold heViaCommitThresholds committed
  cases hd : s.via.stagedDirty with
  | true => exact ⟨_, rfl, fun i => rfl, rfl, rfl, rfl⟩
  | false =>
    refine ⟨s, rfl, fun i => rfl, rfl, rfl, ?_⟩
    rw [← hd]

end QmkFirmware.He
