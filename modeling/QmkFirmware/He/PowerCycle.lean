import QmkFirmware.He.Persist

/-!
Settings over a power cycle. Whatever is not in the block yet is waiting for the autosave.
-/

set_option autoImplicit false

namespace QmkFirmware.He

/-- The second state has the settings of the first one. -/
structure Restored (s t : HeState) : Prop where
  thresholds : ∀ i, (t.config i).actuation = (s.config i).actuation
    ∧ (t.config i).release = (s.config i).release
  mode : t.mode = s.mode
  tuning : t.tuning = s.tuning

/-- RAM starts with its defaults and the block is loaded. -/
def powerCycle (e : KbDatablock) : HeState := heLoadFromEeprom (boot e)

theorem powerCycle_valid {e : KbDatablock} (hv : eeconfigIsKbDatablockValid e = true) :
    (∀ i, ((powerCycle e).config i).actuation
        = heClampU8 (e.block (2*i.val)) heActuationMin heActuationMax
      ∧ ((powerCycle e).config i).release
        = heClampU8 (e.block (2*i.val+1)) heReleaseMin heReleaseMax)
    ∧ (powerCycle e).mode = (ActuationMode.ofCode (e.block 138)).getD .rapidTrigger
    ∧ (powerCycle e).tuning = ⟨heClampU8 (e.block 139) heDeadzoneMin heDeadzoneMax,
      heClampU8 (e.block 140) heEngageMin heEngageMax,
      heClampU8 (e.block 141) heReleaseDistMin heReleaseDistMax⟩
    ∧ (powerCycle e).eeprom = e ∧ (powerCycle e).via = (boot e).via :=
  load_valid (s := boot e) hv

theorem save_restored {s : HeState} (h : Clamped s) :
    Restored s (powerCycle (heSaveToEeprom s).eeprom) := by
  obtain ⟨hkeys, h₁, h₂, h₃, h₄, hv⟩ := save_block s
  obtain ⟨hload, hmode, htuning, -⟩ := powerCycle_valid hv
  refine ⟨fun i => ?_, ?_, ?_⟩
  · rw [(hload i).1, (hload i).2, (hkeys i).1, (hkeys i).2, heClampU8_same (h.actuation i),
      heClampU8_same (h.release i)]
    exact ⟨rfl, rfl⟩
  · rw [hmode, h₁, ofCode_code]
    rfl
  · rw [htuning, h₂, h₃, h₄, heClampU8_same h.deadzone, heClampU8_same h.engage,
      heClampU8_same h.releaseDist]

theorem saveSettings_restored {s t : HeState} (h : Clamped s)
    (hs : Restored t (powerCycle s.eeprom)) (hv : eeconfigIsKbDatablockValid s.eeprom = true)
    (ht : ∀ i, (s.config i).actuation = (t.config i).actuation
      ∧ (s.config i).release = (t.config i).release) :
    Restored s (powerCycle (heSaveSettingsToEeprom s).eeprom) := by
  obtain ⟨hlow, h₁, h₂, h₃, h₄, hv'⟩ := saveSettings_block s
  obtain ⟨hold, -⟩ := powerCycle_valid hv
  obtain ⟨hload, hmode, htuning, -⟩ := powerCycle_valid hv'
  refine ⟨fun i => ?_, ?_, ?_⟩
  · have hi : i.val < 69 := i.isLt
    rw [(hload i).1, (hload i).2, hlow _ (by omega), hlow _ (by omega), ← (hold i).1,
      ← (hold i).2, (ht i).1, (ht i).2]
    exact hs.thresholds i
  · rw [hmode, h₁, ofCode_code]
    rfl
  · rw [htuning, h₂, h₃, h₄, heClampU8_same h.deadzone, heClampU8_same h.engage,
      heClampU8_same h.releaseDist]

structure Recoverable (s : HeState) : Prop where
  valid : eeconfigIsKbDatablockValid s.eeprom = true
  clamped : Clamped s
  saved : s.via.autosavePending = false →
    s.via.stagedDirty = false ∧ Restored s (powerCycle s.eeprom)

variable {s t : HeState}

theorem SameSettings.recoverable (h : SameSettings s t) (hs : Recoverable s) :
    Recoverable t where
  valid := by rw [h.eeprom]; exact hs.valid
  clamped := h.clamped hs.clamped
  saved hp := by
    rw [h.via] at hp ⊢
    obtain ⟨hd, hr⟩ := hs.saved hp
    rw [h.eeprom]
    exact ⟨hd, fun i => by rw [(h.thresholds i).1, (h.thresholds i).2]; exact hr.thresholds i,
      hr.mode.trans h.mode.symm, hr.tuning.trans h.tuning.symm⟩

theorem commit_recoverable (h : Clamped s) : Recoverable (heViaCommitThresholds s) := by
  have hc := h.commit
  obtain ⟨u, hu, -, -, -, hvia⟩ := commit_saves s
  rw [hu] at hc ⊢
  obtain ⟨-, -, -, -, -, hv⟩ := save_block u
  have hcu : Clamped u := hc.of_same (fun _ => ⟨rfl, rfl⟩) rfl
  refine ⟨hv, hc, fun _ => ⟨?_, ?_⟩⟩
  · show u.via.stagedDirty = false
    rw [hvia]
  · have hr := save_restored hcu
    exact ⟨hr.thresholds, hr.mode, hr.tuning⟩

theorem setMode_recoverable (h : Recoverable s) (value : UInt8) :
    Recoverable (heSetMode value s) := by
  have hc := h.clamped.setMode value
  unfold heSetMode at hc ⊢
  cases hmode : ActuationMode.ofCode value with
  | none => exact h
  | some mode =>
    rw [hmode] at hc
    have hcu : Clamped { s with mode := mode } := hc.of_same (fun _ => ⟨rfl, rfl⟩) rfl
    refine ⟨rfl, hc, fun hp => ?_⟩
    obtain ⟨hd, hr⟩ := h.saved hp
    have hs := saveSettings_restored hcu hr h.valid fun _ => ⟨rfl, rfl⟩
    exact ⟨hd, hs.thresholds, hs.mode, hs.tuning⟩

theorem armed_recoverable (now : UInt16) (hv : eeconfigIsKbDatablockValid t.eeprom = true)
    (hc : Clamped t) : Recoverable (heViaArmAutosave now t) :=
  ⟨hv, hc.of_same (fun _ => ⟨rfl, rfl⟩) rfl, fun hp => by cases hp⟩

theorem setValue_recoverable (h : Recoverable s) (now : UInt16) (valueId value : UInt8) :
    Recoverable (heViaSetValue now valueId value s) := by
  have hstage : ∀ via, Clamped { s with via := via } := fun via =>
    h.clamped.of_same (fun _ => ⟨rfl, rfl⟩) rfl
  unfold heViaSetValue
  split
  · exact armed_recoverable now h.valid (hstage _)
  · exact armed_recoverable now h.valid (hstage _)
  · exact commit_recoverable h.clamped
  · exact setMode_recoverable h value
  · exact armed_recoverable now h.valid (h.clamped.setDeadzone value)
  · exact armed_recoverable now h.valid (h.clamped.setEngage value)
  · exact armed_recoverable now h.valid (h.clamped.setReleaseDist value)
  · exact commit_recoverable (hstage _)
  · exact (startCalibration_settings s).recoverable h
  · exact (endCalibration_settings s).recoverable h
  · exact h

theorem task_recoverable (h : Recoverable s) (now : UInt16) : Recoverable (heViaTask now s) := by
  unfold heViaTask
  split
  · exact commit_recoverable (h.clamped.of_same (fun _ => ⟨rfl, rfl⟩) rfl)
  · exact h

/-- What the user and the host do to the keyboard: keys, mode keycodes and packets. -/
def Step.isUse : Step → Bool
  | .scan _ | .packet _ _ | .keycode _ _ => true
  | _ => false

theorem exec_recoverable (h : Recoverable s) (n : Nat) {step : Step} (hs : step.isUse = true) :
    Recoverable (exec n s step) := by
  cases step with
  | scan input =>
    obtain ⟨u, hu, he⟩ := scan_settings n input s
    rw [exec, he]
    exact task_recoverable (hu.recoverable h) input.now
  | packet now data =>
    simp only [exec, viaCustomValueCommandKb]
    split
    · exact h
    · split
      · exact setValue_recoverable h now _ _
      · split
        · exact h
        · split
          · exact commit_recoverable h.clamped
          · exact h
  | keycode keycode pressed =>
    have hset : ∀ value, Recoverable (if pressed then heSetMode value s else s) := by
      intro value
      split
      · exact setMode_recoverable h value
      · exact h
    simp only [exec, heHandleKeycode]
    split
    · exact hset 0
    · split
      · exact hset 1
      · split
        · exact hset 2
        · exact h
  | _ => cases hs

theorem powerCycle_recoverable {e : KbDatablock} (hv : eeconfigIsKbDatablockValid e = true) :
    Recoverable (powerCycle e) := by
  obtain ⟨-, -, -, he, hvia⟩ := powerCycle_valid hv
  refine ⟨by rw [he]; exact hv, (boot_clamped e).load, fun _ => ⟨by rw [hvia]; rfl, ?_⟩⟩
  rw [he]
  exact ⟨fun _ => ⟨rfl, rfl⟩, rfl, rfl⟩

/-- In every state that the keyboard reaches in use with no autosave pending, a power cycle
brings all settings back, and nothing staged is left. -/
theorem settings_survive (n : Nat) {e : KbDatablock} (hv : eeconfigIsKbDatablockValid e = true)
    (steps : List Step) (hs : ∀ step ∈ steps, step.isUse = true) :
    let s := run n steps (powerCycle e)
    s.via.autosavePending = false →
      Restored s (powerCycle s.eeprom) ∧ s.via.stagedDirty = false := by
  have hrec : ∀ s, Recoverable s → Recoverable (run n steps s) := by
    induction steps with
    | nil => exact fun s h => h
    | cons step steps ih =>
      intro s h
      exact ih (fun x hx => hs x (List.mem_cons_of_mem _ hx)) _
        (exec_recoverable h n (hs step List.mem_cons_self))
  intro s hp
  exact ((hrec _ (powerCycle_recoverable hv)).saved hp).symm

/-- A threshold is staged, and saved by the scan two seconds later. -/
theorem settings_survive_autosave :
    let s := run heDebounce [.packet 0 ⟨idCustomSetValue,idCustomChannel,1,40⟩,
      .scan ⟨fun _ => 2028,false,2000⟩] (powerCycle ⟨eeconfigKbDataVersion,ByteMem.blank⟩)
    (s.config 0).actuation = 40 ∧ Restored s (powerCycle s.eeprom)
      ∧ s.via.stagedDirty = false :=
  ⟨by decide +kernel, settings_survive heDebounce (by decide) [.packet 0
      ⟨idCustomSetValue,idCustomChannel,1,40⟩,.scan ⟨fun _ => 2028,false,2000⟩]
    (by simp [Step.isUse]) (by decide +kernel)⟩

end QmkFirmware.He
