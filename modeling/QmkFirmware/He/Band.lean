import Mathlib.Data.List.Induction
import QmkFirmware.He.Persist
import QmkFirmware.He.Frame

/-!
The two thresholds of a key as a hysteresis band. Each of them is clamped by itself, and no
writer looks at the other one.
-/

set_option autoImplicit false

namespace QmkFirmware.He

/-- Every key lets go below the travel that presses it. -/
def Band (s : HeState) : Prop := ∀ i, (s.config i).release < (s.config i).actuation

/-- With the travel at rest the press decision of the level modes does not change any more. -/
def Settles (c : KeyConfig) : Prop :=
  ∀ mode ≠ ActuationMode.rapidTrigger, ∀ tuning pressed travel,
    let r := heComputePressed mode tuning c pressed travel
    heComputePressed mode tuning r.1 r.2 travel = r

theorem compute_level {mode : ActuationMode} (hm : mode ≠ .rapidTrigger) (tuning : Tuning)
    (c : KeyConfig) (pressed : Bool) (travel : UInt8) :
    heComputePressed mode tuning c pressed travel = ({ c with travel := travel },
      if pressed then decide (c.release < travel) else decide (c.actuation ≤ travel)) := by
  cases mode with
  | rapidTrigger => exact absurd rfl hm
  | normal => cases pressed <;> rfl
  | keyCancel => cases pressed <;> rfl

theorem settles_iff (c : KeyConfig) : Settles c ↔ c.release < c.actuation := by
  constructor
  · intro h
    by_contra hge
    -- the travel that presses the key lets it go
    have hfix := h .normal (by decide) ⟨0,0,0⟩ true c.actuation
    simp only [compute_level (show ActuationMode.normal ≠ .rapidTrigger by decide), if_true,
      decide_eq_false hge] at hfix
    simp at hfix
  · intro h mode hm tuning pressed travel
    simp only [compute_level hm]
    cases pressed with
    | true =>
      by_cases ht : c.release < travel
      · simp [ht]
      · have hn : ¬ c.actuation ≤ travel := fun ha => ht (Std.lt_of_lt_of_le h ha)
        simp [ht, hn]
    | false =>
      by_cases ht : c.actuation ≤ travel
      · simp [ht, Std.lt_of_lt_of_le h ht]
      · simp [ht]

def ClampedBand (actuation release : UInt8) : Prop :=
  heClampU8 release heReleaseMin heReleaseMax < heClampU8 actuation heActuationMin heActuationMax

def StagedBand (via : ViaState) : Prop :=
  via.stagedDirty = true → ClampedBand via.stagedActuation via.stagedRelease

/-- What a step has to bring along to keep the band. -/
def KeepsBand (s : HeState) : Step → Prop
  | .scan input => s.via.autosavePending = true →
    heViaAutosaveMs ≤ input.now-s.via.autosaveTimer → StagedBand s.via
  | .packet _ data => data.channelId = idCustomChannel →
    (data.commandId = idCustomSave ∨ data.commandId = idCustomSetValue ∧ data.valueId = 3 →
      StagedBand s.via)
    ∧ (data.commandId = idCustomSetValue → data.valueId = 12 →
      heActuationMin < data.value ∧ data.value ≤ heActuationMax)
  | .load => eeconfigIsKbDatablockValid s.eeprom = true →
    ∀ i : Sensor, ClampedBand (s.eeprom.block (2*i.val)) (s.eeprom.block (2*i.val+1))
  | .setActuation value =>
    ∀ i, (s.config i).release < heClampU8 value heActuationMin heActuationMax
  | .setRelease value => ∀ i, heClampU8 value heReleaseMin heReleaseMax < (s.config i).actuation
  | _ => True

variable {s t : HeState}

theorem SameSettings.band (h : SameSettings s t) : Band t ↔ Band s :=
  forall_congr' fun i => by rw [(h.thresholds i).1, (h.thresholds i).2]

theorem commit_band (h : Band s) : Band (heViaCommitThresholds s) ↔ StagedBand s.via := by
  obtain ⟨u, hu, hkeys, -⟩ := commit_saves s
  rw [hu]
  show (∀ i, (u.config i).release < (u.config i).actuation) ↔ _
  unfold committed at hkeys
  cases hd : s.via.stagedDirty with
  | true =>
    simp only [hd, if_true, Prod.mk.injEq] at hkeys
    simp only [hkeys, StagedBand, hd, ClampedBand, forall_const]
  | false =>
    simp only [hd, Bool.false_eq_true, if_false, Prod.mk.injEq] at hkeys
    simp only [hkeys, StagedBand, hd, Bool.false_eq_true, false_implies, iff_true]
    exact h

theorem commit_with_band (h : Band s) (via : ViaState) :
    Band (heViaCommitThresholds { s with via }) ↔ StagedBand via :=
  commit_band (s := { s with via }) h

theorem setAll_band (value : UInt8) :
    ClampedBand value (if 0 < value then value-1 else 0)
      ↔ heActuationMin < value ∧ value ≤ heActuationMax := by
  have hall : ∀ n < 256, ClampedBand (UInt8.ofNat n)
        (if 0 < UInt8.ofNat n then UInt8.ofNat n-1 else 0)
      ↔ heActuationMin < UInt8.ofNat n ∧ UInt8.ofNat n ≤ heActuationMax := by
    unfold ClampedBand
    decide +kernel
  simpa using hall value.toNat value.toNat_lt

theorem setMode_band (value : UInt8) : Band (heSetMode value s) ↔ Band s := by
  unfold heSetMode
  split <;> exact Iff.rfl

theorem setValue_band (h : Band s) (now : UInt16) (valueId value : UInt8) :
    Band (heViaSetValue now valueId value s) ↔ (valueId = 3 → StagedBand s.via)
      ∧ (valueId = 12 → heActuationMin < value ∧ value ≤ heActuationMax) := by
  unfold heViaSetValue
  split
  · exact ⟨fun _ => by simp, fun _ => h⟩
  · exact ⟨fun _ => by simp, fun _ => h⟩
  · simpa using commit_band h
  · simpa using (setMode_band value).mpr h
  · exact ⟨fun _ => by simp, fun _ => h⟩
  · exact ⟨fun _ => by simp, fun _ => h⟩
  · exact ⟨fun _ => by simp, fun _ => h⟩
  · refine (commit_with_band h _).trans ?_
    simp only [StagedBand, setAll_band]
    simp
  · simpa using (startCalibration_settings s).band.mpr h
  · simpa using (endCalibration_settings s).band.mpr h
  · rename_i h₁ h₂ h₃ h₄ h₅ h₆ h₇ h₈ h₉ h₁₀
    exact ⟨fun _ => ⟨fun he => absurd he h₃, fun he => absurd he h₈⟩, fun _ => h⟩

theorem exec_band (h : Band s) (n : Nat) (step : Step) :
    Band (exec n s step) ↔ KeepsBand s step := by
  cases step with
  | scan input =>
    obtain ⟨u, hu, he⟩ := scan_settings n input s
    have hbu := hu.band.mpr h
    rw [exec, he, heViaTask, KeepsBand, ← hu.via]
    split
    · rename_i hfire
      refine (commit_with_band hbu _).trans ?_
      simp only [hfire, forall_const]
      rfl
    · rename_i hwait
      simp only [not_and] at hwait
      exact ⟨fun _ hp hms => absurd hms (hwait hp), fun _ => hbu⟩
  | packet now data =>
    simp only [exec, viaCustomValueCommandKb, KeepsBand]
    split
    · rename_i hch
      exact ⟨fun _ hc => absurd hc hch, fun _ => h⟩
    · rename_i hch
      simp only [Decidable.not_not] at hch
      simp only [hch, forall_const]
      split
      · rename_i hcmd
        rw [setValue_band h]
        simp [hcmd, idCustomSetValue, idCustomSave]
      · rename_i hset
        split
        · rename_i hget
          simp [hget, idCustomGetValue, idCustomSave, idCustomSetValue, h]
        · split
          · rename_i hsave
            rw [commit_band h]
            simp [hsave, idCustomSave, idCustomSetValue]
          · rename_i hsave
            simp [hset, hsave, h]
  | keycode keycode pressed =>
    have hset : ∀ value, Band (if pressed then heSetMode value s else s) ↔ True := by
      intro value
      split
      · simpa using (setMode_band value).mpr h
      · simpa using h
    simp only [exec, heHandleKeycode, KeepsBand]
    split
    · exact hset 0
    · split
      · exact hset 1
      · split
        · exact hset 2
        · simpa using h
  | setMode value => exact ⟨fun _ => trivial, fun _ => (setMode_band value).mpr h⟩
  | setActuation value => exact Iff.rfl
  | setRelease value => exact Iff.rfl
  | setDeadzone value => exact ⟨fun _ => trivial, fun _ => h⟩
  | setEngage value => exact ⟨fun _ => trivial, fun _ => h⟩
  | setReleaseDist value => exact ⟨fun _ => trivial, fun _ => h⟩
  | startCalibration => exact ⟨fun _ => trivial, fun _ => (startCalibration_settings s).band.mpr h⟩
  | endCalibration => exact ⟨fun _ => trivial, fun _ => (endCalibration_settings s).band.mpr h⟩
  | load =>
    rw [exec, KeepsBand]
    cases hv : eeconfigIsKbDatablockValid s.eeprom with
    | true =>
      obtain ⟨hkeys, -⟩ := load_valid hv
      simp only [Band, hkeys, ClampedBand, forall_const]
    | false =>
      rw [heLoadFromEeprom, hv]
      exact ⟨fun _ hvalid => absurd hvalid Bool.false_ne_true, fun _ => h⟩
  | save => exact ⟨fun _ => trivial, fun _ => h⟩

theorem boot_band (e : KbDatablock) : Band (boot e) := fun _ =>
  show heReleaseDefault < heActuationDefault by decide

/-- The release stays below the actuation in all states of a run exactly if no step loads,
commits or sets values that do not make a band; and the level modes settle at every travel
exactly if it does. -/
theorem threshold_band_iff (n : Nat) (e : KbDatablock) (steps : List Step) :
    ((∀ pre, pre <+: steps → Band (run n pre (boot e)))
      ↔ ∀ pre step, pre ++ [step] <+: steps → KeepsBand (run n pre (boot e)) step)
    ∧ ∀ pre, pre <+: steps →
      (Band (run n pre (boot e)) ↔ ∀ i, Settles ((run n pre (boot e)).config i)) := by
  refine ⟨⟨fun h pre step hpre => ?_, fun h pre hpre => ?_⟩,
    fun pre _ => forall_congr' fun i => (settles_iff _).symm⟩
  · have hband := h pre ((List.prefix_append pre [step]).trans hpre)
    exact (exec_band hband n step).mp (run_snoc n pre step (boot e) ▸ h _ hpre)
  · induction pre using List.reverseRecOn with
    | nil => exact boot_band e
    | append_singleton pre step ih =>
      rw [run_snoc]
      exact (exec_band (ih ((List.prefix_append pre [step]).trans hpre)) n step).mpr
        (h pre step hpre)

/-- A release above the actuation, set over VIA and saved. -/
def crossedThresholds : List Step :=
  [.packet 0 ⟨idCustomSetValue,idCustomChannel,1,20⟩,
    .packet 0 ⟨idCustomSetValue,idCustomChannel,2,80⟩,
    .packet 0 ⟨idCustomSave,idCustomChannel,0,0⟩]

/-- Halfway between the thresholds the key alternates; and the lowest actuation that can be set
for all keys gets a release of the same value. -/
theorem crossed_thresholds_alternate :
    let e : KbDatablock := ⟨eeconfigKbDataVersion,ByteMem.blank⟩
    let s := run heDebounce crossedThresholds (boot e)
    let c := s.config 0
    let t := run heDebounce [.packet 0 ⟨idCustomSetValue,idCustomChannel,12,10⟩] (boot e)
    c.actuation = 20 ∧ c.release = 80
      ∧ (heComputePressed .normal s.tuning c false 50).2 = true
      ∧ (heComputePressed .normal s.tuning c true 50).2 = false
      ∧ ¬ Settles c ∧ (t.config 0).actuation = 10 ∧ (t.config 0).release = 10 ∧ ¬ Band t := by
  intro e s c t
  have hact : c.actuation = 20 := by decide +kernel
  have hrel : c.release = 80 := by decide +kernel
  have hact' : (t.config 0).actuation = 10 := by decide +kernel
  have hrel' : (t.config 0).release = 10 := by decide +kernel
  refine ⟨hact, hrel, by decide +kernel, by decide +kernel, ?_, hact', hrel', fun h => ?_⟩
  · rw [settles_iff, hact, hrel]
    decide
  · have := h 0
    rw [hact', hrel'] at this
    revert this
    decide

end QmkFirmware.He
