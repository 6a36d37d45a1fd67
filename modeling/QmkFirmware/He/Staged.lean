import QmkFirmware.Lib.Along
import QmkFirmware.He.PowerCycle

/-!
The two staged thresholds share one flag: committing one of them commits what is staged for the
other, which is its default until the host sets it.
-/

set_option autoImplicit false

namespace QmkFirmware.He

inductive Threshold where
  | actuation | release
  deriving DecidableEq, Repr

namespace Threshold

def value : Threshold → KeyConfig → UInt8
  | .actuation, c => c.actuation
  | .release, c => c.release

def staged : Threshold → ViaState → UInt8
  | .actuation, v => v.stagedActuation
  | .release, v => v.stagedRelease

def default : Threshold → UInt8
  | .actuation => heActuationDefault
  | .release => heReleaseDefault

def valueId : Threshold → UInt8
  | .actuation => 1
  | .release => 2

end Threshold

/-- A SET of this threshold, or of both. -/
def Step.sets (th : Threshold) : Step → Bool
  | .packet _ data => data.channelId = idCustomChannel ∧ data.commandId = idCustomSetValue
      ∧ (data.valueId = th.valueId ∨ data.valueId = 12)
  | _ => false

def Step.commits (s : HeState) : Step → Bool
  | .packet _ data => data.channelId = idCustomChannel
      ∧ ((data.commandId = idCustomSetValue ∧ data.valueId = 3) ∨ data.commandId = idCustomSave)
  | .scan input => s.via.autosavePending ∧ heViaAutosaveMs ≤ input.now-s.via.autosaveTimer
  | _ => false

/-- With something staged, a commit finds the default in every key. -/
def Undisturbed (th : Threshold) (s : HeState) (step : Step) : Prop :=
  step.commits s → s.via.stagedDirty → ∀ i, th.value (s.config i) = th.default

structure Leaves (th : Threshold) (commits : Bool) (s t : HeState) : Prop where
  staged : th.staged t.via = th.staged s.via
  value : ∀ i, th.value (t.config i) = if commits && s.via.stagedDirty then th.default
    else th.value (s.config i)

variable {th : Threshold} {s t u : HeState}

theorem Leaves.same (h : SameSettings s t) : Leaves th false s t := by
  refine ⟨by rw [h.via], fun i => ?_⟩
  cases th with
  | actuation => exact (h.thresholds i).1
  | release => exact (h.thresholds i).2

theorem commit_leaves (h : th.staged s.via = th.default) :
    Leaves th true s (heViaCommitThresholds s) := by
  obtain ⟨u, hu, hkeys, -, -, hvia⟩ := commit_saves s
  rw [hu]
  refine ⟨?_, fun i => ?_⟩
  · change th.staged u.via = _
    rw [hvia]
    cases th <;> rfl
  · change th.value (u.config i) = _
    have hi := hkeys i
    unfold committed at hi
    cases th with
    | actuation =>
      change s.via.stagedActuation = _ at h
      cases hd : s.via.stagedDirty <;> simp only [hd, if_true, Bool.false_eq_true, if_false] at hi
      · exact (Prod.mk.inj hi).1
      · rw [h] at hi
        exact (Prod.mk.inj hi).1
    | release =>
      change s.via.stagedRelease = _ at h
      cases hd : s.via.stagedDirty <;> simp only [hd, if_true, Bool.false_eq_true, if_false] at hi
      · exact (Prod.mk.inj hi).2
      · rw [h] at hi
        exact (Prod.mk.inj hi).2

theorem task_leaves (h : th.staged s.via = th.default) (now : UInt16) :
    Leaves th (decide (s.via.autosavePending ∧ heViaAutosaveMs ≤ now-s.via.autosaveTimer)) s
      (heViaTask now s) := by
  unfold heViaTask
  split
  · rename_i hdue
    rw [decide_eq_true hdue]
    have hc : Leaves th true { s with via := { s.via with autosavePending := false } } _ :=
      commit_leaves (by cases th <;> exact h)
    exact ⟨hc.staged.trans (by cases th <;> rfl), hc.value⟩
  · rename_i hdue
    rw [decide_eq_false hdue]
    exact ⟨rfl, fun i => rfl⟩

theorem Leaves.aside (hvia : th.staged t.via = th.staged s.via) (hc : t.config = s.config) :
    Leaves th false s t := ⟨hvia, fun i => by rw [hc]; rfl⟩

theorem setMode_leaves (value : UInt8) (s : HeState) : Leaves th false s (heSetMode value s) := by
  unfold heSetMode
  split <;> exact .aside rfl rfl

theorem setValue_leaves (h : th.staged s.via = th.default) (now : UInt16) {valueId : UInt8}
    (value : UInt8) (hid : valueId ≠ th.valueId ∧ valueId ≠ 12) :
    Leaves th (decide (valueId = 3)) s (heViaSetValue now valueId value s) := by
  unfold heViaSetValue
  split
  · cases th with
    | actuation => exact absurd rfl hid.1
    | release => exact .aside rfl rfl
  · cases th with
    | actuation => exact .aside rfl rfl
    | release => exact absurd rfl hid.1
  · exact commit_leaves h
  · exact setMode_leaves value s
  · exact .aside (by cases th <;> rfl) rfl
  · exact .aside (by cases th <;> rfl) rfl
  · exact .aside (by cases th <;> rfl) rfl
  · exact absurd rfl hid.2
  · exact .same (startCalibration_settings s)
  · exact .same (endCalibration_settings s)
  · rename_i _ _ h₃ _ _ _ _ _ _ _
    rw [decide_eq_false h₃]
    exact .aside rfl rfl

theorem exec_leaves (n : Nat) (h : th.staged s.via = th.default) {step : Step}
    (huse : step.isUse = true) (hset : step.sets th = false) :
    Leaves th (step.commits s) s (exec n s step) := by
  cases step with
  | scan input =>
    obtain ⟨u, hu, he⟩ := scan_settings n input s
    have hut : Leaves th false s u := .same hu
    have htask := task_leaves (hut.staged.trans h) input.now
    rw [hu.via] at htask
    rw [exec, he]
    refine ⟨htask.staged.trans hut.staged, fun i => ?_⟩
    rw [htask.value i, hut.value i, hu.via]
    rfl
  | packet now data =>
    simp only [Step.sets, decide_eq_false_iff_not] at hset
    simp only [exec, viaCustomValueCommandKb, Step.commits]
    by_cases hchan : data.channelId = idCustomChannel
    · rw [if_neg (not_not.mpr hchan)]
      by_cases hcmd : data.commandId = idCustomSetValue
      · have hsave : idCustomSetValue ≠ idCustomSave := by decide
        have hids : data.valueId ≠ th.valueId ∧ data.valueId ≠ 12 :=
          not_or.mp fun hid => hset ⟨hchan, hcmd, hid⟩
        rw [if_pos hcmd]
        simp only [hchan, hcmd, hsave, true_and, or_false]
        exact setValue_leaves h now data.value hids
      · rw [if_neg hcmd]
        by_cases hget : data.commandId = idCustomGetValue
        · have hsave : idCustomGetValue ≠ idCustomSave := by decide
          have hset' : idCustomGetValue ≠ idCustomSetValue := by decide
          rw [if_pos hget]
          simp only [hchan, hget, hsave, hset', true_and, false_and, or_false, decide_false]
          exact .aside rfl rfl
        · rw [if_neg hget]
          by_cases hsave : data.commandId = idCustomSave
          · rw [if_pos hsave]
            simp only [hchan, hsave, true_and, or_true, decide_true]
            exact commit_leaves h
          · rw [if_neg hsave]
            simp only [hcmd, hsave, false_and, or_false, and_false, decide_false]
            exact .aside rfl rfl
    · rw [if_pos hchan]
      simp only [hchan, false_and, decide_false]
      exact .aside rfl rfl
  | keycode keycode pressed =>
    have hmode : ∀ value, Leaves th false s (if pressed then heSetMode value s else s) := by
      intro value
      split
      · exact setMode_leaves value s
      · exact .aside rfl rfl
    simp only [exec, heHandleKeycode, Step.commits]
    split
    · exact hmode 0
    · split
      · exact hmode 1
      · split
        · exact hmode 2
        · exact .aside rfl rfl
  | _ => cases huse

theorem run_value (n : Nat) (th : Threshold) (v : Sensor → UInt8) {steps : List Step}
    (hu : ∀ step ∈ steps, step.isUse = true ∧ step.sets th = false) {s : HeState}
    (h : th.staged s.via = th.default) (hv : ∀ i, th.value (s.config i) = v i) :
    (∀ before, before <+: steps → ∀ i, th.value ((run n before s).config i) = v i)
      ↔ Along (exec n) (Undisturbed th) s steps := by
  induction steps generalizing s with
  | nil =>
    refine ⟨fun _ => trivial, fun _ before hb => ?_⟩
    rw [List.prefix_nil.mp hb]
    exact hv
  | cons step steps ih =>
    have hstep := exec_leaves n h (hu step List.mem_cons_self).1 (hu step List.mem_cons_self).2
    have hrest := fun x hx => hu x (List.mem_cons_of_mem _ hx)
    have hone : (∀ i, th.value ((exec n s step).config i) = v i) ↔ Undisturbed th s step := by
      by_cases hc : (step.commits s && s.via.stagedDirty) = true
      · rw [Bool.and_eq_true] at hc
        refine ⟨fun hnew _ _ i => ?_, fun hund i => ?_⟩
        · rw [hv i, ← hnew i, hstep.value i, if_pos (by simp [hc])]
        · rw [hstep.value i, if_pos (by simp [hc]), ← hv i, hund hc.1 hc.2 i]
      · refine ⟨fun _ h₁ h₂ => absurd (by simp [h₁, h₂]) hc, fun _ i => ?_⟩
        rw [hstep.value i, if_neg hc, hv i]
    constructor
    · intro hall
      have hnew := hall [step] (List.prefix_append [step] steps)
      refine ⟨hone.mp hnew, (ih hrest (hstep.staged.trans h) hnew).mp fun before hb => ?_⟩
      exact hall (step :: before) (List.cons_prefix_cons.mpr ⟨rfl, hb⟩)
    · rintro ⟨hund, halong⟩ before hb
      rcases List.prefix_cons_iff.mp hb with rfl | ⟨rest, rfl, hrest'⟩
      · exact hv
      · exact (ih hrest (hstep.staged.trans h) (hone.mpr hund)).mpr halong rest hrest'

theorem powerCycle_staged (e : KbDatablock) (th : Threshold) :
    th.staged (powerCycle e).via = th.default := by
  unfold powerCycle heLoadFromEeprom
  split <;> cases th <;> rfl

/-- In use without a SET of a threshold or of both, every key keeps the value that was loaded if
and only if no commit finds the other one staged and this one off its default. -/
theorem threshold_kept (n : Nat) (th : Threshold) (e : KbDatablock) (steps : List Step)
    (hu : ∀ step ∈ steps, step.isUse = true ∧ step.sets th = false) :
    (∀ before, before <+: steps → ∀ i,
        th.value ((run n before (powerCycle e)).config i) = th.value ((powerCycle e).config i))
      ↔ Along (exec n) (Undisturbed th) (powerCycle e) steps :=
  run_value n th _ hu (powerCycle_staged e th) fun _ => rfl

def setActuation (value : UInt8) : Step :=
  .packet 0 ⟨idCustomSetValue,idCustomChannel,1,value⟩

def pressSave : Step := .packet 0 ⟨idCustomSetValue,idCustomChannel,3,0⟩

/-- With the defaults in the block a save keeps them. -/
theorem threshold_kept_default :
    let s := powerCycle ⟨0,ByteMem.blank⟩
    (s.config 0).release = heReleaseDefault
      ∧ ∀ before, before <+: [setActuation 40,pressSave] → ∀ i,
        Threshold.release.value ((run heDebounce before s).config i)
          = Threshold.release.value (s.config i) :=
  ⟨by decide +kernel,
    (threshold_kept heDebounce .release ⟨0,ByteMem.blank⟩ [setActuation 40,pressSave]
      (by decide)).mpr ⟨fun h => absurd h (by decide), fun _ _ => by decide +kernel, trivial⟩⟩

/-- A block with 40 in every threshold: setting the actuation and saving it resets the release. -/
theorem save_resets_release :
    let e : KbDatablock := ⟨eeconfigKbDataVersion,fun _ => 40⟩
    (∀ step ∈ [setActuation 45,pressSave], step.isUse = true ∧ step.sets .release = false)
      ∧ ((powerCycle e).config 0).release = 40
      ∧ ((run heDebounce [setActuation 45,pressSave] (powerCycle e)).config 0).release = 30 := by
  decide +kernel

end QmkFirmware.He
