import QmkFirmware.He.KeyState
import QmkFirmware.He.Socd

/-!
What everything but a scan leaves alone: the press states of the keys, the extremes of their
travel and the winners of the pairs.
-/

set_option autoImplicit false

namespace QmkFirmware.He

structure ScanFrame (s t : HeState) : Prop where
  phys : t.physPressed = s.physPressed
  debounced : t.debounced = s.debounced
  winner : t.socdWinner = s.socdWinner
  travel : ∀ i, (t.config i).travel = (s.config i).travel
  peak : ∀ i, (t.config i).peak = (s.config i).peak
  valley : ∀ i, (t.config i).valley = (s.config i).valley

namespace ScanFrame

variable {s t u : HeState}

theorem refl (s : HeState) : ScanFrame s s :=
  ⟨rfl, rfl, rfl, fun _ => rfl, fun _ => rfl, fun _ => rfl⟩

theorem trans (h : ScanFrame s t) (h' : ScanFrame t u) : ScanFrame s u where
  phys := h'.phys.trans h.phys
  debounced := h'.debounced.trans h.debounced
  winner := h'.winner.trans h.winner
  travel i := (h'.travel i).trans (h.travel i)
  peak i := (h'.peak i).trans (h.peak i)
  valley i := (h'.valley i).trans (h.valley i)

theorem of_settingsOnly (h : SettingsOnly s t) : ScanFrame s t where
  phys := h.phys
  debounced := h.debounced
  winner := h.winner
  travel i := congrArg (fun k => k.1) (h.keys i)
  peak i := congrArg (fun k => k.2.1) (h.keys i)
  valley i := congrArg (fun k => k.2.2.1) (h.keys i)

theorem task (now : UInt16) (s : HeState) : ScanFrame s (heViaTask now s) :=
  .of_settingsOnly (.task now s)

end ScanFrame

theorem exec_frame (n : Nat) (s : HeState) {step : Step} (h : step.isScan = false) :
    ScanFrame s (exec n s step) := .of_settingsOnly (exec_settingsOnly n s h)

def spanned (calibrating : Bool) (raw : UInt16) (c : KeyConfig) : KeyConfig :=
  if calibrating then
    let c := if raw < c.rawMin then { c with rawMin := raw } else c
    if c.rawMax < raw then { c with rawMax := raw } else c
  else c

/-- The travel that a scan samples at a key. -/
def sampledTravel (input : ScanInput) (s : HeState) (i : Sensor) : UInt8 :=
  heRawToTravel (spanned s.calibrating (input.sample i) (s.config i)) (input.sample i)

def decided (input : ScanInput) (s : HeState) (i : Sensor) : KeyConfig × Bool :=
  heComputePressed s.mode s.tuning (spanned s.calibrating (input.sample i) (s.config i))
    (s.physPressed i) (sampledTravel input s i)

theorem spanned_fields (calibrating : Bool) (raw : UInt16) (c : KeyConfig) :
    (spanned calibrating raw c).peak = c.peak ∧ (spanned calibrating raw c).valley = c.valley
      ∧ (spanned calibrating raw c).actuation = c.actuation
      ∧ (spanned calibrating raw c).release = c.release := by
  unfold spanned
  split
  · dsimp only
    split <;> split <;> exact ⟨rfl, rfl, rfl, rfl⟩
  · exact ⟨rfl, rfl, rfl, rfl⟩

theorem commitReported_entries (s : HeState) : ScanFrame s (commitReported s).2 :=
  ⟨rfl, rfl, rfl, fun _ => rfl, fun _ => rfl, fun _ => rfl⟩

theorem lockInRest_entries (s : HeState) : ScanFrame s (lockInRest s) :=
  .of_settingsOnly (.lockInRest s)

theorem scan_entries (n : Nat) (input : ScanInput) (s : HeState) (i : Sensor) :
    let t := (matrixScanCustom n input s).2
    let q := sampleSensor n input { s with scanCount := s.scanCount+1 } i
    t.physPressed i = q.phys ∧ t.debounced i = q.debounced
      ∧ (t.config i).travel = q.config.travel ∧ (t.config i).peak = q.config.peak
      ∧ (t.config i).valley = q.config.valley := by
  intro t q
  simp only [t, q, matrixScanCustom]
  generalize ({ s with scanCount := s.scanCount+1 } : HeState) = u
  have h₁ := lockInRest_entries (storeSampled (sampleSensor n input u) u)
  generalize lockInRest (storeSampled (sampleSensor n input u) u) = v at h₁
  have h₂ : ∀ newly, (socdResolve newly v).physPressed = v.physPressed
      ∧ (socdResolve newly v).debounced = v.debounced
      ∧ (socdResolve newly v).config = v.config := fun newly => by
    unfold socdResolve
    split <;> exact ⟨rfl, rfl, rfl⟩
  generalize hw : socdResolve _ v = w
  obtain ⟨hphys, hdeb, hcfg⟩ := h₂ fun i => (sampleSensor n input u i).newlyPressed
  rw [hw] at hphys hdeb hcfg
  have h₃ := (commitReported_entries w).trans (ScanFrame.task input.now _)
  rw [h₃.phys, h₃.debounced, h₃.travel, h₃.peak, h₃.valley, hphys, hdeb, hcfg, h₁.phys,
    h₁.debounced, h₁.travel, h₁.peak, h₁.valley]
  exact ⟨rfl, rfl, rfl, rfl, rfl⟩

theorem scan_decided (n : Nat) (input : ScanInput) (s : HeState) {i : Sensor}
    (hi : i ≠ heEncPushIndex) :
    let t := (matrixScanCustom n input s).2
    t.physPressed i = (decided input s i).2 ∧ (t.config i).travel = (decided input s i).1.travel
      ∧ (t.config i).peak = (decided input s i).1.peak
      ∧ (t.config i).valley = (decided input s i).1.valley := by
  obtain ⟨h₁, -, h₂, h₃, h₄⟩ := scan_entries n input s i
  dsimp only
  rw [h₁, h₂, h₃, h₄]
  simp only [sampleSensor, if_neg hi]
  exact ⟨rfl, rfl, rfl, rfl⟩

theorem scan_winner (n : Nat) (input : ScanInput) (s : HeState) (hm : s.mode = .keyCancel)
    (p : Fin 2) :
    let t := (matrixScanCustom n input s).2
    let a := (socdPairs p).1
    let b := (socdPairs p).2
    t.socdWinner p = socdUpdate (t.debounced a && !s.debounced a) (t.debounced b && !s.debounced b)
      (t.debounced a) (t.debounced b) (t.config a).travel (t.config b).travel
      (s.socdWinner p) := by
  intro t a b
  obtain ⟨-, hda, hta, -⟩ := scan_entries n input s a
  obtain ⟨-, hdb, htb, -⟩ := scan_entries n input s b
  simp only [t, hda, hdb, hta, htb]
  simp only [matrixScanCustom]
  generalize hu : ({ s with scanCount := s.scanCount+1 } : HeState) = u
  have hdeb : u.debounced = s.debounced := by rw [← hu]
  have hwin : u.socdWinner = s.socdWinner := by rw [← hu]
  have hmode : u.mode = .keyCancel := by rw [← hu]; exact hm
  have h₁ := lockInRest_entries (storeSampled (sampleSensor n input u) u)
  have hm₁ := (lockInRest_frame (storeSampled (sampleSensor n input u) u)).1.trans hmode
  generalize lockInRest (storeSampled (sampleSensor n input u) u) = v at h₁ hm₁
  generalize hw : socdResolve _ v = w
  have h₃ := (commitReported_entries w).trans (ScanFrame.task input.now _)
  rw [h₃.winner, ← hw, socdResolve, if_pos hm₁]
  simp only [h₁.debounced, h₁.travel, h₁.winner]
  simp only [storeSampled, hwin, ← hdeb]
  rfl

end QmkFirmware.He
