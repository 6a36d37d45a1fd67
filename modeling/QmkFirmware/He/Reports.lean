import Mathlib.Data.List.Induction
import QmkFirmware.He.Frame
import QmkFirmware.He.RapidTrigger

/-!
What a scan reports over a run: the confirm counter as a count of the physical states seen, and
the matrix as a copy of the keys' reported states.
-/

set_option autoImplicit false

namespace QmkFirmware.He

def differing (stable : Bool) (history : List Bool) : Nat :=
  (history.takeWhile fun phys => phys != stable).length

theorem differing_cons (stable phys : Bool) (history : List Bool) :
    differing stable (phys :: history) = if phys ≠ stable then differing stable history+1 else 0 := by
  by_cases h : phys = stable <;> simp [differing, h]

theorem le_differing_iff {stable v : Bool} (hv : v ≠ stable) (n : Nat) (history : List Bool) :
    n ≤ differing stable history ↔ history.take n = List.replicate n v := by
  induction history generalizing n with
  | nil => cases n <;> simp [differing, List.replicate_succ]
  | cons phys history ih =>
    cases n with
    | zero => simp
    | succ n =>
      rw [differing_cons, List.take_succ_cons, List.replicate_succ]
      by_cases h : phys = v
      · rw [if_pos (by rw [h]; exact hv), Nat.succ_le_succ_iff, ih n, h]
        simp
      · have hs : phys = stable := by
          revert h hv
          cases phys <;> cases v <;> cases stable <;> simp
        rw [if_neg (by simp [hs])]
        simp [h]

theorem debounceStep_lt {n : Nat} (hn : 1 ≤ n) (phys stable : Bool) (count : UInt8) :
    (debounceStep n phys stable count).2.toNat < n := by
  simp only [debounceStep]
  split
  · split
    · exact hn
    · rename_i hle
      exact Nat.not_le.mp hle
  · exact hn

theorem debounceStep_counts {n : Nat} (hn : 1 ≤ n) (hn' : n ≤ 255) {stable : Bool} {count : UInt8}
    {history : List Bool} (h : count.toNat = differing stable history) (hlt : count.toNat < n)
    (phys : Bool) : (debounceStep n phys stable count).2.toNat
      = differing (debounceStep n phys stable count).1 (phys :: history) := by
  have hadd : (count+1).toNat = count.toNat+1 := by
    rw [UInt8.toNat_add, show (1 : UInt8).toNat = 1 from rfl]
    omega
  simp only [debounceStep]
  split
  · rename_i hne
    split
    · simp [differing_cons]
    · rw [differing_cons, if_pos hne, hadd, h]
  · rename_i heq
    rw [differing_cons, if_neg heq]
    rfl

theorem debounceStep_flips {n : Nat} (hn : 1 ≤ n) {stable : Bool} {count : UInt8}
    {history : List Bool} (h : n ≤ 255 → count.toNat = differing stable history ∧ count.toNat < n)
    (phys v : Bool) :
    (stable ≠ v ∧ (debounceStep n phys stable count).1 = v) ↔
      n ≤ 255 ∧ (phys :: history).take n = List.replicate n v ∧ stable ≠ v := by
  have hlt := (count+1).toNat_lt
  simp only [debounceStep]
  constructor
  · rintro ⟨hv, hflip⟩
    split at hflip
    · rename_i hne
      split at hflip
      · rename_i hle
        have hn' : n ≤ 255 := by omega
        obtain ⟨h₁, h₂⟩ := h hn'
        have hadd : (count+1).toNat = count.toNat+1 := by
          rw [UInt8.toNat_add, show (1 : UInt8).toNat = 1 from rfl]
          omega
        refine ⟨hn', (le_differing_iff hv.symm n _).mp ?_, hv⟩
        rw [differing_cons, if_pos hne, ← h₁, ← hadd]
        exact hle
      · exact absurd hflip hv
    · exact absurd hflip hv
  · rintro ⟨hn', hall, hv⟩
    obtain ⟨h₁, h₂⟩ := h hn'
    have hle := (le_differing_iff hv.symm n _).mpr hall
    have hadd : (count+1).toNat = count.toNat+1 := by
      rw [UInt8.toNat_add, show (1 : UInt8).toNat = 1 from rfl]
      omega
    have hphys : phys ≠ stable := by
      intro heq
      rw [differing_cons, if_neg (not_not.mpr heq)] at hle
      omega
    rw [differing_cons, if_pos hphys] at hle
    rw [if_pos hphys, if_pos (by omega)]
    refine ⟨hv, ?_⟩
    revert hphys hv
    cases phys <;> cases v <;> cases stable <;> simp

theorem heComputePressed_kept (mode : ActuationMode) (tuning : Tuning) (c : KeyConfig)
    (pressed : Bool) (travel : UInt8) :
    let r := heComputePressed mode tuning c pressed travel
    r.1.debounce = c.debounce ∧ r.1.pressed = c.pressed := by
  unfold heComputePressed
  cases mode <;> dsimp only <;> split_ifs <;> exact ⟨rfl, rfl⟩

theorem spanned_kept (calibrating : Bool) (raw : UInt16) (c : KeyConfig) :
    (spanned calibrating raw c).debounce = c.debounce
      ∧ (spanned calibrating raw c).pressed = c.pressed := by
  unfold spanned
  dsimp only
  split_ifs <;> exact ⟨rfl, rfl⟩

theorem sampleSensor_confirms (n : Nat) (input : ScanInput) (s : HeState) (i : Sensor) :
    let q := sampleSensor n input s i
    (q.debounced,q.config.debounce)
        = debounceStep n q.phys (s.debounced i) (s.config i).debounce
      ∧ q.config.pressed = (s.config i).pressed := by
  have hspan := spanned_kept s.calibrating (input.sample i) (s.config i)
  have hdec : ∀ travel, (heComputePressed s.mode s.tuning
      (spanned s.calibrating (input.sample i) (s.config i)) (s.physPressed i) travel).1.debounce
        = (s.config i).debounce ∧ (heComputePressed s.mode s.tuning
      (spanned s.calibrating (input.sample i) (s.config i)) (s.physPressed i) travel).1.pressed
        = (s.config i).pressed := fun travel => by
    obtain ⟨h₁, h₂⟩ := heComputePressed_kept s.mode s.tuning
      (spanned s.calibrating (input.sample i) (s.config i)) (s.physPressed i) travel
    exact ⟨h₁.trans hspan.1, h₂.trans hspan.2⟩
  by_cases hi : i = heEncPushIndex
  · simp [sampleSensor, hi]
  · simp only [sampleSensor, if_neg hi]
    obtain ⟨h₁, h₂⟩ := hdec (heRawToTravel (spanned s.calibrating (input.sample i) (s.config i))
      (input.sample i))
    unfold spanned at h₁ h₂
    dsimp only at h₁ h₂ ⊢
    rw [h₁, h₂]
    exact ⟨rfl, rfl⟩

structure Sampling (n : Nat) (input : ScanInput) (s w : HeState) : Prop where
  phys : ∀ i, w.physPressed i
    = (sampleSensor n input { s with scanCount := s.scanCount+1 } i).phys
  debounced : ∀ i, w.debounced i
    = (sampleSensor n input { s with scanCount := s.scanCount+1 } i).debounced
  keys : ∀ i, (w.config i).scanned
    = (sampleSensor n input { s with scanCount := s.scanCount+1 } i).config.scanned
  matrix : w.matrix = s.matrix

theorem scan_sampling (n : Nat) (input : ScanInput) (s : HeState) :
    ∃ w, Sampling n input s w ∧ matrixScanCustom n input s
      = ((commitReported w).1, heViaTask input.now (commitReported w).2) := by
  simp only [matrixScanCustom]
  generalize hu : ({ s with scanCount := s.scanCount+1 } : HeState) = u
  have h₁ := SettingsOnly.lockInRest (storeSampled (sampleSensor n input u) u)
  generalize lockInRest (storeSampled (sampleSensor n input u) u) = v at h₁
  have h₂ : ∀ newly, (socdResolve newly v).physPressed = v.physPressed
      ∧ (socdResolve newly v).debounced = v.debounced ∧ (socdResolve newly v).config = v.config
      ∧ (socdResolve newly v).matrix = v.matrix := fun newly => by
    unfold socdResolve
    split <;> exact ⟨rfl, rfl, rfl, rfl⟩
  obtain ⟨hphys, hdeb, hcfg, hmat⟩ := h₂ fun i => (sampleSensor n input u i).newlyPressed
  refine ⟨_, ⟨fun i => ?_, fun i => ?_, fun i => ?_, ?_⟩, rfl⟩
  · rw [hphys, h₁.phys, hu]
    rfl
  · rw [hdeb, h₁.debounced, hu]
    rfl
  · rw [hcfg, h₁.keys, hu]
    rfl
  · rw [hmat, h₁.matrix, ← hu]
    rfl

theorem Sampling.confirms {n : Nat} {input : ScanInput} {s w : HeState} (h : Sampling n input s w)
    (i : Sensor) : (w.debounced i,(w.config i).debounce)
      = debounceStep n (w.physPressed i) (s.debounced i) (s.config i).debounce := by
  have hcount : (w.config i).debounce = _ := congrArg (fun k => k.2.2.2.1) (h.keys i)
  rw [hcount, h.debounced, h.phys]
  exact (sampleSensor_confirms n input { s with scanCount := s.scanCount+1 } i).1

theorem Sampling.pressed {n : Nat} {input : ScanInput} {s w : HeState} (h : Sampling n input s w)
    (i : Sensor) : (w.config i).pressed = (s.config i).pressed := by
  have hpressed : (w.config i).pressed = _ := congrArg (fun k => k.2.2.2.2) (h.keys i)
  rw [hpressed]
  exact (sampleSensor_confirms n input { s with scanCount := s.scanCount+1 } i).2

theorem scan_confirms (n : Nat) (input : ScanInput) (s : HeState) (i : Sensor) :
    let t := (matrixScanCustom n input s).2
    (t.debounced i,(t.config i).debounce)
      = debounceStep n (t.physPressed i) (s.debounced i) (s.config i).debounce := by
  obtain ⟨w, hw, hscan⟩ := scan_sampling n input s
  have htask := SettingsOnly.task input.now (commitReported w).2
  have hcount := congrArg (fun k => k.2.2.2.1) (htask.keys i)
  rw [hscan]
  dsimp only [KeyConfig.scanned] at hcount ⊢
  rw [hcount, htask.debounced, htask.phys]
  exact hw.confirms i

def Mirrored (s : HeState) : Prop := ∀ i, reported s i = (s.config i).pressed

theorem scan_mirrored (n : Nat) (input : ScanInput) (s : HeState) :
    Mirrored (matrixScanCustom n input s).2 := by
  intro i
  obtain ⟨w, hw, hscan⟩ := scan_sampling n input s
  have htask := SettingsOnly.task input.now (commitReported w).2
  have hpressed := congrArg (fun k => k.2.2.2.2) (htask.keys i)
  rw [hscan]
  dsimp only [KeyConfig.scanned] at hpressed ⊢
  rw [hpressed, reported, htask.matrix]
  exact commit_reported w i

theorem Mirrored.of_settingsOnly {s t : HeState} (h : Mirrored s) (hst : SettingsOnly s t) :
    Mirrored t := by
  intro i
  have hpressed := congrArg (fun k => k.2.2.2.2) (hst.keys i)
  dsimp only [KeyConfig.scanned] at hpressed
  rw [hpressed, reported, hst.matrix]
  exact h i

theorem scan_others (n : Nat) (input : ScanInput) (s : HeState) {r : Fin 5} {c : Fin 16}
    (h : ∀ i, heSensors i ≠ (r,c)) : ((matrixScanCustom n input s).2.matrix r).getLsbD c.val
      = (s.matrix r).getLsbD c.val := by
  obtain ⟨w, hw, hscan⟩ := scan_sampling n input s
  rw [hscan]
  dsimp only
  rw [(SettingsOnly.task _ _).matrix, commitReported]
  dsimp only
  rw [commit_other _ _ _ h, hw.matrix]

theorem scan_changed_iff (n : Nat) (input : ScanInput) (s : HeState) :
    let r := matrixScanCustom n input s
    r.1 = true ↔ ∃ i, (r.2.config i).pressed ≠ (s.config i).pressed := by
  obtain ⟨w, hw, hscan⟩ := scan_sampling n input s
  have htask := SettingsOnly.task input.now (commitReported w).2
  rw [hscan]
  dsimp only
  have hpressed : ∀ i, ((heViaTask input.now (commitReported w).2).config i).pressed
      = (w.debounced i && !suppressed w i) := fun i =>
    congrArg (fun k => k.2.2.2.2) (htask.keys i)
  simp only [hpressed]
  simp only [commitReported, List.any_eq_true, List.mem_finRange, true_and, decide_eq_true_eq,
    hw.pressed]

def recordPhys (n : Nat) (i : Sensor) (p : HeState × List Bool) (step : Step) :
    HeState × List Bool :=
  let t := exec n p.1 step
  (t, if step.isScan then t.physPressed i :: p.2 else p.2)

def physHistory (n : Nat) (e : KbDatablock) (i : Sensor) (steps : List Step) : List Bool :=
  (steps.foldl (recordPhys n i) (boot e,[])).2

theorem recordPhys_run (n : Nat) (i : Sensor) (steps : List Step) (p : HeState × List Bool) :
    (steps.foldl (recordPhys n i) p).1 = run n steps p.1 := by
  induction steps generalizing p with
  | nil => rfl
  | cons step steps ih => exact ih _

theorem physHistory_scan (n : Nat) (e : KbDatablock) (i : Sensor) (steps : List Step)
    (input : ScanInput) : physHistory n e i (steps ++ [.scan input])
      = (matrixScanCustom n input (run n steps (boot e))).2.physPressed i
        :: physHistory n e i steps := by
  rw [physHistory, List.foldl_concat, recordPhys,
    if_pos (show (Step.scan input).isScan = true from rfl), recordPhys_run]
  rfl

theorem physHistory_other (n : Nat) (e : KbDatablock) (i : Sensor) (steps : List Step)
    {step : Step} (h : step.isScan = false) :
    physHistory n e i (steps ++ [step]) = physHistory n e i steps := by
  rw [physHistory, List.foldl_concat, recordPhys, if_neg (by simp [h])]
  rfl

theorem run_counts {n : Nat} (hn : 1 ≤ n) (hn' : n ≤ 255) (e : KbDatablock) (i : Sensor)
    (steps : List Step) :
    let s := run n steps (boot e)
    (s.config i).debounce.toNat = differing (s.debounced i) (physHistory n e i steps)
      ∧ (s.config i).debounce.toNat < n := by
  induction steps using List.reverseRecOn with
  | nil => exact ⟨rfl, hn⟩
  | append_singleton steps step ih =>
    dsimp only at ih ⊢
    cases hs : step.isScan with
    | true =>
      cases step with
      | scan input =>
        rw [run_snoc, physHistory_scan]
        have hconf := scan_confirms n input (run n steps (boot e)) i
        have hcount := debounceStep_counts hn hn' ih.1 ih.2
          ((matrixScanCustom n input (run n steps (boot e))).2.physPressed i)
        have hlt := debounceStep_lt hn
          ((matrixScanCustom n input (run n steps (boot e))).2.physPressed i)
          ((run n steps (boot e)).debounced i) ((run n steps (boot e)).config i).debounce
        dsimp only at hconf
        rw [← hconf] at hcount hlt
        exact ⟨hcount, hlt⟩
      | _ => cases hs
    | false =>
      have hset := exec_settingsOnly n (run n steps (boot e)) hs
      rw [run_snoc, physHistory_other n e i steps hs, hset.debounced,
        show ((exec n (run n steps (boot e)) step).config i).debounce
          = ((run n steps (boot e)).config i).debounce from
          congrArg (fun k => k.2.2.2.1) (hset.keys i)]
      exact ih

theorem run_mirrored (n : Nat) (e : KbDatablock) (steps : List Step) :
    Mirrored (run n steps (boot e)) := by
  induction steps using List.reverseRecOn with
  | nil => exact fun i => by simp [run, boot, reported, heConfigDefault]
  | append_singleton steps step ih =>
    rw [run_snoc]
    cases hs : step.isScan with
    | true =>
      cases step with
      | scan input => exact scan_mirrored n input _
      | _ => cases hs
    | false => exact ih.of_settingsOnly (exec_settingsOnly n _ hs)

/-- What a scan from `s` to `t` makes of the physical states, and what it returns. -/
structure ReportsExactly (n : Nat) (history : Sensor → List Bool) (s t : HeState)
    (changed : Bool) : Prop where
  flips : ∀ i v, (s.debounced i ≠ v ∧ t.debounced i = v) ↔
    n ≤ 255 ∧ (history i).take n = List.replicate n v ∧ s.debounced i ≠ v
  counter : ∀ i, (t.config i).debounce.toNat < n
  pressed : ∀ i, (t.config i).pressed = (t.debounced i && !suppressed t i)
  bits : ∀ i, reported t i = (t.config i).pressed
  others : ∀ (r : Fin 5) (c : Fin 16), (∀ i, heSensors i ≠ (r,c)) →
    (t.matrix r).getLsbD c.val = (s.matrix r).getLsbD c.val
  changed : changed = true ↔ ∃ (r : Fin 5) (c : Fin 16),
    (t.matrix r).getLsbD c.val ≠ (s.matrix r).getLsbD c.val

/-- Every scan of every run from power-up, whatever happens in between. The confirm counter is
eight bits wide: with more than 255 samples to confirm no key ever flips. -/
theorem scan_reports_exactly {n : Nat} (hn : 1 ≤ n) (e : KbDatablock) (steps : List Step)
    (input : ScanInput) :
    let s := run n steps (boot e)
    let r := matrixScanCustom n input s
    ReportsExactly n (fun i => physHistory n e i (steps ++ [.scan input])) s r.2 r.1 := by
  intro s r
  have hmirror : Mirrored r.2 := scan_mirrored n input s
  have hconf : ∀ i, (r.2.debounced i,(r.2.config i).debounce)
      = debounceStep n (r.2.physPressed i) (s.debounced i) (s.config i).debounce :=
    scan_confirms n input s
  refine ⟨fun i v => ?_, fun i => ?_, fun i => ?_, hmirror, fun _ _ => scan_others n input s, ?_⟩
  · have hflip := debounceStep_flips hn (fun hn' => run_counts hn hn' e i steps)
      (r.2.physPressed i) v
    rw [show debounceStep n (r.2.physPressed i) ((run n steps (boot e)).debounced i) _ = _ from
      (hconf i).symm] at hflip
    rw [physHistory_scan]
    exact hflip
  · have hlt := debounceStep_lt hn (r.2.physPressed i) (s.debounced i) (s.config i).debounce
    rw [← hconf i] at hlt
    exact hlt
  · rw [← hmirror i]
    exact scan_reported n input s i
  · refine (scan_changed_iff n input s).trans ⟨?_, ?_⟩
    · rintro ⟨i, hi⟩
      refine ⟨(heSensors i).1, (heSensors i).2, ?_⟩
      rw [← hmirror i, ← run_mirrored n e steps i] at hi
      exact hi
    · rintro ⟨row, col, hbit⟩
      by_contra hnone
      refine hbit ?_
      by_cases hsensor : ∃ i, heSensors i = (row,col)
      · obtain ⟨i, hi⟩ := hsensor
        have hsame : (r.2.config i).pressed = (s.config i).pressed := by
          by_contra hp
          exact hnone ⟨i, hp⟩
        rw [← hmirror i, ← run_mirrored n e steps i, reported, reported, hi] at hsame
        exact hsame
      · exact scan_others n input s fun i hi => hsensor ⟨i, hi⟩

/-- The encoder switch is closed. -/
def pushed : ScanInput := ⟨fun _ => 2048,true,0⟩

theorem scan_reports_exactly_pushed :
    let e : KbDatablock := ⟨eeconfigKbDataVersion,ByteMem.blank⟩
    let s := run heDebounce [.scan pushed,.setMode 2] (boot e)
    let r := matrixScanCustom heDebounce pushed s
    1 ≤ heDebounce ∧ ReportsExactly heDebounce
      (fun i => physHistory heDebounce e i ([.scan pushed,.setMode 2] ++ [.scan pushed])) s r.2 r.1 :=
  ⟨by decide, scan_reports_exactly (by decide) ⟨eeconfigKbDataVersion,ByteMem.blank⟩
    [.scan pushed,.setMode 2] pushed⟩

theorem physHistory_pushed (n : Nat) (e : KbDatablock) (k : Nat) :
    physHistory n e heEncPushIndex (List.replicate k (.scan pushed)) = List.replicate k true := by
  induction k with
  | zero => rfl
  | succ k ih =>
    obtain ⟨hphys, -⟩ := scan_entries n pushed (run n (List.replicate k (.scan pushed)) (boot e))
      heEncPushIndex
    rw [List.replicate_succ', physHistory_scan, ih, hphys, List.replicate_succ]
    simp [sampleSensor, pushed]

theorem wide_debounce_stuck {n : Nat} (hn : 255 < n) (e : KbDatablock) (i : Sensor)
    (steps : List Step) : (run n steps (boot e)).debounced i = false := by
  induction steps using List.reverseRecOn with
  | nil => rfl
  | append_singleton steps step ih =>
    rw [run_snoc]
    cases hs : step.isScan with
    | true =>
      cases step with
      | scan input =>
        have hconf := congrArg Prod.fst (scan_confirms n input (run n steps (boot e)) i)
        have hlt := (((run n steps (boot e)).config i).debounce+1).toNat_lt
        dsimp only [debounceStep] at hconf
        rw [exec, hconf]
        split
        · rw [if_neg (by omega)]
          exact ih
        · exact ih
      | _ => cases hs
    | false => rw [(exec_settingsOnly n _ hs).debounced, ih]

/-- A key flips with this scan exactly when its last `n` physical states agree and differ from its
stable state. -/
def FlipsOnAgreement (n : Nat) (e : KbDatablock) (steps : List Step) (input : ScanInput)
    (i : Sensor) (v : Bool) : Prop :=
  let s := run n steps (boot e)
  let t := (matrixScanCustom n input s).2
  (s.debounced i ≠ v ∧ t.debounced i = v) ↔
    (physHistory n e i (steps ++ [.scan input])).take n = List.replicate n v ∧ s.debounced i ≠ v

theorem wide_debounce_pushed {k : Nat} (hk : 255 ≤ k) (e : KbDatablock) :
    ¬ FlipsOnAgreement (k+1) e (List.replicate k (.scan pushed)) pushed heEncPushIndex true := by
  intro h
  have hs := wide_debounce_stuck (show 255 < k+1 by omega) e heEncPushIndex
    (List.replicate k (.scan pushed))
  have ht := wide_debounce_stuck (show 255 < k+1 by omega) e heEncPushIndex
    (List.replicate k (.scan pushed) ++ [.scan pushed])
  rw [run_snoc] at ht
  have hall : (physHistory (k+1) e heEncPushIndex (List.replicate k (.scan pushed)
      ++ [.scan pushed])).take (k+1) = List.replicate (k+1) true := by
    rw [← List.replicate_succ', physHistory_pushed, List.take_replicate, Nat.min_self]
  have hpress := (h.mpr ⟨hall, by simp [hs]⟩).2
  rw [exec] at ht
  rw [ht] at hpress
  cases hpress

/-- With 256 samples to confirm, 256 closed samples in a row do not press the encoder switch. -/
theorem wide_debounce_lost :
    ¬ FlipsOnAgreement 256 ⟨eeconfigKbDataVersion,ByteMem.blank⟩
      (List.replicate 255 (.scan pushed)) pushed heEncPushIndex true :=
  wide_debounce_pushed (Nat.le_refl 255) ⟨eeconfigKbDataVersion,ByteMem.blank⟩

end QmkFirmware.He
