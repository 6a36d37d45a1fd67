import QmkFirmware.He.Scan

/-!
What the scan reports. The commit loop writes every key's own bit, and in key-cancel mode
the loser of a pair is held back only while its partner is reported.
-/

set_option autoImplicit false

namespace QmkFirmware.He

/-- The matrix bit of a key. -/
def reported (s : HeState) (i : Sensor) : Bool :=
  (s.matrix (heSensors i).1).getLsbD (heSensors i).2.val

theorem commitKey_other (pressed : Sensor → Bool) (m : Fin 5 → BitVec 16) {i : Sensor} {r : Fin 5}
    {c : Fin 16} (h : heSensors i ≠ (r,c)) :
    (commitKey pressed m i r).getLsbD c.val = (m r).getLsbD c.val := by
  have hcol := c.isLt
  unfold commitKey
  by_cases hrow : r = (heSensors i).1
  · -- the same row, so the columns differ
    have hne : (heSensors i).2.val ≠ c.val := fun hc => h (Prod.ext hrow.symm (Fin.ext hc))
    have hbit : (1#16 <<< (heSensors i).2.val).getLsbD c.val = false := by
      rw [BitVec.getLsbD_shiftLeft, BitVec.getLsbD_one]
      simp
      omega
    rw [if_pos hrow]
    cases pressed i
    · rw [if_neg (by simp), BitVec.getLsbD_and, BitVec.getLsbD_not, hbit]
      simp [hcol]
    · rw [if_pos rfl, BitVec.getLsbD_or, hbit, Bool.or_false]
  · rw [if_neg hrow]

theorem commitKey_bit (pressed : Sensor → Bool) (m : Fin 5 → BitVec 16) (i j : Sensor) :
    (commitKey pressed m i (heSensors j).1).getLsbD (heSensors j).2.val
      = if j = i then pressed j else (m (heSensors j).1).getLsbD (heSensors j).2.val := by
  have hcol := (heSensors j).2.isLt
  by_cases hji : j = i
  · subst hji
    unfold commitKey
    cases pressed j <;> simp [hcol]
  · rw [if_neg hji]
    exact commitKey_other pressed m fun h => hji (heSensors_injective j i h.symm)

theorem commit_other (pressed : Sensor → Bool) (l : List Sensor) (m : Fin 5 → BitVec 16) {r : Fin 5}
    {c : Fin 16} (h : ∀ i, heSensors i ≠ (r,c)) :
    (l.foldl (commitKey pressed) m r).getLsbD c.val = (m r).getLsbD c.val := by
  induction l generalizing m with
  | nil => rfl
  | cons i l ih => rw [List.foldl_cons, ih, commitKey_other pressed m (h i)]

theorem commit_bit (pressed : Sensor → Bool) (l : List Sensor) (m : Fin 5 → BitVec 16)
    (j : Sensor) :
    let bit := (l.foldl (commitKey pressed) m (heSensors j).1).getLsbD (heSensors j).2.val
    (j ∈ l → bit = pressed j)
      ∧ (j ∉ l → bit = (m (heSensors j).1).getLsbD (heSensors j).2.val) := by
  induction l generalizing m with
  | nil => exact ⟨fun h => absurd h List.not_mem_nil, fun _ => rfl⟩
  | cons i l ih =>
    obtain ⟨hmem, hother⟩ := ih (commitKey pressed m i)
    simp only [List.foldl_cons]
    by_cases hl : j ∈ l
    · exact ⟨fun _ => hmem hl, fun h => absurd (List.mem_cons_of_mem i hl) h⟩
    · rw [hother hl, commitKey_bit]
      by_cases hji : j = i <;> simp [hl, hji]

theorem heViaTask_frame (now : UInt16) (s : HeState) :
    (heViaTask now s).matrix = s.matrix ∧ (heViaTask now s).debounced = s.debounced
      ∧ (heViaTask now s).socdWinner = s.socdWinner ∧ (heViaTask now s).mode = s.mode := by
  unfold heViaTask heViaCommitThresholds
  split
  · split <;> exact ⟨rfl, rfl, rfl, rfl⟩
  · exact ⟨rfl, rfl, rfl, rfl⟩

/-- Neither closing the rest window nor the resolution moves the mode, the stable keys or the
matrix. -/
theorem lockInRest_frame (s : HeState) : (lockInRest s).mode = s.mode
    ∧ (lockInRest s).debounced = s.debounced ∧ (lockInRest s).matrix = s.matrix := by
  unfold lockInRest
  split <;> exact ⟨rfl, rfl, rfl⟩

theorem socdResolve_frame (newly : Sensor → Bool) (s : HeState) :
    (socdResolve newly s).mode = s.mode ∧ (socdResolve newly s).debounced = s.debounced
      ∧ (socdResolve newly s).matrix = s.matrix := by
  unfold socdResolve
  split <;> exact ⟨rfl, rfl, rfl⟩

theorem commit_reported (s : HeState) (i : Sensor) :
    reported (commitReported s).2 i = (s.debounced i && !suppressed s i) := by
  simp only [reported, commitReported]
  exact (commit_bit _ _ _ i).1 (List.mem_finRange i)

theorem scan_mode (n : Nat) (input : ScanInput) (s : HeState) :
    (matrixScanCustom n input s).2.mode = s.mode := by
  simp only [matrixScanCustom, commitReported, heViaTask_frame, socdResolve_frame,
    lockInRest_frame, storeSampled]

theorem scan_reported (n : Nat) (input : ScanInput) (s : HeState) (i : Sensor) :
    let t := (matrixScanCustom n input s).2
    reported t i = (t.debounced i && !suppressed t i) := by
  simp only [matrixScanCustom]
  generalize socdResolve _ _ = u
  have hrep := commit_reported u i
  obtain ⟨h₁, h₂, h₃, h₄⟩ := heViaTask_frame input.now (commitReported u).2
  simp only [reported, suppressed, h₁, h₂, h₃, h₄] at hrep ⊢
  exact hrep

theorem socdLoser_iff {p : Fin 2} {debounced : Sensor → Bool} {winner : UInt8} {i : Sensor} :
    socdLoser p debounced winner = some i ↔
      debounced (socdPairs p).1 = true ∧ debounced (socdPairs p).2 = true
        ∧ i = if winner = 1 then (socdPairs p).1 else (socdPairs p).2 := by
  unfold socdLoser
  cases debounced (socdPairs p).1 <;> cases debounced (socdPairs p).2 <;>
    by_cases hw : winner = 1 <;> simp [hw, eq_comm]

theorem socdPairs_inj : ∀ p q : Fin 2, (socdPairs p).1 ≠ (socdPairs q).2
    ∧ ((socdPairs p).1 = (socdPairs q).1 → p = q) ∧ ((socdPairs p).2 = (socdPairs q).2 → p = q) := by
  decide

/-- What a scan reports, from any state: SOCD exclusion without loss. -/
structure SocdExclusive (t : HeState) : Prop where
  never_both : ∀ p, ¬ (reported t (socdPairs p).1 = true ∧ reported t (socdPairs p).2 = true)
  one_of_held : ∀ p, t.debounced (socdPairs p).1 = true ∨ t.debounced (socdPairs p).2 = true →
    reported t (socdPairs p).1 = true ∨ reported t (socdPairs p).2 = true
  held_only : ∀ i, reported t i = true → t.debounced i = true
  outside : ∀ i, (∀ p, i ≠ (socdPairs p).1 ∧ i ≠ (socdPairs p).2) →
    reported t i = t.debounced i

theorem suppressed_iff {s : HeState} {i : Sensor} : suppressed s i = true ↔
    s.mode = .keyCancel ∧ ∃ p, s.debounced (socdPairs p).1 = true
      ∧ s.debounced (socdPairs p).2 = true
      ∧ i = if s.socdWinner p = 1 then (socdPairs p).1 else (socdPairs p).2 := by
  simp only [suppressed, decide_eq_true_eq, socdLoser_iff]

theorem suppressed_pair {s : HeState} (hm : s.mode = .keyCancel) (p : Fin 2) :
    (suppressed s (socdPairs p).1 = true ↔ s.debounced (socdPairs p).1 = true
      ∧ s.debounced (socdPairs p).2 = true ∧ s.socdWinner p = 1)
    ∧ (suppressed s (socdPairs p).2 = true ↔ s.debounced (socdPairs p).1 = true
      ∧ s.debounced (socdPairs p).2 = true ∧ s.socdWinner p ≠ 1) := by
  simp only [suppressed_iff, hm, true_and]
  refine ⟨⟨?_, fun h => ⟨p, h.1, h.2.1, by rw [if_pos h.2.2]⟩⟩,
    ⟨?_, fun h => ⟨p, h.1, h.2.1, by rw [if_neg h.2.2]⟩⟩⟩
  · rintro ⟨q, ha, hb, hi⟩
    split at hi
    · rename_i hw
      obtain rfl := (socdPairs_inj p q).2.1 hi
      exact ⟨ha, hb, hw⟩
    · exact absurd hi (socdPairs_inj p q).1
  · rintro ⟨q, ha, hb, hi⟩
    split at hi
    · exact absurd hi.symm (socdPairs_inj q p).1
    · rename_i hw
      obtain rfl := (socdPairs_inj p q).2.2 hi
      exact ⟨ha, hb, hw⟩

theorem scan_socdExclusive (n : Nat) (input : ScanInput) (s : HeState)
    (hm : s.mode = .keyCancel) : SocdExclusive (matrixScanCustom n input s).2 := by
  have hrep := scan_reported n input s
  have hmode := (scan_mode n input s).trans hm
  generalize (matrixScanCustom n input s).2 = t at hrep hmode
  refine ⟨fun p => ?_, fun p => ?_, fun i => ?_, fun i hi => ?_⟩
  · obtain ⟨ha, hb⟩ := suppressed_pair hmode p
    rw [hrep, hrep, Bool.and_eq_true, Bool.and_eq_true, Bool.not_eq_true', Bool.not_eq_true',
      Bool.eq_false_iff, Bool.eq_false_iff, ne_eq, ne_eq, ha, hb]
    rintro ⟨⟨h₁, h₂⟩, h₃, h₄⟩
    exact h₄ ⟨h₁, h₃, fun hw => h₂ ⟨h₁, h₃, hw⟩⟩
  · obtain ⟨ha, hb⟩ := suppressed_pair hmode p
    rw [hrep, hrep]
    simp only [Bool.and_eq_true, Bool.not_eq_true', Bool.eq_false_iff, ne_eq, ha, hb]
    by_cases hw : t.socdWinner p = 1 <;> simp only [hw] <;> grind
  · rw [hrep]
    exact fun h => (Bool.and_eq_true _ _ ▸ h).1
  · have hs : suppressed t i = false := by
      rw [Bool.eq_false_iff]
      intro h
      obtain ⟨-, p, -, -, hp⟩ := suppressed_iff.mp h
      split at hp
      · exact (hi p).1 hp
      · exact (hi p).2 hp
    rw [hrep, hs]
    simp

theorem scan_reports_all (n : Nat) (input : ScanInput) (s : HeState) (hm : s.mode ≠ .keyCancel)
    (i : Sensor) : reported (matrixScanCustom n input s).2 i
      = (matrixScanCustom n input s).2.debounced i := by
  have hrep := scan_reported n input s i
  have hmode := scan_mode n input s
  generalize (matrixScanCustom n input s).2 = t at hrep hmode
  have hs : suppressed t i = false := by
    rw [Bool.eq_false_iff]
    exact fun h => hm (hmode ▸ (suppressed_iff.mp h).1)
  rw [hrep, hs]
  simp

/-- Every scan of every run from power-up: in key-cancel mode the pairs exclude each other
and nothing else is lost, in the other modes every stable key is reported. -/
theorem socd_exclusion (n : Nat) (e : KbDatablock) (steps : List Step) (input : ScanInput) :
    let s := run n steps (boot e)
    let t := (matrixScanCustom n input s).2
    if s.mode = .keyCancel then SocdExclusive t else ∀ i, reported t i = t.debounced i := by
  intro s t
  split
  · rename_i hm
    exact scan_socdExclusive n input s hm
  · rename_i hm
    exact scan_reports_all n input s hm

end QmkFirmware.He
