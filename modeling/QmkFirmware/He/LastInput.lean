import Mathlib.Data.List.Induction
import QmkFirmware.He.Frame

/-!
Last input wins. The winner of a pair is kept in key-cancel scans only, and leaving the mode
does not forget it: what it remembers may be older than the session.
-/

set_option autoImplicit false

namespace QmkFirmware.He

structure Edge where
  scan : Nat
  travel : UInt8
  deriving DecidableEq, Repr

structure Session where
  /-- The scans made in it. -/
  scans : Nat
  /-- Where the current hold of a key began, if it began in one of them. -/
  since : Sensor → Option Edge

def Session.start : Session := ⟨0,fun _ => none⟩

def observe (s t : HeState) (step : Step) (h : Session) : Session :=
  if s.mode = .keyCancel ∧ t.mode = .keyCancel then
    if step.isScan then
      { scans := h.scans+1
        since := fun i =>
          if t.debounced i then
            if s.debounced i then h.since i else some ⟨h.scans+1,(t.config i).travel⟩
          else none }
    else h
  else .start

/-- The session at the end of a run from power-up. -/
def sessionOf (n : Nat) (e : KbDatablock) (steps : List Step) : Session :=
  (steps.foldl (fun p step => (exec n p.1 step,observe p.1 (exec n p.1 step) step p.2))
    (boot e,Session.start)).2

theorem observed_state (n : Nat) (steps : List Step) (p : HeState × Session) :
    (steps.foldl (fun p step => (exec n p.1 step,observe p.1 (exec n p.1 step) step p.2)) p).1
      = run n steps p.1 := by
  induction steps generalizing p with
  | nil => rfl
  | cons step steps ih => exact ih _

theorem sessionOf_snoc (n : Nat) (e : KbDatablock) (steps : List Step) (step : Step) :
    sessionOf n e (steps ++ [step]) = observe (run n steps (boot e))
      (run n (steps ++ [step]) (boot e)) step (sessionOf n e steps) := by
  rw [sessionOf, List.foldl_concat, observed_state, run_snoc]
  rfl

def Session.lastInput (h : Session) (p : Fin 2) : Sensor :=
  match h.since (socdPairs p).1, h.since (socdPairs p).2 with
  | _, none => (socdPairs p).1
  | none, some _ => (socdPairs p).2
  | some a, some b =>
    if b.scan < a.scan ∨ a.scan = b.scan ∧ b.travel ≤ a.travel then (socdPairs p).1
    else (socdPairs p).2

/-- Of a pair that is held, the scan reports the last input. -/
def LastInputWins (t : HeState) (h : Session) : Prop :=
  ∀ p, t.debounced (socdPairs p).1 = true → t.debounced (socdPairs p).2 = true →
    (reported t (socdPairs p).1 = true ↔ h.lastInput p = (socdPairs p).1)
      ∧ (reported t (socdPairs p).2 = true ↔ h.lastInput p = (socdPairs p).2)

/-- Both keys of a pair are stable. -/
def Held (s : HeState) (p : Fin 2) : Prop :=
  s.debounced (socdPairs p).1 = true ∧ s.debounced (socdPairs p).2 = true

theorem lastInput_pair (h : Session) (p : Fin 2) :
    h.lastInput p = (socdPairs p).1 ↔ h.lastInput p ≠ (socdPairs p).2 := by
  have hne := (socdPairs_inj p p).1
  unfold Session.lastInput
  split
  · exact ⟨fun _ => hne, fun _ => rfl⟩
  · exact ⟨fun he => absurd he.symm hne, fun hn => absurd rfl hn⟩
  · split
    · exact ⟨fun _ => hne, fun _ => rfl⟩
    · exact ⟨fun he => absurd he.symm hne, fun hn => absurd rfl hn⟩

theorem lastInputWins_iff (n : Nat) (input : ScanInput) {s : HeState} (hm : s.mode = .keyCancel)
    (h : Session) :
    let t := (matrixScanCustom n input s).2
    LastInputWins t h ↔
      ∀ p, Held t p → (t.socdWinner p = 1 ↔ h.lastInput p = (socdPairs p).2) := by
  have hrep := scan_reported n input s
  have hmode := (scan_mode n input s).trans hm
  dsimp only at hrep ⊢
  generalize (matrixScanCustom n input s).2 = t at hrep hmode ⊢
  refine forall_congr' fun p => ?_
  obtain ⟨ha, hb⟩ := suppressed_pair hmode p
  rw [Held, and_imp]
  refine forall_congr' fun h₁ => forall_congr' fun h₂ => ?_
  rw [hrep, hrep, h₁, h₂, Bool.true_and, Bool.true_and, Bool.not_eq_true', Bool.not_eq_true',
    Bool.eq_false_iff, Bool.eq_false_iff, ne_eq, ne_eq, ha, hb, lastInput_pair]
  simp only [h₁, h₂, true_and]
  grind

/-- What the session says of the holds of a state. -/
structure Session.Fits (h : Session) (s : HeState) : Prop where
  old : ∀ i x, h.since i = some x → x.scan ≤ h.scans
  idle : h.scans = 0 → ∀ i, h.since i = none
  /-- The winner of a pair is the last input of the session, if there is one. -/
  winner : ∀ p, Held s p →
    h.since (socdPairs p).1 ≠ none ∨ h.since (socdPairs p).2 ≠ none →
    (s.socdWinner p = 1 ↔ h.lastInput p = (socdPairs p).2)

theorem start_fits (s : HeState) : Session.start.Fits s where
  old i x h := by cases h
  idle _ _ := rfl
  winner p _ h := by rcases h with h | h <;> exact absurd rfl h

theorem socdUpdate_held (newA newB : Bool) (travelA travelB winner : UInt8) :
    socdUpdate newA newB true true travelA travelB winner =
      if newA && newB then (if travelB ≤ travelA then 0 else 1)
      else if newA then 0 else if newB then 1 else winner := by
  simp [socdUpdate]

theorem scan_fits (n : Nat) (input : ScanInput) {s : HeState} {h : Session}
    (hm : s.mode = .keyCancel) (hf : h.Fits s) :
    let t := (matrixScanCustom n input s).2
    (observe s t (.scan input) h).Fits t := by
  have hmode := (scan_mode n input s).trans hm
  have hwin := scan_winner n input s hm
  dsimp only at hwin ⊢
  generalize (matrixScanCustom n input s).2 = t at hmode hwin ⊢
  rw [observe, if_pos ⟨hm, hmode⟩, Step.isScan, if_pos rfl]
  refine ⟨fun i x hx => ?_, fun h => absurd h (Nat.succ_ne_zero _), fun p hp hs => ?_⟩
  · dsimp only at hx ⊢
    split at hx
    · split at hx
      · exact Nat.le_succ_of_le (hf.old i x hx)
      · cases hx
        exact Nat.le_refl _
    · cases hx
  · obtain ⟨ha, hb⟩ := hp
    have hne := (socdPairs_inj p p).1
    rw [hwin]
    simp only [ha, hb, if_true, Bool.true_and, socdUpdate_held, Session.lastInput] at hs ⊢
    cases hsa : s.debounced (socdPairs p).1 with
    | false =>
      cases hsb : s.debounced (socdPairs p).2 with
      | false =>
        by_cases hle : (t.config (socdPairs p).2).travel ≤ (t.config (socdPairs p).1).travel
        · simp [hle, hne]
        · simp [hle]
      | true =>
        -- the first key went down behind the second one
        cases hold : h.since (socdPairs p).2 with
        | none => simp [hne]
        | some x =>
          have := hf.old _ x hold
          simp [Nat.lt_succ_of_le this, hne]
    | true =>
      cases hsb : s.debounced (socdPairs p).2 with
      | false =>
        cases hold : h.since (socdPairs p).1 with
        | none => simp
        | some x =>
          have := hf.old _ x hold
          have hlt : ¬ h.scans+1 < x.scan := by omega
          have hxe : ¬ x.scan = h.scans+1 := by omega
          simp [hlt, hxe]
      | true =>
        simp only [hsa, hsb, if_true] at hs
        simpa [Session.lastInput] using hf.winner p ⟨hsa, hsb⟩ hs

theorem exec_fits (n : Nat) {s : HeState} {h : Session} (step : Step) (hf : h.Fits s) :
    (observe s (exec n s step) step h).Fits (exec n s step) := by
  by_cases hm : s.mode = .keyCancel ∧ (exec n s step).mode = .keyCancel
  · cases hs : step.isScan with
    | true =>
      cases step with
      | scan input => exact scan_fits n input hm.1 hf
      | _ => cases hs
    | false =>
      have hfr := exec_frame n s hs
      rw [observe, if_pos hm, hs, if_neg Bool.false_ne_true]
      exact ⟨hf.old, hf.idle, fun p hp => by
        rw [Held, hfr.debounced] at hp
        rw [hfr.winner]
        exact hf.winner p hp⟩
  · rw [observe, if_neg hm]
    exact start_fits _

theorem run_fits (n : Nat) (e : KbDatablock) (steps : List Step) :
    (sessionOf n e steps).Fits (run n steps (boot e)) := by
  induction steps using List.reverseRecOn with
  | nil => exact start_fits _
  | append_singleton steps step ih =>
    rw [sessionOf_snoc, run_snoc]
    exact exec_fits n step ih

theorem scan_winner_same (n : Nat) (input : ScanInput) {s : HeState} (hm : s.mode = .keyCancel)
    {p : Fin 2} (hs : Held s p) (ht : Held (matrixScanCustom n input s).2 p) :
    (matrixScanCustom n input s).2.socdWinner p = s.socdWinner p := by
  have hwin := scan_winner n input s hm p
  dsimp only at hwin
  rw [hwin, ht.1, ht.2, hs.1, hs.2, socdUpdate_held]
  rfl

theorem observe_since {s t : HeState} {input : ScanInput} {h : Session} {i : Sensor}
    (hs : s.mode = .keyCancel) (hm : t.mode = .keyCancel) (ht : t.debounced i = true) :
    (observe s t (.scan input) h).since i = none
      ↔ s.debounced i = true ∧ h.since i = none := by
  simp only [observe, hs, hm, and_self, if_true, Step.isScan, ht]
  cases s.debounced i <;> simp

variable (n : Nat) (e : KbDatablock)

/-- The first scan of a session finds both keys of a pair held, leaves them so, and a winner
is left over that is not the first key. -/
def StaleWinner (pre : List Step) (input : ScanInput) : Prop :=
  let s := run n pre (boot e)
  (sessionOf n e pre).scans = 0 ∧ ∃ p, Held s p ∧ Held (matrixScanCustom n input s).2 p
    ∧ s.socdWinner p = 1

/-- In the scans behind the first one of a session, a pair without an edge has no winner but
its first key. -/
theorem cold_start {steps : List Step}
    (hc : ∀ pre input, pre ++ [.scan input] <+: steps →
      (run n pre (boot e)).mode = .keyCancel → ¬ StaleWinner n e pre input)
    {pre : List Step} (hpre : pre <+: steps) (hs : (sessionOf n e pre).scans ≠ 0) (p : Fin 2)
    (hp : Held (run n pre (boot e)) p)
    (ha : (sessionOf n e pre).since (socdPairs p).1 = none)
    (hb : (sessionOf n e pre).since (socdPairs p).2 = none) :
    (run n pre (boot e)).socdWinner p ≠ 1 := by
  induction pre using List.reverseRecOn with
  | nil => exact absurd rfl hs
  | append_singleton pre step ih =>
    have hpre' := (List.prefix_append pre [step]).trans hpre
    rw [sessionOf_snoc, run_snoc] at hs ha hb
    rw [run_snoc] at hp ⊢
    by_cases hm : (run n pre (boot e)).mode = .keyCancel
        ∧ (exec n (run n pre (boot e)) step).mode = .keyCancel
    · cases hscan : step.isScan with
      | true =>
        cases step with
        | scan input =>
          have hp' : Held (matrixScanCustom n input (run n pre (boot e))).2 p := hp
          obtain ⟨hsa, ha'⟩ := (observe_since hm.1 hm.2 hp.1).mp ha
          obtain ⟨hsb, hb'⟩ := (observe_since hm.1 hm.2 hp.2).mp hb
          show (matrixScanCustom n input (run n pre (boot e))).2.socdWinner p ≠ 1
          rw [scan_winner_same n input hm.1 ⟨hsa, hsb⟩ hp']
          by_cases h0 : (sessionOf n e pre).scans = 0
          · exact fun hw => hc pre input hpre hm.1 ⟨h0, p, ⟨hsa, hsb⟩, hp', hw⟩
          · exact ih hpre' h0 ⟨hsa, hsb⟩ ha' hb'
        | _ => cases hscan
      | false =>
        have hfr := exec_frame n (run n pre (boot e)) hscan
        simp only [observe, if_pos hm, hscan, Bool.false_eq_true, if_false] at hs ha hb
        rw [hfr.winner]
        rw [Held, hfr.debounced] at hp
        exact ih hpre' hs hp ha hb
    · rw [observe, if_neg hm] at hs
      exact absurd rfl hs

/-- In every key-cancel scan of a run the last input of each pair wins, unless the winner of an
earlier session is met at the start of one. -/
theorem last_input_wins_iff (steps : List Step) :
    (∀ pre input, pre ++ [.scan input] <+: steps → (run n pre (boot e)).mode = .keyCancel →
      LastInputWins (run n (pre ++ [.scan input]) (boot e))
        (sessionOf n e (pre ++ [.scan input])))
    ↔ ∀ pre input, pre ++ [.scan input] <+: steps → (run n pre (boot e)).mode = .keyCancel →
      ¬ StaleWinner n e pre input := by
  have hsnoc := fun pre input => run_snoc n pre (.scan input) (boot e)
  constructor
  · rintro h pre input hpre hm ⟨h0, p, hs, ht, hw⟩
    have hwins := h pre input hpre hm
    rw [hsnoc] at hwins
    have hidle := (run_fits n e pre).idle h0
    have hmode := (scan_mode n input (run n pre (boot e))).trans hm
    have hlast := ((lastInputWins_iff n input hm _).mp hwins p ht).mp
      ((scan_winner_same n input hm hs ht).trans hw)
    have hnone : ∀ i, (run n pre (boot e)).debounced i = true →
        (matrixScanCustom n input (run n pre (boot e))).2.debounced i = true →
        (sessionOf n e (pre ++ [.scan input])).since i = none := fun i hi ht => by
      rw [sessionOf_snoc, hsnoc]
      exact (observe_since hm hmode ht).mpr ⟨hi, hidle i⟩
    rw [Session.lastInput, hnone _ hs.1 ht.1, hnone _ hs.2 ht.2] at hlast
    exact (socdPairs_inj p p).1 hlast
  · intro hc pre input hpre hm
    have hfits := run_fits n e (pre ++ [.scan input])
    have hmode := (scan_mode n input (run n pre (boot e))).trans hm
    have hscans : (sessionOf n e (pre ++ [.scan input])).scans ≠ 0 := by
      rw [sessionOf_snoc, hsnoc, observe, if_pos ⟨hm, hmode⟩]
      exact Nat.succ_ne_zero _
    have hcold := cold_start n e hc hpre hscans
    rw [hsnoc] at hfits hcold ⊢
    refine (lastInputWins_iff n input hm _).mpr fun p hp => ?_
    by_cases hnone : (sessionOf n e (pre ++ [.scan input])).since (socdPairs p).1 = none
        ∧ (sessionOf n e (pre ++ [.scan input])).since (socdPairs p).2 = none
    · have hne := hcold p hp hnone.1 hnone.2
      rw [Session.lastInput, hnone.1, hnone.2]
      exact ⟨fun hw => absurd hw hne, fun h => absurd h (socdPairs_inj p p).1⟩
    · exact hfits.winner p hp (by grind)

/-- The second key of the first pair is deeper than the first one. -/
def deeper : ScanInput :=
  ⟨fun i => if i = 32 then 2588 else if i = 34 then 2728 else 2028,false,0⟩

/-- Both keys go down in one session, the mode is left for a scan, and entered again. -/
def reentered : List Step :=
  [.setMode 2,.scan deeper,.scan deeper,.scan deeper,.scan deeper,.scan deeper,
    .setMode 0,.scan deeper,.setMode 2]

/-- The winner of the first session decides the second one. -/
theorem stale_winner_reported :
    let e : KbDatablock := ⟨eeconfigKbDataVersion,ByteMem.blank⟩
    let t := run heDebounce (reentered ++ [.scan deeper]) (boot e)
    (run heDebounce reentered (boot e)).mode = .keyCancel
      ∧ Held (run heDebounce reentered (boot e)) 0 ∧ Held t 0
      ∧ (∀ i, (sessionOf heDebounce e (reentered ++ [.scan deeper])).since i = none)
      ∧ reported t 34 = true ∧ reported t 32 = false
      ∧ ¬ LastInputWins t (sessionOf heDebounce e (reentered ++ [.scan deeper])) := by
  intro e t
  have hm : (run heDebounce reentered (boot e)).mode = .keyCancel := by decide +kernel
  have h₁ : Held (run heDebounce reentered (boot e)) 0 := by
    exact ⟨by decide +kernel, by decide +kernel⟩
  have h₂ : Held t 0 := by exact ⟨by decide +kernel, by decide +kernel⟩
  have hs : ∀ i, (sessionOf heDebounce e (reentered ++ [.scan deeper])).since i = none := by
    decide +kernel
  have hb : reported t 34 = true := by decide +kernel
  have ha : reported t 32 = false := by decide +kernel
  refine ⟨hm, h₁, h₂, hs, hb, ha, fun h => ?_⟩
  have hlast := (h 0 h₂.1 h₂.2).2.mp hb
  rw [Session.lastInput, hs, hs] at hlast
  cases hlast

end QmkFirmware.He
