import QmkFirmware.Tapping.Core

/-!
What one call to `process_tapping` can do. The branches of the source fall into a few
kinds; every invariant of the engine is a case analysis over these.
-/

set_option autoImplicit false

namespace QmkFirmware.Tapping

def State.active (s : State) : Bool := !s.tappingKey.event.isNoEvent

/-- The tapping key is pressed and still undecided between tap and hold. -/
def State.undecided (s : State) : Bool :=
  s.active && s.tappingKey.event.pressed && s.tappingKey.tap.count = 0

def interrupt (tk : KeyRecord) : KeyRecord := { tk with tap := { tk.tap with interrupted := true } }

def tapOnce (tk : KeyRecord) : KeyRecord := { tk with tap := { tk.tap with count := 1 } }

@[simp] theorem interrupt_event (tk : KeyRecord) : (interrupt tk).event = tk.event := rfl
@[simp] theorem interrupt_count (tk : KeyRecord) : (interrupt tk).tap.count = tk.tap.count := rfl
@[simp] theorem tapOnce_event (tk : KeyRecord) : (tapOnce tk).event = tk.event := rfl
@[simp] theorem tapOnce_count (tk : KeyRecord) : (tapOnce tk).tap.count = 1 := rfl
@[simp] theorem zero_isNoEvent : KeyRecord.zero.event.isNoEvent = true := rfl

def unregister (k : KeyRecord) (s : State) : State :=
  if s.active && s.tappingKey.event.pressed && 1 < s.tappingKey.tap.count then
    s.send (.synthesized (unregisterRecord s.tappingKey k.event.time))
  else s

variable (cfg : Config)

def settles (s : State) (k : KeyRecord) : Bool :=
  let tk := s.tappingKey
  if tk.event.isNoEvent then false
  else if tk.event.pressed then
    tk.tap.count = 0 && (!withinTappingTerm cfg tk k.event ||
      !k.event.isNoEvent &&
        (isTappingRecord tk k && !k.event.pressed
        || !k.event.pressed && waitingBufferTyped s.waitingBuffer k.event
          && cfg.permissiveHold tk
        || k.event.pressed && cfg.holdOnOtherKeyPress (interrupt tk)))
  else !withinTappingTerm cfg tk k.event

inductive Outcome (k : KeyRecord) (s : State) : Processed → Prop where
  | skip : k.event.isNoEvent = true → settles cfg s k = false → Outcome k s ⟨true,k,s⟩
  /-- An event that does not concern the tapping key goes through. -/
  | other (tk : KeyRecord) : k.event.isNoEvent = false → s.undecided = false →
      (k.event.pressed = true → isTapRecord cfg k = false) →
      (s.active = true → s.tappingKey.event.pressed = true →
        k.event.key = s.tappingKey.event.key → k.event.pressed = true) →
      tk = s.tappingKey ∨ tk = interrupt s.tappingKey →
      settles cfg s k = false →
      Outcome k s ⟨true,k,⟨tk,s.waitingBuffer,s.out ++ [.record k]⟩⟩
  /-- The release of a tapped key. -/
  | tapRelease (tk : KeyRecord) : k.event.isNoEvent = false → s.active = true →
      s.tappingKey.event.pressed = true → 0 < s.tappingKey.tap.count →
      k.event.key = s.tappingKey.event.key → k.event.pressed = false →
      tk = { k with tap := s.tappingKey.tap } ∨ tk = .zero → settles cfg s k = false →
      Outcome k s ⟨true,{ k with tap := s.tappingKey.tap },
        ⟨tk,s.waitingBuffer,s.out ++ [.record { k with tap := s.tappingKey.tap }]⟩⟩
  /-- A sequential tap. -/
  | again (tap : Tap) : k.event.isNoEvent = false → s.active = true →
      s.tappingKey.event.pressed = false → k.event.key = s.tappingKey.event.key →
      k.event.pressed = true → 1 < tap.count → settles cfg s k = false →
      Outcome k s ⟨true,{ k with tap := tap },
        ⟨{ k with tap := tap },s.waitingBuffer,s.out ++ [.record { k with tap := tap }]⟩⟩
  /-- A release that does not wait for the tapping key. -/
  | early : k.event.isNoEvent = false → s.undecided = true → k.event.pressed = false →
      waitingBufferTyped s.waitingBuffer k.event = false →
      k.event.key ≠ s.tappingKey.event.key → settles cfg s k = false →
      Outcome k s ⟨true,k,s.send (.early k)⟩
  /-- A press becomes the tapping key. -/
  | take : k.event.isNoEvent = false → s.undecided = false → k.event.pressed = true →
      isTapRecord cfg k = true → settles cfg s k = false →
      (s.active = true → s.tappingKey.event.pressed = false →
        k.event.key ≠ s.tappingKey.event.key) →
      Outcome k s ⟨true,k,waitingBufferScanTap cfg { unregister k s with tappingKey := k }⟩
  /-- The same key starts again, without a look at the buffer. -/
  | restart : k.event.isNoEvent = false → s.active = true →
      s.tappingKey.event.pressed = false → k.event.key = s.tappingKey.event.key →
      k.event.pressed = true → settles cfg s k = false →
      Outcome k s ⟨true,k,{ s with tappingKey := k }⟩
  /-- The event waits for the tapping key. -/
  | wait (tk : KeyRecord) : k.event.isNoEvent = false → s.undecided = true →
      ¬ (k.event.key = s.tappingKey.event.key ∧ k.event.pressed = false) →
      tk = s.tappingKey ∨ tk = interrupt s.tappingKey → settles cfg s k = false →
      Outcome k s ⟨false,k,{ s with tappingKey := tk }⟩
  /-- The tapping key is a hold. -/
  | settle (tk : KeyRecord) : s.undecided = true →
      tk = s.tappingKey ∨ tk = interrupt s.tappingKey → settles cfg s k = true →
      Outcome k s ⟨false,k,⟨.zero,s.waitingBuffer,s.out ++ [.record tk]⟩⟩
  /-- The tapping key is a tap. -/
  | firstTap : k.event.isNoEvent = false → s.undecided = true →
      k.event.key = s.tappingKey.event.key → k.event.pressed = false →
      settles cfg s k = true → withinTappingTerm cfg s.tappingKey k.event = true →
      Outcome k s ⟨false,{ k with tap := (tapOnce s.tappingKey).tap },
        ⟨tapOnce s.tappingKey,s.waitingBuffer,s.out ++ [.record (tapOnce s.tappingKey)]⟩⟩
  /-- The released tapping key has timed out. -/
  | expire : s.active = true → s.tappingKey.event.pressed = false → settles cfg s k = true →
      Outcome k s ⟨false,k,{ s with tappingKey := .zero }⟩

variable {cfg} {k : KeyRecord} {s : State}

theorem processReset_outcome (h : s.tappingKey.event.isNoEvent = true) :
    Outcome cfg k s (processReset cfg k s) := by
  have hs : settles cfg s k = false := by simp [settles, h]
  have hu : s.undecided = false := by simp [State.undecided, State.active, h]
  unfold processReset
  cases ht : k.event.isNoEvent with
  | true => exact .skip ht hs
  | false =>
    rw [if_neg (by simp)]
    by_cases hp : (k.event.pressed && isTapRecord cfg k) = true
    · rw [if_pos hp]
      rw [Bool.and_eq_true] at hp
      have hk : unregister k s = s := by simp [unregister, State.active, h]
      have := @Outcome.take cfg k s ht hu hp.1 hp.2 hs fun h₁ => by simp [State.active, h] at h₁
      rwa [hk] at this
    · rw [if_neg hp]
      refine .other s.tappingKey ht hu (fun h₁ => ?_) (fun h₁ => ?_) (.inl rfl) hs
      · simpa [h₁] using hp
      · simp [State.active, h] at h₁

theorem processUndecided_outcome (hu : s.undecided = true) (ht : k.event.isNoEvent = false)
    (hw : withinTappingTerm cfg s.tappingKey k.event = true) :
    Outcome cfg k s (processUndecided cfg k s) := by
  obtain ⟨⟨ha, hp⟩, hc⟩ : (s.active = true ∧ s.tappingKey.event.pressed = true)
      ∧ s.tappingKey.tap.count = 0 := by simpa [State.undecided] using hu
  have ha' : s.tappingKey.event.isNoEvent = false := by simpa [State.active] using ha
  have hs : settles cfg s k = (isTappingRecord s.tappingKey k && !k.event.pressed
        || !k.event.pressed && waitingBufferTyped s.waitingBuffer k.event
          && cfg.permissiveHold s.tappingKey
        || k.event.pressed && cfg.holdOnOtherKeyPress (interrupt s.tappingKey)) := by
    simp [settles, ha', hp, hc, hw, ht]
  unfold processUndecided
  cases hkp : k.event.pressed with
  | false =>
    simp only [hkp, Bool.not_false, Bool.and_true, Bool.true_and, Bool.false_and,
      Bool.or_false] at hs ⊢
    by_cases hk : isTappingRecord s.tappingKey k = true
    · rw [if_pos hk]
      exact .firstTap ht hu (by simpa [isTappingRecord, eq_comm] using hk) hkp (by simp [hs, hk])
        hw
    · rw [if_neg hk]
      rw [Bool.not_eq_true] at hk
      have hne : k.event.key ≠ s.tappingKey.event.key := by
        simpa [isTappingRecord, eq_comm] using hk
      cases hty : waitingBufferTyped s.waitingBuffer k.event with
      | true =>
        cases hph : cfg.permissiveHold s.tappingKey with
        | true => exact .settle _ hu (.inl rfl) (by simp [hs, hty, hph])
        | false => exact .wait _ ht hu (fun h => hne h.1) (.inl rfl) (by simp [hs, hk, hph])
      | false =>
        have hs' : settles cfg s k = false := by simp [hs, hk, hty]
        simp only [Bool.false_and, Bool.false_eq_true, if_false, Bool.not_false, if_true]
        split
        · exact .wait _ ht hu (fun h => hne h.1) (.inl rfl) hs'
        · exact .early ht hu hkp hty hne hs'
  | true =>
    simp only [hkp, Bool.not_true, Bool.and_false, Bool.false_and, Bool.true_and,
      Bool.false_or, Bool.false_eq_true, if_false, if_true] at hs ⊢
    split
    · rename_i hh
      exact .settle (interrupt s.tappingKey) hu (.inr rfl) (by rw [hs]; exact hh)
    · rename_i hh
      refine .wait (interrupt s.tappingKey) ht hu (fun h => ?_) (.inr rfl) ?_
      · rw [hkp] at h
        cases h.2
      · rw [hs]
        exact (Bool.not_eq_true _).mp hh

theorem processTapped_outcome {within : Bool} (ha : s.active = true)
    (hp : s.tappingKey.event.pressed = true) (hc : 0 < s.tappingKey.tap.count)
    (ht : k.event.isNoEvent = false) : Outcome cfg k s (processTapped cfg within k s) := by
  have hu : s.undecided = false := by simp [State.undecided]; omega
  have ha' : s.tappingKey.event.isNoEvent = false := by simpa [State.active] using ha
  have hs : settles cfg s k = false := by
    simp only [settles, ha', hp, Bool.false_eq_true, if_false, if_true]
    simp
    omega
  unfold processTapped
  by_cases hk : (isTappingRecord s.tappingKey k && !k.event.pressed) = true
  · simp only [hk, if_true]
    rw [Bool.and_eq_true, Bool.not_eq_true'] at hk
    refine .tapRelease _ ht ha hp hc (by simpa [isTappingRecord, eq_comm] using hk.1) hk.2 ?_ hs
    split
    · exact .inl rfl
    · exact .inr rfl
  · simp only [if_neg hk]
    by_cases ht' : (isTapRecord cfg k && k.event.pressed) = true
    · simp only [if_pos ht']
      rw [Bool.and_eq_true] at ht'
      have hun : (if 1 < s.tappingKey.tap.count then
          s.send (.synthesized (unregisterRecord s.tappingKey k.event.time)) else s)
          = unregister k s := by simp [unregister, ha, hp]
      rw [hun]
      exact .take ht hu ht'.2 ht'.1 hs fun _ h₁ => by simp [hp] at h₁
    · simp only [if_neg ht']
      refine .other s.tappingKey ht hu (fun h => ?_) (fun _ _ h => ?_) (.inl rfl) hs
      · simpa [h] using ht'
      · by_contra hf
        exact hk (by simp [isTappingRecord, h, hf])

theorem processPressed_outcome (ha : s.active = true) (hp : s.tappingKey.event.pressed = true) :
    Outcome cfg k s (processPressed cfg k s) := by
  have ha' : s.tappingKey.event.isNoEvent = false := by simpa [State.active] using ha
  unfold processPressed
  by_cases hc : s.tappingKey.tap.count = 0
  · have hu : s.undecided = true := by simp [State.undecided, ha, hp, hc]
    by_cases hw : withinTappingTerm cfg s.tappingKey k.event = true
    · simp only [hw, if_true, hc]
      cases ht : k.event.isNoEvent with
      | true => exact .skip ht (by simp [settles, ha', hp, hw, ht])
      | false => exact processUndecided_outcome hu ht hw
    · simp only [if_neg hw, if_pos hc]
      exact .settle _ hu (.inl rfl) (by simp [settles, ha', hp, hc, hw])
  · have hs : k.event.isNoEvent = true → settles cfg s k = false := fun _ => by
      simp [settles, ha', hp, hc]
    by_cases hw : withinTappingTerm cfg s.tappingKey k.event = true
    · simp only [hw, if_true, if_neg hc]
      cases ht : k.event.isNoEvent with
      | true => exact .skip ht (hs ht)
      | false => exact processTapped_outcome ha hp (by omega) ht
    · simp only [if_neg hw, if_neg hc]
      cases ht : k.event.isNoEvent with
      | true => exact .skip ht (hs ht)
      | false => exact processTapped_outcome ha hp (by omega) ht

theorem processReleased_outcome (ha : s.active = true)
    (hp : s.tappingKey.event.pressed = false) :
    Outcome cfg k s (processReleased cfg k s) := by
  have ha' : s.tappingKey.event.isNoEvent = false := by simpa [State.active] using ha
  have hu : s.undecided = false := by simp [State.undecided, hp]
  unfold processReleased
  by_cases hw : withinTappingTerm cfg s.tappingKey k.event = true
  · have hs : settles cfg s k = false := by simp [settles, ha', hp, hw]
    simp only [hw, if_true]
    cases ht : k.event.isNoEvent with
    | true => exact .skip ht hs
    | false =>
      cases hkp : k.event.pressed with
      | false =>
        exact .other s.tappingKey ht hu (fun h => by simp [hkp] at h)
          (fun _ h => by simp [hp] at h) (.inl rfl) hs
      | true =>
        simp only [if_true]
        by_cases hk : isTappingRecord s.tappingKey k = true
        · have hkey : k.event.key = s.tappingKey.event.key := by
            simpa [isTappingRecord, eq_comm] using hk
          simp only [hk, if_true]
          by_cases hq : (withinQuickTapTerm cfg s.tappingKey k.event
              && !s.tappingKey.tap.interrupted && decide (0 < s.tappingKey.tap.count)) = true
          · have hcount : 0 < s.tappingKey.tap.count := by
              rw [Bool.and_eq_true, decide_eq_true_eq] at hq
              exact hq.2
            simp only [if_pos hq]
            refine .again _ ht ha hp hkey hkp ?_ hs
            dsimp only
            split <;> omega
          · simp only [if_neg hq]
            exact .restart ht ha hp hkey hkp hs
        · simp only [if_neg hk]
          by_cases ht' : isTapRecord cfg k = true
          · simp only [ht', if_true]
            have hun : unregister k s = s := by simp [unregister, hp]
            have := @Outcome.take cfg k s ht hu hkp ht' hs fun _ _ h₁ => by
              simp [isTappingRecord, h₁] at hk
            rwa [hun] at this
          · simp only [if_neg ht']
            exact .other (interrupt s.tappingKey) ht hu (fun _ => by simpa using ht')
              (fun _ h => by simp [hp] at h) (.inr rfl) hs
  · simp only [if_neg hw]
    exact .expire ha hp (by simp [settles, ha', hp, hw])

theorem processTapping_outcome (k : KeyRecord) (s : State) :
    Outcome cfg k s (processTapping cfg k s) := by
  unfold processTapping
  cases ha : s.tappingKey.event.isNoEvent with
  | true => exact processReset_outcome ha
  | false =>
    have ha' : s.active = true := by simp [State.active, ha]
    cases hp : s.tappingKey.event.pressed with
    | true => exact processPressed_outcome ha' hp
    | false => exact processReleased_outcome ha' hp

end QmkFirmware.Tapping
