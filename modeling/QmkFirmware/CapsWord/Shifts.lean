import QmkFirmware.CapsWord.Core

/-!
The shifts that Caps Word takes are given back, and no report is left with one.
-/

set_option autoImplicit false

namespace QmkFirmware.CapsWord

open AutoShift (Side Has)

section
variable {κ : Type}

def AnyDown (p : Held → Prop) (down : κ → Option Held) : Prop := ∃ k h, down k = some h ∧ p h

def ShiftDown (side : Side) : (κ → Option Held) → Prop := AnyDown fun h => h.side = some side

def TakenDown (side : Side) : (κ → Option Held) → Prop :=
  AnyDown fun h => h.side = some side ∧ h.pressedOn = true

def OwedDown (side : Side) : (κ → Option Held) → Prop :=
  AnyDown fun h => h.side = some side ∧ h.owed = true

def Returned (v : World κ) : Prop :=
  (∀ side, ¬ ShiftDown side v.down) →
    v.state.heldMods = 0 ∧ v.state.mods &&& modMaskShift = 0 ∧ v.state.report.real &&& modMaskShift = 0

def HandedBack (v : World κ) : Prop := ∀ side, OwedDown side v.down → Has v.state.mods side

variable [DecidableEq κ] (idleTimeout : UInt16)

def Right (v : World κ) (input : Input κ) : Prop :=
  Returned (next idleTimeout v input) ∧ HandedBack (next idleTimeout v input)

def breaks (code : UInt8) (s : State) : Bool :=
  s.active && (decide (s.mods &&& ~~~(modMaskShift ||| modBit 0xE6) ≠ 0)
    || code != 0xE6 && !shifted code && !unshifted code)

/-- Caps Word is not toggled and does not time out while a shift is held that was pressed while it
was on; a word ends with all of these shifts in `held_mods`; and the last shift that is released
without a report is in no report. -/
def Clear (v : World κ) : Input κ → Prop
  | .task now => idle idleTimeout now v.state = true → ∀ side, ¬ TakenDown side v.down
  | .key k keycode _ =>
    match v.down k with
    | none =>
      match keycode with
      | .toggle => ∀ side, ¬ TakenDown side v.down
      | .code code => sideOf code = none → breaks code v.state = true →
        ∀ side, TakenDown side v.down → Has v.state.heldMods side
    | some h =>
      ∀ side, h.side = some side →
        ((v.state.active = true ∨ Has v.state.heldMods side) →
          (∀ side', ¬ ShiftDown side' (Function.update v.down k none)) →
            v.state.report.real &&& modMaskShift = 0)
        ∧ (v.state.active = false → ¬ TakenDown side (Function.update v.down k none))

end

section
variable {x y : BitVec 8} {side : Side}

theorem mask_bit : ∀ i < 8, modMaskShift.getLsbD i = true → ∃ side : Side, i = side.index := by
  intro i hi hbit
  have hcases : i = 1 ∨ i = 5 := by
    revert i
    decide
  exact hcases.elim (fun h => ⟨.left,h⟩) fun h => ⟨.right,h⟩

theorem has_mask : Has modMaskShift side := by cases side <;> decide

theorem mask_iff : x &&& modMaskShift = 0 ↔ ∀ side, ¬ Has x side := by
  constructor
  · intro h side hside
    have hbit : Has (x &&& modMaskShift) side := by
      rw [Has, BitVec.getLsbD_and, hside, has_mask]
      rfl
    rw [h] at hbit
    exact AutoShift.has_zero hbit
  · intro h
    refine BitVec.eq_of_getLsbD_eq fun i hi => (Bool.eq_false_iff.mpr fun hbit => ?_).trans
      BitVec.getLsbD_zero.symm
    obtain ⟨hx, hmask⟩ := (Bool.and_eq_true _ _).mp (BitVec.getLsbD_and ▸ hbit)
    obtain ⟨side, rfl⟩ := mask_bit i hi hmask
    exact h side hx

theorem has_modBit {code : UInt8} (hcode : isModifierKeycode code = true) (hs : sideOf code = none) :
    ¬ Has (modBit code) side := by
  simp only [isModifierKeycode, Bool.and_eq_true, decide_eq_true_eq, UInt8.le_iff_toNat_le] at hcode
  have hlo : 224 ≤ code.toNat := hcode.1
  have hhi : code.toNat ≤ 231 := hcode.2
  have hne : code.toNat ≠ 225 ∧ code.toNat ≠ 229 := by
    refine ⟨fun h => ?_,fun h => ?_⟩
    · rw [show code = 0xE1 from UInt8.toNat_inj.mp h] at hs
      simp [sideOf] at hs
    · rw [show code = 0xE5 from UInt8.toNat_inj.mp h] at hs
      simp [sideOf] at hs
  rw [Has, modBit, BitVec.getLsbD_twoPow, Bool.and_eq_true, decide_eq_true_eq, decide_eq_true_eq]
  cases side <;> simp only [Side.index] <;> omega

end

structure Same (s s' : State) : Prop where
  active : s'.active = s.active
  heldMods : s'.heldMods = s.heldMods
  mods : ∀ side, Has s'.mods side ↔ Has s.mods side
  report : ∀ side, Has s'.report.real side → Has s.report.real side ∨ Has s.mods side

section
variable {s s' s'' : State}

theorem Same.refl : Same s s := ⟨rfl,rfl,fun _ => Iff.rfl,fun _ => .inl⟩

theorem Same.trans (h : Same s s') (h' : Same s' s'') : Same s s'' :=
  ⟨h'.active.trans h.active,h'.heldMods.trans h.heldMods,
    fun side => (h'.mods side).trans (h.mods side),
    fun side hside => (h'.report side hside).elim (h.report side) fun hmods =>
      .inr ((h.mods side).mp hmods)⟩

theorem Same.send (h : Same s s') : Same s (sendKeyboardReport s') :=
  ⟨h.active,h.heldMods,h.mods,fun side hside => .inr ((h.mods side).mp hside)⟩

theorem Same.weak (h : Same s s') (weak : BitVec 8) : Same s { s' with weakMods := weak } :=
  ⟨h.active,h.heldMods,h.mods,h.report⟩

theorem Same.resetIdleTimer (h : Same s s') (idleTimeout now : UInt16) :
    Same s (capsWordResetIdleTimer idleTimeout now s') := by
  unfold capsWordResetIdleTimer
  split
  · exact ⟨h.active,h.heldMods,h.mods,h.report⟩
  · exact h

theorem Same.register (h : Same s s') {code : UInt8} (hs : sideOf code = none) :
    Same s (registerCode code s') := by
  unfold registerCode
  split_ifs with hbasic hmod
  · exact h.send
  · refine Same.send ⟨h.active,h.heldMods,fun side => ?_,h.report⟩
    rw [AutoShift.has_or, h.mods side]
    exact or_iff_left (has_modBit hmod hs)
  · exact h

theorem Same.unregister (h : Same s s') {code : UInt8} (hs : sideOf code = none) :
    Same s (unregisterCode code s') := by
  unfold unregisterCode
  split_ifs with hbasic hmod
  · exact h.send
  · refine Same.send ⟨h.active,h.heldMods,fun side => ?_,h.report⟩
    rw [AutoShift.has_del, h.mods side]
    exact and_iff_left (has_modBit hmod hs)
  · exact h

structure Ended (made : BitVec 8) (s s' : State) : Prop where
  was : s.active = true
  active : s'.active = false
  heldMods : s'.heldMods = s.heldMods
  mods : ∀ side, Has s'.mods side ↔ Has s.mods side ∨ Has made side
  report : ∀ side, Has s'.report.real side → Has s.mods side ∨ Has s'.mods side

theorem Ended.of_same {made : BitVec 8} (h : Same s s') (h' : Ended made s' s'') :
    Ended made s s'' :=
  ⟨h.active.symm.trans h'.was,h'.active,h'.heldMods.trans h.heldMods,
    fun side => (h'.mods side).trans (or_congr_left (h.mods side)),
    fun side hside => (h'.report side hside).imp_left (h.mods side).mp⟩

theorem Ended.then_same {made : BitVec 8} (h : Ended made s s') (h' : Same s' s'') :
    Ended made s s'' :=
  ⟨h.was,h'.active.trans h.active,h'.heldMods.trans h.heldMods,
    fun side => (h'.mods side).trans (h.mods side),
    fun side hside => (h'.report side hside).elim
      (fun hreport => (h.report side hreport).imp_right (h'.mods side).mpr)
      fun hmods => .inr ((h'.mods side).mpr hmods)⟩

theorem capsWordOff_ended (h : s.active = true) : Ended 0 s (capsWordOff s) := by
  rw [capsWordOff, if_pos h]
  exact ⟨h,rfl,rfl,fun side => (or_iff_left AutoShift.has_zero).symm,fun side => .inl⟩

theorem endWord_ended (h : s.active = true) : Ended s.heldMods s (endWord s) := by
  rw [endWord, capsWordOff, if_pos h]
  exact ⟨h,rfl,rfl,fun side => AutoShift.has_or,fun side => .inl⟩

section
variable {code : UInt8} {idleTimeout now : UInt16}

theorem pressInWord_same (h : breaks code s = false) (hactive : s.active = true) :
    Same s (pressInWord code s) := by
  rw [breaks, hactive, Bool.true_and, Bool.or_eq_false_iff, decide_eq_false_iff_not, not_not] at h
  rw [pressInWord, if_pos h.1]
  split_ifs with hralt
  · exact Same.refl
  · have hweak : ∀ weak, Same s { s with weakMods := weak } := Same.refl.weak
    have hcontinues : shifted code = false → unshifted code = true := by simpa [hralt] using h.2
    unfold capsWordPressUser
    split_ifs with hshifted
    · dsimp only
      split_ifs <;> exact (hweak _).send
    · rw [hcontinues (Bool.eq_false_iff.mpr hshifted)]
      dsimp only
      split_ifs <;> exact (hweak _).send

theorem pressInWord_ended (h : breaks code s = true) : Ended s.heldMods s (pressInWord code s) := by
  rw [breaks, Bool.and_eq_true, Bool.or_eq_true, decide_eq_true_eq] at h
  obtain ⟨hactive, hbreaks⟩ := h
  rw [pressInWord]
  split_ifs with hmods hralt
  · simp [hmods,hralt] at hbreaks
  · have hstops : shifted code = false ∧ unshifted code = false := by
      simpa [hmods,hralt] using hbreaks
    rw [capsWordPressUser, if_neg (by simp [hstops]), hstops.2]
    exact Ended.of_same (Same.refl.weak 0) (endWord_ended (s := { s with weakMods := 0 }) hactive)
  · exact endWord_ended hactive

theorem handleShift_other (hs : sideOf code = none) (pressed : Bool) :
    handleShift code pressed s = (true,s) := by rw [handleShift, hs]

theorem breaks_congr (hactive : s'.active = s.active) (hmods : s'.mods = s.mods) :
    breaks code s' = breaks code s := by rw [breaks, breaks, hactive, hmods]

theorem resetIdleTimer_active (idleTimeout now : UInt16) (s : State) :
    (capsWordResetIdleTimer idleTimeout now s).active = s.active := by
  unfold capsWordResetIdleTimer
  split <;> rfl

theorem resetIdleTimer_mods (idleTimeout now : UInt16) (s : State) :
    (capsWordResetIdleTimer idleTimeout now s).mods = s.mods := by
  unfold capsWordResetIdleTimer
  split <;> rfl

theorem resetIdleTimer_heldMods (idleTimeout now : UInt16) (s : State) :
    (capsWordResetIdleTimer idleTimeout now s).heldMods = s.heldMods := by
  unfold capsWordResetIdleTimer
  split <;> rfl

theorem press_same (hs : sideOf code = none) (h : breaks code s = false) :
    Same s (processRecord idleTimeout (.code code) true now s) := by
  have hweak : Same s { s with weakMods := 0 } := Same.refl.weak 0
  simp only [processRecord, processCapsWord, handleShift_other hs, if_true]
  split_ifs with hactive
  · refine Same.register ?_ hs
    refine (hweak.resetIdleTimer idleTimeout now).trans (pressInWord_same ?_ ?_)
    · rwa [breaks_congr (resetIdleTimer_active _ _ _) (resetIdleTimer_mods _ _ _)]
    · rwa [resetIdleTimer_active]
  · exact hweak.register hs

theorem release_same (hs : sideOf code = none) :
    Same s (processRecord idleTimeout (.code code) false now s) := by
  simp only [processRecord, processCapsWord, handleShift_other hs, Bool.false_eq_true, if_false]
  split_ifs with hactive
  · exact (Same.refl.resetIdleTimer idleTimeout now).unregister hs
  · exact Same.refl.unregister hs

theorem press_ended (hs : sideOf code = none) (h : breaks code s = true) :
    Ended s.heldMods s (processRecord idleTimeout (.code code) true now s) := by
  have hactive : s.active = true := ((Bool.and_eq_true _ _).mp h).1
  have hreset : Same s (capsWordResetIdleTimer idleTimeout now { s with weakMods := 0 }) :=
    (Same.refl.weak 0).resetIdleTimer idleTimeout now
  simp only [processRecord, processCapsWord, handleShift_other hs, if_true]
  rw [if_pos hactive]
  refine Ended.then_same ?_ (Same.refl.register hs)
  have hended : Ended (capsWordResetIdleTimer idleTimeout now { s with weakMods := 0 }).heldMods _
      (pressInWord code (capsWordResetIdleTimer idleTimeout now { s with weakMods := 0 })) :=
    pressInWord_ended ?_
  · rw [resetIdleTimer_heldMods] at hended
    exact hended.of_same hreset
  · rwa [breaks_congr (resetIdleTimer_active _ _ _) (resetIdleTimer_mods _ _ _)]

end

end

structure Pressed (side : Side) (s s' : State) : Prop where
  active : s'.active = s.active
  held : ∀ i, s'.heldMods.getLsbD i = true → s.heldMods.getLsbD i = true ∨ i = side.index
  mods : ∀ side', Has s'.mods side' → Has s.mods side' ∨ s.active = false ∧ side' = side
  kept : ∀ side', Has s.mods side' → Has s'.mods side'

structure Released (side : Side) (s s' : State) : Prop where
  active : s'.active = s.active
  held : ∀ i, s'.heldMods.getLsbD i = true → s.heldMods.getLsbD i = true ∧ i ≠ side.index
  mods : ∀ side', Has s'.mods side' ↔ Has s.mods side' ∧ (s.active = true ∨ side' ≠ side)
  silent : s.active = true ∨ Has s.heldMods side → s'.report = s.report
  sent : s.active = false → ¬ Has s.heldMods side → s'.report.real = s'.mods

section
variable {s : State} {code : UInt8} {side : Side} {idleTimeout now : UInt16} {x : BitVec 8} {i : Nat}

theorem sideOf_some (hs : sideOf code = some side) :
    isBasicKeycode code = false ∧ isModifierKeycode code = true ∧ modBit code = side.bit := by
  unfold sideOf at hs
  split_ifs at hs with hleft hright
  · cases hs
    subst hleft
    decide
  · cases hs
    subst hright
    decide

theorem registerCode_shift (hs : sideOf code = some side) :
    registerCode code s = sendKeyboardReport { s with mods := s.mods ||| side.bit } := by
  obtain ⟨hbasic, hmod, hbit⟩ := sideOf_some hs
  rw [registerCode, hbasic, hmod, hbit, if_neg Bool.false_ne_true, if_pos rfl]

theorem unregisterCode_shift (hs : sideOf code = some side) :
    unregisterCode code s = sendKeyboardReport { s with mods := s.mods &&& ~~~side.bit } := by
  obtain ⟨hbasic, hmod, hbit⟩ := sideOf_some hs
  rw [unregisterCode, hbasic, hmod, hbit, if_neg Bool.false_ne_true, if_pos rfl]

theorem bit_or (h : (x ||| side.bit).getLsbD i = true) : x.getLsbD i = true ∨ i = side.index := by
  rw [BitVec.getLsbD_or, Bool.or_eq_true, AutoShift.Side.bit, BitVec.getLsbD_twoPow,
    Bool.and_eq_true, decide_eq_true_eq, decide_eq_true_eq] at h
  exact h.imp_right fun hi => hi.2.symm

theorem bit_del (h : (x &&& ~~~side.bit).getLsbD i = true) :
    x.getLsbD i = true ∧ i ≠ side.index := by
  rw [BitVec.getLsbD_and, Bool.and_eq_true] at h
  refine ⟨h.1,?_⟩
  rintro rfl
  have hself : Has side.bit side := AutoShift.has_bit.mpr rfl
  have hbit : side.bit.getLsbD side.index = true := hself
  simp [hbit] at h

theorem shift_pressed (hs : sideOf code = some side) :
    Pressed side s (processRecord idleTimeout (.code code) true now s) := by
  simp only [processRecord, processCapsWord, handleShift, hs, if_true]
  split_ifs with hactive hheld
  · exact ⟨rfl,fun i => bit_or,fun side' => .inl,fun side' => id⟩
  · have hoff : s.active = false := Bool.eq_false_iff.mpr hactive
    simp only [hoff, Bool.false_eq_true, if_false, registerCode_shift hs]
    refine ⟨hoff.symm,fun i hi => .inl (bit_del hi).1,fun side' hside => ?_,fun side' hside => ?_⟩
    · rcases AutoShift.has_or.mp hside with hdel | hbit
      · exact .inl (AutoShift.has_del.mp hdel).1
      · exact .inr ⟨hoff,AutoShift.has_bit.mp hbit⟩
    · by_cases heq : side' = side
      · exact AutoShift.has_or.mpr (.inr (AutoShift.has_bit.mpr heq))
      · exact AutoShift.has_or.mpr (.inl (AutoShift.has_del.mpr
          ⟨hside,mt AutoShift.has_bit.mp heq⟩))
  · have hoff : s.active = false := Bool.eq_false_iff.mpr hactive
    simp only [hoff, Bool.false_eq_true, if_false, registerCode_shift hs]
    exact ⟨hoff.symm,fun i => .inl,fun side' hside => (AutoShift.has_or.mp hside).imp_right fun hbit =>
      ⟨hoff,AutoShift.has_bit.mp hbit⟩,fun side' hside => AutoShift.has_or.mpr (.inl hside)⟩

theorem shift_released (hs : sideOf code = some side) :
    Released side s (processRecord idleTimeout (.code code) false now s) := by
  simp only [processRecord, processCapsWord, handleShift, hs, Bool.false_eq_true, if_false]
  split_ifs with hactive hheld
  · exact ⟨rfl,fun i => bit_del,fun side' => (and_iff_left (.inl hactive)).symm,fun _ => rfl,
      fun hoff => absurd hactive (by simp [hoff])⟩
  · have hhas : Has s.heldMods side := AutoShift.and_bit.mp hheld
    refine ⟨rfl,fun i => bit_del,fun side' => ?_,fun _ => rfl,fun _ hnot => absurd hhas hnot⟩
    rw [AutoShift.has_del, AutoShift.has_bit]
    simp [hactive]
  · have hhas : ¬ Has s.heldMods side := mt AutoShift.and_bit.mpr hheld
    have hoff : s.active = false := Bool.eq_false_iff.mpr hactive
    simp only [hoff, Bool.false_eq_true, if_false, unregisterCode_shift hs]
    refine ⟨hoff.symm,fun i hi => ⟨hi,?_⟩,fun side' => ?_,fun hor => ?_,fun _ _ => rfl⟩
    · rintro rfl
      exact hhas hi
    · show Has (s.mods &&& ~~~side.bit) side' ↔ _
      rw [AutoShift.has_del, AutoShift.has_bit]
      simp [hoff]
    · exact hor.elim (fun hon => absurd hon hactive) fun h => absurd h hhas

end

section
variable {κ : Type} {down : κ → Option Held} {p : Held → Prop} {h : Held} {k : κ} {side : Side}

theorem marked_false : marked false down = down := by
  funext k
  cases hk : down k <;> simp [marked,hk]

theorem marked_none {turnedOff : Bool} (hk : down k = none) : marked turnedOff down k = none := by
  rw [marked, hk]
  rfl

theorem anyDown_marked {turnedOff : Bool} : AnyDown p (marked turnedOff down)
    ↔ AnyDown (fun h => p { h with owed := h.owed || turnedOff && h.pressedOn }) down := by
  constructor
  · rintro ⟨k, h, hk, hp⟩
    obtain ⟨h, hdown, rfl⟩ := Option.map_eq_some_iff.mp hk
    exact ⟨k,h,hdown,hp⟩
  · rintro ⟨k, h, hk, hp⟩
    exact ⟨k,_,Option.map_eq_some_iff.mpr ⟨h,hk,rfl⟩,hp⟩

theorem shiftDown_marked {turnedOff : Bool} :
    ShiftDown side (marked turnedOff down) ↔ ShiftDown side down := anyDown_marked

theorem owedDown_marked :
    OwedDown side (marked true down) ↔ OwedDown side down ∨ TakenDown side down := by
  rw [OwedDown, anyDown_marked]
  constructor
  · rintro ⟨k, h, hk, hside, howed⟩
    rw [Bool.true_and, Bool.or_eq_true] at howed
    exact howed.imp (fun howed => ⟨k,h,hk,hside,howed⟩) fun hon => ⟨k,h,hk,hside,hon⟩
  · rintro (⟨k, h, hk, hside, howed⟩ | ⟨k, h, hk, hside, hon⟩)
    · exact ⟨k,h,hk,hside,by simp [howed]⟩
    · exact ⟨k,h,hk,hside,by simp [hon]⟩

variable [DecidableEq κ]

theorem anyDown_press (hk : down k = none) :
    AnyDown p (Function.update down k (some h)) ↔ AnyDown p down ∨ p h := by
  constructor
  · rintro ⟨k', h', hk', hp⟩
    by_cases heq : k' = k
    · subst heq
      rw [Function.update_self] at hk'
      exact .inr (Option.some_inj.mp hk' ▸ hp)
    · rw [Function.update_of_ne heq] at hk'
      exact .inl ⟨k',h',hk',hp⟩
  · rintro (⟨k', h', hk', hp⟩ | hp)
    · have hne : k' ≠ k := by
        rintro rfl
        simp [hk] at hk'
      exact ⟨k',h',by rwa [Function.update_of_ne hne],hp⟩
    · exact ⟨k,h,Function.update_self ..,hp⟩

theorem anyDown_of_release (hany : AnyDown p (Function.update down k none)) : AnyDown p down := by
  obtain ⟨k', h', hk', hp⟩ := hany
  by_cases heq : k' = k
  · subst heq
    simp at hk'
  · rw [Function.update_of_ne heq] at hk'
    exact ⟨k',h',hk',hp⟩

theorem anyDown_release (hk : down k = some h) (hp : ¬ p h) :
    AnyDown p (Function.update down k none) ↔ AnyDown p down := by
  refine ⟨anyDown_of_release,?_⟩
  rintro ⟨k', h', hk', hp'⟩
  have hne : k' ≠ k := by
    rintro rfl
    exact hp (Option.some_inj.mp (hk.symm.trans hk') ▸ hp')
  exact ⟨k',h',by rwa [Function.update_of_ne hne],hp'⟩

structure SameShifts (down down' : κ → Option Held) : Prop where
  shift : ∀ side, ShiftDown side down' ↔ ShiftDown side down
  taken : ∀ side, TakenDown side down' ↔ TakenDown side down
  owed : ∀ side, OwedDown side down' ↔ OwedDown side down

theorem sameShifts_press (hk : down k = none) (hside : h.side = none) :
    SameShifts down (Function.update down k (some h)) := by
  have hne : ∀ side, h.side ≠ some side := fun side heq => by simp [hside] at heq
  exact ⟨fun side => (anyDown_press hk).trans (or_iff_left (hne side)),
    fun side => (anyDown_press hk).trans (or_iff_left fun hp => hne side hp.1),
    fun side => (anyDown_press hk).trans (or_iff_left fun hp => hne side hp.1)⟩

theorem sameShifts_release (hk : down k = some h) (hside : h.side = none) :
    SameShifts down (Function.update down k none) := by
  have hne : ∀ side, h.side ≠ some side := fun side heq => by simp [hside] at heq
  exact ⟨fun side => anyDown_release hk (hne side),
    fun side => anyDown_release hk fun hp => hne side hp.1,
    fun side => anyDown_release hk fun hp => hne side hp.1⟩

def AllDown (p : Held → Prop) (down : κ → Option Held) : Prop := ∀ k h, down k = some h → p h

theorem AllDown.press (hall : AllDown p down) (hp : p h) :
    AllDown p (Function.update down k (some h)) := by
  intro k' h' hk'
  by_cases heq : k' = k
  · subst heq
    rw [Function.update_self] at hk'
    exact Option.some_inj.mp hk' ▸ hp
  · rw [Function.update_of_ne heq] at hk'
    exact hall k' h' hk'

theorem AllDown.release (hall : AllDown p down) : AllDown p (Function.update down k none) := by
  intro k' h' hk'
  by_cases heq : k' = k
  · subst heq
    simp at hk'
  · rw [Function.update_of_ne heq] at hk'
    exact hall k' h' hk'

end

section
variable {κ : Type} {down : κ → Option Held} {h : Held} {side : Side}

/-- A shift key that was pressed while Caps Word was on is owed as long as it is off. -/
structure Held.Fits (active : Bool) (h : Held) : Prop where
  owed : h.owed = true → h.pressedOn = true
  taken : active = false → h.side ≠ none → h.pressedOn = true → h.owed = true

theorem Held.Fits.turnedOn (hfits : h.Fits false) : h.Fits true :=
  ⟨hfits.owed,fun hfalse => absurd hfalse (by simp)⟩

theorem fits_new (keycode : Keycode) (active : Bool) : Held.Fits active ⟨keycode,active,false⟩ :=
  ⟨fun howed => absurd howed (by simp),fun hoff _ hon => absurd hon (by simp [hoff])⟩

theorem fits_marked (hall : AllDown (Held.Fits true) down) :
    AllDown (Held.Fits false) (marked true down) := by
  intro k h hk
  obtain ⟨h, hdown, rfl⟩ := Option.map_eq_some_iff.mp hk
  refine ⟨fun howed => ?_,fun _ _ hon => ?_⟩
  · simp only [Bool.true_and, Bool.or_eq_true] at howed
    exact howed.elim (hall k h hdown).owed id
  · simp only [Bool.true_and, Bool.or_eq_true]
    exact .inr hon

theorem owed_iff_taken (hall : AllDown (Held.Fits false) down) :
    OwedDown side down ↔ TakenDown side down := by
  constructor
  · rintro ⟨k, h, hk, hside, howed⟩
    exact ⟨k,h,hk,hside,(hall k h hk).owed howed⟩
  · rintro ⟨k, h, hk, hside, hon⟩
    exact ⟨k,h,hk,hside,(hall k h hk).taken rfl (by simp [hside]) hon⟩

/-- What holds in every state: the shifts that are stored and that are real are those of keys that
are down, and the marks of a key belong together. -/
structure Base (v : World κ) : Prop where
  held : ∀ i, v.state.heldMods.getLsbD i = true → ∃ side : Side, i = side.index ∧ ShiftDown side v.down
  mods : ∀ side, Has v.state.mods side → v.state.active = false ∧ ShiftDown side v.down
  fits : AllDown (Held.Fits v.state.active) v.down

def ReportReturned (v : World κ) : Prop :=
  (∀ side, ¬ ShiftDown side v.down) → v.state.report.real &&& modMaskShift = 0

structure Inv (v : World κ) : Prop extends Base v where
  report : ReportReturned v
  handed : HandedBack v

theorem Base.returned_iff {v : World κ} (hv : Base v) : Returned v ↔ ReportReturned v := by
  refine forall_congr' fun hnone => ?_
  have hheld : v.state.heldMods = 0 := by
    refine BitVec.eq_of_getLsbD_eq fun i hi => (Bool.eq_false_iff.mpr fun hbit => ?_).trans
      BitVec.getLsbD_zero.symm
    obtain ⟨side, -, hside⟩ := hv.held i hbit
    exact hnone side hside
  have hmods : v.state.mods &&& modMaskShift = 0 :=
    mask_iff.mpr fun side hside => hnone side (hv.mods side hside).2
  exact ⟨fun h => h.2.2,fun h => ⟨hheld,hmods,h⟩⟩

theorem index_inj : ∀ side side' : Side, side.index = side'.index → side = side' := by
  rintro (_ | _) (_ | _) <;> simp [Side.index]

section
variable {v : World κ} {s' : State} {down' : κ → Option Held}

theorem Base.held_down (hv : Base v) (hhas : Has v.state.heldMods side) : ShiftDown side v.down := by
  obtain ⟨side', heq, hdown⟩ := hv.held _ hhas
  exact index_inj _ _ heq ▸ hdown

theorem Base.off_of_mods (hv : Base v) (hactive : v.state.active = true) :
    ¬ Has v.state.mods side := fun hhas => by simp [(hv.mods side hhas).1] at hactive

theorem Inv.report_mods (hv : Inv v) (hnone : ∀ side, ¬ ShiftDown side v.down) :
    ¬ Has v.state.report.real side ∧ ¬ Has v.state.mods side :=
  ⟨mask_iff.mp (hv.report hnone) side,fun hhas => hnone side (hv.mods side hhas).2⟩

theorem Inv.same (hv : Inv v) (hs : Same v.state s') (hdown : SameShifts v.down down')
    (hfits : AllDown (Held.Fits v.state.active) down') : Inv ⟨s',down'⟩ := by
  refine ⟨⟨fun i hi => ?_,fun side hside => ?_,?_⟩,fun hnone => ?_,fun side hside => ?_⟩
  · obtain ⟨side, heq, hside⟩ := hv.held i (hs.heldMods ▸ hi)
    exact ⟨side,heq,(hdown.shift side).mpr hside⟩
  · obtain ⟨hoff, hshift⟩ := hv.mods side ((hs.mods side).mp hside)
    exact ⟨hs.active.trans hoff,(hdown.shift side).mpr hshift⟩
  · rwa [hs.active]
  · have hbefore : ∀ side, ¬ ShiftDown side v.down := fun side hside =>
      hnone side ((hdown.shift side).mpr hside)
    exact mask_iff.mpr fun side hside => (hs.report side hside).elim
      (hv.report_mods hbefore).1 (hv.report_mods hbefore).2
  · exact (hs.mods side).mpr (hv.handed side ((hdown.owed side).mp hside))

theorem Inv.ended (hv : Inv v) {made : BitVec 8} (hs : Ended made v.state s')
    (hmade : ∀ side, Has made side → Has v.state.heldMods side)
    (hdown : SameShifts (marked true v.down) down') (hfits : AllDown (Held.Fits false) down') :
    Base ⟨s',down'⟩ ∧ ReportReturned ⟨s',down'⟩
      ∧ (HandedBack ⟨s',down'⟩ ↔ ∀ side, TakenDown side v.down → Has made side) := by
  have hshift : ∀ side, ShiftDown side down' ↔ ShiftDown side v.down := fun side =>
    (hdown.shift side).trans shiftDown_marked
  have howed : ∀ side, OwedDown side down' ↔ OwedDown side v.down ∨ TakenDown side v.down :=
    fun side => (hdown.owed side).trans owedDown_marked
  have hmods : ∀ side, Has s'.mods side ↔ Has made side := fun side =>
    (hs.mods side).trans (or_iff_right (hv.off_of_mods hs.was))
  have hmodsDown : ∀ side, Has s'.mods side → ShiftDown side down' := fun side hside =>
    (hshift side).mpr (hv.held_down (hmade side ((hmods side).mp hside)))
  refine ⟨⟨fun i hi => ?_,fun side hside => ⟨hs.active,hmodsDown side hside⟩,?_⟩,fun hnone => ?_,?_⟩
  · obtain ⟨side, heq, hside⟩ := hv.held i (hs.heldMods ▸ hi)
    exact ⟨side,heq,(hshift side).mpr hside⟩
  · rwa [hs.active]
  · exact mask_iff.mpr fun side hside => (hs.report side hside).elim (hv.off_of_mods hs.was)
      fun hhas => hnone side (hmodsDown side hhas)
  · refine forall_congr' fun side => ?_
    rw [howed, hmods]
    refine ⟨fun h htaken => h (.inr htaken),fun h hor => ?_⟩
    exact hor.elim (fun howed => absurd (hv.handed side howed) (hv.off_of_mods hs.was)) h

theorem Inv.turnedOn (hv : Inv v) (hoff : v.state.active = false) (hactive : s'.active = true)
    (hheld : s'.heldMods = v.state.heldMods) (hmods : s'.mods = 0)
    (hreport : s'.report = v.state.report) (hdown : SameShifts v.down down')
    (hfits : AllDown (Held.Fits true) down') :
    Base ⟨s',down'⟩ ∧ ReportReturned ⟨s',down'⟩
      ∧ (HandedBack ⟨s',down'⟩ ↔ ∀ side, ¬ TakenDown side v.down) := by
  have hnot : ∀ side, ¬ Has s'.mods side := fun side => by
    rw [hmods]
    exact AutoShift.has_zero
  refine ⟨⟨fun i hi => ?_,fun side hside => absurd hside (hnot side),?_⟩,fun hnone => ?_,?_⟩
  · obtain ⟨side, heq, hside⟩ := hv.held i (hheld ▸ hi)
    exact ⟨side,heq,(hdown.shift side).mpr hside⟩
  · rwa [hactive]
  · show s'.report.real &&& modMaskShift = 0
    rw [hreport]
    exact hv.report fun side hside => hnone side ((hdown.shift side).mpr hside)
  · refine forall_congr' fun side => ?_
    rw [hdown.owed, owed_iff_taken (hoff ▸ hv.fits)]
    exact imp_congr_right fun _ => iff_of_false (hnot side) id

variable [DecidableEq κ] {k : κ}

theorem Inv.pressed (hv : Inv v) (hk : v.down k = none) (hside : h.side = some side)
    (howed : h.owed = false) (hs : Pressed side v.state s') (hfits : h.Fits v.state.active) :
    Inv ⟨s',Function.update v.down k (some h)⟩ := by
  have hshift : ∀ side', ShiftDown side' (Function.update v.down k (some h))
      ↔ ShiftDown side' v.down ∨ h.side = some side' := fun side' => anyDown_press hk
  have hself : ShiftDown side (Function.update v.down k (some h)) := (hshift side).mpr (.inr hside)
  refine ⟨⟨fun i hi => ?_,fun side' hhas => ?_,?_⟩,fun hnone => absurd hself (hnone side),
    fun side' hany => ?_⟩
  · rcases hs.held i hi with hbefore | heq
    · obtain ⟨side', heq, hdown⟩ := hv.held i hbefore
      exact ⟨side',heq,(hshift side').mpr (.inl hdown)⟩
    · exact ⟨side,heq,hself⟩
  · rcases hs.mods side' hhas with hbefore | ⟨hoff, rfl⟩
    · obtain ⟨hoff, hdown⟩ := hv.mods side' hbefore
      exact ⟨hs.active.trans hoff,(hshift side').mpr (.inl hdown)⟩
    · exact ⟨hs.active.trans hoff,hself⟩
  · rw [hs.active]
    exact hv.fits.press hfits
  · have hbefore : OwedDown side' v.down := ((anyDown_press hk).mp hany).resolve_right fun hnew => by
      simp [howed] at hnew
    exact hs.kept side' (hv.handed side' hbefore)

theorem Inv.released (hv : Inv v) (hk : v.down k = some h) (hside : h.side = some side)
    (hs : Released side v.state s') :
    Base ⟨s',Function.update v.down k none⟩
      ∧ (ReportReturned ⟨s',Function.update v.down k none⟩
        ↔ ((v.state.active = true ∨ Has v.state.heldMods side) →
          (∀ side', ¬ ShiftDown side' (Function.update v.down k none)) →
            v.state.report.real &&& modMaskShift = 0))
      ∧ (HandedBack ⟨s',Function.update v.down k none⟩
        ↔ (v.state.active = false → ¬ TakenDown side (Function.update v.down k none))) := by
  have hother : ∀ side', side' ≠ side →
      (ShiftDown side' (Function.update v.down k none) ↔ ShiftDown side' v.down) := fun side' hne =>
    anyDown_release hk fun heq => hne (Option.some_inj.mp (heq.symm.trans hside))
  have hmodsDown : ∀ side', Has s'.mods side' →
      s'.active = false ∧ ShiftDown side' (Function.update v.down k none) := by
    intro side' hhas
    obtain ⟨hbefore, hne⟩ := (hs.mods side').mp hhas
    obtain ⟨hoff, hdown⟩ := hv.mods side' hbefore
    exact ⟨hs.active.trans hoff,(hother side' (hne.resolve_left (by simp [hoff]))).mpr hdown⟩
  refine ⟨⟨fun i hi => ?_,hmodsDown,?_⟩,⟨fun hreport hsilent hnone => ?_,fun hclear hnone => ?_⟩,
    ⟨fun hhanded hoff htaken => ?_,fun hclear side' howed => ?_⟩⟩
  · obtain ⟨hbefore, hne⟩ := hs.held i hi
    obtain ⟨side', rfl, hdown⟩ := hv.held i hbefore
    refine ⟨side',rfl,(hother side' ?_).mpr hdown⟩
    rintro rfl
    exact hne rfl
  · rw [hs.active]
    exact hv.fits.release
  · exact hs.silent hsilent ▸ hreport hnone
  · by_cases hsilent : v.state.active = true ∨ Has v.state.heldMods side
    · show s'.report.real &&& modMaskShift = 0
      rw [hs.silent hsilent]
      exact hclear hsilent hnone
    · rw [not_or, Bool.not_eq_true] at hsilent
      show s'.report.real &&& modMaskShift = 0
      rw [hs.sent hsilent.1 hsilent.2]
      exact mask_iff.mpr fun side' hhas => hnone side' (hmodsDown side' hhas).2
  · have howed := (owed_iff_taken (hoff ▸ hv.fits.release)).mpr htaken
    exact ((hs.mods side).mp (hhanded side howed)).2.elim (fun hon => by simp [hoff] at hon)
      fun hne => hne rfl
  · have hbefore : Has v.state.mods side' := hv.handed side' (anyDown_of_release howed)
    have hoff : v.state.active = false := (hv.mods side' hbefore).1
    refine (hs.mods side').mpr ⟨hbefore,.inr ?_⟩
    rintro rfl
    exact hclear hoff ((owed_iff_taken (hoff ▸ hv.fits.release)).mp howed)

end

end

section
variable {κ : Type} [DecidableEq κ] {v : World κ} {k : κ} {h : Held} {side : Side}
  {idleTimeout : UInt16}

theorem task_step (hv : Inv v) (now : UInt16) : Base (next idleTimeout v (.task now))
    ∧ (ReportReturned (next idleTimeout v (.task now)) ∧ HandedBack (next idleTimeout v (.task now))
      ↔ Clear idleTimeout v (.task now)) := by
  cases hidle : idle idleTimeout now v.state with
  | false =>
    have hsame : next idleTimeout v (.task now) = v := by
      simp only [next, capsWordTask, hidle, Bool.false_eq_true, if_false, Bool.and_not_self,
        marked_false]
    rw [hsame]
    exact ⟨hv.toBase,iff_of_true ⟨hv.report,hv.handed⟩ fun h => absurd h (by simp [hidle])⟩
  | true =>
    have hactive : v.state.active = true := by
      simp only [idle, Bool.and_eq_true] at hidle
      exact hidle.1.2
    have hs : Ended 0 v.state (capsWordOff v.state) := capsWordOff_ended hactive
    have hnext : next idleTimeout v (.task now) = ⟨capsWordOff v.state,marked true v.down⟩ := by
      simp only [next, capsWordTask, hidle, if_true, hs.active, hactive, Bool.not_false,
        Bool.and_self]
    obtain ⟨hbase, hreport, hhanded⟩ := hv.ended hs (fun side h => absurd h AutoShift.has_zero)
      ⟨fun _ => Iff.rfl,fun _ => Iff.rfl,fun _ => Iff.rfl⟩ (fits_marked (hactive ▸ hv.fits))
    rw [hnext]
    refine ⟨hbase,(and_iff_right hreport).trans (hhanded.trans ?_)⟩
    simp only [Clear, hidle, forall_const, AutoShift.has_zero]

theorem press_step_same (hv : Inv v) (hk : v.down k = none) {keycode : Keycode} {now : UInt16}
    (hside : (Held.mk keycode v.state.active false).side = none)
    (hs : Same v.state (processRecord idleTimeout keycode true now v.state)) :
    Inv (next idleTimeout v (.key k keycode now)) := by
  simp only [next, hk, hs.active, Bool.and_not_self, marked_false]
  exact hv.same hs (sameShifts_press hk hside) (hv.fits.press (fits_new _ _))

theorem press_step_ended (hv : Inv v) (hk : v.down k = none) {keycode : Keycode} {now : UInt16}
    {made : BitVec 8} (hside : (Held.mk keycode v.state.active false).side = none)
    (hs : Ended made v.state (processRecord idleTimeout keycode true now v.state))
    (hmade : ∀ side, Has made side → Has v.state.heldMods side) :
    Base (next idleTimeout v (.key k keycode now))
      ∧ (ReportReturned (next idleTimeout v (.key k keycode now))
          ∧ HandedBack (next idleTimeout v (.key k keycode now))
        ↔ ∀ side, TakenDown side v.down → Has made side) := by
  simp only [next, hk, hs.active, hs.was, Bool.not_false, Bool.and_self]
  obtain ⟨hbase, hreport, hhanded⟩ := hv.ended hs hmade
    (sameShifts_press (marked_none hk) (hs.was ▸ hside))
    ((fits_marked (hs.was ▸ hv.fits)).press (h := ⟨keycode,true,false⟩)
      ⟨fun howed => absurd howed (by simp),fun _ hsome => absurd (hs.was ▸ hside) hsome⟩)
  exact ⟨hbase,(and_iff_right hreport).trans hhanded⟩

theorem capsWordOn_fields (idleTimeout now : UInt16) {s : State} (h : s.active = false) :
    (capsWordOn idleTimeout now s).active = true
      ∧ (capsWordOn idleTimeout now s).heldMods = s.heldMods
      ∧ (capsWordOn idleTimeout now s).mods = 0
      ∧ (capsWordOn idleTimeout now s).report = s.report := by
  rw [capsWordOn, if_neg (by simp [h]), capsWordResetIdleTimer]
  split <;> exact ⟨rfl,rfl,rfl,rfl⟩

theorem toggle_step (hv : Inv v) (hk : v.down k = none) (now : UInt16) :
    Base (next idleTimeout v (.key k .toggle now))
      ∧ (ReportReturned (next idleTimeout v (.key k .toggle now))
          ∧ HandedBack (next idleTimeout v (.key k .toggle now))
        ↔ ∀ side, ¬ TakenDown side v.down) := by
  cases hactive : v.state.active with
  | true =>
    have hs : Ended 0 v.state (processRecord idleTimeout .toggle true now v.state) := by
      have heq : processRecord idleTimeout .toggle true now v.state
          = capsWordOff { v.state with weakMods := 0 } := by
        simp only [processRecord, processCapsWord, if_true, capsWordToggle, hactive]
      rw [heq]
      exact (capsWordOff_ended (s := { v.state with weakMods := 0 }) hactive).of_same
        (Same.refl.weak 0)
    obtain ⟨hbase, hiff⟩ := press_step_ended hv hk rfl hs fun side h => absurd h AutoShift.has_zero
    exact ⟨hbase,hiff.trans (by simp only [AutoShift.has_zero])⟩
  | false =>
    simp only [next, hk, hactive, Bool.false_and, marked_false]
    have heq : processRecord idleTimeout .toggle true now v.state
        = capsWordOn idleTimeout now { v.state with weakMods := 0 } := by
      simp only [processRecord, processCapsWord, if_true, capsWordToggle, hactive,
        Bool.false_eq_true, if_false]
    rw [heq]
    obtain ⟨hon, hheld, hmods, hreport⟩ := capsWordOn_fields idleTimeout now
      (s := { v.state with weakMods := 0 }) hactive
    obtain ⟨hbase, hreturned, hhanded⟩ := hv.turnedOn hactive hon hheld hmods hreport
      (sameShifts_press hk (h := ⟨.toggle,false,false⟩) rfl)
      (AllDown.press (fun k h hdown => ((hactive ▸ hv.fits) k h hdown).turnedOn)
        (fits_new _ false).turnedOn)
    exact ⟨hbase,(and_iff_right hreturned).trans hhanded⟩

theorem code_step (hv : Inv v) (hk : v.down k = none) (code : UInt8) (now : UInt16) :
    Base (next idleTimeout v (.key k (.code code) now))
      ∧ (ReportReturned (next idleTimeout v (.key k (.code code) now))
          ∧ HandedBack (next idleTimeout v (.key k (.code code) now))
        ↔ (sideOf code = none → breaks code v.state = true →
          ∀ side, TakenDown side v.down → Has v.state.heldMods side)) := by
  cases hs : sideOf code with
  | some side =>
    have hpressed : Pressed side v.state (processRecord idleTimeout (.code code) true now v.state) :=
      shift_pressed hs
    have hinv : Inv (next idleTimeout v (.key k (.code code) now)) := by
      simp only [next, hk, hpressed.active, Bool.and_not_self, marked_false]
      exact hv.pressed hk hs rfl hpressed (fits_new _ _)
    exact ⟨hinv.toBase,iff_of_true ⟨hinv.report,hinv.handed⟩ fun h => absurd h (by simp)⟩
  | none =>
    have hside : (Held.mk (.code code) v.state.active false).side = none := hs
    cases hbreaks : breaks code v.state with
    | false =>
      have hinv := press_step_same hv hk hside (press_same hs hbreaks : Same v.state
        (processRecord idleTimeout (.code code) true now v.state))
      exact ⟨hinv.toBase,iff_of_true ⟨hinv.report,hinv.handed⟩ fun _ h => absurd h (by simp)⟩
    | true =>
      obtain ⟨hbase, hiff⟩ := press_step_ended hv hk hside (press_ended hs hbreaks : Ended _ v.state
        (processRecord idleTimeout (.code code) true now v.state)) fun _ => id
      exact ⟨hbase,hiff.trans (by simp only [forall_const])⟩

theorem other_released {keycode : Keycode} {now : UInt16} {s : State}
    (hside : (Held.mk keycode true true).side = none) :
    Same s (processRecord idleTimeout keycode false now s) := by
  cases keycode with
  | toggle => exact Same.refl
  | code code => exact release_same hside

theorem release_step (hv : Inv v) (hk : v.down k = some h) (keycode : Keycode) (now : UInt16) :
    Base (next idleTimeout v (.key k keycode now))
      ∧ (ReportReturned (next idleTimeout v (.key k keycode now))
          ∧ HandedBack (next idleTimeout v (.key k keycode now))
        ↔ ∀ side, h.side = some side →
          ((v.state.active = true ∨ Has v.state.heldMods side) →
            (∀ side', ¬ ShiftDown side' (Function.update v.down k none)) →
              v.state.report.real &&& modMaskShift = 0)
          ∧ (v.state.active = false → ¬ TakenDown side (Function.update v.down k none))) := by
  cases hside : h.side with
  | none =>
    have hs : Same v.state (processRecord idleTimeout h.keycode false now v.state) :=
      other_released hside
    have hinv : Inv (next idleTimeout v (.key k keycode now)) := by
      simp only [next, hk, hs.active, Bool.and_not_self, marked_false]
      exact hv.same hs (sameShifts_release hk hside) hv.fits.release
    exact ⟨hinv.toBase,iff_of_true ⟨hinv.report,hinv.handed⟩ fun side h => absurd h (by simp)⟩
  | some side =>
    obtain ⟨code, hcode⟩ : ∃ code, h.keycode = .code code := by
      cases hcode : h.keycode with
      | toggle => simp [Held.side,hcode] at hside
      | code code => exact ⟨code,rfl⟩
    have hs : Released side v.state (processRecord idleTimeout h.keycode false now v.state) := by
      rw [hcode]
      refine shift_released ?_
      simpa only [Held.side, hcode] using hside
    obtain ⟨hbase, hreport, hhanded⟩ := hv.released hk hside hs
    simp only [next, hk, hs.active, Bool.and_not_self, marked_false]
    refine ⟨hbase,(and_congr hreport hhanded).trans ⟨?_,fun h => h side rfl⟩⟩
    rintro h side' heq
    cases heq
    exact h

theorem step (hv : Inv v) (input : Input κ) : Base (next idleTimeout v input)
    ∧ (ReportReturned (next idleTimeout v input) ∧ HandedBack (next idleTimeout v input)
      ↔ Clear idleTimeout v input) := by
  cases input with
  | task now => exact task_step hv now
  | key k keycode now =>
    cases hk : v.down k with
    | none =>
      cases keycode with
      | toggle =>
        simp only [Clear, hk]
        exact toggle_step hv hk now
      | code code =>
        simp only [Clear, hk]
        exact code_step hv hk code now
    | some h =>
      simp only [Clear, hk]
      exact release_step hv hk keycode now

theorem right_iff (hv : Inv v) (input : Input κ) :
    Right idleTimeout v input ↔ Clear idleTimeout v input :=
  (and_congr (step hv input).1.returned_iff Iff.rfl).trans (step hv input).2

theorem inv_next (hv : Inv v) {input : Input κ} (hclear : Clear idleTimeout v input) :
    Inv (next idleTimeout v input) :=
  ⟨(step hv input).1,((step hv input).2.mpr hclear).1,((step hv input).2.mpr hclear).2⟩

end

theorem inv_start (κ : Type) : Inv (start κ) := by
  have hnone : ∀ p, ¬ AnyDown p (start κ).down := fun p ⟨k, h, hk, _⟩ => by simp [start] at hk
  refine ⟨⟨fun i hi => ?_,fun side hside => ?_,fun k h hk => ?_⟩,fun _ => by simp [start,init],
    fun side howed => absurd howed (hnone _)⟩
  · simp [start,init] at hi
  · exact absurd hside AutoShift.has_zero
  · simp [start] at hk

/-- In every run the shifts are returned and handed back up to the first step at which Caps Word
forgets one: it is toggled or times out over a held shift, or a shift is released without the
report that takes it back. -/
theorem shifts_right_iff {κ : Type} [DecidableEq κ] (idleTimeout : UInt16)
    (inputs : List (Input κ)) : Along (next idleTimeout) (Right idleTimeout) (start κ) inputs
      ↔ Along (next idleTimeout) (Clear idleTimeout) (start κ) inputs :=
  Along.congr (fun _ input hv => right_iff hv input) (fun _ _ hv hclear => inv_next hv hclear)
    (inv_start κ)

/-- A word is begun and a shift pressed; a slash ends the word, and with the shift released the last
report still has it. -/
def slashWithShift : List (Input (Fin 3)) :=
  [.key 0 .toggle 0,.key 0 .toggle 0,.key 1 (.code 0xE1) 0,.key 2 (.code 0x38) 0,
    .key 2 (.code 0x38) 0,.key 1 (.code 0xE1) 0]

theorem shift_left_in_report : ¬ ∀ (idleTimeout : UInt16) (inputs : List (Input (Fin 3))),
    Along (next idleTimeout) (Right idleTimeout) (start (Fin 3)) inputs := by
  intro h
  obtain ⟨-, -, -, -, -, ⟨hreturned, -⟩, -⟩ := h 5000 slashWithShift
  refine absurd (hreturned ?_).2.2 (by decide)
  rintro side ⟨k, h, hk, -⟩
  have hnone : ∀ k, (slashWithShift.foldl (next 5000) (start (Fin 3))).down k = none := by decide
  exact absurd ((hnone k).symm.trans hk) (by simp)

end QmkFirmware.CapsWord
