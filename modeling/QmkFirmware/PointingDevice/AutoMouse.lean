import Mathlib.Algebra.Order.Ring.Int
import QmkFirmware.Lib.Along

/-!
`pointing_device_auto_mouse.c`: the layer that is on while the pointing device or a mouse key is
used, and its count of the mouse keys that are held.
-/

set_option autoImplicit false

namespace QmkFirmware.AutoMouse

abbrev Keycode := BitVec 16

/-- A key event. `tick` is the type that is no event. -/
structure Record (κ : Type) where
  key : κ
  tick : Bool
  pressed : Bool
  tapCount : BitVec 4

structure Report where
  x : Int
  y : Int
  h : Int
  v : Int
  buttons : BitVec 8

/-- `oneshot` is unset by `NO_ACTION_ONESHOT` and `extendedReport` set by `MOUSE_EXTENDED_REPORT`.
The hook tells the same of a key on its press and on its release. -/
structure Config (κ : Type) where
  isEnabled : Bool
  layer : Nat
  timeout : UInt16
  debounce : UInt8
  delay : UInt16
  threshold : Nat
  tappingToggle : Nat
  oneshot : Bool
  extendedReport : Bool
  isMouseRecordKb : Keycode → Record κ → Bool
  kb_release : ∀ (keycode : Keycode) (record : Record κ),
    isMouseRecordKb keycode { record with pressed := false }
      = isMouseRecordKb keycode { record with pressed := true }

/-- `auto_mouse_context`, and `layer_state`. -/
structure State where
  isActivated : Bool
  isToggled : Bool
  mouseKeyTracker : Int
  active : UInt16
  delay : UInt16
  x : Int
  y : Int
  h : Int
  v : Int
  layerState : BitVec 32

def init : State := ⟨false,false,0,0,0,0,0,0,0,0⟩

inductive Case where
  | skip
  | toggle (layer : Nat)
  | momentary (layer : Nat)
  | layerMod (layer : Nat)
  | layerTapToggle (layer : Nat)
  | layerTap (layer : Nat)
  | modTap
  | other

def inRange (first last keycode : Keycode) : Bool := first ≤ keycode && keycode ≤ last

def getLayer (keycode : Keycode) : Nat := (keycode &&& 0x1F).toNat
def qkLayerModGetLayer (keycode : Keycode) : Nat := ((keycode >>> 5) &&& 0xF).toNat
def qkLayerTapGetLayer (keycode : Keycode) : Nat := ((keycode >>> 8) &&& 0xF).toNat

def isMousekey (keycode : Keycode) : Bool := inRange 0x00CD 0x00DF keycode

variable {κ : Type} (cfg : Config κ)

def caseOf (keycode : Keycode) : Case :=
  -- KC_LEFT_CTRL and QK_MODS
  if inRange 0x00E0 0x00E7 keycode || inRange 0x0100 0x1FFF keycode then .skip
  -- QK_TO and QK_TOGGLE_LAYER
  else if inRange 0x5200 0x521F keycode || inRange 0x5260 0x527F keycode then
    .toggle (getLayer keycode)
  -- QK_MOMENTARY
  else if inRange 0x5220 0x523F keycode then .momentary (getLayer keycode)
  -- QK_DEF_LAYER and QK_PERSISTENT_DEF_LAYER
  else if inRange 0x5240 0x525F keycode || inRange 0x52E0 0x52FF keycode then .skip
  -- QK_ONE_SHOT_LAYER and QK_ONE_SHOT_MOD
  else if cfg.oneshot && (inRange 0x5280 0x529F keycode || inRange 0x52A0 0x52BF keycode) then .skip
  -- QK_LAYER_MOD
  else if inRange 0x5000 0x51FF keycode then .layerMod (qkLayerModGetLayer keycode)
  -- QK_LAYER_TAP_TOGGLE
  else if inRange 0x52C0 0x52DF keycode then .layerTapToggle (getLayer keycode)
  -- QK_LAYER_TAP
  else if inRange 0x4000 0x4FFF keycode then .layerTap (qkLayerTapGetLayer keycode)
  -- QK_MOD_TAP
  else if inRange 0x2000 0x3FFF keycode then .modTap
  else .other

def layerStateIs (s : State) : Bool :=
  if s.layerState = 0 then cfg.layer = 0 else s.layerState.getLsbD cfg.layer

def layerOn (s : State) : State :=
  { s with layerState := s.layerState ||| BitVec.twoPow 32 cfg.layer }

def layerOff (s : State) : State :=
  { s with layerState := s.layerState &&& ~~~BitVec.twoPow 32 cfg.layer }

def layerHoldCheck (oneshotLayer : Nat) (s : State) : Bool :=
  s.isToggled || (cfg.oneshot && oneshotLayer == cfg.layer)

def isAutoMouseActive (oneshotLayer : Nat) (s : State) : Bool :=
  s.isActivated || s.mouseKeyTracker != 0 || layerHoldCheck cfg oneshotLayer s

def autoMouseReset (s : State) : State :=
  { s with isActivated := false, isToggled := false, mouseKeyTracker := 0, active := 0, delay := 0 }

def autoMouseToggle (s : State) : State := { s with isToggled := !s.isToggled, delay := 0 }

/-- `mouse_key_tracker` is an `int8_t`. -/
def addTracker (n : Int) (s : State) : State :=
  { s with mouseKeyTracker := (s.mouseKeyTracker+n).bmod (2^8) }

def autoMouseKeyevent (pressed : Bool) (s : State) : State :=
  { addTracker (if pressed then 1 else -1) s with delay := 0 }

def autoMouseResetTrigger (pressed : Bool) (now : UInt16) (s : State) : State :=
  let s := if pressed then
      autoMouseReset (if layerStateIs cfg s then layerOff cfg s else s)
    else s
  { s with delay := now }

def timerElapsed (last now : UInt16) : UInt16 := now-last

def int8 (n : Int) : Int := n.bmod (2^8)

/-- A `mouse_xy_report_t`. -/
def mouseXy (n : Int) : Int := if cfg.extendedReport then n.bmod (2^16) else int8 n

def autoMouseActivation (report : Report) (s : State) : Bool × State :=
  let s := { s with
    x := mouseXy cfg (s.x+report.x)
    y := mouseXy cfg (s.y+report.y)
    h := int8 (s.h+report.h)
    v := int8 (s.v+report.v) }
  (cfg.threshold < s.x.natAbs || cfg.threshold < s.y.natAbs || cfg.threshold < s.h.natAbs
    || cfg.threshold < s.v.natAbs || report.buttons != 0,s)

def clearMovement (s : State) : State := { s with x := 0, y := 0, h := 0, v := 0 }

def pointingDeviceTaskAutoMouse (oneshotLayer : Nat) (now : UInt16) (report : Report) (s : State) :
    State :=
  if !cfg.isEnabled || timerElapsed s.active now ≤ cfg.debounce.toUInt16
      || timerElapsed s.delay now ≤ cfg.delay then s
  else
    let (activated, s) := autoMouseActivation cfg report s
    let s := { s with isActivated := activated }
    if isAutoMouseActive cfg oneshotLayer s then
      let s := { clearMovement s with active := now, delay := 0 }
      if layerStateIs cfg s then s else layerOn cfg s
    else if layerStateIs cfg s && cfg.timeout < timerElapsed s.active now then
      clearMovement { layerOff cfg s with active := 0 }
    else s

def isMouseRecord (keycode : Keycode) (record : Record κ) : Bool :=
  cfg.isMouseRecordKb keycode record || isMousekey keycode

def defaultCase (oneshotLayer : Nat) (now : UInt16) (keycode : Keycode) (record : Record κ)
    (s : State) : State :=
  if record.tick then s
  else if isMouseRecord cfg keycode record then autoMouseKeyevent record.pressed s
  else if !isAutoMouseActive cfg oneshotLayer s then autoMouseResetTrigger cfg record.pressed now s
  else s

/-- The switch of `process_auto_mouse`. -/
def autoMouseSwitch (oneshotLayer : Nat) (now : UInt16) (keycode : Keycode) (record : Record κ)
    (s : State) : State :=
  match caseOf cfg keycode with
  | .skip => s
  | .toggle layer => if layer = cfg.layer ∧ ¬record.pressed then autoMouseToggle s else s
  | .momentary layer => if layer = cfg.layer then autoMouseKeyevent record.pressed s else s
  | .layerMod layer => if layer = cfg.layer then autoMouseKeyevent record.pressed s else s
  | .layerTapToggle layer =>
    if layer = cfg.layer then
      let s := autoMouseKeyevent record.pressed s
      if cfg.tappingToggle ≠ 0 ∧ record.tapCount.toNat = cfg.tappingToggle then
        if record.pressed then addTracker (-1) s else addTracker 1 (autoMouseToggle s)
      else s
    else s
  | .layerTap layer =>
    if record.tapCount = 0 then
      if layer = cfg.layer then autoMouseKeyevent record.pressed s else s
    else defaultCase cfg oneshotLayer now keycode record s
  | .modTap =>
    if record.tapCount = 0 then s else defaultCase cfg oneshotLayer now keycode record s
  | .other => defaultCase cfg oneshotLayer now keycode record s

def processAutoMouse (oneshotLayer : Nat) (now : UInt16) (keycode : Keycode) (record : Record κ)
    (s : State) : State × Bool :=
  if cfg.isEnabled then
    let s := autoMouseSwitch cfg oneshotLayer now keycode record s
    if s.mouseKeyTracker < 0 then ({ s with mouseKeyTracker := 0 },true) else (s,false)
  else (s,false)

/-- A press, with what its release has as well. -/
structure Press (κ : Type) where
  key : κ
  keycode : Keycode
  tapCount : BitVec 4
  deriving DecidableEq

def Press.record (p : Press κ) (pressed : Bool) : Record κ := ⟨p.key,false,pressed,p.tapCount⟩

/-- `error` says whether the last call has printed a key tracker error. -/
structure World (κ : Type) where
  state : State
  held : List (Press κ)
  error : Bool

def start : World κ := ⟨init,[],false⟩

inductive Input (κ : Type) where
  /-- The key is pressed, or released if it is held. -/
  | key (p : Press κ) (oneshotLayer : Nat) (now : UInt16)
  | task (report : Report) (oneshotLayer : Nat) (now : UInt16)
  /-- Other code sets the layers. -/
  | layers (layerState : BitVec 32)

section Step

variable [DecidableEq κ]

def next (v : World κ) : Input κ → World κ
  | .key p oneshotLayer now =>
    match v.held.find? fun q => q.key = p.key with
    | some q =>
      let (s, error) := processAutoMouse cfg oneshotLayer now q.keycode (q.record false) v.state
      ⟨s,v.held.erase q,error⟩
    | none =>
      let (s, error) := processAutoMouse cfg oneshotLayer now p.keycode (p.record true) v.state
      ⟨s,p::v.held,error⟩
  | .task report oneshotLayer now =>
    ⟨pointingDeviceTaskAutoMouse cfg oneshotLayer now report v.state,v.held,false⟩
  | .layers layerState => ⟨{ v.state with layerState := layerState },v.held,false⟩

def counted (p : Press κ) : Bool :=
  match caseOf cfg p.keycode with
  | .skip => false
  | .toggle _ => false
  | .momentary layer => layer = cfg.layer
  | .layerMod layer => layer = cfg.layer
  | .layerTapToggle layer =>
    layer = cfg.layer && !(cfg.tappingToggle != 0 && p.tapCount.toNat == cfg.tappingToggle)
  | .layerTap layer =>
    if p.tapCount = 0 then layer = cfg.layer else isMouseRecord cfg p.keycode (p.record true)
  | .modTap => p.tapCount != 0 && isMouseRecord cfg p.keycode (p.record true)
  | .other => isMouseRecord cfg p.keycode (p.record true)

def number (v : World κ) : Nat := v.held.countP (counted cfg)

def Few (v : World κ) (input : Input κ) : Prop := (next cfg v input).held.length < 128

/-- After the input the count is right, no error has been printed, and the target layer is not
turned off. -/
structure Right (v : World κ) (input : Input κ) : Prop where
  tracker : (next cfg v input).state.mouseKeyTracker = number cfg (next cfg v input)
  error : (next cfg v input).error = false
  layer : (∀ layerState, input ≠ .layers layerState) →
    number cfg v ≠ 0 ∨ number cfg (next cfg v input) ≠ 0 →
    layerStateIs cfg v.state = true → layerStateIs cfg (next cfg v input).state = true

end Step

variable {cfg}

/-- The tracker goes by `n`, and the layers stay unless it is 0. -/
structure Counts (n : Int) (s s' : State) : Prop where
  tracker : s'.mouseKeyTracker = s.mouseKeyTracker+n
  layerState : n ≠ 0 ∨ s.mouseKeyTracker ≠ 0 → s'.layerState = s.layerState

theorem Counts.refl (s : State) : Counts 0 s s := ⟨(Int.add_zero _).symm,fun _ => rfl⟩

def sign (pressed : Bool) : Int := if pressed then 1 else -1

variable {s : State} {pressed : Bool}

/-- One more or one less does not wrap. -/
def Room (pressed : Bool) (s : State) : Prop :=
  0 ≤ s.mouseKeyTracker ∧ s.mouseKeyTracker ≤ 127 ∧ (pressed = true → s.mouseKeyTracker ≤ 126)

theorem addTracker_eq {n : Int} (h0 : -128 ≤ s.mouseKeyTracker+n) (h : s.mouseKeyTracker+n ≤ 127) :
    (addTracker n s).mouseKeyTracker = s.mouseKeyTracker+n :=
  Int.bmod_eq_of_le (by omega) (by omega)

theorem Room.sign_le (h : Room pressed s) :
    -128 ≤ s.mouseKeyTracker+sign pressed ∧ s.mouseKeyTracker+sign pressed ≤ 127 := by
  obtain ⟨h0,h1,hp⟩ := h
  cases pressed with
  | false => exact ⟨by simp [sign]; omega,by simp [sign]; omega⟩
  | true => exact ⟨by simp [sign]; omega,by simp [sign]; have := hp rfl; omega⟩

theorem autoMouseKeyevent_counts (h : Room pressed s) :
    Counts (sign pressed) s (autoMouseKeyevent pressed s) :=
  ⟨@addTracker_eq s (sign pressed) h.sign_le.1 h.sign_le.2,fun _ => rfl⟩

theorem isAutoMouseActive_of_ne {oneshotLayer : Nat} (h : s.mouseKeyTracker ≠ 0) :
    isAutoMouseActive cfg oneshotLayer s = true := by
  simp [isAutoMouseActive, h]

theorem autoMouseResetTrigger_counts (h0 : s.mouseKeyTracker = 0) (now : UInt16) :
    Counts 0 s (autoMouseResetTrigger cfg pressed now s) := by
  refine ⟨?_,fun h => absurd h (by simp [h0])⟩
  cases pressed with
  | false => exact (Int.add_zero _).symm
  | true => simp [autoMouseResetTrigger, autoMouseReset, h0]

theorem isMouseRecord_record (p : Press κ) (pressed : Bool) :
    isMouseRecord cfg p.keycode (p.record pressed)
      = isMouseRecord cfg p.keycode (p.record true) := by
  cases pressed with
  | false => exact congrArg (· || _) (cfg.kb_release p.keycode (p.record true))
  | true => rfl

theorem defaultCase_counts (p : Press κ) (h : Room pressed s) (oneshotLayer : Nat) (now : UInt16) :
    Counts (if isMouseRecord cfg p.keycode (p.record true) then sign pressed else 0) s
      (defaultCase cfg oneshotLayer now p.keycode (p.record pressed) s) := by
  have hr := @isMouseRecord_record κ cfg p pressed
  unfold defaultCase
  rw [if_neg (show ¬(p.record pressed).tick = true from Bool.false_ne_true)]
  by_cases hm : isMouseRecord cfg p.keycode (p.record true) = true
  · rw [if_pos hm, if_pos (hr.trans hm)]
    exact autoMouseKeyevent_counts h
  · rw [if_neg hm, if_neg (hr ▸ hm)]
    split
    · rename_i ha
      refine autoMouseResetTrigger_counts ?_ now
      by_contra hn
      simp [isAutoMouseActive_of_ne hn] at ha
    · exact .refl s

theorem toggleCount_counts (h : Room pressed s) :
    Counts 0 s (if pressed then addTracker (-1) (autoMouseKeyevent pressed s)
      else addTracker 1 (autoMouseToggle (autoMouseKeyevent pressed s))) := by
  have hk := (autoMouseKeyevent_counts h).tracker
  obtain ⟨h0,h1,-⟩ := h
  cases pressed with
  | false =>
    have he : (autoMouseToggle (autoMouseKeyevent false s)).mouseKeyTracker
      = s.mouseKeyTracker+sign false := hk
    refine ⟨?_,fun _ => rfl⟩
    rw [if_neg (by simp), addTracker_eq] <;> rw [he] <;> simp [sign] <;> omega
  | true =>
    refine ⟨?_,fun _ => rfl⟩
    rw [if_pos rfl, addTracker_eq] <;> rw [hk] <;> simp [sign] <;> omega

theorem layer_counts (h : Room pressed s) (layer : Nat) :
    Counts (if decide (layer = cfg.layer) = true then sign pressed else 0) s
      (if layer = cfg.layer then autoMouseKeyevent pressed s else s) := by
  by_cases hl : layer = cfg.layer
  · rw [if_pos hl, if_pos (decide_eq_true hl)]
    exact autoMouseKeyevent_counts h
  · rw [if_neg hl, if_neg (by simpa using hl)]
    exact .refl s

theorem autoMouseSwitch_counts (p : Press κ) (h : Room pressed s) (oneshotLayer : Nat)
    (now : UInt16) :
    Counts (if counted cfg p then sign pressed else 0) s
      (autoMouseSwitch cfg oneshotLayer now p.keycode (p.record pressed) s) := by
  unfold autoMouseSwitch counted
  cases caseOf cfg p.keycode with
  | skip => exact .refl s
  | toggle layer =>
    change Counts 0 s (if layer = cfg.layer ∧ ¬pressed = true then autoMouseToggle s else s)
    split
    · exact ⟨(Int.add_zero _).symm,fun _ => rfl⟩
    · exact .refl s
  | momentary layer => exact layer_counts h layer
  | layerMod layer => exact layer_counts h layer
  | layerTapToggle layer =>
    dsimp only
    by_cases hl : layer = cfg.layer
    · rw [if_pos hl]
      by_cases ht : cfg.tappingToggle ≠ 0 ∧ p.tapCount.toNat = cfg.tappingToggle
      · rw [if_pos (show _ ∧ (p.record pressed).tapCount.toNat = _ from ht), if_neg (by simp [ht])]
        exact toggleCount_counts h
      · rw [if_neg (show ¬(_ ∧ (p.record pressed).tapCount.toNat = _) from ht),
          if_pos (by simpa [hl] using not_and_or.mp ht)]
        exact autoMouseKeyevent_counts h
    · rw [if_neg hl, if_neg (by simp [hl])]
      exact .refl s
  | layerTap layer =>
    dsimp only
    by_cases ht : p.tapCount = 0
    · simp only [if_pos ht, if_pos (show (p.record pressed).tapCount = 0 from ht)]
      exact layer_counts h layer
    · simp only [if_neg ht, if_neg (show ¬(p.record pressed).tapCount = 0 from ht)]
      exact defaultCase_counts p h oneshotLayer now
  | modTap =>
    dsimp only
    by_cases ht : p.tapCount = 0
    · rw [if_pos (show (p.record pressed).tapCount = 0 from ht), if_neg (by simp [ht])]
      exact .refl s
    · simp only [if_neg (show ¬(p.record pressed).tapCount = 0 from ht), bne_iff_ne.mpr ht,
        Bool.true_and]
      exact defaultCase_counts p h oneshotLayer now
  | other => exact defaultCase_counts p h oneshotLayer now

structure Waits (cfg : Config κ) (s s' : State) : Prop where
  tracker : s'.mouseKeyTracker = s.mouseKeyTracker
  layer : s.mouseKeyTracker ≠ 0 → layerStateIs cfg s = true → layerStateIs cfg s' = true

theorem Waits.refl (s : State) : Waits cfg s s := ⟨rfl,fun _ h => h⟩

theorem pointingDeviceTaskAutoMouse_waits (oneshotLayer : Nat) (now : UInt16) (report : Report)
    (s : State) : Waits cfg s (pointingDeviceTaskAutoMouse cfg oneshotLayer now report s) := by
  simp only [pointingDeviceTaskAutoMouse]
  split
  · exact .refl s
  · split
    · split
      · exact ⟨rfl,fun _ h => h⟩
      · rename_i hoff
        exact ⟨rfl,fun _ h => absurd h hoff⟩
    · rename_i hactive
      have h0 : s.mouseKeyTracker = 0 := by
        by_contra hn
        exact hactive (isAutoMouseActive_of_ne hn)
      split
      · exact ⟨rfl,fun h => absurd h0 h⟩
      · exact ⟨rfl,fun h => absurd h0 h⟩

structure Inv (cfg : Config κ) (v : World κ) : Prop where
  tracker : v.state.mouseKeyTracker = number cfg v
  few : v.held.length < 128

theorem number_le (v : World κ) : number cfg v ≤ v.held.length := List.countP_le_length

theorem layerStateIs_congr {s s' : State} (h : s'.layerState = s.layerState) :
    layerStateIs cfg s' = layerStateIs cfg s := by
  rw [layerStateIs, layerStateIs, h]

theorem processAutoMouse_right {v : World κ} (he : cfg.isEnabled = true) (p : Press κ)
    (hroom : Room pressed v.state) (held : List (Press κ))
    (hn : (held.countP (counted cfg) : Int)
      = v.state.mouseKeyTracker+if counted cfg p then sign pressed else 0)
    (oneshotLayer : Nat) (now : UInt16) :
    let r := processAutoMouse cfg oneshotLayer now p.keycode (p.record pressed) v.state
    r.1.mouseKeyTracker = held.countP (counted cfg) ∧ r.2 = false ∧
      (v.state.mouseKeyTracker ≠ 0 ∨ held.countP (counted cfg) ≠ 0 →
        layerStateIs cfg v.state = true → layerStateIs cfg r.1 = true) := by
  obtain ⟨ht,hl⟩ := autoMouseSwitch_counts p hroom oneshotLayer now
  have hpos : ¬(autoMouseSwitch cfg oneshotLayer now p.keycode (p.record pressed)
      v.state).mouseKeyTracker < 0 := by
    rw [ht, ← hn]
    omega
  simp only [processAutoMouse, he, if_true, if_neg hpos]
  refine ⟨ht.trans hn.symm,trivial,fun h hon => ?_⟩
  rw [layerStateIs_congr (hl ?_)]
  · exact hon
  · rcases h with h | h
    · exact .inr h
    · by_cases h0 : v.state.mouseKeyTracker = 0
      · left
        intro hz
        rw [hz, h0] at hn
        exact h (Int.ofNat_eq_zero.mp hn)
      · exact .inr h0

theorem Inv.press_room {v : World κ} (hv : Inv cfg v) {p : Press κ}
    (hf : (p::v.held).length < 128) : Room true v.state := by
  have hle := @number_le κ cfg v
  rw [List.length_cons] at hf
  unfold Room
  rw [hv.tracker]
  omega

theorem Inv.release_room {v : World κ} (hv : Inv cfg v) : Room false v.state := by
  have hle := @number_le κ cfg v
  have hf := hv.few
  unfold Room
  rw [hv.tracker]
  exact ⟨by omega,by omega,by simp⟩

variable [DecidableEq κ]

theorem step_right {v : World κ} (he : cfg.isEnabled = true) (hv : Inv cfg v) {input : Input κ}
    (hf : Few cfg v input) : Right cfg v input ∧ Inv cfg (next cfg v input) := by
  have hlayer : v.state.mouseKeyTracker ≠ 0 ↔ number cfg v ≠ 0 := by
    rw [hv.tracker]
    exact Int.natCast_ne_zero
  cases input with
  | key p oneshotLayer now =>
    cases hq : v.held.find? (fun q => decide (q.key = p.key)) with
    | none =>
      have hnext : next cfg v (.key p oneshotLayer now) =
          let r := processAutoMouse cfg oneshotLayer now p.keycode (p.record true) v.state
          ⟨r.1,p::v.held,r.2⟩ := by simp only [next, hq]
      have hlen : (p::v.held).length < 128 := by
        simpa only [Few, hnext] using hf
      obtain ⟨ht,her,hl⟩ := processAutoMouse_right he p (hv.press_room hlen) (p::v.held)
        (by rw [hv.tracker, List.countP_cons]; simp only [number, sign]; split <;> simp)
        oneshotLayer now
      rw [hlayer] at hl
      exact ⟨⟨by rw [hnext]; exact ht,by rw [hnext]; exact her,
        fun _ h => by rw [hnext] at h ⊢; exact hl h⟩,by rw [hnext]; exact ⟨ht,hlen⟩⟩
    | some q =>
      have hnext : next cfg v (.key p oneshotLayer now) =
          let r := processAutoMouse cfg oneshotLayer now q.keycode (q.record false) v.state
          ⟨r.1,v.held.erase q,r.2⟩ := by simp only [next, hq]
      have hlen : (v.held.erase q).length < 128 := by
        simpa only [Few, hnext] using hf
      have hperm := (List.perm_cons_erase (List.mem_of_find?_eq_some hq)).countP_eq (counted cfg)
      rw [List.countP_cons] at hperm
      obtain ⟨ht,her,hl⟩ := processAutoMouse_right he q hv.release_room (v.held.erase q)
        (by rw [hv.tracker]; simp only [number, sign, hperm]; split <;> simp)
        oneshotLayer now
      rw [hlayer] at hl
      exact ⟨⟨by rw [hnext]; exact ht,by rw [hnext]; exact her,
        fun _ h => by rw [hnext] at h ⊢; exact hl h⟩,by rw [hnext]; exact ⟨ht,hlen⟩⟩
  | task report oneshotLayer now =>
    obtain ⟨ht,hl⟩ := @pointingDeviceTaskAutoMouse_waits κ cfg oneshotLayer now report
      v.state
    refine ⟨⟨ht.trans hv.tracker,rfl,fun _ h => hl (hlayer.mpr ?_)⟩,⟨ht.trans hv.tracker,hv.few⟩⟩
    exact h.elim id id
  | layers layerState =>
    exact ⟨⟨hv.tracker,rfl,fun h => absurd rfl (h layerState)⟩,⟨hv.tracker,hv.few⟩⟩

/-- The tracker counts the held keys, and the target layer stays on while it is not 0. -/
theorem tracker_right (cfg : Config κ) (he : cfg.isEnabled = true) {inputs : List (Input κ)}
    (hf : Along (next cfg) (Few cfg) start inputs) : Along (next cfg) (Right cfg) start inputs :=
  @Along.imp _ _ _ _ (Right cfg) (Inv cfg) (fun _ _ hv hf => step_right he hv hf) start
    ⟨rfl,by simp [start]⟩ _ hf

instance (v : World κ) (input : Input κ) : Decidable (Few cfg v input) :=
  inferInstanceAs (Decidable (_ < _))

/-- Layer 1, toggled by 5 taps. -/
def defaults : Config Bool where
  isEnabled := true
  layer := 1
  timeout := 650
  debounce := 25
  delay := 200
  threshold := 10
  tappingToggle := 5
  oneshot := true
  extendedReport := false
  isMouseRecordKb _ _ := false
  kb_release _ _ := rfl

/-- `TT(1)` at its toggle count, released while `MO(1)` is held. -/
theorem tracker_right_overlap : Along (next defaults) (Right defaults) start
    [.key ⟨false,0x5221,0⟩ 0 0,.key ⟨true,0x52C1,5⟩ 0 100,.key ⟨true,0x52C1,5⟩ 0 200,
      .task ⟨1,0,0,0,0⟩ 0 900,.key ⟨false,0x5221,0⟩ 0 1000] :=
  tracker_right defaults rfl (by decide)

end QmkFirmware.AutoMouse
