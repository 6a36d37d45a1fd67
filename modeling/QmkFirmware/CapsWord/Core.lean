import QmkFirmware.AutoShift.Held

/-!
`caps_word.c` and `process_caps_word.c` with `CAPS_WORD_INVERT_ON_SHIFT`, and the keys behind it.
-/

set_option autoImplicit false

namespace QmkFirmware.CapsWord

open AutoShift (Side Has)

/-- `QK_CAPS_WORD_TOGGLE`, or a keycode of eight bits. -/
inductive Keycode where
  | toggle
  | code (code : UInt8)
  deriving DecidableEq, Repr

structure Report where
  real : BitVec 8
  weak : BitVec 8
  deriving DecidableEq, Repr

/-- `report` is the one that was sent last. -/
structure State where
  active : Bool
  heldMods : BitVec 8
  mods : BitVec 8
  weakMods : BitVec 8
  idleTimer : UInt16
  report : Report
  deriving DecidableEq, Repr

def init : State := ⟨false,0,0,0,0,⟨0,0⟩⟩

def modBit (code : UInt8) : BitVec 8 := BitVec.twoPow 8 (code.toNat % 8)

def isBasicKeycode (code : UInt8) : Bool := 0x04 ≤ code && code ≤ 0xA4

def isModifierKeycode (code : UInt8) : Bool := 0xE0 ≤ code && code ≤ 0xE7

/-- `MOD_MASK_SHIFT`. -/
def modMaskShift : BitVec 8 := 0x22

def sendKeyboardReport (s : State) : State := { s with report := ⟨s.mods,s.weakMods⟩ }

/-- Other keycodes are not part of the keyboard report. -/
def registerCode (code : UInt8) (s : State) : State :=
  if isBasicKeycode code then sendKeyboardReport s
  else if isModifierKeycode code then sendKeyboardReport { s with mods := s.mods ||| modBit code }
  else s

def unregisterCode (code : UInt8) (s : State) : State :=
  if isBasicKeycode code then sendKeyboardReport s
  else if isModifierKeycode code then sendKeyboardReport { s with mods := s.mods &&& ~~~modBit code }
  else s

def timerExpired (current future : UInt16) : Bool := current-future < 0xFFFF/2

section
/- `CAPS_WORD_IDLE_TIMEOUT`. -/
variable (idleTimeout : UInt16)

def capsWordResetIdleTimer (now : UInt16) (s : State) : State :=
  if 0 < idleTimeout then { s with idleTimer := now+idleTimeout } else s

def capsWordOn (now : UInt16) (s : State) : State :=
  if s.active then s
  else { capsWordResetIdleTimer idleTimeout now { s with mods := 0 } with active := true }

def capsWordOff (s : State) : State :=
  if s.active then
    { sendKeyboardReport { s with weakMods := s.weakMods &&& ~~~modMaskShift } with active := false }
  else s

def capsWordToggle (now : UInt16) (s : State) : State :=
  if s.active then capsWordOff s else capsWordOn idleTimeout now s

/-- `caps_word_task` finds the word to be over. -/
def idle (now : UInt16) (s : State) : Bool :=
  decide (0 < idleTimeout) && s.active && timerExpired now s.idleTimer

def capsWordTask (now : UInt16) (s : State) : State :=
  if idle idleTimeout now s then capsWordOff s else s

/-- `KC_LSFT` and `KC_RSFT`. -/
def sideOf (code : UInt8) : Option Side :=
  if code = 0xE1 then some .left else if code = 0xE5 then some .right else none

def handleShift (code : UInt8) (pressed : Bool) (s : State) : Bool × State :=
  match sideOf code with
  | some side =>
    if s.active then
      (false,{ s with
        heldMods := if pressed then s.heldMods ||| side.bit else s.heldMods &&& ~~~side.bit })
    else if s.heldMods &&& side.bit ≠ 0 then
      (pressed,{ s with
        heldMods := s.heldMods &&& ~~~side.bit
        mods := s.mods &&& ~~~side.bit })
    else (true,s)
  | none => (true,s)

/-- The keys that continue the word with shift: the letters and `KC_MINS`. -/
def shifted (code : UInt8) : Bool := (0x04 ≤ code && code ≤ 0x1D) || code == 0x2D

/-- The keys that continue it without: the digits, `KC_BSPC` and `KC_DEL`. -/
def unshifted (code : UInt8) : Bool := (0x1E ≤ code && code ≤ 0x27) || code == 0x2A || code == 0x4C

/-- The default `caps_word_press_user`. -/
def capsWordPressUser (code : UInt8) (s : State) : Bool × State :=
  if shifted code then (true,{ s with weakMods := s.weakMods ||| Side.left.bit })
  else (unshifted code,s)

def endWord (s : State) : State :=
  let s := capsWordOff s
  { s with mods := s.mods ||| s.heldMods }

def pressInWord (code : UInt8) (s : State) : State :=
  if s.mods &&& ~~~(modMaskShift ||| modBit 0xE6) = 0 then
    -- `KC_RALT`
    if code = 0xE6 then s
    else
      match capsWordPressUser code { s with weakMods := 0 } with
      | (true, s) => sendKeyboardReport <|
        if s.heldMods ≠ 0 then { s with weakMods := s.weakMods ^^^ Side.left.bit } else s
      | (false, s) => endWord s
  else endWord s

def processCapsWord (keycode : Keycode) (pressed : Bool) (now : UInt16) (s : State) :
    Bool × State :=
  match keycode with
  | .toggle => (false,if pressed then capsWordToggle idleTimeout now s else s)
  | .code code =>
    match handleShift code pressed s with
    | (false, s) => (false,s)
    | (true, s) =>
      if s.active then
        let s := capsWordResetIdleTimer idleTimeout now s
        (true,if pressed then pressInWord code s else s)
      else (true,s)

/-- `action_exec` and `process_record` of a key without tapping. -/
def processRecord (keycode : Keycode) (pressed : Bool) (now : UInt16) (s : State) : State :=
  let s := if pressed then { s with weakMods := 0 } else s
  match processCapsWord idleTimeout keycode pressed now s, keycode with
  | (true, s), .code code => if pressed then registerCode code s else unregisterCode code s
  | (_, s), _ => s

/-- A key that is down: `pressedOn`, when Caps Word was on as it was pressed; `owed`, when Caps Word
has turned off since. -/
structure Held where
  keycode : Keycode
  pressedOn : Bool
  owed : Bool
  deriving DecidableEq, Repr

def Held.side (h : Held) : Option Side :=
  match h.keycode with
  | .toggle => none
  | .code code => sideOf code

structure World (κ : Type) where
  state : State
  down : κ → Option Held

def start (κ : Type) : World κ := ⟨init,fun _ => none⟩

inductive Input (κ : Type) where
  /-- The key is pressed, as this keycode, or released if it is down. -/
  | key (k : κ) (keycode : Keycode) (now : UInt16)
  | task (now : UInt16)

def marked {κ : Type} (turnedOff : Bool) (down : κ → Option Held) (k : κ) : Option Held :=
  (down k).map fun h => { h with owed := h.owed || turnedOff && h.pressedOn }

variable {κ : Type} [DecidableEq κ]

def next (v : World κ) : Input κ → World κ
  | .task now =>
    let s := capsWordTask idleTimeout now v.state
    ⟨s,marked (v.state.active && !s.active) v.down⟩
  | .key k keycode now =>
    match v.down k with
    | none =>
      let s := processRecord idleTimeout keycode true now v.state
      ⟨s,Function.update (marked (v.state.active && !s.active) v.down) k
        (some ⟨keycode,v.state.active,false⟩)⟩
    | some h =>
      let s := processRecord idleTimeout h.keycode false now v.state
      ⟨s,Function.update (marked (v.state.active && !s.active) v.down) k none⟩

end

end QmkFirmware.CapsWord
