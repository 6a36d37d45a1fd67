import Mathlib.Logic.Function.Basic
import QmkFirmware.Lib.Along

/-!
`repeat_key.c` and `process_repeat_key.c`, which process a record from within the processing of the
Repeat Key, and what the default action does with it.
-/

set_option autoImplicit false

namespace QmkFirmware.RepeatKey

/-- `keyrecord_t` with its keycode filled in. -/
structure Record where
  keycode : UInt16
  tapCount : UInt8
  pressed : Bool
  deriving DecidableEq, Repr

/-- `registered` are the keycodes in the report; the counts are `int8_t`. -/
structure State where
  mods : BitVec 8
  weakMods : BitVec 8
  oneshotMods : BitVec 8
  registered : UInt8 → Bool
  lastRecord : Record
  lastMods : BitVec 8
  lastRepeatCount : Int
  processingRepeatCount : Int
  registeredRecord : Record
  registeredRepeatCount : Int

def init : State := ⟨0,0,0,fun _ => false,⟨0,0,false⟩,0,0,0,⟨0,0,false⟩,0⟩

def qkRepeatKey : UInt16 := 0x7C79

def isModifierKeycode (code : UInt8) : Bool := 0xE0 ≤ code && code ≤ 0xE7

def modBit (code : UInt8) : BitVec 8 := BitVec.twoPow 8 (code.toNat % 8)

/-- The modifiers of `QK_MODS` and `QK_MOD_TAP` keycodes, for both hands. -/
def keycodeMods (keycode : UInt16) : BitVec 8 :=
  let mods := BitVec.ofNat 8 ((keycode.toNat >>> 8) % 16)
  if keycode &&& 0x1000 ≠ 0 then mods <<< 4 else mods

def addMods (mods : BitVec 8) (s : State) : State := { s with mods := s.mods ||| mods }

def delMods (mods : BitVec 8) (s : State) : State := { s with mods := s.mods &&& ~~~mods }

def addWeakMods (mods : BitVec 8) (s : State) : State := { s with weakMods := s.weakMods ||| mods }

def delWeakMods (mods : BitVec 8) (s : State) : State :=
  { s with weakMods := s.weakMods &&& ~~~mods }

def registerCode (code : UInt8) (s : State) : State :=
  if code = 0 then s
  else if isModifierKeycode code then addMods (modBit code) s
  else { s with registered := Function.update s.registered code true }

def unregisterCode (code : UInt8) (s : State) : State :=
  if code = 0 then s
  else if isModifierKeycode code then delMods (modBit code) s
  else { s with registered := Function.update s.registered code false }

def strong (code : UInt8) : Bool := isModifierKeycode code || code == 0

/-- `process_action` for basic keys, `QK_MODS` and `QK_MOD_TAP`. -/
def processAction (r : Record) (s : State) : State :=
  let code := r.keycode.toUInt8
  let mods := keycodeMods r.keycode
  if r.keycode < 0x100 then
    if r.pressed then registerCode code s else unregisterCode code s
  else if r.keycode < 0x2000 then
    if r.pressed then
      registerCode code (if strong code then addMods mods s else addWeakMods mods s)
    else
      let s := unregisterCode code s
      if strong code then delMods mods s else delWeakMods mods s
  else if r.keycode < 0x4000 then
    if r.pressed then
      if 0 < r.tapCount then registerCode code s else addMods mods s
    else if 0 < r.tapCount then unregisterCode code s else delMods mods s
  else s

/-- `remember_last_key`, with the default `remember_last_key_user`: not for modifiers, `KC_HYPR`,
`KC_MEH`, mod-taps that are held and the Repeat Key. -/
def rememberLastKey (r : Record) : Bool :=
  !(0xE0 ≤ r.keycode && r.keycode ≤ 0xE7) && r.keycode != 0x0F00 && r.keycode != 0x0700
    && !(0x2000 ≤ r.keycode && r.keycode < 0x4000 && r.tapCount == 0) && r.keycode != qkRepeatKey

def setLastRecord (r : Record) (s : State) : State :=
  { s with lastRecord := r, lastRepeatCount := 0 }

def processLastKey (r : Record) (s : State) : State :=
  if s.processingRepeatCount ≠ 0 then s
  else if r.pressed && rememberLastKey r then
    { setLastRecord r s with lastMods := s.mods ||| s.weakMods ||| s.oneshotMods }
  else s

def updateLastRepeatCount (dir : Int) (s : State) : State :=
  if dir*s.lastRepeatCount < 0 then { s with lastRepeatCount := dir }
  else if dir*s.lastRepeatCount < 127 then { s with lastRepeatCount := s.lastRepeatCount+dir }
  else s

def takeLastRecord (s : State) : State :=
  let s := updateLastRepeatCount 1 s
  { s with
    weakMods := s.weakMods ||| s.lastMods
    registeredRecord := s.lastRecord
    registeredRepeatCount := s.lastRepeatCount }

/-- `repeat_key_invoke` over what processes a record, with the records it has processed. -/
def repeatKeyInvoke (process : Record → State → Option (State × List Record)) (pressed : Bool)
    (s : State) : Option (State × List Record) :=
  if s.processingRepeatCount ≠ 0 ∨ s.lastRecord.keycode = 0 then some (s,[])
  else
    let s := if pressed then takeLastRecord s else s
    if s.registeredRepeatCount ≠ 0 then do
      let r := { s.registeredRecord with pressed := pressed }
      let (s, records) ← process r
        { s with registeredRecord := r, processingRepeatCount := s.registeredRepeatCount }
      let s := { s with processingRepeatCount := 0 }
      some (if pressed then s else { s with weakMods := s.weakMods &&& ~~~s.lastMods },r :: records)
    else some (s,[])

/-- `process_record`; `none` where it is nested deeper than `depth`. -/
def processRecord : Nat → Record → State → Option (State × List Record)
  | 0, _, _ => none
  | depth+1, r, s =>
    let s := processLastKey r s
    if s.processingRepeatCount = 0 ∧ r.keycode = qkRepeatKey then
      repeatKeyInvoke (processRecord depth) r.pressed s
    else some (processAction r s,[])

def IsKey (keycode : UInt16) : Prop :=
  (0x04 ≤ keycode ∧ keycode ≤ 0xA4) ∨ (0xE0 ≤ keycode ∧ keycode ≤ 0xE7)
    ∨ (0x100 ≤ keycode ∧ keycode < 0x2000)
    ∨ (0x2000 ≤ keycode ∧ keycode < 0x4000 ∧ 0x04 ≤ keycode.toUInt8 ∧ keycode.toUInt8 ≤ 0xA4)

instance (keycode : UInt16) : Decidable (IsKey keycode) :=
  inferInstanceAs (Decidable (_ ∨ _ ∨ _ ∨ _))

/-- `down` has the records that pressed the keys, `repeatDown` what the press of the Repeat Key
processed if it is down. -/
structure World (κ : Type) where
  state : State
  down : κ → Option Record
  repeatDown : Option (Option Record)

def start (κ : Type) : World κ := ⟨init,fun _ => none,none⟩

inductive Input (κ : Type) where
  /-- The key is pressed, as this keycode, or released if it is down. -/
  | key (k : κ) (keycode : {keycode // IsKey keycode}) (tapCount : UInt8)
  | repeatKey
  /-- `action_exec` sees a press, which it may process later. -/
  | clearWeakMods
  | setOneshotMods (mods : BitVec 8)

variable {κ : Type} [DecidableEq κ]

/-- What is processed, at any depth. -/
def process (depth : Nat) (v : World κ) : Input κ → Option (State × List Record)
  | .key k keycode tapCount =>
    match v.down k with
    | none => processRecord depth ⟨keycode.1,tapCount,true⟩ v.state
    | some r => processRecord depth { r with pressed := false } v.state
  | .repeatKey => processRecord depth ⟨qkRepeatKey,0,v.repeatDown.isNone⟩ v.state
  | .clearWeakMods => some ({ v.state with weakMods := 0 },[])
  | .setOneshotMods mods => some ({ v.state with oneshotMods := mods },[])

def next (v : World κ) (input : Input κ) : World κ :=
  match process 2 v input with
  | none => v
  | some (s, records) =>
    match input with
    | .key k keycode tapCount =>
      { v with
        state := s
        down := Function.update v.down k <| match v.down k with
          | none => some ⟨keycode.1,tapCount,true⟩
          | some _ => none }
    | .repeatKey =>
      { v with
        state := s
        repeatDown := match v.repeatDown with
          | none => some records.head?
          | some _ => none }
    | .clearWeakMods | .setOneshotMods _ => { v with state := s }

end QmkFirmware.RepeatKey
