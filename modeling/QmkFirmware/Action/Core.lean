import QmkFirmware.Layers.SourceCache
import QmkFirmware.Oneshot.Layer
import QmkFirmware.Report.Keys

/-!
`process_record` and `process_action` of `action.c` with the modifiers of `action_util.c` and the
layers of `action_layer.c`: extra keys and mouse keys are built in, swapped hands, a one-shot
timeout, one-shot tap toggles and the locking keys are not.
-/

set_option autoImplicit false

namespace QmkFirmware.Action

open Tapping (KeyPos actionKind actionMods actionCode)
open Oneshot (LayerData oneshotPressed oneshotOtherKeyPressed oneshotStart isModifierKeycode)
open Report (Reports addKeyToReport delKeyFromReport isKeyPressed)

/-- `action_t`, by `kind.id`; the modifiers of the right hand are shifted. -/
inductive Act where
  | mods (mods : BitVec 8) (code : UInt8)
  | modsTap (mods : BitVec 8) (code : UInt8)
  | usage (page : Nat) (code : UInt16)
  | mousekey (code : UInt8)
  | layer (op on part : Nat) (xbit : Bool) (bits : Nat)
  | layerMods (layer : Nat) (mods : BitVec 8)
  | layerTap (val : Nat) (code : UInt8)
  | other

def decode (a : UInt16) : Act :=
  let code := UInt8.ofNat (actionCode a)
  let n := a.toNat
  match actionKind a with
  | 0b0000 => .mods (BitVec.ofNat 8 (actionMods a)) code
  | 0b0001 => .mods (BitVec.ofNat 8 (actionMods a) <<< 4) code
  | 0b0010 => .modsTap (BitVec.ofNat 8 (actionMods a)) code
  | 0b0011 => .modsTap (BitVec.ofNat 8 (actionMods a) <<< 4) code
  | 0b0100 => .usage (n/1024 % 4) (UInt16.ofNat (n % 1024))
  | 0b0101 => .mousekey code
  | 0b1000 => .layer (n/1024 % 4) (n/256 % 4) (n/32 % 8) (n/16 % 2 = 1) (n % 16)
  | 0b1001 => .layerMods (n/256 % 16) (BitVec.ofNat 8 (n % 256))
  | 0b1010 | 0b1011 => .layerTap (n/256 % 32) code
  | _ => .other

/-- The codes of `ACT_MODS_TAP` that are none, and those of `ACT_LAYER_TAP`. -/
inductive ModsTapOp where
  | oneshot | tapToggle | tapKey

def modsTapOp (code : UInt8) : ModsTapOp :=
  if code = 0x00 then .oneshot else if code = 0x01 then .tapToggle else .tapKey

inductive LayerTapOp where
  | tapToggle | onOff | offOn | setClear | oneshot | tapKey

def layerTapOp (code : UInt8) : LayerTapOp :=
  if code = 0xF0 then .tapToggle
  else if code = 0xF1 then .onOff
  else if code = 0xF2 then .offOn
  else if code = 0xF3 then .setClear
  else if code = 0xF4 then .oneshot
  else .tapKey

def pageSystem : Nat := 0
def pageConsumer : Nat := 1
def onPress : Nat := 1
def onRelease : Nat := 2

inductive CodeKind where
  | no | basic | modifier | system | consumer | mouse | none

def codeKind (code : UInt8) : CodeKind :=
  if code = 0 then .no
  else if 0x04 ≤ code ∧ code ≤ 0xA4 then .basic
  else if isModifierKeycode code then .modifier
  else if 0xA5 ≤ code ∧ code ≤ 0xA7 then .system
  else if 0xA8 ≤ code ∧ code ≤ 0xC2 then .consumer
  else if 0xCD ≤ code ∧ code ≤ 0xDF then .mouse
  else .none

/-- `MOD_BIT`. -/
def modBit (code : UInt8) : BitVec 8 := BitVec.twoPow 8 (code.toNat % 8)

def keycode2System (code : UInt8) : UInt16 :=
  [0x0081,0x0082,0x0083].getD (code.toNat-0xA5) 0

/-- From `KC_AUDIO_MUTE` on. -/
def keycode2Consumer (code : UInt8) : UInt16 :=
  [0x00E2,0x00E9,0x00EA,0x00B5,0x00B6,0x00B7,0x00CD,0x0183,0x00CC,0x018A,0x0192,0x0194,0x0221,
    0x0223,0x0224,0x0225,0x0226,0x0227,0x022A,0x00B3,0x00B4,0x006F,0x0070,0x019F,0x01CB,0x029F,
    0x02A0].getD (code.toNat-0xA8) 0

/-- What the build is made for. -/
structure Build where
  layers : Layers.Config
  nkro : Bool
  tappingToggle : Nat

variable (b : Build)

/-- The mouse keys are those that are on, the last report is the one that the host has. -/
structure State where
  layers : Layers.State b.layers
  oneshotLayerData : LayerData
  oneshotEnable : Bool
  realMods : BitVec 8
  weakMods : BitVec 8
  oneshotMods : BitVec 8
  report : Reports
  lastReport : BitVec 8 × Reports
  lastSystemUsage : UInt16
  lastConsumerUsage : UInt16
  mouse : UInt8 → Bool

variable {b}

def hasAnykey (nkro : Bool) (r : Reports) : Bool :=
  if nkro then (List.range Report.nkroReportBits).any fun i => r.bits i != 0
  else (List.finRange Report.keyboardReportKeys).any fun i => r.keys i != 0

def sendKeyboardReport (s : State b) : State b :=
  { s with
    lastReport := (s.realMods ||| s.weakMods ||| s.oneshotMods,s.report)
    oneshotMods := if hasAnykey b.nkro s.report then 0 else s.oneshotMods }

def addMods (mods : BitVec 8) (s : State b) : State b := { s with realMods := s.realMods ||| mods }

def delMods (mods : BitVec 8) (s : State b) : State b :=
  { s with realMods := s.realMods &&& ~~~mods }

def addWeakMods (mods : BitVec 8) (s : State b) : State b :=
  { s with weakMods := s.weakMods ||| mods }

def delWeakMods (mods : BitVec 8) (s : State b) : State b :=
  { s with weakMods := s.weakMods &&& ~~~mods }

def clearWeakMods (s : State b) : State b := { s with weakMods := 0 }

def addOneshotMods (mods : BitVec 8) (s : State b) : State b :=
  { s with oneshotMods := s.oneshotMods ||| mods }

def delOneshotMods (mods : BitVec 8) (s : State b) : State b :=
  { s with oneshotMods := s.oneshotMods &&& ~~~mods }

def addKey (code : UInt8) (s : State b) : State b :=
  { s with report := addKeyToReport b.nkro code s.report }

def delKey (code : UInt8) (s : State b) : State b :=
  { s with report := delKeyFromReport b.nkro code s.report }

def hostSystemSend (usage : UInt16) (s : State b) : State b := { s with lastSystemUsage := usage }

def hostConsumerSend (usage : UInt16) (s : State b) : State b :=
  { s with lastConsumerUsage := usage }

def registerMouse (code : UInt8) (pressed : Bool) (s : State b) : State b :=
  { s with mouse := Function.update s.mouse code pressed }

/-- A keycode that is in the report already is taken out first, so that it is pressed again. -/
def registerCode (code : UInt8) (s : State b) : State b :=
  match codeKind code with
  | .basic =>
    let s := if isKeyPressed b.nkro code s.report then sendKeyboardReport (delKey code s) else s
    sendKeyboardReport (addKey code s)
  | .modifier => sendKeyboardReport (addMods (modBit code) s)
  | .system => hostSystemSend (keycode2System code) s
  | .consumer => hostConsumerSend (keycode2Consumer code) s
  | .mouse => registerMouse code true s
  | .no | .none => s

def unregisterCode (code : UInt8) (s : State b) : State b :=
  match codeKind code with
  | .basic => sendKeyboardReport (delKey code s)
  | .modifier => sendKeyboardReport (delMods (modBit code) s)
  | .system => hostSystemSend 0 s
  | .consumer => hostConsumerSend 0 s
  | .mouse => registerMouse code false s
  | .no | .none => s

def registerMods (mods : BitVec 8) (s : State b) : State b :=
  if mods ≠ 0 then sendKeyboardReport (addMods mods s) else s

def unregisterMods (mods : BitVec 8) (s : State b) : State b :=
  if mods ≠ 0 then sendKeyboardReport (delMods mods s) else s

def clearKeysFromReport (nkro : Bool) (r : Reports) : Reports :=
  if nkro then { r with bits := fun _ => 0 } else { r with keys := fun _ => 0 }

/-- Layers and one-shot keys stay. -/
def clearKeyboard (s : State b) : State b :=
  let s := { s with realMods := 0, report := clearKeysFromReport b.nkro s.report }
  let s := clearWeakMods (hostConsumerSend 0 (hostSystemSend 0 s))
  { sendKeyboardReport s with mouse := fun _ => false }

def layerStateSet (state : BitVec b.layers.size.width) (s : State b) : State b :=
  { s with layers := { s.layers with layerState := state } }

def layerBit (layer : Nat) : BitVec b.layers.size.width := BitVec.twoPow _ layer

def layerOn (layer : Nat) (s : State b) : State b :=
  layerStateSet (s.layers.layerState ||| layerBit layer) s

def layerOff (layer : Nat) (s : State b) : State b :=
  layerStateSet (s.layers.layerState &&& ~~~layerBit layer) s

def layerInvert (layer : Nat) (s : State b) : State b :=
  layerStateSet (s.layers.layerState ^^^ layerBit layer) s

def layerMove (layer : Nat) (s : State b) : State b := layerStateSet (layerBit layer) s

def layerClear (s : State b) : State b := layerStateSet 0 s

def defaultLayerSet (state : BitVec b.layers.size.width) (s : State b) : State b :=
  { s with layers := { s.layers with defaultLayerState := state } }

def setOneshotLayer (layer : Nat) (state : BitVec 3) (s : State b) : State b :=
  if s.oneshotEnable then layerOn layer { s with oneshotLayerData := ⟨layer,state⟩ }
  else layerOn layer s

def clearOneshotLayerState (state : BitVec 3) (s : State b) : State b :=
  let start := s.oneshotLayerData
  let s := { s with oneshotLayerData := ⟨start.layer,start.state &&& ~~~state⟩ }
  if s.oneshotLayerData.state = 0 ∧ start ≠ s.oneshotLayerData ∧ s.oneshotEnable then
    { layerOff s.oneshotLayerData.layer s with oneshotLayerData := ⟨0,0⟩ }
  else s

def isOneshotLayerActive (s : State b) : Bool := decide (s.oneshotLayerData.state ≠ 0)

def oneshotSet (active : Bool) (s : State b) : State b :=
  if s.oneshotEnable ≠ active then
    clearOneshotLayerState oneshotOtherKeyPressed { s with oneshotEnable := active }
  else s

structure Record where
  key : KeyPos
  pressed : Bool
  tapCount : Nat
  deriving DecidableEq, Repr

def modsKey (mods : BitVec 8) (code : UInt8) (pressed : Bool) (s : State b) : State b :=
  let strong := isModifierKeycode code || code == 0
  if pressed then
    let s := if mods ≠ 0 then
        sendKeyboardReport (if strong then addMods mods s else addWeakMods mods s)
      else s
    registerCode code s
  else
    let s := unregisterCode code s
    if mods ≠ 0 then sendKeyboardReport (if strong then delMods mods s else delWeakMods mods s)
    else s

def oneshotModsKey (mods : BitVec 8) (pressed : Bool) (tapCount : Nat) (s : State b) : State b :=
  if !s.oneshotEnable then modsKey mods 0 pressed s
  else if pressed then
    if tapCount = 0 then registerMods mods s
    else if tapCount = 1 then addOneshotMods mods s
    else s
  else if tapCount = 0 then delOneshotMods mods (unregisterMods mods s)
  else s

def modsTapKey (mods : BitVec 8) (code : UInt8) (pressed : Bool) (tapCount : Nat) (s : State b) :
    State b :=
  match modsTapOp code with
  | .oneshot => oneshotModsKey mods pressed tapCount s
  | .tapToggle =>
    if pressed then if tapCount ≤ b.tappingToggle then registerMods mods s else s
    else if tapCount < b.tappingToggle then unregisterMods mods s else s
  | .tapKey =>
    if 0 < tapCount then if pressed then registerCode code s else unregisterCode code s
    else if pressed then registerMods mods s else unregisterMods mods s

/-- The four bits of a part of the layer state, and the other parts with the extra bit. -/
def layerBits (part : Nat) (xbit : Bool) (bits : Nat) : BitVec b.layers.size.width :=
  (BitVec.ofNat _ bits <<< (part*4))
    ||| if xbit then ~~~(BitVec.ofNat _ 0xF <<< (part*4)) else 0

def bitOp (op : Nat) (state bits : BitVec b.layers.size.width) : BitVec b.layers.size.width :=
  match op with
  | 0 => state &&& bits
  | 1 => state ||| bits
  | 2 => state ^^^ bits
  | _ => bits

def layerKey (op on : Nat) (bits : BitVec b.layers.size.width) (pressed : Bool) (s : State b) :
    State b :=
  if on = 0 then
    if pressed then s else defaultLayerSet (bitOp op s.layers.defaultLayerState bits) s
  else if on &&& (if pressed then onPress else onRelease) ≠ 0 then
    layerStateSet (bitOp op s.layers.layerState bits) s
  else s

def oneshotLayerKey (layer : Nat) (pressed : Bool) (tapCount : Nat) (s : State b) : State b :=
  if !s.oneshotEnable then if pressed then layerOn layer s else layerOff layer s
  else if pressed then setOneshotLayer layer oneshotStart s
  else
    let s := clearOneshotLayerState oneshotPressed s
    if 1 < tapCount then clearOneshotLayerState oneshotOtherKeyPressed s else s

def layerTapKey (val : Nat) (code : UInt8) (pressed : Bool) (tapCount : Nat) (s : State b) :
    State b :=
  match layerTapOp code with
  | .tapToggle =>
    if pressed then if tapCount < b.tappingToggle then layerInvert val s else s
    else if tapCount ≤ b.tappingToggle then layerInvert val s else s
  | .onOff => if pressed then layerOn val s else layerOff val s
  | .offOn => if pressed then layerOff val s else layerOn val s
  | .setClear => if pressed then layerMove val s else layerClear s
  | .oneshot => oneshotLayerKey val pressed tapCount s
  | .tapKey =>
    if 0 < tapCount then if pressed then registerCode code s else unregisterCode code s
    else if pressed then layerOn val s else layerOff val s

def performAction (pressed : Bool) (tapCount : Nat) (act : Act) (s : State b) : State b :=
  match act with
  | .mods mods code => modsKey mods code pressed s
  | .modsTap mods code => modsTapKey mods code pressed tapCount s
  | .usage page code =>
    let usage := if pressed then code else 0
    if page = pageSystem then hostSystemSend usage s
    else if page = pageConsumer then hostConsumerSend usage s
    else s
  | .mousekey code => registerMouse code pressed s
  | .layer op on part xbit bits => layerKey op on (layerBits part xbit bits) pressed s
  | .layerMods layer mods =>
    if pressed then registerMods mods (layerOn layer s)
    else layerOff layer (unregisterMods mods s)
  | .layerTap val code => layerTapKey val code pressed tapCount s
  | .other => s

/-- The low byte is compared whatever the kind is. -/
def clearsOneshotLayer (a : UInt16) (tapCount : Nat) : Bool :=
  let code := UInt8.ofNat (actionCode a)
  actionKind a == 0b0100 || !(isModifierKeycode code
    || (actionKind a == 0b0010 || actionKind a == 0b0011)
      && (code ≤ 0x01 || tapCount == 0))

def isLayerAction (a : UInt16) : Bool := 0b1000 ≤ actionKind a && actionKind a ≤ 0b1011

def processAction (r : Record) (a : UInt16) (s : State b) : Bool × State b :=
  let clears := isOneshotLayerActive s && r.pressed && clearsOneshotLayer a r.tapCount
    && s.oneshotEnable
  let s := if clears then clearOneshotLayerState oneshotOtherKeyPressed s else s
  let release := clears && !isOneshotLayerActive s && !isLayerAction a
  let s := performAction r.pressed r.tapCount (decode a) s
  (release && s.oneshotLayerData.state &&& oneshotPressed == 0,s)

def storeOrGetAction (pressed : Bool) (key : KeyPos) (s : State b) : UInt16 × State b :=
  let r := Layers.storeOrGetAction pressed key s.layers
  (r.1,{ s with layers := r.2 })

/-- A release is never followed by another one. -/
def processRelease (r : Record) (s : State b) : State b :=
  let stored := storeOrGetAction false r.key s
  (processAction { r with pressed := false } stored.1 stored.2).2

/-- `consumed` is the negated result of `process_record_quantum`. -/
def processRecord (consumed : Bool) (r : Record) (s : State b) : State b :=
  if consumed then
    if isOneshotLayerActive s && r.pressed && s.oneshotEnable then
      clearOneshotLayerState oneshotOtherKeyPressed s
    else s
  else
    let stored := storeOrGetAction r.pressed r.key s
    let done := processAction r stored.1 stored.2
    if done.1 then
      let s := processRelease r (layerOn done.2.oneshotLayerData.layer done.2)
      layerOff s.oneshotLayerData.layer s
    else done.2

end QmkFirmware.Action
