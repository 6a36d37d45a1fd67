import QmkFirmware.AutoShift.Core
import QmkFirmware.Report.Keys

/-!
`process_key_override.c` for overrides without custom actions, and the default action behind it.
-/

set_option autoImplicit false

namespace QmkFirmware.KeyOverride

def kcNo : UInt16 := 0

def safeRange : UInt16 := 0x7E40

def qkKeyOverrideToggle : UInt16 := 0x7C5D
def qkKeyOverrideOn : UInt16 := 0x7C5E
def qkKeyOverrideOff : UInt16 := 0x7C5F

def isBasicKeycode (code : UInt16) : Bool := 0x04 ≤ code && code ≤ 0xA4

def isModifierKeycode (code : UInt16) : Bool := 0xE0 ≤ code && code ≤ 0xE7

/-- `MOD_BIT`. -/
def modBit (code : UInt16) : BitVec 8 := BitVec.twoPow 8 (code.toNat % 8)

def clearModsFrom (keycode : UInt16) : UInt16 :=
  if 0x0100 ≤ keycode && keycode ≤ 0x1FFF then keycode &&& ~~~0x1F00 else keycode

def koOptionActivationTriggerDown : BitVec 8 := BitVec.twoPow 8 0
def koOptionActivationRequiredModDown : BitVec 8 := BitVec.twoPow 8 1
def koOptionActivationNegativeModUp : BitVec 8 := BitVec.twoPow 8 2

def koOptionsAllActivations : BitVec 8 :=
  koOptionActivationNegativeModUp ||| koOptionActivationRequiredModDown
    ||| koOptionActivationTriggerDown

def koOptionOneMod : BitVec 8 := BitVec.twoPow 8 3
def koOptionNoReregisterTrigger : BitVec 8 := BitVec.twoPow 8 4
def koOptionNoUnregisterOnOtherKeyDown : BitVec 8 := BitVec.twoPow 8 5

/-- `key_override_t` without a custom action; the trigger and the replacement, without its
modifiers, are basic keycodes or `KC_NO`. Overrides are told apart by their `address`, and `enabled`
is where the flag is, if there is one. -/
structure Override where
  address : Nat
  trigger : UInt16
  triggerMods : BitVec 8
  layers : BitVec 32
  negativeModMask : BitVec 8
  suppressedMods : BitVec 8
  replacement : UInt16
  options : BitVec 8
  enabled : Option Nat
  trigger_basic : trigger = kcNo ∨ isBasicKeycode trigger = true
  replacement_basic :
    clearModsFrom replacement = kcNo ∨ isBasicKeycode (clearModsFrom replacement) = true

structure State where
  activeOverride : Option Override
  triggerIsDown : Bool
  lastKeyDown : UInt16
  lastKeyDownTime : UInt32
  deferReferenceTime : UInt32
  deferDelay : UInt32
  deferredRegister : UInt16
  enabled : Bool
  mods : BitVec 8
  weakOverrideMods : BitVec 8
  suppressedMods : BitVec 8
  report : Report.Reports

def init : State :=
  { activeOverride := none, triggerIsDown := false, lastKeyDown := 0, lastKeyDownTime := 0,
    deferReferenceTime := 0, deferDelay := 0, deferredRegister := 0, enabled := true, mods := 0,
    weakOverrideMods := 0, suppressedMods := 0, report := .empty }

/-- What a call finds in the rest of the firmware: the time, the layer of the key, the one-shot
modifiers, locked or not, and the flags that overrides point to. -/
structure Seen where
  now : UInt32
  layer : Nat
  oneshotMods : BitVec 8
  flags : Nat → Bool

/-- The build and its table: `repeatDelay` is `KEY_OVERRIDE_REPEAT_DELAY`, and `nkro` which report
the keys are in. -/
structure Config where
  nkro : Bool
  repeatDelay : UInt32
  overrides : List Override

variable (cfg : Config)

def addKey (code : UInt16) (s : State) : State :=
  { s with report := Report.addKeyToReport cfg.nkro code.toUInt8 s.report }

def delKey (code : UInt16) (s : State) : State :=
  { s with report := Report.delKeyFromReport cfg.nkro code.toUInt8 s.report }

/-- Other keycodes are not part of the keyboard report. -/
def registerCode (code : UInt16) (s : State) : State :=
  if isBasicKeycode code then
    addKey cfg code
      (if Report.isKeyPressed cfg.nkro code.toUInt8 s.report then delKey cfg code s else s)
  else if isModifierKeycode code then { s with mods := s.mods ||| modBit code }
  else s

def unregisterCode (code : UInt16) (s : State) : State :=
  if isBasicKeycode code then delKey cfg code s
  else if isModifierKeycode code then { s with mods := s.mods &&& ~~~modBit code }
  else s

def keyOverrideMatchesActiveModifiers (override : Override) (mods : BitVec 8) : Bool :=
  if override.negativeModMask &&& mods ≠ 0 then false
  else if override.triggerMods = 0 then true
  else if override.options &&& koOptionOneMod ≠ 0 then override.triggerMods &&& mods ≠ 0
  else
    -- each modifier can be active on either side
    let required := override.triggerMods &&& 0xF ||| override.triggerMods >>> 4
    let active := override.triggerMods &&& mods
    (active &&& 0xF ||| active >>> 4) = required

def scheduleDeferredRegister (keycode : UInt16) (now : UInt32) (s : State) : State :=
  if now-s.lastKeyDownTime < cfg.repeatDelay then
    { s with
      deferReferenceTime := s.lastKeyDownTime
      deferDelay := cfg.repeatDelay
      deferredRegister := keycode }
  else { s with deferReferenceTime := now, deferDelay := 50, deferredRegister := keycode }

/-- `KC_NO` and custom keycodes are never registered. -/
def registers (keycode : UInt16) : Bool := keycode != kcNo && keycode < safeRange

def unregisterReplacement (old : Override) (s : State) : State :=
  let replacement := clearModsFrom old.replacement
  if registers replacement then unregisterCode cfg replacement s else s

def reregisterTrigger (old : Override) (allowReregister : Bool) (now : UInt32) (s : State) :
    State :=
  if allowReregister && old.options &&& koOptionNoReregisterTrigger == 0
      && s.triggerIsDown && registers old.trigger
  then scheduleDeferredRegister cfg old.trigger now s else s

def clearActiveOverride (allowReregister : Bool) (now : UInt32) (s : State) : State :=
  match s.activeOverride with
  | none => s
  | some old =>
    let s := { s with deferredRegister := 0, suppressedMods := 0, weakOverrideMods := 0 }
    let s := unregisterReplacement cfg old s
    let s := reregisterTrigger cfg old allowReregister now s
    { s with activeOverride := none, triggerIsDown := false }

def keyOverrideOn (s : State) : State := { s with enabled := true }

def keyOverrideOff (now : UInt32) (s : State) : State :=
  clearActiveOverride cfg false now { s with enabled := false }

def keyOverrideToggle (now : UInt32) (s : State) : State :=
  if s.enabled then keyOverrideOff cfg now s else keyOverrideOn s

def checkActivationEvent (override : Override) (keyDown isMod : Bool) : Bool :=
  let options := if override.options &&& koOptionsAllActivations = 0 then koOptionsAllActivations
    else override.options
  if isMod then
    if keyDown then options &&& koOptionActivationRequiredModDown ≠ 0
    else options &&& koOptionActivationNegativeModUp ≠ 0
  else keyDown && options &&& koOptionActivationTriggerDown != 0

/-- The event of a key, with the modifiers as they are with it. -/
structure Event where
  keycode : UInt16
  keyDown : Bool
  mods : BitVec 8

namespace Event

def isMod (e : Event) : Bool := isModifierKeycode e.keycode

def triggerDown (e : Event) (override : Override) : Bool :=
  override.trigger == e.keycode && e.keyDown

end Event

variable (seen : Seen) (e : Event)

/-- The checks that the loop of `try_activating_override` makes. -/
def activates (s : State) (override : Override) : Bool :=
  !(e.mods == 0 && override.triggerMods != 0)
  && override.layers &&& BitVec.twoPow 32 seen.layer != 0
  && checkActivationEvent override e.keyDown e.isMod
  && !(override.trigger == e.keycode && !e.keyDown)
  && !(s.activeOverride.any fun active => override.address == active.address)
  && override.enabled.all seen.flags
  && keyOverrideMatchesActiveModifiers override e.mods
  && (override.trigger == kcNo || e.triggerDown override || s.lastKeyDown == override.trigger)

def registerReplacement (override : Override) (s : State) : State :=
  let replacement := clearModsFrom override.replacement
  if registers replacement then
    let s := { s with weakOverrideMods := AutoShift.extractModBits override.replacement }
    if e.isMod then scheduleDeferredRegister cfg replacement seen.now s
    else if isBasicKeycode replacement then addKey cfg replacement s
    else registerCode cfg replacement s
  else s

def activate (override : Override) (s : State) : State :=
  let s := clearActiveOverride cfg false seen.now s
  let s := { s with
    activeOverride := some override
    triggerIsDown := true
    suppressedMods := override.suppressedMods }
  let s := if !e.triggerDown override && override.trigger != kcNo
    then unregisterCode cfg override.trigger s else s
  registerReplacement cfg seen e override s

/-- The first result is whether to send the key action, the second `*activated`. -/
def tryActivatingOverride (s : State) : Bool × Bool × State :=
  match cfg.overrides.find? (activates seen e s) with
  | some override => (!e.triggerDown override,true,activate cfg seen e override s)
  | none => (true,false,s)

/-- `register_code16` of the deferred keycode, which has no modifiers. -/
def keyOverrideTask (now : UInt32) (s : State) : State :=
  if s.deferredRegister = 0 then s
  else if s.deferDelay ≤ now-s.deferReferenceTime then
    { registerCode cfg s.deferredRegister s with
      deferredRegister := 0
      deferReferenceTime := 0
      deferDelay := 0 }
  else s

/-- `last_key_down` and the deferred keycode at the event of a key that is no modifier. -/
def trackLastKey (now : UInt32) (s : State) : State :=
  if e.isMod then s
  else if e.keyDown then
    { s with lastKeyDown := e.keycode, lastKeyDownTime := now, deferredRegister := 0 }
  else if e.keycode = s.lastKeyDown then
    { s with lastKeyDown := 0, lastKeyDownTime := 0, deferredRegister := 0 }
  else s

/-- The last part of `process_key_override`, when the event has activated no override. -/
def checkActiveOverride (now : UInt32) (s : State) : State :=
  match s.activeOverride with
  | none => s
  | some active =>
    if e.isMod then
      if keyOverrideMatchesActiveModifiers active e.mods then s
      else clearActiveOverride cfg true now s
    else
      let lifted := e.keycode == active.trigger && !e.keyDown
      let s := if lifted then { s with triggerIsDown := false } else s
      if lifted || e.keyDown && active.options &&& koOptionNoUnregisterOnOtherKeyDown == 0
      then clearActiveOverride cfg false now s else s

def modsAfter (keycode : UInt16) (keyDown : Bool) (mods : BitVec 8) : BitVec 8 :=
  if isModifierKeycode keycode then
    if keyDown then mods ||| modBit keycode else mods &&& ~~~modBit keycode
  else mods

def eventOf (keycode : UInt16) (keyDown : Bool) (s : State) : Event :=
  ⟨keycode,keyDown,modsAfter keycode keyDown (s.mods ||| seen.oneshotMods)⟩

/-- The part of `process_key_override` that runs while key overrides are enabled. -/
def processEnabled (s : State) : Bool × State :=
  let s := trackLastKey e seen.now s
  match if e.isMod || e.keyDown then tryActivatingOverride cfg seen e s else (true,false,s) with
  | (send, true, s) => (send,s)
  | (send, false, s) => (send,checkActiveOverride cfg e seen.now s)

def isControl (keycode : UInt16) : Bool :=
  keycode == qkKeyOverrideToggle || keycode == qkKeyOverrideOn || keycode == qkKeyOverrideOff

def control (keycode : UInt16) (now : UInt32) (s : State) : State :=
  if keycode = qkKeyOverrideToggle then keyOverrideToggle cfg now s
  else if keycode = qkKeyOverrideOn then keyOverrideOn s
  else keyOverrideOff cfg now s

def processKeyOverride (keycode : UInt16) (keyDown : Bool) (s : State) : Bool × State :=
  if keyDown && isControl keycode then (false,control cfg keycode seen.now s)
  else if !s.enabled then (true,s)
  else processEnabled cfg seen (eventOf seen keycode keyDown s) s

def processRecord (keycode : UInt16) (keyDown : Bool) (s : State) : State :=
  match processKeyOverride cfg seen keycode keyDown s with
  | (true, s) => if keyDown then registerCode cfg keycode s else unregisterCode cfg keycode s
  | (false, s) => s

/-- `down` has the keycodes of the keys that are held. -/
structure World (κ : Type) where
  state : State
  down : κ → Option UInt16

def start (κ : Type) : World κ := ⟨init,fun _ => none⟩

inductive Input (κ : Type) where
  /-- The key is pressed, as this keycode, or released if it is down. -/
  | key (k : κ) (keycode : UInt16) (seen : Seen)
  | task (now : UInt32)

def next {κ : Type} [DecidableEq κ] (v : World κ) : Input κ → World κ
  | .task now => ⟨keyOverrideTask cfg now v.state,v.down⟩
  | .key k keycode seen =>
    match v.down k with
    | none => ⟨processRecord cfg seen keycode true v.state,Function.update v.down k (some keycode)⟩
    | some code => ⟨processRecord cfg seen code false v.state,Function.update v.down k none⟩

end QmkFirmware.KeyOverride
