import Mathlib.Logic.Function.Basic
import QmkFirmware.Lib.PackedBits
import QmkFirmware.Lib.Along

/-!
`process_auto_shift.c` without `RETRO_SHIFT`: the modifiers it takes and gives back, and the
keycodes it registers, beside what the rest of the processing does to both.
-/

set_option autoImplicit false

namespace QmkFirmware.AutoShift

def kcNo : UInt16 := 0
def kcLsft : UInt16 := 0xE1
def kcRsft : UInt16 := 0xE5
def asDown : UInt16 := 0x7C10
def asUp : UInt16 := 0x7C11
def asOn : UInt16 := 0x7C13
def asOff : UInt16 := 0x7C14
def asTogg : UInt16 := 0x7C15

/-- `IS_RETRO`: a mod-tap or a layer-tap. -/
def isRetro (keycode : UInt16) : Bool := 0x2000 ≤ keycode && keycode ≤ 0x4FFF

inductive Side where
  | left
  | right
  deriving DecidableEq, Repr

def Side.index : Side → Nat
  | .left => 1
  | .right => 5

/-- `MOD_BIT(KC_LSFT)` and `MOD_BIT(KC_RSFT)`. -/
def Side.bit (side : Side) : BitVec 8 := BitVec.twoPow 8 side.index

def Side.keycode : Side → UInt16
  | .left => kcLsft
  | .right => kcRsft

/-- The build: the keys of `get_auto_shifted_key`, and which macros are defined. `keyRepeat` stands
for `AUTO_SHIFT_REPEAT` and `AUTO_SHIFT_REPEAT_PER_KEY`, and `oneshot` for actions with one-shot
keys and tapping. -/
structure Config where
  autoShifted : UInt16 → Bool
  modifiers : Bool
  keyRepeat : Bool
  noAutoRepeat : Bool
  noAutoRepeatPerKey : Bool
  timeoutPerKey : Bool
  oneshot : Bool
  setup : Bool
  holdOnOtherKeyPress : Bool
  capsWord : Bool

/-- What the functions that a keymap may override answer during a call, and whether Caps Word is
on. -/
structure Answers where
  keyRepeat : Bool
  noAutoRepeat : Bool
  holdOnOtherKeyPress : Bool
  capsWordOn : Bool
  timeout : UInt16
  tappingTerm : UInt16

structure State where
  mods : BitVec 8
  weakMods : BitVec 8
  oneshotMods : BitVec 8
  registered : UInt8 → Bool
  time : UInt16
  timeout : UInt16
  lastkey : UInt16
  enabled : Bool
  lastshifted : Bool
  inProgress : Bool
  cancelling : Side → Bool

variable (cfg : Config) (a : Answers)

def getOneshotMods (s : State) : BitVec 8 := if cfg.oneshot then s.oneshotMods else 0

def extractModBits (code : UInt16) : BitVec 8 :=
  if 0x0100 ≤ code ∧ code ≤ 0x1FFF then
    let mods := BitVec.ofNat 8 ((code.toNat >>> 8) % 16)
    if code &&& 0x1000 ≠ 0 then mods <<< 4 else mods
  else 0

def registerCode16 (code : UInt16) (s : State) : State :=
  { s with
    weakMods := s.weakMods ||| extractModBits code
    registered := Function.update s.registered code.toUInt8 true }

def unregisterCode16 (code : UInt16) (s : State) : State :=
  { s with
    weakMods := s.weakMods &&& ~~~extractModBits code
    registered := Function.update s.registered code.toUInt8 false }

/-- The default `autoshift_press_user`. -/
def autoshiftPressUser (keycode : UInt16) (shifted : Bool) (s : State) : State :=
  let s := if shifted then { s with weakMods := s.weakMods ||| Side.left.bit } else s
  registerCode16 (if isRetro keycode then keycode &&& 0xFF else keycode) s

def autoshiftReleaseUser (keycode : UInt16) (s : State) : State :=
  unregisterCode16 (if isRetro keycode then keycode &&& 0xFF else keycode) s

def cancelShift (side : Side) (s : State) : State :=
  if s.mods &&& side.bit ≠ 0 then
    { s with
      cancelling := Function.update s.cancelling side true
      mods := s.mods &&& ~~~side.bit }
  else s

def cancelShifts (s : State) : State := cancelShift .right (cancelShift .left s)

def restoreShift (side : Side) (s : State) : State :=
  if s.cancelling side then
    { s with
      cancelling := Function.update s.cancelling side false
      mods := s.mods ||| side.bit }
  else s

def autoshiftFlushShift (s : State) : State :=
  let s := if cfg.capsWord ∧ a.capsWordOn then s
    else { s with weakMods := s.weakMods &&& ~~~Side.left.bit }
  restoreShift .right (restoreShift .left s)

def repeats (keycode now : UInt16) (s : State) : Bool :=
  cfg.keyRepeat && keycode = s.lastkey && a.keyRepeat
    && (if !cfg.noAutoRepeat || cfg.noAutoRepeatPerKey then
      !s.lastshifted || cfg.noAutoRepeatPerKey && a.noAutoRepeat else true)
    && now - s.time < a.tappingTerm

def repeatOrWait (keycode now : UInt16) (s : State) : State :=
  if repeats cfg a keycode now s then
    let s := cancelShifts s
    autoshiftPressUser s.lastkey s.lastshifted s
  else
    { s with
      lastshifted := (s.mods ||| getOneshotMods cfg s) &&& Side.left.bit ≠ 0
      oneshotMods := if cfg.oneshot then s.oneshotMods &&& ~~~Side.left.bit else s.oneshotMods
      lastkey := keycode
      time := now
      inProgress := true }

def autoshiftPress (keycode now : UInt16) (s : State) : State :=
  if (s.mods ||| getOneshotMods cfg s) &&& ~~~Side.left.bit ≠ 0 then
    let s := { s with lastkey := kcNo }
    if cfg.modifiers then repeatOrWait cfg a keycode now s
    else
      let s := autoshiftPressUser keycode false s
      { s with oneshotMods := if cfg.oneshot then s.oneshotMods &&& ~~~Side.left.bit
          else s.oneshotMods }
  else repeatOrWait cfg a keycode now s

def timeoutOf (s : State) : UInt16 := if cfg.timeoutPerKey then a.timeout else s.timeout

def preventsRelease : Bool :=
  cfg.keyRepeat && (!cfg.noAutoRepeat || cfg.noAutoRepeatPerKey) && a.keyRepeat
    && !(cfg.noAutoRepeatPerKey && a.noAutoRepeat)

def decideShift (now : UInt16) (s : State) : State :=
  { s with
    inProgress := false
    lastshifted := s.lastshifted || timeoutOf cfg a s ≤ now - s.time }

def resolve (now : UInt16) (s : State) : State :=
  let s := cancelShifts (decideShift cfg a now s)
  autoshiftPressUser s.lastkey s.lastshifted s

def autoshiftEnd (keycode now : UInt16) (matrixTrigger : Bool) (s : State) : State :=
  if s.inProgress ∧ (keycode = s.lastkey ∨ keycode = kcNo) then
    let s := resolve cfg a now s
    if matrixTrigger ∧ preventsRelease cfg a then s
    else
      let s := autoshiftFlushShift cfg a (autoshiftReleaseUser s.lastkey s)
      { s with time := now }
  else
    let s := autoshiftReleaseUser keycode s
    let s := if keycode = s.lastkey then autoshiftFlushShift cfg a s else s
    { s with time := now }

def timeoutOver (now : UInt16) (s : State) : Prop :=
  s.inProgress ∧ timeoutOf cfg a s ≤ now - s.time

instance (now : UInt16) (s : State) : Decidable (timeoutOver cfg a now s) :=
  inferInstanceAs (Decidable (_ ∧ _))

def autoshiftMatrixScan (now : UInt16) (s : State) : State :=
  if timeoutOver cfg a now s then autoshiftEnd cfg a s.lastkey now true s else s

def autoshiftToggle (s : State) : State :=
  autoshiftFlushShift cfg a { s with enabled := !s.enabled }

def autoshiftEnable (s : State) : State := { s with enabled := true }

def autoshiftDisable (s : State) : State := autoshiftFlushShift cfg a { s with enabled := false }

def control (keycode : UInt16) (s : State) : State :=
  if keycode = asTogg then autoshiftToggle cfg a s
  else if keycode = asOn then autoshiftEnable s
  else if keycode = asOff then autoshiftDisable cfg a s
  else if cfg.setup ∧ keycode = asUp then { s with timeout := s.timeout+5 }
  else if cfg.setup ∧ keycode = asDown then { s with timeout := s.timeout-5 }
  else s

def processPress (keycode now : UInt16) (s : State) : State × Bool :=
  let s := if s.inProgress then autoshiftEnd cfg a kcNo now false s else s
  let s := control cfg a keycode s
  if isRetro keycode then ({ s with lastkey := kcNo },true)
  else if !s.enabled then (s,true)
  else if cfg.autoShifted keycode then (autoshiftPress cfg a keycode now s,false)
  else ({ s with lastkey := kcNo },true)

def releaseShift (keycode : UInt16) (s : State) : State :=
  if keycode = kcLsft then { s with cancelling := Function.update s.cancelling .left false }
  else if keycode = kcRsft then { s with cancelling := Function.update s.cancelling .right false }
  else s

/-- With `HOLD_ON_OTHER_KEY_PRESS` a tap-hold key resolves the key in progress at its release. -/
def endsOther (s : State) : Bool :=
  cfg.holdOnOtherKeyPress && s.inProgress && a.holdOnOtherKeyPress

def processRelease (keycode now : UInt16) (s : State) : State × Bool :=
  let s := releaseShift keycode s
  if isRetro keycode then
    if endsOther cfg a s then (autoshiftEnd cfg a kcNo now false s,true)
    else (s,true)
  else if !s.enabled then (s,true)
  else if cfg.autoShifted keycode then (autoshiftEnd cfg a keycode now false s,false)
  else (s,true)

/-- A key as its press is resolved: the modifiers it holds and the keycode it registers where
Auto Shift leaves it to the rest of the processing. -/
structure Key where
  keycode : UInt16
  mods : BitVec 8
  code : Option UInt16
  shift : ∀ side : Side, keycode = side.keycode → mods = side.bit
  shiftable : cfg.autoShifted keycode → keycode ≠ kcNo ∧ mods = 0 ∧ code = some keycode

variable {cfg} {K : Type} [DecidableEq K]

def Key.action (key : Key cfg) (pressed : Bool) (s : State) : State :=
  let s := { s with mods := if pressed then s.mods ||| key.mods else s.mods &&& ~~~key.mods }
  match key.code with
  | some code => if pressed then registerCode16 code s else unregisterCode16 code s
  | none => s

structure World (cfg : Config) (K : Type) where
  state : State
  down : K → Option (Key cfg)

inductive Input (cfg : Config) (K : Type) where
  | press (k : K) (key : Key cfg) (now : UInt16) (a : Answers)
  | release (k : K) (now : UInt16) (a : Answers)
  | scan (now : UInt16) (a : Answers)
  | toggle (a : Answers)
  | enable
  | disable (a : Answers)
  | oneshot (mods : BitVec 8)
  | setTimeout (timeout : UInt16)

/-- Keys are pressed and released in turn. -/
def step (w : World cfg K) : Input cfg K → World cfg K
  | .press k key now a =>
    match w.down k with
    | some _ => w
    | none =>
      let r := processPress cfg a key.keycode now w.state
      ⟨if r.2 then key.action true r.1 else r.1,Function.update w.down k (some key)⟩
  | .release k now a =>
    match w.down k with
    | none => w
    | some key =>
      let r := processRelease cfg a key.keycode now w.state
      ⟨if r.2 then key.action false r.1 else r.1,Function.update w.down k none⟩
  | .scan now a => { w with state := autoshiftMatrixScan cfg a now w.state }
  | .toggle a => { w with state := autoshiftToggle cfg a w.state }
  | .enable => { w with state := autoshiftEnable w.state }
  | .disable a => { w with state := autoshiftDisable cfg a w.state }
  | .oneshot mods => { w with state := { w.state with oneshotMods := mods } }
  | .setTimeout timeout => { w with state := { w.state with timeout := timeout } }

def start (cfg : Config) (K : Type) (enabled : Bool) (timeout : UInt16) : World cfg K :=
  ⟨⟨0,0,0,fun _ => false,0,timeout,kcNo,enabled,false,false,fun _ => false⟩,fun _ => none⟩

end QmkFirmware.AutoShift
