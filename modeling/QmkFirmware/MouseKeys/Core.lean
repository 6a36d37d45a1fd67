import Mathlib.Algebra.Order.Ring.Int
import Mathlib.Logic.Function.Basic

/-!
`mousekey.c` in the accelerated, combined and inertia modes.
-/

set_option autoImplicit false

namespace QmkFirmware.MouseKeys

/-- `x` and `h` are horizontal, `y` and `v` vertical. -/
inductive Axis where
  | horizontal
  | vertical
  deriving DecidableEq, Repr

inductive Code where
  /-- Forward is right and down. -/
  | cursor (axis : Axis) (forward : Bool)
  /-- Forward is up and right. -/
  | wheel (axis : Axis) (forward : Bool)
  | button (n : Fin 8)
  | acceleration (n : Fin 3)
  deriving DecidableEq

def qkMouseCursorUp : Code := .cursor .vertical false
def qkMouseCursorDown : Code := .cursor .vertical true
def qkMouseCursorLeft : Code := .cursor .horizontal false
def qkMouseCursorRight : Code := .cursor .horizontal true
def qkMouseWheelUp : Code := .wheel .vertical true
def qkMouseWheelDown : Code := .wheel .vertical false
def qkMouseWheelLeft : Code := .wheel .horizontal false
def qkMouseWheelRight : Code := .wheel .horizontal true

inductive Mode where
  | accelerated
  | combined
  | inertia
  deriving DecidableEq, Repr

/-- The constants and tunables of a build. `overlapReset` has the two deltas of
`MOUSEKEY_OVERLAP_RESET` if it is defined. -/
structure Config where
  mode : Mode
  delay : UInt8
  interval : UInt8
  maxSpeed : UInt8
  timeToMax : UInt8
  wheelDelay : UInt8
  wheelInterval : UInt8
  wheelMaxSpeed : UInt8
  wheelTimeToMax : UInt8
  moveDelta : Nat
  wheelDelta : Nat
  moveMax : Nat
  wheelMax : Nat
  friction : Nat
  overlapReset : Option (UInt8 × UInt8)
  moveMax_pos : 1 ≤ moveMax
  moveMax_le : moveMax ≤ 127
  wheelMax_pos : 1 ≤ wheelMax
  wheelMax_le : wheelMax ≤ 127
  friction_pos : mode = .inertia → 1 ≤ friction
  friction_le : mode = .inertia → friction ≤ 255
  timeToMax_pos : mode = .inertia → 1 ≤ timeToMax.toNat
  timeToMax_le : mode = .inertia → timeToMax.toNat ≤ 127

/-- `report_mouse_t`. -/
structure Report where
  cursor : Axis → Int
  wheel : Axis → Int
  buttons : BitVec 8

structure State where
  report : Report
  accel : BitVec 3
  moveRepeat : UInt8
  wheelRepeat : UInt8
  frame : UInt8
  dir : Axis → Int
  inertia : Axis → Int
  lastTimerC : UInt16
  lastTimerW : UInt16

def init : State :=
  { report := ⟨fun _ => 0,fun _ => 0,0⟩, accel := 0, moveRepeat := 0, wheelRepeat := 0, frame := 0,
    dir := fun _ => 0, inertia := fun _ => 0, lastTimerC := 0, lastTimerW := 0 }

/-- An `int8_t`. -/
def int8 (n : Int) : Int := n.bmod (2^8)

/-- An `int16_t`. -/
def int16 (n : Int) : Int := n.bmod (2^16)

def timesInvSqrt2 (x : Int) : Int :=
  let n := int16 (x*181)
  int8 (if n < 0 then (n-256/2).tdiv 256 else (n+256/2).tdiv 256)

variable (cfg : Config)

/-- The units of the accelerated and the combined mode are kept in 16 bits, and then to the
maximum. -/
def limitUnit (unitMax unit : Nat) : Nat :=
  let unit := unit % 2^16
  if unitMax < unit then unitMax else if unit = 0 then 1 else unit

/-- `move_unit` with the parameters of the cursor, `wheel_unit` with those of the wheel. -/
def acceleratedUnit (delta unitMax : Nat) (maxSpeed timeToMax keyRepeat : UInt8) (s : State) : Nat :=
  limitUnit unitMax <|
    if s.accel.getLsbD 0 then delta*maxSpeed.toNat/4
    else if s.accel.getLsbD 1 then delta*maxSpeed.toNat/2
    else if s.accel.getLsbD 2 then delta*maxSpeed.toNat
    else if keyRepeat = 0 then delta
    else if timeToMax ≤ keyRepeat then delta*maxSpeed.toNat
    else delta*maxSpeed.toNat*keyRepeat.toNat/timeToMax.toNat

def combinedUnit (delta unitMax : Nat) (maxSpeed timeToMax keyRepeat : UInt8) (s : State) : Nat :=
  limitUnit unitMax <|
    if s.accel.getLsbD 0 then 1
    else if s.accel.getLsbD 1 then delta*maxSpeed.toNat/2
    else if s.accel.getLsbD 2 then unitMax
    else if keyRepeat = 0 then delta
    else if timeToMax ≤ keyRepeat then delta*maxSpeed.toNat
    else delta*maxSpeed.toNat*keyRepeat.toNat/timeToMax.toNat

/-- `move_unit` of the modes without inertia. -/
def moveUnit (s : State) : Nat :=
  match cfg.mode with
  | .combined => combinedUnit cfg.moveDelta cfg.moveMax cfg.maxSpeed cfg.timeToMax s.moveRepeat s
  | _ => acceleratedUnit cfg.moveDelta cfg.moveMax cfg.maxSpeed cfg.timeToMax s.moveRepeat s

def wheelUnit (s : State) : Nat :=
  match cfg.mode with
  | .combined => combinedUnit cfg.wheelDelta cfg.wheelMax cfg.wheelMaxSpeed cfg.wheelTimeToMax
      s.moveRepeat s
  | _ => acceleratedUnit cfg.wheelDelta cfg.wheelMax cfg.wheelMaxSpeed cfg.wheelTimeToMax
      s.wheelRepeat s

/-- `move_unit` of the inertia mode, for the velocity and the direction of an axis. -/
def inertiaUnit (frame : UInt8) (inertia dir : Int) : Int :=
  let unit := if frame < 2 then int16 (dir*cfg.moveDelta)
    else
      let percent := int16 ((inertia*2^8).tdiv cfg.timeToMax.toNat)
      let percent := int16 (percent*percent/2^8)
      let percent := if inertia < 0 then int16 (-percent) else percent
      int16 (inertia.sign+cfg.maxSpeed.toNat*percent/2^8)
  if cfg.moveMax < unit then cfg.moveMax else if unit < -cfg.moveMax then -cfg.moveMax else unit

def calcInertia (direction velocity : Int) : Int :=
  let velocity := if -1 < direction ∧ velocity < 0 then
      int8 (((velocity+1)*(256-cfg.friction)).tdiv 256)
    else if direction < 1 ∧ 0 < velocity then int8 ((velocity*(256-cfg.friction)).tdiv 256)
    else velocity
  if 0 < direction ∧ velocity < cfg.timeToMax.toNat then int8 (velocity+1)
  else if direction < 0 ∧ -cfg.timeToMax.toNat < velocity then int8 (velocity-1)
  else velocity

def signOf (forward : Bool) : Int := if forward then 1 else -1

def stepAxes (unit : Nat) (kept : Axis → Int) : Axis → Int :=
  let moved := fun axis => if kept axis ≠ 0 then int8 (unit*signOf (0 < kept axis)) else 0
  if moved .horizontal ≠ 0 ∧ moved .vertical ≠ 0 then fun axis =>
    let scaled := timesInvSqrt2 (moved axis)
    if scaled = 0 then 1 else scaled
  else moved

def moves (axes : Axis → Int) : Bool := axes .horizontal != 0 || axes .vertical != 0

def mousekeySend (report : Report) (now : UInt16) (s : State) : State :=
  let s := if moves report.cursor then { s with lastTimerC := now } else s
  if moves report.wheel then { s with lastTimerW := now } else s

def hasMouseReportChanged (new old : Report) : Bool :=
  let axisChanged := fun new old : Int => new != 0 && new != old
  new.buttons != old.buttons
  || axisChanged (new.cursor .horizontal) (old.cursor .horizontal)
  || axisChanged (new.cursor .vertical) (old.cursor .vertical)
  || axisChanged (new.wheel .horizontal) (old.wheel .horizontal)
  || axisChanged (new.wheel .vertical) (old.wheel .vertical)

def shouldMousekeyReportSend (report : Report) : Bool := moves report.cursor || moves report.wheel

def increment (n : UInt8) : UInt8 := if n = 0xFF then n else n+1

def elapsed (last now : UInt16) (again : Bool) (interval delay : UInt8) : Bool :=
  (if again then interval.toNat else delay.toNat*10) < (now-last).toNat

def due (s : State) (now : UInt16) : Bool :=
  elapsed s.lastTimerC now
    (match cfg.mode with | .inertia => 1 < s.frame | _ => s.moveRepeat != 0) cfg.interval cfg.delay

/-- The cursor in `mousekey_task` without inertia: what is reported, and the state. -/
def cursorStep (now : UInt16) (s : State) : (Axis → Int) × State :=
  if moves s.report.cursor && due cfg s now then
    let s := { s with moveRepeat := increment s.moveRepeat }
    (stepAxes (moveUnit cfg s) s.report.cursor,s)
  else (fun _ => 0,s)

def resetStopped (s : State) : State :=
  if s.dir .horizontal = 0 ∧ s.dir .vertical = 0 ∧ s.inertia .horizontal = 0
      ∧ s.inertia .vertical = 0 then
    { s with frame := 0, report := { s.report with cursor := fun _ => 0 } }
  else s

def inertiaFrame (s : State) : (Axis → Int) × State :=
  let s := { s with inertia := fun axis => calcInertia cfg (s.dir axis) (s.inertia axis) }
  let frame := if s.frame < 2 then 1 else s.frame
  let moved := fun axis => inertiaUnit cfg s.frame (s.inertia axis) (s.dir axis)
  -- prevent sticky "drift"
  let kept := fun axis => if s.dir axis = 0 ∧ s.inertia axis = 0 then 0 else s.report.cursor axis
  (moved,{ s with
    frame := if frame < 2 then frame+1 else frame
    report := { s.report with cursor := kept } })

/-- The cursor in `mousekey_task` with inertia. -/
def inertiaStep (now : UInt16) (s : State) : (Axis → Int) × State :=
  let (moved, s) := if s.frame ≠ 0 ∧ due cfg s now = true then inertiaFrame cfg s
    else (fun _ => 0,s)
  (moved,resetStopped s)

def wheelStep (now : UInt16) (s : State) : (Axis → Int) × State :=
  if moves s.report.wheel
      && elapsed s.lastTimerW now (s.wheelRepeat != 0) cfg.wheelInterval cfg.wheelDelay then
    let s := { s with wheelRepeat := increment s.wheelRepeat }
    (stepAxes (wheelUnit cfg s) s.report.wheel,s)
  else (fun _ => 0,s)

def mousekeyTask (now : UInt16) (s : State) : State × Option Report :=
  let (cursor, s) := if cfg.mode = .inertia then inertiaStep cfg now s else cursorStep cfg now s
  let (wheel, s) := wheelStep cfg now s
  let report := ⟨cursor,wheel,s.report.buttons⟩
  if hasMouseReportChanged report s.report || shouldMousekeyReportSend report then
    (mousekeySend report now s,some report)
  else (s,none)

def overlap (s : State) : State :=
  match cfg.overlapReset with
  | some (moveDelta, wheelDelta) =>
    if cfg.mode ≠ .inertia ∧ (moves s.report.cursor || moves s.report.wheel) = true then
      { s with moveRepeat := moveDelta, wheelRepeat := wheelDelta }
    else s
  | none => s

def setCursor (axis : Axis) (n : Int) (s : State) : State :=
  { s with report := { s.report with cursor := Function.update s.report.cursor axis n } }

def setWheel (axis : Axis) (n : Int) (s : State) : State :=
  { s with report := { s.report with wheel := Function.update s.report.wheel axis n } }

def mousekeyOn (code : Code) (s : State) : State :=
  let s := overlap cfg s
  match code with
  | .cursor axis forward =>
    if cfg.mode = .inertia then
      let s := { s with dir := Function.update s.dir axis (signOf forward) }
      if s.frame < 2 then
        setCursor axis (inertiaUnit cfg 1 (s.inertia axis) (s.dir axis)) { s with frame := 1 }
      else s
    else setCursor axis (int8 (moveUnit cfg s*signOf forward)) s
  | .wheel axis forward => setWheel axis (int8 (wheelUnit cfg s*signOf forward)) s
  | .button n =>
    { s with report := { s.report with buttons := s.report.buttons ||| BitVec.twoPow 8 n } }
  | .acceleration n => { s with accel := s.accel ||| BitVec.twoPow 3 n }

def opposes (n : Int) (forward : Bool) : Bool := n*signOf forward < 0

def mousekeyOff (code : Code) (s : State) : State :=
  let s := match code with
    | .cursor axis forward =>
      if cfg.mode = .inertia then
        if opposes (s.dir axis) forward then s
        else { s with dir := Function.update s.dir axis 0 }
      else if 0 < s.report.cursor axis*signOf forward then setCursor axis 0 s else s
    | .wheel axis forward =>
      if 0 < s.report.wheel axis*signOf forward then setWheel axis 0 s else s
    | .button n =>
      { s with report := { s.report with buttons := s.report.buttons &&& ~~~BitVec.twoPow 8 n } }
    | .acceleration n => { s with accel := s.accel &&& ~~~BitVec.twoPow 3 n }
  let s := if moves s.report.cursor then s else { s with moveRepeat := 0 }
  if moves s.report.wheel then s else { s with wheelRepeat := 0 }

/-- `sent` is the report that the last call sent. -/
structure World where
  state : State
  down : Code → Bool
  sent : Option Report

def start : World := ⟨init,fun _ => false,none⟩

inductive Input where
  /-- The key is pressed, or released if it is down. -/
  | key (code : Code)
  | send (now : UInt16)
  | task (now : UInt16)

def next (v : World) : Input → World
  | .key code =>
    if v.down code then ⟨mousekeyOff cfg code v.state,Function.update v.down code false,none⟩
    else ⟨mousekeyOn cfg code v.state,Function.update v.down code true,none⟩
  | .send now => ⟨mousekeySend v.state.report now v.state,v.down,some v.state.report⟩
  | .task now =>
    let (s, sent) := mousekeyTask cfg now v.state
    ⟨s,v.down,sent⟩

end QmkFirmware.MouseKeys
