import Mathlib.Data.List.Basic

/-!
`action_tapping.c` in the base configuration: no combos, no chordal hold, no flow tap, no
speculative hold, no retro shift. `process_record` is a log. Its entries say which branch
sent them, so that an event sent ahead of the buffer and a synthesized one can be told apart.
-/

set_option autoImplicit false

namespace QmkFirmware.Tapping

structure KeyPos where
  row : UInt8
  col : UInt8
  deriving DecidableEq, Repr

inductive EventType where
  | tick | key | encoderCw | encoderCcw | combo | dipSwitchOn | dipSwitchOff
  deriving DecidableEq, Repr

structure KeyEvent where
  key : KeyPos
  time : UInt16
  type : EventType
  pressed : Bool
  deriving DecidableEq, Repr

def KeyEvent.isNoEvent (e : KeyEvent) : Bool := e.type = .tick

/-- `tap_t`; the count is a 4-bit field that is never counted past 15. -/
structure Tap where
  interrupted : Bool
  count : Nat
  deriving DecidableEq, Repr

structure KeyRecord where
  event : KeyEvent
  tap : Tap
  deriving DecidableEq, Repr

/-- `(keyrecord_t){0}`: its event is a tick. -/
def KeyRecord.zero : KeyRecord := ⟨⟨⟨0,0⟩,0,.tick,false⟩,⟨false,0⟩⟩

/-- The record `action_exec` makes of an event. -/
def KeyEvent.record (e : KeyEvent) : KeyRecord := ⟨e,⟨false,0⟩⟩

/-- The keymap as the engine sees it: the action code of a key and the per-key settings of
a tapping key. -/
structure Config where
  action : KeyPos → UInt16
  tappingTerm : KeyRecord → UInt16
  quickTapTerm : KeyRecord → UInt16
  permissiveHold : KeyRecord → Bool
  holdOnOtherKeyPress : KeyRecord → Bool

def actionKind (a : UInt16) : Nat := a.toNat/4096
def actionMods (a : UInt16) : Nat := a.toNat/256 % 16
def actionCode (a : UInt16) : Nat := a.toNat % 256

def isModifierKeycode (code : Nat) : Bool := 0xE0 ≤ code && code ≤ 0xE7

/-- `is_tap_action`. -/
def isTapAction (a : UInt16) : Bool :=
  match actionKind a with
  | 0b0010 | 0b0011 | 0b1010 | 0b1011 =>
    actionCode a ≤ 0xE7 || actionCode a = 0xF0 || actionCode a = 0xF4
  | 0b0110 => actionCode a ≤ 0xE7 || actionCode a = 0xF1
  | _ => false

def retained (a : UInt16) (tap : Tap) : Bool :=
  match actionKind a with
  | 0b0000 | 0b0001 =>
    actionMods a ≠ 0 && actionCode a = 0 || isModifierKeycode (actionCode a)
  | 0b0010 | 0b0011 =>
    actionMods a ≠ 0 && tap.count = 0 || isModifierKeycode (actionCode a)
  | 0b1010 | 0b1011 =>
    actionCode a < 0xF0 || actionCode a = 0xF1 || actionCode a = 0xF2 || actionCode a = 0xF3
  | _ => false

/-- One call to `process_record`, or the reset on overflow. -/
inductive Sent where
  | record (r : KeyRecord)
  /-- The branch for a key that was pressed before the tapping key. -/
  | early (r : KeyRecord)
  /-- The release made up for a multi-tapped key that another tap key replaces. -/
  | synthesized (r : KeyRecord)
  | clearKeyboard
  deriving DecidableEq, Repr

structure State where
  tappingKey : KeyRecord
  waitingBuffer : List KeyRecord
  out : List Sent
  deriving DecidableEq, Repr

def State.start : State := ⟨.zero,[],[]⟩

def State.send (s : State) (x : Sent) : State := { s with out := s.out ++ [x] }

def waitingBufferSize : Nat := 8

variable (cfg : Config)

def isTapRecord (r : KeyRecord) : Bool :=
  !r.event.isNoEvent && isTapAction (cfg.action r.event.key)

def isTappingRecord (tk r : KeyRecord) : Bool := tk.event.key = r.event.key

/-- `TIMER_DIFF_16` is a 16-bit difference. -/
def withinTappingTerm (tk : KeyRecord) (e : KeyEvent) : Bool :=
  e.time-tk.event.time < cfg.tappingTerm tk

def withinQuickTapTerm (tk : KeyRecord) (e : KeyEvent) : Bool :=
  e.time-tk.event.time < cfg.quickTapTerm tk

def waitingBufferTyped (buffer : List KeyRecord) (e : KeyEvent) : Bool :=
  buffer.any fun b => b.event.key = e.key && e.pressed ≠ b.event.pressed

def tapCandidate (tk b : KeyRecord) : Bool :=
  !b.event.isNoEvent && b.event.key = tk.event.key && !b.event.pressed
    && withinTappingTerm cfg tk b.event

def markCandidate (tk : KeyRecord) : List KeyRecord → Option (List KeyRecord)
  | [] => none
  | b :: bs =>
    if tapCandidate cfg tk b then some ({ b with tap := { b.tap with count := 1 } } :: bs)
    else (markCandidate tk bs).map (b :: ·)

def waitingBufferScanTap (s : State) : State :=
  if 0 < s.tappingKey.tap.count || !s.tappingKey.event.pressed then s else
  match markCandidate cfg s.tappingKey s.waitingBuffer with
  | none => s
  | some buffer =>
    let tk := { s.tappingKey with tap := { s.tappingKey.tap with count := 1 } }
    { s with tappingKey := tk, waitingBuffer := buffer }.send (.record tk)

/-- The outcome of `process_tapping`: its result, the record as it left it, and the state.
The record may be an entry of the buffer; the caller writes it back there. -/
structure Processed where
  done : Bool
  keyp : KeyRecord
  state : State
  deriving DecidableEq, Repr

def processReset (k : KeyRecord) (s : State) : Processed :=
  if k.event.isNoEvent then ⟨true,k,s⟩
  else if k.event.pressed && isTapRecord cfg k then
    ⟨true,k,waitingBufferScanTap cfg { s with tappingKey := k }⟩
  else ⟨true,k,s.send (.record k)⟩

def processUndecided (k : KeyRecord) (s : State) : Processed :=
  let tk := s.tappingKey
  if isTappingRecord tk k && !k.event.pressed then
    -- first tap: enqueue
    let tk := { tk with tap := { tk.tap with count := 1 } }
    ⟨false,{ k with tap := tk.tap },{ s with tappingKey := tk }.send (.record tk)⟩
  else if !k.event.pressed && waitingBufferTyped s.waitingBuffer k.event
      && cfg.permissiveHold tk then
    ⟨false,k,{ s.send (.record tk) with tappingKey := .zero }⟩
  else if !k.event.pressed && !waitingBufferTyped s.waitingBuffer k.event then
    -- a modifier or layer is retained till the end of this tapping
    if retained (cfg.action k.event.key) k.tap then ⟨false,k,s⟩
    else ⟨true,k,s.send (.early k)⟩
  else if k.event.pressed then
    let tk := { tk with tap := { tk.tap with interrupted := true } }
    if cfg.holdOnOtherKeyPress tk then
      ⟨false,k,{ s.send (.record tk) with tappingKey := .zero }⟩
    else ⟨false,k,{ s with tappingKey := tk }⟩
  else ⟨false,k,s⟩

def unregisterRecord (tk : KeyRecord) (time : UInt16) : KeyRecord :=
  ⟨{ tk.event with time := time, pressed := false },tk.tap⟩

/-- The tapping key is pressed and counts as a tap. The branches within and after its term
differ in what becomes of it when it is released. -/
def processTapped (within : Bool) (k : KeyRecord) (s : State) : Processed :=
  let tk := s.tappingKey
  if isTappingRecord tk k && !k.event.pressed then
    let k := { k with tap := tk.tap }
    ⟨true,k,{ s.send (.record k) with tappingKey := if within then k else .zero }⟩
  else if isTapRecord cfg k && k.event.pressed then
    let s := if 1 < tk.tap.count then s.send (.synthesized (unregisterRecord tk k.event.time))
      else s
    ⟨true,k,waitingBufferScanTap cfg { s with tappingKey := k }⟩
  else ⟨true,k,s.send (.record k)⟩

def processPressed (k : KeyRecord) (s : State) : Processed :=
  let tk := s.tappingKey
  if withinTappingTerm cfg tk k.event then
    if k.event.isNoEvent then ⟨true,k,s⟩
    else if tk.tap.count = 0 then processUndecided cfg k s
    else processTapped cfg true k s
  else if tk.tap.count = 0 then
    ⟨false,k,{ s.send (.record tk) with tappingKey := .zero }⟩
  else if k.event.isNoEvent then ⟨true,k,s⟩
  else processTapped cfg false k s

def processReleased (k : KeyRecord) (s : State) : Processed :=
  let tk := s.tappingKey
  if withinTappingTerm cfg tk k.event then
    if k.event.isNoEvent then ⟨true,k,s⟩
    else if k.event.pressed then
      if isTappingRecord tk k then
        if withinQuickTapTerm cfg tk k.event && !tk.tap.interrupted && 0 < tk.tap.count then
          -- sequential tap
          let count := if tk.tap.count < 15 then tk.tap.count+1 else tk.tap.count
          let k := { k with tap := { tk.tap with count := count } }
          ⟨true,k,{ s.send (.record k) with tappingKey := k }⟩
        else ⟨true,k,{ s with tappingKey := k }⟩
      else if isTapRecord cfg k then
        ⟨true,k,waitingBufferScanTap cfg { s with tappingKey := k }⟩
      else
        let tk := { tk with tap := { tk.tap with interrupted := true } }
        ⟨true,k,{ s with tappingKey := tk }.send (.record k)⟩
    else ⟨true,k,s.send (.record k)⟩
  else ⟨false,k,{ s with tappingKey := .zero }⟩

def processTapping (k : KeyRecord) (s : State) : Processed :=
  if s.tappingKey.event.isNoEvent then processReset cfg k s
  else if s.tappingKey.event.pressed then processPressed cfg k s
  else processReleased cfg k s

/-- Enqueue a record that was not consumed; the ring has room for one less than its size.
On overflow all states are cleared. -/
def waitingBufferEnq (k : KeyRecord) (s : State) : State :=
  if k.event.isNoEvent then s
  else if s.waitingBuffer.length+1 = waitingBufferSize then
    { s.send .clearKeyboard with tappingKey := .zero, waitingBuffer := [] }
  else { s with waitingBuffer := s.waitingBuffer ++ [k] }

def receive (k : KeyRecord) (s : State) : State :=
  let p := processTapping cfg k s
  if p.done then p.state else waitingBufferEnq p.keyp p.state

/-- Process the waiting buffer until a record is not consumed. Every round but the last
takes a record out, so the length of the buffer is fuel enough. -/
def drain : Nat → State → State
  | 0, s => s
  | n+1, s =>
    match s.waitingBuffer with
    | [] => s
    | k :: _ =>
      let p := processTapping cfg k s
      if p.done then drain n { p.state with waitingBuffer := p.state.waitingBuffer.tail }
      else { p.state with waitingBuffer := p.keyp :: p.state.waitingBuffer.tail }

def actionTappingProcess (s : State) (e : KeyEvent) : State :=
  let s := receive cfg e.record s
  drain cfg s.waitingBuffer.length s

def run (es : List KeyEvent) : State := es.foldl (actionTappingProcess cfg) .start

end QmkFirmware.Tapping
