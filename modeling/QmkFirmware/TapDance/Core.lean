import Mathlib.Data.List.FinRange
import Mathlib.Logic.Function.Basic

/-!
`process_tap_dance.c`, with the calls of the callbacks. Of a keycode, `QK_TAP_DANCE` is left out of
its index.
-/

set_option autoImplicit false

namespace QmkFirmware.TapDance

inductive Keycode where
  | tapDance (index : UInt8)
  | other (keycode : Nat)
  deriving DecidableEq, Repr

/-- `tap_dance_state_t`, where no interrupting keycode is `none`. -/
structure DanceState where
  interruptingKeycode : Option Keycode
  count : UInt8
  weakMods : UInt8
  oneshotMods : UInt8
  pressed : Bool
  finished : Bool
  interrupted : Bool
  inUse : Bool
  index : UInt8
  deriving DecidableEq, Repr

def DanceState.unused : DanceState := ⟨none,0,0,0,false,false,false,false,0⟩

/-- What the callbacks of a dance do outside; those of a tap and of a release may set `finished`. -/
structure Action (Ω : Type) where
  onEachTap : DanceState → Ω → Bool × Ω
  onDanceFinished : DanceState → Ω → Ω
  onReset : DanceState → Ω → Ω
  onEachRelease : DanceState → Ω → Bool × Ω

/-- The table, the tapping term, and what this code does to the mods and reports outside. -/
structure Config (Ω : Type) where
  maxSimultaneous : Nat
  tapDanceCount : Nat
  tapDanceGet : UInt8 → Action Ω
  tappingTerm : UInt8 → UInt16
  getMods : Ω → UInt8
  getWeakMods : Ω → UInt8
  getOneshotMods : Ω → UInt8
  addWeakMods : UInt8 → Ω → Ω
  addMods : UInt8 → Ω → Ω
  delWeakMods : UInt8 → Ω → Ω
  delMods : UInt8 → Ω → Ω
  clearWeakMods : Ω → Ω
  sendKeyboardReport : Ω → Ω

inductive Callback where
  | tap | finished | reset | release
  deriving DecidableEq, Repr

variable {Ω : Type} (cfg : Config Ω)

structure State where
  activeTd : Option UInt8
  states : Fin cfg.maxSimultaneous → DanceState
  lastTapTime : UInt16
  calls : List (UInt8 × Callback)
  outside : Ω

variable {cfg}

def State.set (s : State cfg) (a : Fin cfg.maxSimultaneous) (d : DanceState) : State cfg :=
  { s with states := Function.update s.states a d }

def findUsed (tapDanceIdx : UInt8) (s : State cfg) : Option (Fin cfg.maxSimultaneous) :=
  (List.finRange cfg.maxSimultaneous).find? fun a =>
    (s.states a).inUse && decide ((s.states a).index = tapDanceIdx)

def findUnused (s : State cfg) : Option (Fin cfg.maxSimultaneous) :=
  (List.finRange cfg.maxSimultaneous).find? fun a => !(s.states a).inUse

def tapDanceGetOrAllocateState (tapDanceIdx : UInt8) (allocate : Bool) (s : State cfg) :
    Option (Fin cfg.maxSimultaneous) × State cfg :=
  if cfg.tapDanceCount ≤ tapDanceIdx.toNat then (none,s) else
  match findUsed tapDanceIdx s with
  | some a => (some a,s)
  | none =>
    if !allocate then (none,s) else
    match findUnused s with
    | some a => (some a,s.set a { s.states a with index := tapDanceIdx, inUse := true })
    | none => (none,s)

def tapDanceGetState (tapDanceIdx : UInt8) (s : State cfg) : Option (Fin cfg.maxSimultaneous) :=
  (tapDanceGetOrAllocateState tapDanceIdx false s).1

def processOnEachTap (idx : UInt8) (a : Fin cfg.maxSimultaneous) (s : State cfg) : State cfg :=
  let d := { s.states a with
    count := (s.states a).count+1
    weakMods := cfg.getMods s.outside ||| cfg.getWeakMods s.outside
    oneshotMods := cfg.getOneshotMods s.outside }
  let (finish, o) := (cfg.tapDanceGet idx).onEachTap d s.outside
  { s.set a { d with finished := d.finished || finish } with
    calls := s.calls ++ [(idx,.tap)]
    outside := o }

def processOnEachRelease (idx : UInt8) (a : Fin cfg.maxSimultaneous) (s : State cfg) : State cfg :=
  let (finish, o) := (cfg.tapDanceGet idx).onEachRelease (s.states a) s.outside
  { s.set a { s.states a with finished := (s.states a).finished || finish } with
    calls := s.calls ++ [(idx,.release)]
    outside := o }

def processOnReset (idx : UInt8) (a : Fin cfg.maxSimultaneous) (s : State cfg) : State cfg :=
  let o := (cfg.tapDanceGet idx).onReset (s.states a) s.outside
  let o := cfg.delWeakMods (s.states a).weakMods o
  let o := cfg.delMods (s.states a).oneshotMods o
  { s.set a .unused with
    calls := s.calls ++ [(idx,.reset)]
    outside := cfg.sendKeyboardReport o }

def processOnDanceFinished (idx : UInt8) (a : Fin cfg.maxSimultaneous) (s : State cfg) : State cfg :=
  let s :=
    if (s.states a).finished then s else
    let d := { s.states a with finished := true }
    let o := cfg.addWeakMods d.weakMods s.outside
    let o := cfg.sendKeyboardReport (cfg.addMods d.oneshotMods o)
    { s.set a d with
      calls := s.calls ++ [(idx,.finished)]
      outside := (cfg.tapDanceGet idx).onDanceFinished d o }
  let s := { s with activeTd := none }
  if (s.states a).pressed then s else processOnReset idx a s

def preprocessTapDance (keycode : Keycode) (pressed : Bool) (s : State cfg) : Bool × State cfg :=
  if !pressed then (false,s) else
  match s.activeTd with
  | none => (false,s)
  | some td =>
    if keycode = .tapDance td then (false,s) else
    match tapDanceGetState td s with
    | none => (false,s)
    | some a =>
      let s := s.set a { s.states a with interrupted := true, interruptingKeycode := some keycode }
      let s := processOnDanceFinished td a s
      (true,{ s with outside := cfg.clearWeakMods s.outside })

def processTapDance (keycode : Keycode) (pressed : Bool) (now : UInt16) (s : State cfg) :
    Bool × State cfg :=
  match keycode with
  | .other _ => (true,s)
  | .tapDance idx =>
    if cfg.tapDanceCount ≤ idx.toNat then (false,s) else
    match tapDanceGetOrAllocateState idx pressed s with
    | (none, s) => (false,s)
    | (some a, s) =>
      let s := s.set a { s.states a with pressed := pressed }
      if pressed then
        let s := processOnEachTap idx a { s with lastTapTime := now }
        (true,{ s with activeTd := if (s.states a).finished then none else some idx })
      else
        let s := processOnEachRelease idx a s
        if (s.states a).finished then
          let s := processOnReset idx a s
          (true,{ s with activeTd := if s.activeTd = some idx then none else s.activeTd })
        else (true,s)

def tapDanceTask (now : UInt16) (s : State cfg) : State cfg :=
  match s.activeTd with
  | none => s
  | some td =>
    if now-s.lastTapTime ≤ cfg.tappingTerm td then s else
    match tapDanceGetState td s with
    | none => s
    | some a => if (s.states a).interrupted then s else processOnDanceFinished td a s

/-- No two keys have one dance. -/
structure Keymap (κ : Type) where
  keycode : κ → Keycode
  distinct : ∀ {k k' : κ} {idx : UInt8},
    keycode k = .tapDance idx → keycode k' = .tapDance idx → k = k'

inductive Input (κ Ω : Type) where
  | key (key : κ) (now : UInt16)
  | task (now : UInt16)
  | outside (o : Ω)

structure Keyboard (cfg : Config Ω) (κ : Type) where
  state : State cfg
  held : κ → Bool

variable {κ : Type}

def boot (cfg : Config Ω) (o : Ω) : Keyboard cfg κ :=
  ⟨⟨none,fun _ => .unused,0,[],o⟩,fun _ => false⟩

/-- A key event is a release where the key is down, a press where it is up. -/
def Keyboard.next [DecidableEq κ] (m : Keymap κ) (w : Keyboard cfg κ) :
    Input κ Ω → Keyboard cfg κ
  | .key key now =>
    let pressed := !w.held key
    let s := (preprocessTapDance (m.keycode key) pressed w.state).2
    ⟨(processTapDance (m.keycode key) pressed now s).2,Function.update w.held key pressed⟩
  | .task now => { w with state := tapDanceTask now w.state }
  | .outside o => { w with state := { w.state with outside := o } }

end QmkFirmware.TapDance
