import Mathlib.Algebra.Group.Nat.Defs
import QmkFirmware.Lib.Ring
import QmkFirmware.Tapping.Core

/-!
`process_combo.c` in its default configuration: timers on, no per-combo hooks. What leaves it
is a log: the records handed to `action_tapping_process`, the calls to `process_combo_event`,
and the activations.
-/

set_option autoImplicit false

namespace QmkFirmware.Combos

open Tapping (KeyPos KeyEvent)

def comboTerm : UInt16 := 50
def comboKeyBufferLength : Nat := 8
def comboBufferLength : Nat := 4

/-- `COMBO_END` ends the keys of a combo. It is also the keycode `KC_NO`. -/
def comboEnd : UInt16 := 0

def qkComboOn : UInt16 := 0x7C50
def qkComboOff : UInt16 := 0x7C51
def qkComboToggle : UInt16 := 0x7C52

/-- `keyrecord_t`; its tap state is not looked at here. -/
structure Record where
  event : KeyEvent
  keycode : UInt16
  deriving DecidableEq, Repr

/-- The constant part of `combo_t`. -/
structure Combo where
  keys : List UInt16
  keycode : UInt16
  noEnd : comboEnd ∉ keys

/-- `combo_count` and `combo_get`. -/
structure Table where
  count : Nat
  combo : Nat → Combo

/-- The variable part of `combo_t`. -/
structure Flags where
  active : Bool
  disabled : Bool
  state : BitVec 8
  deriving DecidableEq, Repr

structure QueuedRecord where
  record : Record
  /-- `-1` until a combo is applied. -/
  comboIndex : Option Nat
  keycode : UInt16
  deriving DecidableEq, Repr

inductive Sent where
  /-- A record for `action_tapping_process`, with the combo it stands for. -/
  | tapping (comboIndex : Option Nat) (r : Record)
  /-- A call to `process_combo_event`. -/
  | comboEvent (comboIndex : Nat) (pressed : Bool)
  /-- A combo is activated by these events of the key buffer. -/
  | activated (comboIndex : Nat) (events : List KeyEvent)
  /-- The outcome of `process_combo` for an event: it goes on its way, or it does not. -/
  | through (e : KeyEvent)
  | held (e : KeyEvent)
  deriving DecidableEq, Repr

structure State where
  enabled : Bool
  timer : UInt16
  longestTerm : UInt16
  keyBuffer : List QueuedRecord
  comboBuffer : Ring Nat comboBufferLength
  flags : Nat → Flags
  out : List Sent

def State.start : State where
  enabled := true
  timer := 0
  longestTerm := 0
  keyBuffer := []
  comboBuffer := ⟨fun _ => 0,0,0,by decide,by decide⟩
  flags := fun _ => ⟨false,false,0⟩
  out := []

def State.send (s : State) (x : Sent) : State := { s with out := s.out ++ [x] }

def State.setFlags (s : State) (i : Nat) (f : Flags) : State :=
  { s with flags := Function.update s.flags i f }

def State.activate (s : State) (i : Nat) : State := s.setFlags i { s.flags i with active := true }

def State.disable (s : State) (i : Nat) : State := s.setFlags i { s.flags i with disabled := true }

def timerRead (now : Nat) : UInt16 := UInt16.ofNat now

def timerElapsed (now : Nat) (last : UInt16) : UInt16 := timerRead now-last

variable (t : Table)

def releaseCombo (now i : Nat) (s : State) : State :=
  let combo := t.combo i
  let s := if combo.keycode ≠ 0 then
      s.send (.tapping (some i) ⟨⟨⟨0,0⟩,timerRead now,.combo,false⟩,combo.keycode⟩)
    else s.send (.comboEvent i false)
  s.setFlags i { s.flags i with active := false }

def clearCombos (s : State) : State :=
  let clear (f : Flags) : Flags := if f.active then f else { f with disabled := false, state := 0 }
  { s with longestTerm := 0, flags := fun i => clear (s.flags i) }

/-- What a record of the key buffer is dumped as. A record made a tick is skipped. -/
def dumped (q : QueuedRecord) : List Sent :=
  if q.record.event.isNoEvent then []
  else match q.comboIndex with
    | some i => if q.record.keycode = 0 then [.comboEvent i true] else [.tapping (some i) q.record]
    | none => [.tapping none q.record]

/-- The dump is not entered again while it runs: `process_combo` is called for key events
only, before `action_tapping_process`. -/
def dumpKeyBuffer (s : State) : State :=
  { s with out := s.out ++ s.keyBuffer.flatMap dumped, keyBuffer := [] }

def keyBit (index : Nat) : BitVec 8 := BitVec.ofNat 8 (2^index)

def allComboKeysAreDown (state : BitVec 8) (count : Nat) : Bool := 2^count-1 = state.toNat
def onlyOneKeyIsDown (state : BitVec 8) : Bool := state &&& (state-1) = 0
def keyNotYetReleased (state : BitVec 8) (index : Nat) : Bool := keyBit index &&& state ≠ 0

/-- The last index of the keycode; the key that ends the list is compared as well. -/
def findKeyIndex (keycode : UInt16) : List UInt16 → Nat → Option Nat → Option Nat
  | [], count, index => if keycode = comboEnd then some count else index
  | key :: keys, count, index =>
    findKeyIndex keycode keys (count+1) (if keycode = key then some count else index)

def Combo.keyIndex (c : Combo) (keycode : UInt16) : Option Nat := findKeyIndex keycode c.keys 0 none

def dropComboFromBuffer (i : Nat) (s : State) : State :=
  match s.comboBuffer.indices.find? fun p => s.comboBuffer.slots p = i with
  | none => s
  | some p =>
    let s := s.disable i
    if p = s.comboBuffer.read then { s with comboBuffer := s.comboBuffer.pop } else s

def applyKeys (c : Combo) (i : Nat) : BitVec 8 → List QueuedRecord → Bool × List QueuedRecord
  | _, [] => (false,[])
  | state, q :: qs =>
    match c.keyIndex q.keycode with
    | none => let r := applyKeys c i state qs; (r.1,q :: r.2)
    | some index =>
      let state := state ||| keyBit index
      if allComboKeysAreDown state c.keys.length then
        let event := { q.record.event with type := .combo, key := ⟨0,0⟩ }
        (true,{ q with record := ⟨event,c.keycode⟩, comboIndex := some i } :: qs)
      else
        let event := { q.record.event with type := .tick }
        let r := applyKeys c i state qs
        (r.1,{ q with record := { q.record with event := event } } :: r.2)

/-- The records that the loop of `apply_combo` makes the combo's, up to the one that completes
it. -/
def claimed (c : Combo) : BitVec 8 → List QueuedRecord → List QueuedRecord
  | _, [] => []
  | state, q :: qs =>
    match c.keyIndex q.keycode with
    | none => claimed c state qs
    | some index =>
      let state := state ||| keyBit index
      if allComboKeysAreDown state c.keys.length then [q] else q :: claimed c state qs

def applyCombo (now i : Nat) (s : State) : State :=
  if (s.flags i).disabled then s else
  let c := t.combo i
  let r := applyKeys c i 0 s.keyBuffer
  let events := (claimed c 0 s.keyBuffer).map fun q => q.record.event
  let s := { s with keyBuffer := r.2 }
  let s := if r.1 then
      let s := (s.send (.activated i events)).activate i
      if c.keys.length = 1 then releaseCombo t now i s else s
    else s
  dropComboFromBuffer i s

def applyCombos (now : Nat) (s : State) : State :=
  clearCombos (dumpKeyBuffer
    (s.comboBuffer.indices.foldl (fun s' p => applyCombo t now (s'.comboBuffer.slots p) s') s))

def overlaps (i j : Nat) : Option Nat :=
  let keys₁ := (t.combo i).keys
  let keys₂ := (t.combo j).keys
  if keys₁.any fun k => keys₂.contains k then
    if keys₂.length < keys₁.length then some j else some i
  else none

def dropOverlaps (i : Nat) : List Nat → State → State × Bool
  | [], s => (s,false)
  | p :: ps, s =>
    let buffered := s.comboBuffer.slots p
    match overlaps t buffered i with
    | none => dropOverlaps i ps s
    | some drop =>
      let s := s.disable drop
      if drop = i then (s,true)
      else if p = s.comboBuffer.read && drop = buffered then
        dropOverlaps i ps { s with comboBuffer := s.comboBuffer.pop }
      else dropOverlaps i ps s

/-- `KEY_STATE_DOWN`; the longest term is kept up to date. -/
def State.keyDown (s : State) (i index : Nat) : State :=
  let f := s.flags i
  let s := s.setFlags i { f with state := f.state ||| keyBit index }
  if s.longestTerm < comboTerm then { s with longestTerm := comboTerm } else s

/-- `KEY_STATE_UP`. -/
def State.keyUp (s : State) (i index : Nat) : State :=
  let f := s.flags i
  s.setFlags i { f with state := f.state &&& ~~~keyBit index }

def comboKeyDown (now i index : Nat) (s : State) : State :=
  let s := if (s.flags i).active then s else s.keyDown i index
  if allComboKeysAreDown (s.flags i).state (t.combo i).keys.length then
    -- its term has passed
    if s.timer ≠ 0 && comboTerm < timerElapsed now s.timer then s.disable i
    else
      let r := dropOverlaps t i s.comboBuffer.indices s
      if r.2 then r.1 else { r.1 with comboBuffer := r.1.comboBuffer.push i }
  else s

def chordRelease (now i index : Nat) (part : Bool) (s : State) : State × Bool :=
  let f := s.flags i
  let r : State × Bool :=
    if !f.active && allComboKeysAreDown f.state (t.combo i).keys.length then
      if f.disabled then (dropComboFromBuffer i s,false) else (s,part)
    else if f.active && onlyOneKeyIsDown f.state && keyNotYetReleased f.state index then
      (releaseCombo t now i s,true)
    else if f.active && keyNotYetReleased f.state index then (s,true)
    else (s,false)
  (r.1.keyUp i index,r.2)

/-- True is `COMBO_KEY_PRESSED`. -/
def processSingleCombo (e : KeyEvent) (keycode : UInt16) (now i : Nat) (s : State) :
    State × Bool :=
  match (t.combo i).keyIndex keycode with
  | none => (s,false)
  | some index =>
    let part := !(s.flags i).disabled && s.enabled
    if e.pressed && part then (comboKeyDown t now i index s,true)
    else chordRelease t now i index part s

def comboDisable (s : State) : State :=
  dumpKeyBuffer (clearCombos
    { s with timer := 0, enabled := false, comboBuffer := s.comboBuffer.drain })

def processCombos (e : KeyEvent) (keycode : UInt16) (now : Nat) (s : State) : State × Bool :=
  (List.range t.count).foldl (fun r i =>
    let r' := processSingleCombo t e keycode now i r.1
    (r'.1,r.2 || r'.2)) (s,false)

def processCombo (e : KeyEvent) (keycode : UInt16) (now : Nat) (s : State) : State × Bool :=
  if keycode = qkComboOn && e.pressed then ({ s with enabled := true },true)
  else if keycode = qkComboOff && e.pressed then (comboDisable s,true)
  else if keycode = qkComboToggle && e.pressed then
    (if s.enabled then comboDisable s else { s with enabled := true },true)
  else
    let r := processCombos t e keycode now s
    let s := r.1
    if e.pressed && r.2 then
      let s := { s with timer := timerRead now }
      if s.keyBuffer.length < comboKeyBufferLength then
        ({ s with keyBuffer := s.keyBuffer ++ [⟨⟨e,0⟩,none,keycode⟩] },false)
      else (s,false)
    else if !s.comboBuffer.isEmpty then (applyCombos t now s,!r.2)
    else (clearCombos { dumpKeyBuffer s with timer := 0 },!r.2)

def comboTask (now : Nat) (s : State) : State :=
  if !s.enabled then s
  else if s.timer ≠ 0 && s.longestTerm < timerElapsed now s.timer then
    if !s.comboBuffer.isEmpty then { applyCombos t now s with longestTerm := 0, timer := 0 }
    else { clearCombos (dumpKeyBuffer s) with timer := 0 }
  else s

/-- A key event with the keycode of its key, or a call to `combo_task`, at a time. -/
inductive Input where
  | key (e : KeyEvent) (keycode : UInt16) (now : Nat)
  | task (now : Nat)
  deriving DecidableEq, Repr

def step (s : State) : Input → State
  | .key e keycode now =>
    let r := processCombo t e keycode now s
    r.1.send (if r.2 then .through e else .held e)
  | .task now => comboTask t now s

def run (es : List Input) : State := es.foldl (step t) .start

end QmkFirmware.Combos
