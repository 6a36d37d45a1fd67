import QmkFirmware.Lib.TwoEnds

/-!
`process_dynamic_macro.c`. Macro 1 is at the front of the buffer, macro 2 at its back; pointers into
the buffer are indices. A run stops at an access outside the buffer.
-/

set_option autoImplicit false

namespace QmkFirmware.DynamicMacro

open TwoEnds

inductive Keycode where
  | recordStart (slot : End)
  | recordStop
  | play (slot : End)
  | other
  deriving DecidableEq, Repr

/-- What this code needs of a keyboard: its records, with the keycode of their keys, the hook
`dynamic_macro_valid_key_kb`, and the rest of `process_record`, which has the record by reference. -/
structure Keyboard (ρ Ω : Type) where
  size : Nat
  size_pos : 0 < size
  noNesting : Bool
  pressed : ρ → Bool
  keycode : ρ → Keycode
  validKey : ρ → Bool
  processRecord : ρ → Ω → ρ × Ω

structure State (ρ : Type) where
  macroBuffer : Int → ρ
  macroEnd : Int
  rMacroEnd : Int
  macroPointer : Int
  macroId : Option End

def State.endOf {ρ : Type} (s : State ρ) : End → Int
  | .front => s.macroEnd
  | .back => s.rMacroEnd

variable {ρ Ω : Type} (kb : Keyboard ρ Ω)

def init (blank : ρ) : State ρ := ⟨fun _ => blank,0,kb.size-1,0,none⟩

def load (i : Int) (s : State ρ) : Option ρ :=
  if 0 ≤ i ∧ i < kb.size then some (s.macroBuffer i) else none

def store (i : Int) (r : ρ) (s : State ρ) : Option (State ρ) :=
  if 0 ≤ i ∧ i < kb.size then some { s with macroBuffer := Function.update s.macroBuffer i r }
  else none

def dynamicMacroRecordStart (macroBuffer : Int) (s : State ρ) : State ρ :=
  { s with macroPointer := macroBuffer }

def dynamicMacroRecordKey (macroBuffer macro2End direction : Int) (r : ρ) (s : State ρ) :
    Option (State ρ) :=
  if kb.pressed r = false ∧ s.macroPointer = macroBuffer then some s
  else if s.macroPointer-direction ≠ macro2End then do
    let s ← store kb s.macroPointer r s
    some { s with macroPointer := s.macroPointer+direction }
  else some s

/-- Without the presses before the pointer, of which there are no more than `n`. -/
def trimPresses (macroBuffer direction : Int) (s : State ρ) : Nat → Int → Option Int
  | 0, pointer => some pointer
  | n+1, pointer =>
    if pointer = macroBuffer then some pointer else do
    let r ← load kb (pointer-direction) s
    if kb.pressed r then trimPresses macroBuffer direction s n (pointer-direction) else some pointer

def dynamicMacroRecordEnd (macroBuffer direction : Int) (s : State ρ) : Option Int :=
  trimPresses kb macroBuffer direction s kb.size s.macroPointer

def dynamicMacroStopRecording (s : State ρ) : Option (State ρ) :=
  match s.macroId with
  | none => some s
  | some .front => do
    some { s with macroEnd := ← dynamicMacroRecordEnd kb 0 1 s, macroId := none }
  | some .back => do
    some { s with rMacroEnd := ← dynamicMacroRecordEnd kb (kb.size-1) (-1) s, macroId := none }

/-- A call of `dynamic_macro_play`, with the events that it has given to `process_record`. -/
structure Frame (ρ : Type) where
  slot : End
  macroBuffer : Int
  macroEnd : Int
  direction : Int
  replayed : List ρ

def dynamicMacroPlay (s : State ρ) : End → Frame ρ
  | .front => ⟨.front,0,s.macroEnd,1,[]⟩
  | .back => ⟨.back,kb.size-1,s.rMacroEnd,-1,[]⟩

def recordKey (r : ρ) (s : State ρ) : Option (State ρ) :=
  match s.macroId with
  | none => some s
  | some .front => dynamicMacroRecordKey kb 0 s.rMacroEnd 1 r s
  | some .back => dynamicMacroRecordKey kb (kb.size-1) s.macroEnd (-1) r s

def processDynamicMacro (r : ρ) (s : State ρ) : Option (Bool × State ρ × Option (Frame ρ)) :=
  match s.macroId with
  | none =>
    if kb.pressed r then some (true,s,none) else
    match kb.keycode r with
    | .recordStart .front =>
      some (false,{ dynamicMacroRecordStart 0 s with macroId := some .front },none)
    | .recordStart .back =>
      some (false,{ dynamicMacroRecordStart (kb.size-1) s with macroId := some .back },none)
    | .play slot => some (false,s,some (dynamicMacroPlay kb s slot))
    | .recordStop | .other => some (true,s,none)
  | some _ =>
    match kb.keycode r with
    | .recordStart _ => do
      some (false,← if kb.pressed r then some s else dynamicMacroStopRecording kb s,none)
    | .recordStop => do
      some (false,← if kb.pressed r then dynamicMacroStopRecording kb s else some s,none)
    | .play _ =>
      if kb.noNesting then some (false,s,none) else do
      some (true,← if kb.validKey r then recordKey kb r s else some s,none)
    | .other => do some (true,← if kb.validKey r then recordKey kb r s else some s,none)

structure Machine (ρ Ω : Type) where
  state : State ρ
  frames : List (Frame ρ)
  outside : Ω

inductive Input (ρ Ω : Type) where
  | key (r : ρ)
  | resume
  | outside (o : Ω)

/-- `process_record`: the record as it is left. -/
def process (r : ρ) (m : Machine ρ Ω) : Option (ρ × Machine ρ Ω) := do
  let (further, s, frame) ← processDynamicMacro kb r m.state
  let (r, o) := if further then kb.processRecord r m.outside else (r,m.outside)
  some (r,⟨s,frame.toList ++ m.frames,o⟩)

/-- A key is handled when no macro is played; otherwise the innermost macro goes on by one event, or
is over. -/
def Machine.next (m : Machine ρ Ω) : Input ρ Ω → Option (Machine ρ Ω)
  | .key r => if m.frames.isEmpty then do some (← process kb r m).2 else some m
  | .resume =>
    match m.frames with
    | [] => some m
    | f :: frames =>
      if f.macroBuffer = f.macroEnd then some { m with frames := frames } else do
      let r ← load kb f.macroBuffer m.state
      let f' : Frame ρ := { f with
        macroBuffer := f.macroBuffer+f.direction
        replayed := f.replayed ++ [r] }
      let (left, m) ← process kb r { m with frames := f' :: frames }
      some { m with state := ← store kb f.macroBuffer left m.state }
  | .outside o => some { m with outside := o }

end QmkFirmware.DynamicMacro
