import Mathlib.Algebra.GroupWithZero.Nat
import QmkFirmware.Autocorrect.Generate

/-!
`process_autocorrect`: the buffer of the last keys, and the walk through the table from the newest
key back. A read behind the table shows as `outside`.
-/

set_option autoImplicit false

namespace QmkFirmware.Autocorrect

inductive NodeStep where
  | stop
  | outside
  | goto (state : Nat)
  deriving DecidableEq, Repr

def scanBranch (data : List UInt8) (key : UInt8) : Nat → Nat → UInt8 → NodeStep
  | 0, _, _ => .outside
  | fuel+1, state, code =>
    if code = key then .goto state else
    if code = 0 then .stop else
    match data[(state+3) % 2^16]? with
    | none => .outside
    | some code => scanBranch data key fuel ((state+3) % 2^16) code

def matchNode (data : List UInt8) (key : UInt8) (state : Nat) (code : UInt8) : NodeStep :=
  if code &&& 64 ≠ 0 then
    match scanBranch data key data.length state (code &&& 63) with
    | .goto state =>
      match data[state+1]?, data[state+2]? with
      | some lo, some hi => .goto ((lo.toNat ||| hi.toNat <<< 8) % 2^16)
      | _, _ => .outside
    | r => r
  else if code ≠ key then .stop
  else match data[(state+1) % 2^16]? with
    | none => .outside
    | some code => .goto (if code = 0 then (state+2) % 2^16 else (state+1) % 2^16)

inductive Match where
  | none
  | outside
  | found (state : Nat)
  deriving DecidableEq, Repr

def walk (data : List UInt8) : List UInt8 → Nat → UInt8 → Match
  | [], _, _ => .none
  | key :: keys, state, code =>
    match matchNode data key state code with
    | .stop => .none
    | .outside => .outside
    | .goto state =>
      if data.length ≤ state then .none else
      match data[state]? with
      | none => .outside
      | some code => if code &&& 128 ≠ 0 then .found state else walk data keys state code

/-- Look for a typo at the end of `typo_buffer`. -/
def checkTypo (data : List UInt8) (minLength : Nat) (typoBuffer : List UInt8) : Match :=
  if typoBuffer.length < minLength then .none else
  match data[0]? with
  | none => .outside
  | some code => walk data typoBuffer.reverse 0 code

def backspacesAt (data : List UInt8) (state : Nat) : Nat := ((data.getD state 0) &&& 63).toNat

def changesAt (data : List UInt8) (state : Nat) : List UInt8 :=
  (data.drop (state+1)).takeWhile fun b => b ≠ 0

inductive Outcome where
  | send
  | correct (backspaces : Nat) (changes : List UInt8) (sendKey : Bool)
  deriving DecidableEq, Repr

structure AutocorrectData where
  data : List UInt8
  minLength : Nat
  maxLength : Nat

def appendKey (d : AutocorrectData) (keycode : UInt8) (typoBuffer : List UInt8) :
    Outcome × List UInt8 :=
  let kept := if d.maxLength ≤ typoBuffer.length then (typoBuffer.drop 1).take (d.maxLength-1)
    else typoBuffer
  let typoBuffer := kept ++ [keycode]
  match checkTypo d.data d.minLength typoBuffer with
  | .found state =>
    (.correct (backspacesAt d.data state) (changesAt d.data state) (keycode = kcSpc),
      if keycode = kcSpc then [kcSpc] else [])
  | _ => (.send, typoBuffer)

def processAutocorrect (d : AutocorrectData) (keycode : UInt8) (shift : Bool)
    (typoBuffer : List UInt8) : Outcome × List UInt8 :=
  if kcA ≤ keycode ∧ keycode ≤ 0x1D then appendKey d keycode typoBuffer
  else if (0x1E ≤ keycode ∧ keycode ≤ 0x27) ∨ (0x2B ≤ keycode ∧ keycode ≤ 0x33)
      ∨ (0x35 ≤ keycode ∧ keycode ≤ 0x38) then appendKey d kcSpc typoBuffer
  else if keycode = 0x28 then appendKey d kcSpc []
  else if keycode = 0x2A then (.send, typoBuffer.dropLast)
  else if keycode = kcQuot then appendKey d (if shift then kcSpc else kcQuot) typoBuffer
  else (.send, [])

/-- A key of the buffer: a letter, the quote or the word break. -/
def TypoKey (k : UInt8) : Prop := (kcA ≤ k ∧ k ≤ 0x1D) ∨ k = kcSpc ∨ k = kcQuot

instance (k : UInt8) : Decidable (TypoKey k) := inferInstanceAs (Decidable (_ ∨ _))

end QmkFirmware.Autocorrect
