import Mathlib.Data.List.Basic

/-!
How C reads the argument of `SEND_STRING`: string literals and calls of the `SS_` macros, one
after the other.
-/

set_option autoImplicit false

namespace QmkFirmware.KeymapC

abbrev Str := List Char

/-- The bell among the characters is the beep. -/
inductive Event where
  | char (c : Char)
  | tap (keycode : Str)
  | down (keycode : Str)
  | up (keycode : Str)
  | delay (duration : Nat)
  deriving DecidableEq, Repr

def isWord (c : Char) : Bool := c.isAlphanum || c = '_'

def isPrintable (c : Char) : Bool := 32 ≤ c.toNat && c.toNat ≤ 126

def unescape (c : Char) : Option Char :=
  if c = '\\' ∨ c = '"' ∨ c = '\'' ∨ c = '?' then some c
  else if c = 'n' then some '\n'
  else if c = 't' then some '\t'
  else if c = 'r' then some '\r'
  else if c = 'a' then some '\x07'
  else if c = 'b' then some '\x08'
  else if c = 'f' then some '\x0c'
  else if c = 'v' then some '\x0b'
  else none

def called (name : Str) : Str → Option Event
  | 'X' :: '_' :: keycode =>
    if name = ['S','S','_','T','A','P'] then some (.tap keycode)
    else if name = ['S','S','_','D','O','W','N'] then some (.down keycode)
    else if name = ['S','S','_','U','P'] then some (.up keycode)
    else none
  | arg =>
    if name = ['S','S','_','D','E','L','A','Y'] ∧ arg ≠ [] ∧ arg.all Char.isDigit then
      some (.delay (Nat.ofDigitChars 10 arg 0))
    else none

/-- What was read of the piece at hand. -/
inductive Mode where
  | outside
  | literal
  | escape
  | name (read : Str)
  | argument (name read : Str)

def readFrom : Mode → Str → Option (List Event)
  | .outside, [] => some []
  | .outside, c :: s =>
    if c = '"' then readFrom .literal s
    else if isWord c then readFrom (.name [c]) s
    else none
  | .literal, c :: s =>
    if c = '"' then readFrom .outside s
    else if c = '\\' then readFrom .escape s
    else if isPrintable c then (readFrom .literal s).map (Event.char c :: ·)
    else none
  | .escape, c :: s => (unescape c).bind fun c => (readFrom .literal s).map (Event.char c :: ·)
  | .name n, c :: s =>
    if isWord c then readFrom (.name (n ++ [c])) s
    else if c = '(' then readFrom (.argument n []) s
    else none
  | .argument n arg, c :: s =>
    if isWord c then readFrom (.argument n (arg ++ [c])) s
    else if c = ')' then (called n arg).bind fun e => (readFrom .outside s).map (e :: ·)
    else none
  | _, [] => none

def readArgument (s : Str) : Option (List Event) := if s = [] then none else readFrom .outside s

theorem readFrom_name {w : Str} (h : w.all isWord) (n s : Str) :
    readFrom (.name n) (w ++ '(' :: s) = readFrom (.argument (n ++ w) []) s := by
  induction w generalizing n with
  | nil =>
    rw [List.append_nil, List.nil_append, readFrom, if_neg (by decide), if_pos rfl]
  | cons c w ih =>
    rw [List.all_cons, Bool.and_eq_true] at h
    rw [List.cons_append, readFrom, if_pos h.1, ih h.2, List.append_assoc, List.singleton_append]

theorem readFrom_argument {w : Str} (h : w.all isWord) (n arg s : Str) :
    readFrom (.argument n arg) (w ++ ')' :: s) =
      (called n (arg ++ w)).bind fun e => (readFrom .outside s).map (e :: ·) := by
  induction w generalizing arg with
  | nil =>
    rw [List.append_nil, List.nil_append, readFrom, if_neg (by decide), if_pos rfl]
  | cons c w ih =>
    rw [List.all_cons, Bool.and_eq_true] at h
    rw [List.cons_append, readFrom, if_pos h.1, ih h.2, List.append_assoc, List.singleton_append]

theorem readFrom_called {c : Char} {n arg : Str} (hn : (c :: n).all isWord)
    (harg : arg.all isWord) {e : Event} (he : called (c :: n) arg = some e) (s : Str) :
    readFrom .outside (c :: (n ++ '(' :: (arg ++ ')' :: s))) =
      (readFrom .outside s).map (e :: ·) := by
  rw [List.all_cons, Bool.and_eq_true] at hn
  have hq : c ≠ '"' := by
    rintro rfl
    exact absurd hn.1 (by decide)
  rw [readFrom, if_neg hq, if_pos hn.1, readFrom_name hn.2, readFrom_argument harg,
    List.singleton_append, List.nil_append, he, Option.bind_some]

end QmkFirmware.KeymapC
