import Mathlib.Algebra.Order.Ring.Int
import Mathlib.Logic.Function.Basic

/-!
`process_steno.c`: steno chords, sent as Gemini PR or TX Bolt strokes.
-/

set_option autoImplicit false

namespace QmkFirmware.Steno

abbrev Keycode := BitVec 16

abbrev Byte := BitVec 8

inductive Mode where
  | gemini
  | bolt
  deriving DecidableEq, Repr

/-- `enableAll` is `STENO_ENABLE_ALL`, with the keys that set the mode. -/
structure Config where
  enableAll : Bool
  combinedMap : Bool

/-- The bytes of the chord beyond `MAX_STROKE_SIZE` are not used. -/
structure State where
  chord : Nat → Byte
  nPressedKeys : Int
  mode : Mode

def init (mode : Mode) : State := ⟨fun _ => 0,0,mode⟩

def geminiStrokeSize : Nat := 6
def boltStrokeSize : Nat := 4

def qkSteno : Keycode := 0x74C0
def qkStenoMax : Keycode := 0x74FF
def qkStenoBolt : Keycode := 0x74F0
def qkStenoGemini : Keycode := 0x74F1
def qkStenoComb : Keycode := 0x74F2
def qkStenoCombMax : Keycode := 0x74FC
def stnMin : Keycode := qkSteno
def stnMax : Keycode := 0x74E9

def txbGetGroup (code : Byte) : Nat := ((code &&& 0b11000000) >>> 6).toNat

def txbNul : Byte := 0
def txbSL : Byte := 0b00000001
def txbTL : Byte := 0b00000010
def txbKL : Byte := 0b00000100
def txbPL : Byte := 0b00001000
def txbWL : Byte := 0b00010000
def txbHL : Byte := 0b00100000
def txbRL : Byte := 0b01000001
def txbAL : Byte := 0b01000010
def txbOL : Byte := 0b01000100
def txbStr : Byte := 0b01001000
def txbER : Byte := 0b01010000
def txbUR : Byte := 0b01100000
def txbFR : Byte := 0b10000001
def txbRR : Byte := 0b10000010
def txbPR : Byte := 0b10000100
def txbBR : Byte := 0b10001000
def txbLR : Byte := 0b10010000
def txbGR : Byte := 0b10100000
def txbTR : Byte := 0b11000001
def txbSR : Byte := 0b11000010
def txbDR : Byte := 0b11000100
def txbZR : Byte := 0b11001000
def txbNum : Byte := 0b11010000

/-- The map has 64 entries, of which the last are 0. -/
def boltmap : List Byte :=
  [txbNul,txbNum,txbNum,txbNum,txbNum,txbNum,txbNum,txbSL,txbSL,txbTL,txbKL,txbPL,txbWL,txbHL,txbRL,
    txbAL,txbOL,txbStr,txbStr,txbNul,txbNul,txbNul,txbStr,txbStr,txbER,txbUR,txbFR,txbRR,txbPR,txbBR,
    txbLR,txbGR,txbTR,txbSR,txbDR,txbNum,txbNum,txbNum,txbNum,txbNum,txbNum,txbZR]

def combinedmapFirst : List Keycode :=
  [0x74C7,0x74C9,0x74CB,0x74CD,0x74DA,0x74DC,0x74DE,0x74E0,0x74E2,0x74CF,0x74D8]

def combinedmapSecond : List Keycode :=
  [0x74C8,0x74CA,0x74CC,0x74CE,0x74DB,0x74DD,0x74DF,0x74E1,0x74E9,0x74D0,0x74D9]

def stenoClearChord (s : State) : State := { s with chord := fun _ => 0 }

def addToChord (group : Nat) (bits : Byte) (s : State) : State :=
  { s with chord := Function.update s.chord group (s.chord group ||| bits) }

def geminiBit (key : Nat) : Byte := BitVec.twoPow 8 (6-(key-key/7*7))

def addGeminiKeyToChord (key : Nat) (s : State) : State := addToChord (key/7) (geminiBit key) s

def boltcode (key : Nat) : Byte := boltmap.getD key txbNul

def addBoltKeyToChord (key : Nat) (s : State) : State :=
  addToChord (txbGetGroup (boltcode key)) (boltcode key) s

def sendStenoChordGemini (s : State) : State × List Byte :=
  let s := addToChord 0 0x80 s
  (s,(List.range geminiStrokeSize).map s.chord)

def sendStenoChordBolt (s : State) : State × List Byte :=
  (s,((List.range boltStrokeSize).map s.chord).filter (fun byte => byte != 0) ++ [0])

def stenoSetMode (newMode : Mode) (s : State) : State := { stenoClearChord s with mode := newMode }

/-- `n_pressed_keys` is an `int8_t`. -/
def int8 (n : Int) : Int := n.bmod (2^8)

/-- A single key in `process_steno`, and the bytes that are sent. -/
def processKey (key : Nat) (pressed : Bool) (s : State) : State × List Byte :=
  if pressed then
    let s := { s with nPressedKeys := int8 (s.nPressedKeys+1) }
    match s.mode with
    | .bolt => (addBoltKeyToChord key s,[])
    | .gemini => (addGeminiKeyToChord key s,[])
  else
    let s := { s with nPressedKeys := int8 (s.nPressedKeys-1) }
    if 0 < s.nPressedKeys then (s,[])
    else
      let s := { s with nPressedKeys := 0 }
      let (s, sent) := match s.mode with
        | .bolt => sendStenoChordBolt s
        | .gemini => sendStenoChordGemini s
      (stenoClearChord s,sent)

variable (cfg : Config)

/-- The state, the bytes that are sent, and whether the key is passed along. The keys of a combined
key are single keys. -/
def processSteno (keycode : Keycode) (pressed : Bool) (s : State) : State × List Byte × Bool :=
  if keycode < qkSteno || qkStenoMax < keycode then (s,[],true)
  else if cfg.enableAll && keycode == qkStenoBolt then
    (if pressed then stenoSetMode .bolt s else s,[],false)
  else if cfg.enableAll && keycode == qkStenoGemini then
    (if pressed then stenoSetMode .gemini s else s,[],false)
  else if cfg.combinedMap && (qkStenoComb ≤ keycode && keycode ≤ qkStenoCombMax) then
    let first := combinedmapFirst.getD (keycode-qkStenoComb).toNat qkSteno
    let second := combinedmapSecond.getD (keycode-qkStenoComb).toNat qkSteno
    let (s, sent) := processKey (first-qkSteno).toNat pressed s
    let (s, sent') := processKey (second-qkSteno).toNat pressed s
    (s,sent ++ sent',false)
  else if stnMin ≤ keycode && keycode ≤ stnMax then
    let (s, sent) := processKey (keycode-qkSteno).toNat pressed s
    (s,sent,false)
  else (s,[],false)

end QmkFirmware.Steno
