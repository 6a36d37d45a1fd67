import Mathlib.Algebra.GroupWithZero.Nat
import Mathlib.Data.List.Nodup
import QmkFirmware.Lib.ByteMem

/-!
The settings half of `he_matrix.c`: the sensor table, the per-key configuration, the
clamped setters, calibration and the keyboard data block. Samples come in per sensor, so
the mux and address columns of the table are left out; the 68 channels are distinct.
-/

set_option autoImplicit false

namespace QmkFirmware.He

abbrev heSensorCount : Nat := 69

theorem heSensorCount_ne_zero : heSensorCount ≠ 0 := by decide

instance : NeZero heSensorCount := ⟨heSensorCount_ne_zero⟩

abbrev Sensor := Fin heSensorCount

/-- The rotary-encoder push is the last entry of the table. -/
def heEncPushIndex : Sensor := 68

/-- The `row` and `col` columns of `he_sensors`. -/
def heSensorTable : List (Fin 5 × Fin 16) :=
  [(0,0),(0,1),(0,2),(0,3),(0,4),(0,5),(0,6),(0,7),
   (0,8),(0,9),(0,10),(0,11),(0,12),(0,13),(0,14),(0,15),
   (1,0),(1,1),(1,2),(1,3),(1,4),(1,5),(1,6),(1,7),
   (1,8),(1,9),(1,10),(1,11),(1,12),(1,13),(1,14),
   (2,0),(2,1),(2,2),(2,3),(2,4),(2,5),(2,6),
   (2,7),(2,8),(2,9),(2,10),(2,11),(2,12),(2,13),
   (3,0),(3,1),(3,2),(3,3),(3,4),(3,5),(3,6),
   (3,7),(3,8),(3,9),(3,10),(3,11),(3,12),(3,13),
   (4,0),(4,1),(4,2),(4,3),(4,4),(4,5),(4,6),(4,7),(4,8),(4,9)]

def heSensors (i : Sensor) : Fin 5 × Fin 16 := heSensorTable.getD i (0,0)

theorem heSensors_injective : ∀ i j : Sensor, heSensors i = heSensors j → i = j := by
  have hnodup : heSensorTable.Nodup := by decide
  intro i j h
  have hi : i.val < heSensorTable.length := i.isLt
  have hj : j.val < heSensorTable.length := j.isLt
  simp only [heSensors, List.getD, List.getElem?_eq_getElem hi, List.getElem?_eq_getElem hj,
    Option.getD_some] at h
  exact Fin.ext ((List.Nodup.getElem_inj_iff hnodup).mp h)

inductive ActuationMode where
  | normal | rapidTrigger | keyCancel
  deriving DecidableEq, Repr

def ActuationMode.code : ActuationMode → UInt8
  | .normal => 0
  | .rapidTrigger => 1
  | .keyCancel => 2

/-- The modes up to `HE_MODE_KEY_CANCEL`; other values are ignored by every caller. -/
def ActuationMode.ofCode (v : UInt8) : Option ActuationMode :=
  if v = 0 then some .normal
  else if v = 1 then some .rapidTrigger
  else if v = 2 then some .keyCancel
  else none

structure KeyConfig where
  actuation : UInt8
  release : UInt8
  rawMin : UInt16
  rawMax : UInt16
  travel : UInt8
  peak : UInt8
  valley : UInt8
  debounce : UInt8
  pressed : Bool
  deriving DecidableEq, Repr

structure Tuning where
  deadzone : UInt8
  engage : UInt8
  releaseDist : UInt8
  deriving DecidableEq, Repr

def heActuationDefault : UInt8 := 50
def heReleaseDefault : UInt8 := 30
def heDeadzoneDefault : UInt8 := 50
def heEngageDefault : UInt8 := 15
def heReleaseDistDefault : UInt8 := 10
def heActuationMin : UInt8 := 10
def heActuationMax : UInt8 := 90
def heReleaseMin : UInt8 := 10
def heReleaseMax : UInt8 := 90
def heDeadzoneMin : UInt8 := 15
def heDeadzoneMax : UInt8 := 60
def heEngageMin : UInt8 := 5
def heEngageMax : UInt8 := 20
def heReleaseDistMin : UInt8 := 5
def heReleaseDistMax : UInt8 := 20
def heAdcRawMax : UInt16 := 4095
def heAdcRawMid : UInt16 := 2048
def heAdcRestSampleScans : UInt32 := 64
def heAdcRestMargin : UInt16 := 20
def heAdcTravelSpan : UInt16 := 700
def heAdcMinSpan : UInt16 := 200
def heDebounce : Nat := 5
def heViaAutosaveMs : UInt16 := 2000
def eeconfigKbDataSize : Nat := 142
def eeconfigKbDataVersion : UInt32 := 3
def heSettingsEepromOffset : Nat := 138

/-- The keyboard data block of the EEPROM with its version word. -/
structure KbDatablock where
  version : UInt32
  block : ByteMem

/-- The static variables of `he_via.c`. -/
structure ViaState where
  stagedActuation : UInt8
  stagedRelease : UInt8
  stagedDirty : Bool
  autosavePending : Bool
  autosaveTimer : UInt16
  deriving DecidableEq, Repr

/-- The static variables of `he_matrix.c` and `he_via.c`, the EEPROM block and the matrix
that the scan writes. -/
structure HeState where
  config : Sensor → KeyConfig
  restFloor : Sensor → UInt16
  mode : ActuationMode
  tuning : Tuning
  calibrating : Bool
  physPressed : Sensor → Bool
  debounced : Sensor → Bool
  socdWinner : Fin 2 → UInt8
  scanCount : UInt32
  via : ViaState
  eeprom : KbDatablock
  matrix : Fin 5 → BitVec 16

/-- Clamp an 8-bit value into `[lo, hi]`. -/
def heClampU8 (value lo hi : UInt8) : UInt8 :=
  if value < lo then lo else if hi < value then hi else value

theorem le_heClampU8 {value lo hi : UInt8} (h : lo ≤ hi) : lo ≤ heClampU8 value lo hi := by
  unfold heClampU8
  split
  · exact Std.le_refl lo
  · split
    · exact h
    · rename_i h₁ _
      exact UInt8.not_lt.mp h₁

theorem heClampU8_le {value lo hi : UInt8} (h : lo ≤ hi) : heClampU8 value lo hi ≤ hi := by
  unfold heClampU8
  split
  · exact h
  · split
    · exact Std.le_refl hi
    · rename_i _ h₂
      exact UInt8.not_lt.mp h₂

def heSetActuation (value : UInt8) (s : HeState) : HeState :=
  { s with config := fun i =>
      { s.config i with actuation := heClampU8 value heActuationMin heActuationMax } }

def heSetRelease (value : UInt8) (s : HeState) : HeState :=
  { s with config := fun i =>
      { s.config i with release := heClampU8 value heReleaseMin heReleaseMax } }

def heSetDeadzone (value : UInt8) (s : HeState) : HeState :=
  { s with tuning := { s.tuning with deadzone := heClampU8 value heDeadzoneMin heDeadzoneMax } }

def heSetEngage (value : UInt8) (s : HeState) : HeState :=
  { s with tuning := { s.tuning with engage := heClampU8 value heEngageMin heEngageMax } }

def heSetReleaseDist (value : UInt8) (s : HeState) : HeState :=
  { s with tuning := { s.tuning with
      releaseDist := heClampU8 value heReleaseDistMin heReleaseDistMax } }

def eeconfigIsKbDatablockValid (e : KbDatablock) : Bool := e.version = eeconfigKbDataVersion

def eeconfigReadKbDatablock (offset length : Nat) (e : KbDatablock) : List UInt8 :=
  if eeconfigIsKbDatablockValid e then
    e.block.read offset (min eeconfigKbDataSize (offset+length)-offset)
  else List.replicate length 0

def eeconfigUpdateKbDatablock (data : List UInt8) (offset : Nat) (e : KbDatablock) :
    KbDatablock where
  version := eeconfigKbDataVersion
  block := e.block.write offset
    (data.take (min eeconfigKbDataSize (offset+data.length)-offset))

def heSaveSettingsToEeprom (s : HeState) : HeState :=
  let settings := [s.mode.code,s.tuning.deadzone,s.tuning.engage,s.tuning.releaseDist]
  { s with eeprom := eeconfigUpdateKbDatablock settings heSettingsEepromOffset s.eeprom }

def heSaveToEeprom (s : HeState) : HeState :=
  let rec' := (List.finRange heSensorCount).flatMap fun i =>
    [(s.config i).actuation,(s.config i).release]
  heSaveSettingsToEeprom { s with eeprom := eeconfigUpdateKbDatablock rec' 0 s.eeprom }

def heLoadFromEeprom (s : HeState) : HeState :=
  if !eeconfigIsKbDatablockValid s.eeprom then heSaveToEeprom s else
  let rec' := eeconfigReadKbDatablock 0 (2*heSensorCount) s.eeprom
  let settings := eeconfigReadKbDatablock heSettingsEepromOffset 4 s.eeprom
  { s with
    config := fun i => { s.config i with
      actuation := heClampU8 (rec'.getD (2*i.val) 0) heActuationMin heActuationMax
      release := heClampU8 (rec'.getD (2*i.val+1) 0) heReleaseMin heReleaseMax }
    mode := (ActuationMode.ofCode (settings.getD 0 0)).getD s.mode
    tuning := {
      deadzone := heClampU8 (settings.getD 1 0) heDeadzoneMin heDeadzoneMax
      engage := heClampU8 (settings.getD 2 0) heEngageMin heEngageMax
      releaseDist := heClampU8 (settings.getD 3 0) heReleaseDistMin heReleaseDistMax } }

def heSetMode (value : UInt8) (s : HeState) : HeState :=
  match ActuationMode.ofCode value with
  | some mode => heSaveSettingsToEeprom { s with mode := mode }
  | none => s

def heStartCalibration (s : HeState) : HeState :=
  { s with
    config := fun i => if i = heEncPushIndex then s.config i else
      { s.config i with rawMin := heAdcRawMax, rawMax := 0 }
    calibrating := true }

def restBase (floor : UInt16) : UInt16 :=
  if heAdcRestMargin < floor then floor-heAdcRestMargin else 0

/-- The span test is in `int`, so that an inverted span counts as too small. -/
def heEndCalibration (s : HeState) : HeState :=
  { s with
    calibrating := false
    config := fun i =>
      let c := s.config i
      if i = heEncPushIndex then c
      else if (c.rawMax.toNat : Int)-c.rawMin.toNat < heAdcMinSpan.toNat then
        let base := if s.restFloor i < heAdcRawMax then restBase (s.restFloor i) else heAdcRawMid
        { c with rawMin := base, rawMax := base+heAdcTravelSpan }
      else c }

def heConfigDefault : KeyConfig where
  actuation := heActuationDefault
  release := heReleaseDefault
  rawMin := heAdcRawMid-heAdcRestMargin
  rawMax := heAdcRawMid-heAdcRestMargin+heAdcTravelSpan
  travel := 0
  peak := 0
  valley := 0
  debounce := 0
  pressed := false

/-- RAM after `matrix_init_custom`, with the EEPROM as it was. -/
def boot (e : KbDatablock) : HeState where
  config := fun _ => heConfigDefault
  restFloor := fun _ => heAdcRawMax
  mode := .rapidTrigger
  tuning := ⟨heDeadzoneDefault,heEngageDefault,heReleaseDistDefault⟩
  calibrating := false
  physPressed := fun _ => false
  debounced := fun _ => false
  socdWinner := fun _ => 0xFF
  scanCount := 0
  via := ⟨heActuationDefault,heReleaseDefault,false,false,0⟩
  eeprom := e
  matrix := fun _ => 0

end QmkFirmware.He
