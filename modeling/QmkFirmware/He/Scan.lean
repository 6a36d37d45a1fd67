import QmkFirmware.He.Via

/-!
The scanning half of `he_matrix.c`. Every loop over the sensors touches entry `i` of each
array in its round `i` only, so a round is a function of that entry.
-/

set_option autoImplicit false

namespace QmkFirmware.He

/-- Map a raw ADC value to 0..100 percent of travel. The division is C's, towards zero. -/
def heRawToTravel (c : KeyConfig) (raw : UInt16) : UInt8 :=
  let span : UInt16 := if c.rawMin < c.rawMax then c.rawMax-c.rawMin else 1
  let pct : Int := Int.tdiv (((raw.toNat : Int)-c.rawMin.toNat)*100) span.toNat
  let pct := if pct < 0 then 0 else pct
  let pct := if 100 < pct then 100 else pct
  UInt8.ofNat pct.toNat

/-- The press decision for one key. The rise is computed in `int`. -/
def heComputePressed (mode : ActuationMode) (tuning : Tuning) (c : KeyConfig) (pressed : Bool)
    (travel : UInt8) : KeyConfig × Bool :=
  let c := { c with travel := travel }
  match mode with
  | .rapidTrigger =>
    if pressed then
      let c := if c.peak < travel then { c with peak := travel } else c
      let drop := c.peak-travel
      if travel ≤ tuning.deadzone ∨ tuning.releaseDist ≤ drop then
        ({ c with valley := travel }, false)
      else (c, pressed)
    else
      let c := if travel < c.valley then { c with valley := travel } else c
      if travel ≤ tuning.deadzone then (c, false) else
      if c.actuation ≤ travel ∨ (tuning.engage.toNat : Int) ≤ travel.toNat-c.valley.toNat then
        ({ c with peak := travel }, true)
      else (c, false)
  | .keyCancel | .normal =>
    if pressed then (c, decide (c.release < travel)) else (c, decide (c.actuation ≤ travel))

/-- The confirm counter of one key: the stable state flips after `n` scans agree. -/
def debounceStep (n : Nat) (phys stable : Bool) (count : UInt8) : Bool × UInt8 :=
  if phys ≠ stable then
    let count := count+1
    if n ≤ count.toNat then (phys, 0) else (stable, count)
  else (stable, 0)

/-- What one scan is given: a sample for each sensor, the encoder switch and the clock. -/
structure ScanInput where
  sample : Sensor → UInt16
  push : Bool
  now : UInt16

structure Sampled where
  config : KeyConfig
  restFloor : UInt16
  phys : Bool
  debounced : Bool
  newlyPressed : Bool
  deriving DecidableEq, Repr

def sampleSensor (n : Nat) (input : ScanInput) (s : HeState) (i : Sensor) : Sampled :=
  let c := s.config i
  let raw := input.sample i
  let floor := if i ≠ heEncPushIndex ∧ s.scanCount ≤ heAdcRestSampleScans ∧ raw < s.restFloor i
    then raw else s.restFloor i
  let p : KeyConfig × Bool :=
    if i = heEncPushIndex then (c, input.push) else
    let c := if s.calibrating then
        let c := if raw < c.rawMin then { c with rawMin := raw } else c
        if c.rawMax < raw then { c with rawMax := raw } else c
      else c
    heComputePressed s.mode s.tuning c (s.physPressed i) (heRawToTravel c raw)
  let d := debounceStep n p.2 (s.debounced i) p.1.debounce
  { config := { p.1 with debounce := d.2 }
    restFloor := floor
    phys := p.2
    debounced := d.1
    newlyPressed := d.1 && !s.debounced i }

def lockInRest (s : HeState) : HeState :=
  if s.scanCount = heAdcRestSampleScans then
    { s with config := fun i => if i = heEncPushIndex then s.config i else
        { s.config i with
          rawMin := restBase (s.restFloor i)
          rawMax := restBase (s.restFloor i)+heAdcTravelSpan } }
  else s

/-- `socd_pairs`. -/
def socdPairs (p : Fin 2) : Sensor × Sensor := if p = 0 then (32,34) else (46,47)

def socdUpdate (newA newB heldA heldB : Bool) (travelA travelB winner : UInt8) : UInt8 :=
  let winner :=
    if newA && newB then (if travelB ≤ travelA then 0 else 1)
    else if newA then 0
    else if newB then 1
    else winner
  if !heldA && !heldB then 0xFF else winner

def socdLoser (p : Fin 2) (debounced : Sensor → Bool) (winner : UInt8) : Option Sensor :=
  if debounced (socdPairs p).1 && debounced (socdPairs p).2 then
    if winner = 1 then some (socdPairs p).1 else some (socdPairs p).2
  else none

def socdResolve (newlyPressed : Sensor → Bool) (s : HeState) : HeState :=
  let winner := fun p => socdUpdate
    (newlyPressed (socdPairs p).1) (newlyPressed (socdPairs p).2)
    (s.debounced (socdPairs p).1) (s.debounced (socdPairs p).2)
    (s.config (socdPairs p).1).travel (s.config (socdPairs p).2).travel (s.socdWinner p)
  if s.mode = .keyCancel then { s with socdWinner := winner } else s

/-- The `suppressed` array behind the resolution. -/
def suppressed (s : HeState) (i : Sensor) : Bool :=
  decide (s.mode = .keyCancel ∧ ∃ p, socdLoser p s.debounced (s.socdWinner p) = some i)

def commitKey (pressed : Sensor → Bool) (matrix : Fin 5 → BitVec 16) (i : Sensor) :
    Fin 5 → BitVec 16 :=
  fun r => if r = (heSensors i).1 then
    if pressed i then matrix r ||| (1#16 <<< (heSensors i).2.val)
    else matrix r &&& ~~~(1#16 <<< (heSensors i).2.val)
  else matrix r

def commitReported (s : HeState) : Bool × HeState :=
  let pressed := fun i => s.debounced i && !suppressed s i
  ((List.finRange heSensorCount).any fun i => pressed i ≠ (s.config i).pressed,
    { s with
      config := fun i => { s.config i with pressed := pressed i }
      matrix := (List.finRange heSensorCount).foldl (commitKey pressed) s.matrix })

def storeSampled (sampled : Sensor → Sampled) (s : HeState) : HeState :=
  { s with
    config := fun i => (sampled i).config
    restFloor := fun i => (sampled i).restFloor
    physPressed := fun i => (sampled i).phys
    debounced := fun i => (sampled i).debounced }

def matrixScanCustom (n : Nat) (input : ScanInput) (s : HeState) : Bool × HeState :=
  let s := { s with scanCount := s.scanCount+1 }
  let sampled := sampleSensor n input s
  let s := lockInRest (storeSampled sampled s)
  let s := socdResolve (fun i => (sampled i).newlyPressed) s
  let r := commitReported s
  (r.1, heViaTask input.now r.2)

/-- What happens to the keyboard between and in scans. -/
inductive Step where
  | scan (input : ScanInput)
  | packet (now : UInt16) (data : ViaData)
  | keycode (keycode : UInt16) (pressed : Bool)
  | setMode (value : UInt8)
  | setActuation (value : UInt8)
  | setRelease (value : UInt8)
  | setDeadzone (value : UInt8)
  | setEngage (value : UInt8)
  | setReleaseDist (value : UInt8)
  | startCalibration
  | endCalibration
  | load
  | save

def exec (n : Nat) (s : HeState) : Step → HeState
  | .scan input => (matrixScanCustom n input s).2
  | .packet now data => (viaCustomValueCommandKb now data s).2
  | .keycode keycode pressed => (heHandleKeycode keycode pressed s).2
  | .setMode value => heSetMode value s
  | .setActuation value => heSetActuation value s
  | .setRelease value => heSetRelease value s
  | .setDeadzone value => heSetDeadzone value s
  | .setEngage value => heSetEngage value s
  | .setReleaseDist value => heSetReleaseDist value s
  | .startCalibration => heStartCalibration s
  | .endCalibration => heEndCalibration s
  | .load => heLoadFromEeprom s
  | .save => heSaveToEeprom s

def run (n : Nat) (steps : List Step) (s : HeState) : HeState := steps.foldl (exec n) s

end QmkFirmware.He
