import Mathlib.Logic.Function.Basic
import QmkFirmware.Lib.Along
import QmkFirmware.Midi.Notes

/-!
`sequencer.c`: in each step the tracks are attacked one after the other and then released in the
opposite order.
-/

set_option autoImplicit false

namespace QmkFirmware.Sequencer

structure Config where
  numSteps : Nat
  numTracks : Nat
  trackThrottle : Nat
  releaseTimeout : Nat
  midi : Midi.Config
  steps_pos : 0 < numSteps
  steps_le : numSteps ≤ 256
  tracks_pos : 0 < numTracks
  tracks_le : numTracks ≤ 8

inductive Phase where
  | attack
  | release
  | pause
  deriving DecidableEq, Repr

/-- `sequencer_config` and `sequencer_internal_state`. -/
structure State where
  enabled : Bool
  steps : Nat → BitVec 8
  trackNotes : Nat → UInt16
  tempo : UInt8
  resolution : Nat
  activeTracks : BitVec 8
  currentTrack : Nat
  currentStep : Nat
  timer : UInt16
  phase : Phase

def init : State := ⟨false,fun _ => 0,fun _ => 0,60,2,0,0,0,0,.attack⟩

/-- The turn of a track, with the note sent if its step is on. -/
inductive Event where
  | attack (track : Nat) (noteOn : Option UInt8)
  | release (track : Nat) (noteOff : Option UInt8)
  deriving DecidableEq, Repr

/-- What `timer_read` gives at each of the places that call it. -/
structure Readings where
  pause : UInt16
  release : UInt16
  attack : UInt16
  elapsed : UInt16

def sequencerOn (now : UInt16) (s : State) : State :=
  { s with enabled := true, currentTrack := 0, currentStep := 0, timer := now, phase := .attack }

def sequencerOff (s : State) : State := { s with enabled := false, currentStep := 0 }

def sequencerToggle (now : UInt16) (s : State) : State :=
  if s.enabled then sequencerOff s else sequencerOn now s

def isTrackActive (track : Nat) (s : State) : Bool := s.activeTracks.getLsbD track

/-- `1 << track`. -/
def trackBit (track : Nat) : BitVec 8 := 1 <<< track

def setTrackActivation (track : Nat) (value : Bool) (s : State) : State :=
  { s with
    activeTracks := if value then s.activeTracks ||| trackBit track
      else s.activeTracks &&& ~~~trackBit track }

def toggleTrackActivation (track : Nat) (s : State) : State :=
  setTrackActivation track (!isTrackActive track s) s

def toggleSingleActiveTrack (track : Nat) (s : State) : State :=
  { s with activeTracks := if isTrackActive track s then 0 else trackBit track }

def stepValue (value : Bool) (s : State) (step : Nat) : BitVec 8 :=
  if value then s.steps step ||| s.activeTracks else s.steps step &&& ~~~s.activeTracks

section
variable (cfg : Config)

def setTrackNotes (notes : Nat → UInt16) (s : State) : State :=
  { s with trackNotes := fun i => if i < cfg.numTracks then notes i else s.trackNotes i }

def isStepOn (step : Nat) (s : State) : Bool :=
  decide (step < cfg.numSteps) && s.steps step &&& s.activeTracks != 0

def isStepOnForTrack (step track : Nat) (s : State) : Bool :=
  decide (step < cfg.numSteps) && (s.steps step).getLsbD track

def setStep (step : Nat) (value : Bool) (s : State) : State :=
  if step < cfg.numSteps then
    { s with steps := Function.update s.steps step (stepValue value s step) }
  else s

def toggleStep (step : Nat) (s : State) : State := setStep cfg step (!isStepOn cfg step s) s

/-- The counter is eight bits wide, so with 256 steps the loop has no end. -/
def setAllSteps (value : Bool) (s : State) : Option State :=
  if cfg.numSteps < 256 then
    some { s with
      steps := fun step => if step < cfg.numSteps then stepValue value s step else s.steps step }
  else none

end

def setTempo (tempo : UInt8) (s : State) : State := if tempo > 0 then { s with tempo := tempo } else s

def increaseTempo (s : State) : State := if s.tempo < 255 then setTempo (s.tempo+1) s else s

def decreaseTempo (s : State) : State := setTempo (s.tempo-1) s

def resolutions : Nat := 9

def setResolution (resolution : Int) (s : State) : State :=
  if 0 ≤ resolution ∧ resolution < resolutions then { s with resolution := resolution.toNat } else s

def increaseResolution (s : State) : State := setResolution (s.resolution+1) s

def decreaseResolution (s : State) : State := setResolution (s.resolution-1) s

def getBeatDuration (tempo : UInt8) : Nat := 60000/(if tempo = 0 then 60 else tempo.toNat)

def getStepDuration (tempo : UInt8) (resolution : Nat) : Nat :=
  let binarySteps := 2 <<< (resolution/2)
  let binaryStepDuration := getBeatDuration tempo*4/binarySteps % 65536
  if resolution % 2 = 0 then binaryStepDuration else 2*binaryStepDuration/3 % 65536

section
variable (cfg : Config)

/-- The note of `midi_compute_note`, with the seven bits that are sent. -/
def midiComputeNote (keycode : UInt16) : UInt8 :=
  ⟨BitVec.ofInt 8 (12*cfg.midi.octave.toNat+((keycode.toNat : Int)-0x7103)+cfg.midi.transpose.toInt)⟩
    &&& 0x7F

def currentNote (s : State) : Option UInt8 :=
  if isStepOnForTrack cfg s.currentStep s.currentTrack s then
    some (midiComputeNote cfg (s.trackNotes s.currentTrack))
  else none

def phaseAttack (r : Readings) (s : State) : State × List Event :=
  let s := if s.currentTrack = 0 then { s with timer := r.attack } else s
  if (r.elapsed-s.timer).toNat < s.currentTrack*cfg.trackThrottle then (s,[])
  else (if s.currentTrack < cfg.numTracks-1 then { s with currentTrack := s.currentTrack+1 }
    else { s with phase := .release },[.attack s.currentTrack (currentNote cfg s)])

def releaseDue (r : Readings) (s : State) : Bool :=
  cfg.releaseTimeout+s.currentTrack*cfg.trackThrottle ≤ (r.release-s.timer).toNat

def phaseRelease (r : Readings) (s : State) : State × List Event :=
  if releaseDue cfg r s then
    (if s.currentTrack > 0 then { s with currentTrack := s.currentTrack-1 }
      else { s with phase := .pause },[.release s.currentTrack (currentNote cfg s)])
  else (s,[])

def phasePause (r : Readings) (s : State) : State :=
  if (r.pause-s.timer).toNat < getStepDuration s.tempo s.resolution then s
  else { s with currentStep := (s.currentStep+1) % cfg.numSteps, phase := .attack }

def sequencerTask (r : Readings) (s : State) : State × List Event :=
  if s.enabled then
    let s := if s.phase = .pause then phasePause cfg r s else s
    let (s, released) := if s.phase = .release then phaseRelease cfg r s else (s,[])
    let (s, attacked) := if s.phase = .attack then phaseAttack cfg r s else (s,[])
    (s,released ++ attacked)
  else (s,[])

end

inductive Input where
  | task (r : Readings)
  | on (now : UInt16)
  | off
  | toggle (now : UInt16)
  | setTrackNotes (notes : Nat → UInt16)
  | setTrackActivation (track : Nat) (value : Bool)
  | toggleTrackActivation (track : Nat)
  | toggleSingleActiveTrack (track : Nat)
  | setStep (step : UInt8) (value : Bool)
  | toggleStep (step : UInt8)
  | setAllSteps (value : Bool)
  | setTempo (tempo : UInt8)
  | increaseTempo
  | decreaseTempo
  | setResolution (resolution : Int)
  | increaseResolution
  | decreaseResolution

/-- One call, unless it does not return. -/
def step (cfg : Config) (s : State) : Input → Option (State × List Event)
  | .task r => some (sequencerTask cfg r s)
  | .on now => some (sequencerOn now s,[])
  | .off => some (sequencerOff s,[])
  | .toggle now => some (sequencerToggle now s,[])
  | .setTrackNotes notes => some (setTrackNotes cfg notes s,[])
  | .setTrackActivation track value => some (setTrackActivation track value s,[])
  | .toggleTrackActivation track => some (toggleTrackActivation track s,[])
  | .toggleSingleActiveTrack track => some (toggleSingleActiveTrack track s,[])
  | .setStep i value => some (setStep cfg i.toNat value s,[])
  | .toggleStep i => some (toggleStep cfg i.toNat s,[])
  | .setAllSteps value => (setAllSteps cfg value s).map (·,[])
  | .setTempo tempo => some (setTempo tempo s,[])
  | .increaseTempo => some (increaseTempo s,[])
  | .decreaseTempo => some (decreaseTempo s,[])
  | .setResolution resolution => some (setResolution resolution s,[])
  | .increaseResolution => some (increaseResolution s,[])
  | .decreaseResolution => some (decreaseResolution s,[])

end QmkFirmware.Sequencer
