import Mathlib.Algebra.BigOperators.Fin
import QmkFirmware.Lib.Along

/-!
`process_midi` in advanced mode: tone keys start and stop notes, the other keys change how the next
note is computed or send a controller.
-/

set_option autoImplicit false

namespace QmkFirmware.Midi

abbrev Tone := Fin 72

/-- The keycodes that `process_midi` tells apart, from `QK_MIDI_NOTE_C_0` on. -/
inductive Keycode where
  | tone (t : Tone)
  | octave (o : Fin 10)
  | octaveDown
  | octaveUp
  | transpose (t : Fin 13)
  | transposeDown
  | transposeUp
  | velocity (v : Fin 11)
  | velocityDown
  | velocityUp
  | channel (c : Fin 16)
  | channelDown
  | channelUp
  | allNotesOff
  | sustain
  | portamento
  | sostenuto
  | soft
  | legato
  | modulation
  | modulationSpeedDown
  | modulationSpeedUp
  | pitchBendDown
  | pitchBendUp
  | other
  deriving DecidableEq, Repr

/-- The bit fields of `midi_config_t`; `transpose` is signed. -/
structure Config where
  octave : BitVec 4
  transpose : BitVec 4
  velocity : BitVec 7
  channel : BitVec 4
  modulationInterval : BitVec 4
  deriving DecidableEq, Repr

structure State where
  config : Config
  toneStatus : Tone → UInt8
  modulationStep : Int

def invalidNote : UInt8 := 0xFF

def init : State := ⟨⟨4,0,127,0,8⟩,fun _ => invalidNote,0⟩

/-- What is sent, with the data bytes already cut to seven bits. -/
inductive Message where
  | noteOn (chan : BitVec 4) (num vel : UInt8)
  | noteOff (chan : BitVec 4) (num vel : UInt8)
  | cc (chan : BitVec 4) (num val : UInt8)
  | pitchbend (chan : BitVec 4) (amount : Int)
  deriving DecidableEq, Repr

def sendNoteOn (chan : BitVec 4) (num vel : UInt8) : Message :=
  .noteOn chan (num &&& 0x7F) (vel &&& 0x7F)

def sendNoteOff (chan : BitVec 4) (num vel : UInt8) : Message :=
  .noteOff chan (num &&& 0x7F) (vel &&& 0x7F)

def sendCc (chan : BitVec 4) (num val : UInt8) : Message := .cc chan (num &&& 0x7F) (val &&& 0x7F)

def sendPitchbend (chan : BitVec 4) (amount : Int) : Message :=
  .pitchbend chan (max (-0x2000) (min 0x1FFF amount))

def computeNote (config : Config) (t : Tone) : UInt8 :=
  ⟨BitVec.ofInt 8 (12*config.octave.toNat+t+config.transpose.toInt)⟩

def computeVelocity (setting : Nat) : BitVec 7 := BitVec.ofNat 7 (setting*(128/10))

def processTone (t : Tone) (pressed : Bool) (s : State) : State × List Message :=
  let velocity := UInt8.ofNat s.config.velocity.toNat
  if pressed then
    if s.toneStatus t = invalidNote then
      let note := computeNote s.config t
      ({ s with toneStatus := Function.update s.toneStatus t note },
        [sendNoteOn s.config.channel note velocity])
    else (s, [])
  else
    let note := s.toneStatus t
    ({ s with toneStatus := Function.update s.toneStatus t invalidNote },
      if note ≠ invalidNote then [sendNoteOff s.config.channel note velocity] else [])

def setOctave (o : BitVec 4) (c : Config) : Config := { c with octave := o }

def setTranspose (t : BitVec 4) (c : Config) : Config := { c with transpose := t }

def setVelocity (v : BitVec 7) (c : Config) : Config := { c with velocity := v }

def setChannel (n : BitVec 4) (c : Config) : Config := { c with channel := n }

def setInterval (n : BitVec 4) (c : Config) : Config := { c with modulationInterval := n }

def changeConfig (c : Config) : Keycode → Config
  | .octave o => setOctave (BitVec.ofNat 4 o) c
  | .octaveDown => if 0 < c.octave then setOctave (c.octave-1) c else c
  | .octaveUp => if c.octave < 9 then setOctave (c.octave+1) c else c
  | .transpose t => setTranspose (BitVec.ofInt 4 (t-6)) c
  | .transposeDown => if -6 < c.transpose.toInt then setTranspose (c.transpose-1) c else c
  | .transposeUp =>
    if c.transpose.toInt < 6 then
      let t := c.transpose+1
      setTranspose (if 0 < c.transpose.toInt ∧ t.toInt < 0 then t-1 else t) c
    else c
  | .velocity v => setVelocity (computeVelocity v) c
  | .velocityDown =>
    if 0 < c.velocity then
      setVelocity (if c.velocity = 127 then c.velocity-10 else
        if 12 < c.velocity then c.velocity-13 else 0) c
    else c
  | .velocityUp =>
    if c.velocity < 127 then setVelocity (if c.velocity < 115 then c.velocity+13 else 127) c else c
  | .channel n => setChannel (BitVec.ofNat 4 n) c
  | .channelDown => setChannel (c.channel-1) c
  | .channelUp => setChannel (c.channel+1) c
  | .modulationSpeedDown =>
    let n := c.modulationInterval+1
    setInterval (if n = 0 then n-1 else n) c
  | .modulationSpeedUp =>
    if 0 < c.modulationInterval then setInterval (c.modulationInterval-1) c else c
  | _ => c

def controls (chan : BitVec 4) (pressed : Bool) : Keycode → List Message
  | .allNotesOff => if pressed then [sendCc chan 0x7B 0] else []
  | .sustain => [sendCc chan 0x40 (if pressed then 127 else 0)]
  | .portamento => [sendCc chan 0x41 (if pressed then 127 else 0)]
  | .sostenuto => [sendCc chan 0x42 (if pressed then 127 else 0)]
  | .soft => [sendCc chan 0x43 (if pressed then 127 else 0)]
  | .legato => [sendCc chan 0x44 (if pressed then 127 else 0)]
  | .pitchBendDown => [sendPitchbend chan (if pressed then -0x2000 else 0)]
  | .pitchBendUp => [sendPitchbend chan (if pressed then 0x1FFF else 0)]
  | _ => []

def processMidi (k : Keycode) (pressed : Bool) (s : State) : Bool × State × List Message :=
  match k with
  | .tone t => (false, processTone t pressed s)
  | .modulation => (false, { s with modulationStep := if pressed then 1 else -1 }, [])
  | .other => (true, s, [])
  | k => (false, { s with config := if pressed then changeConfig s.config k else s.config },
      controls s.config.channel pressed k)

abbrev Note := BitVec 4 × UInt8

def noteOns (sent : List Message) : List Note := sent.filterMap fun
  | .noteOn chan num _ => some (chan,num)
  | _ => none

def noteOffs (sent : List Message) : List Note := sent.filterMap fun
  | .noteOff chan num _ => some (chan,num)
  | _ => none

structure Event where
  keycode : Keycode
  pressed : Bool
  deriving DecidableEq, Repr

/-- Beside the state: the tone keys that are down, the channel each was pressed in, and the notes
that its press has started. -/
structure Watched where
  midi : State
  down : Tone → Bool
  pressedIn : Tone → BitVec 4
  started : Tone → List Note
  sent : List Message

def output (w : Watched) (e : Event) : List Message := (processMidi e.keycode e.pressed w.midi).2.2

def Watched.next (w : Watched) (e : Event) : Watched :=
  let w' := { w with
    midi := (processMidi e.keycode e.pressed w.midi).2.1
    sent := w.sent ++ output w e }
  match e.keycode with
  | .tone t => { w' with
      down := Function.update w.down t e.pressed
      pressedIn := if e.pressed then Function.update w.pressedIn t w.midi.config.channel
        else w.pressedIn
      started := Function.update w.started t (if e.pressed then noteOns (output w e) else []) }
  | _ => w'

def boot : Watched := ⟨init,fun _ => false,fun _ => 0,fun _ => [],[]⟩

def watch (events : List Event) : Watched := events.foldl Watched.next boot

/-- Presses and releases of a tone key alternate. -/
def Alternates (w : Watched) (e : Event) : Prop :=
  match e.keycode with
  | .tone t => w.down t = !e.pressed
  | _ => True

/-- A tone key is pressed when its note is not the invalid one, and released in the channel it was
pressed in. -/
def InTune (w : Watched) (e : Event) : Prop :=
  match e.keycode with
  | .tone t =>
    if e.pressed then computeNote w.midi.config t ≠ invalidNote
    else w.midi.config.channel = w.pressedIn t
  | _ => True

/-- A release stops exactly the notes that its press has started, and nothing else stops one. -/
def StopsOwn (w : Watched) (e : Event) : Prop :=
  noteOffs (output w e) = match e.keycode with
    | .tone t => if e.pressed then [] else w.started t
    | _ => []

instance (w : Watched) (e : Event) : Decidable (StopsOwn w e) :=
  inferInstanceAs (Decidable (_ = _))

def Silent (sent : List Message) : Prop :=
  ∀ note, (noteOns sent).count note = (noteOffs sent).count note

structure Tracks (w : Watched) : Prop where
  stored : ∀ t, if w.down t then w.midi.toneStatus t ≠ invalidNote
      ∧ w.started t = [(w.pressedIn t,w.midi.toneStatus t &&& 0x7F)]
    else w.midi.toneStatus t = invalidNote ∧ w.started t = []
  balance : ∀ note, (noteOns w.sent).count note
    = (noteOffs w.sent).count note+∑ t, (w.started t).count note

theorem boot_tracks : Tracks boot where
  stored _ := by simp [boot, init]
  balance note := by simp [boot, noteOns, noteOffs]

theorem noteOns_append (a b : List Message) : noteOns (a ++ b) = noteOns a ++ noteOns b :=
  List.filterMap_append

theorem noteOffs_append (a b : List Message) : noteOffs (a ++ b) = noteOffs a ++ noteOffs b :=
  List.filterMap_append

theorem processMidi_other {k : Keycode} (h : ∀ t, k ≠ .tone t) (pressed : Bool) (s : State) :
    (processMidi k pressed s).2.1.toneStatus = s.toneStatus
      ∧ noteOns (processMidi k pressed s).2.2 = [] ∧ noteOffs (processMidi k pressed s).2.2 = [] := by
  cases k with
  | tone t => exact absurd rfl (h t)
  | allNotesOff => cases pressed <;> exact ⟨rfl, rfl, rfl⟩
  | _ => exact ⟨rfl, rfl, rfl⟩

theorem processTone_tracks {w : Watched} (h : Tracks w) {t : Tone} {pressed : Bool}
    (ha : Alternates w ⟨.tone t,pressed⟩) (hk : InTune w ⟨.tone t,pressed⟩) :
    if pressed then
      (processTone t true w.midi).1.toneStatus
          = Function.update w.midi.toneStatus t (computeNote w.midi.config t)
        ∧ noteOns (processTone t true w.midi).2
          = [(w.midi.config.channel,computeNote w.midi.config t &&& 0x7F)]
        ∧ noteOffs (processTone t true w.midi).2 = [] ∧ w.started t = []
    else
      (processTone t false w.midi).1.toneStatus = Function.update w.midi.toneStatus t invalidNote
        ∧ noteOns (processTone t false w.midi).2 = []
        ∧ noteOffs (processTone t false w.midi).2 = w.started t := by
  have hs := h.stored t
  cases pressed with
  | true =>
    have hup : w.down t = false := ha
    rw [hup, if_neg Bool.false_ne_true] at hs
    simp only [processTone, if_true, hs.1]
    exact ⟨trivial, rfl, rfl, hs.2⟩
  | false =>
    have hdown : w.down t = true := ha
    have hchan : w.midi.config.channel = w.pressedIn t := hk
    rw [hdown, if_pos rfl] at hs
    simp only [processTone, Bool.false_eq_true, if_false, hs.1, ne_eq, not_false_eq_true, if_true]
    exact ⟨trivial, rfl, by rw [hs.2, hchan]; rfl⟩

theorem sum_update (f : Tone → List Note) (t : Tone) (ns : List Note) (note : Note) :
    (∑ u, (Function.update f t ns u).count note)+(f t).count note
      = (∑ u, (f u).count note)+ns.count note := by
  have hupdate : (fun u => (Function.update f t ns u).count note)
      = Function.update (fun u => (f u).count note) t (ns.count note) := by
    funext u
    by_cases hu : u = t <;> simp [hu]
  rw [hupdate, Finset.sum_update_of_mem (Finset.mem_univ t),
    ← Finset.add_sum_erase Finset.univ (fun u => (f u).count note) (Finset.mem_univ t),
    Finset.sdiff_singleton_eq_erase]
  omega

theorem stops_own {w : Watched} (h : Tracks w) {e : Event} (ha : Alternates w e)
    (hk : InTune w e) : StopsOwn w e := by
  obtain ⟨k, pressed⟩ := e
  by_cases htone : ∃ t, k = .tone t
  · obtain ⟨t, rfl⟩ := htone
    have hstep := processTone_tracks h ha hk
    cases pressed with
    | true => exact hstep.2.2.1
    | false => exact hstep.2.2
  · have hk : ∀ t, k ≠ .tone t := fun t ht => htone ⟨t, ht⟩
    have hother := (processMidi_other hk pressed w.midi).2.2
    cases k with
    | tone t => exact absurd rfl (hk t)
    | _ => exact hother

theorem next_tracks {w : Watched} (h : Tracks w) {e : Event} (ha : Alternates w e)
    (hk : InTune w e) : Tracks (w.next e) := by
  obtain ⟨k, pressed⟩ := e
  by_cases htone : ∃ t, k = .tone t
  · obtain ⟨t, rfl⟩ := htone
    have hstep := processTone_tracks h ha hk
    cases pressed with
    | true =>
      obtain ⟨hstatus, hon, hoff, hempty⟩ := hstep
      refine ⟨fun u => ?_, fun note => ?_⟩
      · by_cases hu : u = t
        · subst hu
          simp only [Watched.next, output, processMidi, if_true, Function.update_self, hstatus, hon]
          exact ⟨hk, trivial⟩
        · have hs := h.stored u
          simp only [Watched.next, output, processMidi, if_true, Function.update_of_ne hu, hstatus]
          exact hs
      · have hsum := sum_update w.started t (noteOns (processTone t true w.midi).2) note
        have hb := h.balance note
        simp only [Watched.next, output, processMidi, if_true, noteOns_append, noteOffs_append,
          List.count_append, hoff, List.count_nil]
        rw [hempty, List.count_nil] at hsum
        omega
    | false =>
      obtain ⟨hstatus, hon, hoff⟩ := hstep
      refine ⟨fun u => ?_, fun note => ?_⟩
      · by_cases hu : u = t
        · subst hu
          simp only [Watched.next, output, processMidi, Bool.false_eq_true, if_false,
            Function.update_self, hstatus]
          exact ⟨trivial, trivial⟩
        · have hs := h.stored u
          simp only [Watched.next, output, processMidi, Bool.false_eq_true, if_false,
            Function.update_of_ne hu, hstatus]
          exact hs
      · have hsum := sum_update w.started t [] note
        have hb := h.balance note
        simp only [Watched.next, output, processMidi, Bool.false_eq_true, if_false, noteOns_append,
          noteOffs_append, List.count_append, hon, hoff, List.count_nil] at hsum ⊢
        omega
  · have hother := processMidi_other (fun t ht => htone ⟨t, ht⟩) pressed w.midi
    have hnext : w.next ⟨k,pressed⟩ = { w with
        midi := (processMidi k pressed w.midi).2.1
        sent := w.sent ++ (processMidi k pressed w.midi).2.2 } := by
      cases k with
      | tone t => exact absurd ⟨t, rfl⟩ htone
      | _ => rfl
    rw [hnext]
    refine ⟨fun u => ?_, fun note => ?_⟩
    · rw [hother.1]
      exact h.stored u
    · simp only [noteOns_append, noteOffs_append, hother.2.1, hother.2.2, List.append_nil]
      exact h.balance note

theorem watch_tracks {events : List Event}
    (h : Along Watched.next (fun w e => Alternates w e ∧ InTune w e) boot events) :
    Tracks (watch events) :=
  h.invariant (I := Tracks) (fun _ _ ht he => next_tracks ht he.1 he.2) boot_tracks

theorem silent_of_up {w : Watched} (h : Tracks w) (hup : ∀ t, w.down t = false) :
    Silent w.sent := fun note => by
  have hzero : ∑ t, (w.started t).count note = 0 := Finset.sum_eq_zero fun t _ => by
    have hs := h.stored t
    rw [hup t, if_neg Bool.false_ne_true] at hs
    rw [hs.2, List.count_nil]
  rw [h.balance note, hzero, Nat.add_zero]

/-- No note is left hanging: at its release a key stops just what its press has started, and with
all tone keys up everything that was started has been stopped. -/
theorem no_hanging_notes {before : List Event} {e : Event}
    (h : Along Watched.next (fun w e => Alternates w e ∧ InTune w e) boot (before ++ [e])) :
    StopsOwn (watch before) e
      ∧ ((∀ t, (watch (before ++ [e])).down t = false) → Silent (watch (before ++ [e])).sent) := by
  obtain ⟨hbefore, ha, hk⟩ := Along.snoc.mp h
  exact ⟨stops_own (watch_tracks hbefore) ha hk, silent_of_up (watch_tracks h)⟩

def octaveChange : List Event := [⟨.tone 0,true⟩,⟨.octaveUp,true⟩]

theorem no_hanging_notes_octaveChange :
    StopsOwn (watch octaveChange) ⟨.tone 0,false⟩
      ∧ ((∀ t, (watch (octaveChange ++ [⟨.tone 0,false⟩])).down t = false) →
        Silent (watch (octaveChange ++ [⟨.tone 0,false⟩])).sent) :=
  no_hanging_notes ⟨⟨rfl, (by decide : computeNote init.config 0 ≠ invalidNote)⟩, ⟨trivial, trivial⟩, ⟨rfl, rfl⟩, trivial⟩

def channelChange : List Event := [⟨.tone 0,true⟩,⟨.channelUp,true⟩,⟨.tone 0,false⟩]

/-- A note one below the lowest: its number is the invalid one. -/
def lowestNote : List Event :=
  [⟨.octave 0,true⟩,⟨.transpose 5,true⟩,⟨.tone 0,true⟩,⟨.tone 0,false⟩]

theorem notes_hang :
    Along Watched.next Alternates boot channelChange
      ∧ (watch channelChange).sent = [.noteOn 0 48 127,.noteOff 1 48 127]
      ∧ ¬ StopsOwn (watch (channelChange.take 2)) ⟨.tone 0,false⟩
      ∧ (∀ t, (watch channelChange).down t = false) ∧ ¬ Silent (watch channelChange).sent
      ∧ Along Watched.next Alternates boot lowestNote
      ∧ (watch lowestNote).sent = [.noteOn 0 127 127]
      ∧ ¬ StopsOwn (watch (lowestNote.take 3)) ⟨.tone 0,false⟩
      ∧ (∀ t, (watch lowestNote).down t = false) ∧ ¬ Silent (watch lowestNote).sent := by
  have hchannel : (watch channelChange).sent = [.noteOn 0 48 127,.noteOff 1 48 127] := by
    decide +kernel
  have hlowest : (watch lowestNote).sent = [.noteOn 0 127 127] := by decide +kernel
  refine ⟨⟨rfl, trivial, rfl, trivial⟩, hchannel, by decide +kernel, by decide +kernel,
    fun h => ?_, ⟨trivial, trivial, rfl, rfl, trivial⟩, hlowest, by decide +kernel,
    by decide +kernel, fun h => ?_⟩
  · have hone := h (0,48)
    rw [hchannel] at hone
    revert hone
    decide
  · have hone := h (0,127)
    rw [hlowest] at hone
    revert hone
    decide

end QmkFirmware.Midi
