import Mathlib.Data.List.Basic
import Mathlib.Tactic.SplitIfs
import QmkFirmware.Lib.Along

/-!
`process_music.c`: notes are recorded into an array of sixteen and played from it in a loop.
-/

set_option autoImplicit false

namespace QmkFirmware.Music

structure Config where
  audioEnable : Bool
  midiEnable : Bool
  startingNote : UInt8
  offset : Int
  matrixRows : Nat
  /-- `SCALE`. -/
  scale : Int → Int8
  /-- `MUSIC_MAP`. -/
  musicMap : Option (Nat → Nat → UInt8)
  musicMask : UInt16 → Bool

structure State where
  musicActivated : Bool
  midiActivated : Bool
  mode : Nat
  recording : Bool
  recorded : Bool
  playing : Bool
  sequence : List UInt8
  count : UInt8
  position : UInt8
  timer : UInt16
  interval : UInt16
  deriving DecidableEq, Repr

def init : State := ⟨false,false,3,false,false,false,List.replicate 16 0,0,0,0,100⟩

inductive Sound where
  | on (note : UInt8)
  | off (note : UInt8)
  | allOff
  deriving DecidableEq, Repr

inductive Event where
  | audio (sound : Sound)
  | midi (sound : Sound)
  deriving DecidableEq, Repr

structure Key where
  keycode : UInt16
  row : Nat
  col : Nat
  pressed : Bool
  deriving DecidableEq, Repr

section
variable (cfg : Config)

/-- `music_noteon`, `music_noteoff` and `music_all_notes_off`. -/
def music (s : State) (sound : Sound) : List Event :=
  (if cfg.audioEnable && s.musicActivated then [.audio sound] else [])
    ++ if cfg.midiEnable && s.midiActivated then [.midi sound] else []

def musicOn (s : State) : State := { s with musicActivated := true }

def musicOff (s : State) : State × List Event :=
  ({ s with musicActivated := false },music cfg s .allOff)

def midiOn (s : State) : State := { s with midiActivated := true }

def midiOff (s : State) : State × List Event :=
  ({ s with midiActivated := false },if cfg.midiEnable then [.midi .allOff] else [])

def musicModeCycle (s : State) : State × List Event :=
  ({ s with mode := (s.mode+1) % 4 },music cfg s .allOff)

def processModeKey (keycode : UInt16) (s : State) : Option (State × List Event) :=
  if keycode = 0x7490 then some (musicOn s,[])
  else if keycode = 0x7491 then some (musicOff cfg s)
  else if keycode = 0x7492 then some (if s.musicActivated then musicOff cfg s else (musicOn s,[]))
  else if keycode = 0x7100 then some (midiOn s,[])
  else if keycode = 0x7101 then some (midiOff cfg s)
  else if keycode = 0x7102 then some (if s.midiActivated then midiOff cfg s else (midiOn s,[]))
  else if keycode = 0x7493 then some (musicModeCycle cfg s)
  else none

def processControlKey (keycode : UInt16) (s : State) : Option (State × List Event) :=
  if keycode = 0xE0 then
    some ({ s with recording := true, recorded := false, playing := false, count := 0 },
      music cfg s .allOff)
  else if keycode = 0xE2 then
    some ({ s with recording := false, recorded := s.recording || s.recorded, playing := false },
      music cfg s .allOff)
  else if keycode = 0xE3 ∧ s.recorded then
    some ({ s with recording := false, playing := true, position := 0, timer := 0 },
      music cfg s .allOff)
  else if keycode = 0x52 then some ({ s with interval := s.interval-10 },[])
  else if keycode = 0x51 then some ({ s with interval := s.interval+10 },[])
  else none

def noteOf (mode : Nat) (key : Key) : UInt8 :=
  let base : Int := cfg.startingNote.toNat
  let octave : Int := cfg.matrixRows-key.row
  .ofInt <| match cfg.musicMap with
    | some musicMap =>
      let position := (musicMap key.row key.col).toNat
      if mode = 0 then base+cfg.offset+36+position
      else base+cfg.offset+36+(cfg.scale (position % 7)).toInt+(position/7*12 : Nat)
    | none =>
      if mode = 0 then base+key.col+cfg.offset-3+12*octave
      else if mode = 1 then base+key.col+cfg.offset+32+5*octave
      else if mode = 2 then base+key.col+cfg.offset+32+7*octave
      else if mode = 3 then base+(cfg.scale (key.col+cfg.offset)).toInt-3+12*octave
      else base

/-- `music_sequence[music_sequence_count++] = note`; `none` is a write behind the array. -/
def record (note : UInt8) (s : State) : Option State :=
  if s.count.toNat < s.sequence.length then
    some { s with sequence := s.sequence.set s.count.toNat note, count := s.count+1 }
  else none

def processNote (key : Key) (s : State) : Option (State × List Event) :=
  let note := noteOf cfg s.mode key
  if key.pressed then
    if s.recording then (record note s).map (·,music cfg s (.on note))
    else some (s,music cfg s (.on note))
  else some (s,music cfg s (.off note))

/-- `process_music`, with what it returns. -/
def processMusic (key : Key) (s : State) : Option (Bool × State × List Event) :=
  match if key.pressed then processModeKey cfg key.keycode s else none with
  | some (s, events) => some (false,s,events)
  | none =>
    if s.musicActivated || s.midiActivated then
      match if key.pressed then processControlKey cfg key.keycode s else none with
      | some (s, events) => some (false,s,events)
      | none => (processNote cfg key s).map fun (s, events) =>
        (!cfg.musicMask key.keycode,s,events)
    else some (true,s,[])

/-- `music_sequence[i]`; `none` is a read outside the array. -/
def readSequence (s : State) (i : Int) : Option UInt8 :=
  if 0 ≤ i then s.sequence[i.toNat]? else none

def prevIndex (s : State) : Int :=
  if (s.position.toNat : Int)-1 < 0 then (s.position.toNat : Int)-1+s.count.toNat
  else (s.position.toNat : Int)-1

/-- The task goes on to the next note; `elapsed` is the time at which `timer_elapsed` looks. -/
def turnDue (elapsed : UInt16) (s : State) : Bool :=
  s.playing && (s.timer == 0 || decide (elapsed-s.timer > s.interval))

def musicTask (elapsed now : UInt16) (s : State) : Option (State × List Event) :=
  if turnDue elapsed s then do
    let prevNote ← readSequence s (prevIndex s)
    let nextNote ← readSequence s s.position.toNat
    -- the remainder of a division by zero
    if s.count = 0 then none else
    some ({ s with
        timer := now
        position := .ofNat ((s.position.toNat+1) % s.count.toNat) },
      music cfg s (.off prevNote) ++ music cfg s (.on nextNote))
  else some (s,[])

inductive Input where
  | key (key : Key)
  | task (elapsed now : UInt16)

def step (s : State) : Input → Option (State × List Event)
  | .key key => (processMusic cfg key s).map Prod.snd
  | .task elapsed now => musicTask cfg elapsed now s

structure Tape where
  notes : List UInt8
  turns : Nat

def controls (key : Key) (s : State) : Bool :=
  key.pressed && (processModeKey cfg key.keycode s).isNone
    && (s.musicActivated || s.midiActivated)

def recordsNote (key : Key) (s : State) : Option UInt8 :=
  if controls cfg key s && (processControlKey cfg key.keycode s).isNone && s.recording then
    some (noteOf cfg s.mode key)
  else none

def Tape.next (s : State) (t : Tape) : Input → Tape
  | .key key =>
    if controls cfg key s && key.keycode == 0xE0 then ⟨[],t.turns⟩
    else if controls cfg key s && (key.keycode == 0xE3 && s.recorded) then ⟨t.notes,0⟩
    else match recordsNote cfg key s with
      | some note => ⟨t.notes ++ [note],t.turns⟩
      | none => t
  | .task elapsed _ => if turnDue elapsed s then ⟨t.notes,t.turns+1⟩ else t

def TurnRight (s : State) (t : Tape) (events : List Event) : Prop :=
  0 ≤ prevIndex s ∧ prevIndex s < t.notes.length ∧ s.position.toNat < t.notes.length
    ∧ ∃ prev next, t.notes[t.turns % t.notes.length]? = some next
      ∧ (0 < t.turns → t.notes[(t.turns-1) % t.notes.length]? = some prev)
      ∧ events = music cfg s (.off prev) ++ music cfg s (.on next)

def Right (w : State × Tape) (input : Input) : Prop :=
  ∃ s events, step cfg w.1 input = some (s,events)
    ∧ match input with
      | .key _ => True
      | .task elapsed _ => turnDue elapsed w.1 = true → TurnRight cfg w.1 w.2 events

def next (w : State × Tape) (input : Input) : State × Tape :=
  (((step cfg w.1 input).map Prod.fst).getD w.1,w.2.next cfg w.1 input)

/-- There is room for what is recorded, and something to play. -/
def Clear (w : State × Tape) : Input → Prop
  | .key key => (recordsNote cfg key w.1).isSome = true → w.2.notes.length < 16
  | .task elapsed _ => turnDue elapsed w.1 = true → w.2.notes ≠ []

end

structure Inv (s : State) (t : Tape) : Prop where
  length : s.sequence.length = 16
  count : s.count.toNat = t.notes.length
  le : t.notes.length ≤ 16
  notes : s.sequence.take t.notes.length = t.notes
  stopped : s.playing = true → s.recording = false
  position : s.playing = true → s.position.toNat = t.turns % t.notes.length

section
variable {cfg : Config} {s : State} {t : Tape}

theorem inv_start : Inv init ⟨[],0⟩ :=
  ⟨rfl,rfl,Nat.zero_le 16,rfl,fun h => absurd h Bool.false_ne_true,
    fun h => absurd h Bool.false_ne_true⟩

theorem processModeKey_some {keycode : UInt16} {r : State × List Event}
    (h : processModeKey cfg keycode s = some r) : ∃ music midi mode,
    r.1 = { s with musicActivated := music, midiActivated := midi, mode := mode } := by
  have hon : ∀ k t u, (if keycode = k then some t else u) = some r → t = r ∨ u = some r := by
    intro k t u h
    split at h
    · exact .inl (Option.some.inj h)
    · exact .inr h
  unfold processModeKey at h
  rcases hon _ _ _ h with rfl | h
  · exact ⟨_,_,_,rfl⟩
  rcases hon _ _ _ h with rfl | h
  · exact ⟨_,_,_,rfl⟩
  rcases hon _ _ _ h with rfl | h
  · cases hm : s.musicActivated <;> exact ⟨_,_,_,rfl⟩
  rcases hon _ _ _ h with rfl | h
  · exact ⟨_,_,_,rfl⟩
  rcases hon _ _ _ h with rfl | h
  · exact ⟨_,_,_,rfl⟩
  rcases hon _ _ _ h with rfl | h
  · cases hm : s.midiActivated <;> exact ⟨_,_,_,rfl⟩
  rcases hon _ _ _ h with rfl | h
  · exact ⟨_,_,_,rfl⟩
  · cases h

theorem Inv.modes (h : Inv s t) (music midi : Bool) (mode : Nat) :
    Inv { s with musicActivated := music, midiActivated := midi, mode := mode } t :=
  ⟨h.length,h.count,h.le,h.notes,h.stopped,h.position⟩

theorem Inv.stop (h : Inv s t) (recording recorded : Bool) :
    Inv { s with recording := recording, recorded := recorded, playing := false } t :=
  ⟨h.length,h.count,h.le,h.notes,fun hp => absurd hp Bool.false_ne_true,
    fun hp => absurd hp Bool.false_ne_true⟩

theorem Inv.rewind (h : Inv s t) (turns : Nat) :
    Inv { s with recording := true, recorded := false, playing := false, count := 0 } ⟨[],turns⟩ :=
  ⟨h.length,rfl,Nat.zero_le 16,rfl,fun hp => absurd hp Bool.false_ne_true,
    fun hp => absurd hp Bool.false_ne_true⟩

theorem Inv.play (h : Inv s t) :
    Inv { s with recording := false, playing := true, position := 0, timer := 0 } ⟨t.notes,0⟩ :=
  ⟨h.length,h.count,h.le,h.notes,fun _ => rfl,fun _ => (Nat.zero_mod _).symm⟩

theorem Inv.record (h : Inv s t) (hrecording : s.recording = true) (hroom : t.notes.length < 16)
    (note : UInt8) : ∃ s', record note s = some s' ∧ Inv s' ⟨t.notes ++ [note],t.turns⟩ := by
  have hlt : t.notes.length < s.sequence.length := by rwa [h.length]
  have hnext : (s.count+1).toNat = t.notes.length+1 := by
    rw [UInt8.toNat_add, h.count]
    exact Nat.mod_eq_of_lt (by simp only [UInt8.toNat_one]; omega)
  have hstopped : s.playing = true → False := fun hp => by simp [h.stopped hp] at hrecording
  refine ⟨_,if_pos (by rwa [h.count]),?_,?_,?_,?_,fun hp => (hstopped hp).elim,
    fun hp => (hstopped hp).elim⟩
  · rw [List.length_set, h.length]
  · rw [List.length_append, hnext]
    rfl
  · rw [List.length_append]
    exact hroom
  · rw [List.length_append, h.count, List.length_singleton, List.take_add_one,
      List.getElem?_set_self hlt, List.take_set_of_le (Nat.le_refl _), h.notes]
    rfl

theorem controls_iff {key : Key} : controls cfg key s = true ↔ key.pressed = true
    ∧ processModeKey cfg key.keycode s = none ∧ (s.musicActivated || s.midiActivated) = true := by
  simp only [controls, Bool.and_eq_true, Option.isNone_iff_eq_none, and_assoc]

theorem tape_other {key : Key} (h : controls cfg key s = false) : t.next cfg s (.key key) = t := by
  simp [Tape.next,recordsNote,h]

theorem control_step (h : Inv s t) {key : Key} (hcontrols : controls cfg key s = true)
    {r : State × List Event} (hr : processControlKey cfg key.keycode s = some r) :
    Inv r.1 (t.next cfg s (.key key)) := by
  have hnone : recordsNote cfg key s = none := by simp [recordsNote,hr]
  simp only [Tape.next, hcontrols, hnone, Bool.true_and]
  unfold processControlKey at hr
  split_ifs at hr with hctrl halt hgui hup hdown
  · cases hr
    rw [if_pos (by simp [hctrl])]
    exact h.rewind t.turns
  · cases hr
    rw [if_neg (by simp [halt]), if_neg (by simp [halt])]
    exact h.stop false (s.recording || s.recorded)
  · cases hr
    rw [if_neg (by simp [hgui]), if_pos (by simp [hgui])]
    exact h.play
  · cases hr
    rw [if_neg (by simp [hup]), if_neg (by simp [hup])]
    exact ⟨h.length,h.count,h.le,h.notes,h.stopped,h.position⟩
  · cases hr
    rw [if_neg (by simp [hdown]), if_neg (by simp [hdown])]
    exact ⟨h.length,h.count,h.le,h.notes,h.stopped,h.position⟩

theorem tape_note {key : Key} (hcontrols : controls cfg key s = true)
    (hnone : processControlKey cfg key.keycode s = none) : t.next cfg s (.key key)
      = if s.recording then ⟨t.notes ++ [noteOf cfg s.mode key],t.turns⟩ else t := by
  have hkeys : key.keycode ≠ 0xE0 ∧ ¬ (key.keycode = 0xE3 ∧ s.recorded = true) := by
    refine ⟨fun heq => ?_,fun heq => ?_⟩
    · simp [processControlKey,heq] at hnone
    · simp [processControlKey,heq] at hnone
  have hgui : (key.keycode == 0xE3 && s.recorded) = false := by
    rw [Bool.and_eq_false_iff]
    by_contra hne
    exact hkeys.2 (by simpa using hne)
  simp only [Tape.next, recordsNote, hcontrols, hnone, hgui, Bool.true_and, Option.isNone_none,
    Bool.false_eq_true, if_false, beq_iff_eq, hkeys.1]
  cases s.recording <;> rfl

theorem key_step (h : Inv s t) {key : Key} (hclear : Clear cfg (s,t) (.key key)) :
    ∃ s' events, step cfg s (.key key) = some (s',events) ∧ Inv s' (t.next cfg s (.key key)) := by
  rw [step, processMusic]
  cases hmode : if key.pressed then processModeKey cfg key.keycode s else none with
  | some r =>
    have hpressed : key.pressed = true := by
      by_contra hne
      simp [hne] at hmode
    rw [if_pos hpressed] at hmode
    have hcontrols : controls cfg key s = false := by simp [controls,hmode]
    rw [tape_other hcontrols]
    obtain ⟨music, midi, mode, hr⟩ := processModeKey_some hmode
    exact ⟨r.1,r.2,rfl,by rw [hr]; exact h.modes music midi mode⟩
  | none =>
    cases hactive : s.musicActivated || s.midiActivated with
    | false =>
      have hcontrols : controls cfg key s = false := by simp only [controls, hactive, Bool.and_false]
      rw [tape_other hcontrols]
      exact ⟨s,[],rfl,h⟩
    | true =>
      dsimp only
      by_cases hpressed : key.pressed = true
      · rw [if_pos hpressed] at hmode
        have hcontrols : controls cfg key s = true := controls_iff.mpr ⟨hpressed,hmode,hactive⟩
        cases hcontrol : processControlKey cfg key.keycode s with
        | some r =>
          refine ⟨r.1,r.2,?_,control_step h hcontrols hcontrol⟩
          simp [hpressed]
        | none =>
          rw [tape_note hcontrols hcontrol]
          cases hrecording : s.recording with
          | false =>
            exact ⟨s,music cfg s (.on (noteOf cfg s.mode key)),
              by simp [hpressed,processNote,hrecording],h⟩
          | true =>
            have hroom : t.notes.length < 16 :=
              hclear (by simp [recordsNote,hcontrols,hcontrol,hrecording])
            obtain ⟨s', hrecord, hinv⟩ := h.record hrecording hroom (noteOf cfg s.mode key)
            exact ⟨s',music cfg s (.on (noteOf cfg s.mode key)),
              by simp [hpressed,processNote,hrecording,hrecord],hinv⟩
      · have hcontrols : controls cfg key s = false := by simp [controls,hpressed]
        rw [tape_other hcontrols]
        exact ⟨s,music cfg s (.off (noteOf cfg s.mode key)),by simp [hpressed,processNote],h⟩

theorem key_clear (h : Inv s t) {key : Key} (hright : Right cfg (s,t) (.key key)) :
    Clear cfg (s,t) (.key key) := by
  intro hrecords
  by_contra hfull
  obtain ⟨s', events, hstep, -⟩ := hright
  simp only [recordsNote, Option.isSome_ite, Bool.and_eq_true, Option.isNone_iff_eq_none] at hrecords
  obtain ⟨⟨hcontrols, hcontrol⟩, hrecording⟩ := hrecords
  obtain ⟨hpressed, hmode, hactive⟩ := controls_iff.mp hcontrols
  have hrecord : record (noteOf cfg s.mode key) s = none :=
    if_neg (by rw [h.count, h.length]; exact hfull)
  simp [step,processMusic,hpressed,hmode,hactive,hcontrol,processNote,hrecording,hrecord] at hstep

theorem succ_mod (k : Nat) {n : Nat} (hn : 0 < n) :
    k % n = if (k+1) % n = 0 then n-1 else (k+1) % n-1 := by
  have hlt := Nat.mod_lt k hn
  have hsucc : (k+1) % n = (k % n+1) % n := by rw [Nat.mod_add_mod]
  rcases Nat.lt_or_eq_of_le (Nat.succ_le_of_lt hlt) with h | h
  · rw [hsucc, Nat.mod_eq_of_lt h, if_neg (Nat.succ_ne_zero _)]
    rfl
  · have hlast : k % n+1 = n := h
    rw [hsucc, hlast, Nat.mod_self, if_pos rfl]
    omega

theorem Inv.read (h : Inv s t) {i : Nat} (hi : i < t.notes.length) :
    readSequence s i = t.notes[i]? := by
  rw [readSequence, if_pos (Int.natCast_nonneg i), Int.toNat_natCast, ← h.notes, List.getElem?_take,
    if_pos hi]

theorem prevIndex_eq (h : Inv s t) (hplaying : s.playing = true) (hne : 0 < t.notes.length) :
    ∃ i : Nat, prevIndex s = i ∧ i < t.notes.length
      ∧ (0 < t.turns → i = (t.turns-1) % t.notes.length) := by
  have hposition := h.position hplaying
  have hlt := Nat.mod_lt t.turns hne
  have hback : 0 < t.turns → (t.turns-1) % t.notes.length
      = if s.position.toNat = 0 then t.notes.length-1 else s.position.toNat-1 := fun hpos => by
    have h := succ_mod (t.turns-1) hne
    rwa [Nat.sub_add_cancel hpos, ← hposition] at h
  rw [prevIndex, h.count]
  by_cases hzero : s.position.toNat = 0
  · rw [if_pos hzero] at hback
    refine ⟨t.notes.length-1,?_,by omega,fun hpos => (hback hpos).symm⟩
    rw [if_pos (by omega)]
    omega
  · rw [if_neg hzero] at hback
    refine ⟨s.position.toNat-1,?_,by omega,fun hpos => (hback hpos).symm⟩
    rw [if_neg (by omega)]
    omega

theorem task_step (h : Inv s t) {elapsed now : UInt16} (hclear : Clear cfg (s,t) (.task elapsed now)) :
    ∃ s' events, step cfg s (.task elapsed now) = some (s',events)
      ∧ Inv s' (t.next cfg s (.task elapsed now))
      ∧ (turnDue elapsed s = true → TurnRight cfg s t events) := by
  rw [step, musicTask, Tape.next]
  by_cases hdue : turnDue elapsed s = true
  · have hplaying : s.playing = true := by
      simp only [turnDue, Bool.and_eq_true] at hdue
      exact hdue.1
    have hne : 0 < t.notes.length := List.length_pos_of_ne_nil (hclear hdue)
    have hposition := h.position hplaying
    have hlt : s.position.toNat < t.notes.length := hposition ▸ Nat.mod_lt t.turns hne
    obtain ⟨i, hprev, hi, hback⟩ := prevIndex_eq h hplaying hne
    have hcount : s.count ≠ 0 := fun hzero => by
      have hlen := h.count
      rw [hzero] at hlen
      exact absurd hlen.symm (Nat.ne_of_gt hne)
    rw [if_pos hdue, if_pos hdue, hprev, h.read hi, h.read hlt, List.getElem?_eq_getElem hi,
      List.getElem?_eq_getElem hlt]
    refine ⟨_,_,if_neg hcount,⟨h.length,h.count,h.le,h.notes,h.stopped,fun _ => ?_⟩,fun _ =>
      ⟨by rw [hprev]; exact Int.natCast_nonneg i,by rw [hprev]; exact Int.ofNat_lt.mpr hi,hlt,
        t.notes[i],t.notes[s.position.toNat],?_,fun hpos => ?_,rfl⟩⟩
    · have hmod := Nat.mod_lt (s.position.toNat+1) hne
      have hle := h.le
      rw [h.count, UInt8.toNat_ofNat', Nat.mod_eq_of_lt (by omega), hposition, Nat.mod_add_mod]
    · rw [← hposition, List.getElem?_eq_getElem hlt]
    · rw [← hback hpos, List.getElem?_eq_getElem hi]
  · rw [if_neg hdue, if_neg hdue]
    exact ⟨s,[],rfl,h,fun hdue' => absurd hdue' hdue⟩

theorem task_clear {elapsed now : UInt16} (hright : Right cfg (s,t) (.task elapsed now)) :
    Clear cfg (s,t) (.task elapsed now) := by
  intro hdue hnil
  obtain ⟨s', events, -, hturn⟩ := hright
  obtain ⟨-, -, hlt, -⟩ := hturn hdue
  rw [hnil] at hlt
  exact Nat.not_lt_zero _ hlt

theorem right_iff_clear (h : Inv s t) (input : Input) :
    Right cfg (s,t) input ↔ Clear cfg (s,t) input := by
  cases input with
  | key key =>
    refine ⟨key_clear h,fun hclear => ?_⟩
    obtain ⟨s', events, hstep, -⟩ := key_step h hclear
    exact ⟨s',events,hstep,trivial⟩
  | task elapsed now =>
    refine ⟨task_clear,fun hclear => ?_⟩
    obtain ⟨s', events, hstep, -, hturn⟩ := task_step h hclear
    exact ⟨s',events,hstep,hturn⟩

theorem Inv.next (h : Inv s t) {input : Input} (hclear : Clear cfg (s,t) input) :
    Inv (Music.next cfg (s,t) input).1 (Music.next cfg (s,t) input).2 := by
  have hs : ∃ s' events, step cfg s input = some (s',events) ∧ Inv s' (t.next cfg s input) := by
    cases input with
    | key key => exact key_step h hclear
    | task elapsed now =>
      obtain ⟨s', events, hstep, hinv, -⟩ := task_step h hclear
      exact ⟨s',events,hstep,hinv⟩
  obtain ⟨s', events, hstep, hinv⟩ := hs
  rw [Music.next, hstep]
  exact hinv

end

/-- Every access stays inside what is recorded and the tape is played in a loop, exactly as long as
no more than sixteen notes are recorded and nothing is played from an empty tape. -/
theorem recorder_right_iff (cfg : Config) (inputs : List Input) :
    Along (next cfg) (Right cfg) (init,⟨[],0⟩) inputs
      ↔ Along (next cfg) (Clear cfg) (init,⟨[],0⟩) inputs := by
  have hiff : ∀ (w : State × Tape) (input : Input), Inv w.1 w.2 →
      (Right cfg w input ↔ Clear cfg w input) := fun w input h => right_iff_clear h input
  have hstep : ∀ (w : State × Tape) (input : Input), Inv w.1 w.2 → Clear cfg w input →
      Inv (next cfg w input).1 (next cfg w input).2 := fun w input h hclear => h.next hclear
  exact Along.congr hiff hstep inv_start

def plainConfig : Config := ⟨true,true,0x0C,7,4,fun _ => 0,none,fun _ => true⟩

def press (keycode : UInt16) : Input := .key ⟨keycode,0,0,true⟩

def emptyTape : List Input := [press 0x7490,press 0xE0,press 0xE2,press 0xE3,.task 5 5]

theorem empty_tape_played : ¬ ∀ cfg inputs,
    Along (next cfg) (Right cfg) (init,⟨[],0⟩) inputs := by
  intro h
  obtain ⟨-, -, -, -, hright, -⟩ := h plainConfig emptyTape
  exact task_clear hright (by decide +kernel) (by decide +kernel)

end QmkFirmware.Music
