import QmkFirmware.Audio.Stack
import QmkFirmware.Lib.Along

/-!
Melodies, the periodic update, and what holds of the stack in every run. The timer does not move
within a call.
-/

set_option autoImplicit false

namespace QmkFirmware.Audio

variable {α : Type}

def durationToMs (cfg : Config) (duration : UInt16) : UInt16 :=
  .ofNat (duration.toNat*1875/(cfg.noteTempo*2))

def noteAt (song : Song α) (i : Nat) : Except Fault (Note α) :=
  match song.val[i]? with
  | some note => .ok note
  | none => .error .noteIndex

/-- Past the notes missed altogether, with `n` notes behind the current one. -/
def skipMissed (cfg : Config) (song : Song α) :
    Nat → Nat → UInt16 → UInt16 → Except Fault (Nat × UInt16 × UInt16)
  | 0, current, delta, duration => .ok (current,delta,duration)
  | n+1, current, delta, duration =>
    if duration < delta then do
      let note ← noteAt song (current+1)
      skipMissed cfg song n (current+1) (delta-duration) (durationToMs cfg note.duration)
    else .ok (current,delta,duration)

section
variable [DecidableEq α]

def playNext (cfg : Config) (now delta : UInt16) (s : State α) : Except Fault (State α) := do
  let note ← noteAt s.song s.currentNote
  let (current, delta, duration) ← skipMissed cfg s.song (s.song.val.length-1-s.currentNote)
    s.currentNote delta (durationToMs cfg note.duration)
  let duration := if delta < duration then duration-delta else 1
  let note ← noteAt s.song current
  let s ← audioPlayNote cfg now note.pitch duration
    { s with noteResting := false, currentNote := current }
  return { s with melodyCurrentNoteDuration := duration }

def sameAgain (previous : Nat) (s : State α) : Except Fault Bool :=
  if s.noteResting then .ok false else do
  return decide ((← noteAt s.song previous).pitch = (← noteAt s.song s.currentNote).pitch)

def nextNote (cfg : Config) (p : Pitches α) (now delta : UInt16) (previous : Nat) (s : State α) :
    Except Fault (State α) := do
  if ← sameAgain previous s then
    let s ← audioPlayNote cfg now p.rest (durationToMs cfg 2) { s with noteResting := true }
    return { s with currentNote := previous, melodyCurrentNoteDuration := durationToMs cfg 2 }
  playNext cfg now delta s

def audioPlayMelody (cfg : Config) (now : UInt16) (song : Song α) (repeats : Bool) (s : State α) :
    Except Fault (State α) := do
  if song.val.length = 0 then return s
  let s := if s.playingNote then audioStopAll s else s
  let s := { s with
    playingMelody := true
    noteResting := false
    song := song
    notesRepeat := repeats
    currentNote := 0 }
  let note ← noteAt song 0
  let duration := durationToMs cfg note.duration
  let s ← audioPlayNote cfg now note.pitch duration s
  return { s with lastTimestamp := now, melodyCurrentNoteDuration := duration }

def multiplex (cfg : Config) (now : UInt16) (s : State α) : Except Fault (State α) :=
  match cfg.multiplexing with
  | none => .ok s
  | some n =>
    let voices := min n s.activeTones
    if s.multiplexingRate = 0 ∨ voices = 0 then .error .zeroDivisor
    else .ok { s with indexShift := (now / s.multiplexingRate).toNat % voices }

def expireTone (cfg : Config) (p : Pitches α) (now : UInt16) (i : Nat) (s : State α) :
    Except Fault (State α) := do
  let t ← toneAt cfg s i
  if t.duration ≠ 0xFFFF ∧ t.duration ≠ 0 ∧ t.duration ≤ now-t.timeStarted then
    audioStopTone cfg (t.pitch.getD p.one) s
  else return s

/-- The tones from `i` on whose time is up, for at most `n` turns. -/
def expireTones (cfg : Config) (p : Pitches α) (now : UInt16) :
    Nat → Nat → State α → Except Fault (State α)
  | 0, _, s => .ok s
  | n+1, i, s =>
    if s.activeTones ≤ i then .ok s
    else do expireTones cfg p now n (i+1) (← expireTone cfg p now i s)

def reported (due : Bool) (s : State α) : Bool × State α :=
  if s.stateChanged then (true, { s with stateChanged := false }) else (due, s)

/-- The end of `audio_update_state`. The tones only get fewer, so that `activeTones` turns of its
loop are all. -/
def updateTones (cfg : Config) (p : Pitches α) (forced : Bool) (now : UInt16) (due : Bool)
    (s : State α) : Except Fault (Bool × State α) := do
  if !s.playingNote then return reported due s
  let s ← multiplex cfg now s
  let s ← expireTones cfg p now s.activeTones 0 s
  return reported (due || cfg.multiplexing.isSome || forced) s

def State.due (s : State α) (now : UInt16) : Bool :=
  s.playingMelody && decide (s.melodyCurrentNoteDuration ≤ now-s.lastTimestamp)

/-- `forced` is `vibrato || glissando`. -/
def audioUpdateState (cfg : Config) (p : Pitches α) (forced : Bool) (now : UInt16) (s : State α) :
    Except Fault (Bool × State α) := do
  if !s.playingNote && !s.playingMelody then return (false, s)
  if !s.due now then return ← updateTones cfg p forced now false s
  let delta := now-s.lastTimestamp-s.melodyCurrentNoteDuration
  let previous := s.currentNote
  let current := (previous+1) % 2^16
  let s := { s with lastTimestamp := now, currentNote := current }
  if s.song.val.length ≤ current ∧ s.notesRepeat = false then return (false, audioStopAll s)
  let s := if s.song.val.length ≤ current then { s with currentNote := 0 } else s
  updateTones cfg p forced now true (← nextNote cfg p now delta previous s)

end

/-- The calls, with what they are given. -/
inductive Call (α : Type) where
  | playNote (pitch : α) (duration : UInt16)
  | playTone (pitch : α)
  | stopTone (pitch : α)
  | stopAll
  | playMelody (song : Song α) (repeats : Bool)
  | updateState (forced : Bool)
  | getFrequency (toneIndex : UInt8)
  | getProcessedFrequency (toneIndex : UInt8) (envelope : α → α)
  | setMultiplexingRate (rate : UInt16)
  | enableMultiplexing
  | disableMultiplexing
  | increaseMultiplexingRate (change : UInt16)
  | decreaseMultiplexingRate (change : UInt16)

variable [DecidableEq α]

def call (cfg : Config) (p : Pitches α) (now : UInt16) (s : State α) :
    Call α → Except Fault (State α)
  | .playNote pitch duration => audioPlayNote cfg now pitch duration s
  | .playTone pitch => audioPlayNote cfg now pitch 0xFFFF s
  | .stopTone pitch => audioStopTone cfg pitch s
  | .stopAll => .ok (audioStopAll s)
  | .playMelody song repeats => audioPlayMelody cfg now song repeats s
  | .updateState forced => do return (← audioUpdateState cfg p forced now s).2
  | .getFrequency toneIndex => do
    let _ ← audioGetFrequency cfg p toneIndex s
    return s
  | .getProcessedFrequency toneIndex envelope => do
    let _ ← audioGetProcessedFrequency cfg p envelope toneIndex s
    return s
  | .setMultiplexingRate rate => .ok { s with multiplexingRate := rate }
  | .enableMultiplexing => .ok { s with multiplexingRate := cfg.rateDefault }
  | .disableMultiplexing => .ok { s with multiplexingRate := 0 }
  | .increaseMultiplexingRate change =>
    .ok (if s.multiplexingRate < 0xFFFF-change then
      { s with multiplexingRate := s.multiplexingRate+change } else s)
  | .decreaseMultiplexingRate change =>
    .ok (if change ≤ s.multiplexingRate then
      { s with multiplexingRate := s.multiplexingRate-change } else s)

structure OnSong (s : State α) : Prop where
  repeats : s.notesRepeat = true → s.currentNote < s.song.val.length
  lt : s.currentNote < 2^16

section
variable {cfg : Config} {p : Pitches α} {s : State α} {song : Song α} {now : UInt16}

omit [DecidableEq α] in
theorem OnSong.of_sameTune {s' : State α} (h : OnSong s) (hs : SameTune s s') : OnSong s' where
  repeats := by
    rw [hs.notesRepeat, hs.currentNote, hs.song]
    exact h.repeats
  lt := hs.currentNote ▸ h.lt

omit [DecidableEq α] in
theorem onSong_of_lt (h : s.currentNote < s.song.val.length) : OnSong s :=
  ⟨fun _ => h,Nat.lt_trans h s.song.property⟩

omit [DecidableEq α] in
theorem noteAt_ok {i : Nat} (h : i < song.val.length) : ∃ note, noteAt song i = .ok note :=
  ⟨song.val[i], by rw [noteAt, List.getElem?_eq_getElem h]⟩

omit [DecidableEq α] in
theorem skipMissed_ok {n current : Nat} (delta duration : UInt16)
    (h : current+n < song.val.length) :
    ∃ r, skipMissed cfg song n current delta duration = .ok r ∧ r.1 < song.val.length := by
  induction n generalizing current delta duration with
  | zero => exact ⟨_, rfl, h⟩
  | succ n ih =>
    rw [skipMissed]
    split_ifs with hmissed
    · obtain ⟨note, hnote⟩ := noteAt_ok (show current+1 < song.val.length by omega)
      rw [hnote, ok_bind]
      exact ih _ _ (by omega)
    · exact ⟨_, rfl, by dsimp only; omega⟩

theorem playNext_ok {delta : UInt16} (h : Sound cfg s)
    (hcurrent : s.currentNote < s.song.val.length) :
    ∃ s', playNext cfg now delta s = .ok s' ∧ Sound cfg s' ∧ OnSong s'
      ∧ s'.multiplexingRate = s.multiplexingRate := by
  obtain ⟨note, hnote⟩ := noteAt_ok hcurrent
  obtain ⟨⟨current, late, duration⟩, hskip, hlt⟩ := skipMissed_ok delta
    (durationToMs cfg note.duration)
    (show s.currentNote+(s.song.val.length-1-s.currentNote) < s.song.val.length by omega)
  obtain ⟨next, hnext⟩ := noteAt_ok hlt
  obtain ⟨s', hplay, hsound, htune⟩ := audioPlayNote_ok now
    (if late < duration then duration-late else 1) next.pitch
    (s := { s with noteResting := false, currentNote := current })
    ⟨⟨h.stacked,h.stopped,h.silent⟩,h.shift⟩
  rw [playNext, hnote, ok_bind, hskip, ok_bind]
  dsimp only at hnext ⊢
  rw [hnext, ok_bind, hplay, ok_bind]
  refine ⟨_, rfl, ⟨⟨hsound.stacked,hsound.stopped,hsound.silent⟩,hsound.shift⟩, onSong_of_lt ?_,
    htune.rate⟩
  dsimp only
  rw [htune.currentNote, htune.song]
  exact hlt

theorem nextNote_ok (p : Pitches α) (now delta : UInt16) {previous : Nat} (h : Sound cfg s)
    (hprevious : previous < s.song.val.length) (hcurrent : s.currentNote < s.song.val.length) :
    ∃ s', nextNote cfg p now delta previous s = .ok s' ∧ Sound cfg s' ∧ OnSong s'
      ∧ s'.multiplexingRate = s.multiplexingRate := by
  obtain ⟨before, hbefore⟩ := noteAt_ok hprevious
  obtain ⟨note, hnote⟩ := noteAt_ok hcurrent
  obtain ⟨again, hagain⟩ : ∃ again, sameAgain previous s = .ok again := by
    unfold sameAgain
    split_ifs
    · exact ⟨false, rfl⟩
    · rw [hbefore, ok_bind, hnote, ok_bind]
      exact ⟨_, rfl⟩
  rw [nextNote, hagain, ok_bind]
  cases again with
  | false => exact playNext_ok h hcurrent
  | true =>
    obtain ⟨s', hplay, hsound, htune⟩ := audioPlayNote_ok now (durationToMs cfg 2) p.rest
      (s := { s with noteResting := true })
      ⟨⟨h.stacked,h.stopped,h.silent⟩,h.shift⟩
    rw [if_pos rfl, hplay, ok_bind]
    refine ⟨_, rfl, ⟨⟨hsound.stacked,hsound.stopped,hsound.silent⟩,hsound.shift⟩, onSong_of_lt ?_,
      htune.rate⟩
    dsimp only
    rw [htune.song]
    exact hprevious

theorem audioPlayMelody_ok {repeats : Bool} (h : Sound cfg s) (ho : OnSong s) :
    ∃ s', audioPlayMelody cfg now song repeats s = .ok s' ∧ Sound cfg s' ∧ OnSong s' := by
  unfold audioPlayMelody
  by_cases hempty : song.val.length = 0
  · exact ⟨s, if_pos hempty, h, ho⟩
  obtain ⟨note, hnote⟩ := noteAt_ok (Nat.pos_of_ne_zero hempty)
  have hs : Sound cfg (if s.playingNote then audioStopAll s else s) := by
    split_ifs
    exacts [audioStopAll_sound h, h]
  obtain ⟨s', hplay, hsound, htune⟩ := audioPlayNote_ok now (durationToMs cfg note.duration)
    note.pitch
    (s := { (if s.playingNote then audioStopAll s else s) with
      playingMelody := true
      noteResting := false
      song := song
      notesRepeat := repeats
      currentNote := 0 }) ⟨⟨hs.stacked,hs.stopped,hs.silent⟩,hs.shift⟩
  rw [if_neg hempty]
  simp only [hnote, ok_bind, hplay]
  refine ⟨_, rfl, ⟨⟨hsound.stacked,hsound.stopped,hsound.silent⟩,hsound.shift⟩, onSong_of_lt ?_⟩
  dsimp only
  rw [htune.currentNote, htune.song]
  exact Nat.pos_of_ne_zero hempty

omit [DecidableEq α] in
theorem multiplex_ok (now : UInt16) (h : Sound cfg s) (hplay : s.playingNote = true)
    (hrate : ∀ n ∈ cfg.multiplexing, ¬ (s.multiplexingRate = 0 ∨ n = 0)) :
    ∃ s', multiplex cfg now s = .ok s' ∧ Sound cfg s' ∧ SameTune s s' := by
  unfold multiplex
  cases hmux : cfg.multiplexing with
  | none => exact ⟨s, rfl, h, .refl s⟩
  | some n =>
    have hn := hrate n hmux
    have hpos : s.activeTones ≠ 0 := fun hz => by simp [h.silent.mpr hz] at hplay
    have hle := Nat.le_trans h.stacked.le cfg.stackSize_le
    rw [not_or] at hn
    dsimp only
    rw [if_neg (not_or.mpr ⟨hn.1,by omega⟩)]
    refine ⟨_, rfl, ⟨⟨h.stacked,h.stopped,h.silent⟩,?_⟩, ⟨rfl,rfl,rfl,rfl⟩⟩
    have hmod := Nat.mod_lt (now / s.multiplexingRate).toNat
      (show 0 < min n s.activeTones by omega)
    dsimp only
    omega

theorem expireTone_ok (p : Pitches α) (now : UInt16) {i : Nat} (h : Sound cfg s)
    (hi : i < s.activeTones) :
    ∃ s', expireTone cfg p now i s = .ok s' ∧ Sound cfg s' ∧ SameTune s s'
      ∧ s'.activeTones ≤ s.activeTones := by
  rw [expireTone, toneAt_of_lt (Nat.lt_of_lt_of_le hi h.stacked.le), ok_bind]
  split_ifs
  exacts [audioStopTone_ok h, ⟨s, rfl, h, .refl s, Nat.le_refl _⟩]

theorem expireTones_ok (p : Pitches α) (now : UInt16) (n i : Nat) (h : Sound cfg s) :
    ∃ s', expireTones cfg p now n i s = .ok s' ∧ Sound cfg s' ∧ SameTune s s' := by
  induction n generalizing i s with
  | zero => exact ⟨s, rfl, h, .refl s⟩
  | succ n ih =>
    rw [expireTones]
    by_cases hend : s.activeTones ≤ i
    · exact ⟨s, if_pos hend, h, .refl s⟩
    · obtain ⟨t, ht, hsound, htune, _⟩ := expireTone_ok p now h (Nat.lt_of_not_le hend)
      obtain ⟨u, hu, hend', hrest⟩ := ih (i+1) hsound
      rw [if_neg hend, ht, ok_bind]
      exact ⟨u, hu, hend', htune.trans hrest⟩

theorem updateTones_ok {forced due : Bool} (h : Sound cfg s) (ho : OnSong s)
    (hrate : s.playingNote = true →
      ∀ n ∈ cfg.multiplexing, ¬ (s.multiplexingRate = 0 ∨ n = 0)) :
    ∃ r, updateTones cfg p forced now due s = .ok r ∧ Sound cfg r.2 ∧ OnSong r.2 := by
  have hreported : ∀ {t : State α} (d : Bool), Sound cfg t → OnSong t →
      Sound cfg (reported d t).2 ∧ OnSong (reported d t).2 := fun d ht hot => by
    unfold reported
    split_ifs
    exacts [⟨⟨⟨ht.stacked,ht.stopped,ht.silent⟩,ht.shift⟩,⟨hot.repeats,hot.lt⟩⟩, ⟨ht,hot⟩]
  cases hplay : s.playingNote with
  | false => exact ⟨_, by rw [updateTones, hplay]; rfl, hreported due h ho⟩
  | true =>
    obtain ⟨t, ht, hsound, htune⟩ := multiplex_ok now h hplay (hrate hplay)
    obtain ⟨u, hu, hsound', htune'⟩ := expireTones_ok p now t.activeTones 0 hsound
    refine ⟨_, ?_, hreported (due || cfg.multiplexing.isSome || forced) hsound'
      (ho.of_sameTune (htune.trans htune'))⟩
    rw [updateTones, hplay, if_neg (by simp), ht, ok_bind, hu, ok_bind]
    rfl

theorem audioUpdateState_ok (p : Pitches α) {forced : Bool} (h : Sound cfg s) (ho : OnSong s)
    (hlast : s.due now = true → s.currentNote ≠ 0xFFFF)
    (hrate : ∀ n ∈ cfg.multiplexing, s.multiplexingRate = 0 ∨ n = 0 →
      if s.due now then s.song.val.length ≤ s.currentNote+1 ∧ s.notesRepeat = false
      else s.playingNote = false) :
    ∃ r, audioUpdateState cfg p forced now s = .ok r ∧ Sound cfg r.2 ∧ OnSong r.2 := by
  unfold audioUpdateState
  by_cases hidle : (!s.playingNote && !s.playingMelody) = true
  · exact ⟨_, if_pos hidle, h, ho⟩
  rw [if_neg hidle]
  cases hdue : s.due now with
  | false =>
    rw [hdue] at hrate
    exact updateTones_ok h ho fun hplay n hn hz => by
      have hidle := hrate n hn hz
      rw [if_neg Bool.false_ne_true, hplay] at hidle
      exact absurd hidle.symm Bool.false_ne_true
  | true =>
    have hlt := ho.lt
    have hlen := s.song.property
    have hnext : (s.currentNote+1) % 2^16 = s.currentNote+1 :=
      Nat.mod_eq_of_lt (by have := hlast hdue; omega)
    simp only [Bool.not_true, Bool.false_eq_true, if_false, hnext]
    by_cases hover : s.song.val.length ≤ s.currentNote+1 ∧ s.notesRepeat = false
    · rw [if_pos hover]
      have hstop : Sound cfg (audioStopAll { s with
          lastTimestamp := now
          currentNote := s.currentNote+1 }) :=
        audioStopAll_sound ⟨⟨h.stacked,h.stopped,h.silent⟩,h.shift⟩
      refine ⟨_, rfl, hstop, OnSong.of_sameTune ⟨fun hr => ?_,hnext ▸ Nat.mod_lt _ (by omega)⟩
        audioStopAll_sameTune⟩
      rw [hover.2] at hr
      exact absurd hr Bool.false_ne_true
    · rw [if_neg hover]
      have hcan : ∀ n ∈ cfg.multiplexing, ¬ (s.multiplexingRate = 0 ∨ n = 0) := fun n hn hz => by
        have hend := hrate n hn hz
        rw [if_pos hdue] at hend
        exact hover hend
      have hprevious : s.currentNote < s.song.val.length := by
        by_cases hr : s.notesRepeat = true
        · exact ho.repeats hr
        · by_contra hge
          exact hover ⟨by omega, Bool.eq_false_iff.mpr hr⟩
      split_ifs with hwrap
      · obtain ⟨t, ht, hsound, hon, hr⟩ := nextNote_ok p now
          (now-s.lastTimestamp-s.melodyCurrentNoteDuration)
          (s := { s with lastTimestamp := now, currentNote := 0 })
          ⟨⟨h.stacked,h.stopped,h.silent⟩,h.shift⟩ hprevious (by dsimp only; omega)
        rw [ht, ok_bind]
        exact updateTones_ok hsound hon fun _ => by rw [hr]; exact hcan
      · obtain ⟨t, ht, hsound, hon, hr⟩ := nextNote_ok p now
          (now-s.lastTimestamp-s.melodyCurrentNoteDuration)
          (s := { s with lastTimestamp := now, currentNote := s.currentNote+1 })
          ⟨⟨h.stacked,h.stopped,h.silent⟩,h.shift⟩ hprevious (by dsimp only; omega)
        rw [ht, ok_bind]
        exact updateTones_ok hsound hon fun _ => by rw [hr]; exact hcan

end

/-- What a call must not meet: in `audio_update_state` an index of the current note about to
wrap, and a rate of zero where the current time is divided by it; in
`audio_get_processed_frequency` an offset left from a larger stack. -/
def Safe (cfg : Config) (now : UInt16) (s : State α) : Call α → Prop
  | .updateState _ =>
    (s.due now = true → s.currentNote ≠ 0xFFFF)
      ∧ ∀ n ∈ cfg.multiplexing, s.multiplexingRate = 0 ∨ n = 0 →
        if s.due now then s.song.val.length ≤ s.currentNote+1 ∧ s.notesRepeat = false
        else s.playingNote = false
  | .getProcessedFrequency toneIndex _ =>
    cfg.multiplexing.isSome → toneIndex.toNat < s.activeTones →
      s.indexShift+toneIndex.toNat+1 ≤ 2*s.activeTones
  | _ => True

instance (cfg : Config) (now : UInt16) (s : State α) : ∀ c, Decidable (Safe cfg now s c)
  | .updateState _ => inferInstanceAs (Decidable (_ ∧ _))
  | .getProcessedFrequency _ _ => inferInstanceAs (Decidable (_ → _))
  | .playNote _ _ | .playTone _ | .stopTone _ | .stopAll | .playMelody _ _ | .getFrequency _
  | .setMultiplexingRate _ | .enableMultiplexing | .disableMultiplexing
  | .increaseMultiplexingRate _ | .decreaseMultiplexingRate _ => .isTrue trivial

section
variable {cfg : Config} {p : Pitches α}

theorem call_ok {now : UInt16} {s : State α} {c : Call α} (h : Sound cfg s) (ho : OnSong s)
    (hsafe : Safe cfg now s c) :
    ∃ s', call cfg p now s c = .ok s' ∧ Sound cfg s' ∧ OnSong s' := by
  have hrate : ∀ rate, Sound cfg { s with multiplexingRate := rate }
      ∧ OnSong { s with multiplexingRate := rate } := fun rate =>
    ⟨⟨⟨h.stacked,h.stopped,h.silent⟩,h.shift⟩,⟨ho.repeats,ho.lt⟩⟩
  cases c with
  | playNote pitch duration =>
    obtain ⟨s', hs, hsound, htune⟩ := audioPlayNote_ok now _ pitch h
    exact ⟨s', hs, hsound, ho.of_sameTune htune⟩
  | playTone pitch =>
    obtain ⟨s', hs, hsound, htune⟩ := audioPlayNote_ok now _ pitch h
    exact ⟨s', hs, hsound, ho.of_sameTune htune⟩
  | stopTone pitch =>
    obtain ⟨s', hs, hsound, htune, _⟩ := audioStopTone_ok h
    exact ⟨s', hs, hsound, ho.of_sameTune htune⟩
  | stopAll => exact ⟨_, rfl, audioStopAll_sound h, ho.of_sameTune audioStopAll_sameTune⟩
  | playMelody song repeats => exact audioPlayMelody_ok h ho
  | updateState forced =>
    obtain ⟨r, hr, hsound, hon⟩ := audioUpdateState_ok p h ho hsafe.1 hsafe.2
    exact ⟨r.2, by rw [call, hr, ok_bind]; rfl, hsound, hon⟩
  | getFrequency toneIndex =>
    obtain ⟨pitch, hp⟩ := audioGetFrequency_ok p h
    exact ⟨s, by rw [call, hp, ok_bind]; rfl, h, ho⟩
  | getProcessedFrequency toneIndex envelope =>
    obtain ⟨pitch, hp⟩ := audioGetProcessedFrequency_ok p h hsafe
    exact ⟨s, by rw [call, hp, ok_bind]; rfl, h, ho⟩
  | setMultiplexingRate rate => exact ⟨_, rfl, hrate rate⟩
  | enableMultiplexing => exact ⟨_, rfl, hrate _⟩
  | disableMultiplexing => exact ⟨_, rfl, hrate _⟩
  | increaseMultiplexingRate change =>
    refine ⟨_, rfl, ?_⟩
    split_ifs
    exacts [hrate _, ⟨h,ho⟩]
  | decreaseMultiplexingRate change =>
    refine ⟨_, rfl, ?_⟩
    split_ifs
    exacts [hrate _, ⟨h,ho⟩]

/-- One call after another, up to the first fault. -/
def next (cfg : Config) (p : Pitches α) (r : Except Fault (State α)) (c : UInt16 × Call α) :
    Except Fault (State α) := do call cfg p c.1 (← r) c.2

def SafeCall (cfg : Config) (r : Except Fault (State α)) (c : UInt16 × Call α) : Prop :=
  match r with
  | .ok s => Safe cfg c.1 s c.2
  | .error _ => True

instance (r : Except Fault (State α)) : ∀ c : UInt16 × Call α, Decidable (SafeCall cfg r c) :=
  match r with
  | .ok s => fun c => inferInstanceAs (Decidable (Safe cfg c.1 s c.2))
  | .error _ => fun _ => .isTrue trivial

/-- The tone stack stays consistent, and nothing faults, in any run whose calls are safe. -/
theorem tones_consistent {calls : List (UInt16 × Call α)}
    (h : Along (next cfg p) (SafeCall cfg) (.ok (init cfg)) calls) :
    ∃ s, calls.foldl (next cfg p) (.ok (init cfg)) = .ok s ∧ Consistent cfg s := by
  obtain ⟨s, hs, hsound, _⟩ := h.invariant
    (I := fun r => ∃ s, r = .ok s ∧ Sound cfg s ∧ OnSong s)
    (fun r c ⟨s, hr, hsound, hon⟩ hsafe => by
      subst hr
      exact call_ok hsound hon hsafe)
    ⟨_, rfl, init_sound, ⟨fun hr => absurd hr Bool.false_ne_true,Nat.two_pow_pos 16⟩⟩
  exact ⟨s, hs, hsound.toConsistent⟩

end

/-- A build with tone multiplexing, at the given default rate. -/
def multiplexed (rate : UInt16) : Config := ⟨8,120,some 3,rate,by decide,by decide,by decide⟩

def twoNotes : Song Nat := ⟨[⟨440,64⟩,⟨660,64⟩],by decide⟩

def melodyRun : List (UInt16 × Call Nat) :=
  [(0,.playMelody twoNotes false),(20,.updateState false),(520,.updateState false),
    (530,.getProcessedFrequency 0 id),(1100,.updateState false)]

theorem tones_consistent_melody :
    ∃ s, melodyRun.foldl (next (multiplexed 10) ⟨0,1⟩) (.ok (init (multiplexed 10))) = .ok s
      ∧ Consistent (multiplexed 10) s :=
  tones_consistent (by decide +kernel)

def rateOff : List (UInt16 × Call Nat) := [(0,.playNote 440 100),(1,.updateState false)]

/-- Three tones, an update, and after `audio_stop_all` a single one. -/
def offsetLeft : List (UInt16 × Call Nat) :=
  [(0,.playTone 440),(0,.playTone 550),(0,.playTone 660),(20,.updateState false),(21,.stopAll),
    (22,.playTone 440),(23,.getProcessedFrequency 0 id)]

def faultOf (r : Except Fault (State Nat)) : Option Fault :=
  match r with
  | .ok _ => none
  | .error fault => some fault

theorem tones_fault :
    faultOf (rateOff.foldl (next (multiplexed 0) ⟨0,1⟩) (.ok (init (multiplexed 0))))
        = some .zeroDivisor
      ∧ faultOf (offsetLeft.foldl (next (multiplexed 10) ⟨0,1⟩) (.ok (init (multiplexed 10))))
        = some .toneIndex := by
  decide +kernel

end QmkFirmware.Audio
