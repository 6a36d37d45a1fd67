import QmkFirmware.Sequencer.Core

/-!
Which notes of the sequencer sound, and when none is left hanging.
-/

set_option autoImplicit false

namespace QmkFirmware.Sequencer

abbrev Sounding := Nat → Option UInt8

/-- What an event does to the notes that sound: a note goes on where its track is silent, and off
where it sounds. -/
def Event.play (sounding : Sounding) : Event → Option Sounding
  | .attack _ none | .release _ none => some sounding
  | .attack track (some note) =>
    if sounding track = none then some (Function.update sounding track (some note)) else none
  | .release track (some note) =>
    if sounding track = some note then some (Function.update sounding track none) else none

def playAll (sounding : Sounding) (events : List Event) : Option Sounding :=
  events.foldlM Event.play sounding

def Awaits (s : State) (track : Nat) : Prop :=
  s.enabled = true ∧ match s.phase with
    | .attack => track < s.currentTrack
    | .release => track ≤ s.currentTrack
    | .pause => False

section
variable (cfg : Config)

/-- The call returns, its notes go on and off in turn, and what sounds then awaits its release. -/
def Right (w : State × Sounding) (input : Input) : Prop :=
  ∃ s events sounding, step cfg w.1 input = some (s,events) ∧ playAll w.2 events = some sounding
    ∧ ∀ track, sounding track ≠ none → Awaits s track

def next (w : State × Sounding) (input : Input) : State × Sounding :=
  match step cfg w.1 input with
  | none => w
  | some (s, events) => (s,(playAll w.2 events).getD w.2)

/-- A track is released with the note it was attacked with, or with none if it had none; the
sequencer is switched while no note waits for its release. -/
def Clear (w : State × Sounding) : Input → Prop
  | .task r => w.1.enabled = true → w.1.phase = .release → releaseDue cfg r w.1 = true →
    currentNote cfg w.1 = w.2 w.1.currentTrack
  | .on _ | .off | .toggle _ => ∀ track, w.2 track = none
  | .setAllSteps _ => cfg.numSteps < 256
  | _ => True

structure Inv (w : State × Sounding) : Prop where
  track_lt : w.1.currentTrack < cfg.numTracks
  pause : w.1.phase = .pause → w.1.currentTrack = 0
  awaits : ∀ track, w.2 track ≠ none → Awaits w.1 track

end

section
variable {cfg : Config} {s : State} {sounding : Sounding}

theorem inv_start : Inv cfg (init,fun _ => none) :=
  ⟨cfg.tracks_pos,fun h => (by cases h),fun _ h => absurd rfl h⟩

theorem right_of_same {input : Input} {s' : State} (h : Inv cfg (s,sounding))
    (hstep : step cfg s input = some (s',[])) (henabled : s'.enabled = s.enabled)
    (htrack : s'.currentTrack = s.currentTrack) (hphase : s'.phase = s.phase) :
    Right cfg (s,sounding) input ∧ Inv cfg (next cfg (s,sounding) input) := by
  have hawaits : ∀ track, sounding track ≠ none → Awaits s' track := by
    intro track hne
    have hs := h.awaits track hne
    rw [Awaits] at hs ⊢
    rwa [henabled, hphase, htrack]
  refine ⟨⟨s',[],sounding,hstep,rfl,hawaits⟩,?_⟩
  rw [next, hstep]
  exact ⟨by rw [htrack]; exact h.track_lt,by rw [hphase, htrack]; exact h.pause,hawaits⟩

theorem task_attack (hon : s.enabled = true) (hphase : s.phase = .attack) (r : Readings) :
    sequencerTask cfg r s = phaseAttack cfg r s := by
  simp [sequencerTask,hon,hphase]

theorem phaseRelease_phase (hphase : s.phase = .release) (r : Readings) :
    (phaseRelease cfg r s).1.phase ≠ .attack := by
  rw [phaseRelease]
  split_ifs <;> simp [hphase]

theorem task_release (hon : s.enabled = true) (hphase : s.phase = .release) (r : Readings) :
    sequencerTask cfg r s = phaseRelease cfg r s := by
  have hnot := @phaseRelease_phase cfg s hphase r
  simp [sequencerTask,hon,hphase,hnot]

theorem task_pause (hon : s.enabled = true) (hphase : s.phase = .pause) (r : Readings) :
    sequencerTask cfg r s = (s,[]) ∨ sequencerTask cfg r s = phaseAttack cfg r
      { s with currentStep := (s.currentStep+1) % cfg.numSteps, phase := .attack } := by
  by_cases hlong : (r.pause-s.timer).toNat < getStepDuration s.tempo s.resolution
  · exact .inl (by simp [sequencerTask,hon,hphase,phasePause,hlong])
  · exact .inr (by simp [sequencerTask,hon,hphase,phasePause,hlong])

theorem phaseAttack_cases (cfg : Config) (r : Readings) (s : State) : ∃ timer,
    phaseAttack cfg r s = ({ s with timer := timer },[])
    ∨ phaseAttack cfg r s = (if s.currentTrack < cfg.numTracks-1
        then { s with timer := timer, currentTrack := s.currentTrack+1 }
        else { s with timer := timer, phase := .release },
      [.attack s.currentTrack (currentNote cfg s)]) := by
  obtain ⟨timer, htimer⟩ : ∃ timer, (if s.currentTrack = 0 then { s with timer := r.attack } else s)
      = { s with timer := timer } := by
    by_cases hzero : s.currentTrack = 0
    · exact ⟨r.attack,if_pos hzero⟩
    · exact ⟨s.timer,if_neg hzero⟩
  refine ⟨timer,?_⟩
  simp only [phaseAttack, htimer]
  by_cases hwait : (r.elapsed-timer).toNat < s.currentTrack*cfg.trackThrottle
  · exact .inl (if_pos hwait)
  · exact .inr (if_neg hwait)

theorem attack_sounding {note : Option UInt8} {track : Nat} (h : sounding track = none) :
    ∃ sounding', playAll sounding [.attack track note] = some sounding'
      ∧ ∀ t, sounding' t ≠ none → t = track ∨ sounding t ≠ none := by
  cases note with
  | none => exact ⟨sounding,rfl,fun t ht => .inr ht⟩
  | some note =>
    refine ⟨Function.update sounding track (some note),by simp [playAll,Event.play,h],fun t ht => ?_⟩
    by_cases heq : t = track
    · exact .inl heq
    · exact .inr (by rwa [Function.update_of_ne heq] at ht)

theorem attack_plays (h : Inv cfg (s,sounding)) (hon : s.enabled = true) (hphase : s.phase = .attack)
    (r : Readings) : ∃ sounding', playAll sounding (phaseAttack cfg r s).2 = some sounding'
      ∧ Inv cfg ((phaseAttack cfg r s).1,sounding') := by
  have hlt : s.currentTrack < cfg.numTracks := h.track_lt
  have hbefore : ∀ track, sounding track ≠ none → track < s.currentTrack := fun track hne => by
    have hs := h.awaits track hne
    rw [Awaits, hphase] at hs
    exact hs.2
  have hsilent : sounding s.currentTrack = none := by
    by_contra hne
    exact absurd (hbefore _ hne) (Nat.lt_irrefl _)
  obtain ⟨timer, hwait | hturn⟩ := phaseAttack_cases cfg r s
  · rw [hwait]
    exact ⟨sounding,rfl,hlt,h.pause,h.awaits⟩
  · obtain ⟨sounding', hplay, hnew⟩ := @attack_sounding sounding (currentNote cfg s) _ hsilent
    rw [hturn]
    refine ⟨sounding',hplay,?_⟩
    have hle : ∀ t, sounding' t ≠ none → t ≤ s.currentTrack := fun t ht => by
      rcases hnew t ht with heq | hne
      · exact Nat.le_of_eq heq
      · exact Nat.le_of_lt (hbefore t hne)
    split_ifs with hlast
    · refine ⟨by simp only; omega,fun hp => ?_,fun t ht => ⟨hon,?_⟩⟩
      · exact absurd (hphase.symm.trans hp) (by decide)
      · simp only [hphase]
        exact Nat.lt_succ_of_le (hle t ht)
    · exact ⟨hlt,fun hp => (by cases hp),fun t ht => ⟨hon,hle t ht⟩⟩

theorem release_sounding {track : Nat} :
    ∃ sounding', playAll sounding [.release track (sounding track)] = some sounding'
      ∧ ∀ t, sounding' t ≠ none → t ≠ track ∧ sounding t ≠ none := by
  cases hnote : sounding track with
  | none =>
    refine ⟨sounding,rfl,fun t ht => ⟨?_,ht⟩⟩
    rintro rfl
    exact ht hnote
  | some note =>
    refine ⟨Function.update sounding track none,by simp [playAll,Event.play,hnote],fun t ht => ?_⟩
    by_cases heq : t = track
    · rw [heq, Function.update_self] at ht
      exact absurd rfl ht
    · rw [Function.update_of_ne heq] at ht
      exact ⟨heq,ht⟩

theorem release_clear (h : Inv cfg (s,sounding)) (hon : s.enabled = true)
    (hphase : s.phase = .release) {r : Readings} (hclear : releaseDue cfg r s = true →
      currentNote cfg s = sounding s.currentTrack) :
    ∃ sounding', playAll sounding (phaseRelease cfg r s).2 = some sounding'
      ∧ Inv cfg ((phaseRelease cfg r s).1,sounding') := by
  have hlt : s.currentTrack < cfg.numTracks := h.track_lt
  have hle : ∀ track, sounding track ≠ none → track ≤ s.currentTrack := fun track hne => by
    have hs := h.awaits track hne
    rw [Awaits, hphase] at hs
    exact hs.2
  rw [phaseRelease]
  by_cases hdue : releaseDue cfg r s = true
  · rw [if_pos hdue, hclear hdue]
    obtain ⟨sounding', hplay, hnew⟩ := @release_sounding sounding s.currentTrack
    refine ⟨sounding',hplay,?_⟩
    have hbelow : ∀ t, sounding' t ≠ none → t < s.currentTrack := fun t ht => by
      obtain ⟨hne, hsounds⟩ := hnew t ht
      exact Nat.lt_of_le_of_ne (hle t hsounds) hne
    split_ifs with hpos
    · refine ⟨by simp only; omega,fun hp => ?_,fun t ht => ⟨hon,?_⟩⟩
      · exact absurd (hphase.symm.trans hp) (by decide)
      · simp only [hphase]
        exact Nat.le_sub_one_of_lt (hbelow t ht)
    · exact ⟨hlt,fun _ => by simp only; omega,fun t ht => absurd (hbelow t ht) (by omega)⟩
  · rw [if_neg hdue]
    exact ⟨sounding,rfl,h⟩

/-- A release with another note than the one that sounds, or with none, leaves a note hanging or
sends a note off for nothing. -/
theorem release_wrong (hon : s.enabled = true) (hphase : s.phase = .release) {r : Readings}
    (hright : Right cfg (s,sounding) (.task r)) (hdue : releaseDue cfg r s = true) :
    currentNote cfg s = sounding s.currentTrack := by
  obtain ⟨s', events, sounding', hstep, hplay, hawaits⟩ := hright
  rw [step, task_release hon hphase, phaseRelease, if_pos hdue] at hstep
  obtain ⟨rfl, rfl⟩ := Prod.mk.inj (Option.some.inj hstep)
  cases hnote : currentNote cfg s with
  | some note =>
    rw [hnote] at hplay
    by_cases heq : sounding s.currentTrack = some note
    · exact heq.symm
    · simp [playAll,Event.play,heq] at hplay
  | none =>
    rw [hnote] at hplay
    obtain rfl : sounding = sounding' := Option.some.inj hplay
    by_contra hne
    have hs := (hawaits s.currentTrack (Ne.symm hne)).2
    split_ifs at hs with hpos
    · simp only [hphase] at hs
      omega
    · exact hs

theorem right_and_inv {input : Input} {s' : State} {events : List Event} {sounding' : Sounding}
    (hstep : step cfg s input = some (s',events)) (hplay : playAll sounding events = some sounding')
    (hinv : Inv cfg (s',sounding')) :
    Right cfg (s,sounding) input ∧ Inv cfg (next cfg (s,sounding) input) := by
  refine ⟨⟨s',events,sounding',hstep,hplay,hinv.awaits⟩,?_⟩
  simp only [next, hstep, hplay]
  exact hinv

theorem task_step (h : Inv cfg (s,sounding)) {r : Readings}
    (hclear : Clear cfg (s,sounding) (.task r)) :
    Right cfg (s,sounding) (.task r) ∧ Inv cfg (next cfg (s,sounding) (.task r)) := by
  by_cases hon : s.enabled = true
  · cases hphase : s.phase with
    | attack =>
      obtain ⟨sounding', hplay, hinv⟩ := attack_plays h hon hphase r
      exact right_and_inv (congrArg some (task_attack hon hphase r)) hplay hinv
    | release =>
      obtain ⟨sounding', hplay, hinv⟩ := release_clear h hon hphase (hclear hon hphase)
      exact right_and_inv (congrArg some (task_release hon hphase r)) hplay hinv
    | pause =>
      have hsilent : ∀ track, sounding track = none := fun track => by
        by_contra hne
        have hs := (h.awaits track hne).2
        rwa [hphase] at hs
      have hzero : s.currentTrack = 0 := h.pause hphase
      rcases @task_pause cfg s hon hphase r with htask | htask
      · exact right_and_inv (congrArg some htask) rfl h
      · -- the next step begins with its first track, and nothing sounds
        obtain ⟨sounding', hplay, hinv⟩ := @attack_plays cfg
          { s with currentStep := (s.currentStep+1) % cfg.numSteps, phase := .attack } sounding
          ⟨h.track_lt,fun hp => (by cases hp),fun t ht => absurd (hsilent t) ht⟩ hon rfl r
        exact right_and_inv (congrArg some htask) hplay hinv
  · exact right_and_inv (congrArg some (if_neg hon)) rfl h

theorem task_clear {r : Readings} (hright : Right cfg (s,sounding) (.task r)) :
    Clear cfg (s,sounding) (.task r) :=
  fun hon hphase hdue => release_wrong hon hphase hright hdue

theorem switch_step {input : Input} {s' : State} (hstep : step cfg s input = some (s',[]))
    (hlt : s'.currentTrack < cfg.numTracks) (hpause : s'.phase = .pause → s'.currentTrack = 0)
    (hsilent : ∀ track, sounding track = none) :
    Right cfg (s,sounding) input ∧ Inv cfg (next cfg (s,sounding) input) :=
  right_and_inv hstep rfl ⟨hlt,hpause,fun t ht => absurd (hsilent t) ht⟩

theorem switch_clear {input : Input} {s' : State} (hstep : step cfg s input = some (s',[]))
    (hnone : ∀ track, ¬ Awaits s' track) (hright : Right cfg (s,sounding) input) (track : Nat) :
    sounding track = none := by
  obtain ⟨s'', events, sounding', hstep', hplay, hawaits⟩ := hright
  rw [hstep] at hstep'
  obtain ⟨rfl, rfl⟩ := Prod.mk.inj (Option.some.inj hstep')
  obtain rfl : sounding = sounding' := Option.some.inj hplay
  by_contra hne
  exact hnone track (hawaits track hne)

theorem not_awaits_on (now : UInt16) (track : Nat) : ¬ Awaits (sequencerOn now s) track :=
  fun h => Nat.not_lt_zero _ h.2

theorem not_awaits_off (track : Nat) : ¬ Awaits (sequencerOff s) track := fun h => by cases h.1

theorem toggle_cases (cfg : Config) (now : UInt16) (s : State) :
    step cfg s (.toggle now) = some (sequencerOff s,[])
      ∨ step cfg s (.toggle now) = some (sequencerOn now s,[]) := by
  rw [step, sequencerToggle]
  split_ifs
  · exact .inl rfl
  · exact .inr rfl

def Input.edits : Input → Bool
  | .task _ | .on _ | .off | .toggle _ | .setAllSteps _ => false
  | _ => true

theorem edit_step (h : Inv cfg (s,sounding)) {input : Input} (hin : input.edits = true) :
    Right cfg (s,sounding) input ∧ Inv cfg (next cfg (s,sounding) input) := by
  have htempo : ∀ tempo, (setTempo tempo s).enabled = s.enabled
      ∧ (setTempo tempo s).currentTrack = s.currentTrack ∧ (setTempo tempo s).phase = s.phase := by
    intro tempo
    rw [setTempo]
    split_ifs <;> exact ⟨rfl,rfl,rfl⟩
  have hresolution : ∀ resolution, (setResolution resolution s).enabled = s.enabled
      ∧ (setResolution resolution s).currentTrack = s.currentTrack
      ∧ (setResolution resolution s).phase = s.phase := by
    intro resolution
    rw [setResolution]
    split_ifs <;> exact ⟨rfl,rfl,rfl⟩
  have hset : ∀ i value, (setStep cfg i value s).enabled = s.enabled
      ∧ (setStep cfg i value s).currentTrack = s.currentTrack
      ∧ (setStep cfg i value s).phase = s.phase := by
    intro i value
    rw [setStep]
    split_ifs <;> exact ⟨rfl,rfl,rfl⟩
  cases input with
  | task | on | off | toggle | setAllSteps => cases hin
  | setTrackNotes | setTrackActivation | toggleTrackActivation | toggleSingleActiveTrack =>
    exact right_of_same h rfl rfl rfl rfl
  | setStep i value => exact right_of_same h rfl (hset _ _).1 (hset _ _).2.1 (hset _ _).2.2
  | toggleStep i => exact right_of_same h rfl (hset _ _).1 (hset _ _).2.1 (hset _ _).2.2
  | setTempo tempo => exact right_of_same h rfl (htempo _).1 (htempo _).2.1 (htempo _).2.2
  | increaseTempo =>
    by_cases hmax : s.tempo < 255
    · exact right_of_same h (congrArg some (Prod.ext (if_pos hmax) rfl)) (htempo _).1 (htempo _).2.1
        (htempo _).2.2
    · exact right_of_same h (congrArg some (Prod.ext (if_neg hmax) rfl)) rfl rfl rfl
  | decreaseTempo => exact right_of_same h rfl (htempo _).1 (htempo _).2.1 (htempo _).2.2
  | setResolution | increaseResolution | decreaseResolution =>
    exact right_of_same h rfl (hresolution _).1 (hresolution _).2.1 (hresolution _).2.2

theorem step_clear (h : Inv cfg (s,sounding)) {input : Input} (hclear : Clear cfg (s,sounding) input) :
    Right cfg (s,sounding) input ∧ Inv cfg (next cfg (s,sounding) input) := by
  cases input with
  | task r => exact task_step h hclear
  | on now => exact switch_step rfl cfg.tracks_pos (fun hp => (by cases hp)) hclear
  | off => exact switch_step rfl h.track_lt h.pause hclear
  | toggle now =>
    rcases toggle_cases cfg now s with hoff | hon
    · exact switch_step hoff h.track_lt h.pause hclear
    · exact switch_step hon cfg.tracks_pos (fun hp => (by cases hp)) hclear
  | setAllSteps value =>
    have hlt : cfg.numSteps < 256 := hclear
    have hstep : step cfg s (.setAllSteps value) = some ({ s with
        steps := fun i => if i < cfg.numSteps then stepValue value s i else s.steps i },[]) := by
      rw [step, setAllSteps, if_pos hlt]
      rfl
    exact right_of_same h hstep rfl rfl rfl
  | _ => exact edit_step h rfl

theorem right_clear {input : Input} (hright : Right cfg (s,sounding) input) :
    Clear cfg (s,sounding) input := by
  cases input with
  | task r => exact task_clear hright
  | on now => exact switch_clear rfl (not_awaits_on now) hright
  | off => exact switch_clear rfl not_awaits_off hright
  | toggle now =>
    rcases toggle_cases cfg now s with hoff | hon
    · exact switch_clear hoff not_awaits_off hright
    · exact switch_clear hon (not_awaits_on now) hright
  | setAllSteps value =>
    obtain ⟨s', events, sounding', hstep, -⟩ := hright
    by_contra hnot
    have hlt : ¬ cfg.numSteps < 256 := hnot
    simp only [step, setAllSteps, if_neg hlt] at hstep
    cases hstep
  | _ => trivial

end

/-- No note is left hanging and none is sent off for nothing, exactly as long as every track is
released as it was attacked and nothing sounds when the sequencer is switched. -/
theorem notes_right_iff (cfg : Config) (inputs : List Input) :
    Along (next cfg) (Right cfg) (init,fun _ => none) inputs
      ↔ Along (next cfg) (Clear cfg) (init,fun _ => none) inputs := by
  have hiff : ∀ w input, Inv cfg w → (Right cfg w input ↔ Clear cfg w input) :=
    fun w input h => ⟨right_clear,fun hclear => (step_clear h hclear).1⟩
  have hstep : ∀ w input, Inv cfg w → Clear cfg w input → Inv cfg (next cfg w input) :=
    fun w input h hclear => (step_clear h hclear).2
  exact Along.congr hiff hstep inv_start

theorem defaultSteps_pos : 0 < 16 := by decide
theorem defaultSteps_le : 16 ≤ 256 := by decide
theorem defaultTracks_pos : 0 < 8 := by decide
theorem defaultTracks_le : 8 ≤ 8 := by decide

def defaultConfig : Config where
  numSteps := 16
  numTracks := 8
  trackThrottle := 3
  releaseTimeout := 30
  midi := ⟨4,0,127,0,8⟩
  steps_pos := defaultSteps_pos
  steps_le := defaultSteps_le
  tracks_pos := defaultTracks_pos
  tracks_le := defaultTracks_le

def offAfterAttack : List Input :=
  [.toggleTrackActivation 0,.setStep 0 true,.on 0,.task ⟨0,0,0,0⟩,.off]

theorem hanging_note : ¬ ∀ cfg inputs, Along (next cfg) (Right cfg) (init,fun _ => none) inputs := by
  intro h
  obtain ⟨-, -, -, -, hoff, -⟩ := h defaultConfig offAfterAttack
  have hsilent := switch_clear rfl not_awaits_off hoff 0
  revert hsilent
  decide +kernel

end QmkFirmware.Sequencer
