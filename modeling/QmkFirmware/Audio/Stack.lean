import Mathlib.Data.List.Basic
import Mathlib.Algebra.GroupWithZero.Nat

/-!
The tones of audio.c after `audio_init`, with audio enabled: the stack of active tones and the
driver. An access outside an array and a division by zero show as faults. Pitches are of any type;
`none` is the negative mark of an unused slot.
-/

set_option autoImplicit false

namespace QmkFirmware.Audio

inductive Fault where
  | toneIndex | noteIndex | zeroDivisor
  deriving DecidableEq, Repr

/-- The build: `AUDIO_TONE_STACKSIZE`, which an `int8_t` indexes, the tempo, and with tone
multiplexing `AUDIO_MAX_SIMULTANEOUS_TONES`. -/
structure Config where
  stackSize : Nat
  noteTempo : Nat
  multiplexing : Option Nat
  rateDefault : UInt16
  stackSize_pos : 0 < stackSize
  stackSize_le : stackSize ≤ 128
  noteTempo_pos : 0 < noteTempo

/-- The rest 0.0, and 1.0, which the mark of an unused slot becomes without its sign. -/
structure Pitches (α : Type) where
  rest : α
  one : α

structure Tone (α : Type) where
  pitch : Option α
  timeStarted : UInt16
  duration : UInt16
  deriving DecidableEq, Repr

def Tone.unused {α : Type} : Tone α := ⟨none,0,0⟩

structure Note (α : Type) where
  pitch : α
  duration : UInt16
  deriving DecidableEq, Repr

/-- A song, with its `uint16_t` number of notes. -/
abbrev Song (α : Type) := { notes : List (Note α) // notes.length < 2^16 }

structure State (α : Type) where
  activeTones : Nat
  tones : Nat → Tone α
  playingMelody : Bool
  playingNote : Bool
  stateChanged : Bool
  song : Song α
  notesRepeat : Bool
  melodyCurrentNoteDuration : UInt16
  currentNote : Nat
  noteResting : Bool
  lastTimestamp : UInt16
  multiplexingRate : UInt16
  indexShift : Nat
  driverStopped : Bool

variable {α : Type}

/-- After `audio_init`. -/
def init (cfg : Config) : State α where
  activeTones := 0
  tones := fun _ => .unused
  playingMelody := false
  playingNote := false
  stateChanged := false
  song := ⟨[],Nat.two_pow_pos 16⟩
  notesRepeat := false
  melodyCurrentNoteDuration := 0
  currentNote := 0
  noteResting := false
  lastTimestamp := 0
  multiplexingRate := cfg.rateDefault
  indexShift := 0
  driverStopped := true

def toneAt (cfg : Config) (s : State α) (i : Int) : Except Fault (Tone α) :=
  if 0 ≤ i ∧ i < cfg.stackSize then .ok (s.tones i.toNat) else .error .toneIndex

def setTone (cfg : Config) (i : Int) (t : Tone α) (s : State α) : Except Fault (State α) :=
  if 0 ≤ i ∧ i < cfg.stackSize then
    .ok { s with tones := fun k => if k = i.toNat then t else s.tones k }
  else .error .toneIndex

/-- A search downwards over the first `n` tones. -/
def findTone [DecidableEq α] (cfg : Config) (pitch : α) (s : State α) : Nat →
    Except Fault (Option Nat)
  | 0 => .ok none
  | i+1 => do
    let t ← toneAt cfg s i
    if t.pitch = some pitch then return some i
    findTone cfg pitch s i

/-- `tones[j] = tones[j + 1]`, `n` times from `j` on. -/
def shiftDown (cfg : Config) : Nat → Nat → State α → Except Fault (State α)
  | 0, _, s => .ok s
  | n+1, j, s => do
    let t ← toneAt cfg s (j+1)
    let s ← setTone cfg j t s
    shiftDown cfg n (j+1) s

def bringUp (cfg : Config) (new : Tone α) : Nat → Nat → State α → Except Fault (State α)
  | 0, _, s => .ok s
  | n+1, j, s => do
    let t ← toneAt cfg s (j+1)
    let s ← setTone cfg j t s
    let s ← setTone cfg (j+1) new s
    bringUp cfg new n (j+1) s

def audioStopAll (s : State α) : State α :=
  if s.driverStopped then s else
  { s with
    activeTones := 0
    playingMelody := false
    playingNote := false
    melodyCurrentNoteDuration := 0
    tones := fun _ => .unused
    driverStopped := true }

/-- What `audio_stop_tone` does once the tone is out of the stack. -/
def toneStopped (cfg : Config) (s : State α) : State α :=
  let active := (s.activeTones+255) % 256
  let s := { s with stateChanged := true, activeTones := active }
  let s := if cfg.multiplexing.isSome ∧ active ≤ s.indexShift then { s with indexShift := 0 } else s
  if active = 0 then { s with driverStopped := true, playingNote := false } else s

section
variable [DecidableEq α]

def audioStopTone (cfg : Config) (pitch : α) (s : State α) : Except Fault (State α) := do
  if !s.playingNote then return s
  match ← findTone cfg pitch s cfg.stackSize with
  | none => return s
  | some i =>
    let s ← shiftDown cfg (cfg.stackSize-1-i) i s
    return toneStopped cfg (← setTone cfg (cfg.stackSize-1) .unused s)

def audioPlayNote (cfg : Config) (now : UInt16) (pitch : α) (duration : UInt16) (s : State α) :
    Except Fault (State α) := do
  let new : Tone α := ⟨some pitch,now,duration⟩
  match ← findTone cfg pitch s s.activeTones with
  | some i => bringUp cfg new (s.activeTones-1-i) i s
  | none =>
    let active := (s.activeTones+1) % 256
    let s ← if cfg.stackSize < active then
        shiftDown cfg (cfg.stackSize-1) 0 { s with activeTones := cfg.stackSize }
      else pure { s with activeTones := active }
    let s ← setTone cfg (s.activeTones-1) new { s with stateChanged := true, playingNote := true }
    return { s with driverStopped := false }

end

def audioGetFrequency (cfg : Config) (p : Pitches α) (toneIndex : UInt8) (s : State α) :
    Except Fault (Option α) := do
  if s.activeTones ≤ toneIndex.toNat then return some p.rest
  return (← toneAt cfg s (s.activeTones-toneIndex.toNat-1)).pitch

/-- The index is an `int8_t`. The voice's envelope is a parameter. -/
def audioGetProcessedFrequency [DecidableEq α] (cfg : Config) (p : Pitches α) (envelope : α → α)
    (toneIndex : UInt8) (s : State α) : Except Fault α := do
  if s.activeTones ≤ toneIndex.toNat then return p.rest
  let index := Int.bmod (s.activeTones-toneIndex.toNat-1) 256
  let index := if cfg.multiplexing.isSome then
      let index := Int.bmod (index-s.indexShift) 256
      if index < 0 then Int.bmod (index+s.activeTones) 256 else index
    else index
  match (← toneAt cfg s index).pitch with
  | none => return p.rest
  | some pitch => return if pitch = p.rest then p.rest else envelope pitch

@[simp] theorem ok_bind {β γ : Type} (b : β) (f : β → Except Fault γ) :
    (Except.ok b >>= f) = f b := rfl

section slots
variable {cfg : Config} {s : State α} {i j n : Nat} {t new : Tone α}

theorem toneAt_of_lt (h : i < cfg.stackSize) : toneAt cfg s i = .ok (s.tones i) := by
  simp [toneAt, h]

theorem setTone_of_lt (h : i < cfg.stackSize) : setTone cfg i t s =
    .ok { s with tones := fun k => if k = i then t else s.tones k } := by
  simp [setTone, h]

theorem shiftDown_ok (h : j+n < cfg.stackSize) : shiftDown cfg n j s =
    .ok { s with tones := fun k => if j ≤ k ∧ k < j+n then s.tones (k+1) else s.tones k } := by
  induction n generalizing j s with
  | zero =>
    have hnone : ∀ k, ¬ (j ≤ k ∧ k < j+0) := fun k => by omega
    simp only [shiftDown, hnone, if_false]
  | succ n ih =>
    rw [shiftDown, ← Int.natCast_succ, toneAt_of_lt (by omega)]
    simp only [ok_bind, setTone_of_lt (show j < cfg.stackSize by omega)]
    rw [ih (by omega)]
    congr 2
    funext k
    dsimp only
    rcases Nat.lt_trichotomy k j with hk | rfl | hk
    · grind
    · grind
    · grind

theorem bringUp_ok (h : j+n < cfg.stackSize) : bringUp cfg new n j s =
    .ok { s with tones := fun k =>
      if j ≤ k ∧ k < j+n then s.tones (k+1)
      else if k = j+n ∧ 0 < n then new else s.tones k } := by
  induction n generalizing j s with
  | zero =>
    have hnone : ∀ k, ¬ (j ≤ k ∧ k < j+0) := fun k => by omega
    simp only [bringUp, hnone, if_false, Nat.lt_irrefl, and_false]
  | succ n ih =>
    rw [bringUp, ← Int.natCast_succ, toneAt_of_lt (by omega)]
    simp only [ok_bind, setTone_of_lt (show j < cfg.stackSize by omega),
      setTone_of_lt (show j+1 < cfg.stackSize by omega)]
    rw [ih (by omega)]
    congr 2
    funext k
    dsimp only
    rcases Nat.lt_trichotomy k j with hk | rfl | hk
    · grind
    · grind
    · grind

theorem findTone_ok [DecidableEq α] (s : State α) (pitch : α) (h : n ≤ cfg.stackSize) :
    ∃ r, findTone cfg pitch s n = .ok r
      ∧ match r with
        | none => ∀ i < n, (s.tones i).pitch ≠ some pitch
        | some i => i < n ∧ (s.tones i).pitch = some pitch := by
  induction n with
  | zero => exact ⟨none, rfl, fun i hi => absurd hi (Nat.not_lt_zero i)⟩
  | succ n ih =>
    rw [findTone, toneAt_of_lt h, ok_bind]
    by_cases hp : (s.tones n).pitch = some pitch
    · exact ⟨some n, if_pos hp, Nat.lt_succ_self n, hp⟩
    · obtain ⟨r, hr, hspec⟩ := ih (Nat.le_of_succ_le h)
      refine ⟨r, (if_neg hp).trans hr, ?_⟩
      cases r with
      | none =>
        intro i hi
        rcases Nat.lt_succ_iff_lt_or_eq.mp hi with hi | rfl
        exacts [hspec i hi, hp]
      | some i => exact ⟨Nat.lt_succ_of_lt hspec.1, hspec.2⟩

end slots

/-- The first `n` slots hold tones of different pitches, the others are unused. -/
structure Stacked (cfg : Config) (n : Nat) (tones : Nat → Tone α) : Prop where
  le : n ≤ cfg.stackSize
  used : ∀ i < n, (tones i).pitch ≠ none
  distinct : ∀ i < n, ∀ j < n, (tones i).pitch = (tones j).pitch → i = j
  unused : ∀ i, n ≤ i → (tones i).pitch = none

theorem stacked_unused {cfg : Config} : Stacked cfg 0 (fun _ => (.unused : Tone α)) where
  le := Nat.zero_le _
  used := fun i hi => absurd hi (Nat.not_lt_zero i)
  distinct := fun i hi => absurd hi (Nat.not_lt_zero i)
  unused := fun _ _ => rfl

section stacked
variable {cfg : Config} {n m : Nat} {tones next : Nat → Tone α}

theorem Stacked.reindex (h : Stacked cfg n tones) (σ : Nat → Nat) (hm : m ≤ cfg.stackSize)
    (hpitch : ∀ k < m, (next k).pitch = (tones (σ k)).pitch) (hlt : ∀ k < m, σ k < n)
    (hinj : ∀ i < m, ∀ j < m, σ i = σ j → i = j) (hrest : ∀ k, m ≤ k → (next k).pitch = none) :
    Stacked cfg m next where
  le := hm
  used := fun i hi => hpitch i hi ▸ h.used _ (hlt i hi)
  distinct := fun i hi j hj he => by
    rw [hpitch i hi, hpitch j hj] at he
    exact hinj i hi j hj (h.distinct _ (hlt i hi) _ (hlt j hj) he)
  unused := hrest

theorem Stacked.push (h : Stacked cfg n tones) (σ : Nat → Nat) {new : Tone α} {pitch : α}
    (hnew : new.pitch = some pitch) (hfresh : ∀ i < n, (tones i).pitch ≠ some pitch)
    (hm : m < cfg.stackSize) (hpitch : ∀ k < m, next k = tones (σ k)) (hlt : ∀ k < m, σ k < n)
    (hinj : ∀ i < m, ∀ j < m, σ i = σ j → i = j) (hrest : ∀ k, m < k → (next k).pitch = none) :
    Stacked cfg (m+1) (fun k => if k = m then new else next k) := by
  have hold : ∀ k < m, (next k).pitch = (tones (σ k)).pitch := fun k hk => by rw [hpitch k hk]
  have hother : ∀ k < m, (next k).pitch ≠ new.pitch := fun k hk => by
    rw [hold k hk, hnew]
    exact hfresh _ (hlt k hk)
  refine ⟨hm, fun i hi => ?_, fun i hi j hj he => ?_, fun i hi => ?_⟩
  · by_cases hit : i = m
    · simp [hit, hnew]
    · rw [if_neg hit, hold i (by omega)]
      exact h.used _ (hlt i (by omega))
  · by_cases hit : i = m <;> by_cases hjt : j = m
    · rw [hit, hjt]
    · rw [if_pos hit, if_neg hjt] at he
      exact absurd he.symm (hother j (by omega))
    · rw [if_neg hit, if_pos hjt] at he
      exact absurd he (hother i (by omega))
    · rw [if_neg hit, if_neg hjt, hold i (by omega), hold j (by omega)] at he
      exact hinj i (by omega) j (by omega) (h.distinct _ (hlt i (by omega)) _ (hlt j (by omega)) he)
  · rw [if_neg (by omega)]
    exact hrest i hi

end stacked

/-- The driver runs just while there are tones. -/
structure Consistent (cfg : Config) (s : State α) : Prop where
  stacked : Stacked cfg s.activeTones s.tones
  stopped : s.driverStopped = true ↔ s.activeTones = 0
  silent : s.playingNote = false ↔ s.activeTones = 0

structure Sound (cfg : Config) (s : State α) : Prop extends Consistent cfg s where
  shift : s.indexShift < 128

structure SameTune (s s' : State α) : Prop where
  song : s'.song = s.song
  notesRepeat : s'.notesRepeat = s.notesRepeat
  currentNote : s'.currentNote = s.currentNote
  rate : s'.multiplexingRate = s.multiplexingRate

theorem SameTune.refl (s : State α) : SameTune s s := ⟨rfl,rfl,rfl,rfl⟩

theorem SameTune.trans {s t u : State α} (h : SameTune s t) (h' : SameTune t u) : SameTune s u where
  song := h'.song.trans h.song
  notesRepeat := h'.notesRepeat.trans h.notesRepeat
  currentNote := h'.currentNote.trans h.currentNote
  rate := h'.rate.trans h.rate

section operations
variable {cfg : Config} {s : State α} {pitch : α}

theorem init_sound : Sound cfg (init cfg : State α) where
  stacked := stacked_unused
  stopped := iff_of_true rfl rfl
  silent := iff_of_true rfl rfl
  shift := Nat.two_pow_pos 7

theorem audioStopAll_sound (h : Sound cfg s) : Sound cfg (audioStopAll s) := by
  unfold audioStopAll
  split_ifs
  · exact h
  · exact ⟨⟨stacked_unused,iff_of_true rfl rfl,iff_of_true rfl rfl⟩,h.shift⟩

theorem audioStopAll_sameTune : SameTune s (audioStopAll s) := by
  unfold audioStopAll
  split_ifs
  exacts [.refl s, ⟨rfl,rfl,rfl,rfl⟩]

theorem toneStopped_sound {tones : Nat → Tone α} (hstacked : Stacked cfg (s.activeTones-1) tones)
    (hpos : 0 < s.activeTones) (hlt : s.activeTones < 256) (hshift : s.indexShift < 128)
    (hplay : s.playingNote = true) (hstopped : s.driverStopped = false) :
    Sound cfg (toneStopped cfg { s with tones := tones })
      ∧ SameTune s (toneStopped cfg { s with tones := tones })
      ∧ (toneStopped cfg { s with tones := tones }).activeTones = s.activeTones-1 := by
  have hcount : (s.activeTones+255) % 256 = s.activeTones-1 := by omega
  simp only [toneStopped, hcount]
  by_cases hzero : s.activeTones-1 = 0
  · rw [if_pos hzero]
    split_ifs with hmux
    · exact ⟨⟨⟨hstacked,iff_of_true rfl hzero,iff_of_true rfl hzero⟩,Nat.two_pow_pos 7⟩,
        ⟨rfl,rfl,rfl,rfl⟩,rfl⟩
    · exact ⟨⟨⟨hstacked,iff_of_true rfl hzero,iff_of_true rfl hzero⟩,hshift⟩,⟨rfl,rfl,rfl,rfl⟩,rfl⟩
  · have hon : ¬ s.driverStopped = true := by simp [hstopped]
    have hloud : ¬ s.playingNote = false := by simp [hplay]
    rw [if_neg hzero]
    split_ifs with hmux
    · exact ⟨⟨⟨hstacked,iff_of_false hon hzero,iff_of_false hloud hzero⟩,Nat.two_pow_pos 7⟩,
        ⟨rfl,rfl,rfl,rfl⟩,rfl⟩
    · exact ⟨⟨⟨hstacked,iff_of_false hon hzero,iff_of_false hloud hzero⟩,hshift⟩,
        ⟨rfl,rfl,rfl,rfl⟩,rfl⟩

theorem audioGetFrequency_ok (p : Pitches α) {toneIndex : UInt8} (h : Sound cfg s) :
    ∃ pitch, audioGetFrequency cfg p toneIndex s = .ok pitch := by
  have hactive := h.stacked.le
  unfold audioGetFrequency
  split_ifs with hrest
  · exact ⟨_, rfl⟩
  · rw [toneAt, if_pos (by omega)]
    exact ⟨_, rfl⟩

variable [DecidableEq α]

theorem audioStopTone_ok (h : Sound cfg s) : ∃ s', audioStopTone cfg pitch s = .ok s'
    ∧ Sound cfg s' ∧ SameTune s s' ∧ s'.activeTones ≤ s.activeTones := by
  cases hplay : s.playingNote with
  | false => exact ⟨s, by simp [audioStopTone, hplay]; rfl, h, .refl s, Nat.le_refl _⟩
  | true =>
  obtain ⟨r, hr, hspec⟩ := findTone_ok s pitch (Nat.le_refl cfg.stackSize)
  cases r with
  | none => exact ⟨s, by simp [audioStopTone, hplay, hr]; rfl, h, .refl s, Nat.le_refl _⟩
  | some i =>
  have hN := cfg.stackSize_pos
  have hle := cfg.stackSize_le
  have hactive := h.stacked.le
  have hi : i < s.activeTones := by
    by_contra hge
    exact absurd ((h.stacked.unused i (Nat.le_of_not_lt hge)).symm.trans hspec.2) (by simp)
  have hlast : (cfg.stackSize : Int)-1 = ((cfg.stackSize-1 : Nat) : Int) := by omega
  have hstacked : Stacked cfg (s.activeTones-1) (fun k => if k = cfg.stackSize-1 then .unused
      else if i ≤ k ∧ k < i+(cfg.stackSize-1-i) then s.tones (k+1) else s.tones k) := by
    refine h.stacked.reindex (fun k => if k < i then k else k+1) (by omega) (fun k hk => ?_)
      (fun k hk => by split_ifs <;> omega)
      (fun j hj k hk he => by split_ifs at he <;> omega) (fun k hk => ?_)
    · rw [if_neg (by omega)]
      split_ifs <;> first | rfl | omega
    · split_ifs
      · rfl
      · exact h.stacked.unused _ (by omega)
      · exact h.stacked.unused _ (by omega)
  rw [audioStopTone, if_neg (by simp [hplay])]
  simp only [hr, ok_bind, shiftDown_ok (show i+(cfg.stackSize-1-i) < cfg.stackSize by omega), hlast,
    setTone_of_lt (show cfg.stackSize-1 < cfg.stackSize by omega)]
  obtain ⟨hsound, htune, hless⟩ := toneStopped_sound hstacked (by omega) (by omega) h.shift hplay
    (Bool.eq_false_iff.mpr (mt h.stopped.mp (by omega)))
  exact ⟨_, rfl, hsound, htune, hless ▸ Nat.sub_le _ _⟩

theorem audioPlayNote_ok (now duration : UInt16) (pitch : α) (h : Sound cfg s) :
    ∃ s', audioPlayNote cfg now pitch duration s = .ok s' ∧ Sound cfg s' ∧ SameTune s s' := by
  have hN := cfg.stackSize_pos
  have hle := cfg.stackSize_le
  have hactive := h.stacked.le
  obtain ⟨r, hr, hspec⟩ := findTone_ok s pitch hactive
  cases r with
  | some i =>
    have hi : i < s.activeTones := hspec.1
    have hp : (s.tones i).pitch = some pitch := hspec.2
    simp only [audioPlayNote, hr, ok_bind,
      bringUp_ok (show i+(s.activeTones-1-i) < cfg.stackSize by omega)]
    refine ⟨_, rfl, ⟨⟨?_,h.stopped,h.silent⟩,h.shift⟩, ⟨rfl,rfl,rfl,rfl⟩⟩
    -- the tone found goes to the top, those above it one down
    dsimp only
    refine h.stacked.reindex
      (fun k => if k < i then k else if k+1 < s.activeTones then k+1 else i) hactive
      (fun k hk => ?_) (fun k hk => by split_ifs <;> omega)
      (fun j hj k hk he => by split_ifs at he <;> omega) (fun k hk => ?_)
    · split_ifs <;> first | rfl | omega | exact hp.symm | (congr 2; omega)
    · split_ifs <;> first | omega | exact h.stacked.unused k hk
  | none =>
    have hcount : (s.activeTones+1) % 256 = s.activeTones+1 := by omega
    simp only [audioPlayNote, hr, ok_bind, hcount]
    by_cases hfull : cfg.stackSize < s.activeTones+1
    · -- the oldest tone makes room
      have htop : (cfg.stackSize : Int)-1 = ((cfg.stackSize-1 : Nat) : Int) := by omega
      rw [if_pos hfull, shiftDown_ok (by omega)]
      simp only [ok_bind]
      rw [htop, setTone_of_lt (by omega), ok_bind]
      have hpush : Stacked cfg (cfg.stackSize-1+1) (fun k => if k = cfg.stackSize-1 then
          ⟨some pitch,now,duration⟩
          else if 0 ≤ k ∧ k < 0+(cfg.stackSize-1) then s.tones (k+1) else s.tones k) :=
        h.stacked.push Nat.succ rfl hspec (by omega)
          (fun k hk => if_pos ⟨Nat.zero_le k,by omega⟩) (fun k hk => by omega)
          (fun i _ j _ he => Nat.succ.inj he)
          (fun k hk => by rw [if_neg (by omega)]; exact h.stacked.unused k (by omega))
      rw [Nat.sub_add_cancel hN] at hpush
      exact ⟨_, rfl, ⟨⟨hpush,iff_of_false Bool.false_ne_true (Nat.ne_of_gt hN),
        iff_of_false Bool.true_eq_false.mp (Nat.ne_of_gt hN)⟩,h.shift⟩, ⟨rfl,rfl,rfl,rfl⟩⟩
    · have htop : ((s.activeTones+1 : Nat) : Int)-1 = (s.activeTones : Int) := by omega
      rw [if_neg hfull]
      simp only [pure, Except.pure, ok_bind]
      rw [htop, setTone_of_lt (by omega), ok_bind]
      have hpush : Stacked cfg (s.activeTones+1) (fun k => if k = s.activeTones then
          ⟨some pitch,now,duration⟩ else s.tones k) :=
        h.stacked.push id rfl hspec (by omega) (fun k _ => rfl) (fun k hk => hk)
          (fun i _ j _ he => he) (fun k hk => h.stacked.unused k (Nat.le_of_lt hk))
      exact ⟨_, rfl, ⟨⟨hpush,iff_of_false Bool.false_ne_true (Nat.succ_ne_zero _),
        iff_of_false Bool.true_eq_false.mp (Nat.succ_ne_zero _)⟩,h.shift⟩, ⟨rfl,rfl,rfl,rfl⟩⟩

theorem audioGetProcessedFrequency_ok (p : Pitches α) {envelope : α → α} {toneIndex : UInt8}
    (h : Sound cfg s) (hin : cfg.multiplexing.isSome → toneIndex.toNat < s.activeTones →
      s.indexShift+toneIndex.toNat+1 ≤ 2*s.activeTones) :
    ∃ pitch, audioGetProcessedFrequency cfg p envelope toneIndex s = .ok pitch := by
  have hle := cfg.stackSize_le
  have hactive := h.stacked.le
  have hshift := h.shift
  have hread : ∀ i : Int, 0 ≤ i → i < s.activeTones →
      ∃ pitch, (toneAt cfg s i >>= fun t => match t.pitch with
        | none => pure p.rest
        | some pitch => pure (if pitch = p.rest then p.rest else envelope pitch))
          = Except.ok pitch := by
    intro i hi hlt
    rw [toneAt, if_pos ⟨hi,by omega⟩, ok_bind]
    cases (s.tones i.toNat).pitch <;> exact ⟨_, rfl⟩
  unfold audioGetProcessedFrequency
  by_cases hrest : s.activeTones ≤ toneIndex.toNat
  · exact ⟨p.rest, if_pos hrest⟩
  rw [if_neg hrest, Int.bmod_eq_of_le (by omega) (by omega)]
  dsimp only
  by_cases hmux : cfg.multiplexing.isSome = true
  · have hfar := hin hmux (by omega)
    rw [if_pos hmux, Int.bmod_eq_of_le (by omega) (by omega)]
    split_ifs with hneg
    · rw [Int.bmod_eq_of_le (by omega) (by omega)]
      exact hread _ (by omega) (by omega)
    · exact hread _ (by omega) (by omega)
  · rw [if_neg hmux]
    exact hread _ (by omega) (by omega)

end operations

end QmkFirmware.Audio
