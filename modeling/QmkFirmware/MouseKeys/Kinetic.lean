import Mathlib.Algebra.GroupWithZero.Nat
import Mathlib.Data.Nat.Basic
import Mathlib.Tactic.Ring

/-!
`mousekey.c` with `MK_KINETIC_SPEED` and the default constants: the speed grows with the square of
the time since the movement started.
-/

set_option autoImplicit false

namespace QmkFirmware.MouseKeys.Kinetic

def moveMax : Nat := 127
def moveDelta : Nat := 16
def initialSpeed : Nat := 100
def baseSpeed : Nat := 5000
def deceleratedSpeed : Nat := 400
def acceleratedSpeed : Nat := 3000
def wheelInitialMovements : Nat := 16
def wheelBaseMovements : Nat := 32
def wheelAcceleratedMovements : Nat := 48
def wheelDeceleratedMovements : Nat := 8

structure State where
  accel : UInt8
  moveRepeat : UInt8
  wheelRepeat : UInt8
  mouseTimer : UInt16
  interval : UInt8
  wheelInterval : UInt16
  deriving DecidableEq, Repr

/-- `timer_elapsed(mouse_timer) / 50`. -/
def ticks (s : State) (now : UInt16) : Nat := (now-s.mouseTimer).toNat/50

/-- The speed in `move_unit` before it is converted to a step, stored in 16 bits. -/
def moveSpeed (s : State) (now : UInt16) : Nat :=
  if s.accel &&& 1 ≠ 0 then deceleratedSpeed
  else if s.accel &&& 4 ≠ 0 then acceleratedSpeed
  else if s.moveRepeat ≠ 0 ∧ s.mouseTimer ≠ 0 then
    let time := ticks s now
    let speed := (initialSpeed+moveDelta*time+moveDelta*time*time/2) % 2^16
    if baseSpeed < speed then baseSpeed else speed
  else initialSpeed

def divide (x y : Nat) : Option Nat := if y = 0 then none else some (x/y)

def moveUnit (s : State) (now : UInt16) : Option Nat := do
  let parts ← divide 1000 s.interval.toNat
  let speed ← divide (moveSpeed s now) parts
  let speed := speed % 2^8
  return if moveMax < speed then moveMax else if speed < 1 then 1 else speed

/-- The speed in `wheel_unit`. -/
def wheelSpeed (s : State) (now : UInt16) : Nat :=
  if s.accel &&& 1 ≠ 0 then wheelDeceleratedMovements
  else if s.accel &&& 4 ≠ 0 then wheelAcceleratedMovements
  else if s.wheelRepeat ≠ 0 ∧ s.mouseTimer ≠ 0 then
    let speed := if s.wheelInterval.toNat ≠ wheelBaseMovements then
        let time := ticks s now
        (wheelInitialMovements+1*time+1*time*time/2) % 2^16
      else wheelInitialMovements
    if wheelBaseMovements < speed then wheelBaseMovements else speed
  else wheelInitialMovements

def wheelUnit (s : State) (now : UInt16) : Option (Nat × State) := do
  let interval ← divide 1000 (wheelSpeed s now)
  return (1,{ s with wheelInterval := UInt16.ofNat interval })

/-- `mousekey_on` for a key that moves the cursor or the wheel. -/
def startTimer (now : UInt16) (s : State) : State :=
  if s.mouseTimer = 0 then { s with mouseTimer := now } else s

/-- `initial + delta*(t/50) + delta*(t/50)^2/2`, before the limits. -/
def travelled (t : Nat) : Nat := initialSpeed+moveDelta*(t/50)+moveDelta*(t/50)*(t/50)/2

def idealSpeed (t : Nat) : Nat := min baseSpeed (travelled t)

def scrolled (t : Nat) : Nat := wheelInitialMovements+1*(t/50)+1*(t/50)*(t/50)/2

def idealWheelSpeed (t : Nat) : Nat := min wheelBaseMovements (scrolled t)

def clampStep (n : Nat) : Nat := max 1 (min moveMax n)

/-- What the two functions do at a time `t` after the timer was started. -/
structure Right (s : State) (start : UInt16) (t : Nat) : Prop where
  speed : moveSpeed (startTimer start s) (start+UInt16.ofNat t) = idealSpeed t
  rises : ∀ t' ≤ t, moveSpeed (startTimer start s) (start+UInt16.ofNat t')
    ≤ moveSpeed (startTimer start s) (start+UInt16.ofNat t)
  step : moveUnit (startTimer start s) (start+UInt16.ofNat t)
    = some (clampStep (idealSpeed t/(1000/s.interval.toNat)))
  wheel : ∃ s', wheelUnit (startTimer start s) (start+UInt16.ofNat t) = some (1,s')
    ∧ s'.wheelInterval.toNat = 1000/idealWheelSpeed t

/-- The timer was not started at a reading of zero, no value is cut to 16 or 8 bits unless what is
left of it is still over the limit, and the wheel interval is not the number of movements. -/
structure Clear (s : State) (start : UInt16) (t : Nat) : Prop where
  started : start ≠ 0 ∨ t/50 = 0
  speed : travelled t < 2^16 ∨ baseSpeed ≤ travelled t % 2^16
  step : idealSpeed t/(1000/s.interval.toNat) < 2^8
    ∨ moveMax ≤ idealSpeed t/(1000/s.interval.toNat) % 2^8
  interval : s.wheelInterval.toNat ≠ wheelBaseMovements ∨ t/50 = 0
  wheel : scrolled t < 2^16 ∨ wheelBaseMovements ≤ scrolled t % 2^16

/-- The timer has not run, no acceleration key is held, and the movement repeats. -/
structure Repeating (s : State) : Prop where
  accel : s.accel = 0
  moves : s.moveRepeat ≠ 0
  scrolls : s.wheelRepeat ≠ 0
  timer : s.mouseTimer = 0
  interval : 1 ≤ s.interval.toNat

section
variable {s : State} {start : UInt16} {t t' : Nat}

theorem travelled_mono (h : t' ≤ t) : travelled t' ≤ travelled t := by
  have htime : t'/50 ≤ t/50 := Nat.div_le_div_right h
  have hsquare : moveDelta*(t'/50)*(t'/50) ≤ moveDelta*(t/50)*(t/50) :=
    Nat.mul_le_mul (Nat.mul_le_mul_left _ htime) htime
  exact Nat.add_le_add (Nat.add_le_add_left (Nat.mul_le_mul_left _ htime) _)
    (Nat.div_le_div_right hsquare)

theorem ticks_started (h : Repeating s) (ht : t < 2^16) :
    ticks (startTimer start s) (start+UInt16.ofNat t) = t/50 := by
  have htimer : (startTimer start s).mouseTimer = start := by rw [startTimer, if_pos h.timer]
  have hdiff : start+UInt16.ofNat t-start = UInt16.ofNat t := by
    rw [UInt16.add_comm, UInt16.add_sub_cancel]
  rw [ticks, htimer, hdiff, UInt16.toNat_ofNat', Nat.mod_eq_of_lt ht]

theorem timer_started (h : Repeating s) : (startTimer start s).mouseTimer = start := by
  rw [startTimer, if_pos h.timer]

theorem moveSpeed_eq (now : UInt16) (haccel : s.accel = 0) (hmoves : s.moveRepeat ≠ 0) :
    moveSpeed s now = if s.mouseTimer = 0 then initialSpeed else min baseSpeed
      ((initialSpeed+moveDelta*ticks s now+moveDelta*ticks s now*ticks s now/2) % 2^16) := by
  rw [moveSpeed, haccel, if_neg (by decide), if_neg (by decide)]
  by_cases htimer : s.mouseTimer = 0
  · rw [if_pos htimer, if_neg fun h => h.2 htimer]
  · rw [if_neg htimer, if_pos ⟨hmoves,htimer⟩]
    dsimp only
    split <;> omega

theorem wheelSpeed_eq (now : UInt16) (haccel : s.accel = 0) (hscrolls : s.wheelRepeat ≠ 0) :
    wheelSpeed s now = if s.mouseTimer = 0 ∨ s.wheelInterval.toNat = wheelBaseMovements
      then wheelInitialMovements else min wheelBaseMovements
        ((wheelInitialMovements+1*ticks s now+1*ticks s now*ticks s now/2) % 2^16) := by
  have hstopped : s.mouseTimer = 0 → ¬ (s.wheelRepeat ≠ 0 ∧ s.mouseTimer ≠ 0) := fun h h' => h'.2 h
  rw [wheelSpeed, haccel, if_neg (by decide), if_neg (by decide)]
  by_cases htimer : s.mouseTimer = 0
  · rw [if_neg (hstopped htimer), if_pos (Or.inl htimer)]
  · simp only [if_pos (And.intro hscrolls htimer), htimer, false_or]
    by_cases hinterval : s.wheelInterval.toNat = wheelBaseMovements
    · simp only [hinterval, ne_eq, not_true_eq_false, if_false, if_true]
      rfl
    · simp only [hinterval, ne_eq, not_false_eq_true, if_true, if_false]
      split <;> omega

theorem moveSpeed_started (h : Repeating s) (ht : t < 2^16) :
    moveSpeed (startTimer start s) (start+UInt16.ofNat t)
      = if start = 0 then initialSpeed else min baseSpeed (travelled t % 2^16) := by
  have hsame : (startTimer start s).accel = s.accel
      ∧ (startTimer start s).moveRepeat = s.moveRepeat := by
    rw [startTimer, if_pos h.timer]
    exact ⟨rfl,rfl⟩
  rw [moveSpeed_eq _ (hsame.1.trans h.accel) (hsame.2.symm ▸ h.moves), ticks_started h ht,
    timer_started h]
  rfl

theorem wheelSpeed_started (h : Repeating s) (ht : t < 2^16) :
    wheelSpeed (startTimer start s) (start+UInt16.ofNat t)
      = if start = 0 ∨ s.wheelInterval.toNat = wheelBaseMovements then wheelInitialMovements
        else min wheelBaseMovements (scrolled t % 2^16) := by
  have hsame : (startTimer start s).accel = s.accel
      ∧ (startTimer start s).wheelRepeat = s.wheelRepeat
      ∧ (startTimer start s).wheelInterval = s.wheelInterval := by
    rw [startTimer, if_pos h.timer]
    exact ⟨rfl,rfl,rfl⟩
  rw [wheelSpeed_eq _ (hsame.1.trans h.accel) (hsame.2.1.symm ▸ h.scrolls), ticks_started h ht,
    timer_started h, hsame.2.2]
  rfl

theorem min_mod_eq {b n m : Nat} (hm : 0 < m) : min b (n % m) = min b n ↔ n < m ∨ b ≤ n % m := by
  rcases Nat.lt_or_ge n m with hlt | hge
  · exact iff_of_true (by rw [Nat.mod_eq_of_lt hlt]) (.inl hlt)
  · have hmod := Nat.mod_le n m
    have hlt := Nat.mod_lt n hm
    omega

theorem travelled_initial (h : t/50 = 0) : travelled t = initialSpeed := by
  rw [travelled, h]
  rfl

theorem initial_lt (h : t/50 ≠ 0) : initialSpeed < travelled t := by
  have hpos : 0 < moveDelta*(t/50) := Nat.mul_pos (by decide) (Nat.pos_of_ne_zero h)
  rw [travelled]
  omega

theorem speed_iff (h : Repeating s) (ht : t < 2^16) :
    moveSpeed (startTimer start s) (start+UInt16.ofNat t) = idealSpeed t
      ↔ (start ≠ 0 ∨ t/50 = 0) ∧ (travelled t < 2^16 ∨ baseSpeed ≤ travelled t % 2^16) := by
  rw [moveSpeed_started h ht, idealSpeed]
  by_cases htime : t/50 = 0
  · refine iff_of_true ?_ ⟨.inr htime,.inl (by rw [travelled_initial htime]; decide)⟩
    rw [travelled_initial htime]
    split <;> rfl
  · by_cases hstart : start = 0
    · rw [if_pos hstart]
      refine iff_of_false ?_ fun hclear => (hclear.1.resolve_right htime) hstart
      exact (lt_min (by decide) (initial_lt htime)).ne
    · rw [if_neg hstart, min_mod_eq (by decide)]
      exact (and_iff_right (.inl hstart)).symm

theorem scrolled_initial (h : t/50 = 0) : scrolled t = wheelInitialMovements := by
  rw [scrolled, h]
  rfl

theorem wheel_initial_lt (h : t/50 ≠ 0) : wheelInitialMovements < scrolled t := by
  rw [scrolled]
  omega

theorem wheelSpeed_iff (h : Repeating s) (ht : t < 2^16) :
    wheelSpeed (startTimer start s) (start+UInt16.ofNat t) = idealWheelSpeed t
      ↔ (start ≠ 0 ∨ t/50 = 0) ∧ (s.wheelInterval.toNat ≠ wheelBaseMovements ∨ t/50 = 0)
        ∧ (scrolled t < 2^16 ∨ wheelBaseMovements ≤ scrolled t % 2^16) := by
  rw [wheelSpeed_started h ht, idealWheelSpeed]
  by_cases htime : t/50 = 0
  · refine iff_of_true ?_ ⟨.inr htime,.inr htime,.inl (by rw [scrolled_initial htime]; decide)⟩
    rw [scrolled_initial htime]
    split <;> rfl
  · by_cases hstart : start = 0 ∨ s.wheelInterval.toNat = wheelBaseMovements
    · rw [if_pos hstart]
      refine iff_of_false ?_ fun hclear => hstart.elim (hclear.1.resolve_right htime)
        (hclear.2.1.resolve_right htime)
      exact (lt_min (by decide) (wheel_initial_lt htime)).ne
    · rw [if_neg hstart, min_mod_eq (by decide)]
      rw [not_or] at hstart
      exact ((and_iff_right (.inl hstart.1)).trans (and_iff_right (.inl hstart.2))).symm

theorem wheel_interval_inj : ∀ n < wheelBaseMovements+1, ∀ m < wheelBaseMovements+1,
    n ≠ 0 → wheelInitialMovements ≤ m → 1000/n = 1000/m → n = m := by decide +kernel

theorem parts_pos (h : Repeating s) : 0 < 1000/s.interval.toNat :=
  Nat.div_pos ((UInt8.toNat_lt s.interval).le.trans (by decide)) h.interval

theorem moveUnit_started (h : Repeating s) (now : UInt16) :
    moveUnit (startTimer start s) now = some (clampStep
      (moveSpeed (startTimer start s) now/(1000/s.interval.toNat) % 2^8)) := by
  have hinterval : (startTimer start s).interval = s.interval := by rw [startTimer, if_pos h.timer]
  have hdivide : ∀ x y, 0 < y → divide x y = some (x/y) := fun x y hy => if_neg hy.ne'
  rw [moveUnit, hinterval, hdivide _ _ h.interval]
  simp only [Option.bind_eq_bind, Option.bind_some, hdivide _ _ (parts_pos h), Option.pure_def]
  refine congrArg some ?_
  rw [clampStep, moveMax]
  split_ifs <;> omega

theorem step_iff {n : Nat} : clampStep (n % 2^8) = clampStep n ↔ n < 2^8 ∨ moveMax ≤ n % 2^8 := by
  have hmod := Nat.mod_le n (2^8)
  have hlt := Nat.mod_lt n (show 0 < 2^8 by decide)
  rcases Nat.lt_or_ge n (2^8) with hn | hn
  · exact iff_of_true (by rw [Nat.mod_eq_of_lt hn]) (.inl hn)
  · rw [clampStep, clampStep, moveMax]
    omega

theorem wheelSpeed_le (h : Repeating s) (ht : t < 2^16) :
    wheelSpeed (startTimer start s) (start+UInt16.ofNat t) ≤ wheelBaseMovements := by
  rw [wheelSpeed_started h ht]
  split
  · decide
  · exact Nat.min_le_left ..

theorem idealWheelSpeed_bounds (t : Nat) :
    wheelInitialMovements ≤ idealWheelSpeed t ∧ idealWheelSpeed t ≤ wheelBaseMovements := by
  refine ⟨le_min (by decide) ?_,Nat.min_le_left ..⟩
  rw [scrolled]
  omega

theorem wheel_iff (h : Repeating s) (ht : t < 2^16) :
    (∃ s', wheelUnit (startTimer start s) (start+UInt16.ofNat t) = some (1,s')
        ∧ s'.wheelInterval.toNat = 1000/idealWheelSpeed t)
      ↔ wheelSpeed (startTimer start s) (start+UInt16.ofNat t) = idealWheelSpeed t := by
  have hle := @wheelSpeed_le s start t h ht
  obtain ⟨hinitial, hbase⟩ := idealWheelSpeed_bounds t
  rw [wheelUnit, divide]
  generalize wheelSpeed (startTimer start s) (start+UInt16.ofNat t) = speed at *
  have hfits : (UInt16.ofNat (1000/speed)).toNat = 1000/speed := by
    rw [UInt16.toNat_ofNat']
    exact Nat.mod_eq_of_lt ((Nat.div_le_self ..).trans_lt (by decide))
  by_cases hzero : speed = 0
  · rw [if_pos hzero]
    refine iff_of_false (by simp) fun heq => ?_
    rw [hzero] at heq
    rw [← heq] at hinitial
    exact absurd hinitial (by decide)
  · rw [if_neg hzero]
    constructor
    · rintro ⟨s', heq, hinterval⟩
      obtain rfl : { startTimer start s with wheelInterval := UInt16.ofNat (1000/speed) } = s' := by
        simpa using heq
      exact wheel_interval_inj speed (Nat.lt_succ_of_le hle) _ (Nat.lt_succ_of_le hbase) hzero
        hinitial (hfits.symm.trans hinterval)
    · intro heq
      exact ⟨_,rfl,hfits.trans (by rw [heq])⟩

theorem rises (h : Repeating s) (ht : t < 2^16)
    (hspeed : moveSpeed (startTimer start s) (start+UInt16.ofNat t) = idealSpeed t) :
    ∀ t' ≤ t, moveSpeed (startTimer start s) (start+UInt16.ofNat t')
      ≤ moveSpeed (startTimer start s) (start+UInt16.ofNat t) := by
  intro t' ht'
  have hlow : initialSpeed ≤ travelled t := by
    rw [travelled]
    omega
  have hmono := travelled_mono ht'
  have hmod := Nat.mod_le (travelled t') (2^16)
  rw [hspeed, moveSpeed_started h (ht'.trans_lt ht), idealSpeed]
  split
  · exact le_min (by decide) hlow
  · omega

end

/-- The speeds follow their formulas up to the times at which a value does not fit. -/
theorem kinetic_right_iff (s : State) (start : UInt16) (t : Nat) (h : Repeating s) (ht : t < 2^16) :
    Right s start t ↔ Clear s start t := by
  have hspeed := @speed_iff s start t h ht
  have hwheel := (@wheel_iff s start t h ht).trans (wheelSpeed_iff h ht)
  have hstep := @moveUnit_started s start h (start+UInt16.ofNat t)
  constructor
  · intro hright
    obtain ⟨hstarted, htravelled⟩ := hspeed.mp hright.speed
    obtain ⟨-, hinterval, hscrolled⟩ := hwheel.mp hright.wheel
    have hclamp := hright.step
    rw [hstep, hright.speed, Option.some.injEq, step_iff] at hclamp
    exact ⟨hstarted,htravelled,hclamp,hinterval,hscrolled⟩
  · intro hclear
    have hright := hspeed.mpr ⟨hclear.started,hclear.speed⟩
    refine ⟨hright,rises h ht hright,?_,hwheel.mpr ⟨hclear.started,hclear.interval,hclear.wheel⟩⟩
    rw [hstep, hright, step_iff.mpr hclear.step]

/-- The second repeat of a movement with the default intervals. -/
def defaults : State := ⟨0,2,2,0,10,62⟩

theorem defaults_repeating : Repeating defaults := by constructor <;> decide

theorem kinetic_right_second : Right defaults 1 1000 :=
  (kinetic_right_iff defaults 1 1000 defaults_repeating (by decide)).mpr (by constructor <;> decide)

/-- After four and a half seconds the speed falls back from 5000 to 804. -/
theorem speed_falls : ¬ ∀ (s : State) (start : UInt16) (t : Nat), Repeating s → t < 2^16 →
    Right s start t := by
  intro h
  exact absurd (h defaults 1 4500 defaults_repeating (by decide)).speed (by decide)

end QmkFirmware.MouseKeys.Kinetic
