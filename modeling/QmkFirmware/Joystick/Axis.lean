import QmkFirmware.Lib.Scale
import Mathlib.Tactic.IntervalCases

/-!
`joystick.c`: an axis is read from an ADC and scaled to the range of the report. The samples come
in as a function of the axis.
-/

set_option autoImplicit false

namespace QmkFirmware.Joystick

/-- `JOYSTICK_AXIS_RESOLUTION`. -/
structure Resolution where
  bits : Nat
  ge : 8 ≤ bits
  le : bits ≤ 16

/-- `JOYSTICK_MAX_VALUE`. -/
def maxValue (r : Resolution) : Int := (1 <<< (r.bits-1) : Nat)-1

structure JoystickConfig where
  minDigit : UInt16
  midDigit : UInt16
  maxDigit : UInt16
  deriving DecidableEq, Repr

/-- The sample is stored as an `int16_t`, and the scaling is done in `int32_t`. -/
def joystickReadAxis (r : Resolution) (joystickAxes : List JoystickConfig)
    (joystickAxisSample : Nat → UInt16) (axis : Nat) : Option Int16 :=
  match joystickAxes[axis]? with
  | none => some 0
  | some c => do
    let axisVal := (joystickAxisSample axis).toInt16.toInt
    let ref : Int := c.midDigit.toNat
    let range : Int := c.minDigit.toNat
    let rangedVal ← int32.div (← int32.mul (← int32.sub axisVal ref) (-maxValue r))
      (← int32.sub range ref)
    let rangedVal ← (if 0 < rangedVal then do
        -- the value is in the higher range
        let range : Int := c.maxDigit.toNat
        int32.div (← int32.mul (← int32.sub axisVal ref) (maxValue r)) (← int32.sub range ref)
      else some rangedVal)
    let rangedVal := if rangedVal < -maxValue r then -maxValue r else rangedVal
    let rangedVal := if maxValue r < rangedVal then maxValue r else rangedVal
    some (Int16.ofInt rangedVal)

theorem maxValue_bounds (r : Resolution) : 127 ≤ maxValue r ∧ maxValue r ≤ 32767 := by
  obtain ⟨n,hge,hle⟩ := r
  dsimp only [maxValue]
  interval_cases n <;> decide

section Ranged
variable {m a b y y' : Int}

/-- The lower range is `a` wide and the higher one `b`. -/
def ranged (m a b y : Int) : Int :=
  if 0 < Int.tdiv (y*m) a then Int.tdiv (y*m) b else Int.tdiv (y*m) a

theorem ranged_higher (ha : 0 < a) (h : a ≤ y*m) : ranged m a b y = Int.tdiv (y*m) b :=
  if_pos ((tdiv_pos_iff ha).mpr h)

theorem ranged_lower (ha : 0 < a) (h : y*m < a) : ranged m a b y = Int.tdiv (y*m) a :=
  if_neg (mt (tdiv_pos_iff ha).mp (Int.not_le.mpr h))

theorem ranged_zero : ranged m a b 0 = 0 := by
  rw [ranged, Int.zero_mul, Int.zero_tdiv, if_neg (Int.lt_irrefl 0)]

theorem ranged_mono (hm : 0 < m) (ha : 0 < a) (hb : 0 < b) (h : y ≤ y') :
    ranged m a b y ≤ ranged m a b y' := by
  have hle : y*m ≤ y'*m := Int.mul_le_mul_of_nonneg_right h (Int.le_of_lt hm)
  by_cases hy : a ≤ y*m
  · rw [ranged_higher ha hy, ranged_higher ha (Int.le_trans hy hle)]
    exact tdiv_mono hb hle
  · have hlow : Int.tdiv (y*m) a ≤ 0 := by
      have hpos := mt (tdiv_pos_iff ha).mp hy
      omega
    rw [ranged_lower ha (Int.not_le.mp hy)]
    by_cases hy' : a ≤ y'*m
    · have hnn := Int.tdiv_nonneg (Int.le_trans (Int.le_of_lt ha) hy') (Int.le_of_lt hb)
      rw [ranged_higher ha hy']
      exact Int.le_trans hlow hnn
    · rw [ranged_lower ha (Int.not_le.mp hy')]
      exact tdiv_mono ha hle

theorem ranged_low (hm : 0 < m) (ha : 0 < a) (h : y ≤ -a) : ranged m a b y ≤ -m := by
  have hle : y*m ≤ -m*a := by
    have hr := Int.mul_le_mul_of_nonneg_right h (Int.le_of_lt hm)
    rwa [Int.neg_mul, Int.mul_comm a, ← Int.neg_mul] at hr
  have hneg : -m*a < 0 := by
    rw [Int.neg_mul]
    exact Int.neg_neg_of_pos (Int.mul_pos hm ha)
  rw [ranged_lower ha (by omega)]
  exact tdiv_le ha hle

/-- At the end of the higher range the full value comes out as soon as the lower range, too, makes
something of the distance. -/
theorem ranged_high (ha : 0 < a) (hb : 0 < b) (hm : 0 < m) (h : b ≤ y) :
    m ≤ ranged m a b y ↔ a ≤ y*m := by
  constructor
  · intro hle
    by_contra hlt
    rw [ranged_lower ha (Int.not_le.mp hlt)] at hle
    exact hlt ((tdiv_pos_iff ha).mp (Int.lt_of_lt_of_le hm hle))
  · intro hle
    rw [ranged_higher ha hle, Int.mul_comm]
    exact le_tdiv hb (Int.mul_le_mul_of_nonneg_left h (Int.le_of_lt hm))

end Ranged

namespace JoystickConfig
variable (c : JoystickConfig)

/-- The three values are in order. -/
def Ordered : Prop :=
  c.minDigit < c.midDigit ∧ c.midDigit < c.maxDigit ∨
    c.maxDigit < c.midDigit ∧ c.midDigit < c.minDigit

def UpTo (s s' : UInt16) : Prop := if c.minDigit < c.midDigit then s ≤ s' else s' ≤ s

/-- The distance from the centre, positive on the side of the maximum. -/
def offset (s : UInt16) : Int :=
  if c.minDigit < c.midDigit then (s.toNat : Int)-c.midDigit.toNat
  else (c.midDigit.toNat : Int)-s.toNat

def lowerRange : Int := -c.offset c.minDigit

def higherRange : Int := c.offset c.maxDigit

variable {c}

theorem UpTo.offset_le {s s' : UInt16} (h : c.UpTo s s') : c.offset s ≤ c.offset s' := by
  unfold UpTo at h
  unfold offset
  split_ifs at h ⊢
  · have := UInt16.le_iff_toNat_le.mp h
    omega
  · have := UInt16.le_iff_toNat_le.mp h
    omega

theorem offset_mid : c.offset c.midDigit = 0 := by
  unfold offset
  split_ifs <;> omega

theorem Ordered.ranges_pos (hc : c.Ordered) : 0 < c.lowerRange ∧ 0 < c.higherRange := by
  unfold lowerRange higherRange offset
  simp only [Ordered, UInt16.lt_iff_toNat_lt] at hc ⊢
  split_ifs <;> omega

end JoystickConfig

def axisRanged (r : Resolution) (c : JoystickConfig) (s : UInt16) : Int :=
  ranged (maxValue r) c.lowerRange c.higherRange (c.offset s)

def axisValue (r : Resolution) (c : JoystickConfig) (s : UInt16) : Int :=
  clamp (-maxValue r) (maxValue r) (axisRanged r c s)

section Value
variable {r : Resolution} {c : JoystickConfig}

theorem quotients (c : JoystickConfig) (s : UInt16) (m : Int) :
    Int.tdiv (((s.toNat : Int)-c.midDigit.toNat)*-m) ((c.minDigit.toNat : Int)-c.midDigit.toNat) =
        Int.tdiv (c.offset s*m) c.lowerRange ∧
      Int.tdiv (((s.toNat : Int)-c.midDigit.toNat)*m)
        ((c.maxDigit.toNat : Int)-c.midDigit.toNat) =
        Int.tdiv (c.offset s*m) c.higherRange := by
  unfold JoystickConfig.lowerRange JoystickConfig.higherRange JoystickConfig.offset
  split_ifs with h
  · constructor
    · rw [Int.mul_neg, Int.neg_tdiv, Int.tdiv_neg]
    · rfl
  · constructor
    · rw [Int.neg_sub, Int.mul_neg, ← Int.neg_mul, Int.neg_sub]
    · rw [← Int.neg_sub (s.toNat : Int), ← Int.neg_sub (c.maxDigit.toNat : Int), Int.neg_mul,
        Int.neg_tdiv_neg]

theorem sample_toInt {s : UInt16} (hs : s ≤ 32767) : s.toInt16.toInt = s.toNat := by
  have hle : s.toNat ≤ 32767 := UInt16.le_iff_toNat_le.mp hs
  exact BitVec.toInt_eq_toNat_of_lt (by show 2*s.toNat < 65536; omega)

theorem scaled_bounds {x m : Int} (hlo : -65535 ≤ x) (hhi : x ≤ 65535) (hm : 0 < m)
    (hm' : m ≤ 32767) : -2147385345 ≤ x*m ∧ x*m ≤ 2147385345 := by
  have hl := Int.mul_le_mul_of_nonneg_right hlo (Int.le_of_lt hm)
  have hh := Int.mul_le_mul_of_nonneg_right hhi (Int.le_of_lt hm)
  omega

theorem joystickReadAxis_eq (hc : c.Ordered) {joystickAxes : List JoystickConfig} {axis : Nat}
    (h : joystickAxes[axis]? = some c) {joystickAxisSample : Nat → UInt16}
    (hs : joystickAxisSample axis ≤ 32767) :
    joystickReadAxis r joystickAxes joystickAxisSample axis =
      some (Int16.ofInt (axisValue r c (joystickAxisSample axis))) := by
  generalize hsample : joystickAxisSample axis = s at hs
  have hle : s.toNat ≤ 32767 := UInt16.le_iff_toNat_le.mp hs
  have hmin := c.minDigit.toNat_lt
  have hmid := c.midDigit.toNat_lt
  have hmax := c.maxDigit.toNat_lt
  obtain ⟨hm,hm'⟩ := maxValue_bounds r
  have hne : (c.minDigit.toNat : Int)-c.midDigit.toNat ≠ 0 ∧
      (c.maxDigit.toNat : Int)-c.midDigit.toNat ≠ 0 := by
    simp only [JoystickConfig.Ordered, UInt16.lt_iff_toNat_lt] at hc
    omega
  have hb : -2147385345 ≤ ((s.toNat : Int)-c.midDigit.toNat)*maxValue r ∧
      ((s.toNat : Int)-c.midDigit.toNat)*maxValue r ≤ 2147385345 :=
    scaled_bounds (by omega) (by omega) (by omega) hm'
  obtain ⟨hlow,hhigh⟩ := quotients c s (maxValue r)
  unfold joystickReadAxis
  rw [h]
  simp only [Option.bind_eq_bind, hsample, sample_toInt hs]
  rw [int32.sub, int32_some (by omega) (by omega), Option.bind_some, int32.mul,
    int32_some (by rw [Int.mul_neg]; omega) (by rw [Int.mul_neg]; omega), Option.bind_some,
    int32.sub, int32_some (by omega) (by omega), Option.bind_some,
    int32.div_some hne.1 (by rw [Int.mul_neg]; omega) (by rw [Int.mul_neg]; omega),
    Option.bind_some, hlow]
  have hcase : (if 0 < Int.tdiv (c.offset s*maxValue r) c.lowerRange then
      (int32.mul ((s.toNat : Int)-c.midDigit.toNat) (maxValue r)).bind fun x =>
        (int32.sub c.maxDigit.toNat c.midDigit.toNat).bind fun y => int32.div x y
      else some (Int.tdiv (c.offset s*maxValue r) c.lowerRange)) = some (axisRanged r c s) := by
    rw [int32.mul, int32_some (by omega) (by omega), Option.bind_some, int32.sub,
      int32_some (by omega) (by omega), Option.bind_some,
      int32.div_some hne.2 (by omega) (by omega), hhigh]
    unfold axisRanged ranged
    split_ifs <;> rfl
  rw [Option.bind_some, hcase]
  rfl

/-- Readings that are computed without an overflow and form a clamped monotone map from the
minimum over the centre to the maximum. -/
structure Calibrated (r : Resolution) (c : JoystickConfig) (read : UInt16 → Option Int16) :
    Prop where
  reads : ∀ s ≤ 32767, ∃ v, read s = some v
  within : ∀ s ≤ 32767, ∀ v ∈ read s, -maxValue r ≤ v.toInt ∧ v.toInt ≤ maxValue r
  mono : ∀ s ≤ 32767, ∀ s' ≤ 32767, c.UpTo s s' → ∀ v ∈ read s, ∀ v' ∈ read s',
    v.toInt ≤ v'.toInt
  center : c.midDigit ≤ 32767 → ∀ v ∈ read c.midDigit, v.toInt = 0
  low : ∀ s ≤ 32767, c.UpTo s c.minDigit → ∀ v ∈ read s, v.toInt = -maxValue r
  high : ∀ s ≤ 32767, c.UpTo c.maxDigit s → ∀ v ∈ read s, v.toInt = maxValue r

/-- The lower range is not wider than the higher one times the full value. The higher range counts
as far as there are samples. -/
def Reaches (r : Resolution) (c : JoystickConfig) : Prop :=
  if c.minDigit < c.midDigit then
    c.maxDigit ≤ 32767 →
      (c.midDigit.toNat : Int)-c.minDigit.toNat ≤
        ((c.maxDigit.toNat : Int)-c.midDigit.toNat)*maxValue r
  else
    (c.minDigit.toNat : Int)-c.midDigit.toNat ≤
      ((c.midDigit.toNat : Int)-(min c.maxDigit.toNat 32767 : Nat))*maxValue r

theorem axisValue_within (r : Resolution) (c : JoystickConfig) (s : UInt16) :
    -maxValue r ≤ axisValue r c s ∧ axisValue r c s ≤ maxValue r := by
  have hm := maxValue_bounds r
  exact ⟨le_clamp (by omega) _,clamp_le _ _ _⟩

theorem axisValue_toInt (r : Resolution) (c : JoystickConfig) (s : UInt16) :
    (Int16.ofInt (axisValue r c s)).toInt = axisValue r c s := by
  have hm := maxValue_bounds r
  have hw := axisValue_within r c s
  exact Int16.toInt_ofInt_of_le (by show -32768 ≤ _; omega) (by show _ < 32768; omega)

theorem axisValue_mono (hc : c.Ordered) {s s' : UInt16} (h : c.UpTo s s') :
    axisValue r c s ≤ axisValue r c s' := by
  have hm := maxValue_bounds r
  obtain ⟨ha,hb⟩ := hc.ranges_pos
  exact clamp_mono _ _ (ranged_mono (by omega) ha hb h.offset_le)

theorem axisValue_mid : axisValue r c c.midDigit = 0 := by
  have hm := maxValue_bounds r
  rw [axisValue, axisRanged, JoystickConfig.offset_mid, ranged_zero]
  exact clamp_eq_self (by omega) (by omega)

theorem axisValue_low (hc : c.Ordered) {s : UInt16} (h : c.UpTo s c.minDigit) :
    axisValue r c s = -maxValue r := by
  have hm := maxValue_bounds r
  have hle := h.offset_le
  exact clamp_eq_lo (by omega)
    (ranged_low (by omega) hc.ranges_pos.1 (by rwa [JoystickConfig.lowerRange, Int.neg_neg]))

theorem axisValue_high (hc : c.Ordered) {s : UInt16} (h : c.UpTo c.maxDigit s) :
    axisValue r c s = maxValue r ↔ c.lowerRange ≤ c.offset s*maxValue r := by
  have hm := maxValue_bounds r
  obtain ⟨ha,hb⟩ := hc.ranges_pos
  rw [← @ranged_high (maxValue r) _ _ _ ha hb (by omega) h.offset_le]
  constructor
  · intro he
    by_contra hlt
    have hclamp : axisValue r c s < maxValue r := by
      unfold axisValue axisRanged clamp
      dsimp only
      split_ifs <;> omega
    omega
  · exact clamp_eq_hi

theorem reaches_iff (r : Resolution) (c : JoystickConfig) : Reaches r c ↔
    ∀ s ≤ 32767, c.UpTo c.maxDigit s → c.lowerRange ≤ c.offset s*maxValue r := by
  have hm := maxValue_bounds r
  unfold Reaches JoystickConfig.lowerRange JoystickConfig.UpTo JoystickConfig.offset
  simp only [UInt16.lt_iff_toNat_lt, UInt16.le_iff_toNat_le]
  split_ifs with h
  · constructor
    · intro hle s hs hup
      have hscale := Int.mul_le_mul_of_nonneg_right
        (show (c.maxDigit.toNat : Int)-c.midDigit.toNat ≤ s.toNat-c.midDigit.toNat by omega)
        (show 0 ≤ maxValue r by omega)
      have := hle (Nat.le_trans hup hs)
      omega
    · intro hall hmax
      have := hall c.maxDigit hmax (Nat.le_refl _)
      omega
  · constructor
    · intro hle s hs hup
      have hs' : s.toNat ≤ 32767 := hs
      have hscale := Int.mul_le_mul_of_nonneg_right
        (show (c.midDigit.toNat : Int)-(min c.maxDigit.toNat 32767 : Nat) ≤
          c.midDigit.toNat-s.toNat by omega)
        (show 0 ≤ maxValue r by omega)
      omega
    · intro hall
      have hmin : (UInt16.ofNat (min c.maxDigit.toNat 32767)).toNat = min c.maxDigit.toNat 32767 :=
        UInt16.toNat_ofNat_of_lt' (by show _ < 65536; omega)
      have := hall (UInt16.ofNat (min c.maxDigit.toNat 32767))
        (by rw [hmin]; exact Nat.min_le_right _ _) (by rw [hmin]; exact Nat.min_le_left _ _)
      rw [hmin] at this
      omega

end Value

/-- An axis is calibrated exactly when its lower range is not too wide. The side of the centre is
told by the sign of a quotient by the lower range, and a distance that is too small for it counts
as the centre. -/
theorem joystick_axis_calibrated_iff (r : Resolution) (joystickAxes : List JoystickConfig)
    (axis : Nat) (c : JoystickConfig) (h : joystickAxes[axis]? = some c) (hc : c.Ordered) :
    Calibrated r c (fun s => joystickReadAxis r joystickAxes (fun _ => s) axis) ↔
      Reaches r c := by
  have hread : ∀ s ≤ 32767, joystickReadAxis r joystickAxes (fun _ => s) axis =
      some (Int16.ofInt (axisValue r c s)) := fun s hs => joystickReadAxis_eq hc h hs
  have hval : ∀ s ≤ 32767, ∀ v ∈ joystickReadAxis r joystickAxes (fun _ => s) axis,
      v.toInt = axisValue r c s := by
    intro s hs v hv
    rw [hread s hs, Option.mem_some_iff] at hv
    rw [← hv, axisValue_toInt]
  rw [reaches_iff r c]
  constructor
  · intro hcal s hs hup
    have hv := hcal.high s hs hup _ (hread s hs)
    rwa [axisValue_toInt, axisValue_high hc hup] at hv
  · intro hreach
    exact {
      reads := fun s hs => ⟨_,hread s hs⟩
      within := fun s hs v hv => by
        rw [hval s hs v hv]
        exact axisValue_within r c s
      mono := fun s hs s' hs' hup v hv v' hv' => by
        rw [hval s hs v hv, hval s' hs' v' hv']
        exact axisValue_mono hc hup
      center := fun hmid v hv => by
        rw [hval _ hmid v hv]
        exact axisValue_mid
      low := fun s hs hup v hv => by
        rw [hval s hs v hv]
        exact axisValue_low hc hup
      high := fun s hs hup v hv => by
        rw [hval s hs v hv]
        exact (axisValue_high hc hup).mpr (hreach s hs hup) }

theorem joystick_axis_calibrated_iff_inverted :
    Calibrated ⟨10,by decide,by decide⟩ ⟨900,520,100⟩
        (fun s => joystickReadAxis ⟨10,by decide,by decide⟩ [⟨900,520,100⟩] (fun _ => s) 0) ↔
      Reaches ⟨10,by decide,by decide⟩ ⟨900,520,100⟩ :=
  joystick_axis_calibrated_iff ⟨10,by decide,by decide⟩ [⟨900,520,100⟩] 0 ⟨900,520,100⟩ rfl
    (Or.inr ⟨by decide,by decide⟩)

/-- An axis that rests close to its maximum does not leave the centre. -/
theorem joystick_axis_stuck :
    joystickReadAxis ⟨8,by decide,by decide⟩ [⟨0,1015,1020⟩] (fun _ => 1020) 0 = some 0 ∧
      ¬Calibrated ⟨8,by decide,by decide⟩ ⟨0,1015,1020⟩
        (fun s => joystickReadAxis ⟨8,by decide,by decide⟩ [⟨0,1015,1020⟩] (fun _ => s) 0) := by
  have hread : joystickReadAxis ⟨8,by decide,by decide⟩ [⟨0,1015,1020⟩] (fun _ => 1020) 0 =
      some 0 := by decide
  refine ⟨hread,fun hcal => ?_⟩
  have hv := hcal.high 1020 (by decide) (by unfold JoystickConfig.UpTo; decide) 0 hread
  exact absurd hv (by decide)

end QmkFirmware.Joystick
