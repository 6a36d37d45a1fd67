import Mathlib.Algebra.Order.Ring.Int
import Mathlib.Algebra.Order.Group.Unbundled.Int
import Mathlib.Tactic.Ring
import QmkFirmware.Lib.Along

/-!
`wpm.c`: the words per minute, and when they stay in range.
-/

set_option autoImplicit false

namespace QmkFirmware.Wpm

abbrev Keycode := BitVec 16

/-- The build. The hook of `wpm_keycode` can be replaced. -/
structure Config where
  samplePeriods : Nat
  sampleSeconds : Nat
  estimatedWordSize : Nat
  launchControl : Bool
  unfiltered : Bool
  allowCountRegression : Bool
  wpmKeycode : Keycode → Bool
  periods_ge : 2 ≤ samplePeriods
  duration_pos : samplePeriods ≤ 1000*sampleSeconds
  word_pos : 1 ≤ estimatedWordSize

/-- `periodPresses` are `int16_t`, the counters and speeds `uint8_t`. -/
structure State where
  currentWpm : Nat
  wpmTimer : UInt32
  periodPresses : List Int
  currentPeriod : Nat
  periods : Nat
  smoothingTimer : UInt32
  prevWpm : Nat
  nextWpm : Nat

variable (cfg : Config)

def periodDuration : Nat := 1000*cfg.sampleSeconds/cfg.samplePeriods

def latencyMax : Nat := 100

def init : State := ⟨0,0,List.replicate cfg.samplePeriods 0,0,1,0,0,0⟩

def int32 (n : Int) : Int := n.bmod (2^32)

def inRange (first last keycode : Keycode) : Bool := first ≤ keycode && keycode ≤ last

/-- The basic keycode of `QK_MOD_TAP`, `QK_LAYER_TAP` and `QK_MODS`. -/
def basicKeycode (keycode : Keycode) : Keycode :=
  if inRange 0x2000 0x3FFF keycode || inRange 0x4000 0x4FFF keycode || inRange 0x0100 0x1FFF keycode
    then keycode &&& 0xFF
  else if 0xFF < keycode then 0
  else keycode

/-- From `KC_A` to `KC_0`, and from `KC_TAB` to `KC_SLASH`. -/
def wpmKeycodeUser (keycode : Keycode) : Bool :=
  inRange 0x04 0x27 (basicKeycode keycode) || inRange 0x2B 0x38 (basicKeycode keycode)

/-- `ctrl` says whether a control modifier or one-shot is on. -/
def wpmRegressCount (keycode : Keycode) (ctrl : Bool) : Nat :=
  let weakModded := (0x0100 ≤ keycode && keycode < 0x0200) || (0x1100 ≤ keycode && keycode < 0x1200)
  if basicKeycode keycode = 0x4C ∨ basicKeycode keycode = 0x2A then
    if ctrl || weakModded then cfg.estimatedWordSize % 2^8 else 1
  else 0

def setPresses (i : Nat) (presses : Int) (s : State) : Option State :=
  if i < s.periodPresses.length then
    some { s with periodPresses := s.periodPresses.set i presses }
  else none

def updateWpm (keycode : Keycode) (ctrl : Bool) (s : State) : Option State := do
  let presses ← s.periodPresses[s.currentPeriod]?
  let presses := if cfg.wpmKeycode keycode ∧ presses < 2^15-1 then presses+1 else presses
  let presses := if cfg.allowCountRegression ∧ wpmRegressCount cfg keycode ctrl ≠ 0 ∧ -2^15 < presses
    then presses-1 else presses
  setPresses s.currentPeriod presses s

def samplePresses (s : State) : Option Int := do
  let first ← s.periodPresses[0]?
  let presses ← (List.range s.periods).foldlM
    (fun presses i => s.periodPresses[i+1]?.map (presses+·)) first
  return if presses < 0 then 0 else presses

/-- `duration * WPM_ESTIMATED_WORD_SIZE` in 32 bits. -/
def divisor (now : UInt32) (s : State) : Nat :=
  let duration := (s.periods*periodDuration cfg+(now-s.wpmTimer).toNat) % 2^32
  duration*cfg.estimatedWordSize % 2^32

/-- `wpm_now` of these presses. -/
def wpmNow (presses : Int) (divisor : Nat) : Int :=
  let wpmNow := int32 ((60000*presses) % 2^32/divisor)
  if presses < 2 then 0 else if wpmNow < 0 then 0 else if 240 < wpmNow then 240 else wpmNow

def nextPeriod (now : UInt32) (s : State) : Option State :=
  if periodDuration cfg < int32 (now-s.wpmTimer).toNat then do
    let currentPeriod := (s.currentPeriod+1) % cfg.samplePeriods % 2^8
    let s ← setPresses currentPeriod 0 { s with currentPeriod := currentPeriod }
    return { s with
      periods := (if s.periods < cfg.samplePeriods-1 then s.periods+1 else cfg.samplePeriods-1) % 2^8
      wpmTimer := now }
  else some s

/-- With `WPM_LAUNCH_CONTROL` nothing but the current period is sampled after a pause. -/
def launch (presses : Int) (s : State) : Option State :=
  if cfg.launchControl ∧ presses = 0 then
    setPresses 0 0 { s with currentPeriod := 0, periods := 0 }
  else some s

def latency (now : UInt32) (s : State) : Int := int32 (now-s.smoothingTimer).toNat

def smooth (now : UInt32) (wpmNow : Int) (s : State) : State :=
  if cfg.unfiltered then { s with currentWpm := (wpmNow % 2^8).toNat }
  else
    let latency := latency now s
    let s := if latencyMax < latency then
        { s with
          smoothingTimer := now
          prevWpm := s.currentWpm
          nextWpm := (wpmNow % 2^8).toNat }
      else s
    { s with currentWpm :=
      ((s.prevWpm+(int32 (latency*((s.nextWpm : Int)-s.prevWpm))).tdiv latencyMax) % 2^8).toNat }

def decayWpm (now : UInt32) (s : State) : Option State := do
  let presses ← samplePresses s
  if divisor cfg now s = 0 then none
  let wpmNow := wpmNow presses (divisor cfg now s)
  let s ← nextPeriod cfg now s
  let s ← launch cfg presses s
  return smooth cfg now wpmNow s

inductive Input where
  | update (keycode : Keycode) (ctrl : Bool)
  | decay (now : UInt32)

def call (s : State) : Input → Option State
  | .update keycode ctrl => updateWpm cfg keycode ctrl s
  | .decay now => decayWpm cfg now s

def next (s : State) (input : Input) : State := (call cfg s input).getD s

def Between (s : State) : Prop :=
  min s.prevWpm s.nextWpm ≤ s.currentWpm ∧ s.currentWpm ≤ max s.prevWpm s.nextWpm

structure InRange (s : State) : Prop where
  current : s.currentWpm ≤ 240
  between : cfg.unfiltered = false → Between s

def Right (s : State) (input : Input) : Prop := ∃ s', call cfg s input = some s' ∧ InRange cfg s'

/-- The speed that a call measures in this state. -/
def measured (now : UInt32) (s : State) : Int :=
  wpmNow ((samplePresses s).getD 0) (divisor cfg now s)

/-- The filter is on time: it is called within the latency, or so little later that the speed it
goes to is not passed. -/
structure OnTime (speed : Int) (now : UInt32) (s : State) : Prop where
  late : latencyMax < latency now s →
    (speed-s.currentWpm).natAbs*(latency now s-latencyMax).toNat < 100
  early : latency now s ≤ latencyMax → 0 ≤ latency now s ∨
    ((s.nextWpm : Int)-s.prevWpm).natAbs*(latency now s).natAbs < 100

/-- The divisor is not 0, and the filter is on time. -/
def Clear (s : State) : Input → Prop
  | .update _ _ => True
  | .decay now => divisor cfg now s ≠ 0 ∧ (cfg.unfiltered = false → OnTime (measured cfg now s) now s)

variable {cfg}

structure Inv (cfg : Config) (s : State) : Prop where
  length : s.periodPresses.length = cfg.samplePeriods
  current : s.currentPeriod < cfg.samplePeriods
  periods : s.periods < cfg.samplePeriods
  range : InRange cfg s
  next : s.nextWpm ≤ 240
  prev : s.prevWpm ≤ 240

theorem init_inv : Inv cfg (init cfg) where
  length := List.length_replicate
  current := Nat.lt_of_lt_of_le Nat.zero_lt_two cfg.periods_ge
  periods := cfg.periods_ge
  range := ⟨Nat.zero_le _,fun _ => by simp [Between, init]⟩
  next := Nat.zero_le _
  prev := Nat.zero_le _

variable {s s' : State}

theorem setPresses_of_lt {i : Nat} {presses : Int} (h : i < s.periodPresses.length) :
    setPresses i presses s = some { s with periodPresses := s.periodPresses.set i presses } :=
  if_pos h

theorem updateWpm_inv (hs : Inv cfg s) (keycode : Keycode) (ctrl : Bool) :
    ∃ s', updateWpm cfg keycode ctrl s = some s' ∧ Inv cfg s' := by
  have hi : s.currentPeriod < s.periodPresses.length := hs.length ▸ hs.current
  simp only [updateWpm, List.getElem?_eq_getElem hi, Option.bind_eq_bind, Option.bind_some]
  exact ⟨_,setPresses_of_lt hi,{ hs with
    length := by simpa using hs.length
    range := ⟨hs.range.current,hs.range.between⟩ }⟩

theorem foldlM_presses (hs : Inv cfg s) (is : List Nat) (hi : ∀ i ∈ is, i < s.periods)
    (presses : Int) : ∃ sum, is.foldlM
      (fun presses i => s.periodPresses[i+1]?.map (presses+·)) presses = some sum := by
  induction is generalizing presses with
  | nil => exact ⟨presses,rfl⟩
  | cons i is ih =>
    have hlt : i+1 < s.periodPresses.length := by
      have hp := hs.periods
      have hip := hi i (by simp)
      rw [hs.length]
      omega
    rw [List.foldlM_cons, List.getElem?_eq_getElem hlt]
    exact ih (fun j hj => hi j (by simp [hj])) _

theorem samplePresses_inv (hs : Inv cfg s) : ∃ presses, samplePresses s = some presses := by
  have h0 : 0 < s.periodPresses.length := by
    rw [hs.length]
    exact Nat.lt_of_lt_of_le (by decide) cfg.periods_ge
  obtain ⟨sum,hsum⟩ := foldlM_presses hs (List.range s.periods) (by simp) s.periodPresses[0]
  simp only [samplePresses, List.getElem?_eq_getElem h0, Option.bind_eq_bind, Option.bind_some,
    hsum]
  exact ⟨_,rfl⟩

structure Rolls (cfg : Config) (s s' : State) : Prop where
  length : s'.periodPresses.length = cfg.samplePeriods
  current : s'.currentPeriod < cfg.samplePeriods
  periods : s'.periods < cfg.samplePeriods
  currentWpm : s'.currentWpm = s.currentWpm
  prevWpm : s'.prevWpm = s.prevWpm
  nextWpm : s'.nextWpm = s.nextWpm
  smoothingTimer : s'.smoothingTimer = s.smoothingTimer

theorem nextPeriod_rolls (hs : Inv cfg s) (now : UInt32) :
    ∃ s', nextPeriod cfg now s = some s' ∧ Rolls cfg s s' := by
  have h2 := cfg.periods_ge
  unfold nextPeriod
  split
  · have hcur : (s.currentPeriod+1) % cfg.samplePeriods % 2^8 < cfg.samplePeriods :=
      Nat.lt_of_le_of_lt (Nat.mod_le _ _) (Nat.mod_lt _ (by omega))
    dsimp only
    rw [setPresses_of_lt (by rw [hs.length]; exact hcur)]
    refine ⟨_,rfl,⟨by simpa using hs.length,hcur,?_,rfl,rfl,rfl,rfl⟩⟩
    refine Nat.lt_of_le_of_lt (Nat.mod_le _ _) ?_
    split <;> omega
  · exact ⟨s,rfl,⟨hs.length,hs.current,hs.periods,rfl,rfl,rfl,rfl⟩⟩

theorem launch_rolls (h : Rolls cfg s s') (presses : Int) :
    ∃ s'', launch cfg presses s' = some s'' ∧ Rolls cfg s s'' := by
  have h2 := cfg.periods_ge
  unfold launch
  split
  · rw [setPresses_of_lt (by rw [h.length]; omega)]
    exact ⟨_,rfl,{ h with
      length := by simpa using h.length
      current := by dsimp only; omega
      periods := by dsimp only; omega }⟩
  · exact ⟨s',rfl,h⟩

theorem wpmNow_le (presses : Int) (divisor : Nat) :
    0 ≤ wpmNow presses divisor ∧ wpmNow presses divisor ≤ 240 := by
  simp only [wpmNow]
  split
  · omega
  · split
    · omega
    · split <;> omega

theorem int32_of_le {n : Int} (h : n.natAbs < 2^31) : int32 n = n :=
  Int.bmod_eq_of_le (by omega) (by omega)

theorem filter_between {d latency : Int} (h0 : 0 ≤ latency) (h : latency ≤ 100) :
    min 0 d ≤ (latency*d).tdiv 100 ∧ (latency*d).tdiv 100 ≤ max 0 d := by
  rcases Int.le_total 0 d with hd | hd
  · have hn : 0 ≤ latency*d := Int.mul_nonneg h0 hd
    have hl : latency*d ≤ 100*d := Int.mul_le_mul_of_nonneg_right h hd
    rw [Int.tdiv_eq_ediv_of_nonneg hn]
    omega
  · have hn : 0 ≤ latency*(-d) := Int.mul_nonneg h0 (by omega)
    have hl : latency*(-d) ≤ 100*(-d) := Int.mul_le_mul_of_nonneg_right h (by omega)
    have he : (latency*d).tdiv 100 = -((latency*(-d)).tdiv 100) := by
      rw [Int.mul_neg, Int.neg_tdiv, Int.neg_neg]
    rw [he, Int.tdiv_eq_ediv_of_nonneg hn]
    omega

theorem filter_late {d latency : Int} (h : 100 < latency)
    (hd : d.natAbs*(latency-100).toNat < 100) : (latency*d).tdiv 100 = d := by
  obtain ⟨n,rfl⟩ : ∃ n : Nat, latency = 100+n := ⟨(latency-100).toNat,by omega⟩
  rw [show (100+(n : Int)-100).toNat = n by omega] at hd
  rcases Int.le_total 0 d with h0 | h0
  · obtain ⟨m,rfl⟩ := Int.eq_ofNat_of_zero_le h0
    rw [Int.natAbs_natCast] at hd
    have he : (100+(n : Int))*m = ((100*m+m*n : Nat) : Int) := by
      push_cast
      ring
    rw [he, Int.tdiv_eq_ediv_of_nonneg (by omega)]
    omega
  · obtain ⟨m,hm⟩ := Int.eq_ofNat_of_zero_le (show 0 ≤ -d by omega)
    obtain rfl : d = -(m : Int) := by omega
    rw [Int.natAbs_neg, Int.natAbs_natCast] at hd
    have he : (100+(n : Int))*(-(m : Int)) = -((100*m+m*n : Nat) : Int) := by
      push_cast
      ring
    rw [he, Int.neg_tdiv, Int.tdiv_eq_ediv_of_nonneg (by omega)]
    omega

theorem filter_behind {d latency : Int} (h : d.natAbs*latency.natAbs < 100) :
    (latency*d).tdiv 100 = 0 := by
  rw [← Int.natAbs_eq_zero, Int.natAbs_tdiv, Int.natAbs_mul, Nat.mul_comm]
  exact Nat.div_eq_of_lt h

theorem filtered {d latency : Int} (hd : d.natAbs ≤ 240)
    (hlate : 100 < latency → d.natAbs*(latency-100).toNat < 100)
    (hearly : latency ≤ 100 → 0 ≤ latency ∨ d.natAbs*latency.natAbs < 100) :
    min 0 d ≤ (int32 (latency*d)).tdiv 100 ∧ (int32 (latency*d)).tdiv 100 ≤ max 0 d := by
  by_cases h : 100 < latency
  · have hl : latency.natAbs = (latency-100).toNat+100 := by omega
    have hn : (latency*d).natAbs < 2^31 := by
      have hdl := hlate h
      rw [Int.natAbs_mul, hl, Nat.add_mul, Nat.mul_comm _ d.natAbs]
      omega
    rw [int32_of_le hn, filter_late h (hlate h)]
    omega
  · rcases hearly (by omega) with h0 | h0
    · have hn : (latency*d).natAbs ≤ 100*240 := by
        rw [Int.natAbs_mul]
        exact Nat.mul_le_mul (by omega) hd
      rw [int32_of_le (by omega)]
      exact filter_between h0 (by omega)
    · have hn : (latency*d).natAbs < 100 := by
        rw [Int.natAbs_mul, Nat.mul_comm]
        exact h0
      rw [int32_of_le (by omega), filter_behind h0]
      omega

theorem reported {prev next : Nat} {q : Int} (hp : prev ≤ 240) (hn : next ≤ 240)
    (hq : min 0 ((next : Int)-prev) ≤ q ∧ q ≤ max 0 ((next : Int)-prev)) :
    ((prev+q) % 2^8).toNat ≤ 240 ∧
      min prev next ≤ ((prev+q) % 2^8).toNat ∧ ((prev+q) % 2^8).toNat ≤ max prev next := by
  omega

theorem smooth_inv (hs : Inv cfg s) (h : Rolls cfg s s') {now : UInt32} {speed : Int}
    (hspeed : 0 ≤ speed ∧ speed ≤ 240)
    (htime : cfg.unfiltered = false → OnTime speed now s) :
    Inv cfg (smooth cfg now speed s') := by
  have hcur := hs.range.current
  have hp := hs.prev
  have hn := hs.next
  have hl : latency now s' = latency now s := by rw [latency, latency, h.smoothingTimer]
  unfold smooth
  cases hu : cfg.unfiltered with
  | true =>
    rw [if_pos rfl]
    refine ⟨h.length,h.current,h.periods,⟨?_,by simp [hu]⟩,h.nextWpm ▸ hn,h.prevWpm ▸ hp⟩
    dsimp only
    omega
  | false =>
    obtain ⟨hlate,hearly⟩ := htime hu
    dsimp only
    rw [if_neg (by simp), hl]
    by_cases hlt : (latencyMax : Int) < latency now s
    · rw [if_pos hlt]
      have hspeed' : ((speed % 2^8).toNat : Int) = speed := by omega
      have hq := @filtered (speed-s.currentWpm) (latency now s) (by omega) (fun _ => hlate hlt)
        fun hle => absurd hlt (Int.not_lt.mpr hle)
      obtain ⟨hr,hb⟩ := @reported s.currentWpm (speed % 2^8).toNat _ hcur (by omega)
        (hspeed'.symm ▸ hq)
      refine ⟨h.length,h.current,h.periods,⟨?_,fun _ => ?_⟩,?_,h.currentWpm ▸ hcur⟩
      · simp only [h.currentWpm]
        exact hr
      · simp only [Between, h.currentWpm]
        exact hb
      · dsimp only
        omega
    · rw [if_neg hlt]
      have hq := @filtered ((s.nextWpm : Int)-s.prevWpm) (latency now s) (by omega)
        (fun h => absurd h hlt) hearly
      obtain ⟨hr,hb⟩ := @reported s.prevWpm s.nextWpm _ hp hn hq
      refine ⟨h.length,h.current,h.periods,⟨?_,fun _ => ?_⟩,h.nextWpm ▸ hn,h.prevWpm ▸ hp⟩
      · simp only [h.prevWpm, h.nextWpm]
        exact hr
      · simp only [Between, h.prevWpm, h.nextWpm]
        exact hb

theorem decayWpm_inv (hs : Inv cfg s) {now : UInt32} (hc : Clear cfg s (.decay now)) :
    ∃ s', decayWpm cfg now s = some s' ∧ Inv cfg s' := by
  obtain ⟨presses,hp⟩ := samplePresses_inv hs
  obtain ⟨s₁,h₁,hr₁⟩ := nextPeriod_rolls hs now
  obtain ⟨s₂,h₂,hr₂⟩ := launch_rolls hr₁ presses
  have hm : measured cfg now s = wpmNow presses (divisor cfg now s) := by
    rw [measured, hp, Option.getD_some]
  refine ⟨smooth cfg now (measured cfg now s) s₂,?_,smooth_inv hs hr₂ ?_ hc.2⟩
  · simp only [decayWpm, hp, h₁, h₂, hm, if_neg hc.1, Option.bind_eq_bind, Option.bind_some]
    rfl
  · rw [hm]
    exact wpmNow_le _ _

theorem step_right (hs : Inv cfg s) {input : Input} (hc : Clear cfg s input) :
    Right cfg s input ∧ Inv cfg (next cfg s input) := by
  have hcall : ∃ s', call cfg s input = some s' ∧ Inv cfg s' := by
    cases input with
    | update keycode ctrl => exact updateWpm_inv hs keycode ctrl
    | decay now => exact decayWpm_inv hs hc
  obtain ⟨s',hs',hi⟩ := hcall
  refine ⟨⟨s',hs',hi.range⟩,?_⟩
  rw [next, hs']
  exact hi

/-- The meter stays in range along every run whose divisors are not 0 and whose filter is on
time. -/
theorem range_of_clear (cfg : Config) {inputs : List Input}
    (h : Along (next cfg) (Clear cfg) (init cfg) inputs) :
    Along (next cfg) (Right cfg) (init cfg) inputs :=
  @Along.imp _ _ _ _ (Right cfg) (Inv cfg) (fun _ _ hs hc => step_right hs hc) _ init_inv _ h

instance (speed : Int) (now : UInt32) (s : State) : Decidable (OnTime speed now s) :=
  decidable_of_iff (_ ∧ _) ⟨fun h => ⟨h.1,h.2⟩,fun h => ⟨h.late,h.early⟩⟩

instance Clear.decidable (cfg : Config) (s : State) : ∀ input, Decidable (Clear cfg s input)
  | .update _ _ => .isTrue trivial
  | .decay _ => inferInstanceAs (Decidable (_ ∧ _))

theorem defaults_duration : 25 ≤ 1000*5 := by decide

def defaults (launchControl : Bool) : Config where
  samplePeriods := 25
  sampleSeconds := 5
  estimatedWordSize := 5
  launchControl := launchControl
  unfiltered := false
  allowCountRegression := false
  wpmKeycode := wpmKeycodeUser
  periods_ge := Nat.le_add_left 2 23
  duration_pos := defaults_duration
  word_pos := Nat.le_add_left 1 4

/-- Two presses, measured a little late. -/
theorem range_of_clear_late : Along (next (defaults true)) (Right (defaults true))
    (init (defaults true))
    [.update 0x04 false,.update 0x05 false,.decay 50,.decay 101,.decay 150] :=
  range_of_clear (defaults true) (by decide +kernel)

/-- With launch control two calls in the first millisecond divide by zero. Without it ten presses
that are measured after 101 ms are reported as 242. -/
theorem out_of_range :
    ¬Along (next (defaults true)) (Right (defaults true)) (init (defaults true)) [.decay 0,.decay 0] ∧
    ¬Along (next (defaults false)) (Right (defaults false)) (init (defaults false))
      (List.replicate 10 (.update 0x04 false) ++ [.decay 101]) := by
  constructor
  · rintro ⟨-,⟨s',hs',-⟩,-⟩
    have hn : (call (defaults true) (next (defaults true) (init (defaults true)) (.decay 0))
        (.decay 0)).isSome = false := by decide +kernel
    rw [hs'] at hn
    cases hn
  · intro h
    obtain ⟨s',hs',hr⟩ := (Along.snoc.mp h).2
    have hw : (call (defaults false) ((List.replicate 10 (.update 0x04 false)).foldl
        (next (defaults false)) (init (defaults false))) (.decay 101)).map (·.currentWpm)
          = some 242 := by decide +kernel
    rw [hs', Option.map_some, Option.some.injEq] at hw
    have hle := hr.current
    omega

end QmkFirmware.Wpm
