import Mathlib.Algebra.BigOperators.Group.List.Basic
import Mathlib.Algebra.Order.Ring.Int

/-!
`encoder_quadrature.c`, for one encoder, without `ENCODER_DEFAULT_POS` and with room in the event
queue.
-/

set_option autoImplicit false

namespace QmkFirmware.Encoder

inductive Direction where
  | clockwise | counterClockwise
  deriving DecidableEq, Repr

/-- The pins of an encoder. -/
structure Pins where
  a : Bool
  b : Bool
  deriving DecidableEq, Repr

def encoderLUT : List Int := [0,-1,1,0,1,0,0,-1,-1,0,0,1,0,1,-1,0]

structure State where
  encoderState : UInt8
  encoderPulses : Int
  queue : List Direction
  deriving DecidableEq, Repr

/-- The value that an `int8_t` takes. -/
def toInt8 (x : Int) : Int := x.bmod 256

def encoderHandleStateChange (resolution : Nat) (s : State) : State :=
  let pulses := toInt8 (s.encoderPulses+encoderLUT.getD (s.encoderState &&& 0xF).toNat 0)
  let queue := if (resolution : Int) ≤ pulses then s.queue ++ [.counterClockwise] else s.queue
  let queue := if pulses ≤ -(resolution : Int) then queue ++ [.clockwise] else queue
  { s with encoderPulses := toInt8 (pulses.tmod resolution), queue := queue }

def Pins.state (p : Pins) : UInt8 := p.a.toUInt8 ||| p.b.toUInt8 <<< 1

def encoderQuadratureHandleRead (resolution : Nat) (s : State) (p : Pins) : State :=
  if s.encoderState &&& 0x3 ≠ p.state then
    encoderHandleStateChange resolution
      { s with encoderState := s.encoderState <<< 2 ||| p.state }
  else s

/-- `encoder_quadrature_post_init` -/
def postInit (p : Pins) : State := ⟨p.state,0,[]⟩

def Pins.quarter (p : Pins) : Nat :=
  match p.a, p.b with
  | false, false => 0
  | true, false => 1
  | true, true => 2
  | false, true => 3

/-- One pin has changed, clockwise as -1; none or both is no step. -/
def quarterStep (p q : Pins) : Int :=
  if q.quarter = (p.quarter+1) % 4 then -1 else if p.quarter = (q.quarter+1) % 4 then 1 else 0

def quarterSteps (p : Pins) : List Pins → Int
  | [] => 0
  | q :: samples => quarterStep p q+quarterSteps q samples

def turns (queue : List Direction) : Int :=
  queue.count .counterClockwise-queue.count .clockwise

def run (resolution : Nat) (s : State) (samples : List Pins) : State :=
  samples.foldl (encoderQuadratureHandleRead resolution) s

section
variable {resolution : Nat} {s : State} {p q : Pins}

/-- The state byte ends in the pins that were read last. -/
structure Sound (resolution : Nat) (p : Pins) (s : State) : Prop where
  pins : s.encoderState &&& 0x3 = p.state
  low : -(resolution : Int) < s.encoderPulses
  high : s.encoderPulses < resolution

theorem postInit_sound (h : 0 < resolution) (p : Pins) : Sound resolution p (postInit p) where
  pins := by
    obtain ⟨a, b⟩ := p
    cases a <;> cases b <;> rfl
  low := by simp [postInit, h]
  high := by simp [postInit, h]

theorem lookup_eq {x : UInt8} (h : x &&& (0x3 : UInt8) = p.state) :
    encoderLUT.getD ((x <<< 2 ||| q.state) &&& (0xF : UInt8)).toNat 0 = quarterStep p q
      ∧ (x <<< 2 ||| q.state) &&& (0x3 : UInt8) = q.state := by
  obtain ⟨x⟩ := x
  obtain ⟨a, b⟩ := p
  obtain ⟨c, d⟩ := q
  revert a b c d x
  decide +kernel

theorem step_bounds (p q : Pins) : -1 ≤ quarterStep p q ∧ quarterStep p q ≤ 1 := by
  unfold quarterStep
  split_ifs <;> decide

theorem state_inj : p.state = q.state ↔ p = q := by
  obtain ⟨a, b⟩ := p
  obtain ⟨c, d⟩ := q
  revert a b c d
  decide

theorem step_self (p : Pins) : quarterStep p p = 0 := by
  obtain ⟨a, b⟩ := p
  cases a <;> cases b <;> rfl

theorem turns_concat (queue : List Direction) (d : Direction) :
    turns (queue ++ [d]) = turns queue+(if d = .counterClockwise then 1 else -1) := by
  cases d <;> simp [turns] <;> omega

theorem toInt8_of_bounds {x : Int} (hlow : -128 ≤ x) (hhigh : x ≤ 127) : toInt8 x = x :=
  Int.bmod_eq_of_le (by omega) (by omega)

theorem tmod_step {r x : Int} (hlow : -r ≤ x) (hhigh : x ≤ r) :
    x.tmod r = if x = r ∨ x = -r then 0 else x := by
  split_ifs with hx
  · rcases hx with rfl | rfl
    · exact Int.tmod_self
    · rw [Int.neg_tmod, Int.tmod_self, Int.neg_zero]
  · by_cases h0 : 0 ≤ x
    · exact Int.tmod_eq_of_lt h0 (by omega)
    · obtain ⟨y, rfl⟩ : ∃ y, x = -y := ⟨-x,(Int.neg_neg x).symm⟩
      rw [Int.neg_tmod, Int.tmod_eq_of_lt (by omega) (by omega)]

theorem Sound.read (h : Sound resolution p s) (hmax : resolution ≤ 127) (q : Pins) :
    Sound resolution q (encoderQuadratureHandleRead resolution s q)
      ∧ quarterStep p q+s.encoderPulses
        = resolution*(turns (encoderQuadratureHandleRead resolution s q).queue-turns s.queue)
          +(encoderQuadratureHandleRead resolution s q).encoderPulses := by
  have hlow := h.low
  have hhigh := h.high
  rw [encoderQuadratureHandleRead]
  by_cases hsame : s.encoderState &&& (0x3 : UInt8) = q.state
  · rw [if_neg (not_not.mpr hsame)]
    obtain rfl : p = q := state_inj.mp (h.pins.symm.trans hsame)
    exact ⟨h,by rw [step_self]; simp⟩
  · rw [if_pos hsame]
    obtain ⟨hlookup, hpins⟩ := lookup_eq (q := q) h.pins
    obtain ⟨hstep, hstep'⟩ := step_bounds p q
    have hpulses : toInt8 (s.encoderPulses+quarterStep p q) = s.encoderPulses+quarterStep p q :=
      toInt8_of_bounds (by omega) (by omega)
    simp only [encoderHandleStateChange, hlookup, hpulses]
    rw [tmod_step (by omega) (by omega)]
    have hpos : (0 : Int) < resolution := by omega
    by_cases hcounter : s.encoderPulses+quarterStep p q = resolution
    · have hnot : ¬(s.encoderPulses+quarterStep p q ≤ -(resolution : Int)) := by omega
      rw [if_pos (.inl hcounter), if_neg hnot, if_pos (Int.le_of_eq hcounter.symm)]
      refine ⟨⟨hpins,by simpa [toInt8] using hpos,by simpa [toInt8] using hpos⟩,?_⟩
      simp [turns_concat, toInt8, ← hcounter]
      omega
    by_cases hclock : s.encoderPulses+quarterStep p q = -(resolution : Int)
    · have hnot : ¬((resolution : Int) ≤ s.encoderPulses+quarterStep p q) := by omega
      rw [if_pos (.inr hclock), if_pos (Int.le_of_eq hclock), if_neg hnot]
      refine ⟨⟨hpins,by simpa [toInt8] using hpos,by simpa [toInt8] using hpos⟩,?_⟩
      simp [turns_concat, toInt8]
      omega
    · have hnot : ¬((resolution : Int) ≤ s.encoderPulses+quarterStep p q) := by omega
      have hnot' : ¬(s.encoderPulses+quarterStep p q ≤ -(resolution : Int)) := by omega
      rw [if_neg (not_or.mpr ⟨hcounter,hclock⟩), if_neg hnot, if_neg hnot', hpulses]
      refine ⟨⟨hpins,by dsimp only; omega,by dsimp only; omega⟩,?_⟩
      simp
      omega

theorem Sound.run (h : Sound resolution p s) (hmax : resolution ≤ 127) (samples : List Pins) :
    (∃ q, Sound resolution q (run resolution s samples))
      ∧ quarterSteps p samples+s.encoderPulses
        = resolution*(turns (run resolution s samples).queue-turns s.queue)
          +(run resolution s samples).encoderPulses := by
  induction samples generalizing p s with
  | nil => exact ⟨⟨p,h⟩,by simp [quarterSteps, Encoder.run]⟩
  | cons q samples ih =>
    obtain ⟨hread, hstep⟩ := h.read hmax q
    obtain ⟨hsound, hrest⟩ := ih hread
    refine ⟨hsound, ?_⟩
    change quarterStep p q+quarterSteps q samples+s.encoderPulses
      = resolution*(turns (run resolution (encoderQuadratureHandleRead resolution s q) samples).queue
          -turns s.queue)
        +(run resolution (encoderQuadratureHandleRead resolution s q) samples).encoderPulses
    rw [Int.mul_sub] at hrest hstep ⊢
    omega

end

theorem turns_bounds {r t t' p p' : Int} (hlow : -r < p) (hhigh : p < r) (hlow' : -r < p')
    (hhigh' : p' < r) (h : r*t'+p' = r*t+p) :
    -1 ≤ t'-t ∧ t'-t ≤ 1 ∧ (t' = t ↔ p' = p) := by
  obtain ⟨d, rfl⟩ : ∃ d, t' = t+d := ⟨t'-t,by omega⟩
  rw [Int.mul_add] at h
  have hr : 0 ≤ r := by omega
  have hup : d ≤ 1 := by
    by_contra hlarge
    have hmul : r*2 ≤ r*d := Int.mul_le_mul_of_nonneg_left (by omega) hr
    omega
  have hdown : -1 ≤ d := by
    by_contra hsmall
    have hmul : r*d ≤ r*(-2) := Int.mul_le_mul_of_nonneg_left (by omega) hr
    omega
  refine ⟨by omega, by omega, fun hsame => ?_, fun hsame => ?_⟩
  · have h0 : d = 0 := by omega
    rw [h0, Int.mul_zero] at h
    omega
  · have h0 : r*d = 0 := by omega
    have hd0 := (Int.mul_eq_zero.mp h0).resolve_left (by omega)
    omega

/-- The quarter steps are the queued turns and the pulses, which stay below the resolution; a bounce
whose steps cancel may move one turn between them. -/
theorem conserves {resolution : Nat} (hpos : 0 < resolution) (hmax : resolution ≤ 127)
    (start : Pins) (samples : List Pins) :
    let s := run resolution (postInit start) samples
    quarterSteps start samples = resolution*turns s.queue+s.encoderPulses
      ∧ -(resolution : Int) < s.encoderPulses ∧ s.encoderPulses < resolution
      ∧ (∀ p q, -128 ≤ s.encoderPulses+quarterStep p q ∧ s.encoderPulses+quarterStep p q ≤ 127)
      ∧ ∀ bounce, quarterSteps start (samples ++ bounce) = quarterSteps start samples →
        let s' := run resolution (postInit start) (samples ++ bounce)
        resolution*turns s'.queue+s'.encoderPulses = resolution*turns s.queue+s.encoderPulses
          ∧ -1 ≤ turns s'.queue-turns s.queue ∧ turns s'.queue-turns s.queue ≤ 1
          ∧ (turns s'.queue = turns s.queue ↔ s'.encoderPulses = s.encoderPulses) := by
  have hbalance : ∀ samples, quarterSteps start samples
      = resolution*turns (run resolution (postInit start) samples).queue
        +(run resolution (postInit start) samples).encoderPulses := by
    intro samples
    have hrun := ((postInit_sound hpos start).run hmax samples).2
    simpa [postInit, turns] using hrun
  have hsound : ∀ samples, -(resolution : Int) < (run resolution (postInit start) samples).encoderPulses
      ∧ (run resolution (postInit start) samples).encoderPulses < resolution := by
    intro samples
    obtain ⟨⟨q, hq⟩, -⟩ := (postInit_sound hpos start).run hmax samples
    exact ⟨hq.low,hq.high⟩
  obtain ⟨hlow, hhigh⟩ := hsound samples
  refine ⟨hbalance samples,hlow,hhigh,fun p q => ?_,fun bounce hbounce => ?_⟩
  · obtain ⟨hstep, hstep'⟩ := step_bounds p q
    omega
  · obtain ⟨hlow', hhigh'⟩ := hsound (samples ++ bounce)
    have heq := (hbalance (samples ++ bounce)).symm.trans (hbounce.trans (hbalance samples))
    exact ⟨heq,turns_bounds hlow hhigh hlow' hhigh' heq⟩

def fourSteps : List Pins := [⟨false,true⟩,⟨true,true⟩,⟨true,false⟩]

theorem conserves_four :
    let s := run 4 (postInit ⟨false,false⟩) fourSteps
    quarterSteps ⟨false,false⟩ fourSteps = (4 : Nat)*turns s.queue+s.encoderPulses :=
  (conserves (by decide) (by decide) ⟨false,false⟩ fourSteps).1

/-- On the last of four steps a bounce leaves an event. -/
theorem bounce_event :
    let bounce : List Pins := [⟨false,false⟩,⟨true,false⟩]
    quarterSteps ⟨false,false⟩ (fourSteps ++ bounce) = quarterSteps ⟨false,false⟩ fourSteps
      ∧ (run 4 (postInit ⟨false,false⟩) fourSteps).queue = []
      ∧ (run 4 (postInit ⟨false,false⟩) (fourSteps ++ bounce)).queue = [.counterClockwise]
      ∧ (run 4 (postInit ⟨false,false⟩) fourSteps).encoderPulses = 3
      ∧ (run 4 (postInit ⟨false,false⟩) (fourSteps ++ bounce)).encoderPulses = -1 := by
  decide +kernel

end QmkFirmware.Encoder
