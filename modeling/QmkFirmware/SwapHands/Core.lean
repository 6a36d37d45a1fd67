import QmkFirmware.Lib.Along
import QmkFirmware.Lib.PackedBits

/-!
`process_hand_swap`: the position a key event is moved to, and the flag that its release follows.
-/

set_option autoImplicit false

namespace QmkFirmware.SwapHands

/-- `keypos_t`. -/
structure Keypos where
  col : UInt8
  row : UInt8
  deriving DecidableEq, Repr

inductive EventType where
  | tick
  | key
  | encoderCw
  | encoderCcw
  | combo
  | dipSwitchOn
  | dipSwitchOff
  deriving DecidableEq, Repr

/-- `keyevent_t` without its time. -/
structure Keyevent where
  key : Keypos
  type : EventType
  pressed : Bool
  deriving DecidableEq, Repr

def keylocEncoderCw : UInt8 := 253
def keylocEncoderCcw : UInt8 := 252

/-- `encoderHandSwapConfig` is there with `ENCODER_MAP_ENABLE`. -/
structure Config where
  matrixRows : Nat
  matrixCols : Nat
  handSwapConfig : Keypos → Keypos
  encoderHandSwapConfig : Option (UInt8 → UInt8)

structure State where
  swapHands : Bool
  matrixSwapState : Nat → BitVec 8
  encoderSwapState : Nat → BitVec 8

def shouldSwapHands (swapHands : Bool) (index : Nat) (swapState : Nat → BitVec 8)
    (pressed : Bool) : Bool :=
  if pressed then swapHands
  else decide (swapState (index/8) &&& (1 : BitVec 8) <<< (index % 8) ≠ 0)

def setSwapHandsState (index : Nat) (swapState : Nat → BitVec 8) (on : Bool) : Nat → BitVec 8 :=
  if on then
    Function.update swapState (index/8) (swapState (index/8) ||| (1 : BitVec 8) <<< (index % 8))
  else
    Function.update swapState (index/8) (swapState (index/8) &&& ~~~((1 : BitVec 8) <<< (index % 8)))

def swapHandsOn (s : State) : State := { s with swapHands := true }
def swapHandsOff (s : State) : State := { s with swapHands := false }
def swapHandsToggle (s : State) : State := { s with swapHands := !s.swapHands }

section Process

variable (cfg : Config)

def Config.inMatrix (pos : Keypos) : Prop :=
  pos.row.toNat < cfg.matrixRows ∧ pos.col.toNat < cfg.matrixCols

instance (pos : Keypos) : Decidable (cfg.inMatrix pos) := inferInstanceAs (Decidable (_ ∧ _))

def Config.index (pos : Keypos) : Nat := pos.row.toNat*cfg.matrixCols+pos.col.toNat

def processHandSwap (s : State) (event : Keyevent) : State × Keyevent :=
  let pos := event.key
  if event.type = .key ∧ cfg.inMatrix pos then
    if shouldSwapHands s.swapHands (cfg.index pos) s.matrixSwapState event.pressed then
      ({ s with matrixSwapState := setSwapHandsState (cfg.index pos) s.matrixSwapState true },
        { event with key := cfg.handSwapConfig pos })
    else
      ({ s with matrixSwapState := setSwapHandsState (cfg.index pos) s.matrixSwapState false },event)
  else match cfg.encoderHandSwapConfig with
    | none => (s,event)
    | some config =>
      if (event.type = .encoderCw ∨ event.type = .encoderCcw)
          ∧ (pos.row = keylocEncoderCw ∨ pos.row = keylocEncoderCcw) then
        let index := pos.col.toNat
        if shouldSwapHands s.swapHands index s.encoderSwapState event.pressed then
          ({ s with encoderSwapState := setSwapHandsState index s.encoderSwapState true },
            { event with key := ⟨config pos.col,pos.row⟩ })
        else
          ({ s with encoderSwapState := setSwapHandsState index s.encoderSwapState false },event)
      else (s,event)

/-- A key that is pressed or released, an encoder event, or a change of `swap_hands`. -/
inductive Input where
  | key (pos : Keypos)
  | encoder (clockwise : Bool) (id : UInt8) (pressed : Bool)
  | swapHandsOn
  | swapHandsOff
  | swapHandsToggle
  deriving DecidableEq, Repr

def encoderEvent (clockwise : Bool) (id : UInt8) (pressed : Bool) : Keyevent :=
  if clockwise then ⟨⟨id,keylocEncoderCw⟩,.encoderCw,pressed⟩
  else ⟨⟨id,keylocEncoderCcw⟩,.encoderCcw,pressed⟩

/-- `held` has the keys that are down, each with the position its press was moved to. -/
structure Run where
  state : State
  held : Keypos → Option Keypos

def next (r : Run) : Input → Run
  | .key pos =>
    match r.held pos with
    | none =>
      let (state,event) := processHandSwap cfg r.state ⟨pos,.key,true⟩
      ⟨state,Function.update r.held pos (some event.key)⟩
    | some _ =>
      ⟨(processHandSwap cfg r.state ⟨pos,.key,false⟩).1,Function.update r.held pos none⟩
  | .encoder clockwise id pressed =>
    { r with state := (processHandSwap cfg r.state (encoderEvent clockwise id pressed)).1 }
  | .swapHandsOn => { r with state := swapHandsOn r.state }
  | .swapHandsOff => { r with state := swapHandsOff r.state }
  | .swapHandsToggle => { r with state := swapHandsToggle r.state }

def start : Run := ⟨⟨false,fun _ => 0,fun _ => 0⟩,fun _ => none⟩

def run (inputs : List Input) : Run := inputs.foldl (next cfg) start

def Config.Involution : Prop :=
  ∀ pos, cfg.inMatrix pos →
    cfg.inMatrix (cfg.handSwapConfig pos) ∧ cfg.handSwapConfig (cfg.handSwapConfig pos) = pos

/-- `swap_hands` changes only while no key is held. -/
def Settled (r : Run) (input : Input) : Prop :=
  (next cfg r input).state.swapHands ≠ r.state.swapHands → ∀ pos, r.held pos = none

theorem shouldSwapHands_release (swapHands : Bool) (index : Nat) (swapState : Nat → BitVec 8) :
    shouldSwapHands swapHands index swapState false = PackedBits.read swapState index := by
  have hmask := PackedBits.and_twoPow_read (w := 8) (by decide) swapState index
  rw [shouldSwapHands, if_neg (by decide), Bool.eq_iff_iff, decide_eq_true_eq]
  exact hmask

theorem setSwapHandsState_eq (index : Nat) (swapState : Nat → BitVec 8) (on : Bool) :
    setSwapHandsState index swapState on = PackedBits.write swapState index on := by
  cases on <;> rfl

theorem Config.index_inj {pos pos' : Keypos} (h : cfg.inMatrix pos) (h' : cfg.inMatrix pos')
    (heq : cfg.index pos = cfg.index pos') : pos = pos' := by
  have hcol := congrArg (· % cfg.matrixCols) heq
  have hrow := congrArg (· / cfg.matrixCols) heq
  have hpos : 0 < cfg.matrixCols := Nat.zero_lt_of_lt h.2
  simp only [Config.index, Nat.mul_add_mod_self_right, Nat.mod_eq_of_lt h.2,
    Nat.mod_eq_of_lt h'.2] at hcol
  simp only [Config.index, Nat.add_comm (_*_), Nat.add_mul_div_right _ _ hpos,
    Nat.div_eq_of_lt h.2, Nat.div_eq_of_lt h'.2, Nat.zero_add] at hrow
  cases pos
  cases pos'
  exact congrArg₂ Keypos.mk (UInt8.toNat_inj.mp hcol) (UInt8.toNat_inj.mp hrow)

def flag (s : State) (pos : Keypos) : Bool := PackedBits.read s.matrixSwapState (cfg.index pos)

def setFlag (s : State) (pos : Keypos) (on : Bool) : State :=
  { s with matrixSwapState := PackedBits.write s.matrixSwapState (cfg.index pos) on }

def target (on : Bool) (pos : Keypos) : Keypos :=
  if on ∧ cfg.inMatrix pos then cfg.handSwapConfig pos else pos

theorem flag_setFlag (s : State) (pos pos' : Keypos) (on : Bool) :
    flag cfg (setFlag cfg s pos on) pos' = if cfg.index pos' = cfg.index pos then on
      else flag cfg s pos' :=
  PackedBits.read_write (by decide) ..

theorem processHandSwap_key (s : State) (pos : Keypos) (pressed : Bool) :
    let on := if pressed then s.swapHands else flag cfg s pos
    let after := processHandSwap cfg s ⟨pos,.key,pressed⟩
    after.2.key = target cfg on pos ∧ after.1.swapHands = s.swapHands
      ∧ (cfg.inMatrix pos → flag cfg after.1 pos = on)
      ∧ ∀ pos', cfg.inMatrix pos' → pos' ≠ pos → flag cfg after.1 pos' = flag cfg s pos' := by
  have hshould : shouldSwapHands s.swapHands (cfg.index pos) s.matrixSwapState pressed
      = if pressed then s.swapHands else flag cfg s pos := by
    cases pressed with
    | true => rfl
    | false => exact shouldSwapHands_release ..
  by_cases hin : cfg.inMatrix pos
  · have hafter : processHandSwap cfg s ⟨pos,.key,pressed⟩
        = (setFlag cfg s pos (if pressed then s.swapHands else flag cfg s pos),
          ⟨target cfg (if pressed then s.swapHands else flag cfg s pos) pos,.key,pressed⟩) := by
      rw [processHandSwap, if_pos ⟨rfl,hin⟩, hshould]
      cases (if pressed then s.swapHands else flag cfg s pos) with
      | true => simp [target, hin, setSwapHandsState_eq, setFlag]
      | false => simp [target, setSwapHandsState_eq, setFlag]
    intro on after
    rw [show after = _ from hafter]
    refine ⟨rfl,rfl,fun _ => ?_,fun pos' hin' hne => ?_⟩
    · rw [flag_setFlag, if_pos rfl]
    · rw [flag_setFlag, if_neg fun h => hne (cfg.index_inj hin' hin h)]
  · have hafter : processHandSwap cfg s ⟨pos,.key,pressed⟩ = (s,⟨pos,.key,pressed⟩) := by
      rw [processHandSwap, if_neg fun h => hin h.2]
      cases cfg.encoderHandSwapConfig <;> simp
    intro on after
    rw [show after = _ from hafter]
    exact ⟨by simp [target, hin],rfl,fun h => absurd h hin,fun _ _ _ => rfl⟩

theorem processHandSwap_encoder (s : State) (clockwise : Bool) (id : UInt8) (pressed : Bool) :
    (processHandSwap cfg s (encoderEvent clockwise id pressed)).1.swapHands = s.swapHands
      ∧ (processHandSwap cfg s (encoderEvent clockwise id pressed)).1.matrixSwapState
        = s.matrixSwapState := by
  have htype : (encoderEvent clockwise id pressed).type ≠ .key := by
    cases clockwise <;> exact fun h => nomatch h
  rw [processHandSwap, if_neg fun h => htype h.1]
  cases cfg.encoderHandSwapConfig with
  | none => exact ⟨rfl,rfl⟩
  | some config => dsimp only; split_ifs <;> exact ⟨rfl,rfl⟩

def Kept (r : Run) : Prop :=
  ∀ pos p, r.held pos = some p → p = target cfg (flag cfg r.state pos) pos

def Live (r : Run) : Prop :=
  ∀ pos p, r.held pos = some p → p = target cfg r.state.swapHands pos

variable {cfg}

theorem target_congr {on on' : Bool} {pos : Keypos} (h : cfg.inMatrix pos → on = on') :
    target cfg on pos = target cfg on' pos := by
  by_cases hin : cfg.inMatrix pos
  · rw [h hin]
  · simp [target, hin]

theorem Kept.next {r : Run} (h : Kept cfg r) (input : Input) :
    Kept cfg (next cfg r input) := by
  cases input with
  | key pos =>
    have hother : ∀ pressed pos', pos' ≠ pos →
        target cfg (flag cfg (processHandSwap cfg r.state ⟨pos,.key,pressed⟩).1 pos') pos'
          = target cfg (flag cfg r.state pos') pos' := fun pressed pos' hne =>
      target_congr fun hin => (processHandSwap_key cfg r.state pos pressed).2.2.2 pos' hin hne
    intro pos' p hp
    cases hheld : r.held pos with
    | none =>
      simp only [SwapHands.next, hheld] at hp ⊢
      by_cases hpos : pos' = pos
      · subst hpos
        rw [Function.update_self] at hp
        obtain ⟨hkey, -, hflag, -⟩ := processHandSwap_key cfg r.state pos' true
        rw [← Option.some.inj hp, hkey]
        exact target_congr fun hin => (hflag hin).symm
      · rw [Function.update_of_ne hpos] at hp
        rw [hother _ _ hpos]
        exact h pos' p hp
    | some q =>
      simp only [SwapHands.next, hheld] at hp ⊢
      by_cases hpos : pos' = pos
      · rw [hpos, Function.update_self] at hp
        cases hp
      · rw [Function.update_of_ne hpos] at hp
        rw [hother _ _ hpos]
        exact h pos' p hp
  | encoder clockwise id pressed =>
    intro pos p hp
    obtain ⟨-, hflags⟩ := processHandSwap_encoder cfg r.state clockwise id pressed
    rw [SwapHands.next, flag, hflags]
    exact h pos p hp
  | swapHandsOn => exact h
  | swapHandsOff => exact h
  | swapHandsToggle => exact h

theorem Live.next {r : Run} (h : Live cfg r) (input : Input)
    (hsettled : Settled cfg r input) : Live cfg (next cfg r input) := by
  have hswap : ∀ r', r'.held = r.held → (r'.state.swapHands ≠ r.state.swapHands →
      ∀ pos, r.held pos = none) → Live cfg r' := by
    intro r' hheld hchange pos p hp
    rw [hheld] at hp
    by_cases heq : r'.state.swapHands = r.state.swapHands
    · rw [heq]
      exact h pos p hp
    · rw [hchange heq pos] at hp
      cases hp
  cases input with
  | key pos =>
    intro pos' p hp
    cases hheld : r.held pos with
    | none =>
      obtain ⟨hkey, hlive, -, -⟩ := processHandSwap_key cfg r.state pos true
      simp only [SwapHands.next, hheld] at hp ⊢
      rw [hlive]
      by_cases hpos : pos' = pos
      · rw [hpos, Function.update_self] at hp
        rw [← Option.some.inj hp, hkey, hpos]
        rfl
      · rw [Function.update_of_ne hpos] at hp
        exact h pos' p hp
    | some q =>
      obtain ⟨-, hlive, -, -⟩ := processHandSwap_key cfg r.state pos false
      simp only [SwapHands.next, hheld] at hp ⊢
      rw [hlive]
      by_cases hpos : pos' = pos
      · rw [hpos, Function.update_self] at hp
        cases hp
      · rw [Function.update_of_ne hpos] at hp
        exact h pos' p hp
  | encoder clockwise id pressed => exact hswap _ rfl hsettled
  | swapHandsOn => exact hswap _ rfl hsettled
  | swapHandsOff => exact hswap _ rfl hsettled
  | swapHandsToggle => exact hswap _ rfl hsettled

theorem run_kept (inputs : List Input) : Kept cfg (run cfg inputs) := by
  have hrun : ∀ r, Kept cfg r → Kept cfg (inputs.foldl (next cfg) r) := by
    induction inputs with
    | nil => exact fun r h => h
    | cons input inputs ih => exact fun r h => ih _ (h.next input)
  exact hrun _ fun _ _ hp => nomatch hp

theorem Config.Involution.target_inj (h : cfg.Involution) {on : Bool} {pos pos' : Keypos}
    (heq : target cfg on pos = target cfg on pos') : pos = pos' := by
  unfold target at heq
  split_ifs at heq with hin hin' hin'
  · rw [← (h pos hin.2).2, heq, (h pos' hin'.2).2]
  · exact absurd ⟨hin.1,heq ▸ (h pos hin.2).1⟩ hin'
  · exact absurd ⟨hin'.1,heq ▸ (h pos' hin'.2).1⟩ hin
  · exact heq

variable (cfg)

/-- A release is moved to where its press was; with an involution, and `swap_hands` changed only while
nothing is held, no two held keys are moved to one position. -/
theorem swaps_back (inputs : List Input) :
    (∀ pos p, (run cfg inputs).held pos = some p →
      (processHandSwap cfg (run cfg inputs).state ⟨pos,.key,false⟩).2.key = p)
      ∧ (cfg.Involution → Along (next cfg) (Settled cfg) start inputs → ∀ pos pos' p,
        (run cfg inputs).held pos = some p → (run cfg inputs).held pos' = some p → pos = pos') := by
  refine ⟨fun pos p hp => ?_,fun hinv hsettled pos pos' p hp hp' => ?_⟩
  · obtain ⟨hkey, -⟩ := processHandSwap_key cfg (run cfg inputs).state pos false
    rw [hkey, run_kept inputs pos p hp]
    rfl
  · have hlive : Live cfg (run cfg inputs) :=
      hsettled.invariant (I := Live cfg) (fun _ input h => h.next input) fun _ _ h => nomatch h
    exact hinv.target_inj ((hlive pos p hp).symm.trans (hlive pos' p hp'))

end Process

def pair : Config :=
  ⟨1,2,fun pos => ⟨1-pos.col,pos.row⟩,none⟩

/-- Swapped while the first key is down: its release is not moved, the second key's is. -/
example : (run pair [.key ⟨0,0⟩,.swapHandsToggle,.key ⟨1,0⟩]).held ⟨1,0⟩ = some ⟨0,0⟩
    ∧ (processHandSwap pair (run pair [.key ⟨0,0⟩,.swapHandsToggle,.key ⟨1,0⟩]).state
      ⟨⟨0,0⟩,.key,false⟩).2.key = ⟨0,0⟩ := by decide +kernel

theorem pair_involution : pair.Involution := by
  rintro ⟨col,row⟩ ⟨hrow,hcol⟩
  have hcol : col.toNat < 2 := hcol
  have hsub : (1-col).toNat = 1-col.toNat := UInt8.toNat_sub_of_le _ _ (by
    rw [UInt8.le_iff_toNat_le]
    exact Nat.le_of_lt_succ hcol)
  have hle : (1-col) ≤ 1 := by
    rw [UInt8.le_iff_toNat_le, hsub]
    exact Nat.sub_le 1 _
  have htwice : 1-(1-col) = col := UInt8.toNat_inj.mp (by
    rw [UInt8.toNat_sub_of_le _ _ hle, hsub]
    change 1-(1-col.toNat) = col.toNat
    omega)
  refine ⟨⟨hrow,?_⟩,?_⟩
  · change (1-col).toNat < 2
    omega
  · change (⟨1-(1-col),row⟩ : Keypos) = ⟨col,row⟩
    rw [htwice]

theorem swaps_back_pair :
    let r := run pair [.swapHandsToggle,.key ⟨0,0⟩,.key ⟨1,0⟩]
    ∀ pos pos' p, r.held pos = some p → r.held pos' = some p → pos = pos' := by
  have hsettled : Along (next pair) (Settled pair) start
      [.swapHandsToggle,.key ⟨0,0⟩,.key ⟨1,0⟩] := by
    refine ⟨fun _ _ => rfl,fun hchange => ?_,fun hchange => ?_,trivial⟩
    · exact absurd (by decide) hchange
    · exact absurd (by decide) hchange
  exact (swaps_back pair _).2 pair_involution hsettled

end QmkFirmware.SwapHands
