import Mathlib.Data.BitVec
import Mathlib.Logic.Function.Basic
import Mathlib.Tactic.SplitIfs
import QmkFirmware.Lib.Along

/-!
`process_layer_lock.c` and `layer_lock.c`, in front of the layer actions of `action.c`.
-/

set_option autoImplicit false

namespace QmkFirmware.LayerLock

/-- The keys that switch layers or are modifiers; the tap key of an `LT` is below `OP_TAP_TOGGLE`. -/
inductive Keycode where
  | layerLock
  | momentary (layer : Nat)
  | layerTapToggle (layer : Nat)
  | layerTap (layer : Nat) (code : Fin 0xF0)
  | layerMod (layer : Nat) (mod : BitVec 5)
  | toggleLayer (layer : Nat)
  | toLayer (layer : Nat)
  | modifier (i : Fin 8)
  deriving DecidableEq, Repr

structure Event where
  keycode : Keycode
  pressed : Bool
  tapCount : Nat
  deriving DecidableEq, Repr

/-- `layer_state_t` has `w` bits. -/
structure State (w : Nat) where
  layerState : BitVec w
  lockedLayers : BitVec w
  oneshotLayerData : UInt8
  mods : BitVec 8
  deriving DecidableEq, Repr

def init (w : Nat) : State w := ⟨0,0,0,0⟩

section
variable {w : Nat}

/-- `(layer_state_t)1 << layer`. -/
def layerBit (w layer : Nat) : BitVec w := BitVec.twoPow w layer

def layerStateSet (layers : BitVec w) (s : State w) : State w := { s with layerState := layers }

def layerMove (layer : Nat) (s : State w) : State w := layerStateSet (layerBit w layer) s

def layerOn (layer : Nat) (s : State w) : State w :=
  layerStateSet (s.layerState ||| layerBit w layer) s

def layerOff (layer : Nat) (s : State w) : State w :=
  layerStateSet (s.layerState &&& ~~~layerBit w layer) s

def layerInvert (layer : Nat) (s : State w) : State w :=
  layerStateSet (s.layerState ^^^ layerBit w layer) s

def layerAnd (layers : BitVec w) (s : State w) : State w :=
  layerStateSet (s.layerState &&& layers) s

def getHighestLayer (layers : BitVec w) : Nat := layers.toNat.log2

def addMods (mods : BitVec 8) (s : State w) : State w := { s with mods := s.mods ||| mods }

def delMods (mods : BitVec 8) (s : State w) : State w := { s with mods := s.mods &&& ~~~mods }

def clearMods (s : State w) : State w := { s with mods := 0 }

/-- The modifier that `register_code` adds: none for other keys, which go into the report. -/
def codeMods (code : Nat) : BitVec 8 :=
  if 0xE0 ≤ code ∧ code ≤ 0xE7 then BitVec.twoPow 8 (code &&& 7) else 0

def registerCode (code : Nat) (s : State w) : State w := addMods (codeMods code) s

def unregisterCode (code : Nat) (s : State w) : State w := delMods (codeMods code) s

/-- The modifiers of an `LM` key, for both hands. -/
def layerMods (mod : BitVec 5) : BitVec 8 :=
  if mod &&& 0x10 ≠ 0 then (mod &&& 0xF).setWidth 8 <<< 4 else mod.setWidth 8

def isLayerLocked (layer : Nat) (s : State w) : Bool :=
  decide (s.lockedLayers &&& layerBit w layer ≠ 0)

def getOneshotLayer (s : State w) : Nat := (s.oneshotLayerData >>> 3).toNat

def resetOneshotLayer (s : State w) : State w := { s with oneshotLayerData := 0 }

def layerLockInvert (layer : Nat) (s : State w) : State w :=
  let s' :=
    if s.lockedLayers &&& layerBit w layer = 0 then
      layerOn layer (if layer = getOneshotLayer s then resetOneshotLayer s else s)
    else layerOff layer s
  { s' with lockedLayers := s'.lockedLayers ^^^ layerBit w layer }

def layerLockAllOff (s : State w) : State w :=
  { layerAnd (~~~s.lockedLayers) s with lockedLayers := 0 }

def handleMoOrTt (layer : Nat) (e : Event) (s : State w) : Bool × State w :=
  if isLayerLocked layer s then
    (false,if e.pressed then layerLockInvert layer s else s)
  else (true,s)

def unlockInactive (s : State w) : State w :=
  if s.lockedLayers &&& ~~~s.layerState ≠ 0 then
    { s with lockedLayers := s.lockedLayers &&& s.layerState }
  else s

def processLayerLock (e : Event) (s : State w) : Bool × State w :=
  let s := unlockInactive s
  match e.keycode with
  | .layerLock =>
    (false,if e.pressed then layerLockInvert (getHighestLayer s.layerState) s else s)
  | .momentary layer => handleMoOrTt layer e s
  | .layerTapToggle layer => handleMoOrTt layer e s
  | .layerMod layer _ =>
    if isLayerLocked layer s then
      (false,if e.pressed then layerLockInvert layer s else clearMods s)
    else (true,s)
  | .layerTap layer _ =>
    (!(decide (e.tapCount = 0) && !e.pressed && isLayerLocked layer s),s)
  | .toggleLayer _ | .toLayer _ | .modifier _ => (true,s)

/-- `process_action`. -/
def processAction (tappingToggle : Nat) (e : Event) (s : State w) : State w :=
  match e.keycode with
  | .layerLock => s
  | .momentary layer => if e.pressed then layerOn layer s else layerOff layer s
  | .layerTapToggle layer =>
    if e.pressed then
      if e.tapCount < tappingToggle then layerInvert layer s else s
    else if e.tapCount ≤ tappingToggle then layerInvert layer s else s
  | .layerTap layer code =>
    if e.pressed then
      if 0 < e.tapCount then registerCode code s else layerOn layer s
    else if 0 < e.tapCount then unregisterCode code s else layerOff layer s
  | .layerMod layer mod =>
    if e.pressed then addMods (layerMods mod) (layerOn layer s)
    else layerOff layer (delMods (layerMods mod) s)
  -- `ON_RELEASE`
  | .toggleLayer layer => if e.pressed then s else layerInvert layer s
  | .toLayer layer => if e.pressed then layerMove layer s else s
  | .modifier i =>
    if e.pressed then registerCode (0xE0+i) s else unregisterCode (0xE0+i) s

def process (tappingToggle : Nat) (e : Event) (s : State w) : State w :=
  match processLayerLock e s with
  | (true, s) => processAction tappingToggle e s
  | (false, s) => s

end

/-- What is known of a key that is down: `mods` are the modifiers that pressing it registered. -/
structure Held where
  keycode : Keycode
  tapCount : Nat
  mods : BitVec 8

structure World (w : Nat) (κ : Type) where
  state : State w
  down : κ → Option Held

def start (w : Nat) (κ : Type) : World w κ := ⟨init w,fun _ => none⟩

inductive Input (κ : Type) where
  /-- The key is pressed, as this keycode, or released if it is down. -/
  | key (k : κ) (keycode : Keycode) (tapCount : Nat)
  /-- The locks time out. -/
  | idle

def keyMods : Keycode → Nat → BitVec 8
  | .layerTap _ code, tapCount => if 0 < tapCount then codeMods code else 0
  | .layerMod _ mod, _ => layerMods mod
  | .modifier i, _ => codeMods (0xE0+i)
  | _, _ => 0

section
variable {w : Nat} {κ : Type} [DecidableEq κ] (tappingToggle : Nat)

def pressMods (e : Event) (s : State w) : BitVec 8 :=
  if (processLayerLock e s).1 then keyMods e.keycode e.tapCount else 0

def eventOf (v : World w κ) (k : κ) (keycode : Keycode) (tapCount : Nat) : Event :=
  match v.down k with
  | none => ⟨keycode,true,tapCount⟩
  | some h => ⟨h.keycode,false,h.tapCount⟩

def next (v : World w κ) : Input κ → World w κ
  | .idle => { v with state := layerLockAllOff v.state }
  | .key k keycode tapCount =>
    let e := eventOf v k keycode tapCount
    ⟨process tappingToggle e v.state,Function.update v.down k
      (if e.pressed then some ⟨e.keycode,e.tapCount,pressMods e v.state⟩ else none)⟩

def Locked (l : Nat) (s : State w) : Prop := s.lockedLayers.getLsbD l = true

def On (l : Nat) (s : State w) : Prop := s.layerState.getLsbD l = true

def Keycode.switches : Keycode → Bool
  | .momentary _ | .layerTapToggle _ | .layerTap _ _ | .layerMod _ _ => true
  | _ => false

/-- The press of the key unlocks layer `l`. -/
def Keycode.Unlocks (l : Nat) (s : State w) : Keycode → Prop
  | .layerLock => l = getHighestLayer s.layerState
  | .momentary layer | .layerTapToggle layer | .layerMod layer _ => l = layer
  | _ => False

def Right (v : World w κ) : Input κ → Prop
  | .idle => True
  | .key k keycode tapCount =>
    let e := eventOf v k keycode tapCount
    let s := process tappingToggle e v.state
    (e.pressed = false → e.keycode.switches = true →
        ∀ l, Locked l v.state → On l v.state → On l s)
      ∧ (e.pressed = true → ∀ l, e.keycode.Unlocks l v.state → Locked l v.state → On l v.state →
        ¬ Locked l s ∧ ¬ On l s)
      ∧ (∀ l, Locked l (processLayerLock e v.state).2 → On l (processLayerLock e v.state).2)
      ∧ ∀ k', k' ≠ k → ∀ h, v.down k' = some h →
        ∀ i, h.mods.getLsbD i = true → s.mods.getLsbD i = true

/-- The modifiers that a release takes: all of them, for an `LM` key whose layer is locked. -/
def takes (e : Event) (s : State w) : BitVec 8 :=
  match e.keycode with
  | .layerMod layer mod =>
    if s.lockedLayers.getLsbD layer && s.layerState.getLsbD layer then BitVec.allOnes 8
    else layerMods mod
  | keycode => keyMods keycode e.tapCount

/-- No release takes a modifier that another key holds. -/
def Clear (v : World w κ) : Input κ → Prop
  | .idle => True
  | .key k keycode tapCount =>
    let e := eventOf v k keycode tapCount
    e.pressed = false → ∀ k', k' ≠ k → ∀ h, v.down k' = some h →
      ∀ i, h.mods.getLsbD i = true → (takes e v.state).getLsbD i = false

end

section
variable {w : Nat} {s : State w} {layer l : Nat}

theorem bit_lt {x : BitVec w} (h : x.getLsbD l = true) : l < w := BitVec.lt_of_getLsbD h

theorem layerBit_iff : (layerBit w layer).getLsbD l = true ↔ l = layer ∧ l < w := by
  rw [layerBit, BitVec.getLsbD_twoPow, Bool.and_eq_true, decide_eq_true_eq, decide_eq_true_eq]
  exact ⟨fun h => ⟨h.2.symm,h.2 ▸ h.1⟩,fun h => ⟨h.1 ▸ h.2,h.1.symm⟩⟩

theorem and_layerBit_iff (x : BitVec w) : x &&& layerBit w layer ≠ 0 ↔ x.getLsbD layer = true := by
  rw [layerBit, BitVec.and_twoPow]
  by_cases hx : x.getLsbD layer = true
  · refine iff_of_true (fun hzero => ?_) hx
    have hbit := congrArg (fun y => y.getLsbD layer) hzero
    simp [hx,bit_lt hx] at hbit
  · simp [hx]

theorem isLayerLocked_iff : isLayerLocked layer s = true ↔ Locked layer s := by
  rw [isLayerLocked, decide_eq_true_eq, and_layerBit_iff, Locked]

theorem on_layerOn : On l (layerOn layer s) ↔ On l s ∨ l = layer ∧ l < w := by
  rw [On, On, ← layerBit_iff, layerOn, layerStateSet, BitVec.getLsbD_or, Bool.or_eq_true]

theorem on_layerOff : On l (layerOff layer s) ↔ On l s ∧ l ≠ layer := by
  rw [On, layerOff, layerStateSet, BitVec.getLsbD_and, Bool.and_eq_true]
  refine and_congr_right fun h => ?_
  have hlt : l < w := bit_lt h
  rw [BitVec.getLsbD_not, decide_eq_true hlt, Bool.true_and, Bool.not_eq_true',
    ← Bool.not_eq_true, layerBit_iff]
  exact ⟨fun h heq => h ⟨heq,hlt⟩,fun h heq => h heq.1⟩

theorem xor_layerBit (x : BitVec w) (hne : l ≠ layer) :
    (x ^^^ layerBit w layer).getLsbD l = x.getLsbD l := by
  have hbit : (layerBit w layer).getLsbD l = false :=
    Bool.eq_false_iff.mpr fun h => hne (layerBit_iff.mp h).1
  rw [BitVec.getLsbD_xor, hbit, Bool.xor_false]

theorem on_layerInvert (hne : l ≠ layer) : On l (layerInvert layer s) ↔ On l s := by
  rw [On, On, layerInvert, layerStateSet, xor_layerBit _ hne]

theorem layerLockInvert_lock (h : ¬ Locked layer s) :
    (On l (layerLockInvert layer s) ↔ On l s ∨ l = layer ∧ l < w)
      ∧ (Locked l (layerLockInvert layer s) ↔ Locked l s ∨ l = layer ∧ l < w) := by
  have hzero : s.lockedLayers &&& layerBit w layer = 0 := by
    rw [Locked, ← and_layerBit_iff, not_not] at h
    exact h
  have hboth : ∀ s' : State w, s'.layerState = s.layerState → s'.lockedLayers = s.lockedLayers →
      (On l (layerOn layer s') ↔ On l s ∨ l = layer ∧ l < w)
        ∧ ((s'.lockedLayers ^^^ layerBit w layer).getLsbD l = true
          ↔ Locked l s ∨ l = layer ∧ l < w) := by
    intro s' hlayers hlocked
    rw [on_layerOn, On, On, hlayers, hlocked]
    refine ⟨Iff.rfl,?_⟩
    by_cases heq : l = layer
    · subst heq
      have hfalse : s.lockedLayers.getLsbD l = false := Bool.eq_false_iff.mpr h
      rw [BitVec.getLsbD_xor, hfalse, Bool.false_xor, layerBit_iff, Locked, hfalse]
      simp
    · rw [xor_layerBit _ heq, Locked]
      simp [heq]
  rw [layerLockInvert, if_pos hzero]
  split_ifs with honeshot
  · exact hboth (resetOneshotLayer s) rfl rfl
  · exact hboth s rfl rfl

theorem layerLockInvert_unlock (h : Locked layer s) :
    (On l (layerLockInvert layer s) ↔ On l s ∧ l ≠ layer)
      ∧ (Locked l (layerLockInvert layer s) ↔ Locked l s ∧ l ≠ layer) := by
  have hne : s.lockedLayers &&& layerBit w layer ≠ 0 := (and_layerBit_iff _).mpr h
  rw [layerLockInvert, if_neg hne]
  refine ⟨on_layerOff,?_⟩
  show (s.lockedLayers ^^^ layerBit w layer).getLsbD l = true ↔ _
  by_cases heq : l = layer
  · subst heq
    have hbit : (layerBit w l).getLsbD l = true := layerBit_iff.mpr ⟨rfl,bit_lt h⟩
    have hlocked : s.lockedLayers.getLsbD l = true := h
    rw [BitVec.getLsbD_xor, hlocked, hbit]
    simp
  · rw [xor_layerBit _ heq, Locked]
    simp [heq]

theorem layerLockInvert_mods : (layerLockInvert layer s).mods = s.mods := by
  unfold layerLockInvert
  split_ifs <;> rfl

theorem unlockInactive_eq :
    unlockInactive s = { s with lockedLayers := s.lockedLayers &&& s.layerState } := by
  unfold unlockInactive
  split_ifs with h
  · rfl
  · rw [not_not] at h
    have hsame : s.lockedLayers &&& s.layerState = s.lockedLayers := by
      refine BitVec.eq_of_getLsbD_eq fun i hi => ?_
      have hbit := congrArg (fun x => x.getLsbD i) h
      simp only [BitVec.getLsbD_and, BitVec.getLsbD_not, hi, decide_true, Bool.true_and] at hbit
      rw [BitVec.getLsbD_and]
      cases hl : s.lockedLayers.getLsbD i <;> cases ho : s.layerState.getLsbD i <;>
        simp_all
    rw [hsame]

theorem locked_unlockInactive : Locked l (unlockInactive s) ↔ Locked l s ∧ On l s := by
  rw [unlockInactive_eq, Locked, BitVec.getLsbD_and, Bool.and_eq_true]
  rfl

theorem on_unlockInactive : On l (unlockInactive s) ↔ On l s := by
  rw [unlockInactive_eq]
  rfl

theorem unlockInactive_mods : (unlockInactive s).mods = s.mods := by rw [unlockInactive_eq]

theorem locked_now : isLayerLocked layer (unlockInactive s) = true ↔ Locked layer s ∧ On layer s :=
  isLayerLocked_iff.trans locked_unlockInactive

theorem takes_layerMod {mod : BitVec 5} {tapCount : Nat} {pressed : Bool}
    (h : Locked layer s ∧ On layer s) :
    takes ⟨.layerMod layer mod,pressed,tapCount⟩ s = BitVec.allOnes 8 :=
  if_pos ((Bool.and_eq_true _ _).mpr h)

theorem takes_layerMod_free {mod : BitVec 5} {tapCount : Nat} {pressed : Bool}
    (h : ¬ (Locked layer s ∧ On layer s)) :
    takes ⟨.layerMod layer mod,pressed,tapCount⟩ s = layerMods mod :=
  if_neg fun hand => h ((Bool.and_eq_true _ _).mp hand)

theorem delMods_zero : delMods 0 s = s := by
  have hmods : s.mods &&& ~~~0 = s.mods := BitVec.and_allOnes
  rw [delMods, hmods]

theorem delMods_allOnes : delMods (BitVec.allOnes 8) s = clearMods s := by
  rw [delMods, clearMods, BitVec.not_allOnes, BitVec.and_zero]
  rfl

/-- The layer lock leaves the event to the default action. -/
def Free (e : Event) (s : State w) : Prop :=
  match e.keycode with
  | .layerLock => False
  | .momentary layer | .layerTapToggle layer | .layerMod layer _ => ¬ (Locked layer s ∧ On layer s)
  | .layerTap layer _ => e.tapCount = 0 → e.pressed = false → ¬ (Locked layer s ∧ On layer s)
  | .toggleLayer _ | .toLayer _ | .modifier _ => True

def Inverts (e : Event) (s : State w) (layer : Nat) : Prop :=
  e.pressed = true ∧ e.keycode.Unlocks layer s
    ∧ (e.keycode = .layerLock ∨ Locked layer s ∧ On layer s)
    ∧ processLayerLock e s = (false,layerLockInvert layer (unlockInactive s))

def Swallows (e : Event) (s : State w) : Prop :=
  e.pressed = false ∧ processLayerLock e s = (false,delMods (takes e s) (unlockInactive s))

theorem handleMoOrTt_cases {e : Event} (hunlocks : e.keycode.Unlocks layer s) (htakes : takes e s = 0)
    (heq : processLayerLock e s = handleMoOrTt layer e (unlockInactive s))
    (hfree : ¬ (Locked layer s ∧ On layer s) → Free e s) :
    processLayerLock e s = (true,unlockInactive s) ∧ Free e s
      ∨ (∃ layer, Inverts e s layer) ∨ Swallows e s := by
  rw [Swallows, htakes, delMods_zero, heq]
  by_cases hlocked : Locked layer s ∧ On layer s
  · rw [handleMoOrTt, if_pos (locked_now.mpr hlocked)] at heq ⊢
    refine .inr ?_
    cases hpressed : e.pressed with
    | true => exact .inl ⟨layer,hpressed,hunlocks,.inr hlocked,by rw [heq, if_pos hpressed]⟩
    | false => exact .inr ⟨rfl,rfl⟩
  · exact .inl ⟨if_neg (mt locked_now.mp hlocked),hfree hlocked⟩

theorem processLayerLock_cases (e : Event) (s : State w) :
    processLayerLock e s = (true,unlockInactive s) ∧ Free e s
      ∨ (∃ layer, Inverts e s layer) ∨ Swallows e s := by
  obtain ⟨keycode, pressed, tapCount⟩ := e
  cases keycode with
  | layerLock =>
    refine .inr ?_
    cases pressed with
    | true =>
      refine .inl ⟨getHighestLayer s.layerState,rfl,rfl,.inl rfl,?_⟩
      simp [processLayerLock,unlockInactive_eq]
    | false => exact .inr ⟨rfl,by rw [show takes _ s = 0 from rfl, delMods_zero]; rfl⟩
  | momentary layer => exact handleMoOrTt_cases rfl rfl rfl id
  | layerTapToggle layer => exact handleMoOrTt_cases rfl rfl rfl id
  | layerTap layer code =>
    by_cases hskip : tapCount = 0 ∧ pressed = false ∧ Locked layer s ∧ On layer s
    · obtain ⟨rfl, rfl, hlocked⟩ := hskip
      refine .inr (.inr ⟨rfl,?_⟩)
      rw [show takes _ s = 0 from rfl, delMods_zero]
      simp [processLayerLock,locked_now.mpr hlocked]
    · refine .inl ⟨?_,fun htap hpressed hlocked => hskip ⟨htap,hpressed,hlocked⟩⟩
      simp only [processLayerLock, Prod.mk.injEq, and_true, Bool.not_eq_true', ← Bool.not_eq_true,
        Bool.and_eq_true, decide_eq_true_eq, locked_now]
      exact fun h => hskip ⟨h.1.1,by simpa using h.1.2,h.2⟩
  | layerMod layer mod =>
    by_cases hlocked : Locked layer s ∧ On layer s
    · refine .inr ?_
      cases pressed with
      | true =>
        refine .inl ⟨layer,rfl,rfl,.inr hlocked,?_⟩
        simp [processLayerLock,locked_now.mpr hlocked]
      | false =>
        refine .inr ⟨rfl,?_⟩
        rw [takes_layerMod hlocked, delMods_allOnes]
        simp [processLayerLock,locked_now.mpr hlocked]
    · exact .inl ⟨if_neg (mt locked_now.mp hlocked),hlocked⟩
  | toggleLayer layer => exact .inl ⟨rfl,trivial⟩
  | toLayer layer => exact .inl ⟨rfl,trivial⟩
  | modifier i => exact .inl ⟨rfl,trivial⟩

theorem layerLockInvert_active (h : ∀ l, Locked l s → On l s) :
    Locked l (layerLockInvert layer s) → On l (layerLockInvert layer s) := by
  by_cases hlocked : Locked layer s
  · rw [(layerLockInvert_unlock hlocked).1, (layerLockInvert_unlock hlocked).2]
    exact And.imp_left (h l)
  · rw [(layerLockInvert_lock hlocked).1, (layerLockInvert_lock hlocked).2]
    exact Or.imp_left (h l)

theorem unlockInactive_active : Locked l (unlockInactive s) → On l (unlockInactive s) := fun h =>
  on_unlockInactive.mpr (locked_unlockInactive.mp h).2

theorem processLayerLock_active (e : Event) (s : State w) (l : Nat) :
    Locked l (processLayerLock e s).2 → On l (processLayerLock e s).2 := by
  rcases processLayerLock_cases e s with ⟨heq, -⟩ | ⟨layer, -, -, -, heq⟩ | ⟨-, heq⟩
  · rw [heq]
    exact unlockInactive_active
  · rw [heq]
    exact layerLockInvert_active fun _ => unlockInactive_active
  · rw [heq]
    exact unlockInactive_active

section
variable {tappingToggle : Nat} {e : Event}

theorem process_free (h : processLayerLock e s = (true,unlockInactive s)) :
    process tappingToggle e s = processAction tappingToggle e (unlockInactive s) := by
  rw [process, h]

theorem process_skip {s' : State w} (h : processLayerLock e s = (false,s')) :
    process tappingToggle e s = s' := by
  rw [process, h]

theorem Keycode.Unlocks.unique {keycode : Keycode} {l' : Nat} (h : keycode.Unlocks l s)
    (h' : keycode.Unlocks l' s) : l = l' := by
  cases keycode <;> first | exact h.trans h'.symm | exact h.elim

theorem Free.not_unlocks (h : Free e s) (hunlocks : e.keycode.Unlocks l s) :
    ¬ (Locked l s ∧ On l s) := by
  obtain ⟨keycode, pressed, tapCount⟩ := e
  cases keycode with
  | momentary layer => exact hunlocks ▸ h
  | layerTapToggle layer => exact hunlocks ▸ h
  | layerMod layer mod => exact hunlocks ▸ h
  | layerLock => exact h.elim
  | layerTap layer code => exact hunlocks.elim
  | toggleLayer layer => exact hunlocks.elim
  | toLayer layer => exact hunlocks.elim
  | modifier i => exact hunlocks.elim

theorem press_unlocks (hpressed : e.pressed = true) (hunlocks : e.keycode.Unlocks l s)
    (hlocked : Locked l s) (hon : On l s) :
    ¬ Locked l (process tappingToggle e s) ∧ ¬ On l (process tappingToggle e s) := by
  rcases processLayerLock_cases e s with ⟨-, hfree⟩ | ⟨layer, -, hl, -, heq⟩ | ⟨hreleased, -⟩
  · exact absurd ⟨hlocked,hon⟩ (hfree.not_unlocks hunlocks)
  · have hnow : Locked l (unlockInactive s) := locked_unlockInactive.mpr ⟨hlocked,hon⟩
    rw [process_skip heq, ← hunlocks.unique hl, (layerLockInvert_unlock hnow).1,
      (layerLockInvert_unlock hnow).2]
    exact ⟨fun h => h.2 rfl,fun h => h.2 rfl⟩
  · exact absurd hpressed (by simp [hreleased])

theorem processAction_release (hreleased : e.pressed = false) (hswitches : e.keycode.switches = true)
    (hfree : Free e s) (hlocked : Locked l s) (hon : On l s) :
    On l (processAction tappingToggle e (unlockInactive s)) := by
  have hne : ∀ layer, ¬ (Locked layer s ∧ On layer s) → l ≠ layer := by
    rintro layer hnot rfl
    exact hnot ⟨hlocked,hon⟩
  have hstill : On l (unlockInactive s) := on_unlockInactive.mpr hon
  obtain ⟨keycode, pressed, tapCount⟩ := e
  cases hreleased
  cases keycode with
  | momentary layer => exact on_layerOff.mpr ⟨hstill,hne layer hfree⟩
  | layerTapToggle layer =>
    simp only [processAction, Bool.false_eq_true, if_false]
    split_ifs
    · exact (on_layerInvert (hne layer hfree)).mpr hstill
    · exact hstill
  | layerTap layer code =>
    simp only [processAction, Bool.false_eq_true, if_false]
    split_ifs with htap
    · exact hstill
    · exact on_layerOff.mpr ⟨hstill,hne layer (hfree (Nat.eq_zero_of_not_pos htap) rfl)⟩
  | layerMod layer mod => exact on_layerOff.mpr ⟨hstill,hne layer hfree⟩
  | layerLock => exact absurd hswitches Bool.false_ne_true
  | toggleLayer layer => exact absurd hswitches Bool.false_ne_true
  | toLayer layer => exact absurd hswitches Bool.false_ne_true
  | modifier i => exact absurd hswitches Bool.false_ne_true

theorem release_keeps (hreleased : e.pressed = false) (hswitches : e.keycode.switches = true)
    (hlocked : Locked l s) (hon : On l s) : On l (process tappingToggle e s) := by
  rcases processLayerLock_cases e s with ⟨heq, hfree⟩ | ⟨layer, hpressed, -⟩ | ⟨-, heq⟩
  · rw [process_free heq]
    exact processAction_release hreleased hswitches hfree hlocked hon
  · exact absurd hpressed (by simp [hreleased])
  · rw [process_skip heq]
    exact on_unlockInactive.mpr hon

theorem mods_or_zero (s : State w) : s.mods = s.mods ||| 0 := BitVec.or_zero.symm

theorem mods_and_zero (s : State w) : s.mods = s.mods &&& ~~~0 :=
  (congrArg State.mods (delMods_zero (s := s))).symm

theorem processAction_mods : (processAction tappingToggle e s).mods
    = if e.pressed then s.mods ||| keyMods e.keycode e.tapCount
      else s.mods &&& ~~~keyMods e.keycode e.tapCount := by
  obtain ⟨keycode, pressed, tapCount⟩ := e
  have hor := mods_or_zero s
  have hand := mods_and_zero s
  cases keycode <;> cases pressed <;> simp only [processAction, keyMods, if_true, if_false,
    Bool.false_eq_true] <;> (try split_ifs) <;> first | exact hor | exact hand | rfl

theorem Free.takes_eq (h : Free e s) : takes e s = keyMods e.keycode e.tapCount := by
  obtain ⟨keycode, pressed, tapCount⟩ := e
  cases keycode with
  | layerMod layer mod => exact takes_layerMod_free h
  | _ => rfl

theorem process_mods : (process tappingToggle e s).mods
    = if e.pressed then s.mods ||| pressMods e s else s.mods &&& ~~~takes e s := by
  rcases processLayerLock_cases e s with ⟨heq, hfree⟩ | ⟨layer, hpressed, -, -, heq⟩ |
    ⟨hreleased, heq⟩
  · rw [process_free heq, processAction_mods, unlockInactive_mods, hfree.takes_eq, pressMods, heq,
      if_pos rfl]
  · rw [process_skip heq, layerLockInvert_mods, unlockInactive_mods, if_pos hpressed, pressMods, heq,
      if_neg Bool.false_ne_true]
    exact mods_or_zero s
  · rw [process_skip heq, if_neg (by simp [hreleased]), delMods, unlockInactive_mods]

end

end

section
variable {w : Nat} {κ : Type} [DecidableEq κ] {tappingToggle : Nat} {v : World w κ}

/-- The modifiers that keys hold are registered. -/
def World.Holds (v : World w κ) : Prop :=
  ∀ k h, v.down k = some h → ∀ i, h.mods.getLsbD i = true → v.state.mods.getLsbD i = true

theorem kept_iff {x y : BitVec 8} {i : Nat} (h : x.getLsbD i = true) :
    (x &&& ~~~y).getLsbD i = true ↔ y.getLsbD i = false := by
  have hlt : i < 8 := bit_lt h
  rw [BitVec.getLsbD_and, BitVec.getLsbD_not, h, decide_eq_true hlt, Bool.true_and, Bool.true_and,
    Bool.not_eq_true']

omit [DecidableEq κ] in
theorem right_iff (tappingToggle : Nat) (hv : v.Holds) (input : Input κ) :
    Right tappingToggle v input ↔ Clear v input := by
  cases input with
  | idle => exact Iff.rfl
  | key k keycode tapCount =>
    simp only [Right, Clear, process_mods]
    generalize eventOf v k keycode tapCount = e
    constructor
    · rintro ⟨-, -, -, hmods⟩ hreleased k' hne h hdown i hi
      have hstill := hmods k' hne h hdown i hi
      rw [if_neg (by simp [hreleased])] at hstill
      exact (kept_iff (hv k' h hdown i hi)).mp hstill
    · intro hclear
      refine ⟨fun hreleased hswitches l => release_keeps hreleased hswitches,
        fun hpressed l => press_unlocks hpressed,processLayerLock_active e v.state,
        fun k' hne h hdown i hi => ?_⟩
      have hheld : v.state.mods.getLsbD i = true := hv k' h hdown i hi
      split_ifs with hpressed
      · rw [BitVec.getLsbD_or, hheld, Bool.true_or]
      · exact (kept_iff hheld).mpr (hclear (Bool.eq_false_iff.mpr hpressed) k' hne h hdown i hi)

theorem holds_next (tappingToggle : Nat) (hv : v.Holds) {input : Input κ} (hclear : Clear v input) :
    (next tappingToggle v input).Holds := by
  cases input with
  | idle => exact hv
  | key k keycode tapCount =>
    obtain ⟨-, -, -, hmods⟩ := (right_iff tappingToggle hv _).mpr hclear
    intro k' h hdown i hi
    by_cases heq : k' = k
    · subst heq
      simp only [next, Function.update_self] at hdown ⊢
      split_ifs at hdown with hpressed
      cases hdown
      rw [process_mods, if_pos hpressed, BitVec.getLsbD_or, hi, Bool.or_true]
    · simp only [next, Function.update_of_ne heq] at hdown
      exact hmods k' heq h hdown i hi

end

/-- In every run the locked layers and the modifiers are as promised as long as no release takes
a modifier that another key holds, which the release of an `LM` key of a locked layer does with
all of them. -/
theorem layer_lock_right_iff (w : Nat) {κ : Type} [DecidableEq κ] (tappingToggle : Nat)
    (inputs : List (Input κ)) : Along (next tappingToggle) (Right tappingToggle) (start w κ) inputs
      ↔ Along (next tappingToggle) Clear (start w κ) inputs :=
  Along.congr (fun _ input hv => right_iff tappingToggle hv input)
    (fun _ _ hv hclear => holds_next tappingToggle hv hclear)
    fun _ _ hdown => absurd hdown (Option.some_ne_none _).symm

/-- `LM(1, MOD_LSFT)` is pressed and its layer locked; its release takes the control key with it. -/
def lockedMod : List (Input Nat) :=
  [.key 0 (.layerMod 1 2) 0,.key 1 .layerLock 0,.key 1 .layerLock 0,.key 2 (.modifier 0) 0,
    .key 0 (.layerMod 1 2) 0]

theorem held_control_lost : ¬ ∀ (w tappingToggle : Nat) (inputs : List (Input Nat)),
    Along (next tappingToggle) (Right tappingToggle) (start w Nat) inputs := by
  intro h
  obtain ⟨-, -, -, -, ⟨-, -, -, hmods⟩, -⟩ := h 16 5 lockedMod
  exact absurd (hmods 2 (by decide) ⟨.modifier 0,0,1⟩ rfl 0 (by decide)) (by decide)

end QmkFirmware.LayerLock
