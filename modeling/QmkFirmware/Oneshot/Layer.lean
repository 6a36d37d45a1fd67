import Mathlib.Logic.Function.Basic
import Mathlib.Tactic.SplitIfs
import QmkFirmware.Lib.Along

/-!
One-shot layers, without a timeout, a tap toggle or swapped hands: what `process_record` does to
`oneshot_layer_data` and `layer_state`.
-/

set_option autoImplicit false

namespace QmkFirmware.Oneshot

/-- `oneshot_layer_data`: the layer in the upper five bits, the state in the lower three. -/
structure LayerData where
  layer : Nat
  state : BitVec 3
  deriving DecidableEq, Repr

def oneshotPressed : BitVec 3 := 1
def oneshotOtherKeyPressed : BitVec 3 := 2
def oneshotStart : BitVec 3 := 3

structure State where
  oneshotLayerData : LayerData
  oneshotEnable : Bool
  layerState : Nat → Bool

def layerOn (layer : Nat) (s : State) : State :=
  { s with layerState := Function.update s.layerState layer true }

def layerOff (layer : Nat) (s : State) : State :=
  { s with layerState := Function.update s.layerState layer false }

def setOneshotLayer (layer : Nat) (state : BitVec 3) (s : State) : State :=
  if s.oneshotEnable then layerOn layer { s with oneshotLayerData := ⟨layer,state⟩ }
  else layerOn layer s

def clearOneshotLayerState (state : BitVec 3) (s : State) : State :=
  let start := s.oneshotLayerData
  let s := { s with oneshotLayerData := ⟨start.layer,start.state &&& ~~~state⟩ }
  if s.oneshotLayerData.state = 0 ∧ start ≠ s.oneshotLayerData ∧ s.oneshotEnable then
    { layerOff s.oneshotLayerData.layer s with oneshotLayerData := ⟨0,0⟩ }
  else s

def isOneshotLayerActive (s : State) : Bool := decide (s.oneshotLayerData.state ≠ 0)

def oneshotSet (active : Bool) (s : State) : State :=
  if s.oneshotEnable ≠ active then
    clearOneshotLayerState oneshotOtherKeyPressed { s with oneshotEnable := active }
  else s

def oneshotToggle (s : State) : State := oneshotSet (!s.oneshotEnable) s

structure Record where
  pressed : Bool
  tapCount : Nat
  deriving DecidableEq, Repr

/-- The actions that are told apart, the last two with `action.key.code`; `quantum` is a key for
which `process_record_quantum` returns false. -/
inductive Action where
  | oneshotLayer (layer : Nat)
  | quantum
  | usage
  | modsTap (code : UInt8)
  | other (code : UInt8)
  deriving DecidableEq, Repr

def isModifierKeycode (code : UInt8) : Bool := decide (0xE0 ≤ code) && decide (code ≤ 0xE7)

/-- The one-shot layer is only cleared if the pressed key is not a modifier. The code of an
`OP_ONESHOT` action is none; `MODS_TAP_TOGGLE` is 1. -/
def clearsOneshotLayer (r : Record) : Action → Bool
  | .oneshotLayer _ => true
  | .quantum => true
  | .usage => true
  | .modsTap code => !(isModifierKeycode code || decide (code ≤ 1) || decide (r.tapCount = 0))
  | .other code => !isModifierKeycode code

def performAction (r : Record) (a : Action) (s : State) : State :=
  match a with
  | .oneshotLayer layer =>
    if s.oneshotEnable then
      if r.pressed then setOneshotLayer layer oneshotStart s
      else
        let s := clearOneshotLayerState oneshotPressed s
        if 1 < r.tapCount then clearOneshotLayerState oneshotOtherKeyPressed s else s
    else if r.pressed then layerOn layer s
    else layerOff layer s
  | _ => s

/-- The record is changed in place. The nested `process_record` is of a release, so that there is
nothing but the action in it. -/
def processAction (r : Record) (a : Action) (s : State) : Record × State :=
  let clears := isOneshotLayerActive s && r.pressed && clearsOneshotLayer r a && s.oneshotEnable
  let s := if clears then clearOneshotLayerState oneshotOtherKeyPressed s else s
  let doReleaseOneshot := clears && !isOneshotLayerActive s
  let s := performAction r a s
  if doReleaseOneshot ∧ s.oneshotLayerData.state &&& oneshotPressed = 0 then
    let r := { r with pressed := false }
    let s := layerOn s.oneshotLayerData.layer s
    let s := performAction r a s
    (r,layerOff s.oneshotLayerData.layer s)
  else (r,s)

def processRecord (r : Record) (a : Action) (s : State) : Record × State :=
  if a = .quantum then
    (r,if isOneshotLayerActive s && r.pressed && s.oneshotEnable then
        clearOneshotLayerState oneshotOtherKeyPressed s
      else s)
  else processAction r a s

section
variable {s : State}

theorem zero_low : (0 : BitVec 3) &&& 4 = 0 := by decide

theorem start_low : oneshotStart &&& 4 = 0 := by decide

theorem clear_last {bit : BitVec 3} (hbit : bit ≠ 0) (h : s.oneshotLayerData.state = bit) :
    clearOneshotLayerState bit s = if s.oneshotEnable then
        { layerOff s.oneshotLayerData.layer s with oneshotLayerData := ⟨0,0⟩ }
      else { s with oneshotLayerData := ⟨s.oneshotLayerData.layer,0⟩ } := by
  obtain ⟨⟨layer, state⟩, enable, layers⟩ := s
  dsimp only at h
  subst h
  have hnone : state &&& ~~~state = 0 := by simp
  simp only [clearOneshotLayerState, hnone]
  cases enable with
  | true => exact if_pos ⟨trivial,fun he => hbit (congrArg LayerData.state he),rfl⟩
  | false => exact if_neg fun he => Bool.false_ne_true he.2.2

theorem clear_other_bit {bit other : BitVec 3} (h : s.oneshotLayerData.state = other)
    (hother : other &&& ~~~bit ≠ 0 ∨ other = 0) :
    clearOneshotLayerState bit s
      = { s with oneshotLayerData := ⟨s.oneshotLayerData.layer,other &&& ~~~bit⟩ } := by
  obtain ⟨⟨layer, state⟩, enable, layers⟩ := s
  dsimp only at h
  subst h
  rcases hother with hne | rfl
  · exact if_neg fun he => hne he.1
  · exact if_neg fun he => he.2.1 (by simp)

end

inductive Input (κ : Type) where
  | press (key : κ) (a : Action) (tapCount : Nat)
  | release (key : κ) (tapCount : Nat)
  | enable
  | disable
  | toggle

structure Watched (κ : Type) where
  state : State
  held : κ → Option (Action × Bool)

variable {κ : Type}

def boot (enable : Bool) : Watched κ := ⟨⟨⟨0,0⟩,enable,fun _ => false⟩,fun _ => none⟩

/-- A release is handled with the action of its press. -/
def Watched.next [DecidableEq κ] (w : Watched κ) : Input κ → Watched κ
  | .press key a tapCount =>
    ⟨(processRecord ⟨true,tapCount⟩ a w.state).2,
      Function.update w.held key (some (a,w.state.oneshotEnable))⟩
  | .release key tapCount =>
    match w.held key with
    | none => w
    | some (a,_) =>
      ⟨(processRecord ⟨false,tapCount⟩ a w.state).2,Function.update w.held key none⟩
  | .enable => { w with state := oneshotSet true w.state }
  | .disable => { w with state := oneshotSet false w.state }
  | .toggle => { w with state := oneshotToggle w.state }

/-- Keys are pressed when they are up and released when they are down. -/
def Alternates (w : Watched κ) : Input κ → Prop
  | .press key _ _ => w.held key = none
  | .release key _ => w.held key ≠ none
  | _ => True

def Pending (s : State) (layer : Nat) : Prop :=
  s.oneshotLayerData.state ≠ 0 ∧ s.oneshotLayerData.layer = layer

def HeldPlain (held : κ → Option (Action × Bool)) (layer : Nat) : Prop :=
  ∃ key, held key = some (.oneshotLayer layer,false)

structure Owned (held : κ → Option (Action × Bool)) (s : State) : Prop where
  low : s.oneshotLayerData.state &&& 4 = 0
  pending : s.oneshotLayerData.state ≠ 0 → s.layerState s.oneshotLayerData.layer = true
  owned : ∀ layer, s.layerState layer = true → Pending s layer ∨ HeldPlain held layer

/-- What a step must not do: with one-shot enabled, press a one-shot layer key while another layer
waits for the release of its own, or release one that was pressed as a plain layer key; with
one-shot disabled, release one whose layer is pending; disable one-shot when only another key is
waited for. -/
def Safe [DecidableEq κ] (w : Watched κ) : Input κ → Prop
  | .press _ (.oneshotLayer layer) _ =>
    w.state.oneshotEnable = true → w.state.oneshotLayerData.state &&& oneshotPressed ≠ 0 →
      w.state.oneshotLayerData.layer = layer ∨ HeldPlain w.held w.state.oneshotLayerData.layer
  | .press _ _ _ => True
  | .release key _ =>
    ∀ layer enabled, w.held key = some (.oneshotLayer layer,enabled) →
      if w.state.oneshotEnable then
        enabled = false → w.state.layerState layer = true →
          Pending w.state layer ∨ HeldPlain (Function.update w.held key none) layer
      else ¬ Pending w.state layer
  | .enable => True
  | .disable | .toggle =>
    w.state.oneshotEnable = true → w.state.oneshotLayerData.state = oneshotOtherKeyPressed →
      HeldPlain w.held w.state.oneshotLayerData.layer

section
variable {held : κ → Option (Action × Bool)} {s s' : State} {bit : BitVec 3}

theorem owned_boot (enable : Bool) :
    Owned (boot enable : Watched κ).held (boot enable : Watched κ).state where
  low := zero_low
  pending := fun h => absurd rfl h
  owned := fun _ h => absurd h Bool.false_ne_true

/-- What clearing a bit does: the one-shot state goes on, or its layer is turned off, or the layer
is forgotten while one-shot is disabled. -/
inductive Cleared (bit : BitVec 3) (s : State) : State → Prop where
  | kept (low : (s.oneshotLayerData.state &&& ~~~bit) &&& 4 = 0)
      (same : s.oneshotLayerData.state &&& ~~~bit ≠ 0 ↔ s.oneshotLayerData.state ≠ 0) :
      Cleared bit s { s with
        oneshotLayerData := ⟨s.oneshotLayerData.layer,s.oneshotLayerData.state &&& ~~~bit⟩ }
  | off (last : s.oneshotLayerData.state = bit) (enabled : s.oneshotEnable = true) :
      Cleared bit s { layerOff s.oneshotLayerData.layer s with oneshotLayerData := ⟨0,0⟩ }
  | forgotten (last : s.oneshotLayerData.state = bit) (disabled : s.oneshotEnable = false) :
      Cleared bit s { s with oneshotLayerData := ⟨s.oneshotLayerData.layer,0⟩ }

theorem cleared (h : s.oneshotLayerData.state &&& 4 = 0)
    (hbit : bit = oneshotPressed ∨ bit = oneshotOtherKeyPressed) :
    Cleared bit s (clearOneshotLayerState bit s) := by
  by_cases hlast : s.oneshotLayerData.state = bit
  · have hne : bit ≠ 0 := by rcases hbit with rfl | rfl <;> decide
    rw [clear_last hne hlast]
    by_cases he : s.oneshotEnable = true
    · rw [if_pos he]
      exact .off hlast he
    · rw [if_neg he]
      exact .forgotten hlast (Bool.eq_false_iff.mpr he)
  · obtain ⟨hother, hlow, hsame⟩ : (s.oneshotLayerData.state &&& ~~~bit ≠ 0
        ∨ s.oneshotLayerData.state = 0)
      ∧ (s.oneshotLayerData.state &&& ~~~bit) &&& 4 = 0
      ∧ (s.oneshotLayerData.state &&& ~~~bit ≠ 0 ↔ s.oneshotLayerData.state ≠ 0) := by
      revert h hlast
      generalize s.oneshotLayerData.state = state
      rcases hbit with rfl | rfl <;> revert state <;> decide
    rw [clear_other_bit rfl hother]
    exact .kept hlow hsame

theorem Cleared.owned (hc : Cleared bit s s') (h : Owned held s)
    (hforgotten : s.oneshotEnable = false → s.oneshotLayerData.state = bit →
      HeldPlain held s.oneshotLayerData.layer) : Owned held s' := by
  cases hc with
  | kept low same =>
    exact ⟨low,fun hs => h.pending (same.mp hs),
      fun layer hl => (h.owned layer hl).imp_left fun hp => ⟨same.mpr hp.1,hp.2⟩⟩
  | off last enabled =>
    refine ⟨zero_low,fun hs => absurd rfl hs,fun layer hl => .inr ?_⟩
    by_cases hlayer : layer = s.oneshotLayerData.layer
    · simp [layerOff, hlayer] at hl
    · have hon : s.layerState layer = true := by simpa [layerOff, hlayer] using hl
      exact (h.owned layer hon).resolve_left fun hp => hlayer hp.2.symm
  | forgotten last disabled =>
    refine ⟨zero_low,fun hs => absurd rfl hs,fun layer hl => .inr ?_⟩
    rcases h.owned layer hl with hp | hheld
    · exact hp.2 ▸ hforgotten disabled last
    · exact hheld

theorem Cleared.enable (hc : Cleared bit s s') : s'.oneshotEnable = s.oneshotEnable := by
  cases hc <;> rfl

theorem Cleared.pressed (hc : Cleared oneshotOtherKeyPressed s s')
    (h : s.oneshotLayerData.state &&& 4 = 0) (hs : s'.oneshotLayerData.state ≠ 0) :
    s.oneshotLayerData.state &&& oneshotPressed ≠ 0
      ∧ s'.oneshotLayerData.layer = s.oneshotLayerData.layer := by
  cases hc with
  | kept low same =>
    refine ⟨?_, rfl⟩
    revert h hs
    dsimp only
    generalize s.oneshotLayerData.state = state
    revert state
    decide
  | off last enabled => exact absurd rfl hs
  | forgotten last disabled => exact absurd rfl hs

theorem oneshotSet_owned (active : Bool) (h : Owned held s)
    (hlast : active = false → s.oneshotEnable = true →
      s.oneshotLayerData.state = oneshotOtherKeyPressed → HeldPlain held s.oneshotLayerData.layer) :
    Owned held (oneshotSet active s) := by
  unfold oneshotSet
  split_ifs with hne
  · have hs : Owned held { s with oneshotEnable := active } := ⟨h.low,h.pending,h.owned⟩
    refine (cleared hs.low (.inr rfl)).owned hs fun hactive => hlast hactive ?_
    cases he : s.oneshotEnable with
    | true => rfl
    | false => exact absurd (he.trans hactive.symm) hne
  · exact h

theorem Owned.weaken {held' : κ → Option (Action × Bool)} (h : Owned held s)
    (hheld : ∀ layer, HeldPlain held layer → HeldPlain held' layer) : Owned held' s :=
  ⟨h.low,h.pending,fun layer hl => (h.owned layer hl).imp_right (hheld layer)⟩

theorem Owned.onOff (h : Owned held s) {layer : Nat} (hp : s.oneshotLayerData.state = 0) :
    Owned held (layerOff layer (layerOn layer s)) := by
  refine ⟨h.low,fun hs => absurd hp hs,fun l hl => ?_⟩
  by_cases he : l = layer
  · simp [layerOff, he] at hl
  · exact h.owned l (by simpa [layerOff, layerOn, he] using hl)

theorem setOneshotLayer_owned {layer : Nat} {held' : κ → Option (Action × Bool)} (h : Owned held s)
    (he : s.oneshotEnable = true)
    (hother : s.oneshotLayerData.state ≠ 0 →
      s.oneshotLayerData.layer = layer ∨ HeldPlain held s.oneshotLayerData.layer)
    (hheld : ∀ l, HeldPlain held l → HeldPlain held' l) :
    Owned held' (setOneshotLayer layer oneshotStart s) := by
  rw [setOneshotLayer, if_pos he]
  have hstart : oneshotStart ≠ 0 := by decide
  refine ⟨start_low,fun _ => by simp [layerOn],fun l hl => ?_⟩
  by_cases hlayer : l = layer
  · exact .inl ⟨hstart,hlayer.symm⟩
  · have hon : s.layerState l = true := by simpa [layerOn, hlayer] using hl
    refine .inr (hheld l ?_)
    rcases h.owned l hon with hp | hplain
    · exact hp.2 ▸ (hother hp.1).resolve_left fun he => hlayer (hp.2.symm.trans he)
    · exact hplain

theorem layerOn_owned {layer : Nat} {held' : κ → Option (Action × Bool)} (h : Owned held s)
    (hkey : HeldPlain held' layer) (hheld : ∀ l, HeldPlain held l → HeldPlain held' l) :
    Owned held' (layerOn layer s) := by
  refine ⟨h.low,fun hs => ?_,fun l hl => ?_⟩
  · have hon := h.pending hs
    by_cases hlayer : s.oneshotLayerData.layer = layer <;> simp [layerOn, hlayer, hon]
  · by_cases hlayer : l = layer
    · exact .inr (hlayer ▸ hkey)
    · exact (h.owned l (by simpa [layerOn, hlayer] using hl)).imp_right (hheld l)

theorem clear_owned (h : Owned held s) (he : s.oneshotEnable = true) :
    Owned held (clearOneshotLayerState oneshotOtherKeyPressed s) :=
  (cleared h.low (.inr rfl)).owned h fun hd => by simp [he] at hd

theorem processAction_other {tapCount : Nat} {a : Action} (h : Owned held s)
    (ha : ∀ r s, performAction r a s = s) : Owned held (processAction ⟨true,tapCount⟩ a s).2 := by
  simp only [processAction, ha]
  by_cases hc : (isOneshotLayerActive s && true && clearsOneshotLayer ⟨true,tapCount⟩ a
      && s.oneshotEnable) = true
  · have hs := clear_owned h (by simp at hc; exact hc.2)
    simp only [hc, if_true, Bool.true_and]
    split_ifs with hdone
    · exact hs.onOff (by simpa [isOneshotLayerActive] using hdone.1)
    · exact hs
  · simp only [hc, Bool.false_and, Bool.false_eq_true, false_and, if_false]
    exact h

theorem processAction_oneshotLayer {tapCount layer : Nat} {held' : κ → Option (Action × Bool)}
    (h : Owned held s)
    (hoverlap : s.oneshotEnable = true → s.oneshotLayerData.state &&& oneshotPressed ≠ 0 →
      s.oneshotLayerData.layer = layer ∨ HeldPlain held s.oneshotLayerData.layer)
    (hheld : ∀ l, HeldPlain held l → HeldPlain held' l)
    (hkey : s.oneshotEnable = false → HeldPlain held' layer) :
    Owned held' (processAction ⟨true,tapCount⟩ (.oneshotLayer layer) s).2 := by
  cases he : s.oneshotEnable with
  | false =>
    have hplain := layerOn_owned h (hkey he) hheld
    simpa [processAction, performAction, he] using hplain
  | true =>
    have hcleared : ∃ t, t = (if isOneshotLayerActive s then
          clearOneshotLayerState oneshotOtherKeyPressed s else s)
        ∧ Owned held t ∧ t.oneshotEnable = true ∧ (t.oneshotLayerData.state ≠ 0 →
          t.oneshotLayerData.layer = layer ∨ HeldPlain held t.oneshotLayerData.layer) := by
      refine ⟨_, rfl, ?_⟩
      by_cases hactive : isOneshotLayerActive s = true
      · have hc := cleared h.low (.inr rfl : oneshotOtherKeyPressed = oneshotPressed ∨ _)
        rw [if_pos hactive]
        refine ⟨clear_owned h he, hc.enable.trans he, fun hs => ?_⟩
        obtain ⟨hpressed, hlayer⟩ := hc.pressed h.low hs
        rw [hlayer]
        exact hoverlap he hpressed
      · rw [if_neg hactive]
        exact ⟨h,he,fun hs => absurd (by simpa [isOneshotLayerActive] using hs) hactive⟩
    obtain ⟨t, ht, howned, henable, hother⟩ := hcleared
    have hset := setOneshotLayer_owned howned henable hother hheld
    have hstart : (setOneshotLayer layer oneshotStart t).oneshotLayerData.state &&& oneshotPressed
        ≠ 0 := by
      rw [setOneshotLayer, if_pos henable]
      show oneshotStart &&& oneshotPressed ≠ 0
      decide
    simp only [processAction, clearsOneshotLayer, he, Bool.and_true, ← ht, performAction, henable,
      if_true, hstart, and_false, if_false]
    exact hset

theorem pressed_owned {tapCount : Nat} {a : Action} {held' : κ → Option (Action × Bool)}
    (h : Owned held s)
    (hoverlap : ∀ layer, a = .oneshotLayer layer → s.oneshotEnable = true →
      s.oneshotLayerData.state &&& oneshotPressed ≠ 0 →
        s.oneshotLayerData.layer = layer ∨ HeldPlain held s.oneshotLayerData.layer)
    (hheld : ∀ layer, HeldPlain held layer → HeldPlain held' layer)
    (hkey : ∀ layer, a = .oneshotLayer layer → s.oneshotEnable = false → HeldPlain held' layer) :
    Owned held' (processRecord ⟨true,tapCount⟩ a s).2 := by
  cases a with
  | quantum =>
    rw [processRecord, if_pos rfl]
    dsimp only
    split_ifs with hc
    · exact (clear_owned h (by simp at hc; exact hc.2)).weaken hheld
    · exact h.weaken hheld
  | oneshotLayer layer =>
    exact processAction_oneshotLayer h (hoverlap layer rfl) hheld (hkey layer rfl)
  | usage => exact (processAction_other h fun _ _ => rfl).weaken hheld
  | modsTap code => exact (processAction_other h fun _ _ => rfl).weaken hheld
  | other code => exact (processAction_other h fun _ _ => rfl).weaken hheld

theorem HeldPlain.update [DecidableEq κ] {key : κ} {layer : Nat} (h : HeldPlain held layer)
    (hkey : held key = none) (a : Option (Action × Bool)) :
    HeldPlain (Function.update held key a) layer := by
  obtain ⟨k, hk⟩ := h
  refine ⟨k, ?_⟩
  rw [Function.update_of_ne, hk]
  rintro rfl
  exact nomatch hkey.symm.trans hk

theorem HeldPlain.release [DecidableEq κ] (key : κ) {layer : Nat} (h : HeldPlain held layer) :
    held key = some (.oneshotLayer layer,false)
      ∨ HeldPlain (Function.update held key none) layer := by
  obtain ⟨k, hk⟩ := h
  by_cases he : k = key
  · exact .inl (he ▸ hk)
  · exact .inr ⟨k, by rw [Function.update_of_ne he, hk]⟩

theorem Cleared.on (hc : Cleared bit s s') {layer : Nat} (h : s'.layerState layer = true) :
    s.layerState layer = true := by
  cases hc with
  | kept low same => exact h
  | off last enabled =>
    by_cases hlayer : layer = s.oneshotLayerData.layer
    · simp [layerOff, hlayer] at h
    · simpa [layerOff, hlayer] using h
  | forgotten last disabled => exact h

theorem Cleared.stays (hc : Cleared bit s s') (he : s.oneshotEnable = true) {layer : Nat}
    (hp : Pending s layer) (h : s'.layerState layer = true) : Pending s' layer := by
  cases hc with
  | kept low same => exact ⟨same.mpr hp.1,hp.2⟩
  | off last enabled => simp [layerOff, hp.2] at h
  | forgotten last disabled => simp [he] at disabled

theorem released_enabled [DecidableEq κ] {key : κ} {layer tapCount : Nat} {enabled : Bool}
    (h : Owned held s) (hkey : held key = some (.oneshotLayer layer,enabled))
    (he : s.oneshotEnable = true)
    (hplain : enabled = false → s.layerState layer = true →
      Pending s layer ∨ HeldPlain (Function.update held key none) layer) :
    Owned (Function.update held key none)
      (performAction ⟨false,tapCount⟩ (.oneshotLayer layer) s) := by
  have hfirst := cleared h.low (.inl rfl : oneshotPressed = oneshotPressed ∨ _)
  have hnever : ∀ {t : State} {P : Prop}, t.oneshotEnable = true → t.oneshotEnable = false → P :=
    fun ht hf => absurd (ht.symm.trans hf) (by decide)
  have howned := hfirst.owned h fun hf => hnever he hf
  have hfirstOn := hfirst.enable.trans he
  obtain ⟨t, ht, hown, hon, hstays⟩ : ∃ t,
      performAction ⟨false,tapCount⟩ (.oneshotLayer layer) s = t ∧ Owned held t
        ∧ (∀ l, t.layerState l = true → s.layerState l = true)
        ∧ (Pending s layer → t.layerState layer = true → Pending t layer) := by
    refine ⟨_, rfl, ?_⟩
    simp only [performAction, he, if_true, Bool.false_eq_true, if_false]
    split_ifs
    · have hsecond := cleared howned.low (.inr rfl : oneshotOtherKeyPressed = oneshotPressed ∨ _)
      exact ⟨hsecond.owned howned fun hf => hnever hfirstOn hf,
        fun l hl => hfirst.on (hsecond.on hl),
        fun hp hl => hsecond.stays hfirstOn (hfirst.stays he hp (hsecond.on hl)) hl⟩
    · exact ⟨howned,fun l hl => hfirst.on hl,fun hp hl => hfirst.stays he hp hl⟩
  rw [ht]
  refine ⟨hown.low,hown.pending,fun l hl => ?_⟩
  rcases hown.owned l hl with hp | hheld
  · exact .inl hp
  · rcases hheld.release key with hk | hother
    · rw [hkey] at hk
      cases hk
      exact (hplain rfl (hon _ hl)).imp_left fun hp => hstays hp hl
    · exact .inr hother

theorem released_disabled [DecidableEq κ] {key : κ} {layer tapCount : Nat} {enabled : Bool}
    (h : Owned held s) (hkey : held key = some (.oneshotLayer layer,enabled))
    (he : s.oneshotEnable = false) (hpending : ¬ Pending s layer) :
    Owned (Function.update held key none)
      (performAction ⟨false,tapCount⟩ (.oneshotLayer layer) s) := by
  simp only [performAction, he, Bool.false_eq_true, if_false]
  refine ⟨h.low,fun hs => ?_,fun l hl => ?_⟩
  · have hlayer : s.oneshotLayerData.layer ≠ layer := fun hl => hpending ⟨hs,hl⟩
    simpa [layerOff, hlayer] using h.pending hs
  · have hne : l ≠ layer := fun heq => by simp [layerOff, heq] at hl
    rcases h.owned l (by simpa [layerOff, hne] using hl) with hp | hheld
    · exact .inl hp
    · refine .inr ((hheld.release key).resolve_left fun hk => hne ?_)
      rw [hkey] at hk
      cases hk
      rfl

theorem processRecord_released {tapCount : Nat} {a : Action} :
    (processRecord ⟨false,tapCount⟩ a s).2 = performAction ⟨false,tapCount⟩ a s := by
  cases a <;> simp [processRecord, processAction, performAction]

theorem next_owned [DecidableEq κ] {w : Watched κ} {i : Input κ} (h : Owned w.held w.state)
    (ha : Alternates w i) (hs : Safe w i) : Owned (w.next i).held (w.next i).state := by
  cases i with
  | press key a tapCount =>
    refine pressed_owned h ?_ (fun l hl => hl.update ha _) ?_
    · rintro layer rfl
      exact hs
    · rintro layer rfl he
      exact ⟨key, (Function.update_self ..).trans (by rw [he])⟩
  | release key tapCount =>
    cases hkey : w.held key with
    | none => exact absurd hkey ha
    | some entry =>
      obtain ⟨a, enabled⟩ := entry
      simp only [Watched.next, hkey, processRecord_released]
      have hother : (∀ layer, a ≠ .oneshotLayer layer) →
          Owned (Function.update w.held key none) w.state := fun hne =>
        h.weaken fun l hl => (hl.release key).resolve_left fun hk => by
          rw [hkey] at hk
          cases hk
          exact hne _ rfl
      cases a with
      | oneshotLayer layer =>
        have hsafe := hs layer enabled hkey
        cases he : w.state.oneshotEnable with
        | true =>
          rw [if_pos he] at hsafe
          exact released_enabled h hkey he hsafe
        | false =>
          rw [if_neg (by simp [he])] at hsafe
          exact released_disabled h hkey he hsafe
      | quantum => exact hother fun _ => Action.noConfusion
      | usage => exact hother fun _ => Action.noConfusion
      | modsTap code => exact hother fun _ => Action.noConfusion
      | other code => exact hother fun _ => Action.noConfusion
  | enable => exact oneshotSet_owned true h fun ht => absurd ht (by decide)
  | disable => exact oneshotSet_owned false h fun _ => hs
  | toggle => exact oneshotSet_owned _ h fun _ => hs

end

/-- With no key down and no one-shot layer active, no layer is on; a pending layer is on. -/
structure NothingStuck (w : Watched κ) : Prop where
  off : (∀ key, w.held key = none) → isOneshotLayerActive w.state = false →
    ∀ layer, w.state.layerState layer = false
  on : isOneshotLayerActive w.state = true →
    w.state.layerState w.state.oneshotLayerData.layer = true

/-- No layer is left on by any run of safe steps. -/
theorem no_stuck_layer [DecidableEq κ] {enable : Bool} {inputs : List (Input κ)}
    (h : Along Watched.next (fun w i => Alternates w i ∧ Safe w i) (boot enable) inputs) :
    NothingStuck (inputs.foldl Watched.next (boot enable)) := by
  have howned := h.invariant (I := fun w => Owned w.held w.state)
    (fun w i hw hi => next_owned hw hi.1 hi.2) (owned_boot enable)
  refine ⟨fun hup hidle layer => ?_,fun hactive => howned.pending ?_⟩
  · by_contra hon
    rcases howned.owned layer (by simpa using hon) with hp | ⟨key, hkey⟩
    · exact hp.1 (by simpa [isOneshotLayerActive] using hidle)
    · exact nomatch (hup key).symm.trans hkey
  · simpa [isOneshotLayerActive] using hactive

def oneLayer : List (Input Nat) :=
  [.press 0 (.oneshotLayer 1) 1,.release 0 1,.press 1 (.other 4) 0,.release 1 0,
    .press 0 (.oneshotLayer 1) 1,.press 1 (.other 4) 0,.release 0 1,.release 1 0]

theorem no_stuck_layer_oneLayer : NothingStuck (oneLayer.foldl Watched.next (boot true)) :=
  no_stuck_layer <| by
    have hrelease : ∀ {w : Watched Nat} {key tapCount : Nat} {a : Action},
        w.held key = some (a,true) → w.state.oneshotEnable = true →
          Safe w (.release key tapCount) := fun hkey he layer enabled hl => by
      rw [if_pos he]
      rw [hkey] at hl
      cases hl
      exact fun hf => absurd hf (by decide)
    exact ⟨⟨rfl,fun _ h => absurd rfl h⟩,⟨Option.some_ne_none _,hrelease rfl rfl⟩,⟨rfl,trivial⟩,
      ⟨Option.some_ne_none _,hrelease rfl rfl⟩,⟨rfl,fun _ h => absurd rfl h⟩,⟨rfl,trivial⟩,
      ⟨Option.some_ne_none _,hrelease rfl rfl⟩,⟨Option.some_ne_none _,hrelease rfl rfl⟩,trivial⟩

/-- Two one-shot layer keys at a time, then another key. -/
def twoLayers : List (Input Nat) :=
  [.press 0 (.oneshotLayer 1) 1,.press 1 (.oneshotLayer 2) 1,.release 0 1,.release 1 1,
    .press 2 (.other 4) 0,.release 2 0]

theorem layer_stuck :
    Along Watched.next Alternates (boot true) twoLayers
      ∧ (∀ key, (twoLayers.foldl Watched.next (boot true)).held key = none)
      ∧ isOneshotLayerActive (twoLayers.foldl Watched.next (boot true)).state = false
      ∧ (twoLayers.foldl Watched.next (boot true)).state.layerState 1 = true
      ∧ ¬ NothingStuck (twoLayers.foldl Watched.next (boot true)) := by
  have hup : ∀ key, (twoLayers.foldl Watched.next (boot true)).held key = none := fun
    | 0 | 1 | 2 => rfl
    | _+3 => rfl
  have hidle : isOneshotLayerActive (twoLayers.foldl Watched.next (boot true)).state = false := by
    decide
  have hon : (twoLayers.foldl Watched.next (boot true)).state.layerState 1 = true := by decide
  refine ⟨⟨rfl,rfl,Option.some_ne_none _,Option.some_ne_none _,rfl,Option.some_ne_none _,trivial⟩,
    hup, hidle, hon, fun h => ?_⟩
  rw [h.off hup hidle 1] at hon
  exact absurd hon (by decide)

end QmkFirmware.Oneshot
