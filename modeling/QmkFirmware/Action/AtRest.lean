import QmkFirmware.Action.Held
import QmkFirmware.Lib.Along

/-!
Nothing is stuck: behind all that the host sees and behind every layer that is on there is a key
that is down, but for what the actions leave on purpose.
-/

set_option autoImplicit false

namespace QmkFirmware.Action

open Tapping (KeyPos actionKind)
open Report (isKeyPressed)

variable {b : Build}

/-- What an action does not touch: the source layers, and whether one-shot keys are on. -/
def source (s : State b) : Layers.Caches × Bool × Bool :=
  (s.layers.caches,s.layers.disableActionCache,s.oneshotEnable)

theorem source_disable {s s' : State b} (h : source s = source s') :
    s.layers.disableActionCache = s'.layers.disableActionCache := congrArg (·.2.1) h

theorem source_oneshot {s s' : State b} (h : source s = source s') :
    s.oneshotEnable = s'.oneshotEnable := congrArg (·.2.2) h

/-- What an action without a layer does not touch: the one-shot layer is left as well. -/
def frame (s : State b) : (Layers.Caches × Bool × Bool) × Oneshot.LayerData :=
  (source s,s.oneshotLayerData)

theorem frame_registerCode (code : UInt8) (s : State b) :
    frame (registerCode code s) = frame s := by
  have hsystem : ∀ usage, frame (hostSystemSend usage s) = frame s := fun _ => rfl
  have hconsumer : ∀ usage, frame (hostConsumerSend usage s) = frame s := fun _ => rfl
  unfold registerCode
  cases codeKind code with
  | basic =>
    dsimp only
    split <;> rfl
  | system => exact hsystem _
  | consumer => exact hconsumer _
  | no | modifier | mouse | none => rfl

theorem frame_unregisterCode (code : UInt8) (s : State b) :
    frame (unregisterCode code s) = frame s := by
  unfold unregisterCode
  split <;> rfl

theorem frame_registerMods (mods : BitVec 8) (s : State b) :
    frame (registerMods mods s) = frame s := by
  unfold registerMods
  split <;> rfl

theorem frame_unregisterMods (mods : BitVec 8) (s : State b) :
    frame (unregisterMods mods s) = frame s := by
  unfold unregisterMods
  split <;> rfl

theorem frame_modsKey (mods : BitVec 8) (code : UInt8) (pressed : Bool) (s : State b) :
    frame (modsKey mods code pressed s) = frame s := by
  unfold modsKey
  dsimp only
  split_ifs
  · exact frame_registerCode code _
  · exact frame_registerCode code _
  · exact frame_registerCode code s
  · exact frame_unregisterCode code s
  · exact frame_unregisterCode code s
  · exact frame_unregisterCode code s

theorem frame_oneshotModsKey (mods : BitVec 8) (pressed : Bool) (tapCount : Nat) (s : State b) :
    frame (oneshotModsKey mods pressed tapCount s) = frame s := by
  unfold oneshotModsKey
  split_ifs
  · exact frame_modsKey _ _ _ s
  · exact frame_registerMods mods s
  · rfl
  · rfl
  · exact frame_unregisterMods mods s
  · rfl

theorem frame_tapKey {free hold : State b → State b} (code : UInt8) (pressed : Bool)
    (tapCount : Nat) (s : State b) (hhold : frame (hold s) = frame s)
    (hfree : frame (free s) = frame s) :
    frame (if 0 < tapCount then if pressed then registerCode code s else unregisterCode code s
      else if pressed then hold s else free s) = frame s := by
  split_ifs
  · exact frame_registerCode code s
  · exact frame_unregisterCode code s
  · exact hhold
  · exact hfree

theorem frame_modsTapKey (mods : BitVec 8) (code : UInt8) (pressed : Bool) (tapCount : Nat)
    (s : State b) : frame (modsTapKey mods code pressed tapCount s) = frame s := by
  unfold modsTapKey
  split
  · exact frame_oneshotModsKey mods pressed tapCount s
  · split_ifs
    · exact frame_registerMods mods s
    · rfl
    · exact frame_unregisterMods mods s
    · rfl
  · exact frame_tapKey code pressed tapCount s (frame_registerMods mods s)
      (frame_unregisterMods mods s)

theorem source_clearOneshot (state : BitVec 3) (s : State b) :
    source (clearOneshotLayerState state s) = source s := by
  unfold clearOneshotLayerState
  dsimp only
  split <;> rfl

theorem source_oneshotLayerKey (layer : Nat) (pressed : Bool) (tapCount : Nat) (s : State b) :
    source (oneshotLayerKey layer pressed tapCount s) = source s := by
  unfold oneshotLayerKey setOneshotLayer
  dsimp only
  split_ifs
  all_goals first | rfl | exact source_clearOneshot _ s | skip
  exact (source_clearOneshot _ _).trans (source_clearOneshot _ s)

theorem source_performAction (pressed : Bool) (tapCount : Nat) (act : Act) (s : State b) :
    source (performAction pressed tapCount act s) = source s := by
  unfold performAction
  cases act with
  | mods mods code => exact congrArg Prod.fst (frame_modsKey mods code pressed s)
  | modsTap mods code => exact congrArg Prod.fst (frame_modsTapKey mods code pressed tapCount s)
  | usage page code =>
    dsimp only
    split_ifs <;> rfl
  | mousekey code => rfl
  | layer op on part xbit bits =>
    dsimp only [layerKey]
    split_ifs <;> rfl
  | layerMods layer mods =>
    dsimp only
    split
    · exact congrArg Prod.fst (frame_registerMods mods (layerOn layer s))
    · exact congrArg Prod.fst (frame_unregisterMods mods s)
  | layerTap val code =>
    dsimp only [layerTapKey]
    split
    · split_ifs <;> rfl
    · split <;> rfl
    · split <;> rfl
    · split <;> rfl
    · exact source_oneshotLayerKey val pressed tapCount s
    · exact congrArg Prod.fst (frame_tapKey code pressed tapCount s rfl rfl)
  | other => rfl

theorem source_processAction (r : Record) (a : UInt16) (s : State b) :
    source (processAction r a s).2 = source s := by
  unfold processAction
  dsimp only
  rw [source_performAction]
  split
  · exact source_clearOneshot _ s
  · rfl

theorem decode_noLayer {a : UInt16} (ha : isLayerAction a = false) :
    (∃ mods code, decode a = .mods mods code) ∨ (∃ mods code, decode a = .modsTap mods code)
      ∨ (∃ page code, decode a = .usage page code) ∨ (∃ code, decode a = .mousekey code)
      ∨ decode a = .other := by
  unfold isLayerAction at ha
  unfold decode
  dsimp only
  split
  all_goals first | exact .inl ⟨_,_,rfl⟩ | exact .inr (.inl ⟨_,_,rfl⟩) | skip
  · exact .inr (.inr (.inl ⟨_,_,rfl⟩))
  · exact .inr (.inr (.inr (.inl ⟨_,rfl⟩)))
  all_goals simp_all

theorem frame_performAction {pressed : Bool} {tapCount : Nat} {a : UInt16}
    (ha : isLayerAction a = false) (s : State b) :
    frame (performAction pressed tapCount (decode a) s) = frame s := by
  rcases decode_noLayer ha with ⟨mods,code,h⟩ | ⟨mods,code,h⟩ | ⟨page,code,h⟩ | ⟨code,h⟩ | h <;> rw [h]
  · exact frame_modsKey mods code pressed s
  · exact frame_modsTapKey mods code pressed tapCount s
  · dsimp only [performAction]
    split_ifs <;> rfl
  · rfl
  · rfl

variable {s : State b} {r : Record}

theorem MovesWhen.processAction {X Y : Item → Prop} {oneshot : Bool} {a : UInt16}
    (h : MovesWhen (b := b) oneshot X Y (performAction r.pressed r.tapCount (decode a))) :
    MovesWhen (b := b) oneshot X Y fun s => (processAction r a s).2 := by
  intro B B' s he hs hB hB'
  unfold Action.processAction
  dsimp only
  split
  · refine h B B' _ ((source_oneshot (source_clearOneshot _ s)).trans he) ?_ hB hB'
    exact moves_clearOneshotLayerState _ B B s hs (fun _ => .inr) fun _ => False.elim
  · exact h B B' s he hs hB hB'

theorem moves_processAction_press (hr : r.pressed = true) (a : UInt16) (oneshot : Bool) :
    MovesWhen (b := b) oneshot nothing (fun item => keeps b oneshot r.tapCount (decode a) item
        ∨ leaves b oneshot r.tapCount (decode a) item)
      fun s => (processAction r a s).2 :=
  MovesWhen.processAction (hr ▸ moves_press oneshot r.tapCount (decode a))

theorem moves_processAction_release (hr : r.pressed = false) (a : UInt16) (oneshot : Bool) :
    MovesWhen (b := b) oneshot (keeps b oneshot r.tapCount (decode a))
      (leaves b oneshot r.tapCount (decode a)) fun s => (processAction r a s).2 :=
  MovesWhen.processAction (hr ▸ moves_release oneshot r.tapCount (decode a))

theorem store_press (key : KeyPos) (hcache : s.layers.disableActionCache = false) :
    let layer := Layers.layerSwitchGetLayer key s.layers
    (storeOrGetAction true key s).1 = b.layers.actionForKey layer key
      ∧ source (storeOrGetAction true key s).2
        = (b.layers.updateSourceLayersCache key layer s.layers.caches,false,s.oneshotEnable) := by
  simp [storeOrGetAction, Layers.storeOrGetAction, source, hcache]

def sourceAction (key : KeyPos) (s : State b) : UInt16 :=
  b.layers.actionForKey (b.layers.readSourceLayersCache key s.layers.caches) key

theorem store_release (key : KeyPos) (hcache : s.layers.disableActionCache = false) :
    storeOrGetAction false key s = (sourceAction key s,s) := by
  simp [storeOrGetAction, Layers.storeOrGetAction, sourceAction, hcache]

theorem sourceAction_congr {s' : State b} (key : KeyPos) (h : source s = source s') :
    sourceAction key s = sourceAction key s' := by
  rw [sourceAction, show s.layers.caches = s'.layers.caches from congrArg Prod.fst h]
  rfl

theorem sourceAction_pressed {key : KeyPos} (hm : b.layers.inMatrix key = true)
    (hcache : s.layers.disableActionCache = false) :
    sourceAction key (storeOrGetAction true key s).2 = (storeOrGetAction true key s).1 := by
  have hstored : b.layers.stored key = true := by simp [Layers.Config.stored, hm]
  have hself := Layers.Config.read_update_key (Layers.layerSwitchGetLayer_fits key s.layers) hstored
    hstored s.layers.caches
  rw [if_pos (by simp [Layers.Config.sameEntry])] at hself
  rw [(store_press key hcache).1, sourceAction, show (storeOrGetAction true key s).2.layers.caches
    = _ from congrArg Prod.fst (store_press key hcache).2, hself]

theorem sourceAction_other {k key : KeyPos} (hm : b.layers.inMatrix k = true) (hk : k ≠ key)
    (hcache : s.layers.disableActionCache = false) (pressed : Bool) :
    sourceAction k (storeOrGetAction pressed key s).2 = sourceAction k s := by
  cases pressed with
  | true =>
    rw [sourceAction, show (storeOrGetAction true key s).2.layers.caches = _ from
      congrArg Prod.fst (store_press key hcache).2, Layers.Config.read_update_matrix
      (Layers.layerSwitchGetLayer_fits key s.layers) hm hk.symm s.layers.caches]
    rfl
  | false => rw [store_release key hcache]

theorem source_store (pressed : Bool) (key : KeyPos) (hcache : s.layers.disableActionCache = false) :
    (storeOrGetAction pressed key s).2.layers.disableActionCache = false := by
  cases pressed with
  | true => exact congrArg (·.2.1) (store_press key hcache).2
  | false =>
    rw [store_release key hcache]
    exact hcache

theorem source_processRelease (r : Record) (hcache : s.layers.disableActionCache = false) :
    source (processRelease r s) = source s := by
  rw [processRelease, store_release r.key hcache, source_processAction]

theorem source_processRecord (r : Record) (hcache : s.layers.disableActionCache = false) :
    source (processRecord true r s) = source s
      ∧ source (processRecord false r s) = source (storeOrGetAction r.pressed r.key s).2 := by
  constructor
  · simp only [processRecord, if_true]
    split
    · exact source_clearOneshot _ s
    · rfl
  · have hdone := source_processAction r (storeOrGetAction r.pressed r.key s).1
      (storeOrGetAction r.pressed r.key s).2
    simp only [processRecord, Bool.false_eq_true, if_false]
    split
    · refine .trans ?_ hdone
      refine source_processRelease r ?_
      exact (source_disable hdone).trans (source_store r.pressed r.key hcache)
    · exact hdone

theorem processAction_releases {a : UInt16} (h : (processAction r a s).1 = true) :
    r.pressed = true ∧ isLayerAction a = false := by
  simp only [processAction, Bool.and_eq_true, Bool.not_eq_true'] at h
  exact ⟨h.1.1.1.1.1.2,h.1.2⟩

theorem within_store {B : Item → Prop} (h : Within B s) (pressed : Bool) (key : KeyPos) :
    Within B (storeOrGetAction pressed key s).2 := by
  have hlayers : (Layers.storeOrGetAction pressed key s.layers).2.layerState
      = s.layers.layerState := by
    unfold Layers.storeOrGetAction
    split_ifs <;> rfl
  refine ⟨fun item hitem => h.has item ?_,h.codes,h.mods⟩
  cases item with
  | layer l =>
    simp only [Has, storeOrGetAction, hlayers] at hitem
    exact hitem
  | _ => exact hitem

theorem early_release_within {B : Item → Prop} (h : Within B s) {a : UInt16}
    (hlayer : isLayerAction a = false) (hcache : s.layers.disableActionCache = false)
    (ha : sourceAction r.key s = a)
    (hB : ∀ item, leaves b s.oneshotEnable r.tapCount (decode a) item → B item) :
    let released := processRelease r (layerOn s.oneshotLayerData.layer s)
    Within B (layerOff released.oneshotLayerData.layer released) := by
  have hon : Within (fun item => item = .layer s.oneshotLayerData.layer ∨ B item)
      (layerOn s.oneshotLayerData.layer s) :=
    moves_layerOn _ B _ s h (fun _ => (.inr <| .inr ·)) fun _ => .inl
  have hrelease : processRelease r (layerOn s.oneshotLayerData.layer s)
      = (processAction { r with pressed := false } a (layerOn s.oneshotLayerData.layer s)).2 := by
    have hstored := store_release (s := layerOn s.oneshotLayerData.layer s) r.key hcache
    rw [show sourceAction r.key (layerOn s.oneshotLayerData.layer s) = a from ha] at hstored
    rw [processRelease, hstored]
  have hdata : (processRelease r (layerOn s.oneshotLayerData.layer s)).oneshotLayerData
      = s.oneshotLayerData := by
    rw [hrelease]
    simp only [processAction, Bool.and_false, Bool.false_and, Bool.false_eq_true, if_false]
    exact congrArg Prod.snd (frame_performAction hlayer _)
  have hfree : Within (fun item => item = .layer s.oneshotLayerData.layer ∨ B item)
      (processRelease r (layerOn s.oneshotLayerData.layer s)) := by
    rw [hrelease]
    exact moves_processAction_release (r := { r with pressed := false }) rfl a s.oneshotEnable
      _ _ _ rfl hon (fun _ => .inr) fun item hitem => .inr (hB item hitem)
  intro released
  rw [show released.oneshotLayerData = s.oneshotLayerData from hdata]
  exact moves_layerOff _ _ B _ hfree (fun _ => id) fun _ => False.elim

theorem press_within {B B' : Item → Prop} (h : Within B s) (hr : r.pressed = true)
    (hm : b.layers.inMatrix r.key = true) (hcache : s.layers.disableActionCache = false)
    (hB : ∀ item, B item → B' item)
    (hB' : ∀ item,
      keeps b s.oneshotEnable r.tapCount (decode (storeOrGetAction true r.key s).1) item
        ∨ leaves b s.oneshotEnable r.tapCount (decode (storeOrGetAction true r.key s).1) item →
      B' item) :
    Within B' (processRecord false r s) := by
  have hstore := within_store h true r.key
  have henable : (storeOrGetAction true r.key s).2.oneshotEnable = s.oneshotEnable := rfl
  have hstored := sourceAction_pressed hm hcache
  have hon := source_store true r.key hcache
  simp only [processRecord, Bool.false_eq_true, if_false, hr]
  generalize storeOrGetAction true r.key s = stored at hstored hon hstore hB' henable
  have hdone : Within B' (processAction r stored.1 stored.2).2 :=
    moves_processAction_press hr stored.1 _ B B' _ henable hstore
      (fun item hitem => .inr (hB item hitem)) hB'
  have hsame := source_processAction r stored.1 stored.2
  have henable' := (source_oneshot hsame).trans henable
  split
  · rename_i hrelease
    exact early_release_within hdone (processAction_releases hrelease).2
      ((source_disable hsame).trans hon) ((sourceAction_congr r.key hsame).trans hstored)
      fun item hitem => hB' item (.inr (henable' ▸ hitem))
  · exact hdone

theorem release_within {B B' : Item → Prop} (h : Within B s) (hr : r.pressed = false)
    (hcache : s.layers.disableActionCache = false) {a : UInt16} (ha : sourceAction r.key s = a)
    (hB : ∀ item, B item → keeps b s.oneshotEnable r.tapCount (decode a) item ∨ B' item)
    (hB' : ∀ item, leaves b s.oneshotEnable r.tapCount (decode a) item → B' item) :
    Within B' (processRecord false r s) := by
  simp only [processRecord, Bool.false_eq_true, if_false, hr, store_release r.key hcache, ha]
  split
  · rename_i hrelease
    exact absurd (processAction_releases hrelease).1 (by simp [hr])
  · exact moves_processAction_release hr a s.oneshotEnable B B' s rfl h hB hB'

theorem consumed_within {B : Item → Prop} (h : Within B s) (r : Record) :
    Within B (processRecord true r s) := by
  simp only [processRecord, if_true]
  split
  · exact moves_clearOneshotLayerState _ B B s h (fun _ => .inr) fun _ => False.elim
  · exact h

/-- A key from its press to its release. -/
structure Held where
  consumed : Bool
  action : UInt16
  tapCount : Nat

/-- What the last report shows. -/
def Reported (s : State b) : Item → Prop
  | .code code => isKeyPressed b.nkro code s.lastReport.2 = true
  | .mod i | .weak i | .oneshot i => s.lastReport.1.getLsbD i = true
  | .system | .consumer | .mouse _ | .layer _ => False

def Shown (s : State b) (item : Item) : Prop := Has s item ∨ Reported s item

theorem Within.shown {B : Item → Prop} (h : Within B s) :
    Within (fun item => B item ∧ Shown s item) s where
  has item hitem := ⟨h.has item hitem,.inl hitem⟩
  codes code hcode := ⟨h.codes code hcode,.inr hcode⟩
  mods i hi := (h.mods i hi).imp (⟨·,.inr hi⟩) (.imp (⟨·,.inr hi⟩) (⟨·,.inr hi⟩))

/-- The keys that are down, and what actions and other code have left: from then on, as long as it
is shown without a break. -/
structure World (b : Build) where
  state : State b
  down : KeyPos → Option Held
  left : Item → Prop

def World.step (v : World b) (state : State b) (down : KeyPos → Option Held)
    (added : Item → Prop) : World b :=
  ⟨state,down,fun item => (v.left item ∨ added item) ∧ Shown state item⟩

/-- A press comes to `action_exec`, a record to `process_record`, one-shot keys are switched on or
off, and other code sets the layers. -/
inductive Input (b : Build) where
  | arrival
  | record (consumed : Bool) (r : Record)
  | oneshot (active : Bool)
  | layers (state defaultState : BitVec b.layers.size.width)

def start (defaultState : BitVec b.layers.size.width) (oneshot : Bool) : World b where
  state := {
    layers := ⟨⟨fun _ _ => 0,fun _ _ => 0⟩,0,defaultState,false⟩
    oneshotLayerData := ⟨0,0⟩
    oneshotEnable := oneshot
    realMods := 0
    weakMods := 0
    oneshotMods := 0
    report := .empty
    lastReport := (0,.empty)
    lastSystemUsage := 0
    lastConsumerUsage := 0
    mouse := fun _ => false }
  down := fun _ => none
  left := nothing

/-- What a record that is not consumed leaves. -/
def leftBehind (consumed : Bool) (r : Record) (s : State b) (item : Item) : Prop :=
  consumed = false ∧ leaves b s.oneshotEnable r.tapCount
    (decode (storeOrGetAction r.pressed r.key s).1) item

def next (v : World b) : Input b → World b
  | .arrival => v.step (clearWeakMods v.state) v.down nothing
  | .record consumed r =>
    let held := ⟨consumed,(storeOrGetAction true r.key v.state).1,r.tapCount⟩
    v.step (processRecord consumed r v.state)
      (Function.update v.down r.key (if r.pressed then some held else none))
      (leftBehind consumed r v.state)
  | .oneshot active => v.step (oneshotSet active v.state) v.down nothing
  | .layers state defaultState =>
    v.step (defaultLayerSet defaultState (layerStateSet state v.state)) v.down fun item =>
      ∃ l, item = .layer l ∧ state.getLsbD l = true

/-- Keys of the matrix are pressed and released in turn, and a release is as its press: it is
consumed if that was and has the same tap count. One-shot keys are not switched while one is
down. -/
def Right (v : World b) : Input b → Prop
  | .record consumed r =>
    if r.pressed then b.layers.inMatrix r.key = true ∧ v.down r.key = none
    else ∃ a, v.down r.key = some ⟨consumed,a,r.tapCount⟩
  | .oneshot active => active = v.state.oneshotEnable
    ∨ ∀ k h, v.down k = some h → h.consumed = false → isOneshotKey (decode h.action) = false
  | _ => True

/-- A key that is down holds it. -/
def HeldDown (v : World b) (item : Item) : Prop :=
  ∃ k h, v.down k = some h ∧ h.consumed = false
    ∧ keeps b v.state.oneshotEnable h.tapCount (decode h.action) item

/-- Only these are ever left. -/
def Lasting (item : Item) : Prop := (∃ i, item = .mod i ∨ item = .oneshot i) ∨ ∃ l, item = .layer l

theorem leaves_lasting {oneshot : Bool} {tapCount : Nat} {act : Act} {item : Item}
    (h : leaves b oneshot tapCount act item) : Lasting item := by
  simp only [leaves] at h
  split at h
  · split at h
    · cases item with
      | oneshot i => exact .inl ⟨i,.inr rfl⟩
      | _ => exact h.2.2.elim
    · cases item with
      | mod i => exact .inl ⟨i,.inl rfl⟩
      | _ => exact h.2.elim
    · exact h.elim
  · obtain ⟨-,-,l,rfl,-⟩ := h
    exact .inr ⟨l,rfl⟩
  · split at h
    all_goals first | exact .inr ⟨_,h⟩ | exact .inr ⟨_,h.2⟩ | exact h.elim
  · exact h.elim

structure Inv (v : World b) : Prop where
  cache : v.state.layers.disableActionCache = false
  matrix : ∀ k h, v.down k = some h → b.layers.inMatrix k = true
  action : ∀ k h, v.down k = some h → h.consumed = false → sourceAction k v.state = h.action
  lasting : ∀ item, v.left item → Lasting item
  within : Within (fun item => HeldDown v item ∨ v.left item) v.state

variable {v : World b}

theorem start_inv (defaultState : BitVec b.layers.size.width) (oneshot : Bool) :
    Inv (start defaultState oneshot) where
  cache := rfl
  matrix := nofun
  action := nofun
  lasting _ := False.elim
  within := by
    have hempty : ∀ code, isKeyPressed b.nkro code .empty ≠ true := fun code h =>
      Bool.false_ne_true ((Report.pressed_empty b.nkro code).symm.trans h)
    refine ⟨fun item hitem => ?_,fun code h => (hempty code h).elim,fun i h => ?_⟩
    · cases item with
      | code code => exact (hempty code hitem).elim
      | system => exact absurd rfl hitem
      | consumer => exact absurd rfl hitem
      | mouse code => exact absurd hitem Bool.false_ne_true
      | _ => simp [Has, start] at hitem
    · simp [start] at h

theorem Inv.step (h : Inv v) {state : State b} {down : KeyPos → Option Held}
    {added : Item → Prop} (hcache : state.layers.disableActionCache = false)
    (hmatrix : ∀ k h, down k = some h → b.layers.inMatrix k = true)
    (haction : ∀ k h, down k = some h → h.consumed = false → sourceAction k state = h.action)
    (hadded : ∀ item, added item → Lasting item)
    (hwithin : Within (fun item => HeldDown (v.step state down added) item
      ∨ v.left item ∨ added item) state) : Inv (v.step state down added) where
  cache := hcache
  matrix := hmatrix
  action := haction
  lasting item hitem := hitem.1.elim (h.lasting item) (hadded item)
  within := hwithin.shown.mono fun _ ⟨hitem,hshown⟩ => hitem.imp_right (⟨·,hshown⟩)

theorem Inv.other (h : Inv v) {state : State b} (hsource : source state = source v.state)
    {added : Item → Prop} (hadded : ∀ item, added item → Lasting item)
    (hwithin : Within (fun item => HeldDown v item ∨ v.left item ∨ added item) state) :
    Inv (v.step state v.down added) := by
  refine h.step ((source_disable hsource).trans h.cache) h.matrix (fun k held hk hc =>
    (sourceAction_congr k hsource).trans (h.action k held hk hc)) hadded
    (hwithin.mono fun item => Or.imp_left ?_)
  rintro ⟨k,held,hk,hc,hkeep⟩
  refine ⟨k,held,hk,hc,?_⟩
  rwa [show (v.step state v.down added).state.oneshotEnable = _ from source_oneshot hsource]

theorem caches_oneshotSet (active : Bool) (s : State b) :
    (oneshotSet active s).layers.caches = s.layers.caches
      ∧ (oneshotSet active s).layers.disableActionCache = s.layers.disableActionCache
      ∧ (oneshotSet active s).oneshotEnable = active := by
  unfold oneshotSet
  split
  · have hsource := source_clearOneshot Oneshot.oneshotOtherKeyPressed { s with oneshotEnable := active }
    exact ⟨congrArg Prod.fst hsource,(source_disable hsource).trans rfl,source_oneshot hsource⟩
  · rename_i hsame
    exact ⟨rfl,rfl,Decidable.not_not.mp hsame⟩

theorem oneshotSet_within {B : Item → Prop} (h : Within B s) (active : Bool) :
    Within B (oneshotSet active s) := by
  unfold oneshotSet
  split
  · refine moves_clearOneshotLayerState _ B B _ ?_ (fun _ => .inr) fun _ => False.elim
    exact ⟨fun item hitem => h.has item (by cases item <;> exact hitem),h.codes,h.mods⟩
  · exact h

theorem Inv.switch (h : Inv v) {active : Bool} (hright : Right v (.oneshot active)) :
    Inv (next v (.oneshot active)) := by
  obtain ⟨hcaches,hdisable,henable⟩ := caches_oneshotSet active v.state
  refine h.step (hdisable.trans h.cache) h.matrix (fun k held hk hc => ?_) (fun _ => False.elim)
    ((oneshotSet_within h.within active).mono fun item => Or.imp ?_ .inl)
  · rw [sourceAction, hcaches]
    exact h.action k held hk hc
  · rintro ⟨k,held,hk,hc,hkeep⟩
    refine ⟨k,held,hk,hc,?_⟩
    rw [show (v.step (oneshotSet active v.state) v.down nothing).state.oneshotEnable = active from
      henable]
    rcases hright with rfl | hnone
    · exact hkeep
    · exact (keeps_switch (hnone k held hk hc) _ _ b).mp hkeep

theorem down_other {consumed : Bool} {k : KeyPos} (hk : k ≠ r.key) :
    (next v (.record consumed r)).down k = v.down k := Function.update_of_ne hk _ _

theorem Inv.press (h : Inv v) {r : Record} (hr : r.pressed = true) {consumed : Bool}
    (hright : Right v (.record consumed r)) : Inv (next v (.record consumed r)) := by
  simp only [Right, hr, if_true] at hright
  obtain ⟨hm,hup⟩ := hright
  obtain ⟨hconsumed,hsource⟩ := source_processRecord r h.cache
  have henable : (processRecord consumed r v.state).oneshotEnable = v.state.oneshotEnable := by
    cases consumed with
    | true => exact source_oneshot hconsumed
    | false => exact (source_oneshot hsource).trans rfl
  have hself : (next v (.record consumed r)).down r.key
      = some ⟨consumed,(storeOrGetAction true r.key v.state).1,r.tapCount⟩ := by
    simp only [next, World.step, hr, if_true, Function.update_self]
  have hbacked : ∀ item, HeldDown v item ∨ v.left item →
      HeldDown (next v (.record consumed r)) item ∨ v.left item
        ∨ leftBehind consumed r v.state item := by
    refine fun item => Or.imp ?_ .inl
    rintro ⟨k,held,hk,hc,hkeep⟩
    have hne : k ≠ r.key := by
      rintro rfl
      cases hup.symm.trans hk
    exact ⟨k,held,(down_other hne).trans hk,hc,henable.symm ▸ hkeep⟩
  refine h.step ?_ (fun k held hk => ?_) (fun k held hk hc => ?_)
    (fun item hitem => leaves_lasting hitem.2) ?_
  · cases consumed with
    | true => exact (source_disable hconsumed).trans h.cache
    | false => exact (source_disable hsource).trans (source_store r.pressed r.key h.cache)
  · by_cases hkey : k = r.key
    · rw [hkey]
      exact hm
    · exact h.matrix k held ((down_other hkey).symm.trans hk)
  · by_cases hkey : k = r.key
    · subst hkey
      cases hself.symm.trans hk
      cases hc
      rw [sourceAction_congr r.key hsource, hr]
      exact sourceAction_pressed hm h.cache
    · have hold := (down_other hkey).symm.trans hk
      rw [← h.action k held hold hc]
      cases consumed with
      | true => exact sourceAction_congr k hconsumed
      | false =>
        rw [sourceAction_congr k hsource]
        exact sourceAction_other (h.matrix k held hold) hkey h.cache r.pressed
  · cases consumed with
    | true => exact (consumed_within h.within r).mono hbacked
    | false =>
      refine press_within h.within hr hm h.cache hbacked fun item hitem => ?_
      refine hitem.imp (fun hkeep => ⟨r.key,_,hself,rfl,henable.symm ▸ hkeep⟩)
        fun hleave => .inr ⟨rfl,?_⟩
      rw [hr]
      exact hleave

theorem Inv.release (h : Inv v) {r : Record} (hr : r.pressed = false) {consumed : Bool}
    (hright : Right v (.record consumed r)) : Inv (next v (.record consumed r)) := by
  simp only [Right, hr, Bool.false_eq_true, if_false] at hright
  obtain ⟨a,hdown⟩ := hright
  obtain ⟨hconsumed,hsource⟩ := source_processRecord r h.cache
  have hsame : source (processRecord consumed r v.state) = source v.state := by
    cases consumed with
    | true => exact hconsumed
    | false => rw [hsource, hr, store_release r.key h.cache]
  have hself : (next v (.record consumed r)).down r.key = none := by
    simp only [next, World.step, hr, Bool.false_eq_true, if_false, Function.update_self]
  have hold : ∀ k held, (next v (.record consumed r)).down k = some held →
      v.down k = some held := by
    intro k held hk
    have hne : k ≠ r.key := by
      rintro rfl
      cases hself.symm.trans hk
    exact (down_other hne).symm.trans hk
  have hbacked : ∀ item, HeldDown v item ∨ v.left item →
      (consumed = false ∧ keeps b v.state.oneshotEnable r.tapCount (decode a) item)
        ∨ HeldDown (next v (.record consumed r)) item ∨ v.left item
          ∨ leftBehind consumed r v.state item := by
    rintro item (⟨k,held,hk,hc,hkeep⟩ | hleft)
    · by_cases hkey : k = r.key
      · subst hkey
        cases hdown.symm.trans hk
        exact .inl ⟨hc,hkeep⟩
      · exact .inr (.inl ⟨k,held,(down_other hkey).trans hk,hc,source_oneshot hsame ▸ hkeep⟩)
    · exact .inr (.inr (.inl hleft))
  refine h.step ((source_disable hsame).trans h.cache) (fun k held hk =>
    h.matrix k held (hold k held hk)) (fun k held hk hc =>
    (sourceAction_congr k hsame).trans (h.action k held (hold k held hk) hc))
    (fun item hitem => leaves_lasting hitem.2) ?_
  cases consumed with
  | true =>
    exact (consumed_within h.within r).mono fun item hitem =>
      (hbacked item hitem).resolve_left fun hc => Bool.noConfusion hc.1
  | false =>
    have hact := h.action r.key _ hdown rfl
    refine release_within h.within hr h.cache hact (fun item hitem =>
      (hbacked item hitem).imp_left And.right) fun item hitem => .inr (.inr ⟨rfl,?_⟩)
    rw [hr, store_release r.key h.cache, hact]
    exact hitem

theorem has_layers {state defaultState : BitVec b.layers.size.width} {item : Item}
    (h : Has (defaultLayerSet defaultState (layerStateSet state s)) item) :
    Has s item ∨ ∃ l, item = .layer l ∧ state.getLsbD l = true := by
  cases item with
  | layer l => exact .inr ⟨l,rfl,h⟩
  | _ => exact .inl h

theorem Inv.next (h : Inv v) (input : Input b) (hright : Right v input) :
    Inv (Action.next v input) := by
  cases input with
  | arrival =>
    have hclear : Within (fun item => HeldDown v item ∨ v.left item ∨ nothing item)
        (clearWeakMods v.state) :=
      moves_clearWeakMods _ _ _ h.within (fun _ hitem => .inr (hitem.imp_right Or.inl))
        fun _ => False.elim
    have hsource : source (clearWeakMods v.state) = source v.state := rfl
    exact h.other hsource (fun _ => False.elim) hclear
  | record consumed r =>
    cases hr : r.pressed with
    | true => exact h.press hr hright
    | false => exact h.release hr hright
  | oneshot active => exact h.switch hright
  | layers state defaultState =>
    have hmore : ∀ item, HeldDown v item ∨ v.left item → HeldDown v item ∨ v.left item
        ∨ ∃ l, item = .layer l ∧ state.getLsbD l = true := fun item => Or.imp_right Or.inl
    have hset : Within (fun item => HeldDown v item ∨ v.left item
        ∨ ∃ l, item = .layer l ∧ state.getLsbD l = true)
        (defaultLayerSet defaultState (layerStateSet state v.state)) := by
      refine ⟨fun item hitem => ?_,fun code hcode => hmore _ (h.within.codes code hcode),
        fun i hi => (h.within.mods i hi).imp (hmore _) (.imp (hmore _) (hmore _))⟩
      rcases has_layers hitem with hold | hnew
      · exact hmore item (h.within.has item hold)
      · exact .inr (.inr hnew)
    have hsource : source (defaultLayerSet defaultState (layerStateSet state v.state))
        = source v.state := rfl
    exact h.other hsource (fun item ⟨l,hl,_⟩ => .inr ⟨l,hl⟩) hset

/-- With all keys up the host sees no keycode, no usage and no mouse key, and only modifiers that
were left. -/
theorem Inv.atRest (h : Inv v) (hup : ∀ k, v.down k = none) :
    (∀ code, isKeyPressed b.nkro code v.state.lastReport.2 = false)
    ∧ v.state.lastSystemUsage = 0 ∧ v.state.lastConsumerUsage = 0
    ∧ (∀ code, v.state.mouse code = false)
    ∧ ∀ i, v.state.lastReport.1.getLsbD i = true → v.left (.mod i) ∨ v.left (.oneshot i) := by
  have hleft : ∀ item, HeldDown v item ∨ v.left item → v.left item := by
    rintro item (⟨k,held,hk,-⟩ | hleft)
    · cases (hup k).symm.trans hk
    · exact hleft
  have hno : ∀ item, (HeldDown v item ∨ v.left item) → Lasting item := fun item hitem =>
    h.lasting item (hleft item hitem)
  refine ⟨fun code => Bool.eq_false_iff.mpr fun hcode => ?_,?_,?_,
    fun code => Bool.eq_false_iff.mpr fun hcode => ?_,fun i hi => ?_⟩
  · obtain ⟨i,hi | hi⟩ | ⟨l,hl⟩ := hno _ (h.within.codes code hcode) <;> contradiction
  · by_contra hsystem
    obtain ⟨i,hi | hi⟩ | ⟨l,hl⟩ := hno .system (h.within.has .system hsystem) <;> contradiction
  · by_contra hconsumer
    obtain ⟨i,hi | hi⟩ | ⟨l,hl⟩ := hno .consumer (h.within.has .consumer hconsumer) <;>
      contradiction
  · obtain ⟨i,hi | hi⟩ | ⟨l,hl⟩ := hno (.mouse code) (h.within.has (.mouse code) hcode) <;>
      contradiction
  · rcases h.within.mods i hi with hitem | hitem | hitem
    · exact .inl (hleft _ hitem)
    · obtain ⟨j,hj | hj⟩ | ⟨l,hl⟩ := hno _ hitem <;> contradiction
    · exact .inr (hleft _ hitem)

/-- In every state of a run each keycode, modifier, usage and mouse key that is held or in the last
report and each layer that is on belongs to a key that is down, or an action has left it on purpose
and it has been there since. With all keys up the host sees no keycode, no usage and no mouse key,
and only such modifiers. -/
theorem no_stuck_action (b : Build) (defaultState : BitVec b.layers.size.width) (oneshot : Bool)
    (inputs : List (Input b)) (h : Along next Right (start defaultState oneshot) inputs) :
    let v := inputs.foldl next (start defaultState oneshot)
    Within (fun item => HeldDown v item ∨ v.left item) v.state
    ∧ ((∀ k, v.down k = none) →
      (∀ code, isKeyPressed b.nkro code v.state.lastReport.2 = false)
      ∧ v.state.lastSystemUsage = 0 ∧ v.state.lastConsumerUsage = 0
      ∧ (∀ code, v.state.mouse code = false)
      ∧ ∀ i, v.state.lastReport.1.getLsbD i = true → v.left (.mod i) ∨ v.left (.oneshot i)) := by
  have hinv := h.invariant (fun v input hv hright => hv.next input hright)
    (start_inv defaultState oneshot)
  exact ⟨hinv.within,hinv.atRest⟩

/-- Shift and A on one key and a layer key beside it, over a row of the second layer. -/
def twoLayers : Build where
  layers := {
    rows := 1
    cols := 2
    size := .bits8
    maxLayer := 2
    encoderMap := false
    actionForKey := fun layer key =>
      if layer = 1 then 0x0005 else if key.col = 0 then 0x0204 else 0xA1F1
    cols_le := by decide
    maxLayer_le := by decide }
  nkro := false
  tappingToggle := 5

/-- The layer comes on between press and release. -/
def acrossLayers : List (Input twoLayers) :=
  [.record false ⟨⟨0,0⟩,true,0⟩,.record false ⟨⟨0,1⟩,true,0⟩,.record false ⟨⟨0,0⟩,false,0⟩,
    .record false ⟨⟨0,1⟩,false,0⟩]

theorem no_stuck_action_acrossLayers :
    let v := acrossLayers.foldl next (start 1 true)
    (∀ code, isKeyPressed false code v.state.lastReport.2 = false) ∧ v.state.lastSystemUsage = 0 := by
  have hright : Along next Right (start (b := twoLayers) 1 true) acrossLayers := by
    simp [acrossLayers, Along, Right, next, World.step, start]
    decide
  have hup : ∀ k, (acrossLayers.foldl next (start (b := twoLayers) 1 true)).down k = none := by
    intro k
    simp +contextual [acrossLayers, next, World.step, start, Function.update]
  have h := (no_stuck_action twoLayers 1 true acrossLayers hright).2 hup
  exact ⟨h.1,h.2.1⟩

end QmkFirmware.Action
