import QmkFirmware.Action.Typing
import QmkFirmware.Debounce.Global
import QmkFirmware.He.Reports
import QmkFirmware.Matrix.Events

/-!
`matrix_task` of keyboard.c on the icebreaker he, from the samples of the sensors to the reports:
the scan of he_matrix.c, `matrix_scan` of matrix_common.c with the debouncer of sym_defer_g.c, the
key events and `action_exec`.
-/

set_option autoImplicit false

namespace QmkFirmware.Keyboard

open QmkFirmware.Action (Build Typing Keymap)
open He (Sensor heSensors)
open QmkFirmware.Matrix (Key isDown)
open Tapping (KeyPos)

/-- The default of sym_defer_g.c; the keyboard sets none. -/
def DEBOUNCE : Nat := 5

structure Board (b : Build) where
  he : He.HeState
  debounced : Debounce.Global (Fin 5 → BitVec 16) 32
  cells : Matrix.Cells 5 16
  lastTick : UInt16
  typing : Typing b

/-- What a pass reads: the sensors, and the timer at each of the places that read it. -/
structure Pass where
  scan : He.ScanInput
  fast : BitVec 32
  event : Key 5 16 → UInt16
  tick : UInt16

variable {b : Build}

def keyPos (k : Key 5 16) : KeyPos := ⟨UInt8.ofNat k.1.val,UInt8.ofNat k.2.val⟩

def matrixScan (p : Pass) (s : Board b) : Board b :=
  let r := He.matrixScanCustom He.heDebounce p.scan s.he
  { s with
    he := r.2
    debounced := (Debounce.symDeferG DEBOUNCE r.2.matrix p.fast r.1 s.debounced).2 }

/-- `MAKE_KEYEVENT`. -/
def keyEvent (p : Pass) (e : Matrix.KeyEvent 5 16) : Tapping.KeyEvent :=
  ⟨keyPos e.key,p.event e.key,.key,e.pressed⟩

/-- `MAKE_TICK_EVENT`. -/
def tickEvent (p : Pass) : Tapping.KeyEvent := ⟨⟨0,0⟩,p.tick,.tick,false⟩

def matrixChanged (s : Board b) : Bool :=
  decide (∃ k, isDown s.debounced.cooked k ≠ (s.cells k).previous)

/-- The keys of the pass. The matrix has no ghosts, and it can always be read. -/
def keyEvents (s : Board b) : Matrix.Cells 5 16 × List (Matrix.KeyEvent 5 16) :=
  Matrix.matrixTask false true (fun _ _ => true) s.debounced.cooked s.cells

def generateTickEvent (m : Keymap b) (p : Pass) (s : Board b) : Board b :=
  if p.tick-s.lastTick ≠ 0 then
    { s with typing := Action.actionExec m (tickEvent p) s.typing, lastTick := p.tick }
  else s

def matrixTask (m : Keymap b) (p : Pass) (s : Board b) : Board b :=
  let s := matrixScan p s
  if matrixChanged s then
    { s with
      cells := (keyEvents s).1
      typing := ((keyEvents s).2.map (keyEvent p)).foldl (fun t e => Action.actionExec m e t)
        s.typing }
  else generateTickEvent m p s

/-- A pass of the main loop, or what other code does between two of them. -/
inductive Input (b : Build) where
  | pass (p : Pass)
  | settings (step : He.Step)
  | oneshot (active : Bool)
  | layers (state defaultState : BitVec b.layers.size.width)

/-- Only a pass scans, and one-shot keys are not switched. -/
def Input.Scans : Input b → Prop
  | .settings step => step.isScan = false
  | .oneshot _ => False
  | _ => True

def next (m : Keymap b) (s : Board b) : Input b → Board b
  | .pass p => matrixTask m p s
  | .settings step => { s with he := He.exec He.heDebounce s.he step }
  | .oneshot active => { s with typing := s.typing.next m (.oneshot active) }
  | .layers state defaultState => { s with typing := s.typing.next m (.layers state defaultState) }

def start (e : He.KbDatablock) (defaultState : BitVec b.layers.size.width) (oneshot : Bool) :
    Board b where
  he := He.boot e
  debounced := ⟨false,0,fun _ => 0⟩
  cells := fun _ => ⟨false,false⟩
  lastTick := 0
  typing := .start defaultState oneshot

/-- The waiting buffer has room for the event, and the call is regular. -/
def Handles (m : Keymap b) (t : Typing b) (e : Tapping.KeyEvent) : Prop :=
  Tapping.Sent.clearKeyboard ∉ (Action.actionExec m e t).tapping.out ∧ Action.callRegular m e t = true

def Right (m : Keymap b) (s : Board b) : Input b → Prop
  | .pass p =>
    let s := matrixScan p s
    Along (fun t e => Action.actionExec m e t) (Handles m) s.typing
      (if matrixChanged s then (keyEvents s).2.map (keyEvent p)
        else if p.tick-s.lastTick ≠ 0 then [tickEvent p] else [])
  | .settings step => step.isScan = false
  | .oneshot active => Action.Right s.typing.world (.oneshot active)
  | .layers _ _ => True

/-- A key that has a sensor is down in the matrix if the scan reports it, and the others are up. -/
structure Mirrors (s : He.HeState) : Prop where
  sensors : He.Mirrored s
  others : ∀ k, (∀ i, heSensors i ≠ k) → isDown s.matrix k = false

theorem boot_mirrors (e : He.KbDatablock) : Mirrors (He.boot e) where
  sensors := He.run_mirrored 0 e []
  others k _ := by simp [He.boot, isDown]

theorem Mirrors.settings {s t : He.HeState} (h : Mirrors s) (hst : He.SettingsOnly s t) :
    Mirrors t where
  sensors := h.sensors.of_settingsOnly hst
  others k hk := hst.matrix ▸ h.others k hk

theorem Mirrors.scan {s : He.HeState} (h : Mirrors s) (n : Nat) (input : He.ScanInput) :
    Mirrors (He.matrixScanCustom n input s).2 where
  sensors := He.scan_mirrored n input s
  others k hk := (He.scan_others n input s hk).trans (h.others k hk)

theorem Mirrors.down {s : He.HeState} (h : Mirrors s) (k : Key 5 16) :
    isDown s.matrix k = true ↔ ∃ i, heSensors i = k ∧ (s.config i).pressed = true := by
  by_cases hk : ∃ i, heSensors i = k
  · obtain ⟨i,rfl⟩ := hk
    rw [show isDown s.matrix (heSensors i) = (s.config i).pressed from h.sensors i]
    refine ⟨fun hi => ⟨i,rfl,hi⟩,fun ⟨j,hj,hpressed⟩ => ?_⟩
    rw [He.heSensors_injective j i hj] at hpressed
    exact hpressed
  · rw [h.others k fun i hi => hk ⟨i,hi⟩]
    exact ⟨nofun,fun ⟨i,hi,_⟩ => absurd ⟨i,hi⟩ hk⟩

theorem scan_unchanged {s : He.HeState} (h : Mirrors s) {n : Nat} {input : He.ScanInput}
    (hsame : (He.matrixScanCustom n input s).1 = false) :
    (He.matrixScanCustom n input s).2.matrix = s.matrix := by
  have hpressed : ∀ i, ((He.matrixScanCustom n input s).2.config i).pressed = (s.config i).pressed := by
    by_contra hne
    have := (He.scan_changed_iff n input s).mpr (by simpa using hne)
    rw [hsame] at this
    contradiction
  have hdown : ∀ k, isDown (He.matrixScanCustom n input s).2.matrix k = isDown s.matrix k := fun k =>
    Bool.eq_iff_iff.mpr (by simp only [(h.scan n input).down, h.down, hpressed])
  funext row
  exact BitVec.eq_of_getLsbD_eq fun col hcol => hdown (row,⟨col,hcol⟩)

theorem keyPos_injective : Function.Injective keyPos := by
  rintro ⟨⟨r,hr⟩,⟨c,hc⟩⟩ ⟨⟨r',hr'⟩,⟨c',hc'⟩⟩ h
  simp only [keyPos, KeyPos.mk.injEq] at h
  have h₁ := congrArg UInt8.toNat h.1
  have h₂ := congrArg UInt8.toNat h.2
  simp only [UInt8.toNat_ofNat'] at h₁ h₂
  simp only [Prod.mk.injEq, Fin.mk.injEq]
  omega

/-- The build has the keyboard's matrix. -/
structure Fits (b : Build) : Prop where
  rows : b.layers.rows = 5
  cols : b.layers.cols = 16

theorem Fits.inMatrix (h : Fits b) (k : Key 5 16) : b.layers.inMatrix (keyPos k) = true := by
  obtain ⟨⟨r,hr⟩,⟨c,hc⟩⟩ := k
  simp only [Layers.Config.inMatrix, keyPos, h.rows, h.cols, UInt8.toNat_ofNat', Bool.and_eq_true,
    decide_eq_true_eq]
  omega

def Turns (t : Typing b) (es : List (Matrix.KeyEvent 5 16)) : Prop :=
  ∀ k, Matrix.history k es = [] ∨ Matrix.history k es = [!t.pressed (keyPos k)]

theorem history_cons (k : Key 5 16) (e : Matrix.KeyEvent 5 16) (es : List (Matrix.KeyEvent 5 16)) :
    Matrix.history k (e :: es)
      = if e.key = k then e.pressed :: Matrix.history k es else Matrix.history k es := by
  simp only [Matrix.history, List.filter_cons, decide_eq_true_eq]
  split <;> rfl

theorem pressed_keyEvent (m : Keymap b) (p : Pass) (e : Matrix.KeyEvent 5 16) (t : Typing b) :
    (Action.actionExec m (keyEvent p e) t).pressed
      = Function.update t.pressed (keyPos e.key) e.pressed := by
  rw [Action.actionExec_pressed]
  exact if_neg Bool.false_ne_true

theorem pressed_keyEvents (m : Keymap b) (p : Pass) (k : Key 5 16)
    (es : List (Matrix.KeyEvent 5 16)) (t : Typing b) :
    ((es.map (keyEvent p)).foldl (fun t e => Action.actionExec m e t) t).pressed (keyPos k)
      = (Matrix.history k es).getLastD (t.pressed (keyPos k)) := by
  induction es generalizing t with
  | nil => rfl
  | cons e es ih =>
    rw [List.map_cons, List.foldl_cons, ih, pressed_keyEvent, history_cons]
    by_cases hk : e.key = k
    · subst hk
      rw [Function.update_self, if_pos rfl, List.getLastD_cons]
    · rw [Function.update_of_ne (fun h => hk (keyPos_injective h).symm), if_neg hk]

theorem pressed_outside (m : Keymap b) (p : Pass) {key : KeyPos} (hkey : ∀ k, keyPos k ≠ key)
    (es : List (Matrix.KeyEvent 5 16)) (t : Typing b) :
    ((es.map (keyEvent p)).foldl (fun t e => Action.actionExec m e t) t).pressed key
      = t.pressed key := by
  induction es generalizing t with
  | nil => rfl
  | cons e es ih =>
    rw [List.map_cons, List.foldl_cons, ih, pressed_keyEvent,
      Function.update_of_ne (hkey e.key).symm]

theorem keyEvents_ready (hb : Fits b) {m : Keymap b} (p : Pass) {es : List (Matrix.KeyEvent 5 16)}
    {t : Typing b} (ht : Action.Ready t) (hturns : Turns t es)
    (h : Along (fun t e => Action.actionExec m e t) (Handles m) t (es.map (keyEvent p))) :
    Action.Ready ((es.map (keyEvent p)).foldl (fun t e => Action.actionExec m e t) t) := by
  induction es generalizing t with
  | nil => exact ht
  | cons e es ih =>
    obtain ⟨hhandles,hrest⟩ := h
    have hown := (hturns e.key).resolve_left (by simp [history_cons])
    rw [history_cons, if_pos rfl, List.cons.injEq] at hown
    refine ih (Action.actionExec_ready ht ⟨fun _ => ⟨hb.inMatrix e.key,?_⟩,hhandles⟩)
      (fun k => ?_) hrest
    · rw [show (keyEvent p e).pressed = e.pressed from rfl, hown.1, Bool.not_not]
      rfl
    · have hk := hturns k
      rw [history_cons] at hk
      by_cases hkey : e.key = k
      · exact .inl (hkey ▸ hown.2)
      · rw [if_neg hkey] at hk
        rwa [pressed_keyEvent, Function.update_of_ne (fun h => hkey (keyPos_injective h).symm)]

/-- From the sensors to the actions every part goes by the one before it. -/
structure Wired (s : Board b) : Prop where
  mirrors : Mirrors s.he
  settled : s.debounced.Settled s.he.matrix
  cells : ∀ k, s.cells k = ⟨isDown s.debounced.cooked k,false⟩
  pressed : ∀ k, s.typing.pressed (keyPos k) = isDown s.debounced.cooked k
  outside : ∀ key, (∀ k, keyPos k ≠ key) → s.typing.pressed key = false
  ready : Action.Ready s.typing

theorem start_wired (e : He.KbDatablock) (defaultState : BitVec b.layers.size.width)
    (oneshot : Bool) : Wired (start (b := b) e defaultState oneshot) where
  mirrors := boot_mirrors e
  settled _ := rfl
  cells k := by simp [start, isDown]
  pressed k := by simp [start, isDown, Typing.start]
  outside _ _ := rfl
  ready := Action.start_ready defaultState oneshot

structure Scanned (s : Board b) : Prop where
  mirrors : Mirrors s.he
  settled : s.debounced.Settled s.he.matrix
  wakeup : ∀ k, (s.cells k).wakeup = false
  pressed : ∀ k, s.typing.pressed (keyPos k) = (s.cells k).previous
  outside : ∀ key, (∀ k, keyPos k ≠ key) → s.typing.pressed key = false
  ready : Action.Ready s.typing

theorem Wired.scan {s : Board b} (h : Wired s) (p : Pass) : Scanned (matrixScan p s) where
  mirrors := h.mirrors.scan He.heDebounce p.scan
  settled := Debounce.symDeferG_settled h.settled (scan_unchanged h.mirrors)
  wakeup k := congrArg Matrix.Cell.wakeup (h.cells k)
  pressed k := (h.pressed k).trans (congrArg Matrix.Cell.previous (h.cells k)).symm
  outside := h.outside
  ready := h.ready

theorem keyEvents_key {s : Board b} (h : Scanned s) (k : Key 5 16) :
    (keyEvents s).1 k = ⟨isDown s.debounced.cooked k,false⟩
    ∧ Matrix.history k (keyEvents s).2
      = if isDown s.debounced.cooked k = (s.cells k).previous then []
        else [isDown s.debounced.cooked k] := by
  obtain ⟨hcell,hhistory⟩ := Matrix.matrixTask_key false (fun _ _ => true) s.debounced.cooked
    s.cells k
  have hwakeup := h.wakeup k
  rw [keyEvents, hcell, hhistory]
  unfold Matrix.visitKey
  by_cases hsame : isDown s.debounced.cooked k = (s.cells k).previous
  · rw [if_pos (.inl hsame), if_pos hsame, hsame, ← hwakeup]
    exact ⟨rfl,rfl⟩
  · rw [if_neg (by simp [hsame, Matrix.ghosted]), if_neg hsame, hwakeup]
    exact ⟨rfl,rfl⟩

theorem Scanned.turns {s : Board b} (h : Scanned s) : Turns s.typing (keyEvents s).2 := by
  intro k
  rw [(keyEvents_key h k).2, h.pressed k]
  split
  · exact .inl rfl
  · rename_i hne
    exact .inr (by rw [Bool.eq_not_of_ne hne])

theorem Scanned.task (hb : Fits b) {m : Keymap b} {p : Pass} {s : Board b} (h : Scanned s)
    (hright : Along (fun t e => Action.actionExec m e t) (Handles m) s.typing
      (if matrixChanged s then (keyEvents s).2.map (keyEvent p)
        else if p.tick-s.lastTick ≠ 0 then [tickEvent p] else [])) :
    Wired (if matrixChanged s then
      { s with
        cells := (keyEvents s).1
        typing := ((keyEvents s).2.map (keyEvent p)).foldl (fun t e => Action.actionExec m e t)
          s.typing }
      else generateTickEvent m p s) := by
  cases hchanged : matrixChanged s with
  | true =>
    rw [hchanged, if_pos rfl] at hright
    rw [if_pos rfl]
    refine ⟨h.mirrors,h.settled,fun k => (keyEvents_key h k).1,fun k => ?_,fun key hkey => ?_,
      keyEvents_ready hb p h.ready h.turns hright⟩
    · rw [pressed_keyEvents, (keyEvents_key h k).2, h.pressed k]
      split
      · rename_i hsame
        exact hsame.symm
      · rfl
    · exact (pressed_outside m p hkey _ _).trans (h.outside key hkey)
  | false =>
    rw [hchanged, if_neg Bool.false_ne_true] at hright
    rw [if_neg Bool.false_ne_true]
    have hsame : ∀ k, isDown s.debounced.cooked k = (s.cells k).previous := by
      simpa [matrixChanged] using hchanged
    have hcells : ∀ k, s.cells k = ⟨isDown s.debounced.cooked k,false⟩ := fun k => by
      rw [hsame k, ← h.wakeup k]
    have hpressed : ∀ k, s.typing.pressed (keyPos k) = isDown s.debounced.cooked k := fun k =>
      (h.pressed k).trans (hsame k).symm
    unfold generateTickEvent
    by_cases htick : p.tick-s.lastTick ≠ 0
    · rw [if_pos htick] at hright ⊢
      refine ⟨h.mirrors,h.settled,hcells,fun k => ?_,fun key hkey => ?_,
        Action.actionExec_ready h.ready ⟨nofun,hright.1⟩⟩
      · rw [Action.actionExec_pressed]
        exact hpressed k
      · rw [Action.actionExec_pressed]
        exact h.outside key hkey
    · rw [if_neg htick]
      exact ⟨h.mirrors,h.settled,hcells,hpressed,h.outside,h.ready⟩

theorem next_wired (hb : Fits b) {m : Keymap b} {s : Board b} (h : Wired s) (input : Input b)
    (hright : Right m s input) : Wired (next m s input) := by
  cases input with
  | pass p => exact (h.scan p).task hb hright
  | settings step =>
    have hsettings := He.exec_settingsOnly He.heDebounce s.he hright
    exact ⟨h.mirrors.settings hsettings,hsettings.matrix ▸ h.settled,h.cells,h.pressed,h.outside,
      h.ready⟩
  | oneshot active =>
    exact ⟨h.mirrors,h.settled,h.cells,h.pressed,h.outside,
      Action.next_ready (m := m) h.ready (.oneshot active) hright⟩
  | layers state defaultState =>
    exact ⟨h.mirrors,h.settled,h.cells,h.pressed,h.outside,
      Action.next_ready (m := m) h.ready (.layers state defaultState) trivial⟩

/-- A key whose debounced bit is set, or whose events wait for a tap key, holds it. -/
def Holds (s : Board b) (item : Action.Item) : Prop :=
  ∃ key h, s.typing.world.down key = some h ∧ h.consumed = false
    ∧ Action.keeps b s.typing.world.state.oneshotEnable h.tapCount (Action.decode h.action) item
    ∧ ((∃ k, keyPos k = key ∧ isDown s.debounced.cooked k = true)
      ∨ ∃ e ∈ s.typing.tapping.waiting, e.key = key)

theorem Wired.holds {s : Board b} (h : Wired s) {item : Action.Item} (hitem : s.typing.Holds item) :
    Holds s item := by
  obtain ⟨key,held,hdown,hfree,hkeeps,hpressed | hwait⟩ := hitem
  · refine ⟨key,held,hdown,hfree,hkeeps,.inl ?_⟩
    by_contra hnone
    by_cases hkey : ∃ k, keyPos k = key
    · obtain ⟨k,rfl⟩ := hkey
      exact hnone ⟨k,rfl,(h.pressed k).symm.trans hpressed⟩
    · rw [h.outside key fun k hk => hkey ⟨k,hk⟩] at hpressed
      contradiction
  · exact ⟨key,held,hdown,hfree,hkeeps,.inr hwait⟩

/-- The scan reports the keys of the matrix, and no others. -/
def Gives (s : Board b) (matrix : Fin 5 → BitVec 16) : Prop :=
  ∀ k, isDown matrix k = true ↔ ∃ i, heSensors i = k ∧ (s.he.config i).pressed = true

theorem next_cooked (m : Keymap b) (s : Board b) (input : Input b) :
    (next m s input).debounced.cooked = s.debounced.cooked
    ∨ (next m s input).debounced.cooked = (next m s input).he.matrix := by
  cases input with
  | pass p =>
    have htask : (matrixTask m p s).debounced = (matrixScan p s).debounced
        ∧ (matrixTask m p s).he = (matrixScan p s).he := by
      unfold matrixTask generateTickEvent
      dsimp only
      split_ifs <;> exact ⟨rfl,rfl⟩
    simp only [next, htask.1, htask.2]
    exact Debounce.symDeferG_cooked _ _ _ _ _
  | settings | oneshot | layers => exact .inl rfl

theorem cooked_scanned (m : Keymap b) {s : Board b} (hs : s.debounced.cooked = s.he.matrix)
    (inputs : List (Input b)) : ∃ before, before <+: inputs
      ∧ (inputs.foldl (next m) s).debounced.cooked = (before.foldl (next m) s).he.matrix := by
  induction inputs using List.reverseRecOn with
  | nil => exact ⟨[],List.prefix_refl [],hs⟩
  | append_singleton inputs input ih =>
    rw [List.foldl_concat]
    rcases next_cooked m (inputs.foldl (next m) s) input with hsame | hnew
    · obtain ⟨before,hbefore,hcooked⟩ := ih
      exact ⟨before,hbefore.trans (List.prefix_append inputs [input]),hsame.trans hcooked⟩
    · exact ⟨inputs ++ [input],List.prefix_refl _,by rw [hnew, List.foldl_concat]⟩

theorem Wired.up {s : Board b} (h : Wired s) (hnone : ∀ k, isDown s.debounced.cooked k = false)
    (hwait : s.typing.tapping.waiting = []) (key : KeyPos) : s.typing.world.down key = none := by
  refine h.ready.up (fun key => ?_) hwait key
  by_cases hkey : ∃ k, keyPos k = key
  · obtain ⟨k,rfl⟩ := hkey
    exact (h.pressed k).trans (hnone k)
  · exact h.outside key fun k hk => hkey ⟨k,hk⟩

section Plain

variable (hplain : ∀ layer key, Tapping.isTapAction (b.layers.actionForKey layer key) = false)
include hplain

theorem plain_handles {m : Keymap b} {t : Typing b} (h : Action.Idle t)
    (e : Tapping.KeyEvent) : Handles m t e ∧ Action.Idle (Action.actionExec m e t) := by
  obtain ⟨hidle,hregular⟩ := Action.idle_call (m := m) hplain h e
  exact ⟨⟨hidle.room,hregular⟩,hidle⟩

theorem plain_events {m : Keymap b} {t : Typing b} (h : Action.Idle t)
    (es : List Tapping.KeyEvent) :
    Along (fun t e => Action.actionExec m e t) (Handles m) t es
    ∧ Action.Idle (es.foldl (fun t e => Action.actionExec m e t) t) := by
  have hrun := Along.of_step (I := Action.Idle) (fun _ e ht => plain_handles (m := m) hplain ht e) h es
  exact ⟨hrun,hrun.invariant (I := Action.Idle) (fun _ e ht _ => (plain_handles hplain ht e).2) h⟩

theorem plain_step {m : Keymap b} {s : Board b} (h : Action.Idle s.typing) {input : Input b}
    (hinput : input.Scans) : Right m s input ∧ Action.Idle (next m s input).typing := by
  cases input with
  | pass p =>
    have hscan : Action.Idle (matrixScan p s).typing := h
    refine ⟨(plain_events hplain hscan _).1,?_⟩
    simp only [next, matrixTask]
    split
    · exact (plain_events hplain hscan _).2
    · unfold generateTickEvent
      split
      · exact (plain_handles hplain hscan (tickEvent p)).2
      · exact hscan
  | settings step => exact ⟨hinput,h⟩
  | oneshot active => exact hinput.elim
  | layers => exact ⟨trivial,h.tappingKey,h.buffer,h.room⟩

theorem plain_run (m : Keymap b) {s : Board b} (h : Action.Idle s.typing) {inputs : List (Input b)}
    (hinputs : ∀ input ∈ inputs, input.Scans) : Along (next m) (Right m) s inputs := by
  induction inputs generalizing s with
  | nil => trivial
  | cons input inputs ih =>
    obtain ⟨hright,hidle⟩ := plain_step (m := m) hplain h (hinputs input List.mem_cons_self)
    exact ⟨hright,ih hidle fun input hi => hinputs input (List.mem_cons_of_mem _ hi)⟩

end Plain

/-- The encoder switch is mute, the other keys are A. -/
def muteKey : Build where
  layers := {
    rows := 5
    cols := 16
    size := .bits16
    maxLayer := 4
    encoderMap := true
    actionForKey := fun _ key => if key = ⟨4,9⟩ then 0x44E2 else 0x0004
    cols_le := by decide
    maxLayer_le := by decide }
  nkro := true
  tappingToggle := 5

def muteMap : Keymap muteKey where
  settings := {
    action := fun _ => 0
    tappingTerm := fun _ => 200
    quickTapTerm := fun _ => 200
    permissiveHold := fun _ => false
    holdOnOtherKeyPress := fun _ => false }
  consumes := fun _ _ => false

/-- The switch is closed for six passes and a debounce, with a change of the mode meanwhile. -/
def pushes : List (Input muteKey) :=
  (List.range 6).map (fun i => .pass ⟨He.pushed,BitVec.ofNat 32 i,fun _ => 0,UInt16.ofNat i⟩)
    ++ [.settings (.setMode 2),.pass ⟨He.pushed,12,fun _ => 12,12⟩]

end QmkFirmware.Keyboard
