import QmkFirmware.Action.Core

/-!
What the host and the layers hold, and what an action puts there and takes away again.
-/

set_option autoImplicit false

namespace QmkFirmware.Action

open Tapping (KeyPos)
open Oneshot (LayerData oneshotPressed oneshotOtherKeyPressed oneshotStart isModifierKeycode)
open Report (Reports isKeyPressed pressed_add pressed_del)

inductive Item where
  | code (code : UInt8)
  | mod (i : Nat)
  | weak (i : Nat)
  | oneshot (i : Nat)
  | system
  | consumer
  | mouse (code : UInt8)
  | layer (l : Nat)

variable {b : Build}

def Has (s : State b) : Item → Prop
  | .code code => isKeyPressed b.nkro code s.report = true
  | .mod i => s.realMods.getLsbD i = true
  | .weak i => s.weakMods.getLsbD i = true
  | .oneshot i => s.oneshotMods.getLsbD i = true
  | .system => s.lastSystemUsage ≠ 0
  | .consumer => s.lastConsumerUsage ≠ 0
  | .mouse code => s.mouse code = true
  | .layer l => s.layers.layerState.getLsbD l = true

def codeItem (code : UInt8) (item : Item) : Prop :=
  match codeKind code with
  | .basic => item = .code code
  | .modifier => item = .mod (code.toNat % 8)
  | .system => item = .system
  | .consumer => item = .consumer
  | .mouse => item = .mouse code
  | .no | .none => False

def modItem (mods : BitVec 8) : Item → Prop
  | .mod i => mods.getLsbD i = true
  | _ => False

def weakItem (mods : BitVec 8) : Item → Prop
  | .weak i => mods.getLsbD i = true
  | _ => False

def oneshotItem (mods : BitVec 8) : Item → Prop
  | .oneshot i => mods.getLsbD i = true
  | _ => False

def keyMods (mods : BitVec 8) (code : UInt8) (item : Item) : Prop :=
  if isModifierKeycode code || code == 0 then modItem mods item else weakItem mods item

/-- What the key holds from its press to its release. With the one-shot keys switched off they are
plain modifiers and layer keys. -/
def keeps (b : Build) (oneshot : Bool) (tapCount : Nat) (act : Act) (item : Item) : Prop :=
  match act with
  | .mods mods code => codeItem code item ∨ keyMods mods code item
  | .modsTap mods code =>
    match modsTapOp code with
    | .oneshot => (oneshot = false ∨ tapCount = 0) ∧ modItem mods item
    | .tapToggle => tapCount < b.tappingToggle ∧ modItem mods item
    | .tapKey => if 0 < tapCount then codeItem code item else modItem mods item
  | .usage page _ => page = pageSystem ∧ item = .system ∨ page = pageConsumer ∧ item = .consumer
  | .mousekey code => item = .mouse code
  | .layerMods layer mods => item = .layer layer ∨ modItem mods item
  | .layerTap val code =>
    match layerTapOp code with
    | .onOff | .setClear => item = .layer val
    | .tapToggle | .offOn => False
    | .oneshot => oneshot = false ∧ item = .layer val
    | .tapKey => if 0 < tapCount then codeItem code item else item = .layer val
  | .layer .. | .other => False

/-- What stays behind by design: one-shot modifiers, toggled modifiers and switched layers. -/
def leaves (b : Build) (oneshot : Bool) (tapCount : Nat) (act : Act) (item : Item) : Prop :=
  match act with
  | .modsTap mods code =>
    match modsTapOp code with
    | .oneshot => oneshot = true ∧ 0 < tapCount ∧ oneshotItem mods item
    | .tapToggle => tapCount = b.tappingToggle ∧ modItem mods item
    | .tapKey => False
  | .layer op on part xbit bits => op ≠ 0 ∧ on ≠ 0
    ∧ ∃ l, item = .layer l ∧ (layerBits (b := b) part xbit bits).getLsbD l = true
  | .layerTap val code =>
    match layerTapOp code with
    | .tapToggle | .offOn => item = .layer val
    | .oneshot => oneshot = true ∧ item = .layer val
    | .onOff | .setClear | .tapKey => False
  | _ => False

def isOneshotKey : Act → Bool
  | .modsTap _ code =>
    match modsTapOp code with
    | .oneshot => true
    | .tapToggle | .tapKey => false
  | .layerTap _ code =>
    match layerTapOp code with
    | .oneshot => true
    | .tapToggle | .onOff | .offOn | .setClear | .tapKey => false
  | _ => false

theorem keeps_switch {tapCount : Nat} {act : Act} (h : isOneshotKey act = false)
    (oneshot oneshot' : Bool) {item : Item} (b : Build) :
    keeps b oneshot tapCount act item ↔ keeps b oneshot' tapCount act item := by
  unfold isOneshotKey at h
  unfold keeps
  cases act with
  | modsTap mods code =>
    dsimp only at h ⊢
    cases hop : modsTapOp code with
    | oneshot => simp [hop] at h
    | tapToggle | tapKey => rfl
  | layerTap val code =>
    dsimp only at h ⊢
    cases hop : layerTapOp code with
    | oneshot => simp [hop] at h
    | tapToggle | onOff | offOn | setClear | tapKey => rfl
  | _ => rfl

/-- The state holds no more than this, and neither does the last report. -/
structure Within (B : Item → Prop) (s : State b) : Prop where
  has : ∀ item, Has s item → B item
  codes : ∀ code, isKeyPressed b.nkro code s.lastReport.2 = true → B (.code code)
  mods : ∀ i, s.lastReport.1.getLsbD i = true → B (.mod i) ∨ B (.weak i) ∨ B (.oneshot i)

/-- It takes away the first and adds no more than the second. -/
def Moves (X Y : Item → Prop) (op : State b → State b) : Prop :=
  ∀ B B' s, Within B s → (∀ item, B item → X item ∨ B' item) → (∀ item, Y item → B' item) →
    Within B' (op s)

def nothing (_ : Item) : Prop := False

def MovesWhen (oneshot : Bool) (X Y : Item → Prop) (op : State b → State b) : Prop :=
  ∀ B B' s, s.oneshotEnable = oneshot → Within B s → (∀ item, B item → X item ∨ B' item) →
    (∀ item, Y item → B' item) → Within B' (op s)

variable {B B' X X' Y Y' : Item → Prop} {s : State b} {f g : State b → State b}

theorem Moves.when (h : Moves X Y f) (oneshot : Bool) : MovesWhen oneshot X Y f :=
  fun B B' s _ => h B B' s

theorem Within.mono (h : Within B s) (hB : ∀ item, B item → B' item) : Within B' s where
  has item hitem := hB item (h.has item hitem)
  codes code hcode := hB _ (h.codes code hcode)
  mods i hi := (h.mods i hi).imp (hB _) (.imp (hB _) (hB _))

theorem Moves.mono (hf : Moves X Y f) (hX : ∀ item, X' item → X item)
    (hY : ∀ item, Y item → Y' item) : Moves X' Y' f := fun B B' s h hB hB' =>
  hf B B' s h (fun item hitem => (hB item hitem).imp_left (hX item)) fun item hitem =>
    hB' item (hY item hitem)

theorem Moves.comp (hf : Moves X Y f) (hg : Moves X' Y' g) :
    Moves (fun item => X item ∨ X' item) (fun item => Y item ∨ Y' item) fun s => g (f s) := by
  intro B B' s h hB hB'
  refine hg (fun item => X' item ∨ B' item) B' _ (hf B _ s h (fun item hitem => ?_)
    fun item hitem => .inr (hB' item (.inl hitem))) (fun _ => id) fun item hitem =>
    hB' item (.inr hitem)
  exact or_assoc.mp (hB item hitem)

theorem Moves.ite {c : Prop} [Decidable c] (hf : c → Moves X Y f) (hg : ¬ c → Moves X Y g) :
    Moves X Y fun s => if c then f s else g s := by
  intro B B' s h hB hB'
  by_cases hc : c
  · simp only [if_pos hc]
    exact hf hc B B' s h hB hB'
  · simp only [if_neg hc]
    exact hg hc B B' s h hB hB'

theorem moves_id (hX : ∀ item, ¬ X item) : Moves X Y fun s : State b => s :=
  fun _ _ _ h hB _ => h.mono fun item hitem => (hB item hitem).resolve_left (hX item)

theorem getLsbD_or_iff {w : Nat} {x y : BitVec w} {i : Nat} :
    (x ||| y).getLsbD i = true ↔ x.getLsbD i = true ∨ y.getLsbD i = true := by
  rw [BitVec.getLsbD_or, Bool.or_eq_true]

theorem getLsbD_without {w : Nat} {x y : BitVec w} {i : Nat}
    (h : (x &&& ~~~y).getLsbD i = true) : x.getLsbD i = true ∧ y.getLsbD i ≠ true := by
  rw [BitVec.getLsbD_and, BitVec.getLsbD_not, Bool.and_eq_true, Bool.and_eq_true] at h
  refine ⟨h.1,fun hy => ?_⟩
  rw [hy] at h
  exact Bool.false_ne_true h.2.2

theorem send_within (h : ∀ item, Has s item → B item) : Within B (sendKeyboardReport s) where
  has item hitem := by
    cases item with
    | oneshot i =>
      refine h (.oneshot i) ?_
      simp only [Has, sendKeyboardReport] at hitem ⊢
      split at hitem
      · simp at hitem
      · exact hitem
    | _ => exact h _ hitem
  codes code hcode := h (.code code) hcode
  mods i hi := by
    simp only [sendKeyboardReport, getLsbD_or_iff] at hi
    rcases hi with (hi | hi) | hi
    · exact .inl (h (.mod i) hi)
    · exact .inr (.inl (h (.weak i) hi))
    · exact .inr (.inr (h (.oneshot i) hi))

def Unreported (X : Item → Prop) : Prop := ∀ item, X item → match item with
  | .code _ | .mod _ | .weak _ | .oneshot _ => False
  | _ => True

theorem moves_quiet (hX : Unreported X) (hlast : ∀ s, (f s).lastReport = s.lastReport)
    (h : ∀ s item, Has (f s) item → Has s item ∧ ¬ X item ∨ Y item) : Moves X Y f := by
  intro B B' s hs hB hB'
  refine ⟨fun item hitem => ?_,fun code hcode => ?_,fun i hi => ?_⟩
  · rcases h s item hitem with ⟨hold,hno⟩ | hnew
    · exact (hB item (hs.has item hold)).resolve_left hno
    · exact hB' item hnew
  · rw [hlast] at hcode
    exact (hB _ (hs.codes code hcode)).resolve_left (hX (.code code))
  · rw [hlast] at hi
    exact (hs.mods i hi).imp (fun hitem => (hB _ hitem).resolve_left (hX (.mod i)))
      (.imp (fun hitem => (hB _ hitem).resolve_left (hX (.weak i)))
        fun hitem => (hB _ hitem).resolve_left (hX (.oneshot i)))

theorem unreported_nothing : Unreported nothing := fun _ => False.elim

theorem moves_send (h : ∀ s item, Has (f s) item → Has s item ∧ ¬ X item ∨ Y item) :
    Moves X Y fun s => sendKeyboardReport (f s) := by
  intro B B' s hs hB hB'
  refine send_within fun item hitem => ?_
  rcases h s item hitem with ⟨hold,hno⟩ | hnew
  · exact (hB item (hs.has item hold)).resolve_left hno
  · exact hB' item hnew

theorem basic_reportable {code : UInt8} (h : codeKind code = .basic) :
    code.toNat < 8*Report.nkroReportBits := by
  have hle : code ≤ 0xA4 := by
    unfold codeKind at h
    split_ifs at h with h₁ h₂
    exact h₂.2
  have hnat : code.toNat ≤ 164 := UInt8.le_iff_toNat_le.mp hle
  have hbits : 8*Report.nkroReportBits = 240 := rfl
  omega

theorem has_addMods {mods : BitVec 8} (s : State b) (item : Item) (h : Has (addMods mods s) item) :
    Has s item ∧ ¬ nothing item ∨ modItem mods item := by
  cases item with
  | mod i => exact (getLsbD_or_iff.mp h).imp_left fun h => ⟨h,id⟩
  | _ => exact .inl ⟨h,id⟩

theorem has_delMods {mods : BitVec 8} (s : State b) (item : Item) (h : Has (delMods mods s) item) :
    Has s item ∧ ¬ modItem mods item ∨ nothing item := by
  cases item with
  | mod i => exact .inl (getLsbD_without h)
  | _ => exact .inl ⟨h,id⟩

theorem has_addWeakMods {mods : BitVec 8} (s : State b) (item : Item)
    (h : Has (addWeakMods mods s) item) : Has s item ∧ ¬ nothing item ∨ weakItem mods item := by
  cases item with
  | weak i => exact (getLsbD_or_iff.mp h).imp_left fun h => ⟨h,id⟩
  | _ => exact .inl ⟨h,id⟩

theorem has_delWeakMods {mods : BitVec 8} (s : State b) (item : Item)
    (h : Has (delWeakMods mods s) item) : Has s item ∧ ¬ weakItem mods item ∨ nothing item := by
  cases item with
  | weak i => exact .inl (getLsbD_without h)
  | _ => exact .inl ⟨h,id⟩

theorem has_addKey {code : UInt8} (hcode : codeKind code = .basic) (s : State b) (item : Item)
    (h : Has (addKey code s) item) : Has s item ∧ ¬ nothing item ∨ item = .code code := by
  cases item with
  | code c =>
    exact (pressed_add (basic_reportable hcode) h).symm.imp (fun h => ⟨h,id⟩) fun hc => congrArg _ hc
  | _ => exact .inl ⟨h,id⟩

theorem has_delKey {code : UInt8} (hcode : codeKind code = .basic) (s : State b) (item : Item)
    (h : Has (delKey code s) item) : Has s item ∧ ¬ item = .code code ∨ nothing item := by
  cases item with
  | code c =>
    obtain ⟨hne,hc⟩ := pressed_del (basic_reportable hcode) h
    exact .inl ⟨hc,fun he => hne (Item.code.inj he)⟩
  | _ => exact .inl ⟨h,nofun⟩

theorem has_systemSend {usage : UInt16} (s : State b) (item : Item)
    (h : Has (hostSystemSend usage s) item) :
    Has s item ∧ ¬ item = .system ∨ usage ≠ 0 ∧ item = .system := by
  cases item with
  | system => exact .inr ⟨h,rfl⟩
  | _ => exact .inl ⟨h,nofun⟩

theorem has_consumerSend {usage : UInt16} (s : State b) (item : Item)
    (h : Has (hostConsumerSend usage s) item) :
    Has s item ∧ ¬ item = .consumer ∨ usage ≠ 0 ∧ item = .consumer := by
  cases item with
  | consumer => exact .inr ⟨h,rfl⟩
  | _ => exact .inl ⟨h,nofun⟩

theorem has_mouse {code : UInt8} {pressed : Bool} (s : State b) (item : Item)
    (h : Has (registerMouse code pressed s) item) :
    Has s item ∧ ¬ item = .mouse code ∨ pressed = true ∧ item = .mouse code := by
  cases item with
  | mouse c =>
    by_cases hc : c = code
    · subst hc
      simp only [Has, registerMouse, Function.update_self] at h
      exact .inr ⟨h,rfl⟩
    · simp only [Has, registerMouse, Function.update_of_ne hc] at h
      exact .inl ⟨h,fun he => hc (Item.mouse.inj he)⟩
  | _ => exact .inl ⟨h,nofun⟩

theorem unreported_eq {item : Item} (h : match item with
    | .code _ | .mod _ | .weak _ | .oneshot _ => False
    | _ => True) : Unreported (· = item) := by
  rintro _ rfl
  exact h

theorem moves_systemSend (usage : UInt16) : Moves (b := b) (· = .system)
    (fun item => usage ≠ 0 ∧ item = .system) (hostSystemSend usage) :=
  moves_quiet (unreported_eq trivial) (fun _ => rfl) has_systemSend

theorem moves_consumerSend (usage : UInt16) : Moves (b := b) (· = .consumer)
    (fun item => usage ≠ 0 ∧ item = .consumer) (hostConsumerSend usage) :=
  moves_quiet (unreported_eq trivial) (fun _ => rfl) has_consumerSend

theorem moves_mouse (code : UInt8) (pressed : Bool) : Moves (b := b) (· = .mouse code)
    (fun item => pressed = true ∧ item = .mouse code) (registerMouse code pressed) :=
  moves_quiet (unreported_eq trivial) (fun _ => rfl) has_mouse

theorem modBit_item (code : UInt8) {item : Item} :
    modItem (modBit code) item ↔ item = .mod (code.toNat % 8) := by
  cases item with
  | mod i =>
    have hlt : code.toNat % 8 < 8 := Nat.mod_lt _ (by decide)
    simp only [modItem, modBit, BitVec.getLsbD_twoPow, Bool.and_eq_true, decide_eq_true_eq,
      Item.mod.injEq]
    exact ⟨fun h => h.2.symm,fun h => ⟨hlt,h.symm⟩⟩
  | _ => exact ⟨False.elim,nofun⟩

theorem moves_addMods (mods : BitVec 8) :
    Moves (b := b) nothing (modItem mods) fun s => sendKeyboardReport (addMods mods s) :=
  moves_send has_addMods

theorem moves_delMods (mods : BitVec 8) :
    Moves (b := b) (modItem mods) nothing fun s => sendKeyboardReport (delMods mods s) :=
  moves_send has_delMods

theorem moves_registerCode (code : UInt8) :
    Moves (b := b) nothing (codeItem code) (registerCode code) := by
  unfold registerCode codeItem
  cases hkind : codeKind code with
  | no => exact moves_id fun _ => id
  | none => exact moves_id fun _ => id
  | basic =>
    intro B B' s h hB hB'
    have hout : Within B (if isKeyPressed b.nkro code s.report
        then sendKeyboardReport (delKey code s) else s) := by
      split
      · exact moves_send (has_delKey hkind) B B s h (fun _ => .inr) fun _ => False.elim
      · exact h
    exact moves_send (has_addKey hkind) B B' _ hout hB hB'
  | modifier => exact (moves_addMods _).mono (fun _ => id) fun _ => (modBit_item code).mp
  | system => exact (moves_systemSend _).mono (fun _ => False.elim) fun _ => And.right
  | consumer => exact (moves_consumerSend _).mono (fun _ => False.elim) fun _ => And.right
  | mouse => exact (moves_mouse _ _).mono (fun _ => False.elim) fun _ => And.right

theorem moves_unregisterCode (code : UInt8) :
    Moves (b := b) (codeItem code) nothing (unregisterCode code) := by
  unfold unregisterCode codeItem
  cases hkind : codeKind code with
  | no => exact moves_id fun _ => id
  | none => exact moves_id fun _ => id
  | basic => exact moves_send (has_delKey hkind)
  | modifier => exact (moves_delMods _).mono (fun _ => (modBit_item code).mpr) fun _ => id
  | system => exact (moves_systemSend 0).mono (fun _ => id) fun _ h => h.1 rfl
  | consumer => exact (moves_consumerSend 0).mono (fun _ => id) fun _ h => h.1 rfl
  | mouse => exact (moves_mouse code false).mono (fun _ => id) fun _ h => Bool.false_ne_true h.1

theorem modItem_zero {item : Item} : ¬ modItem 0 item := by
  cases item with
  | mod i => simp [modItem]
  | _ => exact id

theorem weakItem_zero {item : Item} : ¬ weakItem 0 item := by
  cases item with
  | weak i => simp [weakItem]
  | _ => exact id

theorem moves_registerMods (mods : BitVec 8) :
    Moves (b := b) nothing (modItem mods) (registerMods mods) :=
  Moves.ite (fun _ => moves_addMods mods) fun _ => moves_id fun _ => id

theorem moves_unregisterMods (mods : BitVec 8) :
    Moves (b := b) (modItem mods) nothing (unregisterMods mods) := by
  refine Moves.ite (fun _ => moves_delMods mods) fun h => moves_id fun item hitem => ?_
  rw [Decidable.not_not.mp h] at hitem
  exact modItem_zero hitem

theorem moves_modsKey_press (mods : BitVec 8) (code : UInt8) : Moves (b := b) nothing
    (fun item => codeItem code item ∨ keyMods mods code item) (modsKey mods code true) := by
  have hmods : Moves (b := b) nothing (keyMods mods code) fun s =>
      if mods ≠ 0 then sendKeyboardReport (if isModifierKeycode code || code == 0 then addMods mods s
        else addWeakMods mods s) else s := by
    refine Moves.ite (fun _ => moves_send fun s item hitem => ?_) fun _ => moves_id fun _ => id
    unfold keyMods
    split at hitem
    · rename_i hs
      rw [if_pos hs]
      exact has_addMods s item hitem
    · rename_i hs
      rw [if_neg hs]
      exact has_addWeakMods s item hitem
  exact (hmods.comp (moves_registerCode code)).mono (fun _ => .inl) fun _ => Or.symm

theorem moves_modsKey_release (mods : BitVec 8) (code : UInt8) : Moves (b := b)
    (fun item => codeItem code item ∨ keyMods mods code item) nothing (modsKey mods code false) := by
  have hmods : Moves (b := b) (keyMods mods code) nothing fun s =>
      if mods ≠ 0 then sendKeyboardReport (if isModifierKeycode code || code == 0 then delMods mods s
        else delWeakMods mods s) else s := by
    refine Moves.ite (fun _ => moves_send fun s item hitem => ?_) fun h => moves_id ?_
    · unfold keyMods
      split at hitem
      · rename_i hs
        rw [if_pos hs]
        exact has_delMods s item hitem
      · rename_i hs
        rw [if_neg hs]
        exact has_delWeakMods s item hitem
    · intro item
      rw [Decidable.not_not.mp h, keyMods]
      split
      · exact modItem_zero
      · exact weakItem_zero
  exact ((moves_unregisterCode code).comp hmods).mono (fun _ => id) fun _ => Or.rec id id

theorem layerBit_get {l i : Nat} (h : (layerBit (b := b) l).getLsbD i = true) : i = l := by
  simp only [layerBit, BitVec.getLsbD_twoPow, Bool.and_eq_true, decide_eq_true_eq] at h
  exact h.2.symm

theorem unreported_layer (l : Nat) : Unreported (· = .layer l) := unreported_eq trivial

theorem moves_layerStateSet {X Y : Item → Prop} (hX : Unreported X)
    {state : State b → BitVec b.layers.size.width}
    (hon : ∀ s l, (state s).getLsbD l = true →
      s.layers.layerState.getLsbD l = true ∧ ¬ X (.layer l) ∨ Y (.layer l))
    (hoff : ∀ item, X item → ∃ l, item = .layer l) :
    Moves X Y fun s : State b => layerStateSet (state s) s := by
  refine moves_quiet hX (fun _ => rfl) fun s item hitem => ?_
  cases item with
  | layer l => exact hon s l hitem
  | _ => exact .inl ⟨hitem,fun hx => by obtain ⟨l,hl⟩ := hoff _ hx; cases hl⟩

theorem moves_layerOn (l : Nat) : Moves (b := b) nothing (· = .layer l) (layerOn l) :=
  moves_layerStateSet unreported_nothing (fun _ _ h => (getLsbD_or_iff.mp h).imp (fun h => ⟨h,id⟩)
    fun h => congrArg _ (layerBit_get h)) fun _ => False.elim

theorem moves_layerOff (l : Nat) : Moves (b := b) (· = .layer l) nothing (layerOff l) := by
  refine moves_layerStateSet (unreported_layer l) (fun s i h => .inl ?_) fun _ h => ⟨l,h⟩
  obtain ⟨hold,hno⟩ := getLsbD_without h
  refine ⟨hold,fun he => hno ?_⟩
  cases he
  rw [layerBit, BitVec.getLsbD_twoPow, decide_eq_true rfl, Bool.and_true, decide_eq_true_eq]
  exact BitVec.lt_of_getLsbD hold

theorem getLsbD_xor_imp {w : Nat} {x y : BitVec w} {i : Nat} (h : (x ^^^ y).getLsbD i = true) :
    x.getLsbD i = true ∨ y.getLsbD i = true := by
  rw [BitVec.getLsbD_xor] at h
  cases hx : x.getLsbD i with
  | true => exact .inl rfl
  | false => exact .inr (by simpa [hx] using h)

theorem moves_layerInvert (l : Nat) : Moves (b := b) nothing (· = .layer l) (layerInvert l) :=
  moves_layerStateSet unreported_nothing (fun _ _ h => (getLsbD_xor_imp h).imp (fun h => ⟨h,id⟩)
    fun h => congrArg _ (layerBit_get h)) fun _ => False.elim

theorem moves_layerMove (l : Nat) : Moves (b := b) nothing (· = .layer l) (layerMove l) :=
  moves_layerStateSet unreported_nothing (fun _ _ h => .inr (congrArg _ (layerBit_get h)))
    fun _ => False.elim

theorem moves_layerClear (l : Nat) : Moves (b := b) (· = .layer l) nothing layerClear :=
  moves_layerStateSet (unreported_layer l) (fun _ _ h => by simp at h) fun _ h => ⟨l,h⟩

theorem moves_keep (hlast : ∀ s, (f s).lastReport = s.lastReport)
    (h : ∀ s item, Has (f s) item → Has s item) : Moves nothing nothing f :=
  moves_quiet unreported_nothing hlast fun s item hitem => .inl ⟨h s item hitem,id⟩

theorem moves_clearOneshotLayerState (state : BitVec 3) :
    Moves (b := b) nothing nothing (clearOneshotLayerState state) := by
  refine moves_keep (fun s => ?_) fun s item hitem => ?_
  · unfold clearOneshotLayerState
    dsimp only
    split <;> rfl
  · unfold clearOneshotLayerState at hitem
    dsimp only at hitem
    split at hitem
    · cases item with
      | layer l => exact (getLsbD_without hitem).1
      | _ => exact hitem
    · cases item <;> exact hitem

theorem moves_setOneshotLayer (layer : Nat) (state : BitVec 3) :
    Moves (b := b) nothing (· = .layer layer) (setOneshotLayer layer state) := by
  have hdata : Moves (b := b) nothing nothing fun s =>
      { s with oneshotLayerData := ⟨layer,state⟩ } :=
    moves_keep (fun _ => rfl) fun s item hitem => by cases item <;> exact hitem
  intro B B' s h hB hB'
  unfold setOneshotLayer
  split
  · exact moves_layerOn layer B B' _ (hdata B B s h (fun _ => .inr) fun _ => False.elim) hB hB'
  · exact moves_layerOn layer B B' s h hB hB'

theorem moves_addOneshotMods (mods : BitVec 8) :
    Moves (b := b) nothing (oneshotItem mods) (addOneshotMods mods) := by
  refine moves_quiet unreported_nothing (fun _ => rfl) fun s item hitem => ?_
  cases item with
  | oneshot i => exact (getLsbD_or_iff.mp hitem).imp_left fun h => ⟨h,id⟩
  | _ => exact .inl ⟨hitem,id⟩

theorem moves_delOneshotMods (mods : BitVec 8) :
    Moves (b := b) nothing nothing (delOneshotMods mods) := by
  refine moves_keep (fun _ => rfl) fun s item hitem => ?_
  cases item with
  | oneshot i => exact (getLsbD_without hitem).1
  | _ => exact hitem

theorem moves_clearWeakMods : Moves (b := b) nothing nothing clearWeakMods := by
  refine moves_keep (fun _ => rfl) fun s item hitem => ?_
  cases item with
  | weak i => simp [Has, clearWeakMods] at hitem
  | _ => exact hitem

theorem keyMods_no {mods : BitVec 8} {item : Item} :
    codeItem 0 item ∨ keyMods mods 0 item ↔ modItem mods item := by
  have hno : ¬ codeItem 0 item := id
  rw [or_iff_right hno]
  exact Iff.rfl

theorem moves_oneshotModsKey_press (mods : BitVec 8) (tapCount : Nat) (oneshot : Bool) :
    MovesWhen (b := b) oneshot nothing (fun item =>
      (oneshot = false ∨ tapCount = 0) ∧ modItem mods item
        ∨ oneshot = true ∧ 0 < tapCount ∧ oneshotItem mods item)
      (oneshotModsKey mods true tapCount) := by
  intro B B' s he h hB hB'
  unfold oneshotModsKey
  rw [he]
  cases oneshot with
  | false =>
    exact moves_modsKey_press mods 0 B B' s h hB fun item hitem =>
      hB' item (.inl ⟨.inl rfl,keyMods_no.mp hitem⟩)
  | true =>
    simp only [Bool.not_true, Bool.false_eq_true, if_false, if_true]
    split
    · exact moves_registerMods mods B B' s h hB fun item hitem =>
        hB' item (.inl ⟨.inr ‹_›,hitem⟩)
    · split
      · exact moves_addOneshotMods mods B B' s h hB fun item hitem =>
          hB' item (.inr ⟨rfl,Nat.pos_of_ne_zero ‹_›,hitem⟩)
      · exact moves_id (fun _ => id) B B' s h hB hB'

theorem moves_oneshotModsKey_release (mods : BitVec 8) (tapCount : Nat) (oneshot : Bool) :
    MovesWhen (b := b) oneshot
      (fun item => (oneshot = false ∨ tapCount = 0) ∧ modItem mods item) nothing
      (oneshotModsKey mods false tapCount) := by
  intro B B' s he h hB hB'
  unfold oneshotModsKey
  rw [he]
  cases oneshot with
  | false =>
    exact moves_modsKey_release mods 0 B B' s h
      (fun item hitem => (hB item hitem).imp_left fun h => keyMods_no.mpr h.2) hB'
  | true =>
    simp only [Bool.not_true, Bool.false_eq_true, if_false]
    split
    · refine ((moves_unregisterMods mods).comp (moves_delOneshotMods mods)) B B' s h
        (fun item hitem => (hB item hitem).imp_left fun h => .inl h.2) fun _ => Or.rec ?_ ?_
      · exact False.elim
      · exact False.elim
    · rename_i hcount
      exact moves_id (fun item h => h.1.elim Bool.noConfusion hcount) B B' s h hB hB'

theorem moves_oneshotLayerKey_press (layer : Nat) (tapCount : Nat) (oneshot : Bool) :
    MovesWhen (b := b) oneshot nothing
      (fun item => oneshot = false ∧ item = .layer layer ∨ oneshot = true ∧ item = .layer layer)
      (oneshotLayerKey layer true tapCount) := by
  intro B B' s he h hB hB'
  unfold oneshotLayerKey
  rw [he]
  cases oneshot with
  | false => exact moves_layerOn layer B B' s h hB fun item hitem => hB' item (.inl ⟨rfl,hitem⟩)
  | true =>
    exact moves_setOneshotLayer layer _ B B' s h hB fun item hitem => hB' item (.inr ⟨rfl,hitem⟩)

theorem moves_oneshotLayerKey_release (layer : Nat) (tapCount : Nat) (oneshot : Bool) :
    MovesWhen (b := b) oneshot (fun item => oneshot = false ∧ item = .layer layer) nothing
      (oneshotLayerKey layer false tapCount) := by
  have hclear : ∀ state B s, Within B s → Within B (clearOneshotLayerState (b := b) state s) :=
    fun state B s h => moves_clearOneshotLayerState state B B s h (fun _ => .inr) fun _ => False.elim
  intro B B' s he h hB hB'
  unfold oneshotLayerKey
  rw [he]
  cases oneshot with
  | false =>
    exact moves_layerOff layer B B' s h
      (fun item hitem => (hB item hitem).imp_left And.right) hB'
  | true =>
    have hfree : Within B' s :=
      h.mono fun item hitem => (hB item hitem).resolve_left fun h => Bool.noConfusion h.1
    simp only [Bool.not_true, Bool.false_eq_true, if_false]
    split
    · exact hclear _ _ _ (hclear _ _ _ hfree)
    · exact hclear _ _ _ hfree

theorem bitOp_get {op : Nat} {state bits : BitVec b.layers.size.width} {l : Nat}
    (h : (bitOp op state bits).getLsbD l = true) :
    state.getLsbD l = true ∨ op ≠ 0 ∧ bits.getLsbD l = true := by
  unfold bitOp at h
  split at h
  · rw [BitVec.getLsbD_and, Bool.and_eq_true] at h
    exact .inl h.1
  · exact (getLsbD_or_iff.mp h).imp_right fun h => ⟨by decide,h⟩
  · exact (getLsbD_xor_imp h).imp_right fun h => ⟨by decide,h⟩
  · rename_i h0 _ _
    exact .inr ⟨h0,h⟩

theorem moves_layerKey (op on part : Nat) (xbit : Bool) (bits tapCount : Nat)
    (oneshot pressed : Bool) :
    Moves (b := b) nothing (leaves b oneshot tapCount (.layer op on part xbit bits))
      (layerKey op on (layerBits part xbit bits) pressed) := by
  refine Moves.ite (fun _ => ?_) fun hon => Moves.ite (fun _ => ?_) fun _ => moves_id fun _ => id
  · cases pressed with
    | true => exact moves_id fun _ => id
    | false =>
      refine moves_quiet unreported_nothing (fun _ => rfl) fun s item hitem => .inl ⟨?_,id⟩
      cases item <;> exact hitem
  · refine moves_layerStateSet unreported_nothing (fun s l h => ?_) fun _ => False.elim
    exact (bitOp_get h).imp (fun h => ⟨h,id⟩) fun h => ⟨h.1,hon,l,rfl,h.2⟩

theorem moves_tapKey_press {code : UInt8} {tapCount : Nat} {held : Item → Prop}
    {hold : State b → State b} (hhold : Moves nothing held hold) :
    Moves nothing (fun item => if 0 < tapCount then codeItem code item else held item)
      fun s => if 0 < tapCount then registerCode code s else hold s :=
  Moves.ite (fun hc => (moves_registerCode code).mono (fun _ => id) fun _ h => by rwa [if_pos hc])
    fun hc => hhold.mono (fun _ => id) fun _ h => by rwa [if_neg hc]

theorem moves_tapKey_release {code : UInt8} {tapCount : Nat} {held : Item → Prop}
    {free : State b → State b} (hfree : Moves held nothing free) :
    Moves (fun item => if 0 < tapCount then codeItem code item else held item) nothing
      fun s => if 0 < tapCount then unregisterCode code s else free s :=
  Moves.ite (fun hc => (moves_unregisterCode code).mono (fun _ h => by rwa [if_pos hc] at h)
    fun _ => id) fun hc => hfree.mono (fun _ h => by rwa [if_neg hc] at h) fun _ => id

theorem moves_press (oneshot : Bool) (tapCount : Nat) (act : Act) : MovesWhen (b := b) oneshot
    nothing (fun item => keeps b oneshot tapCount act item ∨ leaves b oneshot tapCount act item)
    (performAction true tapCount act) := by
  cases act with
  | mods mods code =>
    exact ((moves_modsKey_press mods code).mono (fun _ => id) fun _ => .inl).when oneshot
  | modsTap mods code =>
    unfold performAction keeps leaves modsTapKey
    dsimp only
    cases modsTapOp code <;> simp only [↓reduceIte, or_false]
    case oneshot => exact moves_oneshotModsKey_press mods tapCount oneshot
    case tapToggle =>
      refine Moves.when (Moves.ite (fun hle => (moves_registerMods mods).mono (fun _ => id)
        fun item h => ?_) fun _ => moves_id fun _ => id) oneshot
      exact (Nat.lt_or_eq_of_le hle).imp (fun hlt => ⟨hlt,h⟩) fun heq => ⟨heq,h⟩
    case tapKey => exact (moves_tapKey_press (moves_registerMods mods)).when oneshot
  | usage page code =>
    exact (Moves.ite (fun hp => (moves_systemSend _).mono (fun _ => False.elim) fun item h =>
      .inl (.inl ⟨hp,h.2⟩)) fun _ => Moves.ite (fun hp => (moves_consumerSend _).mono
        (fun _ => False.elim) fun item h => .inl (.inr ⟨hp,h.2⟩))
          fun _ => moves_id fun _ => id).when oneshot
  | mousekey code =>
    exact ((moves_mouse code true).mono (fun _ => False.elim) fun _ h => .inl h.2).when oneshot
  | layer op on part xbit bits =>
    exact ((moves_layerKey op on part xbit bits tapCount oneshot true).mono (fun _ => id)
      fun _ => .inr).when oneshot
  | layerMods layer mods =>
    exact (((moves_layerOn layer).comp (moves_registerMods mods)).mono (fun _ => .inl)
      fun _ => .inl).when oneshot
  | layerTap val code =>
    unfold performAction keeps leaves layerTapKey
    dsimp only
    cases layerTapOp code <;> simp only [↓reduceIte, or_false, false_or]
    case tapToggle =>
      exact (Moves.ite (fun _ => moves_layerInvert val) fun _ => moves_id fun _ => id).when oneshot
    case onOff => exact (moves_layerOn val).when oneshot
    case offOn =>
      exact ((moves_layerOff val).mono (fun _ => False.elim) fun _ => False.elim).when oneshot
    case setClear => exact (moves_layerMove val).when oneshot
    case oneshot => exact moves_oneshotLayerKey_press val tapCount oneshot
    case tapKey => exact (moves_tapKey_press (moves_layerOn val)).when oneshot
  | other => exact Moves.when (moves_id fun _ => id) oneshot

theorem moves_release (oneshot : Bool) (tapCount : Nat) (act : Act) : MovesWhen (b := b) oneshot
    (keeps b oneshot tapCount act) (leaves b oneshot tapCount act)
    (performAction false tapCount act) := by
  cases act with
  | mods mods code =>
    exact ((moves_modsKey_release mods code).mono (fun _ => id) fun _ => False.elim).when oneshot
  | modsTap mods code =>
    unfold performAction keeps leaves modsTapKey
    dsimp only
    cases modsTapOp code <;> simp only [Bool.false_eq_true, ↓reduceIte]
    case oneshot =>
      exact fun B B' s he h hB _ => moves_oneshotModsKey_release mods tapCount oneshot B B' s he h hB
        fun _ => False.elim
    case tapToggle =>
      exact Moves.when (Moves.ite (fun _ => (moves_unregisterMods mods).mono (fun _ => And.right)
        fun _ => False.elim) fun hno => moves_id fun _ h => hno h.1) oneshot
    case tapKey => exact (moves_tapKey_release (moves_unregisterMods mods)).when oneshot
  | usage page code =>
    refine Moves.when (Moves.ite (fun hp => (moves_systemSend 0).mono (fun item h => ?_)
      fun _ h => (h.1 rfl).elim) fun hs => Moves.ite (fun hp => (moves_consumerSend 0).mono
        (fun item h => ?_) fun _ h => (h.1 rfl).elim) fun hc => moves_id fun item h => ?_) oneshot
    · refine h.elim And.right fun h => ?_
      rw [hp] at h
      exact absurd h.1 (by decide)
    · exact h.elim (fun h => absurd h.1 hs) And.right
    · exact h.elim (fun h => hs h.1) fun h => hc h.1
  | mousekey code =>
    exact ((moves_mouse code false).mono (fun _ => id) fun _ h => Bool.noConfusion h.1).when oneshot
  | layer op on part xbit bits =>
    exact (moves_layerKey op on part xbit bits tapCount oneshot false).when oneshot
  | layerMods layer mods =>
    exact (((moves_unregisterMods mods).comp (moves_layerOff layer)).mono (fun _ => Or.symm)
      fun _ => Or.rec id id).when oneshot
  | layerTap val code =>
    unfold performAction keeps leaves layerTapKey
    dsimp only
    cases layerTapOp code <;> simp only [Bool.false_eq_true, ↓reduceIte]
    case tapToggle =>
      exact (Moves.ite (fun _ => moves_layerInvert val) fun _ => moves_id fun _ => id).when oneshot
    case onOff => exact (moves_layerOff val).when oneshot
    case offOn => exact (moves_layerOn val).when oneshot
    case setClear => exact (moves_layerClear val).when oneshot
    case oneshot =>
      exact fun B B' s he h hB _ => moves_oneshotLayerKey_release val tapCount oneshot B B' s he h hB
        fun _ => False.elim
    case tapKey => exact (moves_tapKey_release (moves_layerOff val)).when oneshot
  | other => exact Moves.when (moves_id fun _ => id) oneshot

end QmkFirmware.Action
