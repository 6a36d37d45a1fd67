import Mathlib.Data.Fintype.Option
import QmkFirmware.KeyOverride.Core
import QmkFirmware.Lib.Along

/-!
When key overrides leave nothing stuck.
-/

set_option autoImplicit false

namespace QmkFirmware.KeyOverride

section
variable {κ : Type} (cfg : Config)

def IsDown (down : κ → Option UInt16) (code : UInt16) : Prop := ∃ k, down k = some code

def Sends (s : State) (code : UInt16) : Prop :=
  ∃ active ∈ s.activeOverride, clearModsFrom active.replacement = code

def Triggers (code : UInt16) : Prop := ∃ override ∈ cfg.overrides, override.trigger = code

/-- Without an active override none of its modifiers are set; a pending keycode is the replacement
of the active override or a trigger that is held; and with all keys released and nothing pending no
key is left in the report. -/
structure NothingStuck (v : World κ) : Prop where
  quiet : v.state.activeOverride = none →
    v.state.weakOverrideMods = 0 ∧ v.state.suppressedMods = 0
  deferred : v.state.deferredRegister ≠ 0 → Sends v.state v.state.deferredRegister
    ∨ Triggers cfg v.state.deferredRegister ∧ IsDown v.down v.state.deferredRegister
  released : (∀ k, v.down k = none) → v.state.deferredRegister = 0 →
    ∀ key, Report.isKeyPressed cfg.nkro key v.state.report = false

/-- The call comes to `try_activating_override`. -/
def tries (keycode : UInt16) (keyDown : Bool) (s : State) : Bool :=
  !(keyDown && isControl keycode) && s.enabled && (isModifierKeycode keycode || keyDown)

/-- Of the overrides that the modifiers fit, those without a trigger need modifiers and are fit by
the ones that are held, and those with `last_key_down` for a trigger have it held when a modifier
comes. -/
def Founded (held : UInt16 → Prop) (seen : Seen) (keycode : UInt16) (keyDown : Bool) (s : State) :
    Prop :=
  tries keycode keyDown s = true → ∀ override ∈ cfg.overrides,
    keyOverrideMatchesActiveModifiers override (eventOf seen keycode keyDown s).mods = true →
      (override.trigger = kcNo → override.triggerMods ≠ 0 ∧ keyOverrideMatchesActiveModifiers
        override (modsAfter keycode keyDown s.mods) = true)
      ∧ (isModifierKeycode keycode = true → override.trigger ≠ kcNo →
        override.trigger = s.lastKeyDown → held override.trigger)

variable [DecidableEq κ]

/-- Moreover, a key with the pending keycode is only released if it is `last_key_down` and overrides
are enabled, if the keycode is the active override's replacement, or if another key has it. -/
def Clear (v : World κ) : Input κ → Prop
  | .task _ => True
  | .key k keycode seen =>
    match v.down k with
    | none => Founded cfg (IsDown v.down) seen keycode true v.state
    | some code => Founded cfg (IsDown v.down) seen code false v.state ∧
      (code = v.state.deferredRegister → v.state.enabled = true ∧ code = v.state.lastKeyDown
        ∨ Sends v.state code ∨ IsDown (Function.update v.down k none) code)

end

section
variable {cfg : Config} {P Q : UInt16 → Prop} {r : Report.Reports} {code : UInt16}

def Reported (cfg : Config) (P : UInt16 → Prop) (r : Report.Reports) : Prop :=
  ∀ key, Report.isKeyPressed cfg.nkro key r = true →
    ∃ code, isBasicKeycode code = true ∧ code.toUInt8 = key ∧ P code

theorem basic_toNat (h : isBasicKeycode code = true) : 4 ≤ code.toNat ∧ code.toNat ≤ 164 := by
  simp only [isBasicKeycode, Bool.and_eq_true, decide_eq_true_eq, UInt16.le_iff_toNat_le] at h
  exact h

theorem basic_reportable (h : isBasicKeycode code = true) :
    code.toUInt8.toNat < 8*Report.nkroReportBits := by
  have hcode := basic_toNat h
  rw [UInt16.toNat_toUInt8, Report.nkroReportBits]
  omega

theorem not_modifier (h : isBasicKeycode code = true) : isModifierKeycode code = false := by
  have hcode := basic_toNat h
  rw [Bool.eq_false_iff, isModifierKeycode, Ne, Bool.and_eq_true, decide_eq_true_eq,
    UInt16.le_iff_toNat_le]
  exact fun hmod => absurd hmod.1 (by simpa using by omega)

theorem Reported.mono (h : Reported cfg P r)
    (himp : ∀ code, isBasicKeycode code = true → P code → Q code) : Reported cfg Q r := by
  intro key hkey
  obtain ⟨code, hbasic, hcode, hP⟩ := h key hkey
  exact ⟨code,hbasic,hcode,himp code hbasic hP⟩

theorem Reported.add (h : Reported cfg P r) (hbasic : isBasicKeycode code = true) (hP : P code) :
    Reported cfg P (Report.addKeyToReport cfg.nkro code.toUInt8 r) := by
  intro key hkey
  rcases Report.pressed_add (basic_reportable hbasic) hkey with rfl | hkey
  · exact ⟨code,hbasic,rfl,hP⟩
  · exact h key hkey

theorem Reported.del (h : Reported cfg P r) (hbasic : isBasicKeycode code = true) :
    Reported cfg (fun code' => P code' ∧ code' ≠ code)
      (Report.delKeyFromReport cfg.nkro code.toUInt8 r) := by
  intro key hkey
  obtain ⟨hne, hkey⟩ := Report.pressed_del (basic_reportable hbasic) hkey
  obtain ⟨code', hbasic', hcode', hP⟩ := h key hkey
  exact ⟨code',hbasic',hcode',hP,fun heq => hne (heq ▸ hcode'.symm)⟩

end

theorem registers_iff {code : UInt16} (h : code = kcNo ∨ isBasicKeycode code = true) :
    registers code = true ↔ isBasicKeycode code = true := by
  rcases h with rfl | hbasic
  · decide
  · have hcode := basic_toNat hbasic
    refine iff_of_true ?_ hbasic
    rw [registers, Bool.and_eq_true, bne_iff_ne, decide_eq_true_eq, UInt16.lt_iff_toNat_lt]
    refine ⟨fun hno => ?_,hcode.2.trans_lt (by decide)⟩
    rw [hno] at hcode
    exact absurd hcode.1 (by decide)

/-- The state of key overrides, with the keycodes `D` that are held. The real modifiers and
`enabled` are named, as no call but the control keys and the default action changes them. -/
structure Kept (cfg : Config) (realMods : BitVec 8) (on : Bool) (D : UInt16 → Prop) (s : State) :
    Prop where
  mods : s.mods = realMods
  enabled : s.enabled = on
  off : on = false → s.activeOverride = none
  listed : ∀ active ∈ s.activeOverride, active ∈ cfg.overrides
  quiet : s.activeOverride = none → s.weakOverrideMods = 0 ∧ s.suppressedMods = 0
  deferred : s.deferredRegister ≠ 0 →
    Sends s s.deferredRegister ∨ Triggers cfg s.deferredRegister ∧ D s.deferredRegister
  trigger : ∀ active ∈ s.activeOverride, active.trigger ≠ kcNo → D active.trigger

/-- Moreover, the report has keycodes of `E` and what the active override sends. -/
structure Backed (cfg : Config) (realMods : BitVec 8) (on : Bool) (D E : UInt16 → Prop)
    (s : State) : Prop extends Kept cfg realMods on D s where
  report : Reported cfg (fun code => Sends s code ∨ E code) s.report

structure Cleared (cfg : Config) (allowReregister : Bool) (s s' : State) : Prop where
  active : s'.activeOverride = none
  quiet : s'.weakOverrideMods = 0 ∧ s'.suppressedMods = 0
  deferred : s'.deferredRegister ≠ 0 →
    s.activeOverride = none ∧ s'.deferredRegister = s.deferredRegister
    ∨ allowReregister = true ∧ ∃ old ∈ s.activeOverride, old.trigger ≠ kcNo
      ∧ s'.deferredRegister = old.trigger
  report : ∀ E : UInt16 → Prop, Reported cfg (fun code => Sends s code ∨ E code) s.report →
    Reported cfg E s'.report

section
variable {cfg : Config} {mods : BitVec 8} {on : Bool} {D D' E E' : UInt16 → Prop}
  {s s' : State} {code : UInt16} {allowReregister : Bool} {now : UInt32}

theorem sends_none (h : s.activeOverride = none) : ¬ Sends s code := by
  rintro ⟨active, hactive, -⟩
  rw [h] at hactive
  exact absurd hactive (by simp)

theorem sends_some {override : Override} (h : s.activeOverride = some override) :
    Sends s code ↔ clearModsFrom override.replacement = code := by
  simp [Sends,h]

theorem unregisterCode_basic (h : isBasicKeycode code = true) :
    unregisterCode cfg code s = delKey cfg code s := by rw [unregisterCode, if_pos h]

theorem schedule_eq (cfg : Config) (code : UInt16) (now : UInt32) (s : State) :
    ∃ time delay, scheduleDeferredRegister cfg code now s = { s with
      deferReferenceTime := time, deferDelay := delay, deferredRegister := code } := by
  unfold scheduleDeferredRegister
  split
  · exact ⟨_,_,rfl⟩
  · exact ⟨_,_,rfl⟩

theorem Kept.deferred_basic (h : Kept cfg mods on D s) (hne : s.deferredRegister ≠ 0) :
    isBasicKeycode s.deferredRegister = true := by
  rcases h.deferred hne with ⟨active, -, heq⟩ | ⟨⟨override, -, heq⟩, -⟩
  · exact heq ▸ active.replacement_basic.resolve_left (heq ▸ hne)
  · exact heq ▸ override.trigger_basic.resolve_left (heq ▸ hne)

theorem Kept.mono (h : Kept cfg mods on D s)
    (himp : ∀ code, isBasicKeycode code = true → D code → D' code) : Kept cfg mods on D' s :=
  { h with
    deferred := fun hne => (h.deferred hne).imp_right
      (And.imp_right (himp _ (h.deferred_basic hne)))
    trigger := fun active hactive hno => himp _ (active.trigger_basic.resolve_left hno)
      (h.trigger active hactive hno) }

theorem Backed.mono (h : Backed cfg mods on D E s)
    (himp : ∀ code, isBasicKeycode code = true → D code → D' code)
    (himp' : ∀ code, isBasicKeycode code = true → E code → E' code) :
    Backed cfg mods on D' E' s :=
  ⟨h.toKept.mono himp,h.report.mono fun code hbasic => Or.imp_right (himp' code hbasic)⟩

theorem Backed.addKey (h : Backed cfg mods on D E s) (hbasic : isBasicKeycode code = true)
    (hcode : Sends s code ∨ E code) : Backed cfg mods on D E (addKey cfg code s) :=
  ⟨⟨h.mods,h.enabled,h.off,h.listed,h.quiet,h.deferred,h.trigger⟩,h.report.add hbasic hcode⟩

theorem Backed.delKey (h : Backed cfg mods on D E s) (hbasic : isBasicKeycode code = true) :
    Backed cfg mods on D (fun code' => E code' ∧ code' ≠ code) (delKey cfg code s) :=
  ⟨⟨h.mods,h.enabled,h.off,h.listed,h.quiet,h.deferred,h.trigger⟩,
    (h.report.del hbasic).mono fun _ _ hcode => hcode.1.imp_right fun hE => ⟨hE,hcode.2⟩⟩

theorem Backed.register (h : Backed cfg mods on D E s) (hbasic : isBasicKeycode code = true)
    (hcode : Sends s code ∨ E code) : Backed cfg mods on D E (registerCode cfg code s) := by
  rw [registerCode, if_pos hbasic]
  split
  · exact ((h.delKey hbasic).mono (fun _ _ => id) fun _ _ => And.left).addKey hbasic hcode
  · exact h.addKey hbasic hcode

theorem Backed.schedule (h : Backed cfg mods on D E s)
    (hcode : Sends s code ∨ Triggers cfg code ∧ D code) :
    Backed cfg mods on D E (scheduleDeferredRegister cfg code now s) := by
  obtain ⟨time, delay, heq⟩ := schedule_eq cfg code now s
  rw [heq]
  exact ⟨⟨h.mods,h.enabled,h.off,h.listed,h.quiet,fun _ => hcode,h.trigger⟩,h.report⟩

theorem unregisterReplacement_eq (cfg : Config) (old : Override) (s : State) : ∃ report,
    unregisterReplacement cfg old s = { s with report := report }
    ∧ ∀ E : UInt16 → Prop, Reported cfg (fun code => clearModsFrom old.replacement = code ∨ E code)
      s.report → Reported cfg E report := by
  have hiff := registers_iff old.replacement_basic
  rw [unregisterReplacement]
  split
  next hregisters =>
    have hbasic := hiff.mp hregisters
    rw [unregisterCode_basic hbasic]
    exact ⟨_,rfl,fun E hold => (hold.del hbasic).mono fun code _ hcode =>
      hcode.1.resolve_left hcode.2.symm⟩
  next hregisters =>
    exact ⟨s.report,rfl,fun E hold => hold.mono fun code hbasic hcode =>
      hcode.resolve_left fun heq => hregisters (hiff.mpr (heq ▸ hbasic))⟩

theorem reregisterTrigger_eq (cfg : Config) (old : Override) (allowReregister : Bool) (now : UInt32)
    (s : State) : ∃ time delay deferred, reregisterTrigger cfg old allowReregister now s = { s with
      deferReferenceTime := time, deferDelay := delay, deferredRegister := deferred }
    ∧ (deferred = s.deferredRegister ∨ allowReregister = true ∧ deferred = old.trigger) := by
  rw [reregisterTrigger]
  split
  next hallow =>
    simp only [Bool.and_eq_true] at hallow
    obtain ⟨time, delay, heq⟩ := schedule_eq cfg old.trigger now s
    exact ⟨time,delay,old.trigger,heq,.inr ⟨hallow.1.1.1,rfl⟩⟩
  next => exact ⟨_,_,_,rfl,.inl rfl⟩

theorem clearActiveOverride_eq (cfg : Config) {old : Override} (h : s.activeOverride = some old)
    (allowReregister : Bool) (now : UInt32) : ∃ report time delay deferred,
    clearActiveOverride cfg allowReregister now s = { s with
      activeOverride := none, triggerIsDown := false, deferReferenceTime := time,
      deferDelay := delay, deferredRegister := deferred, weakOverrideMods := 0,
      suppressedMods := 0, report := report }
    ∧ (deferred = 0 ∨ allowReregister = true ∧ deferred = old.trigger)
    ∧ ∀ E : UInt16 → Prop, Reported cfg (fun code => clearModsFrom old.replacement = code ∨ E code)
      s.report → Reported cfg E report := by
  rw [clearActiveOverride, h]
  dsimp only
  obtain ⟨report, heq, hreport⟩ := unregisterReplacement_eq cfg old
    { s with deferredRegister := 0, suppressedMods := 0, weakOverrideMods := 0 }
  rw [h] at heq
  rw [heq]
  obtain ⟨time, delay, deferred, heq, hdeferred⟩ := reregisterTrigger_eq cfg old allowReregister now
    { s with deferredRegister := 0, suppressedMods := 0, weakOverrideMods := 0, report := report }
  rw [h] at heq
  rw [heq]
  exact ⟨report,time,delay,deferred,rfl,hdeferred,hreport⟩

theorem clearActiveOverride_none (h : s.activeOverride = none) (allowReregister : Bool)
    (now : UInt32) : clearActiveOverride cfg allowReregister now s = s := by
  rw [clearActiveOverride, h]

theorem clearActiveOverride_active (cfg : Config) (allowReregister : Bool) (now : UInt32)
    (s : State) :
    (clearActiveOverride cfg allowReregister now s).activeOverride = none := by
  cases h : s.activeOverride with
  | none => rw [clearActiveOverride_none h, h]
  | some old =>
    obtain ⟨report, time, delay, deferred, heq, -⟩ :=
      clearActiveOverride_eq cfg h allowReregister now
    rw [heq]

theorem clearActiveOverride_mods (cfg : Config) (allowReregister : Bool) (now : UInt32)
    (s : State) :
    (clearActiveOverride cfg allowReregister now s).mods = s.mods
      ∧ (clearActiveOverride cfg allowReregister now s).enabled = s.enabled := by
  cases h : s.activeOverride with
  | none =>
    rw [clearActiveOverride_none h]
    exact ⟨rfl,rfl⟩
  | some old =>
    obtain ⟨report, time, delay, deferred, heq, -⟩ :=
      clearActiveOverride_eq cfg h allowReregister now
    rw [heq]
    exact ⟨rfl,rfl⟩

theorem clearActiveOverride_cleared (cfg : Config)
    (hquiet : s.activeOverride = none → s.weakOverrideMods = 0 ∧ s.suppressedMods = 0)
    (allowReregister : Bool) (now : UInt32) :
    Cleared cfg allowReregister s (clearActiveOverride cfg allowReregister now s) := by
  cases h : s.activeOverride with
  | none =>
    rw [clearActiveOverride_none h]
    exact ⟨h,hquiet h,fun _ => .inl ⟨h,rfl⟩,fun E hE => hE.mono fun code _ hcode =>
      hcode.resolve_left (sends_none h)⟩
  | some old =>
    obtain ⟨report, time, delay, deferred, heq, hdeferred, hreport⟩ :=
      clearActiveOverride_eq cfg h allowReregister now
    rw [heq]
    refine ⟨rfl,⟨rfl,rfl⟩,fun hne => ?_,fun E hE => hreport E (hE.mono fun code _ =>
      Or.imp_left (sends_some h).mp)⟩
    obtain ⟨hallow, htrigger⟩ := hdeferred.resolve_left hne
    exact .inr ⟨hallow,old,h,fun hno => hne (htrigger.trans hno),htrigger⟩

theorem Backed.cleared {mods' : BitVec 8} {on' : Bool} (h : Backed cfg mods on D E s)
    (hc : Cleared cfg allowReregister s s') (hmods : s'.mods = mods') (hon : s'.enabled = on') :
    Backed cfg mods' on' D E s' := by
  have hactive : ∀ active, active ∉ s'.activeOverride := by simp [hc.active]
  refine ⟨⟨hmods,hon,fun _ => hc.active,fun active hmem => absurd hmem (hactive active),
    fun _ => hc.quiet,fun hne => .inr ?_,fun active hmem => absurd hmem (hactive active)⟩,
    (hc.report E h.report).mono fun _ _ => .inr⟩
  rcases hc.deferred hne with ⟨hnone, heq⟩ | ⟨-, old, hold, hno, heq⟩
  · rw [heq] at hne ⊢
    exact (h.deferred hne).resolve_left (sends_none hnone)
  · rw [heq]
    exact ⟨⟨old,h.listed old hold,rfl⟩,h.trigger old hold hno⟩

theorem Backed.dropped (h : Backed cfg mods on D E s) (hactive : s.activeOverride ≠ none)
    (hc : Cleared cfg false s s') (hmods : s'.mods = mods) (hon : s'.enabled = on) :
    Backed cfg mods on D' E s' := by
  have hnone : ∀ active, active ∉ s'.activeOverride := by simp [hc.active]
  refine ⟨⟨hmods,hon,fun _ => hc.active,fun active hmem => absurd hmem (hnone active),
    fun _ => hc.quiet,fun hne => ?_,fun active hmem => absurd hmem (hnone active)⟩,
    (hc.report E h.report).mono fun _ _ => .inr⟩
  rcases hc.deferred hne with ⟨hnone, -⟩ | ⟨hallow, -⟩
  · exact absurd hnone hactive
  · exact absurd hallow (by decide)

theorem Backed.clear (h : Backed cfg mods on D E s) (allowReregister : Bool) (now : UInt32) :
    Backed cfg mods on D E (clearActiveOverride cfg allowReregister now s) :=
  have hmods := clearActiveOverride_mods cfg allowReregister now s
  h.cleared (clearActiveOverride_cleared cfg h.quiet allowReregister now) (hmods.1.trans h.mods)
    (hmods.2.trans h.enabled)

section
variable {seen : Seen} {e : Event} {override : Override}

theorem Backed.registerReplacement (h : Backed cfg mods on D E s)
    (hactive : s.activeOverride = some override) :
    Backed cfg mods on D E (registerReplacement cfg seen e override s)
      ∧ (registerReplacement cfg seen e override s).activeOverride = some override := by
  rw [KeyOverride.registerReplacement]
  split
  next hregisters =>
    have hbasic := (registers_iff override.replacement_basic).mp hregisters
    have hweak : Backed cfg mods on D E
        { s with weakOverrideMods := AutoShift.extractModBits override.replacement } :=
      ⟨⟨h.mods,h.enabled,h.off,h.listed,fun hnone => absurd (hactive.symm.trans hnone) (by simp),
        h.deferred,h.trigger⟩,h.report⟩
    have hsends : Sends { s with weakOverrideMods := AutoShift.extractModBits override.replacement }
        (clearModsFrom override.replacement) := (sends_some hactive).mpr rfl
    simp only [if_pos hbasic]
    split
    · refine ⟨hweak.schedule (.inl hsends),?_⟩
      obtain ⟨time, delay, heq⟩ := schedule_eq cfg (clearModsFrom override.replacement) seen.now
        { s with weakOverrideMods := AutoShift.extractModBits override.replacement }
      rw [heq]
      exact hactive
    · exact ⟨hweak.addKey hbasic (.inl hsends),hactive⟩
  next => exact ⟨h,hactive⟩

theorem Backed.activate (h : Backed cfg mods on D E s) (hon : on = true)
    (hmem : override ∈ cfg.overrides) (htrigger : override.trigger ≠ kcNo → D override.trigger) :
    Backed cfg mods on D E (activate cfg seen e override s)
      ∧ (activate cfg seen e override s).activeOverride = some override := by
  have hclear := h.clear false seen.now
  have hnone := (clearActiveOverride_cleared cfg h.quiet false seen.now).active
  have hopened : Backed cfg mods on D E { clearActiveOverride cfg false seen.now s with
      activeOverride := some override
      triggerIsDown := true
      suppressedMods := override.suppressedMods } := by
    refine ⟨⟨hclear.mods,hclear.enabled,fun hoff => absurd (hon.symm.trans hoff) (by decide),?_,?_,
      fun hne => .inr ((hclear.deferred hne).resolve_left (sends_none hnone)),?_⟩,
      hclear.report.mono fun _ _ hcode => .inr (hcode.resolve_left (sends_none hnone))⟩
    · intro active hactive
      exact Option.some.inj hactive ▸ hmem
    · intro hnone
      exact absurd hnone (by simp)
    · intro active hactive
      exact Option.some.inj hactive ▸ htrigger
  rw [KeyOverride.activate]
  split
  next hunregister =>
    simp only [Bool.and_eq_true, bne_iff_ne] at hunregister
    have hbasic := override.trigger_basic.resolve_left hunregister.2
    rw [unregisterCode_basic hbasic]
    exact ((hopened.delKey hbasic).mono (fun _ _ => id) fun _ _ => And.left).registerReplacement rfl
  next => exact hopened.registerReplacement rfl

end

theorem Backed.task (h : Backed cfg mods on D D s) (now : UInt32) :
    Backed cfg mods on D D (keyOverrideTask cfg now s) := by
  rw [keyOverrideTask]
  split_ifs with hzero hdue
  · exact h
  · have hcode : Sends s s.deferredRegister ∨ D s.deferredRegister :=
      (h.deferred hzero).imp_right And.right
    have hregister := h.register (h.deferred_basic hzero) hcode
    exact ⟨⟨hregister.mods,hregister.enabled,hregister.off,hregister.listed,hregister.quiet,
      fun hne => absurd rfl hne,hregister.trigger⟩,hregister.report⟩
  · exact h

section
variable {seen : Seen} {e : Event} {override : Override}

theorem activates_matches (h : activates seen e s override = true) :
    keyOverrideMatchesActiveModifiers override e.mods = true := by
  simp only [activates, Bool.and_eq_true] at h
  exact h.1.2

theorem activates_trigger (h : activates seen e s override = true) :
    override.trigger = kcNo ∨ override.trigger = e.keycode ∧ e.keyDown = true
      ∨ override.trigger = s.lastKeyDown := by
  simp only [activates, Bool.and_eq_true, Bool.or_eq_true, beq_iff_eq, Event.triggerDown] at h
  rcases h.2 with (hno | htrigger) | hlast
  · exact .inl hno
  · exact .inr (.inl htrigger)
  · exact .inr (.inr hlast.symm)

/-- An event either activates the first override that passes the checks, or the active one is
checked. -/
theorem processEnabled_cases (cfg : Config) (seen : Seen) (e : Event) (s : State) :
    ((e.isMod || e.keyDown) = true ∧ ∃ override ∈ cfg.overrides,
      activates seen e (trackLastKey e seen.now s) override = true
      ∧ processEnabled cfg seen e s = (!e.triggerDown override,
        activate cfg seen e override (trackLastKey e seen.now s)))
    ∨ processEnabled cfg seen e s
      = (true,checkActiveOverride cfg e seen.now (trackLastKey e seen.now s)) := by
  rw [processEnabled]
  by_cases htries : (e.isMod || e.keyDown) = true
  · rw [if_pos htries, tryActivatingOverride]
    cases hfind : cfg.overrides.find? (activates seen e (trackLastKey e seen.now s)) with
    | none => exact .inr rfl
    | some override =>
      exact .inl ⟨htries,override,List.mem_of_find?_eq_some hfind,List.find?_some hfind,rfl⟩
  · rw [if_neg htries]
    exact .inr rfl

/-- The active override stays, and then the modifiers fit it or the event does not lift its trigger;
or it ends. -/
theorem checkActiveOverride_cases (cfg : Config) (e : Event) (now : UInt32) (s : State) :
    (checkActiveOverride cfg e now s = s ∧ ∀ active ∈ s.activeOverride,
      if e.isMod then keyOverrideMatchesActiveModifiers active e.mods = true
      else e.keycode = active.trigger → e.keyDown = true)
    ∨ s.activeOverride ≠ none ∧ ∃ allowReregister down, (allowReregister = true → e.isMod = true)
      ∧ checkActiveOverride cfg e now s
        = clearActiveOverride cfg allowReregister now { s with triggerIsDown := down } := by
  rw [checkActiveOverride]
  split
  next hnone => exact .inl ⟨rfl,by simp [hnone]⟩
  next old hold =>
    have hsome : s.activeOverride ≠ none := by simp [hold]
    by_cases hmod : e.isMod = true
    · simp only [if_pos hmod]
      split
      next hmatches =>
        exact .inl ⟨rfl,fun active hactive => Option.some.inj (hold.symm.trans hactive) ▸ hmatches⟩
      next => exact .inr ⟨hsome,true,s.triggerIsDown,fun _ => hmod,rfl⟩
    · simp only [if_neg hmod]
      cases hlifted : e.keycode == old.trigger && !e.keyDown with
      | true =>
        simp only [if_true, Bool.true_or]
        exact .inr ⟨hsome,false,false,fun h => absurd h (by decide),rfl⟩
      | false =>
        simp only [Bool.false_eq_true, if_false, Bool.false_or]
        split
        · exact .inr ⟨hsome,false,s.triggerIsDown,fun h => absurd h (by decide),rfl⟩
        · refine .inl ⟨rfl,fun active hactive hkey => ?_⟩
          obtain rfl : old = active := Option.some.inj (hold.symm.trans hactive)
          simpa [hkey] using hlifted

theorem Backed.untriggered (h : Backed cfg mods on D E s) (down : Bool) :
    Backed cfg mods on D E { s with triggerIsDown := down } :=
  ⟨⟨h.mods,h.enabled,h.off,h.listed,h.quiet,h.deferred,h.trigger⟩,h.report⟩

theorem Backed.tracked (h : Backed cfg mods on D E s) :
    Backed cfg mods on D E (trackLastKey e now s) := by
  rw [trackLastKey]
  split_ifs with hmod hdown hlast
  · exact h
  · exact ⟨⟨h.mods,h.enabled,h.off,h.listed,h.quiet,fun hne => absurd rfl hne,h.trigger⟩,h.report⟩
  · exact ⟨⟨h.mods,h.enabled,h.off,h.listed,h.quiet,fun hne => absurd rfl hne,h.trigger⟩,h.report⟩
  · exact h

theorem Backed.checkActive (h : Backed cfg mods on D E s) :
    Backed cfg mods on D E (checkActiveOverride cfg e now s) := by
  rcases checkActiveOverride_cases cfg e now s with ⟨heq, -⟩ | ⟨-, allowReregister, down, -, heq⟩
  · rw [heq]
    exact h
  · rw [heq]
    exact (h.untriggered down).clear allowReregister now

theorem Backed.tried (h : Backed cfg mods true D E s) (hdown : e.keyDown = true → D e.keycode)
    (hlast : e.isMod = true → ∀ override ∈ cfg.overrides,
      keyOverrideMatchesActiveModifiers override e.mods = true → override.trigger ≠ kcNo →
        override.trigger = s.lastKeyDown → D override.trigger) :
    Backed cfg mods true D E (processEnabled cfg seen e s).2 := by
  have htracked : Backed cfg mods true D E (trackLastKey e seen.now s) := h.tracked
  rcases processEnabled_cases cfg seen e s with ⟨htries, override, hmem, hactivates, heq⟩ | heq
  · rw [heq]
    refine (htracked.activate rfl hmem fun hno => ?_).1
    rcases activates_trigger hactivates with hnone | ⟨hkey, hpressed⟩ | hkey
    · exact absurd hnone hno
    · exact hkey ▸ hdown hpressed
    · cases hmod : e.isMod with
      | true =>
        rw [trackLastKey, if_pos hmod] at hkey
        exact hlast hmod override hmem (activates_matches hactivates) hno hkey
      | false =>
        have hpressed : e.keyDown = true := by simpa [hmod] using htries
        rw [trackLastKey, if_neg (by simp [hmod]), if_pos hpressed] at hkey
        exact hkey ▸ hdown hpressed
  · rw [heq]
    exact htracked.checkActive

theorem Backed.released (h : Backed cfg mods true D D s) (hmod : e.isMod = false)
    (hup : e.keyDown = false) (hD : ∀ code, D code → code ≠ e.keycode → D' code)
    (hpending : e.keycode = s.deferredRegister →
      e.keycode = s.lastKeyDown ∨ Sends s e.keycode ∨ D' e.keycode) :
    Backed cfg mods true D' D (processEnabled cfg seen e s).2 := by
  have htracked : Backed cfg mods true D D (trackLastKey e seen.now s) := h.tracked
  have hdeferred : (trackLastKey e seen.now s).deferredRegister ≠ 0 →
      Sends (trackLastKey e seen.now s) (trackLastKey e seen.now s).deferredRegister
      ∨ Triggers cfg (trackLastKey e seen.now s).deferredRegister
        ∧ D' (trackLastKey e seen.now s).deferredRegister := by
    rw [trackLastKey, if_neg (by simp [hmod]), if_neg (by simp [hup])]
    split
    · exact fun hne => absurd rfl hne
    next hlast =>
      intro hne
      by_cases hkey : e.keycode = s.deferredRegister
      · rcases hpending hkey with heq | hsends | hD'
        · exact absurd heq hlast
        · exact .inl (hkey ▸ hsends)
        · exact (h.deferred hne).imp_right fun hheld => ⟨hheld.1,hkey ▸ hD'⟩
      · exact (h.deferred hne).imp_right fun hheld => ⟨hheld.1,hD _ hheld.2 (Ne.symm hkey)⟩
  rcases processEnabled_cases cfg seen e s with ⟨htries, -⟩ | heq
  · simp [hmod,hup] at htries
  rw [heq]
  rcases checkActiveOverride_cases cfg e seen.now (trackLastKey e seen.now s) with
    ⟨heq, hactive⟩ | ⟨hsome, allowReregister, down, hallow, heq⟩
  · rw [heq]
    refine ⟨{ htracked.toKept with deferred := hdeferred, trigger := fun active hmem hno => ?_ },
      htracked.report⟩
    have hlifted := hactive active hmem
    rw [if_neg (by simp [hmod]), hup] at hlifted
    exact hD _ (htracked.trigger active hmem hno) fun hkey => absurd (hlifted hkey.symm) (by decide)
  · obtain rfl : allowReregister = false := Bool.eq_false_iff.mpr fun h => by
      simp [hmod] at hallow
      exact absurd (hallow.symm.trans h) (by decide)
    have hmods := clearActiveOverride_mods cfg false seen.now
      { trackLastKey e seen.now s with triggerIsDown := down }
    rw [heq]
    exact (htracked.untriggered down).dropped hsome
      (clearActiveOverride_cleared cfg (htracked.untriggered down).quiet false seen.now)
      (hmods.1.trans htracked.mods)      (hmods.2.trans htracked.enabled)

theorem trigger_ne (override : Override) (hmod : isModifierKeycode code = true) :
    override.trigger ≠ code := by
  rintro rfl
  rcases override.trigger_basic with hno | hbasic
  · rw [hno] at hmod
    exact absurd hmod (by decide)
  · exact absurd (hmod.symm.trans (not_modifier hbasic)) (by decide)

theorem processEnabled_sends (h : e.keyDown = true → e.isMod = true) :
    (processEnabled cfg seen e s).1 = true := by
  rcases processEnabled_cases cfg seen e s with ⟨-, override, -, -, heq⟩ | heq
  · have htrigger : e.triggerDown override = false := by
      cases hdown : e.keyDown with
      | true =>
        rw [Event.triggerDown, beq_false_of_ne (trigger_ne override (h hdown)), Bool.false_and]
      | false => rw [Event.triggerDown, hdown, Bool.and_false]
    rw [heq, htrigger]
    rfl
  · rw [heq]

theorem trackLastKey_active : (trackLastKey e now s).activeOverride = s.activeOverride := by
  unfold trackLastKey
  split_ifs <;> rfl

/-- An override that needs modifiers and is fit by these. -/
def Fits (mods : BitVec 8) (override : Override) : Prop :=
  override.triggerMods ≠ 0 ∧ keyOverrideMatchesActiveModifiers override mods = true

theorem fits_processEnabled {mods' : BitVec 8} (h : Backed cfg mods true D E s)
    (hfits : (e.isMod || e.keyDown) = true → ∀ override ∈ cfg.overrides,
      keyOverrideMatchesActiveModifiers override e.mods = true → override.trigger = kcNo →
        Fits mods' override)
    (hbefore : e.isMod = false → ∀ active ∈ s.activeOverride, active.trigger = kcNo →
      Fits mods' active) :
    ∀ active ∈ (processEnabled cfg seen e s).2.activeOverride, active.trigger = kcNo →
      Fits mods' active := by
  intro active hactive hno
  have htracked : Backed cfg mods true (fun _ => True) E (trackLastKey e seen.now s) :=
    (h.mono (fun _ _ _ => trivial) fun _ _ => id).tracked
  rcases processEnabled_cases cfg seen e s with ⟨htries, override, hmem, hactivates, heq⟩ | heq
  · rw [heq] at hactive
    obtain rfl : override = active := Option.some.inj
      ((htracked.activate rfl hmem fun _ => trivial).2.symm.trans hactive)
    exact hfits htries override hmem (activates_matches hactivates) hno
  · rw [heq] at hactive
    rcases checkActiveOverride_cases cfg e seen.now (trackLastKey e seen.now s) with
      ⟨heq, hstays⟩ | ⟨-, allowReregister, down, -, heq⟩
    · dsimp only at hactive
      rw [heq] at hactive
      have hstays := hstays active hactive
      have hlisted := htracked.listed active hactive
      rw [trackLastKey_active] at hactive
      cases hmod : e.isMod with
      | true =>
        rw [if_pos hmod] at hstays
        exact hfits (by simp [hmod]) active hlisted hstays hno
      | false => exact hbefore hmod active hactive hno
    · dsimp only at hactive
      rw [heq, clearActiveOverride_active] at hactive
      exact absurd hactive (by simp)

theorem registerCode_active (cfg : Config) (code : UInt16) (s : State) :
    (registerCode cfg code s).activeOverride = s.activeOverride := by
  unfold registerCode
  split_ifs <;> rfl

theorem unregisterCode_active (cfg : Config) (code : UInt16) (s : State) :
    (unregisterCode cfg code s).activeOverride = s.activeOverride := by
  unfold unregisterCode
  split_ifs <;> rfl

theorem modsAfter_basic (h : isBasicKeycode code = true) (keyDown : Bool) :
    modsAfter code keyDown mods = mods := by
  rw [modsAfter, if_neg (by simp [not_modifier h])]

theorem Backed.registered (h : Backed cfg mods on D E s) (hcode : E code) :
    Backed cfg (modsAfter code true mods) on D E (registerCode cfg code s) := by
  by_cases hbasic : isBasicKeycode code = true
  · rw [modsAfter_basic hbasic]
    exact h.register hbasic (.inr hcode)
  · rw [registerCode, if_neg hbasic, modsAfter]
    split
    · exact ⟨⟨congrArg (· ||| modBit code) h.mods,h.enabled,h.off,h.listed,h.quiet,h.deferred,
        h.trigger⟩,h.report⟩
    · exact h

theorem Backed.unregistered (h : Backed cfg mods on D E s) :
    Backed cfg (modsAfter code false mods) on D (fun code' => E code' ∧ code' ≠ code)
      (unregisterCode cfg code s) := by
  by_cases hbasic : isBasicKeycode code = true
  · rw [modsAfter_basic hbasic, unregisterCode_basic hbasic]
    exact h.delKey hbasic
  · have hreport : Backed cfg mods on D (fun code' => E code' ∧ code' ≠ code) s :=
      h.mono (fun _ _ => id) fun code' hbasic' hE => ⟨hE,fun heq => hbasic (heq ▸ hbasic')⟩
    rw [unregisterCode, if_neg hbasic, modsAfter]
    split
    · exact ⟨⟨congrArg (· &&& ~~~modBit code) h.mods,h.enabled,h.off,h.listed,h.quiet,h.deferred,
        h.trigger⟩,hreport.report⟩
    · exact hreport

theorem Backed.control (h : Backed cfg mods on D E s) (keycode : UInt16) (now : UInt32) :
    (∃ on', Backed cfg mods on' D E (control cfg keycode now s))
      ∧ ∀ active ∈ (control cfg keycode now s).activeOverride, active ∈ s.activeOverride := by
  have hon : Backed cfg mods true D E (keyOverrideOn s) :=
    ⟨⟨h.mods,rfl,fun hoff => absurd hoff (by decide),h.listed,h.quiet,h.deferred,h.trigger⟩,
      h.report⟩
  have hcleared := clearActiveOverride_cleared cfg (s := { s with enabled := false })
    h.quiet false now
  have hmods := clearActiveOverride_mods cfg false now { s with enabled := false }
  have hoff : Backed cfg mods false D E (keyOverrideOff cfg now s) :=
    h.cleared ⟨hcleared.active,hcleared.quiet,hcleared.deferred,hcleared.report⟩
      (hmods.1.trans h.mods) hmods.2
  have hnone : ∀ active ∈ (keyOverrideOff cfg now s).activeOverride, active ∈ s.activeOverride := by
    intro active hactive
    rw [keyOverrideOff, clearActiveOverride_active] at hactive
    exact absurd hactive (by simp)
  unfold KeyOverride.control keyOverrideToggle
  split_ifs
  · exact ⟨⟨_,hoff⟩,hnone⟩
  · exact ⟨⟨_,hon⟩,fun _ => id⟩
  · exact ⟨⟨_,hon⟩,fun _ => id⟩
  · exact ⟨⟨_,hoff⟩,hnone⟩

theorem control_not_modifier {keycode : UInt16} (h : isControl keycode = true) :
    isModifierKeycode keycode = false := by
  simp only [isControl, Bool.or_eq_true, beq_iff_eq] at h
  rcases h with (rfl | rfl) | rfl <;> decide

/-- What holds between two events, with these keycodes held. -/
structure Sound (cfg : Config) (D : UInt16 → Prop) (s : State) : Prop where
  backed : Backed cfg s.mods s.enabled D D s
  fits : ∀ active ∈ s.activeOverride, active.trigger = kcNo → Fits s.mods active

theorem Backed.sound (h : Backed cfg mods on D D s)
    (hfits : ∀ active ∈ s.activeOverride, active.trigger = kcNo → Fits mods active) :
    Sound cfg D s ∧ s.mods = mods := by
  obtain rfl := h.mods
  obtain rfl := h.enabled
  exact ⟨⟨h,hfits⟩,rfl⟩

theorem Backed.defaultPress {keycode : UInt16} (h : Backed cfg mods on D D s) (hkey : D keycode)
    (hfits : ∀ active ∈ s.activeOverride, active.trigger = kcNo →
      Fits (modsAfter keycode true mods) active) :
    Sound cfg D (registerCode cfg keycode s)
      ∧ (registerCode cfg keycode s).mods = modsAfter keycode true mods :=
  (h.registered hkey).sound fun active hmem =>
    hfits active (registerCode_active cfg keycode s ▸ hmem)

theorem Backed.defaultRelease (h : Backed cfg mods on D' D s)
    (hD : ∀ code', D code' → code' ≠ code → D' code')
    (hfits : ∀ active ∈ s.activeOverride, active.trigger = kcNo →
      Fits (modsAfter code false mods) active) :
    Sound cfg D' (unregisterCode cfg code s)
      ∧ (unregisterCode cfg code s).mods = modsAfter code false mods :=
  (h.unregistered.mono (fun _ _ => id) fun code' _ hcode => hD code' hcode.1 hcode.2).sound
    fun active hmem => hfits active (unregisterCode_active cfg code s ▸ hmem)

theorem Sound.off (h : Sound cfg D s) (hoff : s.enabled = false) {mods' : BitVec 8} :
    ∀ active ∈ s.activeOverride, active.trigger = kcNo → Fits mods' active := by
  rw [h.backed.off hoff]
  exact fun active hmem => absurd hmem (by simp)

theorem Sound.press {keycode : UInt16} (h : Sound cfg D s)
    (hfounded : Founded cfg D' seen keycode true s) (hD' : ∀ code, D' code → D code)
    (hkey : D keycode) : Sound cfg D (processRecord cfg seen keycode true s)
      ∧ (processRecord cfg seen keycode true s).mods = modsAfter keycode true s.mods := by
  rw [processRecord, processKeyOverride, Bool.true_and]
  by_cases hcontrol : isControl keycode = true
  · obtain ⟨⟨on', hbacked⟩, hactive⟩ := h.backed.control keycode seen.now
    rw [if_pos hcontrol, modsAfter, if_neg (by simp [control_not_modifier hcontrol])]
    exact hbacked.sound fun active hmem => h.fits active (hactive active hmem)
  rw [if_neg hcontrol]
  cases hon : s.enabled with
  | false => exact h.backed.defaultPress hkey (h.off hon)
  | true =>
    have hbacked : Backed cfg s.mods true D D s := hon ▸ h.backed
    have hfound := hfounded (by simp [tries,hcontrol,hon])
    have htried : Backed cfg s.mods true D D
        (processEnabled cfg seen (eventOf seen keycode true s) s).2 :=
      hbacked.tried (fun _ => hkey) fun hmod override hmem hmatches hno hlast =>
        hD' _ ((hfound override hmem hmatches).2 hmod hno hlast)
    have hfits : ∀ active ∈
        (processEnabled cfg seen (eventOf seen keycode true s) s).2.activeOverride,
        active.trigger = kcNo → Fits (modsAfter keycode true s.mods) active := by
      refine fits_processEnabled hbacked (fun _ override hmem hmatches =>
        (hfound override hmem hmatches).1) fun hmod active hmem hno => ?_
      have hplain : isModifierKeycode keycode = false := hmod
      rw [modsAfter, if_neg (by simp [hplain])]
      exact h.fits active hmem hno
    have hsends : isModifierKeycode keycode = true →
        (processEnabled cfg seen (eventOf seen keycode true s) s).1 = true :=
      fun hmod => processEnabled_sends fun _ => hmod
    rw [if_neg (by simp)]
    generalize processEnabled cfg seen (eventOf seen keycode true s) s = result at *
    obtain ⟨send, s'⟩ := result
    cases send with
    | true => exact htried.defaultPress hkey hfits
    | false =>
      have hplain : isModifierKeycode keycode = false := by
        rw [Bool.eq_false_iff]
        exact fun hmod => absurd (hsends hmod) (by simp)
      have hmods : modsAfter keycode true s.mods = s.mods := by
        rw [modsAfter, if_neg (by simp [hplain])]
      rw [hmods] at hfits ⊢
      exact htried.sound hfits

theorem Sound.release (h : Sound cfg D s) (hfounded : Founded cfg D seen code false s)
    (hD : ∀ code', D code' → code' ≠ code → D' code')
    (hpending : code = s.deferredRegister → s.enabled = true ∧ code = s.lastKeyDown
      ∨ Sends s code ∨ D' code) : Sound cfg D' (processRecord cfg seen code false s)
      ∧ (processRecord cfg seen code false s).mods = modsAfter code false s.mods := by
  rw [processRecord, processKeyOverride, Bool.false_and, if_neg (by decide)]
  cases hon : s.enabled with
  | false =>
    have hnone := h.backed.off hon
    refine Backed.defaultRelease ⟨{ h.backed.toKept with deferred := ?_, trigger := ?_ },
      h.backed.report⟩ hD (h.off hon)
    · intro hne
      have hheld := (h.backed.deferred hne).resolve_left (sends_none hnone)
      refine .inr ⟨hheld.1,?_⟩
      by_cases hkey : code = s.deferredRegister
      · rcases hpending hkey with ⟨htrue, -⟩ | hsends | hD'
        · exact absurd (hon.symm.trans htrue) (by decide)
        · exact absurd hsends (sends_none hnone)
        · exact hkey ▸ hD'
      · exact hD _ hheld.2 (Ne.symm hkey)
    · rw [hnone]
      exact fun active hmem => absurd hmem (by simp)
  | true =>
    have hbacked : Backed cfg s.mods true D D s := hon ▸ h.backed
    have hfound : isModifierKeycode code = true → ∀ override ∈ cfg.overrides,
        keyOverrideMatchesActiveModifiers override (eventOf seen code false s).mods = true → _ :=
      fun hmod => hfounded (by simp [tries,hon,hmod])
    have hsends : (processEnabled cfg seen (eventOf seen code false s) s).1 = true :=
      processEnabled_sends fun hdown => absurd hdown (by simp [eventOf])
    have hfits : ∀ active ∈
        (processEnabled cfg seen (eventOf seen code false s) s).2.activeOverride,
        active.trigger = kcNo → Fits (modsAfter code false s.mods) active := by
      refine fits_processEnabled hbacked (fun htries override hmem hmatches => ?_)
        fun hmod active hmem hno => ?_
      · exact (hfound (by simpa [Event.isMod,eventOf] using htries) override hmem hmatches).1
      · have hplain : isModifierKeycode code = false := hmod
        rw [modsAfter, if_neg (by simp [hplain])]
        exact h.fits active hmem hno
    have hreleased : Backed cfg s.mods true D' D
        (processEnabled cfg seen (eventOf seen code false s) s).2 := by
      cases hmod : isModifierKeycode code with
      | true =>
        have hkeep : ∀ code', isBasicKeycode code' = true → D code' → D' code' := by
          rintro code' hbasic hcode
          refine hD code' hcode fun heq => ?_
          rw [heq] at hbasic
          exact absurd (hmod.symm.trans (not_modifier hbasic)) (by decide)
        refine (hbacked.mono hkeep fun _ _ => id).tried
          (fun hdown => absurd hdown (by simp [eventOf])) fun _ override hmem hmatches hno hlast => ?_
        exact hkeep _ (override.trigger_basic.resolve_left hno)
          ((hfound hmod override hmem hmatches).2 hmod hno hlast)
      | false =>
        refine hbacked.released hmod rfl hD fun hkey => ?_
        exact (hpending hkey).imp_left And.right
    rw [if_neg (by simp)]
    generalize processEnabled cfg seen (eventOf seen code false s) s = result at *
    obtain ⟨send, s'⟩ := result
    obtain rfl : send = true := hsends
    exact hreleased.defaultRelease hD hfits

end

end

theorem matches_zero {override : Override}
    (h : keyOverrideMatchesActiveModifiers override 0 = true) :
    override.triggerMods = 0 := by
  by_contra hmods
  have hsides : ∀ mods : BitVec 8, 0 = (mods &&& 0xF ||| mods >>> 4) → mods = 0 := by decide
  rw [keyOverrideMatchesActiveModifiers, if_neg (by simp), if_neg hmods] at h
  split at h
  · simp at h
  · exact hmods (hsides _ (by simpa using h))

section
variable {κ : Type} [DecidableEq κ] {cfg : Config} {down : κ → Option UInt16} {mods : BitVec 8}
  {k : κ} {code : UInt16}

def ModsHeld (down : κ → Option UInt16) (mods : BitVec 8) : Prop :=
  ∀ i, mods.getLsbD i = true →
    ∃ k code, down k = some code ∧ isModifierKeycode code = true ∧ code.toNat % 8 = i

theorem ModsHeld.press (h : ModsHeld down mods) (hk : down k = none) :
    ModsHeld (Function.update down k (some code)) (modsAfter code true mods) := by
  have hkept : ModsHeld (Function.update down k (some code)) mods := by
    intro i hi
    obtain ⟨k', code', hdown, hcode'⟩ := h i hi
    have hne : k' ≠ k := by
      rintro rfl
      exact absurd (hk.symm.trans hdown) (by simp)
    exact ⟨k',code',by rwa [Function.update_of_ne hne],hcode'⟩
  rw [modsAfter]
  split
  next hmod =>
    rw [if_pos rfl]
    intro i hi
    rw [BitVec.getLsbD_or, Bool.or_eq_true] at hi
    rcases hi with hi | hi
    · exact hkept i hi
    · rw [modBit, BitVec.getLsbD_twoPow, Bool.and_eq_true, decide_eq_true_eq,
        decide_eq_true_eq] at hi
      exact ⟨k,code,by rw [Function.update_self],hmod,hi.2⟩
  next => exact hkept

theorem ModsHeld.release (h : ModsHeld down mods) (hk : down k = some code) :
    ModsHeld (Function.update down k none) (modsAfter code false mods) := by
  have hkept : ∀ i, mods.getLsbD i = true → (isModifierKeycode code = true → code.toNat % 8 ≠ i) →
      ∃ k' code', Function.update down k none k' = some code' ∧ isModifierKeycode code' = true
        ∧ code'.toNat % 8 = i := by
    intro i hi hother
    obtain ⟨k', code', hdown, hmod, hbit⟩ := h i hi
    have hne : k' ≠ k := by
      rintro rfl
      obtain rfl : code = code' := Option.some.inj (hk.symm.trans hdown)
      exact hother hmod hbit
    exact ⟨k',code',by rwa [Function.update_of_ne hne],hmod,hbit⟩
  rw [modsAfter]
  split
  next hmod =>
    rw [if_neg (by decide)]
    intro i hi
    rw [BitVec.getLsbD_and, Bool.and_eq_true, BitVec.getLsbD_not, Bool.and_eq_true,
      decide_eq_true_eq, modBit, BitVec.getLsbD_twoPow] at hi
    refine hkept i hi.1 fun _ hbit => ?_
    simp [hbit,hi.2.1] at hi
  next hplain => exact fun i hi => hkept i hi fun hmod => absurd hmod hplain

structure Inv (cfg : Config) (v : World κ) : Prop where
  sound : Sound cfg (IsDown v.down) v.state
  modsHeld : ModsHeld v.down v.state.mods

variable {v : World κ}

theorem isDown_press (hk : down k = none) {code' : UInt16} (h : IsDown down code') :
    IsDown (Function.update down k (some code)) code' := by
  obtain ⟨k', hk'⟩ := h
  have hne : k' ≠ k := by
    rintro rfl
    exact absurd (hk.symm.trans hk') (by simp)
  exact ⟨k',by rwa [Function.update_of_ne hne]⟩

theorem isDown_release (hk : down k = some code) {code' : UInt16} (h : IsDown down code')
    (hne : code' ≠ code) : IsDown (Function.update down k none) code' := by
  obtain ⟨k', hk'⟩ := h
  have hkey : k' ≠ k := by
    rintro rfl
    exact hne (Option.some.inj (hk'.symm.trans hk))
  exact ⟨k',by rwa [Function.update_of_ne hkey]⟩

theorem keyOverrideTask_active (cfg : Config) (now : UInt32) (s : State) :
    (keyOverrideTask cfg now s).activeOverride = s.activeOverride := by
  unfold keyOverrideTask
  split_ifs
  · rfl
  · exact registerCode_active cfg s.deferredRegister s
  · rfl

theorem inv_next (hv : Inv cfg v) {input : Input κ} (hclear : Clear cfg v input) :
    Inv cfg (next cfg v input) := by
  cases input with
  | task now =>
    obtain ⟨hsound, hmods⟩ := (hv.sound.backed.task now).sound fun active hmem =>
      hv.sound.fits active (keyOverrideTask_active cfg now v.state ▸ hmem)
    exact ⟨hsound,hmods.symm ▸ hv.modsHeld⟩
  | key k keycode seen =>
    cases hk : v.down k with
    | none =>
      simp only [Clear, hk] at hclear
      simp only [next, hk]
      have hdown : ∀ code, IsDown v.down code →
          IsDown (Function.update v.down k (some keycode)) code := fun _ => isDown_press hk
      obtain ⟨hsound, hmods⟩ := Sound.press ⟨hv.sound.backed.mono (fun code _ => hdown code)
        fun code _ => hdown code,hv.sound.fits⟩ hclear hdown ⟨k,Function.update_self ..⟩
      exact ⟨hsound,hmods.symm ▸ hv.modsHeld.press hk⟩
    | some code =>
      simp only [Clear, hk] at hclear
      simp only [next, hk]
      obtain ⟨hsound, hmods⟩ := hv.sound.release hclear.1 (fun _ => isDown_release hk) hclear.2
      exact ⟨hsound,hmods.symm ▸ hv.modsHeld.release hk⟩

theorem inv_start (cfg : Config) (κ : Type) [DecidableEq κ] : Inv cfg (start κ) where
  sound := {
    backed := {
      mods := rfl
      enabled := rfl
      off := fun _ => rfl
      listed := fun active hactive => absurd hactive (by simp [start,init])
      quiet := fun _ => ⟨rfl,rfl⟩
      deferred := fun hne => absurd rfl hne
      trigger := fun active hactive => absurd hactive (by simp [start,init])
      report := fun key hkey =>
        absurd (hkey.symm.trans (Report.pressed_empty cfg.nkro key)) (by decide) }
    fits := fun active hactive => absurd hactive (by simp [start,init]) }
  modsHeld := fun i hi => absurd hi (by simp [start,init])

end

section
variable {κ : Type} {cfg : Config} {v : World κ}

theorem Inv.inactive (hv : Inv cfg v) (hup : ∀ k, v.down k = none) :
    v.state.activeOverride = none := by
  have hnone : ∀ code, ¬ IsDown v.down code := fun code ⟨k, hk⟩ => by simp [hup k] at hk
  have hmods : v.state.mods = 0 := by
    refine BitVec.eq_of_getLsbD_eq fun i _ => (Bool.eq_false_iff.mpr fun hi => ?_).trans
      BitVec.getLsbD_zero.symm
    obtain ⟨k, code, hk, -⟩ := hv.modsHeld i hi
    exact hnone code ⟨k,hk⟩
  by_contra hactive
  obtain ⟨active, hactive⟩ := Option.ne_none_iff_exists'.mp hactive
  by_cases hno : active.trigger = kcNo
  · have hfits := hv.sound.fits active hactive hno
    rw [hmods] at hfits
    exact hfits.1 (matches_zero hfits.2)
  · exact hnone _ (hv.sound.backed.trigger active hactive hno)

theorem Inv.nothingStuck (hv : Inv cfg v) : NothingStuck cfg v where
  quiet := hv.sound.backed.quiet
  deferred := hv.sound.backed.deferred
  released := by
    intro hup _ key
    rw [Bool.eq_false_iff]
    intro hkey
    obtain ⟨code, -, -, hsends | ⟨k, hk⟩⟩ := hv.sound.backed.report key hkey
    · exact sends_none (hv.inactive hup) hsends
    · simp [hup k] at hk

end

theorem shiftAB_trigger : (4 : UInt16) = kcNo ∨ isBasicKeycode 4 = true := by decide

theorem shiftAB_replacement : clearModsFrom 5 = kcNo ∨ isBasicKeycode (clearModsFrom 5) = true := by
  decide

/-- `ko_make_basic(MOD_MASK_SHIFT, KC_A, KC_B)`. -/
def shiftAB : Override where
  address := 0
  trigger := 4
  triggerMods := 0x22
  layers := BitVec.allOnes 32
  negativeModMask := 0
  suppressedMods := 0x22
  replacement := 5
  options := koOptionsAllActivations
  enabled := none
  trigger_basic := shiftAB_trigger
  replacement_basic := shiftAB_replacement

def shiftConfig : Config := ⟨false,500,[shiftAB]⟩

def seenAt (now : UInt32) : Seen := ⟨now,0,0,fun _ => true⟩

/-- The trigger, with shift for a while. -/
def heldTrigger (rest : List (Input (Option Bool))) : List (Input (Option Bool)) :=
  .key none 4 (seenAt 0) :: .key (some false) 0xE1 (seenAt 10) :: .task 600
    :: .key (some false) 0xE1 (seenAt 700) :: rest

end QmkFirmware.KeyOverride
