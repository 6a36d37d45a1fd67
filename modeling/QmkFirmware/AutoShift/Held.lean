import QmkFirmware.AutoShift.Core

/-!
What Auto Shift took it gives back: behind every shift bit, every cancelled shift and every
registered keycode there is a key that is down.
-/

set_option autoImplicit false

namespace QmkFirmware.AutoShift

def Has (mods : BitVec 8) (side : Side) : Prop := mods.getLsbD side.index = true

instance (mods : BitVec 8) (side : Side) : Decidable (Has mods side) :=
  inferInstanceAs (Decidable (_ = _))

variable {mods mods' : BitVec 8} {side side' : Side}

theorem Side.index_lt (side : Side) : side.index < 8 := by cases side <;> decide

theorem and_bit : mods &&& side.bit ≠ 0 ↔ Has mods side :=
  PackedBits.and_twoPow_ne_zero side.index_lt mods

@[simp] theorem has_zero : ¬ Has 0 side := by simp [Has]

@[simp] theorem has_or : Has (mods ||| mods') side ↔ Has mods side ∨ Has mods' side := by
  simp [Has]

@[simp] theorem has_del : Has (mods &&& ~~~mods') side ↔ Has mods side ∧ ¬ Has mods' side := by
  simp [Has, side.index_lt]

@[simp] theorem has_bit : Has side'.bit side ↔ side = side' := by
  cases side <;> cases side' <;> simp [Has, Side.bit, Side.index]

@[simp] theorem register_registered (code : UInt16) (s : State) (c : UInt8) :
    (registerCode16 code s).registered c = (decide (c = code.toUInt8) || s.registered c) := by
  by_cases h : c = code.toUInt8 <;> simp [registerCode16, h]

@[simp] theorem unregister_registered (code : UInt16) (s : State) (c : UInt8) :
    (unregisterCode16 code s).registered c = (decide (c ≠ code.toUInt8) && s.registered c) := by
  by_cases h : c = code.toUInt8 <;> simp [unregisterCode16, h]

theorem retro_code (keycode : UInt16) :
    (if isRetro keycode then keycode &&& 0xFF else keycode).toUInt8 = keycode.toUInt8 := by
  split
  · refine UInt8.toNat_inj.mp ?_
    simp only [UInt16.toNat_toUInt8, UInt16.toNat_and]
    have hmask : (0xFF : UInt16).toNat = 2^8-1 := rfl
    rw [hmask, Nat.and_two_pow_sub_one_eq_mod]
    omega
  · rfl

structure Backed (H : Side → Prop) (Y : UInt8 → Prop) (s : State) : Prop where
  mods : ∀ side, Has s.mods side → H side
  cancelling : ∀ side, s.cancelling side → H side
  registered : ∀ c, s.registered c → Y c

section Backed

variable {H : Side → Prop} {Y : UInt8 → Prop} {s : State} (h : Backed H Y s)

include h

theorem Backed.cancel (side : Side) : Backed H Y (cancelShift side s) := by
  rw [cancelShift]
  split
  · rename_i hheld
    refine ⟨fun side' hhas => h.mods side' (has_del.mp hhas).1,fun side' hcancel => ?_,h.registered⟩
    by_cases heq : side' = side
    · exact heq ▸ h.mods side (and_bit.mp hheld)
    · dsimp only at hcancel
      rw [Function.update_of_ne heq] at hcancel
      exact h.cancelling side' hcancel
  · exact h

theorem Backed.restore (side : Side) : Backed H Y (restoreShift side s) := by
  rw [restoreShift]
  split
  · rename_i hcancel
    refine ⟨fun side' hhas => ?_,fun side' hcancel' => ?_,h.registered⟩
    · rcases has_or.mp hhas with hhas | hbit
      · exact h.mods side' hhas
      · exact has_bit.mp hbit ▸ h.cancelling side hcancel
    · by_cases heq : side' = side
      · subst heq
        simp at hcancel'
      · dsimp only at hcancel'
        rw [Function.update_of_ne heq] at hcancel'
        exact h.cancelling side' hcancel'
  · exact h

theorem Backed.flush (cfg : Config) (a : Answers) : Backed H Y (autoshiftFlushShift cfg a s) := by
  rw [autoshiftFlushShift]
  refine .restore (.restore ?_ _) _
  split
  · exact h
  · exact ⟨h.mods,h.cancelling,h.registered⟩

theorem Backed.cancels : Backed H Y (cancelShifts s) := (h.cancel .left).cancel .right

theorem Backed.register {code : UInt16} (hy : Y code.toUInt8) :
    Backed H Y (registerCode16 code s) where
  mods := h.mods
  cancelling := h.cancelling
  registered c hc := by
    simp only [register_registered, Bool.or_eq_true, decide_eq_true_eq] at hc
    rcases hc with rfl | hc
    · exact hy
    · exact h.registered c hc

theorem Backed.unregister (code : UInt16) : Backed H Y (unregisterCode16 code s) where
  mods := h.mods
  cancelling := h.cancelling
  registered c hc := by
    simp only [unregister_registered, Bool.and_eq_true] at hc
    exact h.registered c hc.2

theorem Backed.pressUser {keycode : UInt16} (shifted : Bool) (hy : Y keycode.toUInt8) :
    Backed H Y (autoshiftPressUser keycode shifted s) := by
  rw [autoshiftPressUser]
  refine Backed.register ?_ ?_
  · split
    · exact ⟨h.mods,h.cancelling,h.registered⟩
    · exact h
  · rwa [retro_code]

theorem Backed.tap (keycode : UInt16) (shifted : Bool) :
    Backed H Y (autoshiftReleaseUser keycode (autoshiftPressUser keycode shifted s)) where
  mods := by cases shifted <;> exact h.mods
  cancelling := by cases shifted <;> exact h.cancelling
  registered c hc := by
    simp only [autoshiftReleaseUser, autoshiftPressUser, unregister_registered,
      register_registered, Bool.and_eq_true, Bool.or_eq_true, decide_eq_true_eq] at hc
    have hold : s.registered c := by
      rcases hc with ⟨hne, heq | hold⟩
      · exact absurd heq hne
      · cases shifted <;> exact hold
    exact h.registered c hold

end Backed

@[simp] theorem cancelShifts_lastkey (s : State) : (cancelShifts s).lastkey = s.lastkey := by
  simp only [cancelShifts, cancelShift]
  split <;> split <;> rfl

@[simp] theorem pressUser_lastkey (keycode : UInt16) (shifted : Bool) (s : State) :
    (autoshiftPressUser keycode shifted s).lastkey = s.lastkey := by cases shifted <;> rfl

@[simp] theorem resolve_lastkey (cfg : Config) (a : Answers) (now : UInt16) (s : State) :
    (resolve cfg a now s).lastkey = s.lastkey := by simp [resolve, decideShift]

@[simp] theorem restoreShift_registered (side : Side) (s : State) :
    (restoreShift side s).registered = s.registered := by
  rw [restoreShift]
  split <;> rfl

@[simp] theorem flush_registered (cfg : Config) (a : Answers) (s : State) :
    (autoshiftFlushShift cfg a s).registered = s.registered := by
  simp only [autoshiftFlushShift, restoreShift_registered]
  split <;> rfl

theorem restoreShift_cancelling (side side' : Side) (s : State) :
    (restoreShift side s).cancelling side' = (decide (side' ≠ side) && s.cancelling side') := by
  rw [restoreShift]
  by_cases h : side' = side
  · subst h
    split <;> simp_all
  · split <;> simp [h]

theorem flush_cancelling (cfg : Config) (a : Answers) (s : State) (side : Side) :
    (autoshiftFlushShift cfg a s).cancelling side = false := by
  simp only [autoshiftFlushShift, restoreShift_cancelling]
  cases side <;> simp

section Process

variable {H : Side → Prop} {Y : UInt8 → Prop} {s : State} (h : Backed H Y s) (cfg : Config)
  (a : Answers) {keycode : UInt16} (now : UInt16)

include h

theorem Backed.same {t : State} (hmods : t.mods = s.mods) (hcancel : t.cancelling = s.cancelling)
    (hreport : t.registered = s.registered) : Backed H Y t :=
  ⟨hmods ▸ h.mods,hcancel ▸ h.cancelling,hreport ▸ h.registered⟩

theorem Backed.wait (hy : Y keycode.toUInt8) : Backed H Y (repeatOrWait cfg a keycode now s) := by
  rw [repeatOrWait]
  split
  · rename_i hrepeat
    have hkey : keycode = s.lastkey := by
      simp only [repeats, Bool.and_eq_true, decide_eq_true_eq] at hrepeat
      exact hrepeat.1.1.1.2
    refine h.cancels.pressUser _ ?_
    rwa [cancelShifts_lastkey, ← hkey]
  · exact h.same rfl rfl rfl

theorem Backed.press (hy : Y keycode.toUInt8) : Backed H Y (autoshiftPress cfg a keycode now s) := by
  have hlast : Backed H Y { s with lastkey := kcNo } := h.same rfl rfl rfl
  rw [autoshiftPress]
  split
  · split
    · exact hlast.wait cfg a now hy
    · exact (hlast.pressUser false hy).same rfl rfl rfl
  · exact h.wait cfg a now hy

theorem Backed.decided : Backed H Y (cancelShifts (decideShift cfg a now s)) :=
  Backed.cancels (h.same rfl rfl rfl)

theorem Backed.resolved : Backed H Y
    (autoshiftReleaseUser (resolve cfg a now s).lastkey (resolve cfg a now s)) := by
  have htap := (h.decided cfg a now).tap s.lastkey (cancelShifts (decideShift cfg a now s)).lastshifted
  have hlast : (cancelShifts (decideShift cfg a now s)).lastkey = s.lastkey := cancelShifts_lastkey _
  rw [resolve_lastkey]
  simp only [resolve]
  rwa [hlast]

/-- A key that is resolved, or released after it was repeated. Only the timeout may leave it
registered. -/
theorem Backed.finish (matrixTrigger : Bool)
    (hkeep : matrixTrigger → preventsRelease cfg a → Y s.lastkey.toUInt8) :
    Backed H Y (autoshiftEnd cfg a keycode now matrixTrigger s) := by
  rw [autoshiftEnd]
  split
  · dsimp only
    split
    · rename_i hprevents
      refine (h.decided cfg a now).pressUser _ ?_
      rw [cancelShifts_lastkey]
      exact hkeep hprevents.1 hprevents.2
    · exact (Backed.flush (h.resolved cfg a now) cfg a).same rfl rfl rfl
  · dsimp only
    split
    · exact (Backed.flush (h.unregister _) cfg a).same rfl rfl rfl
    · exact (h.unregister _).same rfl rfl rfl

theorem Backed.controlled : Backed H Y (control cfg a keycode s) := by
  have hswitch : ∀ b, Backed H Y { s with enabled := b } := fun _ => h.same rfl rfl rfl
  rw [control]
  split_ifs
  · exact (hswitch _).flush cfg a
  · exact hswitch true
  · exact (hswitch false).flush cfg a
  · exact h.same rfl rfl rfl
  · exact h.same rfl rfl rfl
  · exact h

theorem Backed.processed (hy : cfg.autoShifted keycode → Y keycode.toUInt8) :
    Backed H Y (processPress cfg a keycode now s).1 := by
  have hended : Backed H Y (if s.inProgress then autoshiftEnd cfg a kcNo now false s else s) := by
    split
    · exact h.finish cfg a now false (fun hfalse => nomatch hfalse)
    · exact h
  have hcontrol := @Backed.controlled H Y _ hended cfg a keycode
  simp only [processPress]
  generalize control cfg a keycode (if s.inProgress then autoshiftEnd cfg a kcNo now false s
    else s) = t at hcontrol
  split_ifs with hretro henabled hshifted
  · exact hcontrol.same rfl rfl rfl
  · exact hcontrol
  · exact hcontrol.press cfg a now (hy hshifted)
  · exact hcontrol.same rfl rfl rfl

theorem Backed.forget (side : Side) :
    Backed H Y { s with cancelling := Function.update s.cancelling side false } where
  mods := h.mods
  registered := h.registered
  cancelling side' hcancel := by
    dsimp only at hcancel
    by_cases heq : side' = side
    · subst heq
      simp at hcancel
    · rw [Function.update_of_ne heq] at hcancel
      exact h.cancelling side' hcancel

theorem Backed.processRelease : Backed H Y (processRelease cfg a keycode now s).1 := by
  have hshift : Backed H Y (releaseShift keycode s) := by
    rw [releaseShift]
    split_ifs
    · exact h.forget .left
    · exact h.forget .right
    · exact h
  rw [AutoShift.processRelease]
  generalize releaseShift keycode s = t at hshift
  have hend : ∀ keycode, Backed H Y (autoshiftEnd cfg a keycode now false t) := fun _ =>
    hshift.finish cfg a now false (fun hfalse => nomatch hfalse)
  split_ifs
  · exact hend _
  · exact hshift
  · exact hshift
  · exact hend _
  · exact hshift

end Process

section Release

variable (cfg : Config) (a : Answers) (keycode now : UInt16) (s : State)

theorem releaseShift_cancelling (side : Side) (h : (releaseShift keycode s).cancelling side) :
    s.cancelling side ∧ keycode ≠ side.keycode := by
  rw [releaseShift] at h
  split_ifs at h with hleft hright
  · cases side with
    | left => simp at h
    | right => exact ⟨by simpa using h,by rw [hleft]; decide⟩
  · cases side with
    | left => exact ⟨by simpa using h,hleft⟩
    | right => simp at h
  · cases side with
    | left => exact ⟨h,hleft⟩
    | right => exact ⟨h,hright⟩

theorem end_cancelling (h : s.inProgress) (side : Side) :
    (autoshiftEnd cfg a kcNo now false s).cancelling side = false := by
  rw [autoshiftEnd, if_pos ⟨h,.inr rfl⟩]
  exact flush_cancelling cfg a _ side

@[simp] theorem releaseShift_endsOther :
    endsOther cfg a (releaseShift keycode s) = endsOther cfg a s := by
  rw [releaseShift]
  split_ifs <;> rfl

theorem release_cancelling (hsend : (processRelease cfg a keycode now s).2 = true) (side : Side)
    (h : (processRelease cfg a keycode now s).1.cancelling side) :
    s.cancelling side ∧ keycode ≠ side.keycode ∧ ¬ (isRetro keycode ∧ endsOther cfg a s) := by
  rw [processRelease] at hsend h
  rw [releaseShift_endsOther] at hsend h
  split_ifs at hsend h with hretro hhold henabled hshifted
  · have hprogress : (releaseShift keycode s).inProgress := by
      rw [← releaseShift_endsOther cfg a keycode s] at hhold
      simp only [endsOther, Bool.and_eq_true] at hhold
      exact hhold.1.2
    rw [end_cancelling cfg a now _ hprogress] at h
    cases h
  · obtain ⟨hbefore, hne⟩ := releaseShift_cancelling keycode s side h
    exact ⟨hbefore,hne,fun hboth => hhold hboth.2⟩
  · obtain ⟨hbefore, hne⟩ := releaseShift_cancelling keycode s side h
    exact ⟨hbefore,hne,fun hboth => hretro hboth.1⟩
  · obtain ⟨hbefore, hne⟩ := releaseShift_cancelling keycode s side h
    exact ⟨hbefore,hne,fun hboth => hretro hboth.1⟩

theorem end_registered (hne : keycode ≠ kcNo) :
    (autoshiftEnd cfg a keycode now false s).registered keycode.toUInt8 = false := by
  rw [autoshiftEnd]
  split
  · rename_i hlast
    have hkey : keycode = s.lastkey := hlast.2.resolve_right hne
    have hfalse : ¬ ((false : Bool) = true ∧ preventsRelease cfg a = true) := fun h => nomatch h.1
    dsimp only
    rw [if_neg hfalse]
    simp only [flush_registered, autoshiftReleaseUser, unregister_registered, resolve_lastkey,
      retro_code, ← hkey]
    simp
  · have hcode : (autoshiftReleaseUser keycode s).registered keycode.toUInt8 = false := by
      simp only [autoshiftReleaseUser, unregister_registered, retro_code]
      simp
    dsimp only
    split
    · rwa [flush_registered]
    · exact hcode

theorem release_kept (hkept : (processRelease cfg a keycode now s).2 = false) :
    cfg.autoShifted keycode ∧ (keycode ≠ kcNo →
      (processRelease cfg a keycode now s).1.registered keycode.toUInt8 = false) := by
  rw [processRelease] at hkept ⊢
  split_ifs at hkept ⊢ with hretro hhold henabled hshifted
  exact ⟨hshifted,end_registered cfg a keycode now _⟩

end Release

section World

variable {cfg : Config} {K : Type}

/-- A key that is down holds this shift. -/
def Holds (down : K → Option (Key cfg)) (side : Side) : Prop :=
  ∃ k key, down k = some key ∧ Has key.mods side

def Yields (down : K → Option (Key cfg)) (c : UInt8) : Prop :=
  ∃ k key code, down k = some key ∧ key.code = some code ∧ code.toUInt8 = c

/-- No shift is in the modifiers and no code in the report that no key is down for. -/
structure GivesBack (w : World cfg K) : Prop where
  shift : ∀ side, Has w.state.mods side → Holds w.down side
  report : ∀ c, w.state.registered c → Yields w.down c

/-- A shift that is cancelled is not left by a key other than the shift key, if it is the last that
holds it and gives nothing back by itself, and a key that the scan registers is still down. -/
def Safe (w : World cfg K) : Input cfg K → Prop
  | .release k _ a => ∀ key, w.down k = some key → ∀ side, w.state.cancelling side →
    Has key.mods side → key.keycode ≠ side.keycode →
    ¬ (isRetro key.keycode ∧ endsOther cfg a w.state) →
    ∃ j, j ≠ k ∧ ∃ key', w.down j = some key' ∧ Has key'.mods side
  | .scan now a => timeoutOver cfg a now w.state → preventsRelease cfg a →
    Yields w.down w.state.lastkey.toUInt8
  | _ => True

abbrev World.Backed (w : World cfg K) : Prop :=
  AutoShift.Backed (Holds w.down) (Yields w.down) w.state

theorem Backed.mono {H H' : Side → Prop} {Y Y' : UInt8 → Prop} {s : State} (h : Backed H Y s)
    (hH : ∀ side, H side → H' side) (hY : ∀ c, Y c → Y' c) : Backed H' Y' s :=
  ⟨fun side hs => hH side (h.mods side hs),fun side hs => hH side (h.cancelling side hs),
    fun c hc => hY c (h.registered c hc)⟩

variable [DecidableEq K]

theorem pressed_backed {w : World cfg K} (h : w.Backed) {k : K} (hup : w.down k = none)
    (key : Key cfg) (now : UInt16) (a : Answers) : (step w (.press k key now a)).Backed := by
  have hdown : ∀ j key', w.down j = some key' →
      Function.update w.down k (some key) j = some key' := fun j key' hj => by
    have hne : j ≠ k := fun heq => by rw [heq, hup] at hj; cases hj
    rwa [Function.update_of_ne hne]
  have hself : Function.update w.down k (some key) k = some key := Function.update_self ..
  have hmore : AutoShift.Backed (Holds (Function.update w.down k (some key)))
      (Yields (Function.update w.down k (some key))) w.state :=
    h.mono (fun side ⟨j, key', hj, hhas⟩ => ⟨j,key',hdown j key' hj,hhas⟩)
      fun c ⟨j, key', code, hj, hcode⟩ => ⟨j,key',code,hdown j key' hj,hcode⟩
  have hr := @Backed.processed _ _ _ hmore cfg a key.keycode now fun hshifted =>
    ⟨k,key,key.keycode,hself,(key.shiftable hshifted).2.2,rfl⟩
  simp only [World.Backed, step, hup]
  generalize processPress cfg a key.keycode now w.state = r at hr
  split
  · have hmods : AutoShift.Backed (Holds (Function.update w.down k (some key)))
        (Yields (Function.update w.down k (some key)))
        { r.1 with mods := r.1.mods ||| key.mods } := by
      refine ⟨fun side hhas => ?_,hr.cancelling,hr.registered⟩
      rcases has_or.mp hhas with hhas | hhas
      · exact hr.mods side hhas
      · exact ⟨k,key,hself,hhas⟩
    simp only [Key.action, if_true]
    cases hcode : key.code with
    | none => exact hmods
    | some code => exact hmods.register ⟨k,key,code,hself,hcode,rfl⟩
  · exact hr

theorem released_backed {w : World cfg K} (h : w.Backed) {k : K} {key : Key cfg}
    (hdown : w.down k = some key) (now : UInt16) (a : Answers)
    (hsafe : Safe w (.release k now a)) : (step w (.release k now a)).Backed := by
  have hother : ∀ j key', w.down j = some key' → j ≠ k →
      Function.update w.down k none j = some key' := fun j key' hj hne => by
    rwa [Function.update_of_ne hne]
  have hr := @Backed.processRelease _ _ _ h cfg a key.keycode now
  have hcancel := release_cancelling cfg a key.keycode now w.state
  have hkept := release_kept cfg a key.keycode now w.state
  simp only [World.Backed, step, hdown]
  generalize processRelease cfg a key.keycode now w.state = r at hr hcancel hkept
  -- what another key than the released one is behind stays as it is
  have hheld : ∀ side, Holds w.down side → ¬ Has key.mods side →
      Holds (Function.update w.down k none) side := fun side ⟨j, key', hj, hhas⟩ hnot => by
    refine ⟨j,key',hother j key' hj fun heq => hnot ?_,hhas⟩
    rw [heq, hdown] at hj
    exact Option.some.inj hj ▸ hhas
  have hyields : ∀ c, Yields w.down c → (∀ code, key.code = some code → code.toUInt8 ≠ c) →
      Yields (Function.update w.down k none) c := fun c ⟨j, key', code, hj, hcode, heq⟩ hnot => by
    refine ⟨j,key',code,hother j key' hj fun hjk => ?_,hcode,heq⟩
    rw [hjk, hdown] at hj
    obtain rfl := Option.some.inj hj
    exact hnot code hcode heq
  split
  · rename_i hsend
    have hmods : ∀ side, Has (r.1.mods &&& ~~~key.mods) side →
        Holds (Function.update w.down k none) side := fun side hhas =>
      hheld side (hr.mods side (has_del.mp hhas).1) (has_del.mp hhas).2
    have hcancelling : ∀ side, r.1.cancelling side →
        Holds (Function.update w.down k none) side := fun side hs => by
      obtain ⟨hbefore, hkey, hends⟩ := hcancel hsend side hs
      by_cases hhas : Has key.mods side
      · obtain ⟨j, hne, key', hj, hhas'⟩ := hsafe key hdown side hbefore hhas hkey hends
        exact ⟨j,key',hother j key' hj hne,hhas'⟩
      · exact hheld side (h.cancelling side hbefore) hhas
    simp only [Key.action, Bool.false_eq_true, if_false]
    cases hcode : key.code with
    | none =>
      exact ⟨hmods,hcancelling,fun c hc => hyields c (hr.registered c hc) fun code hsome =>
        nomatch hcode.symm.trans hsome⟩
    | some code =>
      refine ⟨hmods,hcancelling,fun c hc => ?_⟩
      simp only [unregister_registered, Bool.and_eq_true, decide_eq_true_eq] at hc
      refine hyields c (hr.registered c hc.2) fun code' hsome heq => ?_
      obtain rfl := Option.some.inj (hcode.symm.trans hsome)
      exact hc.1 heq.symm
  · rename_i hsend
    obtain ⟨hshifted, hreleased⟩ := hkept (by simpa using hsend)
    obtain ⟨hne, hnone, hcode⟩ := key.shiftable hshifted
    have hnot : ∀ side, ¬ Has key.mods side := fun side => by
      rw [hnone]
      exact has_zero
    refine ⟨fun side hs => hheld side (hr.mods side hs) (hnot side),fun side hs =>
      hheld side (hr.cancelling side hs) (hnot side),fun c hc => hyields c (hr.registered c hc)
        fun code hsome heq => ?_⟩
    obtain rfl := Option.some.inj (hcode.symm.trans hsome)
    rw [heq] at hreleased
    rw [hreleased hne] at hc
    cases hc

theorem step_backed {w : World cfg K} (h : w.Backed) (input : Input cfg K)
    (hsafe : Safe w input) : (step w input).Backed := by
  cases input with
  | press k key now a =>
    cases hup : w.down k with
    | none => exact pressed_backed h hup key now a
    | some _ =>
      simp only [step, hup]
      exact h
  | release k now a =>
    cases hdown : w.down k with
    | none =>
      simp only [step, hdown]
      exact h
    | some key => exact released_backed h hdown now a hsafe
  | scan now a =>
    simp only [step, World.Backed, autoshiftMatrixScan]
    split
    · rename_i hover
      exact h.finish cfg a now true fun _ hprevents => hsafe hover hprevents
    · exact h
  | toggle a =>
    have hswitched : w.Backed → AutoShift.Backed (Holds w.down) (Yields w.down)
        { w.state with enabled := !w.state.enabled } := fun h => h.same rfl rfl rfl
    exact (hswitched h).flush cfg a
  | enable => exact h.same rfl rfl rfl
  | disable a =>
    have hswitched : w.Backed → AutoShift.Backed (Holds w.down) (Yields w.down)
        { w.state with enabled := false } := fun h => h.same rfl rfl rfl
    exact (hswitched h).flush cfg a
  | oneshot => exact h.same rfl rfl rfl
  | setTimeout => exact h.same rfl rfl rfl

omit [DecidableEq K] in
theorem start_backed (enabled : Bool) (timeout : UInt16) :
    (start cfg K enabled timeout).Backed :=
  ⟨fun _ hs => absurd hs has_zero,(fun _ hs => nomatch hs),(fun _ hc => nomatch hc)⟩

/-- In a run whose steps are all safe, what Auto Shift took is given back. -/
theorem gives_back (enabled : Bool) (timeout : UInt16) (inputs : List (Input cfg K))
    (h : Along step Safe (start cfg K enabled timeout) inputs) :
    GivesBack (inputs.foldl step (start cfg K enabled timeout)) := by
  have hbacked := Along.invariant (I := World.Backed) (fun _ input hw => step_backed hw input)
    (start_backed enabled timeout) h
  exact ⟨hbacked.mods,hbacked.registered⟩

end World

/-- A build with key repeat, and with one key that Auto Shift takes. -/
def repeatConfig : Config :=
  ⟨fun keycode => keycode = 4,false,true,false,false,false,true,true,false,false⟩

def noAnswers : Answers := ⟨true,true,false,false,0,0⟩

theorem keyA_shift (side : Side) : (4 : UInt16) = side.keycode → (0 : BitVec 8) = side.bit := by
  cases side <;> decide

theorem keyA_some : (4 : UInt16) ≠ kcNo := by decide

theorem shiftKey_shift (side : Side) : kcLsft = side.keycode → Side.left.bit = side.bit := by
  cases side <;> decide

theorem shiftKey_plain : ¬ repeatConfig.autoShifted kcLsft := by decide

theorem modTap_shift (side : Side) :
    (0x221B : UInt16) = side.keycode → Side.left.bit = side.bit := by
  cases side <;> decide

theorem modTap_plain : ¬ repeatConfig.autoShifted 0x221B := by decide

def keyA : Key repeatConfig := ⟨4,0,some 4,keyA_shift,fun _ => ⟨keyA_some,rfl,rfl⟩⟩

def shiftKey : Key repeatConfig :=
  ⟨kcLsft,Side.left.bit,none,shiftKey_shift,fun h => absurd h shiftKey_plain⟩

/-- `LSFT_T(KC_X)`, held. -/
def modTap : Key repeatConfig :=
  ⟨0x221B,Side.left.bit,none,modTap_shift,fun h => absurd h modTap_plain⟩

/-- Shift, the key until its timeout, and both up again. -/
def shiftedHold (shift : Key repeatConfig) : List (Input repeatConfig Bool) :=
  [.press true shift 0 noAnswers,.press false keyA 0 noAnswers,.scan 175 noAnswers,
    .release true 180 noAnswers,.release false 190 noAnswers]

theorem gives_back_shiftKey :
    GivesBack ((shiftedHold shiftKey).foldl step (start repeatConfig Bool true 175)) := by
  refine gives_back true 175 (shiftedHold shiftKey)
    ⟨trivial,trivial,fun _ _ => ⟨false,keyA,4,rfl,rfl,rfl⟩,?_,?_,trivial⟩
  · intro key hkey side hcancel _ hne _
    obtain rfl : shiftKey = key := Option.some.inj hkey
    cases side with
    | left => exact absurd rfl hne
    | right => exact absurd hcancel (by decide)
  · intro key hkey side hcancel hhas _ _
    obtain rfl : keyA = key := Option.some.inj hkey
    exact absurd hhas has_zero

/-- A mod-tap leaves its cancelled shift behind, and the key that is released then presses it. -/
theorem modTap_stuck :
    ¬ GivesBack ((shiftedHold modTap).foldl step (start repeatConfig Bool true 175)) := by
  intro h
  obtain ⟨k, key, hdown, -⟩ := h.shift .left (by decide +kernel)
  have hup : ∀ k, (((shiftedHold modTap).foldl step
    (start repeatConfig Bool true 175)).down k).isNone := by decide +kernel
  have hnone := hup k
  rw [hdown] at hnone
  cases hnone

end QmkFirmware.AutoShift
