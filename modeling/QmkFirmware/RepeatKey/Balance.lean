import Mathlib.Tactic.SplitIfs
import QmkFirmware.RepeatKey.Core

/-!
What the keys and the Repeat Key press is released again: behind every keycode and modifier there
is a key that is down.
-/

set_option autoImplicit false

namespace QmkFirmware.RepeatKey

section
variable {κ : Type} [DecidableEq κ]

def AllUp (v : World κ) : Prop := (∀ k, v.down k = none) ∧ v.repeatDown = none

/-- One level of nesting is enough, and the release of the Repeat Key processes what its press
did. -/
def Processed (v : World κ) (input : Input κ) : Prop :=
  ∃ s records, process 2 v input = some (s,records) ∧ records.length ≤ 1
    ∧ (input = .repeatKey → ∀ r, v.repeatDown = some r →
      records = (r.map fun r => { r with pressed := false }).toList)

/-- With all keys up nothing is registered. -/
def Right (v : World κ) (input : Input κ) : Prop :=
  Processed v input ∧ (AllUp (next v input) → (∀ code, (next v input).state.registered code = false)
    ∧ (next v input).state.mods = 0 ∧ (next v input).state.weakMods = 0)

end

def codeMods (code : UInt8) : BitVec 8 := if isModifierKeycode code then modBit code else 0

def codeKey (code c : UInt8) : Bool := c == code && c != 0 && !isModifierKeycode c

def usesCode (r : Record) : Bool :=
  decide (r.keycode < 0x2000) || decide (r.keycode < 0x4000) && decide (0 < r.tapCount)

def ownMods (r : Record) : BitVec 8 × Bool :=
  if r.keycode < 0x100 then (0,true)
  else if r.keycode < 0x2000 then (keycodeMods r.keycode,strong r.keycode.toUInt8)
  else if r.keycode < 0x4000 ∧ ¬ 0 < r.tapCount then (keycodeMods r.keycode,true)
  else (0,true)

def keys (r : Record) (c : UInt8) : Bool := usesCode r && codeKey r.keycode.toUInt8 c

def realMods (r : Record) : BitVec 8 :=
  (if (ownMods r).2 then (ownMods r).1 else 0)
    ||| if usesCode r then codeMods r.keycode.toUInt8 else 0

def weakModsOf (r : Record) : BitVec 8 := if (ownMods r).2 then 0 else (ownMods r).1

section
variable {s : State} {r : Record} {code : UInt8}

def change (pressed : Bool) (ks : UInt8 → Bool) (real weak : BitVec 8) (s : State) : State :=
  { s with
    registered := fun c => if pressed then s.registered c || ks c else s.registered c && !ks c
    mods := if pressed then s.mods ||| real else s.mods &&& ~~~real
    weakMods := if pressed then s.weakMods ||| weak else s.weakMods &&& ~~~weak }

def noKey (_ : UInt8) : Bool := false

theorem and_full (x : BitVec 8) : x &&& BitVec.ofNat 8 255 = x := BitVec.and_allOnes

theorem change_change (pressed : Bool) (ks ks' : UInt8 → Bool) (real real' weak weak' : BitVec 8) :
    change pressed ks real weak (change pressed ks' real' weak' s)
      = change pressed (fun c => ks' c || ks c) (real' ||| real) (weak' ||| weak) s := by
  cases pressed with
  | true => simp only [change, if_true, Bool.or_assoc, BitVec.or_assoc]
  | false =>
    simp only [change, Bool.false_eq_true, if_false, Bool.not_or, Bool.and_assoc, BitVec.not_or,
      BitVec.and_assoc]

theorem change_none (pressed : Bool) : change pressed noKey 0 0 s = s := by
  cases pressed <;> simp [change,noKey,and_full]

theorem codeKey_other (h : code = 0 ∨ isModifierKeycode code = true) : codeKey code = noKey := by
  funext c
  by_cases hc : c = code
  · subst hc
    rcases h with rfl | h
    · rfl
    · simp [codeKey,noKey,h]
  · rw [codeKey, beq_eq_false_iff_ne.mpr hc]
    rfl

theorem codeKey_self (h : code ≠ 0) (hmod : isModifierKeycode code = false) :
    codeKey code = fun c => c == code := by
  funext c
  by_cases hc : c = code
  · subst hc
    simp [codeKey,h,hmod]
  · rw [codeKey, beq_eq_false_iff_ne.mpr hc]
    rfl

theorem addMods_eq (mods : BitVec 8) : addMods mods s = change true noKey mods 0 s := by
  simp [addMods,change,noKey]

theorem delMods_eq (mods : BitVec 8) : delMods mods s = change false noKey mods 0 s := by
  simp [delMods,change,noKey,and_full]

theorem registerCode_eq :
    registerCode code s = change true (codeKey code) (codeMods code) 0 s := by
  by_cases hzero : code = 0
  · subst hzero
    rw [codeKey_other (.inl rfl), show codeMods 0 = 0 from by decide, change_none]
    rfl
  · by_cases hmod : isModifierKeycode code = true
    · rw [codeKey_other (.inr hmod), codeMods, if_pos hmod, registerCode, if_neg hzero, if_pos hmod,
        addMods_eq]
    · rw [codeKey_self hzero (Bool.eq_false_iff.mpr hmod), codeMods, if_neg hmod, registerCode,
        if_neg hzero, if_neg hmod]
      have hupdate : Function.update s.registered code true
          = fun c => s.registered c || c == code := by
        funext c
        by_cases hc : c = code <;> simp [hc]
      simp [change,hupdate]

theorem unregisterCode_eq :
    unregisterCode code s = change false (codeKey code) (codeMods code) 0 s := by
  by_cases hzero : code = 0
  · subst hzero
    rw [codeKey_other (.inl rfl), show codeMods 0 = 0 from by decide, change_none]
    rfl
  · by_cases hmod : isModifierKeycode code = true
    · rw [codeKey_other (.inr hmod), codeMods, if_pos hmod, unregisterCode, if_neg hzero,
        if_pos hmod, delMods_eq]
    · rw [codeKey_self hzero (Bool.eq_false_iff.mpr hmod), codeMods, if_neg hmod, unregisterCode,
        if_neg hzero, if_neg hmod]
      have hupdate : Function.update s.registered code false
          = fun c => s.registered c && !(c == code) := by
        funext c
        by_cases hc : c = code <;> simp [hc]
      simp [change,hupdate,and_full]

theorem addWeakMods_eq (mods : BitVec 8) : addWeakMods mods s = change true noKey 0 mods s := by
  simp [addWeakMods,change,noKey]

theorem delWeakMods_eq (mods : BitVec 8) : delWeakMods mods s = change false noKey 0 mods s := by
  simp [delWeakMods,change,noKey,and_full]

theorem code_eq (pressed : Bool) : (if pressed then registerCode code s else unregisterCode code s)
    = change pressed (codeKey code) (codeMods code) 0 s := by
  cases pressed with
  | true => exact registerCode_eq
  | false => exact unregisterCode_eq

theorem mods_eq (pressed : Bool) (mods : BitVec 8) :
    (if pressed then addMods mods s else delMods mods s) = change pressed noKey mods 0 s := by
  cases pressed with
  | true => exact addMods_eq mods
  | false => exact delMods_eq mods

theorem modified_eq (pressed : Bool) (mods : BitVec 8) :
    (if pressed then registerCode code (if strong code then addMods mods s else addWeakMods mods s)
      else if strong code then delMods mods (unregisterCode code s)
      else delWeakMods mods (unregisterCode code s))
    = change pressed (codeKey code) ((if strong code then mods else 0) ||| codeMods code)
        (if strong code then 0 else mods) s := by
  have hnone : (fun c => noKey c || codeKey code c) = codeKey code := funext fun c => Bool.false_or _
  have hnone' : (fun c => codeKey code c || noKey c) = codeKey code := funext fun c => Bool.or_false _
  have hor : ∀ x : BitVec 8, x ||| 0 = x := fun x => BitVec.or_zero
  have hor' : ∀ x : BitVec 8, 0 ||| x = x := fun x => BitVec.zero_or
  cases pressed with
  | true =>
    rw [if_pos rfl, registerCode_eq]
    split_ifs
    · rw [addMods_eq, change_change, hnone, hor]
    · rw [addWeakMods_eq, change_change, hnone, hor, hor']
  | false =>
    rw [if_neg Bool.false_ne_true, unregisterCode_eq]
    split_ifs
    · rw [delMods_eq, change_change, hnone', hor, BitVec.or_comm]
    · rw [delWeakMods_eq, change_change, hnone', hor, hor', hor']

theorem processAction_eq :
    processAction r s = change r.pressed (keys r) (realMods r) (weakModsOf r) s := by
  have hkeys : usesCode r = true → keys r = codeKey r.keycode.toUInt8 := fun h => by
    funext c
    rw [keys, h, Bool.true_and]
  have hnoKeys : usesCode r = false → keys r = noKey := fun h => by
    funext c
    rw [keys, h, Bool.false_and, noKey]
  have hor : ∀ x : BitVec 8, x ||| 0 = x := fun x => BitVec.or_zero
  have hor' : ∀ x : BitVec 8, 0 ||| x = x := fun x => BitVec.zero_or
  by_cases hbasic : r.keycode < 0x100
  · have huses : usesCode r = true := by
      have hlt : r.keycode < 0x2000 := UInt16.lt_trans hbasic (by decide)
      simp [usesCode,hlt]
    have hown : ownMods r = (0,true) := if_pos hbasic
    rw [realMods, weakModsOf, hown, huses, hkeys huses, processAction, if_pos hbasic, code_eq]
    simp only [if_true, hor']
  by_cases hmods : r.keycode < 0x2000
  · have huses : usesCode r = true := by simp [usesCode,hmods]
    have hown : ownMods r = (keycodeMods r.keycode,strong r.keycode.toUInt8) := by
      rw [ownMods, if_neg hbasic, if_pos hmods]
    rw [realMods, weakModsOf, hown, huses, hkeys huses, processAction, if_neg hbasic, if_pos hmods]
    exact modified_eq r.pressed (keycodeMods r.keycode)
  by_cases htap : r.keycode < 0x4000
  · by_cases hcount : 0 < r.tapCount
    · have huses : usesCode r = true := by simp [usesCode,htap,hcount]
      have hown : ownMods r = (0,true) := by
        rw [ownMods, if_neg hbasic, if_neg hmods, if_neg fun h => h.2 hcount]
      rw [realMods, weakModsOf, hown, huses, hkeys huses, processAction, if_neg hbasic, if_neg hmods,
        if_pos htap]
      simp only [hcount, if_true, hor']
      exact code_eq r.pressed
    · have huses : usesCode r = false := by simp [usesCode,hmods,hcount]
      have hown : ownMods r = (keycodeMods r.keycode,true) := by
        rw [ownMods, if_neg hbasic, if_neg hmods, if_pos ⟨htap,hcount⟩]
      rw [realMods, weakModsOf, hown, huses, hnoKeys huses, processAction, if_neg hbasic,
        if_neg hmods, if_pos htap]
      simp only [hcount, if_false, if_true, Bool.false_eq_true, hor]
      exact mods_eq r.pressed (keycodeMods r.keycode)
  · have huses : usesCode r = false := by simp [usesCode,hmods,htap]
    have hown : ownMods r = (0,true) := by
      rw [ownMods, if_neg hbasic, if_neg hmods, if_neg fun h => htap h.1]
    rw [realMods, weakModsOf, hown, huses, hnoKeys huses, processAction, if_neg hbasic, if_neg hmods,
      if_neg htap]
    simp only [if_true, Bool.false_eq_true, if_false, hor]
    exact (change_none r.pressed).symm

end

structure Backed (A : Record → Prop) (stacked : BitVec 8) (s : State) : Prop where
  registered : ∀ c, s.registered c = true → ∃ r, A r ∧ keys r c = true
  mods : ∀ i, s.mods.getLsbD i = true → ∃ r, A r ∧ (realMods r).getLsbD i = true
  weak : ∀ i, s.weakMods.getLsbD i = true →
    (∃ r, A r ∧ (weakModsOf r).getLsbD i = true) ∨ stacked.getLsbD i = true

section
variable {A A' : Record → Prop} {stacked stacked' : BitVec 8} {s : State} {r : Record}

theorem or_bit {x y : BitVec 8} {i : Nat} (h : (x ||| y).getLsbD i = true) :
    x.getLsbD i = true ∨ y.getLsbD i = true := by
  rwa [BitVec.getLsbD_or, Bool.or_eq_true] at h

theorem del_bit {x y : BitVec 8} {i : Nat} (h : (x &&& ~~~y).getLsbD i = true) :
    x.getLsbD i = true ∧ ¬ y.getLsbD i = true := by
  rw [BitVec.getLsbD_and, Bool.and_eq_true, BitVec.getLsbD_not, Bool.and_eq_true] at h
  exact ⟨h.1,by simpa using h.2.2⟩

theorem Backed.mono (h : Backed A stacked s) (hA : ∀ r, A r → A' r)
    (hstacked : ∀ i, s.weakMods.getLsbD i = true → stacked.getLsbD i = true →
      stacked'.getLsbD i = true) : Backed A' stacked' s := by
  refine ⟨fun c hc => ?_,fun i hi => ?_,fun i hi => ?_⟩
  · obtain ⟨r, hr, hkeys⟩ := h.registered c hc
    exact ⟨r,hA r hr,hkeys⟩
  · obtain ⟨r, hr, hmods⟩ := h.mods i hi
    exact ⟨r,hA r hr,hmods⟩
  · exact (h.weak i hi).imp (fun ⟨r, hr, hweak⟩ => ⟨r,hA r hr,hweak⟩) (hstacked i hi)

theorem Backed.press (h : Backed A stacked s) (hr : A r) :
    Backed A stacked (change true (keys r) (realMods r) (weakModsOf r) s) := by
  refine ⟨fun c hc => ?_,fun i hi => ?_,fun i hi => ?_⟩
  · rcases (Bool.or_eq_true _ _).mp hc with hc | hc
    · exact h.registered c hc
    · exact ⟨r,hr,hc⟩
  · rcases or_bit hi with hi | hi
    · exact h.mods i hi
    · exact ⟨r,hr,hi⟩
  · rcases or_bit hi with hi | hi
    · exact h.weak i hi
    · exact .inl ⟨r,hr,hi⟩

theorem Backed.release (h : Backed A stacked s) (hA : ∀ r', A r' → r' ≠ r → A' r') :
    Backed A' stacked (change false (keys r) (realMods r) (weakModsOf r) s) := by
  refine ⟨fun c hc => ?_,fun i hi => ?_,fun i hi => ?_⟩
  · obtain ⟨hc, hnot⟩ := (Bool.and_eq_true _ _).mp hc
    obtain ⟨r', hr', hkeys⟩ := h.registered c hc
    refine ⟨r',hA r' hr' ?_,hkeys⟩
    rintro rfl
    simp [hkeys] at hnot
  · obtain ⟨hi, hnot⟩ := del_bit hi
    obtain ⟨r', hr', hmods⟩ := h.mods i hi
    exact ⟨r',hA r' hr' fun heq => hnot (heq ▸ hmods),hmods⟩
  · obtain ⟨hi, hnot⟩ := del_bit hi
    exact (h.weak i hi).imp_left fun ⟨r', hr', hweak⟩ =>
      ⟨r',hA r' hr' fun heq => hnot (heq ▸ hweak),hweak⟩

theorem Backed.stack (h : Backed A 0 s) (mods : BitVec 8) :
    Backed A mods { s with weakMods := s.weakMods ||| mods } := by
  refine ⟨h.registered,h.mods,fun i hi => ?_⟩
  rcases or_bit hi with hi | hi
  · exact .inl ((h.weak i hi).resolve_right (by simp))
  · exact .inr hi

theorem Backed.unstack (h : Backed A stacked s) :
    Backed A 0 { s with weakMods := s.weakMods &&& ~~~stacked } := by
  refine ⟨h.registered,h.mods,fun i hi => ?_⟩
  obtain ⟨hi, hnot⟩ := del_bit hi
  exact .inl ((h.weak i hi).resolve_right hnot)

theorem Backed.empty (h : Backed A 0 s) (hA : ∀ r, ¬ A r) :
    (∀ c, s.registered c = false) ∧ s.mods = 0 ∧ s.weakMods = 0 := by
  refine ⟨fun c => Bool.eq_false_iff.mpr fun hc => ?_,?_,?_⟩
  · obtain ⟨r, hr, -⟩ := h.registered c hc
    exact hA r hr
  · refine BitVec.eq_of_getLsbD_eq fun i _ => (Bool.eq_false_iff.mpr fun hi => ?_).trans
      BitVec.getLsbD_zero.symm
    obtain ⟨r, hr, -⟩ := h.mods i hi
    exact hA r hr
  · refine BitVec.eq_of_getLsbD_eq fun i _ => (Bool.eq_false_iff.mpr fun hi => ?_).trans
      BitVec.getLsbD_zero.symm
    obtain ⟨r, hr, -⟩ := (h.weak i hi).resolve_right (by simp)
    exact hA r hr

end

section
variable {s : State} {r : Record}

theorem isKey_ne (h : IsKey r.keycode) : r.keycode ≠ qkRepeatKey ∧ r.keycode ≠ 0 := by
  constructor <;> rintro heq <;> rw [heq] at h <;> revert h <;> decide

theorem processRecord_key (depth : Nat) (h : r.keycode ≠ qkRepeatKey) :
    processRecord (depth+1) r s = some (processAction r (processLastKey r s),[]) :=
  if_neg fun hboth => h hboth.2

theorem processRecord_nested (depth : Nat) (h : s.processingRepeatCount ≠ 0) :
    processRecord (depth+1) r s = some (processAction r s,[]) := by
  have hlast : processLastKey r s = s := if_pos h
  rw [processRecord, hlast]
  exact if_neg fun hboth => h hboth.1

theorem processRecord_repeatKey (depth : Nat) (hidle : s.processingRepeatCount = 0) (tapCount : UInt8)
    (pressed : Bool) : processRecord (depth+1) ⟨qkRepeatKey,tapCount,pressed⟩ s
      = repeatKeyInvoke (processRecord depth) pressed s := by
  have hlast : processLastKey ⟨qkRepeatKey,tapCount,pressed⟩ s = s := by
    simp [processLastKey,hidle,rememberLastKey]
  rw [processRecord, hlast]
  exact if_pos ⟨hidle,rfl⟩

theorem takeLastRecord_eq (h : 0 ≤ s.lastRepeatCount) : ∃ n : Int, 0 < n ∧ takeLastRecord s =
    { s with
      weakMods := s.weakMods ||| s.lastMods
      lastRepeatCount := n
      registeredRecord := s.lastRecord
      registeredRepeatCount := n } := by
  unfold takeLastRecord updateLastRepeatCount
  split_ifs with hneg hlt
  · omega
  · exact ⟨s.lastRepeatCount+1,by omega,rfl⟩
  · exact ⟨s.lastRepeatCount,by omega,rfl⟩

theorem invoke_none {process : Record → State → Option (State × List Record)} {pressed : Bool}
    (h : s.lastRecord.keycode = 0) : repeatKeyInvoke process pressed s = some (s,[]) :=
  if_pos (.inr h)

theorem invoke_press (hidle : s.processingRepeatCount = 0) (hcount : 0 ≤ s.lastRepeatCount)
    (hlast : s.lastRecord.keycode ≠ 0) (hr : r = { s.lastRecord with pressed := true }) :
    ∃ n : Int, 0 < n ∧ repeatKeyInvoke (processRecord 1) true s = some
      ({ change true (keys r) (realMods r) (weakModsOf r)
          { s with weakMods := s.weakMods ||| s.lastMods } with
        lastRepeatCount := n
        processingRepeatCount := 0
        registeredRecord := r
        registeredRepeatCount := n },[r]) := by
  obtain ⟨n, hn, htake⟩ := takeLastRecord_eq hcount
  have hne : n ≠ 0 := by omega
  refine ⟨n,hn,?_⟩
  rw [repeatKeyInvoke, if_neg (not_or.mpr ⟨not_not.mpr hidle,hlast⟩), if_pos rfl, htake]
  rw [if_pos hne]
  dsimp only
  rw [processRecord_nested 0 hne, processAction_eq, ← hr]
  subst hr
  rfl

theorem invoke_silent {process : Record → State → Option (State × List Record)}
    (h : s.registeredRepeatCount = 0) : repeatKeyInvoke process false s = some (s,[]) := by
  unfold repeatKeyInvoke
  by_cases hearly : s.processingRepeatCount ≠ 0 ∨ s.lastRecord.keycode = 0
  · exact if_pos hearly
  · rw [if_neg hearly, if_neg Bool.false_ne_true]
    exact if_neg (not_not.mpr h)

theorem invoke_release (hidle : s.processingRepeatCount = 0) (hlast : s.lastRecord.keycode ≠ 0)
    (hcount : s.registeredRepeatCount ≠ 0) (hr : r = { s.registeredRecord with pressed := false }) :
    repeatKeyInvoke (processRecord 1) false s = some
      ({ change false (keys r) (realMods r) (weakModsOf r) s with
        weakMods := (s.weakMods &&& ~~~weakModsOf r) &&& ~~~s.lastMods
        processingRepeatCount := 0
        registeredRecord := r },[r]) := by
  rw [repeatKeyInvoke, if_neg (not_or.mpr ⟨not_not.mpr hidle,hlast⟩), if_neg Bool.false_ne_true]
  rw [if_pos hcount]
  dsimp only
  rw [processRecord_nested 0 hcount, processAction_eq, ← hr]
  subst hr
  rfl

end

section
variable {κ : Type}

def Active (v : World κ) (r : Record) : Prop :=
  (∃ k, v.down k = some r) ∨ v.repeatDown = some (some r)

def stacked (v : World κ) : BitVec 8 :=
  match v.repeatDown with
  | some (some _) => v.state.lastMods
  | _ => 0

structure Inv (v : World κ) : Prop where
  idle : v.state.processingRepeatCount = 0
  count : 0 ≤ v.state.lastRepeatCount
  backed : Backed (Active v) (stacked v) v.state
  taken : ∀ r, v.repeatDown = some (some r) → r.pressed = true ∧ v.state.lastRecord.keycode ≠ 0
    ∧ v.state.registeredRepeatCount ≠ 0 ∧ v.state.registeredRecord = r
  missed : v.repeatDown = some none → v.state.registeredRepeatCount = 0
  fresh : v.state.lastRecord.keycode = 0 → v.state.registeredRepeatCount = 0
  isKey : ∀ k r, v.down k = some r → IsKey r.keycode

theorem inv_start : Inv (start κ) := by
  have hbacked : Backed (Active (start κ)) (stacked (start κ)) init :=
    ⟨fun c hc => absurd hc Bool.false_ne_true,fun i hi => by simp [init] at hi,
      fun i hi => by simp [init] at hi⟩
  exact ⟨rfl,Int.le_refl 0,hbacked,fun r hr => by simp [start] at hr,fun _ => rfl,fun _ => rfl,
    fun k r hk => by simp [start] at hk⟩

theorem Inv.allUp [DecidableEq κ] {v : World κ} (hv : Inv v) (hup : AllUp v) :
    (∀ code, v.state.registered code = false) ∧ v.state.mods = 0 ∧ v.state.weakMods = 0 := by
  have hstacked : stacked v = 0 := by rw [stacked, hup.2]
  refine (hstacked ▸ hv.backed).empty fun r => ?_
  rintro (⟨k, hk⟩ | hrepeat)
  · simp [hup.1 k] at hk
  · simp [hup.2] at hrepeat

variable [DecidableEq κ] {v : World κ} {k : κ} {r : Record}

theorem remembered (s : State) (hidle : s.processingRepeatCount = 0) (r : Record) :
    processLastKey r s = s ∨ processLastKey r s = { s with
      lastRecord := r
      lastMods := s.mods ||| s.weakMods ||| s.oneshotMods
      lastRepeatCount := 0 } := by
  rw [processLastKey, if_neg (not_not.mpr hidle)]
  split_ifs
  · exact .inr rfl
  · exact .inl rfl

theorem Inv.press (hv : Inv v) (hk : v.down k = none) (hr : IsKey r.keycode)
    (hpressed : r.pressed = true) :
    Inv ⟨processAction r (processLastKey r v.state),Function.update v.down k (some r),v.repeatDown⟩ := by
  obtain ⟨hnotRepeat, hzero⟩ := isKey_ne hr
  have hactive : ∀ r', Active v r' →
      Active ⟨v.state,Function.update v.down k (some r),v.repeatDown⟩ r' := by
    rintro r' (⟨k', hk'⟩ | hrepeat)
    · refine .inl ⟨k',?_⟩
      have hne : k' ≠ k := by
        rintro rfl
        simp [hk] at hk'
      exact (Function.update_of_ne hne ..).trans hk'
    · exact .inr hrepeat
  have hself : Active ⟨v.state,Function.update v.down k (some r),v.repeatDown⟩ r :=
    .inl ⟨k,Function.update_self ..⟩
  have hisKey : ∀ k' r', Function.update v.down k (some r) k' = some r' → IsKey r'.keycode := by
    intro k' r' hk'
    by_cases heq : k' = k
    · subst heq
      rw [Function.update_self] at hk'
      exact Option.some_inj.mp hk' ▸ hr
    · exact hv.isKey k' r' ((Function.update_of_ne heq ..).symm.trans hk')
  rw [processAction_eq, hpressed]
  rcases remembered v.state hv.idle r with hsame | hnew
  · rw [hsame]
    exact ⟨hv.idle,hv.count,(hv.backed.mono hactive fun _ _ => id).press hself,hv.taken,hv.missed,
      hv.fresh,hisKey⟩
  · rw [hnew]
    refine ⟨hv.idle,Int.le_refl 0,Backed.press ?_ hself,fun r' hr' => ?_,hv.missed,
      fun hfalse => absurd hfalse hzero,hisKey⟩
    · have hmono : Backed (Active ⟨v.state,Function.update v.down k (some r),v.repeatDown⟩)
          (stacked ⟨{ v.state with
            lastMods := v.state.mods ||| v.state.weakMods ||| v.state.oneshotMods },v.down,
            v.repeatDown⟩) v.state := hv.backed.mono hactive ?_
      · exact ⟨hmono.registered,hmono.mods,hmono.weak⟩
      · intro i hweak hstacked
        cases hrepeat : v.repeatDown with
        | none => simp [stacked,hrepeat] at hstacked
        | some r' =>
          cases r' with
          | none => simp [stacked,hrepeat] at hstacked
          | some r' => simp [stacked,hweak]
    · obtain ⟨hp, -, hcount, heq⟩ := hv.taken r' hr'
      exact ⟨hp,hzero,hcount,heq⟩

theorem Inv.release (hv : Inv v) (hk : v.down k = some r) :
    Inv ⟨processAction { r with pressed := false } (processLastKey { r with pressed := false } v.state),
      Function.update v.down k none,v.repeatDown⟩ := by
  have hlast : processLastKey { r with pressed := false } v.state = v.state := by
    simp [processLastKey,hv.idle]
  rw [hlast, processAction_eq]
  have hactive : ∀ r', Active v r' → r' ≠ r →
      Active ⟨v.state,Function.update v.down k none,v.repeatDown⟩ r' := by
    rintro r' (⟨k', hk'⟩ | hrepeat) hne
    · refine .inl ⟨k',?_⟩
      have hkne : k' ≠ k := by
        rintro rfl
        exact hne (Option.some_inj.mp (hk'.symm.trans hk))
      exact (Function.update_of_ne hkne ..).trans hk'
    · exact .inr hrepeat
  refine ⟨hv.idle,hv.count,hv.backed.release (r := r) hactive,hv.taken,hv.missed,hv.fresh,
    fun k' r' hk' => ?_⟩
  by_cases heq : k' = k
  · subst heq
    simp at hk'
  · exact hv.isKey k' r' ((Function.update_of_ne heq ..).symm.trans hk')

theorem key_step (hv : Inv v) (k : κ) (keycode : {keycode // IsKey keycode}) (tapCount : UInt8) :
    Processed v (.key k keycode tapCount) ∧ Inv (next v (.key k keycode tapCount)) := by
  cases hk : v.down k with
  | none =>
    have hprocess : process 2 v (.key k keycode tapCount)
        = some (processAction ⟨keycode.1,tapCount,true⟩
            (processLastKey ⟨keycode.1,tapCount,true⟩ v.state),[]) := by
      simp only [process, hk]
      exact processRecord_key 1 (isKey_ne (r := ⟨keycode.1,tapCount,true⟩) keycode.2).1
    refine ⟨⟨_,_,hprocess,Nat.zero_le 1,fun h => by simp at h⟩,?_⟩
    simp only [next, hprocess, hk]
    exact hv.press hk keycode.2 rfl
  | some r =>
    have hprocess : process 2 v (.key k keycode tapCount)
        = some (processAction { r with pressed := false }
            (processLastKey { r with pressed := false } v.state),[]) := by
      simp only [process, hk]
      exact processRecord_key 1 (isKey_ne (r := r) (hv.isKey k r hk)).1
    refine ⟨⟨_,_,hprocess,Nat.zero_le 1,fun h => by simp at h⟩,?_⟩
    simp only [next, hprocess, hk]
    exact hv.release hk

omit [DecidableEq κ] in
theorem Inv.repeatPress (hv : Inv v) (hup : v.repeatDown = none) {n : Int} (hn : 0 < n)
    (hlast : v.state.lastRecord.keycode ≠ 0) (hr : r = { v.state.lastRecord with pressed := true }) :
    Inv ⟨{ change true (keys r) (realMods r) (weakModsOf r)
          { v.state with weakMods := v.state.weakMods ||| v.state.lastMods } with
        lastRepeatCount := n
        processingRepeatCount := 0
        registeredRecord := r
        registeredRepeatCount := n },v.down,some (some r)⟩ := by
  have hstacked : stacked v = 0 := by rw [stacked, hup]
  have hactive : ∀ r', Active v r' → Active ⟨v.state,v.down,some (some r)⟩ r' := by
    rintro r' (hk | hrepeat)
    · exact .inl hk
    · simp [hup] at hrepeat
  have hbacked := ((hstacked ▸ hv.backed).stack v.state.lastMods).mono hactive fun _ _ => id
  have hpressed := hbacked.press (r := r) (.inr rfl)
  refine ⟨rfl,Int.le_of_lt hn,⟨hpressed.registered,hpressed.mods,hpressed.weak⟩,fun r' hr' => ?_,
    fun hnone => by simp at hnone,fun hzero => absurd hzero hlast,hv.isKey⟩
  cases hr'
  exact ⟨by rw [hr],hlast,Int.ne_of_gt hn,rfl⟩

omit [DecidableEq κ] in
theorem Inv.repeatRelease (hv : Inv v) (hdown : v.repeatDown = some (some r)) {r' : Record}
    (hr : r' = { r with pressed := false }) :
    Inv ⟨{ change false (keys r') (realMods r') (weakModsOf r') v.state with
        weakMods := (v.state.weakMods &&& ~~~weakModsOf r') &&& ~~~v.state.lastMods
        processingRepeatCount := 0
        registeredRecord := r' },v.down,none⟩ := by
  obtain ⟨-, hlast, -, -⟩ := hv.taken r hdown
  have hstacked : stacked v = v.state.lastMods := by rw [stacked, hdown]
  have hactive : ∀ r', Active v r' → r' ≠ r → Active ⟨v.state,v.down,none⟩ r' := by
    rintro r' (hk | hrepeat) hne
    · exact .inl hk
    · rw [hdown] at hrepeat
      cases hrepeat
      exact absurd rfl hne
  subst hr
  have hbacked := ((hstacked ▸ hv.backed).release (r := r) hactive).unstack
  exact ⟨rfl,hv.count,⟨hbacked.registered,hbacked.mods,hbacked.weak⟩,fun r' hr' => by simp at hr',
    fun hnone => by simp at hnone,fun hzero => absurd hzero hlast,hv.isKey⟩

omit [DecidableEq κ] in
theorem Inv.repeatSilent (hv : Inv v) (hdown : v.repeatDown ≠ none → v.repeatDown = some none)
    {repeatDown : Option (Option Record)} (hnew : repeatDown = none ∨ repeatDown = some none)
    (hcount : repeatDown = some none → v.state.registeredRepeatCount = 0) :
    Inv ⟨v.state,v.down,repeatDown⟩ := by
  have hnotTaken : ∀ r, v.repeatDown ≠ some (some r) := fun r hr => by
    have hsome := hdown (by simp [hr])
    simp [hr] at hsome
  have hstacked : stacked v = 0 := by
    cases hrepeat : v.repeatDown with
    | none => rw [stacked, hrepeat]
    | some r => rw [stacked, hdown (by simp [hrepeat])]
  have hbacked : Backed (Active ⟨v.state,v.down,repeatDown⟩) 0 v.state :=
    (hstacked ▸ hv.backed).mono (fun r hr => hr.imp_right fun h => absurd h (hnotTaken r))
      fun _ _ => id
  have hstacked' : stacked ⟨v.state,v.down,repeatDown⟩ = 0 := by
    rcases hnew with rfl | rfl <;> rfl
  refine ⟨hv.idle,hv.count,hstacked' ▸ hbacked,fun r hr => ?_,hcount,hv.fresh,hv.isKey⟩
  rcases hnew with rfl | rfl <;> simp at hr

theorem repeatKey_step (hv : Inv v) : Processed v .repeatKey ∧ Inv (next v .repeatKey) := by
  have hprocess : process 2 v .repeatKey
      = repeatKeyInvoke (processRecord 1) v.repeatDown.isNone v.state :=
    processRecord_repeatKey 1 hv.idle 0 _
  cases hdown : v.repeatDown with
  | none =>
    rw [hdown, Option.isNone_none] at hprocess
    by_cases hlast : v.state.lastRecord.keycode = 0
    · rw [invoke_none hlast] at hprocess
      refine ⟨⟨_,_,hprocess,Nat.zero_le 1,fun _ r hr => by simp [hdown] at hr⟩,?_⟩
      simp only [next, hprocess, hdown]
      exact hv.repeatSilent (fun h => absurd hdown h) (.inr rfl) fun _ => hv.fresh hlast
    · obtain ⟨n, hn, hinvoke⟩ := invoke_press hv.idle hv.count hlast rfl
      rw [hinvoke] at hprocess
      refine ⟨⟨_,_,hprocess,Nat.le_refl 1,fun _ r hr => by simp [hdown] at hr⟩,?_⟩
      simp only [next, hprocess, hdown]
      exact hv.repeatPress hdown hn hlast rfl
  | some r =>
    rw [hdown, Option.isNone_some] at hprocess
    cases r with
    | none =>
      rw [invoke_silent (hv.missed hdown)] at hprocess
      refine ⟨⟨_,_,hprocess,Nat.zero_le 1,fun _ r hr => ?_⟩,?_⟩
      · rw [hdown] at hr
        cases hr
        rfl
      · simp only [next, hprocess, hdown]
        exact hv.repeatSilent (fun _ => hdown) (.inl rfl) fun h => by simp at h
    | some r =>
      obtain ⟨-, hlast, hcount, heq⟩ := hv.taken r hdown
      rw [invoke_release hv.idle hlast hcount rfl] at hprocess
      refine ⟨⟨_,_,hprocess,Nat.le_refl 1,fun _ r' hr' => ?_⟩,?_⟩
      · rw [hdown] at hr'
        cases hr'
        rw [heq]
        rfl
      · simp only [next, hprocess, hdown]
        exact hv.repeatRelease hdown (by rw [heq])

theorem step (hv : Inv v) (input : Input κ) : Processed v input ∧ Inv (next v input) := by
  cases input with
  | key k keycode tapCount => exact key_step hv k keycode tapCount
  | repeatKey => exact repeatKey_step hv
  | clearWeakMods =>
    refine ⟨⟨_,_,rfl,Nat.zero_le 1,fun h => by simp at h⟩,hv.idle,hv.count,?_,hv.taken,hv.missed,
      hv.fresh,hv.isKey⟩
    exact ⟨hv.backed.registered,hv.backed.mods,fun i hi => by simp [next,process] at hi⟩
  | setOneshotMods mods =>
    exact ⟨⟨_,_,rfl,Nat.zero_le 1,fun h => by simp at h⟩,hv.idle,hv.count,
      ⟨hv.backed.registered,hv.backed.mods,hv.backed.weak⟩,hv.taken,hv.missed,hv.fresh,hv.isKey⟩

end

/-- In every run the Repeat Key processes one record inside another and no deeper, releases what it
pressed, and leaves nothing registered. -/
theorem repeat_key_right {κ : Type} [DecidableEq κ] (inputs : List (Input κ)) :
    Along next Right (start κ) inputs :=
  Along.of_step (I := Inv) (fun _ input hv =>
    ⟨⟨(step hv input).1,(step hv input).2.allUp⟩,(step hv input).2⟩) inv_start inputs

end QmkFirmware.RepeatKey
