import Mathlib.Data.List.Induction
import Mathlib.Logic.Function.Basic
import Mathlib.Tactic.IntervalCases
import Mathlib.Tactic.SplitIfs
import QmkFirmware.Lib.Along

/-!
`process_key_lock`: the keys whose release is withheld, as a set of 256 bits in four words.
-/

set_option autoImplicit false

namespace QmkFirmware.KeyLock

abbrev Keycode := BitVec 16

/-- `key_state`. -/
abbrev KeyState := Fin 4 → BitVec 64

def bv64 (shift : Keycode) : BitVec 64 := (1 : BitVec 64) <<< shift

def getKeyArray (keyState : KeyState) (code : Keycode) : BitVec 64 :=
  if code < 0x40 then keyState 0
  else if code < 0x80 then keyState 1
  else if code < 0xC0 then keyState 2
  else keyState 3

def getCodeIndex (code : Keycode) : Keycode :=
  if code < 0x40 then code
  else if code < 0x80 then code-0x40
  else if code < 0xC0 then code-0x80
  else code-0xC0

/-- The macro `KEY_STATE`. -/
def isLocked (keyState : KeyState) (code : Keycode) : Bool :=
  getKeyArray keyState code &&& bv64 (getCodeIndex code) == bv64 (getCodeIndex code)

def setKeyArrayState (code : Keycode) (val : BitVec 64) (keyState : KeyState) : KeyState :=
  if code ≤ 0x3F then Function.update keyState 0 val
  else if code ≤ 0x7F then Function.update keyState 1 val
  else if code ≤ 0xBF then Function.update keyState 2 val
  else if code ≤ 0xFF then Function.update keyState 3 val
  else keyState

def setKeyState (code : Keycode) (keyState : KeyState) : KeyState :=
  setKeyArrayState code (getKeyArray keyState code ||| bv64 (getCodeIndex code)) keyState

def unsetKeyState (code : Keycode) (keyState : KeyState) : KeyState :=
  setKeyArrayState code (getKeyArray keyState code &&& ~~~bv64 (getCodeIndex code)) keyState

def isStandardKeycode (code : Keycode) : Bool := decide (code ≤ 0xFF)

def qkOneShotMod : Keycode := 0x52A0
def qkOneShotModMax : Keycode := 0x52BF
def qkLock : Keycode := 0x7C59

structure State where
  keyState : KeyState
  watching : Bool

def translateKeycode (keycode : Keycode) : Keycode :=
  if qkOneShotMod < keycode ∧ keycode ≤ qkOneShotModMax then keycode ^^^ qkOneShotMod else keycode

def cancelKeyLock (s : State) : State :=
  ⟨unsetKeyState 0 s.keyState,false⟩

def processKeyLock (s : State) (keycode : Keycode) (pressed : Bool) : State × Keycode × Bool :=
  let translated := translateKeycode keycode
  if pressed then
    if !(isStandardKeycode translated || translated == qkLock) then
      ({ s with watching := false },keycode,true)
    else if translated = qkLock then
      ({ s with watching := !s.watching },keycode,false)
    else if isStandardKeycode translated then
      if s.watching then (⟨setKeyState translated s.keyState,false⟩,translated,true)
      else if isLocked s.keyState translated then
        ({ s with keyState := unsetKeyState translated s.keyState },keycode,false)
      else (s,keycode,true)
    else (s,keycode,true)
  else (s,keycode,!(isStandardKeycode translated && isLocked s.keyState translated))

inductive Event where
  | key (keycode : Keycode) (pressed : Bool)
  | cancel
  deriving DecidableEq, Repr

def next (s : State) : Event → State
  | .key keycode pressed => (processKeyLock s keycode pressed).1
  | .cancel => cancelKeyLock s

def start : State := ⟨fun _ => 0,false⟩

def run (history : List Event) : State := history.foldl next start

/-- A release that does not reach the host. -/
def withheld (s : State) (keycode : Keycode) : Bool := !(processKeyLock s keycode false).2.2

section KeySet

/-- The word and the bit of a standard keycode. -/
def word (code : Keycode) : Fin 4 :=
  if code < 0x40 then 0 else if code < 0x80 then 1 else if code < 0xC0 then 2 else 3

theorem getKeyArray_word (keyState : KeyState) (code : Keycode) :
    getKeyArray keyState code = keyState (word code) := by
  unfold getKeyArray word
  split_ifs <;> rfl

theorem getCodeIndex_lt {code : Keycode} (h : isStandardKeycode code = true) :
    (getCodeIndex code).toNat < 64 := by
  simp only [isStandardKeycode, decide_eq_true_eq] at h
  unfold getCodeIndex
  split_ifs <;> bv_omega

theorem word_index_inj {c d : Keycode} (hc : isStandardKeycode c = true)
    (hd : isStandardKeycode d = true) (hw : word c = word d)
    (hi : (getCodeIndex c).toNat = (getCodeIndex d).toNat) : c = d := by
  simp only [isStandardKeycode, decide_eq_true_eq] at hc hd
  unfold word at hw
  unfold getCodeIndex at hi
  split_ifs at hw hi <;> bv_omega

theorem getLsbD_bv64 {shift : Keycode} (h : shift.toNat < 64) (i : Nat) :
    (bv64 shift).getLsbD i = decide (i = shift.toNat) := by
  rw [show bv64 shift = BitVec.twoPow 64 shift.toNat from rfl, BitVec.getLsbD_twoPow]
  simp [h, eq_comm]

theorem isLocked_eq {code : Keycode} (h : isStandardKeycode code = true) (keyState : KeyState) :
    isLocked keyState code = (keyState (word code)).getLsbD (getCodeIndex code).toNat := by
  have hlt := getCodeIndex_lt h
  rw [isLocked, getKeyArray_word, show bv64 (getCodeIndex code)
    = BitVec.twoPow 64 (getCodeIndex code).toNat from rfl, BitVec.and_twoPow]
  cases (keyState (word code)).getLsbD (getCodeIndex code).toNat with
  | true => simp
  | false =>
    have hne : BitVec.twoPow 64 (getCodeIndex code).toNat ≠ 0 := fun heq => by
      have hbit := congrArg (fun x => x.getLsbD (getCodeIndex code).toNat) heq
      simp [hlt] at hbit
    simpa using fun heq => hne heq.symm

theorem setKeyArrayState_word {code : Keycode} (h : isStandardKeycode code = true)
    (val : BitVec 64) (keyState : KeyState) :
    setKeyArrayState code val keyState = Function.update keyState (word code) val := by
  simp only [isStandardKeycode, decide_eq_true_eq] at h
  unfold setKeyArrayState word
  split_ifs <;> first | rfl | (exfalso; bv_omega)

theorem isLocked_setKeyArrayState {c d : Keycode} (hc : isStandardKeycode c = true)
    (hd : isStandardKeycode d = true) (val : BitVec 64) (keyState : KeyState) :
    isLocked (setKeyArrayState c val keyState) d = if word d = word c
      then val.getLsbD (getCodeIndex d).toNat else isLocked keyState d := by
  rw [isLocked_eq hd, isLocked_eq hd, setKeyArrayState_word hc, Function.update_apply]
  split_ifs <;> rfl

theorem isLocked_setKeyState {c d : Keycode} (hc : isStandardKeycode c = true)
    (hd : isStandardKeycode d = true) (keyState : KeyState) :
    isLocked (setKeyState c keyState) d = (decide (d = c) || isLocked keyState d) := by
  rw [setKeyState, isLocked_setKeyArrayState hc hd, isLocked_eq hd]
  by_cases hw : word d = word c
  · have hiff : (getCodeIndex d).toNat = (getCodeIndex c).toNat ↔ d = c :=
      ⟨word_index_inj hd hc hw,fun h => by rw [h]⟩
    rw [if_pos hw, BitVec.getLsbD_or, getLsbD_bv64 (getCodeIndex_lt hc), getKeyArray_word, hw,
      Bool.or_comm]
    simp only [hiff]
  · have hne : d ≠ c := fun h => hw (by rw [h])
    simp [hw, hne]

theorem isLocked_unsetKeyState {c d : Keycode} (hc : isStandardKeycode c = true)
    (hd : isStandardKeycode d = true) (keyState : KeyState) :
    isLocked (unsetKeyState c keyState) d = (!decide (d = c) && isLocked keyState d) := by
  rw [unsetKeyState, isLocked_setKeyArrayState hc hd, isLocked_eq hd]
  by_cases hw : word d = word c
  · have hiff : (getCodeIndex d).toNat = (getCodeIndex c).toNat ↔ d = c :=
      ⟨word_index_inj hd hc hw,fun h => by rw [h]⟩
    rw [if_pos hw, BitVec.getLsbD_and, BitVec.getLsbD_not, getLsbD_bv64 (getCodeIndex_lt hc),
      getKeyArray_word, hw, Bool.and_comm]
    simp [hiff, getCodeIndex_lt hd]
  · have hne : d ≠ c := fun h => hw (by rw [h])
    simp [hw, hne]

end KeySet

/-- What a history has locked: the next press after `QK_LOCK` locks a keycode, a later press unlocks
it, and a cancel unlocks all. -/
structure Told where
  watching : Bool
  locked : Keycode → Bool

def tell (name : Keycode → Keycode) (t : Told) : Event → Told
  | .key keycode true =>
    if name keycode = qkLock then { t with watching := !t.watching }
    else if isStandardKeycode (name keycode) then
      ⟨false,Function.update t.locked (name keycode) t.watching⟩
    else { t with watching := false }
  | .key _ false => t
  | .cancel => ⟨false,fun _ => false⟩

def told (name : Keycode → Keycode) (history : List Event) : Told :=
  history.foldl (tell name) ⟨false,fun _ => false⟩

/-- A one-shot modifier is taken for the keycode it translates to, or for itself. -/
inductive Reading where
  | translated
  | literal
  deriving DecidableEq, Repr

def Reading.name : Reading → Keycode → Keycode
  | .translated => translateKeycode
  | .literal => id

structure Follows (reading : Reading) (history : List Event) : Prop where
  set : ∀ code, isStandardKeycode code = true →
    isLocked (run history).keyState code = (told reading.name history).locked code
  release : ∀ code, isStandardKeycode code = true →
    withheld (run history) code = (told reading.name history).locked code
  apart : ∀ before keycode pressed, history = before ++ [.key keycode pressed] →
    ∀ code, isStandardKeycode code = true → code ≠ reading.name keycode →
      isLocked (run history).keyState code = isLocked (run before).keyState code
  cancelled : ∀ before, history = before ++ [.cancel] →
    ∀ keycode, withheld (run history) keycode = false

/-- A cancel meets no lock but that of keycode 0; a one-shot modifier that is not to be translated
is pressed only where its translation makes no difference. -/
def Harmless (reading : Reading) (s : State) : Event → Prop
  | .key keycode true => reading.name keycode ≠ translateKeycode keycode →
    s.watching = isLocked s.keyState (translateKeycode keycode)
  | .key _ false => True
  | .cancel => ∀ code, isStandardKeycode code = true → code ≠ 0 → isLocked s.keyState code = false

def SameSet (keyState : KeyState) (locked : Keycode → Bool) : Prop :=
  ∀ code, isStandardKeycode code = true → isLocked keyState code = locked code

theorem translateKeycode_standard {keycode : Keycode} (h : isStandardKeycode keycode = true) :
    translateKeycode keycode = keycode := by
  simp only [isStandardKeycode, decide_eq_true_eq] at h
  unfold translateKeycode qkOneShotMod
  rw [if_neg (by bv_omega)]

theorem translateKeycode_ne {keycode : Keycode} (h : keycode ≠ translateKeycode keycode) :
    isStandardKeycode (translateKeycode keycode) = true ∧ isStandardKeycode keycode = false
      ∧ keycode ≠ qkLock ∧ translateKeycode keycode ≠ qkLock := by
  unfold translateKeycode at h ⊢
  by_cases hr : qkOneShotMod < keycode ∧ keycode ≤ qkOneShotModMax
  · rw [if_pos hr]
    obtain ⟨n, hn⟩ : ∃ n : Nat, keycode = BitVec.ofNat 16 (0x52A0+n) ∧ n < 32 := by
      refine ⟨keycode.toNat-0x52A0,?_,?_⟩ <;> unfold qkOneShotMod qkOneShotModMax at hr <;> bv_omega
    obtain ⟨rfl, hlt⟩ := hn
    interval_cases n <;> decide
  · rw [if_neg hr] at h
    exact absurd rfl h

theorem standard_ne_lock {code : Keycode} (h : isStandardKeycode code = true) : code ≠ qkLock := by
  rintro rfl
  simp [isStandardKeycode, qkLock] at h

section Press

variable (s : State) {keycode : Keycode}

theorem next_lock (h : translateKeycode keycode = qkLock) :
    next s (.key keycode true) = { s with watching := !s.watching } := by
  simp [next, processKeyLock, h]

theorem next_other (h : translateKeycode keycode ≠ qkLock)
    (hother : isStandardKeycode (translateKeycode keycode) = false) :
    next s (.key keycode true) = { s with watching := false } := by
  simp [next, processKeyLock, h, hother]

theorem next_standard (h : isStandardKeycode (translateKeycode keycode) = true) :
    (next s (.key keycode true)).watching = false ∧ ∀ code, isStandardKeycode code = true →
      isLocked (next s (.key keycode true)).keyState code
        = if code = translateKeycode keycode then s.watching else isLocked s.keyState code := by
  have hne := standard_ne_lock h
  cases hw : s.watching with
  | true =>
    have hnext : next s (.key keycode true)
        = ⟨setKeyState (translateKeycode keycode) s.keyState,false⟩ := by
      simp [next, processKeyLock, h, hne, hw]
    rw [hnext]
    refine ⟨rfl,fun code hcode => ?_⟩
    rw [isLocked_setKeyState h hcode]
    split_ifs with heq <;> simp [heq]
  | false =>
    cases hl : isLocked s.keyState (translateKeycode keycode) with
    | true =>
      have hnext : next s (.key keycode true)
          = ⟨unsetKeyState (translateKeycode keycode) s.keyState,false⟩ := by
        simp [next, processKeyLock, h, hne, hw, hl]
      rw [hnext]
      refine ⟨rfl,fun code hcode => ?_⟩
      rw [isLocked_unsetKeyState h hcode]
      split_ifs with heq <;> simp [heq]
    | false =>
      have hnext : next s (.key keycode true) = s := by
        simp [next, processKeyLock, h, hne, hw, hl]
      rw [hnext]
      refine ⟨hw,fun code _ => ?_⟩
      split_ifs with heq
      · rw [heq, hl]
      · rfl

end Press

section Tell

variable {name : Keycode → Keycode} (t : Told) {keycode : Keycode}

theorem tell_lock (h : name keycode = qkLock) :
    tell name t (.key keycode true) = { t with watching := !t.watching } := by
  simp [tell, h]

theorem tell_other (h : name keycode ≠ qkLock) (hother : isStandardKeycode (name keycode) = false) :
    tell name t (.key keycode true) = { t with watching := false } := by
  simp [tell, h, hother]

theorem tell_standard (h : isStandardKeycode (name keycode) = true) :
    tell name t (.key keycode true)
      = ⟨false,fun code => if code = name keycode then t.watching else t.locked code⟩ := by
  have hupdate : Function.update t.locked (name keycode) t.watching
      = fun code => if code = name keycode then t.watching else t.locked code :=
    funext fun code => Function.update_apply ..
  simp [tell, standard_ne_lock h, h, hupdate]

end Tell

theorem isLocked_cancel {code : Keycode} (h : isStandardKeycode code = true) (s : State) :
    isLocked (cancelKeyLock s).keyState code = (!decide (code = 0) && isLocked s.keyState code) :=
  isLocked_unsetKeyState (c := 0) (by decide) h s.keyState

section Step

variable {s : State} {t : Told}

theorem cancel_sameSet (s : State) :
    SameSet (cancelKeyLock s).keyState (fun _ => false)
      ↔ ∀ code, isStandardKeycode code = true → code ≠ 0 → isLocked s.keyState code = false := by
  refine ⟨fun hsame code hcode hne => ?_,fun hfree code hcode => ?_⟩
  · have hlocked := hsame code hcode
    rwa [isLocked_cancel hcode, decide_eq_false hne, Bool.not_false, Bool.true_and] at hlocked
  · rw [isLocked_cancel hcode]
    by_cases hne : code = 0
    · simp [hne]
    · simp [hfree code hcode hne]

theorem named_sameSet (name : Keycode → Keycode) {keycode : Keycode}
    (hname : name keycode = translateKeycode keycode) (hwatch : s.watching = t.watching)
    (hset : SameSet s.keyState t.locked) :
    (next s (.key keycode true)).watching = (tell name t (.key keycode true)).watching
      ∧ SameSet (next s (.key keycode true)).keyState (tell name t (.key keycode true)).locked := by
  by_cases hlock : translateKeycode keycode = qkLock
  · rw [next_lock s hlock, tell_lock t (hname.trans hlock)]
    exact ⟨by rw [hwatch],hset⟩
  · cases hstd : isStandardKeycode (translateKeycode keycode) with
    | false =>
      rw [next_other s hlock hstd, tell_other t (by rwa [hname]) (by rwa [hname])]
      exact ⟨rfl,hset⟩
    | true =>
      obtain ⟨hfalse, hbits⟩ := next_standard s hstd
      rw [tell_standard t (by rwa [hname])]
      refine ⟨hfalse,fun code hcode => ?_⟩
      rw [hbits code hcode, hwatch, hname, hset code hcode]

theorem literal_sameSet {keycode : Keycode} (hne : keycode ≠ translateKeycode keycode)
    (hset : SameSet s.keyState t.locked) :
    (next s (.key keycode true)).watching = (tell id t (.key keycode true)).watching
      ∧ (SameSet (next s (.key keycode true)).keyState (tell id t (.key keycode true)).locked
        ↔ s.watching = isLocked s.keyState (translateKeycode keycode)) := by
  obtain ⟨hstd, hself, hlock, -⟩ := translateKeycode_ne hne
  obtain ⟨hfalse, hbits⟩ := next_standard s hstd
  rw [tell_other t hlock hself]
  refine ⟨hfalse,fun hsame => ?_,fun hharm code hcode => ?_⟩
  · have hc := hsame (translateKeycode keycode) hstd
    rw [hbits _ hstd, if_pos rfl] at hc
    exact hc.trans (hset _ hstd).symm
  · rw [hbits code hcode]
    split_ifs with heq
    · rw [heq, hharm]
      exact hset _ hstd
    · exact hset code hcode

theorem step_sameSet (reading : Reading) (hwatch : s.watching = t.watching)
    (hset : SameSet s.keyState t.locked) (event : Event) :
    (next s event).watching = (tell reading.name t event).watching
      ∧ (SameSet (next s event).keyState (tell reading.name t event).locked
        ↔ Harmless reading s event) := by
  match event, reading with
  | .cancel, _ => exact ⟨rfl,cancel_sameSet s⟩
  | .key _ false, _ => exact ⟨hwatch,fun _ => trivial,fun _ => hset⟩
  | .key keycode true, .translated =>
    obtain ⟨hnext, hsame⟩ := named_sameSet translateKeycode rfl hwatch hset
    exact ⟨hnext,fun _ hne => absurd rfl hne,fun _ => hsame⟩
  | .key keycode true, .literal =>
    by_cases hname : keycode = translateKeycode keycode
    · obtain ⟨hnext, hsame⟩ := named_sameSet id hname hwatch hset
      exact ⟨hnext,fun _ hne => absurd hname hne,fun _ => hsame⟩
    · obtain ⟨hnext, hsame⟩ := literal_sameSet (t := t) hname hset
      exact ⟨hnext,fun h _ => hsame.mp h,fun h => hsame.mpr (h hname)⟩

end Step

theorem run_snoc (history : List Event) (event : Event) :
    run (history ++ [event]) = next (run history) event := by
  rw [run, List.foldl_append]
  rfl

theorem told_snoc (name : Keycode → Keycode) (history : List Event) (event : Event) :
    told name (history ++ [event]) = tell name (told name history) event := by
  rw [told, List.foldl_append]
  rfl

theorem withheld_eq {code : Keycode} (h : isStandardKeycode code = true) (s : State) :
    withheld s code = isLocked s.keyState code := by
  simp [withheld, processKeyLock, translateKeycode_standard h, h]

theorem tell_apart {name : Keycode → Keycode} (t : Told) {keycode code : Keycode} (pressed : Bool)
    (hne : code ≠ name keycode) :
    (tell name t (.key keycode pressed)).locked code = t.locked code := by
  cases pressed with
  | false => rfl
  | true =>
    by_cases hlock : name keycode = qkLock
    · rw [tell_lock t hlock]
    · cases hstd : isStandardKeycode (name keycode) with
      | false => rw [tell_other t hlock hstd]
      | true => simp [tell_standard t hstd, hne]

theorem harmless_sameSet {reading : Reading} {history : List Event}
    (h : Along next (Harmless reading) start history) :
    (run history).watching = (told reading.name history).watching
      ∧ SameSet (run history).keyState (told reading.name history).locked := by
  induction history using List.reverseRecOn with
  | nil => exact ⟨rfl,fun code hcode => by simp [isLocked_eq hcode, run, start, told]⟩
  | append_singleton history event ih =>
    obtain ⟨hbefore, hlast⟩ := Along.snoc.mp h
    obtain ⟨hwatch, hset⟩ := ih hbefore
    rw [run_snoc, told_snoc]
    obtain ⟨hnext, hsame⟩ := step_sameSet reading hwatch hset event
    exact ⟨hnext,hsame.mpr hlast⟩

theorem Follows.of_harmless {reading : Reading} {history : List Event}
    (h : Along next (Harmless reading) start history) : Follows reading history := by
  have hset := (harmless_sameSet h).2
  refine ⟨hset,fun code hcode => (withheld_eq hcode _).trans (hset code hcode),?_,?_⟩
  · rintro before keycode pressed rfl code hcode hne
    have hbefore := (harmless_sameSet (Along.snoc.mp h).1).2
    rw [hset code hcode, told_snoc, tell_apart _ pressed hne, hbefore code hcode]
  · rintro before rfl keycode
    have hfree : ∀ code, isStandardKeycode code = true →
        isLocked (run (before ++ [.cancel])).keyState code = false := fun code hcode => by
      rw [hset code hcode, told_snoc, tell]
    cases hstd : isStandardKeycode (translateKeycode keycode) with
    | false => simp [withheld, processKeyLock, hstd]
    | true => simp [withheld, processKeyLock, hfree _ hstd]

/-- The releases that are withheld, and the 256 bits, are as the history says at every moment of a
run exactly when each of its events is harmless. -/
theorem follows_history (reading : Reading) (events : List Event) :
    (∀ history, history <+: events → Follows reading history)
      ↔ Along next (Harmless reading) start events := by
  constructor
  · intro h
    induction events using List.reverseRecOn with
    | nil => trivial
    | append_singleton events event ih =>
      have hbefore := ih fun history hpre => h history (hpre.trans (List.prefix_append ..))
      obtain ⟨hwatch, hset⟩ := harmless_sameSet hbefore
      have hlast := (h _ (List.prefix_refl _)).set
      rw [run_snoc, told_snoc] at hlast
      exact Along.snoc.mpr ⟨hbefore,(step_sameSet reading hwatch hset event).2.mp hlast⟩
  · rintro h history ⟨rest, rfl⟩
    exact .of_harmless (Along.append.mp h).1

/-- A key that is locked stays locked after a cancel. -/
theorem cancel_keeps_lock :
    let history : List Event := [.key qkLock true,.key qkLock false,.key 4 true,.cancel]
    withheld (run history) 4 = true
      ∧ (∀ reading : Reading, (told reading.name history).locked 4 = false)
      ∧ ∀ reading, ¬ Follows reading history := by
  have htold : ∀ reading : Reading, (told reading.name
      [.key qkLock true,.key qkLock false,.key 4 true,.cancel]).locked 4 = false := fun _ => rfl
  have hkept : withheld (run [.key qkLock true,.key qkLock false,.key 4 true,.cancel]) 4 = true := by
    decide +kernel
  refine ⟨hkept,htold,fun reading h => ?_⟩
  have hrelease := h.release 4 (by decide)
  rw [htold, hkept] at hrelease
  exact absurd hrelease (by decide)

/-- A one-shot modifier that is locked locks the keycode of its modifier bits. -/
example :
    let history : List Event := [.key qkLock true,.key qkLock false,.key (qkOneShotMod+4) true]
    withheld (run history) 4 = true := by decide +kernel

end QmkFirmware.KeyLock
