import QmkFirmware.Combos.Core

/-!
The keys of a combo as bits: where a keycode is in the list, which bits a state has, and what
the keys of the buffer amount to for a combo.
-/

set_option autoImplicit false

namespace QmkFirmware.Combos

theorem findKeyIndex_end (keys : List UInt16) (n : Nat) (acc : Option Nat) :
    findKeyIndex comboEnd keys n acc = some (n+keys.length) := by
  induction keys generalizing n acc with
  | nil => simp [findKeyIndex]
  | cons key keys ih =>
    rw [findKeyIndex, ih, List.length_cons]
    congr 1
    omega

theorem findKeyIndex_some {k : UInt16} (hk : k ≠ comboEnd) {keys : List UInt16} {n i : Nat}
    {acc : Option Nat} (h : findKeyIndex k keys n acc = some i) :
    acc = some i ∨ n ≤ i ∧ keys[i-n]? = some k := by
  induction keys generalizing n acc with
  | nil =>
    rw [findKeyIndex, if_neg hk] at h
    exact .inl h
  | cons key keys ih =>
    rw [findKeyIndex] at h
    rcases ih h with hacc | ⟨hle, hget⟩
    · split at hacc
      · rename_i heq
        cases hacc
        exact .inr ⟨Nat.le_refl _, by simp [heq]⟩
      · exact .inl hacc
    · refine .inr ⟨by omega, ?_⟩
      rw [show i-n = i-(n+1)+1 by omega, List.getElem?_cons_succ]
      exact hget

namespace Combo

variable {c : Combo} {k : UInt16} {i : Nat}

theorem keyIndex_end (c : Combo) : c.keyIndex comboEnd = some c.keys.length := by
  rw [keyIndex, findKeyIndex_end, Nat.zero_add]

theorem keyIndex_get (hk : k ≠ comboEnd) (h : c.keyIndex k = some i) : c.keys[i]? = some k := by
  rcases findKeyIndex_some hk h with h | ⟨-, h⟩
  · cases h
  · simpa using h

theorem keyIndex_lt (hk : k ≠ comboEnd) (h : c.keyIndex k = some i) : i < c.keys.length := by
  obtain ⟨hlt, -⟩ := List.getElem?_eq_some_iff.mp (keyIndex_get hk h)
  exact hlt

theorem keyIndex_mem (hk : k ≠ comboEnd) (h : c.keyIndex k = some i) : k ∈ c.keys :=
  List.mem_of_getElem? (keyIndex_get hk h)

theorem keyIndex_le (h : c.keyIndex k = some i) : i ≤ c.keys.length := by
  by_cases hk : k = comboEnd
  · rw [hk, keyIndex_end] at h
    cases h
    exact Nat.le_refl _
  · exact Nat.le_of_lt (keyIndex_lt hk h)

theorem mem_of_keyIndex (h : c.keyIndex k = some i) (hi : i ≠ c.keys.length) : k ∈ c.keys := by
  refine keyIndex_mem (fun hk => ?_) h
  rw [hk, keyIndex_end] at h
  cases h
  exact hi rfl

end Combo

theorem keyBit_get (i j : Nat) : (keyBit i).getLsbD j = decide (j < 8 ∧ i = j) := by
  rw [keyBit, BitVec.getLsbD_ofNat, Nat.testBit_two_pow]
  by_cases h : j < 8 <;> simp [h]

theorem keyNotYetReleased_iff {state : BitVec 8} {i : Nat} :
    keyNotYetReleased state i = true ↔ state.getLsbD i = true := by
  rw [keyNotYetReleased, decide_eq_true_eq]
  constructor
  · intro h
    by_contra hbit
    refine h (BitVec.eq_of_getLsbD_eq fun j hj => ?_)
    rw [BitVec.getLsbD_and, keyBit_get]
    by_cases hij : i = j
    · subst hij
      rw [(Bool.not_eq_true _).mp hbit, Bool.and_false]
      simp
    · simp [hij]
  · intro h hzero
    have hi : i < 8 := BitVec.lt_of_getLsbD h
    have hbit := congrArg (fun b => BitVec.getLsbD b i) hzero
    simp only [BitVec.getLsbD_and, keyBit_get, h, hi] at hbit
    simp at hbit

theorem down_get (state : BitVec 8) (i j : Nat) :
    (state ||| keyBit i).getLsbD j = (state.getLsbD j || decide (j < 8 ∧ i = j)) := by
  rw [BitVec.getLsbD_or, keyBit_get]

theorem up_get (state : BitVec 8) (i j : Nat) :
    (state &&& ~~~keyBit i).getLsbD j = (state.getLsbD j && decide (i ≠ j)) := by
  rw [BitVec.getLsbD_and, BitVec.getLsbD_not, keyBit_get]
  by_cases hj : j < 8
  · simp [hj]
  · simp [BitVec.getLsbD_of_ge state j (by omega)]

theorem allDown_get {state : BitVec 8} {n : Nat} (h : allComboKeysAreDown state n = true)
    (j : Nat) : state.getLsbD j = decide (j < n) := by
  rw [allComboKeysAreDown, decide_eq_true_eq] at h
  rw [BitVec.getLsbD, ← h, Nat.testBit_two_pow_sub_one]

theorem allDown_le {state : BitVec 8} {n : Nat} (h : allComboKeysAreDown state n = true) :
    n ≤ 8 := by
  by_contra hn
  have := allDown_get h 8
  rw [BitVec.getLsbD_of_ge state 8 (by omega)] at this
  simp at this
  omega

theorem up_not_onlyOne : ∀ (state : BitVec 8) (i : Fin 8), onlyOneKeyIsDown state = false →
    state &&& ~~~keyBit i ≠ 0 := by decide +kernel

namespace Combo

def stateOf (c : Combo) (state : BitVec 8) : List UInt16 → BitVec 8
  | [] => state
  | k :: ks =>
    match c.keyIndex k with
    | none => stateOf c state ks
    | some i => stateOf c (state ||| keyBit i) ks

/-- One of these keycodes completes the combo. -/
def completes (c : Combo) (state : BitVec 8) : List UInt16 → Bool
  | [] => false
  | k :: ks =>
    match c.keyIndex k with
    | none => completes c state ks
    | some i => allComboKeysAreDown (state ||| keyBit i) c.keys.length
      || completes c (state ||| keyBit i) ks

variable {c : Combo} {k : UInt16}

theorem stateOf_snoc_none (state : BitVec 8) (ks : List UInt16) (h : c.keyIndex k = none) :
    c.stateOf state (ks ++ [k]) = c.stateOf state ks := by
  induction ks generalizing state with
  | nil => simp [stateOf, h]
  | cons x xs ih =>
    simp only [List.cons_append, stateOf]
    split <;> exact ih _

theorem stateOf_snoc {i : Nat} (state : BitVec 8) (ks : List UInt16)
    (h : c.keyIndex k = some i) :
    c.stateOf state (ks ++ [k]) = c.stateOf state ks ||| keyBit i := by
  induction ks generalizing state with
  | nil => simp [stateOf, h]
  | cons x xs ih =>
    simp only [List.cons_append, stateOf]
    split <;> exact ih _

theorem completes_snoc_none (state : BitVec 8) (ks : List UInt16) (h : c.keyIndex k = none) :
    c.completes state (ks ++ [k]) = c.completes state ks := by
  induction ks generalizing state with
  | nil => simp [completes, h]
  | cons x xs ih =>
    simp only [List.cons_append, completes]
    split
    · exact ih _
    · rw [ih]

theorem completes_snoc {i : Nat} (state : BitVec 8) (ks : List UInt16)
    (h : c.keyIndex k = some i) :
    c.completes state (ks ++ [k]) = (c.completes state ks
      || allComboKeysAreDown (c.stateOf state ks ||| keyBit i) c.keys.length) := by
  induction ks generalizing state with
  | nil => simp [completes, stateOf, h]
  | cons x xs ih =>
    simp only [List.cons_append, completes, stateOf]
    split
    · exact ih _
    · rw [ih, Bool.or_assoc]

end Combo

theorem allDown_pos {state : BitVec 8} {c : Combo} {k : UInt16} {i : Nat}
    (hk : c.keyIndex k = some i)
    (h : allComboKeysAreDown (state ||| keyBit i) c.keys.length = true) : 1 ≤ c.keys.length := by
  have hi := Combo.keyIndex_le hk
  have hle := allDown_le h
  have hbit := allDown_get h i
  rw [down_get] at hbit
  by_contra hn
  simp [show i < 8 by omega, show ¬ i < c.keys.length by omega] at hbit

def keycodes (buffer : List QueuedRecord) : List UInt16 := buffer.map QueuedRecord.keycode

theorem applyKeys_fst (c : Combo) (i : Nat) (state : BitVec 8) (buffer : List QueuedRecord) :
    (applyKeys c i state buffer).1 = c.completes state (keycodes buffer) := by
  unfold keycodes
  induction buffer generalizing state with
  | nil => rfl
  | cons q qs ih =>
    simp only [applyKeys, List.map_cons, Combo.completes]
    cases c.keyIndex q.keycode with
    | none => exact ih _
    | some index =>
      by_cases h : allComboKeysAreDown (state ||| keyBit index) c.keys.length = true
      · simp [h]
      · simp [ih, h]

def Shares (t : Table) (i j : Nat) : Prop := ∃ k, k ∈ (t.combo i).keys ∧ k ∈ (t.combo j).keys

theorem Shares.symm {t : Table} {i j : Nat} (h : Shares t i j) : Shares t j i := by
  obtain ⟨k, hi, hj⟩ := h
  exact ⟨k, hj, hi⟩

theorem overlaps_none {t : Table} {i j : Nat} : overlaps t i j = none ↔ ¬ Shares t i j := by
  unfold overlaps Shares
  simp only
  split
  · rename_i h
    simp only [List.any_eq_true, List.contains_iff_mem] at h
    split <;> simp [h]
  · rename_i h
    simp only [List.any_eq_true, List.contains_iff_mem] at h
    simpa using h

theorem overlaps_some {t : Table} {i j d : Nat} (h : overlaps t i j = some d) :
    d = i ∨ d = j := by
  unfold overlaps at h
  simp only at h
  split at h
  · split at h
    · exact .inr (Option.some_inj.mp h).symm
    · exact .inl (Option.some_inj.mp h).symm
  · cases h

end QmkFirmware.Combos
