import Mathlib.Data.Fintype.Card
import Mathlib.Data.List.Infix
import Mathlib.Data.Set.Function
import QmkFirmware.Lib.PackedBits

/-!
The keys of the two keyboard reports: six slots for the boot protocol, a bitmap for NKRO.
-/

set_option autoImplicit false

namespace QmkFirmware.Report

def keyboardReportKeys : Nat := 6

def nkroReportBits : Nat := 30

abbrev Keys (n : Nat) := Fin n → UInt8

/-- The loop of `add_key_byte` over the slots left; `none` is its `break`, otherwise the first
free slot. -/
def findEmpty {n : Nat} (keys : Keys n) (code : UInt8) :
    List (Fin n) → Option (Fin n) → Option (Option (Fin n))
  | [], empty => some empty
  | i :: is, empty =>
    if keys i = code then none
    else findEmpty keys code is (if empty = none ∧ keys i = 0 then some i else empty)

def addKeyByte {n : Nat} (keys : Keys n) (code : UInt8) : Keys n :=
  match findEmpty keys code (List.finRange n) none with
  | some (some empty) => Function.update keys empty code
  | _ => keys

/-- The loop of `del_key_byte`. -/
def delKeyByte {n : Nat} (keys : Keys n) (code : UInt8) : Keys n :=
  (List.finRange n).foldl (fun keys i => if keys i = code then Function.update keys i 0 else keys)
    keys

abbrev Bits := Nat → BitVec 8

/-- `1 << (code & 7)`. -/
def keyBit (code : UInt8) : BitVec 8 := (1 : BitVec 8) <<< (code &&& 7).toNat

def addKeyBit (bits : Bits) (code : UInt8) : Bits :=
  let i := (code >>> 3).toNat
  if i < nkroReportBits then Function.update bits i (bits i ||| keyBit code) else bits

def delKeyBit (bits : Bits) (code : UInt8) : Bits :=
  let i := (code >>> 3).toNat
  if i < nkroReportBits then Function.update bits i (bits i &&& ~~~keyBit code) else bits

/-- `keyboard_report` and `nkro_report`. -/
structure Reports where
  keys : Keys keyboardReportKeys
  bits : Bits

def Reports.empty : Reports := ⟨fun _ => 0,fun _ => 0⟩

section Modes
-- `host_can_send_nkro() && keymap_config.nkro`
variable (nkro : Bool)

def addKeyToReport (key : UInt8) (r : Reports) : Reports :=
  if nkro then { r with bits := addKeyBit r.bits key } else { r with keys := addKeyByte r.keys key }

def delKeyFromReport (key : UInt8) (r : Reports) : Reports :=
  if nkro then { r with bits := delKeyBit r.bits key } else { r with keys := delKeyByte r.keys key }

def isKeyPressed (key : UInt8) (r : Reports) : Bool :=
  if key = 0 then false
  else if nkro then
    let i := (key >>> 3).toNat
    if i < nkroReportBits then r.bits i &&& keyBit key != 0 else false
  else (List.finRange keyboardReportKeys).any fun i => r.keys i == key

end Modes

inductive Op where
  | add (key : UInt8)
  | del (key : UInt8)
  deriving DecidableEq, Repr

namespace Op

def key : Op → UInt8
  | .add key => key
  | .del key => key

def apply (nkro : Bool) (r : Reports) : Op → Reports
  | .add key => addKeyToReport nkro key r
  | .del key => delKeyFromReport nkro key r

@[simp] theorem apply_add_keys (r : Reports) (key : UInt8) :
    ((Op.add key).apply false r).keys = addKeyByte r.keys key := rfl

@[simp] theorem apply_del_keys (r : Reports) (key : UInt8) :
    ((Op.del key).apply false r).keys = delKeyByte r.keys key := by
  simp [Op.apply,delKeyFromReport]

@[simp] theorem apply_add_bits (r : Reports) (key : UInt8) :
    ((Op.add key).apply true r).bits = addKeyBit r.bits key := rfl

@[simp] theorem apply_del_bits (r : Reports) (key : UInt8) :
    ((Op.del key).apply true r).bits = delKeyBit r.bits key := rfl

/-- A keycode that has a bit in the bitmap. -/
def Reportable (op : Op) : Prop := op.key ≠ 0 ∧ op.key.toNat < 8*nkroReportBits

instance (op : Op) : Decidable op.Reportable :=
  inferInstanceAs (Decidable (op.key ≠ 0 ∧ op.key.toNat < 8*nkroReportBits))

def hold (held : Finset UInt8) : Op → Finset UInt8
  | .add key => insert key held
  | .del key => held.erase key

end Op

/-- The reports after the operations, all in one mode. -/
def run (nkro : Bool) (ops : List Op) : Reports := ops.foldl (Op.apply nkro) .empty

def held (ops : List Op) : Finset UInt8 := ops.foldl Op.hold ∅

def reported (r : Reports) : Set UInt8 := {key | key ≠ 0 ∧ ∃ i, r.keys i = key}

/-- The slots in use hold different keycodes. -/
def Distinct {n : Nat} (keys : Keys n) : Prop := Set.InjOn keys {i | keys i ≠ 0}

def flagged (r : Reports) : Set UInt8 :=
  {key | key.toNat < 8*nkroReportBits ∧ PackedBits.read r.bits key.toNat = true}

section Slots
variable {n : Nat} {keys : Keys n} {code : UInt8}

theorem findEmpty_eq (is : List (Fin n)) (empty : Option (Fin n)) :
    findEmpty keys code is empty =
      if ∃ i ∈ is, keys i = code then none
      else some (empty.or (is.find? fun i => keys i == 0)) := by
  induction is generalizing empty with
  | nil => simp [findEmpty]
  | cons i is ih =>
    by_cases hi : keys i = code
    · simp [findEmpty,hi]
    · rw [findEmpty, if_neg hi, ih]
      have hmem : (∃ j ∈ i :: is, keys j = code) ↔ ∃ j ∈ is, keys j = code := by simp [hi]
      simp only [hmem]
      by_cases hzero : keys i = 0
      · cases empty <;> simp [hzero]
      · simp [hzero]

theorem addKeyByte_present (h : ∃ i, keys i = code) : addKeyByte keys code = keys := by
  rw [addKeyByte, findEmpty_eq, if_pos (by simpa using h)]

theorem addKeyByte_full (hcode : ∀ i, keys i ≠ code) (h : ∀ i, keys i ≠ 0) :
    addKeyByte keys code = keys := by
  have hnone : (List.finRange n).find? (fun i => keys i == 0) = none := by simp [h]
  rw [addKeyByte, findEmpty_eq, if_neg (by simpa using hcode), hnone]
  rfl

theorem addKeyByte_free (hcode : ∀ i, keys i ≠ code) (h : ∃ i, keys i = 0) :
    ∃ i, keys i = 0 ∧ addKeyByte keys code = Function.update keys i code := by
  obtain ⟨i,hi⟩ : ∃ i, (List.finRange n).find? (fun i => keys i == 0) = some i := by
    rw [← Option.isSome_iff_exists, List.find?_isSome]
    simpa using h
  refine ⟨i,by simpa using List.find?_some hi,?_⟩
  rw [addKeyByte, findEmpty_eq, if_neg (by simpa using hcode), hi]
  rfl

theorem delKeyByte_get (i : Fin n) :
    delKeyByte keys code i = if keys i = code then 0 else keys i := by
  suffices h : ∀ (is : List (Fin n)) (keys : Keys n),
      is.foldl (fun keys i => if keys i = code then Function.update keys i 0 else keys) keys i
        = if i ∈ is ∧ keys i = code then 0 else keys i by
    simpa [delKeyByte] using h (List.finRange n) keys
  intro is
  induction is with
  | nil => simp
  | cons j is ih =>
    intro keys
    rw [List.foldl_cons, ih]
    by_cases hj : keys j = code
    · by_cases hij : i = j
      · subst i
        simp [hj]
      · simp [hj,hij]
    · by_cases hij : i = j
      · subst i
        simp [hj]
      · simp [hj,hij]

theorem Distinct.addKeyByte (h : Distinct keys) (code : UInt8) : Distinct (addKeyByte keys code) := by
  by_cases hcode : ∃ i, keys i = code
  · rwa [addKeyByte_present hcode]
  have habsent : ∀ i, keys i ≠ code := fun i hi => hcode ⟨i,hi⟩
  by_cases hfree : ∃ i, keys i = 0
  · obtain ⟨e,-,he⟩ := addKeyByte_free habsent hfree
    rw [he]
    intro i hi j hj hij
    by_cases hie : i = e <;> by_cases hje : j = e
    · rw [hie, hje]
    · subst hie
      simp only [Function.update_self, Function.update_of_ne hje] at hij
      exact absurd hij.symm (habsent j)
    · subst hje
      simp only [Function.update_self, Function.update_of_ne hie] at hij
      exact absurd hij (habsent i)
    · simp only [Set.mem_ofPred_eq, Function.update_of_ne hie, Function.update_of_ne hje] at hi hj hij
      exact h hi hj hij
  · rwa [addKeyByte_full habsent fun i hi => hfree ⟨i,hi⟩]

theorem Distinct.delKeyByte (h : Distinct keys) (code : UInt8) : Distinct (delKeyByte keys code) := by
  intro i hi j hj hij
  simp only [Set.mem_ofPred_eq, delKeyByte_get] at hi hj hij
  split_ifs at hi hj hij with h1 h2
  all_goals first | exact absurd rfl hi | exact absurd rfl hj | exact h hi hj hij

theorem Distinct.free (h : Distinct keys) {held : Finset UInt8}
    (hheld : ∀ i, keys i ≠ 0 → keys i ∈ held) (hcard : held.card < n) : ∃ i, keys i = 0 := by
  by_contra hfull
  have hne : ∀ i, keys i ≠ 0 := fun i hi => hfull ⟨i,hi⟩
  have hcard' := Finset.card_le_card_of_injOn keys (s := Finset.univ) (t := held)
    (fun i _ => hheld i (hne i)) fun i _ j _ hij => h (hne i) (hne j) hij
  simp only [Finset.card_univ, Fintype.card_fin] at hcard'
  omega

theorem slotted_addKeyByte {key : UInt8} (h : ∃ i, addKeyByte keys code i = key) :
    key = code ∨ ∃ i, keys i = key := by
  by_cases hcode : ∃ i, keys i = code
  · rw [addKeyByte_present hcode] at h
    exact .inr h
  have habsent : ∀ i, keys i ≠ code := fun i hi => hcode ⟨i,hi⟩
  by_cases hfree : ∃ i, keys i = 0
  · obtain ⟨e,-,he⟩ := addKeyByte_free habsent hfree
    obtain ⟨i,hi⟩ := h
    rw [he] at hi
    by_cases hie : i = e
    · subst i
      exact .inl (by simpa using hi.symm)
    · exact .inr ⟨i,by simpa [hie] using hi⟩
  · rw [addKeyByte_full habsent fun i hi => hfree ⟨i,hi⟩] at h
    exact .inr h

theorem slotted_kept {key : UInt8} (hkey : key ≠ 0) (h : ∃ i, keys i = key) :
    ∃ i, addKeyByte keys code i = key := by
  by_cases hcode : ∃ i, keys i = code
  · rwa [addKeyByte_present hcode]
  have habsent : ∀ i, keys i ≠ code := fun i hi => hcode ⟨i,hi⟩
  by_cases hfree : ∃ i, keys i = 0
  · obtain ⟨e,hzero,he⟩ := addKeyByte_free habsent hfree
    obtain ⟨i,hi⟩ := h
    have hie : i ≠ e := fun hie => hkey (by rw [← hi, hie, hzero])
    exact ⟨i,by rw [he, Function.update_of_ne hie, hi]⟩
  · rwa [addKeyByte_full habsent fun i hi => hfree ⟨i,hi⟩]

theorem slotted_new (h : ∃ i, keys i = code ∨ keys i = 0) : ∃ i, addKeyByte keys code i = code := by
  by_cases hcode : ∃ i, keys i = code
  · rwa [addKeyByte_present hcode]
  have habsent : ∀ i, keys i ≠ code := fun i hi => hcode ⟨i,hi⟩
  obtain ⟨i,hi⟩ := h
  obtain ⟨e,-,he⟩ := addKeyByte_free habsent ⟨i,hi.resolve_left (habsent i)⟩
  exact ⟨e,by rw [he, Function.update_self]⟩

theorem slotted_delKeyByte {key : UInt8} (hkey : key ≠ 0) :
    (∃ i, delKeyByte keys code i = key) ↔ key ≠ code ∧ ∃ i, keys i = key := by
  constructor
  · rintro ⟨i,hi⟩
    rw [delKeyByte_get] at hi
    split_ifs at hi with hcode
    · exact absurd hi.symm hkey
    · exact ⟨fun h => hcode (hi.trans h),i,hi⟩
  · rintro ⟨hne,i,hi⟩
    exact ⟨i,by rw [delKeyByte_get, if_neg (by rwa [hi]), hi]⟩

end Slots

theorem keyBit_eq (code : UInt8) : keyBit code = BitVec.twoPow 8 (code.toNat % 8) := by
  have h : (code &&& 7).toNat = code.toNat % 8 := by
    rw [UInt8.toNat_and]
    exact Nat.and_two_pow_sub_one_eq_mod code.toNat 3
  rw [keyBit, h]
  rfl

theorem shiftRight_three (code : UInt8) : (code >>> 3).toNat = code.toNat/8 := by
  rw [UInt8.toNat_shiftRight]
  exact Nat.shiftRight_eq_div_pow code.toNat 3

section Bitmap
variable {bits : Bits} {code : UInt8} (hcode : code.toNat < 8*nkroReportBits)
include hcode

theorem read_addKeyBit (i : Nat) : PackedBits.read (addKeyBit bits code) i =
    if i = code.toNat then true else PackedBits.read bits i := by
  have hi : code.toNat/8 < nkroReportBits := by omega
  rw [addKeyBit, shiftRight_three, if_pos hi, keyBit_eq]
  exact PackedBits.read_write (w := 8) (by decide) bits code.toNat i true

theorem read_delKeyBit (i : Nat) : PackedBits.read (delKeyBit bits code) i =
    if i = code.toNat then false else PackedBits.read bits i := by
  have hi : code.toNat/8 < nkroReportBits := by omega
  rw [delKeyBit, shiftRight_three, if_pos hi, keyBit_eq]
  exact PackedBits.read_write (w := 8) (by decide) bits code.toNat i false

end Bitmap

theorem isKeyPressed_nkro (key : UInt8) (r : Reports) :
    isKeyPressed true key r = true ↔ key ≠ 0 ∧ key ∈ flagged r := by
  have hmask := PackedBits.and_twoPow_read (w := 8) (by decide) r.bits key.toNat
  have hi : key.toNat/8 < nkroReportBits ↔ key.toNat < 8*nkroReportBits := by omega
  by_cases hzero : key = 0
  · simp [isKeyPressed,hzero]
  · rw [isKeyPressed, if_neg hzero, if_pos rfl]
    simp only [shiftRight_three, keyBit_eq, hi]
    split_ifs with hlt
    · simp [flagged,hzero,hlt,← hmask]
    · simp [flagged,hlt]

theorem isKeyPressed_slots (key : UInt8) (r : Reports) :
    isKeyPressed false key r = true ↔ key ∈ reported r := by
  by_cases hzero : key = 0 <;> simp [isKeyPressed,reported,hzero]

theorem flagged_apply {op : Op} (hop : op.Reportable) {r : Reports} {held : Finset UInt8}
    (h : flagged r = held) : flagged (op.apply true r) = op.hold held := by
  have hmem (key : UInt8) : key.toNat < 8*nkroReportBits ∧
      PackedBits.read r.bits key.toNat = true ↔ key ∈ held := Set.ext_iff.mp h key
  ext key
  cases op with
  | add code =>
    have hlt : code.toNat < 8*nkroReportBits := hop.2
    simp only [Op.apply_add_bits, flagged, Op.hold, Set.mem_ofPred_eq, read_addKeyBit hlt,
      Finset.mem_coe, Finset.mem_insert, ← hmem, UInt8.toNat_inj]
    by_cases hkey : key = code
    · simp [hkey,hlt]
    · simp [hkey]
  | del code =>
    have hlt : code.toNat < 8*nkroReportBits := hop.2
    simp only [Op.apply_del_bits, flagged, Op.hold, Set.mem_ofPred_eq, read_delKeyBit hlt,
      Finset.mem_coe, Finset.mem_erase, ← hmem, UInt8.toNat_inj]
    by_cases hkey : key = code
    · simp [hkey]
    · simp [hkey]

theorem flagged_run {ops : List Op} (hops : ∀ op ∈ ops, op.Reportable) :
    flagged (run true ops) = held ops := by
  induction ops using List.reverseRecOn with
  | nil => ext key; simp [flagged,run,held,Reports.empty,PackedBits.read]
  | append_singleton ops op ih =>
    rw [run, held, List.foldl_append, List.foldl_append]
    exact flagged_apply (hops op (by simp)) (ih fun op hop => hops op (by simp [hop]))

structure Listed (r : Reports) (held : Finset UInt8) : Prop where
  distinct : Distinct r.keys
  held : ∀ key ∈ reported r, key ∈ held

theorem mem_reported_add {r : Reports} {key code : UInt8}
    (h : key ∈ reported ((Op.add code).apply false r)) : key = code ∨ key ∈ reported r := by
  simp only [reported, Op.apply_add_keys, Set.mem_ofPred_eq] at h ⊢
  rcases slotted_addKeyByte h.2 with heq | hslot
  · exact .inl heq
  · exact .inr ⟨h.1,hslot⟩

theorem reported_add {r : Reports} {key code : UInt8} (h : key ∈ reported r) :
    key ∈ reported ((Op.add code).apply false r) := by
  simp only [reported, Op.apply_add_keys, Set.mem_ofPred_eq] at h ⊢
  exact ⟨h.1,slotted_kept h.1 h.2⟩

theorem mem_reported_del {r : Reports} {key code : UInt8} :
    key ∈ reported ((Op.del code).apply false r) ↔ key ≠ code ∧ key ∈ reported r := by
  simp only [reported, Op.apply_del_keys, Set.mem_ofPred_eq]
  rw [and_congr_right fun hkey => slotted_delKeyByte hkey, and_left_comm]

theorem pressed_empty (nkro : Bool) (key : UInt8) : isKeyPressed nkro key .empty = false := by
  rw [Bool.eq_false_iff]
  cases nkro with
  | false =>
    rw [Ne, isKeyPressed_slots]
    rintro ⟨hkey, i, hi⟩
    exact hkey hi.symm
  | true =>
    rw [Ne, isKeyPressed_nkro]
    rintro ⟨-, -, hread⟩
    simp [Reports.empty,PackedBits.read] at hread

theorem pressed_add {nkro : Bool} {r : Reports} {key code : UInt8}
    (hcode : code.toNat < 8*nkroReportBits)
    (h : isKeyPressed nkro key (addKeyToReport nkro code r) = true) :
    key = code ∨ isKeyPressed nkro key r = true := by
  cases nkro with
  | false =>
    rw [isKeyPressed_slots] at h ⊢
    exact mem_reported_add h
  | true =>
    rw [isKeyPressed_nkro] at h ⊢
    obtain ⟨hzero, hlt, hread⟩ := h
    by_cases heq : key = code
    · exact .inl heq
    · have hne : key.toNat ≠ code.toNat := fun h => heq (UInt8.toNat_inj.mp h)
      refine .inr ⟨hzero,hlt,?_⟩
      rwa [addKeyToReport, if_pos rfl, read_addKeyBit hcode, if_neg hne] at hread

theorem pressed_del {nkro : Bool} {r : Reports} {key code : UInt8}
    (hcode : code.toNat < 8*nkroReportBits)
    (h : isKeyPressed nkro key (delKeyFromReport nkro code r) = true) :
    key ≠ code ∧ isKeyPressed nkro key r = true := by
  cases nkro with
  | false =>
    rw [isKeyPressed_slots] at h ⊢
    exact mem_reported_del.mp h
  | true =>
    rw [isKeyPressed_nkro] at h ⊢
    obtain ⟨hzero, hlt, hread⟩ := h
    rw [delKeyFromReport, if_pos rfl, read_delKeyBit hcode] at hread
    split_ifs at hread with heq
    exact ⟨fun h => heq (congrArg UInt8.toNat h),hzero,hlt,hread⟩

theorem Listed.apply {op : Op} {r : Reports} {held : Finset UInt8} (h : Listed r held)
    (hop : op.Reportable) : Listed (op.apply false r) (op.hold held) := by
  cases op with
  | add code =>
    refine ⟨?_,fun key hkey => ?_⟩
    · rw [Op.apply_add_keys]
      exact h.distinct.addKeyByte code
    · rcases mem_reported_add hkey with heq | hkey
      · exact Finset.mem_insert.mpr (.inl heq)
      · exact Finset.mem_insert_of_mem (h.held key hkey)
  | del code =>
    refine ⟨?_,fun key hkey => ?_⟩
    · rw [Op.apply_del_keys]
      exact h.distinct.delKeyByte code
    · obtain ⟨hne,hkey⟩ := mem_reported_del.mp hkey
      exact Finset.mem_erase.mpr ⟨hne,h.held key hkey⟩

theorem reported_kept {op : Op} {r : Reports} {held : Finset UInt8} {key : UInt8}
    (h : key ∈ reported r) (hheld : key ∈ op.hold held) : key ∈ reported (op.apply false r) := by
  cases op with
  | add code => exact reported_add h
  | del code => exact mem_reported_del.mpr ⟨Finset.ne_of_mem_erase hheld,h⟩

theorem held_reported {op : Op} {r : Reports} {held : Finset UInt8} (h : Listed r held)
    (hop : op.Reportable) (hall : ∀ key ∈ held, key ∈ reported r)
    (hcard : (op.hold held).card ≤ keyboardReportKeys) :
    ∀ key ∈ op.hold held, key ∈ reported (op.apply false r) := by
  intro key hkey
  by_cases hold : key ∈ held
  · exact reported_kept (hall key hold) hkey
  cases op with
  | del code => exact absurd (Finset.mem_of_mem_erase hkey) hold
  | add code =>
    obtain rfl : key = code := (Finset.mem_insert.mp hkey).resolve_right hold
    rw [Op.hold, Finset.card_insert_of_notMem hold] at hcard
    obtain ⟨i,hi⟩ := h.distinct.free (fun i hi => h.held _ ⟨hi,i,rfl⟩) hcard
    simp only [reported, Op.apply_add_keys, Set.mem_ofPred_eq]
    exact ⟨hop.1,slotted_new ⟨i,.inr hi⟩⟩

theorem listed_run {ops : List Op} (hops : ∀ op ∈ ops, op.Reportable) :
    Listed (run false ops) (held ops) := by
  induction ops using List.reverseRecOn with
  | nil =>
    refine ⟨fun i hi => absurd rfl hi,?_⟩
    rintro key ⟨hkey,i,hi⟩
    exact absurd hi.symm hkey
  | append_singleton ops op ih =>
    rw [run, held, List.foldl_append, List.foldl_append]
    exact (ih fun op hop => hops op (by simp [hop])).apply (hops op (by simp))

/-- Never more held keys than slots. -/
def Fits (ops : List Op) : Prop :=
  ∀ before, before <+: ops → (held before).card ≤ keyboardReportKeys

instance (ops : List Op) : Decidable (Fits ops) :=
  decidable_of_iff (∀ before ∈ ops.inits, (held before).card ≤ keyboardReportKeys)
    (forall_congr' fun before => imp_congr_left (List.mem_inits before ops))

theorem reported_run {ops : List Op} (hops : ∀ op ∈ ops, op.Reportable) (hfits : Fits ops) :
    reported (run false ops) = held ops := by
  refine Set.Subset.antisymm (listed_run hops).held ?_
  induction ops using List.reverseRecOn with
  | nil => simp [held]
  | append_singleton ops op ih =>
    have hops' : ∀ op ∈ ops, op.Reportable := fun op hop => hops op (by simp [hop])
    have hall := ih hops' fun before hbefore =>
      hfits before (hbefore.trans (List.prefix_append ops [op]))
    have hcard := hfits _ (List.prefix_refl _)
    rw [run, held, List.foldl_append, List.foldl_append] at *
    exact held_reported (listed_run hops') (hops op (by simp)) hall hcard

/-- The two reports agree while the slots suffice; beyond that the slots hold a part of the held
keys and lose none of it. -/
theorem reports_agree (ops : List Op) (hops : ∀ op ∈ ops, op.Reportable) :
    Distinct (run false ops).keys ∧
    (∀ key ∈ reported (run false ops), key ∈ held ops) ∧
    (∀ op key, key ∈ reported (run false ops) → key ∈ held (ops ++ [op]) →
      key ∈ reported (run false (ops ++ [op]))) ∧
    flagged (run true ops) = held ops ∧
    (Fits ops → reported (run false ops) = flagged (run true ops) ∧
      ∀ key, isKeyPressed false key (run false ops) = isKeyPressed true key (run true ops)) := by
  have hlisted := listed_run hops
  refine ⟨hlisted.distinct,hlisted.held,fun op key hkey hheld => ?_,flagged_run hops,fun hfits => ?_⟩
  · rw [held, List.foldl_append] at hheld
    rw [run, List.foldl_append]
    exact reported_kept hkey hheld
  · have heq : reported (run false ops) = flagged (run true ops) :=
      (reported_run hops hfits).trans (flagged_run hops).symm
    refine ⟨heq,fun key => ?_⟩
    rw [Bool.eq_iff_iff, isKeyPressed_slots, isKeyPressed_nkro, ← heq]
    exact ⟨fun h => ⟨h.1,h⟩,And.right⟩

/-- Two keys held in turn. -/
def twoKeys : List Op := [.add 4,.add 5,.del 4,.add 0x2C,.del 5]

theorem reports_agree_twoKeys : reported (run false twoKeys) = flagged (run true twoKeys) :=
  ((reports_agree twoKeys (by decide +kernel)).2.2.2.2 (by decide +kernel)).1

example : (List.finRange 6).map (run false twoKeys).keys = [0x2C,0,0,0,0,0] := by decide +kernel

end QmkFirmware.Report
