import Mathlib.Algebra.GroupWithZero.Nat
import QmkFirmware.Macros.SendString
import QmkFirmware.Nvm.DynamicKeymap

/-!
`dynamic_keymap_macro_send`: the macros are NUL-terminated strings, one behind the other, in their
region of the EEPROM.
-/

set_option autoImplicit false

namespace QmkFirmware.Macros

open Nvm

/-- `d` is where the local variable is. -/
def dynamicKeymapReadByte (L : Layout) (d offset : Nat) : Prog UInt8 := do
  nvmDynamicKeymapMacroReadBuffer L offset 1 d
  readByte d

section
variable (L : Layout) (d : Nat) (m : ByteMems Space)

/-- Nothing here writes the EEPROM, so that every read is from the memories at the call. -/
def sendStringGetNextNvm (offset : Nat) : UInt8 × Nat :=
  ((dynamicKeymapReadByte L d offset).val m,offset+1)

/-- Past `id` NULs, with `n` bytes left before the end. -/
def skipMacros : Nat → Nat → Nat → Option Nat
  | _, 0, offset => some offset
  | 0, _+1, _ => none
  | n+1, id+1, offset =>
    skipMacros n (if (dynamicKeymapReadByte L d offset).val m = 0 then id else id+1) (offset+1)

/-- What is sent, and the offset behind the last byte read; `n` turns for the sender. -/
def dynamicKeymapMacroSend (cfg : Config) (macroCount : Nat) (n : Nat) (id : UInt8) :
    Option (List Event × Nat) :=
  if macroCount ≤ id.toNat then some ([],0)
  else if (dynamicKeymapReadByte L d (L.macroSize-1)).val m ≠ 0 then some ([],0)
  else match skipMacros L d m L.macroSize id.toNat 0 with
    | none => some ([],L.macroSize)
    | some offset => sendStringWithDelayImpl cfg (sendStringGetNextNvm L d m) n offset

/-- The content of the region. -/
def macroRegion : List UInt8 := (m .eeprom).read L.macroAddr L.macroSize

theorem dynamicKeymapReadByte_val (offset : Nat) :
    (dynamicKeymapReadByte L d offset).val m = (macroRegion L m).getD offset 0 := by
  have hread := (readBuffer_mem L.macroAddr L.macroSize offset 1 d m).2 0 Nat.one_pos
  rw [macroRegion, ByteMem.getD_read, dynamicKeymapReadByte, ByteProg.val_bind]
  exact hread

theorem nextOf_drop (offset : Nat) : nextOf ((macroRegion L m).drop offset)
    = ((sendStringGetNextNvm L d m offset).1,
      (macroRegion L m).drop (sendStringGetNextNvm L d m offset).2) := by
  rw [sendStringGetNextNvm, dynamicKeymapReadByte_val]
  rcases Nat.lt_or_ge offset (macroRegion L m).length with h | h
  · rw [List.drop_eq_getElem_cons h]
    simp [List.getD, h, nextOf]
  · rw [List.drop_of_length_le h, List.drop_of_length_le (Nat.le_succ_of_le h)]
    simp [List.getD, h, nextOf]

end

/-- The text of macro `id`: the bytes between two NULs. -/
def macroText (region : List UInt8) (id : Nat) : List UInt8 := (region.splitOn 0).getD id []

/-- The number of bytes up to its NUL. -/
def macroEnd (region : List UInt8) (id : Nat) : Nat :=
  (((region.splitOn 0).take (id+1)).map fun text => text.length+1).sum

section
variable {region : List UInt8} {b : UInt8} {id : Nat}

theorem macroText_nul : macroText (0 :: region) (id+1) = macroText region id := by
  simp [macroText, List.splitOn_cons_eq_if_modifyHead]

theorem macroEnd_nul : macroEnd (0 :: region) (id+1) = macroEnd region id+1 := by
  simp only [macroEnd, List.splitOn_cons_eq_if_modifyHead, beq_self_eq_true, if_true,
    List.take_succ_cons, List.map_cons, List.sum_cons, List.length_nil]
  omega

theorem macroText_cons (h : b ≠ 0) : macroText (b :: region) (id+1) = macroText region (id+1) := by
  obtain ⟨first, others, hs⟩ := List.exists_cons_of_ne_nil (List.splitOn_ne_nil 0 region)
  simp [macroText, List.splitOn_cons_eq_if_modifyHead, h, hs]

theorem macroEnd_cons (h : b ≠ 0) : macroEnd (b :: region) id = macroEnd region id+1 := by
  obtain ⟨first, others, hs⟩ := List.exists_cons_of_ne_nil (List.splitOn_ne_nil 0 region)
  simp [macroEnd, List.splitOn_cons_eq_if_modifyHead, h, hs]
  omega

theorem macroText_zero {text after : List UInt8} (h : 0 ∉ text) :
    macroText (text ++ 0 :: after) 0 = text ∧ macroEnd (text ++ 0 :: after) 0 = text.length+1 := by
  simp [macroText, macroEnd, List.splitOn_append_cons_self_of_not_mem h]

end

section
variable {L : Layout} {d : Nat} {m : ByteMems Space}

theorem skipMacros_spec (d n id offset : Nat) (h : offset+n = L.macroSize) :
    match skipMacros L d m n id offset with
    | none => macroText ((macroRegion L m).drop offset) id = []
      ∧ n ≤ macroEnd ((macroRegion L m).drop offset) id
    | some o => offset ≤ o ∧ o ≤ L.macroSize
      ∧ macroText ((macroRegion L m).drop offset) id = macroText ((macroRegion L m).drop o) 0
      ∧ offset+macroEnd ((macroRegion L m).drop offset) id
        = o+macroEnd ((macroRegion L m).drop o) 0 := by
  have hlen : (macroRegion L m).length = L.macroSize := ByteMem.length_read ..
  induction n generalizing id offset with
  | zero =>
    cases id with
    | zero => exact ⟨Nat.le_refl _,Nat.le_of_eq h,rfl,rfl⟩
    | succ id =>
      rw [List.drop_of_length_le (by omega)]
      exact ⟨rfl,Nat.zero_le _⟩
  | succ n ih =>
    cases id with
    | zero => exact ⟨Nat.le_refl _,by omega,rfl,rfl⟩
    | succ id =>
      have hdrop : (macroRegion L m).drop offset
          = (macroRegion L m).getD offset 0 :: (macroRegion L m).drop (offset+1) := by
        rw [List.drop_eq_getElem_cons (by omega)]
        simp [List.getD, show offset < (macroRegion L m).length by omega]
      rw [skipMacros, dynamicKeymapReadByte_val, hdrop]
      by_cases hb : (macroRegion L m).getD offset 0 = 0
      · have hnext := ih id (offset+1) (by omega)
        rw [if_pos hb, hb, macroText_nul, macroEnd_nul]
        cases hskip : skipMacros L d m n id (offset+1) with
        | none =>
          rw [hskip] at hnext
          exact ⟨hnext.1,Nat.succ_le_succ hnext.2⟩
        | some o =>
          rw [hskip] at hnext
          exact ⟨Nat.le_of_succ_le hnext.1,hnext.2.1,hnext.2.2.1,by have := hnext.2.2.2; omega⟩
      · have hnext := ih (id+1) (offset+1) (by omega)
        rw [if_neg hb, macroText_cons hb, macroEnd_cons hb]
        cases hskip : skipMacros L d m n (id+1) (offset+1) with
        | none =>
          rw [hskip] at hnext
          exact ⟨hnext.1,Nat.succ_le_succ hnext.2⟩
        | some o =>
          rw [hskip] at hnext
          exact ⟨Nat.le_of_succ_le hnext.1,hnext.2.1,hnext.2.2.1,by have := hnext.2.2.2; omega⟩

theorem sendString_nvm {cfg : Config} {n o : Nat} {events : List Event} {rest : List UInt8}
    (h : sendStringWithDelayImpl cfg nextOf n ((macroRegion L m).drop o) = some (events,rest)) :
    ∃ offset, sendStringWithDelayImpl cfg (sendStringGetNextNvm L d m) n o = some (events,offset)
      ∧ (macroRegion L m).drop offset = rest := by
  rw [sendString_map (φ := fun o => (macroRegion L m).drop o) (nextOf_drop L d m),
    Option.map_eq_some_iff] at h
  obtain ⟨⟨events', offset⟩, hrun, he⟩ := h
  cases he
  exact ⟨offset, hrun, rfl⟩

end

/-- What the sender makes of a text on its own. -/
def sent (cfg : Config) (text : List UInt8) : List Event :=
  ((sendStringWithDelayImpl cfg nextOf (text.length+1) text).map Prod.fst).getD []

/-- The requested macro and nothing else is run: the call returns, nothing is sent while the last
byte of the region is not a NUL, and otherwise just what the text of the macro says, with no byte
behind its NUL read. -/
def RunsMacro (L : Layout) (d : Nat) (m : ByteMems Space) (cfg : Config) (macroCount : Nat)
    (id : UInt8) : Prop :=
  let region := macroRegion L m
  let lastByte := region.getD (L.macroSize-1) 0
  ∀ n, L.macroSize < n → ∃ events offset,
    dynamicKeymapMacroSend L d m cfg macroCount n id = some (events,offset)
      ∧ (lastByte ≠ 0 → events = [])
      ∧ (lastByte = 0 → events = sent cfg (macroText region id.toNat)
        ∧ min offset L.macroSize ≤ macroEnd region id.toNat)

theorem sent_eq {cfg : Config} {text : List UInt8} {events : List Event}
    (h : ∀ n, text.length < n →
      ∃ rest, sendStringWithDelayImpl cfg nextOf n text = some (events,rest)) :
    sent cfg text = events := by
  obtain ⟨rest, hrun⟩ := h _ (Nat.lt_succ_self _)
  rw [sent, hrun]
  rfl

theorem sendString_from {L : Layout} {d : Nat} {m : ByteMems Space} {cfg : Config} {o : Nat}
    (ho : o ≤ L.macroSize) (hlast : (macroRegion L m).getD (L.macroSize-1) 0 = 0) :
    (∀ n, L.macroSize < n → ∃ events offset,
      sendStringWithDelayImpl cfg (sendStringGetNextNvm L d m) n o = some (events,offset)
        ∧ events = sent cfg (macroText ((macroRegion L m).drop o) 0)
        ∧ min offset L.macroSize ≤ o+macroEnd ((macroRegion L m).drop o) 0)
      ↔ breaksOff (macroText ((macroRegion L m).drop o) 0) = false
        ∨ L.macroSize ≤ o+macroEnd ((macroRegion L m).drop o) 0 := by
  have hlen : (macroRegion L m).length = L.macroSize := ByteMem.length_read ..
  have hleft : ∀ k, ((macroRegion L m).drop k).length = L.macroSize-k := fun k => by
    rw [List.length_drop, hlen]
  by_cases hempty : (macroRegion L m).drop o = []
  · refine iff_of_true (fun n hn => ?_) (.inl (by rw [hempty]; rfl))
    obtain ⟨offset, hrun, -⟩ := sendString_nvm (d := d)
      ((congrArg _ hempty).trans (sendString_nil cfg (Nat.zero_lt_of_lt hn)))
    have hover := hleft o
    rw [hempty, List.length_nil] at hover
    exact ⟨[], offset, hrun, by rw [hempty]; rfl, by omega⟩
  have hmem : 0 ∈ (macroRegion L m).drop o := by
    have hpos := List.length_pos_of_ne_nil hempty
    rw [hleft] at hpos
    have hget : ((macroRegion L m).drop o)[L.macroSize-1-o]? = some 0 := by
      rw [List.getElem?_drop, Nat.add_sub_cancel' (by omega)]
      simpa [List.getD, show L.macroSize-1 < (macroRegion L m).length by omega] using hlast
    exact List.mem_of_getElem? hget
  obtain ⟨text, after, hsplit, htext⟩ := List.eq_append_cons_of_mem hmem
  have hover := hleft o
  rw [hsplit, List.length_append, List.length_cons] at hover
  obtain ⟨events, halone, hwhole, hbroken⟩ := sendString_text cfg htext
  rw [hsplit, (macroText_zero htext).1, (macroText_zero htext).2, sent_eq halone]
  cases hb : breaksOff text with
  | false =>
    refine iff_of_true (fun n hn => ?_) (.inl rfl)
    obtain ⟨offset, hrun, hrest⟩ := sendString_nvm (d := d) (o := o)
      ((congrArg _ hsplit).trans (hwhole hb after n (by
        rw [List.length_append, List.length_cons]
        omega)))
    have hafter := hleft offset
    rw [hrest] at hafter
    exact ⟨events, offset, hrun, rfl, by omega⟩
  | true =>
    have hrun : ∀ n, L.macroSize < n → ∃ more offset rest,
        sendStringWithDelayImpl cfg (sendStringGetNextNvm L d m) n o = some (events ++ more,offset)
          ∧ (macroRegion L m).drop offset = rest ∧ (after = [] → more = [])
          ∧ (after ≠ [] → rest.length < after.length) := by
      intro n hn
      obtain ⟨more, rest, hsend, hmore⟩ := hbroken hb after n (by
        rw [List.length_append, List.length_cons]
        omega)
      obtain ⟨offset, hnvm, hrest⟩ := sendString_nvm (d := d) (o := o)
        ((congrArg _ hsplit).trans hsend)
      exact ⟨more, offset, rest, hnvm, hrest, hmore⟩
    cases after with
    | nil =>
      rw [List.length_nil] at hover
      refine iff_of_true (fun n hn => ?_) (.inr (by omega))
      obtain ⟨more, offset, rest, hnvm, -, hnone, -⟩ := hrun n hn
      rw [hnone rfl, List.append_nil] at hnvm
      exact ⟨events, offset, hnvm, rfl, by omega⟩
    | cons b after =>
      rw [List.length_cons] at hover
      refine iff_of_false (fun h => ?_) (by simp; omega)
      obtain ⟨more, offset, rest, hnvm, hrest, -, hfar⟩ := hrun _ (Nat.lt_succ_self _)
      obtain ⟨events', offset', hnvm', -, hend⟩ := h _ (Nat.lt_succ_self _)
      cases hnvm.symm.trans hnvm'
      have hshort := hfar (List.cons_ne_nil _ _)
      rw [← hrest, hleft, List.length_cons] at hshort
      omega

/-- Only a macro that breaks off, with others behind it, is not run as it should be. -/
theorem runsMacro_iff (L : Layout) (d : Nat) (m : ByteMems Space) (cfg : Config)
    {macroCount : Nat} {id : UInt8} (hid : id.toNat < macroCount) :
    RunsMacro L d m cfg macroCount id ↔
      (macroRegion L m).getD (L.macroSize-1) 0 ≠ 0
        ∨ breaksOff (macroText (macroRegion L m) id.toNat) = false
        ∨ L.macroSize ≤ macroEnd (macroRegion L m) id.toNat := by
  have hlen : (macroRegion L m).length = L.macroSize := ByteMem.length_read ..
  by_cases hlast : (macroRegion L m).getD (L.macroSize-1) 0 = 0
  swap
  · refine iff_of_true (fun n _ => ⟨[], 0, ?_, fun _ => rfl, fun h => absurd h hlast⟩) (.inl hlast)
    rw [dynamicKeymapMacroSend, if_neg (Nat.not_le_of_lt hid), dynamicKeymapReadByte_val,
      if_pos hlast]
  have hsend : ∀ n, dynamicKeymapMacroSend L d m cfg macroCount n id
      = match skipMacros L d m L.macroSize id.toNat 0 with
        | none => some ([],L.macroSize)
        | some offset => sendStringWithDelayImpl cfg (sendStringGetNextNvm L d m) n offset := by
    intro n
    rw [dynamicKeymapMacroSend, if_neg (Nat.not_le_of_lt hid), dynamicKeymapReadByte_val,
      if_neg (not_not.mpr hlast)]
  have hspec := skipMacros_spec (m := m) d L.macroSize id.toNat 0 (Nat.zero_add _)
  cases hskip : skipMacros L d m L.macroSize id.toNat 0 with
  | none =>
    rw [hskip, List.drop_zero] at hspec
    refine iff_of_true (fun n _ => ⟨[], L.macroSize, ?_, fun _ => rfl, fun _ => ⟨?_,?_⟩⟩)
      (.inr (.inr hspec.2))
    · rw [hsend, hskip]
    · rw [hspec.1]
      rfl
    · exact Nat.le_trans (Nat.min_le_right ..) hspec.2
  | some o =>
    rw [hskip, List.drop_zero] at hspec
    obtain ⟨-, ho, htext, hend⟩ := hspec
    rw [hskip] at hsend
    rw [Nat.zero_add] at hend
    simp only [RunsMacro, hsend, hlast, htext, hend, ne_eq, not_true_eq_false, false_implies,
      true_implies, true_and, false_or]
    exact sendString_from ho hlast

/-- No layers, and 101 bytes for macros. -/
def smallLayout : Layout := ⟨0,0,0,0,0,100,by decide,by decide⟩

def letterTables : Config where
  keycodeLut := fun c => c-93
  shiftLut := fun _ => false
  altgrLut := fun _ => false
  deadLut := fun _ => false
  tapCodeDelay := 0
  tapHoldCapsDelay := 80
  interval := 0
  bell := false

def holding (bytes : List UInt8) : ByteMems Space := fun _ => ByteMem.blank.write 0 bytes

/-- Macro 0 is "ab", with a tap code in it. -/
def tapThenLetter : ByteMems Space := holding [1,1,4,98,0]

theorem runsMacro_tapThenLetter : RunsMacro smallLayout 0 tapThenLetter letterTables 16 0 ↔
    (macroRegion smallLayout tapThenLetter).getD (smallLayout.macroSize-1) 0 ≠ 0
      ∨ breaksOff (macroText (macroRegion smallLayout tapThenLetter) 0) = false
      ∨ smallLayout.macroSize ≤ macroEnd (macroRegion smallLayout tapThenLetter) 0 :=
  runsMacro_iff smallLayout 0 tapThenLetter letterTables (by decide)

/-- Macro 0 is a tap code without its key, macro 1 is "b". -/
def tapWithoutKey : ByteMems Space := holding [1,1,0,98,0]

theorem sends_next_macro :
    dynamicKeymapMacroSend smallLayout 0 tapWithoutKey letterTables 16 102 0
        = some ([.registerCode 0,.waitMs 0,.unregisterCode 0,.waitMs 0,
          .registerCode 5,.waitMs 0,.unregisterCode 5,.waitMs 0],5)
      ∧ macroText (macroRegion smallLayout tapWithoutKey) 0 = [1,1]
      ∧ macroText (macroRegion smallLayout tapWithoutKey) 1 = [98]
      ∧ ¬ RunsMacro smallLayout 0 tapWithoutKey letterTables 16 0 := by
  have hsend : dynamicKeymapMacroSend smallLayout 0 tapWithoutKey letterTables 16 102 0
      = some ([.registerCode 0,.waitMs 0,.unregisterCode 0,.waitMs 0,
        .registerCode 5,.waitMs 0,.unregisterCode 5,.waitMs 0],5) := by decide +kernel
  have hend : macroEnd (macroRegion smallLayout tapWithoutKey) 0 = 3 := by decide +kernel
  refine ⟨hsend, by decide +kernel, by decide +kernel, fun h => ?_⟩
  obtain ⟨events, offset, hrun, -, hlast⟩ := h 102 (by decide)
  cases hsend.symm.trans hrun
  have hfar := (hlast (by decide +kernel)).2
  rw [show UInt8.toNat 0 = 0 from rfl, hend] at hfar
  exact absurd hfar (by decide)

end QmkFirmware.Macros
