import QmkFirmware.Lib.ByteProg

/-!
`nvm_dynamic_keymap.c`: the keymap, encoder and macro regions of the EEPROM. A pointer into RAM
is a number; the `uint8_t` and `uint16_t` arguments are their values.
-/

set_option autoImplicit false

namespace QmkFirmware.Nvm

inductive Space where
  | eeprom | ram
  deriving DecidableEq, Repr

abbrev Prog := ByteProg Space

def readByte (a : Nat) : Prog UInt8 := ByteProg.readByte .ram a

def writeByte (a : Nat) (v : UInt8) : Prog Unit := ByteProg.writeBytes .ram a [v]

def eepromReadByte (a : Nat) : Prog UInt8 := ByteProg.readByte .eeprom a

def eepromUpdateByte (a : Nat) (v : UInt8) : Prog Unit := do
  let orig ← eepromReadByte a
  if orig ≠ v then ByteProg.writeBytes .eeprom a [v]

/-- The sizes that a keyboard is built with. The static assertions leave 100 bytes for macros and
keep every address below 65536. -/
structure Layout where
  layers : Nat
  rows : Nat
  cols : Nat
  encoders : Nat
  keymapAddr : Nat
  maxAddr : Nat
  fits : keymapAddr + layers*rows*cols*2 + layers*encoders*2*2 + 100 ≤ maxAddr
  maxAddr_le : maxAddr ≤ 65535

namespace Layout

variable (L : Layout)

def keymapSize : Nat := L.layers*L.rows*L.cols*2

def encoderAddr : Nat := L.keymapAddr+L.layers*L.rows*L.cols*2

def macroAddr : Nat := L.encoderAddr+L.layers*L.encoders*2*2

def macroSize : Nat := L.maxAddr-L.macroAddr+1

end Layout

def joinBytes (high low : UInt8) : UInt16 := high.toUInt16 <<< 8 ||| low.toUInt16

def highByte (keycode : UInt16) : UInt8 := (keycode >>> 8).toUInt8

def lowByte (keycode : UInt16) : UInt8 := (keycode &&& 0xFF).toUInt8

variable (L : Layout)

def dynamicKeymapKeyToEepromAddress (layer row column : Nat) : Nat :=
  L.keymapAddr+layer*L.rows*L.cols*2+row*L.cols*2+column*2

def dynamicKeymapEncoderToEepromAddress (layer encoderId : Nat) : Nat :=
  L.encoderAddr+layer*L.encoders*2*2+encoderId*2*2

def readKeycodeAt (address : Nat) : Prog UInt16 := do
  let high ← eepromReadByte address
  let low ← eepromReadByte (address+1)
  pure (joinBytes high low)

def updateKeycodeAt (address : Nat) (keycode : UInt16) : Prog Unit := do
  eepromUpdateByte address (highByte keycode)
  eepromUpdateByte (address+1) (lowByte keycode)

/-- `KC_NO` is 0. -/
def nvmDynamicKeymapReadKeycode (layer row column : Nat) : Prog UInt16 :=
  if layer ≥ L.layers ∨ row ≥ L.rows ∨ column ≥ L.cols then pure 0 else
  readKeycodeAt (dynamicKeymapKeyToEepromAddress L layer row column)

def nvmDynamicKeymapUpdateKeycode (layer row column : Nat) (keycode : UInt16) : Prog Unit :=
  if layer ≥ L.layers ∨ row ≥ L.rows ∨ column ≥ L.cols then pure () else
  updateKeycodeAt (dynamicKeymapKeyToEepromAddress L layer row column) keycode

def nvmDynamicKeymapReadEncoder (layer encoderId : Nat) (clockwise : Bool) : Prog UInt16 :=
  if layer ≥ L.layers ∨ encoderId ≥ L.encoders then pure 0 else
  readKeycodeAt (dynamicKeymapEncoderToEepromAddress L layer encoderId+if clockwise then 0 else 2)

def nvmDynamicKeymapUpdateEncoder (layer encoderId : Nat) (clockwise : Bool) (keycode : UInt16) :
    Prog Unit :=
  if layer ≥ L.layers ∨ encoderId ≥ L.encoders then pure () else
  updateKeycodeAt (dynamicKeymapEncoderToEepromAddress L layer encoderId+if clockwise then 0 else 2)
    keycode

def readBuffer (address regionSize offset size data : Nat) : Prog Unit :=
  ByteProg.forFrom 0 size fun i =>
    if offset+i < regionSize then do
      let v ← eepromReadByte (address+offset+i)
      writeByte (data+i) v
    else writeByte (data+i) 0x00

def updateBuffer (address regionSize offset size data : Nat) : Prog Unit :=
  ByteProg.forFrom 0 size fun i => do
    if offset+i < regionSize then
      let v ← readByte (data+i)
      eepromUpdateByte (address+offset+i) v

def nvmDynamicKeymapReadBuffer (offset size data : Nat) : Prog Unit :=
  readBuffer L.keymapAddr L.keymapSize offset size data

def nvmDynamicKeymapUpdateBuffer (offset size data : Nat) : Prog Unit :=
  updateBuffer L.keymapAddr L.keymapSize offset size data

def nvmDynamicKeymapMacroReadBuffer (offset size data : Nat) : Prog Unit :=
  readBuffer L.macroAddr L.macroSize offset size data

def nvmDynamicKeymapMacroUpdateBuffer (offset size data : Nat) : Prog Unit :=
  updateBuffer L.macroAddr L.macroSize offset size data

theorem joinBytes_toNat (a b : UInt8) : (joinBytes a b).toNat = a.toNat*256+b.toNat := by
  have ha := a.toNat_lt
  have hor := Nat.shiftLeft_add_eq_or_of_lt (b := b.toNat) (i := 8) b.toNat_lt a.toNat
  have hlt : a.toNat <<< 8 < 65536 := by
    rw [Nat.shiftLeft_eq]
    omega
  simp only [joinBytes, UInt16.toNat_or, UInt16.toNat_shiftLeft, UInt8.toNat_toUInt16,
    UInt16.toNat_ofNat]
  rw [show (8 % 2^16 : Nat) % 16 = 8 from rfl, Nat.mod_eq_of_lt hlt, ← hor, Nat.shiftLeft_eq]

theorem highByte_toNat (k : UInt16) : (highByte k).toNat = k.toNat/256 := by
  have := k.toNat_lt
  simp only [highByte, UInt16.toNat_toUInt8, UInt16.toNat_shiftRight, UInt16.toNat_ofNat]
  rw [show (8 % 2^16 : Nat) % 16 = 8 from rfl, Nat.shiftRight_eq_div_pow]
  omega

theorem lowByte_toNat (k : UInt16) : (lowByte k).toNat = k.toNat%256 := by
  have h := Nat.and_two_pow_sub_one_eq_mod k.toNat 8
  simp only [lowByte, UInt16.toNat_toUInt8, UInt16.toNat_and, UInt16.toNat_ofNat]
  rw [show (255 % 2^16 : Nat) = 2^8-1 from rfl, h]
  omega

@[simp] theorem joinBytes_split (k : UInt16) : joinBytes (highByte k) (lowByte k) = k := by
  apply UInt16.toNat_inj.mp
  rw [joinBytes_toNat, highByte_toNat, lowByte_toNat]
  omega

@[simp] theorem highByte_joinBytes (a b : UInt8) : highByte (joinBytes a b) = a := by
  have := b.toNat_lt
  apply UInt8.toNat_inj.mp
  rw [highByte_toNat, joinBytes_toNat]
  omega

@[simp] theorem lowByte_joinBytes (a b : UInt8) : lowByte (joinBytes a b) = b := by
  have := b.toNat_lt
  apply UInt8.toNat_inj.mp
  rw [lowByte_toNat, joinBytes_toNat]
  omega

theorem write_single (m : ByteMem) (a : Nat) (v : UInt8) :
    m.write a [v] = Function.update m a v := by
  funext x
  by_cases hx : x = a
  · subst x
    rw [Function.update_self, ByteMem.write_cons_same]
  · rw [Function.update_of_ne hx]
    exact ByteMem.write_outside (by simp only [List.length_singleton]; omega)

section
variable (s : ByteMems Space) (a : Nat) (v : UInt8) (keycode : UInt16)

@[simp] theorem mem_readByte : (readByte a).mem s = s := rfl

@[simp] theorem val_readByte : (readByte a).val s = s .ram a := rfl

@[simp] theorem mem_eepromReadByte : (eepromReadByte a).mem s = s := rfl

@[simp] theorem val_eepromReadByte : (eepromReadByte a).val s = s .eeprom a := rfl

@[simp] theorem writeByte_ram : (writeByte a v).mem s .ram = Function.update (s .ram) a v :=
  write_single _ _ _

@[simp] theorem writeByte_eeprom : (writeByte a v).mem s .eeprom = s .eeprom := rfl

theorem mem_eepromUpdateByte : (eepromUpdateByte a v).mem s
    = (if s .eeprom a ≠ v then ByteProg.writeBytes .eeprom a [v] else pure () : Prog Unit).mem s :=
  rfl

@[simp] theorem eepromUpdateByte_eeprom :
    (eepromUpdateByte a v).mem s .eeprom = Function.update (s .eeprom) a v := by
  rw [mem_eepromUpdateByte]
  split
  · exact write_single _ _ _
  · rename_i h
    rw [← Decidable.not_not.mp h, Function.update_eq_self]
    rfl

@[simp] theorem eepromUpdateByte_ram : (eepromUpdateByte a v).mem s .ram = s .ram := by
  rw [mem_eepromUpdateByte]
  split <;> rfl

@[simp] theorem val_readKeycodeAt :
    (readKeycodeAt a).val s = joinBytes (s .eeprom a) (s .eeprom (a+1)) := by
  simp [readKeycodeAt]

@[simp] theorem mem_readKeycodeAt : (readKeycodeAt a).mem s = s := by
  simp [readKeycodeAt]

@[simp] theorem updateKeycodeAt_eeprom : (updateKeycodeAt a keycode).mem s .eeprom
    = Function.update (Function.update (s .eeprom) a (highByte keycode)) (a+1)
      (lowByte keycode) := by
  simp [updateKeycodeAt]

end

theorem updateBuffer_turn (address regionSize offset data i : Nat) (s : ByteMems Space) :
    let t := ByteProg.mem (do
      if offset+i < regionSize then
        let v ← readByte (data+i)
        eepromUpdateByte (address+offset+i) v : Prog Unit) s
    t .ram = s .ram ∧ ∀ x, t .eeprom x = if offset+i < regionSize ∧ x = address+offset+i then
      s .ram (data+i) else s .eeprom x := by
  intro t
  by_cases h : offset+i < regionSize
  · simp only [t, h, if_true, ByteProg.mem_bind, mem_readByte, val_readByte, eepromUpdateByte_ram,
      eepromUpdateByte_eeprom, true_and]
    exact fun x => Function.update_apply _ _ _ x
  · simp [t, h]

theorem forFrom_updateBuffer (address regionSize offset data i n : Nat) (s : ByteMems Space) :
    let t := (ByteProg.forFrom i n fun i => do
      if offset+i < regionSize then
        let v ← readByte (data+i)
        eepromUpdateByte (address+offset+i) v : Prog Unit).mem s
    t .ram = s .ram ∧ ∀ x, t .eeprom x =
      if address+offset+i ≤ x ∧ x < address+offset+i+n ∧ x < address+regionSize then
        s .ram (data+(x-(address+offset))) else s .eeprom x := by
  induction n generalizing i s with
  | zero =>
    refine ⟨rfl,fun x => ?_⟩
    rw [if_neg (by omega)]
    rfl
  | succ n ih =>
    simp only [ByteProg.mem_forFrom_succ]
    obtain ⟨hram,heep⟩ := updateBuffer_turn address regionSize offset data i s
    obtain ⟨hram',heep'⟩ := ih (i+1) _
    refine ⟨hram'.trans hram,fun x => ?_⟩
    rw [heep', hram, heep]
    by_cases hx : x = address+offset+i
    · subst x
      by_cases hr : offset+i < regionSize
      · rw [if_neg (by omega), if_pos ⟨hr,rfl⟩, if_pos (by omega)]
        congr 1
        omega
      · rw [if_neg (by omega), if_neg (by omega), if_neg (by omega)]
    · rw [if_neg (show ¬ (offset+i < regionSize ∧ x = address+offset+i) by omega)]
      have hiff : (address+offset+(i+1) ≤ x ∧ x < address+offset+(i+1)+n ∧ x < address+regionSize)
          ↔ (address+offset+i ≤ x ∧ x < address+offset+i+(n+1) ∧ x < address+regionSize) := by
        omega
      simp only [hiff]

theorem updateBuffer_mem (address regionSize offset size data : Nat) (s : ByteMems Space) :
    let t := (updateBuffer address regionSize offset size data).mem s
    t .ram = s .ram ∧ ∀ x, t .eeprom x =
      if address+offset ≤ x ∧ x < address+offset+size ∧ x < address+regionSize then
        s .ram (data+(x-(address+offset))) else s .eeprom x :=
  forFrom_updateBuffer address regionSize offset data 0 size s

theorem forFrom_readBuffer (address regionSize offset data i n : Nat) (s : ByteMems Space) :
    let t := (ByteProg.forFrom i n fun i =>
      if offset+i < regionSize then do
        let v ← eepromReadByte (address+offset+i)
        writeByte (data+i) v
      else writeByte (data+i) 0x00 : Prog Unit).mem s
    t .eeprom = s .eeprom ∧ ∀ x, t .ram x =
      if data+i ≤ x ∧ x < data+i+n then
        if offset+(x-data) < regionSize then s .eeprom (address+(offset+(x-data))) else 0
      else s .ram x := by
  induction n generalizing i s with
  | zero =>
    refine ⟨rfl,fun x => ?_⟩
    rw [if_neg (by omega)]
    rfl
  | succ n ih =>
    simp only [ByteProg.mem_forFrom_succ]
    generalize hu : (if offset+i < regionSize then do
        let v ← eepromReadByte (address+offset+i)
        writeByte (data+i) v
      else writeByte (data+i) 0x00 : Prog Unit).mem s = u
    -- one turn
    have hturn : u .eeprom = s .eeprom ∧ u .ram = Function.update (s .ram) (data+i)
        (if offset+i < regionSize then s .eeprom (address+offset+i) else 0) := by
      rw [← hu]
      split <;> simp
    obtain ⟨heep',hram'⟩ := ih (i+1) u
    refine ⟨heep'.trans hturn.1,fun x => ?_⟩
    rw [hram', hturn.1, hturn.2]
    by_cases hx : x = data+i
    · subst x
      rw [if_neg (by omega), if_pos (show data+i ≤ data+i ∧ data+i < data+i+(n+1) by omega),
        Function.update_self, Nat.add_sub_cancel_left, Nat.add_assoc]
    · rw [Function.update_of_ne hx]
      have hiff : (data+(i+1) ≤ x ∧ x < data+(i+1)+n) ↔ (data+i ≤ x ∧ x < data+i+(n+1)) := by
        omega
      simp only [hiff]

theorem readBuffer_mem (address regionSize offset size data : Nat) (s : ByteMems Space) :
    let t := (readBuffer address regionSize offset size data).mem s
    t .eeprom = s .eeprom ∧ ∀ i < size, t .ram (data+i) =
      if offset+i < regionSize then s .eeprom (address+(offset+i)) else 0 := by
  obtain ⟨heep,hram⟩ := forFrom_readBuffer address regionSize offset data 0 size s
  refine ⟨heep,fun i hi => ?_⟩
  rw [readBuffer, hram, if_pos (by omega), Nat.add_sub_cancel_left]

end QmkFirmware.Nvm
