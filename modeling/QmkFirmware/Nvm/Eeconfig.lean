import QmkFirmware.Nvm.DynamicKeymap
import QmkFirmware.He.Via

/-!
The settings part of the EEPROM: `eeconfig`, the keyboard data block and VIA's own bytes, with
the functions that initialise them. VIA, the encoder map and rgblight are enabled. Words are
little endian; a word is written in one go, a block byte by byte.
-/

set_option autoImplicit false

namespace QmkFirmware.Nvm

open He

def eepromReadBytes : Nat → Nat → Prog (List UInt8)
  | _, 0 => pure []
  | a, n+1 => do
    let v ← eepromReadByte a
    let vs ← eepromReadBytes (a+1) n
    pure (v :: vs)

/-- `eeprom_update_word` and `eeprom_update_dword`. -/
def eepromUpdateWord (a : Nat) (bs : List UInt8) : Prog Unit := do
  let orig ← eepromReadBytes a bs.length
  if orig ≠ bs then ByteProg.writeBytes .eeprom a bs

def eepromWriteBytes : Nat → List UInt8 → Prog Unit
  | _, [] => pure ()
  | a, v :: vs => do
    ByteProg.writeBytes .eeprom a [v]
    eepromWriteBytes (a+1) vs

def eepromUpdateBlock (a : Nat) (bs : List UInt8) : Prog Unit := do
  let orig ← eepromReadBytes a bs.length
  if orig ≠ bs then eepromWriteBytes a bs

def wordBytes (v : UInt16) : List UInt8 := [v.toUInt8,(v >>> 8).toUInt8]

def dwordBytes (v : UInt32) : List UInt8 :=
  [v.toUInt8,(v >>> 8).toUInt8,(v >>> 16).toUInt8,(v >>> 24).toUInt8]

def joinDword (b₀ b₁ b₂ b₃ : UInt8) : UInt32 :=
  b₀.toUInt32 ||| b₁.toUInt32 <<< 8 ||| b₂.toUInt32 <<< 16 ||| b₃.toUInt32 <<< 24

def eeconfigMagicAddr : Nat := 0
def eeconfigDebugAddr : Nat := 2
def eeconfigDefaultLayerAddr : Nat := 3
def eeconfigKeymapAddr : Nat := 4
def eeconfigRgblightAddr : Nat := 8
def eeconfigKeyboardAddr : Nat := 15
def eeconfigUserAddr : Nat := 19
def eeconfigRgblightExtendedAddr : Nat := 35
def eeconfigKbDatablockAddr : Nat := 37
def eeconfigSize : Nat := eeconfigKbDatablockAddr+eeconfigKbDataSize
def viaEepromMagicAddr : Nat := eeconfigSize
def viaEepromLayoutOptionsAddr : Nat := viaEepromMagicAddr+3
def viaEepromLayoutOptionsSize : Nat := 1
def viaEepromConfigEnd : Nat := viaEepromLayoutOptionsAddr+viaEepromLayoutOptionsSize

def eeconfigMagicNumber : UInt16 := 0xFEE3

def zeroBlocks (a size : Nat) : Prog Unit :=
  ByteProg.forFrom 0 ((size+15)/16) fun i =>
    eepromUpdateBlock (a+16*i) (List.replicate (min 16 (size-16*i)) 0)

def eeconfigUpdateKbDatablock (data : List UInt8) (offset : Nat) : Prog Unit := do
  eepromUpdateWord eeconfigKeyboardAddr (dwordBytes eeconfigKbDataVersion)
  eepromUpdateBlock (eeconfigKbDatablockAddr+offset)
    (data.take (min eeconfigKbDataSize (offset+data.length)-offset))

def eeconfigInitKbDatablock : Prog Unit := do
  eepromUpdateWord eeconfigKeyboardAddr (dwordBytes eeconfigKbDataVersion)
  zeroBlocks eeconfigKbDatablockAddr eeconfigKbDataSize

/-- The block as `he_matrix.c` knows it. -/
def kbDatablock (e : ByteMem) : KbDatablock where
  version := joinDword (e eeconfigKeyboardAddr) (e (eeconfigKeyboardAddr+1))
    (e (eeconfigKeyboardAddr+2)) (e (eeconfigKeyboardAddr+3))
  block := fun i => e (eeconfigKbDatablockAddr+i)

def heSaveSettingsToEeprom (s : HeState) : Prog Unit :=
  eeconfigUpdateKbDatablock [s.mode.code,s.tuning.deadzone,s.tuning.engage,s.tuning.releaseDist]
    heSettingsEepromOffset

def heSaveToEeprom (s : HeState) : Prog Unit := do
  eeconfigUpdateKbDatablock ((List.finRange heSensorCount).flatMap fun i =>
    [(s.config i).actuation,(s.config i).release]) 0
  heSaveSettingsToEeprom s

/-- The digits of `QMK_BUILDDATE`, a date `YYYY-MM-DD`; the century is not stored. -/
structure BuildDate where
  year : Fin 10 × Fin 10
  month : Fin 10 × Fin 10
  day : Fin 10 × Fin 10
  day_pos : day ≠ (0,0)

def bcd (d : Fin 10 × Fin 10) : UInt8 := UInt8.ofNat (16*d.1.val+d.2.val)

def BuildDate.magic (date : BuildDate) : List UInt8 := [bcd date.year,bcd date.month,bcd date.day]

def nvmViaReadMagic : Prog (List UInt8) := do
  let magic0 ← eepromReadByte viaEepromMagicAddr
  let magic1 ← eepromReadByte (viaEepromMagicAddr+1)
  let magic2 ← eepromReadByte (viaEepromMagicAddr+2)
  pure [magic0,magic1,magic2]

def nvmViaUpdateMagic (magic0 magic1 magic2 : UInt8) : Prog Unit := do
  eepromUpdateByte viaEepromMagicAddr magic0
  eepromUpdateByte (viaEepromMagicAddr+1) magic1
  eepromUpdateByte (viaEepromMagicAddr+2) magic2

def viaEepromIsValid (date : BuildDate) : Prog Bool := do
  let magic ← nvmViaReadMagic
  pure (magic = date.magic)

def viaEepromSetValid (date : BuildDate) (valid : Bool) : Prog Unit :=
  if valid then nvmViaUpdateMagic (bcd date.year) (bcd date.month) (bcd date.day)
  else nvmViaUpdateMagic 0xFF 0xFF 0xFF

def nvmViaReadLayoutOptions : Prog UInt32 := do
  let v ← eepromReadByte viaEepromLayoutOptionsAddr
  pure v.toUInt32

def nvmViaUpdateLayoutOptions (value : UInt32) : Prog Unit :=
  eepromUpdateByte viaEepromLayoutOptionsAddr value.toUInt8

/-- What the firmware was built with: its date, the keymap in flash and the settings that
`eeconfig_init` writes but nothing here reads. -/
structure Firmware where
  date : BuildDate
  keycodeAtKeymapLocationRaw : Nat → Nat → Nat → UInt16
  keycodeAtEncodermapLocationRaw : Nat → Nat → Bool → UInt16
  keymapConfig : UInt16
  rgblightDefault : UInt64

variable (L : Layout) (fw : Firmware)

def dynamicKeymapReset : Prog Unit :=
  ByteProg.forFrom 0 L.layers fun layer => do
    ByteProg.forFrom 0 L.rows fun row =>
      ByteProg.forFrom 0 L.cols fun column =>
        nvmDynamicKeymapUpdateKeycode L layer row column
          (fw.keycodeAtKeymapLocationRaw layer row column)
    ByteProg.forFrom 0 L.encoders fun encoder => do
      nvmDynamicKeymapUpdateEncoder L layer encoder true
        (fw.keycodeAtEncodermapLocationRaw layer encoder true)
      nvmDynamicKeymapUpdateEncoder L layer encoder false
        (fw.keycodeAtEncodermapLocationRaw layer encoder false)

def dynamicKeymapMacroReset : Prog Unit := zeroBlocks L.macroAddr L.macroSize

def eeconfigInitVia : Prog Unit := do
  viaEepromSetValid fw.date false
  nvmViaUpdateLayoutOptions 0
  dynamicKeymapReset L fw
  dynamicKeymapMacroReset L
  viaEepromSetValid fw.date true

def eeconfigUpdateRgblight (raw : UInt64) : Prog Unit := do
  eepromUpdateWord eeconfigRgblightAddr (dwordBytes raw.toUInt32)
  eepromUpdateByte eeconfigRgblightExtendedAddr (raw >>> 32).toUInt8

/-- `eeprom_driver_format`: the wear-leveling erase leaves zeros. It is one step. -/
def nvmEeconfigErase : Prog Unit :=
  ByteProg.writeBytes .eeprom 0 (List.replicate 65536 0)

def eeconfigIsEnabled : Prog Bool := do
  let magic ← eepromReadBytes eeconfigMagicAddr 2
  if magic = wordBytes eeconfigMagicNumber then viaEepromIsValid fw.date else pure false

def eeconfigInitSettings : Prog Unit := do
  eepromUpdateByte eeconfigDebugAddr 0
  eepromUpdateByte eeconfigDefaultLayerAddr 1
  eepromUpdateWord eeconfigKeymapAddr (wordBytes fw.keymapConfig)
  eeconfigUpdateRgblight fw.rgblightDefault

/-- `eeconfig_init_quantum` up to `eeconfig_init_kb`. -/
def eeconfigInitCore : Prog Unit := do
  nvmEeconfigErase
  eepromUpdateWord eeconfigMagicAddr (wordBytes eeconfigMagicNumber)
  eeconfigInitSettings fw
  eeconfigInitKbDatablock
  eeconfigInitVia L fw

/-- `eeconfig_init_kb` saves the settings in RAM and clears the user word. -/
def eeconfigInit (s : HeState) : Prog Unit := do
  eeconfigInitCore L fw
  heSaveToEeprom s
  eepromUpdateWord eeconfigUserAddr (dwordBytes 0)

/-- The keyboard: four layers, one encoder and 8 kB. -/
def icebreakerLayout : Layout where
  layers := 4
  rows := 5
  cols := 16
  encoders := 1
  keymapAddr := viaEepromConfigEnd
  maxAddr := 8191
  fits := by decide
  maxAddr_le := by decide

theorem first_of_month : ((0,1) : Fin 10 × Fin 10) ≠ (0,0) := by decide

section
local instance ten_neZero : NeZero 10 := ⟨by decide⟩

/-- A build of 2025-06-01 with an empty keymap. -/
def emptyFirmware : Firmware where
  date := ⟨(2,5),(0,6),(0,1),first_of_month⟩
  keycodeAtKeymapLocationRaw := fun _ _ _ => 0
  keycodeAtEncodermapLocationRaw := fun _ _ _ => 0
  keymapConfig := 0
  rgblightDefault := 0

end

section
variable (s : ByteMems Space) (a : Nat)

@[simp] theorem mem_eepromReadBytes (n : Nat) : (eepromReadBytes a n).mem s = s := by
  induction n generalizing a with
  | zero => rfl
  | succ n ih => simp [eepromReadBytes, ih]

@[simp] theorem val_eepromReadBytes (n : Nat) :
    (eepromReadBytes a n).val s = (s .eeprom).read a n := by
  induction n generalizing a with
  | zero => rfl
  | succ n ih => simp [eepromReadBytes, ih, ByteMem.read_succ]

theorem eepromWriteBytes_eeprom (bs : List UInt8) :
    (eepromWriteBytes a bs).mem s .eeprom = (s .eeprom).write a bs := by
  induction bs generalizing a s with
  | nil => exact (ByteMem.write_nil _ _).symm
  | cons v vs ih =>
    rw [eepromWriteBytes, ByteProg.mem_bind, ih, ByteMem.write_cons]
    rfl

theorem mem_eepromUpdateWord (bs : List UInt8) : (eepromUpdateWord a bs).mem s
    = (if (s .eeprom).read a bs.length ≠ bs then ByteProg.writeBytes .eeprom a bs
      else pure () : Prog Unit).mem s := by
  rw [← val_eepromReadBytes]
  exact (ByteProg.mem_bind s _ _).trans (by rw [mem_eepromReadBytes])

theorem mem_eepromUpdateBlock (bs : List UInt8) : (eepromUpdateBlock a bs).mem s
    = (if (s .eeprom).read a bs.length ≠ bs then eepromWriteBytes a bs
      else pure () : Prog Unit).mem s := by
  rw [← val_eepromReadBytes]
  exact (ByteProg.mem_bind s _ _).trans (by rw [mem_eepromReadBytes])

theorem eepromUpdateWord_eeprom (bs : List UInt8) :
    (eepromUpdateWord a bs).mem s .eeprom = (s .eeprom).write a bs := by
  rw [mem_eepromUpdateWord]
  split
  · rfl
  · rename_i h
    conv => rhs; rw [← Decidable.not_not.mp h, ByteMem.write_read]
    rfl

theorem eepromUpdateBlock_eeprom (bs : List UInt8) :
    (eepromUpdateBlock a bs).mem s .eeprom = (s .eeprom).write a bs := by
  rw [mem_eepromUpdateBlock]
  split
  · exact eepromWriteBytes_eeprom s a bs
  · rename_i h
    conv => rhs; rw [← Decidable.not_not.mp h, ByteMem.write_read]
    rfl

end

theorem version_write (m : ByteMem) :
    let e := m.write eeconfigKeyboardAddr (dwordBytes eeconfigKbDataVersion)
    joinDword (e eeconfigKeyboardAddr) (e (eeconfigKeyboardAddr+1)) (e (eeconfigKeyboardAddr+2))
      (e (eeconfigKeyboardAddr+3)) = eeconfigKbDataVersion := by
  show joinDword 3 0 0 0 = 3
  decide

theorem kbDatablock_update (s : ByteMems Space) (data : List UInt8) (offset : Nat) :
    kbDatablock ((eeconfigUpdateKbDatablock data offset).mem s .eeprom)
      = He.eeconfigUpdateKbDatablock data offset (kbDatablock (s .eeprom)) := by
  rw [eeconfigUpdateKbDatablock, ByteProg.mem_bind, eepromUpdateBlock_eeprom,
    eepromUpdateWord_eeprom, He.eeconfigUpdateKbDatablock]
  generalize data.take (min eeconfigKbDataSize (offset+data.length)-offset) = bs
  have hver : ∀ x < eeconfigKbDatablockAddr,
      ((s .eeprom).write eeconfigKeyboardAddr (dwordBytes eeconfigKbDataVersion)).write
        (eeconfigKbDatablockAddr+offset) bs x
      = (s .eeprom).write eeconfigKeyboardAddr (dwordBytes eeconfigKbDataVersion) x :=
    fun x hx => ByteMem.write_outside (.inl (by omega))
  rw [kbDatablock, KbDatablock.mk.injEq]
  refine ⟨?_,funext fun i => ?_⟩
  · rw [hver _ (by decide), hver _ (by decide), hver _ (by decide), hver _ (by decide)]
    exact version_write _
  · have hout : eeconfigKeyboardAddr+(dwordBytes eeconfigKbDataVersion).length
        ≤ eeconfigKbDatablockAddr+i := Nat.le_add_right_of_le (by decide)
    have hsub : eeconfigKbDatablockAddr+i-(eeconfigKbDatablockAddr+offset) = i-offset := by omega
    have hle : eeconfigKbDatablockAddr+offset ≤ eeconfigKbDatablockAddr+i ↔ offset ≤ i := by omega
    rw [ByteMem.write_apply _ (eeconfigKbDatablockAddr+offset), ByteMem.write_outside (.inr hout),
      hsub]
    simp only [hle]
    rfl

theorem kbDatablock_saveSettings (t : ByteMems Space) (s : HeState) :
    kbDatablock ((heSaveSettingsToEeprom s).mem t .eeprom)
      = (He.heSaveSettingsToEeprom { s with eeprom := kbDatablock (t .eeprom) }).eeprom :=
  kbDatablock_update t _ _

theorem kbDatablock_save (t : ByteMems Space) (s : HeState) :
    kbDatablock ((heSaveToEeprom s).mem t .eeprom)
      = (He.heSaveToEeprom { s with eeprom := kbDatablock (t .eeprom) }).eeprom := by
  rw [heSaveToEeprom, ByteProg.mem_bind, kbDatablock_saveSettings, kbDatablock_update]
  rfl

end QmkFirmware.Nvm
