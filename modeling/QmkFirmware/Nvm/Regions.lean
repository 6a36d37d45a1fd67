import QmkFirmware.Nvm.Eeconfig
import QmkFirmware.Nvm.OneStore

/-!
Which bytes each function touches. A region is what the callers make of it: the lemmas ask for
the bytes of the function and for nothing more.
-/

set_option autoImplicit false

namespace QmkFirmware.Nvm

open ByteProg

variable {R : Space → Nat → Prop} {a : Nat} {L : Layout}

theorem inside_eepromReadByte (h : R .eeprom a) : Inside R (eepromReadByte a) := inside_readByte h

theorem inside_ramReadByte (h : R .ram a) : Inside R (Nvm.readByte a) := inside_readByte h

theorem inside_ramWriteByte {v : UInt8} (h : R .ram a) : Inside R (writeByte a v) :=
  inside_writeBytes fun x hlo hhi => by
    rw [List.length_singleton] at hhi
    obtain rfl : x = a := by omega
    exact h

theorem inside_eepromWriteByte {v : UInt8} (h : R .eeprom a) :
    Inside R (ByteProg.writeBytes .eeprom a [v]) :=
  inside_writeBytes fun x hlo hhi => by
    rw [List.length_singleton] at hhi
    obtain rfl : x = a := by omega
    exact h

theorem inside_eepromUpdateByte {v : UInt8} (h : R .eeprom a) : Inside R (eepromUpdateByte a v) :=
  within_bind (inside_eepromReadByte h) fun _ =>
    within_ite (fun _ => inside_eepromWriteByte h) fun _ => within_pure ()

theorem inside_eepromReadBytes {n : Nat} (h : ∀ x, a ≤ x → x < a+n → R .eeprom x) :
    Inside R (eepromReadBytes a n) := by
  induction n generalizing a with
  | zero => exact within_pure []
  | succ n ih =>
    exact within_bind (inside_eepromReadByte (h a le_rfl (by omega))) fun _ =>
      within_bind (ih fun x hlo hhi => h x (by omega) (by omega)) fun _ => within_pure _

theorem inside_eepromWriteBytes {bs : List UInt8}
    (h : ∀ x, a ≤ x → x < a+bs.length → R .eeprom x) : Inside R (eepromWriteBytes a bs) := by
  induction bs generalizing a with
  | nil => exact within_pure ()
  | cons v vs ih =>
    simp only [List.length_cons] at h
    exact within_bind (inside_eepromWriteByte (h a le_rfl (by omega))) fun _ =>
      ih fun x hlo hhi => h x (by omega) (by omega)

theorem inside_eepromUpdateWord {bs : List UInt8}
    (h : ∀ x, a ≤ x → x < a+bs.length → R .eeprom x) : Inside R (eepromUpdateWord a bs) :=
  within_bind (inside_eepromReadBytes h) fun _ =>
    within_ite (fun _ => inside_writeBytes h) fun _ => within_pure ()

theorem inside_eepromUpdateBlock {bs : List UInt8}
    (h : ∀ x, a ≤ x → x < a+bs.length → R .eeprom x) : Inside R (eepromUpdateBlock a bs) :=
  within_bind (inside_eepromReadBytes h) fun _ =>
    within_ite (fun _ => inside_eepromWriteBytes h) fun _ => within_pure ()

theorem inside_zeroBlocks {size : Nat} (h : ∀ x, a ≤ x → x < a+size → R .eeprom x) :
    Inside R (zeroBlocks a size) :=
  within_forFrom fun i _ hi => inside_eepromUpdateBlock fun x hlo hhi => by
    rw [List.length_replicate] at hhi
    exact h x (by omega) (by omega)

def kbBytes (x : Nat) : Prop :=
  eeconfigKeyboardAddr ≤ x ∧ x < eeconfigKeyboardAddr+4
    ∨ eeconfigKbDatablockAddr ≤ x ∧ x < eeconfigSize

theorem kbBytes_lt {x : Nat} (h : kbBytes x) : x < viaEepromMagicAddr := by
  rcases h with h | h
  · exact lt_of_lt_of_le h.2 (by decide)
  · exact h.2

theorem inside_eeconfigUpdateKbDatablock {data : List UInt8} {offset : Nat}
    (hver : ∀ x, eeconfigKeyboardAddr ≤ x → x < eeconfigKeyboardAddr+4 → R .eeprom x)
    (hblock : ∀ x, eeconfigKbDatablockAddr+offset ≤ x → x < eeconfigSize →
      x < eeconfigKbDatablockAddr+offset+data.length → R .eeprom x) :
    Inside R (eeconfigUpdateKbDatablock data offset) :=
  within_bind (inside_eepromUpdateWord hver) fun _ => inside_eepromUpdateBlock fun x hlo hhi => by
    rw [List.length_take] at hhi
    exact hblock x hlo (by rw [eeconfigSize]; omega) (by omega)

theorem inside_heSaveToEeprom {s : He.HeState} (h : ∀ x, kbBytes x → R .eeprom x) :
    Inside R (heSaveToEeprom s) :=
  within_bind (inside_eeconfigUpdateKbDatablock (fun x hlo hhi => h x (.inl ⟨hlo,hhi⟩))
    fun x hlo hhi _ => h x (.inr ⟨Nat.le_of_add_right_le hlo,hhi⟩)) fun _ =>
    inside_eeconfigUpdateKbDatablock (fun x hlo hhi => h x (.inl ⟨hlo,hhi⟩))
      fun x hlo hhi _ => h x (.inr ⟨Nat.le_of_add_right_le hlo,hhi⟩)

def keymapBytes (L : Layout) (x : Nat) : Prop := L.keymapAddr ≤ x ∧ x < L.encoderAddr

def encoderBytes (L : Layout) (x : Nat) : Prop := L.encoderAddr ≤ x ∧ x < L.macroAddr

def macroBytes (L : Layout) (x : Nat) : Prop := L.macroAddr ≤ x ∧ x ≤ L.maxAddr

theorem inside_readKeycodeAt (h : R .eeprom a) (h' : R .eeprom (a+1)) :
    Inside R (readKeycodeAt a) :=
  within_bind (inside_eepromReadByte h) fun _ =>
    within_bind (inside_eepromReadByte h') fun _ => within_pure _

theorem inside_updateKeycodeAt {keycode : UInt16} (h : R .eeprom a) (h' : R .eeprom (a+1)) :
    Inside R (updateKeycodeAt a keycode) :=
  within_bind (inside_eepromUpdateByte h) fun _ => inside_eepromUpdateByte h'

theorem keyAddress_bytes {layer row column : Nat}
    (h : ¬ (layer ≥ L.layers ∨ row ≥ L.rows ∨ column ≥ L.cols)) :
    keymapBytes L (dynamicKeymapKeyToEepromAddress L layer row column)
      ∧ keymapBytes L (dynamicKeymapKeyToEepromAddress L layer row column+1) := by
  have := index_lt (L := L) (show layer < L.layers ∧ row < L.rows ∧ column < L.cols by omega)
  rw [key_address, keymapBytes, keymapBytes, encoderAddr_eq]
  omega

theorem encoderAddress_bytes {layer encoderId : Nat} (clockwise : Bool)
    (h : ¬ (layer ≥ L.layers ∨ encoderId ≥ L.encoders)) :
    encoderBytes L (dynamicKeymapEncoderToEepromAddress L layer encoderId
        +if clockwise then 0 else 2)
      ∧ encoderBytes L (dynamicKeymapEncoderToEepromAddress L layer encoderId
        +(if clockwise then 0 else 2)+1) := by
  have := encoder_lt (L := L) clockwise (show layer < L.layers ∧ encoderId < L.encoders by omega)
  rw [encoder_address, encoderBytes, encoderBytes]
  omega

theorem inside_readKeycode {layer row column : Nat}
    (h : ∀ x, keymapBytes L x → R .eeprom x) :
    Inside R (nvmDynamicKeymapReadKeycode L layer row column) :=
  within_ite (fun _ => within_pure 0) fun hin =>
    inside_readKeycodeAt (h _ (keyAddress_bytes hin).1) (h _ (keyAddress_bytes hin).2)

theorem inside_updateKeycode {layer row column : Nat} {keycode : UInt16}
    (h : ∀ x, keymapBytes L x → R .eeprom x) :
    Inside R (nvmDynamicKeymapUpdateKeycode L layer row column keycode) :=
  within_ite (fun _ => within_pure ()) fun hin =>
    inside_updateKeycodeAt (h _ (keyAddress_bytes hin).1) (h _ (keyAddress_bytes hin).2)

theorem inside_readEncoder {layer encoderId : Nat} {clockwise : Bool}
    (h : ∀ x, encoderBytes L x → R .eeprom x) :
    Inside R (nvmDynamicKeymapReadEncoder L layer encoderId clockwise) :=
  within_ite (fun _ => within_pure 0) fun hin =>
    inside_readKeycodeAt (h _ (encoderAddress_bytes clockwise hin).1)
      (h _ (encoderAddress_bytes clockwise hin).2)

theorem inside_updateEncoder {layer encoderId : Nat} {clockwise : Bool} {keycode : UInt16}
    (h : ∀ x, encoderBytes L x → R .eeprom x) :
    Inside R (nvmDynamicKeymapUpdateEncoder L layer encoderId clockwise keycode) :=
  within_ite (fun _ => within_pure ()) fun hin =>
    inside_updateKeycodeAt (h _ (encoderAddress_bytes clockwise hin).1)
      (h _ (encoderAddress_bytes clockwise hin).2)

theorem inside_readBuffer {address regionSize offset size data : Nat}
    (h : ∀ x, address ≤ x → x < address+regionSize → R .eeprom x)
    (hram : ∀ x, data ≤ x → x < data+size → R .ram x) :
    Inside R (readBuffer address regionSize offset size data) :=
  within_forFrom fun i _ hi => within_ite
    (fun hr => within_bind (inside_eepromReadByte (h _ (by omega) (by omega))) fun _ =>
      inside_ramWriteByte (hram _ (by omega) (by omega)))
    fun _ => inside_ramWriteByte (hram _ (by omega) (by omega))

theorem inside_updateBuffer {address regionSize offset size data : Nat}
    (h : ∀ x, address ≤ x → x < address+regionSize → R .eeprom x)
    (hram : ∀ i < size, offset+i < regionSize → R .ram (data+i)) :
    Inside R (updateBuffer address regionSize offset size data) :=
  within_forFrom fun i _ hi => within_ite
    (fun hr => within_bind (inside_ramReadByte (hram _ (by omega) hr)) fun _ =>
      inside_eepromUpdateByte (h _ (by omega) (by omega)))
    fun _ => within_pure ()

variable {fw : Firmware}

theorem inside_dynamicKeymapReset (hkey : ∀ x, keymapBytes L x → R .eeprom x)
    (henc : ∀ x, encoderBytes L x → R .eeprom x) : Inside R (dynamicKeymapReset L fw) :=
  within_forFrom fun _ _ _ => within_bind
    (within_forFrom fun _ _ _ => within_forFrom fun _ _ _ => inside_updateKeycode hkey) fun _ =>
    within_forFrom fun _ _ _ => within_bind (inside_updateEncoder henc) fun _ =>
      inside_updateEncoder henc

theorem macroBytes_of {x : Nat} (hlo : L.macroAddr ≤ x) (hhi : x < L.macroAddr+L.macroSize) :
    macroBytes L x := by
  have hfits := L.fits
  rw [Layout.macroSize] at hhi
  rw [Layout.macroAddr, Layout.encoderAddr] at hhi hlo
  rw [macroBytes, Layout.macroAddr, Layout.encoderAddr]
  omega

theorem inside_dynamicKeymapMacroReset (h : ∀ x, macroBytes L x → R .eeprom x) :
    Inside R (dynamicKeymapMacroReset L) :=
  inside_zeroBlocks fun x hlo hhi => h x (macroBytes_of hlo hhi)

theorem inside_viaEepromSetValid {date : BuildDate} {valid : Bool}
    (h : ∀ x, viaEepromMagicAddr ≤ x → x < viaEepromMagicAddr+3 → R .eeprom x) :
    Inside R (viaEepromSetValid date valid) := by
  have hupdate : ∀ m₀ m₁ m₂, Inside R (nvmViaUpdateMagic m₀ m₁ m₂) := fun m₀ m₁ m₂ =>
    within_bind (inside_eepromUpdateByte (h _ (by omega) (by omega))) fun _ =>
      within_bind (inside_eepromUpdateByte (h _ (by omega) (by omega))) fun _ =>
        inside_eepromUpdateByte (h _ (by omega) (by omega))
  exact within_ite (fun _ => hupdate _ _ _) fun _ => hupdate _ _ _

theorem inside_eeconfigUpdateRgblight {raw : UInt64}
    (h : ∀ x, eeconfigRgblightAddr ≤ x → x < eeconfigRgblightAddr+4 → R .eeprom x)
    (h' : R .eeprom eeconfigRgblightExtendedAddr) : Inside R (eeconfigUpdateRgblight raw) :=
  within_bind (inside_eepromUpdateWord h) fun _ => inside_eepromUpdateByte h'

end QmkFirmware.Nvm
