import QmkFirmware.Lib.ByteDevice
import QmkFirmware.WearLeveling.Durability

/-!
`eeprom_wear_leveling.c`: the EEPROM driver over the wear-leveling layer.
-/

set_option autoImplicit false

namespace QmkFirmware.WearLeveling

variable (d : Driver) (cfg : Config)

/-- The buffer is cleared by the caller; a read that fails leaves it so. -/
def eepromReadBlock (addr len : Nat) (s : State) : List UInt8 :=
  match wearLevelingRead cfg addr len s with
  | (.failed, _) => List.replicate len 0
  | (_, bytes) => bytes

def eepromWriteBlock (buf : List UInt8) (addr : Nat) (s : State) : State :=
  (wearLevelingWrite d cfg addr buf s).2

/-- `eeprom_read_byte` and `eeprom_write_block`. -/
def eepromDevice : ByteDevice State where
  read a s := ((eepromReadBlock cfg a 1 s).getD 0 0,s)
  write a bs s := eepromWriteBlock d cfg bs a s

/-- The RAM is lost and `eeprom_driver_init` runs. -/
def restart (s : State) : State := reinit d cfg s.flash

/-- The layer keeps this memory, as far as it reaches. -/
def Keeps (cfg : Config) (s : State) (m : ByteMem) : Prop :=
  Synced cfg s ∧ ∀ a < cfg.logicalSize, s.cache a = m a

variable {cfg} {s : State} {m : ByteMem}

theorem write_nothing (a : Nat) : (wearLevelingWrite d cfg a [] s).2 = s := by
  rw [wearLevelingWrite]
  split
  · rfl
  · rw [List.length_nil, ByteMem.read_zero, if_pos rfl]

theorem eepromDevice_models : (eepromDevice .faultFree cfg).Models cfg.logicalSize (Keeps cfg) where
  read := by
    rintro s m a ⟨hs,hm⟩ ha
    have hread := @read_in_range cfg a 1 ha s
    refine ⟨?_,hs,hm⟩
    show (eepromReadBlock cfg a 1 s).getD 0 0 = m a
    rw [eepromReadBlock, hread]
    exact hm a ha
  write := by
    rintro s m a bs ⟨hs,hm⟩ hin
    show Keeps cfg (wearLevelingWrite .faultFree cfg a bs s).2 (m.write a bs)
    by_cases hne : bs = []
    · rw [hne, write_nothing, ByteMem.write_nil]
      exact ⟨hs,hm⟩
    · obtain ⟨hsync,hcache⟩ := exec_synced hs (c := .write a bs) (hin hne)
      refine ⟨hsync,fun x hx => ?_⟩
      have hbyte := congrFun hcache x
      rw [plainStep, ByteMem.write_apply] at hbyte
      rw [ByteMem.write_apply, ← hm x hx]
      exact hbyte

theorem Keeps.restart (h : Keeps cfg s m) : Keeps cfg (restart .faultFree cfg s) m := by
  obtain ⟨hcache,haddr,hlocked,hmem⟩ := reinit_holds Sound.faultFree h.1.holds
  refine ⟨⟨?_,hlocked,?_⟩,fun a ha => ?_⟩
  · rw [WearLeveling.restart, hcache, haddr, hmem]
    exact h.1.holds
  · rw [WearLeveling.restart, hcache]
    exact h.1.fits
  · rw [WearLeveling.restart, hcache]
    exact h.2 a ha

end QmkFirmware.WearLeveling
