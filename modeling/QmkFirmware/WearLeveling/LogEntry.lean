import Mathlib.Tactic.IntervalCases
import QmkFirmware.Lib.ByteMem

/-!
The three write log encodings of `wear_leveling_internal.h`, as the macros build
and take apart the bytes of `write_log_entry_t`.
-/

set_option autoImplicit false

namespace QmkFirmware.WearLeveling

/-- `write_log_entry_t`. The union is its bytes `raw8`; `raw16[k]`, `raw32[k]` and
`raw64` are blocks of them. -/
abbrev WriteLogEntry := ByteMem

inductive LogEntryType where
  | multibyte | optimized64 | word01
  deriving DecidableEq, Repr

def LogEntryType.code : LogEntryType → Nat
  | .multibyte => 0
  | .optimized64 => 1
  | .word01 => 2

def LogEntryType.ofCode : Nat → Option LogEntryType
  | 0 => some .multibyte
  | 1 => some .optimized64
  | 2 => some .word01
  | _ => none

def bitmaskForBitcount (n : Nat) : Nat := (1 <<< n)-1

def logEntryGetType (e : WriteLogEntry) : Nat := ((e 0).toNat >>> 6) &&& bitmaskForBitcount 2

def logEntryMultibyteMaxBytes : Nat := 5

def logEntryMultibyteGetAddress (e : WriteLogEntry) : Nat :=
  (((e 0).toNat &&& bitmaskForBitcount 3) <<< 16) ||| ((e 1).toNat <<< 8) ||| (e 2).toNat

def logEntryMultibyteGetLength (e : WriteLogEntry) : Nat :=
  ((e 0).toNat >>> 3) &&& bitmaskForBitcount 3

def logEntryMakeMultibyte (address length : Nat) : WriteLogEntry :=
  ByteMem.blank.write 0 [
    UInt8.ofNat (((LogEntryType.multibyte.code &&& bitmaskForBitcount 2) <<< 6)
      ||| ((length % 256 &&& bitmaskForBitcount 3) <<< 3)
      ||| ((address >>> 16) % 256 &&& bitmaskForBitcount 3)),
    UInt8.ofNat ((address >>> 8) % 256 &&& bitmaskForBitcount 8),
    UInt8.ofNat (address % 256 &&& bitmaskForBitcount 8)]

def logEntryOptimized64GetAddress (e : WriteLogEntry) : Nat :=
  (e 0).toNat &&& bitmaskForBitcount 6

def logEntryOptimized64GetValue (e : WriteLogEntry) : UInt8 := e 1

def logEntryMakeOptimized64 (address : Nat) (value : UInt8) : WriteLogEntry :=
  ByteMem.blank.write 0 [
    UInt8.ofNat (((LogEntryType.optimized64.code &&& bitmaskForBitcount 2) <<< 6)
      ||| (address % 256 &&& bitmaskForBitcount 6)),
    value]

def logEntryWord01GetAddress (e : WriteLogEntry) : Nat :=
  (((e 0).toNat &&& bitmaskForBitcount 5) <<< 9) ||| ((e 1).toNat <<< 1)

def logEntryWord01GetValue (e : WriteLogEntry) : UInt8 :=
  UInt8.ofNat (((e 0).toNat >>> 5) &&& bitmaskForBitcount 1)

def logEntryMakeWord01 (address value : Nat) : WriteLogEntry :=
  ByteMem.blank.write 0 [
    UInt8.ofNat (((LogEntryType.word01.code &&& bitmaskForBitcount 2) <<< 6)
      ||| (((if value = 0 then 0 else 1) &&& bitmaskForBitcount 1) <<< 5)
      ||| ((address >>> 9) % 256 &&& bitmaskForBitcount 5)),
    UInt8.ofNat ((address >>> 1) % 256)]

theorem bitmask_eq (n : Nat) : bitmaskForBitcount n = 2^n-1 := by
  simp [bitmaskForBitcount, Nat.shiftLeft_eq]

theorem and_bitmask (x n : Nat) : x &&& bitmaskForBitcount n = x % 2^n := by
  rw [bitmask_eq, Nat.and_two_pow_sub_one_eq_mod]

theorem shl_or (hi lo n : Nat) (h : lo < 2^n) : (hi <<< n) ||| lo = hi*2^n+lo := by
  rw [← Nat.shiftLeft_add_eq_or_of_lt h, Nat.shiftLeft_eq]

section Multibyte
variable {address length : Nat}

theorem multibyte_head_toNat (hl : length < 8) (ha : address < 2^19) :
    (logEntryMakeMultibyte address length 0).toNat = length*8+address/65536 := by
  have h₁ : address/65536 < 8 := by omega
  have h₂ : length % 8*8 % 256 = length*8 := by omega
  have h₃ : address/65536 % 8 % 256 = address/65536 := by omega
  have h₄ : (length*8 ||| address/65536) = length*8+address/65536 := by
    simpa [Nat.shiftLeft_eq] using shl_or length (address/65536) 3 h₁
  simp only [logEntryMakeMultibyte, ByteMem.write_cons_same, LogEntryType.code, and_bitmask,
    Nat.shiftRight_eq_div_pow]
  norm_num [Nat.shiftLeft_eq]
  rw [h₂, h₃, h₄]

theorem multibyte_mid_toNat :
    (logEntryMakeMultibyte address length 1).toNat = address/256 % 256 := by
  simp [logEntryMakeMultibyte, ByteMem.write_apply, and_bitmask, Nat.shiftRight_eq_div_pow]

theorem multibyte_low_toNat :
    (logEntryMakeMultibyte address length 2).toNat = address % 256 := by
  simp [logEntryMakeMultibyte, ByteMem.write_apply, and_bitmask]

theorem multibyte_getAddress {e : WriteLogEntry} :
    logEntryMultibyteGetAddress e
      = (e 0).toNat % 8*65536+(e 1).toNat*256+(e 2).toNat := by
  have h₁ := (e 1).toNat_lt
  have h₂ := (e 2).toNat_lt
  rw [logEntryMultibyteGetAddress, and_bitmask, Nat.or_assoc, shl_or _ _ 8 h₂, shl_or _ _ 16]
  · omega
  · omega

theorem multibyte_getLength {e : WriteLogEntry} :
    logEntryMultibyteGetLength e = (e 0).toNat/8 % 8 := by
  simp [logEntryMultibyteGetLength, and_bitmask, Nat.shiftRight_eq_div_pow]

theorem getType_eq (e : WriteLogEntry) : logEntryGetType e = (e 0).toNat/64 := by
  have h := (e 0).toNat_lt
  rw [logEntryGetType, and_bitmask, Nat.shiftRight_eq_div_pow]
  omega

end Multibyte

section Small
variable {address : Nat}

theorem optimized64_head_toNat {v : UInt8} (ha : address < 64) :
    (logEntryMakeOptimized64 address v 0).toNat = 64+address := by
  have h₁ : address % 64 % 256 = address := by omega
  have h₂ : (64 ||| address) = 64+address := by
    simpa [Nat.shiftLeft_eq] using shl_or 1 address 6 ha
  simp only [logEntryMakeOptimized64, ByteMem.write_cons_same, LogEntryType.code, and_bitmask]
  norm_num [Nat.shiftLeft_eq]
  rw [h₁, h₂]

theorem optimized64_value {v : UInt8} : logEntryMakeOptimized64 address v 1 = v := by
  simp [logEntryMakeOptimized64, ByteMem.write_apply]

theorem optimized64_getAddress {e : WriteLogEntry} :
    logEntryOptimized64GetAddress e = (e 0).toNat % 64 := by
  simp [logEntryOptimized64GetAddress, and_bitmask]

theorem word01_head_toNat {v : Nat} (hv : v < 2) (ha : address < 16384) :
    (logEntryMakeWord01 address v 0).toNat = 128+v*32+address/512 := by
  have h₁ : address/512 < 32 := by omega
  have h₂ : address/512 % 32 % 256 = address/512 := by omega
  have h₆ : v % 2*32 % 256 = v*32 := by omega
  have h₃ : (if v = 0 then 0 else 1) = v := by split <;> omega
  have h₄ : (v*32 ||| address/512) = v*32+address/512 := by
    simpa [Nat.shiftLeft_eq] using shl_or v (address/512) 5 h₁
  have h₅ : (128 ||| (v*32+address/512)) = 128+(v*32+address/512) := by
    simpa [Nat.shiftLeft_eq] using shl_or 1 (v*32+address/512) 7 (by omega)
  simp only [logEntryMakeWord01, ByteMem.write_cons_same, LogEntryType.code, and_bitmask, h₃,
    Nat.shiftRight_eq_div_pow, Nat.or_assoc]
  norm_num [Nat.shiftLeft_eq]
  rw [h₂, h₆, h₄, h₅]
  omega

theorem word01_low_toNat {v : Nat} :
    (logEntryMakeWord01 address v 1).toNat = address/2 % 256 := by
  simp [logEntryMakeWord01, ByteMem.write_apply, Nat.shiftRight_eq_div_pow]

theorem word01_getAddress {e : WriteLogEntry} :
    logEntryWord01GetAddress e = (e 0).toNat % 32*512+(e 1).toNat*2 := by
  have h₁ := (e 1).toNat_lt
  have h₂ : (e 1).toNat <<< 1 < 2^9 := by rw [Nat.shiftLeft_eq]; omega
  rw [logEntryWord01GetAddress, and_bitmask, shl_or _ _ 9 h₂, Nat.shiftLeft_eq]
  norm_num

theorem word01_getValue {e : WriteLogEntry} :
    logEntryWord01GetValue e = UInt8.ofNat ((e 0).toNat/32 % 2) := by
  simp [logEntryWord01GetValue, and_bitmask, Nat.shiftRight_eq_div_pow]

end Small

end QmkFirmware.WearLeveling
