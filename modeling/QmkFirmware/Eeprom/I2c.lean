import Mathlib.Algebra.GroupWithZero.Nat
import QmkFirmware.Lib.ByteMem

/-!
`eeprom_i2c.c`, over a chip whose banks are told by its I2C address and whose writes wrap inside a
page. A call has no result where it does not return.
-/

set_option autoImplicit false

namespace QmkFirmware.EepromI2c

/-- `EXTERNAL_EEPROM_...`; the I2C address has `bankBits` of the location bits that are above the
address bytes, or is constant when there are none. -/
structure Config where
  byteCount : Nat
  pageSize : Nat
  addressSize : Nat
  baseAddress : UInt8
  bankBits : Nat
  page_pos : 0 < pageSize
  page_le : pageSize ≤ 256
  address : addressSize = 1 ∨ addressSize = 2
  bank_lt : bankBits < 8
  base : baseAddress.toNat/2 % 2^bankBits = 0

variable (cfg : Config)

def Config.bankSize : Nat := 2^(8*cfg.addressSize)

def i2cAddress (loc : Nat) : UInt8 :=
  cfg.baseAddress ||| UInt8.ofNat ((loc >>> (8*cfg.addressSize) &&& (2^cfg.bankBits-1)) <<< 1)

structure Chip where
  mem : ByteMem
  address : Nat

def bank (i2c : UInt8) : Nat := i2c.toNat/2 % 2^cfg.bankBits

def bigEndian (bytes : List UInt8) : Nat := bytes.foldl (fun a b => 256*a+b.toNat) 0

def storeInPage (pageSize : Nat) : List UInt8 → Nat → ByteMem → ByteMem
  | [], _, m => m
  | b :: bs, a, m => storeInPage pageSize bs
    (if (a+1) % pageSize = 0 then a+1-pageSize else a+1) (m.write a [b])

/-- A packet has at most 258 bytes, which `i2c_transmit`'s `uint16_t` length holds. -/
def i2cTransmit (i2c : UInt8) (packet : List UInt8) (c : Chip) : Chip :=
  let address := bigEndian (packet.take cfg.addressSize)
  ⟨storeInPage cfg.pageSize (packet.drop cfg.addressSize) (bank cfg i2c*cfg.bankSize+address) c.mem,
    address⟩

/-- `data` behind the bytes received is left as it is. -/
def i2cReceive (i2c : UInt8) (data : List UInt8) (length : UInt16) (c : Chip) : List UInt8 :=
  c.mem.read (bank cfg i2c*cfg.bankSize+c.address) length.toNat ++ data.drop length.toNat

def fillTargetAddress : Nat → Nat → List UInt8 → List UInt8
  | 0, _, buffer => buffer
  | n+1, p, buffer => fillTargetAddress n (p >>> 8) (buffer.set n (UInt8.ofNat p))

/-- `len` is the length of `buf`; `i2c_receive` gets its low 16 bits. -/
def eepromReadBlock (buf : List UInt8) (addr : Nat) (c : Chip) : List UInt8 × Chip :=
  let completePacket := fillTargetAddress cfg.addressSize addr (List.replicate cfg.addressSize 0)
  let c := i2cTransmit cfg (i2cAddress cfg addr) completePacket c
  (i2cReceive cfg (i2cAddress cfg addr) buf (UInt16.ofNat buf.length) c,c)

/-- The index is an 8-bit one. -/
def copyData (writeLength : Nat) (readBuf : List UInt8) :
    Nat → UInt8 → List UInt8 → Option (List UInt8)
  | 0, _, _ => none
  | fuel+1, i, completePacket =>
    if i.toNat < writeLength then do
      let b ← readBuf[i.toNat]?
      copyData writeLength readBuf fuel (i+1) (completePacket.set (cfg.addressSize+i.toNat) b)
    else some completePacket

def writePages (addr : Nat) : Nat → Nat → List UInt8 → List UInt8 → Chip → Option Chip
  | 0, _, _, _, _ => none
  | fuel+1, targetAddr, readBuf, completePacket, c =>
    if readBuf.length = 0 then some c else
    let pageOffset := targetAddr % cfg.pageSize
    let writeLength := cfg.pageSize-pageOffset
    let writeLength := if readBuf.length < writeLength then readBuf.length else writeLength
    let completePacket := fillTargetAddress cfg.addressSize targetAddr completePacket
    do
    let completePacket ← copyData cfg writeLength readBuf fuel 0 completePacket
    let c := i2cTransmit cfg (i2cAddress cfg addr)
      (completePacket.take (cfg.addressSize+writeLength)) c
    writePages addr fuel (targetAddr+writeLength) (readBuf.drop writeLength) completePacket c

def eepromWriteBlock (fuel : Nat) (buf : List UInt8) (addr : Nat) (c : Chip) : Option Chip :=
  writePages cfg addr fuel addr buf (List.replicate (cfg.addressSize+cfg.pageSize) 0) c

def erasePages : Nat → Nat → Chip → Option Chip
  | 0, _, _ => none
  | fuel+1, addr, c =>
    if addr < cfg.byteCount then do
      let c ← eepromWriteBlock cfg fuel (List.replicate cfg.pageSize 0) addr c
      erasePages fuel ((addr+cfg.pageSize) % 2^32) c
    else some c

def eepromDriverErase (fuel : Nat) (c : Chip) : Option Chip := erasePages cfg fuel 0 c

inductive Call where
  | write (buf : List UInt8) (addr : Nat)
  | read (buf : List UInt8) (addr : Nat)
  | erase
  deriving DecidableEq, Repr

def call (fuel : Nat) (c : Chip) : Call → Option (List UInt8 × Chip)
  | .write buf addr => do some ([],← eepromWriteBlock cfg fuel buf addr c)
  | .read buf addr => some (eepromReadBlock cfg buf addr c)
  | .erase => do some ([],← eepromDriverErase cfg fuel c)

def run (fuel : Nat) : List Call → Chip → Option (List (List UInt8) × Chip)
  | [], c => some ([],c)
  | a :: as, c => do
    let (bytes, c) ← call cfg fuel c a
    let (rest, c) ← run fuel as c
    some (bytes :: rest,c)

def arrayCall (m : ByteMem) : Call → List UInt8 × ByteMem
  | .write buf addr => ([],m.write addr buf)
  | .read buf addr => (m.read addr buf.length,m)
  | .erase => ([],fun x => if x < cfg.byteCount then 0 else m x)

def runArray : List Call → ByteMem → List (List UInt8) × ByteMem
  | [], m => ([],m)
  | a :: as, m =>
    let (bytes, m) := arrayCall cfg m a
    let (rest, m) := runArray as m
    (bytes :: rest,m)

section
variable {cfg} {loc : Nat}

theorem storeInPage_eq {pageSize : Nat} {bs : List UInt8} {a : Nat} {m : ByteMem}
    (h : a % pageSize+bs.length ≤ pageSize) : storeInPage pageSize bs a m = m.write a bs := by
  induction bs generalizing a m with
  | nil => simp [storeInPage]
  | cons b bs ih =>
    rw [List.length_cons] at h
    rw [storeInPage, ByteMem.write_cons m a b bs]
    by_cases hlast : bs = []
    · simp [hlast, storeInPage]
    · have hlen := List.length_pos_of_ne_nil hlast
      have hmod : (a+1) % pageSize = a % pageSize+1 := by
        rw [← Nat.mod_add_mod, Nat.mod_eq_of_lt (by omega)]
      rw [if_neg (by omega), ih (by omega)]

@[simp] theorem length_fillTargetAddress (n p : Nat) (buffer : List UInt8) :
    (fillTargetAddress n p buffer).length = buffer.length := by
  induction n generalizing p buffer with
  | zero => rfl
  | succ n ih => rw [fillTargetAddress, ih, List.length_set]

theorem drop_fillTargetAddress {n k p : Nat} (buffer : List UInt8) (h : n ≤ k) :
    (fillTargetAddress n p buffer).drop k = buffer.drop k := by
  induction n generalizing p buffer with
  | zero => rfl
  | succ n ih => rw [fillTargetAddress, ih _ (by omega), List.drop_set_of_lt (by omega)]

theorem bigEndian_fillTargetAddress {n p : Nat} (buffer : List UInt8) (h : n ≤ buffer.length) :
    bigEndian ((fillTargetAddress n p buffer).take n) = p % 256^n := by
  induction n generalizing p buffer with
  | zero => simp [bigEndian, Nat.mod_one]
  | succ n ih =>
    have hrest := ih (p := p >>> 8) (buffer.set n (UInt8.ofNat p)) (by simp; omega)
    have hlast : (fillTargetAddress (n+1) p buffer)[n]? = some (UInt8.ofNat p) := by
      have hdrop := drop_fillTargetAddress (p := p >>> 8) (buffer.set n (UInt8.ofNat p))
        (Nat.le_refl n)
      have hget := congrArg (fun l => l[0]?) hdrop
      simp only [List.getElem?_drop, Nat.add_zero] at hget
      rw [fillTargetAddress, hget, List.getElem?_set_self (by omega)]
    rw [List.take_add_one, hlast, bigEndian, List.foldl_append]
    rw [bigEndian] at hrest
    rw [fillTargetAddress, hrest]
    have hdigits : p % 256^(n+1) = 256*(p >>> 8 % 256^n)+p % 256 := by
      rw [Nat.pow_succ, Nat.mul_comm _ 256, Nat.mod_mul, Nat.add_comm, Nat.shiftRight_eq_div_pow]
    rw [hdigits]
    simp

theorem copyData_eq {writeLength : Nat} (fuel : Nat) (readBuf completePacket target : List UInt8)
    (i : UInt8) (hlength : writeLength < 256) (hbuf : writeLength ≤ readBuf.length)
    (hpacket : cfg.addressSize+writeLength ≤ completePacket.length) (hi : i.toNat ≤ writeLength)
    (hfuel : writeLength < fuel+i.toNat)
    (h : completePacket.take (cfg.addressSize+i.toNat) = target ++ readBuf.take i.toNat) :
    ∃ packet, copyData cfg writeLength readBuf fuel i completePacket = some packet
      ∧ packet.length = completePacket.length
      ∧ packet.take (cfg.addressSize+writeLength) = target ++ readBuf.take writeLength := by
  induction fuel generalizing i completePacket with
  | zero => omega
  | succ fuel ih =>
    rw [copyData]
    by_cases hlt : i.toNat < writeLength
    · have hnext : (i+1).toNat = i.toNat+1 := by
        rw [UInt8.toNat_add]
        exact Nat.mod_eq_of_lt (by simp; omega)
      have hb : readBuf[i.toNat]? = some readBuf[i.toNat] := List.getElem?_eq_getElem (by omega)
      obtain ⟨packet, hcopy, hlen, htake⟩ := ih
        (completePacket.set (cfg.addressSize+i.toNat) readBuf[i.toNat]) (i+1)
        (by simpa using hpacket) (by omega) (by omega) (by
          rw [hnext, ← Nat.add_assoc, List.take_add_one, List.take_add_one, hb,
            List.getElem?_set_self (by omega), List.take_set_of_le (Nat.le_refl _), h,
            List.append_assoc])
      refine ⟨packet, ?_, by simpa using hlen, htake⟩
      rw [if_pos hlt, hb]
      exact hcopy
    · have hdone : i.toNat = writeLength := by omega
      exact ⟨completePacket, by rw [if_neg hlt], rfl, hdone ▸ h⟩

theorem copyData_never {writeLength fuel : Nat} {readBuf completePacket : List UInt8} {i : UInt8}
    (h : 256 ≤ writeLength) : copyData cfg writeLength readBuf fuel i completePacket = none := by
  induction fuel generalizing i completePacket with
  | zero => rfl
  | succ fuel ih =>
    have hi : i.toNat < writeLength := Nat.lt_of_lt_of_le i.toNat_lt h
    rw [copyData, if_pos hi]
    cases readBuf[i.toNat]? with
    | none => rfl
    | some b => exact ih

end

end QmkFirmware.EepromI2c
