import QmkFirmware.EmulatedFlash.Durable

/-!
The driver on a flash whose half-words may refuse to be programmed. A refused half-word stays
erased, and the driver goes on as it does after any other status.
-/

set_option autoImplicit false

namespace QmkFirmware.EmulatedFlash.Faulty

/-- The calls of `FLASH_ProgramHalfWord` so far. -/
def calls (s : State) : Nat := s.ops.countP (· ≠ .erase)

variable (cfg : Config) (ok : Nat → Bool)

/-- `FLASH_ProgramHalfWord`, of which the calls succeed that `ok` has. -/
def programHalfWord (address : Nat) (data : UInt16) (s : State) : Status × State :=
  if ok (calls s) then EmulatedFlash.programHalfWord address data s
  else (.errorPg,{ s with ops := s.ops ++ [.programHalfWord address data] })

/-- A turn of the loop of `eeprom_compact`. -/
def compactWord (r : Status × State) (i : Nat) : Status × State :=
  let value := word r.2.dataBuf (2*i)
  if value ≠ 0 then
    let (status,s) := programHalfWord ok (2*i) (~~~value) r.2
    (if status ≠ .complete then status else r.1,s)
  else r

def eepromCompact (s : State) : Status × State :=
  (List.range (cfg.densityBytes/2)).foldl (compactWord ok) (.complete,eepromClear cfg s)

def eepromWriteDirectEntry (address : UInt16) (s : State) : Status × State :=
  let directAddress := (address &&& 0xFFFE).toNat
  if word s.flash directAddress = emptyWord then
    let value := ~~~word s.dataBuf directAddress
    if value = emptyWord then (.complete,s) else programHalfWord ok directAddress value s
  else (.zero,s)

def eepromWriteLogWordEntry (address : UInt16) (s : State) : Status × State :=
  let value := word s.dataBuf address.toNat
  let encoding : UInt16 :=
    if value ≤ 1 then (0x8000 : UInt16) ||| value <<< 13 else (0x8000 : UInt16) ||| 0x6000
  let entrySize := if value ≤ 1 then 2 else 4
  let address := if value ≤ 1 then address else address-0x80
  if cfg.logLast < s.emptySlot+entrySize then eepromCompact cfg ok s
  else
    let (finalStatus,s) := programHalfWord ok s.emptySlot (address >>> 1 ||| encoding) s
    let s := { s with emptySlot := s.emptySlot+2 }
    if encoding = (0x8000 : UInt16) ||| 0x6000 then
      let (status,s) := programHalfWord ok s.emptySlot (~~~value) s
      (if status ≠ .complete then status else finalStatus,{ s with emptySlot := s.emptySlot+2 })
    else (finalStatus,s)

def eepromWriteLogByteEntry (address : UInt16) (s : State) : Status × State :=
  if cfg.logLast ≤ s.emptySlot then eepromCompact cfg ok s
  else
    let value := address <<< 8 ||| (s.dataBuf address.toNat).toUInt16
    let (status,s) := programHalfWord ok s.emptySlot value s
    (status,{ s with emptySlot := s.emptySlot+2 })

def storeCachedByte (address : UInt16) (s : State) : Status × State :=
  let (status,s) := eepromWriteDirectEntry ok address s
  if status = .zero then
    if address < 0x80 then eepromWriteLogByteEntry cfg ok address s
    else eepromWriteLogWordEntry cfg ok (address &&& 0xFFFE) s
  else (status,s)

def eepromWriteDataByte (address : UInt16) (dataByte : UInt8) (s : State) : Status × State :=
  if cfg.densityBytes ≤ address.toNat then (.badAddress,s)
  else if s.dataBuf address.toNat = dataByte then (.zero,s)
  else storeCachedByte cfg ok address { s with dataBuf := s.dataBuf.write address.toNat [dataByte] }

def eepromWriteLogBytes (address oldValue dataWord : UInt16) (s : State) : Status × State :=
  let (finalStatus,s) := if oldValue.toUInt8 ≠ dataWord.toUInt8 then
    eepromWriteLogByteEntry cfg ok address s else (.complete,s)
  let (status,s) := if oldValue >>> 8 ≠ dataWord >>> 8 then
    eepromWriteLogByteEntry cfg ok (address+1) s else (.complete,s)
  (if status ≠ .complete then status else finalStatus,s)

def storeCachedWord (address oldValue dataWord : UInt16) (s : State) : Status × State :=
  let (finalStatus,s) := eepromWriteDirectEntry ok address s
  if finalStatus = .zero then
    if address < 0x80 then eepromWriteLogBytes cfg ok address oldValue dataWord s
    else eepromWriteLogWordEntry cfg ok address s
  else (finalStatus,s)

def eepromWriteDataWord (address dataWord : UInt16) (s : State) : Status × State :=
  if cfg.densityBytes ≤ address.toNat then (.badAddress,s)
  else if address%2 ≠ 0 then
    let (finalStatus,s) := eepromWriteDataByte cfg ok address dataWord.toUInt8 s
    let (status,s) := eepromWriteDataByte cfg ok (address+1) (dataWord >>> 8).toUInt8 s
    (if status ≠ .complete then status else finalStatus,s)
  else
    let oldValue := word s.dataBuf address.toNat
    if oldValue = dataWord then (.zero,s)
    else storeCachedWord cfg ok address oldValue dataWord
      { s with dataBuf := storeWord s.dataBuf address.toNat dataWord }

def call (s : State) : Write → Status × State
  | .byte address value => eepromWriteDataByte cfg ok address value s
  | .word address value => eepromWriteDataWord cfg ok address value s

end QmkFirmware.EmulatedFlash.Faulty
