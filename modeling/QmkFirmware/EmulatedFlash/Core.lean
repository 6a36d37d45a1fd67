import QmkFirmware.Lib.ByteMem

/-!
EEPROM emulated in flash (the legacy driver). A compacted area holds the complement of the
contents, and behind it stands a log of the writes since the last compaction. A cache in memory
holds the contents. Addresses of the flash count from the base of the compacted area;
`FLASH_Unlock` and `FLASH_Lock` stand around every access and are left out.
-/

set_option autoImplicit false

namespace QmkFirmware.EmulatedFlash

/-- `FEE_DENSITY_BYTES` and `FEE_WRITE_LOG_BYTES`, with what the preprocessor checks. -/
structure Config where
  densityBytes : Nat
  writeLogBytes : Nat
  density_even : densityBytes%2 = 0
  density_ge : 128 ≤ densityBytes
  density_le : densityBytes ≤ 0x4000
  log_even : writeLogBytes%2 = 0

/-- `FLASH_Status`; 0 is none of its values. -/
inductive Status where
  | zero
  | errorPg
  | complete
  | badAddress
  deriving DecidableEq, Repr

inductive FlashOp where
  | erase
  | programHalfWord (address : Nat) (data : UInt16)
  deriving DecidableEq, Repr

/-- `DataBuf` and `empty_slot`, the flash, and the record of what happened to it. -/
structure State where
  flash : ByteMem
  dataBuf : ByteMem
  emptySlot : Nat
  ops : List FlashOp

/-- The half-word at an address, the low byte first. -/
def word (m : ByteMem) (address : Nat) : UInt16 :=
  UInt16.ofNat ((m address).toNat+256*(m (address+1)).toNat)

def storeWord (m : ByteMem) (address : Nat) (value : UInt16) : ByteMem :=
  m.write address [value.toUInt8,(value >>> 8).toUInt8]

def emptyWord : UInt16 := 0xFFFF

def eraseFlash (s : State) : State :=
  { s with flash := fun _ => 0xFF, ops := s.ops ++ [.erase] }

/-- `FLASH_ProgramHalfWord`. A half-word that is not erased takes zero only. -/
def programHalfWord (address : Nat) (data : UInt16) (s : State) : Status × State :=
  let s := { s with ops := s.ops ++ [.programHalfWord address data] }
  if word s.flash address = emptyWord ∨ data = 0 then
    (.complete,{ s with flash := storeWord s.flash address data })
  else (.errorPg,s)

variable (cfg : Config)

def Config.logBase : Nat := cfg.densityBytes

def Config.logLast : Nat := cfg.densityBytes+cfg.writeLogBytes

inductive Turn where
  | stop (logAddr : Nat)
  | go (logAddr : Nat) (dataBuf : ByteMem)

def setWord (address value : UInt16) (dataBuf : ByteMem) : ByteMem :=
  if address.toNat < cfg.densityBytes then storeWord dataBuf address.toNat value else dataBuf

def replayTurn (flash : ByteMem) (logAddr : Nat) (dataBuf : ByteMem) : Turn :=
  let address := word flash logAddr
  if address = emptyWord then .stop logAddr
  else if address &&& 0x8000 = 0 then
    .go (logAddr+2) (dataBuf.write (address >>> 8).toNat [address.toUInt8])
  else if address &&& 0x6000 = 0x6000 then
    if cfg.logLast ≤ logAddr+2 then .stop (logAddr+2)
    else
      let wvalue := ~~~word flash (logAddr+2)
      -- a write that was cut after its first half-word
      if wvalue = 0 then .go (logAddr+4) dataBuf
      else .go (logAddr+4) (setWord cfg (((address &&& 0x1FFF) <<< 1)+0x80) wvalue dataBuf)
  else if address &&& 0x4000 ≠ 0 then .go (logAddr+2) dataBuf
  else .go (logAddr+2) (setWord cfg ((address &&& 0x1FFF) <<< 1) ((address &&& 0x2000) >>> 13)
    dataBuf)

/-- The loop. Each turn goes on by a half-word at least, so `writeLogBytes` turns are enough. -/
def replay (flash : ByteMem) : Nat → Nat → ByteMem → Nat × ByteMem
  | 0, logAddr, dataBuf => (logAddr,dataBuf)
  | fuel+1, logAddr, dataBuf =>
    if cfg.logLast ≤ logAddr then (logAddr,dataBuf)
    else match replayTurn cfg flash logAddr dataBuf with
      | .stop logAddr => (logAddr,dataBuf)
      | .go logAddr dataBuf => replay flash fuel logAddr dataBuf

def loadCompacted (flash dataBuf : ByteMem) : ByteMem :=
  (List.range (cfg.densityBytes/2)).foldl
    (fun dest i => storeWord dest (2*i) (~~~word flash (2*i))) dataBuf

def eepromInit (s : State) : State :=
  let r := replay cfg s.flash cfg.writeLogBytes cfg.logBase (loadCompacted cfg s.flash s.dataBuf)
  { s with emptySlot := r.1, dataBuf := r.2 }

def eepromClear (s : State) : State := { eraseFlash s with emptySlot := cfg.logBase }

def eepromErase (s : State) : State := eepromInit cfg (eepromClear cfg s)

/-- A turn of the loop of `eeprom_compact`. -/
def compactWord (r : Status × State) (i : Nat) : Status × State :=
  let value := word r.2.dataBuf (2*i)
  if value ≠ 0 then
    let (status,s) := programHalfWord (2*i) (~~~value) r.2
    (if status ≠ .complete then status else r.1,s)
  else r

def eepromCompact (s : State) : Status × State :=
  (List.range (cfg.densityBytes/2)).foldl compactWord (.complete,eepromClear cfg s)

def eepromWriteDirectEntry (address : UInt16) (s : State) : Status × State :=
  let directAddress := (address &&& 0xFFFE).toNat
  if word s.flash directAddress = emptyWord then
    let value := ~~~word s.dataBuf directAddress
    if value = emptyWord then (.complete,s) else programHalfWord directAddress value s
  else (.zero,s)

def eepromWriteLogWordEntry (address : UInt16) (s : State) : Status × State :=
  let value := word s.dataBuf address.toNat
  let encoding : UInt16 :=
    if value ≤ 1 then (0x8000 : UInt16) ||| value <<< 13 else (0x8000 : UInt16) ||| 0x6000
  let entrySize := if value ≤ 1 then 2 else 4
  let address := if value ≤ 1 then address else address-0x80
  if cfg.logLast < s.emptySlot+entrySize then eepromCompact cfg s
  else
    let (finalStatus,s) := programHalfWord s.emptySlot (address >>> 1 ||| encoding) s
    let s := { s with emptySlot := s.emptySlot+2 }
    if encoding = (0x8000 : UInt16) ||| 0x6000 then
      let (status,s) := programHalfWord s.emptySlot (~~~value) s
      (if status ≠ .complete then status else finalStatus,{ s with emptySlot := s.emptySlot+2 })
    else (finalStatus,s)

def eepromWriteLogByteEntry (address : UInt16) (s : State) : Status × State :=
  if cfg.logLast ≤ s.emptySlot then eepromCompact cfg s
  else
    let value := address <<< 8 ||| (s.dataBuf address.toNat).toUInt16
    let (status,s) := programHalfWord s.emptySlot value s
    (status,{ s with emptySlot := s.emptySlot+2 })

/-- What `EEPROM_WriteDataByte` does after it has changed the cache. -/
def storeCachedByte (address : UInt16) (s : State) : Status × State :=
  let (status,s) := eepromWriteDirectEntry address s
  if status = .zero then
    if address < 0x80 then eepromWriteLogByteEntry cfg address s
    else eepromWriteLogWordEntry cfg (address &&& 0xFFFE) s
  else (status,s)

def eepromWriteDataByte (address : UInt16) (dataByte : UInt8) (s : State) : Status × State :=
  if cfg.densityBytes ≤ address.toNat then (.badAddress,s)
  else if s.dataBuf address.toNat = dataByte then (.zero,s)
  else storeCachedByte cfg address { s with dataBuf := s.dataBuf.write address.toNat [dataByte] }

def eepromWriteLogBytes (address oldValue dataWord : UInt16) (s : State) : Status × State :=
  let (finalStatus,s) := if oldValue.toUInt8 ≠ dataWord.toUInt8 then
    eepromWriteLogByteEntry cfg address s else (.complete,s)
  let (status,s) := if oldValue >>> 8 ≠ dataWord >>> 8 then
    eepromWriteLogByteEntry cfg (address+1) s else (.complete,s)
  (if status ≠ .complete then status else finalStatus,s)

/-- What `EEPROM_WriteDataWord` does after it has changed the cache. -/
def storeCachedWord (address oldValue dataWord : UInt16) (s : State) : Status × State :=
  let (finalStatus,s) := eepromWriteDirectEntry address s
  if finalStatus = .zero then
    if address < 0x80 then eepromWriteLogBytes cfg address oldValue dataWord s
    else eepromWriteLogWordEntry cfg address s
  else (finalStatus,s)

def eepromWriteDataWord (address dataWord : UInt16) (s : State) : Status × State :=
  if cfg.densityBytes ≤ address.toNat then (.badAddress,s)
  else if address%2 ≠ 0 then
    let (finalStatus,s) := eepromWriteDataByte cfg address dataWord.toUInt8 s
    let (status,s) := eepromWriteDataByte cfg (address+1) (dataWord >>> 8).toUInt8 s
    (if status ≠ .complete then status else finalStatus,s)
  else
    let oldValue := word s.dataBuf address.toNat
    if oldValue = dataWord then (.zero,s)
    else storeCachedWord cfg address oldValue dataWord
      { s with dataBuf := storeWord s.dataBuf address.toNat dataWord }

def eepromReadDataByte (address : UInt16) (s : State) : UInt8 :=
  if address.toNat < cfg.densityBytes then s.dataBuf address.toNat else 0xFF

def eepromReadDataWord (address : UInt16) (s : State) : UInt16 :=
  if address.toNat < cfg.densityBytes-1 then
    if address%2 ≠ 0 then
      (s.dataBuf address.toNat).toUInt16 ||| (s.dataBuf (address.toNat+1)).toUInt16 <<< 8
    else word s.dataBuf address.toNat
  else 0xFFFF

/-- The loop of `eeprom_read_block`. A word is stored at once or byte by byte, depending on where
the buffer is; either way its low byte comes first. -/
def readWords (src : Nat) : Nat → State → List UInt8
  | 0, _ => []
  | 1, s => [eepromReadDataByte cfg (UInt16.ofNat src) s]
  | len+2, s =>
    let value := eepromReadDataWord cfg (UInt16.ofNat src) s
    value.toUInt8 :: (value >>> 8).toUInt8 :: readWords (src+2) len s

/-- `eeprom_read_block`: what it puts into the buffer. -/
def eepromReadBlock (addr len : Nat) (s : State) : List UInt8 :=
  if 0 < len ∧ addr%2 ≠ 0 then
    eepromReadDataByte cfg (UInt16.ofNat addr) s :: readWords cfg (addr+1) (len-1) s
  else readWords cfg addr len s

/-- A call of `EEPROM_WriteDataByte` or `EEPROM_WriteDataWord`. -/
inductive Write where
  | byte (address : UInt16) (value : UInt8)
  | word (address value : UInt16)
  deriving DecidableEq, Repr

def Write.run (s : State) : Write → State
  | .byte address value => (eepromWriteDataByte cfg address value s).2
  | .word address value => (eepromWriteDataWord cfg address value s).2

/-- The calls that the loop of `eeprom_write_block` makes. -/
def writeWords (aligned : Bool) (dest : Nat) : List UInt8 → List Write
  | [] => []
  | [b] => [.byte (UInt16.ofNat dest) b]
  | lo :: hi :: buf =>
    let value := if aligned then UInt16.ofNat (lo.toNat+256*hi.toNat)
      else lo.toUInt16 ||| hi.toUInt16 <<< 8
    .word (UInt16.ofNat dest) value :: writeWords aligned (dest+2) buf

/-- The calls that `eeprom_write_block` makes for a buffer at `src`. -/
def blockWrites (src addr : Nat) (buf : List UInt8) : List Write :=
  match buf with
  | [] => []
  | b :: rest =>
    if addr%2 ≠ 0 then .byte (UInt16.ofNat addr) b :: writeWords ((src+1)%2 = 0) (addr+1) rest
    else writeWords (src%2 = 0) addr (b :: rest)

def eepromWriteBlock (src addr : Nat) (buf : List UInt8) (s : State) : State :=
  (blockWrites src addr buf).foldl (Write.run cfg) s

end QmkFirmware.EmulatedFlash
