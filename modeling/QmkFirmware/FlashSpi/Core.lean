import Mathlib.Algebra.GroupWithZero.Nat
import Mathlib.Data.List.Basic
import QmkFirmware.Lib.ByteMem

/-!
`flash_spi.c` over a NOR flash, and the backing store of `wear_leveling_flash_spi.c` over it. All
transfers succeed and the flash is never busy for too long.
-/

set_option autoImplicit false

namespace QmkFirmware.FlashSpi

/-- `EXTERNAL_FLASH_...`, `WEAR_LEVELING_EXTERNAL_FLASH_...` and `BACKING_STORE_WRITE_SIZE`. -/
structure Config where
  addressSize : Nat
  pageSize : Nat
  sectorSize : Nat
  blockSize : Nat
  flashSize : Nat
  blockOffset : Nat
  blockCount : Nat
  bulkCount : Nat
  writeSize : Nat
  page_pos : 0 < pageSize
  sector_pos : 0 < sectorSize
  block_pos : 0 < blockSize
  bulk_pos : 0 < bulkCount
  write_size : writeSize = 2 ∨ writeSize = 4 ∨ writeSize = 8
  block_dvd : blockSize ∣ flashSize
  sector_le : sectorSize ≤ flashSize
  flash_lt : flashSize < 2^32
  /-- The address bytes reach the whole flash. -/
  address : flashSize ≤ 256^addressSize
  region : (blockOffset+blockCount)*blockSize ≤ flashSize

structure Chip where
  mem : ByteMem
  /-- The write enable latch. -/
  wel : Bool

inductive Status where
  | success
  | error
  deriving DecidableEq, Repr

inductive Command where
  | writeEnable
  | writeDisable
  | pageProgram (address : Nat) (data : List UInt8)
  | sectorErase (address : Nat)
  | blockErase (address : Nat)

section
variable (cfg : Config)

/-- Programming clears bits, and goes on at the start of the page behind its end. -/
def programInPage (pageSize : Nat) : List UInt8 → Nat → ByteMem → ByteMem
  | [], _, m => m
  | b :: bs, a, m => programInPage pageSize bs
    (if (a+1) % pageSize = 0 then a+1-pageSize else a+1) (m.write a [m a &&& b])

def eraseUnit (size address : Nat) (m : ByteMem) : ByteMem :=
  fun a => if a/size = address/size then 0xFF else m a

/-- Programming and erasing need the latch and clear it. -/
def execute (c : Chip) : Command → Chip
  | .writeEnable => { c with wel := true }
  | .writeDisable => { c with wel := false }
  | .pageProgram address data =>
    if c.wel then ⟨programInPage cfg.pageSize data (address % cfg.flashSize) c.mem,false⟩ else c
  | .sectorErase address =>
    if c.wel then ⟨eraseUnit cfg.sectorSize (address % cfg.flashSize) c.mem,false⟩ else c
  | .blockErase address =>
    if c.wel then ⟨eraseUnit cfg.blockSize (address % cfg.flashSize) c.mem,false⟩ else c

/-- The address bytes of `spi_flash_transaction`, the last one first. -/
def addressBytes : Nat → UInt32 → List UInt8
  | 0, _ => []
  | n+1, addr => addressBytes n (addr >>> 8) ++ [addr.toUInt8]

def sentAddress (addr : UInt32) : Nat :=
  (addressBytes cfg.addressSize addr).foldl (fun a b => 256*a+b.toNat) 0

/-- The check of `flash_erase_sector` and `flash_erase_block`, in 32 bits. -/
def overLimit (size : Nat) (addr : UInt32) : Bool :=
  decide (UInt32.ofNat cfg.flashSize ≤ addr+UInt32.ofNat size)
    || decide (addr % UInt32.ofNat size ≠ 0)

def flashEraseSector (addr : UInt32) (c : Chip) : Status × Chip :=
  if overLimit cfg cfg.sectorSize addr then (.error,c)
  else (.success,execute cfg (execute cfg c .writeEnable) (.sectorErase (sentAddress cfg addr)))

def flashEraseBlock (addr : UInt32) (c : Chip) : Status × Chip :=
  if overLimit cfg cfg.blockSize addr then (.error,c)
  else (.success,execute cfg (execute cfg c .writeEnable) (.blockErase (sentAddress cfg addr)))

/-- The bytes that `spi_transmit` sends. -/
def spiTransmit (data : List UInt8) (length : UInt16) : List UInt8 := data.take length.toNat

/-- The flash sends its bytes from the address on; `data` behind them is left as it is. -/
def spiReceive (data : List UInt8) (length : UInt16) (address : Nat) (c : Chip) : List UInt8 :=
  (List.range length.toNat).map (fun i => c.mem ((address+i) % cfg.flashSize))
    ++ data.drop length.toNat

/-- `len` is the length of `buf`; `spi_receive` gets its low 16 bits. -/
def flashReadRange (addr : UInt32) (buf : List UInt8) (c : Chip) : Status × List UInt8 :=
  (.success,spiReceive cfg buf (UInt16.ofNat buf.length) (sentAddress cfg addr) c)

def writePages (addr : UInt32) (buf : List UInt8) (c : Chip) : Chip :=
  if _h : 0 < buf.length then
    let pageOffset := addr.toNat % cfg.pageSize
    let writeLength := cfg.pageSize-pageOffset
    let writeLength := if buf.length < writeLength then buf.length else writeLength
    let c := execute cfg c .writeEnable
    let c := execute cfg c (.pageProgram (sentAddress cfg addr)
      (spiTransmit buf (UInt16.ofNat writeLength)))
    writePages (addr+UInt32.ofNat writeLength) (buf.drop writeLength) c
  else c
termination_by buf.length
decreasing_by
  have hpos := Nat.mod_lt addr.toNat cfg.page_pos
  rw [List.length_drop]
  split <;> omega

def flashWriteRange (addr : UInt32) (buf : List UInt8) (c : Chip) : Status × Chip :=
  (.success,execute cfg (writePages cfg addr buf c) .writeDisable)

/-- `backing_store_int_t` as it stands in memory. -/
abbrev Config.Word : Type := Vector UInt8 cfg.writeSize

variable {cfg}

def complement (value : cfg.Word) : cfg.Word := value.map (~~~ ·)

def bytesOf (values : List cfg.Word) : List UInt8 := values.flatMap Vector.toList

def wordsOf (cfg : Config) (bytes : List UInt8) (itemCount : Nat) : List cfg.Word :=
  (List.range itemCount).map fun i => Vector.ofFn fun j => bytes.getD (cfg.writeSize*i+j) 0

variable (cfg)

def eraseBlocks : Nat → Nat → Chip → Bool × Chip
  | 0, _, c => (true,c)
  | n+1, i, c =>
    match flashEraseBlock cfg (UInt32.ofNat ((cfg.blockOffset+i)*cfg.blockSize)) c with
    | (.success, c) => eraseBlocks n (i+1) c
    | (.error, c) => (false,c)

def backingStoreErase (c : Chip) : Bool × Chip := eraseBlocks cfg cfg.blockCount 0 c

def regionOffset (address : UInt32) : UInt32 :=
  UInt32.ofNat (cfg.blockOffset*cfg.blockSize)+address

/-- `item_count` is the length of `values`. -/
def backingStoreReadBulk (address : UInt32) (values : List cfg.Word) (c : Chip) :
    Bool × List cfg.Word :=
  match flashReadRange cfg (regionOffset cfg address) (bytesOf values) c with
  | (.success, bytes) => (true,(wordsOf cfg bytes values.length).map complement)
  | (.error, bytes) => (false,wordsOf cfg bytes values.length)

def backingStoreRead (address : UInt32) (value : cfg.Word) (c : Chip) : Bool × cfg.Word :=
  let r := backingStoreReadBulk cfg address [value] c
  (r.1,r.2.headD value)

/-- The loop over the batches, which is entered with nothing to write, too. -/
def writeBatches (offset : UInt32) (values : List cfg.Word) (c : Chip) : Bool × Chip :=
  let temp := (values.take cfg.bulkCount).map complement
  match flashWriteRange cfg offset (bytesOf temp) c with
  | (.error, c) => (false,c)
  | (.success, c) =>
    if _h : 0 < (values.drop cfg.bulkCount).length then
      writeBatches (offset+UInt32.ofNat (temp.length*cfg.writeSize)) (values.drop cfg.bulkCount) c
    else (true,c)
termination_by values.length
decreasing_by
  have hpos := cfg.bulk_pos
  rw [List.length_drop] at _h ⊢
  omega

def backingStoreWriteBulk (address : UInt32) (values : List cfg.Word) (c : Chip) : Bool × Chip :=
  writeBatches cfg (regionOffset cfg address) values c

end

end QmkFirmware.FlashSpi
