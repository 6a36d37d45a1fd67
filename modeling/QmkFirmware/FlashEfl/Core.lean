import QmkFirmware.WearLeveling.Backing

/-!
`wear_leveling_efl.c`, the backing store in the embedded flash. The flash driver below it is the
operating system's: what is said of it is what it documents of a flash without faults. Offsets are
those of a flash that 32 bits reach.
-/

set_option autoImplicit false

namespace QmkFirmware.FlashEfl

open WearLeveling

/-- `flash_error_t`, as far as it is looked at. -/
inductive FlashError where
  | noError
  | busyErasing
  | other
  deriving DecidableEq, Repr

/-- The flash driver. A word is read from where the flash is mapped, and `ecc` tells that the
error of this read was signalled. -/
structure Efl (σ : Type) where
  sectorsCount : Nat
  sectorSize : Nat → Nat
  sectorOffset : Nat → Nat
  erasedIsOne : Bool
  /-- `detect_flash_size`. -/
  flashSize : Nat
  start : σ → Bool × σ
  stop : σ → σ
  startEraseSector : Nat → σ → FlashError × σ
  waitErase : σ → FlashError × σ
  program : Nat → List UInt8 → σ → FlashError × σ
  mapped : σ → ByteMem
  ecc : Nat → σ → Bool

/-- `WEAR_LEVELING_EFL_FIRST_SECTOR` and `WEAR_LEVELING_EFL_OMIT_LAST_SECTOR_COUNT`. -/
structure Config where
  firstSector : Option Nat
  omitLastSectorCount : Nat

/-- The variables of the file, and the flash. -/
structure Store (σ : Type) where
  baseOffset : Nat
  firstSector : Nat
  sectorCount : Nat
  erasedIsOne : Bool
  flash : σ

section
variable {σ : Type} (e : Efl σ) (efl : Config) (cfg : WearLeveling.Config)

/-- The variables before the first initialisation. -/
def Store.reset (efl : Config) (flash : σ) : Store σ where
  baseOffset := 2^32-1
  firstSector := efl.firstSector.getD (2^16-1)
  sectorCount := 2^16-1
  erasedIsOne := false
  flash := flash

/-- The end of the first sectors from `i` on, of the `n` there are, that together with what was
counted are large enough. -/
def countForwards : Nat → Nat → Nat → Option Nat
  | 0, _, _ => none
  | n+1, i, counter =>
    if cfg.backingSize ≤ counter+e.sectorSize i then some (i+1)
    else countForwards n (i+1) (counter+e.sectorSize i)

/-- `last_sector` behind the sectors that are past the actual flash size, if one is left. -/
def skipPast : Nat → Option Nat
  | 0 => none
  | n+1 => if e.flashSize ≤ e.sectorOffset n then skipPast n else some (n+1)

/-- The first of the last sectors before `last` that together with what was counted are large
enough. -/
def countBackwards : Nat → Nat → Option Nat
  | 0, _ => none
  | last+1, counter =>
    if cfg.backingSize ≤ counter+e.sectorSize last then some last
    else countBackwards last (counter+e.sectorSize last)

def searchForwards (first : Nat) (s : Store σ) : Option (Store σ) :=
  let s := match countForwards e cfg (e.sectorsCount-efl.omitLastSectorCount-first) first 0 with
    | some last => { s with sectorCount := last-first, baseOffset := e.sectorOffset first }
    | none => s
  if s.sectorCount = 2^16-1 ∨ e.flashSize ≤ s.baseOffset then none else some s

def searchBackwards (s : Store σ) : Option (Store σ) := do
  let last ← skipPast e e.sectorsCount
  if last ≤ efl.omitLastSectorCount then none else
  let last := last-efl.omitLastSectorCount
  let first ← countBackwards e cfg last 0
  some { s with
    firstSector := first
    sectorCount := last-first
    baseOffset := e.sectorOffset first }

/-- Where the system halts there is no state. -/
def backingStoreInit (s : Store σ) : Option (Store σ) :=
  let s := { s with flash := e.stop s.flash, erasedIsOne := e.erasedIsOne }
  if e.sectorsCount ≤ efl.omitLastSectorCount then none else
  match efl.firstSector with
  | some first => searchForwards e efl cfg first s
  | none => searchBackwards e efl cfg s

def backingStoreUnlock (s : Store σ) : Bool × Store σ :=
  let r := e.start s.flash
  (r.1,{ s with flash := r.2 })

def backingStoreLock (s : Store σ) : Bool × Store σ := (true,{ s with flash := e.stop s.flash })

/-- A sector that fails does not end the loop. -/
def eraseSectors : Nat → Nat → Bool → σ → Bool × σ
  | 0, _, ret, x => (ret,x)
  | n+1, i, ret, x =>
    let r := e.startEraseSector i x
    let ret := if r.1 ≠ .noError ∧ r.1 ≠ .busyErasing then false else ret
    let q := e.waitErase r.2
    let ret := if q.1 ≠ .noError ∧ q.1 ≠ .busyErasing then false else ret
    eraseSectors n (i+1) ret q.2

def backingStoreErase (s : Store σ) : Bool × Store σ :=
  let r := eraseSectors e s.sectorCount s.firstSector true s.flash
  (r.1,{ s with flash := r.2 })

def encode (one : Bool) (value : Word) : Word := if one then value.map (~~~ ·) else value

def backingStoreWrite (address : Nat) (value : Word) (s : Store σ) : Bool × Store σ :=
  let r := e.program (s.baseOffset+address) (encode s.erasedIsOne value) s.flash
  (r.1 = .noError,{ s with flash := r.2 })

def backingStoreRead (address : Nat) (s : Store σ) : Bool × Word :=
  let size := cfg.writeSize.bytes
  if e.ecc (s.baseOffset+address) s.flash then (false,List.replicate size 0)
  else (true,encode s.erasedIsOne ((e.mapped s.flash).read (s.baseOffset+address) size))

/-- The driver. A system that has halted answers no call. -/
def eflBacking : Backing (Option (Store σ)) where
  init x := match x.bind (backingStoreInit e efl cfg) with
    | some s => (true,some s)
    | none => (false,none)
  unlock x := match x with
    | some s => ((backingStoreUnlock e s).1,some (backingStoreUnlock e s).2)
    | none => (false,none)
  lock x := match x with
    | some s => ((backingStoreLock e s).1,some (backingStoreLock e s).2)
    | none => (false,none)
  erase x := match x with
    | some s => ((backingStoreErase e s).1,some (backingStoreErase e s).2)
    | none => (false,none)
  read address x := match x with
    | some s => backingStoreRead e cfg address s
    | none => (false,[])
  write address value x := match x with
    | some s => ((backingStoreWrite e address value s).1,some (backingStoreWrite e address value s).2)
    | none => (false,none)

end

end QmkFirmware.FlashEfl
