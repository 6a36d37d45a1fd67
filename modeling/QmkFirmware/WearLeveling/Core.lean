import QmkFirmware.WearLeveling.LogEntry

/-!
`wear_leveling.c`. The backing store is the driver's: whether a call to it succeeds is
a schedule indexed by the number of calls made so far, so that any run of failures is
one schedule. The store keeps bytes; a `backing_store_int_t` is a block of them.
Addresses are unbounded here: those the code computes stay within one entry of the
backing size, which is the size of a store addressed by `uint32_t`, so none wraps.
-/

set_option autoImplicit false

namespace QmkFirmware.WearLeveling

/-- `BACKING_STORE_WRITE_SIZE`. -/
inductive WriteSize where
  | two | four | eight
  deriving DecidableEq, Repr

def WriteSize.bytes : WriteSize → Nat
  | .two => 2
  | .four => 4
  | .eight => 8

/-- `fnv_64a_buf`, in its shift-and-add form. -/
def fnv64aBuf (buf : List UInt8) (hval : UInt64) : UInt64 :=
  buf.foldl (fun h b =>
    let h := h ^^^ b.toUInt64
    h+((h <<< 1)+(h <<< 4)+(h <<< 5)+(h <<< 7)+(h <<< 8)+(h <<< 40))) hval

def fnv1a64Init : UInt64 := 0xcbf29ce484222325

/-- The compile-time configuration with its static asserts. `% LOGICAL_SIZE` does not
compile for size zero. The hash is that of the consolidated bytes; the firmware's is
`fnv64aBuf` from `fnv1a64Init`. -/
structure Config where
  writeSize : WriteSize
  logicalSize : Nat
  backingSize : Nat
  fnv : List UInt8 → UInt64
  logical_pos : 0 < logicalSize
  backing_ge : logicalSize*2 ≤ backingSize
  logical_mod : logicalSize % writeSize.bytes = 0
  backing_mod : backingSize % logicalSize = 0
  logical_le : logicalSize ≤ 2^19
  room : logicalSize+8 < backingSize

inductive Status where
  | failed | success | consolidated
  deriving DecidableEq, Repr

inductive LockStatus where
  | failure | success | unchanged
  deriving DecidableEq, Repr

abbrev Word := List UInt8

inductive BackingCall where
  | init (ok : Bool)
  | unlock (ok : Bool)
  | lock (ok : Bool)
  | erase (ok : Bool)
  | read (address : Nat) (ok : Bool)
  | write (address : Nat) (value : Word) (ok : Bool)
  deriving DecidableEq, Repr

/-- The driver: which calls succeed, by call number. A failed write leaves its cell as
it was; a failed erase leaves what `halfErased` says. -/
structure Driver where
  initOk : Nat → Bool
  unlockOk : Nat → Bool
  lockOk : Nat → Bool
  eraseOk : Nat → Bool
  readOk : Nat → Bool
  writeOk : Nat → Bool
  halfErased : Nat → ByteMem → ByteMem

def Driver.faultFree : Driver :=
  ⟨fun _ => true, fun _ => true, fun _ => true, fun _ => true, fun _ => true, fun _ => true,
    fun _ m => m⟩

structure Flash where
  mem : ByteMem
  calls : List BackingCall

def Flash.erased : Flash := ⟨ByteMem.blank,[]⟩

structure State where
  cache : ByteMem
  writeAddress : Nat
  unlocked : Bool
  flash : Flash

variable (d : Driver) (cfg : Config)

def backingStoreInit (f : Flash) : Bool × Flash :=
  let ok := d.initOk f.calls.length
  (ok, { f with calls := f.calls ++ [.init ok] })

def backingStoreUnlock (f : Flash) : Bool × Flash :=
  let ok := d.unlockOk f.calls.length
  (ok, { f with calls := f.calls ++ [.unlock ok] })

def backingStoreLock (f : Flash) : Bool × Flash :=
  let ok := d.lockOk f.calls.length
  (ok, { f with calls := f.calls ++ [.lock ok] })

/-- Un-written bytes come back as zero after an erase. -/
def backingStoreErase (f : Flash) : Bool × Flash :=
  let n := f.calls.length
  let ok := d.eraseOk n
  (ok, { mem := if ok then ByteMem.blank else d.halfErased n f.mem
         calls := f.calls ++ [.erase ok] })

def backingStoreRead (address : Nat) (f : Flash) : Bool × Word × Flash :=
  let ok := d.readOk f.calls.length
  (ok, f.mem.read address cfg.writeSize.bytes, { f with calls := f.calls ++ [.read address ok] })

def backingStoreWrite (address : Nat) (value : Word) (f : Flash) : Bool × Flash :=
  let ok := d.writeOk f.calls.length
  (ok, { mem := if ok then f.mem.write address value else f.mem
         calls := f.calls ++ [.write address value ok] })

def backingStoreReadBulk (address : Nat) : Nat → Flash → Bool × Word × Flash
  | 0, f => (true, [], f)
  | n+1, f =>
    let r := backingStoreRead d cfg address f
    if !r.1 then (false, [], r.2.2) else
    let q := backingStoreReadBulk (address+cfg.writeSize.bytes) n r.2.2
    (q.1, r.2.1 ++ q.2.1, q.2.2)

def backingStoreWriteBulk (address : Nat) : List Word → Flash → Bool × Flash
  | [], f => (true, f)
  | v :: vs, f =>
    let r := backingStoreWrite d address v f
    if !r.1 then (false, r.2) else
    backingStoreWriteBulk (address+cfg.writeSize.bytes) vs r.2

/-- A byte buffer cast to `backing_store_int_t *`. -/
def words (m : ByteMem) (a n : Nat) : List Word :=
  (List.range n).map fun i => m.read (a+i*cfg.writeSize.bytes) cfg.writeSize.bytes

/-- The eight bytes of `raw64`, low byte first. -/
def raw64 (v : UInt64) : List UInt8 :=
  (List.range 8).map fun i => (v >>> (UInt64.ofNat (8*i))).toUInt8

def wearLevelingUnlock (s : State) : LockStatus × State :=
  if s.unlocked then (.unchanged, s) else
  let r := backingStoreUnlock d s.flash
  if !r.1 then (.failure, { s with flash := r.2 }) else
  (.success, { s with unlocked := true, flash := r.2 })

def wearLevelingLock (s : State) : LockStatus × State :=
  if !s.unlocked then (.unchanged, s) else
  let r := backingStoreLock d s.flash
  if !r.1 then (.failure, { s with flash := r.2 }) else
  (.success, { s with unlocked := false, flash := r.2 })

/-- The first address of the write log: 8 bytes of FNV1a_64 follow the consolidated data. -/
def Config.logStart : Nat := cfg.logicalSize+8

def wearLevelingClearCache (s : State) : State :=
  { s with cache := ByteMem.blank, writeAddress := cfg.logStart }

/-- The item count of a bulk transfer of `n` bytes. -/
def Config.items (n : Nat) : Nat := n/cfg.writeSize.bytes

/-- The result of the checksum read is not looked at, as in the source. When it fails the
entry's bytes are unspecified; they are taken to be what the store holds. -/
def wearLevelingReadConsolidated (s : State) : Status × State :=
  let r := backingStoreReadBulk d cfg 0 (cfg.items cfg.logicalSize) s.flash
  let s := { s with flash := r.2.2 }
  if !r.1 then (.failed, wearLevelingClearCache cfg s) else
  let s := { s with cache := ByteMem.blank.write 0 r.2.1 }
  let expected := cfg.fnv (s.cache.read 0 cfg.logicalSize)
  let q := backingStoreReadBulk d cfg cfg.logicalSize (cfg.items 8) s.flash
  let entry := s.flash.mem.read cfg.logicalSize 8
  let s := { s with flash := q.2.2 }
  if entry = raw64 expected then (.success, s) else
  (.success, wearLevelingClearCache cfg s)

/-- The result of unlocking is only used to decide about locking again. -/
def wearLevelingWriteConsolidated (s : State) : Status × State :=
  let u := wearLevelingUnlock d s
  let s := u.2
  let r := backingStoreWriteBulk d cfg 0 (words cfg s.cache 0 (cfg.items cfg.logicalSize)) s.flash
  let s := { s with flash := r.2 }
  let p : Status × State :=
    if !r.1 then (.failed, s) else
    let hash := raw64 (cfg.fnv (s.cache.read 0 cfg.logicalSize))
    let q := backingStoreWriteBulk d cfg cfg.logicalSize
      (words cfg (ByteMem.blank.write 0 hash) 0 (cfg.items 8)) s.flash
    (if q.1 then .consolidated else .failed, { s with flash := q.2 })
  if u.1 = .success then (p.1, (wearLevelingLock d p.2).2) else p

def wearLevelingConsolidateForce (s : State) : Status × State :=
  let r := backingStoreErase d s.flash
  let s := { s with flash := r.2 }
  if !r.1 then (.failed, s) else
  let p := wearLevelingWriteConsolidated d cfg s
  (p.1, { p.2 with writeAddress := cfg.logStart })

def wearLevelingConsolidateIfNeeded (s : State) : Status × State :=
  if cfg.backingSize ≤ s.writeAddress then wearLevelingConsolidateForce d cfg s else
  (.success, s)

def wearLevelingAppendRaw (value : Word) (s : State) : Status × State :=
  let r := backingStoreWrite d s.writeAddress value s.flash
  let s := { s with flash := r.2 }
  if !r.1 then (.failed, s) else
  wearLevelingConsolidateIfNeeded d cfg
    { s with writeAddress := s.writeAddress+cfg.writeSize.bytes }

/-- `raw16[k]`, `raw32[k]` or `raw64` of a log entry. -/
def rawWord (log : WriteLogEntry) (k : Nat) : Word :=
  log.read (k*cfg.writeSize.bytes) cfg.writeSize.bytes

def multibyteWords (length : Nat) : Nat :=
  match cfg.writeSize with
  | .two => 2+(if 1 < length then 1 else 0)+(if 3 < length then 1 else 0)
  | .four => 1+(if 1 < length then 1 else 0)
  | .eight => 1

def appendWords : List Word → State → Status × State
  | [], s => (.success, s)
  | w :: ws, s =>
    let r := wearLevelingAppendRaw d cfg w s
    if r.1 ≠ .success then r else appendWords ws r.2

def wearLevelingWriteRawMultibyte (address : Nat) (p : List UInt8) (s : State) :
    Status × State :=
  let log := (logEntryMakeMultibyte address p.length).write 3 p
  appendWords d cfg ((List.range (multibyteWords cfg p.length)).map (rawWord cfg log)) s

/-- The little-endian `uint16_t` of the two bytes at `p`. -/
def word16 (p : List UInt8) : Nat := (p.getD 1 0).toNat*256+(p.getD 0 0).toNat

/-- The write loop. Each round takes at least one byte, so a fuel of `remaining` rounds
reaches the end of the value. -/
def writeRawLoop : Nat → Nat → List UInt8 → State → Status × State
  | 0, _, _, s => (.success, s)
  | fuel+1, address, p, s =>
    if p.length = 0 then (.success, s) else
    if cfg.writeSize = .two ∧ 2 ≤ p.length ∧ address % 2 = 0 ∧ address < 16384
        ∧ (word16 p = 0 ∨ word16 p = 1) then
      let r := wearLevelingAppendRaw d cfg (rawWord cfg (logEntryMakeWord01 address (word16 p)) 0) s
      if r.1 ≠ .success then r else writeRawLoop fuel (address+2) (p.drop 2) r.2
    else if cfg.writeSize = .two ∧ address < 64 then
      let r := wearLevelingAppendRaw d cfg
        (rawWord cfg (logEntryMakeOptimized64 address (p.getD 0 0)) 0) s
      if r.1 ≠ .success then r else writeRawLoop fuel (address+1) (p.drop 1) r.2
    else
      let n := if logEntryMultibyteMaxBytes ≤ p.length then logEntryMultibyteMaxBytes else p.length
      let r := wearLevelingWriteRawMultibyte d cfg address (p.take n) s
      if r.1 ≠ .success then r else writeRawLoop fuel (address+n) (p.drop n) r.2

def wearLevelingWriteRaw (address : Nat) (p : List UInt8) (s : State) : Status × State :=
  writeRawLoop d cfg p.length address p s

/-- Where one round of playback leaves the loop: its `cancel_playback`, `status`,
`address`, cache and backing store. -/
structure Playback where
  cancel : Bool
  status : Status
  address : Nat
  cache : ByteMem
  flash : Flash

/-- Read the next word of a multi-byte entry into `log`. -/
def readEntryWord (k : Nat) (p : Playback) (log : WriteLogEntry) : Playback × WriteLogEntry :=
  let r := backingStoreRead d cfg p.address p.flash
  let p := { p with flash := r.2.2 }
  if !r.1 then ({ p with cancel := true, status := .failed }, log) else
  ({ p with address := p.address+cfg.writeSize.bytes },
    log.write (k*cfg.writeSize.bytes) r.2.1)

/-- The optional words `ks` of an entry, until one fails to load. -/
def readEntryWords : List Nat → Playback → WriteLogEntry → Playback × WriteLogEntry
  | [], p, log => (p, log)
  | k :: ks, p, log =>
    let r := readEntryWord d cfg k p log
    if r.1.cancel then r else readEntryWords ks r.1 r.2

def extraWords (length : Nat) : List Nat :=
  match cfg.writeSize with
  | .two => (if 1 < length then [2] else []) ++ (if 3 < length then [3] else [])
  | .four => if 1 < length then [1] else []
  | .eight => []

def playbackMultibyte (p : Playback) (log : WriteLogEntry) : Playback :=
  let r := readEntryWords d cfg (if cfg.writeSize = .two then [1] else []) p log
  if r.1.cancel then r.1 else
  let a := logEntryMultibyteGetAddress r.2
  let l := logEntryMultibyteGetLength r.2
  if cfg.logicalSize < a+l then { r.1 with cancel := true, status := .failed } else
  let q := readEntryWords d cfg (extraWords cfg l) r.1 r.2
  if q.1.cancel then q.1 else
  { q.1 with cache := q.1.cache.write a (q.2.read 3 l) }

/-- One round of the playback loop. Bytes of `log` that were not loaded are
unspecified in C; the model has zero there. -/
def playbackRound (p : Playback) : Playback :=
  let r := backingStoreRead d cfg p.address p.flash
  let p := { p with flash := r.2.2 }
  if !r.1 then { p with cancel := true, status := .failed } else
  if r.2.1 = List.replicate cfg.writeSize.bytes 0 then { p with cancel := true } else
  let p := { p with address := p.address+cfg.writeSize.bytes }
  let log : WriteLogEntry := ByteMem.blank.write 0 r.2.1
  match LogEntryType.ofCode (logEntryGetType log), cfg.writeSize with
  | some .multibyte, _ => playbackMultibyte d cfg p log
  | some .optimized64, .two =>
    let a := logEntryOptimized64GetAddress log
    if cfg.logicalSize ≤ a then { p with cancel := true, status := .failed } else
    { p with cache := p.cache.write a [logEntryOptimized64GetValue log] }
  | some .word01, .two =>
    let a := logEntryWord01GetAddress log
    if cfg.logicalSize ≤ a+1 then { p with cancel := true, status := .failed } else
    { p with cache := p.cache.write a [logEntryWord01GetValue log, 0] }
  | _, _ => { p with cancel := true, status := .failed }

/-- The playback loop. Each round that does not cancel moves the address on, so a fuel
of `BACKING_SIZE` rounds is never used up (`playbackLoop_done`). -/
def playbackLoop : Nat → Playback → Playback
  | 0, p => p
  | fuel+1, p =>
    if p.cancel || cfg.backingSize ≤ p.address then p else
    playbackLoop fuel (playbackRound d cfg p)

def wearLevelingPlaybackLog (s : State) : Status × State :=
  let p := playbackLoop d cfg cfg.backingSize ⟨false, .success, cfg.logStart, s.cache, s.flash⟩
  let s := { s with cache := p.cache, writeAddress := p.address, flash := p.flash }
  if p.status = .failed then wearLevelingConsolidateForce d cfg s else
  wearLevelingConsolidateIfNeeded d cfg s

def wearLevelingInit (s : State) : Status × State :=
  let s := wearLevelingClearCache cfg s
  let r := backingStoreInit d s.flash
  let s := { s with flash := r.2 }
  if !r.1 then (.failed, wearLevelingClearCache cfg s) else
  let q := wearLevelingReadConsolidated d cfg s
  if q.1 = .failed then (.failed, wearLevelingClearCache cfg q.2) else
  let t := wearLevelingPlaybackLog d cfg q.2
  if t.1 = .failed then (.failed, wearLevelingClearCache cfg t.2) else t

def wearLevelingErase (s : State) : Status × State :=
  let u := wearLevelingUnlock d s
  if u.1 = .failure then (.failed, (wearLevelingLock d u.2).2) else
  let r := backingStoreErase d u.2.flash
  let s := wearLevelingClearCache cfg { u.2 with flash := r.2 }
  if u.1 = .success then
    let l := wearLevelingLock d s
    (if r.1 && l.1 ≠ .failure then .success else .failed, l.2)
  else (if r.1 then .success else .failed, s)

/-- `address + length` is computed in 32 bits. An unchanged block returns `true`, which is
the value of `WEAR_LEVELING_SUCCESS`. -/
def wearLevelingWrite (address : Nat) (value : List UInt8) (s : State) : Status × State :=
  if cfg.logicalSize < (address+value.length) % 2^32 then (.failed, s) else
  if s.cache.read address value.length = value then (.success, s) else
  let s := { s with cache := s.cache.write address value }
  let u := wearLevelingUnlock d s
  if u.1 = .failure then (.failed, (wearLevelingLock d u.2).2) else
  let w := wearLevelingWriteRaw d cfg address value u.2
  let w := if w.1 = .success then wearLevelingConsolidateIfNeeded d cfg w.2 else w
  if u.1 = .success then
    let l := wearLevelingLock d w.2
    (if l.1 = .failure then .failed else w.1, l.2)
  else w

def wearLevelingRead (address length : Nat) (s : State) : Status × List UInt8 :=
  if cfg.logicalSize < (address+length) % 2^32 then (.failed, []) else
  (.success, s.cache.read address length)

end QmkFirmware.WearLeveling
