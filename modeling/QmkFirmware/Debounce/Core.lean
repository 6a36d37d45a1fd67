import Mathlib.Data.Fintype.Pi
import Mathlib.Data.Fintype.Prod
import QmkFirmware.Lib.Sweep

/-!
The debounce algorithms sym_defer_pk, sym_defer_pr, sym_eager_pk, sym_eager_pr and
asym_eager_defer_pk. A cell is a key for the first and the last two, a row for the others; a
matrix is a function of the cell. The fast timer has `w` bits.
-/

set_option autoImplicit false

namespace QmkFirmware.Debounce

structure Flags where
  countersNeedUpdate : Bool
  matrixNeedUpdate : Bool
  cookedChanged : Bool
  deriving DecidableEq, Repr

namespace Flags

def none : Flags := ⟨false,false,false⟩

def add (a b : Flags) : Flags :=
  ⟨a.countersNeedUpdate || b.countersNeedUpdate,a.matrixNeedUpdate || b.matrixNeedUpdate,
    a.cookedChanged || b.cookedChanged⟩

end Flags

/-- `debounce_counters[index]` and the debounced value. -/
structure Cell (γ α : Type) where
  counter : γ
  cooked : α
  deriving DecidableEq, Repr

/-- What distinguishes the algorithms: the clamp of the elapsed time and the bodies of the two
loops. -/
structure Passes (γ α : Type) where
  maxElapsed : UInt8
  updateCounter : UInt8 → α → Cell γ α → Cell γ α × Flags
  transfer : α → Cell γ α → Cell γ α × Flags

structure State (γ α ι : Type) (w : Nat) where
  cells : ι → Cell γ α
  flags : Flags
  lastTime : BitVec w

variable {γ α ι : Type} {w : Nat}

section
variable [DecidableEq ι]

def updateDebounceCounters (p : Passes γ α) (order : LoopOrder ι) (raw : ι → α)
    (elapsedTime : UInt8) (s : State γ α ι w) : State γ α ι w :=
  let r := Sweep.sweep (fun k => p.updateCounter elapsedTime (raw k)) Flags.add order
    (s.cells,{ s.flags with countersNeedUpdate := false, matrixNeedUpdate := false })
  { s with cells := r.1, flags := r.2 }

def transferMatrixValues (p : Passes γ α) (order : LoopOrder ι) (raw : ι → α)
    (s : State γ α ι w) : State γ α ι w :=
  let r := Sweep.sweep (fun k => p.transfer (raw k)) Flags.add order
    (s.cells,{ s.flags with matrixNeedUpdate := false })
  { s with cells := r.1, flags := r.2 }

/-- The first part of `debounce`: the counters run down by the time since `last_time`. -/
def countElapsed (p : Passes γ α) (order : LoopOrder ι) (raw : ι → α) (now : BitVec w)
    (s : State γ α ι w) : State γ α ι w :=
  if s.flags.countersNeedUpdate then
    let elapsedTime := now-s.lastTime
    let s := { s with lastTime := now }
    if 0 < elapsedTime then
      updateDebounceCounters p order raw
        (UInt8.ofNat (min elapsedTime.toNat p.maxElapsed.toNat)) s
    else s
  else s

/-- The sym_defer files have no `matrix_need_update`; here it stays false for them. -/
def debounce (p : Passes γ α) (order : LoopOrder ι) (raw : ι → α) (now : BitVec w)
    (changed : Bool) (s : State γ α ι w) : Bool × State γ α ι w :=
  let s := { s with flags := { s.flags with cookedChanged := false } }
  let t := countElapsed p order raw now s
  let t := if changed || t.flags.matrixNeedUpdate then
      -- with `updated_last` the time is already that of this call
      transferMatrixValues p order raw
        (if s.flags.countersNeedUpdate then t else { t with lastTime := now })
    else t
  (t.flags.cookedChanged,t)

end

section Defer
variable [DecidableEq α]

/-- Body of `update_debounce_counters_and_transfer_if_expired`, for a key and for a row. -/
def updateAndTransferIfExpired (elapsedTime : UInt8) (raw : α) (c : Cell UInt8 α) :
    Cell UInt8 α × Flags :=
  if c.counter ≠ 0 then
    if c.counter ≤ elapsedTime then
      (⟨0,raw⟩,{ Flags.none with cookedChanged := decide (c.cooked ≠ raw) })
    else (⟨c.counter-elapsedTime,c.cooked⟩,{ Flags.none with countersNeedUpdate := true })
  else (c,Flags.none)

/-- Body of `start_debounce_counters` of sym_defer_pk. -/
def startCounterPk (debounceMs : UInt8) (raw : Bool) (c : Cell UInt8 Bool) :
    Cell UInt8 Bool × Flags :=
  if raw ≠ c.cooked then
    if c.counter = 0 then
      (⟨debounceMs,c.cooked⟩,{ Flags.none with countersNeedUpdate := true })
    else (c,Flags.none)
  else (⟨0,c.cooked⟩,Flags.none)

/-- Body of `start_debounce_counters` of sym_defer_pr. -/
def startCounterPr (debounceMs : UInt8) (raw : α) (c : Cell UInt8 α) : Cell UInt8 α × Flags :=
  if raw ≠ c.cooked then
    (⟨debounceMs,c.cooked⟩,{ Flags.none with countersNeedUpdate := true })
  else (⟨0,c.cooked⟩,Flags.none)

end Defer

section Eager
variable [DecidableEq α]

/-- Body of `update_debounce_counters` of sym_eager_pk and sym_eager_pr. -/
def updateCounter (elapsedTime : UInt8) (c : Cell UInt8 α) : Cell UInt8 α × Flags :=
  if c.counter ≠ 0 then
    if c.counter ≤ elapsedTime then
      (⟨0,c.cooked⟩,{ Flags.none with matrixNeedUpdate := true })
    else (⟨c.counter-elapsedTime,c.cooked⟩,{ Flags.none with countersNeedUpdate := true })
  else (c,Flags.none)

/-- Body of `transfer_matrix_values` of sym_eager_pk, which flips the bit. -/
def transferPk (debounceMs : UInt8) (raw : Bool) (c : Cell UInt8 Bool) : Cell UInt8 Bool × Flags :=
  if raw ≠ c.cooked then
    if c.counter = 0 then
      (⟨debounceMs,!c.cooked⟩,
        { Flags.none with countersNeedUpdate := true, cookedChanged := true })
    else (c,Flags.none)
  else (c,Flags.none)

/-- Body of `transfer_matrix_values` of sym_eager_pr. -/
def transferPr (debounceMs : UInt8) (raw : α) (c : Cell UInt8 α) : Cell UInt8 α × Flags :=
  if c.cooked ≠ raw then
    if c.counter = 0 then
      (⟨debounceMs,raw⟩,
        { Flags.none with countersNeedUpdate := true, cookedChanged := decide (c.cooked ≠ raw) })
    else (c,Flags.none)
  else (c,Flags.none)

end Eager

structure AsymCounter where
  pressed : Bool
  time : BitVec 7
  deriving DecidableEq, Repr

/-- Body of `update_debounce_counters_and_transfer_if_expired` of asym_eager_defer_pk. -/
def updateAsym (elapsedTime : UInt8) (raw : Bool) (c : Cell AsymCounter Bool) :
    Cell AsymCounter Bool × Flags :=
  if c.counter.time ≠ 0 then
    if c.counter.time.toNat ≤ elapsedTime.toNat then
      if c.counter.pressed then
        (⟨{ c.counter with time := 0 },c.cooked⟩,{ Flags.none with matrixNeedUpdate := true })
      else
        (⟨{ c.counter with time := 0 },raw⟩,
          { Flags.none with cookedChanged := decide (raw ≠ c.cooked) })
    else
      (⟨{ c.counter with time := c.counter.time-BitVec.ofNat 7 elapsedTime.toNat },c.cooked⟩,
        { Flags.none with countersNeedUpdate := true })
  else (c,Flags.none)

/-- Body of `transfer_matrix_values` of asym_eager_defer_pk. -/
def transferAsym (debounceMs : BitVec 7) (raw : Bool) (c : Cell AsymCounter Bool) :
    Cell AsymCounter Bool × Flags :=
  if raw ≠ c.cooked then
    if c.counter.time = 0 then
      if raw then
        (⟨⟨raw,debounceMs⟩,!c.cooked⟩,
          { Flags.none with countersNeedUpdate := true, cookedChanged := true })
      else (⟨⟨raw,debounceMs⟩,c.cooked⟩,{ Flags.none with countersNeedUpdate := true })
    else (c,Flags.none)
  else if c.counter.time ≠ 0 then
    if !c.counter.pressed then (⟨{ c.counter with time := 0 },c.cooked⟩,Flags.none)
    else (c,Flags.none)
  else (c,Flags.none)

/-- none.c: without `DEBOUNCE` the matrix is copied. -/
def noneCopy [DecidableEq α] : Passes γ α where
  maxElapsed := 0
  updateCounter := fun _ _ c => (c,Flags.none)
  transfer := fun raw c =>
    (⟨c.counter,raw⟩,{ Flags.none with cookedChanged := decide (c.cooked ≠ raw) })

/-- The `#if` of each file: with `DEBOUNCE` 0 it includes none.c. -/
def compiled [DecidableEq α] (DEBOUNCE : Nat) (p : Passes γ α) : Passes γ α :=
  if 0 < DEBOUNCE then p else noneCopy

/-- `DEBOUNCE` as the files define it again, with the greatest value of a counter. -/
def debounceMs (greatest DEBOUNCE : Nat) : Nat := min DEBOUNCE greatest

def symDeferPk (DEBOUNCE : Nat) : Passes UInt8 Bool where
  maxElapsed := 255
  updateCounter := updateAndTransferIfExpired
  transfer := startCounterPk (UInt8.ofNat (debounceMs 255 DEBOUNCE))

def symDeferPr (bits DEBOUNCE : Nat) : Passes UInt8 (BitVec bits) where
  maxElapsed := 255
  updateCounter := updateAndTransferIfExpired
  transfer := startCounterPr (UInt8.ofNat (debounceMs 255 DEBOUNCE))

def symEagerPk (DEBOUNCE : Nat) : Passes UInt8 Bool where
  maxElapsed := 255
  updateCounter := fun elapsedTime _ => updateCounter elapsedTime
  transfer := transferPk (UInt8.ofNat (debounceMs 255 DEBOUNCE))

def symEagerPr (bits DEBOUNCE : Nat) : Passes UInt8 (BitVec bits) where
  maxElapsed := 255
  updateCounter := fun elapsedTime _ => updateCounter elapsedTime
  transfer := transferPr (UInt8.ofNat (debounceMs 255 DEBOUNCE))

def asymEagerDeferPk (DEBOUNCE : Nat) : Passes AsymCounter Bool where
  maxElapsed := 127
  updateCounter := updateAsym
  transfer := transferAsym (BitVec.ofNat 7 (debounceMs 127 DEBOUNCE))

/-- A call of `debounce` by the matrix task. -/
structure Call (α ι : Type) (w : Nat) where
  raw : ι → α
  now : BitVec w

structure Run (γ α ι : Type) (w : Nat) extends State γ α ι w where
  raw : ι → α
  time : BitVec w
  returned : Bool

/-- The matrix before the first call. All counters have elapsed and nothing is debounced. -/
def start (zero : γ) (m : ι → α) : Run γ α ι w :=
  ⟨⟨fun k => ⟨zero,m k⟩,Flags.none,0⟩,m,0,false⟩

section Run
variable [DecidableEq ι] [Fintype ι] [DecidableEq α]

/-- `changed` is exactly that the raw matrix differs from that of the call before. -/
def call (p : Passes γ α) (order : LoopOrder ι) (r : Run γ α ι w) (c : Call α ι w) :
    Run γ α ι w :=
  let t := debounce p order c.raw c.now (decide (c.raw ≠ r.raw)) r.toState
  ⟨t.2,c.raw,c.now,t.1⟩

def run (p : Passes γ α) (order : LoopOrder ι) (r : Run γ α ι w) (calls : List (Call α ι w)) :
    Run γ α ι w :=
  calls.foldl (call p order) r

end Run

end QmkFirmware.Debounce
