import Mathlib.Data.List.Basic
import Mathlib.Data.UInt
import QmkFirmware.Lib.Timetable

/-!
`deferred_exec.c`: a table of executors, the operations on it, and the task that runs what is due.
A callback is what happens between its call and its return.
-/

set_option autoImplicit false

namespace QmkFirmware.DeferredExec

/-- `deferred_executor_t`, for any callbacks and arguments. -/
structure Executor (C A : Type) where
  token : UInt8
  triggerTime : UInt32
  callback : Option C
  cbArg : Option A
  deriving DecidableEq, Repr

variable {C A : Type}

def Executor.cleared : Executor C A := ⟨0,0,none,none⟩

abbrev Table (C A : Type) := List (Executor C A)

def tokenCanBeUsed (table : Table C A) (token : UInt8) : Bool :=
  token ≠ 0 && table.all fun e => e.token ≠ token

/-- The loop of `allocate_token`: its result, and `current_token` behind it. -/
def allocateLoop (table : Table C A) (first : UInt8) : Nat → UInt8 → UInt8 × UInt8
  | 0, current => (0,current)
  | fuel+1, current =>
    if tokenCanBeUsed table current then (current,current)
    else if current+1 = first then (0,current+1)
    else allocateLoop table first fuel (current+1)

def allocateToken (table : Table C A) (current : UInt8) : UInt8 × UInt8 :=
  allocateLoop table (current+1) 256 (current+1)

/-- The first entry with this token; 0 is that of a free one. -/
def slot (table : Table C A) (token : UInt8) : Option Nat :=
  table.findIdx? fun e => e.token = token

/-- The token, `current_token` and the table behind the call. -/
def deferExecAdvanced (table : Table C A) (current : UInt8) (now delayMs : UInt32)
    (callback : Option C) (cbArg : Option A) : UInt8 × UInt8 × Table C A :=
  if table = [] ∨ delayMs = 0 ∨ callback = none then (0,current,table) else
  match slot table 0 with
  | none => (0,current,table)
  | some i =>
    let r := allocateToken table current
    if r.1 = 0 then (0,r.2,table)
    else (r.2,r.2,table.set i ⟨r.2,now+delayMs,callback,cbArg⟩)

def extendDeferredExecAdvanced (table : Table C A) (now : UInt32) (token : UInt8)
    (delayMs : UInt32) : Bool × Table C A :=
  if table = [] ∨ delayMs = 0 ∨ token = 0 then (false,table) else
  match slot table token with
  | none => (false,table)
  | some i => (true,table.modify i fun e => { e with triggerTime := now+delayMs })

def cancelDeferredExecAdvanced (table : Table C A) (token : UInt8) : Bool × Table C A :=
  if table = [] ∨ token = 0 then (false,table) else
  match slot table token with
  | none => (false,table)
  | some i => (true,table.set i .cleared)

/-- `(int32_t)TIMER_DIFF_32(a, b)`. -/
def timerDiff (a b : UInt32) : Int := (a-b).toBitVec.toInt

/-- The loop of the task: `now`, `i`, and `curr_token` while a callback runs. -/
structure Execution where
  now : Nat
  index : Nat
  running : Option UInt8
  deriving DecidableEq, Repr

/-- A table, the counter that all tables share, and the time, which `timer_read32` cuts to 32
bits. -/
structure Machine (C A : Type) where
  table : Table C A
  currentToken : UInt8
  time : Nat
  lastExecutionTime : UInt32
  task : Option Execution
  deriving DecidableEq, Repr

def Machine.timerRead (m : Machine C A) : UInt32 := UInt32.ofNat m.time

inductive Input (C A : Type) where
  | wait (ms : Nat)
  | otherTable (currentToken : UInt8)
  | defer (delayMs : UInt32) (callback : Option C) (cbArg : Option A)
  | extend (token : UInt8) (delayMs : UInt32)
  | cancel (token : UInt8)
  | task
  | check
  | finish (delayMs : UInt32)
  deriving DecidableEq, Repr

def Machine.Callable (m : Machine C A) : Prop := ∀ t, m.task = some t → t.running.isSome

instance (m : Machine C A) : Decidable m.Callable :=
  match h : m.task with
  | none => .isTrue fun t ht => by rw [h] at ht; cases ht
  | some t => decidable_of_iff t.running.isSome
    ⟨fun ht t' ht' => by rw [h] at ht'; cases ht'; exact ht,fun ht => ht t h⟩

/-- What is seen of a step: the slots, and a callback with its argument. -/
abbrev Event (C A : Type) := Timetable.Event Nat (Option C × Option A)

/-- One turn of the loop, up to the callback. -/
def check (m : Machine C A) (t : Execution) : Machine C A × List (Event C A) :=
  match m.table[t.index]? with
  | none => ({ m with task := none },[])
  | some entry =>
    if entry.token ≠ 0 ∧ timerDiff entry.triggerTime (UInt32.ofNat t.now) ≤ 0 then
      ({ m with task := some { t with running := some entry.token } },
        [.invoked t.index (entry.callback,entry.cbArg) t.now])
    else ({ m with task := some { t with index := t.index+1 } },[])

/-- The rest of the turn, behind the callback. -/
def returned (m : Machine C A) (t : Execution) (currToken : UInt8) (delayMs : UInt32) :
    Machine C A × List (Event C A) :=
  let task := some { t with index := t.index+1, running := none }
  match m.table[t.index]? with
  | none => ({ m with task := task },[])
  | some entry =>
    if entry.token ≠ currToken then ({ m with task := task },[])
    else
      ({ m with
          table := m.table.set t.index (if 0 < delayMs then
            { entry with triggerTime := entry.triggerTime+delayMs } else .cleared)
          task := task },
        [.returned t.index delayMs.toNat])

/-- A step, where it is possible. -/
def step (m : Machine C A) : Input C A → Machine C A × List (Event C A)
  | .wait ms => ({ m with time := m.time+ms },[])
  | .otherTable currentToken => ({ m with currentToken := currentToken },[])
  | .defer delayMs callback cbArg =>
    if m.Callable then
      let r := deferExecAdvanced m.table m.currentToken m.timerRead delayMs callback cbArg
      ({ m with table := r.2.2, currentToken := r.2.1 },
        if r.1 = 0 then [] else (slot m.table 0).toList.map fun i =>
          .deferred i (callback,cbArg) m.time delayMs.toNat)
    else (m,[])
  | .extend token delayMs =>
    if m.Callable then
      let r := extendDeferredExecAdvanced m.table m.timerRead token delayMs
      ({ m with table := r.2 },
        if r.1 then (slot m.table token).toList.map fun i => .extended i m.time delayMs.toNat
        else [])
    else (m,[])
  | .cancel token =>
    if m.Callable then
      let r := cancelDeferredExecAdvanced m.table token
      ({ m with table := r.2 },
        if r.1 then (slot m.table token).toList.map fun i => .cancelled i else [])
    else (m,[])
  | .task =>
    if m.task = none ∧ 0 < timerDiff m.timerRead m.lastExecutionTime then
      ({ m with lastExecutionTime := m.timerRead, task := some ⟨m.time,0,none⟩ },[])
    else (m,[])
  | .check =>
    match m.task with
    | some t => if t.running = none then check m t else (m,[])
    | none => (m,[])
  | .finish delayMs =>
    match m.task with
    | some t => match t.running with
      | some currToken => returned m t currToken delayMs
      | none => (m,[])
    | none => (m,[])

/-- The machine, and the jobs as the events tell them. -/
abbrev State (C A : Type) := Machine C A × Timetable.Jobs Nat (Option C × Option A)

def advance (s : State C A) (input : Input C A) : State C A :=
  ((step s.1 input).1,(step s.1 input).2.foldl Timetable.next s.2)

/-- The events of a run. -/
def events (m : Machine C A) : List (Input C A) → List (Event C A)
  | [] => []
  | input :: inputs => (step m input).2 ++ events (step m input).1 inputs

/-- A table of free entries. -/
def start (count : Nat) (currentToken : UInt8) (time : Nat) (lastExecutionTime : UInt32) :
    State C A :=
  (⟨List.replicate count .cleared,currentToken,time,lastExecutionTime,none⟩,fun _ => none)

end QmkFirmware.DeferredExec
