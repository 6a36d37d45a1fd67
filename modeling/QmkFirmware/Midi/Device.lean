import Mathlib.Data.BitVec
import Mathlib.Data.List.Basic

/-!
Input of a MIDI device, a byte at a time: `midi_process_byte` collects the bytes of a message and
calls the callback for it. A real-time byte may stand between the bytes of any other message.
-/

set_option autoImplicit false

namespace QmkFirmware.MidiDevice

def midiCc : UInt8 := 0xB0
def midiNoteon : UInt8 := 0x90
def midiNoteoff : UInt8 := 0x80
def midiAftertouch : UInt8 := 0xA0
def midiPitchbend : UInt8 := 0xE0
def midiProgchange : UInt8 := 0xC0
def midiChanpressure : UInt8 := 0xD0
def midiClock : UInt8 := 0xF8
def midiTick : UInt8 := 0xF9
def midiStart : UInt8 := 0xFA
def midiContinue : UInt8 := 0xFB
def midiStop : UInt8 := 0xFC
def midiActivesense : UInt8 := 0xFE
def midiReset : UInt8 := 0xFF
def midiTcQuarterframe : UInt8 := 0xF1
def midiSongposition : UInt8 := 0xF2
def midiSongselect : UInt8 := 0xF3
def midiTunerequest : UInt8 := 0xF6
def sysexBegin : UInt8 := 0xF0
def sysexEnd : UInt8 := 0xF7

def midiIsStatusbyte (theByte : UInt8) : Bool := theByte &&& 0x80 ≠ 0

def midiIsRealtime (theByte : UInt8) : Bool := theByte ≥ midiClock

/-- `midi_packet_length_t`. -/
inductive PacketLength where
  | undefined
  | one
  | two
  | three
  deriving DecidableEq, Repr

/-- The song select among the channel messages is never met, as it is no multiple of sixteen. -/
def midiPacketLength (status : UInt8) : PacketLength :=
  if status &&& 0xF0 ∈ [midiCc,midiNoteon,midiNoteoff,midiAftertouch,midiPitchbend] then .three
  else if status &&& 0xF0 ∈ [midiProgchange,midiChanpressure,midiSongselect] then .two
  else if status &&& 0xF0 = 0xF0 then
    if status ∈ [midiClock,midiTick,midiStart,midiContinue,midiStop,midiActivesense,midiReset,
        midiTunerequest] then .one
    else if status = midiSongposition then .three
    else if status ∈ [midiTcQuarterframe,midiSongselect] then .two
    else .undefined
  else .undefined

/-- `input_state_t`. -/
inductive InputState where
  | idle
  | oneByteMessage
  | twoByteMessage
  | threeByteMessage
  | sysexMessage
  deriving DecidableEq, Repr

/-- The part of `MidiDevice` that collects a message. -/
structure Device where
  inputBuffer : Vector UInt8 3
  inputState : InputState
  inputCount : UInt16
  deriving DecidableEq, Repr

/-- The callbacks of a `MidiDevice`. -/
inductive Callback where
  | cc
  | noteon
  | noteoff
  | aftertouch
  | pitchbend
  | songposition
  | progchange
  | chanpressure
  | songselect
  | tcQuarterframe
  | realtime
  | tunerequest
  | sysex
  | fallthrough
  | catchall
  deriving DecidableEq, Repr

/-- A call of a callback. Of the three bytes that a system exclusive one is handed over it may read
as many as the length says. -/
inductive Call where
  | one (func : Callback) (byte : UInt8)
  | two (func : Callback) (byte0 byte1 : UInt8)
  | three (func : Callback) (byte0 byte1 byte2 : UInt8)
  | sysex (startByte : UInt16) (data : List UInt8)
  | var (func : Callback) (count : UInt16) (byte0 byte1 byte2 : UInt8)
  deriving DecidableEq, Repr

def Call.callback : Call → Callback
  | .one func _ | .two func _ _ | .three func _ _ _ | .var func _ _ _ _ => func
  | .sysex _ _ => .sysex

def threeByteFunc (byte0 : UInt8) : Option Callback :=
  if byte0 &&& 0xF0 = midiCc then some .cc
  else if byte0 &&& 0xF0 = midiNoteon then some .noteon
  else if byte0 &&& 0xF0 = midiNoteoff then some .noteoff
  else if byte0 &&& 0xF0 = midiAftertouch then some .aftertouch
  else if byte0 &&& 0xF0 = midiPitchbend then some .pitchbend
  else if byte0 &&& 0xF0 = 0xF0 then
    if byte0 = midiSongposition then some .songposition else none
  else none

def twoByteFunc (byte0 : UInt8) : Option Callback :=
  if byte0 &&& 0xF0 = midiProgchange then some .progchange
  else if byte0 &&& 0xF0 = midiChanpressure then some .chanpressure
  else if byte0 &&& 0xF0 = 0xF0 then
    if byte0 = midiSongselect then some .songselect
    else if byte0 = midiTcQuarterframe then some .tcQuarterframe
    else none
  else none

def oneByteFunc (byte0 : UInt8) : Option Callback :=
  if midiIsRealtime byte0 then some .realtime
  else if byte0 = midiTunerequest then some .tunerequest
  else none

/-- The call that `midi_input_callbacks` looks for first, and whose callback may be missing. -/
def specificCall (state : InputState) (cnt : UInt16) (byte0 byte1 byte2 : UInt8) : Option Call :=
  if state = .sysexMessage then
    -- `cnt - 1` is an int, and -1 is divided towards 0.
    let start := UInt16.ofNat ((cnt.toNat-1)/3*3)
    let length := (cnt-start).toUInt8
    some (.sysex start ([byte0,byte1,byte2].take length.toNat))
  else if cnt = 3 then
    (threeByteFunc byte0).map fun func =>
      .three func (if byte0 = midiSongposition then byte0 else byte0 &&& 0x0F) byte1 byte2
  else if cnt = 2 then
    (twoByteFunc byte0).map fun func =>
      .two func (if byte0 = midiSongselect ∨ byte0 = midiTcQuarterframe then byte0
        else byte0 &&& 0x0F) byte1
  else if cnt = 1 then (oneByteFunc byte0).map fun func => .one func byte0
  else none

section

variable (registered : Callback → Bool)

def midiInputCallbacks (state : InputState) (cnt : UInt16) (byte0 byte1 byte2 : UInt8) :
    List Call :=
  let called := (specificCall state cnt byte0 byte1 byte2).filter fun c => registered c.callback
  let cnt := if state ≠ .sysexMessage ∧ cnt > 3 then 0 else cnt
  called.toList
    ++ (if called.isNone && registered .fallthrough then
      [.var .fallthrough cnt byte0 byte1 byte2] else [])
    ++ if registered .catchall then [.var .catchall cnt byte0 byte1 byte2] else []

def Device.inputCallbacks (device : Device) : List Call :=
  midiInputCallbacks registered device.inputState device.inputCount device.inputBuffer[0]
    device.inputBuffer[1] device.inputBuffer[2]

def Device.store (device : Device) (input : UInt8) : Device :=
  { device with
    inputBuffer := device.inputBuffer.set (device.inputCount.toNat % 3) input
      (Nat.mod_lt _ (by decide))
    inputCount := device.inputCount+1 }

def processStatus (device : Device) (input : UInt8) : Device × List Call :=
  let device :=
    if device.inputState ≠ .sysexMessage then
      { device with inputBuffer := device.inputBuffer.set 0 input, inputCount := 1 }
    else device
  match midiPacketLength input with
  | .one =>
    ({ device with inputState := .idle },
      midiInputCallbacks registered .oneByteMessage 1 input 0 0)
  | .two => ({ device with inputState := .twoByteMessage },[])
  | .three => ({ device with inputState := .threeByteMessage },[])
  | .undefined =>
    if input = sysexBegin then
      (⟨device.inputBuffer.set 0 input,.sysexMessage,1⟩,[])
    else if input = sysexEnd then
      ({ device.store input with inputState := .idle },
        (device.store input).inputCallbacks registered)
    else ({ device with inputState := .idle, inputCount := 0 },[])

def processData (device : Device) (input : UInt8) : Device × List Call :=
  if device.inputState = .idle then (device,[])
  else
    let prev := device.inputCount
    let device := device.store input
    let keep := if device.inputState ≠ .sysexMessage then { device with inputCount := 1 } else device
    if prev % 3 = 2 then (keep,device.inputCallbacks registered)
    else if prev % 3 = 1 then
      if device.inputState = .twoByteMessage then
        (keep,midiInputCallbacks registered device.inputState device.inputCount
          device.inputBuffer[0] device.inputBuffer[1] 0)
      else (device,[])
    else (device,[])

def midiProcessByte (device : Device) (input : UInt8) : Device × List Call :=
  if midiIsRealtime input then
    (device,midiInputCallbacks registered .oneByteMessage 1 input 0 0)
  else if midiIsStatusbyte input then processStatus registered device input
  else processData registered device input

def processBytes (device : Device) : List UInt8 → Device × List Call
  | [] => (device,[])
  | input :: inputs =>
    let r := midiProcessByte registered device input
    let rest := processBytes r.1 inputs
    (rest.1,r.2 ++ rest.2)

end

/-- `midi_device_init`. -/
def Device.init : Device := ⟨Vector.replicate 3 0,.idle,0⟩

def Call.specific (c : Call) : Bool := c.callback ≠ .fallthrough ∧ c.callback ≠ .catchall

variable {registered : Callback → Bool}

theorem specificCall_cases {state : InputState} {cnt : UInt16} {byte0 byte1 byte2 : UInt8}
    {c : Call} (h : specificCall state cnt byte0 byte1 byte2 = some c) : c.specific = true
      ∧ (c.callback = .realtime →
        state ≠ .sysexMessage ∧ cnt = 1 ∧ midiIsRealtime byte0 = true) := by
  unfold specificCall threeByteFunc twoByteFunc oneByteFunc at h
  split at h
  · cases h
    exact ⟨rfl,nofun⟩
  · next hstate =>
    split at h
    · rw [Option.map_eq_some_iff] at h
      obtain ⟨f,hf,rfl⟩ := h
      split_ifs at hf <;> cases hf <;> exact ⟨rfl,nofun⟩
    · split at h
      · rw [Option.map_eq_some_iff] at h
        obtain ⟨f,hf,rfl⟩ := h
        split_ifs at hf <;> cases hf <;> exact ⟨rfl,nofun⟩
      · split at h
        · next hone =>
          rw [Option.map_eq_some_iff] at h
          obtain ⟨f,hf,rfl⟩ := h
          split at hf
          · next hbyte =>
            cases hf
            exact ⟨rfl,fun _ => ⟨hstate,hone,hbyte⟩⟩
          · split_ifs at hf
            cases hf
            exact ⟨rfl,nofun⟩
        · cases h

theorem filter_midiInputCallbacks (state : InputState) (cnt : UInt16)
    (byte0 byte1 byte2 : UInt8) :
    (midiInputCallbacks registered state cnt byte0 byte1 byte2).filter Call.specific
      = (specificCall state cnt byte0 byte1 byte2).toList.filter
        fun c => registered c.callback := by
  have hrest (b : Bool) (f : Callback) (hf : f = .fallthrough ∨ f = .catchall) (cnt : UInt16) :
      (if b then [Call.var f cnt byte0 byte1 byte2] else []).filter Call.specific = [] := by
    rcases hf with rfl | rfl <;> cases b <;> rfl
  rw [midiInputCallbacks, List.filter_append, List.filter_append, hrest _ _ (.inl rfl),
    hrest _ _ (.inr rfl), List.append_nil, List.append_nil]
  cases h : specificCall state cnt byte0 byte1 byte2 with
  | none => rfl
  | some c =>
    have hc := (specificCall_cases h).1
    cases hr : registered c.callback <;> simp [Option.filter, hr, hc]

theorem no_realtime {state : InputState} {cnt : UInt16} {byte0 byte1 byte2 : UInt8}
    (h : state = .sysexMessage ∨ cnt ≠ 1 ∨ midiIsRealtime byte0 = false) {c : Call}
    (hc : c ∈ midiInputCallbacks registered state cnt byte0 byte1 byte2) :
    c.callback ≠ .realtime := by
  rw [midiInputCallbacks, List.mem_append, List.mem_append] at hc
  rcases hc with (hc | hc) | hc
  · intro hrealtime
    have hcall := (Option.filter_eq_some_iff.mp (Option.mem_toList.mp hc)).1
    obtain ⟨hstate,hone,hbyte⟩ := (specificCall_cases hcall).2 hrealtime
    rcases h with h | h | h
    · exact hstate h
    · exact h hone
    · exact Bool.false_ne_true (h.symm.trans hbyte)
  · split at hc
    · rw [List.mem_singleton.mp hc]
      nofun
    · cases hc
  · split at hc
    · rw [List.mem_singleton.mp hc]
      nofun
    · cases hc

theorem Device.no_realtime {device : Device} (h : device.inputState = .sysexMessage
    ∨ device.inputCount ≠ 1) {c : Call} (hc : c ∈ device.inputCallbacks registered) :
    c.callback ≠ .realtime :=
  MidiDevice.no_realtime (h.imp_right .inl) hc

theorem processStatus_no_realtime {device : Device} {input : UInt8}
    (hinput : midiIsRealtime input = false) {c : Call}
    (hc : c ∈ (processStatus registered device input).2) : c.callback ≠ .realtime := by
  rw [processStatus] at hc
  split at hc
  · exact no_realtime (.inr (.inr hinput)) hc
  · cases hc
  · cases hc
  · split at hc
    · cases hc
    · split at hc
      · refine Device.no_realtime ?_ hc
        by_cases hstate : device.inputState = .sysexMessage
        · exact .inl (by simp [hstate, Device.store])
        · exact .inr (by simp [hstate, Device.store])
      · cases hc

theorem processData_no_realtime {device : Device} {input : UInt8} {c : Call}
    (hc : c ∈ (processData registered device input).2) : c.callback ≠ .realtime := by
  have hcount {k : UInt16} (hk : k ≠ 0) (h : device.inputCount % 3 = k) :
      (device.store input).inputCount ≠ 1 := by
    intro hone
    have hzero : device.inputCount = 0 := by
      simpa [Device.store] using hone
    exact hk (by rw [← h, hzero]; rfl)
  rw [processData] at hc
  dsimp only at hc
  split at hc
  · cases hc
  · split at hc
    · next h => exact Device.no_realtime (.inr (hcount (by decide) h)) hc
    · split at hc
      · next h =>
        split at hc
        · exact no_realtime (.inr (.inl (hcount (by decide) h))) hc
        · cases hc
      · cases hc

/-- The calls for messages that are not real-time ones. -/
def Call.plain (c : Call) : Bool := c.specific && c.callback ≠ .realtime

theorem filter_plain (cs : List Call) :
    cs.filter Call.plain = (cs.filter Call.specific).filter (·.callback ≠ .realtime) := by
  rw [List.filter_filter]
  exact List.filter_congr fun c _ => Bool.and_comm ..

theorem filter_realtime (cs : List Call) :
    cs.filter (·.callback = .realtime)
      = (cs.filter Call.specific).filter (·.callback = .realtime) := by
  rw [List.filter_filter]
  refine List.filter_congr fun c _ => ?_
  by_cases h : c.callback = .realtime <;> simp [Call.specific, h]

theorem midiProcessByte_no_realtime {device : Device} {input : UInt8}
    (hinput : midiIsRealtime input = false) {c : Call}
    (hc : c ∈ (midiProcessByte registered device input).2) : c.callback ≠ .realtime := by
  rw [midiProcessByte, hinput, if_neg Bool.false_ne_true] at hc
  split at hc
  · exact processStatus_no_realtime hinput hc
  · exact processData_no_realtime hc

theorem midiProcessByte_realtime {input : UInt8} (hinput : midiIsRealtime input = true)
    (device : Device) : (midiProcessByte registered device input).1 = device
      ∧ (midiProcessByte registered device input).2.filter Call.specific
        = if registered .realtime then [.one .realtime input] else [] := by
  rw [midiProcessByte, if_pos hinput]
  refine ⟨rfl,?_⟩
  rw [filter_midiInputCallbacks]
  cases h : registered .realtime <;> simp [specificCall, oneByteFunc, hinput, h, Call.callback]

/-- Real-time bytes are told of one by one, and the other messages and the state of the device are
as if they were not there. -/
theorem realtime_transparent (device : Device) (inputs : List UInt8) :
    let r := processBytes registered device inputs
    let r' := processBytes registered device (inputs.filter (!midiIsRealtime ·))
    r.1 = r'.1 ∧ r.2.filter Call.plain = r'.2.filter Call.plain
      ∧ r.2.filter (·.callback = .realtime) = if registered .realtime
        then (inputs.filter midiIsRealtime).map (.one .realtime) else [] := by
  induction inputs generalizing device with
  | nil => simp [processBytes]
  | cons input inputs ih =>
    cases hinput : midiIsRealtime input with
    | true =>
      obtain ⟨hdevice,hplain,hrealtime⟩ := ih device
      obtain ⟨hkeep,hcall⟩ := @midiProcessByte_realtime registered _ hinput device
      have hnone : (midiProcessByte registered device input).2.filter Call.plain = [] := by
        rw [filter_plain, hcall]
        split <;> rfl
      simp only [processBytes, hkeep, List.filter_cons, hinput, List.filter_append, hnone]
      refine ⟨hdevice,hplain,?_⟩
      rw [filter_realtime, hcall, hrealtime]
      split <;> rfl
    | false =>
      obtain ⟨hdevice,hplain,hrealtime⟩ := ih (midiProcessByte registered device input).1
      have hnone : (midiProcessByte registered device input).2.filter (·.callback = .realtime)
          = [] := List.filter_eq_nil_iff.mpr fun c hc => by
        simpa using midiProcessByte_no_realtime hinput hc
      simp only [List.filter_cons, hinput, Bool.not_false, if_true, processBytes,
        List.filter_append, hnone]
      exact ⟨hdevice,congrArg _ hplain,hrealtime⟩

end QmkFirmware.MidiDevice
