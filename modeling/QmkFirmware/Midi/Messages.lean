import QmkFirmware.Midi.Usb

/-!
The messages of one MIDI device, as the callbacks of the other are told of them.
-/

set_option autoImplicit false

namespace QmkFirmware.MidiDevice

structure Sysex where
  data : List UInt8
  sevenBit : ∀ b ∈ data, b < 0x80
  length_lt : data.length+2 < 2^16

inductive Message where
  | cc (chan num val : UInt8)
  | noteon (chan num vel : UInt8)
  | noteoff (chan num vel : UInt8)
  | aftertouch (chan noteNum amt : UInt8)
  | pitchbend (chan : UInt8) (amt : Int16)
  | programchange (chan num : UInt8)
  | channelpressure (chan amt : UInt8)
  | tcquarterframe (time : UInt8)
  | songposition (pos : UInt16)
  | songselect (song : UInt8)
  | tunerequest
  | sysex (x : Sysex)

def Message.sends : Message → List Send
  | .cc chan num val => [midiSendCc chan num val]
  | .noteon chan num vel => [midiSendNoteon chan num vel]
  | .noteoff chan num vel => [midiSendNoteoff chan num vel]
  | .aftertouch chan noteNum amt => [midiSendAftertouch chan noteNum amt]
  | .pitchbend chan amt => [midiSendPitchbend chan amt]
  | .programchange chan num => [midiSendProgramchange chan num]
  | .channelpressure chan amt => [midiSendChannelpressure chan amt]
  | .tcquarterframe time => [midiSendTcquarterframe time]
  | .songposition pos => [midiSendSongposition pos]
  | .songselect song => [midiSendSongselect song]
  | .tunerequest => [midiSendTunerequest]
  | .sysex x => midiSendArray (sysexBegin :: (x.data ++ [sysexEnd]))

def sysexCalls (startByte : Nat) : List UInt8 → List Call
  | byte0 :: byte1 :: byte2 :: bytes =>
    .sysex (UInt16.ofNat startByte) [byte0,byte1,byte2] :: sysexCalls (startByte+3) bytes
  | [] => []
  | bytes => [.sysex (UInt16.ofNat startByte) bytes]

/-- A channel has four bits, and data seven; the pitch bend is told of from the lowest on. -/
def Message.calls : Message → List Call
  | .cc chan num val => [.three .cc (chan % 16) (num % 128) (val % 128)]
  | .noteon chan num vel => [.three .noteon (chan % 16) (num % 128) (vel % 128)]
  | .noteoff chan num vel => [.three .noteoff (chan % 16) (num % 128) (vel % 128)]
  | .aftertouch chan noteNum amt => [.three .aftertouch (chan % 16) (noteNum % 128) (amt % 128)]
  | .pitchbend chan amt =>
    let bend := (max (-8192) (min 8191 amt.toInt)+8192).toNat
    [.three .pitchbend (chan % 16) (UInt8.ofNat (bend % 128)) (UInt8.ofNat (bend / 128))]
  | .programchange chan num => [.two .progchange (chan % 16) (num % 128)]
  | .channelpressure chan amt => [.two .chanpressure (chan % 16) (amt % 128)]
  | .tcquarterframe time => [.two .tcQuarterframe midiTcQuarterframe (time % 128)]
  | .songposition pos =>
    [.three .songposition midiSongposition (UInt8.ofNat (pos.toNat % 128))
      (UInt8.ofNat (pos.toNat / 128 % 128))]
  | .songselect song => [.two .songselect midiSongselect (song % 128)]
  | .tunerequest => [.one .tunerequest midiTunerequest]
  | .sysex x => sysexCalls 0 (sysexBegin :: (x.data ++ [sysexEnd]))

variable {registered : Callback → Bool}

def Status (b : UInt8) (length : PacketLength) : Prop :=
  midiIsRealtime b = false ∧ midiIsStatusbyte b = true ∧ midiPacketLength b = length

instance Status.decidable (b : UInt8) (length : PacketLength) : Decidable (Status b length) :=
  inferInstanceAs (Decidable (_ ∧ _ ∧ _))

theorem and_15 (x : UInt8) : x &&& 0x0F = x % 16 := by
  refine UInt8.toNat_inj.mp ?_
  rw [UInt8.toNat_and, UInt8.toNat_mod]
  exact Nat.and_two_pow_sub_one_eq_mod x.toNat 4

theorem and_127 (x : UInt8) : x &&& 0x7F = x % 128 := by
  refine UInt8.toNat_inj.mp ?_
  rw [UInt8.toNat_and, UInt8.toNat_mod]
  exact Nat.and_two_pow_sub_one_eq_mod x.toNat 7

theorem mod_lt_128 (x : UInt8) : x % 128 < 0x80 := by
  rw [UInt8.lt_iff_toNat_lt, UInt8.toNat_mod]
  exact Nat.mod_lt _ (by decide)

theorem data_byte {b : UInt8} (h : b < 0x80) : midiIsRealtime b = false
    ∧ midiIsStatusbyte b = false ∧ midiPacketLength b = .undefined := by
  have hall : ∀ n : Fin 128, midiIsRealtime (UInt8.ofNat n) = false
      ∧ midiIsStatusbyte (UInt8.ofNat n) = false
      ∧ midiPacketLength (UInt8.ofNat n) = .undefined := by decide +kernel
  have hb : b.toNat < 128 := UInt8.lt_iff_toNat_lt.mp h
  have := hall ⟨b.toNat,hb⟩
  rwa [UInt8.ofNat_toNat] at this

theorem ofNat_mod_16 (chan : UInt8) : UInt8.ofNat (chan.toNat % 16) = chan % 16 := by
  rw [← UInt8.toNat_inj, UInt8.toNat_mod]
  simp
  omega

theorem status_three : ∀ c : Fin 16, ∀ s ∈ [midiCc,midiNoteon,midiNoteoff,midiAftertouch,
    midiPitchbend], let b := s ||| UInt8.ofNat c
    Status b .three ∧ threeByteFunc b = threeByteFunc s ∧ b ≠ midiSongposition
      ∧ b &&& 0x0F = UInt8.ofNat c := by decide +kernel

variable {device : Device}

theorem three_bytes (hdevice : device.inputState ≠ .sysexMessage) {b x y : UInt8}
    (hb : Status b .three) (hx : x < 0x80) (hy : y < 0x80) :
    (processBytes registered device [b,x,y]).1.inputState ≠ .sysexMessage
      ∧ (processBytes registered device [b,x,y]).2
        = midiInputCallbacks registered .threeByteMessage 3 b x y := by
  obtain ⟨hreal,hstatus,hlength⟩ := hb
  obtain ⟨hxreal,hxdata,-⟩ := data_byte hx
  obtain ⟨hyreal,hydata,-⟩ := data_byte hy
  simp [processBytes, midiProcessByte, processStatus, processData, hreal, hstatus, hlength, hxreal,
    hxdata, hyreal, hydata, hdevice, Device.store, Device.inputCallbacks]

theorem two_bytes (hdevice : device.inputState ≠ .sysexMessage) {b x : UInt8}
    (hb : Status b .two) (hx : x < 0x80) :
    (processBytes registered device [b,x]).1.inputState ≠ .sysexMessage
      ∧ (processBytes registered device [b,x]).2
        = midiInputCallbacks registered .twoByteMessage 2 b x 0 := by
  obtain ⟨hreal,hstatus,hlength⟩ := hb
  obtain ⟨hxreal,hxdata,-⟩ := data_byte hx
  simp [processBytes, midiProcessByte, processStatus, processData, hreal, hstatus, hlength, hxreal,
    hxdata, hdevice, Device.store]

theorem one_byte (hdevice : device.inputState ≠ .sysexMessage) {b : UInt8} (hb : Status b .one) :
    (processBytes registered device [b]).1.inputState ≠ .sysexMessage
      ∧ (processBytes registered device [b]).2
        = midiInputCallbacks registered .oneByteMessage 1 b 0 0 := by
  obtain ⟨hreal,hstatus,hlength⟩ := hb
  simp [processBytes, midiProcessByte, processStatus, hreal, hstatus, hlength, hdevice]

theorem plain_call {state : InputState} {cnt : UInt16} {byte0 byte1 byte2 : UInt8} {c : Call}
    (h : specificCall state cnt byte0 byte1 byte2 = some c) (hc : c.callback ≠ .realtime) :
    (midiInputCallbacks registered state cnt byte0 byte1 byte2).filter Call.plain
      = [c].filter fun c => registered c.callback := by
  rw [filter_plain, filter_midiInputCallbacks, h, Option.toList_some]
  cases hr : registered c.callback <;> simp [hr, hc]

/-- Between two messages the calls of `send_func` make the receiver call its callbacks, as far as
they are registered, and leave it between two messages. -/
structure Delivers (registered : Callback → Bool) (sends : List Send) (calls : List Call) :
    Prop where
  no_realtime : ∀ b ∈ sends.flatMap Send.received, midiIsRealtime b = false
  between : ∀ device : Device, device.inputState ≠ .sysexMessage →
    (processBytes registered device (sends.flatMap Send.received)).1.inputState ≠ .sysexMessage
  calls : ∀ device : Device, device.inputState ≠ .sysexMessage →
    (processBytes registered device (sends.flatMap Send.received)).2.filter Call.plain
      = calls.filter fun c => registered c.callback

theorem Delivers.nil : Delivers registered [] [] := ⟨nofun,fun _ h => h,fun _ _ => rfl⟩

theorem Delivers.append {sends sends' : List Send} {calls calls' : List Call}
    (h : Delivers registered sends calls) (h' : Delivers registered sends' calls') :
    Delivers registered (sends ++ sends') (calls ++ calls') where
  no_realtime b hb := by
    rw [List.flatMap_append, List.mem_append] at hb
    exact hb.elim (h.no_realtime b) (h'.no_realtime b)
  between device hdevice := by
    rw [List.flatMap_append, processBytes_append]
    exact h'.between _ (h.between device hdevice)
  calls device hdevice := by
    rw [List.flatMap_append, processBytes_append, List.filter_append, List.filter_append,
      h.calls device hdevice, h'.calls _ (h.between device hdevice)]

theorem received_three {b x y : UInt8} (h : midiPacketLength b = .three) :
    Send.received ⟨3,b,x,y⟩ = [b,x,y] := by
  simp only [Send.received, usbSendFunc, h]
  split_ifs <;> simp [usbGetMidi, h]

theorem received_two {b x y : UInt8} (h : midiPacketLength b = .two) :
    Send.received ⟨2,b,x,y⟩ = [b,x] := by
  simp only [Send.received, usbSendFunc, h]
  split_ifs <;> simp [usbGetMidi, h]

theorem received_one {b x y : UInt8} (h : midiPacketLength b = .one) :
    Send.received ⟨1,b,x,y⟩ = [b] := by
  simp only [Send.received, usbSendFunc, h]
  split_ifs <;> simp [usbGetMidi, h]

theorem delivers_three {b x y : UInt8} {c : Call} (hb : Status b .three) (hx : x < 0x80)
    (hy : y < 0x80) (hcall : specificCall .threeByteMessage 3 b x y = some c)
    (hc : c.callback ≠ .realtime) : Delivers registered [⟨3,b,x,y⟩] [c] := by
  refine ⟨?_,?_,?_⟩ <;> simp only [List.flatMap_singleton, received_three hb.2.2]
  · simp [hb.1, (data_byte hx).1, (data_byte hy).1]
  · exact fun device hdevice => (three_bytes hdevice hb hx hy).1
  · intro device hdevice
    rw [(three_bytes hdevice hb hx hy).2, plain_call hcall hc]

theorem delivers_two {b x : UInt8} {c : Call} (hb : Status b .two) (hx : x < 0x80)
    (hcall : specificCall .twoByteMessage 2 b x 0 = some c) (hc : c.callback ≠ .realtime) :
    Delivers registered [⟨2,b,x,0⟩] [c] := by
  refine ⟨?_,?_,?_⟩ <;> simp only [List.flatMap_singleton, received_two hb.2.2]
  · simp [hb.1, (data_byte hx).1]
  · exact fun device hdevice => (two_bytes hdevice hb hx).1
  · intro device hdevice
    rw [(two_bytes hdevice hb hx).2, plain_call hcall hc]

theorem delivers_one {b : UInt8} {c : Call} (hb : Status b .one)
    (hcall : specificCall .oneByteMessage 1 b 0 0 = some c) (hc : c.callback ≠ .realtime) :
    Delivers registered [⟨1,b,0,0⟩] [c] := by
  refine ⟨?_,?_,?_⟩ <;> simp only [List.flatMap_singleton, received_one hb.2.2]
  · simp [hb.1]
  · exact fun device hdevice => (one_byte hdevice hb).1
  · intro device hdevice
    rw [(one_byte hdevice hb).2, plain_call hcall hc]

theorem channel_three {s chan : UInt8} (hs : s ∈ [midiCc,midiNoteon,midiNoteoff,midiAftertouch,
    midiPitchbend]) : let b := s ||| (chan &&& midiChanmask)
    Status b .three ∧ threeByteFunc b = threeByteFunc s ∧ b ≠ midiSongposition
      ∧ b &&& 0x0F = chan % 16 := by
  have h := status_three ⟨chan.toNat % 16,Nat.mod_lt _ (by decide)⟩ s hs
  simpa only [ofNat_mod_16, midiChanmask, and_15] using h

theorem delivers_channel_three {s chan x y : UInt8} {f : Callback} (hs : s ∈ [midiCc,midiNoteon,
    midiNoteoff,midiAftertouch,midiPitchbend]) (hf : threeByteFunc s = some f)
    (hreal : f ≠ .realtime) (hx : x < 0x80) (hy : y < 0x80) :
    Delivers registered [⟨3,s ||| (chan &&& midiChanmask),x,y⟩] [.three f (chan % 16) x y] := by
  obtain ⟨hb,hfunc,hposition,hchan⟩ := @channel_three s chan hs
  refine delivers_three hb hx hy ?_ hreal
  simp [specificCall, hfunc, hf, hposition, hchan]

theorem status_two : ∀ c : Fin 16, ∀ s ∈ [midiProgchange,midiChanpressure],
    let b := s ||| UInt8.ofNat c
    Status b .two ∧ twoByteFunc b = twoByteFunc s ∧ b ≠ midiSongselect ∧ b ≠ midiTcQuarterframe
      ∧ b &&& 0x0F = UInt8.ofNat c := by decide +kernel

theorem channel_two {s chan : UInt8} (hs : s ∈ [midiProgchange,midiChanpressure]) :
    let b := s ||| (chan &&& midiChanmask)
    Status b .two ∧ twoByteFunc b = twoByteFunc s ∧ b ≠ midiSongselect ∧ b ≠ midiTcQuarterframe
      ∧ b &&& 0x0F = chan % 16 := by
  have h := status_two ⟨chan.toNat % 16,Nat.mod_lt _ (by decide)⟩ s hs
  simpa only [ofNat_mod_16, midiChanmask, and_15] using h

theorem delivers_channel_two {s chan x : UInt8} {f : Callback}
    (hs : s ∈ [midiProgchange,midiChanpressure]) (hf : twoByteFunc s = some f)
    (hreal : f ≠ .realtime) (hx : x < 0x80) :
    Delivers registered [⟨2,s ||| (chan &&& midiChanmask),x,0⟩] [.two f (chan % 16) x] := by
  obtain ⟨hb,hfunc,hselect,hframe,hchan⟩ := @channel_two s chan hs
  refine delivers_two hb hx ?_ hreal
  simp [specificCall, hfunc, hf, hselect, hframe, hchan]

theorem received_array {l : List UInt8} (hl : ∀ b ∈ l, midiPacketLength b = .undefined) :
    (midiSendArray (l ++ [sysexEnd])).flatMap Send.received = l ++ [sysexEnd] := by
  match l with
  | [] => decide
  | [a] =>
    have ha := hl a (by simp)
    simp [midiSendArray, Send.received, usbSendFunc, usbGetMidi, ha]
    decide
  | [a,b] =>
    have ha := hl a (by simp)
    simp [midiSendArray, Send.received, usbSendFunc, usbGetMidi, ha]
  | a :: b :: c :: l =>
    have ha := hl a (by simp)
    have hrest := received_array (l := l) fun b hb => hl b (by simp [hb])
    simp only [List.cons_append, midiSendArray, List.flatMap_cons, hrest]
    simp only [Send.received, usbSendFunc, ha]
    by_cases hc : c = sysexEnd <;> simp [usbGetMidi, ha, hc]

/-- The first `k` calls have been made, and the bytes since are in the buffer. -/
structure Collecting (device : Device) (k : Nat) (pending : List UInt8) : Prop where
  state : device.inputState = .sysexMessage
  count : device.inputCount.toNat = 3*k+pending.length
  short : pending.length < 3
  buffer : device.inputBuffer.toList.take pending.length = pending

theorem sysex_call {cnt : UInt16} {k : Nat} {byte0 byte1 byte2 : UInt8} {j : Nat}
    (hcnt : cnt.toNat = 3*k+j) (hj : 0 < j) (hj' : j ≤ 3) :
    specificCall .sysexMessage cnt byte0 byte1 byte2
      = some (.sysex (UInt16.ofNat (3*k)) ([byte0,byte1,byte2].take j)) := by
  have hlt := cnt.toNat_lt
  have hk : (UInt16.ofNat (3*k)).toNat = 3*k := by
    rw [UInt16.toNat_ofNat']
    omega
  have hstart : (cnt.toNat-1)/3*3 = 3*k := by omega
  have hlength : (cnt-UInt16.ofNat (3*k)).toUInt8.toNat = j := by
    rw [UInt16.toNat_toUInt8, UInt16.toNat_sub_of_le _ _ (UInt16.le_iff_toNat_le.mpr (by omega)), hk,
      hcnt]
    omega
  rw [specificCall, if_pos rfl]
  simp only [hstart, hlength]

theorem store_take (device : Device) (b : UInt8) :
    (device.store b).inputBuffer.toList.take (device.inputCount.toNat % 3+1)
      = device.inputBuffer.toList.take (device.inputCount.toNat % 3) ++ [b] := by
  have hlt : device.inputCount.toNat % 3 < device.inputBuffer.toList.length := by
    simpa using Nat.mod_lt _ (by decide)
  simp only [Device.store, Vector.toList_set]
  rw [List.take_add_one, List.take_set_of_le (Nat.le_refl _), List.getElem?_set_self hlt]
  rfl

theorem Collecting.stored {k : Nat} {pending : List UInt8} (h : Collecting device k pending)
    (hroom : 3*k+pending.length+1 < 2^16) (b : UInt8) :
    (device.store b).inputState = .sysexMessage
      ∧ (device.store b).inputCount.toNat = 3*k+(pending.length+1)
      ∧ (device.store b).inputBuffer.toList.take (pending.length+1) = pending ++ [b] := by
  have hcount := h.count
  have hshort := h.short
  have hmod : device.inputCount.toNat % 3 = pending.length := by omega
  have htake := store_take device b
  rw [hmod, h.buffer] at htake
  refine ⟨h.state,?_,htake⟩
  rw [Device.store, UInt16.toNat_add, hcount]
  exact Nat.mod_eq_of_lt hroom

theorem Collecting.call {k : Nat} {pending : List UInt8} (h : Collecting device k pending)
    (hroom : 3*k+pending.length+1 < 2^16) (b : UInt8) :
    ((device.store b).inputCallbacks registered).filter Call.plain
      = [Call.sysex (UInt16.ofNat (3*k)) (pending ++ [b])].filter
        fun c => registered c.callback := by
  obtain ⟨hstate,hcount,hbuffer⟩ := h.stored hroom b
  have hlist (v : Vector UInt8 3) : [v[0],v[1],v[2]] = v.toList := by
    refine List.ext_getElem (by simp) fun i hi hi' => ?_
    match i with
    | 0 | 1 | 2 => simp
  rw [Device.inputCallbacks, hstate]
  refine plain_call ?_ nofun
  rw [sysex_call hcount (Nat.succ_pos _) h.short, hlist, hbuffer]

theorem Collecting.data {k : Nat} {pending : List UInt8} (h : Collecting device k pending)
    (hroom : 3*k+pending.length+1 < 2^16) {b : UInt8} (hb : b < 0x80)
    (hmore : pending.length < 2) :
    Collecting (midiProcessByte registered device b).1 k (pending ++ [b])
      ∧ (midiProcessByte registered device b).2 = [] := by
  obtain ⟨hreal,hdata,-⟩ := data_byte hb
  obtain ⟨hstate,hcount,hbuffer⟩ := h.stored hroom b
  have hprev : ¬ device.inputCount % 3 = 2 := by
    have := h.count
    rw [← UInt16.toNat_inj, UInt16.toNat_mod]
    simp only [UInt16.reduceToNat]
    omega
  have heq : midiProcessByte registered device b = (device.store b,[]) := by
    simp [midiProcessByte, processData, hreal, hdata, h.state, hprev, hstate]
  rw [heq]
  refine ⟨⟨hstate,?_,?_,?_⟩,rfl⟩
  · simpa using hcount
  · rw [List.length_append]
    exact Nat.succ_lt_succ hmore
  · simpa using hbuffer

theorem Collecting.full {k : Nat} {pending : List UInt8} (h : Collecting device k pending)
    (hroom : 3*k+pending.length+1 < 2^16) {b : UInt8} (hb : b < 0x80)
    (hfull : pending.length = 2) :
    Collecting (midiProcessByte registered device b).1 (k+1) []
      ∧ (midiProcessByte registered device b).2.filter Call.plain
        = [Call.sysex (UInt16.ofNat (3*k)) (pending ++ [b])].filter
          fun c => registered c.callback := by
  obtain ⟨hreal,hdata,-⟩ := data_byte hb
  obtain ⟨hstate,hcount,-⟩ := h.stored hroom b
  have hprev : device.inputCount % 3 = 2 := by
    have := h.count
    rw [← UInt16.toNat_inj, UInt16.toNat_mod]
    simp only [UInt16.reduceToNat]
    omega
  have heq : midiProcessByte registered device b
      = (device.store b,(device.store b).inputCallbacks registered) := by
    simp [midiProcessByte, processData, hreal, hdata, h.state, hprev, hstate]
  rw [heq]
  refine ⟨⟨hstate,?_,by decide,rfl⟩,h.call hroom b⟩
  rw [hcount, hfull]
  rfl

theorem Collecting.finish {k : Nat} {pending : List UInt8} (h : Collecting device k pending)
    (hroom : 3*k+pending.length+1 < 2^16) :
    (midiProcessByte registered device sysexEnd).1.inputState = .idle
      ∧ (midiProcessByte registered device sysexEnd).2.filter Call.plain
        = [Call.sysex (UInt16.ofNat (3*k)) (pending ++ [sysexEnd])].filter
          fun c => registered c.callback := by
  have hcall := @Collecting.call registered _ _ _ h hroom sysexEnd
  have heq : midiProcessByte registered device sysexEnd
      = ({ device.store sysexEnd with inputState := .idle },
        (device.store sysexEnd).inputCallbacks registered) := by
    have hreal : midiIsRealtime sysexEnd = false := by decide
    have hstatus : midiIsStatusbyte sysexEnd = true := by decide
    have hlength : midiPacketLength sysexEnd = .undefined := by decide
    have hbegin : sysexEnd ≠ sysexBegin := by decide
    simp [midiProcessByte, processStatus, hreal, hstatus, hlength, hbegin, h.state]
  rw [heq]
  exact ⟨rfl,hcall⟩

theorem sysexCalls_short {startByte : Nat} {pending : List UInt8} (h : pending.length < 3)
    (b : UInt8) : sysexCalls startByte (pending ++ [b])
      = [.sysex (UInt16.ofNat startByte) (pending ++ [b])] := by
  match pending with
  | [] | [_] | [_,_] => rfl

theorem Collecting.rest {k : Nat} {pending l : List UInt8} (h : Collecting device k pending)
    (hl : ∀ b ∈ l, b < 0x80) (hroom : 3*k+pending.length+l.length+1 < 2^16) :
    (processBytes registered device (l ++ [sysexEnd])).1.inputState = .idle
      ∧ (processBytes registered device (l ++ [sysexEnd])).2.filter Call.plain
        = (sysexCalls (3*k) (pending ++ (l ++ [sysexEnd]))).filter
          fun c => registered c.callback := by
  induction l generalizing device k pending with
  | nil =>
    obtain ⟨hstate,hcalls⟩ := @Collecting.finish registered _ _ _ h (by simpa using hroom)
    simp only [List.nil_append, processBytes, List.append_nil]
    exact ⟨hstate,by rw [hcalls, sysexCalls_short h.short]⟩
  | cons b l ih =>
    have hb := hl b (List.mem_cons_self ..)
    have hl := fun c hc => hl c (List.mem_cons_of_mem _ hc)
    rw [List.length_cons] at hroom
    simp only [List.cons_append, processBytes]
    by_cases hmore : pending.length < 2
    · obtain ⟨hnext,hnone⟩ := @Collecting.data registered _ _ _ h (by omega) _ hb hmore
      obtain ⟨hstate,hcalls⟩ := ih hnext hl (by rw [List.length_append, List.length_singleton]; omega)
      refine ⟨hstate,?_⟩
      rw [hnone, List.nil_append, hcalls, List.append_assoc, List.singleton_append]
    · have hfull : pending.length = 2 := by
        have := h.short
        omega
      obtain ⟨hnext,hcall⟩ := @Collecting.full registered _ _ _ h (by omega) _ hb hfull
      obtain ⟨hstate,hcalls⟩ := ih hnext hl (by rw [List.length_nil]; omega)
      refine ⟨hstate,?_⟩
      obtain ⟨x,y,rfl⟩ := List.length_eq_two.mp hfull
      rw [List.filter_append, hcall, hcalls, ← List.filter_append]
      rfl

theorem Collecting.begin (hdevice : device.inputState ≠ .sysexMessage) :
    Collecting (midiProcessByte registered device sysexBegin).1 0 [sysexBegin]
      ∧ (midiProcessByte registered device sysexBegin).2 = [] := by
  have hreal : midiIsRealtime sysexBegin = false := by decide
  have hstatus : midiIsStatusbyte sysexBegin = true := by decide
  have hlength : midiPacketLength sysexBegin = .undefined := by decide
  have htake (v : Vector UInt8 3) : (v.set 0 sysexBegin).toList.take 1 = [sysexBegin] := by
    rw [Vector.toList_set, List.take_one, List.head?_eq_getElem?, List.getElem?_set_self (by simp)]
    rfl
  have heq : midiProcessByte registered device sysexBegin
      = (⟨device.inputBuffer.set 0 sysexBegin,.sysexMessage,1⟩,[]) := by
    simp [midiProcessByte, processStatus, hreal, hstatus, hlength, hdevice]
  rw [heq]
  exact ⟨⟨rfl,rfl,by decide,htake _⟩,rfl⟩

theorem sysex_received (x : Sysex) : (Message.sysex x).sends.flatMap Send.received
    = sysexBegin :: (x.data ++ [sysexEnd]) := by
  refine received_array (l := sysexBegin :: x.data) fun b hb => ?_
  rcases List.mem_cons.mp hb with rfl | hb
  · decide
  · exact (data_byte (x.sevenBit b hb)).2.2

theorem delivers_sysex (x : Sysex) : Delivers registered (Message.sysex x).sends
    (Message.sysex x).calls := by
  have hroom := x.length_lt
  have hrest {device : Device} (hdevice : device.inputState ≠ .sysexMessage) :=
    @Collecting.rest registered _ _ _ _ (@Collecting.begin registered _ hdevice).1 x.sevenBit
      (by simp only [List.length_singleton]; omega)
  refine ⟨?_,?_,?_⟩ <;> simp only [sysex_received, processBytes]
  · intro b hb
    rcases List.mem_cons.mp hb with rfl | hb
    · decide
    · rcases List.mem_append.mp hb with hb | hb
      · exact (data_byte (x.sevenBit b hb)).1
      · rw [List.mem_singleton.mp hb]
        decide
  · intro device hdevice
    rw [(hrest hdevice).1]
    decide
  · intro device hdevice
    rw [(Collecting.begin hdevice).2]
    exact (hrest hdevice).2

theorem and_127_low (x : UInt16) : (x &&& 0x7F).toUInt8 = UInt8.ofNat (x.toNat % 128) := by
  refine UInt8.toNat_inj.mp ?_
  rw [UInt16.toNat_toUInt8, UInt16.toNat_and, UInt8.toNat_ofNat']
  exact congrArg (· % 2^8) (Nat.and_two_pow_sub_one_eq_mod x.toNat 7)

theorem shift_7 (x : UInt16) : (x >>> 7).toNat = x.toNat / 128 := by
  rw [UInt16.toNat_shiftRight, Nat.shiftRight_eq_div_pow]
  rfl

theorem ofNat_lt_128 {k : Nat} (h : k < 128) : UInt8.ofNat k < 0x80 := by
  rw [UInt8.lt_iff_toNat_lt, UInt8.toNat_ofNat']
  exact Nat.lt_of_le_of_lt (Nat.mod_le _ _) h

theorem bend_toNat (amt : Int16) :
    (if amt > 0x1fff then 0x3FFF else if amt < -0x2000 then 0 else (amt+0x2000).toUInt16
      : UInt16).toNat = (max (-8192) (min 8191 amt.toInt)+8192).toNat := by
  have hhigh : amt > 0x1fff ↔ 8191 < amt.toInt := Int16.lt_iff_toInt_lt
  have hlow : amt < -0x2000 ↔ amt.toInt < -8192 := Int16.lt_iff_toInt_lt
  split_ifs with h h'
  · rw [hhigh] at h
    rw [show (0x3FFF : UInt16).toNat = 16383 from rfl]
    omega
  · rw [hlow] at h'
    rw [show (0 : UInt16).toNat = 0 from rfl]
    omega
  · rw [hhigh] at h
    rw [hlow] at h'
    have hsum : (amt+0x2000).toInt = amt.toInt+8192 := by
      rw [Int16.toInt_add]
      exact Int.bmod_eq_of_le (by simp; omega) (by simp; omega)
    have hnonneg : 0 ≤ amt+0x2000 := by
      rw [Int16.le_iff_toInt_le, hsum, show (0 : Int16).toInt = 0 from rfl]
      omega
    rw [Int16.toNat_toUInt16_of_le hnonneg, Int16.toNatClampNeg, hsum]
    omega

theorem Message.delivers : ∀ m : Message, Delivers registered m.sends m.calls
  | .cc chan num val | .noteon chan num val | .noteoff chan num val | .aftertouch chan num val => by
    simp only [sends, calls, midiSendCc, midiSendNoteon, midiSendNoteoff, midiSendAftertouch,
      and_127]
    exact delivers_channel_three (by decide) rfl nofun (mod_lt_128 _) (mod_lt_128 _)
  | .pitchbend chan amt => by
    simp only [sends, calls, midiSendPitchbend, and_127_low, shift_7, bend_toNat]
    have hbend : (max (-8192) (min 8191 amt.toInt)+8192).toNat / 128 < 128 := by omega
    rw [Nat.mod_eq_of_lt hbend]
    exact delivers_channel_three (by decide) rfl nofun (ofNat_lt_128 (Nat.mod_lt _ (by decide)))
      (ofNat_lt_128 hbend)
  | .programchange chan num | .channelpressure chan num => by
    simp only [sends, calls, midiSendProgramchange, midiSendChannelpressure, and_127]
    exact delivers_channel_two (by decide) rfl nofun (mod_lt_128 _)
  | .tcquarterframe x | .songselect x => by
    simp only [sends, calls, midiSendTcquarterframe, midiSendSongselect, and_127]
    exact delivers_two (by decide) (mod_lt_128 _) rfl nofun
  | .songposition pos => by
    simp only [sends, calls, midiSendSongposition, and_127_low, shift_7]
    exact delivers_three (by decide) (ofNat_lt_128 (Nat.mod_lt _ (by decide)))
      (ofNat_lt_128 (Nat.mod_lt _ (by decide))) rfl nofun
  | .tunerequest => delivers_one (by decide) rfl nofun
  | .sysex x => delivers_sysex x

theorem delivers_all (ms : List Message) :
    Delivers registered (ms.flatMap Message.sends) (ms.flatMap Message.calls) := by
  induction ms with
  | nil => exact .nil
  | cons m ms ih => exact m.delivers.append ih

def Action.message : Action → List Send
  | .send s => [s]
  | _ => []

def Action.realtimes : Action → List Realtime
  | .realtime r => [r]
  | _ => []

def Realtime.byte (r : Realtime) : UInt8 := r.send.byte0

theorem Realtime.received (r : Realtime) :
    r.send.received = [r.byte] ∧ midiIsRealtime r.byte = true := by
  cases r <;> decide

theorem apart {as : List Action}
    (h : ∀ b ∈ (as.flatMap Action.message).flatMap Send.received, midiIsRealtime b = false) :
    ((as.flatMap Action.sends).flatMap Send.received).filter (!midiIsRealtime ·)
        = (as.flatMap Action.message).flatMap Send.received
      ∧ ((as.flatMap Action.sends).flatMap Send.received).filter midiIsRealtime
        = (as.flatMap Action.realtimes).map Realtime.byte := by
  induction as with
  | nil => exact ⟨rfl,rfl⟩
  | cons a as ih =>
    simp only [List.flatMap_cons, List.flatMap_append, List.mem_append] at h
    obtain ⟨hmessages,hrealtimes⟩ := ih fun b hb => h b (.inr hb)
    simp only [List.flatMap_cons, List.flatMap_append, List.filter_append, List.map_append,
      hmessages, hrealtimes]
    cases a with
    | send s =>
      have hs : ∀ b ∈ s.received, midiIsRealtime b = false :=
        fun b hb => h b (.inl (by simpa [Action.message] using hb))
      have hall : s.received.filter (!midiIsRealtime ·) = s.received :=
        List.filter_eq_self.mpr fun b hb => by simp [hs b hb]
      have hnone : s.received.filter midiIsRealtime = [] :=
        List.filter_eq_nil_iff.mpr fun b hb => by simp [hs b hb]
      simp [Action.sends, Action.message, Action.realtimes, hall, hnone]
    | realtime r =>
      obtain ⟨hreceived,hreal⟩ := r.received
      simp [Action.sends, Action.message, Action.realtimes, hreceived, hreal]
    | process count => simp [Action.sends, Action.message, Action.realtimes]

/-- What a sender's calls of `send_func` deliver arrives, whenever the packets come and the queue
is processed, and so do the real-time messages between them. -/
theorem arrived {registered : Callback → Bool} {as : List Action} {calls : List Call}
    (h : Delivers registered (as.flatMap Action.message) calls)
    (hroom : Along (step registered) Room .start as)
    (hwire : (as.foldl (step registered) .start).wire = []) :
    (as.foldl (step registered) .start).calls.filter Call.plain
        = calls.filter (fun c => registered c.callback)
      ∧ (as.foldl (step registered) .start).calls.filter (·.callback = .realtime)
        = if registered .realtime then
            (as.flatMap Action.realtimes).map fun r => .one .realtime r.byte
          else [] := by
  obtain ⟨received,hall,-,hcalls⟩ := (transport hroom).fifo
  rw [hwire, List.flatMap_nil, List.append_nil] at hall
  obtain ⟨hmessages,hrealtimes⟩ := apart h.no_realtime
  obtain ⟨-,hplain,hrealtime⟩ := @realtime_transparent registered .init received
  rw [hcalls, hplain, hrealtime, ← hall, hmessages, hrealtimes, List.map_map]
  exact ⟨h.calls .init (by decide),rfl⟩

/-- When no packet is on its way the receiver has called the callbacks that are registered for the
messages, each with the arguments it was sent with, and the one for real-time messages, both in
the order they were sent in. -/
theorem heard (registered : Callback → Bool) {as : List Action}
    (hroom : Along (step registered) Room .start as) {ms : List Message}
    (hsent : as.flatMap Action.message = ms.flatMap Message.sends)
    (hwire : (as.foldl (step registered) .start).wire = []) :
    (as.foldl (step registered) .start).calls.filter Call.plain
        = (ms.flatMap Message.calls).filter (fun c => registered c.callback)
      ∧ (as.foldl (step registered) .start).calls.filter (·.callback = .realtime)
        = if registered .realtime then
            (as.flatMap Action.realtimes).map fun r => .one .realtime r.byte
          else [] :=
  arrived (hsent ▸ delivers_all ms) hroom hwire

/-- A clock between the two packets of a system exclusive message. -/
theorem heard_clock :
    let as := [.send (midiSendNoteon 1 60 100),.send ⟨3,0xF0,1,2⟩,.realtime .clock,.process 2,
      .send ⟨2,3,0xF7,0⟩,.process 2]
    let s := as.foldl (step fun _ => true) .start
    s.calls.filter Call.plain
        = [.three .noteon 1 60 100,.sysex 0 [0xF0,1,2],.sysex 3 [3,0xF7]]
      ∧ s.calls.filter (·.callback = .realtime) = [.one .realtime midiClock] :=
  @heard (fun _ => true) _ (by decide +kernel)
    [.noteon 1 60 100,.sysex ⟨[1,2,3],by decide +kernel,by decide +kernel⟩] rfl
    (by decide +kernel)

end QmkFirmware.MidiDevice
