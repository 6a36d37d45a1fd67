import QmkFirmware.Lib.Along
import QmkFirmware.Lib.Ring
import QmkFirmware.Midi.Device

/-!
Messages from one MIDI device to another: the functions that send them, the USB packets, the queue
of the receiver and its callbacks.
-/

set_option autoImplicit false

namespace QmkFirmware.MidiDevice

/-- A call of `send_func`. -/
structure Send where
  cnt : UInt16
  byte0 : UInt8
  byte1 : UInt8
  byte2 : UInt8
  deriving DecidableEq, Repr

def midiChanmask : UInt8 := 0x0F

def midiSendCc (chan num val : UInt8) : Send :=
  ⟨3,midiCc ||| (chan &&& midiChanmask),num &&& 0x7F,val &&& 0x7F⟩

def midiSendNoteon (chan num vel : UInt8) : Send :=
  ⟨3,midiNoteon ||| (chan &&& midiChanmask),num &&& 0x7F,vel &&& 0x7F⟩

def midiSendNoteoff (chan num vel : UInt8) : Send :=
  ⟨3,midiNoteoff ||| (chan &&& midiChanmask),num &&& 0x7F,vel &&& 0x7F⟩

def midiSendAftertouch (chan noteNum amt : UInt8) : Send :=
  ⟨3,midiAftertouch ||| (chan &&& midiChanmask),noteNum &&& 0x7F,amt &&& 0x7F⟩

def midiSendPitchbend (chan : UInt8) (amt : Int16) : Send :=
  let uAmt : UInt16 :=
    if amt > 0x1fff then 0x3FFF
    else if amt < -0x2000 then 0
    else (amt+0x2000).toUInt16
  ⟨3,midiPitchbend ||| (chan &&& midiChanmask),(uAmt &&& 0x7F).toUInt8,
    ((uAmt >>> 7) &&& 0x7F).toUInt8⟩

def midiSendProgramchange (chan num : UInt8) : Send :=
  ⟨2,midiProgchange ||| (chan &&& midiChanmask),num &&& 0x7F,0⟩

def midiSendChannelpressure (chan amt : UInt8) : Send :=
  ⟨2,midiChanpressure ||| (chan &&& midiChanmask),amt &&& 0x7F,0⟩

def midiSendClock : Send := ⟨1,midiClock,0,0⟩

def midiSendTick : Send := ⟨1,midiTick,0,0⟩

def midiSendStart : Send := ⟨1,midiStart,0,0⟩

def midiSendContinue : Send := ⟨1,midiContinue,0,0⟩

def midiSendStop : Send := ⟨1,midiStop,0,0⟩

def midiSendActivesense : Send := ⟨1,midiActivesense,0,0⟩

def midiSendReset : Send := ⟨1,midiReset,0,0⟩

def midiSendTcquarterframe (time : UInt8) : Send := ⟨2,midiTcQuarterframe,time &&& 0x7F,0⟩

def midiSendSongposition (pos : UInt16) : Send :=
  ⟨3,midiSongposition,(pos &&& 0x7F).toUInt8,((pos >>> 7) &&& 0x7F).toUInt8⟩

def midiSendSongselect (song : UInt8) : Send := ⟨2,midiSongselect,song &&& 0x7F,0⟩

def midiSendTunerequest : Send := ⟨1,midiTunerequest,0,0⟩

/-- Three bytes at a time. -/
def midiSendArray : List UInt8 → List Send
  | byte0 :: byte1 :: byte2 :: array => ⟨3,byte0,byte1,byte2⟩ :: midiSendArray array
  | [byte0,byte1] => [⟨2,byte0,byte1,0⟩]
  | [byte0] => [⟨1,byte0,0,0⟩]
  | [] => []

/-- `MIDI_EventPacket_t`. -/
structure EventPacket where
  event : UInt8
  data1 : UInt8
  data2 : UInt8
  data3 : UInt8
  deriving DecidableEq, Repr

def midiEvent (cable command : UInt8) : UInt8 := (cable <<< 4) ||| (command >>> 4)

def sysexStartOrCont : UInt8 := 0x40
def sysexEndsIn1 : UInt8 := 0x50
def sysexEndsIn2 : UInt8 := 0x60
def sysexEndsIn3 : UInt8 := 0x70
def sysCommon2 : UInt8 := 0x20
def sysCommon3 : UInt8 := 0x30

/-- The system common messages are never met, as they are no multiples of sixteen. -/
def usbSendFunc (s : Send) : Option EventPacket :=
  let packet (command : UInt8) : Option EventPacket :=
    some ⟨midiEvent 0 command,s.byte0,s.byte1,s.byte2⟩
  if midiPacketLength s.byte0 = .undefined then
    if s.cnt = 3 then packet (if s.byte2 = sysexEnd then sysexEndsIn3 else sysexStartOrCont)
    else if s.cnt = 2 then packet (if s.byte1 = sysexEnd then sysexEndsIn2 else sysexStartOrCont)
    else if s.cnt = 1 then packet (if s.byte0 = sysexEnd then sysexEndsIn1 else sysexStartOrCont)
    else none
  else if s.byte0 &&& 0xF0 = midiSongposition then packet sysCommon3
  else if s.byte0 &&& 0xF0 = midiSongselect ∨ s.byte0 &&& 0xF0 = midiTcQuarterframe then
    packet sysCommon2
  else packet s.byte0

/-- What `usb_get_midi` hands to `midi_device_input` for a packet. -/
def usbGetMidi (event : EventPacket) : List UInt8 :=
  let input := [event.data1,event.data2,event.data3]
  match midiPacketLength event.data1 with
  | .one => input.take 1
  | .two => input.take 2
  | .three => input
  | .undefined =>
    if event.event = midiEvent 0 sysexStartOrCont ∨ event.event = midiEvent 0 sysexEndsIn3 then
      input
    else if event.event = midiEvent 0 sysexEndsIn2 then input.take 2
    else if event.event = midiEvent 0 sysexEndsIn1 then input.take 1
    else []

def midiInputQueueLength : Nat := 192

abbrev ByteQueue := Ring UInt8 midiInputQueueLength

def bytequeueEnqueue (queue : ByteQueue) (item : UInt8) : ByteQueue :=
  if queue.isFull then queue else queue.push item

def bytequeueLength (queue : ByteQueue) : Nat :=
  if queue.write ≥ queue.read then queue.write-queue.read
  else midiInputQueueLength-queue.read+queue.write

def bytequeueGet (queue : ByteQueue) (index : Nat) : UInt8 :=
  queue.slots ((queue.read+index) % midiInputQueueLength)

def bytequeueRemove (queue : ByteQueue) (numToRemove : Nat) : ByteQueue :=
  { queue with
    read := (queue.read+numToRemove) % midiInputQueueLength
    read_lt := Nat.mod_lt _ (by decide) }

def midiDeviceInput (queue : ByteQueue) (input : List UInt8) : ByteQueue :=
  input.foldl bytequeueEnqueue queue

structure Link where
  wire : List EventPacket
  queue : ByteQueue
  device : Device
  calls : List Call

def Link.start : Link := ⟨[],⟨fun _ => 0,0,0,by decide,by decide⟩,.init,[]⟩

inductive Realtime where
  | clock
  | tick
  | start
  | continue
  | stop
  | activesense
  | reset
  deriving DecidableEq, Repr

def Realtime.send : Realtime → Send
  | .clock => midiSendClock
  | .tick => midiSendTick
  | .start => midiSendStart
  | .continue => midiSendContinue
  | .stop => midiSendStop
  | .activesense => midiSendActivesense
  | .reset => midiSendReset

/-- The sender calls its `send_func`, for a message or a real-time one, or `count` packets have
arrived and the receiver processes them. -/
inductive Action where
  | send (s : Send)
  | realtime (r : Realtime)
  | process (count : Nat)

variable (registered : Callback → Bool)

/-- The loop of `midi_device_process`. -/
def processQueue : Nat → Link → Link
  | 0, l => l
  | len+1, l =>
    let r := midiProcessByte registered l.device (bytequeueGet l.queue 0)
    processQueue len
      { l with device := r.1, calls := l.calls ++ r.2, queue := bytequeueRemove l.queue 1 }

def midiDeviceProcess (l : Link) (count : Nat) : Link :=
  let queue := (l.wire.take count).foldl (fun queue p => midiDeviceInput queue (usbGetMidi p)) l.queue
  processQueue registered (bytequeueLength queue)
    { l with wire := l.wire.drop count, queue := queue }

def step (l : Link) : Action → Link
  | .send s => { l with wire := l.wire ++ (usbSendFunc s).toList }
  | .realtime r => { l with wire := l.wire ++ (usbSendFunc r.send).toList }
  | .process count => midiDeviceProcess registered l count

/-- What arrives at once has room in the queue, where one byte stays free. -/
def Room (l : Link) : Action → Prop
  | .process count => ((l.wire.take count).flatMap usbGetMidi).length < midiInputQueueLength
  | _ => True

instance Room.decidable (l : Link) : ∀ a, Decidable (Room l a)
  | .process count =>
    inferInstanceAs (Decidable (((l.wire.take count).flatMap usbGetMidi).length
      < midiInputQueueLength))
  | .send _ | .realtime _ => .isTrue trivial

def Action.sends : Action → List Send
  | .send s => [s]
  | .realtime r => [r.send]
  | .process _ => []

/-- The bytes that the packet for a call of `send_func` brings to the receiver. -/
def Send.received (s : Send) : List UInt8 := (usbSendFunc s).toList.flatMap usbGetMidi

structure Inv (sent : List UInt8) (l : Link) : Prop where
  empty : l.queue.entries = []
  fifo : ∃ received, sent = received ++ l.wire.flatMap usbGetMidi
    ∧ l.device = (processBytes registered .init received).1
    ∧ l.calls = (processBytes registered .init received).2

variable {registered}

theorem processBytes_append (device : Device) (a b : List UInt8) :
    processBytes registered device (a ++ b)
      = ((processBytes registered (processBytes registered device a).1 b).1,
        (processBytes registered device a).2
          ++ (processBytes registered (processBytes registered device a).1 b).2) := by
  induction a generalizing device with
  | nil => rfl
  | cons input a ih => simp only [List.cons_append, processBytes, ih, List.append_assoc]

theorem midiDeviceInput_entries {queue : ByteQueue} {input : List UInt8}
    (h : queue.entries.length+input.length < midiInputQueueLength) :
    (midiDeviceInput queue input).entries = queue.entries ++ input := by
  induction input generalizing queue with
  | nil => exact (List.append_nil _).symm
  | cons item input ih =>
    rw [List.length_cons] at h
    have hfull : queue.isFull = false := by
      cases hfull : queue.isFull with
      | false => rfl
      | true => exact absurd (Ring.isFull_iff.mp hfull) (by omega)
    have hpush := Ring.entries_push_room hfull item
    rw [midiDeviceInput, List.foldl_cons, ← midiDeviceInput, bytequeueEnqueue, hfull,
      if_neg Bool.false_ne_true, ih (by rw [hpush, List.length_append, List.length_singleton]; omega),
      hpush, List.append_assoc, List.singleton_append]

theorem packets_entries {queue : ByteQueue} {packets : List EventPacket}
    (h : queue.entries.length+(packets.flatMap usbGetMidi).length < midiInputQueueLength) :
    (packets.foldl (fun queue p => midiDeviceInput queue (usbGetMidi p)) queue).entries
      = queue.entries ++ packets.flatMap usbGetMidi := by
  induction packets generalizing queue with
  | nil => exact (List.append_nil _).symm
  | cons p packets ih =>
    rw [List.flatMap_cons, List.length_append] at h
    have hinput := @midiDeviceInput_entries queue (usbGetMidi p) (by omega)
    rw [List.foldl_cons, ih (by rw [hinput, List.length_append]; omega), hinput,
      List.flatMap_cons, List.append_assoc]

theorem bytequeueLength_eq (queue : ByteQueue) : bytequeueLength queue = queue.entries.length := by
  rw [Ring.entries, List.length_map, Ring.indices, Ring.between_length]
  rfl

theorem bytequeueRemove_one (queue : ByteQueue) : bytequeueRemove queue 1 = queue.pop := rfl

theorem processQueue_entries (l : Link) :
    (processQueue registered l.queue.entries.length l).queue.entries = []
      ∧ (processQueue registered l.queue.entries.length l).wire = l.wire
      ∧ (processQueue registered l.queue.entries.length l).device
        = (processBytes registered l.device l.queue.entries).1
      ∧ (processQueue registered l.queue.entries.length l).calls
        = l.calls ++ (processBytes registered l.device l.queue.entries).2 := by
  induction hentries : l.queue.entries generalizing l with
  | nil => exact ⟨hentries,rfl,rfl,(List.append_nil _).symm⟩
  | cons item entries ih =>
    have hempty : l.queue.isEmpty = false := by
      cases hempty : l.queue.isEmpty with
      | false => rfl
      | true => simp [Ring.isEmpty_iff.mp hempty] at hentries
    have hpop := Ring.entries_pop hempty
    rw [hentries, List.cons.injEq] at hpop
    have hget : bytequeueGet l.queue 0 = item := by
      rw [bytequeueGet, Nat.add_zero, Nat.mod_eq_of_lt l.queue.read_lt, hpop.1]
    let r := midiProcessByte registered l.device item
    have hrest := ih { l with
      device := r.1
      calls := l.calls ++ r.2
      queue := l.queue.pop } hpop.2.symm
    simp only [List.length_cons, processQueue, hget, bytequeueRemove_one, processBytes]
    refine ⟨hrest.1,hrest.2.1,hrest.2.2.1,hrest.2.2.2.trans ?_⟩
    rw [List.append_assoc]

theorem inv_start : Inv registered [] .start where
  empty := Ring.isEmpty_iff.mp rfl
  fifo := ⟨[],rfl,rfl,rfl⟩

theorem Inv.send {sent : List UInt8} {l : Link} (h : Inv registered sent l)
    (s : Send) : Inv registered (sent ++ s.received)
      { l with wire := l.wire ++ (usbSendFunc s).toList } where
  empty := h.empty
  fifo := by
    obtain ⟨received,hsent,hrest⟩ := h.fifo
    refine ⟨received,?_,hrest⟩
    rw [hsent, List.flatMap_append, List.append_assoc]
    rfl

theorem Inv.process {sent : List UInt8} {l : Link} (h : Inv registered sent l)
    {count : Nat} (hroom : Room l (.process count)) :
    Inv registered sent (midiDeviceProcess registered l count) := by
  obtain ⟨received,hsent,hdevice,hcalls⟩ := h.fifo
  have hentries := @packets_entries l.queue (l.wire.take count)
    (by rw [h.empty, List.length_nil, Nat.zero_add]; exact hroom)
  rw [h.empty, List.nil_append] at hentries
  obtain ⟨hempty,hwire,hdevice',hcalls'⟩ := @processQueue_entries registered
    { l with
      wire := l.wire.drop count
      queue := (l.wire.take count).foldl (fun queue p => midiDeviceInput queue (usbGetMidi p)) l.queue }
  rw [midiDeviceProcess, bytequeueLength_eq]
  refine ⟨hempty,received ++ (l.wire.take count).flatMap usbGetMidi,?_,?_,?_⟩
  · rw [hwire, hsent, List.append_assoc, ← List.flatMap_append, List.take_append_drop]
  · rw [hdevice', hentries, hdevice, processBytes_append]
  · rw [hcalls', hentries, hdevice, hcalls, processBytes_append]

/-- The callbacks are called for the bytes that were sent, in their order, and for all of them
when no packet is on its way. -/
theorem transport {as : List Action} (h : Along (step registered) Room .start as) :
    Inv registered ((as.flatMap Action.sends).flatMap Send.received)
      (as.foldl (step registered) .start) := by
  induction as using List.reverseRecOn with
  | nil => exact inv_start
  | append_singleton as a ih =>
    obtain ⟨has,hroom⟩ := Along.snoc.mp h
    have hinv := ih has
    rw [List.foldl_append, List.flatMap_append, List.flatMap_append]
    cases a with
    | send s =>
      simpa [Action.sends, step] using hinv.send s
    | realtime r =>
      simpa [Action.sends, step] using hinv.send r.send
    | process count =>
      simpa [Action.sends, step] using hinv.process hroom

end QmkFirmware.MidiDevice
