import QmkFirmware.Lib.Along
import QmkFirmware.Lib.Ring

/-!
Encoder events of a split keyboard. The slave half queues them and publishes its queue in shared
memory; the master half reads the queue, forwards the events to its own and tells the slave to
drain. Every transaction of the master is a step of its own, and the slave's steps come between.
-/

set_option autoImplicit false

namespace QmkFirmware.Split

/-- `encoder_event_t`: the index has seven bits. -/
structure EncoderEvent where
  index : BitVec 7
  clockwise : Bool
  deriving DecidableEq, Repr

/-- `encoder_events_t`; head and tail are the write and the read index of the queue. -/
structure EncoderEvents (n : Nat) where
  enqueued : UInt8
  dequeued : UInt8
  queue : Ring EncoderEvent n

/-- `split_slave_encoder_sync_t`. -/
structure EncoderSync (n : Nat) where
  checksum : UInt8
  events : EncoderEvents n

variable {n : Nat}

def EncoderEvent.byte (e : EncoderEvent) : UInt8 :=
  UInt8.ofNat (e.index.toNat+if e.clockwise then 128 else 0)

/-- The memory that the checksum is taken of. -/
def EncoderEvents.bytes (events : EncoderEvents n) : List UInt8 :=
  [events.enqueued,events.dequeued,UInt8.ofNat events.queue.write,UInt8.ofNat events.queue.read]
    ++ (List.range n).map fun i => (events.queue.slots i).byte

def EncoderEvents.zero (hn : 0 < n) : EncoderEvents n :=
  ⟨0,0,⟨fun _ => ⟨0,false⟩,0,0,hn,hn⟩⟩

/-- `encoder_queue_drain`. -/
def EncoderEvents.drain (events : EncoderEvents n) : EncoderEvents n :=
  { events with dequeued := events.enqueued, queue := events.queue.drain }

def encoderQueueEventAdvanced (events : EncoderEvents n) (e : EncoderEvent) :
    EncoderEvents n × Bool :=
  if events.queue.isFull then (events,false)
  else ({ events with enqueued := events.enqueued+1, queue := events.queue.push e },true)

def encoderDequeueEventAdvanced (events : EncoderEvents n) :
    Option (EncoderEvent × EncoderEvents n) :=
  if events.queue.isEmpty then none
  else some (events.queue.slots events.queue.read,
    { events with dequeued := events.dequeued+1, queue := events.queue.pop })

/-- The software implementation, with `CRC8_USE_TABLE` undefined. -/
def crc8 (data : List UInt8) : UInt8 :=
  data.foldl (fun crc d => (List.range 8).foldl (fun crc _ =>
    if crc &&& 0x80 ≠ 0 then (crc <<< 1) ^^^ 0x31 else crc <<< 1) (crc ^^^ d)) 0xff

/-- Where the master is in `encoder_handlers_master`. -/
inductive Phase where
  | idle
  /-- The checksum has been read and the events are to be read. -/
  | retrieve (currChecksum : UInt8)
  | update
  | drain
  deriving DecidableEq, Repr

structure System (n : Nat) where
  slave : EncoderEvents n
  signalQueueDrain : Bool
  slaveShmem : EncoderSync n
  masterShmem : EncoderSync n
  lastChecksum : UInt8
  phase : Phase
  master : EncoderEvents n
  /-- The events the slave has queued, and those the master has queued for the slave. -/
  queued : List EncoderEvent
  forwarded : List EncoderEvent

def System.start (hn : 0 < n) : System n :=
  ⟨.zero hn,false,⟨0,.zero hn⟩,⟨0,.zero hn⟩,0,.idle,.zero hn,[],[]⟩

/-- The steps of both halves. A read that fails may leave anything in the buffer of the master;
a drain that fails may have reached the slave or not. -/
inductive Action (n : Nat) where
  | queueEvent (index : UInt8) (clockwise : Bool)
  | slaveTask
  | publish
  | readChecksum (failed : Option UInt8) (forced : Bool)
  | readEvents (failed : Option (EncoderEvents n))
  | update
  | drain (reached : Bool)
  | masterTask
  /-- An event of an encoder of the master. -/
  | masterEvent (e : EncoderEvent)

/-- The loop that forwards the events, until there is none or the queue of the master is full.
Each turn takes one event, so `n` turns are enough. -/
def forward : Nat → System n → System n
  | 0, s => s
  | fuel+1, s =>
    match encoderDequeueEventAdvanced s.masterShmem.events with
    | none => s
    | some (e,events) =>
      let s := { s with masterShmem := { s.masterShmem with events := events } }
      let r := encoderQueueEventAdvanced s.master e
      if r.2 then forward fuel { s with master := r.1, forwarded := s.forwarded ++ [e] } else s

variable (crc : List UInt8 → UInt8)

/-- A transaction out of its turn does nothing. -/
def step (s : System n) : Action n → System n
  | .queueEvent index clockwise =>
    let e : EncoderEvent := ⟨index.toBitVec.setWidth 7,clockwise⟩
    let r := encoderQueueEventAdvanced s.slave e
    if r.2 then { s with slave := r.1, queued := s.queued ++ [e] } else s
  | .slaveTask =>
    if s.signalQueueDrain then { s with signalQueueDrain := false, slave := s.slave.drain } else s
  | .publish => { s with slaveShmem := ⟨crc s.slave.bytes,s.slave⟩ }
  | .readChecksum failed forced =>
    if s.phase ≠ .idle then s
    else match failed with
      | some checksum => { s with masterShmem := { s.masterShmem with checksum := checksum } }
      | none =>
        let curr := s.slaveShmem.checksum
        { s with
          masterShmem := { s.masterShmem with checksum := curr }
          phase := if forced || curr ≠ crc s.masterShmem.events.bytes then .retrieve curr
            else .update }
  | .readEvents failed =>
    match s.phase with
    | .retrieve curr =>
      match failed with
      | some events =>
        { s with masterShmem := { s.masterShmem with events := events }, phase := .idle }
      | none =>
        { s with
          masterShmem := { s.masterShmem with events := s.slaveShmem.events }
          phase := if curr = crc s.slaveShmem.events.bytes then .update else .idle }
    | _ => s
  | .update =>
    if s.phase ≠ .update then s
    else if s.lastChecksum = s.masterShmem.checksum then { s with phase := .idle }
    else if s.masterShmem.events.queue.isEmpty then
      { s with phase := .idle, lastChecksum := s.masterShmem.checksum }
    else { forward n s with phase := .drain }
  | .drain reached =>
    if s.phase ≠ .drain then s
    else
      { s with
        phase := .idle
        lastChecksum := s.masterShmem.checksum
        signalQueueDrain := s.signalQueueDrain || reached }
  | .masterTask => { s with master := s.master.drain }
  | .masterEvent e => { s with master := (encoderQueueEventAdvanced s.master e).1 }

/-- A run of both halves. -/
def run (hn : 0 < n) (as : List (Action n)) : System n := as.foldl (step crc) (.start hn)

abbrev EncoderEvents.entries (events : EncoderEvents n) : List EncoderEvent := events.queue.entries

theorem EncoderEvent.byte_inj {e e' : EncoderEvent} (h : e.byte = e'.byte) : e = e' := by
  have hi := e.index.isLt
  have hi' := e'.index.isLt
  have hnat := congrArg UInt8.toNat h
  simp only [byte, UInt8.toNat_ofNat'] at hnat
  obtain ⟨index, clockwise⟩ := e
  obtain ⟨index', clockwise'⟩ := e'
  dsimp only at hi hi' hnat
  have hclock : clockwise = clockwise' := by
    cases clockwise <;> cases clockwise' <;> first | rfl | (exfalso; simp at hnat; omega)
  subst hclock
  have hindex : index.toNat = index'.toNat := by
    split at hnat <;> omega
  rw [BitVec.eq_of_toNat_eq hindex]

theorem ofNat_inj_lt {a b : Nat} (ha : a < 256) (hb : b < 256)
    (h : UInt8.ofNat a = UInt8.ofNat b) : a = b := by
  have hnat := congrArg UInt8.toNat h
  simp only [UInt8.toNat_ofNat'] at hnat
  omega

theorem EncoderEvents.entries_eq {events events' : EncoderEvents n} (hn : n ≤ 256)
    (h : events.bytes = events'.bytes) : events.entries = events'.entries := by
  have hr := events.queue.read_lt
  have hw := events.queue.write_lt
  have hr' := events'.queue.read_lt
  have hw' := events'.queue.write_lt
  simp only [bytes, List.cons_append, List.nil_append, List.cons.injEq] at h
  obtain ⟨-, -, hwrite, hread, hslots⟩ := h
  have hwrite := ofNat_inj_lt (by omega) (by omega) hwrite
  have hread := ofNat_inj_lt (by omega) (by omega) hread
  have hslot : ∀ i < n, events.queue.slots i = events'.queue.slots i := by
    intro i hi
    have hget := congrArg (fun l => l[i]?) hslots
    simp only [List.getElem?_map, List.getElem?_range hi, Option.map_some, Option.some.injEq] at hget
    exact EncoderEvent.byte_inj hget
  rw [entries, entries, Ring.entries, Ring.entries, Ring.indices, Ring.indices, hwrite, hread]
  exact List.map_congr_left fun i hi => hslot i (Ring.mem_between_lt hw' hi)

theorem queueEvent_room {events : EncoderEvents n} (e : EncoderEvent)
    (h : events.queue.isFull = false) : (encoderQueueEventAdvanced events e).2 = true
      ∧ (encoderQueueEventAdvanced events e).1.entries = events.entries ++ [e] := by
  rw [encoderQueueEventAdvanced, if_neg (by simp [h])]
  exact ⟨rfl, Ring.entries_push_room h e⟩

theorem drain_entries (events : EncoderEvents n) : events.drain.entries = [] :=
  Ring.entries_drain events.queue

theorem forward_all {fuel : Nat} {s : System n}
    (hfuel : s.masterShmem.events.entries.length ≤ fuel)
    (hroom : s.master.entries.length+s.masterShmem.events.entries.length < n) :
    ∃ copy master, forward fuel s = { s with
      masterShmem := ⟨s.masterShmem.checksum,copy⟩
      master := master
      forwarded := s.forwarded ++ s.masterShmem.events.entries } := by
  induction fuel generalizing s with
  | zero =>
    have hnil : s.masterShmem.events.entries = [] := List.eq_nil_of_length_eq_zero (by omega)
    exact ⟨s.masterShmem.events, s.master, by simp [forward, hnil]⟩
  | succ fuel ih =>
    cases hempty : s.masterShmem.events.queue.isEmpty with
    | true =>
      have hnil : s.masterShmem.events.entries = [] := Ring.isEmpty_iff.mp hempty
      refine ⟨s.masterShmem.events, s.master, ?_⟩
      simp [forward, encoderDequeueEventAdvanced, hempty, hnil]
    | false =>
      have hpop := Ring.entries_pop hempty
      have hlen : s.masterShmem.events.entries.length
          = s.masterShmem.events.queue.pop.entries.length+1 := by
        rw [EncoderEvents.entries, hpop, List.length_cons]
      have hfull : s.master.queue.isFull = false := by
        by_contra hfull
        have := Ring.isFull_iff.mp ((Bool.not_eq_false _).mp hfull)
        simp only [EncoderEvents.entries] at hroom hlen
        omega
      obtain ⟨hok, hentries⟩ :=
        queueEvent_room (s.masterShmem.events.queue.slots s.masterShmem.events.queue.read) hfull
      simp only [forward, encoderDequeueEventAdvanced, hempty, Bool.false_eq_true, if_false, hok,
        if_true]
      obtain ⟨copy, master, heq⟩ := @ih { s with
        masterShmem := ⟨s.masterShmem.checksum,{ s.masterShmem.events with
          dequeued := s.masterShmem.events.dequeued+1
          queue := s.masterShmem.events.queue.pop }⟩
        master := (encoderQueueEventAdvanced s.master
          (s.masterShmem.events.queue.slots s.masterShmem.events.queue.read)).1
        forwarded := s.forwarded
          ++ [s.masterShmem.events.queue.slots s.masterShmem.events.queue.read] }
        (by simp only [EncoderEvents.entries] at hlen hfuel ⊢; omega)
        (by
          dsimp only
          rw [hentries, List.length_append]
          simp only [EncoderEvents.entries, List.length_singleton] at hlen hroom ⊢
          omega)
      refine ⟨copy, master, heq.trans ?_⟩
      simp only [EncoderEvents.entries, hpop, List.append_assoc, List.singleton_append]

/-- Nothing is queued on the slave while a drain is under way, the master forwards the events that
the slave still has, for which its own queue has room, and a drain reaches the slave. -/
def Orderly (s : System n) : Action n → Prop
  | .queueEvent _ _ => s.phase ≠ .drain ∧ s.signalQueueDrain = false
  | .update => s.phase = .update → s.lastChecksum ≠ s.masterShmem.checksum →
      s.masterShmem.events.queue.isEmpty = false →
      s.masterShmem.events.bytes = s.slaveShmem.events.bytes
        ∧ s.slaveShmem.events.bytes = s.slave.bytes
        ∧ s.master.entries.length+s.slave.entries.length < n
  | .drain reached => s.phase = .drain → reached = true
  | _ => True

instance Orderly.decidable (s : System n) : ∀ a, Decidable (Orderly s a)
  | .queueEvent _ _ => inferInstanceAs (Decidable (s.phase ≠ .drain ∧ s.signalQueueDrain = false))
  | .update => inferInstanceAs (Decidable (s.phase = .update →
      s.lastChecksum ≠ s.masterShmem.checksum → s.masterShmem.events.queue.isEmpty = false →
      s.masterShmem.events.bytes = s.slaveShmem.events.bytes
        ∧ s.slaveShmem.events.bytes = s.slave.bytes
        ∧ s.master.entries.length+s.slave.entries.length < n))
  | .drain reached => inferInstanceAs (Decidable (s.phase = .drain → reached = true))
  | .slaveTask | .publish | .readChecksum _ _ | .readEvents _ | .masterTask | .masterEvent _ =>
    .isTrue trivial

structure Inv (s : System n) : Prop where
  published : s.slaveShmem.checksum = crc s.slaveShmem.events.bytes
    ∨ s.slaveShmem.events.entries = []
  current : ∀ curr, s.phase = .retrieve curr → s.masterShmem.checksum = curr
  trusted : s.phase = .update → s.masterShmem.checksum = crc s.masterShmem.events.bytes
  waiting : s.phase ≠ .drain → s.signalQueueDrain = false →
    s.queued = s.forwarded ++ s.slave.entries
  /-- The events have been forwarded and the slave is to be told. -/
  telling : s.phase = .drain → s.queued = s.forwarded ∧ s.signalQueueDrain = false
    ∧ s.masterShmem.checksum = crc s.slave.bytes ∧ s.slaveShmem.checksum = crc s.slave.bytes
  /-- The slave has been told: what it publishes is not new to the master. -/
  told : s.signalQueueDrain = true → s.queued = s.forwarded
    ∧ s.lastChecksum = crc s.slave.bytes ∧ s.slaveShmem.checksum = crc s.slave.bytes
    ∧ (s.phase ≠ .idle → s.masterShmem.checksum = s.lastChecksum)

variable {crc} {s : System n}

theorem Inv.not_drain (h : Inv crc s) (hs : s.signalQueueDrain = true) : s.phase ≠ .drain :=
  fun hp => by simp [(h.telling hp).2.1] at hs

theorem inv_start (hn : 0 < n) : Inv crc (.start hn) where
  published := .inr (Ring.isEmpty_iff.mp (by simp [System.start, EncoderEvents.zero, Ring.isEmpty]))
  current _ hp := by cases hp
  trusted hp := by cases hp
  waiting _ _ := by
    have hnil : (System.start hn).slave.entries = [] :=
      Ring.isEmpty_iff.mp (by simp [System.start, EncoderEvents.zero, Ring.isEmpty])
    rw [hnil]
    rfl
  telling hp := by cases hp
  told hs := by cases hs

theorem Inv.queueEvent (h : Inv crc s) {index : UInt8} {clockwise : Bool}
    (ho : Orderly s (.queueEvent index clockwise)) :
    Inv crc (step crc s (.queueEvent index clockwise)) := by
  obtain ⟨hphase, hsignal⟩ := ho
  cases hfull : s.slave.queue.isFull with
  | true => simpa [step, encoderQueueEventAdvanced, hfull] using h
  | false =>
    obtain ⟨hok, hentries⟩ := queueEvent_room ⟨index.toBitVec.setWidth 7,clockwise⟩ hfull
    simp only [step, hok, if_true]
    refine ⟨h.published, h.current, h.trusted, fun _ _ => ?_, fun hp => absurd hp hphase,
      fun hs => ?_⟩
    · rw [hentries, ← List.append_assoc, ← h.waiting hphase hsignal]
    · rw [hsignal] at hs
      cases hs

theorem Inv.slaveTask (h : Inv crc s) : Inv crc (step crc s .slaveTask) := by
  cases hsignal : s.signalQueueDrain with
  | false => simpa [step, hsignal] using h
  | true =>
    obtain ⟨hall, -⟩ := h.told hsignal
    simp only [step, hsignal, if_true]
    refine ⟨h.published, h.current, h.trusted, fun _ _ => ?_,
      fun hp => absurd hp (h.not_drain hsignal), fun hs => by cases hs⟩
    rw [drain_entries, List.append_nil]
    exact hall

theorem Inv.publish (h : Inv crc s) : Inv crc (step crc s .publish) where
  published := .inl rfl
  current := h.current
  trusted := h.trusted
  waiting := h.waiting
  telling hp := by
    obtain ⟨hall, hsignal, hmaster, -⟩ := h.telling hp
    exact ⟨hall, hsignal, hmaster, rfl⟩
  told hs := by
    obtain ⟨hall, hlast, -, hphase⟩ := h.told hs
    exact ⟨hall, hlast, rfl, hphase⟩

theorem Inv.readChecksum (h : Inv crc s) (failed : Option UInt8) (forced : Bool) :
    Inv crc (step crc s (.readChecksum failed forced)) := by
  by_cases hidle : s.phase = .idle
  · have hnot : s.phase ≠ .drain := by simp [hidle]
    cases failed with
    | some checksum =>
      simp only [step, hidle, ne_eq, not_true_eq_false, if_false]
      refine ⟨h.published, by simp, by simp, fun _ hs => h.waiting hnot hs, by simp,
        fun hs => ?_⟩
      obtain ⟨hall, hlast, hshmem, -⟩ := h.told hs
      exact ⟨hall, hlast, hshmem, fun hp => absurd rfl hp⟩
    | none =>
      simp only [step, hidle, ne_eq, not_true_eq_false, if_false]
      have hdrain : (if (forced || decide (¬s.slaveShmem.checksum = crc s.masterShmem.events.bytes))
          = true then Phase.retrieve s.slaveShmem.checksum else .update) ≠ .drain := by
        split <;> simp
      refine ⟨h.published, fun curr hp => ?_, fun hp => ?_, fun _ hs => h.waiting hnot hs,
        fun hp => absurd hp hdrain, fun hs => ?_⟩
      · dsimp only at hp
        split at hp
        · cases hp
          rfl
        · cases hp
      · dsimp only at hp ⊢
        split at hp
        · cases hp
        · rename_i hsame
          simp only [Bool.or_eq_true, decide_eq_true_eq, not_or, not_not] at hsame
          exact hsame.2
      · obtain ⟨hall, hlast, hshmem, -⟩ := h.told hs
        exact ⟨hall, hlast, hshmem, fun _ => hshmem.trans hlast.symm⟩
  · simpa [step, hidle] using h

theorem Inv.readEvents (h : Inv crc s) (failed : Option (EncoderEvents n)) :
    Inv crc (step crc s (.readEvents failed)) := by
  cases hphase : s.phase with
  | retrieve curr =>
    have hnot : s.phase ≠ .drain := by simp [hphase]
    cases failed with
    | some events =>
      simp only [step, hphase]
      refine ⟨h.published, by simp, by simp, fun _ hs => h.waiting hnot hs, by simp,
        fun hs => ?_⟩
      obtain ⟨hall, hlast, hshmem, -⟩ := h.told hs
      exact ⟨hall, hlast, hshmem, fun hp => absurd rfl hp⟩
    | none =>
      simp only [step, hphase]
      refine ⟨h.published, fun c hp => ?_, fun hp => ?_, fun _ hs => h.waiting hnot hs,
        fun hp => ?_, fun hs => ?_⟩
      · dsimp only at hp
        split at hp <;> cases hp
      · dsimp only at hp ⊢
        split at hp
        · rename_i hsame
          rw [h.current curr hphase]
          exact hsame
        · cases hp
      · dsimp only at hp
        split at hp <;> cases hp
      · obtain ⟨hall, hlast, hshmem, hlater⟩ := h.told hs
        exact ⟨hall, hlast, hshmem, fun _ => hlater (by simp [hphase])⟩
  | _ => simpa [step, hphase] using h

theorem Inv.update (h : Inv crc s) (hn : n ≤ 256) (ho : Orderly s .update) :
    Inv crc (step crc s .update) := by
  by_cases hphase : s.phase = .update
  · have hnot : s.phase ≠ .drain := by simp [hphase]
    by_cases hsame : s.lastChecksum = s.masterShmem.checksum
    · simp only [step, hphase, hsame, ne_eq, not_true_eq_false, if_false, if_true]
      refine ⟨h.published, by simp, by simp, fun _ hs => h.waiting hnot hs, by simp,
        fun hs => ?_⟩
      obtain ⟨hall, hlast, hshmem, -⟩ := h.told hs
      exact ⟨hall, hsame ▸ hlast, hshmem, fun hp => absurd rfl hp⟩
    · have hsignal : s.signalQueueDrain = false := by
        by_contra hs
        have hlater := (h.told ((Bool.not_eq_false _).mp hs)).2.2.2
        exact hsame (hlater (by simp [hphase])).symm
      cases hempty : s.masterShmem.events.queue.isEmpty with
      | true =>
        simp only [step, hphase, hsame, hempty, ne_eq, not_true_eq_false, if_false, if_true]
        refine ⟨h.published, by simp, by simp, fun _ hs => h.waiting hnot hs, by simp,
          fun hs => ?_⟩
        rw [hsignal] at hs
        cases hs
      | false =>
        obtain ⟨hcopy, hqueue, hroom⟩ := ho hphase hsame hempty
        have hentries : s.masterShmem.events.entries = s.slave.entries :=
          EncoderEvents.entries_eq hn (hcopy.trans hqueue)
        rw [← hentries] at hroom
        have hlen : s.masterShmem.events.entries.length ≤ n := by omega
        obtain ⟨copy, master, hfwd⟩ := forward_all hlen hroom
        have hshmem : s.slaveShmem.checksum = crc s.slave.bytes := by
          rcases h.published with hpub | hnil
          · rw [hpub, hqueue]
          · rw [← EncoderEvents.entries_eq hn hcopy] at hnil
            have := Ring.isEmpty_iff.mpr hnil
            rw [hempty] at this
            cases this
        simp only [step, hphase, hsame, hempty, ne_eq, not_true_eq_false, if_false, hfwd,
          Bool.false_eq_true]
        refine ⟨h.published, by simp, by simp, fun hp => absurd rfl hp, fun _ => ?_, fun hs => ?_⟩
        · refine ⟨?_, hsignal, ?_, hshmem⟩
          · rw [hentries]
            exact h.waiting hnot hsignal
          · rw [h.trusted hphase, hcopy, hqueue]
        · rw [hsignal] at hs
          cases hs
  · simpa [step, hphase] using h

theorem Inv.drain (h : Inv crc s) {reached : Bool} (ho : Orderly s (.drain reached)) :
    Inv crc (step crc s (.drain reached)) := by
  by_cases hphase : s.phase = .drain
  · obtain ⟨hall, hsignal, hmaster, hshmem⟩ := h.telling hphase
    have hreached : reached = true := ho hphase
    simp only [step, hphase, hreached, ne_eq, not_true_eq_false, if_false, Bool.or_true]
    exact ⟨h.published, by simp, by simp, by simp, by simp,
      fun _ => ⟨hall, hmaster, hshmem, fun hp => absurd rfl hp⟩⟩
  · simpa [step, hphase] using h

theorem inv_step (h : Inv crc s) (hn : n ≤ 256) (a : Action n) (ho : Orderly s a) :
    Inv crc (step crc s a) := by
  cases a with
  | queueEvent index clockwise => exact h.queueEvent ho
  | slaveTask => exact h.slaveTask
  | publish => exact h.publish
  | readChecksum failed forced => exact h.readChecksum failed forced
  | readEvents failed => exact h.readEvents failed
  | update => exact h.update hn ho
  | drain reached => exact h.drain ho
  | masterTask => exact { h with }
  | masterEvent e => exact { h with }

/-- The slave publishes its queue, and nothing fails while the master reads it. -/
def wholeRead (forced : Bool) : List (Action n) :=
  [.publish,.readChecksum none forced,.readEvents none,.update]

theorem Inv.progress (h : Inv crc s) {forced : Bool} (hidle : s.phase = .idle)
    (hsignal : s.signalQueueDrain = false) (hnew : s.lastChecksum ≠ crc s.slave.bytes)
    (hread : forced = true ∨ crc s.slave.bytes ≠ crc s.masterShmem.events.bytes)
    (hroom : s.master.entries.length+s.slave.entries.length < n) :
    ((wholeRead forced).foldl (step crc) s).forwarded
      = s.queued := by
  have hwait := h.waiting (by simp [hidle]) hsignal
  have hretrieve : (forced || decide (crc s.slave.bytes ≠ crc s.masterShmem.events.bytes))
      = true := by
    rw [Bool.or_eq_true, decide_eq_true_eq]
    exact hread
  have hread : [.publish,.readChecksum none forced,.readEvents none].foldl (step crc) s
      = { s with
        slaveShmem := ⟨crc s.slave.bytes,s.slave⟩
        masterShmem := ⟨crc s.slave.bytes,s.slave⟩
        phase := .update } := by
    simp only [List.foldl_cons, List.foldl_nil, step, hidle, ne_eq, not_true_eq_false, if_false,
      hretrieve, if_true]
  have hsplit : wholeRead forced
      = ([.publish,.readChecksum none forced,.readEvents none] : List (Action n)) ++ [.update] := rfl
  rw [hsplit, List.foldl_append, hread]
  simp only [List.foldl_cons, List.foldl_nil, step, ne_eq, not_true_eq_false, if_false, hnew]
  cases hempty : s.slave.queue.isEmpty with
  | true =>
    have hnil : s.slave.entries = [] := Ring.isEmpty_iff.mp hempty
    rw [if_pos rfl, hwait, hnil, List.append_nil]
  | false =>
    rw [if_neg (by simp)]
    obtain ⟨copy, master, hfwd⟩ := @forward_all n n { s with
      slaveShmem := ⟨crc s.slave.bytes,s.slave⟩
      masterShmem := ⟨crc s.slave.bytes,s.slave⟩
      phase := .update } (by dsimp only; omega) hroom
    rw [hfwd]
    exact hwait.symm

/-- The events that are not forwarded yet wait on the slave in their order, and the next
publication and read forward them. -/
theorem encoder_events_delivered (hn : 0 < n) (hn' : n ≤ 256) (crc : List UInt8 → UInt8)
    (as : List (Action n)) (h : Along (step crc) Orderly (.start hn) as) :
    let s := run crc hn as
    (∃ waiting, s.queued = s.forwarded ++ waiting ∧ waiting <:+ s.slave.entries)
    ∧ ∀ forced, s.phase = .idle → s.signalQueueDrain = false →
      s.lastChecksum ≠ crc s.slave.bytes →
      (forced = true ∨ crc s.slave.bytes ≠ crc s.masterShmem.events.bytes) →
      s.master.entries.length+s.slave.entries.length < n →
      ((wholeRead forced).foldl (step crc) s).forwarded
        = s.queued := by
  intro s
  have hinv : Inv crc s :=
    Along.invariant (I := Inv crc) (fun _ a hs ho => inv_step hs hn' a ho) (inv_start hn) h
  refine ⟨?_, fun forced hidle hsignal hnew hread hroom =>
    hinv.progress hidle hsignal hnew hread hroom⟩
  by_cases hphase : s.phase = .drain
  · exact ⟨[], by simp [(hinv.telling hphase).1], List.nil_suffix⟩
  · cases hsignal : s.signalQueueDrain with
    | true => exact ⟨[], by simp [(hinv.told hsignal).1], List.nil_suffix⟩
    | false => exact ⟨_, hinv.waiting hphase hsignal, List.suffix_refl _⟩

/-- Two events are queued, read, forwarded and drained. -/
def twoDelivered : List (Action 4) :=
  [.queueEvent 0 true,.queueEvent 1 false] ++ wholeRead false ++ [.drain true,.slaveTask]

theorem encoder_events_delivered_two :
    let s := run crc8 (by decide) twoDelivered
    s.queued = [⟨0,true⟩,⟨1,false⟩] ∧ s.forwarded = s.queued := by
  have horderly : Along (step crc8) Orderly (.start (by decide)) twoDelivered := by decide +kernel
  have hnone : (run crc8 (by decide) twoDelivered).slave.entries = [] := by decide +kernel
  have hdelivered := (encoder_events_delivered (by decide) (by decide) crc8 _ horderly).1
  refine ⟨by decide +kernel, ?_⟩
  obtain ⟨waiting, hqueued, hsuffix⟩ := hdelivered
  rw [hnone] at hsuffix
  rw [hqueued, List.suffix_nil.mp hsuffix, List.append_nil]

/-- An event that the slave queues after the master has read is drained with the others. -/
theorem event_drained_unread :
    let s := run (n := 4) crc8 (by decide) ([.queueEvent 0 true] ++ wholeRead false
      ++ [.queueEvent 1 true,.drain true,.slaveTask])
    s.queued = [⟨0,true⟩,⟨1,true⟩] ∧ s.forwarded = [⟨0,true⟩]
      ∧ ¬ ∃ waiting, s.queued = s.forwarded ++ waiting ∧ waiting <:+ s.slave.entries := by
  intro s
  have hqueued : s.queued = [⟨0,true⟩,⟨1,true⟩] := by decide +kernel
  have hforwarded : s.forwarded = [⟨0,true⟩] := by decide +kernel
  have hnone : s.slave.entries = [] := by decide +kernel
  refine ⟨hqueued, hforwarded, ?_⟩
  rintro ⟨waiting, heq, hsuffix⟩
  rw [hnone] at hsuffix
  rw [hqueued, hforwarded, List.suffix_nil.mp hsuffix] at heq
  cases heq

end QmkFirmware.Split
