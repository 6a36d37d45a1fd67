import Mathlib.Data.List.Basic
import Mathlib.Data.Int.Basic

/-!
Run-length encoding of image bytes. The tool that prepares the images compresses them, and the
firmware decompresses them one byte at a time while it draws. Between the two are packets: a run
of one value, or up to 128 literal bytes.
-/

set_option autoImplicit false

namespace QmkFirmware.Painter

/-- `output`, `temp` and `repeat`. -/
structure Compressor where
  output : List Nat
  temp : List Nat
  repeating : Bool
  deriving DecidableEq, Repr

/-- `temp[-k]`. -/
def fromEnd (temp : List Nat) (k : Nat) : Nat := temp.getD (temp.length-k) 0

def appendRange (output r : List Nat) : List Nat := output ++ (127+r.length) :: r

def Compressor.turn (c : Compressor) (atEnd : Bool) : Compressor :=
  let len := c.temp.length
  let last := fromEnd c.temp 1
  if c.repeating then
    if last ≠ fromEnd c.temp 2 ∨ len = 128 ∨ atEnd then
      { output := c.output ++ [if atEnd then len else len-1,c.temp.headD 0]
        temp := [last]
        repeating := false }
    else c
  else if 2 ≤ len ∧ last = fromEnd c.temp 2 then
    if 2 < len then
      { output := appendRange c.output (c.temp.take (len-2))
        temp := [last,last]
        repeating := true }
    else { c with repeating := true }
  else if len = 128 ∨ atEnd then
    { output := appendRange c.output c.temp, temp := [], repeating := false }
  else c

def Compressor.append (c : Compressor) (b : Nat) : Compressor :=
  let c := { c with temp := c.temp ++ [b] }
  if c.temp.length ≤ 1 then c else c.turn false

def compressBytesQmkRle (bytes : List Nat) : List Nat :=
  ((bytes.foldl Compressor.append ⟨[],[],false⟩).turn true).output

/-- `bytes(data)`, which refuses what is not a byte. -/
def toBytes (data : List Nat) : Option (List UInt8) :=
  if ∀ b ∈ data, b < 256 then some (data.map UInt8.ofNat) else none

structure MemoryStream where
  buffer : List UInt8
  position : Nat
  isEof : Bool
  deriving DecidableEq, Repr

def makeMemoryStream (buffer : List UInt8) : MemoryStream := ⟨buffer,0,false⟩

/-- `mem_get`, with `STREAM_EOF` behind the last byte. -/
def MemoryStream.get (s : MemoryStream) : Int × MemoryStream :=
  match s.buffer[s.position]? with
  | some b => (b.toNat,{ s with position := s.position+1 })
  | none => (-1,{ s with isEof := true })

inductive RleMode where
  | markerByte
  | repeatingRun
  | nonRepeatingRun
  deriving DecidableEq, Repr

/-- `qp_internal_byte_input_state_t`. -/
structure InputState where
  srcStream : MemoryStream
  curr : Int
  mode : RleMode
  remain : UInt8
  deriving DecidableEq, Repr

def byteUncompressedDecoder (state : InputState) : Int × InputState :=
  let (curr,stream) := state.srcStream.get
  (curr,{ state with curr := curr, srcStream := stream })

def readMarker (state : InputState) : InputState :=
  let (marker,stream) := state.srcStream.get
  let c := UInt8.ofInt marker
  let (curr,stream) := stream.get
  if 128 ≤ c then
    { srcStream := stream, curr := curr, mode := .nonRepeatingRun, remain := c-127 }
  else { srcStream := stream, curr := curr, mode := .repeatingRun, remain := c }

def byteRleDecoder (state : InputState) : Int × InputState :=
  let state := if state.mode = .markerByte then readMarker state else state
  let c := UInt8.ofInt state.curr
  let state := { state with remain := state.remain-1 }
  if 0 < state.remain then
    if state.mode = .nonRepeatingRun then
      let (curr,stream) := state.srcStream.get
      (c.toNat,{ state with curr := curr, srcStream := stream })
    else (c.toNat,state)
  else (c.toNat,{ state with mode := .markerByte })

inductive Compression where
  | uncompressed
  | rle
  deriving DecidableEq, Repr

/-- `qp_internal_prepare_input_state`: the callback, and the state it starts in. -/
def prepareInputState (state : InputState) :
    Compression → (InputState → Int × InputState) × InputState
  | .uncompressed => (byteUncompressedDecoder,state)
  | .rle => (byteRleDecoder,{ state with mode := .markerByte, remain := 0 })

inductive Packet where
  | run (count value : Nat)
  | literal (values : List Nat)

namespace Packet

def bytes : Packet → List Nat
  | .run count value => [count,value]
  | .literal values => (127+values.length) :: values

def expand : Packet → List Nat
  | .run count value => List.replicate count value
  | .literal values => values

/-- The lengths that a marker byte can carry. -/
def Valid : Packet → Prop
  | .run count _ => 1 ≤ count ∧ count ≤ 127
  | .literal values => 1 ≤ values.length ∧ values.length ≤ 128

end Packet

@[simp] theorem fromEnd_one (l : List Nat) (a : Nat) : fromEnd (l ++ [a]) 1 = a := by
  simp [fromEnd]

@[simp] theorem fromEnd_two (l : List Nat) (a b : Nat) : fromEnd (l ++ [a,b]) 2 = a := by
  simp [fromEnd]

theorem fromEnd_one_pair (l : List Nat) (a b : Nat) : fromEnd (l ++ [a,b]) 1 = b := by
  rw [← List.singleton_append, ← List.append_assoc, fromEnd_one]

inductive Pending : List Nat → Bool → Prop where
  | literal {temp : List Nat} (length_le : temp.length ≤ 127)
      (ends : ∀ init a b, temp = init ++ [a,b] → b ≠ a) : Pending temp false
  | run {count value : Nat} (two_le : 2 ≤ count) (count_le : count ≤ 127) :
      Pending (List.replicate count value) true

structure Compressor.Inv (c : Compressor) (read : List Nat) (packets : List Packet) : Prop where
  valid : ∀ p ∈ packets, p.Valid
  output : c.output = packets.flatMap Packet.bytes
  read : read = packets.flatMap Packet.expand ++ c.temp
  pending : Pending c.temp c.repeating

namespace Compressor

variable {c : Compressor} {read : List Nat} {packets : List Packet}

theorem Inv.write {p : Packet} {temp' : List Nat} {repeating : Bool} {b : Nat}
    (h : c.Inv read packets) (hp : p.Valid) (htemp : c.temp ++ [b] = p.expand ++ temp')
    (hpending : Pending temp' repeating) :
    Inv ⟨c.output ++ p.bytes,temp',repeating⟩ (read ++ [b]) (packets ++ [p]) where
  valid q hq := by
    rcases List.mem_append.mp hq with hq | hq
    · exact h.valid q hq
    · rw [List.mem_singleton.mp hq]
      exact hp
  output := by simp [h.output]
  read := by
    rw [h.read, List.append_assoc, htemp]
    simp
  pending := hpending

theorem Inv.hold {temp' : List Nat} {repeating : Bool} {b : Nat} (h : c.Inv read packets)
    (htemp : c.temp ++ [b] = temp') (hpending : Pending temp' repeating) :
    Inv ⟨c.output,temp',repeating⟩ (read ++ [b]) packets where
  valid := h.valid
  output := h.output
  read := by rw [h.read, List.append_assoc, htemp]
  pending := hpending

theorem pending_singleton (b : Nat) : Pending [b] false :=
  .literal (by simp) fun init _ _ h => by simpa using congrArg List.length h

theorem pending_pair (b : Nat) : Pending [b,b] true := @Pending.run 2 b (by decide) (by decide)

theorem Inv.append_literal {init : List Nat} {a b : Nat} (h : c.Inv read packets)
    (hc : c.repeating = false) (htemp : c.temp = init ++ [a]) (hlen : c.temp.length ≤ 127) :
    ∃ packets, (c.append b).Inv (read ++ [b]) packets := by
  have hnew : c.temp ++ [b] = init ++ [a,b] := by simp [htemp]
  have hlen' : init.length+1 ≤ 127 := by simpa [htemp] using hlen
  rw [append, hnew, turn]
  simp only [hc, fromEnd_one_pair, fromEnd_two, List.length_append, List.length_cons,
    List.length_nil]
  rw [if_neg (by omega), if_neg (by simp)]
  by_cases hab : b = a
  · subst hab
    rw [if_pos (by omega)]
    cases init with
    | nil =>
      rw [if_neg (by simp)]
      exact ⟨_, h.hold hnew (pending_pair b)⟩
    | cons x xs =>
      rw [if_pos (by simp)]
      have hvalid : (Packet.literal (x :: xs)).Valid := by
        simp only [Packet.Valid, List.length_cons] at hlen' ⊢
        omega
      have htake : ((x :: xs) ++ [b,b]).take ((x :: xs).length+(0+1+1)-2) = x :: xs := by
        simp
      rw [htake]
      exact ⟨_, h.write hvalid hnew (pending_pair b)⟩
  · rw [if_neg (by simp [hab])]
    by_cases hfull : init.length+(0+1+1) = 128
    · rw [if_pos (.inl hfull)]
      have hvalid : (Packet.literal (init ++ [a,b])).Valid := by
        simp only [Packet.Valid, List.length_append, List.length_cons, List.length_nil]
        omega
      exact ⟨_, h.write hvalid (by simp [Packet.expand, hnew]) (.literal (by simp) (by simp))⟩
    · rw [if_neg (by simp [hfull])]
      refine ⟨_, h.hold hnew (.literal (by simp; omega) fun init' a' b' heq => ?_)⟩
      obtain ⟨-, heq⟩ := List.append_inj' heq rfl
      cases heq
      exact hab

theorem Inv.append_run {count value b : Nat} (h : c.Inv read packets) (hc : c.repeating = true)
    (htemp : c.temp = List.replicate count value) (hcount : 2 ≤ count ∧ count ≤ 127) :
    ∃ packets, (c.append b).Inv (read ++ [b]) packets := by
  obtain ⟨k, rfl⟩ : ∃ k, count = k+1 := ⟨count-1, by omega⟩
  have hnew : c.temp ++ [b] = List.replicate k value ++ [value,b] := by
    rw [htemp, List.replicate_succ']
    simp
  rw [append, hnew, turn]
  simp only [hc, fromEnd_one_pair, fromEnd_two, List.length_append, List.length_cons,
    List.length_nil, List.length_replicate, if_true]
  rw [if_neg (by omega)]
  by_cases hgo : b = value ∧ k+(0+1+1) ≠ 128
  · obtain ⟨rfl, hfull⟩ := hgo
    rw [if_neg (by simp [hfull])]
    have hrun : List.replicate k b ++ [b,b] = List.replicate (k+1+1) b := by
      rw [List.replicate_succ', List.replicate_succ', List.append_assoc]
      rfl
    exact ⟨_, h.hold hnew (hrun ▸ .run (by omega) (by omega))⟩
  · rw [if_pos (by
      rcases not_and_or.mp hgo with hne | hfull
      · exact .inl hne
      · exact .inr (.inl (not_not.mp hfull)))]
    have hhead : (List.replicate k value ++ [value,b]).headD 0 = value := by
      cases k <;> simp [List.replicate_succ]
    rw [hhead]
    exact ⟨_, @Inv.write _ _ _ (.run (k+1) value) _ _ _ h (by simp [Packet.Valid]; omega)
      (by rw [htemp]; rfl) (pending_singleton b)⟩

theorem Inv.append (h : c.Inv read packets) (b : Nat) :
    ∃ packets, (c.append b).Inv (read ++ [b]) packets := by
  obtain ⟨output, temp, repeating⟩ := c
  have hpending := h.pending
  cases hpending with
  | literal hlen _ =>
    cases htemp : temp.reverse with
    | nil =>
      have hnil : temp = [] := List.reverse_eq_nil_iff.mp htemp
      subst hnil
      exact ⟨_, h.hold rfl (pending_singleton b)⟩
    | cons a init =>
      have hinit : temp = init.reverse ++ [a] := by
        rw [← List.reverse_reverse temp, htemp, List.reverse_cons]
      exact h.append_literal rfl hinit hlen
  | run two_le count_le => exact h.append_run rfl rfl ⟨two_le, count_le⟩

theorem inv_foldl (bytes : List Nat) {c : Compressor} {read : List Nat} {packets : List Packet}
    (h : c.Inv read packets) :
    ∃ packets, (bytes.foldl append c).Inv (read ++ bytes) packets := by
  induction bytes generalizing c read packets with
  | nil => exact ⟨packets, by simpa using h⟩
  | cons b bytes ih =>
    obtain ⟨packets', h'⟩ := h.append b
    obtain ⟨packets'', h''⟩ := ih h'
    exact ⟨packets'', by simpa using h''⟩

theorem ends_pair {temp : List Nat} (h : 2 ≤ temp.length) :
    ∃ init a b, temp = init ++ [a,b] := by
  obtain ⟨n, hn⟩ : ∃ n, temp.length = n+2 := ⟨temp.length-2, by omega⟩
  have hdrop : (temp.drop n).length = 2 := by simp [hn]
  obtain ⟨a, b, hab⟩ := List.length_eq_two.mp hdrop
  exact ⟨temp.take n, a, b, by rw [← hab, List.take_append_drop]⟩

theorem Inv.last {p : Packet} (h : c.Inv read packets) (hp : p.Valid)
    (hexpand : p.expand = c.temp) (hturn : (c.turn true).output = c.output ++ p.bytes) :
    ∃ packets : List Packet, (c.turn true).output = packets.flatMap Packet.bytes
      ∧ read = packets.flatMap Packet.expand ∧ ∀ p ∈ packets, p.Valid := by
  refine ⟨packets ++ [p], ?_, ?_, ?_⟩
  · rw [hturn, h.output]
    simp
  · rw [h.read, ← hexpand]
    simp
  · intro q hq
    rcases List.mem_append.mp hq with hq | hq
    · exact h.valid q hq
    · rw [List.mem_singleton.mp hq]
      exact hp

/-- At the end the bytes held back become the last packet, or an empty literal if there are
none. -/
theorem Inv.finish (h : c.Inv read packets) :
    ∃ (packets : List Packet) (marker : List Nat),
      (c.turn true).output = packets.flatMap Packet.bytes ++ marker
      ∧ read = packets.flatMap Packet.expand ∧ (∀ p ∈ packets, p.Valid)
      ∧ (marker = [] ∨ marker = [127]) := by
  have hwhole : ∀ p : Packet, p.Valid → p.expand = c.temp →
      (c.turn true).output = c.output ++ p.bytes →
      ∃ (packets : List Packet) (marker : List Nat),
        (c.turn true).output = packets.flatMap Packet.bytes ++ marker
        ∧ read = packets.flatMap Packet.expand ∧ (∀ p ∈ packets, p.Valid)
        ∧ (marker = [] ∨ marker = [127]) := by
    intro p hp hexpand hturn
    obtain ⟨packets, houtput, hread, hvalid⟩ := h.last hp hexpand hturn
    exact ⟨packets, [], by rw [houtput, List.append_nil], hread, hvalid, .inl rfl⟩
  obtain ⟨output, temp, repeating⟩ := c
  dsimp only at hwhole
  have hpending : Pending temp repeating := h.pending
  cases hpending with
  | literal length_le ends =>
    have hdiffer : ¬(2 ≤ temp.length ∧ fromEnd temp 1 = fromEnd temp 2) := by
      rintro ⟨htwo, heq⟩
      obtain ⟨init, a, b, rfl⟩ := ends_pair htwo
      rw [fromEnd_one_pair, fromEnd_two] at heq
      exact ends init a b rfl heq
    have hturn : (turn ⟨output,temp,false⟩ true).output = appendRange output temp := by
      rw [turn]
      simp only [Bool.false_eq_true, if_false, hdiffer, or_true, if_true]
    cases temp with
    | nil =>
      refine ⟨packets, [127], ?_, by simpa using h.read, h.valid, .inr rfl⟩
      have houtput : output = packets.flatMap Packet.bytes := h.output
      rw [hturn, appendRange, houtput]
      rfl
    | cons x xs => exact hwhole (.literal (x :: xs)) ⟨by simp, by omega⟩ rfl hturn
  | @run count value two_le count_le =>
    refine hwhole (.run count value) ⟨by omega, count_le⟩ rfl ?_
    have hhead : (List.replicate count value).headD 0 = value := by
      cases count with
      | zero => omega
      | succ k => rfl
    rw [turn]
    simp only [or_true, if_true, hhead, List.length_replicate]
    rfl

end Compressor

theorem compress_packets (bytes : List Nat) :
    ∃ (packets : List Packet) (marker : List Nat),
      compressBytesQmkRle bytes = packets.flatMap Packet.bytes ++ marker
      ∧ bytes = packets.flatMap Packet.expand ∧ (∀ p ∈ packets, p.Valid)
      ∧ (marker = [] ∨ marker = [127]) := by
  have hstart : Compressor.Inv ⟨[],[],false⟩ [] [] :=
    ⟨by simp, rfl, rfl, .literal (by simp) (by simp)⟩
  obtain ⟨packets, h⟩ := Compressor.inv_foldl bytes hstart
  exact h.finish

/-- The callback returns these bytes, one at a call. -/
def Reads {σ : Type} (input : σ → Int × σ) : List UInt8 → σ → σ → Prop
  | [], s, s' => s' = s
  | b :: bs, s, s' => (input s).1 = b.toNat ∧ Reads input bs (input s).2 s'

theorem Reads.append {σ : Type} {input : σ → Int × σ} {bs bs' : List UInt8} {s s' s'' : σ}
    (h : Reads input bs s s') (h' : Reads input bs' s' s'') : Reads input (bs ++ bs') s s'' := by
  induction bs generalizing s with
  | nil =>
    cases h
    exact h'
  | cons b bs ih => exact ⟨h.1, ih h.2⟩

/-- A stream that has given what is before its position. -/
def MemoryStream.at (given rest : List UInt8) : MemoryStream := ⟨given ++ rest,given.length,false⟩

@[simp] theorem get_at (given rest : List UInt8) (b : UInt8) :
    (MemoryStream.at given (b :: rest)).get
      = ((b.toNat : Int),MemoryStream.at (given ++ [b]) rest) := by
  simp [MemoryStream.get, MemoryStream.at]

@[simp] theorem ofInt_toNat (b : UInt8) : UInt8.ofInt (b.toNat : Int) = b := by
  have hsmall : (b.toNat : Int)%2^8 = b.toNat := by
    have := b.toNat_lt
    omega
  rw [UInt8.ofInt, hsmall, Int.toNat_natCast, UInt8.ofNat_toNat]

theorem reads_marker {s s' : InputState} {bs : List UInt8} (hmode : s.mode = .markerByte)
    (hbs : bs ≠ []) (h : Reads byteRleDecoder bs (readMarker s) s') :
    Reads byteRleDecoder bs s s' := by
  have hnot : (readMarker s).mode ≠ .markerByte := by
    rw [readMarker]
    dsimp only
    split <;> simp
  have hsame : byteRleDecoder s = byteRleDecoder (readMarker s) := by
    rw [byteRleDecoder, byteRleDecoder, if_pos hmode, if_neg hnot]
  cases bs with
  | nil => exact absurd rfl hbs
  | cons b bs =>
    rw [Reads, hsame]
    exact h

theorem remain_pos {k : Nat} (hk : k < 256) : (0 < UInt8.ofNat k) ↔ 0 < k := by
  rw [UInt8.lt_iff_toNat_lt, UInt8.toNat_ofNat_of_lt' hk]
  rfl

theorem remain_succ (k : Nat) : UInt8.ofNat (k+1)-1 = UInt8.ofNat k := by
  rw [UInt8.ofNat_add]
  simp

theorem reads_run (v : UInt8) (stream : MemoryStream) {k : Nat} (hk : k < 128) :
    ∃ s', Reads byteRleDecoder (List.replicate (k+1) v)
      ⟨stream,v.toNat,.repeatingRun,UInt8.ofNat (k+1)⟩ s'
        ∧ s'.srcStream = stream ∧ s'.mode = .markerByte := by
  induction k with
  | zero => exact ⟨_, ⟨by simp [byteRleDecoder], rfl⟩, by simp [byteRleDecoder],
      by simp [byteRleDecoder]⟩
  | succ k ih =>
    obtain ⟨s', hreads, hs'⟩ := ih (by omega)
    have hstep : byteRleDecoder ⟨stream,v.toNat,.repeatingRun,UInt8.ofNat (k+1+1)⟩
        = ((v.toNat : Int),⟨stream,v.toNat,.repeatingRun,UInt8.ofNat (k+1)⟩) := by
      simp only [byteRleDecoder, reduceCtorEq, if_false, remain_succ, ofInt_toNat]
      rw [if_pos ((remain_pos (by omega)).mpr (by omega))]
    exact ⟨s', ⟨by rw [hstep], by rw [hstep]; exact hreads⟩, hs'⟩

theorem reads_literal (v : UInt8) (given vs rest : List UInt8) (hlen : vs.length < 128) :
    ∃ s', Reads byteRleDecoder (v :: vs)
      ⟨.at given (vs ++ rest),v.toNat,.nonRepeatingRun,UInt8.ofNat (vs.length+1)⟩ s'
        ∧ s'.srcStream = .at (given ++ vs) rest ∧ s'.mode = .markerByte := by
  induction vs generalizing v given with
  | nil => exact ⟨_, ⟨by simp [byteRleDecoder], rfl⟩, by simp [byteRleDecoder],
      by simp [byteRleDecoder]⟩
  | cons w vs ih =>
    simp only [List.length_cons] at hlen
    obtain ⟨s', hreads, hstream, hmode⟩ := ih w (given ++ [w]) (by omega)
    have hstep : byteRleDecoder ⟨.at given (w :: vs ++ rest),v.toNat,.nonRepeatingRun,
        UInt8.ofNat (vs.length+1+1)⟩ = ((v.toNat : Int),
          ⟨.at (given ++ [w]) (vs ++ rest),w.toNat,.nonRepeatingRun,
            UInt8.ofNat (vs.length+1)⟩) := by
      simp only [byteRleDecoder, reduceCtorEq, if_false, remain_succ, ofInt_toNat, if_true,
        List.cons_append, get_at]
      rw [if_pos ((remain_pos (by omega)).mpr (by omega))]
    rw [List.length_cons]
    refine ⟨s', ⟨by rw [hstep], by rw [hstep]; exact hreads⟩, ?_, hmode⟩
    rw [hstream, List.append_assoc, List.singleton_append]

abbrev asBytes (data : List Nat) : List UInt8 := data.map UInt8.ofNat

theorem readMarker_at {s : InputState} {given rest : List UInt8} {m v : UInt8}
    (hstream : s.srcStream = .at given (m :: v :: rest)) :
    readMarker s = if 128 ≤ m then ⟨.at (given ++ [m,v]) rest,v.toNat,.nonRepeatingRun,m-127⟩
      else ⟨.at (given ++ [m,v]) rest,v.toNat,.repeatingRun,m⟩ := by
  have hgiven : given ++ [m] ++ [v] = given ++ [m,v] := by simp
  simp only [readMarker, hstream, get_at, ofInt_toNat, hgiven]

theorem reads_packet {p : Packet} (hp : p.Valid) (given rest : List UInt8) {s : InputState}
    (hstream : s.srcStream = .at given (asBytes p.bytes ++ rest)) (hmode : s.mode = .markerByte) :
    ∃ s', Reads byteRleDecoder (asBytes p.expand) s s'
      ∧ s'.srcStream = .at (given ++ asBytes p.bytes) rest ∧ s'.mode = .markerByte := by
  cases p with
  | run count value =>
    obtain ⟨hpos, hcount⟩ := hp
    obtain ⟨k, rfl⟩ : ∃ k, count = k+1 := ⟨count-1, by omega⟩
    obtain ⟨s', hreads, hs', hmode'⟩ := reads_run (UInt8.ofNat value)
      (.at (given ++ asBytes [k+1,value]) rest) (show k < 128 by omega)
    have hsmall : ¬128 ≤ UInt8.ofNat (k+1) := by
      rw [UInt8.le_iff_toNat_le, UInt8.toNat_ofNat_of_lt' (show k+1 < 256 by omega)]
      exact Nat.not_le.mpr (by simp only [UInt8.toNat_ofNat]; omega)
    refine ⟨s', ?_, hs', hmode'⟩
    rw [Packet.expand, asBytes, List.map_replicate]
    refine reads_marker hmode (by simp) ?_
    rw [readMarker_at hstream, if_neg hsmall]
    exact hreads
  | literal values =>
    obtain ⟨hpos, hcount⟩ := hp
    cases values with
    | nil => simp at hpos
    | cons v vs =>
      rw [List.length_cons] at hcount
      obtain ⟨s', hreads, hs', hmode'⟩ := reads_literal (UInt8.ofNat v)
        (given ++ asBytes [127+(vs.length+1),v]) (asBytes vs) rest
        (by rw [List.length_map]; omega)
      have hlarge : 128 ≤ UInt8.ofNat (127+(vs.length+1)) := by
        rw [UInt8.le_iff_toNat_le,
          UInt8.toNat_ofNat_of_lt' (show 127+(vs.length+1) < 256 by omega)]
        simp only [UInt8.toNat_ofNat]
        omega
      have hremain : UInt8.ofNat (127+(vs.length+1))-127 = UInt8.ofNat (vs.length+1) := by
        rw [UInt8.ofNat_add, UInt8.add_comm]
        exact UInt8.add_sub_cancel _ _
      refine ⟨s', reads_marker hmode (by simp [Packet.expand]) ?_, ?_, hmode'⟩
      · rw [readMarker_at hstream, List.length_cons, if_pos hlarge, hremain]
        rw [List.length_map] at hreads
        exact hreads
      · rw [hs', List.append_assoc]
        rfl

theorem reads_packets {packets : List Packet} (hvalid : ∀ p ∈ packets, p.Valid)
    (given rest : List UInt8) {s : InputState}
    (hstream : s.srcStream = .at given (asBytes (packets.flatMap Packet.bytes) ++ rest))
    (hmode : s.mode = .markerByte) :
    ∃ s', Reads byteRleDecoder (asBytes (packets.flatMap Packet.expand)) s s'
      ∧ s'.srcStream = .at (given ++ asBytes (packets.flatMap Packet.bytes)) rest := by
  induction packets generalizing given s with
  | nil => exact ⟨s, rfl, by simpa using hstream⟩
  | cons p packets ih =>
    obtain ⟨s', hreads, hs', hmode'⟩ := reads_packet (hvalid p (by simp)) given
      (asBytes (packets.flatMap Packet.bytes) ++ rest) (by simpa using hstream) hmode
    obtain ⟨s'', hreads', hs''⟩ := ih (fun q hq => hvalid q (by simp [hq])) _ hs' hmode'
    refine ⟨s'', ?_, by simpa using hs''⟩
    simpa using hreads.append hreads'

theorem mem_expand_lt {packets : List Packet} (hvalid : ∀ p ∈ packets, p.Valid)
    (h : ∀ b ∈ packets.flatMap Packet.expand, b < 256) :
    ∀ b ∈ packets.flatMap Packet.bytes, b < 256 := by
  intro b hb
  obtain ⟨p, hp, hbp⟩ := List.mem_flatMap.mp hb
  have hexpand : ∀ v ∈ p.expand, v < 256 := fun v hv => h v (List.mem_flatMap.mpr ⟨p, hp, hv⟩)
  have hlen := hvalid p hp
  cases p with
  | run count value =>
    obtain ⟨hpos, hcount⟩ := hlen
    simp only [Packet.bytes, List.mem_cons, List.not_mem_nil, or_false] at hbp
    rcases hbp with rfl | rfl
    · omega
    · exact hexpand b (by simp [Packet.expand]; omega)
  | literal values =>
    obtain ⟨hpos, hcount⟩ := hlen
    simp only [Packet.bytes, List.mem_cons] at hbp
    rcases hbp with rfl | hbp
    · omega
    · exact hexpand b hbp

/-- The compressed bytes decompress to the bytes, and no more than an empty literal is left of
them. -/
theorem compress_reads {data : List Nat} (hdata : ∀ b ∈ data, b < 256) :
    ∃ buffer given rest, toBytes (compressBytesQmkRle data) = some buffer
      ∧ buffer = given ++ rest ∧ (rest = [] ∨ rest = [127])
      ∧ ∀ s : InputState, s.srcStream = makeMemoryStream buffer → s.mode = .markerByte →
        ∃ s', Reads byteRleDecoder (asBytes data) s s' ∧ s'.srcStream = .at given rest := by
  obtain ⟨packets, marker, hcompress, hexpand, hvalid, hmarker⟩ := compress_packets data
  have hbytes : ∀ b ∈ compressBytesQmkRle data, b < 256 := by
    intro b hb
    rw [hcompress] at hb
    rcases List.mem_append.mp hb with hb | hb
    · exact mem_expand_lt hvalid (hexpand ▸ hdata) b hb
    · rcases hmarker with rfl | rfl
      · cases hb
      · rw [List.mem_singleton.mp hb]
        decide
  refine ⟨_, asBytes (packets.flatMap Packet.bytes), asBytes marker, if_pos hbytes, ?_, ?_, ?_⟩
  · rw [hcompress, List.map_append]
  · rcases hmarker with rfl | rfl
    · exact .inl rfl
    · exact .inr rfl
  · intro s hstream hmode
    rw [hcompress, List.map_append] at hstream
    rw [hexpand]
    exact reads_packets hvalid [] (asBytes marker) hstream hmode

end QmkFirmware.Painter
