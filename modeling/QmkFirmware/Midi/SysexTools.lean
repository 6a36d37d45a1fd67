import QmkFirmware.Midi.Messages

/-!
Bytes of eight bits in the data of system exclusive messages, which have seven: a byte of the top
bits goes before every seven bytes.
-/

set_option autoImplicit false

namespace QmkFirmware.MidiDevice

def sysexEncodedLength (decodedLength : UInt16) : UInt16 :=
  if decodedLength % 7 ≠ 0 then decodedLength / 7*8+decodedLength % 7+1 else decodedLength / 7*8

def sysexDecodedLength (encodedLength : UInt16) : UInt16 :=
  if encodedLength % 8 ≠ 0 then encodedLength / 8*7+encodedLength % 8-1 else encodedLength / 8*7

def encodeSection (bytes : List UInt8) : List UInt8 :=
  bytes.zipIdx.foldl (fun msb c => msb ||| ((0x80 &&& c.1) >>> UInt8.ofNat (1+c.2))) 0
    :: bytes.map (0x7F &&& ·)

def sysexEncode (source : List UInt8) : List UInt8 :=
  let encodedFull := source.length / 7
  (List.range encodedFull).flatMap (fun i => encodeSection ((source.drop (i*7)).take 7))
    ++ if source.length % 7 ≠ 0 then encodeSection (source.drop (encodedFull*7)) else []

def decodeSection : List UInt8 → List UInt8
  | [] => []
  | msb :: bytes =>
    bytes.zipIdx.map fun c => (0x7F &&& c.1) ||| (0x80 &&& (msb <<< UInt8.ofNat (1+c.2)))

def sysexDecode (source : List UInt8) : List UInt8 :=
  let decodedFull := source.length / 8
  if source.length < 2 then []
  else (List.range decodedFull).flatMap (fun i => decodeSection ((source.drop (i*8)).take 8))
    ++ if source.length % 8 ≠ 0 then decodeSection (source.drop (decodedFull*8)) else []

theorem top_bit (i : Nat) : (0x80#8).getLsbD i = decide (i = 7) := by
  rw [show (0x80#8 : BitVec 8) = BitVec.twoPow 8 7 from rfl, BitVec.getLsbD_twoPow]
  simp [eq_comm]

theorem low_bits : ∀ i < 8, (0x7F#8).getLsbD i = decide (i < 7) := by decide

theorem shift_amount {k : Nat} (hk : k < 7) : ((UInt8.ofNat (1+k)).toBitVec % 8).toNat = 1+k := by
  simp
  omega

theorem shifted_right (c : UInt8) {k j : Nat} (hk : k < 7) (hj : j < 7) :
    ((0x80 &&& c) >>> UInt8.ofNat (1+k)).toBitVec.getLsbD (6-j)
      = (decide (k = j) && c.toBitVec.getLsbD 7) := by
  rw [UInt8.toBitVec_shiftRight, BitVec.ushiftRight_eq', BitVec.getLsbD_ushiftRight,
    shift_amount hk, UInt8.toBitVec_and, BitVec.getLsbD_and, UInt8.toBitVec_ofNat, top_bit]
  by_cases h : k = j
  · subst h
    rw [show 1+k+(6-k) = 7 by omega]
    simp
  · have hne : 1+k+(6-j) ≠ 7 := by omega
    simp [h, hne]

theorem shifted_left (msb : UInt8) {j : Nat} (hj : j < 7) (i : Nat) :
    (0x80 &&& (msb <<< UInt8.ofNat (1+j))).toBitVec.getLsbD i
      = (decide (i = 7) && msb.toBitVec.getLsbD (6-j)) := by
  rw [UInt8.toBitVec_and, BitVec.getLsbD_and, UInt8.toBitVec_ofNat, top_bit,
    UInt8.toBitVec_shiftLeft, BitVec.shiftLeft_eq', BitVec.getLsbD_shiftLeft, shift_amount hj]
  by_cases h : i = 7
  · subst h
    rw [show 7-(1+j) = 6-j by omega]
    simp
    omega
  · simp [h]

def sectionMsb (bytes : List UInt8) (k : Nat) (msb : UInt8) : UInt8 :=
  (bytes.zipIdx k).foldl (fun msb c => msb ||| ((0x80 &&& c.1) >>> UInt8.ofNat (1+c.2))) msb

theorem msb_bit {bytes : List UInt8} {msb : UInt8} {k j : Nat} (hlen : k+bytes.length ≤ 7)
    (hj : j < 7) : (sectionMsb bytes k msb).toBitVec.getLsbD (6-j)
      = (msb.toBitVec.getLsbD (6-j)
        || (bytes.zipIdx k).any fun c => decide (c.2 = j) && c.1.toBitVec.getLsbD 7) := by
  induction bytes generalizing msb k with
  | nil => simp [sectionMsb]
  | cons c bytes ih =>
    rw [List.length_cons] at hlen
    rw [sectionMsb, List.zipIdx_cons, List.foldl_cons, ← sectionMsb, List.any_cons,
      ih (by omega), UInt8.toBitVec_or, BitVec.getLsbD_or, shifted_right c (by omega) hj,
      Bool.or_assoc]

theorem any_zipIdx {bytes : List UInt8} {j : Nat} (hj : j < bytes.length) :
    (bytes.zipIdx.any fun c => decide (c.2 = j) && c.1.toBitVec.getLsbD 7)
      = bytes[j].toBitVec.getLsbD 7 := by
  rw [Bool.eq_iff_iff, List.any_eq_true]
  constructor
  · rintro ⟨⟨c,i⟩,hmem,hc⟩
    simp only [Bool.and_eq_true, decide_eq_true_eq] at hc
    obtain ⟨rfl,hbit⟩ := hc
    rw [List.mem_zipIdx_iff_getElem?] at hmem
    rw [List.getElem?_eq_getElem hj] at hmem
    rw [Option.some.inj hmem]
    exact hbit
  · intro hbit
    refine ⟨(bytes[j],j),?_,by simp [hbit]⟩
    rw [List.mem_zipIdx_iff_getElem?]
    exact List.getElem?_eq_getElem hj

theorem decodeSection_encodeSection {bytes : List UInt8} (hlen : bytes.length ≤ 7) :
    decodeSection (encodeSection bytes) = bytes := by
  refine List.ext_getElem (by simp [encodeSection, decodeSection]) fun j hj hj' => ?_
  have hmsb := @msb_bit bytes 0 0 j (by omega) (by omega)
  rw [any_zipIdx hj', sectionMsb] at hmsb
  refine UInt8.toBitVec_inj.mp (BitVec.eq_of_getLsbD_eq fun i hi => ?_)
  simp only [encodeSection, decodeSection, List.getElem_map, List.getElem_zipIdx, Nat.zero_add]
  rw [UInt8.toBitVec_or, BitVec.getLsbD_or, shifted_left _ (by omega), hmsb,
    UInt8.toBitVec_and, UInt8.toBitVec_and, UInt8.toBitVec_ofNat, BitVec.getLsbD_and,
    BitVec.getLsbD_and, low_bits i hi]
  by_cases h : i = 7
  · subst h
    simp
  · simp [h, show i < 7 by omega]

theorem sectionMsb_lt {bytes : List UInt8} {msb : UInt8} {k : Nat} (hmsb : msb < 0x80)
    (hlen : k+bytes.length ≤ 7) : sectionMsb bytes k msb < 0x80 := by
  induction bytes generalizing msb k with
  | nil => exact hmsb
  | cons c bytes ih =>
    rw [List.length_cons] at hlen
    have hshift : ((0x80 &&& c) >>> UInt8.ofNat (1+k)).toNat < 2^7 := by
      have hc := (0x80 &&& c).toNat_lt
      have hmod : (UInt8.ofNat (1+k)).toNat % 8 = k+1 := by
        simp
        omega
      rw [UInt8.toNat_shiftRight, hmod, Nat.shiftRight_eq_div_pow, Nat.pow_succ',
        ← Nat.div_div_eq_div_mul]
      exact Nat.lt_of_le_of_lt (Nat.div_le_self _ _) (by omega)
    refine @ih _ (k+1) ?_ (by omega)
    rw [UInt8.lt_iff_toNat_lt] at hmsb ⊢
    rw [UInt8.toNat_or]
    exact Nat.or_lt_two_pow hmsb hshift

theorem encodeSection_sevenBit {bytes : List UInt8} (hlen : bytes.length ≤ 7) :
    ∀ b ∈ encodeSection bytes, b < 0x80 := by
  intro b hb
  rcases List.mem_cons.mp hb with rfl | hb
  · exact @sectionMsb_lt bytes 0 0 (by decide) (by omega)
  · obtain ⟨c,-,rfl⟩ := List.mem_map.mp hb
    rw [UInt8.and_comm, and_127]
    exact mod_lt_128 c

variable {f : List UInt8 → List UInt8} {n : Nat}

def sections (f : List UInt8 → List UInt8) (n : Nat) (source : List UInt8) : List UInt8 :=
  (List.range (source.length / n)).flatMap (fun i => f ((source.drop (i*n)).take n))
    ++ if source.length % n ≠ 0 then f (source.drop (source.length / n*n)) else []

theorem sections_append (hn : 0 < n) {s : List UInt8} (hs : s.length = n) (source : List UInt8) :
    sections f n (s ++ source) = f s ++ sections f n source := by
  have hdrop (i : Nat) : (s ++ source).drop ((i+1)*n) = source.drop (i*n) := by
    rw [Nat.succ_mul, ← hs, Nat.add_comm, ← List.drop_drop, List.drop_left]
  have hfirst : ((s ++ source).drop (0*n)).take n = s := by
    rw [Nat.zero_mul, List.drop_zero, ← hs, List.take_left]
  simp only [sections, List.length_append, hs, Nat.add_div_left _ hn, Nat.add_mod_left,
    List.range_succ_eq_map, List.flatMap_cons, List.flatMap_map, hfirst, hdrop, List.append_assoc]

theorem sections_short {source : List UInt8} (h : source.length < n) (hf : source ≠ []) :
    sections f n source = f source := by
  have hpos := List.length_pos_iff.mpr hf
  simp only [sections, Nat.div_eq_of_lt h, Nat.mod_eq_of_lt h, Nat.zero_mul, List.drop_zero,
    List.range_zero, List.flatMap_nil, List.nil_append, if_pos (Nat.ne_of_gt hpos)]

theorem sysexEncode_eq (source : List UInt8) : sysexEncode source = sections encodeSection 7 source :=
  rfl

theorem sysexDecode_eq (source : List UInt8) :
    sysexDecode source = sections decodeSection 8 source := by
  rw [sysexDecode]
  split
  · next h =>
    match source, h with
    | [], _ => rfl
    | [_], _ => simp [sections, decodeSection]
  · rfl

theorem sysexDecode_sysexEncode (source : List UInt8) : sysexDecode (sysexEncode source) = source := by
  rw [sysexDecode_eq, sysexEncode_eq]
  induction hlen : source.length using Nat.strongRecOn generalizing source with
  | ind len ih =>
    by_cases hshort : source.length < 7
    · by_cases hnil : source = []
      · rw [hnil]
        rfl
      · have hlength : (encodeSection source).length < 8 := by
          simp [encodeSection]
          omega
        rw [sections_short hshort hnil, sections_short hlength (by simp [encodeSection]),
          decodeSection_encodeSection (by omega)]
    · have hfull : (source.take 7).length = 7 := by
        rw [List.length_take]
        omega
      have hlength : (encodeSection (source.take 7)).length = 8 := by
        simp only [encodeSection, List.length_cons, List.length_map, hfull]
      have hrest := ih (source.drop 7).length (by rw [List.length_drop]; omega) (source.drop 7) rfl
      calc sections decodeSection 8 (sections encodeSection 7 source)
          = sections decodeSection 8
              (sections encodeSection 7 (source.take 7 ++ source.drop 7)) := by
            rw [List.take_append_drop]
        _ = sections decodeSection 8
              (encodeSection (source.take 7) ++ sections encodeSection 7 (source.drop 7)) := by
            rw [sections_append (by decide) hfull]
        _ = decodeSection (encodeSection (source.take 7))
              ++ sections decodeSection 8 (sections encodeSection 7 (source.drop 7)) :=
            sections_append (by decide) hlength _
        _ = source.take 7 ++ source.drop 7 := by
            rw [decodeSection_encodeSection (Nat.le_of_eq hfull), hrest]
        _ = source := List.take_append_drop 7 source

theorem sysexEncode_sevenBit (source : List UInt8) : ∀ b ∈ sysexEncode source, b < 0x80 := by
  intro b hb
  rcases List.mem_append.mp hb with hb | hb
  · obtain ⟨i,-,hb⟩ := List.mem_flatMap.mp hb
    exact encodeSection_sevenBit (List.length_take_le _ _) b hb
  · split at hb
    · refine encodeSection_sevenBit ?_ b hb
      rw [List.length_drop]
      omega
    · contradiction

theorem length_encodeSection (bytes : List UInt8) :
    (encodeSection bytes).length = bytes.length+1 := by simp [encodeSection]

theorem length_sysexEncode (source : List UInt8) : (sysexEncode source).length
    = source.length / 7*8+if source.length % 7 ≠ 0 then source.length % 7+1 else 0 := by
  have hfull : ((List.range (source.length / 7)).flatMap
      fun i => encodeSection ((source.drop (i*7)).take 7)).length = source.length / 7*8 := by
    have hconst : (List.range (source.length / 7)).map
        (fun i => (encodeSection ((source.drop (i*7)).take 7)).length)
          = (List.range (source.length / 7)).map fun _ => 8 := by
      refine List.map_congr_left fun i hi => ?_
      have := List.mem_range.mp hi
      rw [length_encodeSection, List.length_take, List.length_drop]
      omega
    rw [List.length_flatMap, hconst]
    simp
  rw [sysexEncode, List.length_append, hfull]
  split
  · rw [length_encodeSection, List.length_drop]
    omega
  · rfl

theorem sysexEncodedLength_toNat {x : UInt16}
    (h : (x.toNat / 7*8+if x.toNat % 7 ≠ 0 then x.toNat % 7+1 else 0) < 2^16) :
    (sysexEncodedLength x).toNat
      = x.toNat / 7*8+if x.toNat % 7 ≠ 0 then x.toNat % 7+1 else 0 := by
  have hmod : x % 7 ≠ 0 ↔ x.toNat % 7 ≠ 0 := by
    rw [ne_eq, ← UInt16.toNat_inj, UInt16.toNat_mod]
    rfl
  simp only [sysexEncodedLength, hmod]
  by_cases hrest : x.toNat % 7 ≠ 0
  · rw [if_pos hrest] at h
    rw [if_pos hrest, if_pos hrest]
    simp only [UInt16.toNat_add, UInt16.toNat_mul, UInt16.toNat_div, UInt16.toNat_mod,
      UInt16.reduceToNat]
    omega
  · rw [if_neg hrest] at h
    rw [if_neg hrest, if_neg hrest]
    simp only [UInt16.toNat_mul, UInt16.toNat_div, UInt16.reduceToNat]
    omega

theorem sysexDecodedLength_toNat (x : UInt16) : (sysexDecodedLength x).toNat
    = x.toNat / 8*7+if x.toNat % 8 ≠ 0 then x.toNat % 8-1 else 0 := by
  have hlt := x.toNat_lt
  have hmod : x % 8 ≠ 0 ↔ x.toNat % 8 ≠ 0 := by
    rw [ne_eq, ← UInt16.toNat_inj, UInt16.toNat_mod]
    rfl
  simp only [sysexDecodedLength, hmod]
  split
  · simp only [UInt16.toNat_sub, UInt16.toNat_add, UInt16.toNat_mul, UInt16.toNat_div,
      UInt16.toNat_mod, UInt16.reduceToNat]
    omega
  · simp only [UInt16.toNat_mul, UInt16.toNat_div, UInt16.reduceToNat]
    omega

theorem sysex_lengths {source : List UInt8} (h : (sysexEncode source).length < 2^16) :
    (sysexEncodedLength (UInt16.ofNat source.length)).toNat = (sysexEncode source).length
      ∧ (sysexDecodedLength (UInt16.ofNat (sysexEncode source).length)).toNat
        = source.length := by
  have hlength := length_sysexEncode source
  have hsource : (UInt16.ofNat source.length).toNat = source.length :=
    (UInt16.toNat_ofNat').trans (Nat.mod_eq_of_lt (by split at hlength <;> omega))
  have hencoded : (UInt16.ofNat (sysexEncode source).length).toNat = (sysexEncode source).length :=
    (UInt16.toNat_ofNat').trans (Nat.mod_eq_of_lt h)
  rw [sysexEncodedLength_toNat (by rwa [hsource, ← hlength]), sysexDecodedLength_toNat, hsource,
    hencoded]
  refine ⟨hlength.symm,?_⟩
  split at hlength <;> split <;> omega

def Call.data : Call → List UInt8
  | .sysex _ data => data
  | _ => []

theorem sysexCalls_data (startByte : Nat) (bytes : List UInt8) :
    (sysexCalls startByte bytes).flatMap Call.data = bytes := by
  match bytes with
  | [] => rfl
  | [_] => rfl
  | [_,_] => rfl
  | byte0 :: byte1 :: byte2 :: bytes =>
    rw [sysexCalls, List.flatMap_cons, sysexCalls_data]
    rfl

theorem sysexCalls_callback {startByte : Nat} {bytes : List UInt8} :
    ∀ c ∈ sysexCalls startByte bytes, c.callback = .sysex := by
  match bytes with
  | [] => nofun
  | [_] | [_,_] => exact fun c hc => List.mem_singleton.mp hc ▸ rfl
  | byte0 :: byte1 :: byte2 :: bytes =>
    intro c hc
    rcases List.mem_cons.mp hc with rfl | hc
    · rfl
    · exact sysexCalls_callback c hc

end QmkFirmware.MidiDevice
