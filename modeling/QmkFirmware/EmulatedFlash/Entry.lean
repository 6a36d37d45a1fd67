import QmkFirmware.EmulatedFlash.Core
import QmkFirmware.Lib.LogReplay
import Mathlib.Data.Nat.Bitwise

/-!
Entries of the write log: what each turn of the replay makes of the half-words that the writers
put there.
-/

set_option autoImplicit false

namespace QmkFirmware.EmulatedFlash

theorem toNat_lo (w : UInt16) : w.toUInt8.toNat = w.toNat%256 := by
  simp

theorem toNat_hi (w : UInt16) : (w >>> 8).toUInt8.toNat = w.toNat/256 := by
  have := w.toNat_lt
  simp [UInt16.toNat_shiftRight, Nat.shiftRight_eq_div_pow]
  omega

theorem word_of_bytes (w : UInt16) :
    UInt16.ofNat (w.toUInt8.toNat+256*(w >>> 8).toUInt8.toNat) = w := by
  rw [toNat_lo, toNat_hi, Nat.mod_add_div, UInt16.ofNat_toNat]

theorem toNat_word (m : ByteMem) (a : Nat) :
    (word m a).toNat = (m a).toNat+256*(m (a+1)).toNat := by
  have hlo := (m a).toNat_lt
  have hhi := (m (a+1)).toNat_lt
  rw [word, UInt16.toNat_ofNat_of_lt' (by simp [UInt16.size]; omega)]

theorem storeWord_apply (m : ByteMem) (a : Nat) (w : UInt16) (x : Nat) :
    storeWord m a w x = if x = a then w.toUInt8 else if x = a+1 then (w >>> 8).toUInt8 else m x := by
  rw [storeWord, ByteMem.write_apply]
  by_cases hx : a ≤ x
  · obtain ⟨i, rfl⟩ : ∃ i, x = a+i := ⟨x-a, by omega⟩
    rw [if_pos hx, Nat.add_sub_cancel_left]
    match i with
    | 0 => simp
    | 1 => simp
    | i+2 => simp
  · rw [if_neg hx, if_neg (by omega), if_neg (by omega)]

theorem word_storeWord (m : ByteMem) (a : Nat) (w : UInt16) : word (storeWord m a w) a = w := by
  rw [word, storeWord_apply, storeWord_apply, if_pos rfl, if_neg (by omega), if_pos rfl,
    word_of_bytes]

theorem word_congr {m m' : ByteMem} {a : Nat} (h : m a = m' a) (h' : m (a+1) = m' (a+1)) :
    word m a = word m' a := by
  rw [word, word, h, h']

theorem word_storeWord_ne {m : ByteMem} {a b : Nat} {w : UInt16} (h : a+2 ≤ b ∨ b+2 ≤ a) :
    word (storeWord m a w) b = word m b := by
  apply word_congr
  · rw [storeWord_apply, if_neg (by omega), if_neg (by omega)]
  · rw [storeWord_apply, if_neg (by omega), if_neg (by omega)]

theorem word_eq_empty_iff {m : ByteMem} {a : Nat} :
    word m a = emptyWord ↔ m a = 0xFF ∧ m (a+1) = 0xFF := by
  rw [← UInt16.toNat_inj, toNat_word, ← UInt8.toNat_inj, ← UInt8.toNat_inj]
  have hlo := (m a).toNat_lt
  have hhi := (m (a+1)).toNat_lt
  simp only [emptyWord, UInt16.toNat_ofNat, UInt8.toNat_ofNat]
  omega

theorem top_and {lo k : Nat} (hlo : lo < 2^k) (hi m : Nat) :
    (lo ||| hi <<< k) &&& m <<< k = (hi &&& m) <<< k := by
  have hzero : lo &&& m <<< k = 0 := by
    apply Nat.eq_of_testBit_eq
    intro i
    rw [Nat.testBit_and, Nat.testBit_shiftLeft, Nat.zero_testBit]
    by_cases hi : k ≤ i
    · rw [Nat.testBit_eq_false_of_lt (hlo.trans_le (Nat.pow_le_pow_right (by decide) hi))]
      rfl
    · simp [hi]
  rw [Nat.and_or_distrib_right, hzero, Nat.zero_or, Nat.shiftLeft_and_distrib]

theorem low_and {lo k : Nat} (hlo : lo < 2^k) (hi : Nat) :
    (lo ||| hi <<< k) &&& (2^k-1) = lo := by
  rw [Nat.or_comm, ← Nat.shiftLeft_add_eq_or_of_lt hlo, Nat.and_two_pow_sub_one_eq_mod,
    Nat.shiftLeft_eq, Nat.mul_comm, Nat.mul_add_mod, Nat.mod_eq_of_lt hlo]

section Fields

variable {address encoding : UInt16} {hi : Nat}

theorem toNat_entry (address encoding : UInt16) :
    (address >>> 1 ||| encoding).toNat = address.toNat/2 ||| encoding.toNat := by
  rw [UInt16.toNat_or, UInt16.toNat_shiftRight]
  rfl

theorem entry_mask (ha : address.toNat < 0x4000) (henc : encoding.toNat = hi <<< 13)
    (mask : UInt16) (m : Nat) (result : UInt16) (hmask : mask.toNat = m <<< 13)
    (hresult : result.toNat = (hi &&& m) <<< 13) :
    (address >>> 1 ||| encoding) &&& mask = result := by
  apply UInt16.toNat_inj.mp
  rw [UInt16.toNat_and, toNat_entry, henc, hmask, top_and (by omega), hresult]

theorem entry_ne_empty (ha : address.toNat < 0x4000) (henc : encoding.toNat = hi <<< 13)
    (h : address.toNat/2+hi*8192 ≠ 65535) : address >>> 1 ||| encoding ≠ emptyWord := by
  intro heq
  have hnat := congrArg UInt16.toNat heq
  rw [toNat_entry, henc, Nat.or_comm, ← Nat.shiftLeft_add_eq_or_of_lt (by omega),
    Nat.shiftLeft_eq] at hnat
  simp only [emptyWord, UInt16.toNat_ofNat] at hnat
  omega

theorem entry_address (ha : address.toNat < 0x4000) (heven : address.toNat%2 = 0)
    (henc : encoding.toNat = hi <<< 13) :
    ((address >>> 1 ||| encoding) &&& 0x1FFF) <<< 1 = address := by
  have hlow : ((address >>> 1 ||| encoding) &&& 0x1FFF).toNat = address.toNat/2 := by
    rw [UInt16.toNat_and, toNat_entry, henc]
    exact low_and (by omega) hi
  apply UInt16.toNat_inj.mp
  rw [UInt16.toNat_shiftLeft, hlow]
  simp only [UInt16.toNat_one, Nat.one_mod, Nat.shiftLeft_eq, Nat.pow_one]
  omega

end Fields

variable (cfg : Config)

def nextEntry : LogReplay.Reader ByteMem := fun flash logAddr dataBuf =>
  match replayTurn cfg flash logAddr dataBuf with
  | .stop _ => none
  | .go logAddr' dataBuf' => some (logAddr',dataBuf')

variable {cfg} {flash : ByteMem} {logAddr : Nat} {dataBuf : ByteMem}

theorem nextEntry_byte {address : UInt16} {value : UInt8} (ha : address < 0x80)
    (hword : word flash logAddr = address <<< 8 ||| value.toUInt16) :
    nextEntry cfg flash logAddr dataBuf
      = some (logAddr+2,dataBuf.write address.toNat [value]) := by
  have ha : address.toNat < 128 := UInt16.lt_iff_toNat_lt.mp ha
  have hnat : (address <<< 8 ||| value.toUInt16).toNat = address.toNat*256+value.toNat := by
    have hv := value.toNat_lt
    rw [UInt16.toNat_or, UInt16.toNat_shiftLeft]
    simp only [UInt16.toNat_ofNat, UInt8.toNat_toUInt16, Nat.reducePow, Nat.reduceMod]
    rw [Nat.mod_eq_of_lt (by rw [Nat.shiftLeft_eq]; omega), ← Nat.shiftLeft_add_eq_or_of_lt hv,
      Nat.shiftLeft_eq]
  have hne : address <<< 8 ||| value.toUInt16 ≠ emptyWord := by
    intro h
    have := congrArg UInt16.toNat h
    rw [hnat] at this
    have hv := value.toNat_lt
    simp only [emptyWord, UInt16.toNat_ofNat] at this
    omega
  have hv := value.toNat_lt
  have htop : (address <<< 8 ||| value.toUInt16) &&& 0x8000 = 0 := by
    apply UInt16.toNat_inj.mp
    have hmask := @top_and _ 15 (show address.toNat*256+value.toNat < 2^15 by omega) 0 1
    rw [UInt16.toNat_and, hnat]
    simpa using hmask
  have haddr : (address <<< 8 ||| value.toUInt16) >>> 8 = address := by
    apply UInt16.toNat_inj.mp
    rw [UInt16.toNat_shiftRight, hnat]
    simp only [UInt16.toNat_ofNat, Nat.reducePow, Nat.reduceMod, Nat.shiftRight_eq_div_pow]
    omega
  have hvalue : (address <<< 8 ||| value.toUInt16).toUInt8 = value := by
    apply UInt8.toNat_inj.mp
    rw [toNat_lo, hnat]
    omega
  rw [nextEntry, replayTurn, hword]
  simp only [hne, htop, haddr, hvalue, if_false, if_true]

theorem le_one_cases {value : UInt16} (h : value ≤ 1) : value = 0 ∨ value = 1 := by
  have hle : value.toNat ≤ 1 := UInt16.le_iff_toNat_le.mp h
  rcases (show value.toNat = 0 ∨ value.toNat = 1 by omega) with h | h
  · exact .inl (UInt16.toNat_inj.mp h)
  · exact .inr (UInt16.toNat_inj.mp h)

theorem nextEntry_encoded {address value : UInt16} (ha : address.toNat < 0x4000)
    (heven : address.toNat%2 = 0) (hvalue : value ≤ 1)
    (hword : word flash logAddr = (address >>> 1 ||| ((0x8000 : UInt16) ||| value <<< 13))) :
    nextEntry cfg flash logAddr dataBuf
      = some (logAddr+2,setWord cfg address value dataBuf) := by
  rw [nextEntry, replayTurn, hword]
  rcases le_one_cases hvalue with rfl | rfl
  · have henc : ((0x8000 : UInt16) ||| (0 : UInt16) <<< 13).toNat = 4 <<< 13 := by decide
    simp only [entry_ne_empty ha henc (by omega), entry_address ha heven henc,
      entry_mask ha henc 0x8000 4 0x8000 (by decide) (by decide),
      entry_mask ha henc 0x6000 3 0 (by decide) (by decide),
      entry_mask ha henc 0x4000 2 0 (by decide) (by decide),
      entry_mask ha henc 0x2000 1 0 (by decide) (by decide)]
    rfl
  · have henc : ((0x8000 : UInt16) ||| (1 : UInt16) <<< 13).toNat = 5 <<< 13 := by decide
    simp only [entry_ne_empty ha henc (by omega), entry_address ha heven henc,
      entry_mask ha henc 0x8000 4 0x8000 (by decide) (by decide),
      entry_mask ha henc 0x6000 3 0x2000 (by decide) (by decide),
      entry_mask ha henc 0x4000 2 0 (by decide) (by decide),
      entry_mask ha henc 0x2000 1 0x2000 (by decide) (by decide)]
    rfl

def pairEntry (address : UInt16) : UInt16 := (address-0x80) >>> 1 ||| ((0x8000 : UInt16) ||| 0x6000)

theorem toNat_sub_128 {address : UInt16} (hlow : 128 ≤ address.toNat) :
    (address-0x80).toNat = address.toNat-128 := by
  have hle : (0x80 : UInt16) ≤ address := UInt16.le_iff_toNat_le.mpr hlow
  rw [UInt16.toNat_sub_of_le _ _ hle]
  rfl

theorem pairEntry_ne_empty {address : UInt16} (ha : address.toNat < 0x4000)
    (hlow : 128 ≤ address.toNat) : pairEntry address ≠ emptyWord := by
  have hsub := toNat_sub_128 hlow
  exact entry_ne_empty (by omega)
    (show ((0x8000 : UInt16) ||| 0x6000).toNat = 7 <<< 13 by decide) (by omega)

theorem replayTurn_pair {address : UInt16} (ha : address.toNat < 0x4000)
    (heven : address.toNat%2 = 0) (hlow : 128 ≤ address.toNat) (hroom : logAddr+4 ≤ cfg.logLast)
    (hword : word flash logAddr = pairEntry address) :
    replayTurn cfg flash logAddr dataBuf
      = if ~~~word flash (logAddr+2) = 0 then .go (logAddr+4) dataBuf
        else .go (logAddr+4) (setWord cfg address (~~~word flash (logAddr+2)) dataBuf) := by
  have hsub := toNat_sub_128 hlow
  have ha' : (address-0x80).toNat < 0x4000 := by omega
  have henc : ((0x8000 : UInt16) ||| 0x6000).toNat = 7 <<< 13 := by decide
  have haddr := entry_address ha' (by omega) henc
  have hback : address-0x80+0x80 = address := UInt16.sub_add_cancel _ _
  rw [replayTurn, hword]
  simp only [pairEntry_ne_empty ha hlow, if_false]
  rw [pairEntry, entry_mask ha' henc 0x8000 4 0x8000 (by decide) (by decide), if_neg (by decide),
    entry_mask ha' henc 0x6000 3 0x6000 (by decide) (by decide), if_pos rfl, if_neg (by omega),
    haddr, hback]

theorem nextEntry_pair {address value : UInt16} (ha : address.toNat < 0x4000)
    (heven : address.toNat%2 = 0) (hlow : 128 ≤ address.toNat) (hroom : logAddr+4 ≤ cfg.logLast)
    (hvalue : value ≠ 0) (hword : word flash logAddr = pairEntry address)
    (hnext : word flash (logAddr+2) = ~~~value) :
    nextEntry cfg flash logAddr dataBuf
      = some (logAddr+4,setWord cfg address value dataBuf) := by
  rw [nextEntry, replayTurn_pair ha heven hlow hroom hword, hnext, UInt16.not_not, if_neg hvalue]

theorem nextEntry_cut {address : UInt16} (ha : address.toNat < 0x4000)
    (heven : address.toNat%2 = 0) (hlow : 128 ≤ address.toNat) (hroom : logAddr+4 ≤ cfg.logLast)
    (hword : word flash logAddr = pairEntry address)
    (hnext : word flash (logAddr+2) = emptyWord) :
    nextEntry cfg flash logAddr dataBuf = some (logAddr+4,dataBuf) := by
  rw [nextEntry, replayTurn_pair ha heven hlow hroom hword, hnext, if_pos (by decide)]

theorem nextEntry_empty (h : word flash logAddr = emptyWord) :
    replayTurn cfg flash logAddr dataBuf = .stop logAddr := by
  rw [replayTurn, h]
  rfl

theorem replayTurn_go {m : ByteMem} (m' : ByteMem) {a b : Nat} {buf buf' : ByteMem}
    (h : replayTurn cfg m a buf = .go b buf') :
    (b = a+2 ∨ b = a+4) ∧ (word m a = word m' a → (b = a+4 → word m (a+2) = word m' (a+2)) →
      replayTurn cfg m' a buf = .go b buf') := by
  simp only [replayTurn] at h ⊢
  split at h
  · cases h
  · rename_i hne
    split at h
    · rename_i hbyte
      cases h
      refine ⟨.inl rfl, fun hword _ => ?_⟩
      rw [← hword, if_neg hne, if_pos hbyte]
    · rename_i hbyte
      split at h
      · rename_i hpair
        split at h
        · cases h
        · rename_i hroom
          split at h
          · rename_i hcut
            cases h
            refine ⟨.inr rfl, fun hword hnext => ?_⟩
            rw [← hword, ← hnext rfl, if_neg hne, if_neg hbyte, if_pos hpair, if_neg hroom,
              if_pos hcut]
          · rename_i hcut
            cases h
            refine ⟨.inr rfl, fun hword hnext => ?_⟩
            rw [← hword, ← hnext rfl, if_neg hne, if_neg hbyte, if_pos hpair, if_neg hroom,
              if_neg hcut]
      · rename_i hpair
        split at h
        · rename_i hreserved
          cases h
          refine ⟨.inl rfl, fun hword _ => ?_⟩
          rw [← hword, if_neg hne, if_neg hbyte, if_neg hpair, if_pos hreserved]
        · rename_i hreserved
          cases h
          refine ⟨.inl rfl, fun hword _ => ?_⟩
          rw [← hword, if_neg hne, if_neg hbyte, if_neg hpair, if_neg hreserved]

theorem nextEntry_eq_some {m : ByteMem} {a b : Nat} {buf buf' : ByteMem} :
    nextEntry cfg m a buf = some (b,buf') ↔ replayTurn cfg m a buf = .go b buf' := by
  rw [nextEntry]
  cases replayTurn cfg m a buf with
  | stop c => simp
  | go c buf'' => simp

theorem nextEntry_local (cfg : Config) : LogReplay.Local (nextEntry cfg) where
  forward {m a s b t} h := by
    have hgo := (replayTurn_go m (nextEntry_eq_some.mp h)).1
    omega
  congr {m m' a s b t} h hm := by
    have hturn := nextEntry_eq_some.mp h
    obtain ⟨hb, hcongr⟩ := replayTurn_go m' hturn
    refine nextEntry_eq_some.mpr (hcongr ?_ fun hb => ?_)
    · exact word_congr (hm a (by omega) (by omega)) (hm (a+1) (by omega) (by omega))
    · exact word_congr (hm (a+2) (by omega) (by omega)) (hm (a+3) (by omega) (by omega))

theorem replay_of_plays {m : ByteMem} {a b : Nat} {buf buf' : ByteMem} (fuel : Nat)
    (h : LogReplay.Plays (nextEntry cfg) m a buf b buf') (hb : b ≤ cfg.logLast)
    (hend : b = cfg.logLast ∨ word m b = emptyWord)
    (hfuel : b-a < fuel ∨ b = cfg.logLast ∧ b-a ≤ fuel) :
    replay cfg m fuel a buf = (b,buf') := by
  induction h generalizing fuel with
  | refl a buf =>
    cases fuel with
    | zero => rfl
    | succ fuel =>
      rw [replay]
      rcases hend with hlast | hempty
      · rw [if_pos hlast.ge]
      · split
        · rfl
        · rw [nextEntry_empty hempty]
  | step e k ih =>
    have hle := k.le (nextEntry_local cfg)
    have hlt := (nextEntry_local cfg).forward e
    cases fuel with
    | zero => omega
    | succ fuel =>
      rw [replay, if_neg (by omega), nextEntry_eq_some.mp e]
      exact ih fuel hb hend (by omega)

end QmkFirmware.EmulatedFlash
