import QmkFirmware.WearLeveling.Playback

/-!
What a write appends. A value is cut into entries; each entry is a few words, and once
all of them are in a blank part of the log they read as that entry.
-/

set_option autoImplicit false

namespace QmkFirmware.WearLeveling
open LogReplay

structure Entry where
  words : List Word
  address : Nat
  value : List UInt8

def word01Entry (cfg : Config) (address : Nat) (p : List UInt8) : Entry :=
  ⟨[rawWord cfg (logEntryMakeWord01 address (word16 p)) 0], address, p.take 2⟩

def optimized64Entry (cfg : Config) (address : Nat) (p : List UInt8) : Entry :=
  ⟨[rawWord cfg (logEntryMakeOptimized64 address (p.getD 0 0)) 0], address, p.take 1⟩

def multibyteLog (address : Nat) (p : List UInt8) : WriteLogEntry :=
  (logEntryMakeMultibyte address p.length).write 3 p

def multibyteEntry (cfg : Config) (address : Nat) (p : List UInt8) : Entry :=
  ⟨(List.range (multibyteWords cfg p.length)).map (rawWord cfg (multibyteLog address p)),
    address, p⟩

def entriesOf (cfg : Config) : Nat → Nat → List UInt8 → List Entry
  | 0, _, _ => []
  | fuel+1, address, p =>
    if p.length = 0 then [] else
    if cfg.writeSize = .two ∧ 2 ≤ p.length ∧ address % 2 = 0 ∧ address < 16384
        ∧ (word16 p = 0 ∨ word16 p = 1) then
      word01Entry cfg address p :: entriesOf cfg fuel (address+2) (p.drop 2)
    else if cfg.writeSize = .two ∧ address < 64 then
      optimized64Entry cfg address p :: entriesOf cfg fuel (address+1) (p.drop 1)
    else
      let n := if logEntryMultibyteMaxBytes ≤ p.length then logEntryMultibyteMaxBytes else p.length
      multibyteEntry cfg address (p.take n) :: entriesOf cfg fuel (address+n) (p.drop n)

def appendEntries (d : Driver) (cfg : Config) : List Entry → State → Status × State
  | [], s => (.success, s)
  | e :: es, s =>
    let r := appendWords d cfg e.words s
    if r.1 ≠ .success then r else appendEntries d cfg es r.2

theorem appendWords_single (d : Driver) (cfg : Config) (w : Word) (s : State) :
    appendWords d cfg [w] s = wearLevelingAppendRaw d cfg w s := by
  simp only [appendWords]
  split
  · rfl
  · rename_i h
    exact Prod.ext (not_not.mp h).symm rfl

theorem writeRawMultibyte_eq (d : Driver) (cfg : Config) (address : Nat) (p : List UInt8)
    (s : State) : wearLevelingWriteRawMultibyte d cfg address p s
      = appendWords d cfg (multibyteEntry cfg address p).words s := rfl

theorem writeRawLoop_eq (d : Driver) (cfg : Config) (fuel address : Nat) (p : List UInt8)
    (s : State) :
    writeRawLoop d cfg fuel address p s = appendEntries d cfg (entriesOf cfg fuel address p) s := by
  induction fuel generalizing address p s with
  | zero => rfl
  | succ fuel ih =>
    simp only [writeRawLoop, entriesOf]
    by_cases h₁ : p.length = 0
    · rw [if_pos h₁, if_pos h₁, appendEntries]
    rw [if_neg h₁, if_neg h₁]
    by_cases h₂ : cfg.writeSize = .two ∧ 2 ≤ p.length ∧ address % 2 = 0 ∧ address < 16384
        ∧ (word16 p = 0 ∨ word16 p = 1)
    · rw [if_pos h₂, if_pos h₂]
      simp only [appendEntries, word01Entry, appendWords_single, ih]
    rw [if_neg h₂, if_neg h₂]
    by_cases h₃ : cfg.writeSize = .two ∧ address < 64
    · rw [if_pos h₃, if_pos h₃]
      simp only [appendEntries, optimized64Entry, appendWords_single, ih]
    · rw [if_neg h₃, if_neg h₃]
      simp only [appendEntries, writeRawMultibyte_eq, ih]

def applyEntries (es : List Entry) (c : ByteMem) : ByteMem :=
  es.foldl (fun c e => c.write e.address e.value) c

theorem applyEntries_entriesOf (cfg : Config) (fuel address : Nat) (p : List UInt8)
    (h : p.length ≤ fuel) (c : ByteMem) :
    applyEntries (entriesOf cfg fuel address p) c = c.write address p := by
  induction fuel generalizing address p c with
  | zero =>
    have hp : p = [] := List.eq_nil_of_length_eq_zero (by omega)
    simp [entriesOf, applyEntries, hp]
  | succ fuel ih =>
    -- a cut of `n` bytes, whatever its encoding
    have cut : ∀ n, 0 < n → n ≤ p.length →
        applyEntries (entriesOf cfg fuel (address+n) (p.drop n)) (c.write address (p.take n))
          = c.write address p := by
      intro n h₁ h₂
      have hl : (p.take n).length = n := by simp; omega
      rw [ih _ _ (by simp; omega)]
      conv_rhs => rw [← List.take_append_drop n p, ByteMem.write_append, hl]
    simp only [entriesOf]
    split_ifs with h₁ h₂ h₃ h₄
    · simp [applyEntries, List.eq_nil_of_length_eq_zero h₁]
    · exact cut 2 (by omega) h₂.2.1
    · exact cut 1 (by omega) (by omega)
    · exact cut logEntryMultibyteMaxBytes (by decide) h₄
    · exact cut p.length (by omega) (Nat.le_refl _)

theorem flatten_rawWords (cfg : Config) (log : WriteLogEntry) (k : Nat) :
    ((List.range k).map (rawWord cfg log)).flatten = log.read 0 (k*cfg.writeSize.bytes) := by
  induction k with
  | zero => simp
  | succ k ih =>
    rw [List.range_succ, List.map_append, List.flatten_append, ih, Nat.succ_mul,
      ByteMem.read_add]
    simp [rawWord]

structure Entry.Encodes (cfg : Config) (e : Entry) : Prop where
  size : ∀ w ∈ e.words, w.length = cfg.writeSize.bytes
  nonempty : e.words ≠ []
  bound : e.address+e.value.length ≤ cfg.logicalSize
  reads : ∀ (m : ByteMem) (b : Nat) (c : ByteMem), b < cfg.backingSize →
    nextEntry cfg (m.write b e.words.flatten) b c
      = some (b+e.words.flatten.length, c.write e.address e.value)

theorem entryAt_written {m : ByteMem} {b n i : Nat} {log : WriteLogEntry} (h : i < n) :
    entryAt (m.write b (log.read 0 n)) b i = log i := by
  simp [entryAt, ByteMem.write_apply, ByteMem.read, List.getD, h]

theorem read_written {m : ByteMem} {b n k l : Nat} {log : WriteLogEntry} (h : k+l ≤ n) :
    (m.write b (log.read 0 n)).read (b+k) l = log.read k l := by
  apply List.map_congr_left
  intro i hi
  have hi := List.mem_range.mp hi
  rw [Nat.add_assoc]
  exact entryAt_written (by omega)

theorem read_ne_blank {m : ByteMem} {b n : Nat} (hn : 0 < n) (h : (m b).toNat ≠ 0) :
    m.read b n ≠ List.replicate n 0 := by
  obtain ⟨n, rfl⟩ : ∃ k, n = k+1 := ⟨n-1, by omega⟩
  rw [ByteMem.read_succ, List.replicate_succ]
  intro he
  injection he with h₀ _
  rw [h₀] at h
  exact h rfl

/-- Bytes that start with a multi-byte header read as that entry. The value is whatever the
store has behind the header. -/
theorem nextEntry_multibyte {cfg : Config} {m : ByteMem} {b : Nat} {c : ByteMem} {x l : Nat}
    (hb : b < cfg.backingSize) (h₀ : (m b).toNat = l*8+x/65536)
    (h₁ : (m (b+1)).toNat*256+(m (b+2)).toNat = x % 65536)
    (hl : 1 ≤ l) (hl' : l ≤ 5) (hx : x+l ≤ cfg.logicalSize) :
    nextEntry cfg m b c
      = some (b+multibyteWords cfg l*cfg.writeSize.bytes, c.write x (m.read (b+3) l)) := by
  have hw := cfg.writeSize.bytes_ge
  have hlog := cfg.logical_le
  have hne := read_ne_blank (m := m) (b := b) (n := cfg.writeSize.bytes) (by omega) (by omega)
  have hty : logEntryGetType (entryAt m b) = 0 := by
    rw [getType_eq, entryAt, Nat.add_zero]
    omega
  have hlen : logEntryMultibyteGetLength (entryAt m b) = l := by
    rw [multibyte_getLength, entryAt, Nat.add_zero]
    omega
  have hadr : logEntryMultibyteGetAddress (entryAt m b) = x := by
    have hhi : (l*8+x/65536) % 8 = x/65536 := by omega
    rw [multibyte_getAddress, entryAt, entryAt, entryAt, Nat.add_zero, Nat.add_assoc, h₁, h₀, hhi,
      Nat.div_add_mod']
  simp only [nextEntry, hty, LogEntryType.ofCode, hlen, hadr]
  rw [if_neg (not_or.mpr ⟨by omega, hne⟩), if_neg (by simp [logEntryMultibyteMaxBytes]; omega)]

theorem multibyteLog_head {address : Nat} {p : List UInt8} {i : Nat} (hi : i < 3) :
    multibyteLog address p i = logEntryMakeMultibyte address p.length i :=
  ByteMem.write_outside (by omega)

theorem multibyteLog_value (address : Nat) (p : List UInt8) :
    (multibyteLog address p).read 3 p.length = p := ByteMem.read_write_same _ _ _

theorem multibyteEntry_encodes {cfg : Config} {address : Nat} {p : List UInt8}
    (h₁ : 1 ≤ p.length) (h₅ : p.length ≤ 5) (hx : address+p.length ≤ cfg.logicalSize) :
    (multibyteEntry cfg address p).Encodes cfg where
  size := by
    intro w hw
    obtain ⟨k, -, rfl⟩ := List.mem_map.mp hw
    simp [rawWord]
  nonempty := by
    have hc := multibyteWords_cover cfg h₅
    have hk : multibyteWords cfg p.length ≠ 0 := by
      intro h
      rw [h] at hc
      omega
    simp [multibyteEntry, hk]
  bound := hx
  reads := by
    intro m b c hb
    have hlog := cfg.logical_le
    have hc := multibyteWords_cover cfg h₅
    have hadr : address < 2^19 := by omega
    simp only [multibyteEntry, flatten_rawWords, ByteMem.length_read]
    generalize hN : multibyteWords cfg p.length*cfg.writeSize.bytes = N at hc ⊢
    have byte : ∀ i < N, m.write b ((multibyteLog address p).read 0 N) (b+i)
        = multibyteLog address p i := fun i hi => entryAt_written hi
    have e₀ := byte 0 (by omega)
    have e₁ := byte 1 (by omega)
    have e₂ := byte 2 (by omega)
    rw [multibyteLog_head (by omega)] at e₀ e₁ e₂
    rw [nextEntry_multibyte (x := address) (l := p.length) hb, hN, read_written hc.1,
      multibyteLog_value]
    · rw [Nat.add_zero] at e₀
      rw [e₀, multibyte_head_toNat (by omega) hadr]
    · rw [e₁, e₂, multibyte_mid_toNat, multibyte_low_toNat]
      omega
    · exact h₁
    · exact h₅
    · exact hx

theorem optimized64Entry_encodes {cfg : Config} {address : Nat} {p : List UInt8}
    (hw : cfg.writeSize = .two) (hp : p.length ≠ 0) (ha : address < 64)
    (hx : address+1 ≤ cfg.logicalSize) : (optimized64Entry cfg address p).Encodes cfg where
  size := by simp [optimized64Entry, rawWord]
  nonempty := by simp [optimized64Entry]
  bound := by
    have hl : (p.take 1).length ≤ 1 := by simp
    show address+(p.take 1).length ≤ cfg.logicalSize
    omega
  reads := by
    intro m b c hb
    obtain ⟨v, q, rfl⟩ := List.exists_cons_of_length_pos (Nat.pos_of_ne_zero hp)
    simp only [optimized64Entry, List.flatten_cons, List.flatten_nil, List.append_nil, rawWord, hw,
      WriteSize.bytes, Nat.zero_mul, ByteMem.length_read, List.getD_cons_zero, List.take_succ_cons,
      List.take_zero]
    generalize hlog : logEntryMakeOptimized64 address v = log
    have h₀ : (log 0).toNat = 64+address := by rw [← hlog, optimized64_head_toNat ha]
    have h₁ : log 1 = v := by rw [← hlog, optimized64_value]
    have e₀ := @entryAt_written m b 2 0 log (by omega)
    have e₁ := @entryAt_written m b 2 1 log (by omega)
    generalize m.write b (log.read 0 2) = m' at e₀ e₁ ⊢
    have hne := read_ne_blank (m := m') (b := b) (n := 2) (by omega)
      (by rw [show m' b = log 0 from e₀]; omega)
    have hty : logEntryGetType (entryAt m' b) = 1 := by rw [getType_eq, e₀]; omega
    have hadr : logEntryOptimized64GetAddress (entryAt m' b) = address := by
      rw [optimized64_getAddress, e₀]; omega
    simp only [nextEntry, hty, LogEntryType.ofCode, hw, hadr, logEntryOptimized64GetValue, e₁, h₁,
      WriteSize.bytes]
    rw [if_neg (not_or.mpr ⟨by omega, hne⟩), if_neg (by omega)]

theorem word01Entry_encodes {cfg : Config} {address : Nat} {p : List UInt8}
    (hw : cfg.writeSize = .two) (hp : 2 ≤ p.length) (ha : address % 2 = 0)
    (ha' : address < 16384) (hv : word16 p = 0 ∨ word16 p = 1)
    (hx : address+2 ≤ cfg.logicalSize) : (word01Entry cfg address p).Encodes cfg where
  size := by simp [word01Entry, rawWord]
  nonempty := by simp [word01Entry]
  bound := by
    have hl : (p.take 2).length ≤ 2 := by simp
    show address+(p.take 2).length ≤ cfg.logicalSize
    omega
  reads := by
    intro m b c hb
    obtain ⟨v, q, rfl⟩ := List.exists_cons_of_length_pos (show 0 < p.length by omega)
    obtain ⟨w, q, rfl⟩ := List.exists_cons_of_length_pos (Nat.le_of_succ_le_succ hp)
    have hn : word16 (v :: w :: q) < 2 := by rcases hv with h | h <;> simp [h]
    have hvw : w = 0 ∧ UInt8.ofNat (word16 (v :: w :: q)) = v := by
      have hb₁ := v.toNat_lt
      rw [word16, List.getD_cons_succ, List.getD_cons_zero, List.getD_cons_zero] at hn ⊢
      have hw₀ : w.toNat = 0 := by omega
      exact ⟨UInt8.toNat_inj.mp hw₀, by rw [hw₀]; simp⟩
    simp only [word01Entry, List.flatten_cons, List.flatten_nil, List.append_nil, rawWord, hw,
      WriteSize.bytes, Nat.zero_mul, ByteMem.length_read, List.take_succ_cons, List.take_zero]
    generalize word16 (v :: w :: q) = n at hn hvw ⊢
    generalize hlog : logEntryMakeWord01 address n = log
    have h₀ : (log 0).toNat = 128+n*32+address/512 := by rw [← hlog, word01_head_toNat hn ha']
    have h₁ : (log 1).toNat = address/2 % 256 := by rw [← hlog, word01_low_toNat]
    have e₀ := @entryAt_written m b 2 0 log (by omega)
    have e₁ := @entryAt_written m b 2 1 log (by omega)
    generalize m.write b (log.read 0 2) = m' at e₀ e₁ ⊢
    have hne := read_ne_blank (m := m') (b := b) (n := 2) (by omega)
      (by rw [show m' b = log 0 from e₀]; omega)
    have hty : logEntryGetType (entryAt m' b) = 2 := by rw [getType_eq, e₀]; omega
    have hadr : logEntryWord01GetAddress (entryAt m' b) = address := by
      rw [word01_getAddress, e₀, e₁]; omega
    have hval : logEntryWord01GetValue (entryAt m' b) = v := by
      rw [word01_getValue, e₀, h₀, ← hvw.2]
      congr 1
      omega
    simp only [nextEntry, hty, LogEntryType.ofCode, hw, hadr, hval, hvw.1, WriteSize.bytes]
    rw [if_neg (not_or.mpr ⟨by omega, hne⟩), if_neg (by omega)]

theorem entriesOf_encodes (cfg : Config) (fuel address : Nat) (p : List UInt8)
    (hx : address+p.length ≤ cfg.logicalSize) :
    ∀ e ∈ entriesOf cfg fuel address p, e.Encodes cfg := by
  induction fuel generalizing address p with
  | zero => simp [entriesOf]
  | succ fuel ih =>
    simp only [entriesOf]
    split_ifs with h₁ h₂ h₃ h₄
    · simp
    · rw [List.forall_mem_cons]
      obtain ⟨hw, hp, ha, ha', hv⟩ := h₂
      exact ⟨word01Entry_encodes hw hp ha ha' hv (by omega),
        ih _ _ (by rw [List.length_drop]; omega)⟩
    · rw [List.forall_mem_cons]
      exact ⟨optimized64Entry_encodes h₃.1 h₁ h₃.2 (by omega),
        ih _ _ (by rw [List.length_drop]; omega)⟩
    · rw [List.forall_mem_cons]
      simp only [logEntryMultibyteMaxBytes] at h₄ ⊢
      have hl : (p.take 5).length = 5 := by simp; omega
      exact ⟨multibyteEntry_encodes (by omega) (by omega) (by omega),
        ih _ _ (by rw [List.length_drop]; omega)⟩
    · rw [List.forall_mem_cons]
      simp only [logEntryMultibyteMaxBytes] at h₄
      have hl : (p.take p.length).length = p.length := by simp
      exact ⟨multibyteEntry_encodes (by omega) (by omega) (by omega),
        ih _ _ (by rw [List.length_drop]; omega)⟩

end QmkFirmware.WearLeveling
