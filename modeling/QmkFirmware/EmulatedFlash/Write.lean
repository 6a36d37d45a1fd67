import QmkFirmware.EmulatedFlash.Program

/-!
The writers. Each one leaves the flash with the contents that the cache has, unless a word of
zero makes the first of its two byte entries compact the log: the cell of the word is then left
erased, with the second entry in the log.
-/

set_option autoImplicit false

namespace QmkFirmware.EmulatedFlash

variable {cfg : Config} {c c' : ByteMem} {o : Nat → Option UInt8} {s : State}
  {address : UInt16}

theorem toNat_aligned (address : UInt16) :
    (address &&& 0xFFFE).toNat = 2*(address.toNat/2) := by
  have hsplit : address.toNat = address.toNat%2 ||| (address.toNat/2) <<< 1 := by
    rw [Nat.or_comm, ← Nat.shiftLeft_add_eq_or_of_lt (by omega), Nat.shiftLeft_eq]
    omega
  have hmask := @top_and (address.toNat%2) 1 (by omega) (address.toNat/2) 32767
  rw [← hsplit] at hmask
  have hlt := address.toNat_lt
  have hall : address.toNat/2 &&& 32767 = address.toNat/2 := by
    rw [show 32767 = 2^15-1 from rfl, Nat.and_two_pow_sub_one_eq_mod, Nat.mod_eq_of_lt (by omega)]
  rw [UInt16.toNat_and, show (0xFFFE : UInt16).toNat = 32767 <<< 1 from rfl, hmask, hall,
    Nat.shiftLeft_eq]
  omega

theorem direct_programmed (h : word s.flash (2*(address.toNat/2)) ≠ emptyWord) :
    eepromWriteDirectEntry address s = (.zero,s) := by
  rw [eepromWriteDirectEntry, toNat_aligned]
  exact if_neg h

theorem direct_erased (h : Stored cfg s.flash s.emptySlot c o)
    (hempty : word s.flash (2*(address.toNat/2)) = emptyWord)
    (hlt : address.toNat < cfg.densityBytes)
    (hcache : ∀ x, x < cfg.densityBytes → s.dataBuf x = c' x)
    (hc : ∀ x, x/2 ≠ address.toNat/2 → c' x = c x) :
    (eepromWriteDirectEntry address s).1 ≠ .zero
      ∧ (eepromWriteDirectEntry address s).2.dataBuf = s.dataBuf
      ∧ Effect cfg s (eepromWriteDirectEntry address s).2 c c' := by
  have heven := cfg.density_even
  have hword : word s.dataBuf (2*(address.toNat/2)) = word c' (2*(address.toNat/2)) :=
    word_congr (hcache _ (by omega)) (hcache _ (by omega))
  have hstored := h.direct (by omega) (by omega) hempty hword.symm
    (fun x hx hx' => hc x (by omega))
  rw [eepromWriteDirectEntry, toNat_aligned]
  dsimp only
  rw [if_pos hempty]
  by_cases hvalue : ~~~word s.dataBuf (2*(address.toNat/2)) = emptyWord
  · -- the cell stands for the new word already
    have hsame : storeWord s.flash (2*(address.toNat/2)) emptyWord = s.flash := by
      obtain ⟨hlo, hhi⟩ := word_eq_empty_iff.mp hempty
      funext x
      rw [storeWord_apply]
      split
      · rename_i hx
        rw [hx, hlo]
        rfl
      · split
        · rename_i hx
          rw [hx, hhi]
          rfl
        · rfl
    rw [if_pos hvalue]
    rw [hvalue, hsame] at hstored
    exact ⟨by simp, rfl, ⟨_, hstored⟩, [], (List.append_nil _).symm, rfl, fun _ => h.cut_nil⟩
  · rw [if_neg hvalue, programHalfWord_erased hempty]
    refine ⟨by simp, rfl, ⟨_, hstored⟩, [_], rfl, ?_, fun _ => ?_⟩
    · exact Stored.program hempty (by omega) (by rw [Config.logLast]; omega)
    · exact Cut.one h (Stored.program hempty (by omega) (by rw [Config.logLast]; omega)) hstored

def byteOverlay (a : Nat) (v : UInt8) : Nat → Option UInt8 := fun x => if x = a then some v else none

def wordOverlay (a : Nat) (w : UInt16) : Nat → Option UInt8 := fun x =>
  if x = a then some w.toUInt8 else if x = a+1 then some (w >>> 8).toUInt8 else none

theorem over_byteOverlay (a : Nat) (v : UInt8) (buf : ByteMem) :
    overlay (byteOverlay a v) buf = buf.write a [v] := by
  funext x
  rw [overlay, byteOverlay, ByteMem.write_apply]
  by_cases hx : x = a
  · subst hx
    simp
  · rw [if_neg hx, Option.getD_none]
    split
    · rw [List.getD_eq_default _ _ (by simp only [List.length_singleton]; omega)]
    · rfl

theorem over_apply_byte (a : Nat) (v : UInt8) (buf : ByteMem) (x : Nat) :
    overlay (byteOverlay a v) buf x = if x = a then v else buf x := by
  rw [overlay, byteOverlay]
  split <;> rfl

theorem over_wordOverlay (a : Nat) (w : UInt16) (buf : ByteMem) :
    overlay (wordOverlay a w) buf = storeWord buf a w := by
  funext x
  rw [overlay, wordOverlay, storeWord_apply]
  split
  · rfl
  · split <;> rfl

theorem Stored.slot_empty (h : Stored cfg s.flash s.emptySlot c o)
    (hroom : s.emptySlot < cfg.logLast) : word s.flash s.emptySlot = emptyWord :=
  h.slot_end.resolve_left hroom.ne

theorem Stored.room (h : Stored cfg s.flash s.emptySlot c o)
    (hroom : s.emptySlot < cfg.logLast) : s.emptySlot+2 ≤ cfg.logLast := by
  have heven := h.slot_even
  have := cfg.density_even
  have := cfg.log_even
  rw [Config.logLast] at hroom ⊢
  omega

theorem logByte_full (hfull : cfg.logLast ≤ s.emptySlot) :
    eepromWriteLogByteEntry cfg address s = eepromCompact cfg s := by
  rw [eepromWriteLogByteEntry, if_pos hfull]

theorem logByte_room (h : Stored cfg s.flash s.emptySlot c o) (ha : address < 0x80)
    (hroom : s.emptySlot < cfg.logLast)
    (hcell : word s.flash (2*(address.toNat/2)) ≠ emptyWord) :
    ∃ flash new, (eepromWriteLogByteEntry cfg address s).2
        = ⟨flash,s.dataBuf,s.emptySlot+2,s.ops ++ new⟩
      ∧ (∀ x, x < cfg.densityBytes → flash x = s.flash x)
      ∧ Effect cfg s ⟨flash,s.dataBuf,s.emptySlot+2,s.ops ++ new⟩ c
        (c.write address.toNat [s.dataBuf address.toNat]) := by
  have hempty := h.slot_empty hroom
  have hlast := h.room hroom
  have hbase := h.slot_ge
  have heven := h.slot_even
  have hlow : address.toNat < 128 := UInt16.lt_iff_toNat_lt.mp ha
  have hdensity := cfg.density_ge
  rw [Config.logBase] at hbase
  have hother : ∀ w x, x < s.emptySlot ∨ s.emptySlot+2 ≤ x →
      storeWord s.flash s.emptySlot w x = s.flash x := by
    intro w x hx
    rw [storeWord_apply, if_neg (by omega), if_neg (by omega)]
  have hstored := h.append (storeWord s.flash s.emptySlot
      (address <<< 8 ||| (s.dataBuf address.toNat).toUInt16))
    (byteOverlay address.toNat (s.dataBuf address.toNat)) hlast (by omega) (hother _)
    (fun buf => by rw [over_byteOverlay]; exact nextEntry_byte ha (word_storeWord _ _ _))
    (fun x hx => by
      by_cases hxa : x = address.toNat
      · omega
      · exact absurd (if_neg hxa) hx)
    (fun x hx => by
      by_cases hxa : x = address.toNat
      · rwa [hxa]
      · exact absurd (if_neg hxa) hx)
  rw [over_byteOverlay] at hstored
  have hprogram : runOps cfg s.flash [.programHalfWord s.emptySlot
      (address <<< 8 ||| (s.dataBuf address.toNat).toUInt16)] = _ :=
    Stored.program hempty heven hlast
  refine ⟨storeWord s.flash s.emptySlot (address <<< 8 ||| (s.dataBuf address.toNat).toUInt16),
    [_], ?_, fun x hx => ?_, ⟨_, hstored⟩, [_], rfl, hprogram,
    fun _ => Cut.one h hprogram hstored⟩
  · rw [eepromWriteLogByteEntry, if_neg (by omega)]
    dsimp only
    rw [programHalfWord_erased hempty]
  · exact hother _ x (.inl (by omega))

theorem compact_dataBuf (s : State) : (eepromCompact cfg s).2.dataBuf = s.dataBuf := by
  obtain ⟨new, flash, hstate, -⟩ := @compact_spec cfg s.dataBuf s fun _ _ => rfl
  rw [hstate]

section Word

variable (h : Stored cfg s.flash s.emptySlot c o) (hlt : address.toNat < cfg.densityBytes) (heven : address.toNat%2 = 0)
  (hcell : word s.flash address.toNat ≠ emptyWord)

include h hlt heven hcell

theorem appendWord {flash : ByteMem} {slot' : Nat} {value : UInt16} (hslot : slot' ≤ cfg.logLast)
    (hslot_even : slot'%2 = 0)
    (hsame : ∀ x, x < s.emptySlot ∨ slot' ≤ x → flash x = s.flash x)
    (hentry : ∀ buf, nextEntry cfg flash s.emptySlot buf
      = some (slot',setWord cfg address value buf)) :
    ∃ o', Stored cfg flash slot' (storeWord c address.toNat value) o' := by
  have hinside : ∀ x, wordOverlay address.toNat value x ≠ none → x/2 = address.toNat/2 := by
    intro x hx
    rw [wordOverlay] at hx
    by_cases hxa : x = address.toNat
    · rw [hxa]
    · rw [if_neg hxa] at hx
      by_cases hxa' : x = address.toNat+1
      · omega
      · exact absurd (if_neg hxa') hx
  have hdensity := cfg.density_even
  have hstored := h.append flash (wordOverlay address.toNat value) hslot hslot_even hsame
    (fun buf => by rw [over_wordOverlay, hentry buf, setWord, if_pos hlt])
    (fun x hx => by have := hinside x hx; omega)
    (fun x hx => by rw [hinside x hx, show 2*(address.toNat/2) = address.toNat by omega]; exact hcell)
  rw [over_wordOverlay] at hstored
  exact ⟨_, hstored⟩

theorem logWord_small (hvalue : word s.dataBuf address.toNat ≤ 1)
    (hroom : s.emptySlot+2 ≤ cfg.logLast) :
    (eepromWriteLogWordEntry cfg address s).2.dataBuf = s.dataBuf
      ∧ Effect cfg s (eepromWriteLogWordEntry cfg address s).2 c
        (storeWord c address.toNat (word s.dataBuf address.toNat)) := by
  have hempty := h.slot_empty (by omega)
  have hslot := h.slot_even
  have hle := cfg.density_le
  have hencoding : (0x8000 : UInt16) ||| word s.dataBuf address.toNat <<< 13
      ≠ (0x8000 : UInt16) ||| 0x6000 := by
    rcases le_one_cases hvalue with hv | hv <;> rw [hv] <;> decide
  have hother : ∀ w x, x < s.emptySlot ∨ s.emptySlot+2 ≤ x →
      storeWord s.flash s.emptySlot w x = s.flash x := by
    intro w x hx
    rw [storeWord_apply, if_neg (by omega), if_neg (by omega)]
  obtain ⟨o', hstored⟩ := appendWord h hlt heven hcell hroom (by omega) (hother _)
    fun buf => nextEntry_encoded (by omega) heven hvalue (word_storeWord _ _ _)
  have hprogram := Stored.program hempty hslot hroom
    (w := address >>> 1 ||| ((0x8000 : UInt16) ||| word s.dataBuf address.toNat <<< 13))
  have hstate : (eepromWriteLogWordEntry cfg address s).2 = { s with
      flash := storeWord s.flash s.emptySlot
        (address >>> 1 ||| ((0x8000 : UInt16) ||| word s.dataBuf address.toNat <<< 13))
      emptySlot := s.emptySlot+2
      ops := s.ops ++ [.programHalfWord s.emptySlot
        (address >>> 1 ||| ((0x8000 : UInt16) ||| word s.dataBuf address.toNat <<< 13))] } := by
    rw [eepromWriteLogWordEntry]
    simp only [hvalue, if_true, if_neg (Nat.not_lt.mpr hroom), programHalfWord_erased hempty,
      hencoding, if_false]
  rw [hstate]
  exact ⟨rfl, ⟨_, hstored⟩, [_], rfl, hprogram, fun _ => Cut.one h hprogram hstored⟩

theorem logWord_large (hlow : 128 ≤ address.toNat) (hvalue : ¬word s.dataBuf address.toNat ≤ 1)
    (hroom : s.emptySlot+4 ≤ cfg.logLast) :
    (eepromWriteLogWordEntry cfg address s).2.dataBuf = s.dataBuf
      ∧ Effect cfg s (eepromWriteLogWordEntry cfg address s).2 c
        (storeWord c address.toNat (word s.dataBuf address.toNat)) := by
  have hempty := h.slot_empty (by omega)
  have hslot := h.slot_even
  have hle := cfg.density_le
  generalize hfirst : storeWord s.flash s.emptySlot (pairEntry address) = first
  generalize hboth : storeWord first (s.emptySlot+2) (~~~word s.dataBuf address.toNat) = both
  have hfirst_other : ∀ x, x < s.emptySlot ∨ s.emptySlot+2 ≤ x → first x = s.flash x := by
    intro x hx
    rw [← hfirst, storeWord_apply, if_neg (by omega), if_neg (by omega)]
  have hboth_other : ∀ x, x < s.emptySlot ∨ s.emptySlot+4 ≤ x → both x = s.flash x := by
    intro x hx
    rw [← hboth, storeWord_apply, if_neg (by omega), if_neg (by omega),
      hfirst_other x (by omega)]
  have hnext : word first (s.emptySlot+2) = emptyWord := by
    refine word_eq_empty_iff.mpr ⟨?_, ?_⟩
    · rw [hfirst_other _ (by omega)]
      exact h.blank _ (by omega) (by omega)
    · rw [hfirst_other _ (by omega)]
      exact h.blank _ (by omega) (by omega)
  have hmark : word first s.emptySlot = pairEntry address := by
    rw [← hfirst, word_storeWord]
  have hnonzero : word s.dataBuf address.toNat ≠ 0 := fun hzero => hvalue (by rw [hzero]; decide)
  -- with the first half-word alone the entry counts for nothing
  have hcut := h.append first (fun _ => none) hroom (by omega)
    (fun x hx => hfirst_other x (by omega))
    (fun buf => nextEntry_cut (by omega) heven hlow hroom hmark hnext)
    (fun x hx => absurd rfl hx) (fun x hx => absurd rfl hx)
  obtain ⟨o', hstored⟩ := appendWord h hlt heven hcell hroom (by omega) hboth_other
    fun buf => nextEntry_pair (by omega) heven hlow hroom hnonzero
      (by rw [← hboth, word_storeWord_ne (by omega), hmark]) (by rw [← hboth, word_storeWord])
  have hprogram : runOps cfg s.flash [.programHalfWord s.emptySlot (pairEntry address)]
      = some first := by
    rw [← hfirst]
    exact Stored.program hempty hslot (by omega)
  have hprogram' : runOps cfg first
      [.programHalfWord (s.emptySlot+2) (~~~word s.dataBuf address.toNat)] = some both := by
    rw [← hboth]
    exact Stored.program hnext (by omega) (by omega)
  have hstate : (eepromWriteLogWordEntry cfg address s).2 = { s with
      flash := both
      emptySlot := s.emptySlot+2+2
      ops := s.ops ++ [.programHalfWord s.emptySlot (pairEntry address)]
        ++ [.programHalfWord (s.emptySlot+2) (~~~word s.dataBuf address.toNat)] } := by
    rw [eepromWriteLogWordEntry]
    simp only [hvalue, if_false, if_neg (Nat.not_lt.mpr hroom), if_true]
    rw [programHalfWord_erased hempty]
    dsimp only
    rw [show (address-0x80) >>> 1 ||| ((0x8000 : UInt16) ||| 0x6000) = pairEntry address from rfl,
      hfirst, programHalfWord_erased hnext, hboth]
  rw [hstate]
  refine ⟨rfl, ⟨_, hstored⟩, [_] ++ [_], List.append_assoc _ _ _, ?_, fun _ => ?_⟩
  · rw [runOps_append hprogram, hprogram']
  · have hnone : overlay (fun _ => none) c = c := rfl
    rw [hnone] at hcut
    exact (Cut.one h hprogram hcut).append hprogram (Cut.one hcut hprogram' hstored)
      fun x _ => .inl rfl

theorem logWord_effect (hlow : 128 ≤ address.toNat)
    (hcache : ∀ x, x < cfg.densityBytes → s.dataBuf x = c' x)
    (hc : ∀ x, x/2 ≠ address.toNat/2 → c' x = c x) :
    (eepromWriteLogWordEntry cfg address s).2.dataBuf = s.dataBuf
      ∧ Effect cfg s (eepromWriteLogWordEntry cfg address s).2 c c' := by
  have hdensity := cfg.density_even
  have hnew : ∀ x, x < cfg.densityBytes →
      c' x = storeWord c address.toNat (word s.dataBuf address.toNat) x := by
    intro x hx
    rw [storeWord_apply, lo_word, hi_word]
    split
    · rename_i hxa
      rw [← hcache x hx, hxa]
    · split
      · rename_i hxa
        rw [← hcache x hx, hxa]
      · exact hc x (by omega)
  by_cases hvalue : word s.dataBuf address.toNat ≤ 1
  · by_cases hroom : s.emptySlot+2 ≤ cfg.logLast
    · obtain ⟨hbuf, heffect⟩ := logWord_small h hlt heven hcell hvalue hroom
      exact ⟨hbuf, heffect.congr hnew⟩
    · have hfull : eepromWriteLogWordEntry cfg address s = eepromCompact cfg s := by
        rw [eepromWriteLogWordEntry]
        simp only [hvalue, if_true, if_pos (Nat.lt_of_not_le hroom)]
      rw [hfull]
      exact ⟨compact_dataBuf s, compact_effect s c hcache⟩
  · by_cases hroom : s.emptySlot+4 ≤ cfg.logLast
    · obtain ⟨hbuf, heffect⟩ := logWord_large h hlt heven hcell hlow hvalue hroom
      exact ⟨hbuf, heffect.congr hnew⟩
    · have hfull : eepromWriteLogWordEntry cfg address s = eepromCompact cfg s := by
        rw [eepromWriteLogWordEntry]
        simp only [hvalue, if_false, if_pos (Nat.lt_of_not_le hroom)]
      rw [hfull]
      exact ⟨compact_dataBuf s, compact_effect s c hcache⟩

end Word

variable (cfg) in
structure Inv (s : State) (c : ByteMem) : Prop where
  stored : ∃ o, Stored cfg s.flash s.emptySlot c o
  cache : ∀ x, x < cfg.densityBytes → s.dataBuf x = c x

variable (cfg) in
def putByte (c : ByteMem) (a : Nat) (v : UInt8) : ByteMem :=
  if a < cfg.densityBytes then c.write a [v] else c

variable (cfg) in
theorem putByte_apply (c : ByteMem) (a : Nat) (v : UInt8) (x : Nat) :
    putByte cfg c a v x = if x = a ∧ a < cfg.densityBytes then v else c x := by
  rw [putByte]
  by_cases ha : a < cfg.densityBytes
  · rw [if_pos ha, ← over_byteOverlay, over_apply_byte]
    simp only [ha, and_true]
  · rw [if_neg ha, if_neg (fun h => ha h.2)]

theorem logByte_effect (h : Stored cfg s.flash s.emptySlot c o) (ha : address < 0x80)
    (hcell : s.emptySlot < cfg.logLast → word s.flash (2*(address.toNat/2)) ≠ emptyWord)
    (hcache : ∀ x, x < cfg.densityBytes → s.dataBuf x = c' x)
    (hc : ∀ x, x ≠ address.toNat → c' x = c x) :
    (eepromWriteLogByteEntry cfg address s).2.dataBuf = s.dataBuf
      ∧ Effect cfg s (eepromWriteLogByteEntry cfg address s).2 c c' := by
  have hlow : address.toNat < 128 := UInt16.lt_iff_toNat_lt.mp ha
  have hdensity := cfg.density_ge
  by_cases hroom : s.emptySlot < cfg.logLast
  · obtain ⟨flash, new, hstate, -, heffect⟩ := logByte_room h ha hroom (hcell hroom)
    rw [hstate]
    refine ⟨rfl, heffect.congr fun x hx => ?_⟩
    rw [← over_byteOverlay, over_apply_byte, hcache _ (by omega)]
    split
    · rename_i hxa
      rw [hxa]
    · rename_i hxa
      exact hc x hxa
  · rw [logByte_full (Nat.le_of_not_lt hroom)]
    exact ⟨compact_dataBuf s, compact_effect s c hcache⟩

theorem storeCachedByte_effect (h : Stored cfg s.flash s.emptySlot c o)
    (hlt : address.toNat < cfg.densityBytes)
    (hcache : ∀ x, x < cfg.densityBytes → s.dataBuf x = c' x)
    (hc : ∀ x, x ≠ address.toNat → c' x = c x) :
    (storeCachedByte cfg address s).2.dataBuf = s.dataBuf
      ∧ Effect cfg s (storeCachedByte cfg address s).2 c c' := by
  have heven := cfg.density_even
  have hword : ∀ x, x/2 ≠ address.toNat/2 → c' x = c x := fun x hx =>
    hc x fun heq => hx (by rw [heq])
  rw [storeCachedByte]
  by_cases hempty : word s.flash (2*(address.toNat/2)) = emptyWord
  · obtain ⟨hstatus, hbuf, heffect⟩ := direct_erased h hempty hlt hcache hword
    generalize eepromWriteDirectEntry address s = r at hstatus hbuf heffect ⊢
    dsimp only
    rw [if_neg hstatus]
    exact ⟨hbuf, heffect⟩
  · rw [direct_programmed hempty]
    dsimp only
    rw [if_pos rfl]
    by_cases hlow : address < 0x80
    · rw [if_pos hlow]
      exact logByte_effect h hlow (fun _ => hempty) hcache hc
    · rw [if_neg hlow]
      have hlow' : 128 ≤ address.toNat := Nat.le_of_not_lt fun hlt' =>
        hlow (UInt16.lt_iff_toNat_lt.mpr hlt')
      have hhalf : (address &&& 0xFFFE).toNat/2 = address.toNat/2 := by
        rw [toNat_aligned]
        omega
      refine logWord_effect h ?_ ?_ ?_ ?_ hcache fun x hx => hword x (by rwa [← hhalf])
      · rw [toNat_aligned]
        omega
      · rw [toNat_aligned]
        omega
      · rwa [toNat_aligned]
      · rw [toNat_aligned]
        omega

theorem writeByte_effect (h : Inv cfg s c) (address : UInt16) (v : UInt8) :
    Inv cfg (eepromWriteDataByte cfg address v s).2 (putByte cfg c address.toNat v)
    ∧ Effect cfg s (eepromWriteDataByte cfg address v s).2 c (putByte cfg c address.toNat v) := by
  obtain ⟨o, hstored⟩ := h.stored
  have hput := putByte_apply cfg c address.toNat v
  rw [eepromWriteDataByte]
  by_cases hrange : cfg.densityBytes ≤ address.toNat
  · have hsame : putByte cfg c address.toNat v = c := if_neg (Nat.not_lt.mpr hrange)
    rw [if_pos hrange, hsame]
    exact ⟨h, Effect.refl hstored⟩
  have hlt : address.toNat < cfg.densityBytes := Nat.lt_of_not_le hrange
  rw [if_neg hrange]
  by_cases hsame : s.dataBuf address.toNat = v
  · have hput' : ∀ x, x < cfg.densityBytes → putByte cfg c address.toNat v x = c x := by
      intro x hx
      rw [hput]
      split
      · rename_i hxa
        rw [hxa.1, ← h.cache _ hlt, hsame]
      · rfl
    rw [if_pos hsame]
    have heffect := (Effect.refl hstored).congr hput'
    exact ⟨⟨heffect.stored, fun x hx => (h.cache x hx).trans (hput' x hx).symm⟩, heffect⟩
  · rw [if_neg hsame]
    have hcache : ∀ x, x < cfg.densityBytes →
        s.dataBuf.write address.toNat [v] x = putByte cfg c address.toNat v x := by
      intro x hx
      rw [hput, ← over_byteOverlay, over_apply_byte]
      by_cases hxa : x = address.toNat
      · rw [if_pos hxa, if_pos ⟨hxa, hlt⟩]
      · rw [if_neg hxa, if_neg (fun h => hxa h.1), h.cache x hx]
    have hc : ∀ x, x ≠ address.toNat → putByte cfg c address.toNat v x = c x := fun x hx => by
      rw [hput, if_neg (fun h => hx h.1)]
    obtain ⟨hbuf, heffect⟩ := @storeCachedByte_effect cfg c _ o
      { s with dataBuf := s.dataBuf.write address.toNat [v] } address hstored hlt hcache hc
    exact ⟨⟨heffect.stored, fun x hx => by rw [hbuf]; exact hcache x hx⟩, heffect.of_cache⟩

theorem hi_inj {w w' : UInt16} (h : (w >>> 8).toUInt8 = (w' >>> 8).toUInt8) :
    w >>> 8 = w' >>> 8 := by
  have hnat := congrArg UInt8.toNat h
  rw [toNat_hi, toNat_hi] at hnat
  apply UInt16.toNat_inj.mp
  simp only [UInt16.toNat_shiftRight, UInt16.toNat_ofNat, Nat.reducePow, Nat.reduceMod,
    Nat.shiftRight_eq_div_pow]
  exact hnat

theorem compact_cells (hcache : ∀ x, x < cfg.densityBytes → s.dataBuf x = c' x) :
    ∀ x, x < cfg.densityBytes → (eepromCompact cfg s).2.flash x = ~~~c' x := by
  obtain ⟨new, flash, hstate, -, hcells, -⟩ := compact_spec s hcache
  rw [hstate]
  exact hcells

theorem word_not {m m' : ByteMem} {a : Nat} (h : m a = ~~~m' a) (h' : m (a+1) = ~~~m' (a+1)) :
    word m a = emptyWord ↔ word m' a = 0 := by
  rw [word_eq_empty_iff, h, h', ← UInt16.toNat_inj, toNat_word, ← UInt8.toNat_inj,
    ← UInt8.toNat_inj, UInt8.toNat_not, UInt8.toNat_not]
  have hlo := (m' a).toNat_lt
  have hhi := (m' (a+1)).toNat_lt
  simp only [UInt8.size, UInt8.toNat_ofNat, UInt16.toNat_ofNat]
  omega

section LogBytes

variable (h : Stored cfg s.flash s.emptySlot c o) (ha : address < 0x80)
  (heven : address.toNat%2 = 0) (hcell : word s.flash address.toNat ≠ emptyWord)
  (hcache : ∀ x, x < cfg.densityBytes → s.dataBuf x = c' x)
  (hc : ∀ x, x ≠ address.toNat → x ≠ address.toNat+1 → c' x = c x)

include h ha heven hcell hcache hc

theorem logLow_effect
    (hok : cfg.logLast ≤ s.emptySlot → 0 < cfg.writeLogBytes →
      c (address.toNat+1) ≠ c' (address.toNat+1) → word c' address.toNat ≠ 0) :
    ∃ d, Effect cfg s (eepromWriteLogByteEntry cfg address s).2 c d
      ∧ (eepromWriteLogByteEntry cfg address s).2.dataBuf = s.dataBuf
      ∧ (∀ x, x ≠ address.toNat+1 → d x = c' x)
      ∧ (d (address.toNat+1) = c (address.toNat+1) ∨ d (address.toNat+1) = c' (address.toNat+1))
      ∧ (c (address.toNat+1) ≠ c' (address.toNat+1) →
        (eepromWriteLogByteEntry cfg address s).2.emptySlot < cfg.logLast →
        word (eepromWriteLogByteEntry cfg address s).2.flash address.toNat ≠ emptyWord) := by
  have hlow : address.toNat < 128 := UInt16.lt_iff_toNat_lt.mp ha
  have hge := cfg.density_ge
  have hhalf : 2*(address.toNat/2) = address.toNat := by omega
  by_cases hroom : s.emptySlot < cfg.logLast
  · obtain ⟨flash, new, hstate, hcells, heffect⟩ := logByte_room h ha hroom (by rwa [hhalf])
    rw [hstate]
    refine ⟨_, heffect, rfl, fun x hx => ?_, .inl ?_, fun _ _ => ?_⟩
    · rw [← over_byteOverlay, over_apply_byte, hcache _ (by omega)]
      split
      · rename_i hxa
        rw [hxa]
      · rename_i hxa
        exact (hc x hxa hx).symm
    · rw [← over_byteOverlay, over_apply_byte, if_neg (by omega)]
    · dsimp only
      rw [word_congr (hcells _ (by omega)) (hcells _ (by omega))]
      exact hcell
  · have hfull := Nat.le_of_not_lt hroom
    rw [logByte_full hfull]
    refine ⟨c', compact_effect s c hcache, compact_dataBuf s, fun x _ => rfl, .inr rfl,
      fun hdiff hslot => ?_⟩
    have hcells := compact_cells hcache
    rw [Ne, word_not (hcells _ (by omega)) (hcells _ (by omega))]
    obtain ⟨new, flash, hstate, -⟩ := compact_spec s hcache
    rw [hstate, Config.logBase, Config.logLast] at hslot
    dsimp only at hslot
    exact hok hfull (by omega) hdiff

theorem logBytes_effect {oldValue dataWord : UInt16}
    (hold : oldValue.toUInt8 = c address.toNat)
    (hold' : (oldValue >>> 8).toUInt8 = c (address.toNat+1))
    (hnew : dataWord.toUInt8 = c' address.toNat)
    (hnew' : (dataWord >>> 8).toUInt8 = c' (address.toNat+1))
    (hok : cfg.logLast ≤ s.emptySlot → 0 < cfg.writeLogBytes →
      c address.toNat ≠ c' address.toNat → c (address.toNat+1) ≠ c' (address.toNat+1) →
      word c' address.toNat ≠ 0) :
    (eepromWriteLogBytes cfg address oldValue dataWord s).2.dataBuf = s.dataBuf
      ∧ Effect cfg s (eepromWriteLogBytes cfg address oldValue dataWord s).2 c c' := by
  have hlow : address.toNat < 128 := UInt16.lt_iff_toNat_lt.mp ha
  have hnext : (address+1).toNat = address.toNat+1 := by
    rw [UInt16.toNat_add]
    simp only [UInt16.toNat_one]
    omega
  have hhigh : address+1 < 0x80 := by
    rw [UInt16.lt_iff_toNat_lt, hnext]
    simp only [UInt16.toNat_ofNat]
    omega
  have hhalf : 2*((address+1).toNat/2) = address.toNat := by
    rw [hnext]
    omega
  have hhi : oldValue >>> 8 ≠ dataWord >>> 8 ↔ c (address.toNat+1) ≠ c' (address.toNat+1) := by
    rw [← hold', ← hnew']
    exact ⟨fun hne heq => hne (hi_inj heq), fun hne heq => hne (by rw [heq])⟩
  rw [eepromWriteLogBytes, hold, hnew]
  by_cases hlo : c address.toNat ≠ c' address.toNat
  · rw [if_pos hlo]
    have hlow_effect := logLow_effect h ha heven hcell hcache hc
    generalize eepromWriteLogByteEntry cfg address s = r at hlow_effect ⊢
    obtain ⟨d, heffect, hbuf, hd, hd', hcell'⟩ :=
      hlow_effect fun hfull hlog hdiff => hok hfull hlog hlo hdiff
    dsimp only
    by_cases hdiff : c (address.toNat+1) ≠ c' (address.toNat+1)
    · rw [if_pos (hhi.mpr hdiff)]
      obtain ⟨o', hstored⟩ := heffect.stored
      obtain ⟨hbuf', heffect'⟩ := @logByte_effect cfg d c' o' r.2 (address+1) hstored hhigh
        (fun hroom => by rw [hhalf]; exact hcell' hdiff hroom)
        (fun x hx => by rw [hbuf]; exact hcache x hx)
        (fun x hx => (hd x (by rwa [hnext] at hx)).symm)
      refine ⟨hbuf'.trans hbuf, heffect.trans heffect' fun x _ => ?_⟩
      by_cases hx : x = address.toNat+1
      · rw [hx]
        exact hd'
      · exact .inr (hd x hx)
    · rw [if_neg fun hne => hdiff (hhi.mp hne)]
      refine ⟨hbuf, heffect.congr fun x _ => ?_⟩
      by_cases hx : x = address.toNat+1
      · rw [hx]
        rcases hd' with heq | heq
        · rw [heq, not_not.mp hdiff]
        · exact heq.symm
      · exact (hd x hx).symm
  · rw [if_neg hlo]
    dsimp only
    by_cases hdiff : c (address.toNat+1) ≠ c' (address.toNat+1)
    · rw [if_pos (hhi.mpr hdiff)]
      refine logByte_effect h hhigh (fun _ => by rwa [hhalf]) hcache fun x hx => ?_
      by_cases hxa : x = address.toNat
      · rw [hxa, not_not.mp hlo]
      · exact hc x hxa (by rwa [hnext] at hx)
    · rw [if_neg fun hne => hdiff (hhi.mp hne)]
      refine ⟨rfl, (Effect.refl h).congr fun x _ => ?_⟩
      by_cases hxa : x = address.toNat
      · rw [hxa, not_not.mp hlo]
      · by_cases hxa' : x = address.toNat+1
        · rw [hxa', not_not.mp hdiff]
        · exact hc x hxa hxa'

end LogBytes

theorem storeCachedWord_effect {oldValue dataWord : UInt16}
    (h : Stored cfg s.flash s.emptySlot c o) (hlt : address.toNat < cfg.densityBytes)
    (heven : address.toNat%2 = 0)
    (hcache : ∀ x, x < cfg.densityBytes → s.dataBuf x = c' x)
    (hc : ∀ x, x ≠ address.toNat → x ≠ address.toNat+1 → c' x = c x)
    (hold : oldValue.toUInt8 = c address.toNat)
    (hold' : (oldValue >>> 8).toUInt8 = c (address.toNat+1))
    (hnew : dataWord.toUInt8 = c' address.toNat)
    (hnew' : (dataWord >>> 8).toUInt8 = c' (address.toNat+1))
    (hok : address < 0x80 → word s.flash address.toNat ≠ emptyWord →
      cfg.logLast ≤ s.emptySlot → 0 < cfg.writeLogBytes → c address.toNat ≠ c' address.toNat →
      c (address.toNat+1) ≠ c' (address.toNat+1) → word c' address.toNat ≠ 0) :
    (storeCachedWord cfg address oldValue dataWord s).2.dataBuf = s.dataBuf
      ∧ Effect cfg s (storeCachedWord cfg address oldValue dataWord s).2 c c' := by
  have hhalf : 2*(address.toNat/2) = address.toNat := by omega
  have hword : ∀ x, x/2 ≠ address.toNat/2 → c' x = c x := fun x hx =>
    hc x (fun heq => hx (by rw [heq])) (fun heq => hx (by omega))
  rw [storeCachedWord]
  by_cases hempty : word s.flash address.toNat = emptyWord
  · obtain ⟨hstatus, hbuf, heffect⟩ := direct_erased h (by rwa [hhalf]) hlt hcache hword
    generalize eepromWriteDirectEntry address s = r at hstatus hbuf heffect ⊢
    dsimp only
    rw [if_neg hstatus]
    exact ⟨hbuf, heffect⟩
  · rw [direct_programmed (by rwa [hhalf])]
    dsimp only
    rw [if_pos rfl]
    by_cases hlow : address < 0x80
    · rw [if_pos hlow]
      exact logBytes_effect h hlow heven hempty hcache hc hold hold' hnew hnew' (hok hlow hempty)
    · rw [if_neg hlow]
      have hlow' : 128 ≤ address.toNat := Nat.le_of_not_lt fun hlt' =>
        hlow (UInt16.lt_iff_toNat_lt.mpr hlt')
      exact logWord_effect h hlt heven hempty hlow' hcache hword

variable (cfg) in
def Write.put (c : ByteMem) : Write → ByteMem
  | .byte address value => putByte cfg c address.toNat value
  | .word address value =>
    putByte cfg (putByte cfg c address.toNat value.toUInt8) (address.toNat+1) (value >>> 8).toUInt8

variable (cfg) in
/-- Not the case that a word of zero replaces two other bytes, each with an entry of its own, of
which the first compacts the log and the second then goes into it. -/
def Orderly (s : State) : Write → Prop
  | .byte _ _ => True
  | .word address value => ¬(address%2 = 0 ∧ address < 0x80 ∧ value = 0
    ∧ s.dataBuf address.toNat ≠ 0 ∧ s.dataBuf (address.toNat+1) ≠ 0
    ∧ word s.flash address.toNat ≠ emptyWord
    ∧ cfg.logLast ≤ s.emptySlot ∧ 0 < cfg.writeLogBytes)

theorem put_word_apply (c : ByteMem) (address value : UInt16) (x : Nat) :
    (Write.word address value).put cfg c x
      = if x = address.toNat ∧ address.toNat < cfg.densityBytes then value.toUInt8
        else if x = address.toNat+1 ∧ address.toNat+1 < cfg.densityBytes then (value >>> 8).toUInt8
        else c x := by
  rw [Write.put, putByte_apply, putByte_apply]
  by_cases hx : x = address.toNat
  · rw [if_neg (by omega)]
    split
    · rfl
    · rw [if_neg (by omega)]
  · simp only [hx, false_and, if_false]

theorem writeWord_effect (h : Inv cfg s c) (value : UInt16)
    (hok : Orderly cfg s (.word address value)) :
    Inv cfg (eepromWriteDataWord cfg address value s).2 ((Write.word address value).put cfg c)
    ∧ Effect cfg s (eepromWriteDataWord cfg address value s).2 c
      ((Write.word address value).put cfg c) := by
  obtain ⟨o, hstored⟩ := h.stored
  have hput := @put_word_apply cfg c address value
  have hdensity := cfg.density_even
  have hle := cfg.density_le
  rw [eepromWriteDataWord]
  by_cases hrange : cfg.densityBytes ≤ address.toNat
  · have hsame : (Write.word address value).put cfg c = c := by
      funext x
      rw [hput, if_neg (by omega), if_neg (by omega)]
    rw [if_pos hrange, hsame]
    exact ⟨h, Effect.refl hstored⟩
  have hlt : address.toNat < cfg.densityBytes := Nat.lt_of_not_le hrange
  rw [if_neg hrange]
  by_cases hodd : address%2 ≠ 0
  · rw [if_pos hodd]
    have hnext : (address+1).toNat = address.toNat+1 := by
      rw [UInt16.toNat_add]
      simp only [UInt16.toNat_one]
      omega
    obtain ⟨hinv₁, heffect₁⟩ := writeByte_effect h address value.toUInt8
    obtain ⟨hinv₂, heffect₂⟩ := writeByte_effect hinv₁ (address+1) (value >>> 8).toUInt8
    rw [hnext] at hinv₂ heffect₂
    refine ⟨hinv₂, heffect₁.trans heffect₂ fun x _ => ?_⟩
    rw [putByte_apply]
    split
    · rename_i hx
      rw [hput, if_pos hx]
      exact .inr rfl
    · exact .inl rfl
  · rw [if_neg hodd]
    have heven : address.toNat%2 = 0 := by
      have := congrArg UInt16.toNat (not_not.mp hodd)
      simpa using this
    by_cases hsame : word s.dataBuf address.toNat = value
    · rw [if_pos hsame]
      have hlo := lo_word s.dataBuf address.toNat
      have hhi := hi_word s.dataBuf address.toNat
      rw [hsame] at hlo hhi
      have hput' : ∀ x, x < cfg.densityBytes → (Write.word address value).put cfg c x = c x := by
        intro x hx
        rw [hput]
        split
        · rename_i hxa
          rw [hlo, h.cache _ hlt, hxa.1]
        · split
          · rename_i hxa
            rw [hhi, h.cache _ hxa.2, hxa.1]
          · rfl
      have heffect := (Effect.refl hstored).congr hput'
      exact ⟨⟨heffect.stored, fun x hx => (h.cache x hx).trans (hput' x hx).symm⟩, heffect⟩
    · rw [if_neg hsame]
      have hlt' : address.toNat+1 < cfg.densityBytes := by omega
      have hcache : ∀ x, x < cfg.densityBytes →
          storeWord s.dataBuf address.toNat value x = (Write.word address value).put cfg c x := by
        intro x hx
        rw [hput, storeWord_apply, h.cache x hx]
        simp only [hlt, hlt', and_true]
      have hc : ∀ x, x ≠ address.toNat → x ≠ address.toNat+1 →
          (Write.word address value).put cfg c x = c x := fun x hx hx' => by
        rw [hput, if_neg (fun h => hx h.1), if_neg (fun h => hx' h.1)]
      have hnew : value.toUInt8 = (Write.word address value).put cfg c address.toNat := by
        rw [hput, if_pos ⟨rfl, hlt⟩]
      have hnew' : (value >>> 8).toUInt8
          = (Write.word address value).put cfg c (address.toNat+1) := by
        rw [hput, if_neg (by omega), if_pos ⟨rfl, hlt'⟩]
      obtain ⟨hbuf, heffect⟩ := @storeCachedWord_effect cfg c _ o
        { s with dataBuf := storeWord s.dataBuf address.toNat value } address
        (word s.dataBuf address.toNat) value hstored hlt heven hcache hc
        (by rw [lo_word, h.cache _ hlt]) (by rw [hi_word, h.cache _ hlt']) hnew hnew' (by
          intro hlow hcell hfull hlog hdiff hdiff' hzero
          have hvalue : value = 0 := by
            rw [← word_of_bytes value, hnew, hnew']
            exact hzero
          refine hok ⟨not_not.mp hodd, hlow, hvalue, ?_, ?_, hcell, hfull, hlog⟩
          · rw [h.cache _ hlt]
            rw [← hnew, hvalue] at hdiff
            exact hdiff
          · rw [h.cache _ hlt']
            rw [← hnew', hvalue] at hdiff'
            exact hdiff')
      exact ⟨⟨heffect.stored, fun x hx => by rw [hbuf]; exact hcache x hx⟩, heffect.of_cache⟩

theorem Write.run_effect (h : Inv cfg s c) (w : Write) (hok : Orderly cfg s w) :
    Inv cfg (w.run cfg s) (w.put cfg c) ∧ Effect cfg s (w.run cfg s) c (w.put cfg c) := by
  cases w with
  | byte address value => exact writeByte_effect h address value
  | word address value => exact writeWord_effect h value hok

end QmkFirmware.EmulatedFlash
