import QmkFirmware.EmulatedFlash.Gaps

/-!
What the status of a write says about the flash: when a run of writes can be relied on, and that
it then is what `EEPROM_Init` reads.
-/

set_option autoImplicit false

namespace QmkFirmware.EmulatedFlash.Faulty

section Definitions

variable (cfg : Config) (ok : Nat → Bool)

def storeSize (s : State) (a : Nat) : Nat :=
  if word s.flash (2*(a/2)) = emptyWord then if word s.dataBuf (2*(a/2)) = 0 then 0 else 1
  else if Full cfg s (entrySize s a) then compactSize cfg s else entrySize s a

/-- Storing a byte of the cache, with entries of `n` half-words where its cell is programmed,
brings it to where `EEPROM_Init` reads it, or is refused. -/
def Lands (s : State) (n : Nat) (entry : Prop) (x : Nat) : Prop :=
  if word s.flash (2*(x/2)) = emptyWord then
    Refused ok s (if word s.dataBuf (2*(x/2)) = 0 then 0 else 1) ∨ ¬Logged cfg s x
  else Full cfg s n ∨ Refused ok s n ∨ InStep cfg s ∧ entry

/-- A byte that is in the cache already, and not written for that reason, is stored; one that is
written lands. -/
def TrustedByte (s : State) (address : UInt16) (value : UInt8) : Prop :=
  address.toNat < cfg.densityBytes → recovered cfg s address.toNat = value
    ∨ s.dataBuf address.toNat ≠ value
      ∧ let t := { s with dataBuf := s.dataBuf.write address.toNat [value] }
        Lands cfg ok t (entrySize t address.toNat) True address.toNat

def changedBytes (s : State) (address dataWord : UInt16) : Nat :=
  (if s.dataBuf address.toNat ≠ dataWord.toUInt8 then 1 else 0)
    +(if s.dataBuf (address.toNat+1) ≠ (dataWord >>> 8).toUInt8 then 1 else 0)

def TrustedHalf (s : State) (address dataWord : UInt16) (x : Nat) (value : UInt8) : Prop :=
  recovered cfg s x = value
    ∨ word s.dataBuf address.toNat ≠ dataWord
      ∧ let t := { s with dataBuf := storeWord s.dataBuf address.toNat dataWord }
        if address.toNat < 128 then
          Lands cfg ok t (changedBytes s address dataWord) (s.dataBuf x ≠ value) x
        else Lands cfg ok t (entrySize t address.toNat) True x

/-- The two writes of a word that is not aligned. The second is not skipped behind a first one
that is refused; at the last address the first is skipped. -/
def TrustedPair (s : State) (address dataWord : UInt16) : Prop :=
  let lo := dataWord.toUInt8
  let hi := (dataWord >>> 8).toUInt8
  let t := { s with dataBuf := s.dataBuf.write address.toNat [lo] }
  let refused := s.dataBuf address.toNat ≠ lo ∧ Refused ok t (storeSize cfg t address.toNat)
  if address.toNat+1 < cfg.densityBytes then
    TrustedByte cfg ok s address lo
      ∧ (refused → s.dataBuf (address.toNat+1) ≠ hi)
      ∧ (¬refused →
        TrustedByte cfg ok (eepromWriteDataByte cfg ok address lo s).2 (address+1) hi)
  else s.dataBuf address.toNat = lo

def Trusted (s : State) : Write → Prop
  | .byte address value => TrustedByte cfg ok s address value
  | .word address value => address.toNat < cfg.densityBytes →
    if address%2 = 0 then
      TrustedHalf cfg ok s address value address.toNat value.toUInt8
        ∧ TrustedHalf cfg ok s address value (address.toNat+1) (value >>> 8).toUInt8
    else TrustedPair cfg ok s address value

def Sets : Write → Nat → UInt8 → Prop
  | .byte address value, x, v => x = address.toNat ∧ v = value
  | .word address value, x, v => x = address.toNat ∧ v = value.toUInt8
    ∨ x = address.toNat+1 ∧ v = (value >>> 8).toUInt8

/-- Behind a status of success `EEPROM_Init` reads what was written, and behind a bad address
nothing has changed. -/
structure Truthful (s : State) (w : Write) : Prop where
  success : (call cfg ok s w).1 = .zero ∨ (call cfg ok s w).1 = .complete →
    ∀ x v, Sets w x v → recovered cfg (call cfg ok s w).2 x = v
  badAddress : (call cfg ok s w).1 = .badAddress →
    (call cfg ok s w).2.dataBuf = s.dataBuf ∧ (call cfg ok s w).2.flash = s.flash

end Definitions

variable {cfg : Config} {ok : Nat → Bool} {s : State}

theorem storeCachedByte_stores {address : UInt16} (h : Placed cfg s)
    (hlt : address.toNat < cfg.densityBytes) :
    let r := storeCachedByte cfg ok address s
    Stores cfg ok s (storeSize cfg s address.toNat) r
      ∧ (r.1 = .complete → Lands cfg ok s (entrySize s address.toNat) True address.toNat →
        recovered cfg r.2 address.toNat = s.dataBuf address.toNat) := by
  intro r
  have heven := cfg.density_even
  by_cases hempty : word s.flash (2*(address.toNat/2)) = emptyWord
  · obtain ⟨h₁, h₂⟩ := @direct_stores cfg ok s address h hempty hlt
    have hdirect : r = eepromWriteDirectEntry ok address s := by
      simp only [r, storeCachedByte]
      refine if_neg fun hzero => ?_
      rcases h₁.status with hs | hs <;> rw [hs] at hzero <;> cases hzero
    rw [hdirect, storeSize, if_pos hempty]
    refine ⟨h₁,fun hc hlands => h₂ hc _ rfl ?_⟩
    rw [Lands, if_pos hempty] at hlands
    exact hlands.resolve_left (h₁.complete.mp hc)
  have hstore : storeSize cfg s address.toNat = if Full cfg s (entrySize s address.toNat)
      then compactSize cfg s else entrySize s address.toNat := if_neg hempty
  -- an entry that is not refused
  have hlanded : ∀ n, ¬Refused ok s (if Full cfg s n then compactSize cfg s else n) →
      Lands cfg ok s n True address.toNat → Full cfg s n ∨ InStep cfg s := by
    intro n hall hlands
    rw [Lands, if_neg hempty] at hlands
    rcases hlands with hfull | hrefused | ⟨hstep, -⟩
    · exact .inl hfull
    · by_cases hfull : Full cfg s n
      · exact .inl hfull
      · exact absurd hrefused (by rwa [if_neg hfull] at hall)
    · exact .inr hstep
  by_cases hlow : address < 0x80
  · have hbyte : r = eepromWriteLogByteEntry cfg ok address s := by
      simp only [r, storeCachedByte, direct_programmed hempty, if_true, if_pos hlow]
    have hsize : entrySize s address.toNat = 1 :=
      if_pos (.inl (UInt16.lt_iff_toNat_lt.mp hlow))
    rw [hsize] at hstore ⊢
    obtain ⟨h₁, h₂, -, -⟩ := @logByte_stores cfg ok s address h hlow
    rw [hbyte, hstore]
    exact ⟨h₁,fun hc hlands => (h₂ hc (hlanded 1 (h₁.complete.mp hc) hlands)).2⟩
  · have hword : r = eepromWriteLogWordEntry cfg ok (address &&& 0xFFFE) s := by
      simp only [r, storeCachedByte, direct_programmed hempty, if_true, if_neg hlow]
    have hlow' : 128 ≤ address.toNat := Nat.le_of_not_lt fun hlt' =>
      hlow (UInt16.lt_iff_toNat_lt.mpr hlt')
    have haligned := toNat_aligned address
    have hsize : entrySize s (address &&& 0xFFFE).toNat = entrySize s address.toNat := by
      rw [entrySize, entrySize, haligned, show 2*(2*(address.toNat/2)/2) = 2*(address.toNat/2) by omega]
      exact if_congr (or_congr_left (by omega)) rfl rfl
    obtain ⟨h₁, h₂⟩ := @logWord_stores cfg ok s (address &&& 0xFFFE) h (by omega) (by omega)
      (by omega)
    rw [hsize] at h₁ h₂
    rw [hword, hstore]
    exact ⟨h₁,fun hc hlands => h₂ hc (hlanded _ (h₁.complete.mp hc) hlands) _ (by omega)⟩

/-- What one function leaves to the next: the bytes that are read as the cache has them. -/
structure Keeps (cfg : Config) (s : State) (r : Status × State) : Prop where
  placed : Placed cfg r.2
  cache : r.2.dataBuf = s.dataBuf
  status : r.1 = .complete ∨ r.1 = .errorPg
  kept : r.1 = .complete → ∀ x, x < cfg.densityBytes → recovered cfg s x = s.dataBuf x →
    recovered cfg r.2 x = s.dataBuf x

theorem Stores.keeps {n : Nat} {r : Status × State} (h : Stores cfg ok s n r) : Keeps cfg s r :=
  ⟨h.placed,h.cache,h.status,h.kept⟩

theorem Keeps.refl (h : Placed cfg s) : Keeps cfg s (.complete,s) :=
  ⟨h,rfl,.inl rfl,fun _ _ _ hx => hx⟩

def merged (first second : Status) : Status := if second ≠ .complete then second else first

theorem merged_complete {first second : Status} :
    merged first second = .complete ↔ first = .complete ∧ second = .complete := by
  cases first <;> cases second <;> simp [merged]

theorem Keeps.trans {r r' : Status × State} (h : Keeps cfg s r) (h' : Keeps cfg r.2 r') :
    Keeps cfg s (merged r.1 r'.1,r'.2) where
  placed := h'.placed
  cache := h'.cache.trans h.cache
  status := by
    rcases h'.status with hs | hs
    · simpa [merged, hs] using h.status
    · simp [merged, hs]
  kept hc x hx hright := by
    obtain ⟨hc₁, hc₂⟩ := merged_complete.mp hc
    have hkept := h.kept hc₁ x hx hright
    rw [← h.cache] at hkept ⊢
    exact h'.kept hc₂ x hx hkept

/-- The entries of the bytes of a word that have changed: they have no room, or none of their
half-words is refused. -/
theorem logBytes_keeps {address oldValue dataWord : UInt16} (h : Placed cfg s)
    (ha : address < 0x80) (heven : address.toNat%2 = 0) :
    let n := (if oldValue.toUInt8 ≠ dataWord.toUInt8 then 1 else 0)
      +(if oldValue >>> 8 ≠ dataWord >>> 8 then 1 else 0)
    let r := eepromWriteLogBytes cfg ok address oldValue dataWord s
    Keeps cfg s r ∧ (r.1 = .complete →
      (Full cfg s n → ∀ x, x/2 = address.toNat/2 → recovered cfg r.2 x = s.dataBuf x)
      ∧ (¬Full cfg s n → ¬Refused ok s n ∧ (InStep cfg s →
        (oldValue.toUInt8 ≠ dataWord.toUInt8 →
          recovered cfg r.2 address.toNat = s.dataBuf address.toNat)
        ∧ (oldValue >>> 8 ≠ dataWord >>> 8 →
          recovered cfg r.2 (address.toNat+1) = s.dataBuf (address.toNat+1))))) := by
  intro n r
  have hlow : address.toNat < 128 := UInt16.lt_iff_toNat_lt.mp ha
  have hdensity := cfg.density_ge
  have hnext : (address+1).toNat = address.toNat+1 := by
    rw [UInt16.toNat_add]
    simp only [UInt16.toNat_one]
    omega
  have hhigh : address+1 < 0x80 := by
    rw [UInt16.lt_iff_toNat_lt, hnext]
    simp only [UInt16.toNat_ofNat]
    omega
  have hr : r = eepromWriteLogBytes cfg ok address oldValue dataWord s := rfl
  rw [eepromWriteLogBytes] at hr
  by_cases hlo : oldValue.toUInt8 ≠ dataWord.toUInt8
  · obtain ⟨h₁, hstep₁, hall₁, hroom₁⟩ := @logByte_stores cfg ok s address h ha
    rw [if_pos hlo] at hr
    generalize eepromWriteLogByteEntry cfg ok address s = r₁ at h₁ hstep₁ hall₁ hroom₁ hr
    by_cases hhi : oldValue >>> 8 ≠ dataWord >>> 8
    · obtain ⟨h₂, hstep₂, hall₂, -⟩ := @logByte_stores cfg ok r₁.2 (address+1) h₁.placed hhigh
      dsimp only at hr
      rw [if_pos hhi] at hr
      generalize eepromWriteLogByteEntry cfg ok (address+1) r₁.2 = r₂ at h₂ hstep₂ hall₂ hr
      have hn : n = 2 := by simp only [n, if_pos hlo, if_pos hhi]
      have hr' : r = (merged r₁.1 r₂.1,r₂.2) := hr
      rw [hr', hn]
      refine ⟨h₁.keeps.trans h₂.keeps,fun hc => ?_⟩
      obtain ⟨hc₁, hc₂⟩ := merged_complete.mp hc
      rw [h₁.cache] at hstep₂ hall₂
      have hkept : ∀ x, x < cfg.densityBytes → recovered cfg r₁.2 x = s.dataBuf x →
          recovered cfg r₂.2 x = s.dataBuf x := fun x hx hright => by
        rw [← h₁.cache] at hright ⊢
        exact h₂.kept hc₂ x hx hright
      constructor
      · intro hfull x hx
        by_cases hfull₁ : Full cfg s 1
        · exact hkept x (by omega) (hall₁ hc₁ hfull₁ x (by omega))
        · refine hall₂ hc₂ ?_ x (by omega)
          have hslot := (hroom₁ hfull₁).1
          simp only [Full] at hfull ⊢
          omega
      · intro hfull
        have hfull₁ : ¬Full cfg s 1 := by
          simp only [Full] at hfull ⊢
          omega
        obtain ⟨hslot, hcalls⟩ := hroom₁ hfull₁
        have hfull₂ : ¬Full cfg r₁.2 1 := by
          simp only [Full] at hfull ⊢
          omega
        have hone := h₁.complete.mp hc₁
        have htwo := h₂.complete.mp hc₂
        rw [if_neg hfull₁] at hone
        rw [if_neg hfull₂, refused_one, hcalls] at htwo
        refine ⟨?_,fun hin => ?_⟩
        · rw [refused_succ, not_or]
          exact ⟨hone,htwo⟩
        · obtain ⟨hin₁, hright₁⟩ := hstep₁ hc₁ (.inr hin)
          have hright₂ := (hstep₂ hc₂ (.inr hin₁)).2
          rw [hnext] at hright₂
          exact ⟨fun _ => hkept _ (by omega) hright₁,fun _ => hright₂⟩
    · have hn : n = 1 := by simp only [n, if_pos hlo, if_neg hhi]
      dsimp only at hr
      rw [if_neg hhi] at hr
      have hr' : r = r₁ := hr
      rw [hr', hn]
      refine ⟨h₁.keeps,fun hc => ⟨fun hfull x hx => hall₁ hc hfull x (by omega),fun hfull => ?_⟩⟩
      have hone := h₁.complete.mp hc
      rw [if_neg hfull] at hone
      exact ⟨hone,fun hin => ⟨fun _ => (hstep₁ hc (.inr hin)).2,fun hne => absurd hne hhi⟩⟩
  · rw [if_neg hlo] at hr
    by_cases hhi : oldValue >>> 8 ≠ dataWord >>> 8
    · obtain ⟨h₂, hstep₂, hall₂, -⟩ := @logByte_stores cfg ok s (address+1) h hhigh
      dsimp only at hr
      rw [if_pos hhi] at hr
      generalize eepromWriteLogByteEntry cfg ok (address+1) s = r₂ at h₂ hstep₂ hall₂ hr
      have hn : n = 1 := by simp only [n, if_neg hlo, if_pos hhi]
      have hr' : r = (merged .complete r₂.1,r₂.2) := hr
      rw [hr', hn]
      refine ⟨(Keeps.refl h).trans h₂.keeps,fun hc => ?_⟩
      obtain ⟨-, hc₂⟩ := merged_complete.mp hc
      refine ⟨fun hfull x hx => hall₂ hc₂ hfull x (by omega),fun hfull => ?_⟩
      have hone := h₂.complete.mp hc₂
      rw [if_neg hfull] at hone
      rw [hnext] at hstep₂
      exact ⟨hone,fun hin => ⟨fun hne => absurd hne hlo,fun _ => (hstep₂ hc₂ (.inr hin)).2⟩⟩
    · have hn : n = 0 := by simp only [n, if_neg hlo, if_neg hhi]
      dsimp only at hr
      rw [if_neg hhi] at hr
      have hr' : r = (.complete,s) := hr
      have hkeeps := @Keeps.refl cfg s h
      obtain ⟨_, _, hlog⟩ := h
      rw [hr', hn]
      refine ⟨hkeeps,fun _ => ⟨fun hfull => ?_,fun _ => ⟨refused_zero,fun _ =>
        ⟨fun hne => absurd hne hlo,fun hne => absurd hne hhi⟩⟩⟩⟩
      exact absurd hfull (Nat.not_lt.mpr hlog.slot_le)

theorem storeCachedWord_keeps {address dataWord : UInt16} {c : ByteMem} (h : Placed cfg s)
    (hlt : address.toNat < cfg.densityBytes) (heven : address.toNat%2 = 0)
    (hnew : word s.dataBuf address.toNat = dataWord) :
    let n := (if c address.toNat ≠ dataWord.toUInt8 then 1 else 0)
      +(if c (address.toNat+1) ≠ (dataWord >>> 8).toUInt8 then 1 else 0)
    let r := storeCachedWord cfg ok address (word c address.toNat) dataWord s
    Keeps cfg s r ∧ (r.1 = .complete → ∀ x, x/2 = address.toNat/2 →
      (if address.toNat < 128 then Lands cfg ok s n (c x ≠ s.dataBuf x) x
        else Lands cfg ok s (entrySize s address.toNat) True x) →
          recovered cfg r.2 x = s.dataBuf x) := by
  intro n r
  have hdensity := cfg.density_even
  have hhalf : 2*(address.toNat/2) = address.toNat := by omega
  have hlands : ∀ k entry x, x/2 = address.toNat/2 → Lands cfg ok s k entry x →
      if word s.flash address.toNat = emptyWord then
        Refused ok s (if word s.dataBuf address.toNat = 0 then 0 else 1) ∨ ¬Logged cfg s x
      else Full cfg s k ∨ Refused ok s k ∨ InStep cfg s ∧ entry := by
    intro k entry x hx hl
    rwa [Lands, hx, hhalf] at hl
  by_cases hempty : word s.flash address.toNat = emptyWord
  · obtain ⟨h₁, h₂⟩ := @direct_stores cfg ok s address h (by rwa [hhalf]) hlt
    have hdirect : r = eepromWriteDirectEntry ok address s := by
      simp only [r, storeCachedWord]
      refine if_neg fun hzero => ?_
      rcases h₁.status with hs | hs <;> rw [hs] at hzero <;> cases hzero
    rw [hdirect]
    refine ⟨h₁.keeps,fun hc x hx hl => h₂ hc x hx ?_⟩
    have hdone := h₁.complete.mp hc
    rw [hhalf] at hdone
    have hboth : ∀ k entry, Lands cfg ok s k entry x → ¬Logged cfg s x := fun k entry hl => by
      have hl' := hlands k entry x hx hl
      rw [if_pos hempty] at hl'
      exact hl'.resolve_left hdone
    split at hl
    · exact hboth _ _ hl
    · exact hboth _ _ hl
  have hprogrammed := @direct_programmed ok s address (by rwa [hhalf])
  by_cases hlow : address < 0x80
  · have hlow' : address.toNat < 128 := UInt16.lt_iff_toNat_lt.mp hlow
    have hbytes : r = eepromWriteLogBytes cfg ok address (word c address.toNat) dataWord s := by
      simp only [r, storeCachedWord, hprogrammed, if_true, if_pos hlow]
    have hhi : word c address.toNat >>> 8 ≠ dataWord >>> 8
        ↔ c (address.toNat+1) ≠ (dataWord >>> 8).toUInt8 := by
      rw [← hi_word c]
      exact ⟨fun hne heq => hne (hi_inj heq),fun hne heq => hne (by rw [heq])⟩
    obtain ⟨h₁, h₂⟩ := @logBytes_keeps cfg ok s address (word c address.toNat) dataWord h hlow heven
    simp only [lo_word, hhi] at h₂
    rw [hbytes]
    refine ⟨h₁,fun hc x hx hl => ?_⟩
    obtain ⟨hfull, hroom⟩ := h₂ hc
    rw [if_pos hlow'] at hl
    have hl' := hlands n (c x ≠ s.dataBuf x) x hx hl
    rw [if_neg hempty] at hl'
    by_cases hfull' : Full cfg s n
    · exact hfull hfull' x hx
    · obtain ⟨hnot, hright⟩ := hroom hfull'
      obtain ⟨hstep, hentry⟩ := (hl'.resolve_left hfull').resolve_left hnot
      obtain ⟨hright₁, hright₂⟩ := hright hstep
      rcases (show x = address.toNat ∨ x = address.toNat+1 by omega) with rfl | rfl
      · exact hright₁ (by rwa [← hnew, lo_word])
      · exact hright₂ (by rwa [← hnew, hi_word])
  · have hlow' : 128 ≤ address.toNat := Nat.le_of_not_lt fun hlt' =>
      hlow (UInt16.lt_iff_toNat_lt.mpr hlt')
    have hentry : r = eepromWriteLogWordEntry cfg ok address s := by
      simp only [r, storeCachedWord, hprogrammed, if_true, if_neg hlow]
    obtain ⟨h₁, h₂⟩ := @logWord_stores cfg ok s address h hlt heven hlow'
    rw [hentry]
    refine ⟨h₁.keeps,fun hc x hx hl => h₂ hc ?_ x hx⟩
    rw [if_neg (Nat.not_lt.mpr hlow')] at hl
    have hl' := hlands _ True x hx hl
    rw [if_neg hempty] at hl'
    have hdone := h₁.complete.mp hc
    by_cases hfull : Full cfg s (entrySize s address.toNat)
    · exact .inl hfull
    · rw [if_neg hfull] at hdone
      exact .inr ((hl'.resolve_left hfull).resolve_left hdone).1

theorem Placed.recovered_cache (h : Placed cfg s) (buf : ByteMem) {x : Nat}
    (hx : x < cfg.densityBytes) :
    recovered cfg { s with dataBuf := buf } x = recovered cfg s x := by
  obtain ⟨e, o, hlog⟩ := h
  have hlog' : LogTo cfg ({ s with dataBuf := buf } : State).flash s.emptySlot e o := hlog
  rw [hlog.recovered_eq hx, hlog'.recovered_eq hx]

section Bytes

variable {address : UInt16} {value : UInt8}

theorem writeByte_out (h : cfg.densityBytes ≤ address.toNat) :
    eepromWriteDataByte cfg ok address value s = (.badAddress,s) := if_pos h

theorem writeByte_same (hlt : address.toNat < cfg.densityBytes)
    (h : s.dataBuf address.toNat = value) :
    eepromWriteDataByte cfg ok address value s = (.zero,s) := by
  rw [eepromWriteDataByte, if_neg (Nat.not_le.mpr hlt), if_pos h]

theorem writeByte_new (hlt : address.toNat < cfg.densityBytes)
    (h : s.dataBuf address.toNat ≠ value) :
    eepromWriteDataByte cfg ok address value s = storeCachedByte cfg ok address
      { s with dataBuf := s.dataBuf.write address.toNat [value] } := by
  rw [eepromWriteDataByte, if_neg (Nat.not_le.mpr hlt), if_neg h]

theorem write_byte_apply (c : ByteMem) (a : Nat) (v : UInt8) (x : Nat) :
    c.write a [v] x = if x = a then v else c x := by
  rw [← over_byteOverlay, over_apply_byte]

theorem writeByte_placed (h : Placed cfg s) :
    Placed cfg (eepromWriteDataByte cfg ok address value s).2 := by
  by_cases hrange : cfg.densityBytes ≤ address.toNat
  · rw [writeByte_out hrange]
    exact h
  by_cases hsame : s.dataBuf address.toNat = value
  · rw [writeByte_same (Nat.not_le.mp hrange) hsame]
    exact h
  · rw [writeByte_new (Nat.not_le.mp hrange) hsame]
    have hplaced : Placed cfg { s with dataBuf := s.dataBuf.write address.toNat [value] } := h
    exact (storeCachedByte_stores hplaced (Nat.not_le.mp hrange)).1.placed

theorem writeByte_truthful (h : Placed cfg s) (hlt : address.toNat < cfg.densityBytes)
    (htrusted : TrustedByte cfg ok s address value)
    (hstatus : (eepromWriteDataByte cfg ok address value s).1 = .zero
      ∨ (eepromWriteDataByte cfg ok address value s).1 = .complete) :
    recovered cfg (eepromWriteDataByte cfg ok address value s).2 address.toNat = value
      ∧ (eepromWriteDataByte cfg ok address value s).2.dataBuf address.toNat = value
      ∧ ∀ x, x < cfg.densityBytes → x ≠ address.toNat → recovered cfg s x = s.dataBuf x →
        recovered cfg (eepromWriteDataByte cfg ok address value s).2 x = s.dataBuf x := by
  by_cases hsame : s.dataBuf address.toNat = value
  · rw [writeByte_same hlt hsame]
    exact ⟨(htrusted hlt).resolve_right fun hne => hne.1 hsame,hsame,fun _ _ _ hright => hright⟩
  rw [writeByte_new hlt hsame] at hstatus ⊢
  have hplaced : Placed cfg { s with dataBuf := s.dataBuf.write address.toNat [value] } := h
  obtain ⟨h₁, h₂⟩ := @storeCachedByte_stores cfg ok _ address hplaced hlt
  generalize storeCachedByte cfg ok address _ = r at h₁ h₂ hstatus ⊢
  have hc : r.1 = .complete := hstatus.resolve_left fun hzero => by
    rcases h₁.status with hs | hs <;> rw [hs] at hzero <;> cases hzero
  have hvalue : s.dataBuf.write address.toNat [value] address.toNat = value := by
    rw [write_byte_apply, if_pos rfl]
  have hkept := h₁.kept hc
  dsimp only at hkept h₂
  refine ⟨?_,?_,fun x hx hne hright => ?_⟩
  · rcases htrusted hlt with hread | ⟨-, hlands⟩
    · have hright := hkept address.toNat hlt
      rw [h.recovered_cache _ hlt, hvalue] at hright
      exact hright hread
    · exact (h₂ hc hlands).trans hvalue
  · rw [h₁.cache]
    exact hvalue
  · have hright' := hkept x hx
    rw [h.recovered_cache _ hx, write_byte_apply, if_neg hne] at hright'
    exact hright' hright

theorem writeByte_status (h : Placed cfg s) (hlt : address.toNat < cfg.densityBytes) :
    let r := eepromWriteDataByte cfg ok address value s
    let t := { s with dataBuf := s.dataBuf.write address.toNat [value] }
    (r.1 = .zero ↔ s.dataBuf address.toNat = value)
      ∧ (r.1 = .complete ↔ s.dataBuf address.toNat ≠ value
        ∧ ¬Refused ok t (storeSize cfg t address.toNat))
      ∧ (r.1 = .zero ∨ r.1 = .complete ∨ r.1 = .errorPg) := by
  intro r t
  by_cases hsame : s.dataBuf address.toNat = value
  · simp only [r, writeByte_same hlt hsame]
    exact ⟨iff_of_true trivial hsame,iff_of_false nofun fun h => h.1 hsame,.inl trivial⟩
  · have hplaced : Placed cfg t := h
    obtain ⟨h₁, -⟩ := @storeCachedByte_stores cfg ok t address hplaced hlt
    simp only [r, writeByte_new hlt hsame]
    refine ⟨iff_of_false (fun hzero => ?_) hsame,?_,.inr h₁.status⟩
    · rcases h₁.status with hs | hs <;> rw [hs] at hzero <;> cases hzero
    · rw [h₁.complete]
      exact ⟨fun hall => ⟨hsame,hall⟩,And.right⟩

end Bytes

theorem byte_truthful {address : UInt16} {value : UInt8} (h : Placed cfg s)
    (ht : TrustedByte cfg ok s address value) : Truthful cfg ok s (.byte address value) := by
  by_cases hrange : cfg.densityBytes ≤ address.toNat
  · have hout := @writeByte_out cfg ok s address value hrange
    refine ⟨fun hstatus => ?_,fun _ => ?_⟩
    · rw [call, hout] at hstatus
      rcases hstatus with hs | hs <;> cases hs
    · rw [call, hout]
      exact ⟨rfl,rfl⟩
  · have hlt := Nat.not_le.mp hrange
    obtain ⟨-, -, hstatus⟩ := @writeByte_status cfg ok s address value h hlt
    constructor
    · rintro hsuccess x v ⟨rfl, rfl⟩
      exact (writeByte_truthful h hlt ht hsuccess).1
    · intro hbad
      rw [call] at hbad
      rcases hstatus with hs | hs | hs <;> rw [hs] at hbad <;> cases hbad

theorem aligned_truthful {address value : UInt16} (h : Placed cfg s)
    (hlt : address.toNat < cfg.densityBytes) (heven : address%2 = 0)
    (hlo : TrustedHalf cfg ok s address value address.toNat value.toUInt8)
    (hhi : TrustedHalf cfg ok s address value (address.toNat+1) (value >>> 8).toUInt8) :
    Truthful cfg ok s (.word address value) ∧ Placed cfg (call cfg ok s (.word address value)).2 := by
  have heven' : address.toNat%2 = 0 := by
    have hnat := congrArg UInt16.toNat heven
    simpa using hnat
  have hdensity := cfg.density_even
  have hcall : call cfg ok s (.word address value)
      = if word s.dataBuf address.toNat = value then (.zero,s)
        else storeCachedWord cfg ok address (word s.dataBuf address.toNat) value
          { s with dataBuf := storeWord s.dataBuf address.toNat value } := by
    rw [call, eepromWriteDataWord, if_neg (Nat.not_le.mpr hlt), if_neg (not_not.mpr heven)]
  by_cases hsame : word s.dataBuf address.toNat = value
  · rw [if_pos hsame] at hcall
    refine ⟨⟨fun _ x v hsets => ?_,fun hbad => ?_⟩,by rw [hcall]; exact h⟩
    · rw [hcall]
      rcases hsets with ⟨rfl, rfl⟩ | ⟨rfl, rfl⟩
      · exact hlo.resolve_right fun hne => hne.1 hsame
      · exact hhi.resolve_right fun hne => hne.1 hsame
    · rw [hcall] at hbad
      cases hbad
  rw [if_neg hsame] at hcall
  have hplaced : Placed cfg { s with dataBuf := storeWord s.dataBuf address.toNat value } := h
  obtain ⟨h₁, h₂⟩ := @storeCachedWord_keeps cfg ok _ address value s.dataBuf hplaced hlt heven'
    (word_storeWord _ _ _)
  have hvalue : storeWord s.dataBuf address.toNat value address.toNat = value.toUInt8
      ∧ storeWord s.dataBuf address.toNat value (address.toNat+1) = (value >>> 8).toUInt8 := by
    rw [storeWord_apply, storeWord_apply, if_pos rfl, if_neg (by omega), if_pos rfl]
    exact ⟨rfl,rfl⟩
  -- a byte of the word that is trusted
  have hread : ∀ x, x/2 = address.toNat/2 →
      TrustedHalf cfg ok s address value x (storeWord s.dataBuf address.toNat value x) →
      (call cfg ok s (.word address value)).1 = .complete →
        recovered cfg (call cfg ok s (.word address value)).2 x
          = storeWord s.dataBuf address.toNat value x := by
    intro x hx ht hc
    rw [hcall] at hc ⊢
    rcases ht with hread | ⟨-, hlands⟩
    · refine h₁.kept hc x (by omega) ?_
      rw [h.recovered_cache _ (by omega)]
      exact hread
    · exact h₂ hc x hx hlands
  rw [← hvalue.1] at hlo
  rw [← hvalue.2] at hhi
  refine ⟨⟨fun hsuccess x v hsets => ?_,fun hbad => ?_⟩,by rw [hcall]; exact h₁.placed⟩
  · have hc : (call cfg ok s (.word address value)).1 = .complete :=
      hsuccess.resolve_left fun hzero => by
        rw [hcall] at hzero
        rcases h₁.status with hs | hs <;> rw [hs] at hzero <;> cases hzero
    rcases hsets with ⟨rfl, rfl⟩ | ⟨rfl, rfl⟩
    · rw [hread _ rfl hlo hc, hvalue.1]
    · rw [hread _ (by omega) hhi hc, hvalue.2]
  · rw [hcall] at hbad
    rcases h₁.status with hs | hs <;> rw [hs] at hbad <;> cases hbad

theorem pair_truthful {address value : UInt16} (h : Placed cfg s)
    (hlt : address.toNat < cfg.densityBytes) (hodd : address%2 ≠ 0)
    (ht : TrustedPair cfg ok s address value) :
    Truthful cfg ok s (.word address value) ∧ Placed cfg (call cfg ok s (.word address value)).2 := by
  have hle := cfg.density_le
  have hnext : (address+1).toNat = address.toNat+1 := by
    rw [UInt16.toNat_add]
    simp only [UInt16.toNat_one]
    omega
  have hcall : call cfg ok s (.word address value)
      = (merged (eepromWriteDataByte cfg ok address value.toUInt8 s).1
          (eepromWriteDataByte cfg ok (address+1) (value >>> 8).toUInt8
            (eepromWriteDataByte cfg ok address value.toUInt8 s).2).1,
        (eepromWriteDataByte cfg ok (address+1) (value >>> 8).toUInt8
          (eepromWriteDataByte cfg ok address value.toUInt8 s).2).2) := by
    rw [call, eepromWriteDataWord, if_neg (Nat.not_le.mpr hlt), if_pos hodd]
    rfl
  have hplaced := @writeByte_placed cfg ok s address value.toUInt8 h
  refine ⟨?_,by rw [hcall]; exact writeByte_placed hplaced⟩
  simp only [TrustedPair] at ht
  by_cases hend : address.toNat+1 < cfg.densityBytes
  rotate_left
  · -- the last byte of the EEPROM is in the cache already
    rw [if_neg hend] at ht
    rw [writeByte_same hlt ht, writeByte_out (by omega)] at hcall
    refine ⟨fun hsuccess => ?_,fun _ => ?_⟩
    · rw [hcall] at hsuccess
      rcases hsuccess with hs | hs <;> cases hs
    · rw [hcall]
      exact ⟨rfl,rfl⟩
  rw [if_pos hend] at ht
  obtain ⟨ht₁, hmasked, ht₂⟩ := ht
  obtain ⟨hzero₁, hcomplete₁, hstatus₁⟩ := @writeByte_status cfg ok s address value.toUInt8 h hlt
  obtain ⟨hzero₂, -, hstatus₂⟩ := @writeByte_status cfg ok
    (eepromWriteDataByte cfg ok address value.toUInt8 s).2 (address+1) (value >>> 8).toUInt8
    hplaced (by omega)
  have hlater := @writeByte_truthful cfg ok (eepromWriteDataByte cfg ok address value.toUInt8 s).2
    (address+1) (value >>> 8).toUInt8 hplaced (by omega)
  have hfirst := @writeByte_truthful cfg ok s address value.toUInt8 h hlt ht₁
  -- the first byte leaves the second one of the cache alone
  have hcache : (eepromWriteDataByte cfg ok address value.toUInt8 s).2.dataBuf (address.toNat+1)
      = s.dataBuf (address.toNat+1) := by
    by_cases hsame : s.dataBuf address.toNat = value.toUInt8
    · rw [writeByte_same hlt hsame]
    · have hplaced' : Placed cfg
          { s with dataBuf := s.dataBuf.write address.toNat [value.toUInt8] } := h
      rw [writeByte_new hlt hsame, (storeCachedByte_stores hplaced' hlt).1.cache]
      dsimp only
      rw [write_byte_apply, if_neg (by omega)]
  rw [hnext] at hzero₂ hlater
  generalize eepromWriteDataByte cfg ok address value.toUInt8 s = r₁ at *
  generalize eepromWriteDataByte cfg ok (address+1) (value >>> 8).toUInt8 r₁.2 = r₂ at *
  constructor
  · intro hsuccess x v hsets
    rw [hcall] at hsuccess ⊢
    dsimp only at hsuccess ⊢
    -- the first byte was not refused, or the second status tells of it
    have hnot : ¬(s.dataBuf address.toNat ≠ value.toUInt8 ∧ Refused ok
        { s with dataBuf := s.dataBuf.write address.toNat [value.toUInt8] }
        (storeSize cfg { s with dataBuf := s.dataBuf.write address.toNat [value.toUInt8] }
          address.toNat)) := by
      rintro ⟨hne, hrefused⟩
      have herror : r₁.1 = .errorPg :=
        (hstatus₁.resolve_left fun hz => hne (hzero₁.mp hz)).resolve_left fun hc =>
          (hcomplete₁.mp hc).2 hrefused
      have hne₂ : r₂.1 ≠ .zero := fun hz => hmasked ⟨hne,hrefused⟩ (hcache ▸ hzero₂.mp hz)
      rcases hstatus₂ with hs | hs | hs
      · exact hne₂ hs
      · rw [herror, hs] at hsuccess
        rcases hsuccess with hs' | hs' <;> cases hs'
      · rw [herror, hs] at hsuccess
        rcases hsuccess with hs' | hs' <;> cases hs'
    have hdone₁ : r₁.1 = .zero ∨ r₁.1 = .complete := by
      by_cases hsame : s.dataBuf address.toNat = value.toUInt8
      · exact .inl (hzero₁.mpr hsame)
      · exact .inr (hcomplete₁.mpr ⟨hsame,fun hrefused => hnot ⟨hsame,hrefused⟩⟩)
    have hdone₂ : r₂.1 = .zero ∨ r₂.1 = .complete := by
      rcases hstatus₂ with hs | hs | hs
      · exact .inl hs
      · exact .inr hs
      · rw [hs] at hsuccess
        rcases hsuccess with hs' | hs' <;> cases hs'
    obtain ⟨hread₁, hcache₁, -⟩ := hfirst hdone₁
    obtain ⟨hread₂, -, hkept⟩ := hlater (ht₂ hnot) hdone₂
    rcases hsets with ⟨rfl, rfl⟩ | ⟨rfl, rfl⟩
    · exact (hkept address.toNat hlt (by omega) (hread₁.trans hcache₁.symm)).trans hcache₁
    · exact hread₂
  · intro hbad
    rw [hcall] at hbad
    rcases hstatus₁ with hs | hs | hs <;> rcases hstatus₂ with hs' | hs' | hs' <;>
      rw [hs, hs'] at hbad <;> cases hbad

theorem call_truthful (h : Placed cfg s) {w : Write} (ht : Trusted cfg ok s w) :
    Truthful cfg ok s w ∧ Placed cfg (call cfg ok s w).2 := by
  cases w with
  | byte address value => exact ⟨byte_truthful h ht,writeByte_placed h⟩
  | word address value =>
    by_cases hlt : address.toNat < cfg.densityBytes
    · have htrusted := ht hlt
      by_cases heven : address%2 = 0
      · rw [if_pos heven] at htrusted
        exact aligned_truthful h hlt heven htrusted.1 htrusted.2
      · rw [if_neg heven] at htrusted
        exact pair_truthful h hlt heven htrusted
    · have hout : call cfg ok s (.word address value) = (.badAddress,s) :=
        if_pos (Nat.not_lt.mp hlt)
      refine ⟨⟨fun hsuccess => ?_,fun _ => ?_⟩,?_⟩
      · rw [hout] at hsuccess
        rcases hsuccess with hs | hs <;> cases hs
      · rw [hout]
        exact ⟨rfl,rfl⟩
      · rw [hout]
        exact h

theorem erase_placed (cfg : Config) (s : State) : Placed cfg (eepromErase cfg s) := by
  have hlog : LogTo cfg (eepromClear cfg s).flash cfg.logBase cfg.logBase fun _ => none :=
    ⟨le_rfl,le_rfl,by rw [Config.logBase, Config.logLast]; omega,cfg.density_even,cfg.density_even,
      fun _ _ _ => rfl,fun _ => .refl _ _,fun _ hx => absurd rfl hx,
      fun hlt => absurd hlt (Nat.lt_irrefl _)⟩
  refine ⟨cfg.logBase,fun _ => none,?_⟩
  rw [eepromErase, eepromInit, hlog.replay]
  exact hlog

/-- The state behind a call. -/
def run (cfg : Config) (ok : Nat → Bool) (s : State) (w : Write) : State := (call cfg ok s w).2

/-- In a run of trusted calls every status is truthful. -/
theorem statuses_truthful (cfg : Config) (ok : Nat → Bool) {s : State} (h : Placed cfg s)
    (ws : List Write) (hw : Along (run cfg ok) (Trusted cfg ok) s ws) :
    Along (run cfg ok) (Truthful cfg ok) s ws := by
  have hstep : ∀ s w, Placed cfg s → Trusted cfg ok s w →
      Truthful cfg ok s w ∧ Placed cfg (run cfg ok s w) :=
    fun s w hplaced htrusted => call_truthful hplaced htrusted
  exact Along.imp hstep h hw

section Decidable

variable (cfg : Config) (ok : Nat → Bool) (s : State)

instance (n : Nat) : Decidable (Refused ok s n) :=
  inferInstanceAs (Decidable (∃ i < n, ok (calls s+i) = false))

instance : Decidable (InStep cfg s) := inferInstanceAs (Decidable (_ = _))

instance (x : Nat) : Decidable (Logged cfg s x) := inferInstanceAs (Decidable (_ = _))

instance (n : Nat) (entry : Prop) [Decidable entry] (x : Nat) :
    Decidable (Lands cfg ok s n entry x) := inferInstanceAs (Decidable (ite _ _ _))

instance (address : UInt16) (value : UInt8) : Decidable (TrustedByte cfg ok s address value) :=
  inferInstanceAs (Decidable (_ → _ ∨ _ ∧ _))

instance (address dataWord : UInt16) (x : Nat) (value : UInt8) :
    Decidable (TrustedHalf cfg ok s address dataWord x value) :=
  inferInstanceAs (Decidable (_ ∨ _ ∧ ite _ _ _))

instance (address dataWord : UInt16) : Decidable (TrustedPair cfg ok s address dataWord) :=
  inferInstanceAs (Decidable (ite _ (_ ∧ (_ ∧ _ → _) ∧ (¬(_ ∧ _) → _)) _))

instance Trusted.decidable : ∀ s w, Decidable (Trusted cfg ok s w)
  | s, .byte address value => inferInstanceAs (Decidable (TrustedByte cfg ok s address value))
  | _, .word _ _ => inferInstanceAs (Decidable (_ → ite _ (_ ∧ _) _))

end Decidable

/-- A flash that refuses the half-words of these numbers. -/
def refusing (ns : List Nat) (n : Nat) : Bool := !ns.contains n

/-- An EEPROM with room for six half-words in its log. -/
def smallLog : Config := ⟨256,12,by decide,by decide,by decide,by decide⟩

/-- A byte is refused and written again with another value. The entry of a word is refused, and
behind it only erased cells are written. -/
def someTrusted : List Write := [.byte 0 1,.byte 0 2,.word 128 7,.word 128 8,.word 131 0x0102]

theorem statuses_truthful_someTrusted :
    Along (run smallLog (refusing [0,3])) (Truthful smallLog (refusing [0,3]))
      (eepromErase smallLog blankState) someTrusted :=
  statuses_truthful smallLog (refusing [0,3]) (erase_placed smallLog blankState) someTrusted
    (by decide +kernel)

/-- A byte that was refused is in the cache, so that writing it again does nothing and succeeds.
The status of the second byte hides that the first was refused. An entry behind one that was
refused is not read. A word at the last address is half written. -/
theorem statuses_untruthful :
    ¬Along (run smallest (refusing [0])) (Truthful smallest (refusing [0]))
        (eepromErase smallest blankState) [.byte 0 1,.byte 0 1]
      ∧ ¬Along (run smallest (refusing [0])) (Truthful smallest (refusing [0]))
        (eepromErase smallest blankState) [.word 1 0x0001]
      ∧ ¬Along (run smallLog (refusing [1])) (Truthful smallLog (refusing [1]))
        (eepromErase smallLog blankState) [.byte 0 1,.byte 0 2,.byte 0 3]
      ∧ ¬Along (run smallest (refusing [])) (Truthful smallest (refusing []))
        (eepromErase smallest blankState) [.word 127 0xBEEF] := by
  refine ⟨fun h => ?_,fun h => ?_,fun h => ?_,fun h => ?_⟩
  · exact absurd (h.2.1.success (by decide +kernel) 0 1 ⟨rfl,rfl⟩) (by decide +kernel)
  · exact absurd (h.1.success (by decide +kernel) 1 1 (.inl ⟨rfl,rfl⟩)) (by decide +kernel)
  · exact absurd (h.2.2.1.success (by decide +kernel) 0 3 ⟨rfl,rfl⟩) (by decide +kernel)
  · have hsame := congrFun (h.1.badAddress (by decide +kernel)).1 127
    exact absurd hsame (by decide +kernel)

end QmkFirmware.EmulatedFlash.Faulty
