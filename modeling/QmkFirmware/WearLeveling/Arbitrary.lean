import QmkFirmware.WearLeveling.Protocol

/-!
Playback of arbitrary store content: which bytes it reads, what it copies and where it ends.
-/

set_option autoImplicit false

namespace QmkFirmware.WearLeveling
open LogReplay

/-- What a round copies to the cache: where to, how much, and the end of the bytes of `raw8` that it
copies or makes the value from. -/
structure Copy where
  address : Nat
  length : Nat
  sourceEnd : Nat
  deriving DecidableEq, Repr

section Copies

variable (d : Driver) (cfg : Config)

/-- The copy of `playbackMultibyte`. -/
def multibyteCopy (p : Playback) (log : WriteLogEntry) : Option Copy :=
  let r := readEntryWords d cfg (if cfg.writeSize = .two then [1] else []) p log
  if r.1.cancel then none else
  let a := logEntryMultibyteGetAddress r.2
  let l := logEntryMultibyteGetLength r.2
  if cfg.logicalSize < a+l then none else
  let q := readEntryWords d cfg (extraWords cfg l) r.1 r.2
  if q.1.cancel then none else some ⟨a,l,3+l⟩

/-- The copy of `playbackRound`. -/
def roundCopy (p : Playback) : Option Copy :=
  let r := backingStoreRead d cfg p.address p.flash
  let p := { p with flash := r.2.2 }
  if !r.1 then none else
  if r.2.1 = List.replicate cfg.writeSize.bytes 0 then none else
  let p := { p with address := p.address+cfg.writeSize.bytes }
  let log : WriteLogEntry := ByteMem.blank.write 0 r.2.1
  match LogEntryType.ofCode (logEntryGetType log), cfg.writeSize with
  | some .multibyte, _ => multibyteCopy d cfg p log
  | some .optimized64, .two =>
    let a := logEntryOptimized64GetAddress log
    if cfg.logicalSize ≤ a then none else some ⟨a,1,2⟩
  | some .word01, .two =>
    let a := logEntryWord01GetAddress log
    if cfg.logicalSize ≤ a+1 then none else some ⟨a,2,2⟩
  | _, _ => none

/-- The cache is changed by that copy alone. -/
def CopiesTo (cache cache' : ByteMem) : Option Copy → Prop
  | none => cache' = cache
  | some c => ∃ bs, bs.length = c.length ∧ cache' = cache.write c.address bs

theorem readEntryWords_cache (ks : List Nat) (p : Playback) (log : WriteLogEntry) :
    (readEntryWords d cfg ks p log).1.cache = p.cache := by
  induction ks generalizing p log with
  | nil => rfl
  | cons k ks ih =>
    have hone : (readEntryWord d cfg k p log).1.cache = p.cache := by
      simp only [readEntryWord]
      split <;> rfl
    simp only [readEntryWords]
    split
    · exact hone
    · rw [ih, hone]

theorem multibyteCopy_cache (p : Playback) (log : WriteLogEntry) :
    CopiesTo p.cache (playbackMultibyte d cfg p log).cache (multibyteCopy d cfg p log) := by
  have h₁ := readEntryWords_cache d cfg (if cfg.writeSize = .two then [1] else []) p log
  simp only [playbackMultibyte, multibyteCopy]
  generalize readEntryWords d cfg (if cfg.writeSize = .two then [1] else []) p log = r at h₁ ⊢
  have h₂ := readEntryWords_cache d cfg (extraWords cfg (logEntryMultibyteGetLength r.2)) r.1 r.2
  split_ifs
  · exact h₁
  · exact h₁
  · exact h₂.trans h₁
  · exact ⟨_,ByteMem.length_read ..,by rw [h₂, h₁]⟩

theorem roundCopy_cache (p : Playback) :
    CopiesTo p.cache (playbackRound d cfg p).cache (roundCopy d cfg p) := by
  simp only [playbackRound, roundCopy]
  split
  · rfl
  split
  · rfl
  generalize hlog : ByteMem.blank.write 0 (backingStoreRead d cfg p.address p.flash).2.1 = log
  cases LogEntryType.ofCode (logEntryGetType log) with
  | none => rfl
  | some type =>
    cases type with
    | multibyte => exact multibyteCopy_cache d cfg _ log
    | optimized64 =>
      cases cfg.writeSize with
      | two =>
        dsimp only
        split_ifs
        · rfl
        · exact ⟨_,rfl,rfl⟩
      | four => rfl
      | eight => rfl
    | word01 =>
      cases cfg.writeSize with
      | two =>
        dsimp only
        split_ifs
        · rfl
        · exact ⟨_,rfl,rfl⟩
      | four => rfl
      | eight => rfl

end Copies

structure ReadsWords (cfg : Config) (p q : Playback) (words : Nat) : Prop where
  calls : q.flash.calls = p.flash.calls ++ (List.range words).map fun i =>
    .read (p.address+i*cfg.writeSize.bytes) true
  mem : q.flash.mem = p.flash.mem

theorem ReadsWords.trans {cfg : Config} {p q r : Playback} {n k : Nat} (h : ReadsWords cfg p q n)
    (hq : q.address = p.address+n*cfg.writeSize.bytes) (h' : ReadsWords cfg q r k) :
    ReadsWords cfg p r (n+k) := by
  refine ⟨?_,h'.mem.trans h.mem⟩
  rw [h'.calls, h.calls, hq, List.range_add, List.map_append, List.map_map, List.append_assoc]
  refine congrArg _ (congrArg _ (List.map_congr_left fun i _ => ?_))
  rw [Function.comp_apply, Nat.add_mul, Nat.add_assoc]

section Readable

variable {d : Driver} {cfg : Config} (hd : Readable d)
include hd

theorem readEntryWords_reads (ks : List Nat) (p : Playback) (log : WriteLogEntry)
    (hc : p.cancel = false) :
    ReadsWords cfg p (readEntryWords d cfg ks p log).1 ks.length := by
  induction ks generalizing p log with
  | nil => exact ⟨(List.append_nil _).symm,rfl⟩
  | cons k ks ih =>
    have hone : ReadsWords cfg p { p with
        address := p.address+cfg.writeSize.bytes
        flash := { p.flash with calls := p.flash.calls ++ [.read p.address true] } } 1 :=
      ⟨by simp,rfl⟩
    have hrest := hone.trans (by rw [Nat.one_mul]) (ih _
      (log.write (k*cfg.writeSize.bytes) (p.flash.mem.read p.address cfg.writeSize.bytes)) hc)
    rw [Nat.add_comm 1 ks.length] at hrest
    simpa only [readEntryWords, readEntryWord_ok hd, hc, Bool.false_eq_true, if_false,
      List.length_cons] using hrest

theorem multibyte_cases (a : Nat) (p : Playback) (hc : p.cancel = false)
    (hp : p.address = a+cfg.writeSize.bytes) :
    let e := entryAt p.flash.mem a
    let x := logEntryMultibyteGetAddress e
    let l := logEntryMultibyteGetLength e
    let log := loaded p.flash.mem a cfg.writeSize.bytes
    let r := playbackMultibyte d cfg p log
    if cfg.logicalSize < x+l then
      ReadsWords cfg p r (headerWords cfg-1) ∧ r.cancel = true
        ∧ r.address = a+headerWords cfg*cfg.writeSize.bytes ∧ multibyteCopy d cfg p log = none
    else ReadsWords cfg p r (multibyteWords cfg l-1) ∧ r.cancel = false
      ∧ r.address = a+multibyteWords cfg l*cfg.writeSize.bytes
      ∧ multibyteCopy d cfg p log = some ⟨x,l,3+l⟩ := by
  intro e x l log r
  have hhead : (if cfg.writeSize = .two then [1] else []) = List.range' 1 (headerWords cfg-1) := by
    unfold headerWords; split <;> rfl
  have hone : 1+(headerWords cfg-1) = headerWords cfg := by unfold headerWords; split <;> omega
  have hthree : 3 ≤ headerWords cfg*cfg.writeSize.bytes := by
    unfold headerWords; cases cfg.writeSize <;> simp [WriteSize.bytes]
  obtain ⟨hex, hle⟩ := extraWords_eq cfg (l := l)
  have hrest : headerWords cfg+(multibyteWords cfg l-headerWords cfg) = multibyteWords cfg l := by
    omega
  -- the header
  obtain ⟨h₁, e₁⟩ := @readEntryWords_moved d cfg hd a (headerWords cfg-1) 1 p hc (by omega)
  have hreads₁ := @readEntryWords_reads d cfg hd (List.range' 1 (headerWords cfg-1)) p log hc
  simp only [hone, Nat.one_mul] at h₁ e₁
  simp only [r, log, playbackMultibyte, multibyteCopy, hhead]
  simp only [log] at hreads₁
  generalize hq₁ : readEntryWords d cfg (List.range' 1 (headerWords cfg-1)) p
    (loaded p.flash.mem a cfg.writeSize.bytes) = q₁ at h₁ e₁ hreads₁ ⊢
  rw [List.length_range'] at hreads₁
  have hbyte : ∀ i < 3, q₁.2 i = e i := by
    intro i hi
    rw [e₁, loaded_apply (by omega)]
    rfl
  have hlen : logEntryMultibyteGetLength q₁.2 = l := multibyteGetLength_congr (hbyte 0 (by omega))
  have hadr : logEntryMultibyteGetAddress q₁.2 = x := multibyteGetAddress_congr hbyte
  have hc₁ := h₁.cancel.trans hc
  rw [hlen, hadr]
  by_cases hfit : cfg.logicalSize < x+l
  · simp only [hc₁, Bool.false_eq_true, if_false, if_pos hfit]
    exact ⟨⟨hreads₁.calls,hreads₁.mem⟩,trivial,h₁.address,trivial⟩
  -- the rest of the value
  · obtain ⟨h₂, e₂⟩ := @readEntryWords_moved d cfg hd a (multibyteWords cfg l-headerWords cfg)
      (headerWords cfg) q₁.1 hc₁ h₁.address
    have hreads₂ := @readEntryWords_reads d cfg hd (List.range' (headerWords cfg)
      (multibyteWords cfg l-headerWords cfg)) q₁.1 q₁.2 hc₁
    simp only [hrest, h₁.mem, ← e₁] at h₂ e₂
    rw [List.length_range'] at hreads₂
    rw [hex]
    generalize hq₂ : readEntryWords d cfg (List.range' (headerWords cfg)
      (multibyteWords cfg l-headerWords cfg)) q₁.1 q₁.2 = q₂ at h₂ e₂ hreads₂ ⊢
    have hc₂ := h₂.cancel.trans hc₁
    have haddr : q₁.1.address = p.address+(headerWords cfg-1)*cfg.writeSize.bytes := by
      rw [h₁.address, hp, Nat.add_assoc, ← hone, Nat.add_mul, Nat.one_mul, hone]
    have hboth := hreads₁.trans haddr hreads₂
    simp only [hc₁, hc₂, Bool.false_eq_true, if_false, if_neg hfit]
    refine ⟨⟨?_,hboth.mem⟩,trivial,h₂.address,trivial⟩
    rw [hboth.calls, show headerWords cfg-1+(multibyteWords cfg l-headerWords cfg)
      = multibyteWords cfg l-1 by omega]

structure OneWord (cfg : Config) (p q : Playback) (copy : Option Copy) : Prop where
  reads : ReadsWords cfg p q 1
  address : q.address = p.address+cfg.writeSize.bytes
  gives : copy = none ∧ q.cancel = true ∨ ∃ c, copy = some c ∧ q.cancel = false
    ∧ c.sourceEnd = 2 ∧ c.address+c.length ≤ cfg.logicalSize
    ∧ nextEntry cfg p.flash.mem p.address p.cache = some (q.address,q.cache)

theorem playbackRound_other {p : Playback} (hc : p.cancel = false) (hp : p.address < cfg.backingSize)
    (hne : p.flash.mem.read p.address cfg.writeSize.bytes
      ≠ List.replicate cfg.writeSize.bytes 0)
    (hty : LogEntryType.ofCode (logEntryGetType (entryAt p.flash.mem p.address))
      ≠ some .multibyte) :
    OneWord cfg p (playbackRound d cfg p) (roundCopy d cfg p) := by
  have hw := cfg.writeSize.bytes_ge
  have hbyte : ∀ i < 2, loaded p.flash.mem p.address cfg.writeSize.bytes i
      = entryAt p.flash.mem p.address i := fun i hi => loaded_apply (by omega)
  have h₀ := hbyte 0 (by omega)
  have h₁ := hbyte 1 (by omega)
  have hlog : ByteMem.blank.write 0 (p.flash.mem.read p.address cfg.writeSize.bytes)
      = loaded p.flash.mem p.address cfg.writeSize.bytes := rfl
  have hlt : ¬ (cfg.backingSize ≤ p.address ∨ p.flash.mem.read p.address cfg.writeSize.bytes
      = List.replicate cfg.writeSize.bytes 0) := not_or.mpr ⟨Nat.not_le.mpr hp,hne⟩
  simp only [playbackRound, roundCopy, backingStoreRead_ok hd, Bool.not_true, Bool.false_eq_true,
    if_false, if_neg hne, hlog, getType_congr h₀]
  cases hcode : LogEntryType.ofCode (logEntryGetType (entryAt p.flash.mem p.address)) with
  | none => exact ⟨⟨by simp,rfl⟩,rfl,.inl ⟨rfl,rfl⟩⟩
  | some type =>
    cases type with
    | multibyte => exact absurd hcode hty
    | optimized64 =>
      cases hws : cfg.writeSize with
      | two =>
        simp only [hws] at h₀ h₁ hlt
        simp only [optimized64GetAddress_congr h₀]
        split_ifs with hx
        · exact ⟨⟨by simp [hws],rfl⟩,by simp [hws],.inl ⟨rfl,rfl⟩⟩
        · refine ⟨⟨by simp [hws],rfl⟩,by simp [hws],.inr ⟨_,rfl,hc,rfl,Nat.not_le.mp hx,?_⟩⟩
          simp only [nextEntry, hws, if_neg hlt, hcode, if_neg hx]
          rw [logEntryOptimized64GetValue, logEntryOptimized64GetValue, h₁]
          rfl
      | four => exact ⟨⟨by simp [hws],rfl⟩,by simp [hws],.inl ⟨rfl,rfl⟩⟩
      | eight => exact ⟨⟨by simp [hws],rfl⟩,by simp [hws],.inl ⟨rfl,rfl⟩⟩
    | word01 =>
      cases hws : cfg.writeSize with
      | two =>
        simp only [hws] at h₀ h₁ hlt
        simp only [word01GetAddress_congr h₀ h₁]
        split_ifs with hx
        · exact ⟨⟨by simp [hws],rfl⟩,by simp [hws],.inl ⟨rfl,rfl⟩⟩
        · refine ⟨⟨by simp [hws],rfl⟩,by simp [hws],.inr ⟨_,rfl,hc,rfl,Nat.not_le.mp hx,?_⟩⟩
          simp only [nextEntry, hws, if_neg hlt, hcode, if_neg hx]
          rw [word01GetValue_congr h₀]
          rfl
      | four => exact ⟨⟨by simp [hws],rfl⟩,by simp [hws],.inl ⟨rfl,rfl⟩⟩
      | eight => exact ⟨⟨by simp [hws],rfl⟩,by simp [hws],.inl ⟨rfl,rfl⟩⟩

theorem playbackRound_multibyte {p : Playback} (hc : p.cancel = false)
    (hne : p.flash.mem.read p.address cfg.writeSize.bytes
      ≠ List.replicate cfg.writeSize.bytes 0)
    (hty : LogEntryType.ofCode (logEntryGetType (entryAt p.flash.mem p.address))
      = some .multibyte) :
    let e := entryAt p.flash.mem p.address
    let x := logEntryMultibyteGetAddress e
    let l := logEntryMultibyteGetLength e
    let r := playbackRound d cfg p
    if cfg.logicalSize < x+l then
      ReadsWords cfg p r (headerWords cfg) ∧ r.cancel = true
        ∧ r.address = p.address+headerWords cfg*cfg.writeSize.bytes ∧ roundCopy d cfg p = none
    else ReadsWords cfg p r (multibyteWords cfg l) ∧ r.cancel = false
      ∧ r.address = p.address+multibyteWords cfg l*cfg.writeSize.bytes
      ∧ roundCopy d cfg p = some ⟨x,l,3+l⟩ := by
  intro e x l r
  have hw := cfg.writeSize.bytes_ge
  obtain ⟨-, hle⟩ := extraWords_eq cfg (l := l)
  have hpos : 0 < headerWords cfg := by unfold headerWords; split <;> omega
  have h₀ : loaded p.flash.mem p.address cfg.writeSize.bytes 0 = e 0 := loaded_apply (by omega)
  have hone : ReadsWords cfg p { p with
      address := p.address+cfg.writeSize.bytes
      flash := { p.flash with calls := p.flash.calls ++ [.read p.address true] } } 1 :=
    ⟨by simp,rfl⟩
  have hcode : LogEntryType.ofCode (logEntryGetType
      (loaded p.flash.mem p.address cfg.writeSize.bytes)) = some .multibyte := by
    rw [getType_congr h₀]
    exact hty
  have hround : r = playbackMultibyte d cfg { p with
      address := p.address+cfg.writeSize.bytes
      flash := { p.flash with calls := p.flash.calls ++ [.read p.address true] } }
      (loaded p.flash.mem p.address cfg.writeSize.bytes) := by
    simp only [loaded] at hcode ⊢
    simp only [r, playbackRound, backingStoreRead_ok hd, Bool.not_true, Bool.false_eq_true,
      if_false, if_neg hne, hcode]
  have hcopy : roundCopy d cfg p = multibyteCopy d cfg { p with
      address := p.address+cfg.writeSize.bytes
      flash := { p.flash with calls := p.flash.calls ++ [.read p.address true] } }
      (loaded p.flash.mem p.address cfg.writeSize.bytes) := by
    simp only [loaded] at hcode ⊢
    simp only [roundCopy, backingStoreRead_ok hd, Bool.not_true, Bool.false_eq_true, if_false,
      if_neg hne, hcode]
  have hcases := multibyte_cases hd p.address { p with
    address := p.address+cfg.writeSize.bytes
    flash := { p.flash with calls := p.flash.calls ++ [.read p.address true] } } hc rfl
  rw [hround, hcopy]
  dsimp only at hcases
  by_cases hfit : cfg.logicalSize < x+l
  · rw [if_pos hfit] at hcases ⊢
    obtain ⟨h₁, h₂, h₃, h₄⟩ := hcases
    have hall := hone.trans (by rw [Nat.one_mul]) h₁
    rw [Nat.add_sub_cancel' hpos] at hall
    exact ⟨hall,h₂,h₃,h₄⟩
  · rw [if_neg hfit] at hcases ⊢
    obtain ⟨h₁, h₂, h₃, h₄⟩ := hcases
    have hall := hone.trans (by rw [Nat.one_mul]) h₁
    rw [Nat.add_sub_cancel' (Nat.lt_of_lt_of_le hpos hle)] at hall
    exact ⟨hall,h₂,h₃,h₄⟩

end Readable

def newReads (d : Driver) (cfg : Config) (p : Playback) : List BackingCall :=
  (playbackRound d cfg p).flash.calls.drop p.flash.calls.length

def InsideStore (cfg : Config) : BackingCall → Prop
  | .read a _ => a+cfg.writeSize.bytes ≤ cfg.backingSize
  | _ => False

instance (cfg : Config) : (c : BackingCall) → Decidable (InsideStore cfg c)
  | .read a _ => inferInstanceAs (Decidable (a+cfg.writeSize.bytes ≤ cfg.backingSize))
  | .init _ | .unlock _ | .lock _ | .erase _ | .write _ _ _ => inferInstanceAs (Decidable False)

/-- A copy takes bytes of the eight-byte entry, those of the words read, to the cache. -/
structure Copy.Safe (cfg : Config) (words : Nat) (c : Copy) : Prop where
  source : c.sourceEnd ≤ 8
  read : c.sourceEnd ≤ words*cfg.writeSize.bytes
  target : c.address+c.length ≤ cfg.logicalSize

instance (cfg : Config) (words : Nat) (c : Copy) : Decidable (c.Safe cfg words) :=
  decidable_of_iff (c.sourceEnd ≤ 8 ∧ c.sourceEnd ≤ words*cfg.writeSize.bytes
      ∧ c.address+c.length ≤ cfg.logicalSize)
    ⟨fun h => ⟨h.1,h.2.1,h.2.2⟩,fun h => ⟨h.source,h.read,h.target⟩⟩

structure SafeRound (d : Driver) (cfg : Config) (p : Playback) : Prop where
  reads : ∀ c ∈ newReads d cfg p, InsideStore cfg c
  copy : ∀ c ∈ roundCopy d cfg p, c.Safe cfg (newReads d cfg p).length

/-- Where `playbackLoop` makes its rounds. -/
def visited (d : Driver) (cfg : Config) : Nat → Playback → List Playback
  | 0, _ => []
  | fuel+1, p =>
    if p.cancel || cfg.backingSize ≤ p.address then [] else
    p :: visited d cfg fuel (playbackRound d cfg p)

/-- The playback of `wearLevelingPlaybackLog` from this state. -/
def playbackStart (cfg : Config) (s : State) : Playback :=
  ⟨false, .success, cfg.logStart, s.cache, s.flash⟩

/-- The loop ends by its own condition, each of its rounds is safe, and the write address that
playback leaves is that of a word of the store or its end. -/
structure PlaybackSafe (d : Driver) (cfg : Config) (s : State) : Prop where
  ends : (playbackLoop d cfg cfg.backingSize (playbackStart cfg s)).cancel = true
    ∨ cfg.backingSize ≤ (playbackLoop d cfg cfg.backingSize (playbackStart cfg s)).address
  rounds : ∀ p ∈ visited d cfg cfg.backingSize (playbackStart cfg s), SafeRound d cfg p
  inside : (wearLevelingPlaybackLog d cfg s).2.writeAddress ≤ cfg.backingSize
  aligned : (wearLevelingPlaybackLog d cfg s).2.writeAddress % cfg.writeSize.bytes = 0

/-- A multi-byte entry has its header in the store. One that the cache has room for holds at most
five bytes and is in the store as a whole. -/
def EntryOk (cfg : Config) (m : ByteMem) (a : Nat) : Prop :=
  let e := entryAt m a
  let l := logEntryMultibyteGetLength e
  m.read a cfg.writeSize.bytes ≠ List.replicate cfg.writeSize.bytes 0 →
    LogEntryType.ofCode (logEntryGetType e) = some .multibyte →
      a+headerWords cfg*cfg.writeSize.bytes ≤ cfg.backingSize
        ∧ (logEntryMultibyteGetAddress e+l ≤ cfg.logicalSize → l ≤ logEntryMultibyteMaxBytes
          ∧ a+multibyteWords cfg l*cfg.writeSize.bytes ≤ cfg.backingSize)

/-- The entries of the log, one after the other until playback leaves it. -/
def EntriesOk (cfg : Config) (m : ByteMem) (a : Nat) (c : ByteMem) : Prop :=
  ∀ b c', Plays (nextEntry cfg) m a c b c' → b < cfg.backingSize → EntryOk cfg m b

section Rounds

variable {d : Driver} {cfg : Config} (hd : Readable d) {p : Playback}

theorem newReads_eq {n : Nat} (h : ReadsWords cfg p (playbackRound d cfg p) n) :
    newReads d cfg p = (List.range n).map fun i => .read (p.address+i*cfg.writeSize.bytes) true := by
  rw [newReads, h.calls, List.drop_left]

theorem reads_inside {n : Nat} (hn : 0 < n) (h : ReadsWords cfg p (playbackRound d cfg p) n) :
    (∀ c ∈ newReads d cfg p, InsideStore cfg c)
      ↔ p.address+n*cfg.writeSize.bytes ≤ cfg.backingSize := by
  rw [newReads_eq h]
  simp only [List.forall_mem_map, List.mem_range, InsideStore]
  constructor
  · intro hall
    have hlast := hall (n-1) (by omega)
    rwa [Nat.add_assoc, ← Nat.succ_mul, Nat.succ_eq_add_one, Nat.sub_add_cancel hn] at hlast
  · intro hle i hi
    have hword : (i+1)*cfg.writeSize.bytes ≤ n*cfg.writeSize.bytes := Nat.mul_le_mul_right _ hi
    rw [Nat.succ_mul] at hword
    omega

include hd

theorem playbackRound_blank_reads (hz : p.flash.mem.read p.address cfg.writeSize.bytes
    = List.replicate cfg.writeSize.bytes 0) :
    ReadsWords cfg p (playbackRound d cfg p) 1 ∧ roundCopy d cfg p = none := by
  rw [playbackRound_blank hd hz]
  refine ⟨⟨by simp,rfl⟩,?_⟩
  simp [roundCopy, backingStoreRead_ok hd, hz]

theorem safeRound_iff (hc : p.cancel = false) (hp : p.address < cfg.backingSize)
    (ha : p.address % cfg.writeSize.bytes = 0) :
    SafeRound d cfg p ↔ EntryOk cfg p.flash.mem p.address := by
  have hw := cfg.writeSize.bytes_ge
  have hroom := word_room ha hp
  have hone : p.address+1*cfg.writeSize.bytes ≤ cfg.backingSize := by rwa [Nat.one_mul]
  by_cases hz : p.flash.mem.read p.address cfg.writeSize.bytes
      = List.replicate cfg.writeSize.bytes 0
  · obtain ⟨hreads, hcopy⟩ := playbackRound_blank_reads hd hz
    refine iff_of_true ⟨(reads_inside Nat.one_pos hreads).mpr hone,?_⟩ fun hne => absurd hz hne
    rw [hcopy]
    intro c h
    cases h
  by_cases hty : LogEntryType.ofCode (logEntryGetType (entryAt p.flash.mem p.address))
      = some .multibyte
  rotate_left
  · obtain ⟨hreads, -, hgives⟩ := playbackRound_other hd hc hp hz hty
    refine iff_of_true ⟨(reads_inside Nat.one_pos hreads).mpr hone,?_⟩
      fun _ hmulti => absurd hmulti hty
    rcases hgives with ⟨hcopy, -⟩ | ⟨c, hcopy, -, hsrc, hfit, -⟩
    · rw [hcopy]
      intro c h
      cases h
    · rw [hcopy]
      intro c' h
      cases h
      rw [newReads_eq hreads]
      simp only [List.length_map, List.length_range]
      exact ⟨by omega,by omega,hfit⟩
  have hcases := playbackRound_multibyte hd hc hz hty
  dsimp only at hcases
  simp only [EntryOk]
  generalize logEntryMultibyteGetAddress (entryAt p.flash.mem p.address) = x at hcases ⊢
  generalize logEntryMultibyteGetLength (entryAt p.flash.mem p.address) = l at hcases ⊢
  obtain ⟨-, hle⟩ := extraWords_eq cfg (l := l)
  have hpos : 0 < headerWords cfg := by unfold headerWords; split <;> omega
  by_cases hfit : cfg.logicalSize < x+l
  · rw [if_pos hfit] at hcases
    obtain ⟨hreads, -, -, hcopy⟩ := hcases
    constructor
    · intro hsafe _ _
      exact ⟨(reads_inside hpos hreads).mp hsafe.reads,fun h => absurd hfit (Nat.not_lt.mpr h)⟩
    · intro hok
      refine ⟨(reads_inside hpos hreads).mpr (hok hz hty).1,?_⟩
      rw [hcopy]
      intro c h
      cases h
  · rw [if_neg hfit] at hcases
    obtain ⟨hreads, -, -, hcopy⟩ := hcases
    have hhead : headerWords cfg*cfg.writeSize.bytes ≤ multibyteWords cfg l*cfg.writeSize.bytes :=
      Nat.mul_le_mul_right _ hle
    have hin := reads_inside (Nat.lt_of_lt_of_le hpos hle) hreads
    constructor
    · intro hsafe _ _
      have hend := hin.mp hsafe.reads
      have hsrc := (hsafe.copy _ (by rw [hcopy]; rfl)).source
      dsimp only at hsrc
      exact ⟨by omega,fun _ => ⟨by simp only [logEntryMultibyteMaxBytes]; omega,hend⟩⟩
    · intro hok
      obtain ⟨hlen, hend⟩ := (hok hz hty).2 (Nat.not_lt.mp hfit)
      refine ⟨hin.mpr hend,?_⟩
      rw [hcopy]
      intro c h
      cases h
      rw [newReads_eq hreads]
      simp only [List.length_map, List.length_range]
      simp only [logEntryMultibyteMaxBytes] at hlen
      exact ⟨by dsimp only; omega,(multibyteWords_cover cfg hlen).1,Nat.not_lt.mp hfit⟩

theorem playbackRound_leaves (hc : p.cancel = false) (hp : p.address < cfg.backingSize)
    (ha : p.address % cfg.writeSize.bytes = 0) (hok : EntryOk cfg p.flash.mem p.address) :
    let r := playbackRound d cfg p
    r.address ≤ cfg.backingSize ∧ r.address % cfg.writeSize.bytes = 0
      ∧ (r.cancel = true ∨ r.cancel = false ∧ r.flash.mem = p.flash.mem
        ∧ nextEntry cfg p.flash.mem p.address p.cache = some (r.address,r.cache)) := by
  intro r
  have hw := cfg.writeSize.bytes_ge
  have hroom := word_room ha hp
  -- what is left to see is that a step of the reader is one of the loop
  have hstep : ∀ b c, nextEntry cfg p.flash.mem p.address p.cache = some (b,c) →
      b ≤ cfg.backingSize → r.address ≤ cfg.backingSize ∧ r.address % cfg.writeSize.bytes = 0
        ∧ (r.cancel = true ∨ r.cancel = false ∧ r.flash.mem = p.flash.mem
          ∧ nextEntry cfg p.flash.mem p.address p.cache = some (r.address,r.cache)) := by
    intro b c hnext hb
    have hmov : p.Moved r b c := playbackRound_next hd hc hnext
    rw [hmov.address, hmov.cache]
    exact ⟨hb,plays_mod (.one hnext) ha,.inr ⟨hmov.cancel.trans hc,hmov.mem,hnext⟩⟩
  by_cases hz : p.flash.mem.read p.address cfg.writeSize.bytes
      = List.replicate cfg.writeSize.bytes 0
  · simp only [r, playbackRound_blank hd hz]
    exact ⟨by omega,ha,.inl trivial⟩
  by_cases hty : LogEntryType.ofCode (logEntryGetType (entryAt p.flash.mem p.address))
      = some .multibyte
  rotate_left
  · obtain ⟨-, haddr, ⟨-, hcancel⟩ | ⟨c, -, -, -, -, hnext⟩⟩ := playbackRound_other hd hc hp hz hty
    · rw [show r.address = _ from haddr, Nat.add_mod_right]
      exact ⟨hroom,ha,.inl hcancel⟩
    · exact hstep _ _ hnext (haddr ▸ hroom)
  obtain ⟨hhead, hfits⟩ := hok hz hty
  by_cases hfit : cfg.logicalSize < logEntryMultibyteGetAddress (entryAt p.flash.mem p.address)
      +logEntryMultibyteGetLength (entryAt p.flash.mem p.address)
  · have hcases := playbackRound_multibyte hd hc hz hty
    dsimp only at hcases
    rw [if_pos hfit] at hcases
    obtain ⟨-, hcancel, haddr, -⟩ := hcases
    rw [show r.address = _ from haddr, Nat.add_mul_mod_self_right]
    exact ⟨hhead,ha,.inl hcancel⟩
  · obtain ⟨hlen, hend⟩ := hfits (Nat.not_lt.mp hfit)
    have hgive : ¬ (logEntryMultibyteMaxBytes
        < logEntryMultibyteGetLength (entryAt p.flash.mem p.address)
        ∨ cfg.logicalSize < logEntryMultibyteGetAddress (entryAt p.flash.mem p.address)
          +logEntryMultibyteGetLength (entryAt p.flash.mem p.address)) :=
      not_or.mpr ⟨Nat.not_lt.mpr hlen,hfit⟩
    refine hstep _ (p.cache.write (logEntryMultibyteGetAddress (entryAt p.flash.mem p.address))
      (p.flash.mem.read (p.address+3)
        (logEntryMultibyteGetLength (entryAt p.flash.mem p.address)))) ?_ hend
    simp only [nextEntry, if_neg (not_or.mpr ⟨Nat.not_le.mpr hp,hz⟩), hty, if_neg hgive]

theorem playbackLoop_safe (fuel : Nat) (hc : p.cancel = false)
    (hp : p.address ≤ cfg.backingSize) (ha : p.address % cfg.writeSize.bytes = 0)
    (hok : EntriesOk cfg p.flash.mem p.address p.cache) :
    (∀ q ∈ visited d cfg fuel p, SafeRound d cfg q)
      ∧ (playbackLoop d cfg fuel p).address ≤ cfg.backingSize
      ∧ (playbackLoop d cfg fuel p).address % cfg.writeSize.bytes = 0 := by
  induction fuel generalizing p with
  | zero => exact ⟨List.forall_mem_nil _,hp,ha⟩
  | succ fuel ih =>
    simp only [visited, playbackLoop, hc, Bool.false_or, decide_eq_true_eq]
    by_cases hlt : cfg.backingSize ≤ p.address
    · rw [if_pos hlt, if_pos hlt]
      exact ⟨List.forall_mem_nil _,hp,ha⟩
    rw [if_neg hlt, if_neg hlt]
    have hentry := hok _ _ (.refl _ _) (Nat.not_le.mp hlt)
    have hsafe := (safeRound_iff hd hc (Nat.not_le.mp hlt) ha).mpr hentry
    obtain ⟨h₁, h₂, hcancel | ⟨hgo, hmem, hnext⟩⟩ :=
      playbackRound_leaves hd hc (Nat.not_le.mp hlt) ha hentry
    · have hstop : visited d cfg fuel (playbackRound d cfg p) = []
          ∧ playbackLoop d cfg fuel (playbackRound d cfg p) = playbackRound d cfg p := by
        cases fuel <;> simp [visited, playbackLoop, hcancel]
      rw [hstop.1, hstop.2]
      exact ⟨by simpa using hsafe,h₁,h₂⟩
    · obtain ⟨h₃, h₄⟩ := ih hgo h₁ h₂ (fun b c hb => hmem ▸ hok b c (.step hnext (hmem ▸ hb)))
      exact ⟨List.forall_mem_cons.mpr ⟨hsafe,h₃⟩,h₄⟩

theorem visited_reaches {b : Nat} {c : ByteMem} (hc : p.cancel = false)
    (h : Plays (nextEntry cfg) p.flash.mem p.address p.cache b c) (hb : b < cfg.backingSize)
    (fuel : Nat) (hf : b-p.address < fuel) :
    ∃ q ∈ visited d cfg fuel p, q.cancel = false ∧ q.address = b ∧ q.flash.mem = p.flash.mem := by
  generalize hm : p.flash.mem = m at h ⊢
  generalize ha : p.address = a at h hf
  generalize hs : p.cache = s at h
  induction h generalizing p fuel with
  | refl a s =>
    obtain ⟨fuel, rfl⟩ : ∃ k, fuel = k+1 := ⟨fuel-1, by omega⟩
    have hlt : ¬ cfg.backingSize ≤ p.address := by omega
    exact ⟨p,by simp [visited, hc, hlt],hc,ha,hm⟩
  | step e k ih =>
    have hfwd := (nextEntry_local cfg).forward e
    have hle := k.le (nextEntry_local cfg)
    obtain ⟨fuel, rfl⟩ : ∃ k, fuel = k+1 := ⟨fuel-1, by omega⟩
    have hmov : p.Moved (playbackRound d cfg p) _ _ :=
      playbackRound_next hd hc (by rw [hm, ha, hs]; exact e)
    have hlt : ¬ cfg.backingSize ≤ p.address := by omega
    obtain ⟨q, hq, hq'⟩ := ih (hmov.cancel.trans hc) hb fuel (hmov.mem.trans hm) hmov.address
      (by omega) hmov.cache
    exact ⟨q,by simp [visited, hc, hlt, hq],hq'⟩

end Rounds

theorem consolidateForce_address (d : Driver) (cfg : Config) (s : State) :
    (wearLevelingConsolidateForce d cfg s).2.writeAddress = s.writeAddress
      ∨ (wearLevelingConsolidateForce d cfg s).2.writeAddress = cfg.logStart := by
  simp only [wearLevelingConsolidateForce]
  split
  · exact .inl rfl
  · exact .inr rfl

theorem playbackLog_address (d : Driver) (cfg : Config) (s : State) :
    (wearLevelingPlaybackLog d cfg s).2.writeAddress
        = (playbackLoop d cfg cfg.backingSize (playbackStart cfg s)).address
      ∨ (wearLevelingPlaybackLog d cfg s).2.writeAddress = cfg.logStart := by
  simp only [wearLevelingPlaybackLog, playbackStart, wearLevelingConsolidateIfNeeded]
  split_ifs
  · exact consolidateForce_address d cfg _
  · exact consolidateForce_address d cfg _
  · exact .inl rfl

/-- The state in which `wearLevelingInit` plays the log back. -/
def initPlayback (d : Driver) (cfg : Config) (s : State) : State :=
  (wearLevelingReadConsolidated d cfg
    { wearLevelingClearCache cfg s with flash := (backingStoreInit d s.flash).2 }).2

theorem EntriesOk.playbackSafe {d : Driver} (hd : Readable d) {cfg : Config} {s : State}
    (h : EntriesOk cfg s.flash.mem cfg.logStart s.cache) : PlaybackSafe d cfg s := by
  have hstart : cfg.logStart < cfg.backingSize := cfg.room
  obtain ⟨h₁, h₂, h₃⟩ := playbackLoop_safe hd (p := playbackStart cfg s) cfg.backingSize rfl
    (Nat.le_of_lt hstart) (logStart_mod cfg) h
  refine ⟨playbackLoop_done d cfg _ _ (Nat.le_add_left _ _),h₁,?_,?_⟩
  · rcases playbackLog_address d cfg s with h | h
    · rw [h]
      exact h₂
    · rw [h]
      exact Nat.le_of_lt hstart
  · rcases playbackLog_address d cfg s with h | h
    · rw [h]
      exact h₃
    · rw [h]
      exact logStart_mod cfg

/-- Playback of whatever the store holds is safe exactly if each multi-byte entry it comes to is
well formed: a length of six or seven is copied from behind the entry, and an entry cut off by the
end of the store is read from behind it. A round changes the cache by its copy alone. -/
theorem playback_safe_iff {d : Driver} (hd : Readable d) (cfg : Config) (s : State) :
    (PlaybackSafe d cfg s ↔ EntriesOk cfg s.flash.mem cfg.logStart s.cache)
    ∧ ∀ p, CopiesTo p.cache (playbackRound d cfg p).cache (roundCopy d cfg p) := by
  have hstart : cfg.logStart < cfg.backingSize := cfg.room
  refine ⟨⟨fun hsafe b c hplays hb => ?_,fun hok => hok.playbackSafe hd⟩,roundCopy_cache d cfg⟩
  have hbm := plays_mod hplays (logStart_mod cfg)
  have hfuel : b-(playbackStart cfg s).address < cfg.backingSize := by omega
  obtain ⟨q, hq, hqc, rfl, hmem⟩ := visited_reaches hd (p := playbackStart cfg s) rfl hplays hb
    cfg.backingSize hfuel
  have hok := (safeRound_iff hd hqc hb hbm).mp (hsafe.rounds q hq)
  rw [hmem] at hok
  exact hok

/-- A log of one entry: the byte 0x14 at address four. -/
def oneByte : ByteMem := ByteMem.blank.write 24 [0x08,0,4,0x14]

theorem playback_safe_oneByte : PlaybackSafe .faultFree smallConfig (.reset ⟨oneByte,[]⟩) := by
  have hfirst : nextEntry smallConfig oneByte 24 ByteMem.blank
      = some (28,ByteMem.blank.write 4 [0x14]) := rfl
  have hlast : nextEntry smallConfig oneByte 28 (ByteMem.blank.write 4 [0x14]) = none := rfl
  have hok : EntryOk smallConfig oneByte 24 ∧ EntryOk smallConfig oneByte 28 := by
    unfold EntryOk
    decide +kernel
  refine (playback_safe_iff (fun _ => rfl) smallConfig _).1.mpr fun b c hplays _ => ?_
  cases hplays with
  | refl => exact hok.1
  | step e k =>
    cases hfirst.symm.trans e
    cases k with
    | refl => exact hok.2
    | step e k => cases hlast.symm.trans e

/-- A log whose one entry gives its length as six, and one whose last word is the first of an
entry that would go on behind the end of the store. -/
def overlong : ByteMem := ByteMem.blank.write 24 [0x30,0,0,1]

def cutOff : ByteMem :=
  ByteMem.blank.write 24 ((List.replicate 11 [(0x40 : UInt8),1]).flatten ++ [0x08,0])

/-- The first has the copy take its last byte from behind the entry, the second reads behind the
end of the store. -/
theorem playback_unsafe :
    ¬ PlaybackSafe .faultFree smallConfig
        (initPlayback .faultFree smallConfig (.reset ⟨overlong,[]⟩))
      ∧ ¬ PlaybackSafe .faultFree smallConfig
        (initPlayback .faultFree smallConfig (.reset ⟨cutOff,[]⟩)) := by
  have hcopy : ∃ p ∈ visited .faultFree smallConfig 48 (playbackStart smallConfig
      (initPlayback .faultFree smallConfig (.reset ⟨overlong,[]⟩))),
      roundCopy .faultFree smallConfig p = some ⟨0,6,9⟩ := by decide +kernel
  have hread : ∃ p ∈ visited .faultFree smallConfig 48 (playbackStart smallConfig
      (initPlayback .faultFree smallConfig (.reset ⟨cutOff,[]⟩))),
      ∃ c ∈ newReads .faultFree smallConfig p, ¬ InsideStore smallConfig c := by decide +kernel
  constructor
  · intro hsafe
    obtain ⟨p, hp, hc⟩ := hcopy
    exact absurd ((hsafe.rounds p hp).copy _ hc).source (by decide)
  · intro hsafe
    obtain ⟨p, hp, c, hc, hout⟩ := hread
    exact hout ((hsafe.rounds p hp).reads c hc)

end QmkFirmware.WearLeveling
