import QmkFirmware.Lib.LogReplay
import QmkFirmware.WearLeveling.Core

/-!
The playback loop as a reader of log entries: with a store that can be read, its rounds
are the steps of `nextEntry`, and it stops at the first blank word.
-/

set_option autoImplicit false

namespace QmkFirmware.WearLeveling
open LogReplay

def entryAt (m : ByteMem) (a : Nat) : WriteLogEntry := fun x => m (a+x)

/-- The entry the playback loop consumes at an address. An entry that makes playback give
up has no step here. -/
def nextEntry (cfg : Config) : Reader ByteMem := fun m a c =>
  let e := entryAt m a
  let ws := cfg.writeSize.bytes
  if cfg.backingSize ≤ a ∨ m.read a ws = List.replicate ws 0 then none else
  match LogEntryType.ofCode (logEntryGetType e), cfg.writeSize with
  | some .multibyte, _ =>
    let x := logEntryMultibyteGetAddress e
    let l := logEntryMultibyteGetLength e
    if logEntryMultibyteMaxBytes < l ∨ cfg.logicalSize < x+l then none else
    some (a+multibyteWords cfg l*ws, c.write x (m.read (a+3) l))
  | some .optimized64, .two =>
    let x := logEntryOptimized64GetAddress e
    if cfg.logicalSize ≤ x then none else some (a+2, c.write x [logEntryOptimized64GetValue e])
  | some .word01, .two =>
    let x := logEntryWord01GetAddress e
    if cfg.logicalSize ≤ x+1 then none else some (a+2, c.write x [logEntryWord01GetValue e, 0])
  | _, _ => none

theorem nextEntry_cases {cfg : Config} {m : ByteMem} {a b : Nat} {c c' : ByteMem}
    (h : nextEntry cfg m a c = some (b,c')) :
    m.read a cfg.writeSize.bytes ≠ List.replicate cfg.writeSize.bytes 0 ∧
      let e := entryAt m a
      let l := logEntryMultibyteGetLength e
      (LogEntryType.ofCode (logEntryGetType e) = some .multibyte
          ∧ l ≤ logEntryMultibyteMaxBytes
          ∧ logEntryMultibyteGetAddress e+l ≤ cfg.logicalSize
          ∧ b = a+multibyteWords cfg l*cfg.writeSize.bytes
          ∧ c' = c.write (logEntryMultibyteGetAddress e) (m.read (a+3) l))
        ∨ (LogEntryType.ofCode (logEntryGetType e) = some .optimized64 ∧ cfg.writeSize = .two
          ∧ logEntryOptimized64GetAddress e < cfg.logicalSize ∧ b = a+2
          ∧ c' = c.write (logEntryOptimized64GetAddress e) [logEntryOptimized64GetValue e])
        ∨ (LogEntryType.ofCode (logEntryGetType e) = some .word01 ∧ cfg.writeSize = .two
          ∧ logEntryWord01GetAddress e+1 < cfg.logicalSize ∧ b = a+2
          ∧ c' = c.write (logEntryWord01GetAddress e) [logEntryWord01GetValue e, 0]) := by
  simp only [nextEntry] at h
  split at h
  · cases h
  · rename_i hne
    refine ⟨fun hblank => hne (.inr hblank),?_⟩
    split at h
    · rename_i hty
      split at h
      · cases h
      · rename_i hl
        cases h
        exact .inl ⟨hty,by omega,by omega,rfl,rfl⟩
    · rename_i hty hws
      split at h
      · cases h
      · rename_i hl
        cases h
        exact .inr (.inl ⟨hty,hws,by omega,rfl,rfl⟩)
    · rename_i hty hws
      split at h
      · cases h
      · rename_i hl
        cases h
        exact .inr (.inr ⟨hty,hws,by omega,rfl,rfl⟩)
    · cases h

theorem WriteSize.bytes_ge (w : WriteSize) : 2 ≤ w.bytes := by cases w <;> decide

theorem entryAt_congr {m m' : ByteMem} {a n : Nat} (h : ∀ x, a ≤ x → x < a+n → m x = m' x)
    {i : Nat} (hi : i < n) : entryAt m a i = entryAt m' a i := h _ (by omega) (by omega)

section Getters
variable {e e' : WriteLogEntry}

theorem getType_congr (h : e 0 = e' 0) : logEntryGetType e = logEntryGetType e' := by
  simp only [logEntryGetType, h]

theorem multibyteGetLength_congr (h : e 0 = e' 0) :
    logEntryMultibyteGetLength e = logEntryMultibyteGetLength e' := by
  simp only [logEntryMultibyteGetLength, h]

theorem multibyteGetAddress_congr (h : ∀ i < 3, e i = e' i) :
    logEntryMultibyteGetAddress e = logEntryMultibyteGetAddress e' := by
  simp only [logEntryMultibyteGetAddress, h 0 (by omega), h 1 (by omega), h 2 (by omega)]

theorem optimized64GetAddress_congr (h : e 0 = e' 0) :
    logEntryOptimized64GetAddress e = logEntryOptimized64GetAddress e' := by
  simp only [logEntryOptimized64GetAddress, h]

theorem word01GetAddress_congr (h : e 0 = e' 0) (h' : e 1 = e' 1) :
    logEntryWord01GetAddress e = logEntryWord01GetAddress e' := by
  simp only [logEntryWord01GetAddress, h, h']

theorem word01GetValue_congr (h : e 0 = e' 0) :
    logEntryWord01GetValue e = logEntryWord01GetValue e' := by
  simp only [logEntryWord01GetValue, h]

end Getters

theorem multibyteWords_cover (cfg : Config) {l : Nat} (hl : l ≤ 5) :
    3+l ≤ multibyteWords cfg l*cfg.writeSize.bytes
      ∧ cfg.writeSize.bytes ≤ multibyteWords cfg l*cfg.writeSize.bytes := by
  unfold multibyteWords
  cases cfg.writeSize <;> simp only [WriteSize.bytes] <;> (try split_ifs) <;> omega

theorem nextEntry_local (cfg : Config) : Local (nextEntry cfg) where
  forward := by
    intro m a s b t h
    have hw := cfg.writeSize.bytes_ge
    simp only [nextEntry] at h
    split at h
    · cases h
    · split at h
      · split at h
        · cases h
        · rename_i hl
          simp only [logEntryMultibyteMaxBytes, not_or, Nat.not_lt] at hl
          have hc := multibyteWords_cover cfg hl.1
          cases h
          omega
      · split at h <;> cases h
        omega
      · split at h <;> cases h
        omega
      · cases h
  congr := by
    intro m m' a s b t h hm
    have hw := cfg.writeSize.bytes_ge
    -- the first word fixes the entry's kind; its own length fixes what else is read
    have first : ∀ n, cfg.writeSize.bytes ≤ n → b = a+n →
        m.read a cfg.writeSize.bytes = m'.read a cfg.writeSize.bytes
          ∧ (∀ i < n, entryAt m a i = entryAt m' a i) := by
      intro n hn hb
      refine ⟨ByteMem.read_congr fun x h₁ h₂ => hm x h₁ (by omega), fun i hi => ?_⟩
      exact entryAt_congr (n := n) (fun x h₁ h₂ => hm x h₁ (by omega)) hi
    simp only [nextEntry] at h ⊢
    split at h
    · cases h
    · rename_i hne
      split at h
      · rename_i hty
        split at h
        · cases h
        · rename_i hl
          have hl₅ : logEntryMultibyteGetLength (entryAt m a) ≤ 5 := by
            simp only [logEntryMultibyteMaxBytes, not_or, Nat.not_lt] at hl
            exact hl.1
          have hc := multibyteWords_cover cfg hl₅
          simp only [Option.some.injEq, Prod.mk.injEq] at h
          obtain ⟨hr, he⟩ := first _ hc.2 h.1.symm
          have h₀ := he 0 (by omega)
          have h₃ : ∀ i < 3, entryAt m a i = entryAt m' a i := fun i hi => he i (by omega)
          rw [← hr, if_neg hne, ← getType_congr h₀, hty]
          simp only [← multibyteGetLength_congr h₀, ← multibyteGetAddress_congr h₃, if_neg hl]
          rw [← h.1, ← h.2, @ByteMem.read_congr m m']
          exact fun x h₁ h₂ => hm x (by omega) (by omega)
      · rename_i hty hws
        split at h
        · cases h
        · rename_i hl
          simp only [Option.some.injEq, Prod.mk.injEq] at h
          obtain ⟨hr, he⟩ := first 2 (by simp [hws, WriteSize.bytes]) h.1.symm
          have h₀ := he 0 (by omega)
          have h₁ := he 1 (by omega)
          rw [← hr, if_neg hne, ← getType_congr h₀, hty, hws]
          simp only [← optimized64GetAddress_congr h₀, if_neg hl]
          rw [← h.1, ← h.2, logEntryOptimized64GetValue, logEntryOptimized64GetValue, h₁]
      · rename_i hty hws
        split at h
        · cases h
        · rename_i hl
          simp only [Option.some.injEq, Prod.mk.injEq] at h
          obtain ⟨hr, he⟩ := first 2 (by simp [hws, WriteSize.bytes]) h.1.symm
          have h₀ := he 0 (by omega)
          have h₁ := he 1 (by omega)
          rw [← hr, if_neg hne, ← getType_congr h₀, hty, hws]
          simp only [← word01GetAddress_congr h₀ h₁, if_neg hl]
          rw [← h.1, ← h.2, word01GetValue_congr h₀]
      · cases h

/-- `n` bytes of the store loaded into an entry. -/
def loaded (m : ByteMem) (a n : Nat) : WriteLogEntry := ByteMem.blank.write 0 (m.read a n)

theorem loaded_apply {m : ByteMem} {a n x : Nat} (h : x < n) : loaded m a n x = m (a+x) := by
  simp [loaded, ByteMem.write_apply, ByteMem.read, List.getD, h]

theorem loaded_extend (m : ByteMem) (a n k : Nat) :
    (loaded m a n).write n (m.read (a+n) k) = loaded m a (n+k) := by
  rw [loaded, loaded, ByteMem.read_add, ByteMem.write_append, ByteMem.length_read, Nat.zero_add]

theorem read_loaded {m : ByteMem} {a n k l : Nat} (h : k+l ≤ n) :
    (loaded m a n).read k l = m.read (a+k) l := by
  apply List.map_congr_left
  intro i hi
  have hi := List.mem_range.mp hi
  rw [loaded_apply (by omega), Nat.add_assoc]

structure Playback.Moved (p q : Playback) (address : Nat) (cache : ByteMem) : Prop where
  cancel : q.cancel = p.cancel
  status : q.status = p.status
  address : q.address = address
  cache : q.cache = cache
  mem : q.flash.mem = p.flash.mem

theorem readEntryWords_le (d : Driver) (cfg : Config) (ks : List Nat) (p : Playback)
    (log : WriteLogEntry) : p.address ≤ (readEntryWords d cfg ks p log).1.address := by
  induction ks generalizing p log with
  | nil => exact Nat.le_refl _
  | cons k ks ih =>
    have hone : p.address ≤ (readEntryWord d cfg k p log).1.address := by
      simp only [readEntryWord]
      split
      · exact Nat.le_refl _
      · exact Nat.le_add_right _ _
    simp only [readEntryWords]
    split
    · exact hone
    · exact Nat.le_trans hone (ih _ _)

theorem playbackMultibyte_le (d : Driver) (cfg : Config) (p : Playback) (log : WriteLogEntry) :
    p.address ≤ (playbackMultibyte d cfg p log).address := by
  have h₁ := readEntryWords_le d cfg (if cfg.writeSize = .two then [1] else []) p log
  simp only [playbackMultibyte]
  generalize readEntryWords d cfg (if cfg.writeSize = .two then [1] else []) p log = r at h₁ ⊢
  split
  · exact h₁
  · split
    · exact h₁
    · split
      · exact Nat.le_trans h₁ (readEntryWords_le ..)
      · exact Nat.le_trans h₁ (readEntryWords_le ..)

theorem playbackRound_advances (d : Driver) (cfg : Config) (p : Playback) :
    (playbackRound d cfg p).cancel = true ∨ p.address < (playbackRound d cfg p).address := by
  have hw := cfg.writeSize.bytes_ge
  have hlt : p.address < p.address+cfg.writeSize.bytes := by omega
  simp only [playbackRound]
  split
  · exact .inl rfl
  · split
    · exact .inl rfl
    · right
      split
      · exact Nat.lt_of_lt_of_le hlt (playbackMultibyte_le d cfg { p with
          address := p.address+cfg.writeSize.bytes
          flash := (backingStoreRead d cfg p.address p.flash).2.2 } _)
      · split <;> exact hlt
      · split <;> exact hlt
      · exact hlt

theorem playbackLoop_done (d : Driver) (cfg : Config) (fuel : Nat) (p : Playback)
    (h : cfg.backingSize ≤ p.address+fuel) :
    (playbackLoop d cfg fuel p).cancel = true
      ∨ cfg.backingSize ≤ (playbackLoop d cfg fuel p).address := by
  induction fuel generalizing p with
  | zero => exact .inr h
  | succ fuel ih =>
    simp only [playbackLoop]
    split
    · rename_i hstop
      simpa using hstop
    · rcases playbackRound_advances d cfg p with hc | hlt
      · left
        cases fuel <;> simp [playbackLoop, hc]
      · exact ih _ (by omega)

def Quiet (f g : Flash) : Prop :=
  ∃ cs, g.calls = f.calls ++ cs ∧ ∀ c ∈ cs, ∃ address ok, c = .read address ok

theorem Quiet.refl (f : Flash) : Quiet f f := ⟨[], by simp, by simp⟩

theorem Quiet.trans {f g h : Flash} (hfg : Quiet f g) (hgh : Quiet g h) : Quiet f h := by
  obtain ⟨cs, h₁, h₂⟩ := hfg
  obtain ⟨ds, h₃, h₄⟩ := hgh
  refine ⟨cs ++ ds, by rw [h₃, h₁, List.append_assoc], fun c hc => ?_⟩
  exact (List.mem_append.mp hc).elim (h₂ c) (h₄ c)

section Quiet
variable (d : Driver) (cfg : Config)

theorem backingStoreRead_quiet (a : Nat) (f : Flash) : Quiet f (backingStoreRead d cfg a f).2.2 :=
  ⟨_, rfl, fun _ hc => ⟨a, _, List.mem_singleton.mp hc⟩⟩

theorem readBulk_quiet (a n : Nat) (f : Flash) :
    Quiet f (backingStoreReadBulk d cfg a n f).2.2 := by
  induction n generalizing a f with
  | zero => exact .refl f
  | succ n ih =>
    simp only [backingStoreReadBulk]
    split
    · exact backingStoreRead_quiet d cfg a f
    · exact (backingStoreRead_quiet d cfg a f).trans (ih _ _)

theorem readEntryWord_quiet (k : Nat) (p : Playback) (log : WriteLogEntry) :
    Quiet p.flash (readEntryWord d cfg k p log).1.flash := by
  simp only [readEntryWord]
  split <;> exact backingStoreRead_quiet d cfg _ _

theorem readEntryWords_quiet (ks : List Nat) (p : Playback) (log : WriteLogEntry) :
    Quiet p.flash (readEntryWords d cfg ks p log).1.flash := by
  induction ks generalizing p log with
  | nil => exact .refl _
  | cons k ks ih =>
    simp only [readEntryWords]
    split
    · exact readEntryWord_quiet d cfg k p log
    · exact (readEntryWord_quiet d cfg k p log).trans (ih _ _)

theorem playbackMultibyte_quiet (p : Playback) (log : WriteLogEntry) :
    Quiet p.flash (playbackMultibyte d cfg p log).flash := by
  have h₁ := readEntryWords_quiet d cfg (if cfg.writeSize = .two then [1] else []) p log
  simp only [playbackMultibyte]
  generalize readEntryWords d cfg (if cfg.writeSize = .two then [1] else []) p log = r at h₁ ⊢
  have h₂ := readEntryWords_quiet d cfg (extraWords cfg (logEntryMultibyteGetLength r.2)) r.1 r.2
  split_ifs
  · exact h₁
  · exact h₁
  · exact h₁.trans h₂
  · exact h₁.trans h₂

theorem playbackRound_quiet (p : Playback) :
    Quiet p.flash (playbackRound d cfg p).flash := by
  have h₁ := backingStoreRead_quiet d cfg p.address p.flash
  simp only [playbackRound]
  split
  · exact h₁
  · split
    · exact h₁
    · split
      · exact h₁.trans (playbackMultibyte_quiet d cfg { p with
          address := p.address+cfg.writeSize.bytes
          flash := (backingStoreRead d cfg p.address p.flash).2.2 } _)
      · split <;> exact h₁
      · split <;> exact h₁
      · exact h₁

theorem playbackLoop_quiet (fuel : Nat) (p : Playback) :
    Quiet p.flash (playbackLoop d cfg fuel p).flash := by
  induction fuel generalizing p with
  | zero => exact .refl _
  | succ fuel ih =>
    simp only [playbackLoop]
    split
    · exact .refl _
    · exact (playbackRound_quiet d cfg p).trans (ih _)

end Quiet

/-- A store whose every read succeeds. -/
def Readable (d : Driver) : Prop := ∀ n, d.readOk n = true

section Readable
variable {d : Driver} {cfg : Config} (hd : Readable d)
include hd

theorem backingStoreRead_ok (a : Nat) (f : Flash) :
    backingStoreRead d cfg a f = (true, f.mem.read a cfg.writeSize.bytes,
      { f with calls := f.calls ++ [.read a true] }) := by
  simp [backingStoreRead, hd f.calls.length]

theorem readEntryWord_ok (k : Nat) (p : Playback) (log : WriteLogEntry) :
    readEntryWord d cfg k p log =
      ({ p with
          address := p.address+cfg.writeSize.bytes
          flash := { p.flash with calls := p.flash.calls ++ [.read p.address true] } },
        log.write (k*cfg.writeSize.bytes) (p.flash.mem.read p.address cfg.writeSize.bytes)) := by
  simp [readEntryWord, backingStoreRead_ok hd]

theorem readEntryWords_moved (a n k : Nat) (p : Playback) (hc : p.cancel = false)
    (hp : p.address = a+k*cfg.writeSize.bytes) :
    let r := readEntryWords d cfg (List.range' k n) p
      (loaded p.flash.mem a (k*cfg.writeSize.bytes))
    p.Moved r.1 (a+(k+n)*cfg.writeSize.bytes) p.cache
      ∧ r.2 = loaded p.flash.mem a ((k+n)*cfg.writeSize.bytes) := by
  induction n generalizing k p with
  | zero => exact ⟨⟨rfl, rfl, hp, rfl, rfl⟩, rfl⟩
  | succ n ih =>
    have hk : p.address+cfg.writeSize.bytes = a+(k+1)*cfg.writeSize.bytes := by
      rw [hp, Nat.add_mul]; omega
    have hs : k*cfg.writeSize.bytes+cfg.writeSize.bytes = (k+1)*cfg.writeSize.bytes := by
      rw [Nat.add_mul]; omega
    have hn : k+(n+1) = k+1+n := by omega
    have h := ih (k+1) { p with
      address := p.address+cfg.writeSize.bytes
      flash := { p.flash with calls := p.flash.calls ++ [.read p.address true] } } hc hk
    simp only [List.range'_succ, readEntryWords, readEntryWord_ok hd, hc, Bool.false_eq_true,
      if_false, hn]
    rw [hp, loaded_extend, hs, ← hp]
    simp only [hc] at h
    exact ⟨⟨h.1.cancel.trans hc.symm, h.1.status, h.1.address, h.1.cache, h.1.mem⟩, h.2⟩

def headerWords (cfg : Config) : Nat := if cfg.writeSize = .two then 2 else 1

omit hd in
theorem extraWords_eq (cfg : Config) {l : Nat} :
    extraWords cfg l = List.range' (headerWords cfg) (multibyteWords cfg l-headerWords cfg)
      ∧ headerWords cfg ≤ multibyteWords cfg l := by
  unfold extraWords headerWords multibyteWords
  by_cases h₁ : 1 < l
  · by_cases h₃ : 3 < l <;> cases cfg.writeSize <;> simp [h₁, h₃, List.range']
  · have h₃ : ¬ 3 < l := by omega
    cases cfg.writeSize <;> simp [h₁, h₃]

theorem playbackMultibyte_moved (a : Nat) (p : Playback) (hc : p.cancel = false)
    (hp : p.address = a+cfg.writeSize.bytes)
    (hl : logEntryMultibyteGetLength (entryAt p.flash.mem a) ≤ 5)
    (hx : logEntryMultibyteGetAddress (entryAt p.flash.mem a)
      +logEntryMultibyteGetLength (entryAt p.flash.mem a) ≤ cfg.logicalSize) :
    p.Moved (playbackMultibyte d cfg p (loaded p.flash.mem a cfg.writeSize.bytes))
      (a+multibyteWords cfg (logEntryMultibyteGetLength (entryAt p.flash.mem a))
        *cfg.writeSize.bytes)
      (p.cache.write (logEntryMultibyteGetAddress (entryAt p.flash.mem a))
        (p.flash.mem.read (a+3) (logEntryMultibyteGetLength (entryAt p.flash.mem a)))) := by
  have hhead : (if cfg.writeSize = .two then [1] else []) = List.range' 1 (headerWords cfg-1) := by
    unfold headerWords; split <;> rfl
  have hone : 1+(headerWords cfg-1) = headerWords cfg := by unfold headerWords; split <;> omega
  have hthree : 3 ≤ headerWords cfg*cfg.writeSize.bytes := by
    unfold headerWords; cases cfg.writeSize <;> simp [WriteSize.bytes]
  have hcover := multibyteWords_cover cfg hl
  generalize hlen : logEntryMultibyteGetLength (entryAt p.flash.mem a) = l at hl hx hcover ⊢
  generalize hadr : logEntryMultibyteGetAddress (entryAt p.flash.mem a) = x at hx ⊢
  obtain ⟨hex, hle⟩ := extraWords_eq cfg (l := l)
  have hrest : headerWords cfg+(multibyteWords cfg l-headerWords cfg) = multibyteWords cfg l := by
    omega
  -- the header
  have r₁ := @readEntryWords_moved d cfg hd a (headerWords cfg-1) 1 p hc (by omega)
  simp only [hone, Nat.one_mul] at r₁
  generalize hq₁ : readEntryWords d cfg (List.range' 1 (headerWords cfg-1)) p
    (loaded p.flash.mem a cfg.writeSize.bytes) = q₁ at r₁
  obtain ⟨h₁, e₁⟩ := r₁
  have hbyte : ∀ i < 3, q₁.2 i = entryAt p.flash.mem a i := by
    intro i hi
    rw [e₁, loaded_apply (by omega)]
    rfl
  have hlen₁ := (multibyteGetLength_congr (hbyte 0 (by omega))).trans hlen
  have hadr₁ := (multibyteGetAddress_congr hbyte).trans hadr
  have hc₁ := h₁.cancel.trans hc
  -- the rest of the value
  have r₂ := @readEntryWords_moved d cfg hd a (multibyteWords cfg l-headerWords cfg)
    (headerWords cfg) q₁.1 hc₁ h₁.address
  simp only [hrest, h₁.mem, ← e₁] at r₂
  generalize hq₂ : readEntryWords d cfg (List.range' (headerWords cfg)
    (multibyteWords cfg l-headerWords cfg)) q₁.1 q₁.2 = q₂ at r₂
  obtain ⟨h₂, e₂⟩ := r₂
  have hc₂ := h₂.cancel.trans hc₁
  simp only [playbackMultibyte, hhead, hq₁, hc₁, Bool.false_eq_true, if_false, hadr₁, hlen₁,
    if_neg (Nat.not_lt.mpr hx), hex, hq₂, hc₂]
  refine ⟨hc.symm, h₂.status.trans h₁.status, h₂.address, ?_, h₂.mem.trans h₁.mem⟩
  simp only [h₂.cache, h₁.cache, e₂, read_loaded hcover.1]

theorem playbackRound_next {p : Playback} {b : Nat} {c : ByteMem} (hc : p.cancel = false)
    (h : nextEntry cfg p.flash.mem p.address p.cache = some (b,c)) :
    p.Moved (playbackRound d cfg p) b c := by
  have hw := cfg.writeSize.bytes_ge
  obtain ⟨hne,hcases⟩ := nextEntry_cases h
  clear h
  set m := p.flash.mem with hm
  set a := p.address with ha
  have hbyte : ∀ i < 2, loaded m a cfg.writeSize.bytes i = entryAt m a i :=
    fun i hi => loaded_apply (by omega)
  have h₀ := hbyte 0 (by omega)
  have h₁ := hbyte 1 (by omega)
  simp only [playbackRound, backingStoreRead_ok hd, Bool.not_true, Bool.false_eq_true, if_false,
    ← hm, ← ha, if_neg hne]
  have hlog : ByteMem.blank.write 0 (m.read a cfg.writeSize.bytes)
      = loaded m a cfg.writeSize.bytes := rfl
  rw [hlog, getType_congr h₀]
  rcases hcases with ⟨hty,hlen,hfit,rfl,rfl⟩ | ⟨hty,hws,hfit,rfl,rfl⟩ | ⟨hty,hws,hfit,rfl,rfl⟩
  · rw [hty]
    have hmov := playbackMultibyte_moved hd a { p with
      address := a+cfg.writeSize.bytes
      flash := { p.flash with calls := p.flash.calls ++ [.read a true] } } hc rfl hlen hfit
    exact ⟨hmov.cancel, hmov.status, hmov.address, hmov.cache, hmov.mem⟩
  · rw [hty, hws]
    rw [hws] at h₀ h₁
    simp only [optimized64GetAddress_congr h₀, if_neg (Nat.not_le.mpr hfit)]
    exact ⟨rfl, rfl, rfl, by rw [logEntryOptimized64GetValue, h₁]; rfl, rfl⟩
  · rw [hty, hws]
    rw [hws] at h₀ h₁
    simp only [word01GetAddress_congr h₀ h₁, if_neg (Nat.not_le.mpr hfit)]
    exact ⟨rfl, rfl, rfl, by rw [word01GetValue_congr h₀], rfl⟩

theorem playbackRound_blank {p : Playback}
    (h : p.flash.mem.read p.address cfg.writeSize.bytes = List.replicate cfg.writeSize.bytes 0) :
    playbackRound d cfg p = { p with
      cancel := true
      flash := { p.flash with calls := p.flash.calls ++ [.read p.address true] } } := by
  simp [playbackRound, backingStoreRead_ok hd, h]

theorem playbackLoop_ends {b : Nat} {c : ByteMem} {p : Playback} (hc : p.cancel = false)
    (h : Ends (nextEntry cfg) p.flash.mem p.address p.cache b c) (hb : b < cfg.backingSize)
    (fuel : Nat) (hf : b-p.address < fuel) :
    let q := playbackLoop d cfg fuel p
    q.status = p.status ∧ q.address = b ∧ q.cache = c ∧ q.flash.mem = p.flash.mem := by
  obtain ⟨hp, hblank⟩ := h
  generalize hm : p.flash.mem = m at hp hblank
  generalize ha : p.address = a at hp hf
  generalize hs : p.cache = s at hp
  induction hp generalizing p fuel with
  | refl a s =>
    obtain ⟨fuel, rfl⟩ : ∃ k, fuel = k+1 := ⟨fuel-1, by omega⟩
    have hz : p.flash.mem.read p.address cfg.writeSize.bytes
        = List.replicate cfg.writeSize.bytes 0 := by
      rw [hm, ha, @ByteMem.read_congr _ ByteMem.blank _ _ (fun x hx _ => hblank x hx),
        ByteMem.read_blank]
    have hlt : ¬ cfg.backingSize ≤ p.address := by omega
    simp only [playbackLoop, hc, Bool.false_or, decide_eq_true_eq, if_neg hlt,
      playbackRound_blank hd hz]
    cases fuel <;> simp [playbackLoop, ha, hs, hm]
  | step e k ih =>
    have hfwd := (nextEntry_local cfg).forward e
    have hle := k.le (nextEntry_local cfg)
    obtain ⟨fuel, rfl⟩ : ∃ k, fuel = k+1 := ⟨fuel-1, by omega⟩
    have hmov : p.Moved (playbackRound d cfg p) _ _ :=
      playbackRound_next hd hc (by rw [hm, ha, hs]; exact e)
    have hlt : ¬ cfg.backingSize ≤ p.address := by omega
    simp only [playbackLoop, hc, Bool.false_or, decide_eq_true_eq, if_neg hlt]
    have hr := ih (hmov.cancel.trans hc) hb fuel (hmov.mem.trans hm) hblank hmov.address
      (by omega) hmov.cache
    rw [hmov.status] at hr
    exact hr

end Readable

end QmkFirmware.WearLeveling
