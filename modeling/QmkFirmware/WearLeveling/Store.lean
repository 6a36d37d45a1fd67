import QmkFirmware.WearLeveling.Append

/-!
What the backing store holds, and how each operation changes it. `Holds` is the
invariant: the log plays back to a cache, and a re-init resumes right behind it.
-/

set_option autoImplicit false

namespace QmkFirmware.WearLeveling
open LogReplay

def base (cfg : Config) (m : ByteMem) : ByteMem :=
  if m.read cfg.logicalSize 8 = raw64 (cfg.fnv (m.read 0 cfg.logicalSize)) then
    ByteMem.blank.write 0 (m.read 0 cfg.logicalSize)
  else ByteMem.blank

/-- The store content `m` plays back to the cache `c`; the log ends at `a`. -/
structure Holds (cfg : Config) (m : ByteMem) (a : Nat) (c : ByteMem) : Prop where
  ends : Ends (nextEntry cfg) m cfg.logStart (base cfg m) a c
  room : a < cfg.backingSize

/-- A cache has no bytes outside the logical size. -/
def Fits (cfg : Config) (c : ByteMem) : Prop := ∀ x, cfg.logicalSize ≤ x → c x = 0

theorem Fits.write {cfg : Config} {c : ByteMem} (h : Fits cfg c) {a : Nat} {v : List UInt8}
    (hv : a+v.length ≤ cfg.logicalSize) : Fits cfg (c.write a v) := fun x hx => by
  rw [ByteMem.write_outside (by omega)]
  exact h x hx

theorem Fits.blank {cfg : Config} : Fits cfg ByteMem.blank := fun _ _ => rfl

theorem Fits.rebuild {cfg : Config} {c : ByteMem} (h : Fits cfg c) :
    ByteMem.blank.write 0 (c.read 0 cfg.logicalSize) = c := by
  funext x
  by_cases hx : x < cfg.logicalSize
  · exact (loaded_apply hx).trans (by rw [Nat.zero_add])
  · rw [ByteMem.write_outside (by simp; omega), h x (by omega)]
    rfl

theorem base_write {cfg : Config} {m : ByteMem} {a : Nat} {bs : List UInt8}
    (h : cfg.logStart ≤ a) : base cfg (m.write a bs) = base cfg m := by
  unfold Config.logStart at h
  simp only [base]
  rw [ByteMem.read_write_disjoint m a cfg.logicalSize 8 bs (by omega),
    ByteMem.read_write_disjoint m a 0 cfg.logicalSize bs (by omega)]

theorem Holds.start_le {cfg : Config} {m : ByteMem} {a : Nat} {c : ByteMem}
    (h : Holds cfg m a c) : cfg.logStart ≤ a := h.ends.plays.le (nextEntry_local cfg)

theorem Holds.append {cfg : Config} {m : ByteMem} {a b : Nat} {c c' : ByteMem}
    {bs : List UInt8} (h : Holds cfg m a c) (hb : a+bs.length ≤ b) (hr : b < cfg.backingSize)
    (e : nextEntry cfg (m.write a bs) a c = some (b,c')) : Holds cfg (m.write a bs) b c' where
  ends := by
    rw [base_write h.start_le]
    exact h.ends.append (nextEntry_local cfg) hb e
  room := hr

def consolidatedImage (cfg : Config) (c : ByteMem) : ByteMem :=
  (ByteMem.blank.write 0 (c.read 0 cfg.logicalSize)).write cfg.logicalSize
    (raw64 (cfg.fnv (c.read 0 cfg.logicalSize)))

@[simp] theorem length_raw64 (v : UInt64) : (raw64 v).length = 8 := by simp [raw64]

theorem holds_consolidated {cfg : Config} {c : ByteMem} (h : Fits cfg c) :
    Holds cfg (consolidatedImage cfg c) cfg.logStart c where
  ends := by
    have hread : (consolidatedImage cfg c).read 0 cfg.logicalSize = c.read 0 cfg.logicalSize := by
      rw [consolidatedImage, ByteMem.read_write_disjoint _ _ _ _ _ (by omega)]
      have := ByteMem.read_write_same ByteMem.blank 0 (c.read 0 cfg.logicalSize)
      rwa [ByteMem.length_read] at this
    have hhash : (consolidatedImage cfg c).read cfg.logicalSize 8
        = raw64 (cfg.fnv (c.read 0 cfg.logicalSize)) := by
      have := ByteMem.read_write_same (ByteMem.blank.write 0 (c.read 0 cfg.logicalSize))
        cfg.logicalSize (raw64 (cfg.fnv (c.read 0 cfg.logicalSize)))
      rwa [length_raw64] at this
    have hbase : base cfg (consolidatedImage cfg c) = c := by
      simp only [base]
      rw [hread, hhash, if_pos rfl, h.rebuild]
    rw [hbase]
    refine ⟨.refl _ _, fun x hx => ?_⟩
    unfold Config.logStart at hx
    rw [consolidatedImage, ByteMem.write_outside (by simp; omega),
      ByteMem.write_outside (by simp; omega)]
    rfl
  room := cfg.room

theorem holds_blank (cfg : Config) : Holds cfg ByteMem.blank cfg.logStart ByteMem.blank where
  ends := by
    have hbase : base cfg ByteMem.blank = ByteMem.blank := by
      unfold base
      split
      · exact Fits.blank.rebuild
      · rfl
    rw [hbase]
    exact ⟨.refl _ _, fun _ _ => rfl⟩
  room := cfg.room

theorem words_size (cfg : Config) (m : ByteMem) (a n : Nat) :
    ∀ w ∈ words cfg m a n, w.length = cfg.writeSize.bytes := by
  intro w hw
  obtain ⟨i, -, rfl⟩ := List.mem_map.mp hw
  simp

theorem words_flatten (cfg : Config) (m : ByteMem) (a n : Nat) :
    (words cfg m a n).flatten = m.read a (n*cfg.writeSize.bytes) := by
  induction n with
  | zero => simp [words]
  | succ n ih =>
    have h : words cfg m a (n+1)
        = words cfg m a n ++ [m.read (a+n*cfg.writeSize.bytes) cfg.writeSize.bytes] := by
      simp [words, List.range_succ]
    rw [h, List.flatten_append, ih, Nat.succ_mul, ByteMem.read_add]
    simp

theorem items_logical (cfg : Config) :
    cfg.items cfg.logicalSize*cfg.writeSize.bytes = cfg.logicalSize :=
  Nat.div_mul_cancel (Nat.dvd_of_mod_eq_zero cfg.logical_mod)

theorem items_eight (cfg : Config) : cfg.items 8*cfg.writeSize.bytes = 8 := by
  unfold Config.items
  cases cfg.writeSize <;> rfl

theorem writeBulk_mem (d : Driver) (cfg : Config) (a : Nat) (vs : List Word) (f : Flash)
    (hv : ∀ v ∈ vs, v.length = cfg.writeSize.bytes)
    (h : (backingStoreWriteBulk d cfg a vs f).1 = true) :
    (backingStoreWriteBulk d cfg a vs f).2.mem = f.mem.write a vs.flatten := by
  induction vs generalizing a f with
  | nil => simp [backingStoreWriteBulk]
  | cons v vs ih =>
    simp only [backingStoreWriteBulk] at h ⊢
    split at h
    · cases h
    · rename_i hok
      have hok' : d.writeOk f.calls.length = true := by
        simpa [backingStoreWrite] using hok
      rw [if_neg hok, ih _ _ (fun w hw => hv w (List.mem_cons_of_mem _ hw)) h,
        List.flatten_cons, ByteMem.write_append, hv v List.mem_cons_self]
      simp [backingStoreWrite, hok']

theorem writeBulk_ok (d : Driver) (cfg : Config) (a : Nat) (vs : List Word) (f : Flash)
    (hd : ∀ i < vs.length, d.writeOk (f.calls.length+i) = true) :
    (backingStoreWriteBulk d cfg a vs f).1 = true
      ∧ (backingStoreWriteBulk d cfg a vs f).2.calls.length = f.calls.length+vs.length := by
  induction vs generalizing a f with
  | nil => exact ⟨rfl, rfl⟩
  | cons v vs ih =>
    have hhead : d.writeOk f.calls.length = true := hd 0 (by simp)
    obtain ⟨h₁, h₂⟩ := ih (a+cfg.writeSize.bytes) (backingStoreWrite d a v f).2 fun i hi => by
      have := hd (i+1) (by simpa using hi)
      rw [backingStoreWrite, List.length_append, List.length_singleton, Nat.add_assoc,
        Nat.add_comm 1 i]
      exact this
    simp only [backingStoreWriteBulk]
    rw [if_neg (by simp [backingStoreWrite, hhead])]
    refine ⟨h₁, h₂.trans ?_⟩
    simp [backingStoreWrite]
    omega

theorem readBulk_ok {d : Driver} (cfg : Config) (hd : Readable d) (a n : Nat) (f : Flash) :
    let r := backingStoreReadBulk d cfg a n f
    r.1 = true ∧ r.2.1 = f.mem.read a (n*cfg.writeSize.bytes) ∧ r.2.2.mem = f.mem := by
  induction n generalizing a f with
  | zero => simp [backingStoreReadBulk]
  | succ n ih =>
    obtain ⟨h₁, h₂, h₃⟩ := ih (a+cfg.writeSize.bytes)
      { f with calls := f.calls ++ [.read a true] }
    simp only [backingStoreReadBulk, backingStoreRead_ok hd, Bool.not_true, Bool.false_eq_true,
      if_false, h₁, h₂, h₃, true_and, and_true]
    rw [Nat.succ_mul, Nat.add_comm (n*cfg.writeSize.bytes), ByteMem.read_add]

/-- A store that can be read, erased and locked. Unlocking and writing may still fail. -/
structure Sound (d : Driver) : Prop where
  init : ∀ n, d.initOk n = true
  read : Readable d
  erase : ∀ n, d.eraseOk n = true
  lock : ∀ n, d.lockOk n = true

theorem Sound.faultFree : Sound .faultFree :=
  ⟨fun _ => rfl, fun _ => rfl, fun _ => rfl, fun _ => rfl⟩

/-- The RAM after a reset, with the store as it was. -/
def State.reset (f : Flash) : State := ⟨ByteMem.blank,0,false,f⟩

theorem init_resumes {d : Driver} {cfg : Config} (hi : ∀ n, d.initOk n = true) (hr : Readable d)
    {s : State} {a : Nat} {c : ByteMem} (h : Holds cfg s.flash.mem a c) :
    let r := wearLevelingInit d cfg s
    r.1 = .success ∧ r.2.cache = c ∧ r.2.writeAddress = a ∧ r.2.unlocked = s.unlocked
      ∧ r.2.flash.mem = s.flash.mem
      ∧ Quiet { s.flash with calls := s.flash.calls ++ [.init true] } r.2.flash := by
  simp only [wearLevelingInit, backingStoreInit, hi, wearLevelingClearCache, Bool.not_true,
    Bool.false_eq_true, if_false]
  -- the consolidated data and its checksum
  have hcons : ∀ t : State, t.flash.mem = s.flash.mem → t.unlocked = s.unlocked →
      let q := wearLevelingReadConsolidated d cfg t
      q.1 = .success ∧ q.2.cache = base cfg s.flash.mem ∧ q.2.unlocked = s.unlocked
        ∧ q.2.flash.mem = s.flash.mem ∧ Quiet t.flash q.2.flash := by
    intro t ht hu
    have hquiet := (readBulk_quiet d cfg 0 (cfg.items cfg.logicalSize) t.flash).trans
      (readBulk_quiet d cfg cfg.logicalSize (cfg.items 8) _)
    obtain ⟨h₁, h₂, h₃⟩ := readBulk_ok cfg hr 0 (cfg.items cfg.logicalSize) t.flash
    generalize hq : backingStoreReadBulk d cfg 0 (cfg.items cfg.logicalSize) t.flash = r
      at h₁ h₂ h₃ hquiet
    obtain ⟨-, -, h₄⟩ := readBulk_ok cfg hr cfg.logicalSize (cfg.items 8) r.2.2
    rw [items_logical, ht] at h₂
    have hread : (ByteMem.blank.write 0 (s.flash.mem.read 0 cfg.logicalSize)).read 0
        cfg.logicalSize = s.flash.mem.read 0 cfg.logicalSize := by
      have := ByteMem.read_write_same ByteMem.blank 0 (s.flash.mem.read 0 cfg.logicalSize)
      rwa [ByteMem.length_read] at this
    simp only [wearLevelingReadConsolidated, hq, h₁, h₂, h₃, ht, hread, Bool.not_true,
      Bool.false_eq_true, if_false, base, wearLevelingClearCache]
    split
    · exact ⟨rfl, rfl, hu, h₄.trans (h₃.trans ht), hquiet⟩
    · exact ⟨rfl, rfl, hu, h₄.trans (h₃.trans ht), hquiet⟩
  generalize hq : wearLevelingReadConsolidated d cfg _ = q
  obtain ⟨q₁, q₂, q₃, q₄, q₅⟩ : q.1 = .success ∧ q.2.cache = base cfg s.flash.mem
      ∧ q.2.unlocked = s.unlocked ∧ q.2.flash.mem = s.flash.mem
      ∧ Quiet { s.flash with calls := s.flash.calls ++ [.init true] } q.2.flash := by
    rw [← hq]
    exact hcons _ rfl rfl
  have hends : Ends (nextEntry cfg) q.2.flash.mem cfg.logStart q.2.cache a c := by
    rw [q₄, q₂]
    exact h.ends
  have hstart := h.start_le
  have hroom := h.room
  have hpos : 0 < cfg.logStart := by unfold Config.logStart; omega
  obtain ⟨p₁, p₂, p₃, p₄⟩ := playbackLoop_ends hr
    (p := ⟨false,.success,cfg.logStart,q.2.cache,q.2.flash⟩) rfl hends hroom cfg.backingSize
    (show a-cfg.logStart < cfg.backingSize by omega)
  have hquiet := q₅.trans (playbackLoop_quiet d cfg cfg.backingSize
    ⟨false,.success,cfg.logStart,q.2.cache,q.2.flash⟩)
  simp only [q₁, reduceCtorEq, if_false, wearLevelingPlaybackLog, p₁, p₂, p₃, p₄,
    wearLevelingConsolidateIfNeeded, if_neg (Nat.not_le.mpr hroom), q₃, q₄, true_and]
  exact hquiet

theorem init_holds {d : Driver} {cfg : Config} (hd : Sound d) {s : State} {a : Nat}
    {c : ByteMem} (h : Holds cfg s.flash.mem a c) :
    let r := wearLevelingInit d cfg s
    r.1 = .success ∧ r.2.cache = c ∧ r.2.writeAddress = a ∧ r.2.unlocked = s.unlocked
      ∧ r.2.flash.mem = s.flash.mem := by
  obtain ⟨h₁, h₂, h₃, h₄, h₅, -⟩ := init_resumes hd.init hd.read h
  exact ⟨h₁, h₂, h₃, h₄, h₅⟩

@[simp] theorem length_words (cfg : Config) (m : ByteMem) (a n : Nat) :
    (words cfg m a n).length = n := by simp [words]

/-- Consolidation: with the store unlocked it leaves the image of the cache, or it fails,
and then one of the bulk writes behind the erase did. -/
theorem consolidateForce_cases {d : Driver} {cfg : Config} (hd : Sound d) {s : State}
    (hu : s.unlocked = true) :
    let r := wearLevelingConsolidateForce d cfg s
    r.2.cache = s.cache ∧ r.2.unlocked = true ∧
      (r.1 = .failed ∧ (¬ ∀ i < cfg.items cfg.logicalSize+cfg.items 8,
          d.writeOk (s.flash.calls.length+1+i) = true) ∨
        r.1 = .consolidated ∧ r.2.writeAddress = cfg.logStart
          ∧ r.2.flash.mem = consolidatedImage cfg s.cache) := by
  simp only [wearLevelingConsolidateForce, backingStoreErase, hd.erase, Bool.not_true,
    Bool.false_eq_true, if_false, if_true, wearLevelingWriteConsolidated, wearLevelingUnlock, hu,
    reduceCtorEq]
  generalize hf : ({ mem := ByteMem.blank, calls := s.flash.calls ++ [.erase true] } : Flash) = f
  have hlen : f.calls.length = s.flash.calls.length+1 := by rw [← hf]; simp
  have hblank : f.mem = ByteMem.blank := by rw [← hf]
  have hdata := writeBulk_ok d cfg 0 (words cfg s.cache 0 (cfg.items cfg.logicalSize)) f
  generalize hr : backingStoreWriteBulk d cfg 0 _ _ = r at hdata
  rw [length_words, hlen] at hdata
  cases hok : r.1 with
  | false =>
    refine ⟨by simp, by simp, .inl ⟨by simp, fun hall => ?_⟩⟩
    rw [(hdata fun i hi => hall i (by omega)).1] at hok
    cases hok
  | true =>
    have hm : r.2.mem = ByteMem.blank.write 0 (s.cache.read 0 cfg.logicalSize) := by
      rw [← hr] at hok ⊢
      rw [writeBulk_mem d cfg _ _ _ (words_size cfg _ _ _) hok, words_flatten, items_logical,
        hblank]
    simp only [Bool.not_true, Bool.false_eq_true, if_false]
    have hhash := writeBulk_ok d cfg cfg.logicalSize (words cfg (ByteMem.blank.write 0
      (raw64 (cfg.fnv (s.cache.read 0 cfg.logicalSize)))) 0 (cfg.items 8)) r.2
    generalize hq : backingStoreWriteBulk d cfg cfg.logicalSize _ _ = q at hhash
    cases hok₂ : q.1 with
    | false =>
      refine ⟨by simp, by simp, .inl ⟨by simp, fun hall => ?_⟩⟩
      rw [length_words] at hhash
      have hcalls := (hdata fun i hi => hall i (by omega)).2
      rw [hcalls] at hhash
      rw [(hhash fun i hi => by rw [Nat.add_assoc]; exact hall _ (by omega)).1] at hok₂
      cases hok₂
    | true =>
      refine ⟨by simp, by simp, .inr ⟨by simp, trivial, ?_⟩⟩
      rw [← hq] at hok₂ ⊢
      rw [writeBulk_mem d cfg _ _ _ (words_size cfg _ _ _) hok₂, words_flatten, items_eight, hm,
        consolidatedImage]
      have hl : (raw64 (cfg.fnv (s.cache.read 0 cfg.logicalSize))).length = 8 := length_raw64 _
      have := ByteMem.read_write_same ByteMem.blank 0
        (raw64 (cfg.fnv (s.cache.read 0 cfg.logicalSize)))
      rw [hl] at this
      rw [this]

end QmkFirmware.WearLeveling
