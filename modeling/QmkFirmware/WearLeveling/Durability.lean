import QmkFirmware.WearLeveling.Write

/-!
Over a store without faults the wear-leveling layer is a plain byte array that survives
a reset.
-/

set_option autoImplicit false

namespace QmkFirmware.WearLeveling

inductive Call where
  | write (address : Nat) (value : List UInt8)
  | erase
  | init
  deriving DecidableEq, Repr

def Call.Valid (cfg : Config) : Call → Prop
  | .write address value => address+value.length ≤ cfg.logicalSize
  | .erase | .init => True

instance (cfg : Config) (c : Call) : Decidable (c.Valid cfg) := by
  cases c <;> unfold Call.Valid <;> infer_instance

def exec (d : Driver) (cfg : Config) (s : State) : Call → Status × State
  | .write address value => wearLevelingWrite d cfg address value s
  | .erase => wearLevelingErase d cfg s
  | .init => wearLevelingInit d cfg s

def run (d : Driver) (cfg : Config) (calls : List Call) (s : State) : State :=
  calls.foldl (fun s c => (exec d cfg s c).2) s

/-- Power-up over an erased store. -/
def boot (d : Driver) (cfg : Config) : State :=
  (wearLevelingInit d cfg (.reset .erased)).2

/-- `wear_leveling_init` on a store content, from reset RAM. -/
def reinit (d : Driver) (cfg : Config) (f : Flash) : State :=
  (wearLevelingInit d cfg (.reset f)).2

def plainStep (m : ByteMem) : Call → ByteMem
  | .write address value => m.write address value
  | .erase => ByteMem.blank
  | .init => m

/-- The last byte written to each address since the last erase. -/
def plain (calls : List Call) (m : ByteMem) : ByteMem := calls.foldl plainStep m

structure Synced (cfg : Config) (s : State) : Prop where
  holds : Holds cfg s.flash.mem s.writeAddress s.cache
  locked : s.unlocked = false
  fits : Fits cfg s.cache

theorem Synced.room {cfg : Config} {s : State} (h : Synced cfg s) :
    s.writeAddress < cfg.backingSize := h.holds.room

theorem boot_synced {d : Driver} (hd : Sound d) (cfg : Config) :
    Synced cfg (boot d cfg) ∧ (boot d cfg).cache = ByteMem.blank := by
  obtain ⟨-, h₂, h₃, h₄, h₅⟩ := init_holds hd (s := .reset .erased) (holds_blank cfg)
  refine ⟨⟨?_, h₄, ?_⟩, h₂⟩
  · show Holds cfg (boot d cfg).flash.mem _ _
    rw [boot, h₂, h₃, h₅]
    exact holds_blank cfg
  · rw [boot, h₂]
    exact .blank

theorem reinit_holds {d : Driver} (hd : Sound d) {cfg : Config} {f : Flash} {a : Nat}
    {c : ByteMem} (h : Holds cfg f.mem a c) :
    (reinit d cfg f).cache = c ∧ (reinit d cfg f).writeAddress = a
      ∧ (reinit d cfg f).unlocked = false ∧ (reinit d cfg f).flash.mem = f.mem := by
  obtain ⟨-, h₂, h₃, h₄, h₅⟩ := init_holds hd (s := .reset f) h
  exact ⟨h₂, h₃, h₄, h₅⟩

theorem Synced.reinit {d : Driver} (hd : Sound d) {cfg : Config} {s : State}
    (h : Synced cfg s) : (reinit d cfg s.flash).cache = s.cache
      ∧ (reinit d cfg s.flash).writeAddress = s.writeAddress := by
  obtain ⟨h₁, h₂, -, -⟩ := reinit_holds hd h.holds
  exact ⟨h₁, h₂⟩

theorem exec_synced {cfg : Config} {s : State} (h : Synced cfg s) {c : Call}
    (hc : c.Valid cfg) :
    Synced cfg (exec .faultFree cfg s c).2
      ∧ (exec .faultFree cfg s c).2.cache = plainStep s.cache c := by
  cases c with
  | write address value =>
    obtain ⟨hu, ho⟩ := write_outcome Sound.faultFree hc h.locked h.holds
    simp only [exec, plainStep]
    generalize wearLevelingWrite .faultFree cfg address value s = r at hu ho
    cases ho with
    | unchanged hsame =>
      refine ⟨h, ?_⟩
      conv_rhs => rw [← hsame, ByteMem.write_read]
    | logged h₁ h₂ h₃ _ _ => exact ⟨⟨by rw [h₂]; exact h₃, hu, by rw [h₂]; exact h.fits.write hc⟩, h₂⟩
    | consolidated h₁ h₂ h₃ h₄ =>
      have hf := h.fits.write hc
      refine ⟨⟨?_, hu, by rw [h₂]; exact hf⟩, h₂⟩
      rw [h₂, h₃, h₄]
      exact holds_consolidated hf
    | failed _ _ h₃ _ =>
      obtain ⟨n, hn⟩ := h₃
      simp [Driver.faultFree] at hn
  | erase =>
    simp only [exec, plainStep, wearLevelingErase, wearLevelingUnlock, h.locked, backingStoreUnlock,
      Driver.faultFree, backingStoreErase, wearLevelingClearCache, wearLevelingLock,
      backingStoreLock]
    exact ⟨⟨holds_blank cfg, rfl, .blank⟩, rfl⟩
  | init =>
    obtain ⟨-, h₂, h₃, h₄, h₅⟩ := init_holds Sound.faultFree h.holds
    have he : exec .faultFree cfg s .init = wearLevelingInit .faultFree cfg s := rfl
    rw [he]
    refine ⟨⟨?_, h₄.trans h.locked, ?_⟩, h₂⟩
    · rw [h₂, h₃, h₅]
      exact h.holds
    · rw [h₂]
      exact h.fits

theorem run_synced {cfg : Config} {s : State} (h : Synced cfg s) (calls : List Call)
    (hc : ∀ c ∈ calls, c.Valid cfg) :
    Synced cfg (run .faultFree cfg calls s)
      ∧ (run .faultFree cfg calls s).cache = plain calls s.cache := by
  induction calls generalizing s with
  | nil => exact ⟨h, rfl⟩
  | cons c calls ih =>
    obtain ⟨h₁, h₂⟩ := exec_synced h (hc c List.mem_cons_self)
    obtain ⟨h₃, h₄⟩ := ih h₁ fun e he => hc e (List.mem_cons_of_mem _ he)
    rw [h₂] at h₄
    exact ⟨h₃, h₄⟩

theorem read_in_range {cfg : Config} {a n : Nat} (h : a+n ≤ cfg.logicalSize) (s : State) :
    wearLevelingRead cfg a n s = (.success, s.cache.read a n) := by
  have hl := cfg.logical_le
  rw [wearLevelingRead, Nat.mod_eq_of_lt (by omega), if_neg (by omega)]

/-- After every run, reads return the last byte written to each address, and a re-init of
the store as it is then rebuilds the same cache and the same write address. -/
theorem wearLeveling_refines_plain (cfg : Config) (calls : List Call)
    (hc : ∀ c ∈ calls, c.Valid cfg) :
    let s := run .faultFree cfg calls (boot .faultFree cfg)
    (∀ a n, a+n ≤ cfg.logicalSize →
      wearLevelingRead cfg a n s = (.success, (plain calls ByteMem.blank).read a n))
    ∧ (reinit .faultFree cfg s.flash).cache = s.cache
    ∧ (reinit .faultFree cfg s.flash).writeAddress = s.writeAddress := by
  obtain ⟨hb, hblank⟩ := boot_synced Sound.faultFree cfg
  obtain ⟨hs, hcache⟩ := run_synced hb calls hc
  rw [hblank] at hcache
  refine ⟨fun a n h => ?_, hs.reinit Sound.faultFree⟩
  rw [read_in_range h, hcache]

/-- The sizes of the two-byte test build. -/
def smallConfig : Config where
  writeSize := .two
  logicalSize := 16
  backingSize := 48
  fnv bs := fnv64aBuf bs fnv1a64Init
  logical_pos := by decide
  backing_ge := by decide
  logical_mod := by decide
  backing_mod := by decide
  logical_le := by decide
  room := by decide

theorem wearLeveling_refines_plain_small :
    wearLevelingRead smallConfig 4 2 (run .faultFree smallConfig
      [.write 0 [1,2,3], .erase, .write 4 [0x14,0x15], .init, .write 5 [0x16]]
      (boot .faultFree smallConfig)) = (.success, [0x14,0x16]) :=
  ((wearLeveling_refines_plain smallConfig
    [.write 0 [1,2,3], .erase, .write 4 [0x14,0x15], .init, .write 5 [0x16]] (by decide)).1 4 2
    (by decide)).trans (by decide)

end QmkFirmware.WearLeveling
