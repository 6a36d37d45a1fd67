import QmkFirmware.WearLeveling.Core

/-!
The range check of `wear_leveling_read` and `wear_leveling_write`, whose sum is one of 32 bits.
-/

set_option autoImplicit false

namespace QmkFirmware.WearLeveling

variable (d : Driver) (cfg : Config)

theorem unlock_cache (s : State) : (wearLevelingUnlock d s).2.cache = s.cache := by
  unfold wearLevelingUnlock
  split
  · rfl
  · dsimp only
    split <;> rfl

theorem lock_cache (s : State) : (wearLevelingLock d s).2.cache = s.cache := by
  unfold wearLevelingLock
  split
  · rfl
  · dsimp only
    split <;> rfl

theorem writeConsolidated_cache (s : State) :
    (wearLevelingWriteConsolidated d cfg s).2.cache = s.cache := by
  unfold wearLevelingWriteConsolidated
  dsimp only
  split
  · rw [lock_cache]
    split <;> exact unlock_cache d s
  · split <;> exact unlock_cache d s

theorem consolidateIfNeeded_cache (s : State) :
    (wearLevelingConsolidateIfNeeded d cfg s).2.cache = s.cache := by
  unfold wearLevelingConsolidateIfNeeded wearLevelingConsolidateForce
  split
  · dsimp only
    split
    · rfl
    · exact writeConsolidated_cache ..
  · rfl

theorem appendRaw_cache (w : Word) (s : State) :
    (wearLevelingAppendRaw d cfg w s).2.cache = s.cache := by
  unfold wearLevelingAppendRaw
  dsimp only
  split
  · rfl
  · exact consolidateIfNeeded_cache ..

theorem appendWords_cache (ws : List Word) (s : State) :
    (appendWords d cfg ws s).2.cache = s.cache := by
  induction ws generalizing s with
  | nil => rfl
  | cons w ws ih =>
    unfold appendWords
    dsimp only
    split
    · exact appendRaw_cache ..
    · rw [ih, appendRaw_cache]

theorem writeRawLoop_cache (fuel address : Nat) (p : List UInt8) (s : State) :
    (writeRawLoop d cfg fuel address p s).2.cache = s.cache := by
  induction fuel generalizing address p s with
  | zero => rfl
  | succ fuel ih =>
    unfold writeRawLoop
    dsimp only
    split_ifs <;>
      simp only [ih, appendRaw_cache, wearLevelingWriteRawMultibyte, appendWords_cache]

theorem ifNeeded_cache (r : Status × State) :
    (if r.1 = .success then wearLevelingConsolidateIfNeeded d cfg r.2 else r).2.cache
      = r.2.cache := by
  split
  · exact consolidateIfNeeded_cache ..
  · rfl

theorem relock_cache (u : LockStatus) (w : Status × State) :
    (if u = .success then
      (if (wearLevelingLock d w.2).1 = .failure then Status.failed else w.1,
        (wearLevelingLock d w.2).2)
    else w).2.cache = w.2.cache := by
  split
  · exact lock_cache ..
  · rfl

theorem write_cache {address : Nat} {value : List UInt8} {s : State}
    (h : (address+value.length) % 2^32 ≤ cfg.logicalSize) :
    (wearLevelingWrite d cfg address value s).2.cache = s.cache.write address value := by
  rw [wearLevelingWrite, if_neg (Nat.not_lt.mpr h)]
  by_cases hsame : s.cache.read address value.length = value
  · rw [if_pos hsame]
    conv_rhs => rw [← hsame, ByteMem.write_read]
  · rw [if_neg hsame]
    dsimp only
    split
    · rw [lock_cache, unlock_cache]
    · rw [relock_cache, ifNeeded_cache, wearLevelingWriteRaw, writeRawLoop_cache, unlock_cache]

theorem write_passes {address : Nat} {value : List UInt8} {s : State}
    (h : (address+value.length) % 2^32 ≤ cfg.logicalSize) :
    wearLevelingWrite d cfg address value s ≠ (.failed,s) := by
  intro heq
  have hcache := write_cache d cfg (s := s) h
  rw [heq] at hcache
  have hsame : s.cache.read address value.length = value := by
    rw [show s.cache = s.cache.write address value from hcache, ByteMem.read_write_same]
  rw [wearLevelingWrite, if_neg (Nat.not_lt.mpr h), if_pos hsame] at heq
  cases heq

/-- Inside the logical size, without the sum. -/
def Config.InRange (address length : Nat) : Prop :=
  address ≤ cfg.logicalSize ∧ length ≤ cfg.logicalSize-address

/-- The sum does not wrap around to a size that the check lets pass. -/
def Config.SumSeen (address length : Nat) : Prop :=
  address+length < 2^32 ∨ cfg.logicalSize < address+length-2^32

theorem check_iff (address length : UInt32) :
    (¬ cfg.InRange address.toNat length.toNat →
      cfg.logicalSize < (address.toNat+length.toNat) % 2^32)
      ↔ cfg.SumSeen address.toNat length.toNat := by
  have hlog := cfg.logical_le
  have ha := address.toNat_lt
  have hl := length.toNat_lt
  unfold Config.InRange Config.SumSeen
  constructor
  · intro h
    by_cases hin : address.toNat ≤ cfg.logicalSize ∧ length.toNat ≤ cfg.logicalSize-address.toNat
    · omega
    · have := h hin
      omega
  · intro h hout
    omega

/-- `wear_leveling_read` is refused whenever it is out of range. -/
def ReadRefuses (address length : UInt32) (s : State) : Prop :=
  ¬ cfg.InRange address.toNat length.toNat →
    wearLevelingRead cfg address.toNat length.toNat s = (.failed,[])

/-- `wear_leveling_write` is refused whenever it is out of range; `value` is the memory at the
pointer. -/
def WriteRefuses (address length : UInt32) (value : ByteMem) (s : State) : Prop :=
  ¬ cfg.InRange address.toNat length.toNat →
    wearLevelingWrite d cfg address.toNat (value.read 0 length.toNat) s = (.failed,s)

theorem readRefuses_iff (address length : UInt32) (s : State) :
    ReadRefuses cfg address length s ↔ cfg.SumSeen address.toNat length.toNat := by
  refine Iff.trans (forall_congr' fun _ => ?_) (check_iff cfg address length)
  by_cases h : cfg.logicalSize < (address.toNat+length.toNat) % 2^32
  · refine iff_of_true ?_ h
    rw [wearLevelingRead, if_pos h]
  · refine iff_of_false (fun heq => ?_) h
    rw [wearLevelingRead, if_neg h] at heq
    cases heq

theorem writeRefuses_iff (address length : UInt32) (value : ByteMem) (s : State) :
    WriteRefuses d cfg address length value s ↔ cfg.SumSeen address.toNat length.toNat := by
  refine Iff.trans (forall_congr' fun _ => ?_) (check_iff cfg address length)
  have hlen : (value.read 0 length.toNat).length = length.toNat := ByteMem.length_read ..
  by_cases h : cfg.logicalSize < (address.toNat+length.toNat) % 2^32
  · refine iff_of_true ?_ h
    rw [wearLevelingWrite, hlen, if_pos h]
  · refine iff_of_false (write_passes d cfg ?_) h
    rw [hlen]
    exact Nat.le_of_not_lt h

end QmkFirmware.WearLeveling
