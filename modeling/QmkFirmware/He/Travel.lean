import QmkFirmware.He.Scan
import QmkFirmware.Lib.Scale

/-!
The travel of a sensor as a function of its raw value.
-/

set_option autoImplicit false

namespace QmkFirmware.He

/-- `he_raw_to_travel` with every operation of type `int` checked. -/
def heRawToTravelChecked (c : KeyConfig) (raw : UInt16) : Option UInt8 := do
  let span : UInt16 ← (if c.rawMin < c.rawMax then
      (int32.sub c.rawMax.toNat c.rawMin.toNat).map fun n => UInt16.ofNat n.toNat
    else some 1)
  let rise ← int32.sub raw.toNat c.rawMin.toNat
  let scaled ← int32.mul rise 100
  let pct ← int32.div scaled span.toNat
  let pct := if pct < 0 then 0 else pct
  let pct := if 100 < pct then 100 else pct
  some (UInt8.ofNat pct.toNat)

def travelSpan (c : KeyConfig) : UInt16 := if c.rawMin < c.rawMax then c.rawMax-c.rawMin else 1

def travelPercent (c : KeyConfig) (raw : UInt16) : Int :=
  clamp 0 100 (Int.tdiv (((raw.toNat : Int)-c.rawMin.toNat)*100) (travelSpan c).toNat)

variable (c : KeyConfig)

theorem travelSpan_toNat :
    (travelSpan c).toNat = max c.rawMax.toNat (c.rawMin.toNat+1)-c.rawMin.toNat := by
  unfold travelSpan
  split_ifs with h
  · have hlt := UInt16.lt_iff_toNat_lt.mp h
    rw [UInt16.toNat_sub_of_le _ _ (UInt16.le_iff_toNat_le.mpr (Nat.le_of_lt hlt)),
      Nat.max_eq_left hlt]
  · have hle := mt UInt16.lt_iff_toNat_lt.mpr h
    rw [Nat.max_eq_right (by omega), Nat.add_sub_cancel_left]
    rfl

theorem travelSpan_pos : (0:Int) < (travelSpan c).toNat := by
  rw [travelSpan_toNat]
  omega

theorem travelPercent_le (raw : UInt16) : travelPercent c raw ≤ 100 := clamp_le 0 100 _

theorem heRawToTravel_toNat (raw : UInt16) :
    (heRawToTravel c raw).toNat = (travelPercent c raw).toNat := by
  have hle := travelPercent_le c raw
  have hr : heRawToTravel c raw = UInt8.ofNat (travelPercent c raw).toNat := rfl
  rw [hr, UInt8.toNat_ofNat_of_lt' (by show _ < 256; omega)]

theorem travelSpan_checked :
    (if c.rawMin < c.rawMax then
        (int32.sub c.rawMax.toNat c.rawMin.toNat).map fun n => UInt16.ofNat n.toNat
      else some 1) = some (travelSpan c) := by
  have hmin := c.rawMin.toNat_lt
  have hmax := c.rawMax.toNat_lt
  unfold travelSpan
  split_ifs with h
  · have hle := UInt16.le_iff_toNat_le.mpr (Nat.le_of_lt (UInt16.lt_iff_toNat_lt.mp h))
    have hn : ((c.rawMax.toNat : Int)-c.rawMin.toNat).toNat = (c.rawMax-c.rawMin).toNat := by
      rw [UInt16.toNat_sub_of_le _ _ hle]
      omega
    rw [int32.sub, int32_some (by omega) (by omega), Option.map_some, hn, UInt16.ofNat_toNat]
  · rfl

theorem heRawToTravel_checked (raw : UInt16) :
    heRawToTravelChecked c raw = some (heRawToTravel c raw) := by
  have hraw := raw.toNat_lt
  have hmin := c.rawMin.toNat_lt
  have hne := Int.ne_of_gt (travelSpan_pos c)
  unfold heRawToTravelChecked
  rw [travelSpan_checked]
  simp only [Option.bind_eq_bind, Option.bind_some]
  rw [int32.sub, int32_some (by omega) (by omega), Option.bind_some,
    int32.mul, int32_some (by omega) (by omega), Option.bind_some,
    int32.div_some hne (by omega) (by omega)]
  rfl

theorem travelPercent_mono {raw raw' : UInt16} (h : raw ≤ raw') :
    travelPercent c raw ≤ travelPercent c raw' := by
  have hle := UInt16.le_iff_toNat_le.mp h
  exact clamp_mono 0 100 (tdiv_mono (travelSpan_pos c) (by omega))

theorem travelPercent_low {raw : UInt16} (h : raw ≤ c.rawMin) : travelPercent c raw = 0 := by
  have hle := UInt16.le_iff_toNat_le.mp h
  exact clamp_eq_lo (by decide) (tdiv_le (travelSpan_pos c) (by omega))

theorem travelPercent_high {raw : UInt16}
    (h : max c.rawMax.toNat (c.rawMin.toNat+1) ≤ raw.toNat) : travelPercent c raw = 100 := by
  have hspan := travelSpan_toNat c
  exact clamp_eq_hi (le_tdiv (travelSpan_pos c) (by omega))

/-- The travel is a clamped monotone map of the raw value, and computing it neither overflows nor
divides by zero, whatever the range is. -/
theorem heRawToTravel_clamped_monotone :
    (∀ raw, heRawToTravelChecked c raw = some (heRawToTravel c raw)) ∧
      (∀ raw, heRawToTravel c raw ≤ 100) ∧
      (∀ raw raw', raw ≤ raw' → heRawToTravel c raw ≤ heRawToTravel c raw') ∧
      (∀ raw, raw ≤ c.rawMin → heRawToTravel c raw = 0) ∧
      ∀ raw, max c.rawMax.toNat (c.rawMin.toNat+1) ≤ raw.toNat → heRawToTravel c raw = 100 := by
  refine ⟨heRawToTravel_checked c,fun raw => ?_,fun raw raw' h => ?_,fun raw h => ?_,
    fun raw h => ?_⟩
  · have hle := travelPercent_le c raw
    rw [UInt8.le_iff_toNat_le, heRawToTravel_toNat]
    show _ ≤ 100
    omega
  · have hle := travelPercent_mono c h
    rw [UInt8.le_iff_toNat_le, heRawToTravel_toNat, heRawToTravel_toNat]
    exact Int.toNat_le_toNat hle
  · rw [← UInt8.toNat_inj, heRawToTravel_toNat, travelPercent_low c h]
    rfl
  · rw [← UInt8.toNat_inj, heRawToTravel_toNat, travelPercent_high c h]
    rfl

end QmkFirmware.He
