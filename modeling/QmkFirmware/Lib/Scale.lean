import Mathlib.Algebra.Order.Ring.Int
import Mathlib.Algebra.Ring.Int.Defs

/-!
`int` arithmetic with 32 bits, and maps that scale a distance by a quotient and clamp the result.
-/

set_option autoImplicit false

namespace QmkFirmware

def int32 (n : Int) : Option Int := if -2147483648 ≤ n ∧ n ≤ 2147483647 then some n else none

def int32.sub (a b : Int) : Option Int := int32 (a-b)

def int32.mul (a b : Int) : Option Int := int32 (a*b)

/-- The division is C's, towards zero. -/
def int32.div (a b : Int) : Option Int := if b = 0 then none else int32 (Int.tdiv a b)

theorem int32_some {n : Int} (hlo : -2147483648 ≤ n) (hhi : n ≤ 2147483647) : int32 n = some n :=
  if_pos ⟨hlo,hhi⟩

theorem int32.div_some {a b : Int} (hb : b ≠ 0) (hlo : -2147483648 < a) (hhi : a ≤ 2147483647) :
    int32.div a b = some (Int.tdiv a b) := by
  have hle : (Int.tdiv a b).natAbs ≤ a.natAbs := by
    rw [Int.natAbs_tdiv]
    exact Nat.div_le_self a.natAbs b.natAbs
  rw [int32.div, if_neg hb]
  exact int32_some (by omega) (by omega)

section
variable {d a b q : Int}

theorem tdiv_mono (hd : 0 < d) (h : a ≤ b) : Int.tdiv a d ≤ Int.tdiv b d := by
  rcases Int.le_total 0 a with ha | ha
  · rw [Int.tdiv_eq_ediv_of_nonneg ha, Int.tdiv_eq_ediv_of_nonneg (Int.le_trans ha h)]
    exact Int.ediv_le_ediv hd h
  · rcases Int.le_total 0 b with hb | hb
    · have hna := Int.tdiv_nonneg (Int.neg_nonneg_of_nonpos ha) (Int.le_of_lt hd)
      have hnb := Int.tdiv_nonneg hb (Int.le_of_lt hd)
      rw [Int.neg_tdiv] at hna
      omega
    · have hn : Int.tdiv (-b) d ≤ Int.tdiv (-a) d := by
        rw [Int.tdiv_eq_ediv_of_nonneg (Int.neg_nonneg_of_nonpos hb),
          Int.tdiv_eq_ediv_of_nonneg (Int.neg_nonneg_of_nonpos ha)]
        exact Int.ediv_le_ediv hd (Int.neg_le_neg h)
      rw [Int.neg_tdiv, Int.neg_tdiv] at hn
      exact Int.le_of_neg_le_neg hn

theorem le_tdiv (hd : 0 < d) (h : q*d ≤ a) : q ≤ Int.tdiv a d := by
  have hm := tdiv_mono hd h
  rwa [Int.mul_tdiv_cancel q (Int.ne_of_gt hd)] at hm

theorem tdiv_le (hd : 0 < d) (h : a ≤ q*d) : Int.tdiv a d ≤ q := by
  have hm := tdiv_mono hd h
  rwa [Int.mul_tdiv_cancel q (Int.ne_of_gt hd)] at hm

theorem tdiv_pos_iff (hd : 0 < d) : 0 < Int.tdiv a d ↔ d ≤ a := by
  constructor
  · intro h
    by_contra hlt
    rcases Int.le_total 0 a with ha | ha
    · rw [Int.tdiv_eq_zero_of_lt ha (Int.not_le.mp hlt)] at h
      exact absurd h (Int.lt_irrefl 0)
    · have hle : Int.tdiv a d ≤ 0 := tdiv_le hd (by rwa [Int.zero_mul])
      exact absurd h (Int.not_lt.mpr hle)
  · intro h
    exact le_tdiv hd (by rwa [Int.zero_add, Int.one_mul])

end

section
variable {lo hi a b : Int}

def clamp (lo hi a : Int) : Int :=
  let a := if a < lo then lo else a
  if hi < a then hi else a

theorem le_clamp (h : lo ≤ hi) (a : Int) : lo ≤ clamp lo hi a := by
  unfold clamp
  dsimp only
  split_ifs <;> omega

theorem clamp_le (lo : Int) (hi a : Int) : clamp lo hi a ≤ hi := by
  unfold clamp
  dsimp only
  split_ifs <;> omega

theorem clamp_mono (lo hi : Int) (h : a ≤ b) : clamp lo hi a ≤ clamp lo hi b := by
  unfold clamp
  dsimp only
  split_ifs <;> omega

theorem clamp_eq_lo (h : lo ≤ hi) (ha : a ≤ lo) : clamp lo hi a = lo := by
  unfold clamp
  dsimp only
  split_ifs <;> omega

theorem clamp_eq_hi (ha : hi ≤ a) : clamp lo hi a = hi := by
  unfold clamp
  dsimp only
  split_ifs <;> omega

theorem clamp_eq_self (hlo : lo ≤ a) (hhi : a ≤ hi) : clamp lo hi a = a := by
  unfold clamp
  dsimp only
  split_ifs <;> omega

end

end QmkFirmware
