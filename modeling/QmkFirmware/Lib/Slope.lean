import Mathlib.Data.Int.GCD
import Mathlib.Tactic.LinearCombination
import Mathlib.Tactic.Zify
import Mathlib.Tactic.Ring

/-!
Whole numbers close to the multiples of a slope `b/a`.
-/

set_option autoImplicit false

namespace QmkFirmware

/-- The whole number nearest to the n-th multiple of `b/a`, the greater one of two. -/
def rise (a b n : Nat) : Nat := (2*(b*n)+a)/(2*a)

/-- How far it is above, `a` times. -/
def excess (a b n : Nat) : Int := a*rise a b n-b*n

/-- The greatest of all `a-b+excess a b n`. -/
def peak (a b : Nat) : Nat := a-b+Nat.gcd a b*(a/(2*Nat.gcd a b))

section

variable {a b n : Nat} (ha : 0 < a)

include ha

theorem excess_bounds : -(a:Int) < 2*excess a b n ∧ 2*excess a b n ≤ a := by
  have hdiv := Nat.div_add_mod (2*(b*n)+a) (2*a)
  have hmod := Nat.mod_lt (2*(b*n)+a) (by omega : 0 < 2*a)
  rw [excess, rise]
  generalize (2*(b*n)+a)/(2*a) = q at hdiv ⊢
  generalize (2*(b*n)+a)%(2*a) = r at hdiv hmod
  rw [Nat.mul_assoc] at hdiv
  zify at hdiv hmod
  omega

theorem rise_unique {m : Nat} (hlo : -(a:Int) < 2*(a*m-b*n)) (hhi : 2*((a:Int)*m-b*n) ≤ a) :
    rise a b n = m := by
  have hlo : 2*(b*n) < 2*(a*m)+a := by zify; omega
  have hhi : 2*(a*m) ≤ 2*(b*n)+a := by zify; omega
  rw [rise, Nat.div_eq_iff (by omega : 0 < 2*a)]
  constructor
  · calc m*(2*a) = 2*(a*m) := by ring
      _ ≤ 2*(b*n)+a := hhi
  · have he : m*(2*a) = 2*(a*m) := by ring
    omega

theorem rise_zero : rise a b 0 = 0 := by
  rw [rise, Nat.mul_zero, Nat.mul_zero, Nat.zero_add]
  exact Nat.div_eq_of_lt (by omega)

theorem rise_end : rise a b a = b :=
  rise_unique ha (by rw [Int.mul_comm (a:Int) b, Int.sub_self]; omega)
    (by rw [Int.mul_comm (a:Int) b, Int.sub_self]; omega)

theorem rise_le (hn : n ≤ a) : rise a b n ≤ b := by
  have hle := Nat.mul_le_mul_left b hn
  calc rise a b n ≤ rise a b a := Nat.div_le_div_right (by omega)
    _ = b := rise_end ha

theorem excess_succ_of_le (h : 2*((a:Int)-b+excess a b n) ≤ a) (hb : b ≤ a) :
    rise a b (n+1) = rise a b n+1 ∧ excess a b (n+1) = excess a b n+a-b := by
  obtain ⟨hlo,-⟩ := @excess_bounds a b n ha
  have he : (a:Int)*(rise a b n+1:Nat)-b*(n+1:Nat) = excess a b n+a-b := by
    rw [excess]
    push_cast
    ring
  have hrise : rise a b (n+1) = rise a b n+1 :=
    rise_unique ha (by rw [he]; omega) (by rw [he]; omega)
  refine ⟨hrise,?_⟩
  rw [← he, ← hrise, excess]

theorem excess_succ_of_lt (h : (a:Int) < 2*((a:Int)-b+excess a b n)) :
    rise a b (n+1) = rise a b n ∧ excess a b (n+1) = excess a b n-b := by
  obtain ⟨-,hhi⟩ := @excess_bounds a b n ha
  have he : (a:Int)*(rise a b n:Nat)-b*(n+1:Nat) = excess a b n-b := by
    rw [excess]
    push_cast
    ring
  have hrise : rise a b (n+1) = rise a b n :=
    rise_unique ha (by rw [he]; omega) (by rw [he]; omega)
  refine ⟨hrise,?_⟩
  rw [← he, ← hrise, excess]

end

theorem gcd_dvd_excess {a b n : Nat} : (Nat.gcd a b:Int) ∣ excess a b n := by
  rw [excess]
  exact Int.dvd_sub (Dvd.dvd.mul_right (Int.natCast_dvd_natCast.mpr (Nat.gcd_dvd_left a b)) _)
    (Dvd.dvd.mul_right (Int.natCast_dvd_natCast.mpr (Nat.gcd_dvd_right a b)) _)

theorem peak_eq {a b : Nat} (hb : b ≤ a) :
    (peak a b:Int) = a-b+Nat.gcd a b*(a/(2*Nat.gcd a b):Nat) := by
  rw [peak, Nat.cast_add, Nat.cast_sub hb, Nat.cast_mul]

theorem le_peak {a b n : Nat} (ha : 0 < a) (hb : b ≤ a) :
    (a:Int)-b+excess a b n ≤ peak a b := by
  have hg := Nat.gcd_pos_of_pos_left b ha
  obtain ⟨m,hm⟩ := @gcd_dvd_excess a b n
  obtain ⟨-,hhi⟩ := @excess_bounds a b n ha
  have hle : m ≤ ((a/(2*Nat.gcd a b):Nat):Int) := by
    rw [Int.natCast_ediv, Int.le_ediv_iff_mul_le (by omega), Nat.cast_mul]
    calc m*((2:Nat)*Nat.gcd a b) = 2*(Nat.gcd a b*m) := by push_cast; ring
      _ ≤ a := by rw [← hm]; exact hhi
  rw [peak_eq hb, hm]
  have hmul := Int.mul_le_mul_of_nonneg_left hle (Int.natCast_nonneg (Nat.gcd a b))
  omega

theorem peak_attained {a b : Nat} (ha : 0 < a) (hb : b ≤ a) :
    ∃ n < a, (a:Int)-b+excess a b n = peak a b := by
  have hbez := Nat.gcd_eq_gcd_ab a b
  generalize Nat.gcdA a b = u at hbez
  generalize Nat.gcdB a b = v at hbez
  have hfit : 2*(Nat.gcd a b*(a/(2*Nat.gcd a b))) ≤ a := by
    rw [← Nat.mul_assoc]
    exact Nat.mul_div_le _ _
  rw [peak_eq hb]
  generalize a/(2*Nat.gcd a b) = m at hfit ⊢
  have hdiv := Int.mul_ediv_add_emod (-((m:Int)*v)) a
  have hlt := Int.emod_lt_of_pos (-((m:Int)*v)) (by omega : (0:Int) < a)
  have hnonneg := Int.emod_nonneg (-((m:Int)*v)) (by omega : (a:Int) ≠ 0)
  generalize (-((m:Int)*v))/a = q at hdiv
  generalize (-((m:Int)*v))%a = k at hdiv hlt hnonneg
  obtain ⟨n,rfl⟩ := Int.eq_ofNat_of_zero_le hnonneg
  have hexcess : (a:Int)*(m*u-b*q)-b*n = Nat.gcd a b*m := by
    rw [hbez]
    linear_combination (-(b:Int))*hdiv
  have hpos : (0:Int) ≤ (Nat.gcd a b*m:Nat) := Int.natCast_nonneg _
  have hpos' : (0:Int) ≤ (b*n:Nat) := Int.natCast_nonneg _
  push_cast at hpos hpos'
  have hy : 0 ≤ (m:Int)*u-b*q :=
    nonneg_of_mul_nonneg_right (by omega : 0 ≤ (a:Int)*((m:Int)*u-b*q)) (by omega)
  generalize (m:Int)*u-b*q = y at hexcess hy
  obtain ⟨r,rfl⟩ := Int.eq_ofNat_of_zero_le hy
  zify at hfit
  have hrise : rise a b n = r := rise_unique ha (by rw [hexcess]; omega) (by rw [hexcess]; omega)
  refine ⟨n,by omega,?_⟩
  rw [excess, hrise, hexcess]

end QmkFirmware
