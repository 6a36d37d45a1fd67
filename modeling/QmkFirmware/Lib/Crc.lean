import Mathlib

/-!
Cyclic redundancy checks, a word of the width of the check at a time. What a check sees of a
change: the check is linear, a bit is a power of `x`, and a sum of few powers does not vanish.
-/

set_option autoImplicit false

namespace QmkFirmware.Crc

variable {w : Nat}

/-- Times `x`, modulo `x^w + p`. -/
def mulX (p c : BitVec w) : BitVec w := (c <<< 1) ^^^ if c.msb then p else 0#w

def remainder (p init : BitVec w) (data : List (BitVec w)) : BitVec w :=
  data.foldl (fun c d => (mulX p)^[w] (c ^^^ d)) init

variable {p : BitVec w}

theorem remainder_cons (c d : BitVec w) (data : List (BitVec w)) :
    remainder p c (d :: data) = remainder p ((mulX p)^[w] (c ^^^ d)) data := rfl

theorem mulX_xor (a b : BitVec w) : mulX p (a ^^^ b) = mulX p a ^^^ mulX p b := by
  unfold mulX
  rw [BitVec.shiftLeft_xor_distrib, BitVec.msb_xor]
  cases a.msb <;> cases b.msb
  · simp
  · simp [BitVec.xor_assoc]
  · simp only [Bool.xor_false, if_true, Bool.false_eq_true, if_false, BitVec.xor_zero]
    ac_rfl
  · simp only [Bool.xor_self, Bool.false_eq_true, if_false, if_true, BitVec.xor_zero]
    rw [show a <<< 1 ^^^ p ^^^ (b <<< 1 ^^^ p) = a <<< 1 ^^^ b <<< 1 ^^^ (p ^^^ p) by ac_rfl,
      BitVec.xor_self, BitVec.xor_zero]

@[simp] theorem mulX_zero : mulX p 0#w = 0#w := by simp [mulX]

theorem iterate_xor (n : Nat) (a b : BitVec w) :
    (mulX p)^[n] (a ^^^ b) = (mulX p)^[n] a ^^^ (mulX p)^[n] b := by
  induction n generalizing a b with
  | zero => rfl
  | succ n ih => simp only [Function.iterate_succ_apply, mulX_xor, ih]

@[simp] theorem iterate_zero (n : Nat) : (mulX p)^[n] 0#w = 0#w := Function.iterate_fixed mulX_zero n

theorem remainder_xor {a b : List (BitVec w)} (h : a.length = b.length) (i j : BitVec w) :
    remainder p (i ^^^ j) (List.zipWith (· ^^^ ·) a b) = remainder p i a ^^^ remainder p j b := by
  induction a generalizing b i j with
  | nil =>
    rw [List.length_nil] at h
    rw [List.length_eq_zero_iff.mp h.symm]
    rfl
  | cons d a ih =>
    cases b with
    | nil => contradiction
    | cons d' b =>
      have hmix : i ^^^ j ^^^ (d ^^^ d') = (i ^^^ d) ^^^ (j ^^^ d') := by ac_rfl
      have hrest := ih (Nat.succ.inj h) ((mulX p)^[w] (i ^^^ d)) ((mulX p)^[w] (j ^^^ d'))
      rw [← iterate_xor, ← hmix] at hrest
      exact hrest

theorem remainder_eq_iff {a b : List (BitVec w)} (h : a.length = b.length) (init : BitVec w) :
    remainder p init a = remainder p init b
      ↔ remainder p 0#w (List.zipWith (· ^^^ ·) a b) = 0#w := by
  have hxor := remainder_xor (p := p) h init init
  rw [BitVec.xor_self] at hxor
  exact BitVec.xor_eq_zero_iff.symm.trans (hxor ▸ Iff.rfl)

def xorSum (l : List (BitVec w)) : BitVec w := l.foldr (· ^^^ ·) 0#w

theorem xorSum_append (l m : List (BitVec w)) : xorSum (l ++ m) = xorSum l ^^^ xorSum m := by
  induction l with
  | nil => simp [xorSum]
  | cons a l ih =>
    calc a ^^^ xorSum (l ++ m) = a ^^^ (xorSum l ^^^ xorSum m) := by rw [ih]
      _ = xorSum (a :: l) ^^^ xorSum m := (BitVec.xor_assoc _ _ _).symm

theorem iterate_xorSum (n : Nat) (l : List (BitVec w)) :
    (mulX p)^[n] (xorSum l) = xorSum (l.map (mulX p)^[n]) := by
  induction l with
  | nil => exact iterate_zero n
  | cons a l ih =>
    rw [List.map_cons, xorSum, List.foldr_cons, ← xorSum, iterate_xor, ih]
    rfl

def setBits (d : BitVec w) : List Nat := (List.range w).filter fun j => d.getLsbD j

theorem mem_setBits {d : BitVec w} {j : Nat} : j ∈ setBits d ↔ j < w ∧ d.getLsbD j = true := by
  simp [setBits]

theorem getLsbD_xorSum {l : List Nat} (hl : l.Nodup) {i : Nat} (hi : i < w) :
    (xorSum (l.map (BitVec.twoPow w))).getLsbD i = decide (i ∈ l) := by
  induction l with
  | nil => simp [xorSum]
  | cons j l ih =>
    obtain ⟨hj,hl⟩ := List.nodup_cons.mp hl
    rw [List.map_cons, xorSum, List.foldr_cons, ← xorSum, BitVec.getLsbD_xor, ih hl,
      BitVec.getLsbD_twoPow]
    by_cases hij : j = i
    · subst hij
      simp [hi, hj]
    · simp [hij, Ne.symm hij]

theorem xorSum_setBits (d : BitVec w) : xorSum ((setBits d).map (BitVec.twoPow w)) = d := by
  refine BitVec.eq_of_getLsbD_eq fun i hi => ?_
  rw [getLsbD_xorSum (l := setBits d) (List.nodup_range.filter _) hi]
  simp [mem_setBits, hi]

theorem iterate_one {j : Nat} (hj : j < w) : (mulX p)^[j] 1 = BitVec.twoPow w j := by
  induction j with
  | zero => exact (BitVec.twoPow_zero).symm
  | succ j ih =>
    rw [Function.iterate_succ_apply', ih (by omega), mulX]
    have hmsb : (BitVec.twoPow w j).msb = false := by
      rw [BitVec.msb_eq_getLsbD_last, BitVec.getLsbD_twoPow]
      simp
      omega
    rw [hmsb]
    refine BitVec.eq_of_getLsbD_eq fun i hi => ?_
    simp only [Bool.false_eq_true, if_false, BitVec.xor_zero, BitVec.getLsbD_shiftLeft,
      BitVec.getLsbD_twoPow]
    cases i with
    | zero => simp
    | succ i => simp [hi, hj, show j < w by omega, eq_comm]

/-- The powers of the bits of some data, behind `w` more bits of the check. -/
def places : List (BitVec w) → List Nat
  | [] => []
  | d :: ds => (setBits d).map (w*(ds.length+1) + ·) ++ places ds

theorem remainder_init (c : BitVec w) (data : List (BitVec w)) :
    remainder p c data = (mulX p)^[w*data.length] c ^^^ remainder p 0#w data := by
  induction data generalizing c with
  | nil => exact (BitVec.xor_zero).symm
  | cons d data ih =>
    rw [remainder_cons, ih, remainder_cons 0#w, ih ((mulX p)^[w] (0#w ^^^ d)), BitVec.zero_xor,
      ← Function.iterate_add_apply, ← Function.iterate_add_apply, iterate_xor, List.length_cons,
      Nat.mul_succ, BitVec.xor_assoc]

theorem remainder_places (data : List (BitVec w)) :
    remainder p 0#w data = xorSum ((places data).map fun k => (mulX p)^[k] 1) := by
  induction data with
  | nil => rfl
  | cons d data ih =>
    have hbits : (setBits d).map (fun j => (mulX p)^[w*(data.length+1)+j] 1)
        = ((setBits d).map (BitVec.twoPow w)).map (mulX p)^[w*(data.length+1)] := by
      rw [List.map_map]
      refine List.map_congr_left fun j hj => ?_
      rw [Function.comp_apply, Function.iterate_add_apply, iterate_one (mem_setBits.mp hj).1]
    rw [remainder_cons, remainder_init, ih, BitVec.zero_xor, places,
      List.map_append, xorSum_append, List.map_map, ← Function.iterate_add_apply]
    congr 1
    rw [show ((fun k => (mulX p)^[k] (1 : BitVec w)) ∘ fun x => w*(data.length+1)+x)
      = fun j => (mulX p)^[w*(data.length+1)+j] 1 from rfl, hbits, ← iterate_xorSum,
      xorSum_setBits, Nat.mul_succ]

theorem places_bounds {data : List (BitVec w)} {k : Nat} (hk : k ∈ places data) :
    w ≤ k ∧ k < w*(data.length+1) := by
  induction data with
  | nil => contradiction
  | cons d data ih =>
    rcases List.mem_append.mp hk with hk | hk
    · obtain ⟨j,hj,rfl⟩ := List.mem_map.mp hk
      have hjw := (mem_setBits.mp hj).1
      simp only [List.length_cons, Nat.mul_succ]
      omega
    · have := ih hk
      simp only [List.length_cons, Nat.mul_succ] at this ⊢
      omega

theorem places_nodup (data : List (BitVec w)) : (places data).Nodup := by
  induction data with
  | nil => exact .nil
  | cons d data ih =>
    refine List.nodup_append'.mpr ⟨(List.nodup_range.filter _).map (add_right_injective _),ih,?_⟩
    intro k hk hk'
    obtain ⟨j,-,rfl⟩ := List.mem_map.mp hk
    have := (places_bounds hk').2
    omega

def weight (d : BitVec w) : Nat := (setBits d).length

def distance (a b : List (BitVec w)) : Nat := ((List.zipWith (· ^^^ ·) a b).map weight).sum

theorem length_places (data : List (BitVec w)) : (places data).length = (data.map weight).sum := by
  induction data with
  | nil => rfl
  | cons d data ih => simp [places, weight, ih]

theorem weight_eq_zero {d : BitVec w} : weight d = 0 ↔ d = 0#w := by
  constructor
  · intro h
    rw [← xorSum_setBits d, List.length_eq_zero_iff.mp h]
    rfl
  · rintro rfl
    simp [weight, setBits]

theorem distance_eq_zero {a b : List (BitVec w)} (h : a.length = b.length) :
    distance a b = 0 ↔ a = b := by
  induction a generalizing b with
  | nil => simp [distance, List.length_eq_zero_iff.mp h.symm]
  | cons d a ih =>
    cases b with
    | nil => contradiction
    | cons d' b =>
      have hrest := ih (Nat.succ.inj h)
      simp only [distance] at hrest
      simp only [distance, List.zipWith_cons_cons, List.map_cons, List.sum_cons,
        Nat.add_eq_zero_iff, weight_eq_zero, BitVec.xor_eq_zero_iff, hrest, List.cons.injEq]

def parity (c : BitVec w) : ZMod 2 := ∑ i : Fin w, if c.getLsbD i then 1 else 0

theorem parity_xor (a b : BitVec w) : parity (a ^^^ b) = parity a + parity b := by
  unfold parity
  rw [← Finset.sum_add_distrib]
  refine Finset.sum_congr rfl fun i _ => ?_
  rw [BitVec.getLsbD_xor]
  cases a.getLsbD i <;> cases b.getLsbD i <;> decide

theorem parity_shiftLeft (c : BitVec w) :
    parity (c <<< 1) = parity c + if c.msb then 1 else 0 := by
  cases w with
  | zero => simp [parity, BitVec.msb]
  | succ n =>
    have hdouble : ∀ x : ZMod 2, x+x = 0 := by decide
    rw [parity, Fin.sum_univ_succ, parity, Fin.sum_univ_castSucc, BitVec.msb_eq_getLsbD_last,
      add_assoc]
    simp [hdouble]

theorem parity_mulX (hp : parity p = 1) (c : BitVec w) : parity (mulX p c) = parity c := by
  have hdouble : ∀ x : ZMod 2, x+1+1 = x := by decide
  rw [mulX, parity_xor, parity_shiftLeft]
  cases c.msb with
  | true => rw [if_pos rfl, if_pos rfl, hp, hdouble]
  | false => simp [parity]

theorem parity_iterate (hp : parity p = 1) (n : Nat) (c : BitVec w) :
    parity ((mulX p)^[n] c) = parity c := by
  induction n generalizing c with
  | zero => rfl
  | succ n ih => rw [Function.iterate_succ_apply, ih, parity_mulX hp]

theorem parity_one (hw : 0 < w) : parity (1 : BitVec w) = 1 := by
  obtain ⟨n,rfl⟩ : ∃ n, w = n+1 := ⟨w-1,by omega⟩
  rw [parity, Fin.sum_univ_succ]
  simp

theorem parity_places (hw : 0 < w) (hp : parity p = 1) (l : List Nat) :
    parity (xorSum (l.map fun k => (mulX p)^[k] 1)) = l.length := by
  induction l with
  | nil => simp [xorSum, parity]
  | cons k l ih =>
    rw [List.map_cons, xorSum, List.foldr_cons, ← xorSum, parity_xor, ih, parity_iterate hp,
      parity_one hw, List.length_cons, Nat.cast_succ, add_comm]

theorem even_of_unseen (hw : 0 < w) (hp : parity p = 1) {data : List (BitVec w)}
    (h : remainder p 0#w data = 0#w) : Even (places data).length := by
  rw [remainder_places] at h
  have hparity := parity_places hw hp (places data)
  rw [h] at hparity
  exact (ZMod.natCast_eq_zero_iff_even).mp (hparity.symm.trans (by simp [parity]))

theorem mulX_eq_zero (hp : p.getLsbD 0 = true) {c : BitVec w} (h : mulX p c = 0#w) : c = 0#w := by
  have hmsb : c.msb = false := by
    have hbit := congrArg (fun c => c.getLsbD 0) h
    cases hc : c.msb with
    | false => rfl
    | true => simp [mulX, hc, hp] at hbit
  rw [mulX, hmsb, if_neg Bool.false_ne_true, BitVec.xor_zero] at h
  refine BitVec.eq_of_getLsbD_eq fun i hi => ?_
  by_cases hlast : i+1 = w
  · rw [BitVec.msb_eq_getLsbD_last, show w-1 = i by omega] at hmsb
    simpa using hmsb
  · have hbit := congrArg (fun c => c.getLsbD (i+1)) h
    rw [BitVec.getLsbD_eq_getElem hi]
    simpa [show i+1 < w by omega] using hbit

theorem iterate_injective (hp : p.getLsbD 0 = true) (n : Nat) :
    Function.Injective (mulX p)^[n] := by
  refine Function.Injective.iterate (fun a b h => ?_) n
  have hzero := mulX_eq_zero (c := a ^^^ b) hp (by rw [mulX_xor, h, BitVec.xor_self])
  exact BitVec.xor_eq_zero_iff.mp hzero

/-- `x` has at least this order. -/
def OrderAtLeast (p : BitVec w) (n : Nat) : Prop := ∀ k, 0 < k → k < n → (mulX p)^[k] 1 ≠ 1

theorem powers_differ (hp : p.getLsbD 0 = true) {n : Nat} (horder : OrderAtLeast p n) {j k : Nat}
    (hjk : j < k) (hk : k < j+n) : (mulX p)^[j] 1 ≠ (mulX p)^[k] 1 := by
  intro h
  rw [show k = j+(k-j) by omega, Function.iterate_add_apply] at h
  exact horder (k-j) (by omega) (by omega) (iterate_injective hp j h).symm

/-- What a check with a factor of `x+1` does not see: of data shorter than the order of `x`, an
even number of bits, and no less than four. -/
theorem unseen (hw : 0 < w) (hp : p.getLsbD 0 = true) (hparity : parity p = 1) {n : Nat}
    (horder : OrderAtLeast p n) {init : BitVec w} {a b : List (BitVec w)}
    (hlen : a.length = b.length) (hn : w*a.length ≤ n)
    (h : remainder p init a = remainder p init b) :
    Even (distance a b) ∧ (a = b ∨ 4 ≤ distance a b) := by
  rw [remainder_eq_iff hlen] at h
  have hlength : (List.zipWith (· ^^^ ·) a b).length = a.length := by simp [← hlen]
  have heven := even_of_unseen hw hparity h
  rw [length_places] at heven
  have htwo : distance a b ≠ 2 := by
    intro htwo
    rw [distance, ← length_places, List.length_eq_two] at htwo
    obtain ⟨j,k,hjk⟩ := htwo
    have hmem : ∀ i ∈ [j,k], w ≤ i ∧ i < w*(a.length+1) := fun i hi =>
      hlength ▸ places_bounds (hjk ▸ hi)
    have hj := hmem j (by simp)
    have hk := hmem k (by simp)
    have hne : j ≠ k := by
      have := hjk ▸ places_nodup (List.zipWith (· ^^^ ·) a b)
      simpa using this
    have hsum := remainder_places (p := p) (List.zipWith (· ^^^ ·) a b)
    rw [h, hjk] at hsum
    have hsame : (mulX p)^[j] 1 = (mulX p)^[k] 1 :=
      BitVec.xor_eq_zero_iff.mp (by simpa [xorSum] using hsum.symm)
    rw [Nat.mul_succ] at hj hk
    rcases Nat.lt_or_gt_of_ne hne with hlt | hlt
    · exact powers_differ hp horder hlt (by omega) hsame
    · exact powers_differ hp horder hlt (by omega) hsame.symm
  refine ⟨heven,?_⟩
  by_cases hzero : distance a b = 0
  · exact .inl ((distance_eq_zero hlen).mp hzero)
  · obtain ⟨m,hm⟩ := heven
    exact .inr (by unfold distance at hzero htwo ⊢; omega)

end QmkFirmware.Crc
