import QmkFirmware.Painter.Circle
import QmkFirmware.Painter.Rect
import Mathlib.Algebra.Order.Ring.Int

/-!
Ellipses. A quarter of an ellipse is walked from both of its ends, with a decision variable in 32
bits, and every offset is painted in all four quarters.
-/

set_option autoImplicit false

namespace QmkFirmware.Drawing

variable {κ : Type} (d : Driver κ)

def ellipseHelperImpl (centerx centery offsetx offsety : UInt16) (filled : Bool) : Draw κ :=
  let xpx := plus centerx offsetx
  let xmx := minus centerx offsetx
  let ypy := plus centery offsety
  let ymy := minus centery offsety
  if offsetx = 0 then
    drawAll [setpixelImpl d xpx ypy,setpixelImpl d xpx ymy]
  else if filled then
    drawAll (fillrectHelperImpl d xpx ypy xmx ypy ::
      if offsety > 0 then [fillrectHelperImpl d xpx ymy xmx ymy] else [])
  else
    drawAll [setpixelImpl d xpx ypy,setpixelImpl d xpx ymy,setpixelImpl d xmx ypy,
      setpixelImpl d xmx ymy]

def int32 (v : Int) : Int := v.bmod 4294967296

def Fits32 (v : Int) : Prop := -2147483648 ≤ v ∧ v < 2147483648

instance (v : Int) : Decidable (Fits32 v) :=
  inferInstanceAs (Decidable (_ ∧ _))

/-- One of the two loops: `p` goes up and `q` goes down. -/
structure HalfState (κ : Type) where
  p : Int
  q : Int
  delta : Int
  ret : Bool
  fits : Bool
  canvas : Canvas κ

/-- A round of the loop that is given the squared sizes along `p` and `q`, and four times the first
one. -/
def halfRound (paint : UInt16 → UInt16 → Draw κ) (aa bb fa : Int) (s : HalfState κ) :
    HalfState κ ⊕ Drawn κ :=
  let fits := s.fits && decide (Fits32 (bb*s.p) ∧ Fits32 (aa*s.q))
  if int32 (bb*s.p) ≤ int32 (aa*s.q) then
    match paint (.ofInt s.p) (.ofInt s.q) s.canvas with
    | (true,c) =>
      let down := int32 (fa*(1-s.q))
      let delta := if 0 ≤ s.delta then int32 (s.delta+down) else s.delta
      let q := if 0 ≤ s.delta then int16 (s.q-1) else s.q
      let up := int32 (bb*(4*s.p+6))
      let fits := fits && decide ((0 ≤ s.delta → Fits32 (fa*(1-s.q)) ∧ Fits32 (s.delta+down)) ∧
        Fits32 (bb*(4*s.p+6)) ∧ Fits32 (delta+up))
      .inl ⟨int16 (s.p+1),q,int32 (delta+up),s.ret,fits,c⟩
    | (false,c) => .inr ⟨false,fits,c⟩
  else .inr ⟨s.ret,fits,s.canvas⟩

/-- The loop from its start, at the end where `q` is the size. -/
def half (paint : UInt16 → UInt16 → Draw κ) (size : UInt16) (aa bb fa : Int) (ret fits : Bool)
    (c : Canvas κ) (fuel : Nat) : Option (Drawn κ) :=
  let delta := int32 (2*bb)+int32 (aa*(1-2*size.toNat))
  let fits := fits && decide (Fits32 (2*bb) ∧ Fits32 (aa*(1-2*size.toNat)) ∧ Fits32 delta)
  loop (halfRound paint aa bb fa) fuel ⟨0,int16 size.toNat,int32 delta,ret,fits,c⟩

def qpEllipse (x y sizex sizey : UInt16) (color : Hsv) (filled : Bool) (c : Canvas κ)
    (fuel : Nat) : Option (Drawn κ) :=
  if d.validateOk then
    let aa := int32 (sizex.toNat*sizex.toNat)
    let bb := int32 (sizey.toNat*sizey.toNat)
    let fa := int32 (4*aa)
    let fb := int32 (4*bb)
    let fits := decide (Fits32 (sizex.toNat*sizex.toNat) ∧ Fits32 (sizey.toNat*sizey.toNat) ∧
      Fits32 (4*aa) ∧ Fits32 (4*bb))
    let c := fillPixdata d (max sizex sizey).toNat color c
    if d.commsStart then
      (half (fun dx dy => ellipseHelperImpl d x y dx dy filled) sizey aa bb fa true fits c
        fuel).bind fun r =>
          half (fun dy dx => ellipseHelperImpl d x y dx dy filled) sizex bb aa fb r.ret r.fits
            r.canvas fuel
    else some ⟨false,true,c⟩
  else some ⟨false,true,c⟩

variable {d}

/-- A quarter with the sizes `a` along `p` and `b` along `q` is walked to an offset. As long as the
loop goes on the offset before the next change of `q` is inside the ellipse. -/
structure Quarter (a b : Nat) (p q delta : Int) : Prop where
  p_nonneg : 0 ≤ p
  p_le : p ≤ (max a 1:Nat)
  q_ge : -1 ≤ q
  q_le : q ≤ b
  term : delta = 2*((b*b:Nat)*(p*p))+(a*a:Nat)*(q*q+(q-1)*(q-1))-2*((a*a:Nat)*(b*b:Nat))
    +(b*b:Nat)*(4*p+2)
  low : -(4*((a*a:Nat)*b)) ≤ delta
  inside : (b*b:Nat)*p ≤ (a*a:Nat)*q → p = 0 ∧ q = b ∨
    2*((b*b:Nat)*(p*p))+(a*a:Nat)*(q*q+(q-1)*(q-1)) < 2*((a*a:Nat)*(b*b:Nat):Int)

section

variable {a b : Nat} {p q delta : Int}

theorem quarter_start : Quarter a b 0 b (2*(b*b:Nat)+(a*a:Nat)*(1-2*b)) := by
  have hlow : -(4*((a*a:Nat)*b:Int)) ≤ 2*(b*b:Nat)+(a*a:Nat)*(1-2*b) := by
    have hb := Int.natCast_nonneg (b*b)
    have ha := Int.natCast_nonneg (a*a)
    have hab := Int.natCast_nonneg (a*a*b)
    have he : ((a*a:Nat):Int)*(1-2*b) = (a*a:Nat)-2*((a*a:Nat)*b) := by ring
    rw [Nat.cast_mul (a*a)] at hab
    omega
  refine ⟨Int.le_refl 0,by omega,by omega,Int.le_refl _,?_,hlow,fun _ => .inl ⟨rfl,rfl⟩⟩
  push_cast
  ring

theorem Quarter.bounds (h : Quarter a b p q delta) (hguard : (b*b:Nat)*p ≤ (a*a:Nat)*q) :
    p < (max a 1:Nat) ∧ p ≤ a ∧ 0 ≤ q ∧ delta ≤ (b*b:Nat)*(4*p+2)+(a*a:Nat) := by
  obtain ⟨hp,hple,hqge,hqle,hterm,hlow,hinside⟩ := h
  have ha := Int.natCast_nonneg (a*a)
  have hb := Int.natCast_nonneg (b*b)
  rcases hinside hguard with ⟨rfl,rfl⟩ | hin
  · have hsq : ((a*a:Nat):Int)*(b*b+((b:Int)-1)*(b-1))-2*((a*a:Nat)*(b*b:Nat))
        = (a*a:Nat)-2*((a*a:Nat)*b) := by
      push_cast
      ring
    have hab := Int.mul_nonneg ha (Int.natCast_nonneg b)
    refine ⟨by omega,by omega,by omega,?_⟩
    rw [hterm]
    omega
  · have hqq : 0 ≤ ((a*a:Nat):Int)*(q*q+(q-1)*(q-1)) :=
      Int.mul_nonneg ha (Int.add_nonneg (mul_self_nonneg q) (mul_self_nonneg (q-1)))
    have hlt : p < a := by
      by_contra hle
      have hsq : ((a*a:Nat):Int) ≤ p*p := by
        push_cast
        exact Int.mul_le_mul (by omega) (by omega) (by omega) hp
      have hmul := Int.mul_le_mul_of_nonneg_left hsq hb
      rw [Int.mul_comm ((a*a:Nat):Int) (b*b:Nat)] at hin
      omega
    have hq : 0 ≤ q := by
      by_contra hneg
      have hpos : 0 < ((a*a:Nat):Int) := by
        push_cast
        exact Int.mul_pos (by omega) (by omega)
      have hmul := Int.mul_neg_of_pos_of_neg hpos (by omega : q < 0)
      have hmul' := Int.mul_nonneg hb hp
      omega
    refine ⟨by omega,by omega,hq,?_⟩
    rw [hterm]
    omega

theorem Quarter.next_p (h : Quarter a b p q delta) (hguard : (b*b:Nat)*p ≤ (a*a:Nat)*q)
    (hneg : delta < 0) : Quarter a b (p+1) q (delta+(b*b:Nat)*(4*p+6)) := by
  obtain ⟨hplt,-,-,-⟩ := h.bounds hguard
  obtain ⟨hp,hple,hqge,hqle,hterm,hlow,hinside⟩ := h
  have hup : 0 ≤ ((b*b:Nat):Int)*(4*p+6) := Int.mul_nonneg (Int.natCast_nonneg _) (by omega)
  refine ⟨by omega,by omega,hqge,hqle,?_,by omega,fun _ => .inr ?_⟩
  · rw [hterm]
    ring
  · have he : 2*(((b*b:Nat):Int)*((p+1)*(p+1))) = 2*((b*b:Nat)*(p*p))+(b*b:Nat)*(4*p+2) := by ring
    omega

theorem Quarter.next_pq (h0 : 0 < a ∨ 0 < b) (h : Quarter a b p q delta)
    (hguard : (b*b:Nat)*p ≤ (a*a:Nat)*q) (hpos : 0 ≤ delta) :
    Quarter a b (p+1) (q-1) (delta+4*(a*a:Nat)*(1-q)+(b*b:Nat)*(4*p+6)) := by
  obtain ⟨hplt,-,hq,-⟩ := h.bounds hguard
  obtain ⟨hp,hple,hqge,hqle,hterm,hlow,hinside⟩ := h
  have ha := Int.natCast_nonneg (a*a)
  have hb := Int.natCast_nonneg (b*b)
  have hup : 0 ≤ ((b*b:Nat):Int)*(4*p+6) := Int.mul_nonneg hb (by omega)
  have hqb := Int.mul_le_mul_of_nonneg_left hqle ha
  have hdown : 4*((a*a:Nat):Int)*(1-q) = 4*(a*a:Nat)-4*((a*a:Nat)*q) := by ring
  refine ⟨by omega,by omega,by omega,by omega,?_,by omega,fun hguard' => .inr ?_⟩
  · rw [hterm]
    ring
  · have hp' : ((b*b:Nat):Int)*(p+1) = (b*b:Nat)*p+(b*b:Nat) := by ring
    have hq' : ((a*a:Nat):Int)*(q-1) = (a*a:Nat)*q-(a*a:Nat) := by ring
    have he : 2*(((b*b:Nat):Int)*((p+1)*(p+1)))+(a*a:Nat)*((q-1)*(q-1)+(q-1-1)*(q-1-1))
        = 2*((b*b:Nat)*(p*p))+(a*a:Nat)*(q*q+(q-1)*(q-1))+4*((b*b:Nat)*p)+2*(b*b:Nat)
          +4*(a*a:Nat)-4*((a*a:Nat)*q) := by ring
    rw [hp', hq'] at hguard'
    rw [he]
    rcases hinside hguard with ⟨rfl,rfl⟩ | hin
    · have hsq : ((a*a:Nat):Int)*(b*b+((b:Int)-1)*(b-1))
          = 2*((a*a:Nat)*(b*b:Nat))+(a*a:Nat)-2*((a*a:Nat)*b) := by
        push_cast
        ring
      have hsize : 0 < a*a+b*b := by
        rcases h0 with h0 | h0
        · have := Nat.mul_pos h0 h0
          omega
        · have := Nat.mul_pos h0 h0
          omega
      rw [hsq]
      simp only [Int.mul_zero] at hguard' ⊢
      omega
    · omega

end

theorem int32_of_fits {v : Int} (h : Fits32 v) : int32 v = v := by
  obtain ⟨hlo,hhi⟩ := h
  exact Int.bmod_eq_of_le (by omega) (by omega)

theorem mul_small {u v m n : Int} (hu : 0 ≤ u) (hm : u ≤ m) (hn : 0 ≤ n) (hlo : -n ≤ v)
    (hhi : v ≤ n) : -(m*n) ≤ u*v ∧ u*v ≤ m*n := by
  have hmn := Int.mul_le_mul_of_nonneg_right hm hn
  have hhi := Int.mul_le_mul_of_nonneg_left hhi hu
  have hlo := Int.mul_le_mul_of_nonneg_left hlo hu
  rw [Int.mul_neg] at hlo
  exact ⟨by omega,by omega⟩

structure HalfInv (a b : Nat) (s : HalfState κ) : Prop where
  fits : s.fits = true
  walk : Quarter a b s.p s.q s.delta

section

variable {a b : Nat} (ha : a ≤ 400) (hb : b ≤ 400) {s : HalfState κ}

include ha hb

theorem square_le : a*a ≤ 160000 ∧ b*b ≤ 160000 :=
  ⟨Nat.mul_le_mul ha ha,Nat.mul_le_mul hb hb⟩

theorem HalfInv.guard_fits (hs : HalfInv a b s) :
    Fits32 ((b*b:Nat)*s.p) ∧ Fits32 ((a*a:Nat)*s.q) := by
  obtain ⟨hA,hB⟩ := square_le ha hb
  obtain ⟨hp,hple,hqge,hqle,-⟩ := hs.walk
  obtain ⟨hlo,hhi⟩ := mul_small (Int.natCast_nonneg (b*b)) (by omega : ((b*b:Nat):Int) ≤ 160000)
    (by omega : (0:Int) ≤ 400) (by omega : -400 ≤ s.p) (by omega)
  obtain ⟨hlo',hhi'⟩ := mul_small (Int.natCast_nonneg (a*a))
    (by omega : ((a*a:Nat):Int) ≤ 160000) (by omega : (0:Int) ≤ 400) (by omega : -400 ≤ s.q)
    (by omega)
  constructor <;> constructor <;> omega

theorem HalfInv.round_fits (hs : HalfInv a b s) (hguard : (b*b:Nat)*s.p ≤ (a*a:Nat)*s.q) :
    Fits32 (4*(a*a:Nat)*(1-s.q)) ∧ Fits32 (s.delta+4*(a*a:Nat)*(1-s.q)) ∧
      Fits32 ((b*b:Nat)*(4*s.p+6)) ∧ Fits32 (s.delta+(b*b:Nat)*(4*s.p+6)) ∧
      Fits32 (s.delta+4*(a*a:Nat)*(1-s.q)+(b*b:Nat)*(4*s.p+6)) := by
  obtain ⟨hA,hB⟩ := square_le ha hb
  obtain ⟨hplt,-,hq,hdelta⟩ := hs.walk.bounds hguard
  obtain ⟨hp,hple,hqge,hqle,-,hlow,-⟩ := hs.walk
  have hA0 := Int.natCast_nonneg (a*a)
  have hB0 := Int.natCast_nonneg (b*b)
  have hdown := mul_small (by omega : (0:Int) ≤ 4*(a*a:Nat))
    (by omega : 4*((a*a:Nat):Int) ≤ 640000) (by omega : (0:Int) ≤ 400)
    (by omega : -400 ≤ 1-s.q) (by omega)
  have hup := mul_small hB0 (by omega : ((b*b:Nat):Int) ≤ 160000) (by omega : (0:Int) ≤ 1606)
    (by omega : -1606 ≤ 4*s.p+6) (by omega)
  have hupper := mul_small hB0 (by omega : ((b*b:Nat):Int) ≤ 160000) (by omega : (0:Int) ≤ 1602)
    (by omega : -1602 ≤ 4*s.p+2) (by omega)
  have hlower := mul_small hA0 (by omega : ((a*a:Nat):Int) ≤ 160000) (by omega : (0:Int) ≤ 400)
    (by omega : -400 ≤ (b:Int)) (by omega)
  refine ⟨⟨?_,?_⟩,⟨?_,?_⟩,⟨?_,?_⟩,⟨?_,?_⟩,⟨?_,?_⟩⟩ <;> omega

theorem halfRound_on (h0 : 0 < a ∨ 0 < b) (hs : HalfInv a b s)
    (hguard : (b*b:Nat)*s.p ≤ (a*a:Nat)*s.q) {paint : UInt16 → UInt16 → Draw κ} {c : Canvas κ}
    (hpaint : paint (.ofInt s.p) (.ofInt s.q) s.canvas = (true,c)) :
    ∃ s', halfRound paint (a*a:Nat) (b*b:Nat) (4*(a*a:Nat)) s = .inl s' ∧ HalfInv a b s' ∧
      s'.p = s.p+1 ∧ s'.ret = s.ret ∧ s'.canvas = c := by
  obtain ⟨hfp,hfq⟩ := hs.guard_fits ha hb
  obtain ⟨hdown,hsum,hup,hsum',hsum''⟩ := hs.round_fits ha hb hguard
  obtain ⟨hplt,-,hq,-⟩ := hs.walk.bounds hguard
  have hp := hs.walk.p_nonneg
  have hqle := hs.walk.q_le
  have hp' : int16 (s.p+1) = s.p+1 := int16_of_fits (by constructor <;> omega)
  have hq' : int16 (s.q-1) = s.q-1 := int16_of_fits (by constructor <;> omega)
  rw [halfRound]
  dsimp only
  rw [int32_of_fits hfp, int32_of_fits hfq, if_pos hguard, hpaint]
  refine ⟨_,rfl,?_,hp',rfl,rfl⟩
  by_cases hpos : 0 ≤ s.delta
  · simp only [if_pos hpos, int32_of_fits hdown, int32_of_fits hsum, int32_of_fits hup,
      int32_of_fits hsum'', hp', hq']
    refine ⟨?_,hs.walk.next_pq h0 hguard hpos⟩
    rw [hs.fits]
    simp only [hfp, hfq, hdown, hsum, hup, hsum'', and_self, implies_true, decide_true,
      Bool.and_self]
  · simp only [if_neg hpos, int32_of_fits hup, int32_of_fits hsum', hp']
    refine ⟨?_,hs.walk.next_p hguard (by omega)⟩
    rw [hs.fits]
    simp only [hfp, hfq, hup, hsum', hpos, false_imp_iff, and_self, decide_true, Bool.and_self]

theorem halfRound_off (hs : HalfInv a b s) (hguard : ¬(b*b:Nat)*s.p ≤ (a*a:Nat)*s.q)
    {paint : UInt16 → UInt16 → Draw κ} :
    halfRound paint (a*a:Nat) (b*b:Nat) (4*(a*a:Nat)) s = .inr ⟨s.ret,true,s.canvas⟩ := by
  obtain ⟨hfp,hfq⟩ := hs.guard_fits ha hb
  rw [halfRound]
  dsimp only
  rw [int32_of_fits hfp, int32_of_fits hfq, if_neg hguard, hs.fits, decide_eq_true ⟨hfp,hfq⟩]
  rfl

theorem half_round (h0 : 0 < a ∨ 0 < b) {paint : UInt16 → UInt16 → Draw κ} {size : UInt16}
    (hsize : size.toNat = b) {Start Good : Canvas κ → Prop}
    (hfirst : ∀ c, Start c → ∃ c', paint 0 size c = (true,c') ∧ Good c')
    (hpaint : ∀ p q c, p.toNat ≤ a → q.toNat ≤ b → Good c →
      ∃ c', paint p q c = (true,c') ∧ Good c') (hs : HalfInv a b s)
    (hcanvas : s.p = 0 ∧ s.q = b ∧ Start s.canvas ∨ Good s.canvas)
    (hguard : (b*b:Nat)*s.p ≤ (a*a:Nat)*s.q) :
    ∃ s', halfRound paint (a*a:Nat) (b*b:Nat) (4*(a*a:Nat)) s = .inl s' ∧ HalfInv a b s' ∧
      s'.p = s.p+1 ∧ s'.ret = s.ret ∧ Good s'.canvas := by
  obtain ⟨hplt,hpa,hq0,-⟩ := hs.walk.bounds hguard
  have hp0 := hs.walk.p_nonneg
  have hqb := hs.walk.q_le
  obtain ⟨c',hpainted,hgood⟩ : ∃ c', paint (.ofInt s.p) (.ofInt s.q) s.canvas = (true,c') ∧
      Good c' := by
    rcases hcanvas with ⟨hp,hq,hstart⟩ | hgood
    · rw [hp, hq, ← hsize, ofInt_toNat]
      exact hfirst s.canvas hstart
    · have hpt := toNat_ofInt hp0 (by omega)
      have hqt := toNat_ofInt hq0 (by omega)
      exact hpaint _ _ _ (by omega) (by omega) hgood
  obtain ⟨s',hs',hinv,hp',hret',hc'⟩ := halfRound_on ha hb h0 hs hguard hpainted
  exact ⟨s',hs',hinv,hp',hret',hc' ▸ hgood⟩

theorem half_returns (h0 : 0 < a ∨ 0 < b) {paint : UInt16 → UInt16 → Draw κ} {size : UInt16}
    (hsize : size.toNat = b) {Start Good : Canvas κ → Prop}
    (hfirst : ∀ c, Start c → ∃ c', paint 0 size c = (true,c') ∧ Good c')
    (hpaint : ∀ p q c, p.toNat ≤ a → q.toNat ≤ b → Good c →
      ∃ c', paint p q c = (true,c') ∧ Good c') {ret : Bool} {c : Canvas κ} (hc : Start c) :
    Returns (half paint size (a*a:Nat) (b*b:Nat) (4*(a*a:Nat)) ret true c) fun r =>
      r.ret = ret ∧ r.fits = true ∧ Good r.canvas := by
  obtain ⟨hA,hB⟩ := square_le ha hb
  have hprod := mul_small (Int.natCast_nonneg (a*a)) (by omega : ((a*a:Nat):Int) ≤ 160000)
    (by omega : (0:Int) ≤ 799) (by omega : -799 ≤ 1-2*(b:Int)) (by omega)
  have hf1 : Fits32 (2*(b*b:Nat)) := by constructor <;> omega
  have hf2 : Fits32 ((a*a:Nat)*(1-2*b)) := by constructor <;> omega
  have hf3 : Fits32 (2*(b*b:Nat)+(a*a:Nat)*(1-2*b)) := by constructor <;> omega
  have hq : int16 b = b := int16_of_fits (by constructor <;> omega)
  have he : half paint size (a*a:Nat) (b*b:Nat) (4*(a*a:Nat)) ret true c = fun fuel =>
      loop (halfRound paint (a*a:Nat) (b*b:Nat) (4*(a*a:Nat))) fuel
        ⟨0,b,2*(b*b:Nat)+(a*a:Nat)*(1-2*b),ret,true,c⟩ := by
    funext fuel
    rw [half]
    rw [hsize, hq, int32_of_fits hf1, int32_of_fits hf2, int32_of_fits hf3,
      decide_eq_true ⟨hf1,hf2,hf3⟩]
    rfl
  rw [he]
  refine @loop_returns _ _ _ (fun s => HalfInv a b s ∧ s.ret = ret ∧
      (s.p = 0 ∧ s.q = b ∧ Start s.canvas ∨ Good s.canvas)) _
    (fun s => ((max a 1:Nat)-s.p).toNat) (fun s s' hs hs' => ?_) (fun s r hs hr => ?_) _
    ⟨⟨rfl,quarter_start⟩,rfl,.inl ⟨rfl,rfl,hc⟩⟩
  · obtain ⟨hinv,hret,hcanvas⟩ := hs
    by_cases hguard : (b*b:Nat)*s.p ≤ (a*a:Nat)*s.q
    · obtain ⟨s'',hs'',hinv',hp,hret',hgood⟩ := half_round ha hb h0 hsize hfirst hpaint hinv
        hcanvas hguard
      obtain rfl := Sum.inl.inj (hs'.symm.trans hs'')
      obtain ⟨hplt,-⟩ := hinv.walk.bounds hguard
      exact ⟨⟨hinv',hret'.trans hret,.inr hgood⟩,by omega⟩
    · rw [halfRound_off ha hb hinv hguard] at hs'
      cases hs'
  · obtain ⟨hinv,hret,hcanvas⟩ := hs
    by_cases hguard : (b*b:Nat)*s.p ≤ (a*a:Nat)*s.q
    · obtain ⟨s'',hs'',-⟩ := half_round ha hb h0 hsize hfirst hpaint hinv
        hcanvas hguard
      rw [hr] at hs''
      cases hs''
    · rw [halfRound_off ha hb hinv hguard] at hr
      obtain rfl := Sum.inr.inj hr
      refine ⟨hret,rfl,?_⟩
      rcases hcanvas with ⟨hp,hq,-⟩ | hgood
      · -- The loop does not end at its start.
        rw [hp, hq, Int.mul_zero] at hguard
        exact absurd (Int.mul_nonneg (Int.natCast_nonneg _) (Int.natCast_nonneg _)) hguard
      · exact hgood

end

def sentAt (filled : Bool) (offsetx : UInt16) : Nat :=
  if filled = true ∧ offsetx ≠ 0 then 2*offsetx.toNat+1 else 1

/-- These pixels are at an offset in all four quarters, or in the rows between them, and have these
colours. -/
structure Mirrored (d : Driver κ) (x y ox oy : UInt16) (filled : Bool) (buffer : Nat → Option κ)
    (new : List (Pixel κ)) : Prop where
  place : ∀ u v, At new x y u v ↔ v.natAbs = oy.toNat ∧
    if filled then u.natAbs ≤ ox.toNat else u.natAbs = ox.toNat
  color : ∀ p ∈ new, ∃ i < sentAt filled ox, p.color = buffer (i%numPixelsInBuffer d)
  all : ∀ i < sentAt filled ox, ∃ p ∈ new, p.color = buffer (i%numPixelsInBuffer d)

section

variable {x y ox oy : UInt16} {buffer : Nat → Option κ} (hxlo : ox.toNat ≤ x.toNat)
  (hxhi : x.toNat+ox.toNat < 65536)

theorem mirrored_setpixels {ps : List (UInt16 × UInt16)} {filled : Bool} (hne : ps ≠ [])
    (hps : ∀ u v : Int, (u,v) ∈ (ps.map fun p =>
        ((p.1.toNat:Int)-x.toNat,(p.2.toNat:Int)-y.toNat)) ↔
      v.natAbs = oy.toNat ∧ u.natAbs = ox.toNat)
    (hsingle : filled = false ∨ ox = 0) :
    Mirrored d x y ox oy filled buffer (ps.map fun p => ⟨p.1.toNat,p.2.toNat,buffer 0⟩) := by
  have hsent : sentAt filled ox = 1 := by
    rw [sentAt, if_neg]
    rintro ⟨hf,h0⟩
    rcases hsingle with h | h
    · rw [hf] at h
      cases h
    · exact h0 h
  constructor
  · intro u v
    rw [at_map, hps]
    rcases hsingle with rfl | rfl
    · simp
    · simp
  · intro p hp
    obtain ⟨q,-,rfl⟩ := List.mem_map.mp hp
    exact ⟨0,by omega,by rw [Nat.zero_mod]⟩
  · intro i hi
    obtain ⟨q,hq⟩ := List.exists_mem_of_ne_nil ps hne
    refine ⟨_,List.mem_map.mpr ⟨q,hq,rfl⟩,?_⟩
    rw [show i = 0 from by omega, Nat.zero_mod]

include hxlo hxhi

theorem row_sorted {row : UInt16} :
    Window.sorted ⟨plus x ox,row,minus x ox,row⟩ = ⟨minus x ox,row,plus x ox,row⟩ := by
  have hp := plus_toNat hxhi
  have hm := minus_toNat hxlo
  simp only [Window.sorted, corners, Window.mk.injEq, ← UInt16.toNat_inj, toNat_min, toNat_max]
  omega

theorem row_area {row : UInt16} :
    Window.area ⟨plus x ox,row,minus x ox,row⟩ = 2*ox.toNat+1 := by
  have hp := plus_toNat hxhi
  have hm := minus_toNat hxlo
  rw [Window.area, row_sorted hxlo hxhi, Window.width, Window.height, Nat.sub_self, Nat.zero_add,
    Nat.mul_one]
  dsimp only
  omega

theorem row_at {row : UInt16} {u v : Int} :
    At (pixels d (Window.sorted ⟨plus x ox,row,minus x ox,row⟩) buffer 0
      (Window.area ⟨plus x ox,row,minus x ox,row⟩)) x y u v
      ↔ u.natAbs ≤ ox.toNat ∧ (row.toNat:Int) = y.toNat+v := by
  have hp := plus_toNat hxhi
  have hm := minus_toNat hxlo
  have hhas := fun X Y => @pixels_has κ d ⟨minus x ox,row,plus x ox,row⟩ buffer
    (by dsimp only; omega) (Nat.le_refl _) X Y
  rw [Window.area, row_sorted hxlo hxhi]
  simp only [Window.Has] at hhas
  constructor
  · rintro ⟨p,hmem,hpx,hpy⟩
    have h := (hhas p.x p.y).mp ⟨p,hmem,rfl,rfl⟩
    omega
  · rintro ⟨hu,hv⟩
    obtain ⟨p,hmem,hpx,hpy⟩ := (hhas (x.toNat+u).toNat row.toNat).mpr
      (by omega)
    exact ⟨p,hmem,by omega,by omega⟩

theorem mirrored_rows {rows : List UInt16} (hne : rows ≠ []) (h0 : ox ≠ 0)
    (hrows : ∀ v : Int, (∃ row ∈ rows, (row.toNat:Int) = y.toNat+v) ↔ v.natAbs = oy.toNat) :
    Mirrored d x y ox oy true buffer
      ((rows.map fun row => (⟨plus x ox,row,minus x ox,row⟩ : Window)).flatMap fun w =>
        pixels d w.sorted buffer 0 w.area) := by
  have hsent : sentAt true ox = 2*ox.toNat+1 := by
    rw [sentAt, if_pos ⟨rfl,h0⟩]
  rw [List.flatMap_map]
  constructor
  · intro u v
    have hat : At (rows.flatMap fun row => pixels d
        (Window.sorted ⟨plus x ox,row,minus x ox,row⟩) buffer 0
        (Window.area ⟨plus x ox,row,minus x ox,row⟩)) x y u v ↔
        ∃ row ∈ rows, u.natAbs ≤ ox.toNat ∧ (row.toNat:Int) = y.toNat+v := by
      simp only [← @row_at κ d x y ox buffer hxlo hxhi]
      simp only [At, List.mem_flatMap]
      constructor
      · rintro ⟨p,⟨row,hrow,hp⟩,hxy⟩
        exact ⟨row,hrow,p,hp,hxy⟩
      · rintro ⟨row,hrow,p,hp,hxy⟩
        exact ⟨p,⟨row,hrow,hp⟩,hxy⟩
    rw [hat, ← hrows, if_pos rfl]
    constructor
    · rintro ⟨row,hrow,hu,hv⟩
      exact ⟨⟨row,hrow,hv⟩,hu⟩
    · rintro ⟨⟨row,hrow,hv⟩,hu⟩
      exact ⟨row,hrow,hu,hv⟩
  · intro p hp
    obtain ⟨row,-,hp⟩ := List.mem_flatMap.mp hp
    rw [row_area hxlo hxhi] at hp
    obtain ⟨i,hi,rfl⟩ := List.mem_map.mp hp
    exact ⟨i,hsent ▸ List.mem_range.mp hi,rfl⟩
  · intro i hi
    obtain ⟨row,hrow⟩ := List.exists_mem_of_ne_nil rows hne
    refine ⟨(Window.sorted ⟨plus x ox,row,minus x ox,row⟩).pixel (0+i)
      (buffer (i%numPixelsInBuffer d)),List.mem_flatMap.mpr ⟨row,hrow,?_⟩,rfl⟩
    rw [row_area hxlo hxhi]
    exact List.mem_map.mpr ⟨i,List.mem_range.mpr (hsent ▸ hi),rfl⟩

theorem ellipseHelper_draws (hylo : oy.toNat ≤ y.toNat) (hyhi : y.toNat+oy.toNat < 65536)
    (filled : Bool) : ∃ n new ws,
      Draws d (ellipseHelperImpl d x y ox oy filled) buffer n new ws ∧
        Mirrored d x y ox oy filled buffer new := by
  have hxpx := plus_toNat hxhi
  have hxmx := minus_toNat hxlo
  have hypy := plus_toNat hyhi
  have hymy := minus_toNat hylo
  rw [ellipseHelperImpl]
  by_cases h0 : ox = 0
  · subst h0
    rw [if_pos rfl]
    refine ⟨_,_,_,@setpixels_draws κ d [(plus x 0,plus y oy),(plus x 0,minus y oy)] buffer,
      mirrored_setpixels (by simp) (fun u v => ?_) (.inr rfl)⟩
    simp only [List.map_cons, List.map_nil, hxpx, hypy, hymy, UInt16.toNat_zero,
      List.mem_cons, List.not_mem_nil, or_false, Prod.mk.injEq]
    omega
  · rw [if_neg h0]
    cases filled with
    | false =>
      refine ⟨_,_,_,@setpixels_draws κ d [(plus x ox,plus y oy),(plus x ox,minus y oy),
        (minus x ox,plus y oy),(minus x ox,minus y oy)] buffer,
        mirrored_setpixels (by simp) (fun u v => ?_) (.inl rfl)⟩
      simp only [List.map_cons, List.map_nil, hxpx, hxmx, hypy, hymy, List.mem_cons,
        List.not_mem_nil, or_false, Prod.mk.injEq]
      omega
    | true =>
      have hsmall : ∀ rows : List UInt16,
          ∀ w ∈ rows.map fun row => (⟨plus x ox,row,minus x ox,row⟩ : Window),
            w.sorted.Small := by
        intro rows w hw
        obtain ⟨row,-,rfl⟩ := List.mem_map.mp hw
        rw [row_sorted hxlo hxhi]
        constructor
        · dsimp only
          omega
        · simp
      by_cases hoy : oy > 0
      · rw [if_pos rfl, if_pos hoy]
        refine ⟨_,_,_,@drawAll_draws κ d _ buffer (hsmall [plus y oy,minus y oy]),
          mirrored_rows hxlo hxhi (by simp) h0 fun v => ?_⟩
        simp only [List.exists_mem_cons_iff, List.not_mem_nil, false_and, exists_false, or_false]
        omega
      · have hzero : oy.toNat = 0 := by
          have := mt UInt16.lt_iff_toNat_lt.mpr hoy
          rw [UInt16.toNat_zero] at this
          omega
        rw [if_pos rfl, if_neg hoy]
        refine ⟨_,_,_,@drawAll_draws κ d _ buffer (hsmall [plus y oy]),
          mirrored_rows hxlo hxhi (by simp) h0 fun v => ?_⟩
        simp only [List.exists_mem_cons_iff, List.not_mem_nil, false_and, exists_false, or_false]
        omega

end

/-- The box of the ellipse is on the panel. -/
structure EllipseOnPanel (x y sizex sizey : UInt16) : Prop where
  sizex_le : sizex.toNat ≤ 400
  sizey_le : sizey.toNat ≤ 400
  left : sizex.toNat ≤ x.toNat
  right : x.toNat+sizex.toNat < 65536
  top : sizey.toNat ≤ y.toNat
  bottom : y.toNat+sizey.toNat < 65536

structure Tidy (x y sizex sizey : UInt16) (color : κ) (painted : List (Pixel κ)) : Prop where
  box : ∀ u v, At painted x y u v → u.natAbs ≤ sizex.toNat ∧ v.natAbs ≤ sizey.toNat
  mirrored : ∀ u v, At painted x y u v → At painted x y (-u) v ∧ At painted x y u (-v)
  color : ∀ p ∈ painted, p.color = some color

structure EllipseRight (x y sizex sizey : UInt16) (color : κ) (r : Drawn κ) : Prop
    extends Tidy x y sizex sizey color r.canvas.painted where
  fits : r.fits = true

/-- Some size is not zero, and what is filled of the buffer is as much as the longest row needs. -/
def EllipseClear (d : Driver κ) (sizex sizey : UInt16) (filled : Bool) : Prop :=
  (0 < sizex.toNat ∨ 0 < sizey.toNat) ∧ (filled = true → sizex.toNat = 0 ∨
    numPixelsInBuffer d ≤ max sizex.toNat sizey.toNat ∨ 2*sizex.toNat+1 ≤ sizey.toNat)

theorem Tidy.append {x y sizex sizey : UInt16} {color : κ} {painted new : List (Pixel κ)}
    (h : Tidy x y sizex sizey color painted) {ox oy : UInt16} {filled : Bool}
    {buffer : Nat → Option κ} (hnew : Mirrored d x y ox oy filled buffer new)
    (hox : ox.toNat ≤ sizex.toNat) (hoy : oy.toNat ≤ sizey.toNat)
    (hcolor : ∀ i < sentAt filled ox, buffer (i%numPixelsInBuffer d) = some color) :
    Tidy x y sizex sizey color (painted ++ new) := by
  constructor
  · intro u v hat
    rcases at_append.mp hat with hat | hat
    · exact h.box u v hat
    · obtain ⟨hv,hu⟩ := (hnew.place u v).mp hat
      split at hu <;> omega
  · intro u v hat
    simp only [at_append] at hat ⊢
    rcases hat with hat | hat
    · obtain ⟨hx,hy⟩ := h.mirrored u v hat
      exact ⟨.inl hx,.inl hy⟩
    · have hplace := (hnew.place u v).mp hat
      refine ⟨.inr ((hnew.place (-u) v).mpr ?_),.inr ((hnew.place u (-v)).mpr ?_)⟩
      · rwa [Int.natAbs_neg]
      · rwa [Int.natAbs_neg]
  · intro p hp
    rcases List.mem_append.mp hp with hp | hp
    · exact h.color p hp
    · obtain ⟨i,hi,he⟩ := hnew.color p hp
      rw [he, hcolor i hi]

section

variable {x y sizex sizey : UInt16} (hd : d.Steady) (h : EllipseOnPanel x y sizex sizey)

include hd h

theorem ellipseHelper_run {ox oy : UInt16} (hox : ox.toNat ≤ sizex.toNat)
    (hoy : oy.toNat ≤ sizey.toNat) (filled : Bool) (c : Canvas κ) :
    ∃ c' new, ellipseHelperImpl d x y ox oy filled c = (true,c') ∧
      c'.painted = c.painted ++ new ∧ c'.buffer = c.buffer ∧
      Mirrored d x y ox oy filled c.buffer new := by
  obtain ⟨-,-,hl,hr,ht,hb⟩ := h
  obtain ⟨n,new,ws,hdraws,hnew⟩ := @ellipseHelper_draws κ d x y ox oy c.buffer (by omega)
    (by omega) (by omega) (by omega) filled
  obtain ⟨c',hc',hpainted,hbuffer⟩ := hdraws.run hd rfl
  exact ⟨c',new,hc',hpainted,hbuffer,hnew⟩

theorem qpEllipse_eq {color : Hsv} {filled : Bool} {c : Canvas κ} :
    qpEllipse d x y sizex sizey color filled c = fun fuel =>
      (half (fun dx dy => ellipseHelperImpl d x y dx dy filled) sizey
        (sizex.toNat*sizex.toNat:Nat) (sizey.toNat*sizey.toNat:Nat)
        (4*(sizex.toNat*sizex.toNat:Nat)) true true
        (fillPixdata d (max sizex.toNat sizey.toNat) color c) fuel).bind fun r =>
          half (fun dy dx => ellipseHelperImpl d x y dx dy filled) sizex
            (sizey.toNat*sizey.toNat:Nat) (sizex.toNat*sizex.toNat:Nat)
            (4*(sizey.toNat*sizey.toNat:Nat)) r.ret r.fits r.canvas fuel := by
  funext fuel
  obtain ⟨hA,hB⟩ := square_le h.sizex_le h.sizey_le
  rw [qpEllipse, if_pos hd.validateOk]
  dsimp only
  rw [← Nat.cast_mul, ← Nat.cast_mul]
  have hfA : Fits32 (sizex.toNat*sizex.toNat:Nat) := by constructor <;> omega
  have hfB : Fits32 (sizey.toNat*sizey.toNat:Nat) := by constructor <;> omega
  have hfA' : Fits32 (4*(sizex.toNat*sizex.toNat:Nat)) := by constructor <;> omega
  have hfB' : Fits32 (4*(sizey.toNat*sizey.toNat:Nat)) := by constructor <;> omega
  rw [if_pos hd.commsStart, int32_of_fits hfA, int32_of_fits hfB, int32_of_fits hfA',
    int32_of_fits hfB', toNat_max, decide_eq_true ⟨hfA,hfB,hfA',hfB'⟩]

theorem ellipse_returns (color : Hsv) {filled : Bool} (hclear : EllipseClear d sizex sizey filled) :
    Returns (qpEllipse d x y sizex sizey color filled Canvas.start)
      (EllipseRight x y sizex sizey (d.paletteConvert color)) := by
  obtain ⟨h0,hbuffer⟩ := hclear
  rw [qpEllipse_eq hd h]
  generalize hfill : (fillPixdata d (max sizex.toNat sizey.toNat) color
    (Canvas.start : Canvas κ)) = start
  have hcolor : ∀ ox : UInt16, ox.toNat ≤ sizex.toNat → ∀ i < sentAt filled ox,
      start.buffer (i%numPixelsInBuffer d) = some (d.paletteConvert color) := by
    intro ox hox i hi
    have hlt := Nat.mod_lt i (numPixelsInBuffer_pos d)
    have hle := Nat.mod_le i (numPixelsInBuffer d)
    rw [← hfill, fillPixdata_buffer, if_pos]
    rw [sentAt] at hi
    split at hi
    · rename_i hrow
      have hpos : ox.toNat ≠ 0 := fun he => hrow.2 (UInt16.toNat_inj.mp he)
      have := hbuffer hrow.1
      omega
    · omega
  have hpaint : ∀ ox oy c, ox.toNat ≤ sizex.toNat → oy.toNat ≤ sizey.toNat →
      (c.buffer = start.buffer ∧ Tidy x y sizex sizey (d.paletteConvert color) c.painted) →
      ∃ c', ellipseHelperImpl d x y ox oy filled c = (true,c') ∧ c'.buffer = start.buffer ∧
        Tidy x y sizex sizey (d.paletteConvert color) c'.painted := by
    intro ox oy c hox hoy hc
    obtain ⟨c',new,hc',hpainted,hbuf,hnew⟩ := ellipseHelper_run hd h hox hoy filled c
    refine ⟨c',hc',hbuf.trans hc.1,?_⟩
    rw [hpainted]
    rw [hc.1] at hnew
    exact hc.2.append hnew hox hoy (hcolor ox hox)
  have hstart : start.buffer = start.buffer ∧
      Tidy x y sizex sizey (d.paletteConvert color) start.painted := by
    rw [← hfill]
    exact ⟨rfl,by simp [At, fillPixdata, Canvas.start],by simp [At, fillPixdata, Canvas.start],
      by simp [fillPixdata, Canvas.start]⟩
  refine Returns.bind (half_returns h.sizex_le h.sizey_le h0 rfl
    (fun c => hpaint 0 sizey c (Nat.zero_le _) (Nat.le_refl _)) hpaint hstart) ?_
  rintro ⟨ret,fits,c⟩ ⟨-,hfits,hc⟩
  dsimp only at hfits hc ⊢
  rw [hfits]
  refine (half_returns h.sizey_le h.sizex_le h0.symm rfl
    (fun c => hpaint sizex 0 c (Nat.le_refl _) (Nat.zero_le _))
    (fun p q c hp hq => hpaint q p c hq hp) hc).imp ?_
  rintro r ⟨-,hfits',hc'⟩
  exact { hc'.2 with fits := hfits' }

theorem ellipse_unfilled (color : Hsv) (hpos : 0 < sizex.toNat)
    (hcap : max sizex.toNat sizey.toNat < numPixelsInBuffer d)
    (hrow : sizey.toNat < 2*sizex.toNat+1) :
    Returns (qpEllipse d x y sizex sizey color true Canvas.start) fun r =>
      ∃ p ∈ r.canvas.painted, p.color = none := by
  rw [qpEllipse_eq hd h]
  generalize hfill : (fillPixdata d (max sizex.toNat sizey.toNat) color
    (Canvas.start : Canvas κ)) = start
  have hnone : start.buffer (max sizex.toNat sizey.toNat%numPixelsInBuffer d) = none := by
    rw [Nat.mod_eq_of_lt hcap, ← hfill, fillPixdata_buffer, if_neg (by omega)]
    rfl
  have hpaint : ∀ ox oy c, ox.toNat ≤ sizex.toNat → oy.toNat ≤ sizey.toNat →
      c.buffer = start.buffer → ∃ c' new, ellipseHelperImpl d x y ox oy true c = (true,c') ∧
        c'.buffer = start.buffer ∧ c'.painted = c.painted ++ new ∧
        Mirrored d x y ox oy true start.buffer new := by
    intro ox oy c hox hoy hc
    obtain ⟨c',new,hc',hpainted,hbuf,hnew⟩ := ellipseHelper_run hd h hox hoy true c
    exact ⟨c',new,hc',hbuf.trans hc,hpainted,hc ▸ hnew⟩
  have hsent : max sizex.toNat sizey.toNat < sentAt true sizex := by
    rw [sentAt, if_pos ⟨rfl,fun he => by rw [he] at hpos; exact absurd hpos (by simp)⟩]
    omega
  have hfirst : ∀ c : Canvas κ, c.buffer = start.buffer →
      ∃ c', ellipseHelperImpl d x y sizex 0 true c = (true,c') ∧ c'.buffer = start.buffer ∧
        ∃ p ∈ c'.painted, p.color = none := by
    intro c hc
    obtain ⟨c',new,hc',hbuf,hpainted,hnew⟩ := hpaint sizex 0 c (Nat.le_refl _) (Nat.zero_le _) hc
    obtain ⟨p,hp,hcolor⟩ := hnew.all _ hsent
    refine ⟨c',hc',hbuf,p,?_,hcolor.trans hnone⟩
    rw [hpainted]
    exact List.mem_append_right _ hp
  refine Returns.bind (@half_returns κ _ _ h.sizex_le h.sizey_le (.inl hpos) _ sizey rfl
    (fun c => c.buffer = start.buffer) (fun c => c.buffer = start.buffer) ?_ ?_ _ _ rfl) ?_
  · intro c hc
    obtain ⟨c',-,hc',hbuf,-⟩ := hpaint 0 sizey c (Nat.zero_le _) (Nat.le_refl _) hc
    exact ⟨c',hc',hbuf⟩
  · intro p q c hp hq hc
    obtain ⟨c',-,hc',hbuf,-⟩ := hpaint p q c hp hq hc
    exact ⟨c',hc',hbuf⟩
  · rintro ⟨ret,fits,c⟩ ⟨-,hfits,hc⟩
    dsimp only at hfits hc ⊢
    rw [hfits]
    refine (@half_returns κ _ _ h.sizey_le h.sizex_le (.inr hpos) _ sizex rfl
      (fun c => c.buffer = start.buffer)
      (fun c => c.buffer = start.buffer ∧ ∃ p ∈ c.painted, p.color = none) hfirst ?_ _ _ hc).imp
      fun r hr => hr.2.2.2
    rintro p q c hp hq ⟨hc,bad,hbad,hcolor⟩
    obtain ⟨c',new,hc',hbuf,hpainted,-⟩ := hpaint q p c hq hp hc
    refine ⟨c',hc',hbuf,bad,?_,hcolor⟩
    rw [hpainted]
    exact List.mem_append_left _ hbad

end

theorem drawAll_ok {draws : List (Draw κ)} (hdraws : ∀ draw ∈ draws, ∀ c, (draw c).1 = true)
    (c : Canvas κ) : (drawAll draws c).1 = true := by
  induction draws generalizing c with
  | nil => rfl
  | cons draw draws ih =>
    rw [drawAll_cons, if_pos (hdraws draw (List.mem_cons_self ..) c)]
    exact ih (fun draw' h' => hdraws draw' (List.mem_cons_of_mem _ h')) _

theorem setpixelImpl_ok (hd : d.Steady) {x y : UInt16} (c : Canvas κ) :
    (setpixelImpl d x y c).1 = true :=
  (setpixelImpl_draws.succeeds c rfl).mpr fun _ _ => hd.pixdata _

theorem fillrectHelperImpl_ok (hd : d.Steady) {left top right bottom : UInt16} (c : Canvas κ) :
    (fillrectHelperImpl d left top right bottom c).1 = true :=
  (transmit_spec _ _).succeeds.mpr fun _ _ => hd.pixdata _

theorem ellipseHelper_ok (hd : d.Steady) {x y ox oy : UInt16} {filled : Bool} (c : Canvas κ) :
    (ellipseHelperImpl d x y ox oy filled c).1 = true := by
  rw [ellipseHelperImpl]
  split
  · refine drawAll_ok (fun draw hdraw => ?_) c
    simp only [List.mem_cons, List.not_mem_nil, or_false] at hdraw
    rcases hdraw with rfl | rfl <;> exact setpixelImpl_ok hd
  · split
    · refine drawAll_ok (fun draw hdraw => ?_) c
      split at hdraw
      · simp only [List.mem_cons, List.not_mem_nil, or_false] at hdraw
        rcases hdraw with rfl | rfl <;> exact fillrectHelperImpl_ok hd
      · obtain rfl := List.mem_singleton.mp hdraw
        exact fillrectHelperImpl_ok hd
    · refine drawAll_ok (fun draw hdraw => ?_) c
      simp only [List.mem_cons, List.not_mem_nil, or_false] at hdraw
      rcases hdraw with rfl | rfl | rfl | rfl <;> exact setpixelImpl_ok hd

theorem half_none {paint : UInt16 → UInt16 → Draw κ}
    (hpaint : ∀ p q c, (paint p q c).1 = true) {size : UInt16} {ret fits : Bool} {c : Canvas κ}
    (fuel : Nat) : half paint size 0 0 0 ret fits c fuel = none := by
  refine @loop_none _ _ _ (fun _ => True) (fun s _ => ?_) _ trivial fuel
  rw [halfRound]
  simp only [Int.zero_mul, Int.le_refl, if_true]
  have hok := hpaint (.ofInt s.p) (.ofInt s.q) s.canvas
  split
  · exact ⟨_,rfl,trivial⟩
  · rename_i hfail
    rw [hfail] at hok
    cases hok

theorem clear_of_returns (hd : d.Steady) {x y sizex sizey : UInt16}
    (h : EllipseOnPanel x y sizex sizey) {color : Hsv} {filled : Bool}
    (hreturns : Returns (qpEllipse d x y sizex sizey color filled Canvas.start)
      (EllipseRight x y sizex sizey (d.paletteConvert color))) :
    EllipseClear d sizex sizey filled := by
  obtain ⟨r,hr,hright⟩ := hreturns
  by_contra hclear
  by_cases h0 : 0 < sizex.toNat ∨ 0 < sizey.toNat
  · rw [EllipseClear] at hclear
    push Not at hclear
    obtain ⟨hfilled,hpos,hcap,hrow⟩ := hclear h0
    subst hfilled
    obtain ⟨r',hr',p,hp,hnone⟩ := ellipse_unfilled hd h color (by omega) hcap hrow
    obtain rfl := hr.unique hr'
    have hcolor := hright.color p hp
    rw [hnone] at hcolor
    cases hcolor
  · obtain ⟨n,hn⟩ := hr
    have hn := hn n (Nat.le_refl n)
    rw [qpEllipse_eq hd h] at hn
    dsimp only at hn
    have hx : sizex.toNat = 0 := by omega
    have hy : sizey.toNat = 0 := by omega
    rw [hx, hy, Nat.mul_zero, Nat.cast_zero, Int.mul_zero] at hn
    have hnone := @half_none κ (fun dx dy => ellipseHelperImpl d x y dx dy filled)
      (fun _ _ c => ellipseHelper_ok hd c) sizey true true
      (fillPixdata d (max 0 0) color Canvas.start) n
    rw [hnone] at hn
    cases hn

/-- An ellipse is right if and only if it has a size, and a row of a filled one is not longer than
what is filled of the buffer. -/
theorem ellipse_right_iff (d : Driver κ) (hd : d.Steady) {x y sizex sizey : UInt16}
    (h : EllipseOnPanel x y sizex sizey) (color : Hsv) (filled : Bool) :
    Returns (qpEllipse d x y sizex sizey color filled Canvas.start)
        (EllipseRight x y sizex sizey (d.paletteConvert color))
      ↔ EllipseClear d sizex sizey filled :=
  ⟨clear_of_returns hd h,ellipse_returns hd h color⟩

theorem ellipse_right_iff_filled :
    Returns (qpEllipse steady 200 100 3 20 ⟨0,0,255⟩ true Canvas.start)
        (EllipseRight 200 100 3 20 true) ↔ EllipseClear steady 3 20 true :=
  ellipse_right_iff steady steady_steady
    ⟨by decide,by decide,by decide,by decide,by decide,by decide⟩ ⟨0,0,255⟩ true

/-- A row of seven pixels is sent from a buffer with five, and a point takes forever. -/
theorem ellipse_row_unfilled :
    ¬Returns (qpEllipse steady 200 100 3 5 ⟨0,0,255⟩ true Canvas.start)
        (EllipseRight 200 100 3 5 true) ∧
      ¬Returns (qpEllipse steady 200 100 0 0 ⟨0,0,255⟩ false Canvas.start)
        (EllipseRight 200 100 0 0 true) := by
  constructor
  · intro h
    have hclear := clear_of_returns steady_steady
      ⟨by decide,by decide,by decide,by decide,by decide,by decide⟩ h
    rw [EllipseClear] at hclear
    exact absurd hclear (by decide)
  · intro h
    have hclear := clear_of_returns steady_steady
      ⟨by decide,by decide,by decide,by decide,by decide,by decide⟩ h
    rw [EllipseClear] at hclear
    exact absurd hclear (by decide)

end QmkFirmware.Drawing
