import QmkFirmware.Lib.Loop
import QmkFirmware.Painter.Canvas
import Mathlib.Tactic.Ring

/-!
Circles. An eighth of a circle is walked with an error term in 16 bits, and every offset is painted
in all its reflections.
-/

set_option autoImplicit false

namespace QmkFirmware.Drawing

structure Drawn (κ : Type) where
  ret : Bool
  fits : Bool
  canvas : Canvas κ

variable {κ : Type} (d : Driver κ)

/-- A sum and a difference of `int16_t` that are used as `uint16_t`. -/
def plus (center offset : UInt16) : UInt16 := (center.toInt16+offset.toInt16).toUInt16

def minus (center offset : UInt16) : UInt16 := (center.toInt16-offset.toInt16).toUInt16

def circleHelperImpl (centerx centery offsetx offsety : UInt16) (filled : Bool) : Draw κ :=
  let xpx := plus centerx offsetx
  let xmx := minus centerx offsetx
  let xpy := plus centerx offsety
  let xmy := minus centerx offsety
  let ypx := plus centery offsetx
  let ymx := minus centery offsetx
  let ypy := plus centery offsety
  let ymy := minus centery offsety
  if offsetx = 0 then
    drawAll ([setpixelImpl d centerx ypy,setpixelImpl d centerx ymy] ++
      if filled then [fillrectHelperImpl d xpy centery xmy centery]
      else [setpixelImpl d xpy centery,setpixelImpl d xmy centery])
  else if offsetx = offsety then
    drawAll (
      if filled then [fillrectHelperImpl d xpy ypy xmy ypy,fillrectHelperImpl d xpy ymy xmy ymy]
      else [setpixelImpl d xpy ypy,setpixelImpl d xmy ypy,setpixelImpl d xpy ymy,
        setpixelImpl d xmy ymy])
  else
    drawAll (
      if filled then [fillrectHelperImpl d xpx ypy xmx ypy,fillrectHelperImpl d xpx ymy xmx ymy,
        fillrectHelperImpl d xpy ypx xmy ypx,fillrectHelperImpl d xpy ymx xmy ymx]
      else [setpixelImpl d xpx ypy,setpixelImpl d xmx ypy,setpixelImpl d xpx ymy,
        setpixelImpl d xmx ymy,setpixelImpl d xpy ypx,setpixelImpl d xmy ypx,
        setpixelImpl d xpy ymx,setpixelImpl d xmy ymx])

structure CircleState (κ : Type) where
  xcalc : Int
  ycalc : Int
  err : Int
  fits : Bool
  canvas : Canvas κ

def circleRound (x y : UInt16) (filled : Bool) (s : CircleState κ) : CircleState κ ⊕ Drawn κ :=
  if s.xcalc < s.ycalc then
    let xcalc := int16 (s.xcalc+1)
    let ycalc := int16 (if s.err < 0 then s.ycalc else s.ycalc-1)
    let err := if s.err < 0 then s.err+(2*xcalc+1) else s.err+(2*(xcalc-ycalc)+1)
    let fits := s.fits && decide (Fits16 (s.xcalc+1) ∧
      Fits16 (if s.err < 0 then s.ycalc else s.ycalc-1) ∧ Fits16 err)
    match circleHelperImpl d x y (.ofInt xcalc) (.ofInt ycalc) filled s.canvas with
    | (true,c) => .inl ⟨xcalc,ycalc,int16 err,fits,c⟩
    | (false,c) => .inr ⟨false,fits,c⟩
  else .inr ⟨true,s.fits,s.canvas⟩

def qpCircle (x y radius : UInt16) (color : Hsv) (filled : Bool) (c : Canvas κ) (fuel : Nat) :
    Option (Drawn κ) :=
  if d.validateOk then
    let ycalc := int16 radius.toNat
    let err := (5-(radius.toNat >>> 2:Nat):Int) >>> (2:Nat)
    let c := fillPixdata d (radius.toNat*2+1) color c
    if d.commsStart then
      let fits := decide (Fits16 radius.toNat ∧ Fits16 err)
      match circleHelperImpl d x y (.ofInt 0) (.ofInt ycalc) filled c with
      | (true,c) => loop (circleRound d x y filled) fuel ⟨0,ycalc,int16 err,fits,c⟩
      | (false,c) => some ⟨false,fits,c⟩
    else some ⟨false,true,c⟩
  else some ⟨false,true,c⟩

variable {d}

def At (painted : List (Pixel κ)) (x y : UInt16) (dx dy : Int) : Prop :=
  ∃ p ∈ painted, (p.x:Int) = x.toNat+dx ∧ (p.y:Int) = y.toNat+dy

def reflections (dx dy : Int) : List (Int × Int) :=
  [(dx,dy),(dx,-dy),(-dx,dy),(-dx,-dy),(dy,dx),(dy,-dx),(-dy,dx),(-dy,-dx)]

theorem at_append {painted new : List (Pixel κ)} {x y : UInt16} {dx dy : Int} :
    At (painted ++ new) x y dx dy ↔ At painted x y dx dy ∨ At new x y dx dy := by
  simp only [At, List.mem_append, or_and_right, exists_or]

theorem at_map {ps : List (UInt16 × UInt16)} {color : Option κ} {x y : UInt16} {dx dy : Int} :
    At (ps.map fun p => (⟨p.1.toNat,p.2.toNat,color⟩ : Pixel κ)) x y dx dy
      ↔ (dx,dy) ∈ ps.map fun p => ((p.1.toNat:Int)-x.toNat,(p.2.toNat:Int)-y.toNat) := by
  simp only [At, List.mem_map, exists_exists_and_eq_and, Prod.mk.injEq]
  refine exists_congr fun p => and_congr_right fun _ => ?_
  omega

theorem reflections_mem {dx dy : Int} {q : Int × Int} (hq : q ∈ reflections dx dy) :
    q.1*q.1+q.2*q.2 = dx*dx+dy*dy ∧ ∀ q' ∈ reflections q.1 q.2, q' ∈ reflections dx dy := by
  simp only [reflections, List.mem_cons, List.not_mem_nil, or_false] at hq
  rcases hq with rfl | rfl | rfl | rfl | rfl | rfl | rfl | rfl <;>
    exact ⟨by ring,by simp [reflections]⟩

theorem plus_toNat {center offset : UInt16} (h : center.toNat+offset.toNat < 65536) :
    ((plus center offset).toNat:Int)-center.toNat = offset.toNat := by
  rw [plus, Int16.toUInt16_add, UInt16.toUInt16_toInt16, UInt16.toUInt16_toInt16,
    UInt16.toNat_add, Nat.mod_eq_of_lt h]
  omega

theorem minus_toNat {center offset : UInt16} (h : offset.toNat ≤ center.toNat) :
    ((minus center offset).toNat:Int)-center.toNat = -offset.toNat := by
  rw [minus, Int16.toUInt16_sub, UInt16.toUInt16_toInt16, UInt16.toUInt16_toInt16,
    UInt16.toNat_sub_of_le _ _ (UInt16.le_iff_toNat_le.mpr h)]
  omega

/-- An offset that stays on the panel on all sides of the centre. -/
structure Reaches (x y : UInt16) (offset : UInt16) : Prop where
  left : offset.toNat ≤ x.toNat
  right : x.toNat+offset.toNat < 65536
  top : offset.toNat ≤ y.toNat
  bottom : y.toNat+offset.toNat < 65536

theorem circleHelper_draws {x y ox oy : UInt16} (hx : Reaches x y ox) (hy : Reaches x y oy)
    {buffer : Nat → Option κ} :
    ∃ n new ws, Draws d (circleHelperImpl d x y ox oy false) buffer n new ws ∧
      ∀ dx dy, At new x y dx dy ↔ (dx,dy) ∈ reflections ox.toNat oy.toNat := by
  have hxpx := plus_toNat hx.right
  have hxmx := minus_toNat hx.left
  have hypx := plus_toNat hx.bottom
  have hymx := minus_toNat hx.top
  have hxpy := plus_toNat hy.right
  have hxmy := minus_toNat hy.left
  have hypy := plus_toNat hy.bottom
  have hymy := minus_toNat hy.top
  simp only [circleHelperImpl, Bool.false_eq_true, if_false]
  by_cases h0 : ox = 0
  · rw [if_pos h0]
    refine ⟨_,_,_,@setpixels_draws κ d [(x,plus y oy),(x,minus y oy),(plus x oy,y),
      (minus x oy,y)] buffer,fun dx dy => ?_⟩
    rw [at_map]
    simp only [List.map_cons, List.map_nil, hxpy, hxmy, hypy, hymy, Int.sub_self, h0, reflections,
      UInt16.toNat_zero, Nat.cast_zero, Int.neg_zero, List.mem_cons, List.not_mem_nil, or_false]
    grind
  · rw [if_neg h0]
    by_cases he : ox = oy
    · rw [if_pos he]
      refine ⟨_,_,_,@setpixels_draws κ d [(plus x oy,plus y oy),(minus x oy,plus y oy),
        (plus x oy,minus y oy),(minus x oy,minus y oy)] buffer,fun dx dy => ?_⟩
      rw [at_map]
      simp only [List.map_cons, List.map_nil, hxpy, hxmy, hypy, hymy, he, reflections,
        List.mem_cons, List.not_mem_nil, or_false]
      grind
    · rw [if_neg he]
      refine ⟨_,_,_,@setpixels_draws κ d [(plus x ox,plus y oy),(minus x ox,plus y oy),
        (plus x ox,minus y oy),(minus x ox,minus y oy),(plus x oy,plus y ox),
        (minus x oy,plus y ox),(plus x oy,minus y ox),(minus x oy,minus y ox)] buffer,
        fun dx dy => ?_⟩
      rw [at_map]
      simp only [List.map_cons, List.map_nil, hxpx, hxmx, hypx, hymx, hxpy, hxmy, hypy, hymy,
        reflections, List.mem_cons, List.not_mem_nil, or_false]
      grind

def firstErr (r : Int) : Int := (5-r/4)/4

structure Walk (r x y err : Int) : Prop where
  x_nonneg : 0 ≤ x
  x_le : x ≤ y+1
  x_le_r : x ≤ r
  y_nonneg : 0 ≤ y
  y_le : y ≤ r
  term : err = x*x+y*y-r*r+2*x+1-y+(firstErr r-1+r)
  lower : 2*(x-y)+1 ≤ err
  upper : err ≤ 2*x+2
  turn : x < y → err ≤ max (2*x) 1

theorem walk_start {r : Int} (hr : 1 ≤ r) : Walk r 0 r (firstErr r) := by
  have hfirst : firstErr r ≤ 1 ∧ 1-2*r ≤ firstErr r := by
    rw [firstErr]
    omega
  constructor <;> omega

theorem Walk.next_x {r x y err : Int} (h : Walk r x y err) (hlt : x < y) (herr : err < 0) :
    Walk r (x+1) y (err+(2*(x+1)+1)) := by
  obtain ⟨hx,hxy,hxr,hy,hyr,he,hlo,hhi,hturn⟩ := h
  have hsq : (x+1)*(x+1) = x*x+2*x+1 := by ring
  constructor <;> omega

theorem Walk.next_xy {r x y err : Int} (h : Walk r x y err) (hlt : x < y) (herr : 0 ≤ err) :
    Walk r (x+1) (y-1) (err+(2*((x+1)-(y-1))+1)) := by
  obtain ⟨hx,hxy,hxr,hy,hyr,he,hlo,hhi,hturn⟩ := h
  have hsq : (x+1)*(x+1) = x*x+2*x+1 := by ring
  have hsq' : (y-1)*(y-1) = y*y-2*y+1 := by ring
  constructor <;> omega

theorem Walk.near {r x y err : Int} (h : Walk r x y err) (hr : 1 ≤ r) :
    (r-1)*(r-1) ≤ x*x+y*y ∧ x*x+y*y ≤ (r+1)*(r+1) := by
  obtain ⟨hx,hxy,hxr,hy,hyr,he,hlo,hhi,hturn⟩ := h
  have hfirst : firstErr r ≤ 1 ∧ 1-2*r ≤ firstErr r := by
    rw [firstErr]
    omega
  have hsq : (r-1)*(r-1) = r*r-2*r+1 := by ring
  have hsq' : (r+1)*(r+1) = r*r+2*r+1 := by ring
  -- Only on the first row does the bound on the error term not suffice.
  by_cases hy' : y = r
  · subst hy'
    have hpos := Int.mul_nonneg hx hx
    omega
  · omega

theorem shift_two (v : Int) : v >>> (2:Nat) = v/4 := by
  rw [Int.shiftRight_eq_div_pow]
  rfl

structure Symmetric (x y radius : UInt16) (painted : List (Pixel κ)) : Prop where
  near : ∀ dx dy, At painted x y dx dy →
    ((radius.toNat:Int)-1)*(radius.toNat-1) ≤ dx*dx+dy*dy
      ∧ dx*dx+dy*dy ≤ ((radius.toNat:Int)+1)*(radius.toNat+1)
  reflected : ∀ dx dy, At painted x y dx dy → ∀ q ∈ reflections dx dy, At painted x y q.1 q.2

/-- The points on the axes are painted as well. -/
structure CircleRight (x y radius : UInt16) (painted : List (Pixel κ)) : Prop
    extends Symmetric x y radius painted where
  right : At painted x y radius.toNat 0
  left : At painted x y (-radius.toNat) 0
  bottom : At painted x y 0 radius.toNat
  top : At painted x y 0 (-radius.toNat)

theorem Symmetric.append {x y radius : UInt16} {painted new : List (Pixel κ)}
    (h : Symmetric x y radius painted) {a b : Int}
    (hnew : ∀ dx dy, At new x y dx dy ↔ (dx,dy) ∈ reflections a b)
    (hnear : ((radius.toNat:Int)-1)*(radius.toNat-1) ≤ a*a+b*b
      ∧ a*a+b*b ≤ ((radius.toNat:Int)+1)*(radius.toNat+1)) :
    Symmetric x y radius (painted ++ new) := by
  constructor
  · intro dx dy hat
    rcases at_append.mp hat with hat | hat
    · exact h.near dx dy hat
    · have hq := (reflections_mem ((hnew dx dy).mp hat)).1
      dsimp only at hq
      rw [hq]
      exact hnear
  · intro dx dy hat q hq
    rcases at_append.mp hat with hat | hat
    · exact at_append.mpr (.inl (h.reflected dx dy hat q hq))
    · have hmem := (reflections_mem ((hnew dx dy).mp hat)).2 q hq
      exact at_append.mpr (.inr ((hnew q.1 q.2).mpr hmem))

/-- The circle fits into the first 16384 columns and rows. -/
structure CircleOnPanel (x y radius : UInt16) : Prop where
  radius_pos : 1 ≤ radius.toNat
  radius_le : radius.toNat ≤ 4096
  left : radius.toNat ≤ x.toNat
  right : x.toNat+radius.toNat < 16384
  top : radius.toNat ≤ y.toNat
  bottom : y.toNat+radius.toNat < 16384

theorem CircleOnPanel.reaches {x y radius offset : UInt16} (h : CircleOnPanel x y radius)
    (ho : offset.toNat ≤ radius.toNat) : Reaches x y offset := by
  obtain ⟨-,-,hl,hr,ht,hb⟩ := h
  constructor <;> omega

structure CircleInv (x y radius : UInt16) (s : CircleState κ) : Prop where
  fits : s.fits = true
  walk : Walk radius.toNat s.xcalc s.ycalc s.err
  painted : CircleRight x y radius s.canvas.painted

section

variable {x y radius : UInt16} (hd : d.Steady) (hp : CircleOnPanel x y radius)

include hd hp

theorem circleHelper_walk {a b err : Int} (hw : Walk radius.toNat a b err) (c : Canvas κ) :
    ∃ c' new, circleHelperImpl d x y (.ofInt a) (.ofInt b) false c = (true,c') ∧
      c'.painted = c.painted ++ new ∧ ∀ dx dy, At new x y dx dy ↔ (dx,dy) ∈ reflections a b := by
  have hle := hp.radius_le
  have ha := toNat_ofInt hw.x_nonneg (by have := hw.x_le_r; omega)
  have hb := toNat_ofInt hw.y_nonneg (by have := hw.y_le; omega)
  obtain ⟨n,new,ws,hdraws,hnew⟩ := @circleHelper_draws κ d x y (.ofInt a) (.ofInt b)
    (hp.reaches (by have := hw.x_le_r; omega)) (hp.reaches (by have := hw.y_le; omega)) c.buffer
  obtain ⟨c',hc',hpainted,-⟩ := hdraws.run hd rfl
  rw [ha, hb] at hnew
  exact ⟨c',new,hc',hpainted,hnew⟩

theorem circleRound_walk {s : CircleState κ} (hs : CircleInv x y radius s)
    (hlt : s.xcalc < s.ycalc) : ∃ s', circleRound d x y false s = .inl s' ∧
      CircleInv x y radius s' ∧ s'.ycalc-s'.xcalc < s.ycalc-s.xcalc := by
  obtain ⟨hfits,hw,hpainted⟩ := hs
  have hle := hp.radius_le
  have hpos := hp.radius_pos
  have hx : Fits16 (s.xcalc+1) := by
    have := hw.x_nonneg
    have := hw.x_le_r
    constructor <;> omega
  -- The row of the next offset, and its error term.
  obtain ⟨b,err,hb,herr,hnext,hby⟩ : ∃ b err, b = (if s.err < 0 then s.ycalc else s.ycalc-1) ∧
      err = (if s.err < 0 then s.err+(2*(s.xcalc+1)+1) else s.err+(2*(s.xcalc+1-b)+1)) ∧
      Walk radius.toNat (s.xcalc+1) b err ∧ b ≤ s.ycalc := by
    by_cases h : s.err < 0
    · exact ⟨_,_,rfl,rfl,by simpa only [if_pos h] using hw.next_x hlt h,by rw [if_pos h]⟩
    · exact ⟨_,_,rfl,rfl,by simpa only [if_neg h] using hw.next_xy hlt (by omega),
        by rw [if_neg h]; omega⟩
  have hfb : Fits16 b := by
    have := hnext.y_nonneg
    have := hnext.y_le
    constructor <;> omega
  have hfe : Fits16 err := by
    have := hnext.lower
    have := hnext.upper
    have := hnext.x_nonneg
    have := hnext.x_le_r
    have := hnext.y_le
    constructor <;> omega
  obtain ⟨c',new,hc',happend,hnew⟩ := circleHelper_walk hd hp hnext s.canvas
  refine ⟨⟨s.xcalc+1,b,err,true,c'⟩,?_,⟨rfl,hnext,?_⟩,?_⟩
  · rw [circleRound, if_pos hlt]
    dsimp only
    rw [int16_of_fits hx, ← hb, int16_of_fits hfb, ← herr, hc', int16_of_fits hfe, hfits,
      Bool.true_and, decide_eq_true ⟨hx,hfb,hfe⟩]
  · have hnear := hnext.near (by omega)
    dsimp only
    rw [happend]
    exact
      { hpainted.toSymmetric.append hnew hnear with
        right := at_append.mpr (.inl hpainted.right)
        left := at_append.mpr (.inl hpainted.left)
        bottom := at_append.mpr (.inl hpainted.bottom)
        top := at_append.mpr (.inl hpainted.top) }
  · dsimp only
    omega

theorem circle_returns {color : Hsv} :
    Returns (qpCircle d x y radius color false Canvas.start) fun r =>
      r.ret = true ∧ r.fits = true ∧ CircleRight x y radius r.canvas.painted := by
  have hle := hp.radius_le
  have hw := walk_start (by have := hp.radius_pos; omega : (1:Int) ≤ radius.toNat)
  have hr : Fits16 (radius.toNat:Int) := by constructor <;> omega
  have hfe : Fits16 (firstErr radius.toNat) := by
    rw [firstErr]
    constructor <;> omega
  obtain ⟨c',new,hc',happend,hnew⟩ := circleHelper_walk hd hp hw
    (fillPixdata d (radius.toNat*2+1) color Canvas.start)
  have hpainted : CircleRight x y radius c'.painted := by
    have hblank : Symmetric x y radius ([] : List (Pixel κ)) :=
      ⟨by simp [At],by simp [At]⟩
    have happend : c'.painted = [] ++ new := happend
    rw [happend]
    have hmem : ∀ q ∈ reflections 0 radius.toNat, At ([] ++ new) x y q.1 q.2 :=
      fun q hq => (hnew q.1 q.2).mpr hq
    exact
      { hblank.append hnew (hw.near (by have := hp.radius_pos; omega)) with
        right := hmem (radius.toNat,0) (by simp [reflections])
        left := hmem (-radius.toNat,0) (by simp [reflections])
        bottom := hmem (0,radius.toNat) (by simp [reflections])
        top := hmem (0,-radius.toNat) (by simp [reflections]) }
  have he : qpCircle d x y radius color false Canvas.start
      = fun fuel => loop (circleRound d x y false) fuel
        ⟨0,radius.toNat,firstErr radius.toNat,true,c'⟩ := by
    funext fuel
    have hfirst : (5-(radius.toNat >>> 2:Nat):Int) >>> (2:Nat) = firstErr radius.toNat := by
      rw [shift_two, firstErr, Nat.shiftRight_eq_div_pow]
      rfl
    rw [qpCircle, if_pos hd.validateOk]
    dsimp only
    rw [if_pos hd.commsStart, int16_of_fits hr, hc', hfirst, int16_of_fits hfe,
      decide_eq_true ⟨hr,hfe⟩]
  rw [he]
  refine loop_returns (fun s => (s.ycalc-s.xcalc).toNat) (fun s s' hs hround => ?_)
    (fun s r hs hround => ?_) (⟨rfl,hw,hpainted⟩ : CircleInv x y radius _)
  · by_cases hlt : s.xcalc < s.ycalc
    · obtain ⟨s'',hround',hinv,hdown⟩ := circleRound_walk hd hp hs hlt
      obtain rfl := Sum.inl.inj (hround.symm.trans hround')
      exact ⟨hinv,by omega⟩
    · rw [circleRound, if_neg hlt] at hround
      cases hround
  · by_cases hlt : s.xcalc < s.ycalc
    · obtain ⟨s'',hround',-⟩ := circleRound_walk hd hp hs hlt
      rw [hround'] at hround
      cases hround
    · rw [circleRound, if_neg hlt] at hround
      obtain rfl := Sum.inr.inj hround
      exact ⟨rfl,hs.fits,hs.painted⟩

end

end QmkFirmware.Drawing
