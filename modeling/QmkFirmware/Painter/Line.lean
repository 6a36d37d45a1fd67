import QmkFirmware.Lib.Slope
import QmkFirmware.Painter.Circle
import QmkFirmware.Painter.Rect

/-!
Lines. One coordinate goes forward in every round, and an error term in 16 bits says when the other
one does. Lines along an axis are rectangles.
-/

set_option autoImplicit false

namespace QmkFirmware.Drawing

variable {κ : Type} (d : Driver κ)

structure LineState (κ : Type) where
  x : Int
  y : Int
  e : Int
  fits : Bool
  canvas : Canvas κ

def lastPixel (ret : Bool) (s : LineState κ) (c : Canvas κ) : Drawn κ :=
  match setpixelImpl d (.ofInt s.x) (.ofInt s.y) c with
  | (true,c) => ⟨ret,s.fits,c⟩
  | (false,c) => ⟨false,s.fits,c⟩

def lineRound (x1 y1 : UInt16) (slopex slopey dx dy : Int) (s : LineState κ) :
    LineState κ ⊕ Drawn κ :=
  if s.x ≠ x1.toNat ∨ s.y ≠ y1.toNat then
    match setpixelImpl d (.ofInt s.x) (.ofInt s.y) s.canvas with
    | (true,c) =>
      let e2 := int16 (2*s.e)
      let e := if dy ≤ e2 then s.e+dy else s.e
      let x := if dy ≤ e2 then s.x+slopex else s.x
      let e' := if e2 ≤ dx then int16 e+dx else int16 e
      let y := if e2 ≤ dx then s.y+slopey else s.y
      let fits := decide (Fits16 (2*s.e) ∧ Fits16 e ∧ Fits16 x ∧ Fits16 e' ∧ Fits16 y)
      .inl ⟨int16 x,int16 y,int16 e',s.fits && fits,c⟩
    | (false,c) => .inr (lastPixel d false s c)
  else .inr (lastPixel d true s s.canvas)

def qpLine (x0 y0 x1 y1 : UInt16) (color : Hsv) (c : Canvas κ) (fuel : Nat) : Option (Drawn κ) :=
  if x0 = x1 ∨ y0 = y1 then
    let r := qpRect d x0 y0 x1 y1 color true c
    some ⟨r.1,true,r.2⟩
  else if d.validateOk then
    if d.commsStart then
      let c := fillPixdata d 1 color c
      let x := int16 x0.toNat
      let y := int16 y0.toNat
      let slopex := if int16 x0.toNat < int16 x1.toNat then 1 else -1
      let slopey := if int16 y0.toNat < int16 y1.toNat then 1 else -1
      let dx : Int := (int16 x1.toNat-int16 x0.toNat).natAbs
      let dy : Int := -(int16 y1.toNat-int16 y0.toNat).natAbs
      let e := int16 dx+int16 dy
      let fits := decide (Fits16 dx ∧ Fits16 dy ∧ Fits16 e ∧ Fits16 (2*int16 e))
      loop (lineRound d x1 y1 slopex slopey (int16 dx) (int16 dy)) fuel ⟨x,y,int16 e,fits,c⟩
    else some ⟨false,true,c⟩
  else some ⟨false,true,c⟩

def stepX (a b n : Nat) : Nat := if b ≤ a then n else rise b a n

def stepY (a b n : Nat) : Nat := if b ≤ a then rise a b n else n

def term (a b n : Nat) : Int := a-b+(a*stepY a b n-b*stepX a b n)

theorem term_of_le {a b n : Nat} (h : b ≤ a) : term a b n = a-b+excess a b n := by
  rw [term, stepX, stepY, if_pos h, if_pos h, excess]

theorem term_of_lt {a b n : Nat} (h : a < b) : term a b n = -(b-a+excess b a n) := by
  rw [term, stepX, stepY, if_neg (by omega), if_neg (by omega), excess]
  ring

theorem step_ne {a b n : Nat} (hn : n < max a b) : stepX a b n ≠ a ∨ stepY a b n ≠ b := by
  rw [stepX, stepY]
  by_cases h : b ≤ a
  · rw [if_pos h]
    exact .inl (by omega)
  · rw [if_neg h]
    exact .inr (by simp only [if_neg h]; omega)

theorem step_moves {a b n : Nat} :
    stepX a b n.succ = stepX a b n+1 ∨ stepY a b n.succ = stepY a b n+1 := by
  rw [stepX, stepX, stepY, stepY]
  by_cases h : b ≤ a
  · rw [if_pos h, if_pos h]
    exact .inl rfl
  · rw [if_neg h, if_neg h, if_neg h, if_neg h]
    exact .inr rfl

section

variable {a b : Nat} (h0 : 0 < max a b)

include h0

theorem stepX_succ (n : Nat) :
    stepX a b (n+1) = stepX a b n+if -(b:Int) ≤ 2*term a b n then 1 else 0 := by
  by_cases h : b ≤ a
  · obtain ⟨hlo,-⟩ := @excess_bounds a b n (by omega)
    rw [term_of_le h, if_pos (by omega), stepX, stepX, if_pos h, if_pos h]
  · rw [term_of_lt (by omega), stepX, stepX, if_neg h, if_neg h]
    by_cases hle : 2*((b:Int)-a+excess b a n) ≤ b
    · rw [(excess_succ_of_le (by omega) hle (by omega)).1, if_pos (by omega)]
    · rw [(excess_succ_of_lt (by omega) (by omega)).1, if_neg (by omega), Nat.add_zero]

theorem stepY_succ (n : Nat) :
    stepY a b (n+1) = stepY a b n+if 2*term a b n ≤ a then 1 else 0 := by
  by_cases h : b ≤ a
  · rw [term_of_le h, stepY, stepY, if_pos h, if_pos h]
    by_cases hle : 2*((a:Int)-b+excess a b n) ≤ a
    · rw [(excess_succ_of_le (by omega) hle h).1, if_pos hle]
    · rw [(excess_succ_of_lt (by omega) (by omega)).1, if_neg hle, Nat.add_zero]
  · obtain ⟨hlo,-⟩ := @excess_bounds b a n (by omega)
    rw [term_of_lt (by omega), if_pos (by omega), stepY, stepY, if_neg h, if_neg h]

theorem term_succ (n : Nat) : term a b (n+1) = term a b n
    -(if -(b:Int) ≤ 2*term a b n then (b:Int) else 0)+if 2*term a b n ≤ a then (a:Int) else 0 := by
  have hx := stepX_succ h0 n
  have hy := stepY_succ h0 n
  rw [term, hx, hy]
  generalize ht : term a b n = t
  rw [term] at ht
  split <;> split <;> push_cast <;> linear_combination ht

theorem step_end : stepX a b (max a b) = a ∧ stepY a b (max a b) = b := by
  rw [stepX, stepY]
  by_cases h : b ≤ a
  · rw [if_pos h, if_pos h, Nat.max_eq_left h]
    exact ⟨rfl,rise_end (by omega)⟩
  · rw [if_neg h, if_neg h, Nat.max_eq_right (by omega)]
    exact ⟨rise_end (by omega),rfl⟩

theorem step_zero : stepX a b 0 = 0 ∧ stepY a b 0 = 0 := by
  rw [stepX, stepY]
  by_cases h : b ≤ a
  · rw [if_pos h, if_pos h]
    exact ⟨rfl,rise_zero (by omega)⟩
  · rw [if_neg h, if_neg h]
    exact ⟨rise_zero (by omega),rfl⟩

theorem step_le {n : Nat} (hn : n ≤ max a b) : stepX a b n ≤ a ∧ stepY a b n ≤ b := by
  rw [stepX, stepY]
  by_cases h : b ≤ a
  · rw [if_pos h, if_pos h]
    exact ⟨by omega,rise_le (by omega) (by omega)⟩
  · rw [if_neg h, if_neg h]
    exact ⟨rise_le (by omega) (by omega),by omega⟩

theorem step_near (n : Nat) :
    ((a:Int)*stepY a b n-b*stepX a b n).natAbs ≤ max a b := by
  by_cases h : b ≤ a
  · obtain ⟨hlo,hhi⟩ := @excess_bounds a b n (by omega)
    have he : (a:Int)*stepY a b n-b*stepX a b n = excess a b n := by
      rw [stepX, stepY, if_pos h, if_pos h, excess]
    rw [he]
    omega
  · obtain ⟨hlo,hhi⟩ := @excess_bounds b a n (by omega)
    have he : (a:Int)*stepY a b n-b*stepX a b n = -excess b a n := by
      rw [stepX, stepY, if_neg h, if_neg h, excess]
      ring
    rw [he]
    omega

theorem term_bounds (n : Nat) :
    -(3*(max a b:Nat):Int) ≤ 2*term a b n ∧ 2*term a b n ≤ 3*(max a b:Nat) := by
  by_cases h : b ≤ a
  · obtain ⟨hlo,hhi⟩ := @excess_bounds a b n (by omega)
    rw [term_of_le h]
    omega
  · obtain ⟨hlo,hhi⟩ := @excess_bounds b a n (by omega)
    rw [term_of_lt (by omega)]
    omega

theorem term_fits (ha : a < 16384) (hb : b < 16384) :
    (∀ n < max a b, Fits16 (2*term a b n)) ↔
      if b ≤ a then peak a b < 16384 else peak b a ≤ 16384 := by
  by_cases h : b ≤ a
  · rw [if_pos h]
    constructor
    · intro hall
      obtain ⟨n,hn,hpeak⟩ := @peak_attained a b (by omega) h
      have hf := (hall n (by omega)).2
      rw [term_of_le h, hpeak] at hf
      omega
    · intro hpeak n _
      have hle := @le_peak a b n (by omega) h
      obtain ⟨hlo,hhi⟩ := @excess_bounds a b n (by omega)
      rw [term_of_le h]
      constructor <;> omega
  · rw [if_neg h]
    constructor
    · intro hall
      obtain ⟨n,hn,hpeak⟩ := @peak_attained b a (by omega) (by omega)
      have hf := (hall n (by omega)).1
      rw [term_of_lt (by omega), hpeak] at hf
      omega
    · intro hpeak n _
      have hle := @le_peak b a n (by omega) (by omega)
      obtain ⟨hlo,hhi⟩ := @excess_bounds b a n (by omega)
      rw [term_of_lt (by omega)]
      constructor <;> omega

end

structure Neighbours (p q : Int × Int) : Prop where
  ne : p ≠ q
  x : (q.1-p.1).natAbs ≤ 1
  y : (q.2-p.2).natAbs ≤ 1

/-- A path between two points. The last part says that it is less than a pixel away from the
segment, in the direction in which that is longer measured along the other one. -/
structure IsLine (x0 y0 x1 y1 : Int) (path : List (Int × Int)) : Prop where
  first : path.head? = some (x0,y0)
  last : path.getLast? = some (x1,y1)
  steps : path.IsChain Neighbours
  box : ∀ p ∈ path, (min x0 x1 ≤ p.1 ∧ p.1 ≤ max x0 x1) ∧ min y0 y1 ≤ p.2 ∧ p.2 ≤ max y0 y1
  length : path.length = max (x1-x0).natAbs (y1-y0).natAbs+1
  near : ∀ p ∈ path,
    ((p.2-y0)*(x1-x0)-(p.1-x0)*(y1-y0)).natAbs ≤ max (x1-x0).natAbs (y1-y0).natAbs

theorem IsLine.reverse {x0 y0 x1 y1 : Int} {path : List (Int × Int)}
    (h : IsLine x0 y0 x1 y1 path) : IsLine x1 y1 x0 y0 path.reverse where
  first := by rw [List.head?_reverse, h.last]
  last := by rw [List.getLast?_reverse, h.first]
  steps := by
    rw [List.isChain_reverse]
    refine h.steps.imp fun p q hpq => ?_
    obtain ⟨hne,hx,hy⟩ := hpq
    exact ⟨hne.symm,by omega,by omega⟩
  box p hp := by
    have hbox := h.box p (List.mem_reverse.mp hp)
    rw [min_comm, max_comm, min_comm y1, max_comm y1]
    exact hbox
  length := by
    rw [List.length_reverse, h.length]
    omega
  near p hp := by
    have hnear := h.near p (List.mem_reverse.mp hp)
    have he : (p.2-y1)*(x0-x1)-(p.1-x1)*(y0-y1) = -((p.2-y0)*(x1-x0)-(p.1-x0)*(y1-y0)) := by ring
    rw [he, Int.natAbs_neg]
    omega

/-- The n-th point of a line that goes `a` columns and `b` rows in the directions `sx` and `sy`. -/
def place (x0 y0 sx sy : Int) (a b n : Nat) : Int × Int :=
  (x0+sx*stepX a b n,y0+sy*stepY a b n)

theorem isLine_place {x0 y0 sx sy : Int} {a b : Nat} (h0 : 0 < max a b) (hsx : sx = 1 ∨ sx = -1)
    (hsy : sy = 1 ∨ sy = -1) :
    IsLine x0 y0 (x0+sx*a) (y0+sy*b)
      ((List.range (max a b+1)).map (place x0 y0 sx sy a b)) := by
  have ha : (x0+sx*a-x0).natAbs = a := by rcases hsx with rfl | rfl <;> omega
  have hb : (y0+sy*b-y0).natAbs = b := by rcases hsy with rfl | rfl <;> omega
  constructor
  · obtain ⟨hx,hy⟩ := step_zero h0
    simp [List.range_succ_eq_map, place, hx, hy]
  · obtain ⟨hx,hy⟩ := step_end h0
    simp [List.range_succ, place, hx, hy]
  · rw [List.isChain_map, List.isChain_range_succ]
    intro n hn
    have hmoves := @step_moves a b n
    have hx : stepX a b n.succ = stepX a b n ∨ stepX a b n.succ = stepX a b n+1 := by
      rw [Nat.succ_eq_add_one, stepX_succ h0]
      split <;> omega
    have hy : stepY a b n.succ = stepY a b n ∨ stepY a b n.succ = stepY a b n+1 := by
      rw [Nat.succ_eq_add_one, stepY_succ h0]
      split <;> omega
    refine ⟨fun he => ?_,?_,?_⟩
    · obtain ⟨hex,hey⟩ := Prod.mk.inj he
      rcases hsx with rfl | rfl <;> rcases hsy with rfl | rfl <;> omega
    · rcases hsx with rfl | rfl <;> simp only [place] <;> omega
    · rcases hsy with rfl | rfl <;> simp only [place] <;> omega
  · intro p hp
    obtain ⟨n,hn,rfl⟩ := List.mem_map.mp hp
    obtain ⟨hx,hy⟩ := step_le h0 (Nat.le_of_lt_succ (List.mem_range.mp hn))
    rw [place]
    rcases hsx with rfl | rfl <;> rcases hsy with rfl | rfl <;> dsimp only <;> omega
  · rw [List.length_map, List.length_range, ha, hb]
  · intro p hp
    obtain ⟨n,hn,rfl⟩ := List.mem_map.mp hp
    have hnear := step_near h0 n
    rw [ha, hb]
    have he : ((place x0 y0 sx sy a b n).2-y0)*(x0+sx*a-x0)
        -((place x0 y0 sx sy a b n).1-x0)*(y0+sy*b-y0)
        = sx*sy*((a:Int)*stepY a b n-b*stepX a b n) := by
      rw [place]
      ring
    rw [he, Int.natAbs_mul]
    rcases hsx with rfl | rfl <;> rcases hsy with rfl | rfl <;> simpa using hnear

variable {d}

def points (c : Canvas κ) : List (Int × Int) := c.painted.map fun p => (p.x,p.y)

structure Course (x0 y0 x1 y1 : UInt16) (sx sy : Int) (a b : Nat) : Prop where
  x0_lt : x0.toNat < 16384
  y0_lt : y0.toNat < 16384
  x1_lt : x1.toNat < 16384
  y1_lt : y1.toNat < 16384
  slopex : sx = 1 ∨ sx = -1
  slopey : sy = 1 ∨ sy = -1
  a_pos : 0 < a
  b_pos : 0 < b
  x : (x1.toNat:Int) = x0.toNat+sx*a
  y : (y1.toNat:Int) = y0.toNat+sy*b

structure Reached (x0 y0 : UInt16) (sx sy : Int) (a b n : Nat) (s : LineState κ) : Prop where
  x : s.x = x0.toNat+sx*stepX a b n
  y : s.y = y0.toNat+sy*stepY a b n
  e : s.e = term a b n
  painted : points s.canvas = (List.range n).map (place x0.toNat y0.toNat sx sy a b)

section

variable {x0 y0 x1 y1 : UInt16} {sx sy : Int} {a b : Nat}

theorem Course.small (hc : Course x0 y0 x1 y1 sx sy a b) : a < 16384 ∧ b < 16384 := by
  obtain ⟨hx0,hy0,hx1,hy1,hsx,hsy,-,-,hx,hy⟩ := hc
  rcases hsx with rfl | rfl <;> rcases hsy with rfl | rfl <;> omega

theorem Course.max_pos (hc : Course x0 y0 x1 y1 sx sy a b) : 0 < max a b := by
  have := hc.a_pos
  omega

theorem Course.range (hc : Course x0 y0 x1 y1 sx sy a b) {n : Nat} (hn : n ≤ max a b) :
    (0 ≤ x0.toNat+sx*stepX a b n ∧ x0.toNat+sx*stepX a b n < 16384) ∧
      0 ≤ y0.toNat+sy*stepY a b n ∧ y0.toNat+sy*stepY a b n < 16384 := by
  obtain ⟨hlex,hley⟩ := step_le hc.max_pos hn
  obtain ⟨hx0,hy0,hx1,hy1,hsx,hsy,-,-,hx,hy⟩ := hc
  rcases hsx with rfl | rfl <;> rcases hsy with rfl | rfl <;> omega

theorem setpixel_place (hd : d.Steady) (hc : Course x0 y0 x1 y1 sx sy a b) {n : Nat}
    (hn : n ≤ max a b) {s : LineState κ} (hs : Reached x0 y0 sx sy a b n s) :
    ∃ c, setpixelImpl d (.ofInt s.x) (.ofInt s.y) s.canvas = (true,c) ∧
      points c = (List.range (n+1)).map (place x0.toNat y0.toNat sx sy a b) := by
  obtain ⟨c,hset,hpainted,-⟩ := (@setpixelImpl_draws κ d (.ofInt s.x) (.ofInt s.y)
    s.canvas.buffer).run hd rfl
  obtain ⟨hx,hy⟩ := hc.range hn
  refine ⟨c,hset,?_⟩
  rw [points, hpainted, List.map_append, List.range_succ, List.map_append, ← hs.painted]
  simp only [List.map_cons, List.map_nil, hs.x, hs.y, toNat_ofInt hx.1 (by omega),
    toNat_ofInt hy.1 (by omega)]
  rfl

theorem lineRound_step (hd : d.Steady) (hc : Course x0 y0 x1 y1 sx sy a b) {n : Nat}
    (hn : n < max a b) {s : LineState κ} (hs : Reached x0 y0 sx sy a b n s) :
    ∃ s', lineRound d x1 y1 sx sy a (-b) s = .inl s' ∧
      s'.fits = (s.fits && decide (Fits16 (2*term a b n))) ∧
      (Fits16 (2*term a b n) → Reached x0 y0 sx sy a b (n+1) s') := by
  obtain ⟨c,hset,hpoints⟩ := setpixel_place hd hc (Nat.le_of_lt hn) hs
  have hne : s.x ≠ x1.toNat ∨ s.y ≠ y1.toNat := by
    have hstep := step_ne hn
    rw [hs.x, hs.y, hc.x, hc.y]
    rcases hc.slopex with rfl | rfl <;> rcases hc.slopey with rfl | rfl <;> omega
  rw [lineRound, if_pos hne, hset]
  have hbounds := term_bounds hc.max_pos n
  have hbounds' := term_bounds hc.max_pos (n+1)
  have hle : n+1 ≤ max a b := hn
  obtain ⟨⟨hxlo,hxhi⟩,hylo,hyhi⟩ := hc.range hle
  obtain ⟨ha,hb⟩ := hc.small
  have hx : (if -(b:Int) ≤ 2*term a b n then s.x+sx else s.x)
      = x0.toNat+sx*stepX a b (n+1) := by
    rw [stepX_succ hc.max_pos, hs.x]
    split <;> push_cast <;> ring
  have hy : (if 2*term a b n ≤ a then s.y+sy else s.y) = y0.toNat+sy*stepY a b (n+1) := by
    rw [stepY_succ hc.max_pos, hs.y]
    split <;> push_cast <;> ring
  have he : Fits16 (if -(b:Int) ≤ 2*term a b n then s.e+-b else s.e) := by
    rw [hs.e]
    split <;> constructor <;> omega
  have he' : (if 2*term a b n ≤ a then
      (if -(b:Int) ≤ 2*term a b n then s.e+-b else s.e)+a
      else if -(b:Int) ≤ 2*term a b n then s.e+-b else s.e) = term a b (n+1) := by
    rw [term_succ hc.max_pos, hs.e]
    split <;> split <;> omega
  have hfx : Fits16 (x0.toNat+sx*stepX a b (n+1)) := by constructor <;> omega
  have hfy : Fits16 (y0.toNat+sy*stepY a b (n+1)) := by constructor <;> omega
  have hfe : Fits16 (term a b (n+1)) := by constructor <;> omega
  refine ⟨_,rfl,?_,fun hfits => ?_⟩
  · by_cases hfits : Fits16 (2*term a b n)
    · dsimp only
      rw [hs.e] at he he' ⊢
      rw [int16_of_fits hfits, int16_of_fits he, hx, hy, he', decide_eq_true hfits,
        decide_eq_true ⟨hfits,he,hfx,hfe,hfy⟩]
    · dsimp only
      rw [hs.e, decide_eq_false hfits, decide_eq_false fun h => hfits h.1]
  · rw [hs.e] at he he'
    constructor
    · dsimp only
      rw [hs.e, int16_of_fits hfits, hx, int16_of_fits hfx]
    · dsimp only
      rw [hs.e, int16_of_fits hfits, hy, int16_of_fits hfy]
    · dsimp only
      rw [hs.e, int16_of_fits hfits, int16_of_fits he, he', int16_of_fits hfe]
    · exact hpoints

theorem lineRound_end (hd : d.Steady) (hc : Course x0 y0 x1 y1 sx sy a b) {s : LineState κ}
    (hs : Reached x0 y0 sx sy a b (max a b) s) {dx dy : Int} :
    ∃ c, lineRound d x1 y1 sx sy dx dy s = .inr ⟨true,s.fits,c⟩ ∧
      points c = (List.range (max a b+1)).map (place x0.toNat y0.toNat sx sy a b) := by
  obtain ⟨c,hset,hpoints⟩ := setpixel_place hd hc (Nat.le_refl _) hs
  obtain ⟨hx,hy⟩ := step_end hc.max_pos
  have heq : ¬(s.x ≠ x1.toNat ∨ s.y ≠ y1.toNat) := by
    rw [hs.x, hs.y, hc.x, hc.y, hx, hy]
    simp
  refine ⟨c,?_,hpoints⟩
  rw [lineRound, if_neg heq, lastPixel, hset]

theorem lineRound_unfit {s : LineState κ} (hs : s.fits = false) {dx dy : Int} :
    (∀ s', lineRound d x1 y1 sx sy dx dy s = .inl s' → s'.fits = false) ∧
      ∀ r, lineRound d x1 y1 sx sy dx dy s = .inr r → r.fits = false := by
  rw [lineRound]
  constructor
  · intro s' hround
    split at hround
    · split at hround
      · obtain rfl := Sum.inl.inj hround
        simp [hs]
      · cases hround
    · cases hround
  · intro r hround
    have hlast : ∀ ret c, (lastPixel d ret s c).fits = false := by
      intro ret c
      rw [lastPixel]
      split <;> exact hs
    split at hround
    · split at hround
      · cases hround
      · obtain rfl := Sum.inr.inj hround
        exact hlast _ _
    · obtain rfl := Sum.inr.inj hround
      exact hlast _ _

theorem reached_start (hc : Course x0 y0 x1 y1 sx sy a b) {fits : Bool} {c : Canvas κ}
    (hblank : c.painted = []) :
    Reached x0 y0 sx sy a b 0 ⟨x0.toNat,y0.toNat,(a:Int)-b,fits,c⟩ := by
  obtain ⟨hx,hy⟩ := step_zero hc.max_pos
  exact ⟨by simp [hx],by simp [hy],by simp [term, hx, hy],by simp [points, hblank]⟩

theorem Reached.length {n : Nat} {s : LineState κ} (hs : Reached x0 y0 sx sy a b n s) :
    (points s.canvas).length = n := by
  rw [hs.painted, List.length_map, List.length_range]

theorem lineRound_fit (hd : d.Steady) (hc : Course x0 y0 x1 y1 sx sy a b)
    (hfits : ∀ n < max a b, Fits16 (2*term a b n)) {n : Nat} {s : LineState κ}
    (hfit : s.fits = true) (hn : n ≤ max a b) (hs : Reached x0 y0 sx sy a b n s) :
    (∃ s', lineRound d x1 y1 sx sy a (-b) s = .inl s' ∧ s'.fits = true ∧ n < max a b ∧
      Reached x0 y0 sx sy a b (n+1) s') ∨
    ∃ c, lineRound d x1 y1 sx sy a (-b) s = .inr ⟨true,true,c⟩ ∧
      points c = (List.range (max a b+1)).map (place x0.toNat y0.toNat sx sy a b) := by
  by_cases hlt : n < max a b
  · obtain ⟨s',hs',hfit',hnext⟩ := lineRound_step hd hc hlt hs
    refine .inl ⟨s',hs',?_,hlt,hnext (hfits n hlt)⟩
    rw [hfit', hfit, decide_eq_true (hfits n hlt)]
    rfl
  · obtain rfl : n = max a b := by omega
    obtain ⟨c,hend,hpoints⟩ := lineRound_end hd hc hs
    rw [hfit] at hend
    exact .inr ⟨c,hend,hpoints⟩

theorem line_loop_right (hd : d.Steady) (hc : Course x0 y0 x1 y1 sx sy a b)
    (hfits : ∀ n < max a b, Fits16 (2*term a b n)) {c : Canvas κ} (hblank : c.painted = []) :
    Returns (fun fuel => loop (lineRound d x1 y1 sx sy a (-b)) fuel
      ⟨x0.toNat,y0.toNat,(a:Int)-b,true,c⟩) fun r => r.ret = true ∧ r.fits = true ∧
        points r.canvas = (List.range (max a b+1)).map (place x0.toNat y0.toNat sx sy a b) := by
  refine @loop_returns _ _ _
    (fun s => s.fits = true ∧ ∃ n ≤ max a b, Reached x0 y0 sx sy a b n s) _
    (fun s => max a b-(points s.canvas).length) (fun s s' hs hs' => ?_) (fun s r hs hr => ?_) _
    ⟨rfl,0,Nat.zero_le _,reached_start hc hblank⟩
  · obtain ⟨hfit,n,hn,hs⟩ := hs
    rcases lineRound_fit hd hc hfits hfit hn hs with ⟨s'',hs'',hfit',hlt,hnext⟩ | ⟨c,hend,-⟩
    · obtain rfl := Sum.inl.inj (hs'.symm.trans hs'')
      refine ⟨⟨hfit',n+1,hlt,hnext⟩,?_⟩
      rw [hs.length, hnext.length]
      omega
    · rw [hs'] at hend
      cases hend
  · obtain ⟨hfit,n,hn,hs⟩ := hs
    rcases lineRound_fit hd hc hfits hfit hn hs with ⟨s'',hs'',-⟩ | ⟨c,hend,hpoints⟩
    · rw [hr] at hs''
      cases hs''
    · obtain rfl := Sum.inr.inj (hr.symm.trans hend)
      exact ⟨rfl,rfl,hpoints⟩

theorem line_loop_wrong (hd : d.Steady) (hc : Course x0 y0 x1 y1 sx sy a b) {m : Nat}
    (hm : m < max a b) (hunfit : ¬Fits16 (2*term a b m)) {fits : Bool} {c : Canvas κ}
    (hblank : c.painted = []) {fuel : Nat} {r : Drawn κ}
    (h : loop (lineRound d x1 y1 sx sy a (-b)) fuel
      ⟨x0.toNat,y0.toNat,(a:Int)-b,fits,c⟩ = some r) : r.fits = false := by
  refine @loop_post _ _ _
    (fun s => s.fits = false ∨ ∃ n ≤ m, Reached x0 y0 sx sy a b n s) (fun r => r.fits = false)
    (fun s s' hs hs' => ?_) (fun s r hs hr => ?_) fuel _ r
    (.inr ⟨0,Nat.zero_le _,reached_start hc hblank⟩) h
  · rcases hs with hs | ⟨n,hn,hs⟩
    · exact .inl ((lineRound_unfit hs).1 s' hs')
    · obtain ⟨s'',hs'',hfit,hnext⟩ := lineRound_step hd hc (by omega) hs
      obtain rfl := Sum.inl.inj (hs'.symm.trans hs'')
      by_cases hf : Fits16 (2*term a b n)
      · have hne : n ≠ m := fun he => hunfit (he ▸ hf)
        exact .inr ⟨n+1,by omega,hnext hf⟩
      · rw [decide_eq_false hf, Bool.and_false] at hfit
        exact .inl hfit
  · rcases hs with hs | ⟨n,hn,hs⟩
    · exact (lineRound_unfit hs).2 r hr
    · obtain ⟨s'',hs'',-⟩ := lineRound_step hd hc (by omega) hs
      rw [hr] at hs''
      cases hs''

end

/-- A line is drawn without a number that is too large, as a path between its end points. As a
rectangle it may be drawn from the second one to the first one. -/
structure LineRight (x0 y0 x1 y1 : UInt16) (r : Drawn κ) : Prop where
  ret : r.ret = true
  fits : r.fits = true
  path : ∃ path, (path = points r.canvas ∨ (x0 = x1 ∨ y0 = y1) ∧
      path = (points r.canvas).reverse) ∧ IsLine x0.toNat y0.toNat x1.toNat y1.toNat path

/-- How far and in which direction it is from `u` to `v`. -/
def extent (u v : UInt16) : Nat := ((v.toNat:Int)-u.toNat).natAbs

def slope (u v : UInt16) : Int := if (u.toNat:Int) < v.toNat then 1 else -1

/-- Twice the error term of the line fits 16 bits. -/
def LineFits (x0 y0 x1 y1 : UInt16) : Prop :=
  if extent y0 y1 ≤ extent x0 x1 then peak (extent x0 x1) (extent y0 y1) < 16384
  else peak (extent y0 y1) (extent x0 x1) ≤ 16384

/-- The end points of a line. -/
structure Ends (x0 y0 x1 y1 : UInt16) : Prop where
  x0_lt : x0.toNat < 16384
  y0_lt : y0.toNat < 16384
  x1_lt : x1.toNat < 16384
  y1_lt : y1.toNat < 16384
  ne : (x0,y0) ≠ (x1,y1)

section

variable {x0 y0 x1 y1 : UInt16}

theorem slope_eq {u v : UInt16} :
    (slope u v = 1 ∨ slope u v = -1) ∧ (v.toNat:Int) = u.toNat+slope u v*extent u v := by
  rw [slope, extent]
  split <;> omega

theorem extent_pos {u v : UInt16} (h : u ≠ v) : 0 < extent u v := by
  have h := mt UInt16.toNat_inj.mp h
  rw [extent]
  omega

theorem Ends.course (h : Ends x0 y0 x1 y1) (hx : x0 ≠ x1) (hy : y0 ≠ y1) :
    Course x0 y0 x1 y1 (slope x0 x1) (slope y0 y1) (extent x0 x1) (extent y0 y1) where
  x0_lt := h.x0_lt
  y0_lt := h.y0_lt
  x1_lt := h.x1_lt
  y1_lt := h.y1_lt
  slopex := slope_eq.1
  slopey := slope_eq.1
  a_pos := extent_pos hx
  b_pos := extent_pos hy
  x := slope_eq.2
  y := slope_eq.2

theorem qpLine_eq (hd : d.Steady) (h : Ends x0 y0 x1 y1) (hx : x0 ≠ x1) (hy : y0 ≠ y1)
    {color : Hsv} {c : Canvas κ} :
    qpLine d x0 y0 x1 y1 color c = fun fuel =>
      loop (lineRound d x1 y1 (slope x0 x1) (slope y0 y1) (extent x0 x1) (-(extent y0 y1:Int))) fuel
        ⟨x0.toNat,y0.toNat,(extent x0 x1:Int)-extent y0 y1,
          decide (Fits16 (2*term (extent x0 x1) (extent y0 y1) 0)),fillPixdata d 1 color c⟩ := by
  funext fuel
  have hc := h.course hx hy
  obtain ⟨ha,hb⟩ := hc.small
  obtain ⟨hzx,hzy⟩ := step_zero hc.max_pos
  have hterm : term (extent x0 x1) (extent y0 y1) 0
      = (extent x0 x1:Int)+-(extent y0 y1:Int) := by
    rw [term, hzx, hzy]
    omega
  have h16 : ∀ {u : UInt16}, u.toNat < 16384 → int16 u.toNat = u.toNat := by
    intro u hu
    exact int16_of_fits (by constructor <;> omega)
  have hdx : Fits16 (extent x0 x1:Int) := by constructor <;> omega
  have hdy : Fits16 (-(extent y0 y1:Int)) := by constructor <;> omega
  have he : Fits16 ((extent x0 x1:Int)+-(extent y0 y1:Int)) := by constructor <;> omega
  rw [qpLine, if_neg (by simp [hx, hy]), if_pos hd.validateOk]
  dsimp only
  rw [if_pos hd.commsStart, h16 h.x0_lt, h16 h.y0_lt, h16 h.x1_lt, h16 h.y1_lt]
  rw [← extent, ← extent, ← slope, ← slope]
  rw [int16_of_fits hdx, int16_of_fits hdy, int16_of_fits he, hterm]
  simp only [hdx, hdy, he, true_and]
  rw [Int.sub_eq_add_neg]

theorem Ends.steps_pos (h : Ends x0 y0 x1 y1) : 0 < max (extent x0 x1) (extent y0 y1) := by
  by_cases hx : x0 = x1
  · have hy : y0 ≠ y1 := fun hy => h.ne (by rw [hx, hy])
    have := extent_pos hy
    omega
  · have := extent_pos hx
    omega

theorem lineFits_iff (h : Ends x0 y0 x1 y1) :
    (∀ n < max (extent x0 x1) (extent y0 y1),
        Fits16 (2*term (extent x0 x1) (extent y0 y1) n)) ↔ LineFits x0 y0 x1 y1 := by
  have hx0 := h.x0_lt
  have hx1 := h.x1_lt
  have hy0 := h.y0_lt
  have hy1 := h.y1_lt
  exact term_fits h.steps_pos (by rw [extent]; omega) (by rw [extent]; omega)

theorem line_iff (hd : d.Steady) (h : Ends x0 y0 x1 y1) (hx : x0 ≠ x1) (hy : y0 ≠ y1)
    {color : Hsv} : Returns (qpLine d x0 y0 x1 y1 color Canvas.start) (LineRight x0 y0 x1 y1)
      ↔ LineFits x0 y0 x1 y1 := by
  have hc := h.course hx hy
  rw [qpLine_eq hd h hx hy, ← lineFits_iff h]
  constructor
  · rintro ⟨r,⟨n,hn⟩,hr⟩ m hm
    by_contra hunfit
    have hfits := line_loop_wrong hd hc hm hunfit rfl (hn n (Nat.le_refl n))
    exact absurd hr.fits (by rw [hfits]; simp)
  · intro hfits
    rw [decide_eq_true (hfits 0 hc.max_pos)]
    refine (line_loop_right hd hc hfits rfl).imp fun r hr => ?_
    obtain ⟨hret,hfit,hpoints⟩ := hr
    refine ⟨hret,hfit,_,.inl rfl,?_⟩
    rw [hpoints, hc.x, hc.y]
    exact isLine_place hc.max_pos hc.slopex hc.slopey

theorem lineFits_axis (h : Ends x0 y0 x1 y1) (haxis : x0 = x1 ∨ y0 = y1) :
    LineFits x0 y0 x1 y1 := by
  have hx0 := h.x0_lt
  have hx1 := h.x1_lt
  have hy0 := h.y0_lt
  have hy1 := h.y1_lt
  rw [LineFits]
  rcases haxis with rfl | rfl
  · have hpos := extent_pos (fun he => h.ne (by rw [he]) : y0 ≠ y1)
    have hzero : extent x0 x0 = 0 := by rw [extent]; omega
    have hlt : extent y0 y1 < 16384 := by rw [extent]; omega
    rw [hzero, if_neg (by omega), peak, Nat.gcd_zero_right, Nat.sub_zero,
      Nat.div_eq_of_lt (by omega)]
    omega
  · have hpos := extent_pos (fun he => h.ne (by rw [he]) : x0 ≠ x1)
    have hzero : extent y0 y0 = 0 := by rw [extent]; omega
    have hlt : extent x0 x1 < 16384 := by rw [extent]; omega
    rw [hzero, if_pos (Nat.zero_le _), peak, Nat.gcd_zero_right, Nat.sub_zero,
      Nat.div_eq_of_lt (by omega)]
    omega

theorem step_axis {a b : Nat} (haxis : a = 0 ∨ b = 0) (h0 : 0 < max a b) {n : Nat}
    (hn : n ≤ max a b) : n%(a+1) = stepX a b n ∧ n/(a+1)%(b+1) = stepY a b n := by
  obtain ⟨hx,hy⟩ := step_le h0 hn
  rcases haxis with rfl | rfl
  · rw [Nat.zero_add, Nat.mod_one, Nat.div_one, Nat.mod_eq_of_lt (by omega)]
    exact ⟨by omega,by rw [stepY, if_neg (by omega)]⟩
  · rw [Nat.mod_eq_of_lt (by omega), Nat.div_eq_of_lt (by omega)]
    exact ⟨by rw [stepX, if_pos (Nat.zero_le a)],by omega⟩

theorem rect_points (hd : d.Steady) (h : Ends x0 y0 x1 y1) (haxis : x0 = x1 ∨ y0 = y1)
    {color : Hsv} : (qpRect d x0 y0 x1 y1 color true Canvas.start).1 = true ∧
      points (qpRect d x0 y0 x1 y1 color true Canvas.start).2
        = (List.range (max (extent x0 x1) (extent y0 y1)+1)).map
          (place (min x0.toNat x1.toNat:Nat) (min y0.toNat y1.toNat:Nat) 1 1 (extent x0 x1)
            (extent y0 y1)) := by
  have hx0 := h.x0_lt
  have hx1 := h.x1_lt
  have hy0 := h.y0_lt
  have hy1 := h.y1_lt
  have hsmall : (corners x0 y0 x1 y1).Small := by
    constructor <;> simp only [corners, toNat_min, toNat_max] <;> omega
  have hdraws := @drawAll_draws κ d [corners x0 y0 x1 y1]
    (fillPixdata d (corners x0 y0 x1 y1).area color Canvas.start).buffer (fun w hw => by
      rw [List.mem_singleton.mp hw, sorted_corners]
      exact hsmall)
  obtain ⟨c,hdraw,hpainted,-⟩ := hdraws.run hd rfl
  have he : qpRect d x0 y0 x1 y1 color true Canvas.start = (true,c) := by
    rw [qpRect_filled hsmall hd.validateOk hd.commsStart]
    exact hdraw
  have hwidth : (corners x0 y0 x1 y1).width = extent x0 x1+1 := by
    rw [corners_width, extent]
    omega
  have hheight : (corners x0 y0 x1 y1).height = extent y0 y1+1 := by
    rw [corners_height, extent]
    omega
  have hzero : extent x0 x1 = 0 ∨ extent y0 y1 = 0 := by
    rw [extent, extent]
    rcases haxis with rfl | rfl <;> omega
  have hcount : (extent x0 x1+1)*(extent y0 y1+1) = max (extent x0 x1) (extent y0 y1)+1 := by
    rcases hzero with hz | hz <;> rw [hz] <;> omega
  rw [he]
  refine ⟨rfl,?_⟩
  have hpainted : c.painted = [] ++ ([corners x0 y0 x1 y1].flatMap fun w => pixels d w.sorted
    (fillPixdata d (corners x0 y0 x1 y1).area color Canvas.start).buffer 0 w.area) := hpainted
  rw [points, hpainted, List.nil_append, List.flatMap_singleton, sorted_corners, pixels,
    List.map_map, Window.area, sorted_corners, hwidth, hheight, hcount]
  refine List.map_congr_left fun n hn => ?_
  obtain ⟨hx,hy⟩ := step_axis hzero h.steps_pos (Nat.le_of_lt_succ (List.mem_range.mp hn))
  simp only [Function.comp_apply, Window.pixel, hwidth, hheight, Nat.zero_add, hx, hy]
  simp only [place, corners, toNat_min, Nat.cast_add, Int.one_mul]

theorem line_axis (hd : d.Steady) (h : Ends x0 y0 x1 y1) (haxis : x0 = x1 ∨ y0 = y1)
    {color : Hsv} :
    Returns (qpLine d x0 y0 x1 y1 color Canvas.start) (LineRight x0 y0 x1 y1) := by
  obtain ⟨hok,hpoints⟩ := @rect_points _ _ _ _ _ _ hd h haxis color
  refine ⟨_,Eventually.of_eq fun fuel => by rw [qpLine, if_pos haxis],⟨hok,rfl,?_⟩⟩
  have hline := @isLine_place (min x0.toNat x1.toNat:Nat) (min y0.toNat y1.toNat:Nat) 1 1 _ _
    h.steps_pos (.inl rfl) (.inl rfl)
  rw [← hpoints] at hline
  by_cases hle : x0.toNat ≤ x1.toNat ∧ y0.toNat ≤ y1.toNat
  · refine ⟨_,.inl rfl,?_⟩
    convert hline using 1
    · omega
    · omega
    · rw [extent]
      omega
    · rw [extent]
      omega
  · refine ⟨_,.inr ⟨haxis,rfl⟩,?_⟩
    rcases haxis with rfl | rfl
    · convert hline.reverse using 1
      · rw [extent]
        omega
      · rw [extent]
        omega
      · omega
      · omega
    · convert hline.reverse using 1
      · rw [extent]
        omega
      · rw [extent]
        omega
      · omega
      · omega

end

/-- A line is drawn right if and only if twice its error term fits 16 bits. A circle always is. -/
theorem line_and_circle_right (d : Driver κ) (hd : d.Steady) (color : Hsv) :
    (∀ x0 y0 x1 y1, Ends x0 y0 x1 y1 →
      (Returns (qpLine d x0 y0 x1 y1 color Canvas.start) (LineRight x0 y0 x1 y1)
        ↔ LineFits x0 y0 x1 y1)) ∧
    ∀ x y radius, CircleOnPanel x y radius →
      Returns (qpCircle d x y radius color false Canvas.start) fun r =>
        r.ret = true ∧ r.fits = true ∧ CircleRight x y radius r.canvas.painted := by
  constructor
  · intro x0 y0 x1 y1 h
    by_cases haxis : x0 = x1 ∨ y0 = y1
    · exact iff_of_true (line_axis hd h haxis) (lineFits_axis h haxis)
    · obtain ⟨hx,hy⟩ := not_or.mp haxis
      exact line_iff hd h hx hy
  · intro x y radius h
    exact circle_returns hd h

theorem line_and_circle_right_steady :
    (Returns (qpLine steady 3 90 40 2 ⟨0,0,255⟩ Canvas.start) (LineRight 3 90 40 2)
      ↔ LineFits 3 90 40 2) ∧
    Returns (qpCircle steady 30 40 20 ⟨0,0,255⟩ false Canvas.start) fun r =>
      r.ret = true ∧ r.fits = true ∧ CircleRight 30 40 20 r.canvas.painted :=
  ⟨(line_and_circle_right steady steady_steady ⟨0,0,255⟩).1 3 90 40 2
      ⟨by decide,by decide,by decide,by decide,by decide⟩,
    (line_and_circle_right steady steady_steady ⟨0,0,255⟩).2 30 40 20
      ⟨by decide,by decide,by decide,by decide,by decide,by decide⟩⟩

/-- The longest flat line has an error term whose double does not fit. -/
theorem line_too_flat : ¬Returns (qpLine steady 0 0 16383 1 ⟨0,0,255⟩ Canvas.start)
    (LineRight 0 0 16383 1) := by
  rw [line_iff steady_steady ⟨by decide,by decide,by decide,by decide,by decide⟩ (by decide)
    (by decide), LineFits]
  decide

end QmkFirmware.Drawing
