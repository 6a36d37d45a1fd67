import QmkFirmware.Painter.Canvas

/-!
Rectangles. The four sides of an outline are filled one after the other.
-/

set_option autoImplicit false

namespace QmkFirmware.Drawing

variable {κ : Type} (d : Driver κ)

def outline (l t r b : UInt16) : Draw κ :=
  drawAll [fillrectHelperImpl d l t r t,fillrectHelperImpl d l b r b,
    fillrectHelperImpl d l (t+1) l (b-1),fillrectHelperImpl d r (t+1) r (b-1)]

def qpRect (left top right bottom : UInt16) (color : Hsv) (filled : Bool) : Draw κ := fun c =>
  if d.validateOk then
    let l := min left right
    let r := max left right
    let t := min top bottom
    let b := max top bottom
    let w := r-l+1
    let h := b-t+1
    if d.commsStart then
      if filled then
        fillrectHelperImpl d l t r b (fillPixdata d (w.toNat*h.toNat) color c)
      else
        outline d l t r b (fillPixdata d (max w h).toNat color c)
    else (false,c)
  else (false,c)

structure Window.Inside (inner outer : Window) : Prop where
  left : outer.left.toNat ≤ inner.left.toNat
  width : inner.left.toNat ≤ inner.right.toNat
  right : inner.right.toNat ≤ outer.right.toNat
  top : outer.top.toNat ≤ inner.top.toNat
  height : inner.top.toNat ≤ inner.bottom.toNat
  bottom : inner.bottom.toNat ≤ outer.bottom.toNat

def Window.Has (w : Window) (x y : Nat) : Prop :=
  (w.left.toNat ≤ x ∧ x ≤ w.right.toNat) ∧ w.top.toNat ≤ y ∧ y ≤ w.bottom.toNat

def Window.Shape (w : Window) (filled : Bool) (x y : Nat) : Prop :=
  w.Has x y ∧ (filled = true ∨ x = w.left.toNat ∨ x = w.right.toNat ∨ y = w.top.toNat
    ∨ y = w.bottom.toNat)

/-- What `qpRect` paints on a blank canvas. -/
structure RectRight (left top right bottom : UInt16) (color : Hsv) (filled : Bool) : Prop where
  windows : ∀ w ∈ (qpRect d left top right bottom color filled Canvas.start).2.windows,
    w.Inside (corners left top right bottom)
  painted : (qpRect d left top right bottom color filled Canvas.start).1 = true → ∀ x y,
    (∃ p ∈ (qpRect d left top right bottom color filled Canvas.start).2.painted,
      p.x = x ∧ p.y = y) ↔ (corners left top right bottom).Shape filled x y
  color : (qpRect d left top right bottom color filled Canvas.start).1 = true →
    ∀ p ∈ (qpRect d left top right bottom color filled Canvas.start).2.painted,
      p.color = some (d.paletteConvert color)

/-- The driver refuses before the third side of an outline of this width. -/
def Refuses (width : Nat) : Prop :=
  d.validateOk = false ∨ d.commsStart = false ∨ ∃ k < 2*chunks d width, d.pixdata k = false

variable {d}

theorem corners_le {left top right bottom : UInt16} :
    (corners left top right bottom).left.toNat ≤ (corners left top right bottom).right.toNat ∧
      (corners left top right bottom).top.toNat ≤ (corners left top right bottom).bottom.toNat := by
  simp only [corners, toNat_min, toNat_max]
  omega

theorem corners_of_le {l t r b : UInt16} (hw : l.toNat ≤ r.toNat) (hh : t.toNat ≤ b.toNat) :
    corners l t r b = ⟨l,t,r,b⟩ := by
  simp only [corners, Window.mk.injEq, ← UInt16.toNat_inj, toNat_min, toNat_max]
  omega

theorem corners_corners {left top right bottom : UInt16} :
    corners (min left right) (min top bottom) (max left right) (max top bottom)
      = corners left top right bottom :=
  corners_of_le (@corners_le left top right bottom).1 (@corners_le left top right bottom).2

theorem pixels_has {w : Window} {buffer : Nat → Option κ} (hw : w.left.toNat ≤ w.right.toNat)
    (hh : w.top.toNat ≤ w.bottom.toNat) {x y : Nat} :
    (∃ p ∈ pixels d w buffer 0 (w.width*w.height), p.x = x ∧ p.y = y) ↔ w.Has x y := by
  simp only [mem_pixels, Window.Has]
  constructor
  · rintro ⟨p,⟨i,hi,j,hj,rfl⟩,rfl,rfl⟩
    simp only [Window.width, Window.height] at hi hj ⊢
    omega
  · rintro ⟨hx,hy⟩
    refine ⟨_,⟨x-w.left.toNat,?_,y-w.top.toNat,?_,rfl⟩,?_,?_⟩
    · rw [Window.width]
      omega
    · rw [Window.height]
      omega
    · dsimp only
      omega
    · dsimp only
      omega

theorem pixels_color {w : Window} {n : Nat} {color : Hsv} {c : Canvas κ}
    (hn : w.width*w.height ≤ n) {p : Pixel κ}
    (hp : p ∈ pixels d w (fillPixdata d n color c).buffer 0 (w.width*w.height)) :
    p.color = some (d.paletteConvert color) := by
  simp only [pixels, List.mem_map, List.mem_range] at hp
  obtain ⟨i,hi,rfl⟩ := hp
  exact fillPixdata_mod hi hn

def Window.sorted (w : Window) : Window := corners w.left w.top w.right w.bottom

def Window.area (w : Window) : Nat := w.sorted.width*w.sorted.height

theorem drawAll_draws {ws : List Window} {buffer : Nat → Option κ}
    (hs : ∀ w ∈ ws, w.sorted.Small) :
    Draws d (drawAll (ws.map fun w => fillrectHelperImpl d w.left w.top w.right w.bottom)) buffer
      (ws.map fun w => chunks d w.area).sum
      (ws.flatMap fun w => pixels d w.sorted buffer 0 w.area) (ws.map Window.sorted) := by
  induction ws with
  | nil => exact Draws.nil
  | cons w ws ih =>
    have hw := hs w (List.mem_cons_self ..)
    have ih := ih fun w' h => hs w' (List.mem_cons_of_mem _ h)
    rw [List.map_cons, List.map_cons, List.sum_cons, List.flatMap_cons, List.map_cons]
    exact Draws.cons (fillrectHelperImpl_draws hw) ih

def sides (l t r b : UInt16) : List Window :=
  [⟨l,t,r,t⟩,⟨l,b,r,b⟩,⟨l,t+1,l,b-1⟩,⟨r,t+1,r,b-1⟩]

theorem forall_sides {l t r b : UInt16} {P : Window → Prop} :
    (∀ w ∈ sides l t r b, P w)
      ↔ P ⟨l,t,r,t⟩ ∧ P ⟨l,b,r,b⟩ ∧ P ⟨l,t+1,l,b-1⟩ ∧ P ⟨r,t+1,r,b-1⟩ := by
  simp [sides]

theorem toNat_add_one {t : UInt16} (ht : t.toNat < 4096) : (t+1).toNat = t.toNat+1 := by
  rw [UInt16.toNat_add, UInt16.toNat_one]
  exact Nat.mod_eq_of_lt (by omega)

theorem toNat_sub_one {b : UInt16} (hb : 0 < b.toNat) : (b-1).toNat = b.toNat-1 :=
  UInt16.toNat_sub_of_le _ _ (UInt16.le_iff_toNat_le.mpr hb)

section

variable {l t r b : UInt16}

theorem sides_small (hw : l.toNat ≤ r.toNat) (hr : r.toNat < 4096) (hh : t.toNat ≤ b.toNat)
    (hb : b.toNat < 4096) : ∀ w ∈ sides l t r b, w.sorted.Small := by
  have h16 := (b-1).toNat_lt
  have ht := toNat_add_one (by omega : t.toNat < 4096)
  rw [forall_sides]
  refine ⟨⟨?_,?_⟩,⟨?_,?_⟩,⟨?_,?_⟩,⟨?_,?_⟩⟩ <;>
    simp only [Window.sorted, corners, toNat_min, toNat_max] <;> omega

variable (hw : l.toNat ≤ r.toNat) (hh : t.toNat < b.toNat) (hb : b.toNat < 4096)

include hw hh hb

theorem sides_has {x y : Nat} :
    (∃ w ∈ sides l t r b, w.sorted.Has x y) ↔ (corners l t r b).Shape false x y := by
  have ht := toNat_add_one (by omega : t.toNat < 4096)
  have hb' := toNat_sub_one (by omega : 0 < b.toNat)
  simp only [sides, List.exists_mem_cons_iff, List.not_mem_nil, false_and, exists_false, or_false,
    Window.Shape, Window.Has, Window.sorted, corners, toNat_min, toNat_max, Bool.false_eq_true,
    false_or, ht, hb', Nat.min_eq_left hw, Nat.max_eq_right hw, Nat.min_eq_left (Nat.le_of_lt hh),
    Nat.max_eq_right (Nat.le_of_lt hh), Nat.min_self, Nat.max_self]
  omega

theorem sides_inside : ∀ w ∈ sides l t r b, w.sorted.Inside (corners l t r b) := by
  have ht := toNat_add_one (by omega : t.toNat < 4096)
  have hb' := toNat_sub_one (by omega : 0 < b.toNat)
  rw [forall_sides]
  refine ⟨⟨?_,?_,?_,?_,?_,?_⟩,⟨?_,?_,?_,?_,?_,?_⟩,⟨?_,?_,?_,?_,?_,?_⟩,⟨?_,?_,?_,?_,?_,?_⟩⟩ <;>
    simp only [Window.sorted, corners, toNat_min, toNat_max, ht, hb'] <;> omega

theorem sides_area :
    ∀ w ∈ sides l t r b, w.area ≤ max (r.toNat-l.toNat+1) (b.toNat-t.toNat+1) := by
  have ht := toNat_add_one (by omega : t.toNat < 4096)
  have hb' := toNat_sub_one (by omega : 0 < b.toNat)
  rw [forall_sides]
  simp only [Window.area, Window.sorted, Window.width, Window.height, corners, toNat_min, toNat_max,
    ht, hb', max_self, min_self, Nat.sub_self, Nat.zero_add, Nat.mul_one, Nat.one_mul]
  omega

end

theorem rectRight_of_draws {left top right bottom : UInt16} {color : Hsv} {filled : Bool}
    {draw : Draw κ} {n : Nat} {ws : List Window}
    (he : qpRect d left top right bottom color filled Canvas.start
      = draw (fillPixdata d n color Canvas.start))
    (hd : ∃ calls, Draws d draw (fillPixdata d n color Canvas.start).buffer calls
      (ws.flatMap fun w => pixels d w.sorted (fillPixdata d n color Canvas.start).buffer 0 w.area)
      (ws.map Window.sorted))
    (hin : ∀ w ∈ ws, w.sorted.Inside (corners left top right bottom))
    (hhas : ∀ x y, (∃ w ∈ ws, w.sorted.Has x y)
      ↔ (corners left top right bottom).Shape filled x y)
    (harea : ∀ w ∈ ws, w.area ≤ n) : RectRight d left top right bottom color filled := by
  obtain ⟨calls,hd⟩ := hd
  constructor
  · intro w hw
    obtain ⟨l,hl,hws⟩ := hd.part _ rfl
    rw [he, hws] at hw
    obtain ⟨w',hw',rfl⟩ := List.mem_map.mp (hl.subset hw)
    exact hin w' hw'
  · intro hok x y
    rw [he] at hok ⊢
    rw [hd.painted _ rfl hok, ← hhas]
    have hsorted : ∀ w : Window, w.sorted.Has x y ↔
        ∃ p ∈ pixels d w.sorted (fillPixdata d n color Canvas.start).buffer 0 w.area,
          p.x = x ∧ p.y = y :=
      fun w => (pixels_has corners_le.1 corners_le.2).symm
    simp only [hsorted]
    constructor
    · rintro ⟨p,hp,hxy⟩
      obtain ⟨w,hw,hp⟩ := List.mem_flatMap.mp hp
      exact ⟨w,hw,p,hp,hxy⟩
    · rintro ⟨w,hw,p,hp,hxy⟩
      exact ⟨p,List.mem_flatMap.mpr ⟨w,hw,hp⟩,hxy⟩
  · intro hok p hp
    rw [he] at hok hp
    rw [hd.painted _ rfl hok] at hp
    obtain ⟨w,hw,hp⟩ := List.mem_flatMap.mp hp
    exact pixels_color (harea w hw) hp

section

variable {left top right bottom : UInt16}

/-- The corners of a panel with at most 4096 columns and rows. -/
structure OnPanel (left top right bottom : UInt16) : Prop where
  left : left.toNat < 4096
  top : top.toNat < 4096
  right : right.toNat < 4096
  bottom : bottom.toNat < 4096

theorem OnPanel.small (h : OnPanel left top right bottom) :
    (corners left top right bottom).Small := by
  obtain ⟨hl,ht,hr,hb⟩ := h
  constructor <;> simp only [corners, toNat_min, toNat_max] <;> omega

theorem sorted_corners : (corners left top right bottom).sorted = corners left top right bottom :=
  corners_corners

theorem qpRect_filled (h : (corners left top right bottom).Small) (hv : d.validateOk = true)
    (hs : d.commsStart = true) {color : Hsv} {c : Canvas κ} :
    qpRect d left top right bottom color true c
      = drawAll [fillrectHelperImpl d (min left right) (min top bottom) (max left right)
          (max top bottom)] (fillPixdata d (corners left top right bottom).area color c) := by
  rw [qpRect, if_pos hv]
  dsimp only
  rw [if_pos hs, if_pos rfl, h.width_eq, h.height_eq, Window.area, sorted_corners]
  rw [drawAll_cons, drawAll]
  split
  · rename_i hok
    exact Prod.ext hok rfl
  · rename_i hok
    exact Prod.ext (eq_false_of_ne_true hok) rfl

theorem qpRect_outline (h : (corners left top right bottom).Small) (hv : d.validateOk = true)
    (hs : d.commsStart = true) {color : Hsv} {c : Canvas κ} :
    qpRect d left top right bottom color false c
      = outline d (min left right) (min top bottom) (max left right) (max top bottom)
        (fillPixdata d (max (corners left top right bottom).width
          (corners left top right bottom).height) color c) := by
  rw [qpRect, if_pos hv]
  dsimp only
  rw [if_pos hs, if_neg (by simp), toNat_max, h.width_eq, h.height_eq]

theorem rectRight_filled (h : OnPanel left top right bottom) (hv : d.validateOk = true)
    (hs : d.commsStart = true) {color : Hsv} :
    RectRight d left top right bottom color true := by
  have hd := fun buffer => @drawAll_draws κ d [corners left top right bottom] buffer (by
    intro w hw
    rw [List.mem_singleton.mp hw, sorted_corners]
    exact h.small)
  refine rectRight_of_draws (qpRect_filled h.small hv hs) ⟨_,hd _⟩ ?_ ?_ ?_
  · intro w hw
    rw [List.mem_singleton.mp hw, sorted_corners]
    obtain ⟨hw,hh⟩ := @corners_le left top right bottom
    exact ⟨Nat.le_refl _,hw,Nat.le_refl _,Nat.le_refl _,hh,Nat.le_refl _⟩
  · intro x y
    simp [Window.Shape, sorted_corners]
  · intro w hw
    rw [List.mem_singleton.mp hw]

theorem rectRight_outline (h : OnPanel left top right bottom) (hne : top ≠ bottom)
    (hv : d.validateOk = true) (hs : d.commsStart = true) {color : Hsv} :
    RectRight d left top right bottom color false := by
  obtain ⟨hl,ht,hr,hb⟩ := h
  have hne := mt UInt16.toNat_inj.mp hne
  have hle := @corners_le left top right bottom
  have hw : (min left right).toNat ≤ (max left right).toNat := hle.1
  have hh : (min top bottom).toNat < (max top bottom).toNat := by
    rw [toNat_min, toNat_max]
    omega
  have hr' : (max left right).toNat < 4096 := by rw [toNat_max]; omega
  have hb' : (max top bottom).toNat < 4096 := by rw [toNat_max]; omega
  refine rectRight_of_draws (qpRect_outline (OnPanel.small ⟨hl,ht,hr,hb⟩) hv hs)
    ⟨_,drawAll_draws (sides_small hw hr' (Nat.le_of_lt hh) hb')⟩ ?_ ?_ (sides_area hw hh hb')
  · have hin := sides_inside hw hh hb'
    rwa [corners_corners] at hin
  · intro x y
    have hhas := @sides_has _ _ _ _ hw hh hb' x y
    rwa [corners_corners] at hhas

theorem drawAll_append {draws draws' : List (Draw κ)} {c : Canvas κ} :
    drawAll (draws ++ draws') c
      = if (drawAll draws c).1 then drawAll draws' (drawAll draws c).2
        else (false,(drawAll draws c).2) := by
  induction draws generalizing c with
  | nil => rfl
  | cons draw draws ih =>
    rw [List.cons_append, drawAll_cons, drawAll_cons]
    by_cases hok : (draw c).1 = true
    · simp only [hok, if_true]
      exact ih
    · simp [hok]

theorem fillrectHelperImpl_windows {c : Canvas κ} :
    (fillrectHelperImpl d left top right bottom c).2.windows
      = c.windows ++ [corners left top right bottom] :=
  (transmit_spec _ _).windows

theorem outline_append {l t r b : UInt16} {c : Canvas κ} : outline d l t r b c
    = drawAll ([fillrectHelperImpl d l t r t,fillrectHelperImpl d l b r b] ++
        [fillrectHelperImpl d l (t+1) l (b-1),fillrectHelperImpl d r (t+1) r (b-1)]) c :=
  rfl

theorem third_window {l t r b : UInt16} {c : Canvas κ}
    (hs : ∀ w ∈ sides l t r b, w.sorted.Small)
    (hok : (drawAll [fillrectHelperImpl d l t r t,fillrectHelperImpl d l b r b] c).1 = true) :
    corners l (t+1) l (b-1) ∈ (outline d l t r b c).2.windows := by
  rw [outline_append, drawAll_append, if_pos hok, drawAll_cons]
  generalize (drawAll [fillrectHelperImpl d l t r t,fillrectHelperImpl d l b r b] c).2 = c'
  have hmem : corners l (t+1) l (b-1) ∈
      (fillrectHelperImpl d l (t+1) l (b-1) c').2.windows := by
    rw [fillrectHelperImpl_windows]
    exact List.mem_append_right _ (List.mem_singleton_self _)
  split
  · have hlast := (@drawAll_draws κ d [⟨r,t+1,r,b-1⟩]
      (fillrectHelperImpl d l (t+1) l (b-1) c').2.buffer
      (fun w hw => hs w (by simp [sides, List.mem_singleton.mp hw])))
    obtain ⟨ws,-,hws⟩ := hlast.part _ rfl
    rw [List.map_cons, List.map_nil] at hws
    rw [hws]
    exact List.mem_append_left _ hmem
  · exact hmem

theorem rectRight_row (h : OnPanel left top right top) (hv : d.validateOk = true)
    (hs : d.commsStart = true) {color : Hsv} : RectRight d left top right top color false ↔
      ∃ k < 2*chunks d (corners left top right top).width, d.pixdata k = false := by
  have hsmall : ∀ w ∈ sides (min left right) top (max left right) top, w.sorted.Small :=
    sides_small (@corners_le left top right top).1
      (by have := h.left; have := h.right; rw [toNat_max]; omega) (Nat.le_refl _) h.top
  have hrow : min top top = top ∧ max top top = top := by
    simp only [← UInt16.toNat_inj, toNat_min, toNat_max, min_self, max_self, and_self]
  have he := @qpRect_outline κ d left top right top h.small hv hs color Canvas.start
  rw [hrow.1, hrow.2] at he
  have hsorted : Window.sorted ⟨min left right,top,max left right,top⟩
      = corners left top right top := by
    have hc := @sorted_corners left top right top
    rw [corners, hrow.1, hrow.2] at hc ⊢
    exact hc
  have harea : Window.area ⟨min left right,top,max left right,top⟩
      = (corners left top right top).width := by
    rw [Window.area, hsorted, corners_height, max_self, min_self, Nat.sub_self, Nat.zero_add,
      Nat.mul_one]
  generalize hc : fillPixdata d (max (corners left top right top).width
    (corners left top right top).height) color Canvas.start = c at he
  have hd := @drawAll_draws κ d [⟨min left right,top,max left right,top⟩,
    ⟨min left right,top,max left right,top⟩] c.buffer (fun w hw => hsmall w (by
      rw [sides]
      simp only [List.mem_cons, List.not_mem_nil, or_false, or_self] at hw ⊢
      exact .inl hw))
  have hcalls : c.calls = 0 := by rw [← hc]; rfl
  have hwindows : c.windows = [] := by rw [← hc]; rfl
  have hok := hd.succeeds c rfl
  simp only [List.map_cons, List.map_nil, List.sum_cons, List.sum_nil, Nat.add_zero, harea,
    hcalls, Nat.zero_add, ← Nat.two_mul] at hok
  by_cases hall : ∀ k < 2*chunks d (corners left top right top).width, d.pixdata k = true
  · refine iff_of_false (fun hr => ?_) (by push Not; simpa using hall)
    have hthird := third_window hsmall (hok.mpr hall)
    rw [← he] at hthird
    have hin := (hr.windows _ hthird).bottom
    have htop := toNat_add_one h.top
    simp only [corners, toNat_max] at hin
    omega
  · refine iff_of_true ?_ (by push Not at hall; simpa using hall)
    have hfail := mt hok.mp hall
    have he' : qpRect d left top right top color false Canvas.start
        = (false,(drawAll [fillrectHelperImpl d (min left right) top (max left right) top,
            fillrectHelperImpl d (min left right) top (max left right) top] c).2) := by
      rw [he, outline_append, drawAll_append]
      exact if_neg hfail
    constructor
    · intro w hw
      rw [he'] at hw
      obtain ⟨ws,hpre,hws⟩ := hd.part c rfl
      simp only [List.map_cons, List.map_nil, hsorted] at hws hpre
      rw [hws, hwindows] at hw
      have hw := hpre.subset hw
      simp only [List.mem_cons, List.not_mem_nil, or_false, or_self] at hw
      obtain ⟨hle,hle'⟩ := @corners_le left top right top
      rw [hw]
      exact ⟨Nat.le_refl _,hle,Nat.le_refl _,Nat.le_refl _,hle',Nat.le_refl _⟩
    · intro hok'
      rw [he'] at hok'
      cases hok'
    · intro hok'
      rw [he'] at hok'
      cases hok'

theorem rectRight_refused {color : Hsv} {filled : Bool}
    (he : qpRect d left top right bottom color filled Canvas.start = (false,Canvas.start)) :
    RectRight d left top right bottom color filled := by
  constructor
  · intro w hw
    rw [he] at hw
    cases hw
  · intro hok
    rw [he] at hok
    cases hok
  · intro hok
    rw [he] at hok
    cases hok

end

/-- A filled rectangle is right, and so is an outline of more than one row. An outline of one row
is right only where the driver fails before its third side. -/
theorem rect_right_iff (d : Driver κ) {left top right bottom : UInt16}
    (h : OnPanel left top right bottom) (color : Hsv) (filled : Bool) :
    RectRight d left top right bottom color filled ↔
      filled = true ∨ top ≠ bottom ∨ Refuses d (corners left top right bottom).width := by
  by_cases hv : d.validateOk = true
  swap
  · exact iff_of_true (rectRight_refused (if_neg hv)) (.inr (.inr (.inl (by simpa using hv))))
  by_cases hs : d.commsStart = true
  swap
  · refine iff_of_true (rectRight_refused ?_) (.inr (.inr (.inr (.inl (by simpa using hs)))))
    rw [qpRect, if_pos hv]
    exact if_neg hs
  cases filled with
  | true => exact iff_of_true (rectRight_filled h hv hs) (.inl rfl)
  | false =>
    by_cases hne : top = bottom
    · subst hne
      rw [rectRight_row h hv hs]
      simp [Refuses, hv, hs]
    · exact iff_of_true (rectRight_outline h hne hv hs) (.inr (.inl hne))

theorem steady_bits_pos : 0 < 8 := by decide

theorem steady_bits_le : 8 ≤ 16*8 := by decide

/-- A monochrome panel that never fails, with a buffer of 16 pixels. -/
def steady : Driver Bool where
  validateOk := true
  commsStart := true
  bufferSize := 16
  nativeBitsPerPixel := 8
  paletteConvert color := 128 ≤ color.val
  pixdata _ := true
  bits_pos := steady_bits_pos
  bits_le := steady_bits_le

theorem steady_steady : steady.Steady := ⟨rfl,rfl,fun _ => rfl⟩

theorem rect_right_iff_border : RectRight steady 20 9 3 2 ⟨0,0,255⟩ false ↔
    false = true ∨ (9 : UInt16) ≠ 2 ∨ Refuses steady (corners 20 9 3 2).width :=
  rect_right_iff steady ⟨by decide,by decide,by decide,by decide⟩ ⟨0,0,255⟩ false

/-- The outline of a row reaches into the rows above and below it. -/
theorem outline_of_row : ¬RectRight steady 3 5 20 5 ⟨0,0,255⟩ false := by
  rw [rectRight_row ⟨by decide,by decide,by decide,by decide⟩ rfl rfl]
  simp [steady]

end QmkFirmware.Drawing
