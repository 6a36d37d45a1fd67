import Mathlib.Algebra.GroupWithZero.Nat
import Mathlib.Data.List.Range

/-!
Drawing on a panel. A driver sets a window, and the pixels of a buffer go into it in order, row by
row.
-/

set_option autoImplicit false

namespace QmkFirmware.Drawing

structure Hsv where
  hue : UInt8
  sat : UInt8
  val : UInt8
  deriving DecidableEq, Repr

/-- Native pixels are of type `κ`. The n-th call of `pixdata` succeeds if `pixdata n`. -/
structure Driver (κ : Type) where
  validateOk : Bool
  commsStart : Bool
  bufferSize : Nat
  nativeBitsPerPixel : Nat
  paletteConvert : Hsv → κ
  pixdata : Nat → Bool
  bits_pos : 0 < nativeBitsPerPixel
  bits_le : nativeBitsPerPixel ≤ bufferSize*8

structure Window where
  left : UInt16
  top : UInt16
  right : UInt16
  bottom : UInt16
  deriving DecidableEq, Repr

def Window.width (w : Window) : Nat := w.right.toNat-w.left.toNat+1

def Window.height (w : Window) : Nat := w.bottom.toNat-w.top.toNat+1

/-- A colour is `none` when the pixel came from a part of the buffer that was not filled. -/
structure Pixel (κ : Type) where
  x : Nat
  y : Nat
  color : Option κ
  deriving DecidableEq, Repr

def Window.pixel {κ : Type} (w : Window) (n : Nat) (color : Option κ) : Pixel κ :=
  ⟨w.left.toNat+n%w.width,w.top.toNat+n/w.width%w.height,color⟩

/-- The window, how many of its pixels have come, how often `pixdata` was called, the buffer, and
all pixels and windows in their order. -/
structure Canvas (κ : Type) where
  window : Window
  sent : Nat
  calls : Nat
  buffer : Nat → Option κ
  painted : List (Pixel κ)
  windows : List Window

variable {κ : Type}

/-- Nothing of the buffer is filled. -/
def Canvas.start : Canvas κ := ⟨⟨0,0,0,0⟩,0,0,fun _ => none,[],[]⟩

abbrev Draw (κ : Type) := Canvas κ → Bool × Canvas κ

def drawAll : List (Draw κ) → Draw κ
  | [], c => (true,c)
  | draw :: draws, c =>
    match draw c with
    | (true,c') => drawAll draws c'
    | (false,c') => (false,c')

def viewport (w : Window) (c : Canvas κ) : Canvas κ :=
  { c with window := w, sent := 0, windows := c.windows ++ [w] }

variable (d : Driver κ)

def pixdata (count : Nat) : Draw κ := fun c =>
  if d.pixdata c.calls then
    (true,{ c with
      sent := c.sent+count
      calls := c.calls+1
      painted := c.painted ++
        (List.range count).map fun i => c.window.pixel (c.sent+i) (c.buffer i) })
  else (false,{ c with calls := c.calls+1 })

def numPixelsInBuffer : Nat := d.bufferSize*8/d.nativeBitsPerPixel

theorem numPixelsInBuffer_pos : 0 < numPixelsInBuffer d :=
  Nat.div_pos d.bits_le d.bits_pos

def setpixelImpl (x y : UInt16) : Draw κ := fun c =>
  pixdata d 1 (viewport ⟨x,y,x,y⟩ c)

def fillPixdata (numPixels : Nat) (color : Hsv) (c : Canvas κ) : Canvas κ :=
  { c with
    buffer := (List.range (min (numPixelsInBuffer d) numPixels)).foldl
      (fun buffer i => Function.update buffer i (some (d.paletteConvert color))) c.buffer }

/-- The loop of `fillrectHelperImpl`. -/
def transmit (remaining : Nat) : Draw κ := fun c =>
  if _h : remaining > 0 then
    match pixdata d (min remaining (numPixelsInBuffer d)) c with
    | (true,c') => transmit (remaining-min remaining (numPixelsInBuffer d)) c'
    | (false,c') => (false,c')
  else (true,c)
termination_by remaining
decreasing_by
  have := numPixelsInBuffer_pos d
  omega

def fillrectHelperImpl (left top right bottom : UInt16) : Draw κ := fun c =>
  let l := min left right
  let r := max left right
  let t := min top bottom
  let b := max top bottom
  let w := r-l+1
  let h := b-t+1
  transmit d (w.toNat*h.toNat) (viewport ⟨l,t,r,b⟩ c)

variable {d}

/-- The calls that `n` pixels take. -/
def chunks (d : Driver κ) (n : Nat) : Nat := (n+numPixelsInBuffer d-1)/numPixelsInBuffer d

/-- `n` pixels that the buffer holds, as often as it takes. -/
def pixels (d : Driver κ) (w : Window) (buffer : Nat → Option κ) (sent n : Nat) : List (Pixel κ) :=
  (List.range n).map fun i => w.pixel (sent+i) (buffer (i%numPixelsInBuffer d))

theorem chunks_zero : chunks d 0 = 0 := by
  have := numPixelsInBuffer_pos d
  exact Nat.div_eq_of_lt (by omega)

theorem chunks_sub {n : Nat} (hn : 0 < n) :
    chunks d n = chunks d (n-min n (numPixelsInBuffer d))+1 := by
  have hpos := numPixelsInBuffer_pos d
  unfold chunks
  generalize numPixelsInBuffer d = cap at hpos
  rw [← Nat.add_div_right _ hpos]
  by_cases hle : n ≤ cap
  · rw [Nat.min_eq_left hle, Nat.sub_self]
    rw [Nat.div_eq_of_lt_le (by omega : 1*cap ≤ n+cap-1) (by omega)]
    rw [Nat.div_eq_of_lt_le (by omega : 1*cap ≤ 0+cap-1+cap) (by omega)]
  · rw [Nat.min_eq_right (by omega)]
    congr 1
    omega

theorem pixels_sub {w : Window} {buffer : Nat → Option κ} {sent n : Nat} :
    pixels d w buffer sent n
      = ((List.range (min n (numPixelsInBuffer d))).map fun i => w.pixel (sent+i) (buffer i))
        ++ pixels d w buffer (sent+min n (numPixelsInBuffer d))
          (n-min n (numPixelsInBuffer d)) := by
  unfold pixels
  generalize numPixelsInBuffer d = cap
  have hn : n = min n cap+(n-min n cap) := by omega
  conv => lhs; rw [hn, List.range_add, List.map_append, List.map_map]
  congr 1
  · refine List.map_congr_left fun i hi => ?_
    have hi := List.mem_range.mp hi
    rw [Nat.mod_eq_of_lt (by omega)]
  · refine List.map_congr_left fun i hi => ?_
    have hi := List.mem_range.mp hi
    have hcap : min n cap = cap := by omega
    simp only [Function.comp_apply, hcap, Nat.add_mod_left, Nat.add_assoc]

/-- On a buffer, something draws these pixels through these windows with so many calls. If a call
fails it stops there. -/
structure Draws (d : Driver κ) (draw : Draw κ) (buffer : Nat → Option κ) (calls : Nat)
    (new : List (Pixel κ)) (windows : List Window) : Prop where
  succeeds : ∀ c : Canvas κ, c.buffer = buffer →
    ((draw c).1 = true ↔ ∀ k < calls, d.pixdata (c.calls+k) = true)
  painted : ∀ c : Canvas κ, c.buffer = buffer → (draw c).1 = true →
    (draw c).2.painted = c.painted ++ new
  calls : ∀ c : Canvas κ, c.buffer = buffer → (draw c).1 = true → (draw c).2.calls = c.calls+calls
  all : ∀ c : Canvas κ, c.buffer = buffer → (draw c).1 = true →
    (draw c).2.windows = c.windows ++ windows
  part : ∀ c : Canvas κ, c.buffer = buffer →
    ∃ l, l <+: windows ∧ (draw c).2.windows = c.windows ++ l
  buffer : ∀ c : Canvas κ, c.buffer = buffer → (draw c).2.buffer = buffer

theorem drawAll_cons {draw : Draw κ} {draws : List (Draw κ)} {c : Canvas κ} :
    drawAll (draw :: draws) c
      = if (draw c).1 then drawAll draws (draw c).2 else (false,(draw c).2) := by
  rw [drawAll]
  split
  · rename_i h
    simp only [h, if_true]
  · rename_i h
    simp only [h, Bool.false_eq_true, if_false]

theorem Draws.nil {buffer : Nat → Option κ} : Draws d (drawAll []) buffer 0 [] [] where
  succeeds := by simp [drawAll]
  painted := by simp [drawAll]
  calls := by simp [drawAll]
  all := by simp [drawAll]
  part := by simp [drawAll]
  buffer := fun _ h => h

theorem Draws.cons {draw : Draw κ} {draws : List (Draw κ)} {buffer : Nat → Option κ} {n n' : Nat}
    {new new' : List (Pixel κ)} {ws ws' : List Window} (h : Draws d draw buffer n new ws)
    (h' : Draws d (drawAll draws) buffer n' new' ws') :
    Draws d (drawAll (draw :: draws)) buffer (n+n') (new ++ new') (ws ++ ws') where
  succeeds c hc := by
    have hs := h.succeeds c hc
    rw [drawAll_cons]
    by_cases hok : (draw c).1 = true
    · have hs' := h'.succeeds (draw c).2 (h.buffer c hc)
      rw [if_pos hok, hs', h.calls c hc hok]
      constructor
      · intro hall k hk
        by_cases hlt : k < n
        · exact hs.mp hok k hlt
        · have hk' := hall (k-n) (by omega)
          rwa [Nat.add_assoc, Nat.add_sub_cancel' (by omega)] at hk'
      · intro hall k hk
        rw [Nat.add_assoc]
        exact hall (n+k) (by omega)
    · rw [if_neg hok]
      constructor
      · simp
      · intro hall
        exact absurd (hs.mpr fun k hk => hall k (by omega)) hok
  painted c hc hok := by
    rw [drawAll_cons] at hok ⊢
    by_cases hd : (draw c).1 = true
    · rw [if_pos hd] at hok ⊢
      rw [h'.painted _ (h.buffer c hc) hok, h.painted c hc hd, List.append_assoc]
    · simp [hd] at hok
  calls c hc hok := by
    rw [drawAll_cons] at hok ⊢
    by_cases hd : (draw c).1 = true
    · rw [if_pos hd] at hok ⊢
      rw [h'.calls _ (h.buffer c hc) hok, h.calls c hc hd, Nat.add_assoc]
    · simp [hd] at hok
  all c hc hok := by
    rw [drawAll_cons] at hok ⊢
    by_cases hd : (draw c).1 = true
    · rw [if_pos hd] at hok ⊢
      rw [h'.all _ (h.buffer c hc) hok, h.all c hc hd, List.append_assoc]
    · simp [hd] at hok
  part c hc := by
    rw [drawAll_cons]
    by_cases hd : (draw c).1 = true
    · rw [if_pos hd]
      obtain ⟨l,hl,hw⟩ := h'.part _ (h.buffer c hc)
      refine ⟨ws ++ l,(List.prefix_append_right_inj ws).mpr hl,?_⟩
      rw [hw, h.all c hc hd, List.append_assoc]
    · rw [if_neg hd]
      obtain ⟨l,hl,hw⟩ := h.part c hc
      exact ⟨l,hl.trans (List.prefix_append ws ws'),hw⟩
  buffer c hc := by
    rw [drawAll_cons]
    by_cases hd : (draw c).1 = true
    · rw [if_pos hd]
      exact h'.buffer _ (h.buffer c hc)
    · rw [if_neg hd]
      exact h.buffer c hc

structure Transmits (d : Driver κ) (n : Nat) (c c' : Canvas κ) (ok : Bool) : Prop where
  succeeds : ok = true ↔ ∀ k < chunks d n, d.pixdata (c.calls+k) = true
  painted : ok = true → c'.painted = c.painted ++ pixels d c.window c.buffer c.sent n
  calls : ok = true → c'.calls = c.calls+chunks d n
  windows : c'.windows = c.windows
  buffer : c'.buffer = c.buffer

theorem transmit_zero {c : Canvas κ} : transmit d 0 c = (true,c) := by
  rw [transmit, dif_neg (by omega)]

theorem transmit_spec (n : Nat) (c : Canvas κ) :
    Transmits d n c (transmit d n c).2 (transmit d n c).1 := by
  induction n using Nat.strongRecOn generalizing c with
  | ind n ih =>
    have hpos := numPixelsInBuffer_pos d
    by_cases hn : n > 0
    · have hsub : n-min n (numPixelsInBuffer d) < n := by omega
      have hchunks := @chunks_sub κ d n hn
      rw [transmit, dif_pos hn]
      by_cases hok : d.pixdata c.calls = true
      · simp only [pixdata, if_pos hok]
        have hc' := ih _ hsub { c with
          sent := c.sent+min n (numPixelsInBuffer d)
          calls := c.calls+1
          painted := c.painted ++ (List.range (min n (numPixelsInBuffer d))).map
            fun i => c.window.pixel (c.sent+i) (c.buffer i) }
        obtain ⟨hsucceeds,hpainted,hcalls,hwindows,hbuffer⟩ := hc'
        refine ⟨?_,fun h => ?_,fun h => ?_,hwindows,hbuffer⟩
        · rw [hsucceeds, hchunks]
          constructor
          · intro hall k hk
            cases k with
            | zero => exact hok
            | succ k =>
              have := hall k (by omega)
              rwa [show c.calls+1+k = c.calls+(k+1) from by omega] at this
          · intro hall k hk
            have := hall (k+1) (by omega)
            rwa [show c.calls+(k+1) = c.calls+1+k from by omega] at this
        · rw [hpainted h, @pixels_sub κ d c.window c.buffer c.sent n, List.append_assoc]
        · rw [hcalls h, hchunks]
          dsimp only
          omega
      · simp only [pixdata, if_neg hok]
        refine ⟨?_,by simp,by simp,rfl,rfl⟩
        simp only [Bool.false_eq_true, false_iff]
        intro hall
        exact hok (hall 0 (by omega))
    · obtain rfl : n = 0 := by omega
      rw [transmit_zero]
      refine ⟨?_,fun _ => ?_,fun _ => ?_,rfl,rfl⟩
      · simp [chunks_zero]
      · simp [pixels]
      · simp [chunks_zero]

theorem setpixelImpl_draws {x y : UInt16} {buffer : Nat → Option κ} :
    Draws d (setpixelImpl d x y) buffer 1 [⟨x.toNat,y.toNat,buffer 0⟩] [⟨x,y,x,y⟩] where
  succeeds c _ := by
    simp only [setpixelImpl, pixdata, viewport]
    by_cases hok : d.pixdata c.calls = true <;> simp [hok]
  painted c hc := by
    simp only [setpixelImpl, pixdata, viewport]
    by_cases hok : d.pixdata c.calls = true
    · simp [hok, Window.pixel, Window.width, Window.height, hc]
    · simp [hok]
  calls c _ := by
    simp only [setpixelImpl, pixdata, viewport]
    by_cases hok : d.pixdata c.calls = true <;> simp [hok]
  all c _ := by
    simp only [setpixelImpl, pixdata, viewport]
    by_cases hok : d.pixdata c.calls = true <;> simp [hok]
  part c _ := by
    refine ⟨_,List.prefix_rfl,?_⟩
    simp only [setpixelImpl, pixdata, viewport]
    by_cases hok : d.pixdata c.calls = true <;> simp [hok]
  buffer c hc := by
    simp only [setpixelImpl, pixdata, viewport]
    by_cases hok : d.pixdata c.calls = true <;> simp [hok, hc]

theorem setpixels_draws {ps : List (UInt16 × UInt16)} {buffer : Nat → Option κ} :
    Draws d (drawAll (ps.map fun p => setpixelImpl d p.1 p.2)) buffer ps.length
      (ps.map fun p => ⟨p.1.toNat,p.2.toNat,buffer 0⟩) (ps.map fun p => ⟨p.1,p.2,p.1,p.2⟩) := by
  induction ps with
  | nil => exact Draws.nil
  | cons p ps ih =>
    rw [List.length_cons, Nat.add_comm]
    exact Draws.cons setpixelImpl_draws ih

/-- The window that `fillrectHelperImpl` sets. -/
def corners (left top right bottom : UInt16) : Window :=
  ⟨min left right,min top bottom,max left right,max top bottom⟩

theorem toNat_min (a b : UInt16) : (min a b).toNat = min a.toNat b.toNat := by
  rw [show min a b = if a ≤ b then a else b from rfl]
  split
  · rename_i h
    have h := UInt16.le_iff_toNat_le.mp h
    omega
  · rename_i h
    have h := mt UInt16.le_iff_toNat_le.mpr h
    omega

theorem toNat_max (a b : UInt16) : (max a b).toNat = max a.toNat b.toNat := by
  rw [show max a b = if a ≤ b then b else a from rfl]
  split
  · rename_i h
    have h := UInt16.le_iff_toNat_le.mp h
    omega
  · rename_i h
    have h := mt UInt16.le_iff_toNat_le.mpr h
    omega

structure Window.Small (w : Window) : Prop where
  width : w.right.toNat-w.left.toNat < 2^16-1
  height : w.bottom.toNat-w.top.toNat < 2^16-1

theorem toNat_side {a b : UInt16} (h : max a.toNat b.toNat-min a.toNat b.toNat < 2^16-1) :
    (max a b-min a b+1).toNat = (max a b).toNat-(min a b).toNat+1 := by
  have hle : min a b ≤ max a b := by
    rw [UInt16.le_iff_toNat_le, toNat_min, toNat_max]
    omega
  have hs := UInt16.toNat_sub_of_le _ _ hle
  rw [UInt16.toNat_add, hs, toNat_min, toNat_max]
  exact Nat.mod_eq_of_lt (by rw [UInt16.toNat_one]; omega)

theorem Window.Small.width_eq {left top right bottom : UInt16}
    (h : (corners left top right bottom).Small) :
    (max left right-min left right+1).toNat = (corners left top right bottom).width := by
  have hw := h.width
  rw [corners, toNat_max, toNat_min] at hw
  exact toNat_side hw

theorem Window.Small.height_eq {left top right bottom : UInt16}
    (h : (corners left top right bottom).Small) :
    (max top bottom-min top bottom+1).toNat = (corners left top right bottom).height := by
  have hh := h.height
  rw [corners, toNat_max, toNat_min] at hh
  exact toNat_side hh

theorem fillrectHelperImpl_draws {left top right bottom : UInt16} {buffer : Nat → Option κ}
    (hs : (corners left top right bottom).Small) :
    Draws d (fillrectHelperImpl d left top right bottom) buffer
      (chunks d ((corners left top right bottom).width*(corners left top right bottom).height))
      (pixels d (corners left top right bottom) buffer 0
        ((corners left top right bottom).width*(corners left top right bottom).height))
      [corners left top right bottom] := by
  have hn : (max left right-min left right+1).toNat*(max top bottom-min top bottom+1).toNat
      = (corners left top right bottom).width*(corners left top right bottom).height := by
    rw [hs.width_eq, hs.height_eq]
  have hspec := fun c : Canvas κ => @transmit_spec κ d
    ((corners left top right bottom).width*(corners left top right bottom).height)
    (viewport (corners left top right bottom) c)
  have he : fillrectHelperImpl d left top right bottom = fun c => transmit d
      ((corners left top right bottom).width*(corners left top right bottom).height)
      (viewport (corners left top right bottom) c) := by
    funext c
    rw [← hn]
    rfl
  rw [he]
  exact
    { succeeds := fun c _ => (hspec c).succeeds
      painted := fun c hc h => by rw [(hspec c).painted h, ← hc]; rfl
      calls := fun c _ h => (hspec c).calls h
      all := fun c _ _ => (hspec c).windows
      part := fun c _ => ⟨_,List.prefix_rfl,(hspec c).windows⟩
      buffer := fun c hc => (hspec c).buffer.trans hc }

theorem corners_width {left top right bottom : UInt16} : (corners left top right bottom).width
    = max left.toNat right.toNat-min left.toNat right.toNat+1 := by
  rw [Window.width, corners, toNat_max, toNat_min]

theorem corners_height {left top right bottom : UInt16} : (corners left top right bottom).height
    = max top.toNat bottom.toNat-min top.toNat bottom.toNat+1 := by
  rw [Window.height, corners, toNat_max, toNat_min]

theorem foldl_update {color : κ} (n : Nat) (buffer : Nat → Option κ) (i : Nat) :
    (List.range n).foldl (fun buffer i => Function.update buffer i (some color)) buffer i
      = if i < n then some color else buffer i := by
  induction n with
  | zero => simp
  | succ n ih =>
    rw [List.range_succ, List.foldl_append, List.foldl_cons, List.foldl_nil, Function.update_apply,
      ih]
    by_cases hi : i = n
    · rw [if_pos hi, if_pos (by omega)]
    · rw [if_neg hi]
      exact ite_congr (by simp; omega) (fun _ => rfl) fun _ => rfl

theorem fillPixdata_buffer {n : Nat} {color : Hsv} {c : Canvas κ} {i : Nat} :
    (fillPixdata d n color c).buffer i
      = if i < min (numPixelsInBuffer d) n then some (d.paletteConvert color)
        else c.buffer i :=
  foldl_update _ _ i

theorem fillPixdata_mod {n m : Nat} {color : Hsv} {c : Canvas κ} {i : Nat} (hi : i < m)
    (hm : m ≤ n) :
    (fillPixdata d n color c).buffer (i%numPixelsInBuffer d) = some (d.paletteConvert color) := by
  have hlt := Nat.mod_lt i (numPixelsInBuffer_pos d)
  have hle := Nat.mod_le i (numPixelsInBuffer d)
  rw [fillPixdata_buffer, if_pos (by omega)]

theorem mem_pixels {w : Window} {buffer : Nat → Option κ} {p : Pixel κ} :
    p ∈ pixels d w buffer 0 (w.width*w.height) ↔
      ∃ i < w.width, ∃ j < w.height, p =
        ⟨w.left.toNat+i,w.top.toNat+j,buffer ((i+w.width*j)%numPixelsInBuffer d)⟩ := by
  have hw : 0 < w.width := Nat.succ_pos _
  simp only [pixels, List.mem_map, List.mem_range, Nat.zero_add, Window.pixel]
  constructor
  · rintro ⟨n,hn,rfl⟩
    have hj : n/w.width < w.height := Nat.div_lt_of_lt_mul hn
    refine ⟨n%w.width,Nat.mod_lt n hw,n/w.width,hj,?_⟩
    rw [Nat.mod_eq_of_lt hj, Nat.mod_add_div]
  · rintro ⟨i,hi,j,hj,rfl⟩
    refine ⟨i+w.width*j,?_,?_⟩
    · calc i+w.width*j < w.width+w.width*j := Nat.add_lt_add_right hi _
        _ = w.width*(j+1) := by rw [Nat.mul_add, Nat.mul_one, Nat.add_comm]
        _ ≤ w.width*w.height := Nat.mul_le_mul_left _ hj
    · rw [Nat.add_mul_mod_self_left, Nat.mod_eq_of_lt hi, Nat.add_mul_div_left _ _ hw,
        Nat.div_eq_of_lt hi, Nat.zero_add, Nat.mod_eq_of_lt hj]

structure Driver.Steady (d : Driver κ) : Prop where
  validateOk : d.validateOk = true
  commsStart : d.commsStart = true
  pixdata : ∀ n, d.pixdata n = true

theorem Draws.run {draw : Draw κ} {buffer : Nat → Option κ} {n : Nat} {new : List (Pixel κ)}
    {ws : List Window} (h : Draws d draw buffer n new ws) (hd : d.Steady) {c : Canvas κ}
    (hc : c.buffer = buffer) :
    ∃ c', draw c = (true,c') ∧ c'.painted = c.painted ++ new ∧ c'.buffer = buffer := by
  have hok := (h.succeeds c hc).mpr fun k _ => hd.pixdata _
  exact ⟨_,Prod.ext hok rfl,h.painted c hc hok,h.buffer c hc⟩

def int16 (v : Int) : Int := v.bmod 65536

def Fits16 (v : Int) : Prop := -32768 ≤ v ∧ v < 32768

instance (v : Int) : Decidable (Fits16 v) :=
  inferInstanceAs (Decidable (_ ∧ _))

theorem int16_of_fits {v : Int} (h : Fits16 v) : int16 v = v := by
  obtain ⟨hlo,hhi⟩ := h
  exact Int.bmod_eq_of_le (by omega) (by omega)

theorem toNat_ofInt {v : Int} (hlo : 0 ≤ v) (hhi : v < 65536) :
    ((UInt16.ofInt v).toNat:Int) = v := by
  rw [UInt16.ofInt, Int.emod_eq_of_lt hlo (by omega), UInt16.toNat_ofNat_of_lt' (by
    rw [Int.toNat_lt hlo]
    exact hhi)]
  exact Int.toNat_of_nonneg hlo

theorem ofInt_toNat (u : UInt16) : UInt16.ofInt u.toNat = u := by
  have h := u.toNat_lt
  have he := toNat_ofInt (Int.natCast_nonneg u.toNat) (by omega)
  exact UInt16.toNat_inj.mp (by omega)

end QmkFirmware.Drawing
