import QmkFirmware.Painter.Rle
import Mathlib.Data.Nat.Digits.Defs
import Mathlib.Data.Nat.Digits.Lemmas

/-!
Image bytes. The tool packs the palette index or the grey level of each pixel into bytes, the
first pixel lowest, and the firmware takes them apart again while it draws.
-/

set_option autoImplicit false

namespace QmkFirmware.Painter

inductive BitsPerPixel where
  | one
  | two
  | four
  | eight
  deriving DecidableEq, Repr

def BitsPerPixel.bits : BitsPerPixel → Nat
  | .one => 1
  | .two => 2
  | .four => 4
  | .eight => 8

/-- What the index of a pixel means: `IMAGE_FORMAT_GRAYSCALE` and `IMAGE_FORMAT_PALETTE`. -/
inductive Indexing where
  | grayscale
  | palette
  deriving DecidableEq, Repr

/-- `valid_formats`. -/
inductive Format where
  | indexed (indexing : Indexing) (bpp : BitsPerPixel)
  | rgb565
  | rgb888
  deriving DecidableEq, Repr

def Format.numColors : Format → Nat
  | .indexed _ bpp => 2^bpp.bits
  | .rgb565 => 65536
  | .rgb888 => 16777216

inductive Channel where
  | red
  | green
  | blue
  | index
  deriving DecidableEq, Repr

/-- An image of the imaging library: its raw bytes, one for each pixel and channel, and its
palette of 256 colours. -/
structure Image where
  width : Nat
  height : Nat
  tobytes : Channel → List UInt8
  getpalette : List UInt8
  tobytes_length : ∀ c, (tobytes c).length = width*height
  getpalette_length : getpalette.length = 768

/-- `int(round(val * maxval / 255.0))`: for no `val` and odd `maxval` is the quotient halfway
between two integers. -/
def rescaleByte (val maxval : Nat) : Nat := (2*val*maxval+255)/510

def rgbTo565 (r g b : Nat) : List Nat :=
  let msb := ((r >>> 3 &&& 0x1F) <<< 3)+(g >>> 5 &&& 0x07)
  let lsb := ((g >>> 2 &&& 0x07) <<< 5)+(b >>> 3 &&& 0x1F)
  [msb,lsb]

def Indexing.channel : Indexing → Channel
  | .grayscale => .red
  | .palette => .index

def Indexing.value (ncolors : Nat) (v : UInt8) : Indexing → Nat
  | .grayscale => rescaleByte v.toNat (ncolors-1)
  | .palette => v.toNat &&& (ncolors-1)

def packBytes (value : UInt8 → Nat) (shifter pixelsPerByte : Nat) (imageBytes : List UInt8)
    (count : Nat) : List Nat :=
  (List.range count).map fun x => (List.range pixelsPerByte).foldl (fun byte n =>
    match imageBytes[x*pixelsPerByte+n]? with
    | some v => byte ||| value v <<< (n*shifter)
    | none => byte) 0

def convertImageBytes (im : Image) (format : Format) :
    Option (Option (List (UInt8 × UInt8 × UInt8)) × List Nat) :=
  let ncolors := format.numColors
  let shifter := ncolors.log2
  let pixelsPerByte := 8/ncolors.log2
  let bytesPerPixel := (ncolors.log2+7)/8
  let expectedByteCount :=
    if pixelsPerByte ≠ 0 then (im.width*im.height+(pixelsPerByte-1))/pixelsPerByte
    else im.width*im.height*bytesPerPixel
  let pal := im.getpalette
  let rgb : List (UInt8 × UInt8 × UInt8) :=
    (im.tobytes .red).zip ((im.tobytes .green).zip (im.tobytes .blue))
  let palette := match format with
    | .indexed .palette _ => some ((List.range ncolors).map fun n =>
      (pal.getD (3*n) 0,pal.getD (3*n+1) 0,pal.getD (3*n+2) 0))
    | _ => none
  let bytes := match format with
    | .indexed indexing _ => packBytes (indexing.value ncolors) shifter pixelsPerByte
      (im.tobytes indexing.channel) expectedByteCount
    | .rgb565 => rgb.flatMap fun (r,g,b) => rgbTo565 r.toNat g.toNat b.toNat
    | .rgb888 => rgb.flatMap fun (r,g,b) => [r.toNat,g.toNat,b.toNat]
  if bytes.length ≠ expectedByteCount then none else some (palette,bytes)

section Decoder

variable {σ β π : Type}

def outputPixels (bits : Nat) (output : π → UInt8 → β → Option β) (palette : π) :
    Nat → Nat → β → Option β
  | 0, _, b => some b
  | loopPixels+1, byteval, b =>
    (output palette (UInt8.ofNat (byteval &&& (1 <<< bits-1))) b).bind
      (outputPixels bits output palette loopPixels (byteval >>> bits))

def decodePalette (remainingPixels : Nat) (bpp : BitsPerPixel) (input : σ → Int × σ) (s : σ)
    (palette : π) (output : π → UInt8 → β → Option β) (b : β) : Option (σ × β) :=
  if remainingPixels = 0 then some (s,b)
  else
    let pixelsPerByte := 8/bpp.bits
    let (byteval,s) := input s
    if byteval < 0 then none
    else
      let loopPixels := if remainingPixels < pixelsPerByte then remainingPixels else pixelsPerByte
      (outputPixels bpp.bits output palette loopPixels byteval.toNat b).bind
        (decodePalette (remainingPixels-loopPixels) bpp input s palette output)
termination_by remainingPixels
decreasing_by
  have : 0 < 8/bpp.bits := by cases bpp <;> decide
  split <;> omega

structure Hsv where
  h : UInt8
  s : UInt8
  v : UInt8
  deriving DecidableEq, Repr

/-- The lookup table, and the parameters it was interpolated for. -/
structure Lookup (π : Type) where
  generated : Option (Nat × Hsv × Hsv)
  table : Nat → π

/-- `qp_internal_interpolate_palette` for one entry; the quotients are rounded to zero. -/
def interpolate (fg bg : Hsv) (steps i : Nat) : Hsv :=
  let hueFg : Int := fg.h.toNat
  let hueBg : Int := bg.h.toNat
  let hueBg := if hueFg-hueBg ≥ 128 then hueBg+256
    else if hueFg-hueBg ≤ -128 then hueBg-256 else hueBg
  let between (a b : Int) : UInt8 := UInt8.ofInt (((a-b)*i).tdiv (steps-1)+b)
  ⟨between hueFg hueBg,between fg.s.toNat bg.s.toNat,between fg.v.toNat bg.v.toNat⟩

/-- Both calls that `qp_internal_decode_recolor` makes before it decodes: the table is kept if it
was made of the same colours, else it is interpolated and the driver converts it. -/
def preparePalette (paletteConvert : Nat → (Nat → Hsv) → Option (Nat → π)) (lookup : Lookup π)
    (fg bg : Hsv) (steps : Nat) : Option (Lookup π) :=
  if lookup.generated = some (steps,fg,bg) then some lookup
  else (paletteConvert steps (interpolate fg bg steps)).map fun table =>
    ⟨some (steps,fg,bg),table⟩

def decodeRecolor (paletteConvert : Nat → (Nat → Hsv) → Option (Nat → π)) (lookup : Lookup π)
    (pixelCount : Nat) (bpp : BitsPerPixel) (input : σ → Int × σ) (s : σ) (fg bg : Hsv)
    (output : (Nat → π) → UInt8 → β → Option β) (b : β) : Option (Lookup π × σ × β) :=
  (preparePalette paletteConvert lookup fg bg (1 <<< bpp.bits)).bind fun lookup =>
    (decodePalette pixelCount bpp input s lookup.table output b).map fun r => (lookup,r)

def white : Hsv := ⟨0,0,255⟩

def black : Hsv := ⟨0,0,0⟩

def decodeGrayscale (paletteConvert : Nat → (Nat → Hsv) → Option (Nat → π)) (lookup : Lookup π)
    (pixelCount : Nat) (bpp : BitsPerPixel) (input : σ → Int × σ) (s : σ)
    (output : (Nat → π) → UInt8 → β → Option β) (b : β) : Option (Lookup π × σ × β) :=
  decodeRecolor paletteConvert lookup pixelCount bpp input s white black output b

/-- For images in the display's own format, of more than 8 bits per pixel. -/
def sendBytes (input : σ → Int × σ) (output : UInt8 → β → Option β) : Nat → σ → β → Option (σ × β)
  | 0, s, b => some (s,b)
  | remainingBytes+1, s, b =>
    let (byteval,s) := input s
    if byteval < 0 then none
    else (output (UInt8.ofInt byteval) b).bind (sendBytes input output remainingBytes s)

end Decoder

theorem ofDigits_lt {value : UInt8 → Nat} {bits : Nat} (hbits : 0 < bits)
    (hvalue : ∀ v, value v < 2^bits) (pixels : List UInt8) :
    Nat.ofDigits (2^bits) (pixels.map value) < 2^(pixels.length*bits) := by
  have hdigits : ∀ d ∈ pixels.map value, d < 2^bits := by
    intro d hd
    obtain ⟨v, -, rfl⟩ := List.mem_map.mp hd
    exact hvalue v
  have hlt := Nat.ofDigits_lt_base_pow_length (Nat.one_lt_two_pow hbits.ne') hdigits
  rwa [List.length_map, ← Nat.pow_mul, Nat.mul_comm] at hlt

theorem fold_digits {value : UInt8 → Nat} {bits : Nat} (hbits : 0 < bits)
    (hvalue : ∀ v, value v < 2^bits) (pixels : List UInt8) (k : Nat) :
    (List.range k).foldl (fun byte n =>
      match pixels[n]? with
      | some v => byte ||| value v <<< (n*bits)
      | none => byte) 0 = Nat.ofDigits (2^bits) ((pixels.take k).map value) := by
  induction k with
  | zero => simp
  | succ k ih =>
    rw [List.range_succ, List.foldl_append, ih, List.take_add_one]
    cases hget : pixels[k]? with
    | none => simp [hget]
    | some v =>
      have hk : k < pixels.length := (List.getElem?_eq_some_iff.mp hget).1
      have hlen : ((pixels.take k).map value).length = k := by simp; omega
      have hlt : Nat.ofDigits (2^bits) ((pixels.take k).map value) < 2^(k*bits) := by
        have := ofDigits_lt hbits hvalue (pixels.take k)
        rwa [List.length_take_of_le hk.le] at this
      simp only [List.foldl_cons, List.foldl_nil, hget, Option.toList_some, List.map_append,
        List.map_cons, List.map_nil, Nat.ofDigits_append, hlen, Nat.ofDigits_singleton]
      rw [Nat.or_comm, ← Nat.shiftLeft_add_eq_or_of_lt hlt, Nat.shiftLeft_eq, Nat.add_comm,
        Nat.mul_comm (value v), ← Nat.pow_mul, Nat.mul_comm bits]

theorem packBytes_cons {value : UInt8 → Nat} {bits : Nat} (hbits : 0 < bits)
    (hvalue : ∀ v, value v < 2^bits) (pixelsPerByte count : Nat) (pixels : List UInt8) :
    packBytes value bits pixelsPerByte pixels (count+1)
      = Nat.ofDigits (2^bits) ((pixels.take pixelsPerByte).map value)
        :: packBytes value bits pixelsPerByte (pixels.drop pixelsPerByte) count := by
  rw [packBytes, List.range_succ_eq_map, List.map_cons, List.map_map, packBytes]
  congr 1
  · rw [← fold_digits hbits hvalue]
    simp
  · refine List.map_congr_left fun x _ => ?_
    simp only [Function.comp_apply, List.getElem?_drop]
    have hshift : ∀ n, (x+1)*pixelsPerByte+n = pixelsPerByte+(x*pixelsPerByte+n) := fun n => by
      rw [Nat.succ_mul]
      omega
    simp only [Nat.succ_eq_add_one, hshift]

section Decoder

variable {σ β π : Type} {output : π → UInt8 → β → Option β} {palette : π}

theorem outputPixels_digits {bits : Nat} (ds : List Nat) (hds : ∀ d ∈ ds, d < 2^bits) (b : β) :
    outputPixels bits output palette ds.length (Nat.ofDigits (2^bits) ds) b
      = ds.foldlM (fun b d => output palette (UInt8.ofNat d) b) b := by
  induction ds generalizing b with
  | nil => rfl
  | cons d ds ih =>
    have hd : d < 2^bits := hds d (by simp)
    have hmask : Nat.ofDigits (2^bits) (d :: ds) &&& (1 <<< bits-1) = d := by
      rw [Nat.one_shiftLeft, Nat.and_two_pow_sub_one_eq_mod, Nat.ofDigits_cons,
        Nat.add_mul_mod_self_left, Nat.mod_eq_of_lt hd]
    have hshift : Nat.ofDigits (2^bits) (d :: ds) >>> bits = Nat.ofDigits (2^bits) ds := by
      rw [Nat.shiftRight_eq_div_pow, Nat.ofDigits_cons, Nat.add_mul_div_left _ _ (by positivity),
        Nat.div_eq_of_lt hd, Nat.zero_add]
    rw [List.length_cons, outputPixels, hmask, hshift, List.foldlM_cons]
    exact Option.bind_congr fun b _ => ih (fun d hd => hds d (by simp [hd])) b

theorem count_cons (bpp : BitsPerPixel) {len : Nat} (hlen : 0 < len) :
    (len+(8/bpp.bits-1))/(8/bpp.bits)
      = (len-8/bpp.bits+(8/bpp.bits-1))/(8/bpp.bits)+1 := by
  cases bpp <;> simp only [BitsPerPixel.bits] <;> omega

theorem BitsPerPixel.bits_pos (bpp : BitsPerPixel) : 0 < bpp.bits := by
  cases bpp <;> decide

theorem BitsPerPixel.fits (bpp : BitsPerPixel) {k : Nat} (hk : k ≤ 8/bpp.bits) :
    2^(k*bpp.bits) ≤ 256 := by
  have hexp : k*bpp.bits ≤ 8 := (Nat.le_div_iff_mul_le bpp.bits_pos).mp hk
  exact Nat.pow_le_pow_right (by decide) hexp

theorem packBytes_lt (bpp : BitsPerPixel) {value : UInt8 → Nat}
    (hvalue : ∀ v, value v < 2^bpp.bits) (pixels : List UInt8) (count : Nat) :
    ∀ b ∈ packBytes value bpp.bits (8/bpp.bits) pixels count, b < 256 := by
  induction count generalizing pixels with
  | zero => simp [packBytes]
  | succ count ih =>
    rw [packBytes_cons bpp.bits_pos hvalue]
    intro b hb
    rcases List.mem_cons.mp hb with rfl | hb
    · exact (ofDigits_lt bpp.bits_pos hvalue _).trans_le (bpp.fits (List.length_take_le _ _))
    · exact ih _ b hb

theorem decodePalette_packed (bpp : BitsPerPixel) {value : UInt8 → Nat}
    (hvalue : ∀ v, value v < 2^bpp.bits) {input : σ → Int × σ} (pixels : List UInt8) {s s' : σ}
    (hreads : Reads input (asBytes (packBytes value bpp.bits (8/bpp.bits) pixels
      ((pixels.length+(8/bpp.bits-1))/(8/bpp.bits)))) s s') (b : β) :
    decodePalette pixels.length bpp input s palette output b
      = (pixels.foldlM (fun b v => output palette (UInt8.ofNat (value v)) b) b).map
        fun b => (s',b) := by
  induction hlen : pixels.length using Nat.strong_induction_on generalizing pixels s b with
  | _ len ih =>
    subst hlen
    rcases Nat.eq_zero_or_pos pixels.length with hzero | hpos
    · have hnil : pixels = [] := List.eq_nil_of_length_eq_zero hzero
      subst hnil
      have hcount : ([] : List UInt8).length+(8/bpp.bits-1) < 8/bpp.bits := by
        cases bpp <;> decide
      rw [Nat.div_eq_of_lt hcount] at hreads
      cases hreads
      rw [List.length_nil, decodePalette, if_pos rfl]
      rfl
    · rw [count_cons bpp hpos, packBytes_cons bpp.bits_pos hvalue] at hreads
      obtain ⟨hbyte, hreads⟩ := hreads
      have hsmall : Nat.ofDigits (2^bpp.bits) ((pixels.take (8/bpp.bits)).map value) < 256 :=
        (ofDigits_lt bpp.bits_pos hvalue _).trans_le (bpp.fits (List.length_take_le _ _))
      rw [UInt8.toNat_ofNat_of_lt' hsmall] at hbyte
      have hloop : (if pixels.length < 8/bpp.bits then pixels.length else 8/bpp.bits)
          = ((pixels.take (8/bpp.bits)).map value).length := by
        rw [List.length_map, List.length_take]
        split <;> omega
      have hrest : pixels.length-((pixels.take (8/bpp.bits)).map value).length
          = (pixels.drop (8/bpp.bits)).length := by
        rw [List.length_map, List.length_take, List.length_drop]
        omega
      have hppb : 0 < 8/bpp.bits := by cases bpp <;> decide
      have hdigits : ∀ d ∈ (pixels.take (8/bpp.bits)).map value, d < 2^bpp.bits := by
        intro d hd
        obtain ⟨v, -, rfl⟩ := List.mem_map.mp hd
        exact hvalue v
      rw [decodePalette, if_neg hpos.ne']
      dsimp only
      rw [hbyte, if_neg (Int.not_lt.mpr (Int.natCast_nonneg _)), Int.toNat_natCast, hloop, hrest,
        outputPixels_digits _ hdigits, List.foldlM_map]
      conv_rhs => rw [← List.take_append_drop (8/bpp.bits) pixels, List.foldlM_append]
      rw [Option.bind_eq_bind, Option.map_bind]
      refine Option.bind_congr fun b' _ => ih _ ?_ _ ?_ b' rfl
      · rw [List.length_drop]
        omega
      · rw [List.length_drop]
        exact hreads

end Decoder

theorem Indexing.value_lt (indexing : Indexing) (bpp : BitsPerPixel) (v : UInt8) :
    indexing.value (2^bpp.bits) v < 2^bpp.bits := by
  have hv := v.toNat_lt
  cases indexing with
  | grayscale =>
    simp only [value, rescaleByte]
    cases bpp <;> simp only [BitsPerPixel.bits] <;> omega
  | palette =>
    rw [value, Nat.and_two_pow_sub_one_eq_mod]
    exact Nat.mod_lt _ (by positivity)

/-- The palette indices, or the grey levels, of the pixels. -/
def Image.indices (im : Image) (indexing : Indexing) (bpp : BitsPerPixel) : List UInt8 :=
  (im.tobytes indexing.channel).map fun v => UInt8.ofNat (indexing.value (2^bpp.bits) v)

theorem Image.indices_palette {im : Image} {bpp : BitsPerPixel}
    (h : ∀ v ∈ im.tobytes .index, v.toNat < 2^bpp.bits) :
    im.indices .palette bpp = im.tobytes .index := by
  rw [indices, Indexing.channel]
  refine (List.map_congr_left fun v hv => ?_).trans (List.map_id _)
  rw [Indexing.value, Nat.and_two_pow_sub_one_eq_mod, Nat.mod_eq_of_lt (h v hv), UInt8.ofNat_toNat]
  rfl

theorem convertImageBytes_indexed (im : Image) (indexing : Indexing) (bpp : BitsPerPixel) :
    ∃ palette, convertImageBytes im (.indexed indexing bpp) = some (palette,
      packBytes (indexing.value (2^bpp.bits)) bpp.bits (8/bpp.bits) (im.tobytes indexing.channel)
        (((im.tobytes indexing.channel).length+(8/bpp.bits-1))/(8/bpp.bits))) := by
  have hppb : 8/bpp.bits ≠ 0 := by cases bpp <;> decide
  simp only [convertImageBytes, Format.numColors, Nat.log2_two_pow, im.tobytes_length]
  rw [if_pos hppb, if_neg (by simp [packBytes])]
  exact ⟨_, rfl⟩

/-- The firmware decodes the image that the tool prepared: the output is given the indices of all
pixels in turn, and of the compressed bytes no more than an empty literal is left. -/
theorem image_bytes_round_trip {π β : Type} (im : Image) (indexing : Indexing)
    (bpp : BitsPerPixel) :
    ∃ palette data buffer given rest,
      convertImageBytes im (.indexed indexing bpp) = some (palette,data)
      ∧ toBytes (compressBytesQmkRle data) = some buffer
      ∧ buffer = given ++ rest ∧ (rest = [] ∨ rest = [127])
      ∧ (∀ curr mode remain,
        let (input,s) := prepareInputState ⟨makeMemoryStream buffer,curr,mode,remain⟩ .rle
        ∃ s', s'.srcStream = .at given rest
        ∧ (∀ (table : π) (output : π → UInt8 → β → Option β) b,
          decodePalette (im.width*im.height) bpp input s table output b
            = ((im.indices indexing bpp).foldlM (fun b i => output table i b) b).map
              fun b => (s',b))
        ∧ ∀ (paletteConvert : Nat → (Nat → Hsv) → Option (Nat → π)) (lookup : Lookup π)
          (output : (Nat → π) → UInt8 → β → Option β) b,
          decodeGrayscale paletteConvert lookup (im.width*im.height) bpp input s output b
            = (preparePalette paletteConvert lookup white black (2^bpp.bits)).bind fun lookup =>
              ((im.indices indexing bpp).foldlM (fun b i => output lookup.table i b) b).map
                fun b => (lookup,s',b))
      ∧ ((∀ v ∈ im.tobytes .index, v.toNat < 2^bpp.bits) →
        im.indices .palette bpp = im.tobytes .index) := by
  have hvalue := indexing.value_lt bpp
  obtain ⟨palette, hconvert⟩ := convertImageBytes_indexed im indexing bpp
  obtain ⟨buffer, given, rest, hbytes, hbuffer, hrest, hreads⟩ :=
    compress_reads (packBytes_lt bpp hvalue (im.tobytes indexing.channel)
      (((im.tobytes indexing.channel).length+(8/bpp.bits-1))/(8/bpp.bits)))
  refine ⟨palette, _, buffer, given, rest, hconvert, hbytes, hbuffer, hrest, ?_,
    im.indices_palette⟩
  intro curr mode remain
  dsimp only [prepareInputState]
  obtain ⟨s', hdata, hstream⟩ := hreads ⟨makeMemoryStream buffer,curr,.markerByte,0⟩ rfl rfl
  have hdecode : ∀ {ρ : Type} (table : ρ) (output : ρ → UInt8 → β → Option β) (b : β),
      decodePalette (im.width*im.height) bpp byteRleDecoder
        ⟨makeMemoryStream buffer,curr,.markerByte,0⟩ table output b
          = ((im.indices indexing bpp).foldlM (fun b i => output table i b) b).map
            fun b => (s',b) := by
    intro ρ table output b
    rw [← im.tobytes_length indexing.channel, decodePalette_packed bpp hvalue _ hdata,
      Image.indices, List.foldlM_map]
  refine ⟨s', hstream, hdecode, fun paletteConvert lookup output b => ?_⟩
  rw [decodeGrayscale, decodeRecolor, Nat.one_shiftLeft]
  refine Option.bind_congr fun lookup _ => ?_
  rw [hdecode, Option.map_map]
  rfl

end QmkFirmware.Painter
