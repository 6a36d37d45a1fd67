import QmkFirmware.Painter.Image

/-!
Streams that end too early. The uncompressed callback passes `STREAM_EOF` on; the run-length
callback returns it as a byte.
-/

set_option autoImplicit false

namespace QmkFirmware.Painter

/-- What is left of a stream. -/
def MemoryStream.rest (s : MemoryStream) : List UInt8 := s.buffer.drop s.position

theorem get_cons {s : MemoryStream} {b : UInt8} {bs : List UInt8} (h : s.rest = b :: bs) :
    s.get.1 = b.toNat ∧ s.get.2.rest = bs := by
  have hlt : s.position < s.buffer.length := by
    by_contra hle
    rw [MemoryStream.rest, List.drop_eq_nil_of_le (Nat.le_of_not_lt hle)] at h
    cases h
  rw [MemoryStream.rest, List.drop_eq_getElem_cons hlt] at h
  obtain ⟨hhead, htail⟩ := List.cons.inj h
  rw [MemoryStream.get, List.getElem?_eq_getElem hlt, hhead]
  exact ⟨rfl,htail⟩

theorem get_nil {s : MemoryStream} (h : s.rest = []) : s.get.1 = -1 ∧ s.get.2.rest = [] := by
  have hle : s.buffer.length ≤ s.position := List.drop_eq_nil_iff.mp h
  rw [MemoryStream.get, List.getElem?_eq_none hle]
  exact ⟨rfl,h⟩

/-- The length of a run or of a literal; the counter is one of 8 bits. -/
def runLength (remain : UInt8) : Nat := if remain = 0 then 256 else remain.toNat

theorem runLength_pos (remain : UInt8) : 0 < runLength remain := by
  unfold runLength
  split_ifs with h
  · decide
  · exact Nat.pos_of_ne_zero fun hzero => h (UInt8.toNat_inj.mp hzero)

def rleSupply : List UInt8 → List UInt8
  | marker :: value :: rest =>
    if 128 ≤ marker then
      (value :: rest).take (runLength (marker-127))
        ++ rleSupply (rest.drop (runLength (marker-127)-1))
    else List.replicate (runLength marker) value ++ rleSupply rest
  | _ => []
termination_by bytes => bytes.length
decreasing_by
  · simp only [List.length_drop, List.length_cons]
    omega
  · simp only [List.length_cons]
    omega

def supply : Compression → List UInt8 → List UInt8
  | .uncompressed, bytes => bytes
  | .rle, bytes => rleSupply bytes

/-- The bytes that so many pixels take. -/
def bytesNeeded (pixelCount : Nat) (bpp : BitsPerPixel) : Nat :=
  (pixelCount+(8/bpp.bits-1))/(8/bpp.bits)

/-- The stream ends before the bytes of all pixels. -/
def Truncated (compression : Compression) (pixelCount : Nat) (bpp : BitsPerPixel)
    (bytes : List UInt8) : Prop :=
  (supply compression bytes).length < bytesNeeded pixelCount bpp

/-- What the run-length callback is still to return before it reads behind the end. -/
def pending (s : InputState) : List UInt8 :=
  match s.mode with
  | .markerByte => rleSupply s.srcStream.rest
  | .repeatingRun =>
    List.replicate (runLength s.remain) (UInt8.ofInt s.curr) ++ rleSupply s.srcStream.rest
  | .nonRepeatingRun =>
    (UInt8.ofInt s.curr :: s.srcStream.rest).take (runLength s.remain)
      ++ rleSupply (s.srcStream.rest.drop (runLength s.remain-1))

/-- Behind the end every byte is that of `STREAM_EOF`. -/
def delivers (s : InputState) (k : Nat) : UInt8 := (pending s).getD k 0xFF

theorem getD_replicate_eof (n k : Nat) : (List.replicate n (0xFF : UInt8)).getD k 0xFF = 0xFF := by
  rw [List.getD_eq_getElem?_getD, List.getElem?_replicate]
  split_ifs <;> rfl

theorem rleSupply_nil : rleSupply [] = [] := by rw [rleSupply.eq_def]

theorem rleSupply_single (b : UInt8) : rleSupply [b] = [] := by rw [rleSupply.eq_def]

theorem delivers_literal_nil {s : InputState} (h : s.mode = .nonRepeatingRun)
    (hrest : s.srcStream.rest = []) (k : Nat) :
    delivers s k = if k = 0 then UInt8.ofInt s.curr else 0xFF := by
  have hpos := runLength_pos s.remain
  rw [delivers, pending, h]
  dsimp only
  rw [hrest, List.drop_nil, rleSupply_nil, List.append_nil]
  obtain ⟨n, hn⟩ : ∃ n, runLength s.remain = n+1 := ⟨_,(Nat.succ_pred_eq_of_pos hpos).symm⟩
  rw [hn, List.take_succ_cons, List.take_nil]
  cases k <;> rfl

theorem delivers_readMarker {s : InputState} (h : s.mode = .markerByte) (k : Nat) :
    delivers (readMarker s) k = delivers s k := by
  have hmarker : delivers s k = (rleSupply s.srcStream.rest).getD k 0xFF := by
    rw [delivers, pending, h]
  rw [hmarker]
  cases hrest : s.srcStream.rest with
  | nil =>
    obtain ⟨hfirst, hafter⟩ := get_nil hrest
    obtain ⟨hsecond, hend⟩ := get_nil hafter
    have hread : readMarker s
        = ⟨s.srcStream.get.2.get.2,-1,.nonRepeatingRun,UInt8.ofInt (-1)-127⟩ := by
      rw [readMarker]
      dsimp only
      rw [hfirst, hsecond, if_pos (by decide)]
    rw [hread, delivers_literal_nil rfl hend, rleSupply_nil]
    cases k <;> rfl
  | cons marker bytes =>
    obtain ⟨hfirst, hafter⟩ := get_cons hrest
    have hread : readMarker s = if 128 ≤ marker
        then ⟨s.srcStream.get.2.get.2,s.srcStream.get.2.get.1,.nonRepeatingRun,marker-127⟩
        else ⟨s.srcStream.get.2.get.2,s.srcStream.get.2.get.1,.repeatingRun,marker⟩ := by
      rw [readMarker]
      dsimp only
      rw [hfirst, ofInt_toNat]
    rw [hread]
    cases bytes with
    | nil =>
      obtain ⟨hsecond, hend⟩ := get_nil hafter
      rw [rleSupply_single, hsecond]
      split_ifs
      · rw [delivers_literal_nil rfl hend]
        cases k <;> rfl
      · rw [delivers, pending]
        dsimp only
        rw [hend, rleSupply_nil, List.append_nil]
        exact getD_replicate_eof ..
    | cons value bytes =>
      obtain ⟨hsecond, hend⟩ := get_cons hafter
      rw [rleSupply, hsecond]
      split_ifs <;>
      · rw [delivers, pending]
        dsimp only
        rw [hend, ofInt_toNat]

theorem runLength_step (remain : UInt8) : runLength remain
    = if 0 < remain-1 then runLength (remain-1)+1 else 1 := by
  have hlt := remain.toNat_lt
  have hsub : (remain-1).toNat = (2^8-1+remain.toNat) % 2^8 := UInt8.toNat_sub remain 1
  have hzero : ∀ r : UInt8, r = 0 ↔ r.toNat = 0 := fun r => UInt8.toNat_inj.symm
  unfold runLength
  simp only [UInt8.lt_iff_toNat_lt, hzero, hsub, UInt8.toNat_zero]
  split_ifs <;> omega

theorem running_delivers {s : InputState} (h : s.mode ≠ .markerByte) :
    (byteRleDecoder s).1 = (delivers s 0).toNat
      ∧ ∀ k, delivers (byteRleDecoder s).2 k = delivers s (k+1) := by
  obtain ⟨stream, curr, mode, remain⟩ := s
  have hstep := runLength_step remain
  rw [byteRleDecoder, if_neg h]
  dsimp only at h ⊢
  cases mode with
  | markerByte => exact absurd rfl h
  | repeatingRun =>
    rw [if_neg (show ¬ RleMode.repeatingRun = .nonRepeatingRun by decide)]
    split_ifs at hstep ⊢ with hmore
    · have hpending : pending ⟨stream,curr,.repeatingRun,remain⟩
          = UInt8.ofInt curr :: pending ⟨stream,curr,.repeatingRun,remain-1⟩ := by
        simp only [pending]
        rw [hstep, List.replicate_succ, List.cons_append]
      exact ⟨by rw [delivers, hpending]; rfl,fun k => by rw [delivers, delivers, hpending]; rfl⟩
    · have hpending : pending ⟨stream,curr,.repeatingRun,remain⟩
          = UInt8.ofInt curr :: pending ⟨stream,curr,.markerByte,remain-1⟩ := by
        simp only [pending]
        rw [hstep]
        rfl
      exact ⟨by rw [delivers, hpending]; rfl,fun k => by rw [delivers, delivers, hpending]; rfl⟩
  | nonRepeatingRun =>
    rw [if_pos rfl]
    split_ifs at hstep ⊢ with hmore
    · cases hrest : stream.rest with
      | nil =>
        obtain ⟨hget, hend⟩ := get_nil hrest
        refine ⟨by rw [delivers_literal_nil rfl hrest]; rfl,fun k => ?_⟩
        rw [delivers_literal_nil rfl hend, delivers_literal_nil rfl hrest, hget]
        cases k <;> rfl
      | cons b bytes =>
        obtain ⟨hget, hend⟩ := get_cons hrest
        obtain ⟨n, hn⟩ : ∃ n, runLength (remain-1) = n+1 :=
          ⟨_,(Nat.succ_pred_eq_of_pos (runLength_pos _)).symm⟩
        have hpending : pending ⟨stream,curr,.nonRepeatingRun,remain⟩ = UInt8.ofInt curr
            :: pending ⟨stream.get.2,stream.get.1,.nonRepeatingRun,remain-1⟩ := by
          simp only [pending]
          rw [hstep, hrest, hend, hget, ofInt_toNat, hn]
          rfl
        exact ⟨by rw [delivers, hpending]; rfl,fun k => by rw [delivers, delivers, hpending]; rfl⟩
    · have hpending : pending ⟨stream,curr,.nonRepeatingRun,remain⟩
          = UInt8.ofInt curr :: pending ⟨stream,curr,.markerByte,remain-1⟩ := by
        simp only [pending]
        rw [hstep]
        rfl
      exact ⟨by rw [delivers, hpending]; rfl,fun k => by rw [delivers, delivers, hpending]; rfl⟩

theorem byteRleDecoder_delivers (s : InputState) :
    (byteRleDecoder s).1 = (delivers s 0).toNat
      ∧ ∀ k, delivers (byteRleDecoder s).2 k = delivers s (k+1) := by
  by_cases h : s.mode = .markerByte
  · have hnot : (readMarker s).mode ≠ .markerByte := by
      rw [readMarker]
      dsimp only
      split <;> simp
    have hsame : byteRleDecoder s = byteRleDecoder (readMarker s) := by
      rw [byteRleDecoder, byteRleDecoder, if_pos h, if_neg hnot]
    obtain ⟨hfirst, hrest⟩ := running_delivers hnot
    rw [hsame]
    exact ⟨by rw [hfirst, delivers_readMarker h],fun k => by rw [hrest, delivers_readMarker h]⟩
  · exact running_delivers h

theorem reads_delivers (n : Nat) (s : InputState) :
    ∃ s', Reads byteRleDecoder ((List.range n).map (delivers s)) s s' := by
  induction n generalizing s with
  | zero => exact ⟨s,rfl⟩
  | succ n ih =>
    obtain ⟨hfirst, hrest⟩ := byteRleDecoder_delivers s
    obtain ⟨s', hreads⟩ := ih (byteRleDecoder s).2
    rw [List.range_succ_eq_map, List.map_cons, List.map_map]
    refine ⟨s',hfirst,?_⟩
    rwa [show delivers s ∘ Nat.succ = delivers (byteRleDecoder s).2 from
      funext fun k => (hrest k).symm]

section Draw

variable {σ β π : Type} (output : π → UInt8 → β → Option β) (palette : π) (bpp : BitsPerPixel)

/-- The output of so many pixels from their bytes. -/
def drawBytes : Nat → List UInt8 → β → Option β
  | _, [], b => some b
  | pixelCount, byte :: bytes, b =>
    (outputPixels bpp.bits output palette (min pixelCount (8/bpp.bits)) byte.toNat b).bind
      (drawBytes (pixelCount-min pixelCount (8/bpp.bits)) bytes)

variable {output palette bpp}

theorem bytesNeeded_zero {pixelCount : Nat} (h : bytesNeeded pixelCount bpp = 0) :
    pixelCount = 0 := by
  unfold bytesNeeded at h
  cases bpp <;> simp only [BitsPerPixel.bits] at h <;> omega

theorem bytesNeeded_pos (bpp : BitsPerPixel) {pixelCount : Nat}
    (h : 0 < bytesNeeded pixelCount bpp) :
    0 < pixelCount := by
  refine Nat.pos_of_ne_zero fun hzero => ?_
  subst hzero
  cases bpp <;> exact absurd h (by decide)

theorem bytesNeeded_step {pixelCount : Nat} (h : 0 < pixelCount) : bytesNeeded pixelCount bpp
    = bytesNeeded (pixelCount-min pixelCount (8/bpp.bits)) bpp+1 := by
  have hsub : pixelCount-min pixelCount (8/bpp.bits) = pixelCount-8/bpp.bits := by omega
  rw [hsub]
  exact count_cons bpp h

theorem decodePalette_step {input : σ → Int × σ} {s : σ} {pixelCount : Nat} (h : 0 < pixelCount)
    (b : β) : decodePalette pixelCount bpp input s palette output b
      = if (input s).1 < 0 then none
        else (outputPixels bpp.bits output palette (min pixelCount (8/bpp.bits))
          (input s).1.toNat b).bind (decodePalette (pixelCount-min pixelCount (8/bpp.bits)) bpp
            input (input s).2 palette output) := by
  rw [decodePalette, if_neg (Nat.pos_iff_ne_zero.mp h)]
  have hmin : (if pixelCount < 8/bpp.bits then pixelCount else 8/bpp.bits)
      = min pixelCount (8/bpp.bits) := by
    split <;> omega
  rw [← hmin]

theorem decodePalette_reads {input : σ → Int × σ} (bytes : List UInt8) {s s' : σ}
    {pixelCount : Nat} (hlen : bytes.length = bytesNeeded pixelCount bpp)
    (hreads : Reads input bytes s s') (b : β) :
    decodePalette pixelCount bpp input s palette output b
      = (drawBytes output palette bpp pixelCount bytes b).map fun b => (s',b) := by
  induction bytes generalizing pixelCount s b with
  | nil =>
    cases hreads
    rw [bytesNeeded_zero hlen.symm, decodePalette, if_pos rfl]
    rfl
  | cons byte bytes ih =>
    obtain ⟨hbyte, hrest⟩ := hreads
    rw [List.length_cons] at hlen
    have hpos : 0 < pixelCount := bytesNeeded_pos bpp (by omega)
    rw [bytesNeeded_step hpos] at hlen
    rw [decodePalette_step hpos, hbyte, if_neg (Int.not_lt.mpr (Int.natCast_nonneg _)),
      Int.toNat_natCast, drawBytes, Option.map_bind]
    exact Option.bind_congr fun b' _ => ih (Nat.succ.inj hlen) hrest b'

theorem decodePalette_short {s : InputState} {pixelCount : Nat}
    (h : s.srcStream.rest.length < bytesNeeded pixelCount bpp) (b : β) :
    decodePalette pixelCount bpp byteUncompressedDecoder s palette output b = none := by
  have hpos : 0 < pixelCount := bytesNeeded_pos bpp (by omega)
  rw [decodePalette_step hpos]
  induction hrest : s.srcStream.rest generalizing pixelCount s b with
  | nil =>
    rw [byteUncompressedDecoder, (get_nil hrest).1]
    exact if_pos (by decide)
  | cons byte bytes ih =>
    obtain ⟨hbyte, hafter⟩ := get_cons hrest
    rw [hrest, bytesNeeded_step hpos, List.length_cons] at h
    have hpos' := bytesNeeded_pos bpp (Nat.zero_lt_of_lt (Nat.lt_of_succ_lt_succ h))
    rw [byteUncompressedDecoder, hbyte, if_neg (Int.not_lt.mpr (Int.natCast_nonneg _))]
    refine Option.bind_eq_none_iff.mpr fun b' _ => ?_
    rw [decodePalette_step hpos']
    exact ih (by rw [hafter]; exact Nat.lt_of_succ_lt_succ h) b' hpos' hafter

/-- The bytes of an image of more than 8 bits per pixel, output one after the other. -/
def sendAll (output : UInt8 → β → Option β) (bytes : List UInt8) (b : β) : Option β :=
  bytes.foldlM (fun b byte => output byte b) b

theorem sendBytes_succ (input : σ → Int × σ) (output : UInt8 → β → Option β) (remaining : Nat)
    (s : σ) (b : β) : sendBytes input output (remaining+1) s b
      = if (input s).1 < 0 then none
        else (output (UInt8.ofInt (input s).1) b).bind (sendBytes input output remaining (input s).2) :=
  rfl

theorem sendBytes_reads {input : σ → Int × σ} (output : UInt8 → β → Option β)
    (bytes : List UInt8) {s s' : σ} (hreads : Reads input bytes s s') (b : β) :
    sendBytes input output bytes.length s b = (sendAll output bytes b).map fun b => (s',b) := by
  induction bytes generalizing s b with
  | nil =>
    cases hreads
    rfl
  | cons byte bytes ih =>
    obtain ⟨hbyte, hrest⟩ := hreads
    rw [List.length_cons, sendBytes_succ, hbyte, if_neg (Int.not_lt.mpr (Int.natCast_nonneg _)),
      ofInt_toNat, sendAll, List.foldlM_cons, Option.bind_eq_bind, Option.map_bind]
    exact Option.bind_congr fun b' _ => ih hrest b'

theorem sendBytes_short {output : UInt8 → β → Option β} {s : InputState} {byteCount : Nat}
    (h : s.srcStream.rest.length < byteCount) (b : β) :
    sendBytes byteUncompressedDecoder output byteCount s b = none := by
  induction byteCount generalizing s b with
  | zero => exact absurd h (Nat.not_lt_zero _)
  | succ byteCount ih =>
    rw [sendBytes_succ, byteUncompressedDecoder]
    cases hrest : s.srcStream.rest with
    | nil =>
      rw [(get_nil hrest).1]
      exact if_pos (by decide)
    | cons byte bytes =>
      obtain ⟨hbyte, hafter⟩ := get_cons hrest
      rw [hrest, List.length_cons] at h
      rw [hbyte, if_neg (Int.not_lt.mpr (Int.natCast_nonneg _))]
      refine Option.bind_eq_none_iff.mpr fun b' _ => ih ?_ b'
      rw [hafter]
      exact Nat.lt_of_succ_lt_succ h

variable (output palette bpp)

/-- What the run-length callback makes of a stream: the missing bytes are those of `STREAM_EOF`. -/
def padded (count : Nat) (bytes : List UInt8) : List UInt8 :=
  (List.range count).map fun k => (rleSupply bytes).getD k 0xFF

theorem rle_draws (pixelCount : Nat) (stream : MemoryStream) (curr : Int) (remain : UInt8) (b : β) :
    ∃ s', decodePalette pixelCount bpp byteRleDecoder ⟨stream,curr,.markerByte,remain⟩ palette
      output b = (drawBytes output palette bpp pixelCount
        (padded (bytesNeeded pixelCount bpp) stream.rest) b).map fun b => (s',b) := by
  obtain ⟨s', hreads⟩ := reads_delivers (bytesNeeded pixelCount bpp)
    ⟨stream,curr,.markerByte,remain⟩
  exact ⟨s',decodePalette_reads _ (by simp) hreads b⟩

theorem rle_draws_none (pixelCount : Nat) (stream : MemoryStream) (curr : Int) (remain : UInt8)
    (b : β) : decodePalette pixelCount bpp byteRleDecoder ⟨stream,curr,.markerByte,remain⟩ palette
        output b = none
      ↔ drawBytes output palette bpp pixelCount
        (padded (bytesNeeded pixelCount bpp) stream.rest) b = none := by
  obtain ⟨s', hs'⟩ := rle_draws output palette bpp pixelCount stream curr remain b
  rw [hs', Option.map_eq_none_iff]

theorem rle_sends (byteOutput : UInt8 → β → Option β) (byteCount : Nat) (stream : MemoryStream)
    (curr : Int) (remain : UInt8) (b : β) :
    ∃ s', sendBytes byteRleDecoder byteOutput byteCount ⟨stream,curr,.markerByte,remain⟩ b
      = (sendAll byteOutput (padded byteCount stream.rest) b).map fun b => (s',b) := by
  obtain ⟨s', hreads⟩ := reads_delivers byteCount ⟨stream,curr,.markerByte,remain⟩
  have hsends := sendBytes_reads byteOutput _ hreads b
  rw [List.length_map, List.length_range] at hsends
  exact ⟨s',hsends⟩

/-- A stream that is truncated is reported exactly when it is not compressed, or the output refuses
one of the pixels that are drawn all the same. With more than 8 bits per pixel it is the bytes that
are sent all the same. -/
theorem truncation_reported (paletteConvert : Nat → (Nat → Hsv) → Option (Nat → π))
    (lookup : Lookup π) (fg bg : Hsv) (drawPixel : (Nat → π) → UInt8 → β → Option β)
    (compression : Compression) (pixelCount : Nat) (state : InputState) (b : β) :
    let (input,s) := prepareInputState state compression
    let bytes := state.srcStream.rest
    ((Truncated compression pixelCount bpp bytes →
        decodePalette pixelCount bpp input s palette output b = none)
      ↔ (Truncated compression pixelCount bpp bytes → compression = .uncompressed
        ∨ drawBytes output palette bpp pixelCount
          (padded (bytesNeeded pixelCount bpp) bytes) b = none))
    ∧ ((Truncated compression pixelCount bpp bytes →
        decodeRecolor paletteConvert lookup pixelCount bpp input s fg bg drawPixel b = none)
      ↔ (Truncated compression pixelCount bpp bytes → compression = .uncompressed
        ∨ ∀ lookup', preparePalette paletteConvert lookup fg bg (1 <<< bpp.bits) = some lookup' →
          drawBytes drawPixel lookup'.table bpp pixelCount
            (padded (bytesNeeded pixelCount bpp) bytes) b = none))
    ∧ ∀ (byteOutput : UInt8 → β → Option β) (byteCount : Nat),
      ((supply compression bytes).length < byteCount →
          sendBytes input byteOutput byteCount s b = none)
        ↔ ((supply compression bytes).length < byteCount → compression = .uncompressed
          ∨ sendAll byteOutput (padded byteCount bytes) b = none) := by
  cases compression with
  | uncompressed =>
    refine ⟨⟨fun _ _ => .inl rfl,fun _ h => decodePalette_short h b⟩,
      ⟨fun _ _ => .inl rfl,fun _ h => ?_⟩,
      fun byteOutput byteCount => ⟨fun _ _ => .inl rfl,fun _ h => sendBytes_short h b⟩⟩
    rw [decodeRecolor]
    refine Option.bind_eq_none_iff.mpr fun lookup' _ => ?_
    rw [Option.map_eq_none_iff]
    exact decodePalette_short h b
  | rle =>
    refine ⟨imp_congr_right fun _ => ?_,imp_congr_right fun _ => ?_,
      fun byteOutput byteCount => imp_congr_right fun _ => ?_⟩
    · rw [or_iff_right (show ¬ Compression.rle = .uncompressed by decide)]
      exact rle_draws_none ..
    · rw [or_iff_right (show ¬ Compression.rle = .uncompressed by decide), decodeRecolor,
        Option.bind_eq_none_iff]
      refine forall_congr' fun lookup' => imp_congr_right fun _ => ?_
      rw [Option.map_eq_none_iff]
      exact rle_draws_none ..
    · obtain ⟨s', hs'⟩ := rle_sends byteOutput byteCount state.srcStream state.curr 0 b
      rw [or_iff_right (show ¬ Compression.rle = .uncompressed by decide), hs',
        Option.map_eq_none_iff]

end Draw

/-- A run of two bytes that is all there is gives three pixels, or one of three bytes. -/
theorem truncated_draws :
    let buffer : List UInt8 := [2,7]
    let (input,s) := prepareInputState ⟨makeMemoryStream buffer,0,.markerByte,0⟩ .rle
    Truncated .rle 3 .eight buffer
      ∧ (decodePalette 3 .eight input s () (fun _ index drawn => some (drawn ++ [index])) []).map
        Prod.snd = some [7,7,0xFF]
      ∧ (sendBytes input (fun byte sent => some (sent ++ [byte])) 3 s []).map Prod.snd
        = some [7,7,0xFF] := by
  have hsupply : rleSupply [2,7] = [7,7] := by
    rw [rleSupply, rleSupply_nil]
    rfl
  have hrest : (makeMemoryStream [2,7]).rest = [2,7] := rfl
  refine ⟨?_,?_,?_⟩
  · rw [Truncated, supply, hsupply]
    decide
  · obtain ⟨s', hs'⟩ := rle_draws (fun _ index drawn => some (drawn ++ [index])) () .eight 3
      (makeMemoryStream [2,7]) 0 0 ([] : List UInt8)
    dsimp only
    rw [hs', Option.map_map, padded, hrest, hsupply]
    rfl
  · obtain ⟨s', hs'⟩ := rle_sends (fun byte sent => some (sent ++ [byte])) 3
      (makeMemoryStream [2,7]) 0 0 ([] : List UInt8)
    dsimp only
    rw [hs', Option.map_map, padded, hrest, hsupply]
    rfl

end QmkFirmware.Painter
