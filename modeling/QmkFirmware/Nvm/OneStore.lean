import Mathlib.Tactic.Ring
import QmkFirmware.Nvm.DynamicKeymap

/-!
The dynamic keymap as one store: keycodes, encoder keycodes and macro bytes. The keycode
functions and the buffer functions are two views of it.
-/

set_option autoImplicit false

namespace QmkFirmware.Nvm

@[ext] structure Store where
  keycode : Nat → Nat → Nat → UInt16
  encoder : Nat → Nat → Bool → UInt16
  macros : Nat → UInt8

variable (L : Layout)

/-- The EEPROM with a buffer in RAM. -/
def memories (eeprom ram : ByteMem) : ByteMems Space
  | .eeprom => eeprom
  | .ram => ram

/-- What the read functions return. -/
def view (e : ByteMem) : Store where
  keycode := fun layer row column =>
    (nvmDynamicKeymapReadKeycode L layer row column).val (memories e ByteMem.blank)
  encoder := fun layer encoderId clockwise =>
    (nvmDynamicKeymapReadEncoder L layer encoderId clockwise).val (memories e ByteMem.blank)
  macros := fun offset =>
    (nvmDynamicKeymapMacroReadBuffer L offset 1 0).mem (memories e ByteMem.blank) .ram 0

/-- The calls that change the regions, with the bytes at the data pointer. -/
inductive Op where
  | setKeycode (layer row column : UInt8) (keycode : UInt16)
  | setEncoder (layer encoderId : UInt8) (clockwise : Bool) (keycode : UInt16)
  | setBuffer (offset size : UInt16) (data : ByteMem)
  | macroSetBuffer (offset size : UInt16) (data : ByteMem)

def Op.exec (e : ByteMem) : Op → ByteMem
  | .setKeycode layer row column keycode =>
    (nvmDynamicKeymapUpdateKeycode L layer.toNat row.toNat column.toNat keycode).mem
      (memories e ByteMem.blank) .eeprom
  | .setEncoder layer encoderId clockwise keycode =>
    (nvmDynamicKeymapUpdateEncoder L layer.toNat encoderId.toNat clockwise keycode).mem
      (memories e ByteMem.blank) .eeprom
  | .setBuffer offset size data =>
    (nvmDynamicKeymapUpdateBuffer L offset.toNat size.toNat 0).mem (memories e data) .eeprom
  | .macroSetBuffer offset size data =>
    (nvmDynamicKeymapMacroUpdateBuffer L offset.toNat size.toNat 0).mem (memories e data) .eeprom

/-- The number of a key in layer, row and column order. -/
def Layout.index (layer row column : Nat) : Nat := (layer*L.rows+row)*L.cols+column

/-- Byte `n` of a region after `size` bytes from `data` were put at `offset`. -/
def patched (offset size : Nat) (data : ByteMem) (n : Nat) (old : UInt8) : UInt8 :=
  if offset ≤ n ∧ n < offset+size then data (n-offset) else old

/-- What the calls are for. -/
def Op.apply (s : Store) : Op → Store
  | .setKeycode layer row column keycode => { s with
      keycode := fun l r c =>
        if l = layer.toNat ∧ r = row.toNat ∧ c = column.toNat ∧ l < L.layers ∧ r < L.rows
          ∧ c < L.cols then keycode else s.keycode l r c }
  | .setEncoder layer encoderId clockwise keycode => { s with
      encoder := fun l i d =>
        if l = layer.toNat ∧ i = encoderId.toNat ∧ d = clockwise ∧ l < L.layers ∧ i < L.encoders
        then keycode else s.encoder l i d }
  | .setBuffer offset size data => { s with
      keycode := fun l r c =>
        if l < L.layers ∧ r < L.rows ∧ c < L.cols then
          let n := 2*L.index l r c
          joinBytes (patched offset.toNat size.toNat data n (highByte (s.keycode l r c)))
            (patched offset.toNat size.toNat data (n+1) (lowByte (s.keycode l r c)))
        else s.keycode l r c }
  | .macroSetBuffer offset size data => { s with
      macros := fun n =>
        if n < L.macroSize then patched offset.toNat size.toNat data n (s.macros n)
        else s.macros n }

/-- The big-endian bytes of all keycodes, in layer, row and column order. -/
def Store.bytes (s : Store) : List UInt8 :=
  (List.range L.layers).flatMap fun l => (List.range L.rows).flatMap fun r =>
    (List.range L.cols).flatMap fun c => [highByte (s.keycode l r c),lowByte (s.keycode l r c)]

/-- The region that a call may change. -/
def Op.region : Op → Nat → Prop
  | .setKeycode .. => fun x => L.keymapAddr ≤ x ∧ x < L.encoderAddr
  | .setEncoder .. => fun x => L.encoderAddr ≤ x ∧ x < L.macroAddr
  | .setBuffer .. => fun x => L.keymapAddr ≤ x ∧ x < L.encoderAddr
  | .macroSetBuffer .. => fun x => L.macroAddr ≤ x ∧ x ≤ L.maxAddr

/-- A layer, row, column, encoder or offset past the end. -/
def Op.outOfRange : Op → Prop
  | .setKeycode layer row column _ =>
    L.layers ≤ layer.toNat ∨ L.rows ≤ row.toNat ∨ L.cols ≤ column.toNat
  | .setEncoder layer encoderId _ _ => L.layers ≤ layer.toNat ∨ L.encoders ≤ encoderId.toNat
  | .setBuffer offset _ _ => L.keymapSize ≤ offset.toNat
  | .macroSetBuffer offset _ _ => L.macroSize ≤ offset.toNat

theorem mixed_lt {a b m n : Nat} (ha : a < m) (hb : b < n) : a*n+b < m*n :=
  calc a*n+b < a*n+n := by omega
    _ = (a+1)*n := (Nat.succ_mul a n).symm
    _ ≤ m*n := Nat.mul_le_mul_right n ha

theorem mixed_inj {a b a' b' n : Nat} (hb : b < n) (hb' : b' < n) (h : a*n+b = a'*n+b') :
    a = a' ∧ b = b' := by
  have hmod : b = b' := by
    have := congrArg (· % n) h
    simpa only [Nat.mul_add_mod_of_lt hb, Nat.mul_add_mod_of_lt hb'] using this
  subst b'
  exact ⟨Nat.eq_of_mul_eq_mul_right (by omega) (Nat.add_right_cancel h),rfl⟩

variable {L}

theorem key_address (layer row column : Nat) :
    dynamicKeymapKeyToEepromAddress L layer row column
      = L.keymapAddr+2*L.index layer row column := by
  rw [dynamicKeymapKeyToEepromAddress, Layout.index]
  ring

theorem encoder_address (layer encoderId : Nat) (clockwise : Bool) :
    dynamicKeymapEncoderToEepromAddress L layer encoderId+(if clockwise then 0 else 2)
      = L.encoderAddr+2*((layer*L.encoders+encoderId)*2+if clockwise then 0 else 1) := by
  rw [dynamicKeymapEncoderToEepromAddress]
  cases clockwise <;> simp only [Bool.false_eq_true, if_true, if_false] <;> ring

theorem index_lt {layer row column : Nat} (h : layer < L.layers ∧ row < L.rows ∧ column < L.cols) :
    2*L.index layer row column+1 < L.keymapSize := by
  have := mixed_lt (mixed_lt h.1 h.2.1) h.2.2
  rw [Layout.index, Layout.keymapSize]
  omega

theorem index_inj {l r c l' r' c' : Nat} (h : r < L.rows ∧ c < L.cols)
    (h' : r' < L.rows ∧ c' < L.cols) (he : L.index l r c = L.index l' r' c') :
    l = l' ∧ r = r' ∧ c = c' := by
  obtain ⟨hlr,hc⟩ := mixed_inj h.2 h'.2 he
  obtain ⟨hl,hr⟩ := mixed_inj h.1 h'.1 hlr
  exact ⟨hl,hr,hc⟩

theorem encoderAddr_eq (L : Layout) : L.encoderAddr = L.keymapAddr+L.keymapSize := by
  rw [Layout.encoderAddr, Layout.keymapSize]

theorem encoder_lt {layer encoderId : Nat} (clockwise : Bool)
    (h : layer < L.layers ∧ encoderId < L.encoders) :
    L.encoderAddr+2*((layer*L.encoders+encoderId)*2+if clockwise then 0 else 1)+1
      < L.macroAddr := by
  have := mixed_lt h.1 h.2
  rw [Layout.macroAddr]
  split <;> omega

/-- One keycode of a table. -/
def slot (base i : Nat) (e : ByteMem) : UInt16 := joinBytes (e (base+2*i)) (e (base+2*i+1))

def setSlot (base i : Nat) (keycode : UInt16) (e : ByteMem) : ByteMem :=
  Function.update (Function.update e (base+2*i) (highByte keycode)) (base+2*i+1)
    (lowByte keycode)

theorem setSlot_other {base i x : Nat} {keycode : UInt16} {e : ByteMem}
    (h : x < base+2*i ∨ base+2*i+1 < x) : setSlot base i keycode e x = e x := by
  rw [setSlot, Function.update_of_ne (by omega), Function.update_of_ne (by omega)]

theorem slot_setSlot (base i j : Nat) (keycode : UInt16) (e : ByteMem) :
    slot base j (setSlot base i keycode e) = if j = i then keycode else slot base j e := by
  split
  · rename_i h
    subst j
    rw [slot, setSlot, Function.update_self, Function.update_of_ne (by omega),
      Function.update_self, joinBytes_split]
  · rename_i h
    rw [slot, setSlot_other (by omega), setSlot_other (by omega), slot]

theorem slot_congr {base i : Nat} {e e' : ByteMem}
    (h : ∀ x, base+2*i ≤ x → x ≤ base+2*i+1 → e x = e' x) : slot base i e = slot base i e' := by
  rw [slot, slot, h _ le_rfl (Nat.le_succ _), h _ (Nat.le_succ _) le_rfl]

theorem view_keycode (e : ByteMem) (l r c : Nat) : (view L e).keycode l r c =
    if l < L.layers ∧ r < L.rows ∧ c < L.cols then slot L.keymapAddr (L.index l r c) e else 0 := by
  show ByteProg.val (nvmDynamicKeymapReadKeycode L l r c) _ = _
  rw [nvmDynamicKeymapReadKeycode]
  split
  · rename_i h
    rw [if_neg (by omega)]
    rfl
  · rename_i h
    rw [if_pos (by omega), key_address, val_readKeycodeAt]
    rfl

theorem view_encoder (e : ByteMem) (l i : Nat) (d : Bool) : (view L e).encoder l i d =
    if l < L.layers ∧ i < L.encoders then
      slot L.encoderAddr ((l*L.encoders+i)*2+if d then 0 else 1) e else 0 := by
  show ByteProg.val (nvmDynamicKeymapReadEncoder L l i d) _ = _
  rw [nvmDynamicKeymapReadEncoder]
  by_cases h : l ≥ L.layers ∨ i ≥ L.encoders
  · rw [if_pos h, if_neg (by omega)]
    rfl
  · rw [if_neg h, if_pos (show l < L.layers ∧ i < L.encoders by omega), encoder_address,
      val_readKeycodeAt]
    rfl

theorem view_macros (e : ByteMem) (n : Nat) :
    (view L e).macros n = if n < L.macroSize then e (L.macroAddr+n) else 0 :=
  (readBuffer_mem L.macroAddr L.macroSize n 1 0 (memories e ByteMem.blank)).2 0 Nat.one_pos

theorem exec_setKeycode (e : ByteMem) (layer row column : UInt8) (keycode : UInt16) :
    Op.exec L e (.setKeycode layer row column keycode) =
      if layer.toNat < L.layers ∧ row.toNat < L.rows ∧ column.toNat < L.cols then
        setSlot L.keymapAddr (L.index layer.toNat row.toNat column.toNat) keycode e else e := by
  rw [Op.exec, nvmDynamicKeymapUpdateKeycode]
  split
  · rename_i h
    rw [if_neg (by omega)]
    rfl
  · rename_i h
    rw [if_pos (by omega), key_address, updateKeycodeAt_eeprom]
    rfl

theorem exec_setEncoder (e : ByteMem) (layer encoderId : UInt8) (clockwise : Bool)
    (keycode : UInt16) : Op.exec L e (.setEncoder layer encoderId clockwise keycode) =
      if layer.toNat < L.layers ∧ encoderId.toNat < L.encoders then
        setSlot L.encoderAddr ((layer.toNat*L.encoders+encoderId.toNat)*2
          +if clockwise then 0 else 1) keycode e else e := by
  rw [Op.exec, nvmDynamicKeymapUpdateEncoder]
  by_cases h : layer.toNat ≥ L.layers ∨ encoderId.toNat ≥ L.encoders
  · rw [if_pos h, if_neg (by omega)]
    rfl
  · rw [if_neg h, if_pos (show layer.toNat < L.layers ∧ encoderId.toNat < L.encoders by omega),
      encoder_address, updateKeycodeAt_eeprom]
    rfl

theorem exec_setBuffer (e : ByteMem) (offset size : UInt16) (data : ByteMem) (n : Nat)
    (hn : n < L.keymapSize) : Op.exec L e (.setBuffer offset size data) (L.keymapAddr+n)
      = patched offset.toNat size.toNat data n (e (L.keymapAddr+n)) := by
  refine ((updateBuffer_mem L.keymapAddr L.keymapSize offset.toNat size.toNat 0
    (memories e data)).2 _).trans ?_
  rw [patched]
  refine ite_congr (propext ?_) (fun _ => ?_) (fun _ => rfl)
  · omega
  · show data _ = data _
    congr 1
    omega

theorem exec_macroSetBuffer (e : ByteMem) (offset size : UInt16) (data : ByteMem) (n : Nat)
    (hn : n < L.macroSize) : Op.exec L e (.macroSetBuffer offset size data) (L.macroAddr+n)
      = patched offset.toNat size.toNat data n (e (L.macroAddr+n)) := by
  refine ((updateBuffer_mem L.macroAddr L.macroSize offset.toNat size.toNat 0
    (memories e data)).2 _).trans ?_
  rw [patched]
  refine ite_congr (propext ?_) (fun _ => ?_) (fun _ => rfl)
  · omega
  · show data _ = data _
    congr 1
    omega

theorem exec_region (e : ByteMem) (op : Op) {x : Nat} (hx : ¬ op.region L x) :
    op.exec L e x = e x := by
  have hfits := L.fits
  cases op with
  | setKeycode layer row column keycode =>
    rw [exec_setKeycode]
    split
    · rename_i h
      have := index_lt h
      rw [Op.region, encoderAddr_eq] at hx
      exact setSlot_other (by omega)
    · rfl
  | setEncoder layer encoderId clockwise keycode =>
    rw [exec_setEncoder]
    by_cases h : layer.toNat < L.layers ∧ encoderId.toNat < L.encoders
    · have := encoder_lt clockwise h
      rw [if_pos h]
      rw [Op.region] at hx
      exact setSlot_other (by omega)
    · rw [if_neg h]
  | setBuffer offset size data =>
    refine ((updateBuffer_mem L.keymapAddr L.keymapSize offset.toNat size.toNat 0
      (memories e data)).2 x).trans (if_neg ?_)
    rw [Op.region, encoderAddr_eq] at hx
    omega
  | macroSetBuffer offset size data =>
    refine ((updateBuffer_mem L.macroAddr L.macroSize offset.toNat size.toNat 0
      (memories e data)).2 x).trans (if_neg ?_)
    rw [Op.region] at hx
    rw [Layout.macroAddr, Layout.encoderAddr] at hx
    rw [Layout.macroSize, Layout.macroAddr, Layout.encoderAddr]
    omega

section
variable {e e' : ByteMem}

theorem keycode_congr (h : ∀ x, L.keymapAddr ≤ x → x < L.encoderAddr → e x = e' x) :
    (view L e).keycode = (view L e').keycode := by
  funext l r c
  rw [view_keycode, view_keycode]
  split
  · rename_i hin
    have := index_lt hin
    rw [encoderAddr_eq] at h
    exact slot_congr fun x hx hx' => h x (by omega) (by omega)
  · rfl

theorem encoder_congr (h : ∀ x, L.encoderAddr ≤ x → x < L.macroAddr → e x = e' x) :
    (view L e).encoder = (view L e').encoder := by
  funext l i d
  rw [view_encoder, view_encoder]
  by_cases hin : l < L.layers ∧ i < L.encoders
  · have := encoder_lt d hin
    rw [if_pos hin, if_pos hin]
    exact slot_congr fun x hx hx' => h x (by omega) (by omega)
  · rw [if_neg hin, if_neg hin]

theorem macros_congr (h : ∀ x, L.macroAddr ≤ x → e x = e' x) :
    (view L e).macros = (view L e').macros := by
  funext n
  rw [view_macros, view_macros, h _ (Nat.le_add_right _ _)]

end

theorem encoderAddr_le_macroAddr : L.encoderAddr ≤ L.macroAddr := Nat.le_add_right _ _

theorem exec_refines (e : ByteMem) (op : Op) : view L (op.exec L e) = op.apply L (view L e) := by
  have hregion := fun x => exec_region (L := L) e op (x := x)
  have haddr := encoderAddr_le_macroAddr (L := L)
  have hkeymap : L.keymapAddr ≤ L.encoderAddr := encoderAddr_eq L ▸ Nat.le_add_right _ _
  cases op with
  | setKeycode layer row column keycode =>
    refine Store.ext ?_ (encoder_congr fun x hx _ => hregion x (by simp only [Op.region]; omega))
      (macros_congr fun x hx => hregion x (by simp only [Op.region]; omega))
    funext l r c
    simp only [Op.apply, view_keycode, exec_setKeycode]
    by_cases hin : l < L.layers ∧ r < L.rows ∧ c < L.cols
    · rw [if_pos hin]
      split
      · rename_i hkey
        rw [slot_setSlot]
        refine ite_congr (propext ⟨fun he => ?_,fun he => ?_⟩) (fun _ => rfl) fun _ => rfl
        · obtain ⟨hl,hr,hc⟩ := index_inj hin.2 hkey.2 he
          exact ⟨hl,hr,hc,hin⟩
        · rw [he.1, he.2.1, he.2.2.1]
      · rename_i hkey
        rw [if_neg (by rintro ⟨rfl,rfl,rfl,h⟩; exact hkey h)]
    · rw [if_neg hin, if_neg (fun h => hin h.2.2.2), if_neg hin]
  | setEncoder layer encoderId clockwise keycode =>
    refine Store.ext
      (keycode_congr fun x _ hx => hregion x (by simp only [Op.region]; omega)) ?_
      (macros_congr fun x hx => hregion x (by simp only [Op.region]; omega))
    funext l i d
    simp only [Op.apply, view_encoder, exec_setEncoder]
    by_cases hin : l < L.layers ∧ i < L.encoders
    · rw [if_pos hin]
      by_cases hkey : layer.toNat < L.layers ∧ encoderId.toNat < L.encoders
      · rw [if_pos hkey, slot_setSlot, if_pos hin]
        refine ite_congr (propext ⟨fun he => ?_,fun he => ?_⟩) (fun _ => rfl) fun _ => rfl
        · obtain ⟨hrow,hd⟩ := mixed_inj (by split <;> decide) (by split <;> decide) he
          obtain ⟨hl,hi⟩ := mixed_inj hin.2 hkey.2 hrow
          refine ⟨hl,hi,?_,hin⟩
          revert hd
          cases d <;> cases clockwise <;> decide
        · rw [he.1, he.2.1, he.2.2.1]
      · have hother : ¬ (l = layer.toNat ∧ i = encoderId.toNat ∧ d = clockwise
            ∧ l < L.layers ∧ i < L.encoders) := by
          rintro ⟨rfl,rfl,-,h⟩
          exact hkey h
        rw [if_neg hkey, if_neg hother, if_pos hin]
    · rw [if_neg hin, if_neg (fun h => hin h.2.2.2), if_neg hin]
  | setBuffer offset size data =>
    refine Store.ext ?_ (encoder_congr fun x hx _ => hregion x (by simp only [Op.region]; omega))
      (macros_congr fun x hx => hregion x (by simp only [Op.region]; omega))
    funext l r c
    simp only [Op.apply, view_keycode]
    by_cases hin : l < L.layers ∧ r < L.rows ∧ c < L.cols
    · have hlt := index_lt hin
      simp only [if_pos hin, slot, Nat.add_assoc, exec_setBuffer e offset size data _ hlt,
        exec_setBuffer e offset size data _ (Nat.lt_of_succ_lt hlt), highByte_joinBytes,
        lowByte_joinBytes]
    · simp only [if_neg hin]
  | macroSetBuffer offset size data =>
    refine Store.ext
      (keycode_congr fun x _ hx => hregion x (by simp only [Op.region]; omega))
      (encoder_congr fun x _ hx => hregion x (by simp only [Op.region]; omega)) ?_
    funext n
    simp only [Op.apply, view_macros]
    by_cases hn : n < L.macroSize
    · rw [if_pos hn, if_pos hn, if_pos hn, exec_macroSetBuffer e offset size data n hn]
    · rw [if_neg hn, if_neg hn, if_neg hn]

theorem run_refines (ops : List Op) (e : ByteMem) :
    view L (ops.foldl (Op.exec L) e) = ops.foldl (Op.apply L) (view L e) := by
  induction ops generalizing e with
  | nil => rfl
  | cons op ops ih => rw [List.foldl_cons, ih, exec_refines, List.foldl_cons]

theorem flatMap_range_congr {α : Type} {n : Nat} {f g : Nat → List α}
    (h : ∀ i < n, f i = g i) : (List.range n).flatMap f = (List.range n).flatMap g :=
  List.flatMap_congr fun i hi => h i (List.mem_range.mp hi)

theorem bytes_view (e : ByteMem) :
    (view L e).bytes L = e.read L.keymapAddr L.keymapSize := by
  have hsize : L.keymapSize = L.layers*(L.rows*(L.cols*2)) := by
    rw [Layout.keymapSize]
    ring
  rw [hsize, ByteMem.read_mul, Store.bytes]
  refine flatMap_range_congr fun l hl => ?_
  rw [ByteMem.read_mul]
  refine flatMap_range_congr fun r hr => ?_
  rw [ByteMem.read_mul]
  refine flatMap_range_congr fun c hc => ?_
  have haddr : L.keymapAddr+l*(L.rows*(L.cols*2))+r*(L.cols*2)+c*2
      = L.keymapAddr+2*L.index l r c := by
    rw [Layout.index]
    ring
  rw [view_keycode, if_pos ⟨hl,hr,hc⟩, slot, highByte_joinBytes, lowByte_joinBytes, haddr]
  rfl

theorem exec_outOfRange (e : ByteMem) {op : Op} (h : op.outOfRange L) : op.exec L e = e := by
  cases op with
  | setKeycode layer row column keycode =>
    rw [Op.outOfRange] at h
    rw [exec_setKeycode, if_neg (by omega)]
  | setEncoder layer encoderId clockwise keycode =>
    rw [Op.outOfRange] at h
    rw [exec_setEncoder,
      if_neg (show ¬ (layer.toNat < L.layers ∧ encoderId.toNat < L.encoders) by omega)]
  | setBuffer offset size data =>
    rw [Op.outOfRange] at h
    funext x
    exact ((updateBuffer_mem L.keymapAddr L.keymapSize offset.toNat size.toNat 0
      (memories e data)).2 x).trans (if_neg (by omega))
  | macroSetBuffer offset size data =>
    rw [Op.outOfRange] at h
    funext x
    exact ((updateBuffer_mem L.macroAddr L.macroSize offset.toNat size.toNat 0
      (memories e data)).2 x).trans (if_neg (by omega))

/-- The read functions on an EEPROM agree with its keycodes, encoder keycodes and macro bytes. -/
structure ReadsAgree (L : Layout) (e : ByteMem) : Prop where
  keymapBuffer : ∀ offset size data s, s .eeprom = e → ∀ i < size,
    (nvmDynamicKeymapReadBuffer L offset size data).mem s .ram (data+i)
      = ((view L e).bytes L).getD (offset+i) 0
  macroBuffer : ∀ offset size data s, s .eeprom = e → ∀ i < size,
    (nvmDynamicKeymapMacroReadBuffer L offset size data).mem s .ram (data+i)
      = (view L e).macros (offset+i)
  keycodeOutside : ∀ l r c, L.layers ≤ l ∨ L.rows ≤ r ∨ L.cols ≤ c → (view L e).keycode l r c = 0
  encoderOutside : ∀ l i d, L.layers ≤ l ∨ L.encoders ≤ i → (view L e).encoder l i d = 0
  macroOutside : ∀ n, L.macroSize ≤ n → (view L e).macros n = 0

theorem reads_agree (L : Layout) (e : ByteMem) : ReadsAgree L e where
  keymapBuffer := by
    rintro offset size data s rfl i hi
    rw [nvmDynamicKeymapReadBuffer, (readBuffer_mem _ _ _ _ _ s).2 i hi, bytes_view,
      ByteMem.getD_read]
  macroBuffer := by
    rintro offset size data s rfl i hi
    rw [nvmDynamicKeymapMacroReadBuffer, (readBuffer_mem _ _ _ _ _ s).2 i hi, view_macros]
  keycodeOutside := by
    intro l r c h
    rw [view_keycode, if_neg (by omega)]
  encoderOutside := by
    intro l i d h
    rw [view_encoder, if_neg (show ¬ (l < L.layers ∧ i < L.encoders) by omega)]
  macroOutside := by
    intro n h
    rw [view_macros, if_neg (by omega)]

/-- After any calls the keycodes, encoder keycodes and macro bytes are those that the calls give
a store; the buffer reads agree with them; a call with arguments out of range changes nothing, and
no call changes a byte outside its region. -/
theorem dynamic_keymap_store (L : Layout) (e : ByteMem) (ops : List Op) :
    let e' := ops.foldl (Op.exec L) e
    view L e' = ops.foldl (Op.apply L) (view L e) ∧ ReadsAgree L e'
      ∧ (∀ op : Op, op.outOfRange L → op.exec L e' = e')
      ∧ ∀ (op : Op) x, ¬ op.region L x → op.exec L e' x = e' x :=
  ⟨run_refines ops e,reads_agree L _,fun _ h => exec_outOfRange _ h,
    fun op _ hx => exec_region _ op hx⟩

end QmkFirmware.Nvm
