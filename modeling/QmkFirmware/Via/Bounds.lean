import QmkFirmware.Nvm.Regions
import QmkFirmware.Via.Packet

/-!
Which bytes a packet makes the firmware touch: the stored bytes are always those that the command
names, the report may be left by the buffer commands, whose size is not checked.
-/

set_option autoImplicit false

namespace QmkFirmware.Via

open Nvm He ByteProg

variable (L : Layout)

def rgblightBytes (x : Nat) : Prop :=
  eeconfigRgblightAddr ≤ x ∧ x < eeconfigRgblightAddr+4 ∨ x = eeconfigRgblightExtendedAddr

/-- The stored bytes that a command names; `first` is `command_data[0]`. -/
def namedBytes (first : UInt8) (x : Nat) : Option CommandId → Prop
  | some .getKeyboardValue | some .setKeyboardValue =>
    KeyboardValueId.ofCode first = some .layoutOptions ∧ x = viaEepromLayoutOptionsAddr
  | some .dynamicKeymapGetKeycode | some .dynamicKeymapSetKeycode
  | some .dynamicKeymapGetBuffer | some .dynamicKeymapSetBuffer => keymapBytes L x
  | some .dynamicKeymapReset => keymapBytes L x ∨ encoderBytes L x
  | some .customSetValue | some .customGetValue | some .customSave =>
    first = idQmkRgblightChannel ∧ rgblightBytes x ∨ first = idCustomChannel ∧ kbBytes x
  | some .dynamicKeymapMacroGetBuffer | some .dynamicKeymapMacroSetBuffer
  | some .dynamicKeymapMacroReset => macroBytes L x
  | some .dynamicKeymapGetEncoder | some .dynamicKeymapSetEncoder => encoderBytes L x
  | _ => False

def packetBytes (s : ByteMems Space) : Space → Nat → Prop
  | .ram, x => x < reportSize
  | .eeprom, x => namedBytes L (s .ram 1) x (CommandId.ofCode (s .ram 0))

def PacketSafe (fw : Firmware) (env : Env) (u : HeState) (s : ByteMems Space) : Prop :=
  WithinFrom (fun c => ∀ r x, c.touches r x → packetBytes L s r x) (rawHidReceive L fw env u) s

/-- A get fits if its size does, a set also if the region ends within the report. -/
def SizeFits (offset size : Nat) : Option CommandId → Prop
  | some .dynamicKeymapMacroGetBuffer | some .dynamicKeymapGetBuffer => size ≤ 28
  | some .dynamicKeymapMacroSetBuffer => size ≤ 28 ∨ L.macroSize ≤ offset+28
  | some .dynamicKeymapSetBuffer => size ≤ 28 ∨ L.keymapSize ≤ offset+28
  | _ => True

variable {L} {R : Space → Nat → Prop} {fw : Firmware} {env : Env} {u : HeState}

theorem rows_fit {row k : Nat} (hrow : row < 28/((L.cols+7)/8))
    (hk : k < rowBytes L) : 3+row*rowBytes L+k < reportSize := by
  have hbytes : rowBytes L ≤ (L.cols+7)/8 ∨ L.cols = 0 := by
    rw [rowBytes]
    split
    · omega
    · split
      · omega
      · split <;> omega
  rcases hbytes with hbytes | hzero
  · have hmul : (row+1)*rowBytes L ≤ 28 := calc
      (row+1)*rowBytes L ≤ 28/((L.cols+7)/8)*((L.cols+7)/8) := Nat.mul_le_mul hrow hbytes
      _ ≤ 28 := Nat.div_mul_le_self _ _
    rw [Nat.add_mul, Nat.one_mul] at hmul
    rw [reportSize]
    omega
  · rw [hzero] at hrow
    exact absurd hrow (Nat.not_lt_zero row)

theorem inside_heViaSetValue {valueId value : UInt8} (h : ∀ x, kbBytes x → R .eeprom x) :
    Inside R (heViaSetValue env u valueId value) :=
  within_ite (fun _ => within_bind (inside_heSaveToEeprom h) fun _ => within_pure _) fun _ =>
    within_ite (fun _ => within_bind
      (inside_eeconfigUpdateKbDatablock (fun x hlo hhi => h x (.inl ⟨hlo,hhi⟩))
        fun x hlo hhi _ => h x (.inr ⟨Nat.le_of_add_right_le hlo,hhi⟩)) fun _ => within_pure _)
    fun _ => within_pure _

section
variable (hram : ∀ x < reportSize, R .ram x)
include hram

theorem inside_argByte {i : Nat} (hi : i < reportSize) : Inside R (Nvm.readByte i) :=
  inside_ramReadByte (hram i hi)

theorem inside_replyByte {i : Nat} {v : UInt8} (hi : i < reportSize) : Inside R (writeByte i v) :=
  inside_ramWriteByte (hram i hi)

theorem inside_unhandled : Inside R unhandled := inside_replyByte hram (by decide)

theorem inside_replyDword {value : UInt32} : Inside R (replyDword value) :=
  within_bind (inside_replyByte hram (by decide)) fun _ =>
    within_bind (inside_replyByte hram (by decide)) fun _ =>
    within_bind (inside_replyByte hram (by decide)) fun _ => inside_replyByte hram (by decide)

theorem inside_switchMatrixState : Inside R (switchMatrixState L) :=
  within_bind (inside_argByte hram (by decide)) fun _ =>
    within_forFrom fun row _ hrow => within_forFrom fun k _ hk =>
      inside_replyByte hram (rows_fit (by omega) (by omega))

theorem inside_replyKeycode {keycode : UInt16} : Inside R (replyKeycode keycode) :=
  within_bind (inside_replyByte hram (by decide)) fun _ => inside_replyByte hram (by decide)

theorem inside_argKeycode : Inside R argKeycode :=
  within_bind (inside_argByte hram (by decide)) fun _ =>
    within_bind (inside_argByte hram (by decide)) fun _ => within_pure _

theorem inside_getKeycode (h : ∀ x, keymapBytes L x → R .eeprom x) : Inside R (getKeycode L) :=
  within_bind (inside_argByte hram (by decide)) fun _ =>
    within_bind (inside_argByte hram (by decide)) fun _ =>
    within_bind (inside_argByte hram (by decide)) fun _ =>
    within_bind (inside_readKeycode h) fun _ => inside_replyKeycode hram

theorem inside_setKeycode (h : ∀ x, keymapBytes L x → R .eeprom x) : Inside R (setKeycode L) :=
  within_bind (inside_argByte hram (by decide)) fun _ =>
    within_bind (inside_argByte hram (by decide)) fun _ =>
    within_bind (inside_argByte hram (by decide)) fun _ =>
    within_bind (inside_argKeycode hram) fun _ => inside_updateKeycode h

theorem inside_getEncoder (h : ∀ x, encoderBytes L x → R .eeprom x) : Inside R (getEncoder L) :=
  within_bind (inside_argByte hram (by decide)) fun _ =>
    within_bind (inside_argByte hram (by decide)) fun _ =>
    within_bind (inside_argByte hram (by decide)) fun _ =>
    within_bind (inside_readEncoder h) fun _ => inside_replyKeycode hram

theorem inside_setEncoder (h : ∀ x, encoderBytes L x → R .eeprom x) : Inside R (setEncoder L) :=
  within_bind (inside_argByte hram (by decide)) fun _ =>
    within_bind (inside_argByte hram (by decide)) fun _ =>
    within_bind (inside_argByte hram (by decide)) fun _ =>
    within_bind (inside_argKeycode hram) fun _ => inside_updateEncoder h

theorem inside_viaQmkRgblightCommand (h : ∀ x, rgblightBytes x → R .eeprom x) :
    Inside R (viaQmkRgblightCommand env) := by
  have harg : ∀ i < reportSize, Inside R (Nvm.readByte i) := fun i hi => inside_argByte hram hi
  have hreply : ∀ i < reportSize, ∀ v, Inside R (writeByte i v) :=
    fun i hi v => inside_replyByte hram hi
  refine within_bind (harg 0 (by decide)) fun commandId => ?_
  split
  · refine within_bind (harg 2 (by decide)) fun _ => within_ite
      (fun _ => within_bind (harg 3 (by decide)) fun _ => within_pure ()) fun _ => within_ite
      (fun _ => within_bind (harg 3 (by decide)) fun _ =>
        within_bind (harg 4 (by decide)) fun _ => within_pure ()) fun _ => within_pure ()
  · refine within_bind (harg 2 (by decide)) fun _ => within_ite
      (fun _ => hreply 3 (by decide) _) fun _ => within_ite
      (fun _ => hreply 3 (by decide) _) fun _ => within_ite
      (fun _ => hreply 3 (by decide) _) fun _ => within_ite
      (fun _ => within_bind (hreply 3 (by decide) _) fun _ => hreply 4 (by decide) _)
      fun _ => within_pure ()
  · exact inside_eeconfigUpdateRgblight (fun x hlo hhi => h x (.inl ⟨hlo,hhi⟩)) (h _ (.inr rfl))
  · exact inside_unhandled hram

theorem inside_viaCustomValueCommandKb (h : ∀ x, kbBytes x → R .eeprom x) :
    Inside R (viaCustomValueCommandKb env u) := by
  refine within_bind (inside_argByte hram (by decide)) fun channelId => within_ite
    (fun _ => within_bind (inside_unhandled hram) fun _ => within_pure u) fun _ =>
    within_bind (inside_argByte hram (by decide)) fun commandId => ?_
  split
  · exact within_bind (inside_argByte hram (by decide)) fun _ =>
      within_bind (inside_argByte hram (by decide)) fun _ => inside_heViaSetValue h
  · exact within_bind (inside_argByte hram (by decide)) fun _ =>
      within_bind (inside_replyByte hram (by decide)) fun _ => within_pure u
  · exact within_bind (inside_heSaveToEeprom h) fun _ => within_pure _
  · exact within_bind (inside_unhandled hram) fun _ => within_pure u

theorem inside_rawHidSend : Inside R rawHidSend :=
  within_forFrom fun i _ hi => within_bind (inside_argByte hram (by omega)) fun _ => within_pure ()

end

def packetOffset (s : ByteMems Space) : Nat := (joinBytes (s .ram 1) (s .ram 2)).toNat

def packetSize (s : ByteMems Space) : Nat := (s .ram 3).toNat

abbrev StaysIn (R : Space → Nat → Prop) {α : Type} (p : Prog α) (s : ByteMems Space) : Prop :=
  WithinFrom (fun c => ∀ r x, c.touches r x → R r x) p s

variable {s : ByteMems Space}

section
variable (hram : ∀ x < reportSize, R .ram x)
include hram

theorem bufferCommand_stays {f : Nat → Nat → Nat → Prog Unit} :
    StaysIn R (bufferCommand f) s ↔ StaysIn R (f (packetOffset s) (packetSize s) 4) s := by
  have harg : ∀ i < reportSize, StaysIn R (Nvm.readByte i) s := fun i hi => inside_argByte hram hi s
  rw [bufferCommand, StaysIn, withinFrom_bind, and_iff_right (harg 1 (by decide)), mem_readByte,
    withinFrom_bind, and_iff_right (harg 2 (by decide)), mem_readByte, withinFrom_bind,
    and_iff_right (harg 3 (by decide))]
  exact Iff.rfl

theorem getKeyboardValue_stays (heep : KeyboardValueId.ofCode (s .ram 1) = some .layoutOptions →
    R .eeprom viaEepromLayoutOptionsAddr) : StaysIn R (getKeyboardValue L env) s := by
  rw [getKeyboardValue, StaysIn, withinFrom_bind, val_readByte]
  refine ⟨inside_argByte hram (by decide) s,?_⟩
  split
  · exact inside_replyDword hram _
  · rename_i hid
    exact within_bind (within_bind (inside_eepromReadByte (heep hid)) fun _ => within_pure _)
      (fun _ => inside_replyDword hram) _
  · exact inside_switchMatrixState hram _
  · exact inside_replyDword hram _
  · exact inside_replyDword hram _
  · exact inside_unhandled hram _

theorem setKeyboardValue_stays (heep : KeyboardValueId.ofCode (s .ram 1) = some .layoutOptions →
    R .eeprom viaEepromLayoutOptionsAddr) : StaysIn R setKeyboardValue s := by
  rw [setKeyboardValue, StaysIn, withinFrom_bind, val_readByte]
  refine ⟨inside_argByte hram (by decide) s,?_⟩
  split
  · rename_i hid
    exact within_bind (inside_argByte hram (by decide)) (fun _ =>
      within_bind (inside_argByte hram (by decide)) fun _ =>
      within_bind (inside_argByte hram (by decide)) fun _ =>
      within_bind (inside_argByte hram (by decide)) fun _ => inside_eepromUpdateByte (heep hid)) _
  · exact within_bind (inside_argByte hram (by decide)) (fun _ => within_pure ()) _
  · exact inside_unhandled hram _

theorem viaCustomValueCommand_stays
    (hlight : s .ram 1 = idQmkRgblightChannel → ∀ x, rgblightBytes x → R .eeprom x)
    (hkb : s .ram 1 = idCustomChannel → ∀ x, kbBytes x → R .eeprom x) :
    StaysIn R (viaCustomValueCommand env u) s := by
  have harg := fun i (hi : i < reportSize) => inside_argByte hram hi s
  rw [viaCustomValueCommand, StaysIn, withinFrom_bind, val_readByte, mem_readByte]
  refine ⟨harg 1 (by decide),?_⟩
  by_cases hchannel : s .ram 1 = idQmkRgblightChannel
  · rw [if_pos hchannel]
    exact within_bind (inside_viaQmkRgblightCommand hram (hlight hchannel)) (fun _ => within_pure u) s
  · rw [if_neg hchannel]
    by_cases hcustom : s .ram 1 = idCustomChannel
    · exact inside_viaCustomValueCommandKb hram (hkb hcustom) s
    · rw [viaCustomValueCommandKb, withinFrom_bind, val_readByte, if_pos hcustom]
      exact ⟨harg 1 (by decide),
        within_bind (inside_unhandled hram) (fun _ => within_pure u) _⟩

theorem viaCommand_stays {command : Option CommandId}
    (heep : ∀ x, namedBytes L (s .ram 1) x command → R .eeprom x)
    (hroom : (∀ x, R .ram x) ∨ SizeFits L (packetOffset s) (packetSize s) command) :
    StaysIn R (viaCommand L fw env u command) s := by
  -- a get fills the buffer, a set reads what it stores
  have hget : ∀ i, i < packetSize s → (∀ x, R .ram x) ∨ packetSize s ≤ 28 → R .ram (4+i) :=
    fun i hi h => h.elim (fun h => h _) fun h => hram _ (by rw [reportSize]; omega)
  have hset : ∀ n, (∀ x, R .ram x) ∨ packetSize s ≤ 28 ∨ n ≤ packetOffset s+28 →
      ∀ i < packetSize s, packetOffset s+i < n → R .ram (4+i) := fun n h i hi hn =>
    h.elim (fun h => h _) fun h => hram _ (by rw [reportSize]; omega)
  have hkeymap : ∀ x, L.keymapAddr ≤ x → x < L.keymapAddr+L.keymapSize → keymapBytes L x :=
    fun x hlo hhi => ⟨hlo,by rw [encoderAddr_eq]; exact hhi⟩
  cases command with
  | none => exact within_bind (inside_unhandled hram) (fun _ => within_pure u) s
  | some command =>
    cases command with
    | getProtocolVersion =>
      exact within_bind (inside_replyByte hram (by decide)) (fun _ =>
        within_bind (inside_replyByte hram (by decide)) fun _ => within_pure u) s
    | getKeyboardValue =>
      exact withinFrom_bind.mpr ⟨getKeyboardValue_stays hram fun h => heep _ ⟨h,rfl⟩,
        within_pure u _⟩
    | setKeyboardValue =>
      exact withinFrom_bind.mpr ⟨setKeyboardValue_stays hram fun h => heep _ ⟨h,rfl⟩,
        within_pure u _⟩
    | dynamicKeymapGetKeycode =>
      exact within_bind (inside_getKeycode hram heep) (fun _ => within_pure u) s
    | dynamicKeymapSetKeycode =>
      exact within_bind (inside_setKeycode hram heep) (fun _ => within_pure u) s
    | dynamicKeymapReset =>
      exact within_bind (inside_dynamicKeymapReset (fun x hx => heep x (.inl hx))
        fun x hx => heep x (.inr hx)) (fun _ => within_pure u) s
    | customSetValue | customGetValue | customSave =>
      exact viaCustomValueCommand_stays hram (fun h x hx => heep x (.inl ⟨h,hx⟩))
        fun h x hx => heep x (.inr ⟨h,hx⟩)
    | dynamicKeymapMacroGetCount | dynamicKeymapGetLayerCount =>
      exact within_bind (inside_replyByte hram (by decide)) (fun _ => within_pure u) s
    | dynamicKeymapMacroGetBufferSize =>
      exact within_bind (inside_replyByte hram (by decide)) (fun _ =>
        within_bind (inside_replyByte hram (by decide)) fun _ => within_pure u) s
    | dynamicKeymapMacroGetBuffer =>
      refine withinFrom_bind.mpr ⟨(bufferCommand_stays hram).mpr ?_,within_pure u _⟩
      exact inside_readBuffer (fun x hlo hhi => heep x (macroBytes_of hlo hhi)) (fun x hlo hhi => by
        have := hget (x-4) (by omega) hroom
        rwa [Nat.add_sub_cancel' hlo] at this) s
    | dynamicKeymapMacroSetBuffer =>
      refine withinFrom_bind.mpr ⟨(bufferCommand_stays hram).mpr ?_,within_pure u _⟩
      exact inside_updateBuffer (fun x hlo hhi => heep x (macroBytes_of hlo hhi)) (hset _ hroom) s
    | dynamicKeymapMacroReset =>
      exact within_bind (inside_dynamicKeymapMacroReset heep) (fun _ => within_pure u) s
    | dynamicKeymapGetBuffer =>
      refine withinFrom_bind.mpr ⟨(bufferCommand_stays hram).mpr ?_,within_pure u _⟩
      exact inside_readBuffer (fun x hlo hhi => heep x (hkeymap x hlo hhi)) (fun x hlo hhi => by
        have := hget (x-4) (by omega) hroom
        rwa [Nat.add_sub_cancel' hlo] at this) s
    | dynamicKeymapSetBuffer =>
      refine withinFrom_bind.mpr ⟨(bufferCommand_stays hram).mpr ?_,within_pure u _⟩
      exact inside_updateBuffer (fun x hlo hhi => heep x (hkeymap x hlo hhi)) (hset _ hroom) s
    | dynamicKeymapGetEncoder =>
      exact within_bind (inside_getEncoder hram heep) (fun _ => within_pure u) s
    | dynamicKeymapSetEncoder =>
      exact within_bind (inside_setEncoder hram heep) (fun _ => within_pure u) s

theorem rawHidReceive_stays
    (heep : ∀ x, namedBytes L (s .ram 1) x (CommandId.ofCode (s .ram 0)) → R .eeprom x)
    (hroom : (∀ x, R .ram x)
      ∨ SizeFits L (packetOffset s) (packetSize s) (CommandId.ofCode (s .ram 0))) :
    StaysIn R (rawHidReceive L fw env u) s := by
  rw [rawHidReceive, StaysIn, withinFrom_bind, val_readByte, mem_readByte, withinFrom_bind]
  exact ⟨inside_argByte hram (by decide) s,viaCommand_stays hram heep hroom,
    within_bind (inside_rawHidSend hram) (fun _ => within_pure _) _⟩

end

theorem packet_eeprom (L : Layout) (fw : Firmware) (env : Env) (u : HeState) (s : ByteMems Space) :
    ∀ c ∈ (rawHidReceive L fw env u).log s, ∀ x, c.touches .eeprom x →
      namedBytes L (s .ram 1) x (CommandId.ofCode (s .ram 0)) := by
  have h : StaysIn (fun r x => r = .eeprom → namedBytes L (s .ram 1) x
      (CommandId.ofCode (s .ram 0))) (rawHidReceive L fw env u) s :=
    rawHidReceive_stays (fun _ _ h => nomatch h) (fun _ hx _ => hx) (.inl fun _ h => nomatch h)
  exact fun c hc x hx => h c hc .eeprom x hx rfl

theorem readBuffer_overrun {address regionSize offset size : Nat} (h : 28 < size)
    (s : ByteMems Space) :
    ∃ c ∈ (readBuffer address regionSize offset size 4).log s, c.touches .ram reportSize := by
  obtain ⟨t,ht⟩ := log_forFrom_mem (s := s) (i := 0) (n := size) (j := 28)
    (f := fun i => if offset+i < regionSize then do
      let v ← eepromReadByte (address+offset+i)
      writeByte (4+i) v
    else writeByte (4+i) 0x00) (Nat.zero_le _) (by omega)
  by_cases hin : offset+28 < regionSize
  · refine ⟨.write .ram 32 [t .eeprom (address+offset+28)],ht _ ?_,rfl,le_rfl,Nat.lt_succ_self _⟩
    simp only [if_pos hin]
    exact List.mem_cons_of_mem _ List.mem_cons_self
  · refine ⟨.write .ram 32 [0],ht _ ?_,rfl,le_rfl,by decide⟩
    simp only [if_neg hin]
    exact List.mem_cons_self

theorem updateBuffer_overrun {address regionSize offset size : Nat} (h : 28 < size)
    (hin : offset+28 < regionSize) (s : ByteMems Space) :
    ∃ c ∈ (updateBuffer address regionSize offset size 4).log s, c.touches .ram reportSize := by
  obtain ⟨t,ht⟩ := log_forFrom_mem (s := s) (i := 0) (n := size) (j := 28)
    (f := fun i => do
      if offset+i < regionSize then
        let v ← Nvm.readByte (4+i)
        eepromUpdateByte (address+offset+i) v) (Nat.zero_le _) (by omega)
  refine ⟨.read .ram 32,ht _ ?_,rfl,rfl⟩
  simp only [if_pos hin]
  exact List.mem_cons_self

theorem PacketSafe.fits (hsafe : PacketSafe L fw env u s) :
    SizeFits L (packetOffset s) (packetSize s) (CommandId.ofCode (s .ram 0)) := by
  rw [PacketSafe, rawHidReceive, withinFrom_bind, val_readByte, mem_readByte,
    withinFrom_bind] at hsafe
  have h := hsafe.2.1
  clear hsafe
  have hbuffer : ∀ f, StaysIn (packetBytes L s) (bufferCommand f >>= fun _ => pure u) s →
      ∀ c ∈ (f (packetOffset s) (packetSize s) 4).log s, ¬ c.touches .ram reportSize := by
    intro f hf c hc htouch
    exact lt_irrefl reportSize
      ((bufferCommand_stays fun _ hx => hx).mp (withinFrom_bind.mp hf).1 c hc .ram _ htouch)
  generalize CommandId.ofCode (s .ram 0) = command at h ⊢
  cases command with
  | none => trivial
  | some command =>
    cases command with
    | dynamicKeymapMacroGetBuffer | dynamicKeymapGetBuffer =>
      refine Nat.not_lt.mp fun hsize => ?_
      obtain ⟨c,hc,htouch⟩ := readBuffer_overrun hsize s
      exact hbuffer _ h c hc htouch
    | dynamicKeymapMacroSetBuffer | dynamicKeymapSetBuffer =>
      refine or_iff_not_imp_left.mpr fun hsize => Nat.not_lt.mp fun hin => ?_
      obtain ⟨c,hc,htouch⟩ := updateBuffer_overrun (Nat.not_le.mp hsize) hin s
      exact hbuffer _ h c hc htouch
    | _ => trivial

/-- A packet is handled within the report and the bytes that its command names if and only if
the size of a buffer command fits. -/
theorem packet_safe_iff (L : Layout) (fw : Firmware) (env : Env) (u : HeState)
    (s : ByteMems Space) : PacketSafe L fw env u s
      ↔ SizeFits L (packetOffset s) (packetSize s) (CommandId.ofCode (s .ram 0)) :=
  ⟨PacketSafe.fits,fun h => rawHidReceive_stays (fun _ hx => hx) (fun _ hx => hx) (.inr h)⟩

/-- The keymap is asked for 29 bytes. -/
def longGet : ByteMems Space := memories ByteMem.blank (ByteMem.blank.write 0 [0x12,0,0,29])

def idleEnv : Env := ⟨0,0,0,16,0,false,0,0,0,0,0⟩

theorem long_get_leaves_report :
    ¬ PacketSafe icebreakerLayout emptyFirmware idleEnv (boot (kbDatablock ByteMem.blank))
      longGet := by
  intro h
  exact absurd h.fits (show ¬ 29 ≤ 28 by decide)

end QmkFirmware.Via
