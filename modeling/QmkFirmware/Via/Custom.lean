import QmkFirmware.Via.Bounds

/-!
The custom value commands through the driver are those of `he_via.c` on the settings alone, and
the data block in the EEPROM stays the one that the settings know, whatever packet comes.
-/

set_option autoImplicit false

namespace QmkFirmware.Via

open Nvm He ByteProg

def packetData (t : ByteMems Space) : ViaData := ⟨t .ram 0,t .ram 1,t .ram 2,t .ram 3⟩

/-- The version word and the bytes of the block. -/
def SameBlock (d d' : KbDatablock) : Prop :=
  d.version = d'.version ∧ ∀ i < eeconfigKbDataSize, d.block i = d'.block i

def Synced (s : HeState) (t : ByteMems Space) : Prop := SameBlock (kbDatablock (t .eeprom)) s.eeprom

theorem ofCode_eq_some {v : UInt8} {c : CommandId} : CommandId.ofCode v = some c ↔ v = c.code := by
  constructor
  · intro h
    have hcode : decide (c.code = v) = true :=
      List.find?_some (p := fun c : CommandId => decide (c.code = v)) h
    exact (of_decide_eq_true hcode).symm
  · rintro rfl
    cases c <;> decide

variable {s : HeState} {t : ByteMems Space} {env : Env}

theorem ram_unchanged {α : Type} {p : Prog α} (hp : Inside (fun r _ => r = .eeprom) p) :
    p.mem t .ram = t .ram :=
  funext fun x => Within.mem_other hp fun _ hc htouch => nomatch hc .ram x htouch

theorem SameBlock.update {d d' : KbDatablock} (h : SameBlock d d') (data : List UInt8)
    (offset : Nat) : SameBlock (He.eeconfigUpdateKbDatablock data offset d)
      (He.eeconfigUpdateKbDatablock data offset d') := by
  refine ⟨rfl,fun i hi => ?_⟩
  simp only [He.eeconfigUpdateKbDatablock, ByteMem.write_apply, h.2 i hi]

theorem save_saved (h : Synced s t) :
    Synced (He.heSaveToEeprom s) ((Nvm.heSaveToEeprom (He.heSaveToEeprom s)).mem t) := by
  have hsame : Nvm.heSaveToEeprom (He.heSaveToEeprom s) = Nvm.heSaveToEeprom s := rfl
  rw [Synced, hsame, kbDatablock_save]
  exact (SameBlock.update h _ _).update _ _

theorem commit_saved (h : Synced s t) : Synced (He.heViaCommitThresholds s)
    ((Nvm.heSaveToEeprom (He.heViaCommitThresholds s)).mem t) := by
  rw [He.heViaCommitThresholds]
  split
  · exact save_saved h
  · exact save_saved h

theorem setValue_other (now : UInt16) {valueId value : UInt8} (s : HeState)
    (hsave : ¬ (valueId = 3 ∨ valueId = 12))
    (hmode : ¬ (valueId = 6 ∧ (ActuationMode.ofCode value).isSome)) :
    (He.heViaSetValue now valueId value s).eeprom = s.eeprom := by
  rw [not_or] at hsave
  unfold He.heViaSetValue
  split
  · rfl
  · rfl
  · exact absurd rfl hsave.1
  · rw [heSetMode]
    split
    · rename_i m hm
      exact absurd ⟨rfl,by rw [hm]; rfl⟩ hmode
    · rfl
  · rfl
  · rfl
  · rfl
  · exact absurd rfl hsave.2
  · rfl
  · rfl
  · rfl

theorem heViaSetValue_refines {valueId value : UInt8} (h : Synced s t) :
    (heViaSetValue env s valueId value).val t = He.heViaSetValue env.now valueId value s
      ∧ Synced (He.heViaSetValue env.now valueId value s)
        ((heViaSetValue env s valueId value).mem t) := by
  unfold heViaSetValue
  by_cases hsave : valueId = 3 ∨ valueId = 12
  · simp only [if_pos hsave, mem_bind, val_bind, mem_pure, val_pure, true_and]
    rcases hsave with rfl | rfl
    · exact commit_saved h
    · exact commit_saved h
  · by_cases hmode : valueId = 6 ∧ (ActuationMode.ofCode value).isSome
    · simp only [if_neg hsave, if_pos hmode, mem_bind, val_bind, mem_pure, val_pure, true_and]
      obtain ⟨rfl,hm⟩ := hmode
      obtain ⟨m,hm⟩ := Option.isSome_iff_exists.mp hm
      have hset : He.heViaSetValue env.now 6 value s
          = He.heSaveSettingsToEeprom { s with mode := m } := by
        show heSetMode value s = _
        rw [heSetMode, hm]
      rw [hset, Synced, show Nvm.heSaveSettingsToEeprom (He.heSaveSettingsToEeprom
        { s with mode := m }) = Nvm.heSaveSettingsToEeprom { s with mode := m } from rfl,
        kbDatablock_saveSettings]
      exact SameBlock.update h _ _
    · simp only [if_neg hsave, if_neg hmode, mem_pure, val_pure, true_and]
      rw [Synced, setValue_other env.now s hsave hmode]
      exact h

theorem heViaSetValue_ram {valueId value : UInt8} :
    (heViaSetValue env s valueId value).mem t .ram = t .ram :=
  ram_unchanged (inside_heViaSetValue fun _ _ => rfl)

theorem unhandled_reply (t : ByteMems Space) : unhandled.mem t .eeprom = t .eeprom
    ∧ packetData (unhandled.mem t) = { packetData t with commandId := idUnhandled } := by
  rw [unhandled, packetData, writeByte_eeprom, writeByte_ram]
  exact ⟨rfl,rfl⟩

def Handles (env : Env) (s : HeState) (t : ByteMems Space) (p : Prog HeState) : Prop :=
  p.val t = (He.viaCustomValueCommandKb env.now (packetData t) s).2
    ∧ Synced (He.viaCustomValueCommandKb env.now (packetData t) s).2 (p.mem t)
    ∧ packetData (p.mem t) = (He.viaCustomValueCommandKb env.now (packetData t) s).1

theorem handles_unhandled (h : Synced s t)
    (hr : He.viaCustomValueCommandKb env.now (packetData t) s
      = ({ packetData t with commandId := idUnhandled },s)) :
    Handles env s t (do unhandled; pure s) := by
  rw [Handles, hr, val_bind, mem_bind, val_pure, mem_pure, Synced, (unhandled_reply t).1]
  exact ⟨rfl,h,(unhandled_reply t).2⟩

theorem viaCustomValueCommandKb_refines (h : Synced s t) :
    Handles env s t (viaCustomValueCommandKb env s) := by
  by_cases hch : t .ram 1 ≠ idCustomChannel
  · have hrun : Handles env s t (do unhandled; pure s) :=
      handles_unhandled h (if_pos (show (packetData t).channelId ≠ _ from hch))
    rw [Handles, viaCustomValueCommandKb, val_bind, mem_bind, Nvm.val_readByte,
      Nvm.mem_readByte, if_pos hch]
    exact hrun
  · have hr : He.viaCustomValueCommandKb env.now (packetData t) s
        = if t .ram 0 = idCustomSetValue then
            (packetData t, He.heViaSetValue env.now (t .ram 2) (t .ram 3) s)
          else if t .ram 0 = idCustomGetValue then
            ({ packetData t with value := heViaGetValue (t .ram 2) s },s)
          else if t .ram 0 = idCustomSave then (packetData t, He.heViaCommitThresholds s)
          else ({ packetData t with commandId := idUnhandled },s) := if_neg hch
    rw [Handles, viaCustomValueCommandKb, val_bind, mem_bind, Nvm.val_readByte,
      Nvm.mem_readByte, if_neg hch, val_bind, mem_bind, Nvm.val_readByte, Nvm.mem_readByte]
    generalize hcmd : CommandId.ofCode (t .ram 0) = command
    split
    · have hid : t .ram 0 = idCustomSetValue := ofCode_eq_some.mp hcmd
      rw [hr, if_pos hid]
      simp only [val_bind, mem_bind, Nvm.val_readByte, Nvm.mem_readByte, packetData,
        heViaSetValue_ram, and_true]
      exact heViaSetValue_refines h
    · have hid : t .ram 0 = idCustomGetValue := ofCode_eq_some.mp hcmd
      rw [hr, if_neg (by rw [hid]; decide), if_pos hid]
      simp only [val_bind, mem_bind, Nvm.val_readByte, Nvm.mem_readByte, val_pure, mem_pure,
        packetData, Synced, writeByte_eeprom, writeByte_ram, true_and]
      exact ⟨h,rfl⟩
    · have hid : t .ram 0 = idCustomSave := ofCode_eq_some.mp hcmd
      rw [hr, if_neg (by rw [hid]; decide), if_neg (by rw [hid]; decide), if_pos hid]
      simp only [heViaCommitThresholds, val_bind, mem_bind, val_pure, mem_pure, packetData,
        ram_unchanged (inside_heSaveToEeprom fun _ _ => rfl), and_true, true_and]
      exact commit_saved h
    · rename_i hset hget hsave
      have hother : ∀ c, command ≠ some c → t .ram 0 ≠ c.code := fun c hc hid =>
        hc (hcmd.symm.trans (ofCode_eq_some.mpr hid))
      rw [if_neg (show t .ram 0 ≠ idCustomSetValue from hother .customSetValue hset),
        if_neg (show t .ram 0 ≠ idCustomGetValue from hother .customGetValue hget),
        if_neg (show t .ram 0 ≠ idCustomSave from hother .customSave hsave)] at hr
      exact handles_unhandled h hr

def otherBytes (r : Space) (x : Nat) : Prop := r = .eeprom → ¬ kbBytes x

theorem otherBytes_ram (x : Nat) : otherBytes .ram x := fun h => Space.noConfusion h

theorem synced_other {α : Type} {p : Prog α} (hp : StaysIn otherBytes p t) (h : Synced s t) :
    Synced s (p.mem t) := by
  have hsame : ∀ x, kbBytes x → p.mem t .eeprom x = t .eeprom x := by
    intro x hx
    rw [mem_eq_log]
    exact foldl_other fun c hc htouch => hp c hc .eeprom x htouch rfl hx
  refine ⟨.trans ?_ h.1,fun i hi => .trans (hsame _ (.inr ⟨?_,?_⟩)) (h.2 i hi)⟩
  · simp only [kbDatablock]
    rw [hsame eeconfigKeyboardAddr (.inl (by decide)),
      hsame (eeconfigKeyboardAddr+1) (.inl (by decide)),
      hsame (eeconfigKeyboardAddr+2) (.inl (by decide)),
      hsame (eeconfigKeyboardAddr+3) (.inl (by decide))]
  · exact Nat.le_add_right _ _
  · exact Nat.add_lt_add_left hi _

variable {L : Layout} {fw : Firmware}

theorem namedBytes_other (hL : viaEepromConfigEnd ≤ L.keymapAddr) {first : UInt8} {x : Nat}
    {command : Option CommandId}
    (hcustom : ∀ c, command = some c → c ≠ .customSetValue ∧ c ≠ .customGetValue ∧ c ≠ .customSave)
    (hx : namedBytes L first x command) : ¬ kbBytes x := by
  intro hkb
  have hlt := kbBytes_lt hkb
  have hvia : viaEepromMagicAddr ≤ L.keymapAddr := le_trans (by decide) hL
  have henc : L.keymapAddr ≤ L.encoderAddr := encoderAddr_eq L ▸ Nat.le_add_right _ _
  have hmac : L.encoderAddr ≤ L.macroAddr := encoderAddr_le_macroAddr
  have hkey : ∀ y, L.keymapAddr ≤ y → y ≠ x := fun y hy he => by omega
  cases command with
  | none => exact hx
  | some command =>
    obtain ⟨hset,hget,hsave⟩ := hcustom command rfl
    cases command with
    | getKeyboardValue | setKeyboardValue =>
      rw [hx.2] at hlt
      exact absurd hlt (by decide)
    | dynamicKeymapGetKeycode | dynamicKeymapSetKeycode | dynamicKeymapGetBuffer
    | dynamicKeymapSetBuffer => exact hkey x hx.1 rfl
    | dynamicKeymapReset =>
      exact hx.elim (fun h => hkey x h.1 rfl) fun h => hkey x (henc.trans h.1) rfl
    | dynamicKeymapMacroGetBuffer | dynamicKeymapMacroSetBuffer | dynamicKeymapMacroReset =>
      exact hkey x (henc.trans (hmac.trans hx.1)) rfl
    | dynamicKeymapGetEncoder | dynamicKeymapSetEncoder => exact hkey x (henc.trans hx.1) rfl
    | customSetValue => exact hset rfl
    | customGetValue => exact hget rfl
    | customSave => exact hsave rfl
    | _ => exact hx

theorem rgblightBytes_other {x : Nat} (hx : rgblightBytes x) : ¬ kbBytes x := by
  rintro (⟨hlo,hhi⟩ | ⟨hlo,hhi⟩) <;> rcases hx with ⟨hlo',hhi'⟩ | rfl
  · exact absurd (lt_of_lt_of_le hhi' (show eeconfigRgblightAddr+4 ≤ eeconfigKeyboardAddr by decide))
      (not_lt.mpr hlo)
  · exact absurd hhi (by decide)
  · exact absurd (lt_of_lt_of_le hhi' (le_trans (by decide) hlo)) (lt_irrefl _)
  · exact absurd hlo (by decide)

theorem viaCustomValueCommand_synced (h : Synced s t) :
    Synced ((viaCustomValueCommand env s).val t) ((viaCustomValueCommand env s).mem t) := by
  rw [viaCustomValueCommand, val_bind, mem_bind, Nvm.val_readByte, Nvm.mem_readByte]
  by_cases hchannel : t .ram 1 = idQmkRgblightChannel
  · rw [if_pos hchannel, val_bind, mem_bind]
    exact synced_other (p := viaQmkRgblightCommand env) (inside_viaQmkRgblightCommand
      (R := otherBytes) (fun x _ => otherBytes_ram x) (fun x hx _ => rgblightBytes_other hx) t) h
  · rw [if_neg hchannel]
    obtain ⟨hval,hsync,-⟩ := viaCustomValueCommandKb_refines h
    rw [hval]
    exact hsync

theorem rawHidReceive_synced (hL : viaEepromConfigEnd ≤ L.keymapAddr) (h : Synced s t) :
    Synced ((rawHidReceive L fw env s).val t) ((rawHidReceive L fw env s).mem t) := by
  have hsend : ∀ (u : HeState) v, Synced u v → Synced u (rawHidSend.mem v) := fun u v hu =>
    synced_other (inside_rawHidSend (fun x _ => otherBytes_ram x) v) hu
  rw [rawHidReceive, val_bind, mem_bind, Nvm.val_readByte, Nvm.mem_readByte, val_bind, mem_bind,
    val_bind, mem_bind, val_pure, mem_pure]
  refine hsend _ _ ?_
  generalize CommandId.ofCode (t .ram 0) = command
  by_cases hcustom : ∃ c, command = some c
      ∧ (c = .customSetValue ∨ c = .customGetValue ∨ c = .customSave)
  · obtain ⟨c,rfl,rfl | rfl | rfl⟩ := hcustom <;> exact viaCustomValueCommand_synced h
  · have hne : ∀ c, command = some c →
        c ≠ .customSetValue ∧ c ≠ .customGetValue ∧ c ≠ .customSave := fun c hc =>
      ⟨fun he => hcustom ⟨c,hc,.inl he⟩,fun he => hcustom ⟨c,hc,.inr (.inl he)⟩,
        fun he => hcustom ⟨c,hc,.inr (.inr he)⟩⟩
    have hval : (viaCommand L fw env s command).val t = s := by
      rcases command with - | c
      · rfl
      · cases c with
        | customSetValue => exact absurd rfl (hne _ rfl).1
        | customGetValue => exact absurd rfl (hne _ rfl).2.1
        | customSave => exact absurd rfl (hne _ rfl).2.2
        | _ => exact val_bind _ _ _
    rw [hval]
    exact synced_other (viaCommand_stays (fun x _ => otherBytes_ram x)
      (fun x hx _ => namedBytes_other hL hne hx) (.inl otherBytes_ram)) h

end QmkFirmware.Via
