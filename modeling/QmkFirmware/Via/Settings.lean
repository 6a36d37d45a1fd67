import QmkFirmware.Via.Session

/-!
The settings of the keyboard over a session, from the flash up. They are those of `he_matrix.c` and
`he_via.c` with their data block alone, and a power cycle brings them back.
-/

set_option autoImplicit false

namespace QmkFirmware.Via

open Nvm He ByteProg

def storedBlock (d : KbDatablock) : KbDatablock :=
  ⟨d.version,ByteMem.blank.write 0 (d.block.read 0 eeconfigKbDataSize)⟩

/-- What an event is to the settings. -/
def settingsStep (n : Nat) (s : HeState) : Event → HeState
  | .scan input => He.exec n s (.scan input)
  | .keycode keycode pressed => He.exec n s (.keycode keycode pressed)
  | .report env bytes =>
    He.exec n s (.packet env.now ⟨bytes[0],bytes[1],bytes[2],bytes[3]⟩)
  | .powerCycle => powerCycle (storedBlock s.eeprom)

variable {L : Layout} {fw : Firmware} {n : Nat} {s : HeState} {t : ByteMems Space} {env : Env}

theorem storedBlock_same (d : KbDatablock) : SameBlock (storedBlock d) d := by
  refine ⟨rfl,fun i hi => ?_⟩
  simp [storedBlock, ByteMem.write_apply, ByteMem.read, hi]

theorem SameBlock.trans {d d' d'' : KbDatablock} (h : SameBlock d d') (h' : SameBlock d' d'') :
    SameBlock d d'' :=
  ⟨h.1.trans h'.1,fun i hi => (h.2 i hi).trans (h'.2 i hi)⟩

theorem sameBlock_of_bytes {m m' : ByteMem} (h : ∀ x, kbBytes x → m x = m' x) :
    SameBlock (kbDatablock m) (kbDatablock m') := by
  refine ⟨?_,fun i hi => h _ (.inr ⟨Nat.le_add_right _ _,Nat.add_lt_add_left hi _⟩)⟩
  simp only [kbDatablock]
  rw [h eeconfigKeyboardAddr (.inl (by decide)), h (eeconfigKeyboardAddr+1) (.inl (by decide)),
    h (eeconfigKeyboardAddr+2) (.inl (by decide)), h (eeconfigKeyboardAddr+3) (.inl (by decide))]

theorem SameBlock.stored {d d' : KbDatablock} (h : SameBlock d d') :
    storedBlock d = storedBlock d' := by
  have hread : d.block.read 0 eeconfigKbDataSize = d'.block.read 0 eeconfigKbDataSize :=
    ByteMem.read_congr fun x _ hx => h.2 x (by omega)
  rw [storedBlock, storedBlock, h.1, hread]

theorem readKbDatablock_stored (t : ByteMems Space) :
    readKbDatablock.val t = storedBlock (kbDatablock (t .eeprom)) ∧ readKbDatablock.mem t = t := by
  have hblock : (kbDatablock (t .eeprom)).block.read 0 eeconfigKbDataSize
      = (t .eeprom).read eeconfigKbDatablockAddr eeconfigKbDataSize := by
    simp [kbDatablock, ByteMem.read]
  constructor
  · rw [readKbDatablock, val_bind, mem_eepromReadBytes, val_bind, mem_eepromReadBytes,
      val_eepromReadBytes, val_eepromReadBytes, storedBlock, hblock]
    rfl
  · rw [readKbDatablock, mem_bind, mem_eepromReadBytes, mem_bind, mem_eepromReadBytes, mem_pure]

theorem heLoadFromEeprom_loads (t : ByteMems Space) :
    heLoadFromEeprom.val t = powerCycle (storedBlock (kbDatablock (t .eeprom)))
      ∧ Synced (heLoadFromEeprom.val t) (heLoadFromEeprom.mem t) := by
  obtain ⟨hval,hmem⟩ := readKbDatablock_stored t
  have hsame := storedBlock_same (kbDatablock (t .eeprom))
  rw [heLoadFromEeprom, val_bind, mem_bind, hval, hmem]
  generalize storedBlock (kbDatablock (t .eeprom)) = e at hsame
  have hboot : Synced (boot e) t := ⟨hsame.1.symm,fun i hi => (hsame.2 i hi).symm⟩
  cases hvalid : eeconfigIsKbDatablockValid e with
  | true =>
    refine ⟨rfl,?_⟩
    show Synced (He.heLoadFromEeprom (boot e)) t
    rw [Synced, (load_valid (s := boot e) hvalid).2.2.2.1]
    exact hboot
  | false =>
    have hload : He.heLoadFromEeprom (boot e) = He.heSaveToEeprom (boot e) :=
      if_pos (show (!eeconfigIsKbDatablockValid e) = true by rw [hvalid]; rfl)
    simp only [Bool.false_eq_true, if_false, val_bind, mem_bind, val_pure, mem_pure]
    rw [powerCycle, hload]
    exact ⟨rfl,save_saved (s := boot e) hboot⟩

theorem powerUp_settings (henabled : Enabled fw t) :
    (powerUp L fw).val t = powerCycle (storedBlock (kbDatablock (t .eeprom)))
      ∧ Synced ((powerUp L fw).val t) ((powerUp L fw).mem t) := by
  rw [powerUp, val_bind, mem_bind, (boot_enabled henabled).2]
  exact heLoadFromEeprom_loads t

theorem heSetMode_settings (h : Synced s t) (value : UInt8) :
    (heSetMode value s).val t = He.heSetMode value s
      ∧ Synced (He.heSetMode value s) ((heSetMode value s).mem t) := by
  cases hmode : ActuationMode.ofCode value with
  | some mode =>
    have hset : He.heSetMode value s = He.heSaveSettingsToEeprom { s with mode := mode } := by
      simp only [He.heSetMode, hmode]
    simp only [heSetMode, hmode, val_bind, mem_bind, val_pure, mem_pure, true_and]
    rw [hset, Synced, kbDatablock_saveSettings]
    exact SameBlock.update h _ _
  | none =>
    simp only [heSetMode, He.heSetMode, hmode, val_pure, mem_pure, true_and]
    exact h

theorem heHandleKeycode_settings (h : Synced s t) (keycode : UInt16) (pressed : Bool) :
    (heHandleKeycode keycode pressed s).val t = (He.heHandleKeycode keycode pressed s).2
      ∧ Synced (He.heHandleKeycode keycode pressed s).2
        ((heHandleKeycode keycode pressed s).mem t) := by
  have hmode : ∀ value, (if pressed then heSetMode value s else pure s : Prog HeState).val t
        = (if pressed then He.heSetMode value s else s)
      ∧ Synced (if pressed then He.heSetMode value s else s)
        ((if pressed then heSetMode value s else pure s : Prog HeState).mem t) := by
    intro value
    cases pressed with
    | true => exact heSetMode_settings h value
    | false => exact ⟨rfl,h⟩
  unfold heHandleKeycode He.heHandleKeycode
  split
  · exact hmode 0
  · split
    · exact hmode 1
    · split
      · exact hmode 2
      · exact ⟨rfl,h⟩

theorem heViaTask_settings (h : Synced s t) (now : UInt16) :
    (heViaTask now s).val t = He.heViaTask now s
      ∧ Synced (He.heViaTask now s) ((heViaTask now s).mem t) := by
  unfold heViaTask He.heViaTask
  split
  · rw [heViaCommitThresholds, val_bind, mem_bind, val_pure, mem_pure]
    exact ⟨rfl,commit_saved (s := { s with via := { s.via with autosavePending := false } }) h⟩
  · exact ⟨rfl,h⟩

theorem matrixScanCustom_settings (h : Synced s t) (input : ScanInput) :
    (matrixScanCustom n input s).val t = (He.matrixScanCustom n input s).2
      ∧ Synced (He.matrixScanCustom n input s).2 ((matrixScanCustom n input s).mem t) := by
  refine heViaTask_settings ?_ input.now
  unfold lockInRest socdResolve
  split <;> split <;> exact h

theorem viaCommand_settings (h : Synced s t) :
    (viaCommand L fw env s (CommandId.ofCode (t .ram 0))).val t
      = (He.viaCustomValueCommandKb env.now (packetData t) s).2 := by
  have hidle : (∀ c, CommandId.ofCode (t .ram 0) = some c →
      c ≠ .customSetValue ∧ c ≠ .customGetValue ∧ c ≠ .customSave) →
      (He.viaCustomValueCommandKb env.now (packetData t) s).2 = s := by
    intro hne
    have hother : ∀ c : CommandId, c = .customSetValue ∨ c = .customGetValue ∨ c = .customSave →
        (packetData t).commandId ≠ c.code := fun c hc hid => by
      obtain ⟨hset,hget,hsave⟩ := hne c (ofCode_eq_some.mpr hid)
      rcases hc with hc | hc | hc
      · exact hset hc
      · exact hget hc
      · exact hsave hc
    unfold He.viaCustomValueCommandKb
    rw [if_neg (show (packetData t).commandId ≠ idCustomSetValue from hother _ (.inl rfl)),
      if_neg (show (packetData t).commandId ≠ idCustomGetValue from hother _ (.inr (.inl rfl))),
      if_neg (show (packetData t).commandId ≠ idCustomSave from hother _ (.inr (.inr rfl)))]
    split <;> rfl
  have hcustom : (viaCustomValueCommand env s).val t
      = (He.viaCustomValueCommandKb env.now (packetData t) s).2 := by
    rw [viaCustomValueCommand, val_bind, Nvm.val_readByte, Nvm.mem_readByte]
    by_cases hchannel : t .ram 1 = idQmkRgblightChannel
    · have hne : (packetData t).channelId ≠ idCustomChannel := by
        rw [packetData, hchannel]
        exact show idQmkRgblightChannel ≠ idCustomChannel by decide
      rw [if_pos hchannel, val_bind, val_pure, He.viaCustomValueCommandKb, if_pos hne]
    · rw [if_neg hchannel]
      exact (viaCustomValueCommandKb_refines h).1
  generalize CommandId.ofCode (t .ram 0) = command at hidle
  rcases command with - | c
  · exact (hidle fun c hc => absurd hc.symm (Option.some_ne_none c)).symm
  · cases c with
    | customSetValue | customGetValue | customSave => exact hcustom
    | _ =>
      refine .trans ?_ (hidle fun c hc => ?_).symm
      · exact val_bind _ _ _
      · cases hc
        decide

theorem rawHidReceive_settings (hL : viaEepromConfigEnd ≤ L.keymapAddr) (h : Synced s t) :
    (rawHidReceive L fw env s).val t = (He.viaCustomValueCommandKb env.now (packetData t) s).2
      ∧ Synced (He.viaCustomValueCommandKb env.now (packetData t) s).2
        ((rawHidReceive L fw env s).mem t) := by
  have hval : (rawHidReceive L fw env s).val t
      = (He.viaCustomValueCommandKb env.now (packetData t) s).2 := by
    rw [rawHidReceive, val_bind, Nvm.val_readByte, Nvm.mem_readByte, val_bind, val_bind, val_pure]
    exact viaCommand_settings h
  refine ⟨hval,?_⟩
  rw [← hval]
  exact rawHidReceive_synced hL h

structure Has (fw : Firmware) (k : Keyboard ByteMem) (s : HeState) : Prop where
  settings : k.settings = s
  synced : Synced s k.memories
  enabled : Enabled fw k.memories

variable {k : Keyboard ByteMem} {size : Nat}

theorem packetData_report (m r : ByteMem) (bytes : Vector UInt8 reportSize) :
    packetData (Nvm.memories m (r.write 0 bytes.toList))
      = ⟨bytes[0],bytes[1],bytes[2],bytes[3]⟩ := by
  have hbyte : ∀ i (hi : i < reportSize), r.write 0 bytes.toList i = bytes[i] := by
    intro i hi
    rw [ByteMem.write_apply, if_pos (Nat.zero_le i)]
    simp [List.getD_eq_getElem?_getD, hi]
  have hat : ∀ i, Nvm.memories m (r.write 0 bytes.toList) .ram i = r.write 0 bytes.toList i :=
    fun _ => rfl
  rw [packetData, hat, hat, hat, hat, hbyte 0 (by decide), hbyte 1 (by decide),
    hbyte 2 (by decide), hbyte 3 (by decide)]

theorem handle_has (hL : viaEepromConfigEnd ≤ L.keymapAddr) (h : Has fw k s) (e : Event) :
    Has fw (handle L fw n ByteDevice.memory id k e) (settingsStep n s e) := by
  have hready := prepare_enabled h.enabled e
  have hsize : L.maxAddr < L.maxAddr+1 := Nat.lt_succ_self _
  have hset : (k.prepare id e).settings = s := by
    cases e <;> exact h.settings
  obtain ⟨hval,hram,hstore⟩ := exec_memory (program_below (u := s) (n := n) hL hsize hready e)
  have hmem : ((k.prepare id e).exec ByteDevice.memory (program L fw n s e)).memories
      = (program L fw n s e).mem (k.prepare id e).memories := by
    funext r
    cases r
    · exact hstore
    · exact hram
  have hdoes : (program L fw n s e).val (k.prepare id e).memories = settingsStep n s e
      ∧ Synced (settingsStep n s e) ((program L fw n s e).mem (k.prepare id e).memories) := by
    cases e with
    | scan input => exact matrixScanCustom_settings h.synced input
    | keycode keycode pressed => exact heHandleKeycode_settings h.synced keycode pressed
    | report env bytes =>
      have hdata := packetData_report k.store k.ram bytes
      have hrun := @rawHidReceive_settings L fw s
        (k.prepare id (.report env bytes)).memories env hL h.synced
      rw [show packetData (k.prepare id (.report env bytes)).memories = _ from hdata] at hrun
      exact hrun
    | powerCycle =>
      obtain ⟨hpower,hsync⟩ := powerUp_settings (L := L) hready
      have hstored : storedBlock (kbDatablock ((k.prepare id .powerCycle).memories .eeprom))
          = storedBlock s.eeprom := SameBlock.stored h.synced
      rw [hpower, hstored] at hsync
      rw [hstored] at hpower
      exact ⟨hpower,hsync⟩
  have hreply : ∀ k : Keyboard ByteMem, (k.reply e).settings = k.settings := fun _ => by
    cases e <;> rfl
  rw [handle, hset]
  refine ⟨?_,?_,?_⟩
  · rw [hreply, hval]
    exact hdoes.1
  · rw [reply_memories, hmem]
    exact hdoes.2
  · rw [reply_memories]
    exact exec_enabled hL hsize hready e

theorem session_has (hL : viaEepromConfigEnd ≤ L.keymapAddr) {m : ByteMem}
    (henabled : Enabled fw (Nvm.memories m ByteMem.blank)) (events : List Event) :
    Has fw (plainSession L fw n events m)
      (events.foldl (settingsStep n) (powerCycle (storedBlock (kbDatablock m)))) := by
  have hfirst : Has fw (start L fw ByteDevice.memory m)
      (powerCycle (storedBlock (kbDatablock m))) := by
    obtain ⟨hpower,hsync⟩ := powerUp_settings (L := L) henabled
    obtain ⟨hval,hram,hstore⟩ := exec_memory (k := ⟨heDefaults,ByteMem.blank,m,[]⟩)
      (program_below (u := heDefaults) (n := n) hL (Nat.lt_succ_self _) henabled .powerCycle)
    have hmem : (start L fw ByteDevice.memory m).memories
        = (powerUp L fw).mem (Nvm.memories m ByteMem.blank) := by
      funext r
      cases r
      · exact hstore
      · exact hram
    refine ⟨hval.trans hpower,?_,?_⟩
    · rw [hpower] at hsync
      rw [hmem]
      exact hsync
    · exact exec_enabled (u := heDefaults) (n := n) (k := ⟨heDefaults,ByteMem.blank,m,[]⟩) hL
        (Nat.lt_succ_self _) henabled .powerCycle
  rw [plainSession, session]
  generalize start L fw ByteDevice.memory m = k, powerCycle (storedBlock (kbDatablock m)) = s
    at hfirst
  induction events generalizing k s with
  | nil => exact hfirst
  | cons e events ih => exact ih _ _ (handle_has hL hfirst e)

/-- What the first power-up loads. -/
def firstSettings (calls : List WearLeveling.Call) : HeState :=
  powerCycle (storedBlock (kbDatablock (WearLeveling.plain calls ByteMem.blank)))

section
variable {cfg : WearLeveling.Config} {calls : List WearLeveling.Call}

theorem flashSession_settings (hL : viaEepromConfigEnd ≤ L.keymapAddr)
    (hsize : L.maxAddr < cfg.logicalSize) (hcalls : ∀ c ∈ calls, c.Valid cfg)
    (henabled : Enabled fw (Nvm.memories (WearLeveling.plain calls ByteMem.blank) ByteMem.blank))
    (events : List Event) : (flashSession L fw n cfg calls events).settings
      = events.foldl (settingsStep n) (firstSettings calls) :=
  (flashSession_alike hL hsize hcalls henabled events).settings.trans
    (session_has hL henabled events).settings

end

/-- Over the wear-leveling layer the settings of a session are those of `he_matrix.c` and
`he_via.c` alone, and their block is always in the cache and what the flash is played back to. -/
theorem session_settings (cfg : WearLeveling.Config) (hL : viaEepromConfigEnd ≤ L.keymapAddr)
    (hsize : L.maxAddr < cfg.logicalSize) (calls : List WearLeveling.Call)
    (hcalls : ∀ c ∈ calls, c.Valid cfg)
    (henabled : Enabled fw (Nvm.memories (WearLeveling.plain calls ByteMem.blank) ByteMem.blank))
    (events : List Event) :
    let k := flashSession L fw n cfg calls events
    k.settings = events.foldl (settingsStep n) (firstSettings calls)
      ∧ SameBlock (kbDatablock k.store.cache) k.settings.eeprom
      ∧ SameBlock (kbDatablock (WearLeveling.restart .faultFree cfg k.store).cache)
        k.settings.eeprom := by
  have hset := flashSession_settings (n := n) hL hsize hcalls henabled events
  have hstore := (flashSession_alike (n := n) hL hsize hcalls henabled events).store
  have hkb : ∀ x, kbBytes x → x < cfg.logicalSize := fun x hx =>
    Nat.lt_of_le_of_lt (kbBytes_stored hL hx).1 hsize
  have hsynced := (session_has (n := n) hL henabled events).synced
  refine ⟨hset,?_,?_⟩
  · rw [hset]
    exact SameBlock.trans (sameBlock_of_bytes fun x hx => hstore.2 x (hkb x hx)) hsynced
  · rw [hset]
    exact SameBlock.trans (sameBlock_of_bytes fun x hx => hstore.restart.2 x (hkb x hx)) hsynced

theorem session_settings_icebreaker :
    (flashSession icebreakerLayout emptyFirmware heDebounce icebreakerConfig setUpCalls
      [.keycode qkKb0 true,.powerCycle]).settings
    = settingsStep heDebounce (settingsStep heDebounce (firstSettings setUpCalls)
      (.keycode qkKb0 true)) .powerCycle :=
  (session_settings icebreakerConfig (le_refl viaEepromConfigEnd) (by decide) setUpCalls
    setUpCalls_valid setUpCalls_enabled [.keycode qkKb0 true,.powerCycle]).1

theorem recoverable_same {e : KbDatablock} (hs : Recoverable s) (h : SameBlock e s.eeprom) :
    s.via.autosavePending = false → Restored s (powerCycle e) := by
  intro hp
  obtain ⟨-,hr⟩ := hs.saved hp
  have hvalid : eeconfigIsKbDatablockValid e = true := by
    rw [eeconfigIsKbDatablockValid, h.1]
    exact hs.valid
  obtain ⟨hkeys,hmode,htuning,-⟩ := powerCycle_valid hs.valid
  obtain ⟨hkeys',hmode',htuning',-⟩ := powerCycle_valid hvalid
  have hbyte : ∀ i < eeconfigKbDataSize, e.block i = s.eeprom.block i := h.2
  refine ⟨fun i => ?_,?_,?_⟩
  · have hi : i.val < 69 := i.isLt
    have hsize : eeconfigKbDataSize = 142 := rfl
    rw [(hkeys' i).1, (hkeys' i).2, hbyte _ (by omega), hbyte _ (by omega), ← (hkeys i).1,
      ← (hkeys i).2]
    exact hr.thresholds i
  · rw [hmode', hbyte 138 (by decide), ← hmode]
    exact hr.mode
  · rw [htuning', hbyte 139 (by decide), hbyte 140 (by decide), hbyte 141 (by decide), ← htuning]
    exact hr.tuning

theorem powerCycle_stores (e : KbDatablock) : Recoverable (powerCycle e) := by
  cases hvalid : eeconfigIsKbDatablockValid e with
  | true => exact powerCycle_recoverable hvalid
  | false =>
    have hload : powerCycle e = He.heSaveToEeprom (boot e) :=
      if_pos (show (!eeconfigIsKbDatablockValid e) = true by rw [hvalid]; rfl)
    obtain ⟨-,-,-,-,-,hv⟩ := save_block (boot e)
    have hr := save_restored (boot_clamped e)
    rw [hload]
    exact ⟨hv,(boot_clamped e).save,fun _ => ⟨rfl,hr.thresholds,hr.mode,hr.tuning⟩⟩

theorem settingsStep_recoverable (h : Recoverable s) (e : Event) :
    Recoverable (settingsStep n s e) := by
  cases e with
  | scan input => exact @exec_recoverable s h n (.scan input) rfl
  | keycode keycode pressed => exact @exec_recoverable s h n (.keycode keycode pressed) rfl
  | report env bytes =>
    exact @exec_recoverable s h n (.packet env.now ⟨bytes[0],bytes[1],bytes[2],bytes[3]⟩) rfl
  | powerCycle => exact powerCycle_stores _

/-- From the flash up: after every session, power cycles included, another power cycle brings
back all settings unless an autosave is pending. -/
theorem settings_survive_session (cfg : WearLeveling.Config)
    (hL : viaEepromConfigEnd ≤ L.keymapAddr) (hsize : L.maxAddr < cfg.logicalSize)
    (calls : List WearLeveling.Call) (hcalls : ∀ c ∈ calls, c.Valid cfg)
    (henabled : Enabled fw (Nvm.memories (WearLeveling.plain calls ByteMem.blank) ByteMem.blank))
    (events : List Event) :
    let k := flashSession L fw n cfg calls
    (k events).settings.via.autosavePending = false →
      Restored (k events).settings (k (events ++ [.powerCycle])).settings := by
  have hrec : ∀ (events : List Event) s, Recoverable s → Recoverable (events.foldl (settingsStep n) s) := by
    intro events
    induction events with
    | nil => exact fun s h => h
    | cons e events ih => exact fun s h => ih _ (settingsStep_recoverable h e)
  intro k hp
  simp only [k, flashSession_settings hL hsize hcalls henabled] at hp ⊢
  rw [List.foldl_append]
  exact recoverable_same (hrec events _ (powerCycle_stores _)) (storedBlock_same _) hp

/-- After a mode key. -/
theorem settings_survive_session_icebreaker :
    let k := flashSession icebreakerLayout emptyFirmware heDebounce icebreakerConfig setUpCalls
    Restored (k [.keycode qkKb0 true]).settings (k [.keycode qkKb0 true,.powerCycle]).settings := by
  refine settings_survive_session icebreakerConfig (le_refl viaEepromConfigEnd) (by decide)
    setUpCalls setUpCalls_valid setUpCalls_enabled [.keycode qkKb0 true] ?_
  rw [flashSession_settings (le_refl viaEepromConfigEnd) (by decide) setUpCalls_valid
    setUpCalls_enabled]
  rfl

end QmkFirmware.Via
