import QmkFirmware.Eeprom.WearLeveling
import QmkFirmware.He.PowerCycle
import QmkFirmware.Nvm.FirstBoot
import QmkFirmware.Via.Custom

/-!
The keyboard from one power-up to the next: scans, mode keys and reports, with its EEPROM on a
device. On a device that stands for a memory it is the keyboard with that memory, and its settings
are those of `he_matrix.c` and `he_via.c` alone. The sessions start with an EEPROM that has been set
up before. A report stands at the start of a RAM of its own, which has the bytes, too, that
`raw_hid_receive` touches behind the report when its size field is too large.
-/

set_option autoImplicit false

namespace QmkFirmware.Via

open Nvm He ByteProg

def readKbDatablock : Prog KbDatablock := do
  let version ← eepromReadBytes eeconfigKeyboardAddr 4
  let block ← eepromReadBytes eeconfigKbDatablockAddr eeconfigKbDataSize
  pure ⟨joinDword (version.getD 0 0) (version.getD 1 0) (version.getD 2 0) (version.getD 3 0),
    ByteMem.blank.write 0 block⟩

/-- On the RAM that `matrix_init_custom` leaves. -/
def heLoadFromEeprom : Prog HeState := do
  let e ← readKbDatablock
  if eeconfigIsKbDatablockValid e then pure (He.heLoadFromEeprom (boot e)) else do
  Nvm.heSaveToEeprom (boot e)
  pure (He.heLoadFromEeprom (boot e))

variable (L : Layout) (fw : Firmware) (n : Nat)

/-- `keyboard_init` and `keyboard_post_init_kb`. -/
def powerUp : Prog HeState := do
  let _ ← keyboardInit L fw
  heLoadFromEeprom

def heSetMode (value : UInt8) (s : HeState) : Prog HeState :=
  match ActuationMode.ofCode value with
  | some mode => do
    Nvm.heSaveSettingsToEeprom { s with mode := mode }
    pure (He.heSetMode value s)
  | none => pure s

def heHandleKeycode (keycode : UInt16) (pressed : Bool) (s : HeState) : Prog HeState :=
  if keycode = qkKb0 then if pressed then heSetMode 0 s else pure s
  else if keycode = qkKb0+1 then if pressed then heSetMode 1 s else pure s
  else if keycode = qkKb0+2 then if pressed then heSetMode 2 s else pure s
  else pure s

def heViaTask (now : UInt16) (s : HeState) : Prog HeState :=
  if s.via.autosavePending ∧ heViaAutosaveMs ≤ now-s.via.autosaveTimer then
    heViaCommitThresholds { s with via := { s.via with autosavePending := false } }
  else pure s

def matrixScanCustom (input : ScanInput) (s : HeState) : Prog HeState :=
  let s := { s with scanCount := s.scanCount+1 }
  let sampled := sampleSensor n input s
  let s := lockInRest (storeSampled sampled s)
  let s := socdResolve (fun i => (sampled i).newlyPressed) s
  heViaTask input.now (commitReported s).2

inductive Event where
  | scan (input : ScanInput)
  | keycode (keycode : UInt16) (pressed : Bool)
  | report (env : Env) (bytes : Vector UInt8 reportSize)
  | powerCycle

def program (s : HeState) : Event → Prog HeState
  | .scan input => matrixScanCustom n input s
  | .keycode keycode pressed => heHandleKeycode keycode pressed s
  | .report env _ => rawHidReceive L fw env s
  | .powerCycle => powerUp L fw

structure Keyboard (σ : Type) where
  settings : HeState
  ram : ByteMem
  store : σ
  replies : List (List UInt8)

section
variable {σ : Type} (dev : ByteDevice σ) (restart : σ → σ)

def Keyboard.exec (k : Keyboard σ) (p : Prog HeState) : Keyboard σ :=
  let r := p.runOn .eeprom dev (memories ByteMem.blank k.ram) k.store
  { k with settings := r.1, ram := r.2.1 .ram, store := r.2.2 }

def Keyboard.prepare (k : Keyboard σ) : Event → Keyboard σ
  | .report _ bytes => { k with ram := k.ram.write 0 bytes.toList }
  | .powerCycle => { k with ram := ByteMem.blank, store := restart k.store }
  | _ => k

def Keyboard.reply (k : Keyboard σ) : Event → Keyboard σ
  | .report _ _ => { k with replies := k.replies ++ [k.ram.read 0 reportSize] }
  | _ => k

def handle (k : Keyboard σ) (e : Event) : Keyboard σ :=
  let k := k.prepare restart e
  (k.exec dev (program L fw n k.settings e)).reply e

/-- The first power-up, with what is stored already. -/
def start (x : σ) : Keyboard σ := Keyboard.exec dev ⟨heDefaults,ByteMem.blank,x,[]⟩ (powerUp L fw)

def session (events : List Event) (x : σ) : Keyboard σ :=
  events.foldl (handle L fw n dev restart) (start L fw dev x)

end

/-- The keyboard with a plain memory. -/
def plainSession (events : List Event) (m : ByteMem) : Keyboard ByteMem :=
  session L fw n ByteDevice.memory id events m

variable {L fw n} {k : Keyboard ByteMem} {p : Prog HeState}

def Keyboard.memories (k : Keyboard ByteMem) : ByteMems Space := Nvm.memories k.store k.ram

structure Alike {σ : Type} (rel : σ → ByteMem → Prop) (k : Keyboard σ) (k' : Keyboard ByteMem) :
    Prop where
  settings : k.settings = k'.settings
  ram : k.ram = k'.ram
  replies : k.replies = k'.replies
  store : rel k.store k'.store

section
variable {σ : Type} {dev : ByteDevice σ} {restart : σ → σ} {size : Nat} {rel : σ → ByteMem → Prop}

theorem exec_agrees (hdev : dev.Models size rel) {k : Keyboard σ} {k' : Keyboard ByteMem}
    (h : Alike rel k k') (hp : WithinFrom (Below .eeprom size) p k'.memories) :
    (k.exec dev p).settings = p.val k'.memories
      ∧ (k.exec dev p).ram = p.mem k'.memories .ram
      ∧ rel (k.exec dev p).store (p.mem k'.memories .eeprom) := by
  have hagree : Agree .eeprom rel k'.memories (Nvm.memories ByteMem.blank k.ram) k.store := by
    refine ⟨fun r hr => ?_,h.store⟩
    cases r with
    | eeprom => exact absurd rfl hr
    | ram => exact h.ram
  obtain ⟨hval,hother,hstore⟩ := runOn_agrees hdev p hagree hp
  exact ⟨hval,hother .ram (fun hr => nomatch hr),hstore⟩

theorem exec_memory (hp : WithinFrom (Below .eeprom size) p k.memories) :
    (k.exec ByteDevice.memory p).settings = p.val k.memories
      ∧ (k.exec ByteDevice.memory p).ram = p.mem k.memories .ram
      ∧ (k.exec ByteDevice.memory p).store = p.mem k.memories .eeprom :=
  exec_agrees (ByteDevice.memory_models size) ⟨rfl,rfl,rfl,rfl⟩ hp

theorem Alike.exec (hdev : dev.Models size rel) {k : Keyboard σ} {k' : Keyboard ByteMem}
    (h : Alike rel k k') (hp : WithinFrom (Below .eeprom size) p k'.memories) :
    Alike rel (k.exec dev p) (k'.exec ByteDevice.memory p) := by
  obtain ⟨hset,hram,hstore⟩ := exec_agrees hdev h hp
  obtain ⟨hset',hram',hstore'⟩ := exec_memory hp
  exact ⟨hset.trans hset'.symm,hram.trans hram'.symm,h.replies,hstore' ▸ hstore⟩

end

def magicBytes (x : Nat) : Prop := x < 2 ∨ viaEepromMagicAddr ≤ x ∧ x < viaEepromMagicAddr+3

def storedBytes (L : Layout) : Space → Nat → Prop
  | .ram, _ => True
  | .eeprom, x => x ≤ L.maxAddr ∧ ¬ magicBytes x

theorem kbBytes_stored (hL : viaEepromConfigEnd ≤ L.keymapAddr) {x : Nat} (h : kbBytes x) :
    storedBytes L .eeprom x := by
  have hlt := kbBytes_lt h
  have hfits := L.fits
  have hend : viaEepromMagicAddr ≤ viaEepromConfigEnd := by decide
  refine ⟨by omega,?_⟩
  rintro (hm | hm)
  · rcases h with h | h
    · exact absurd (lt_of_le_of_lt h.1 hm) (by decide)
    · exact absurd (lt_of_le_of_lt h.1 hm) (by decide)
  · omega

theorem namedBytes_stored (hL : viaEepromConfigEnd ≤ L.keymapAddr) {first : UInt8} {x : Nat}
    {command : Option CommandId} (h : namedBytes L first x command) :
    storedBytes L .eeprom x := by
  have hfits := L.fits
  have hsize := encoderAddr_eq L
  have hmac : L.macroAddr ≤ L.maxAddr := by
    unfold Layout.macroAddr Layout.encoderAddr
    omega
  have henc : L.encoderAddr ≤ L.macroAddr := encoderAddr_le_macroAddr
  have hend : viaEepromMagicAddr+4 = viaEepromConfigEnd := rfl
  have htwo : 2 ≤ viaEepromMagicAddr := by decide
  have hlight : ∀ {y}, rgblightBytes y → storedBytes L .eeprom y := by
    rintro y (⟨hlo,hhi⟩ | rfl)
    · have h8 : 2 ≤ eeconfigRgblightAddr := by decide
      have h12 : eeconfigRgblightAddr+4 ≤ viaEepromMagicAddr := by decide
      exact ⟨by omega,by rintro (hm | hm) <;> omega⟩
    · have h35 : 2 ≤ eeconfigRgblightExtendedAddr
          ∧ eeconfigRgblightExtendedAddr < viaEepromMagicAddr := by decide
      exact ⟨by omega,by rintro (hm | hm) <;> omega⟩
  have hregion : L.keymapAddr ≤ x → x ≤ L.maxAddr → storedBytes L .eeprom x := fun hlo hhi =>
    ⟨hhi,by rintro (hm | hm) <;> omega⟩
  have hoptions : x = viaEepromLayoutOptionsAddr → storedBytes L .eeprom x := by
    rintro rfl
    have h3 : viaEepromLayoutOptionsAddr = viaEepromMagicAddr+3 := rfl
    exact ⟨by omega,by rintro (hm | hm) <;> omega⟩
  cases command with
  | none => exact h.elim
  | some command =>
    cases command with
    | getKeyboardValue | setKeyboardValue => exact hoptions h.2
    | dynamicKeymapGetKeycode | dynamicKeymapSetKeycode | dynamicKeymapGetBuffer
    | dynamicKeymapSetBuffer =>
      exact hregion h.1 (Nat.le_of_lt (Nat.lt_of_lt_of_le h.2 (henc.trans hmac)))
    | dynamicKeymapReset =>
      rcases h with h | h
      · exact hregion h.1 (Nat.le_of_lt (Nat.lt_of_lt_of_le h.2 (henc.trans hmac)))
      · exact hregion (by have := h.1; omega) (Nat.le_of_lt (Nat.lt_of_lt_of_le h.2 hmac))
    | customSetValue | customGetValue | customSave =>
      exact h.elim (fun h => hlight h.2) fun h => kbBytes_stored hL h.2
    | dynamicKeymapMacroGetBuffer | dynamicKeymapMacroSetBuffer | dynamicKeymapMacroReset =>
      exact hregion (by have := h.1; omega) h.2
    | dynamicKeymapGetEncoder | dynamicKeymapSetEncoder =>
      exact hregion (by have := h.1; omega) (Nat.le_of_lt (Nat.lt_of_lt_of_le h.2 hmac))
    | _ => exact h.elim

variable {R : Space → Nat → Prop} {s : ByteMems Space} {u : HeState}

theorem inside_heViaCommitThresholds (h : ∀ x, kbBytes x → R .eeprom x) :
    Inside R (heViaCommitThresholds u) :=
  within_bind (inside_heSaveToEeprom h) fun _ => within_pure _

theorem inside_matrixScanCustom (h : ∀ x, kbBytes x → R .eeprom x) (input : ScanInput) :
    Inside R (matrixScanCustom n input u) :=
  within_ite (fun _ => inside_heViaCommitThresholds h) fun _ => within_pure _

theorem inside_heSetMode (h : ∀ x, kbBytes x → R .eeprom x) (value : UInt8) :
    Inside R (heSetMode value u) := by
  rw [heSetMode]
  split
  · exact within_bind (inside_eeconfigUpdateKbDatablock (fun x hlo hhi => h x (.inl ⟨hlo,hhi⟩))
      fun x hlo hhi _ => h x (.inr ⟨Nat.le_of_add_right_le hlo,hhi⟩)) fun _ => within_pure _
  · exact within_pure u

theorem inside_heHandleKeycode (h : ∀ x, kbBytes x → R .eeprom x) (keycode : UInt16)
    (pressed : Bool) : Inside R (heHandleKeycode keycode pressed u) := by
  have hmode : ∀ value, Inside R (if pressed then heSetMode value u else pure u) := fun value =>
    within_ite (fun _ => inside_heSetMode h value) fun _ => within_pure u
  exact within_ite (fun _ => hmode 0) fun _ => within_ite (fun _ => hmode 1) fun _ =>
    within_ite (fun _ => hmode 2) fun _ => within_pure u

theorem inside_heLoadFromEeprom (h : ∀ x, kbBytes x → R .eeprom x) :
    Inside R heLoadFromEeprom :=
  within_bind (within_bind (inside_eepromReadBytes fun x hlo hhi => h x (.inl ⟨hlo,hhi⟩)) fun _ =>
    within_bind (inside_eepromReadBytes fun x hlo hhi => h x (.inr ⟨hlo,hhi⟩)) fun _ =>
    within_pure _) fun _ =>
    within_ite (fun _ => within_pure _) fun _ =>
      within_bind (inside_heSaveToEeprom h) fun _ => within_pure _

theorem inside_eeconfigIsEnabled (h : ∀ x, magicBytes x → R .eeprom x) :
    Inside R (eeconfigIsEnabled fw) :=
  within_bind (inside_eepromReadBytes fun x _ hhi => h x (.inl hhi)) fun _ =>
    within_ite (fun _ => within_bind
      (within_bind (inside_eepromReadByte (h _ (.inr ⟨le_rfl,by omega⟩))) fun _ =>
        within_bind (inside_eepromReadByte (h _ (.inr ⟨by omega,by omega⟩))) fun _ =>
        within_bind (inside_eepromReadByte (h _ (.inr ⟨by omega,by omega⟩))) fun _ => within_pure _)
      fun _ => within_pure _) fun _ => within_pure _

theorem keyboardInit_stays (henabled : Enabled fw s) (h : ∀ x, magicBytes x → R .eeprom x)
    (hoptions : R .eeprom viaEepromLayoutOptionsAddr) : StaysIn R (keyboardInit L fw) s := by
  have hval : (eeconfigIsEnabled fw).val s = true := henabled
  have hquantum : StaysIn R (quantumInit L fw heDefaults) s
      ∧ (quantumInit L fw heDefaults).mem s = s := by
    rw [quantumInit, StaysIn, withinFrom_bind, mem_bind, hval, mem_eeconfigIsEnabled]
    exact ⟨⟨inside_eeconfigIsEnabled h s,within_pure _ s⟩,rfl⟩
  have hvia : StaysIn R (viaInit L fw) s ∧ (viaInit L fw).mem s = s := by
    have hvalid : (viaEepromIsValid fw.date).val s = true :=
      decide_eq_true (enabled_iff.mp henabled).2
    have hread : Inside R (viaEepromIsValid fw.date) := within_bind
      (within_bind (inside_eepromReadByte (h _ (.inr ⟨le_rfl,by omega⟩))) fun _ =>
        within_bind (inside_eepromReadByte (h _ (.inr ⟨by omega,by omega⟩))) fun _ =>
        within_bind (inside_eepromReadByte (h _ (.inr ⟨by omega,by omega⟩))) fun _ => within_pure _)
      fun _ => within_pure _
    have hopt : nvmViaReadLayoutOptions.mem s = s := rfl
    have hmem : (viaEepromIsValid fw.date).mem s = s := rfl
    rw [viaInit, StaysIn, withinFrom_bind, mem_bind, hopt, withinFrom_bind, mem_bind, hvalid, hmem]
    exact ⟨⟨within_bind (inside_eepromReadByte hoptions) (fun _ => within_pure _) s,hread s,
      within_pure _ s⟩,rfl⟩
  rw [keyboardInit, StaysIn, withinFrom_bind, keyboardPreInitKb, hquantum.2, withinFrom_bind,
    hvia.2, withinFrom_bind]
  exact ⟨hquantum.1,hvia.1,hquantum.1,within_pure _ _⟩

theorem program_stays (hL : viaEepromConfigEnd ≤ L.keymapAddr) (e : Event) :
    StaysIn (storedBytes L) (program L fw n u e) s ∨ program L fw n u e = powerUp L fw := by
  have hkb : ∀ x, kbBytes x → storedBytes L .eeprom x := fun x => kbBytes_stored hL
  cases e with
  | scan input => exact .inl (inside_matrixScanCustom hkb input s)
  | keycode keycode pressed => exact .inl (inside_heHandleKeycode hkb keycode pressed s)
  | report env bytes =>
    exact .inl (rawHidReceive_stays (fun _ _ => trivial) (fun x => namedBytes_stored hL)
      (.inl fun _ => trivial))
  | powerCycle => exact .inr rfl

theorem program_below {size : Nat} (hL : viaEepromConfigEnd ≤ L.keymapAddr)
    (hsize : L.maxAddr < size) (henabled : Enabled fw s) (e : Event) :
    WithinFrom (Below .eeprom size) (program L fw n u e) s := by
  have hfits := L.fits
  have hend : viaEepromMagicAddr+4 = viaEepromConfigEnd := rfl
  have hkb : ∀ x, kbBytes x → x < size := fun x hx =>
    Nat.lt_of_le_of_lt (kbBytes_stored hL hx).1 hsize
  rcases program_stays (s := s) hL e with h | h
  · exact fun c hc x hx => Nat.lt_of_le_of_lt (h c hc .eeprom x hx).1 hsize
  · -- a power-up
    have hmagic : ∀ x, magicBytes x → x < size := by
      rintro x (hx | hx) <;> omega
    have hinit : StaysIn (fun r x => r = .eeprom → x < size) (keyboardInit L fw) s :=
      keyboardInit_stays henabled (fun x hx _ => hmagic x hx) fun _ => by
        have h3 : viaEepromLayoutOptionsAddr = viaEepromMagicAddr+3 := rfl
        omega
    have hload : Inside (fun r x => r = .eeprom → x < size) heLoadFromEeprom :=
      inside_heLoadFromEeprom fun x hx _ => hkb x hx
    rw [h, powerUp, WithinFrom, ← WithinFrom, withinFrom_bind]
    exact ⟨fun c hc x hx => hinit c hc .eeprom x hx rfl,fun c hc x hx => hload _ c hc .eeprom x hx rfl⟩

theorem stays_enabled {α : Type} {p : Prog α} (hp : StaysIn (storedBytes L) p s)
    (h : Enabled fw s) : Enabled fw (p.mem s) := by
  have hsame : ∀ x, magicBytes x → p.mem s .eeprom x = s .eeprom x := by
    intro x hx
    rw [mem_eq_log]
    exact foldl_other fun c hc htouch => (hp c hc .eeprom x htouch).2 hx
  rw [enabled_iff] at h ⊢
  have hzero : eeconfigMagicAddr = 0 := rfl
  rw [ByteMem.read_congr fun x hlo hhi => hsame x (.inl (by omega)),
    ByteMem.read_congr fun x hlo hhi => hsame x (.inr ⟨hlo,hhi⟩)]
  exact h

theorem program_enabled (hL : viaEepromConfigEnd ≤ L.keymapAddr) (h : Enabled fw s) (e : Event) :
    Enabled fw ((program L fw n u e).mem s) := by
  rcases program_stays (s := s) hL e with hp | hp
  · exact stays_enabled hp h
  · rw [hp, powerUp, mem_bind, (boot_enabled h).2]
    exact stays_enabled (inside_heLoadFromEeprom (fun x => kbBytes_stored hL) s) h

theorem enabled_ram (m r r' : ByteMem) :
    Enabled fw (Nvm.memories m r) ↔ Enabled fw (Nvm.memories m r') := by
  rw [enabled_iff, enabled_iff]
  rfl

theorem exec_enabled {size : Nat} (hL : viaEepromConfigEnd ≤ L.keymapAddr)
    (hsize : L.maxAddr < size) (h : Enabled fw k.memories) (e : Event) :
    Enabled fw (k.exec ByteDevice.memory (program L fw n u e)).memories := by
  have hstore := (exec_memory (program_below (u := u) (n := n) hL hsize h e)).2.2
  have hnext := program_enabled (u := u) (n := n) hL h e
  rw [Keyboard.memories, hstore]
  rw [enabled_iff] at hnext ⊢
  exact hnext

section
variable {σ : Type} {dev : ByteDevice σ} {restart : σ → σ} {size : Nat} {rel : σ → ByteMem → Prop}

theorem Alike.prepare (hrestart : ∀ x m, rel x m → rel (restart x) m) {k : Keyboard σ}
    {k' : Keyboard ByteMem} (h : Alike rel k k') (e : Event) :
    Alike rel (k.prepare restart e) (k'.prepare id e) := by
  cases e with
  | scan input => exact h
  | keycode keycode pressed => exact h
  | report env bytes => exact { h with ram := congrArg (·.write 0 bytes.toList) h.ram }
  | powerCycle => exact { h with ram := rfl, store := hrestart _ _ h.store }

theorem Alike.reply {k : Keyboard σ} {k' : Keyboard ByteMem} (h : Alike rel k k') (e : Event) :
    Alike rel (k.reply e) (k'.reply e) := by
  cases e with
  | report env bytes =>
    refine { h with replies := ?_ }
    show k.replies ++ [k.ram.read 0 reportSize] = k'.replies ++ [k'.ram.read 0 reportSize]
    rw [h.replies, h.ram]
  | _ => exact h

theorem prepare_enabled (h : Enabled fw k.memories) (e : Event) :
    Enabled fw (k.prepare id e).memories := by
  cases e with
  | report env bytes => exact (enabled_ram _ _ _).mp h
  | powerCycle => exact (enabled_ram _ _ _).mp h
  | _ => exact h

theorem reply_memories (k : Keyboard ByteMem) (e : Event) : (k.reply e).memories = k.memories := by
  cases e <;> rfl

theorem Alike.handle (hdev : dev.Models size rel) (hrestart : ∀ x m, rel x m → rel (restart x) m)
    (hL : viaEepromConfigEnd ≤ L.keymapAddr) (hsize : L.maxAddr < size) {k : Keyboard σ}
    {k' : Keyboard ByteMem} (h : Alike rel k k') (henabled : Enabled fw k'.memories) (e : Event) :
    Alike rel (handle L fw n dev restart k e) (handle L fw n ByteDevice.memory id k' e)
      ∧ Enabled fw (Via.handle L fw n ByteDevice.memory id k' e).memories := by
  have hprep := h.prepare hrestart e
  have hready := prepare_enabled henabled e
  rw [Via.handle, Via.handle, hprep.settings, reply_memories]
  exact ⟨(hprep.exec hdev (program_below hL hsize hready e)).reply e,
    exec_enabled hL hsize hready e⟩

theorem session_alike (hdev : dev.Models size rel)
    (hrestart : ∀ x m, rel x m → rel (restart x) m) (hL : viaEepromConfigEnd ≤ L.keymapAddr)
    (hsize : L.maxAddr < size) {x : σ} {m : ByteMem} (hx : rel x m)
    (henabled : Enabled fw (Nvm.memories m ByteMem.blank)) (events : List Event) :
    Alike rel (session L fw n dev restart events x) (plainSession L fw n events m)
      ∧ Enabled fw (plainSession L fw n events m).memories := by
  have hstart : Alike rel (start L fw dev x) (start L fw ByteDevice.memory m)
      ∧ Enabled fw (start L fw ByteDevice.memory m).memories := by
    have hfirst : Alike rel (⟨heDefaults,ByteMem.blank,x,[]⟩ : Keyboard σ)
        ⟨heDefaults,ByteMem.blank,m,[]⟩ := ⟨rfl,rfl,rfl,hx⟩
    exact ⟨hfirst.exec hdev (program_below (u := heDefaults) (n := n) hL hsize henabled .powerCycle),
      exec_enabled (u := heDefaults) (n := n) hL hsize henabled .powerCycle⟩
  rw [session, plainSession, session]
  generalize start L fw dev x = k, start L fw ByteDevice.memory m = k' at hstart
  induction events generalizing k k' with
  | nil => exact hstart
  | cons e events ih => exact ih _ _ (hstart.1.handle hdev hrestart hL hsize hstart.2 e)

end

/-- A session over what a run of the wear-leveling layer leaves. -/
def flashSession (L : Layout) (fw : Firmware) (n : Nat) (cfg : WearLeveling.Config)
    (calls : List WearLeveling.Call) (events : List Event) : Keyboard WearLeveling.State :=
  session L fw n (WearLeveling.eepromDevice .faultFree cfg) (WearLeveling.restart .faultFree cfg)
    events (WearLeveling.run .faultFree cfg calls (WearLeveling.boot .faultFree cfg))

section
variable {cfg : WearLeveling.Config} {calls : List WearLeveling.Call}

theorem run_keeps (hcalls : ∀ c ∈ calls, c.Valid cfg) :
    WearLeveling.Keeps cfg
      (WearLeveling.run .faultFree cfg calls (WearLeveling.boot .faultFree cfg))
      (WearLeveling.plain calls ByteMem.blank) := by
  obtain ⟨hboot,hblank⟩ := WearLeveling.boot_synced WearLeveling.Sound.faultFree cfg
  obtain ⟨hrun,hcache⟩ := WearLeveling.run_synced hboot calls hcalls
  refine ⟨hrun,fun a _ => ?_⟩
  rw [hcache, hblank]

theorem flashSession_alike (hL : viaEepromConfigEnd ≤ L.keymapAddr)
    (hsize : L.maxAddr < cfg.logicalSize) (hcalls : ∀ c ∈ calls, c.Valid cfg)
    (henabled : Enabled fw (Nvm.memories (WearLeveling.plain calls ByteMem.blank) ByteMem.blank))
    (events : List Event) :
    Alike (WearLeveling.Keeps cfg) (flashSession L fw n cfg calls events)
      (plainSession L fw n events (WearLeveling.plain calls ByteMem.blank)) :=
  (session_alike WearLeveling.eepromDevice_models (fun _ _ h => WearLeveling.Keeps.restart h) hL
    hsize (run_keeps hcalls) henabled events).1

end

/-- On the wear-leveling layer the keyboard does what it does with a plain memory, whatever
scans, keys, reports and power cycles come, and its store is always played back to that memory. -/
theorem keyboard_on_wear_leveling (cfg : WearLeveling.Config)
    (hL : viaEepromConfigEnd ≤ L.keymapAddr) (hsize : L.maxAddr < cfg.logicalSize)
    (calls : List WearLeveling.Call) (hcalls : ∀ c ∈ calls, c.Valid cfg)
    (henabled : Enabled fw (Nvm.memories (WearLeveling.plain calls ByteMem.blank) ByteMem.blank))
    (events : List Event) :
    let k := flashSession L fw n cfg calls events
    let k' := plainSession L fw n events (WearLeveling.plain calls ByteMem.blank)
    k.settings = k'.settings ∧ k.ram = k'.ram ∧ k.replies = k'.replies
      ∧ WearLeveling.Keeps cfg k.store k'.store
      ∧ ∀ a < cfg.logicalSize, (WearLeveling.restart .faultFree cfg k.store).cache a = k'.store a := by
  have h := flashSession_alike (n := n) hL hsize hcalls henabled events
  exact ⟨h.settings,h.ram,h.replies,h.store,h.store.restart.2⟩

/-- The 8 kB of the keyboard, in words of four bytes. -/
def icebreakerConfig : WearLeveling.Config where
  writeSize := .four
  logicalSize := 8192
  backingSize := 16384
  fnv bs := WearLeveling.fnv64aBuf bs WearLeveling.fnv1a64Init
  logical_pos := by decide
  backing_ge := by decide
  logical_mod := by decide
  backing_mod := by decide
  logical_le := by decide
  room := by decide

/-- The magic numbers of a keyboard that has been set up. -/
def setUpCalls : List WearLeveling.Call :=
  [.write 0 (wordBytes eeconfigMagicNumber),.write viaEepromMagicAddr emptyFirmware.date.magic]

theorem setUpCalls_valid : ∀ c ∈ setUpCalls, c.Valid icebreakerConfig := by
  simp only [setUpCalls, List.mem_cons, List.not_mem_nil, or_false, forall_eq_or_imp, forall_eq]
  exact ⟨by decide,by decide⟩

theorem setUpCalls_enabled : Enabled emptyFirmware
    (Nvm.memories (WearLeveling.plain setUpCalls ByteMem.blank) ByteMem.blank) :=
  enabled_iff.mpr ⟨by decide,by decide⟩

theorem keyboard_on_wear_leveling_icebreaker :
    (flashSession icebreakerLayout emptyFirmware heDebounce icebreakerConfig setUpCalls
      [.keycode qkKb0 true,.powerCycle]).settings
    = (plainSession icebreakerLayout emptyFirmware heDebounce [.keycode qkKb0 true,.powerCycle]
      (WearLeveling.plain setUpCalls ByteMem.blank)).settings :=
  (keyboard_on_wear_leveling icebreakerConfig (le_refl viaEepromConfigEnd) (by decide) setUpCalls
    setUpCalls_valid setUpCalls_enabled [.keycode qkKb0 true,.powerCycle]).1

end QmkFirmware.Via
