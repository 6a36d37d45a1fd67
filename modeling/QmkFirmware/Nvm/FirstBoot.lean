import QmkFirmware.He.Persist
import QmkFirmware.Nvm.Regions

/-!
The first boot formats the EEPROM and the power may go after any access. VIA's magic is written
last by `eeconfig_init_via`, but `eeconfig_init_kb` comes after it.
-/

set_option autoImplicit false

namespace QmkFirmware.Nvm

open He ByteProg

variable (L : Layout) (fw : Firmware)

/-- RAM after `he_config_set_defaults`. -/
def heDefaults : HeState := boot (kbDatablock ByteMem.blank)

/-- The check of `quantum_init`. It returns whether `eeconfig_init` ran. -/
def quantumInit (s : HeState) : Prog Bool := do
  let enabled ← eeconfigIsEnabled fw
  if enabled then pure false else do
    eeconfigInit L fw s
    pure true

def keyboardPreInitKb : Prog Bool := quantumInit L fw heDefaults

def viaInit : Prog Unit := do
  let _ ← nvmViaReadLayoutOptions
  let valid ← viaEepromIsValid fw.date
  if valid then pure () else eeconfigInitVia L fw

/-- A start-up up to `keyboard_post_init_kb`, as far as these settings go. -/
def keyboardInit : Prog Bool := do
  let first ← keyboardPreInitKb L fw
  viaInit L fw
  let again ← quantumInit L fw heDefaults
  pure (first || again)

/-- `keyboard_post_init_kb` on the RAM that `matrix_init_custom` leaves. -/
def keyboardPostInitKb (e : ByteMem) : HeState := heLoadFromEeprom (boot (kbDatablock e))

def DefaultConfig (s : HeState) : Prop :=
  (∀ i, (s.config i).actuation = heActuationDefault ∧ (s.config i).release = heReleaseDefault)
    ∧ s.mode = .rapidTrigger
    ∧ s.tuning = ⟨heDeadzoneDefault,heEngageDefault,heReleaseDistDefault⟩

/-- The next boot runs the whole initialisation or loads the defaults. -/
def BootsSafely (s : ByteMems Space) : Prop :=
  (keyboardInit L fw).val s = true
    ∨ DefaultConfig (keyboardPostInitKb ((keyboardInit L fw).mem s .eeprom))

def Enabled (s : ByteMems Space) : Prop := (eeconfigIsEnabled fw).val s = true

variable {L fw} {s : ByteMems Space}

theorem mem_eeconfigIsEnabled (s : ByteMems Space) : (eeconfigIsEnabled fw).mem s = s := by
  have h : (eeconfigIsEnabled fw).mem s = (if (s .eeprom).read eeconfigMagicAddr 2
      = wordBytes eeconfigMagicNumber then viaEepromIsValid fw.date else pure false).mem s := by
    rw [← val_eepromReadBytes]
    exact (mem_bind s _ _).trans (by rw [mem_eepromReadBytes])
  rw [h]
  split <;> rfl

theorem enabled_iff : Enabled fw s ↔
    (s .eeprom).read eeconfigMagicAddr 2 = wordBytes eeconfigMagicNumber
      ∧ (s .eeprom).read viaEepromMagicAddr 3 = fw.date.magic := by
  have h : (eeconfigIsEnabled fw).val s = (if (s .eeprom).read eeconfigMagicAddr 2
      = wordBytes eeconfigMagicNumber then viaEepromIsValid fw.date else pure false).val s := by
    rw [← val_eepromReadBytes]
    exact (val_bind s _ _).trans (by rw [mem_eepromReadBytes])
  rw [Enabled, h]
  split
  · rename_i hm
    rw [and_iff_right hm]
    exact decide_eq_true_iff
  · rename_i hm
    exact iff_of_false Bool.false_ne_true fun hc => hm hc.1

theorem boot_disabled (h : ¬ Enabled fw s) : (keyboardInit L fw).val s = true := by
  have hval : (eeconfigIsEnabled fw).val s = false := Bool.eq_false_iff.mpr h
  have hfirst : (keyboardPreInitKb L fw).val s = true := by
    rw [keyboardPreInitKb, quantumInit, val_bind, hval]
    exact val_bind _ _ _
  rw [keyboardInit, val_bind, hfirst]
  simp

theorem boot_enabled (h : Enabled fw s) :
    (keyboardInit L fw).val s = false ∧ (keyboardInit L fw).mem s = s := by
  have hval : (eeconfigIsEnabled fw).val s = true := h
  have hcheck : (quantumInit L fw heDefaults).val s = false
      ∧ (quantumInit L fw heDefaults).mem s = s := by
    rw [quantumInit, val_bind, mem_bind, hval, mem_eeconfigIsEnabled]
    exact ⟨rfl,rfl⟩
  have hvia : (viaInit L fw).mem s = s := by
    have hvalid : (viaEepromIsValid fw.date).val s = true := decide_eq_true (enabled_iff.mp h).2
    have hopt : nvmViaReadLayoutOptions.mem s = s := rfl
    rw [viaInit, mem_bind, mem_bind, hopt, hvalid]
    rfl
  rw [keyboardInit, keyboardPreInitKb]
  simp only [val_bind, mem_bind, hcheck, hvia, val_pure, mem_pure, Bool.or_self, and_self]

section
variable {R : Space → Nat → Prop} {α : Type}

theorem keeps_read {p : Prog α} {a n : Nat} (hp : Inside R p)
    (hR : ∀ x, a ≤ x → x < a+n → ¬ R .eeprom x) (P : List UInt8 → Prop) :
    Keeps (fun t => P ((t .eeprom).read a n)) p :=
  hp.keeps fun s t h hs => by
    rw [ByteMem.read_congr fun x hlo hhi => h .eeprom x (hR x hlo hhi)]
    exact hs

theorem inside_eeconfigInitSettings
    (h : ∀ x, eeconfigDebugAddr ≤ x → x < eeconfigKeyboardAddr → R .eeprom x)
    (h' : R .eeprom eeconfigRgblightExtendedAddr) : Inside R (eeconfigInitSettings fw) :=
  within_bind (inside_eepromUpdateByte (h _ le_rfl (by decide))) fun _ =>
    within_bind (inside_eepromUpdateByte (h _ (by decide) (by decide))) fun _ =>
    within_bind (inside_eepromUpdateWord fun x hlo hhi =>
      h x (le_trans (by decide) hlo)
        (lt_of_lt_of_le hhi (show eeconfigKeymapAddr+2 ≤ eeconfigKeyboardAddr by decide))) fun _ =>
    inside_eeconfigUpdateRgblight (fun x hlo hhi =>
      h x (le_trans (by decide) hlo) (lt_of_lt_of_le hhi (by decide))) h'

theorem inside_eeconfigInitKbDatablock (h : ∀ x, kbBytes x → R .eeprom x) :
    Inside R eeconfigInitKbDatablock :=
  within_bind (inside_eepromUpdateWord fun x hlo hhi => h x (.inl ⟨hlo,hhi⟩)) fun _ =>
    inside_zeroBlocks fun x hlo hhi => h x (.inr ⟨hlo,hhi⟩)

theorem inside_eeconfigInitVia (hL : viaEepromConfigEnd ≤ L.keymapAddr)
    (h : ∀ x, viaEepromMagicAddr ≤ x → R .eeprom x) : Inside R (eeconfigInitVia L fw) := by
  have haddr : viaEepromMagicAddr ≤ L.keymapAddr := le_trans (by decide) hL
  have henc : L.keymapAddr ≤ L.encoderAddr := encoderAddr_eq L ▸ Nat.le_add_right _ _
  have hmac : L.encoderAddr ≤ L.macroAddr := encoderAddr_le_macroAddr
  have hvalid : ∀ valid, Inside R (viaEepromSetValid fw.date valid) := fun _ =>
    inside_viaEepromSetValid fun x hlo _ => h x hlo
  exact within_bind (hvalid false) fun _ =>
    within_bind (inside_eepromUpdateByte (h _ (by decide))) fun _ =>
    within_bind (inside_dynamicKeymapReset (fun x hx => h x (haddr.trans hx.1))
      fun x hx => h x (haddr.trans (henc.trans hx.1))) fun _ =>
    within_bind (inside_dynamicKeymapMacroReset
      fun x hx => h x (haddr.trans (henc.trans (hmac.trans hx.1)))) fun _ => hvalid true

end

/-- The third byte of the magic is not the day of the build. -/
def Unstamped (fw : Firmware) (s : ByteMems Space) : Prop :=
  (s .eeprom).read (viaEepromMagicAddr+2) 1 ≠ [bcd fw.date.day]

theorem bcd_ne_erased (d : Fin 10 × Fin 10) : bcd d ≠ 0xFF := by
  have h : ∀ a b : Fin 10, bcd (a,b) ≠ 0xFF := by decide
  exact h d.1 d.2

theorem bcd_ne_zero (d : Fin 10 × Fin 10) (hd : d ≠ (0,0)) : bcd d ≠ 0 := by
  have h : ∀ a b : Fin 10, (a,b) ≠ (0,0) → bcd (a,b) ≠ 0 := by decide
  exact h d.1 d.2 hd

theorem Unstamped.disabled (h : Unstamped fw s) : ¬ Enabled fw s := by
  intro henabled
  have hmagic := (enabled_iff.mp henabled).2
  exact h (congrArg (List.drop 2) hmagic)

theorem read_erased (a : Nat) (h : a < 65536) (s : ByteMems Space) :
    (nvmEeconfigErase.mem s .eeprom).read a 1 = [0] := by
  have hat := ByteMem.write_at (s .eeprom) 0 a (List.replicate 65536 0)
  rw [Nat.zero_add, List.getD_eq_getElem?_getD, List.getElem?_replicate_of_lt h] at hat
  exact congrArg (fun v => [v]) hat

theorem unstamped_erase (s : ByteMems Space) : Unstamped fw (nvmEeconfigErase.mem s) := by
  rw [Unstamped, read_erased _ (by decide)]
  exact fun h => bcd_ne_zero _ fw.date.day_pos (List.cons.inj h).1.symm

theorem keeps_unstamped {α : Type} {p : Prog α}
    (hp : Inside (fun _ x => x ≠ viaEepromMagicAddr+2) p) : Keeps (Unstamped fw) p :=
  keeps_read hp (fun x hlo hhi h => h (by omega)) (· ≠ [bcd fw.date.day])

theorem unstamped_invalid : Keeps (Unstamped fw) (viaEepromSetValid fw.date false) :=
  within_bind (keeps_unstamped (inside_eepromUpdateByte (by decide))) fun _ =>
    within_bind (keeps_unstamped (inside_eepromUpdateByte (by decide))) fun _ =>
    within_bind (within_readByte fun _ ht => ht) fun _ =>
    within_ite (fun _ => within_writeBytes fun t _ h => by
      have hread : ((t .eeprom).write (viaEepromMagicAddr+2) [0xFF]).read (viaEepromMagicAddr+2) 1
          = [0xFF] := ByteMem.read_write_same _ _ [0xFF]
      rw [ByteAccess.apply, Function.update_self, hread] at h
      exact bcd_ne_erased _ (List.cons.inj h).1.symm) fun _ => within_pure ()

theorem untilLast_pure {I : ByteMems Space → Prop} {α : Type} (x : α) :
    UntilLast I (pure x : Prog α) s := fun _ hl hne => absurd (List.prefix_nil.mp hl) hne

theorem untilLast_eepromUpdateByte {I : ByteMems Space → Prop} {a : Nat} {v : UInt8} (hs : I s) :
    UntilLast I (eepromUpdateByte a v) s := by
  refine untilLast_keeps_bind (within_readByte fun _ ht => ht) hs fun orig t ht => ?_
  by_cases h : orig ≠ v
  · rw [if_pos h]
    exact untilLast_writeBytes ht
  · rw [if_neg h]
    exact untilLast_pure ()

theorem untilLast_valid (hs : Unstamped fw s) :
    UntilLast (Unstamped fw) (viaEepromSetValid fw.date true) s :=
  untilLast_keeps_bind (keeps_unstamped (inside_eepromUpdateByte (by decide))) hs fun _ _ h =>
    untilLast_keeps_bind (keeps_unstamped (inside_eepromUpdateByte (by decide))) h fun _ _ h =>
    untilLast_eepromUpdateByte h

theorem untilLast_initVia (hL : viaEepromConfigEnd ≤ L.keymapAddr) (hs : Unstamped fw s) :
    UntilLast (Unstamped fw) (eeconfigInitVia L fw) s := by
  have haddr : viaEepromMagicAddr+2 < L.keymapAddr := lt_of_lt_of_le (by decide) hL
  have henc : L.keymapAddr ≤ L.encoderAddr := encoderAddr_eq L ▸ Nat.le_add_right _ _
  have hmac : L.encoderAddr ≤ L.macroAddr := encoderAddr_le_macroAddr
  refine untilLast_keeps_bind unstamped_invalid hs fun _ _ h =>
    untilLast_keeps_bind (keeps_unstamped (inside_eepromUpdateByte (by decide))) h fun _ _ h =>
    untilLast_keeps_bind (keeps_unstamped (inside_dynamicKeymapReset (fun x hx => ?_)
      fun x hx => ?_)) h fun _ _ h =>
    untilLast_keeps_bind (keeps_unstamped (inside_dynamicKeymapMacroReset fun x hx => ?_)) h
      fun _ _ h => untilLast_valid h
  · exact (lt_of_lt_of_le haddr hx.1).ne'
  · exact (lt_of_lt_of_le haddr (henc.trans hx.1)).ne'
  · exact (lt_of_lt_of_le haddr (henc.trans (hmac.trans hx.1))).ne'

theorem untilLast_initCore (hL : viaEepromConfigEnd ≤ L.keymapAddr) (hs : ¬ Enabled fw s) :
    UntilLast (fun t => ¬ Enabled fw t) (eeconfigInitCore L fw) s := by
  refine untilLast_bind (fun _ hl => ?_) (UntilLast.mono ?_ fun _ h => Unstamped.disabled h)
  · rcases List.prefix_cons_iff.mp hl with rfl | ⟨l',rfl,hl'⟩
    · exact hs
    · rw [List.prefix_nil.mp hl']
      exact (unstamped_erase s).disabled
  · refine untilLast_keeps_bind (keeps_unstamped (inside_eepromUpdateWord fun x _ hx => ?_))
      (unstamped_erase s) fun _ _ h =>
      untilLast_keeps_bind (keeps_unstamped (inside_eeconfigInitSettings (fun x _ hx => ?_)
        (by decide))) h fun _ _ h =>
      untilLast_keeps_bind (keeps_unstamped (inside_eeconfigInitKbDatablock fun x hx => ?_)) h
        fun _ _ h => untilLast_initVia hL h
    · exact (lt_of_lt_of_le hx (by decide)).ne
    · exact (lt_of_lt_of_le hx (by decide)).ne
    · exact (lt_of_lt_of_le (kbBytes_lt hx) (by decide)).ne

def magicSet (s : ByteMems Space) : Prop :=
  (s .eeprom).read eeconfigMagicAddr 2 = wordBytes eeconfigMagicNumber

def versionSet (s : ByteMems Space) : Prop :=
  (s .eeprom).read eeconfigKeyboardAddr 4 = dwordBytes eeconfigKbDataVersion

def lastZero (s : ByteMems Space) : Prop := (s .eeprom).read (eeconfigKbDatablockAddr+141) 1 = [0]

def stamped (fw : Firmware) (s : ByteMems Space) : Prop :=
  (s .eeprom).read viaEepromMagicAddr 3 = fw.date.magic

def Formatted (fw : Firmware) (s : ByteMems Space) : Prop :=
  (magicSet s ∧ stamped fw s) ∧ versionSet s ∧ lastZero s

theorem versionSet_valid (h : versionSet s) :
    eeconfigIsKbDatablockValid (kbDatablock (s .eeprom)) = true := by
  obtain ⟨h₀,h₁,h₂,h₃⟩ : s .eeprom eeconfigKeyboardAddr = 3
      ∧ s .eeprom (eeconfigKeyboardAddr+1) = 0 ∧ s .eeprom (eeconfigKeyboardAddr+2) = 0
      ∧ s .eeprom (eeconfigKeyboardAddr+3) = 0 := by
    have hbytes : dwordBytes eeconfigKbDataVersion = [3,0,0,0] := by decide
    simpa [versionSet, hbytes, ByteMem.read_succ, Nat.add_assoc] using h
  refine decide_eq_true ?_
  show joinDword _ _ _ _ = _
  rw [h₀, h₁, h₂, h₃]
  decide

theorem Formatted.not_safe (h : Formatted fw s) : ¬ BootsSafely L fw s := by
  obtain ⟨hval,hmem⟩ := boot_enabled (L := L) (enabled_iff.mpr h.1)
  have htuning := (load_valid (s := boot (kbDatablock (s .eeprom))) (versionSet_valid h.2.1)).2.2.1
  have hlast : (kbDatablock (s .eeprom)).block 141 = 0 := (List.cons.inj h.2.2).1
  rintro (hinit | ⟨-,-,hdefault⟩)
  · rw [hval] at hinit
    exact Bool.false_ne_true hinit
  · rw [hmem] at hdefault
    have hdist := congrArg Tuning.releaseDist (htuning.symm.trans hdefault)
    rw [show (boot (kbDatablock (s .eeprom))).eeprom.block 141 = 0 from hlast] at hdist
    exact absurd hdist
      (show heClampU8 0 heReleaseDistMin heReleaseDistMax ≠ heReleaseDistDefault by decide)

section
variable {R : Space → Nat → Prop} {α : Type} {p : Prog α}

theorem keeps_magicSet (hp : Inside R p) (hR : ∀ x, R .eeprom x → eeconfigDebugAddr ≤ x) :
    Keeps magicSet p :=
  keeps_read hp (fun x _ hhi h => absurd (lt_of_lt_of_le hhi (hR x h)) (lt_irrefl _))
    (· = wordBytes eeconfigMagicNumber)

theorem keeps_stamped (hp : Inside R p) (hR : ∀ x, R .eeprom x → x < viaEepromMagicAddr) :
    Keeps (stamped fw) p :=
  keeps_read hp (fun x hlo _ h => absurd (lt_of_lt_of_le (hR x h) hlo) (lt_irrefl _))
    (· = fw.date.magic)

theorem keeps_versionSet (hp : Inside R p) (hR : ∀ x, R .eeprom x → eeconfigUserAddr ≤ x) :
    Keeps versionSet p :=
  keeps_read hp (fun x _ hhi h => absurd (lt_of_lt_of_le hhi (hR x h)) (lt_irrefl _))
    (· = dwordBytes eeconfigKbDataVersion)

theorem keeps_lastZero (hp : Inside R p) (hR : ∀ x, R .eeprom x → x ≠ eeconfigKbDatablockAddr+141) :
    Keeps lastZero p :=
  keeps_read hp (fun x hlo hhi h => hR x h (by omega)) (· = [0])

theorem keeps_formatted (hp : Inside R p)
    (hR : ∀ x, R .eeprom x → eeconfigKbDatablockAddr ≤ x ∧ x < eeconfigKbDatablockAddr+141) :
    Keeps (Formatted fw) p :=
  Keeps.and (Keeps.and (keeps_magicSet hp fun x hx => le_trans (by decide) (hR x hx).1)
      (keeps_stamped hp fun x hx => lt_of_lt_of_le (hR x hx).2 (by decide)))
    (Keeps.and (keeps_versionSet hp fun x hx => le_trans (by decide) (hR x hx).1)
      (keeps_lastZero hp fun x hx => (hR x hx).2.ne))

end

theorem keeps_eepromReadBytes {I : ByteMems Space → Prop} (a n : Nat) :
    Keeps I (eepromReadBytes a n) := by
  induction n generalizing a with
  | zero => exact within_pure []
  | succ n ih =>
    exact within_bind (within_readByte fun _ ht => ht) fun _ =>
      within_bind (ih (a+1)) fun _ => within_pure _

theorem keeps_versionUpdate : Keeps (Formatted fw)
    (eepromUpdateWord eeconfigKeyboardAddr (dwordBytes eeconfigKbDataVersion)) := by
  have hin : Inside (fun _ x => eeconfigKeyboardAddr ≤ x ∧ x < eeconfigKeyboardAddr+4)
      (eepromUpdateWord eeconfigKeyboardAddr (dwordBytes eeconfigKbDataVersion)) :=
    inside_eepromUpdateWord fun _ hlo hhi => ⟨hlo,hhi⟩
  have hversion : Keeps versionSet
      (eepromUpdateWord eeconfigKeyboardAddr (dwordBytes eeconfigKbDataVersion)) :=
    within_bind (keeps_eepromReadBytes _ _) fun _ =>
      within_ite (fun _ => within_writeBytes fun t _ => by
        rw [versionSet, ByteAccess.apply, Function.update_self]
        exact ByteMem.read_write_same _ _ (dwordBytes eeconfigKbDataVersion)) fun _ =>
      within_pure ()
  exact Keeps.and (Keeps.and (keeps_magicSet hin fun x hx => le_trans (by decide) hx.1)
      (keeps_stamped hin fun x hx => lt_of_lt_of_le hx.2 (by decide)))
    (Keeps.and hversion
      (keeps_lastZero hin fun x hx => (lt_of_lt_of_le hx.2 (by decide)).ne))

theorem untilLast_eepromWriteBytes {I : ByteMems Space → Prop} {a : Nat} {bs : List UInt8}
    (hI : ∀ t x v, a ≤ x → x+1 < a+bs.length → I t →
      I ((ByteAccess.write .eeprom x [v]).apply t)) (hs : I s) :
    UntilLast I (eepromWriteBytes a bs) s := by
  induction bs generalizing a s with
  | nil => exact untilLast_pure ()
  | cons v vs ih =>
    intro l hl hne
    rcases List.prefix_cons_iff.mp hl with rfl | ⟨l',rfl,hl'⟩
    · exact hs
    · have hne' : l' ≠ (eepromWriteBytes (a+1) vs).log
          ((ByteAccess.write .eeprom a [v]).apply s) := fun he => hne (congrArg _ he)
      cases vs with
      | nil => exact absurd (List.prefix_nil.mp hl') hne'
      | cons w ws =>
        simp only [List.length_cons] at hI
        refine ih (fun t x v hlo hhi => hI t x v (by omega) ?_) (hI s a v le_rfl (by omega) hs)
          l' hl' hne'
        rw [List.length_cons] at hhi
        omega

theorem untilLast_eepromUpdateBlock {I : ByteMems Space → Prop} {a : Nat} {bs : List UInt8}
    (hI : ∀ t x v, a ≤ x → x+1 < a+bs.length → I t →
      I ((ByteAccess.write .eeprom x [v]).apply t)) (hs : I s) :
    UntilLast I (eepromUpdateBlock a bs) s := by
  refine untilLast_keeps_bind (keeps_eepromReadBytes _ _) hs fun orig t ht => ?_
  by_cases h : orig ≠ bs
  · rw [if_pos h]
    exact untilLast_eepromWriteBytes hI ht
  · rw [if_neg h]
    exact untilLast_pure ()

theorem untilLast_save {u : HeState} (hs : Formatted fw s) :
    UntilLast (Formatted fw) (heSaveToEeprom u) s := by
  have hlen : ((List.finRange heSensorCount).flatMap fun i =>
      [(u.config i).actuation,(u.config i).release]).length = 138 := by simp [heSensorCount]
  refine untilLast_keeps_bind (within_bind keeps_versionUpdate fun _ => keeps_formatted
    (R := fun _ x => eeconfigKbDatablockAddr ≤ x ∧ x < eeconfigKbDatablockAddr+141)
    (inside_eepromUpdateBlock fun x hlo hhi => ?_) fun _ hx => hx) hs fun _ _ h =>
    untilLast_keeps_bind keeps_versionUpdate h fun _ _ h =>
    untilLast_eepromUpdateBlock (fun t x v hlo hhi ht => ?_) h
  · rw [List.length_take, hlen] at hhi
    omega
  · have hx : eeconfigKbDatablockAddr ≤ x ∧ x < eeconfigKbDatablockAddr+141 := by
      rw [List.length_take] at hhi
      simp only [List.length_cons, List.length_nil, heSettingsEepromOffset] at hlo hhi
      omega
    have hkeep : Keeps (Formatted fw) (ByteProg.writeBytes .eeprom x [v]) :=
      keeps_formatted (inside_eepromWriteByte (R := fun _ y => y = x) rfl) fun y hy => hy ▸ hx
    exact hkeep t _ (List.mem_singleton.mpr rfl) t ht

theorem stamped_valid (s : ByteMems Space) :
    stamped fw ((viaEepromSetValid fw.date true).mem s) := by
  have hmem : (viaEepromSetValid fw.date true).mem s .eeprom
      = Function.update (Function.update (Function.update (s .eeprom) viaEepromMagicAddr
        (bcd fw.date.year)) (viaEepromMagicAddr+1) (bcd fw.date.month)) (viaEepromMagicAddr+2)
        (bcd fw.date.day) := by
    show (nvmViaUpdateMagic _ _ _).mem s .eeprom = _
    simp [nvmViaUpdateMagic]
  rw [stamped, hmem]
  simp [ByteMem.read_succ, BuildDate.magic, Function.update]

theorem stamped_initVia (s : ByteMems Space) : stamped fw ((eeconfigInitVia L fw).mem s) := by
  rw [eeconfigInitVia, mem_bind, mem_bind, mem_bind, mem_bind]
  exact stamped_valid _

theorem lastZero_write (x : Nat) (t : ByteMems Space) (h : lastZero t) :
    lastZero ((ByteAccess.write .eeprom x [0]).apply t) := by
  have h' : t .eeprom (eeconfigKbDatablockAddr+141) = 0 := (List.cons.inj h).1
  rw [lastZero, ByteAccess.apply, Function.update_self, write_single]
  refine congrArg (fun v => [v]) ?_
  by_cases hx : eeconfigKbDatablockAddr+141 = x
  · rw [← hx]
    exact Function.update_self _ _ _
  · exact (Function.update_of_ne hx _ _).trans h'

theorem lastZero_zeroBlocks (a n : Nat) : Keeps lastZero (zeroBlocks a n) := by
  have hwrite : ∀ k b, Keeps lastZero (eepromWriteBytes b (List.replicate k 0)) := by
    intro k
    induction k with
    | zero => exact fun b => within_pure ()
    | succ k ih =>
      exact fun b => within_bind (within_writeBytes (lastZero_write b)) fun _ => ih (b+1)
  exact within_forFrom fun i _ _ => within_bind (keeps_eepromReadBytes _ _) fun _ =>
    within_ite (fun _ => hwrite _ _) fun _ => within_pure ()

theorem initCore_formatted (hL : viaEepromConfigEnd ≤ L.keymapAddr) (s : ByteMems Space) :
    Formatted fw ((eeconfigInitCore L fw).mem s) := by
  have hset : Inside (fun _ x => eeconfigDebugAddr ≤ x ∧ x < eeconfigKbDatablockAddr)
      (eeconfigInitSettings fw) :=
    inside_eeconfigInitSettings (fun x hlo hhi => ⟨hlo,lt_of_lt_of_le hhi (by decide)⟩) (by decide)
  have hkb : Inside (fun _ x => eeconfigKeyboardAddr ≤ x) eeconfigInitKbDatablock :=
    inside_eeconfigInitKbDatablock fun x hx => hx.elim (fun h => h.1) fun h =>
      le_trans (by decide) h.1
  have hvia : Inside (fun _ x => viaEepromMagicAddr ≤ x) (eeconfigInitVia L fw) :=
    inside_eeconfigInitVia hL fun _ hx => hx
  have hword : ∀ b bs, b+bs.length ≤ eeconfigKbDatablockAddr →
      Keeps lastZero (eepromUpdateWord b bs) := fun b bs hb =>
    keeps_lastZero (R := fun _ x => x < b+bs.length)
      (inside_eepromUpdateWord fun x _ hhi => hhi) fun x hx => by omega
  refine ⟨⟨?magic,?stamp⟩,?version,?zero⟩
  case magic =>
    rw [eeconfigInitCore, mem_bind, mem_bind]
    refine Keeps.mem (within_bind (keeps_magicSet hset fun _ h => h.1) fun _ =>
      within_bind (keeps_magicSet hkb fun _ h => le_trans (by decide) h) fun _ =>
      keeps_magicSet hvia fun _ h => le_trans (by decide) h) ?_
    rw [magicSet, eepromUpdateWord_eeprom]
    exact ByteMem.read_write_same _ _ (wordBytes eeconfigMagicNumber)
  case stamp =>
    rw [eeconfigInitCore, mem_bind, mem_bind, mem_bind, mem_bind]
    exact stamped_initVia _
  case version =>
    rw [eeconfigInitCore, mem_bind, mem_bind, mem_bind, mem_bind]
    refine Keeps.mem (keeps_versionSet hvia fun _ h => le_trans (by decide) h) ?_
    rw [eeconfigInitKbDatablock, mem_bind]
    refine Keeps.mem (keeps_versionSet (R := fun _ x => eeconfigKbDatablockAddr ≤ x)
      (inside_zeroBlocks fun _ hlo _ => hlo) fun _ h => le_trans (by decide) h) ?_
    rw [versionSet, eepromUpdateWord_eeprom]
    exact ByteMem.read_write_same _ _ (dwordBytes eeconfigKbDataVersion)
  case zero =>
    rw [eeconfigInitCore, mem_bind]
    exact Keeps.mem (within_bind (hword _ _ (by decide)) fun _ =>
      within_bind (keeps_lastZero hset fun x h => by omega) fun _ =>
      within_bind (within_bind (hword _ _ (by decide)) fun _ => lastZero_zeroBlocks _ _) fun _ =>
      keeps_lastZero hvia fun _ h => (lt_of_lt_of_le (by decide) h).ne')
      (read_erased _ (by decide) s)

def Saved (fw : Firmware) (s : ByteMems Space) : Prop :=
  Enabled fw s ∧ DefaultConfig (keyboardPostInitKb (s .eeprom))

theorem Saved.safe (h : Saved fw s) : BootsSafely L fw s := by
  rw [BootsSafely, (boot_enabled h.1).2]
  exact .inr h.2

theorem saved_default (d : KbDatablock) :
    DefaultConfig (heLoadFromEeprom (boot (He.heSaveToEeprom (boot d)).eeprom)) := by
  obtain ⟨hkeys,hmode,hdead,hengage,hdist,hvalid⟩ := save_block (boot d)
  generalize (He.heSaveToEeprom (boot d)).eeprom = d' at hkeys hmode hdead hengage hdist hvalid ⊢
  obtain ⟨lkeys,lmode,ltuning,-,-⟩ := load_valid (s := boot d') hvalid
  have heeprom : (boot d').eeprom = d' := rfl
  rw [heeprom] at lkeys lmode ltuning
  refine ⟨fun i => ⟨?_,?_⟩,?_,?_⟩
  · rw [(lkeys i).1, (hkeys i).1]
    show heClampU8 heActuationDefault heActuationMin heActuationMax = heActuationDefault
    decide
  · rw [(lkeys i).2, (hkeys i).2]
    show heClampU8 heReleaseDefault heReleaseMin heReleaseMax = heReleaseDefault
    decide
  · rw [lmode, hmode, ofCode_code]
    rfl
  · rw [ltuning, hdead, hengage, hdist]
    show Tuning.mk (heClampU8 heDeadzoneDefault heDeadzoneMin heDeadzoneMax)
      (heClampU8 heEngageDefault heEngageMin heEngageMax)
      (heClampU8 heReleaseDistDefault heReleaseDistMin heReleaseDistMax) = _
    decide

theorem saved_save (h : Enabled fw s) : Saved fw ((heSaveToEeprom heDefaults).mem s) := by
  have hin : Inside (fun _ x => kbBytes x) (heSaveToEeprom heDefaults) :=
    inside_heSaveToEeprom fun _ hx => hx
  obtain ⟨hmagic,hstamp⟩ := enabled_iff.mp h
  refine ⟨enabled_iff.mpr ⟨?_,?_⟩,?_⟩
  · refine Keeps.mem (keeps_magicSet hin fun x hx => ?_) hmagic
    exact hx.elim (fun h => le_trans (by decide) h.1) fun h => le_trans (by decide) h.1
  · exact Keeps.mem (keeps_stamped hin fun x hx => kbBytes_lt hx) hstamp
  · rw [keyboardPostInitKb, kbDatablock_save]
    exact saved_default _

theorem keeps_saved : Keeps (Saved fw) (eepromUpdateWord eeconfigUserAddr (dwordBytes 0)) := by
  have hin : Inside (fun _ x => eeconfigUserAddr ≤ x ∧ x < eeconfigUserAddr+4)
      (eepromUpdateWord eeconfigUserAddr (dwordBytes 0)) :=
    inside_eepromUpdateWord fun _ hlo hhi => ⟨hlo,hhi⟩
  refine hin.keeps fun s t h hs => ?_
  have hsame : ∀ x, x < eeconfigUserAddr ∨ eeconfigUserAddr+4 ≤ x → t .eeprom x = s .eeprom x :=
    fun x hx => h .eeprom x (by omega)
  have hblock : kbDatablock (t .eeprom) = kbDatablock (s .eeprom) := by
    rw [kbDatablock, kbDatablock, hsame _ (.inl (by decide)), hsame _ (.inl (by decide)),
      hsame _ (.inl (by decide)), hsame _ (.inl (by decide)), KbDatablock.mk.injEq]
    exact ⟨rfl,funext fun i => hsame _ (.inr (Nat.le_add_right_of_le (by decide)))⟩
  obtain ⟨hmagic,hstamp⟩ := enabled_iff.mp hs.1
  refine ⟨enabled_iff.mpr ⟨?_,?_⟩,?_⟩
  · rw [← hmagic]
    exact ByteMem.read_congr fun x _ hhi => hsame x (.inl (lt_of_lt_of_le hhi (by decide)))
  · rw [← hstamp]
    exact ByteMem.read_congr fun x hlo _ => hsame x (.inr (le_trans (by decide) hlo))
  · rw [keyboardPostInitKb, hblock]
    exact hs.2

/-- The initialisation up to the last byte of the settings. -/
def initAndSave (L : Layout) (fw : Firmware) : Prog Unit := do
  eeconfigInitCore L fw
  heSaveToEeprom heDefaults

/-- Power may be lost after any access: the next boot is safe unless VIA's magic is complete and
the settings are not. -/
theorem first_boot_cut_iff (L : Layout) (fw : Firmware) (hL : viaEepromConfigEnd ≤ L.keymapAddr)
    (s : ByteMems Space) (hs : ¬ Enabled fw s) (l : List (ByteAccess Space))
    (hl : l <+: (eeconfigInit L fw heDefaults).log s) :
    BootsSafely L fw (l.foldl ByteAccess.apply s)
      ↔ ¬ (eeconfigInitCore L fw).log s <+: l ∨ (initAndSave L fw).log s <+: l := by
  have hsave : (initAndSave L fw).log s = (eeconfigInitCore L fw).log s
      ++ (heSaveToEeprom heDefaults).log ((eeconfigInitCore L fw).mem s) := log_bind s _ _
  have hcore : Formatted fw ((eeconfigInitCore L fw).mem s) := initCore_formatted hL s
  rw [eeconfigInit, log_bind, log_bind] at hl
  rw [hsave]
  by_cases hmagic : (eeconfigInitCore L fw).log s <+: l
  · obtain ⟨more,rfl⟩ := hmagic
    have hmore := (List.prefix_append_right_inj _).mp hl
    rw [or_iff_right (not_not.mpr (List.prefix_append _ more)), List.prefix_append_right_inj,
      List.foldl_append, ← mem_eq_log]
    by_cases hdone : (heSaveToEeprom heDefaults).log ((eeconfigInitCore L fw).mem s) <+: more
    · obtain ⟨rest,rfl⟩ := hdone
      rw [iff_true_right (List.prefix_append _ rest), List.foldl_append, ← mem_eq_log]
      refine Saved.safe (keeps_saved.always (saved_save (enabled_iff.mpr hcore.1)) rest ?_)
      exact (List.prefix_append_right_inj _).mp hmore
    · rw [iff_false_right hdone]
      rcases cut_append hmore with hcut | ⟨rest,-,rfl⟩
      · exact (untilLast_save hcore more hcut fun he => hdone (he ▸ List.prefix_rfl)).not_safe
      · exact absurd (List.prefix_append _ rest) hdone
  · rw [iff_true_right (.inl hmagic)]
    rcases cut_append hl with hcut | ⟨more,-,rfl⟩
    · exact .inl (boot_disabled
        (untilLast_initCore hL hs l hcut fun he => hmagic (he ▸ List.prefix_rfl)))
    · exact absurd (List.prefix_append _ more) hmagic

def blankMemories : ByteMems Space := fun _ => ByteMem.blank

theorem blank_disabled : ¬ Enabled emptyFirmware blankMemories := by
  intro h
  exact absurd (enabled_iff.mp h).1
    (show [(0 : UInt8),0] ≠ wordBytes eeconfigMagicNumber by decide)

theorem first_boot_cut_start : BootsSafely icebreakerLayout emptyFirmware blankMemories := by
  refine (first_boot_cut_iff icebreakerLayout emptyFirmware (le_refl viaEepromConfigEnd)
    blankMemories blank_disabled [] List.nil_prefix).mpr (.inl fun h => ?_)
  rw [eeconfigInitCore, log_bind] at h
  exact List.cons_ne_nil _ _ (List.append_eq_nil_iff.mp (List.prefix_nil.mp h)).1

/-- Power lost right after VIA's magic leaves an EEPROM that is valid and all zero. -/
theorem cut_after_magic : ¬ Enabled emptyFirmware blankMemories
    ∧ (eeconfigInitCore icebreakerLayout emptyFirmware).log blankMemories
      <+: (eeconfigInit icebreakerLayout emptyFirmware heDefaults).log blankMemories
    ∧ ¬ BootsSafely icebreakerLayout emptyFirmware
      (((eeconfigInitCore icebreakerLayout emptyFirmware).log blankMemories).foldl
        ByteAccess.apply blankMemories) := by
  refine ⟨blank_disabled,?_,?_⟩
  · rw [eeconfigInit, log_bind]
    exact List.prefix_append _ _
  · rw [← mem_eq_log]
    exact (initCore_formatted (le_refl viaEepromConfigEnd) blankMemories).not_safe

end QmkFirmware.Nvm
