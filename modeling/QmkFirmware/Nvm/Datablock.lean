import QmkFirmware.Nvm.Regions
import QmkFirmware.WearLeveling.Durability
import QmkFirmware.WearLeveling.Range

/-!
The data blocks of the keyboard and the user in the EEPROM, read and updated by offset and length
in 32 bits.
-/

set_option autoImplicit false

namespace QmkFirmware.Nvm

structure Datablock where
  versionAddr : Nat
  version : UInt32
  address : Nat
  size : Nat
  apart : versionAddr+4 ≤ address
  fits : address+size < 2^32

def Datablock.isValid (b : Datablock) : Prog Bool := do
  let b₀ ← eepromReadByte b.versionAddr
  let b₁ ← eepromReadByte (b.versionAddr+1)
  let b₂ ← eepromReadByte (b.versionAddr+2)
  let b₃ ← eepromReadByte (b.versionAddr+3)
  pure (joinDword b₀ b₁ b₂ b₃ == b.version)

def Datablock.eeStart (b : Datablock) (offset : UInt32) : UInt32 := UInt32.ofNat b.address+offset

def Datablock.eeEnd (b : Datablock) (offset length : UInt32) : UInt32 :=
  UInt32.ofNat b.address
    +(if UInt32.ofNat b.size < offset+length then UInt32.ofNat b.size else offset+length)

/-- The bytes that `data` gets, and the count that is returned. -/
def readDatablock (b : Datablock) (offset length : UInt32) : Prog (List UInt8 × UInt32) := do
  if ← b.isValid then
    let n := b.eeEnd offset length-b.eeStart offset
    let bytes ← eepromReadBytes (b.eeStart offset).toNat n.toNat
    pure (bytes,n)
  else pure (List.replicate length.toNat 0,length)

/-- `data` is the memory at the pointer. -/
def updateDatablock (b : Datablock) (data : ByteMem) (offset length : UInt32) : Prog UInt32 := do
  eepromUpdateWord b.versionAddr (dwordBytes b.version)
  let n := b.eeEnd offset length-b.eeStart offset
  eepromUpdateBlock (b.eeStart offset).toNat (data.read 0 n.toNat)
  pure n

/-- The build's sizes and versions. -/
structure Datablocks where
  kbDataSize : Nat
  userDataSize : Nat
  kbDataVersion : UInt32
  userDataVersion : UInt32
  fits : eeconfigKbDatablockAddr+kbDataSize+userDataSize < 2^32

theorem kb_apart : eeconfigKeyboardAddr+4 ≤ eeconfigKbDatablockAddr := by decide

theorem user_apart : eeconfigUserAddr+4 ≤ eeconfigKbDatablockAddr := by decide

def Datablocks.kb (c : Datablocks) : Datablock where
  versionAddr := eeconfigKeyboardAddr
  version := c.kbDataVersion
  address := eeconfigKbDatablockAddr
  size := c.kbDataSize
  apart := kb_apart
  fits := Nat.lt_of_le_of_lt (Nat.le_add_right ..) c.fits

def Datablocks.user (c : Datablocks) : Datablock where
  versionAddr := eeconfigUserAddr
  version := c.userDataVersion
  address := eeconfigKbDatablockAddr+c.kbDataSize
  size := c.userDataSize
  apart := Nat.le_trans user_apart (Nat.le_add_right ..)
  fits := c.fits

def nvmEeconfigReadKbDatablock (c : Datablocks) := readDatablock c.kb
def nvmEeconfigUpdateKbDatablock (c : Datablocks) := updateDatablock c.kb
def nvmEeconfigReadUserDatablock (c : Datablocks) := readDatablock c.user
def nvmEeconfigUpdateUserDatablock (c : Datablocks) := updateDatablock c.user

/-- The bytes of the block in range. -/
def Datablock.count (b : Datablock) (offset length : UInt32) : Nat :=
  min b.size (offset.toNat+length.toNat)-offset.toNat

/-- The offset is inside the block, and the end is one of 32 bits. -/
def Datablock.InRange (b : Datablock) (offset length : UInt32) : Prop :=
  offset.toNat ≤ b.size ∧ offset.toNat+length.toNat < 2^32

theorem Datablock.length_iff (b : Datablock) (offset length : UInt32) :
    (b.eeEnd offset length-b.eeStart offset).toNat = b.count offset length
      ↔ b.InRange offset length := by
  have hfits := b.fits
  have ho := offset.toNat_lt
  have hl := length.toNat_lt
  have hsize : (UInt32.ofNat b.size).toNat = b.size :=
    UInt32.toNat_ofNat_of_lt' (show b.size < 2^32 by omega)
  -- the address is in both pointers
  have hsame : ∀ a e : UInt32, a+e-(a+offset) = e-offset := fun a e => by
    rw [UInt32.add_comm a e, UInt32.add_comm a offset, UInt32.sub_eq_add_neg,
      UInt32.sub_eq_add_neg, UInt32.neg_add, UInt32.sub_eq_add_neg, UInt32.add_assoc,
      UInt32.add_comm (-offset), ← UInt32.add_assoc a, UInt32.add_right_neg, UInt32.zero_add]
  unfold Datablock.eeEnd Datablock.eeStart Datablock.count Datablock.InRange
  rw [hsame]
  split_ifs with h
  · rw [UInt32.lt_iff_toNat_lt, UInt32.toNat_add, hsize] at h
    rw [UInt32.toNat_sub, hsize]
    omega
  · rw [UInt32.lt_iff_toNat_lt, UInt32.toNat_add, hsize] at h
    rw [UInt32.add_comm, UInt32.add_sub_cancel]
    omega

section Touched

variable {α β : Type} {s : ByteMems Space}

def Touched (p : Prog α) (s : ByteMems Space) (x : Nat) : Prop :=
  ∃ c ∈ p.log s, c.touches .eeprom x

theorem touched_pure (v : α) (x : Nat) : ¬ Touched (pure v) s x := fun ⟨_, hc, _⟩ => nomatch hc

theorem touched_bind (p : Prog α) (f : α → Prog β) (x : Nat) :
    Touched (p >>= f) s x ↔ Touched p s x ∨ Touched (f (p.val s)) (p.mem s) x := by
  unfold Touched
  rw [ByteProg.log_bind]
  simp only [List.mem_append, or_and_right, exists_or]

theorem touched_of_inside {R : Space → Nat → Prop} {p : Prog α} (h : ByteProg.Inside R p) {x : Nat}
    (hx : Touched p s x) : R .eeprom x := by
  obtain ⟨c, hc, htouch⟩ := hx
  exact h s c hc .eeprom x htouch

theorem touched_eepromReadByte (a x : Nat) : Touched (eepromReadByte a) s x ↔ x = a := by
  unfold Touched eepromReadByte
  rw [ByteProg.log_readByte]
  simp [ByteAccess.touches, eq_comm]

theorem touched_eepromReadBytes (a n x : Nat) :
    Touched (eepromReadBytes a n) s x ↔ a ≤ x ∧ x < a+n := by
  induction n generalizing a with
  | zero => exact iff_of_false (touched_pure _ x) (by omega)
  | succ n ih =>
    unfold eepromReadBytes
    rw [touched_bind, touched_eepromReadByte, touched_bind, mem_eepromReadByte, ih]
    have hrest : ∀ (v : List UInt8) t, ¬ Touched (pure v : Prog (List UInt8)) t x :=
      fun v _ => touched_pure v x
    simp only [hrest, or_false]
    omega

theorem touched_eepromUpdateBlock (a x : Nat) (bs : List UInt8) :
    Touched (eepromUpdateBlock a bs) s x ↔ a ≤ x ∧ x < a+bs.length := by
  constructor
  · exact touched_of_inside (R := fun _ x => a ≤ x ∧ x < a+bs.length)
      (inside_eepromUpdateBlock fun _ hlo hhi => ⟨hlo,hhi⟩)
  · intro h
    rw [eepromUpdateBlock, touched_bind]
    exact .inl ((touched_eepromReadBytes ..).mpr h)

theorem touched_eepromUpdateWord (a x : Nat) (bs : List UInt8) :
    Touched (eepromUpdateWord a bs) s x ↔ a ≤ x ∧ x < a+bs.length := by
  constructor
  · exact touched_of_inside (R := fun _ x => a ≤ x ∧ x < a+bs.length)
      (inside_eepromUpdateWord fun _ hlo hhi => ⟨hlo,hhi⟩)
  · intro h
    rw [eepromUpdateWord, touched_bind]
    exact .inl ((touched_eepromReadBytes ..).mpr h)

end Touched

theorem Datablock.eeStart_toNat {b : Datablock} {offset length : UInt32}
    (h : b.InRange offset length) : (b.eeStart offset).toNat = b.address+offset.toNat := by
  have hfits := b.fits
  have hoffset := h.1
  have haddress : (UInt32.ofNat b.address).toNat = b.address :=
    UInt32.toNat_ofNat_of_lt' (show b.address < 2^32 by omega)
  rw [Datablock.eeStart, UInt32.toNat_add, haddress]
  omega

def Datablock.header (b : Datablock) (x : Nat) : Prop := b.versionAddr ≤ x ∧ x < b.versionAddr+4

def Datablock.Valid (b : Datablock) (e : ByteMem) : Prop :=
  joinDword (e b.versionAddr) (e (b.versionAddr+1)) (e (b.versionAddr+2)) (e (b.versionAddr+3))
    = b.version

def Datablock.TouchesRange {α : Type} (b : Datablock) (p : Prog α) (offset length : UInt32)
    (s : ByteMems Space) : Prop :=
  ∀ x, ¬ b.header x → (Touched p s x ↔ b.address+offset.toNat ≤ x
    ∧ x < b.address+offset.toNat+b.count offset length)

/-- The program reads the bytes of the block in range and returns their count. -/
structure Datablock.Reads (b : Datablock) (p : Prog (List UInt8 × UInt32)) (offset length : UInt32)
    (s : ByteMems Space) : Prop where
  count : (p.val s).2.toNat = b.count offset length
  bytes : (p.val s).1 = (s .eeprom).read (b.address+offset.toNat) (b.count offset length)
  kept : p.mem s = s
  touches : b.TouchesRange p offset length s

/-- The program stores the bytes in range, and the version, and returns their count. -/
structure Datablock.Updates (b : Datablock) (p : Prog UInt32) (data : ByteMem)
    (offset length : UInt32) (s : ByteMems Space) : Prop where
  count : (p.val s).toNat = b.count offset length
  bytes : p.mem s .eeprom = ((s .eeprom).write b.versionAddr (dwordBytes b.version)).write
    (b.address+offset.toNat) (data.read 0 (b.count offset length))
  touches : b.TouchesRange p offset length s

section Access

variable {b : Datablock} {offset length : UInt32} {s : ByteMems Space}

theorem mem_isValid : b.isValid.mem s = s := rfl

theorem val_isValid : b.isValid.val s = true ↔ b.Valid (s .eeprom) := beq_iff_eq

theorem touched_isValid {x : Nat} : Touched b.isValid s x → b.header x :=
  touched_of_inside (R := fun _ x => b.header x)
    (ByteProg.within_bind (inside_eepromReadByte ⟨by omega,by omega⟩) fun _ =>
      ByteProg.within_bind (inside_eepromReadByte ⟨by omega,by omega⟩) fun _ =>
        ByteProg.within_bind (inside_eepromReadByte ⟨by omega,by omega⟩) fun _ =>
          ByteProg.within_bind (inside_eepromReadByte ⟨by omega,by omega⟩) fun _ =>
            ByteProg.within_pure _)

theorem touchesRange_bind {α β : Type} {p : Prog α} {f : α → Prog β}
    (hp : ∀ x, Touched p s x → b.header x)
    (hf : ∀ x, Touched (f (p.val s)) (p.mem s) x ↔ b.address+offset.toNat ≤ x
      ∧ x < b.address+offset.toNat+b.count offset length) :
    b.TouchesRange (p >>= f) offset length s := by
  intro x hx
  rw [touched_bind, ← hf]
  exact or_iff_right fun h => hx (hp x h)

theorem readDatablock_iff : b.Reads (readDatablock b offset length) offset length s
    ↔ (b.Valid (s .eeprom) ∧ b.InRange offset length)
      ∨ (¬ b.Valid (s .eeprom) ∧ length = 0) := by
  by_cases hvalid : b.Valid (s .eeprom)
  · have hv : b.isValid.val s = true := val_isValid.mpr hvalid
    have hval : (readDatablock b offset length).val s
        = ((s .eeprom).read (b.eeStart offset).toNat
            (b.eeEnd offset length-b.eeStart offset).toNat,
          b.eeEnd offset length-b.eeStart offset) := by
      rw [readDatablock, ByteProg.val_bind, hv, if_pos rfl, mem_isValid, ByteProg.val_bind,
        val_eepromReadBytes, ByteProg.val_pure]
    constructor
    · intro h
      have hcount := h.count
      rw [hval] at hcount
      exact .inl ⟨hvalid,(b.length_iff offset length).mp hcount⟩
    · rintro (⟨-, hin⟩ | ⟨hnot, -⟩)
      · have hcount := (b.length_iff offset length).mpr hin
        have hstart := Datablock.eeStart_toNat hin
        refine ⟨by rw [hval]; exact hcount,by rw [hval, hstart, hcount],?_,?_⟩
        · rw [readDatablock, ByteProg.mem_bind, hv, if_pos rfl, mem_isValid, ByteProg.mem_bind,
            mem_eepromReadBytes, ByteProg.mem_pure]
        · refine touchesRange_bind (fun _ => touched_isValid) fun x => ?_
          rw [hv, if_pos rfl, touched_bind, touched_eepromReadBytes, hstart, hcount]
          exact or_iff_left (touched_pure _ x)
      · exact absurd hvalid hnot
  · have hv : ¬ b.isValid.val s = true := fun h => hvalid (val_isValid.mp h)
    have hval : (readDatablock b offset length).val s
        = (List.replicate length.toNat 0,length) := by
      rw [readDatablock, ByteProg.val_bind, if_neg hv, ByteProg.val_pure]
    constructor
    · intro h
      refine .inr ⟨hvalid,UInt32.toNat_inj.mp (Nat.eq_zero_of_not_pos fun hpos => ?_)⟩
      have hcount : length.toNat = b.count offset length := by
        have := h.count
        rwa [hval] at this
      -- the first byte in range would have to be touched
      have happart := b.apart
      have hfirst : ¬ b.header (b.address+offset.toNat) := fun hh => by
        have := hh.2
        omega
      have htouch := (h.touches _ hfirst).mpr ⟨Nat.le_refl _,by rw [← hcount]; omega⟩
      rw [readDatablock, touched_bind, if_neg hv] at htouch
      rcases htouch with htouch | htouch
      · exact hfirst (touched_isValid htouch)
      · exact touched_pure _ _ htouch
    · rintro (⟨hyes, -⟩ | ⟨-, rfl⟩)
      · exact absurd hyes hvalid
      · have hcount : b.count offset 0 = 0 := by
          unfold Datablock.count
          rw [UInt32.toNat_zero]
          omega
        refine ⟨by rw [hval, hcount]; rfl,by rw [hval, hcount]; rfl,?_,?_⟩
        · rw [readDatablock, ByteProg.mem_bind, if_neg hv, ByteProg.mem_pure, mem_isValid]
        · refine touchesRange_bind (fun _ => touched_isValid) fun x => ?_
          rw [if_neg hv, hcount]
          exact iff_of_false (touched_pure _ x) (by omega)

theorem updateDatablock_iff {data : ByteMem} :
    b.Updates (updateDatablock b data offset length) data offset length s
      ↔ b.InRange offset length := by
  have hval : (updateDatablock b data offset length).val s
      = b.eeEnd offset length-b.eeStart offset := by
    rw [updateDatablock, ByteProg.val_bind, ByteProg.val_bind, ByteProg.val_pure]
  constructor
  · intro h
    have hcount := h.count
    rw [hval] at hcount
    exact (b.length_iff offset length).mp hcount
  · intro hin
    have hcount := (b.length_iff offset length).mpr hin
    have hstart := Datablock.eeStart_toNat hin
    refine ⟨by rw [hval]; exact hcount,?_,?_⟩
    · rw [updateDatablock, ByteProg.mem_bind, ByteProg.mem_bind, ByteProg.mem_pure,
        eepromUpdateBlock_eeprom, eepromUpdateWord_eeprom, hstart, hcount]
    · refine touchesRange_bind (fun x => (touched_eepromUpdateWord ..).mp) fun x => ?_
      rw [touched_bind, touched_eepromUpdateBlock, hstart, ByteMem.length_read, hcount]
      exact or_iff_left (touched_pure _ x)

end Access

/-- Each range check holds exactly where its sum, or its difference, does not wrap around. -/
theorem range_checks (d : WearLeveling.Driver) (cfg : WearLeveling.Config) (s : WearLeveling.State)
    (c : Datablocks) (m : ByteMems Space) (offset length : UInt32) (data : ByteMem) :
    (WearLeveling.ReadRefuses cfg offset length s ↔ cfg.SumSeen offset.toNat length.toNat)
      ∧ (WearLeveling.WriteRefuses d cfg offset length data s
        ↔ cfg.SumSeen offset.toNat length.toNat)
      ∧ (c.kb.Reads (nvmEeconfigReadKbDatablock c offset length) offset length m
        ↔ (c.kb.Valid (m .eeprom) ∧ c.kb.InRange offset length)
          ∨ (¬ c.kb.Valid (m .eeprom) ∧ length = 0))
      ∧ (c.kb.Updates (nvmEeconfigUpdateKbDatablock c data offset length) data offset length m
        ↔ c.kb.InRange offset length)
      ∧ (c.user.Reads (nvmEeconfigReadUserDatablock c offset length) offset length m
        ↔ (c.user.Valid (m .eeprom) ∧ c.user.InRange offset length)
          ∨ (¬ c.user.Valid (m .eeprom) ∧ length = 0))
      ∧ (c.user.Updates (nvmEeconfigUpdateUserDatablock c data offset length) data offset length m
        ↔ c.user.InRange offset length) :=
  ⟨WearLeveling.readRefuses_iff cfg offset length s,
    WearLeveling.writeRefuses_iff d cfg offset length data s,
    readDatablock_iff,updateDatablock_iff,readDatablock_iff,updateDatablock_iff⟩

def keyboardOnly : Datablocks :=
  ⟨He.eeconfigKbDataSize,0,He.eeconfigKbDataVersion,0,by decide⟩

/-- Two bytes at the last address pass the check, and offset 143 of 142 bytes gives a count near
`2^32`. -/
theorem checks_wrap :
    ¬ WearLeveling.ReadRefuses WearLeveling.smallConfig 0xFFFFFFFF 2
        (WearLeveling.boot .faultFree WearLeveling.smallConfig)
      ∧ ¬ WearLeveling.WriteRefuses .faultFree WearLeveling.smallConfig 0xFFFFFFFF 2 ByteMem.blank
        (WearLeveling.boot .faultFree WearLeveling.smallConfig)
      ∧ ¬ keyboardOnly.kb.Updates (nvmEeconfigUpdateKbDatablock keyboardOnly ByteMem.blank
        143 1) ByteMem.blank
        143 1 (memories ByteMem.blank ByteMem.blank)
      ∧ (nvmEeconfigUpdateKbDatablock keyboardOnly ByteMem.blank
        143 1).val (memories ByteMem.blank ByteMem.blank)
        = 0xFFFFFFFF := by
  refine ⟨?_,?_,?_,?_⟩
  · rw [WearLeveling.readRefuses_iff]
    unfold WearLeveling.Config.SumSeen
    decide
  · rw [WearLeveling.writeRefuses_iff]
    unfold WearLeveling.Config.SumSeen
    decide
  · rw [nvmEeconfigUpdateKbDatablock, updateDatablock_iff]
    unfold Datablock.InRange
    decide
  · rw [nvmEeconfigUpdateKbDatablock, updateDatablock, ByteProg.val_bind, ByteProg.val_bind,
      ByteProg.val_pure]
    decide

end QmkFirmware.Nvm
