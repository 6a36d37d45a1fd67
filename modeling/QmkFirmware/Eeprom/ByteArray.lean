import QmkFirmware.Eeprom.I2c

/-!
The driver is a byte array as long as each page of a block is in the bank of the block's address,
and has fewer than 256 bytes, and a block is read with a length of 16 bits.
-/

set_option autoImplicit false

namespace QmkFirmware.EepromI2c

section
variable (cfg : Config)

/-- The I2C address of a block at `addr` is the one for `loc`. -/
def Selects (addr loc : Nat) : Prop := bank cfg (i2cAddress cfg addr) = loc/cfg.bankSize

instance (addr loc : Nat) : Decidable (Selects cfg addr loc) :=
  inferInstanceAs (Decidable (_ = _))

/-- Of the block at `addr`, the pages from `targetAddr` on are written right. -/
def SafePages (addr targetAddr len : Nat) : Prop :=
  ∀ loc < targetAddr+len, targetAddr ≤ loc → loc = targetAddr ∨ loc % cfg.pageSize = 0 →
    Selects cfg addr loc ∧ min (cfg.pageSize-loc % cfg.pageSize) (targetAddr+len-loc) < 256

instance (addr targetAddr len : Nat) : Decidable (SafePages cfg addr targetAddr len) :=
  inferInstanceAs (Decidable (∀ _ < _, _))

def Safe : Call → Prop
  | .write buf addr => SafePages cfg addr addr buf.length
  | .read buf addr => buf.length < 2^16 ∧ (0 < buf.length → Selects cfg addr addr)
  | .erase => ∀ addr < cfg.byteCount, addr % cfg.pageSize = 0 →
    SafePages cfg addr addr cfg.pageSize

instance : ∀ c, Decidable (Safe cfg c)
  | .write _ _ => inferInstanceAs (Decidable (SafePages ..))
  | .read _ _ => inferInstanceAs (Decidable (_ ∧ _))
  | .erase => inferInstanceAs (Decidable (∀ _ < _, _))

def InRange : Call → Prop
  | .write buf addr => addr+buf.length ≤ cfg.byteCount
  | .read buf addr => addr+buf.length ≤ cfg.byteCount
  | .erase => True

instance : ∀ c, Decidable (InRange cfg c)
  | .write _ _ | .read _ _ => inferInstanceAs (Decidable (_ ≤ _))
  | .erase => .isTrue trivial

variable {cfg} {addr : Nat}

theorem location_of_selects {loc : Nat} (h : Selects cfg addr loc) :
    bank cfg (i2cAddress cfg addr)*cfg.bankSize+loc % 256^cfg.addressSize = loc := by
  have hsize : 256^cfg.addressSize = cfg.bankSize := by rw [Config.bankSize, Nat.pow_mul]
  rw [h, hsize, Nat.mul_comm, Nat.div_add_mod]

theorem transmit_page {target : Nat} (data packet : List UInt8) (c : Chip)
    (hsel : Selects cfg addr target) (hpage : target % cfg.pageSize+data.length ≤ cfg.pageSize)
    (hpacket : cfg.addressSize ≤ packet.length) :
    (i2cTransmit cfg (i2cAddress cfg addr)
      ((fillTargetAddress cfg.addressSize target packet).take cfg.addressSize ++ data) c).mem
      = c.mem.write target data := by
  have hlen : ((fillTargetAddress cfg.addressSize target packet).take cfg.addressSize).length
      = cfg.addressSize := by simp [hpacket]
  rw [i2cTransmit, List.take_left' hlen, List.drop_left' hlen, bigEndian_fillTargetAddress _ hpacket,
    location_of_selects hsel, storeInPage_eq hpage]

theorem writePages_eq (fuel target : Nat) (readBuf completePacket : List UInt8) (c : Chip)
    (hsafe : SafePages cfg addr target readBuf.length) (hfuel : readBuf.length+257 ≤ fuel)
    (hpacket : completePacket.length = cfg.addressSize+cfg.pageSize) :
    ∃ c', writePages cfg addr fuel target readBuf completePacket c = some c'
      ∧ c'.mem = c.mem.write target readBuf := by
  induction fuel generalizing target readBuf completePacket c with
  | zero => omega
  | succ fuel ih =>
    rw [writePages]
    by_cases hnil : readBuf = []
    · exact ⟨c, by simp [hnil], by simp [hnil]⟩
    have hpos := List.length_pos_of_ne_nil hnil
    rw [if_neg (Nat.ne_of_gt hpos)]
    have hoffset := Nat.mod_lt target cfg.page_pos
    obtain ⟨hsel, hsmall⟩ := hsafe target (by omega) (Nat.le_refl _) (.inl rfl)
    obtain ⟨n, hn⟩ : ∃ n, (if readBuf.length < cfg.pageSize-target % cfg.pageSize then
      readBuf.length else cfg.pageSize-target % cfg.pageSize) = n := ⟨_, rfl⟩
    have hle : n ≤ readBuf.length ∧ target % cfg.pageSize+n ≤ cfg.pageSize ∧ 0 < n ∧ n < 256 := by
      split_ifs at hn <;> omega
    obtain ⟨hlen, hpage, hn0, hlt⟩ := hle
    dsimp only
    rw [hn]
    obtain ⟨packet, hcopy, hpacket', htake⟩ := copyData_eq fuel readBuf
      (fillTargetAddress cfg.addressSize target completePacket)
      ((fillTargetAddress cfg.addressSize target completePacket).take cfg.addressSize) 0 hlt hlen
      (by simp; omega) (Nat.zero_le _) (by simp; omega) (List.append_nil _).symm
    have hmem := transmit_page (readBuf.take n) completePacket c hsel (by simp; omega) (by omega)
    obtain ⟨c', hc', hmem'⟩ := ih (target+n) (readBuf.drop n) packet
      (i2cTransmit cfg (i2cAddress cfg addr) (packet.take (cfg.addressSize+n)) c)
      (fun loc hloc hge hstart => by
        rw [List.length_drop] at hloc ⊢
        have hzero : loc % cfg.pageSize = 0 := by
          rcases hstart with rfl | hzero
          · have hend : target % cfg.pageSize+n = cfg.pageSize := by
              split_ifs at hn <;> omega
            rw [← Nat.mod_add_mod, hend, Nat.mod_self]
          · exact hzero
        obtain ⟨hsel', hsmall'⟩ := hsafe loc (by omega) (by omega) (.inr hzero)
        exact ⟨hsel', by omega⟩)
      (by rw [List.length_drop]; omega) (by rw [hpacket']; simpa using hpacket)
    refine ⟨c', by rw [hcopy]; exact hc', ?_⟩
    have hsplit := ByteMem.write_append c.mem target (readBuf.take n) (readBuf.drop n)
    rw [List.take_append_drop, List.length_take_of_le hlen] at hsplit
    rw [hmem', htake, hmem, hsplit]

theorem transmit_address (i2c : UInt8) (c : Chip) :
    i2cTransmit cfg i2c
      (fillTargetAddress cfg.addressSize addr (List.replicate cfg.addressSize 0)) c
      = ⟨c.mem,addr % 256^cfg.addressSize⟩ := by
  have hlen : (fillTargetAddress cfg.addressSize addr
      (List.replicate cfg.addressSize 0)).length ≤ cfg.addressSize := by simp
  rw [i2cTransmit, List.drop_eq_nil_of_le hlen, bigEndian_fillTargetAddress _ (by simp),
    storeInPage]

theorem readBlock_eq {buf : List UInt8} (hsafe : Safe cfg (.read buf addr)) (c : Chip) :
    eepromReadBlock cfg buf addr c
      = (c.mem.read addr buf.length,⟨c.mem,addr % 256^cfg.addressSize⟩) := by
  obtain ⟨hlen, hsel⟩ := hsafe
  have hreceived : (UInt16.ofNat buf.length).toNat = buf.length := Nat.mod_eq_of_lt hlen
  simp only [eepromReadBlock, transmit_address, i2cReceive, hreceived, List.drop_length,
    List.append_nil]
  by_cases hpos : 0 < buf.length
  · rw [location_of_selects (hsel hpos)]
  · rw [Nat.eq_zero_of_not_pos hpos]
    rfl

theorem readBlock_unread {buf : List UInt8} (h : buf.length % 2^16 = 0) (c : Chip) :
    (eepromReadBlock cfg buf addr c).1 = buf := by
  have hreceived : (UInt16.ofNat buf.length).toNat = 0 := h
  simp only [eepromReadBlock, i2cReceive, hreceived, ByteMem.read_zero, List.nil_append,
    List.drop_zero]

theorem lt_of_selects (h : Selects cfg addr addr) : addr < 2^23 := by
  have hsize : cfg.bankSize ≤ 2^16 :=
    Nat.pow_le_pow_right (by decide) (by have := cfg.address; omega)
  have hbank : addr/cfg.bankSize < 2^7 := by
    rw [← h]
    exact Nat.lt_of_lt_of_le (Nat.mod_lt _ (Nat.two_pow_pos _))
      (Nat.pow_le_pow_right (by decide) (by have := cfg.bank_lt; omega))
  calc addr < 2^7*cfg.bankSize := (Nat.div_lt_iff_lt_mul (Nat.two_pow_pos _)).mp hbank
    _ ≤ 2^7*2^16 := Nat.mul_le_mul_left _ hsize
    _ = 2^23 := by decide

theorem erasePages_eq (hsafe : Safe cfg .erase) (fuel addr : Nat) (c : Chip)
    (haddr : addr % cfg.pageSize = 0) (hfuel : cfg.byteCount-addr+cfg.pageSize+258 ≤ fuel) :
    ∃ c', erasePages cfg fuel addr c = some c'
      ∧ ∀ x < cfg.byteCount, c'.mem x = if addr ≤ x then 0 else c.mem x := by
  induction fuel generalizing addr c with
  | zero => omega
  | succ fuel ih =>
    rw [erasePages]
    by_cases hlt : addr < cfg.byteCount
    · have hpage := cfg.page_pos
      have hpages := hsafe addr hlt haddr
      obtain ⟨hsel, -⟩ := hpages addr (by omega) (Nat.le_refl _) (.inl rfl)
      have hbound := lt_of_selects hsel
      have hle := cfg.page_le
      have hnext : (addr+cfg.pageSize) % 2^32 = addr+cfg.pageSize := Nat.mod_eq_of_lt (by omega)
      obtain ⟨c₁, hwrite, hmem₁⟩ := writePages_eq fuel addr (List.replicate cfg.pageSize 0)
        (List.replicate (cfg.addressSize+cfg.pageSize) 0) c (by simpa using hpages)
        (by simp; omega) (by simp)
      obtain ⟨c', herase, hmem⟩ := ih (addr+cfg.pageSize) c₁ (by simpa using haddr) (by omega)
      refine ⟨c', ?_, fun x hx => ?_⟩
      · rw [if_pos hlt, eepromWriteBlock, hwrite, hnext]
        exact herase
      · rw [hmem x hx, hmem₁, ByteMem.write_apply]
        by_cases hbefore : addr ≤ x
        · by_cases hafter : addr+cfg.pageSize ≤ x
          · rw [if_pos hafter, if_pos hbefore]
          · have hin : x-addr < cfg.pageSize := by omega
            simp [hafter, hbefore, List.getD, hin]
        · simp [hbefore]
          omega
    · exact ⟨c, by rw [if_neg hlt], fun x hx => (if_neg (by omega)).symm⟩

/-- On the locations of the EEPROM. -/
def Agrees (cfg : Config) (m m' : ByteMem) : Prop := ∀ x < cfg.byteCount, m x = m' x

theorem read_agrees {m m' : ByteMem} {len : Nat} (h : Agrees cfg m m')
    (hrange : addr+len ≤ cfg.byteCount) : m.read addr len = m'.read addr len :=
  ByteMem.read_congr fun x _ hx => h x (by omega)

theorem write_agrees {m m' : ByteMem} (h : Agrees cfg m m') (buf : List UInt8) :
    Agrees cfg (m.write addr buf) (m'.write addr buf) := by
  intro x hx
  rw [ByteMem.write_apply, ByteMem.write_apply, h x hx]

theorem call_eq {a : Call} (hrange : InRange cfg a) (hsafe : Safe cfg a) :
    ∃ N, ∀ fuel ≥ N, ∀ (c : Chip) (m : ByteMem), Agrees cfg c.mem m →
      ∃ c', call cfg fuel c a = some ((arrayCall cfg m a).1,c')
        ∧ Agrees cfg c'.mem (arrayCall cfg m a).2 := by
  cases a with
  | write buf addr =>
    refine ⟨buf.length+257, fun fuel hfuel c m h => ?_⟩
    obtain ⟨c', hwrite, hmem⟩ := writePages_eq fuel addr buf
      (List.replicate (cfg.addressSize+cfg.pageSize) 0) c hsafe hfuel (by simp)
    refine ⟨c', by rw [call, eepromWriteBlock, hwrite]; rfl, ?_⟩
    rw [hmem]
    exact write_agrees h buf
  | read buf addr =>
    refine ⟨0, fun fuel _ c m h => ⟨⟨c.mem,addr % 256^cfg.addressSize⟩, ?_, h⟩⟩
    rw [call, readBlock_eq hsafe, arrayCall, ← read_agrees h hrange]
  | erase =>
    refine ⟨cfg.byteCount+cfg.pageSize+258, fun fuel hfuel c m h => ?_⟩
    obtain ⟨c', herase, hmem⟩ := erasePages_eq hsafe fuel 0 c (Nat.zero_mod _) hfuel
    refine ⟨c', by rw [call, eepromDriverErase, herase]; rfl, fun x hx => ?_⟩
    simp [hmem x hx, arrayCall, hx]

theorem run_eq {calls : List Call} (h : ∀ a ∈ calls, InRange cfg a ∧ Safe cfg a) :
    ∃ N, ∀ fuel ≥ N, ∀ (c : Chip) (m : ByteMem), Agrees cfg c.mem m →
      ∃ c', run cfg fuel calls c = some ((runArray cfg calls m).1,c')
        ∧ Agrees cfg c'.mem (runArray cfg calls m).2 := by
  induction calls with
  | nil => exact ⟨0, fun _ _ c _ hm => ⟨c, rfl, hm⟩⟩
  | cons a calls ih =>
    obtain ⟨ha, hcalls⟩ := List.forall_mem_cons.mp h
    obtain ⟨N₁, hcall⟩ := call_eq ha.1 ha.2
    obtain ⟨N₂, hrun⟩ := ih hcalls
    refine ⟨max N₁ N₂, fun fuel hfuel c m hm => ?_⟩
    obtain ⟨c₁, hc₁, hm₁⟩ := hcall fuel (by omega) c m hm
    obtain ⟨c', hc', hm'⟩ := hrun fuel (by omega) c₁ _ hm₁
    refine ⟨c', ?_, hm'⟩
    rw [run, hc₁, Option.bind_eq_bind, Option.bind_some]
    dsimp only
    rw [hc']
    rfl

/-- Every call ends, and the reads are those of a byte array. -/
theorem byte_array (calls : List Call) (c : Chip)
    (h : ∀ a ∈ calls, InRange cfg a ∧ Safe cfg a) :
    ∃ N, ∀ fuel ≥ N, ∃ c', run cfg fuel calls c = some ((runArray cfg calls c.mem).1,c')
      ∧ Agrees cfg c'.mem (runArray cfg calls c.mem).2 := by
  obtain ⟨N, hrun⟩ := run_eq h
  exact ⟨N, fun fuel hfuel => hrun fuel hfuel c c.mem fun _ _ => rfl⟩

theorem writeBlock_never {buf : List UInt8} (hpage : cfg.pageSize = 256)
    (haddr : addr % cfg.pageSize = 0) (hbuf : 256 ≤ buf.length) (fuel : Nat) (c : Chip) :
    eepromWriteBlock cfg fuel buf addr c = none := by
  cases fuel with
  | zero => rfl
  | succ fuel =>
    have hlength : ¬buf.length < 256 := by omega
    rw [eepromWriteBlock, writePages, if_neg (by omega)]
    dsimp only
    rw [haddr, hpage, Nat.sub_zero, if_neg hlength, copyData_never (Nat.le_refl _)]
    rfl

end

theorem smallChip_bank : 0 < 8 := by decide

def smallChip : Config := ⟨16,4,1,0xA0,0,Nat.succ_pos 3,by decide,.inl rfl,smallChip_bank,by decide⟩

def smallRun : List Call := [.write [1,2,3] 2,.read [0,0,0,0,0] 1,.erase,.read [9,9,9] 0]

theorem byte_array_small : ∃ N, ∀ fuel ≥ N, ∃ c', run smallChip fuel smallRun ⟨.blank,0⟩
      = some ((runArray smallChip smallRun .blank).1,c')
    ∧ Agrees smallChip c'.mem (runArray smallChip smallRun .blank).2 :=
  byte_array smallRun ⟨.blank,0⟩ (by decide +kernel)

/-- Four banks of 64 KiB, in two location bits of the I2C address. -/
def fourBanks (pageSize : Nat) (hpos : 0 < pageSize) (hle : pageSize ≤ 256) : Config :=
  ⟨262144,pageSize,2,0xA0,2,hpos,hle,.inr rfl,by decide,by decide⟩

def bankRun : List Call := [.write [1,2] 65535,.read [9,9] 65535]

/-- With pages of 256 bytes a full one is never written; a block across two banks goes to one; a
read of 65536 bytes leaves the buffer as it was. -/
theorem not_byte_array :
    (∀ fuel c, run (fourBanks 256 (by decide) (by decide)) fuel
        [.write (List.replicate 256 1) 0] c = none)
      ∧ (run (fourBanks 128 (by decide) (by decide)) 300 bankRun ⟨.blank,0⟩).map Prod.fst
        = some [[],[1,0]]
      ∧ (runArray (fourBanks 128 (by decide) (by decide)) bankRun .blank).1 = [[],[1,2]]
      ∧ (∀ fuel c, (run (fourBanks 128 (by decide) (by decide)) fuel
        [.read (List.replicate 65536 9) 0] c).map Prod.fst = some [List.replicate 65536 9])
      ∧ (runArray (fourBanks 128 (by decide) (by decide)) [.read (List.replicate 65536 9) 0]
        .blank).1 = [List.replicate 65536 0] := by
  refine ⟨fun fuel c => ?_, by decide +kernel, by decide +kernel, fun fuel c => ?_, ?_⟩
  · rw [run, call, writeBlock_never rfl rfl (Nat.le_of_eq List.length_replicate.symm)]
    rfl
  · have hread := @readBlock_unread (fourBanks 128 (by decide) (by decide)) 0
      (List.replicate 65536 9) (by rw [List.length_replicate]; decide) c
    generalize List.replicate 65536 9 = buf at hread ⊢
    exact congrArg (fun bytes => some [bytes]) hread
  · rw [runArray, arrayCall, List.length_replicate, ByteMem.read_blank]
    rfl

end QmkFirmware.EepromI2c
