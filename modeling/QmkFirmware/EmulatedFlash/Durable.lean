import QmkFirmware.EmulatedFlash.Write
import QmkFirmware.Lib.Along

/-!
The EEPROM as an array of bytes that outlives the power: over every run the reads give what was
written last, and `EEPROM_Init` finds the same contents and the same end of the log.
-/

set_option autoImplicit false

namespace QmkFirmware.EmulatedFlash

variable (cfg : Config)

def putBytes (c : ByteMem) (addr : Nat) (buf : List UInt8) : ByteMem := fun x =>
  if x < cfg.densityBytes then c.write addr buf x else c x

inductive Action where
  | erase
  | init
  | write (w : Write)
  | writeBlock (src : Nat) (addr : UInt16) (buf : List UInt8)
  deriving DecidableEq, Repr

def step (s : State) : Action → State
  | .erase => eepromErase cfg s
  | .init => eepromInit cfg s
  | .write w => w.run cfg s
  | .writeBlock src addr buf => eepromWriteBlock cfg src addr.toNat buf s

/-- What an action does to the contents. -/
def contents (c : ByteMem) : Action → ByteMem
  | .erase => fun _ => 0
  | .init => c
  | .write w => w.put cfg c
  | .writeBlock _ addr buf => putBytes cfg c addr.toNat buf

/-- The bytes that an action writes. -/
def Action.Writes (x : Nat) : Action → Prop
  | .erase | .init => False
  | .write (.byte address _) => x = address.toNat
  | .write (.word address _) => x = address.toNat ∨ x = address.toNat+1
  | .writeBlock _ addr buf => addr.toNat ≤ x ∧ x < addr.toNat+buf.length

/-- Every call is orderly, and a block does not run past the last address of 16 bits. -/
def Allowed (s : State) : Action → Prop
  | .erase | .init => True
  | .write w => Orderly cfg s w
  | .writeBlock src addr buf => addr.toNat+buf.length ≤ 65536
    ∧ Along (Write.run cfg) (Orderly cfg) s (blockWrites src addr.toNat buf)

variable {cfg} {c : ByteMem} {s : State}

theorem putBytes_nil (c : ByteMem) (addr : Nat) : putBytes cfg c addr [] = c := by
  funext x
  simp [putBytes, ByteMem.write_apply]

theorem putBytes_before {addr x : Nat} (buf : List UInt8) (hx : x < addr) :
    putBytes cfg c addr buf x = c x := by
  rw [putBytes, ByteMem.write_apply, if_neg (Nat.not_le.mpr hx), ite_self]

theorem putBytes_cons (c : ByteMem) (addr : Nat) (b : UInt8) (buf : List UInt8) :
    putBytes cfg c addr (b :: buf) = putBytes cfg (putByte cfg c addr b) (addr+1) buf := by
  funext x
  rw [putBytes, putBytes, ByteMem.write_apply, ByteMem.write_apply, putByte_apply]
  by_cases hx : x < cfg.densityBytes
  · rw [if_pos hx, if_pos hx]
    rcases Nat.lt_trichotomy x addr with hlt | rfl | hgt
    · rw [if_neg (by omega), if_neg (by omega), if_neg (by omega)]
    · rw [if_pos le_rfl, if_neg (by omega), if_pos ⟨rfl, hx⟩, Nat.sub_self]
      rfl
    · obtain ⟨i, rfl⟩ : ∃ i, x = addr+1+i := ⟨x-addr-1, by omega⟩
      rw [if_pos (by omega), if_pos (by omega), if_neg (by omega), Nat.add_sub_cancel_left,
        Nat.add_assoc, Nat.add_sub_cancel_left, Nat.add_comm 1 i, List.getD_cons_succ]
  · rw [if_neg hx, if_neg hx, if_neg (by omega)]

theorem toNat_address {a : Nat} (h : a < 65536) : (UInt16.ofNat a).toNat = a :=
  UInt16.toNat_ofNat_of_lt' h

theorem block_value (aligned : Bool) (lo hi : UInt8) :
    (if aligned then UInt16.ofNat (lo.toNat+256*hi.toNat)
      else lo.toUInt16 ||| hi.toUInt16 <<< 8) = UInt16.ofNat (lo.toNat+256*hi.toNat) := by
  have hlo := lo.toNat_lt
  have hhi := hi.toNat_lt
  cases aligned with
  | true => rfl
  | false =>
    apply UInt16.toNat_inj.mp
    rw [if_neg (by simp), toNat_address (by omega), UInt16.toNat_or, UInt16.toNat_shiftLeft]
    simp only [UInt8.toNat_toUInt16, UInt16.toNat_ofNat, Nat.reducePow, Nat.reduceMod]
    rw [Nat.mod_eq_of_lt (by rw [Nat.shiftLeft_eq]; omega), Nat.or_comm,
      ← Nat.shiftLeft_add_eq_or_of_lt hlo, Nat.shiftLeft_eq]
    omega

theorem put_block_word {dest : Nat} (hdest : dest+1 < 65536) (lo hi : UInt8) :
    (Write.word (UInt16.ofNat dest) (UInt16.ofNat (lo.toNat+256*hi.toNat))).put cfg c
      = putByte cfg (putByte cfg c dest lo) (dest+1) hi := by
  have hlo := lo.toNat_lt
  have hhi := hi.toNat_lt
  have hvalue : (UInt16.ofNat (lo.toNat+256*hi.toNat)).toNat = lo.toNat+256*hi.toNat :=
    toNat_address (by omega)
  have hlow : (UInt16.ofNat (lo.toNat+256*hi.toNat)).toUInt8 = lo := by
    apply UInt8.toNat_inj.mp
    rw [toNat_lo, hvalue]
    omega
  have hhigh : (UInt16.ofNat (lo.toNat+256*hi.toNat) >>> 8).toUInt8 = hi := by
    apply UInt8.toNat_inj.mp
    rw [toNat_hi, hvalue]
    omega
  rw [Write.put, toNat_address (by omega), hlow, hhigh]

/-- The first calls write other bytes than the later ones, so a cut between them stores each byte
old or new. -/
theorem Effect.cons {s' s'' : State} {d : ByteMem} {a : Nat} {buf : List UInt8}
    (h : Effect cfg s s' c d) (h' : Effect cfg s' s'' d (putBytes cfg d a buf))
    (hd : ∀ x, a ≤ x → d x = c x) : Effect cfg s s'' c (putBytes cfg d a buf) := by
  refine h.trans h' fun x _ => ?_
  by_cases hx : x < a
  · rw [putBytes_before buf hx]
    exact .inr rfl
  · exact .inl (hd x (Nat.le_of_not_lt hx))

theorem writeWords_effect (aligned : Bool) (dest : Nat) (buf : List UInt8)
    (hend : dest+buf.length ≤ 65536) (h : Inv cfg s c)
    (hok : Along (Write.run cfg) (Orderly cfg) s (writeWords aligned dest buf)) :
    Inv cfg ((writeWords aligned dest buf).foldl (Write.run cfg) s) (putBytes cfg c dest buf)
    ∧ Effect cfg s ((writeWords aligned dest buf).foldl (Write.run cfg) s) c
      (putBytes cfg c dest buf) := by
  induction dest, buf using writeWords.induct aligned generalizing s c with
  | case1 dest =>
    obtain ⟨o, hstored⟩ := h.stored
    rw [putBytes_nil]
    exact ⟨h, Effect.refl hstored⟩
  | case2 dest b =>
    have hdest : dest < 65536 := by
      simp only [List.length_singleton] at hend
      omega
    have hrun := Write.run_effect h (.byte (UInt16.ofNat dest) b) hok.1
    rw [Write.put, toNat_address hdest] at hrun
    rw [putBytes_cons, putBytes_nil]
    exact hrun
  | case3 dest lo hi buf ih =>
    simp only [List.length_cons] at hend
    rw [writeWords, block_value] at hok ⊢
    obtain ⟨hok₁, hok₂⟩ := hok
    have hrun := Write.run_effect h _ hok₁
    rw [put_block_word (by omega)] at hrun
    obtain ⟨hinv, heffect⟩ := hrun
    obtain ⟨hinv', heffect'⟩ := ih (by omega) hinv hok₂
    rw [List.foldl_cons, putBytes_cons, putBytes_cons]
    refine ⟨hinv', heffect.cons heffect' fun x hx => ?_⟩
    rw [putByte_apply, if_neg (by omega), putByte_apply, if_neg (by omega)]

theorem writeBlock_effect {src addr : Nat} {buf : List UInt8} (hend : addr+buf.length ≤ 65536)
    (h : Inv cfg s c)
    (hok : Along (Write.run cfg) (Orderly cfg) s (blockWrites src addr buf)) :
    Inv cfg (eepromWriteBlock cfg src addr buf s) (putBytes cfg c addr buf)
    ∧ Effect cfg s (eepromWriteBlock cfg src addr buf s) c (putBytes cfg c addr buf) := by
  rw [eepromWriteBlock]
  cases buf with
  | nil =>
    obtain ⟨o, hstored⟩ := h.stored
    rw [putBytes_nil]
    exact ⟨h, Effect.refl hstored⟩
  | cons b rest =>
    rw [List.length_cons] at hend
    rw [blockWrites] at hok ⊢
    by_cases hodd : addr%2 ≠ 0
    · rw [if_pos hodd] at hok ⊢
      obtain ⟨hok₁, hok₂⟩ := hok
      have hrun := Write.run_effect h _ hok₁
      rw [Write.put, toNat_address (by omega)] at hrun
      obtain ⟨hinv, heffect⟩ := hrun
      obtain ⟨hinv', heffect'⟩ := writeWords_effect _ _ _ (by omega) hinv hok₂
      rw [List.foldl_cons, putBytes_cons]
      refine ⟨hinv', heffect.cons heffect' fun x hx => ?_⟩
      rw [putByte_apply, if_neg (by omega)]
    · rw [if_neg hodd] at hok ⊢
      exact writeWords_effect _ _ _ (by rwa [List.length_cons]) h hok

/-- What the EEPROM holds at an address, in range or not. -/
def readAt (cfg : Config) (c : ByteMem) (a : Nat) : UInt8 :=
  if a < cfg.densityBytes then c a else 0xFF

theorem readByte_eq (h : Inv cfg s c) (address : UInt16) :
    eepromReadDataByte cfg address s = readAt cfg c address.toNat := by
  rw [eepromReadDataByte, readAt]
  split
  · rename_i hlt
    exact h.cache _ hlt
  · rfl

theorem readWord_eq (h : Inv cfg s c) {address : UInt16} (heven : address.toNat%2 = 0) :
    (eepromReadDataWord cfg address s).toUInt8 = readAt cfg c address.toNat
      ∧ (eepromReadDataWord cfg address s >>> 8).toUInt8 = readAt cfg c (address.toNat+1) := by
  have hdensity := cfg.density_even
  have hge := cfg.density_ge
  have hnot : ¬address%2 ≠ 0 := by
    rw [not_not, ← UInt16.toNat_inj]
    simpa using heven
  rw [eepromReadDataWord, readAt, readAt]
  by_cases hlt : address.toNat < cfg.densityBytes-1
  · rw [if_pos hlt, if_neg hnot, lo_word, hi_word, if_pos (by omega), if_pos (by omega)]
    exact ⟨h.cache _ (by omega), h.cache _ (by omega)⟩
  · rw [if_neg hlt, if_neg (by omega), if_neg (by omega)]
    decide

theorem readWords_eq (h : Inv cfg s c) (src len : Nat) (heven : src%2 = 0)
    (hend : src+len ≤ 65536) :
    readWords cfg src len s = (List.range len).map fun i => readAt cfg c (src+i) := by
  induction len using Nat.twoStepInduction generalizing src with
  | zero => rfl
  | one =>
    rw [readWords, readByte_eq h, toNat_address (by omega)]
    rfl
  | more len ih =>
    have haddress : (UInt16.ofNat src).toNat = src := toNat_address (by omega)
    obtain ⟨hlo, hhi⟩ := readWord_eq h (show (UInt16.ofNat src).toNat%2 = 0 by rwa [haddress])
    rw [haddress] at hlo hhi
    rw [readWords, hlo, hhi, ih (src+2) (by omega) (by omega), List.range_succ_eq_map,
      List.range_succ_eq_map]
    simp only [List.map_cons, List.map_map, Nat.add_zero, Nat.succ_eq_add_one]
    congr 2
    refine List.map_congr_left fun i _ => ?_
    simp only [Function.comp_apply]
    rw [Nat.add_assoc, Nat.add_comm 2 i]

theorem readBlock_eq (h : Inv cfg s c) {addr len : Nat} (hend : addr+len ≤ 65536) :
    eepromReadBlock cfg addr len s = (List.range len).map fun i => readAt cfg c (addr+i) := by
  rw [eepromReadBlock]
  by_cases hfirst : 0 < len ∧ addr%2 ≠ 0
  · obtain ⟨n, rfl⟩ : ∃ n, len = n+1 := ⟨len-1, by omega⟩
    rw [if_pos hfirst, readByte_eq h, toNat_address (by omega), Nat.add_sub_cancel,
      readWords_eq h (addr+1) n (by omega) (by omega), List.range_succ_eq_map, List.map_cons,
      List.map_map]
    congr 1
    refine List.map_congr_left fun i _ => ?_
    rw [Function.comp_apply, Nat.succ_eq_add_one, Nat.add_assoc, Nat.add_comm 1 i]
  · rw [if_neg hfirst]
    rcases Nat.eq_zero_or_pos len with rfl | hpos
    · rfl
    · exact readWords_eq h addr len (by omega) hend

theorem Inv.init (h : Inv cfg s c) : eepromInit cfg s = s := by
  obtain ⟨o, hstored⟩ := h.stored
  have hbuf : (fun x => if x < cfg.densityBytes then c x else s.dataBuf x) = s.dataBuf := by
    funext x
    split
    · rename_i hx
      exact (h.cache x hx).symm
    · rfl
  rw [hstored.init, hbuf]

theorem erase_inv (s : State) : Inv cfg (eepromErase cfg s) fun _ => 0 := by
  have hstored : Stored cfg (eepromClear cfg s).flash cfg.logBase (fun _ => 0) fun _ => none :=
    stored_erased
  rw [eepromErase, hstored.init]
  exact ⟨⟨_, hstored⟩, fun x hx => if_pos hx⟩

variable (cfg) in
theorem erase_ops (s : State) : (eepromErase cfg s).ops = s.ops ++ [.erase]
    ∧ runOps cfg s.flash [.erase] = some (eepromErase cfg s).flash := by
  exact ⟨rfl, rfl⟩

/-- Every action keeps the cache and the flash in step, and writes to erased half-words only; a
write that is cut off stores each of its bytes old or new. -/
theorem step_effect (h : Inv cfg s c) (a : Action) (ha : Allowed cfg s a) :
    Inv cfg (step cfg s a) (contents cfg c a) ∧ Effect cfg s (step cfg s a) c (contents cfg c a) := by
  cases a with
  | erase =>
    obtain ⟨hops, hrun⟩ := erase_ops cfg s
    exact ⟨erase_inv s, (erase_inv s).stored, [.erase], hops, hrun, by simp⟩
  | init =>
    obtain ⟨o, hstored⟩ := h.stored
    rw [step, h.init]
    exact ⟨h, Effect.refl hstored⟩
  | write w => exact Write.run_effect h w ha
  | writeBlock src addr buf => exact writeBlock_effect ha.1 h ha.2

theorem contents_unwritten {a : Action} {x : Nat} (ha : a ≠ .erase) (hx : ¬a.Writes x) :
    contents cfg c a x = c x := by
  cases a with
  | erase => exact absurd rfl ha
  | init => rfl
  | write w =>
    cases w with
    | byte address value =>
      rw [contents, Write.put, putByte_apply, if_neg fun h => hx h.1]
    | word address value =>
      simp only [Action.Writes, not_or] at hx
      rw [contents, put_word_apply, if_neg fun h => hx.1 h.1, if_neg fun h => hx.2 h.1]
  | writeBlock src addr buf =>
    simp only [Action.Writes, not_and, Nat.not_lt] at hx
    rw [contents, putBytes]
    split
    · rw [ByteMem.write_apply]
      split
      · rename_i hle
        have := hx hle
        rw [List.getD_eq_default _ _ (by omega)]
      · rfl
    · rfl

theorem cut_recovers (h : Inv cfg s c) {a : Action} (ha : Allowed cfg s a) {new : List FlashOp}
    (hnew : (step cfg s a).ops = s.ops ++ new) (herase : .erase ∉ new) (k : Nat) :
    ∃ flash, runOps cfg s.flash (new.take k) = some flash
      ∧ ∀ t : State, t.flash = flash → ∀ x, x < cfg.densityBytes →
        (eepromInit cfg t).dataBuf x = c x
          ∨ a.Writes x ∧ (eepromInit cfg t).dataBuf x = contents cfg c a x := by
  obtain ⟨-, -, new', hnew', -, hcut⟩ := step_effect h a ha
  have hsame : new' = new := List.append_cancel_left (hnew'.symm.trans hnew)
  rw [hsame] at hcut
  obtain ⟨flash, slot, d, o, htake, hstored, hd⟩ := hcut herase k
  refine ⟨flash, htake, fun t ht x hx => ?_⟩
  have hread : (eepromInit cfg t).dataBuf x = d x := by
    have hstored' : Stored cfg t.flash slot d o := ht ▸ hstored
    rw [hstored'.init]
    exact if_pos hx
  rw [hread]
  by_cases hwrites : a.Writes x
  · exact (hd x hx).imp_right fun heq => ⟨hwrites, heq⟩
  · have hne : a ≠ .erase := by
      rintro rfl
      have hnew : [.erase] = new := List.append_cancel_left ((erase_ops cfg s).1.symm.trans hnew)
      exact herase (hnew ▸ List.mem_singleton_self _)
    rcases hd x hx with heq | heq
    · exact .inl heq
    · rw [contents_unwritten hne hwrites] at heq
      exact .inl heq

variable (cfg) in
structure RunInv (s₀ s : State) (c : ByteMem) : Prop where
  inv : Inv cfg s c
  ops : ∃ ops, s.ops = s₀.ops ++ ops ∧ runOps cfg s₀.flash ops = some s.flash

theorem run_inv (s₀ : State) {as : List Action} {c : ByteMem} {s : State}
    (h : RunInv cfg s₀ s c) (has : Along (step cfg) (Allowed cfg) s as) :
    RunInv cfg s₀ (as.foldl (step cfg) s) (as.foldl (contents cfg) c) := by
  induction as generalizing s c with
  | nil => exact h
  | cons a as ih =>
    obtain ⟨hinv, heffect⟩ := step_effect h.inv a has.1
    obtain ⟨ops, hops, hrun⟩ := h.ops
    obtain ⟨new, hnew, hrun', -⟩ := heffect.ops
    refine ih ⟨hinv, ops ++ new, ?_, ?_⟩ has.2
    · rw [hnew, hops, List.append_assoc]
    · rw [runOps_append hrun]
      exact hrun'

/-- After an erasure, in every state of a run: reads give what was written last, every half-word
that was programmed was erased and in the area, `EEPROM_Init` finds the state as it is, and a
write that is cut off without a compaction leaves its bytes old or new and all others alone. -/
theorem eeprom_durable (cfg : Config) (s₀ : State) (as : List Action)
    (h : Along (step cfg) (Allowed cfg) (eepromErase cfg s₀) as) :
    let s := as.foldl (step cfg) (eepromErase cfg s₀)
    let c := as.foldl (contents cfg) fun _ => 0
    (∀ address, eepromReadDataByte cfg address s = readAt cfg c address.toNat)
    ∧ (∀ addr len, addr+len ≤ 65536 →
      eepromReadBlock cfg addr len s = (List.range len).map fun i => readAt cfg c (addr+i))
    ∧ (∃ ops, s.ops = s₀.ops ++ ops ∧ runOps cfg s₀.flash ops = some s.flash)
    ∧ eepromInit cfg s = s
    ∧ ∀ a new, Allowed cfg s a → (step cfg s a).ops = s.ops ++ new → .erase ∉ new →
      ∀ k, ∃ flash, runOps cfg s.flash (new.take k) = some flash
        ∧ ∀ t : State, t.flash = flash → ∀ x, x < cfg.densityBytes →
          (eepromInit cfg t).dataBuf x = c x
            ∨ a.Writes x ∧ (eepromInit cfg t).dataBuf x = contents cfg c a x := by
  intro s c
  have hstart : RunInv cfg s₀ (eepromErase cfg s₀) fun _ => 0 :=
    ⟨erase_inv s₀, [.erase], rfl, rfl⟩
  have hrun := run_inv s₀ hstart h
  exact ⟨readByte_eq hrun.inv, fun addr len hend => readBlock_eq hrun.inv hend, hrun.ops,
    hrun.inv.init, fun a new ha hnew herase k => cut_recovers hrun.inv ha hnew herase k⟩

/-- The smallest EEPROM, with room for one entry. -/
def smallest : Config := ⟨128,2,by decide,by decide,by decide,by decide⟩

instance Orderly.decidable (cfg : Config) (s : State) : ∀ w, Decidable (Orderly cfg s w)
  | .byte _ _ => .isTrue trivial
  | .word address value => inferInstanceAs (Decidable (¬(address%2 = 0 ∧ address < 0x80
    ∧ value = 0 ∧ s.dataBuf address.toNat ≠ 0 ∧ s.dataBuf (address.toNat+1) ≠ 0
    ∧ word s.flash address.toNat ≠ emptyWord
    ∧ cfg.logLast ≤ s.emptySlot ∧ 0 < cfg.writeLogBytes)))

instance Allowed.decidable (cfg : Config) (s : State) : ∀ a, Decidable (Allowed cfg s a)
  | .erase | .init => .isTrue trivial
  | .write w => Orderly.decidable cfg s w
  | .writeBlock src addr buf => inferInstanceAs (Decidable (addr.toNat+buf.length ≤ 65536
    ∧ Along (Write.run cfg) (Orderly cfg) s (blockWrites src addr.toNat buf)))

def blankState : State := ⟨fun _ => 0,fun _ => 0,0,[]⟩

def someWrites : List Action :=
  [.write (.word 0 0x0101),.write (.byte 0 2),.writeBlock 0 1 [3,4,5]]

theorem eeprom_durable_someWrites :
    let s := someWrites.foldl (step smallest) (eepromErase smallest blankState)
    eepromReadBlock smallest 0 4 s = [2,3,4,5] ∧ eepromInit smallest s = s := by
  have hallowed : Along (step smallest) (Allowed smallest)
      (eepromErase smallest blankState) someWrites := by decide +kernel
  have hdurable := eeprom_durable smallest blankState someWrites hallowed
  refine ⟨(hdurable.2.1 0 4 (by decide)).trans (by decide +kernel), hdurable.2.2.2.1⟩

/-- The log is full; the word of zero is compacted, its second byte gets an entry nevertheless,
and the next write of that byte goes straight into the erased cell. Apart from that, a block that
runs past the last address goes on at the first. -/
theorem written_byte_lost :
    (let s := [Action.write (.word 0 0x0101),.write (.byte 0 2),.write (.word 0 0),
      .write (.byte 1 5)].foldl (step smallest) (eepromErase smallest blankState)
    eepromReadDataByte smallest 1 s = 5
      ∧ eepromReadDataByte smallest 1 (step smallest s .init) = 0)
    ∧ eepromReadDataByte smallest 0
      (step smallest (eepromErase smallest blankState) (.writeBlock 0 65535 [1,2])) = 2 := by
  decide +kernel

end QmkFirmware.EmulatedFlash
