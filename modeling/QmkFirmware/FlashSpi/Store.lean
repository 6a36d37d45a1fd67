import Mathlib.Data.List.GetD
import Mathlib.Tactic.SplitIfs
import QmkFirmware.FlashSpi.Core

/-!
The backing store in the flash does what it is to do, but for the last sector and block and for
transfers of 65536 bytes and more: `spi_transmit` and `spi_receive` take the length modulo 65536.
-/

set_option autoImplicit false

namespace QmkFirmware.FlashSpi

variable {cfg : Config} {c : Chip}

theorem foldl_addressBytes (n : Nat) (addr : UInt32) :
    (addressBytes n addr).foldl (fun a b => 256*a+b.toNat) 0 = addr.toNat % 256^n := by
  induction n generalizing addr with
  | zero => simp [addressBytes,Nat.mod_one]
  | succ n ih =>
    have hshift : (addr >>> 8).toNat = addr.toNat/256 := by
      rw [UInt32.toNat_shiftRight, Nat.shiftRight_eq_div_pow]
      rfl
    have hlow : addr.toUInt8.toNat = addr.toNat % 256 := UInt32.toNat_toUInt8 addr
    rw [addressBytes, List.foldl_append, ih, hshift, List.foldl_cons, List.foldl_nil, hlow,
      Nat.pow_succ, Nat.mul_comm (256^n), Nat.mod_mul, Nat.add_comm]

theorem sentAddress_eq {addr : UInt32} (h : addr.toNat < cfg.flashSize) :
    sentAddress cfg addr = addr.toNat := by
  rw [sentAddress, foldl_addressBytes]
  exact Nat.mod_eq_of_lt (Nat.lt_of_lt_of_le h cfg.address)

theorem toNat_ofNat (cfg : Config) {n : Nat} (h : n ≤ cfg.flashSize) : (UInt32.ofNat n).toNat = n :=
  UInt32.toNat_ofNat_of_lt' (Nat.lt_of_le_of_lt h cfg.flash_lt)

theorem toNat_add (cfg : Config) {addr : UInt32} {n : Nat} (h : addr.toNat+n ≤ cfg.flashSize) :
    (addr+UInt32.ofNat n).toNat = addr.toNat+n := by
  have hn : (UInt32.ofNat n).toNat = n := toNat_ofNat cfg (by omega)
  have hlt := cfg.flash_lt
  rw [UInt32.toNat_add, hn]
  exact Nat.mod_eq_of_lt (by omega)

def Erased (m : ByteMem) (a n : Nat) : Prop := ∀ i < n, m (a+i) = 0xFF

theorem Erased.rest {m : ByteMem} {a n k : Nat} {bs : List UInt8} (h : Erased m a (n+k))
    (hlength : bs.length = n) : Erased (m.write a bs) (a+n) k := by
  intro i hi
  rw [ByteMem.write_outside (by omega), Nat.add_assoc]
  exact h (n+i) (by omega)

/-- What programming `bytes` made of `m`: nothing outside the range, and the bytes themselves where
they were erased, if all of them were sent; if not, one of them is what it was. -/
structure Programmed (m m' : ByteMem) (a : Nat) (bytes : List UInt8) (sent : Prop) : Prop where
  outside : ∀ x, x < a ∨ a+bytes.length ≤ x → m' x = m x
  written : sent → Erased m a bytes.length → m' = m.write a bytes
  unsent : ¬sent → ∃ i < bytes.length, m' (a+i) = m (a+i)

theorem Programmed.nil (m : ByteMem) (a : Nat) : Programmed m m a [] True :=
  ⟨fun _ _ => rfl,fun _ _ => (ByteMem.write_nil m a).symm,fun h => absurd trivial h⟩

theorem Programmed.congr {m m' : ByteMem} {a : Nat} {bytes : List UInt8} {p q : Prop}
    (h : Programmed m m' a bytes p) (hiff : q ↔ p) : Programmed m m' a bytes q :=
  ⟨h.outside,fun hq => h.written (hiff.mp hq),fun hq => h.unsent (mt hiff.mpr hq)⟩

theorem Programmed.append {m m' m'' : ByteMem} {a : Nat} {bs cs : List UInt8} {p q : Prop}
    (h : Programmed m m' a bs p) (h' : Programmed m' m'' (a+bs.length) cs q) :
    Programmed m m'' a (bs ++ cs) (p ∧ q) := by
  refine ⟨fun x hx => ?_,fun hsent herased => ?_,fun hnot => ?_⟩
  · rw [List.length_append] at hx
    rw [h'.outside x (by omega), h.outside x (by omega)]
  · rw [List.length_append] at herased
    have hfirst := h.written hsent.1 fun i hi => herased i (by omega)
    rw [h'.written hsent.2 (by rw [hfirst]; exact herased.rest rfl), hfirst, ByteMem.write_append]
  · by_cases hp : p
    · obtain ⟨i, hi, hbyte⟩ := h'.unsent fun hq => hnot ⟨hp,hq⟩
      refine ⟨bs.length+i,by rw [List.length_append]; omega,?_⟩
      rw [← Nat.add_assoc, hbyte, h.outside _ (by omega)]
    · obtain ⟨i, hi, hbyte⟩ := h.unsent hp
      refine ⟨i,by rw [List.length_append]; omega,?_⟩
      rw [h'.outside _ (by omega), hbyte]

theorem programInPage_outside {pageSize a x : Nat} {bs : List UInt8} {m : ByteMem}
    (h : a % pageSize+bs.length ≤ pageSize) (hx : x < a ∨ a+bs.length ≤ x) :
    programInPage pageSize bs a m x = m x := by
  induction bs generalizing a m with
  | nil => rfl
  | cons b bs ih =>
    rw [List.length_cons] at h hx
    have hcell : m.write a [m a &&& b] x = m x :=
      ByteMem.write_outside (by rw [List.length_singleton]; omega)
    rw [programInPage]
    by_cases hlast : bs = []
    · rw [hlast, programInPage, hcell]
    · have hlen := List.length_pos_of_ne_nil hlast
      have hmod : (a+1) % pageSize = a % pageSize+1 := by
        rw [← Nat.mod_add_mod, Nat.mod_eq_of_lt (by omega)]
      rw [if_neg (by omega), ih (by omega) (by omega), hcell]

theorem programInPage_eq {pageSize : Nat} {bs : List UInt8} {a : Nat} {m : ByteMem}
    (h : a % pageSize+bs.length ≤ pageSize) (herased : Erased m a bs.length) :
    programInPage pageSize bs a m = m.write a bs := by
  induction bs generalizing a m with
  | nil => simp [programInPage]
  | cons b bs ih =>
    rw [List.length_cons] at h herased
    have hbyte : m a &&& b = b := by
      have hone := herased 0 (Nat.succ_pos _)
      rw [Nat.add_zero] at hone
      rw [hone]
      exact UInt8.neg_one_and
    rw [programInPage, hbyte, ByteMem.write_cons m a b bs]
    by_cases hlast : bs = []
    · simp [hlast,programInPage]
    · have hlen := List.length_pos_of_ne_nil hlast
      have hmod : (a+1) % pageSize = a % pageSize+1 := by
        rw [← Nat.mod_add_mod, Nat.mod_eq_of_lt (by omega)]
      have hcell : [b].length = 1 := rfl
      have hrest : Erased (m.write a [b]) (a+1) bs.length :=
        Erased.rest (by rwa [Nat.add_comm]) hcell
      rw [if_neg (by omega), ih (by omega) hrest]

theorem programInPage_programmed {pageSize a : Nat} {bs : List UInt8} {m : ByteMem}
    (h : a % pageSize+bs.length ≤ pageSize) :
    Programmed m (programInPage pageSize (spiTransmit bs (UInt16.ofNat bs.length)) a m) a bs
      (bs.length < 2^16) := by
  have hlength : (UInt16.ofNat bs.length).toNat = bs.length % 2^16 := rfl
  have hle := Nat.mod_le bs.length (2^16)
  have htake : (bs.take (bs.length % 2^16)).length = bs.length % 2^16 := List.length_take_of_le hle
  rw [spiTransmit, hlength]
  refine ⟨fun x hx => programInPage_outside (by omega) (by omega),fun hsent herased => ?_,
    fun hnot => ?_⟩
  · rw [Nat.mod_eq_of_lt hsent, List.take_length]
    exact programInPage_eq h herased
  · have hlt := Nat.mod_lt bs.length (Nat.two_pow_pos 16)
    exact ⟨bs.length-1,by omega,programInPage_outside (by omega) (by omega)⟩

def PagesShort (cfg : Config) (start len : Nat) : Prop :=
  ∀ i, i+2^16 ≤ len → (start+i)/cfg.pageSize ≠ (start+i+(2^16-1))/cfg.pageSize

theorem pagesShort_iff {start len k : Nat} (hk : k ≤ len)
    (hpage : start % cfg.pageSize+k ≤ cfg.pageSize)
    (hend : k < len → start % cfg.pageSize+k = cfg.pageSize) :
    PagesShort cfg start len ↔ k < 2^16 ∧ PagesShort cfg (start+k) (len-k) := by
  have hsame : ∀ j, start % cfg.pageSize+j < cfg.pageSize →
      (start+j)/cfg.pageSize = start/cfg.pageSize := fun j hj => by
    conv_lhs => rw [← Nat.div_add_mod start cfg.pageSize, Nat.add_assoc,
      Nat.mul_add_div cfg.page_pos, Nat.div_eq_of_lt hj, Nat.add_zero]
  constructor
  · refine fun h => ⟨?_,fun i hi => ?_⟩
    · by_contra hlarge
      exact h 0 (by omega) ((hsame 0 (by omega)).trans (hsame (0+(2^16-1)) (by omega)).symm)
    · rw [Nat.add_assoc start k i]
      exact h (k+i) (by omega)
  · rintro ⟨hshort, hrest⟩ i hi
    by_cases hfirst : i < k
    · have hfull := hend (by omega)
      have hdiv := Nat.div_add_mod start cfg.pageSize
      have hnext : start/cfg.pageSize+1 ≤ (start+i+(2^16-1))/cfg.pageSize := by
        rw [Nat.le_div_iff_mul_le cfg.page_pos, Nat.mul_comm, Nat.mul_succ]
        omega
      rw [hsame i (by omega)]
      omega
    · have hshift := hrest (i-k) (by omega)
      rwa [show start+k+(i-k) = start+i by omega] at hshift

theorem writePages_programmed {addr : UInt32} {buf : List UInt8}
    (hfits : addr.toNat+buf.length ≤ cfg.flashSize) :
    Programmed c.mem (writePages cfg addr buf c).mem addr.toNat buf
      (PagesShort cfg addr.toNat buf.length) := by
  induction hn : buf.length using Nat.strongRecOn generalizing addr buf c with
  | ind n ih =>
    subst hn
    rw [writePages]
    by_cases hpos : 0 < buf.length
    · rw [dif_pos hpos]
      have hpage := Nat.mod_lt addr.toNat cfg.page_pos
      obtain ⟨k, hk, hkpos, hkle, hkpage, hkend⟩ : ∃ k, k =
          (if buf.length < cfg.pageSize-addr.toNat % cfg.pageSize
          then buf.length else cfg.pageSize-addr.toNat % cfg.pageSize) ∧ 0 < k ∧ k ≤ buf.length
          ∧ addr.toNat % cfg.pageSize+k ≤ cfg.pageSize
          ∧ (k < buf.length → addr.toNat % cfg.pageSize+k = cfg.pageSize) := by
        refine ⟨_,rfl,?_,?_,?_,?_⟩ <;> split <;> omega
      dsimp only
      rw [← hk]
      have htake : (buf.take k).length = k := List.length_take_of_le hkle
      have hdrop : (buf.drop k).length = buf.length-k := List.length_drop
      have hsent : sentAddress cfg addr % cfg.flashSize = addr.toNat := by
        rw [sentAddress_eq (by omega)]
        exact Nat.mod_eq_of_lt (by omega)
      have hdata : spiTransmit buf (UInt16.ofNat k)
          = spiTransmit (buf.take k) (UInt16.ofNat (buf.take k).length) := by
        have hle : (UInt16.ofNat k).toNat ≤ k := Nat.mod_le k (2^16)
        rw [htake, spiTransmit, spiTransmit, List.take_take, Nat.min_eq_left hle]
      have hnext : (addr+UInt32.ofNat k).toNat = addr.toNat+k := toNat_add cfg (by omega)
      simp only [execute, if_true, hsent, hdata]
      have hfirst : Programmed c.mem _ addr.toNat (buf.take k) _ :=
        @programInPage_programmed cfg.pageSize _ _ _ (by omega)
      have hrest := ih (buf.drop k).length (by omega)
        (c := ⟨programInPage cfg.pageSize (spiTransmit (buf.take k)
          (UInt16.ofNat (buf.take k).length)) addr.toNat c.mem,false⟩)
        (show (addr+UInt32.ofNat k).toNat+(buf.drop k).length ≤ cfg.flashSize by omega) rfl
      have hstart : addr.toNat+(buf.take k).length = addr.toNat+k := by rw [htake]
      rw [hnext, ← hstart] at hrest
      have hboth := hfirst.append hrest
      rw [List.take_append_drop] at hboth
      refine hboth.congr ?_
      rw [htake, hdrop]
      exact pagesShort_iff hkle hkpage hkend
    · have hnil : buf = [] := List.eq_nil_of_length_eq_zero (by omega)
      rw [dif_neg hpos, hnil]
      exact (Programmed.nil c.mem addr.toNat).congr (iff_of_true (fun i hi => by simp at hi) trivial)

theorem complement_complement (value : cfg.Word) : complement (complement value) = value := by
  ext i hi
  simp [complement]

theorem length_bytesOf (values : List cfg.Word) :
    (bytesOf values).length = cfg.writeSize*values.length := by
  induction values with
  | nil => rfl
  | cons value values ih =>
    rw [bytesOf, List.flatMap_cons, List.length_append, Vector.length_toList, ← bytesOf, ih,
      List.length_cons, Nat.mul_succ, Nat.add_comm]

theorem getD_bytesOf (values : List cfg.Word) {i j : Nat} (hi : i < values.length)
    (hj : j < cfg.writeSize) : (bytesOf values).getD (cfg.writeSize*i+j) 0 = values[i][j] := by
  induction values generalizing i with
  | nil => simp at hi
  | cons value values ih =>
    rw [bytesOf, List.flatMap_cons, ← bytesOf]
    cases i with
    | zero =>
      have hlt : cfg.writeSize*0+j < value.toList.length := by rw [Vector.length_toList]; omega
      rw [List.getD_append _ _ _ _ hlt]
      simp [hj]
    | succ i =>
      have hle : value.toList.length ≤ cfg.writeSize*(i+1)+j := by
        rw [Vector.length_toList, Nat.mul_succ]
        omega
      have hsub : cfg.writeSize*(i+1)+j-cfg.writeSize = cfg.writeSize*i+j := by
        rw [Nat.mul_succ]
        omega
      rw [List.getD_append_right _ _ _ _ hle, Vector.length_toList, hsub]
      exact ih (Nat.lt_of_succ_lt_succ hi)

theorem bytesOf_append (values values' : List cfg.Word) :
    bytesOf (values ++ values') = bytesOf values ++ bytesOf values' := List.flatMap_append

/-- In no batch of the `len` bytes, 65536 bytes in a row are in one page. -/
def BatchesShort (cfg : Config) (start len : Nat) : Prop :=
  ∀ i, PagesShort cfg (start+cfg.writeSize*cfg.bulkCount*i)
    (min (cfg.writeSize*cfg.bulkCount) (len-cfg.writeSize*cfg.bulkCount*i))

theorem batchesShort_iff {start len : Nat} :
    BatchesShort cfg start len ↔ PagesShort cfg start (min (cfg.writeSize*cfg.bulkCount) len)
      ∧ BatchesShort cfg (start+cfg.writeSize*cfg.bulkCount) (len-cfg.writeSize*cfg.bulkCount) := by
  generalize hb : cfg.writeSize*cfg.bulkCount = b
  have hnext : ∀ i, start+b*(i+1) = start+b+b*i ∧ len-b*(i+1) = len-b-b*i := fun i => by
    rw [Nat.mul_succ]
    omega
  simp only [BatchesShort, hb]
  refine ⟨fun h => ⟨by simpa using h 0,fun i => ?_⟩,fun h i => ?_⟩
  · rw [← (hnext i).1, ← (hnext i).2]
    exact h (i+1)
  · cases i with
    | zero => simpa using h.1
    | succ i =>
      rw [(hnext i).1, (hnext i).2]
      exact h.2 i

theorem batchesShort_zero (start : Nat) : BatchesShort cfg start 0 := fun i j hj => by
  rw [Nat.zero_sub, Nat.min_zero] at hj
  exact absurd hj (by omega)

theorem writeBatches_programmed {offset : UInt32} {values : List cfg.Word}
    (hfits : offset.toNat+cfg.writeSize*values.length ≤ cfg.flashSize) :
    (writeBatches cfg offset values c).1 = true
      ∧ Programmed c.mem (writeBatches cfg offset values c).2.mem offset.toNat
        (bytesOf (values.map complement))
        (BatchesShort cfg offset.toNat (cfg.writeSize*values.length)) := by
  induction hn : values.length using Nat.strongRecOn generalizing offset values c with
  | ind n ih =>
    subst hn
    have hbulk := cfg.bulk_pos
    obtain ⟨k, hk⟩ : ∃ k, k = (values.take cfg.bulkCount).length := ⟨_,rfl⟩
    have hkmin : k = min cfg.bulkCount values.length := hk.trans List.length_take
    have hsum : k+(values.drop cfg.bulkCount).length = values.length := by
      rw [List.length_drop]
      omega
    have hbatch : (bytesOf ((values.take cfg.bulkCount).map complement)).length = cfg.writeSize*k := by
      rw [length_bytesOf, List.length_map, ← hk]
    have hmul : cfg.writeSize*values.length
        = cfg.writeSize*k+cfg.writeSize*(values.drop cfg.bulkCount).length := by
      rw [← hsum, Nat.mul_add]
    have hfirst : Programmed c.mem (flashWriteRange cfg offset
        (bytesOf ((values.take cfg.bulkCount).map complement)) c).2.mem offset.toNat
        (bytesOf ((values.take cfg.bulkCount).map complement))
        (PagesShort cfg offset.toNat
          (min (cfg.writeSize*cfg.bulkCount) (cfg.writeSize*values.length))) := by
      have hpages : Programmed c.mem (writePages cfg offset _ c).mem offset.toNat _ _ :=
        @writePages_programmed cfg c offset (bytesOf ((values.take cfg.bulkCount).map complement))
          (by omega)
      rwa [hbatch, hkmin, ← Nat.mul_min_mul_left] at hpages
    have hbytes : bytesOf (values.map complement)
        = bytesOf ((values.take cfg.bulkCount).map complement)
          ++ bytesOf ((values.drop cfg.bulkCount).map complement) := by
      rw [← bytesOf_append, ← List.map_append, List.take_append_drop]
    have hstart : offset.toNat+(bytesOf ((values.take cfg.bulkCount).map complement)).length
        = offset.toNat+cfg.writeSize*k := by rw [hbatch]
    have hstatus : (flashWriteRange cfg offset
      (bytesOf ((values.take cfg.bulkCount).map complement)) c).1 = .success := rfl
    rw [writeBatches]
    generalize flashWriteRange cfg offset
      (bytesOf ((values.take cfg.bulkCount).map complement)) c = r at hstatus hfirst
    obtain ⟨status, c'⟩ := r
    subst hstatus
    rw [hbytes]
    dsimp only
    by_cases hmore : 0 < (values.drop cfg.bulkCount).length
    · have hfull : k = cfg.bulkCount := by
        rw [List.length_drop] at hmore
        omega
      rw [dif_pos hmore, List.length_map, ← hk, Nat.mul_comm k]
      have hnext : (offset+UInt32.ofNat (cfg.writeSize*k)).toNat = offset.toNat+cfg.writeSize*k :=
        toNat_add cfg (by omega)
      have hlen : cfg.writeSize*(values.drop cfg.bulkCount).length
          = cfg.writeSize*values.length-cfg.writeSize*k := by omega
      obtain ⟨hsuccess, hrest⟩ := ih (values.drop cfg.bulkCount).length
        (by rw [List.length_drop]; omega) (by rw [hnext]; omega) rfl (c := c')
      rw [hnext, ← hstart, hlen, hstart] at hrest
      refine ⟨hsuccess,(hfirst.append (by rwa [hstart])).congr ?_⟩
      rw [hfull]
      exact batchesShort_iff
    · have hnil : values.drop cfg.bulkCount = [] := List.eq_nil_of_length_eq_zero (by omega)
      have hle : cfg.writeSize*values.length ≤ cfg.writeSize*cfg.bulkCount :=
        Nat.mul_le_mul_left _ (List.drop_eq_nil_iff.mp hnil)
      rw [dif_neg hmore, hnil]
      refine ⟨rfl,(hfirst.append (Programmed.nil _ _)).congr ?_⟩
      rw [batchesShort_iff, Nat.sub_eq_zero_of_le hle]
      exact and_congr_right' (iff_of_true (batchesShort_zero _) trivial)

theorem regionOffset_toNat {address : UInt32}
    (h : address.toNat ≤ cfg.blockCount*cfg.blockSize) :
    (regionOffset cfg address).toNat = cfg.blockOffset*cfg.blockSize+address.toNat := by
  have hregion := cfg.region
  rw [Nat.add_mul] at hregion
  rw [regionOffset, UInt32.add_comm, toNat_add cfg (by omega), Nat.add_comm]

theorem flashReadRange_eq {addr : UInt32} {buf : List UInt8}
    (hfits : addr.toNat+buf.length ≤ cfg.flashSize) :
    flashReadRange cfg addr buf c = (.success,c.mem.read addr.toNat (buf.length % 2^16)
      ++ buf.drop (buf.length % 2^16)) := by
  have hlength : (UInt16.ofNat buf.length).toNat = buf.length % 2^16 := rfl
  have hle := Nat.mod_le buf.length (2^16)
  rw [flashReadRange, spiReceive, hlength, ByteMem.read]
  refine congrArg (fun bytes => (Status.success,bytes ++ buf.drop (buf.length % 2^16)))
    (List.map_congr_left fun i hi => ?_)
  have hi := List.mem_range.mp hi
  rw [sentAddress_eq (by omega), Nat.mod_eq_of_lt (by omega)]

/-- The item at an address of the region, as the flash has it. -/
def stored (cfg : Config) (c : Chip) (address : Nat) : cfg.Word :=
  complement (Vector.ofFn fun j => c.mem (cfg.blockOffset*cfg.blockSize+address+j))

theorem backingStoreReadBulk_eq {address : UInt32} {values : List cfg.Word}
    (hinside : address.toNat+cfg.writeSize*values.length ≤ cfg.blockCount*cfg.blockSize) :
    backingStoreReadBulk cfg address values c
      = (true,(wordsOf cfg (c.mem.read (cfg.blockOffset*cfg.blockSize+address.toNat)
            (cfg.writeSize*values.length % 2^16)
          ++ (bytesOf values).drop (cfg.writeSize*values.length % 2^16))
        values.length).map complement) := by
  have hregion := cfg.region
  rw [Nat.add_mul] at hregion
  have hoffset : (regionOffset cfg address).toNat = cfg.blockOffset*cfg.blockSize+address.toNat :=
    regionOffset_toNat (by omega)
  rw [backingStoreReadBulk, flashReadRange_eq (by rw [hoffset, length_bytesOf]; omega), hoffset,
    length_bytesOf]

theorem item_lt {n i j : Nat} (hi : i < n) (hj : j < cfg.writeSize) :
    cfg.writeSize*i+j < cfg.writeSize*n :=
  calc cfg.writeSize*i+j < cfg.writeSize*i+cfg.writeSize := by omega
    _ = cfg.writeSize*(i+1) := (Nat.mul_succ _ _).symm
    _ ≤ cfg.writeSize*n := Nat.mul_le_mul_left _ hi

theorem backingStoreReadBulk_short {address : UInt32} {values : List cfg.Word}
    (hinside : address.toNat+cfg.writeSize*values.length ≤ cfg.blockCount*cfg.blockSize)
    (hshort : cfg.writeSize*values.length < 2^16) :
    backingStoreReadBulk cfg address values c
      = (true,(List.range values.length).map fun i =>
        stored cfg c (address.toNat+cfg.writeSize*i)) := by
  have hnil : (bytesOf values).drop (cfg.writeSize*values.length) = [] :=
    List.drop_eq_nil_of_le (Nat.le_of_eq (length_bytesOf values))
  rw [backingStoreReadBulk_eq hinside, Nat.mod_eq_of_lt hshort, hnil, List.append_nil, wordsOf,
    List.map_map]
  refine congrArg _ (List.map_congr_left fun i hi => congrArg complement ?_)
  ext j hj
  have hlt := item_lt (List.mem_range.mp hi) hj
  rw [Vector.getElem_ofFn, Vector.getElem_ofFn, ByteMem.getD_read, if_pos hlt, ← Nat.add_assoc,
    ← Nat.add_assoc]

theorem backingStoreRead_eq {address : UInt32} {value : cfg.Word}
    (hinside : address.toNat+cfg.writeSize ≤ cfg.blockCount*cfg.blockSize) :
    backingStoreRead cfg address value c = (true,stored cfg c address.toNat) := by
  have hsize := cfg.write_size
  have hone : backingStoreReadBulk cfg address [value] c = _ :=
    backingStoreReadBulk_short (by simpa using hinside) (by simp; omega)
  rw [backingStoreRead, hone]
  simp

theorem backingStoreReadBulk_left {address : UInt32} {values : List cfg.Word}
    (hinside : address.toNat+cfg.writeSize*values.length ≤ cfg.blockCount*cfg.blockSize)
    (hlong : 2^16 ≤ cfg.writeSize*values.length) :
    (backingStoreReadBulk cfg address values c).2.getLast? = values.getLast?.map complement := by
  have hsize := cfg.write_size
  obtain ⟨n, hn⟩ : ∃ n, values.length = n+1 := Nat.exists_eq_succ_of_ne_zero fun h => by
    rw [h, Nat.mul_zero] at hlong
    omega
  have hmul : cfg.writeSize*values.length = cfg.writeSize*n+cfg.writeSize := by
    rw [hn, Nat.mul_succ]
  have hreceived : cfg.writeSize*values.length % 2^16 ≤ cfg.writeSize*n := by
    have hmod := Nat.mod_eq_sub_mod hlong
    have hle := Nat.mod_le (cfg.writeSize*values.length-2^16) (2^16)
    omega
  rw [backingStoreReadBulk_eq hinside, List.getLast?_eq_getElem?, List.getLast?_eq_getElem?,
    List.length_map, wordsOf, List.length_map, List.length_range]
  generalize hbytes : c.mem.read (cfg.blockOffset*cfg.blockSize+address.toNat)
      (cfg.writeSize*values.length % 2^16)
    ++ (bytesOf values).drop (cfg.writeSize*values.length % 2^16) = bytes
  have hlast : values.length-1 < values.length := by omega
  rw [List.getElem?_map, List.getElem?_map, List.getElem?_range hlast,
    List.getElem?_eq_getElem hlast]
  refine congrArg (fun value => some (complement value)) ?_
  ext j hj
  have hget : bytes.getD (cfg.writeSize*(values.length-1)+j) 0
      = (bytesOf values).getD (cfg.writeSize*(values.length-1)+j) 0 := by
    have hpred : values.length-1 = n := by omega
    rw [← hbytes, List.getD_append_right _ _ _ _ (by rw [ByteMem.length_read, hpred]; omega),
      ByteMem.length_read, List.getD, List.getElem?_drop, Nat.add_sub_cancel' (by rw [hpred]; omega),
      List.getD]
  rw [Vector.getElem_ofFn, hget, getD_bytesOf values hlast hj]

theorem backingStoreWriteBulk_programmed {address : UInt32} {values : List cfg.Word}
    (hinside : address.toNat+cfg.writeSize*values.length ≤ cfg.blockCount*cfg.blockSize) :
    (backingStoreWriteBulk cfg address values c).1 = true
      ∧ Programmed c.mem (backingStoreWriteBulk cfg address values c).2.mem
        (cfg.blockOffset*cfg.blockSize+address.toNat) (bytesOf (values.map complement))
        (BatchesShort cfg (cfg.blockOffset*cfg.blockSize+address.toNat)
          (cfg.writeSize*values.length)) := by
  have hregion := cfg.region
  rw [Nat.add_mul] at hregion
  have hoffset : (regionOffset cfg address).toNat = cfg.blockOffset*cfg.blockSize+address.toNat :=
    regionOffset_toNat (by omega)
  rw [← hoffset]
  exact writeBatches_programmed (by rw [hoffset]; omega)

section
variable {size : Nat} {addr : UInt32}

theorem overLimit_iff (hle : size ≤ cfg.flashSize) :
    overLimit cfg size addr = false
      ↔ (addr.toNat+size) % 2^32 < cfg.flashSize ∧ addr.toNat % size = 0 := by
  have hflash : (UInt32.ofNat cfg.flashSize).toNat = cfg.flashSize := toNat_ofNat cfg (Nat.le_refl _)
  have hsize' : (UInt32.ofNat size).toNat = size := toNat_ofNat cfg hle
  rw [overLimit, Bool.or_eq_false_iff, decide_eq_false_iff_not, decide_eq_false_iff_not, not_not,
    UInt32.le_iff_toNat_le, UInt32.toNat_add, hflash, hsize', Nat.not_le, ← UInt32.toNat_inj,
    UInt32.toNat_mod, hsize']
  rfl

theorem limit_right_iff (hle : size ≤ cfg.flashSize) :
    (overLimit cfg size addr = false ↔ addr.toNat % size = 0 ∧ addr.toNat+size ≤ cfg.flashSize)
      ↔ (addr.toNat % size = 0 → addr.toNat+size ≠ cfg.flashSize ∧ addr.toNat+size < 2^32) := by
  have hflash := cfg.flash_lt
  have haddr : addr.toNat < 2^32 := addr.toNat_lt
  rw [overLimit_iff hle]
  by_cases haligned : addr.toNat % size = 0
  · simp only [haligned, and_true, true_and, forall_const]
    by_cases hwraps : addr.toNat+size < 2^32
    · rw [Nat.mod_eq_of_lt hwraps]
      omega
    · have hmod : (addr.toNat+size) % 2^32 = addr.toNat+size-2^32 := by
        rw [Nat.mod_eq_sub_mod (by omega), Nat.mod_eq_of_lt (by omega)]
      rw [hmod]
      omega
  · simp [haligned]

theorem block_le (cfg : Config) : cfg.blockSize ≤ cfg.flashSize :=
  Nat.le_of_dvd (Nat.lt_of_lt_of_le cfg.sector_pos cfg.sector_le) cfg.block_dvd

theorem flashEraseBlock_eq {i : Nat} (h : (i+1)*cfg.blockSize ≤ cfg.flashSize) :
    flashEraseBlock cfg (UInt32.ofNat (i*cfg.blockSize)) c
      = if (i+1)*cfg.blockSize = cfg.flashSize then (.error,c)
        else (.success,⟨eraseUnit cfg.blockSize (i*cfg.blockSize) c.mem,false⟩) := by
  have hflash := cfg.flash_lt
  have hpos := cfg.block_pos
  rw [Nat.add_mul, Nat.one_mul] at h ⊢
  have haddr : (UInt32.ofNat (i*cfg.blockSize)).toNat = i*cfg.blockSize := toNat_ofNat cfg (by omega)
  have hsent : sentAddress cfg (UInt32.ofNat (i*cfg.blockSize)) % cfg.flashSize = i*cfg.blockSize := by
    rw [sentAddress_eq (by omega), haddr]
    exact Nat.mod_eq_of_lt (by omega)
  have hlimit : overLimit cfg cfg.blockSize (UInt32.ofNat (i*cfg.blockSize)) = false ↔ _ :=
    overLimit_iff (block_le cfg)
  rw [haddr, Nat.mod_eq_of_lt (by omega), Nat.mul_mod_left, and_iff_left rfl] at hlimit
  rw [flashEraseBlock]
  by_cases hlast : i*cfg.blockSize+cfg.blockSize = cfg.flashSize
  · have hover : overLimit cfg cfg.blockSize (UInt32.ofNat (i*cfg.blockSize)) = true := by
      rw [← Bool.not_eq_false, hlimit]
      omega
    rw [if_pos hlast, if_pos hover]
  · have hunder : overLimit cfg cfg.blockSize (UInt32.ofNat (i*cfg.blockSize)) = false :=
      hlimit.mpr (by omega)
    rw [if_neg hlast, hunder, if_neg Bool.false_ne_true]
    simp only [execute, if_true, hsent]

theorem eraseUnit_block {size i a : Nat} (hsize : 0 < size) (m : ByteMem) :
    eraseUnit size (i*size) m a = if a/size = i then 0xFF else m a := by
  rw [eraseUnit, Nat.mul_div_cancel _ hsize]

theorem eraseBlocks_mem {n i : Nat} (h : n = 0 ∨ (cfg.blockOffset+i+n)*cfg.blockSize < cfg.flashSize) :
    (eraseBlocks cfg n i c).1 = true ∧ ∀ a, (eraseBlocks cfg n i c).2.mem a
      = if cfg.blockOffset+i ≤ a/cfg.blockSize ∧ a/cfg.blockSize < cfg.blockOffset+i+n then 0xFF
        else c.mem a := by
  induction n generalizing i c with
  | zero => exact ⟨rfl,fun a => (if_neg (by omega)).symm⟩
  | succ n ih =>
    have hlt : (cfg.blockOffset+i+(n+1))*cfg.blockSize < cfg.flashSize :=
      h.resolve_left (Nat.succ_ne_zero n)
    have hle : (cfg.blockOffset+i+1)*cfg.blockSize ≤ (cfg.blockOffset+i+(n+1))*cfg.blockSize :=
      Nat.mul_le_mul_right _ (by omega)
    rw [eraseBlocks, flashEraseBlock_eq (by omega), if_neg (by omega)]
    obtain ⟨hsuccess, hmem⟩ := ih (i := i+1)
      (c := ⟨eraseUnit cfg.blockSize ((cfg.blockOffset+i)*cfg.blockSize) c.mem,false⟩)
      (.inr (by rw [show cfg.blockOffset+(i+1)+n = cfg.blockOffset+i+(n+1) by omega]; exact hlt))
    refine ⟨hsuccess,fun a => ?_⟩
    have hbyte := hmem a
    dsimp only at hbyte
    rw [hbyte, eraseUnit_block cfg.block_pos]
    split_ifs <;> first | rfl | omega

theorem eraseBlocks_stops {n i : Nat}
    (h : (cfg.blockOffset+i+(n+1))*cfg.blockSize = cfg.flashSize) :
    (eraseBlocks cfg (n+1) i c).1 = false := by
  induction n generalizing i c with
  | zero =>
    rw [eraseBlocks, flashEraseBlock_eq (Nat.le_of_eq h), if_pos h]
  | succ n ih =>
    have hpos := cfg.block_pos
    have hlt : (cfg.blockOffset+i+1)*cfg.blockSize < (cfg.blockOffset+i+(n+1+1))*cfg.blockSize :=
      Nat.mul_lt_mul_of_pos_right (by omega) hpos
    rw [eraseBlocks, flashEraseBlock_eq (by omega), if_neg (by omega)]
    exact ih (by rw [← h]; congr 1; omega)

end

inductive Operation where
  | erase
  | write (address : UInt32) (itemCount : Nat)
  | read (address : UInt32) (itemCount : Nat)
  | eraseSector (addr : UInt32)
  | eraseBlock (addr : UInt32)

def Inside (cfg : Config) (address : UInt32) (itemCount : Nat) : Prop :=
  address.toNat+cfg.writeSize*itemCount ≤ cfg.blockCount*cfg.blockSize

/-- The store is erased, and every item in it reads as 0; what is written to erased bytes of the
region is read again item by item, with nothing else changed; a block is read as the flash has it;
and what lies inside the flash can be erased. -/
def Right (cfg : Config) (c : Chip) : Operation → Prop
  | .erase => (backingStoreErase cfg c).1 = true ∧
    ∀ (address : UInt32) (value : cfg.Word), Inside cfg address 1 →
      backingStoreRead cfg address value (backingStoreErase cfg c).2
        = (true,Vector.replicate cfg.writeSize 0)
  | .write address itemCount =>
    let start := cfg.blockOffset*cfg.blockSize+address.toNat
    Inside cfg address itemCount → Erased c.mem start (cfg.writeSize*itemCount) →
      ∀ values : List cfg.Word, values.length = itemCount →
        let r := backingStoreWriteBulk cfg address values c
        r.1 = true
          ∧ (∀ a, a < start ∨ start+cfg.writeSize*itemCount ≤ a → r.2.mem a = c.mem a)
          ∧ ∀ i (_ : i < values.length) (value : cfg.Word),
            backingStoreRead cfg (address+UInt32.ofNat (cfg.writeSize*i)) value r.2
              = (true,values[i])
  | .read address itemCount => Inside cfg address itemCount →
    ∀ values : List cfg.Word, values.length = itemCount →
      backingStoreReadBulk cfg address values c
        = (true,(List.range itemCount).map fun i => stored cfg c (address.toNat+cfg.writeSize*i))
  | .eraseSector addr => (flashEraseSector cfg addr c).1 = .success
      ↔ addr.toNat % cfg.sectorSize = 0 ∧ addr.toNat+cfg.sectorSize ≤ cfg.flashSize
  | .eraseBlock addr => (flashEraseBlock cfg addr c).1 = .success
      ↔ addr.toNat % cfg.blockSize = 0 ∧ addr.toNat+cfg.blockSize ≤ cfg.flashSize

/-- The region does not have the last block of the flash, and the sector or block is not the last one
of the flash and does not end behind the 32-bit addresses. A block that is read, and each piece of a
written one between the ends of pages and batches, has fewer than 65536 bytes. -/
def Clear (cfg : Config) (c : Chip) : Operation → Prop
  | .erase => cfg.blockCount = 0 ∨ (cfg.blockOffset+cfg.blockCount)*cfg.blockSize < cfg.flashSize
  | .write address itemCount =>
    let start := cfg.blockOffset*cfg.blockSize+address.toNat
    Inside cfg address itemCount → Erased c.mem start (cfg.writeSize*itemCount) →
      BatchesShort cfg start (cfg.writeSize*itemCount)
  | .read address itemCount => Inside cfg address itemCount → cfg.writeSize*itemCount < 2^16
  | .eraseSector addr => addr.toNat % cfg.sectorSize = 0 →
    addr.toNat+cfg.sectorSize ≠ cfg.flashSize ∧ addr.toNat+cfg.sectorSize < 2^32
  | .eraseBlock addr => addr.toNat % cfg.blockSize = 0 →
    addr.toNat+cfg.blockSize ≠ cfg.flashSize ∧ addr.toNat+cfg.blockSize < 2^32

theorem complement_ones : (complement (Vector.replicate cfg.writeSize 0xFF) : cfg.Word)
    = Vector.replicate cfg.writeSize 0 := by
  ext i hi
  simp [complement]

theorem stored_erased {address : Nat}
    (herased : Erased c.mem (cfg.blockOffset*cfg.blockSize+address) cfg.writeSize) :
    stored cfg c address = Vector.replicate cfg.writeSize 0 := by
  rw [stored, ← complement_ones]
  refine congrArg complement (Vector.ext fun j hj => ?_)
  rw [Vector.getElem_ofFn, Vector.getElem_replicate]
  exact herased j hj

theorem stored_written {c' : Chip} {values : List cfg.Word} {address i : Nat}
    (hmem : c'.mem = c.mem.write (cfg.blockOffset*cfg.blockSize+address)
      (bytesOf (values.map complement))) (hi : i < values.length) :
    stored cfg c' (address+cfg.writeSize*i) = values[i] := by
  have hbytes : (bytesOf (values.map complement)).length = cfg.writeSize*values.length := by
    rw [length_bytesOf, List.length_map]
  have hin : i < (values.map complement).length := by rwa [List.length_map]
  rw [stored, hmem, ← complement_complement values[i]]
  refine congrArg complement ?_
  ext j hj
  have hlt := item_lt hi hj
  have hget := getD_bytesOf (values.map complement) hin hj
  rw [List.getElem_map] at hget
  rw [Vector.getElem_ofFn, ← hget, ← Nat.add_assoc, Nat.add_assoc, ByteMem.write_at, List.getD,
    List.getD, List.getElem?_eq_getElem (by rwa [hbytes])]
  rfl

/-- An item of ones is programmed as zeros, so that an erased byte is none of its bytes. -/
theorem stored_unsent {c' : Chip} {address i : Nat}
    (hbyte : c'.mem (cfg.blockOffset*cfg.blockSize+address+i) = 0xFF) :
    stored cfg c' (address+cfg.writeSize*(i/cfg.writeSize)) ≠ Vector.replicate cfg.writeSize 0xFF := by
  intro hvalue
  have hsize := cfg.write_size
  have hj : i % cfg.writeSize < cfg.writeSize := Nat.mod_lt _ (by omega)
  have hget := congrArg (fun value : cfg.Word => value[i % cfg.writeSize]) hvalue
  simp only [stored, complement, Vector.getElem_map, Vector.getElem_ofFn,
    Vector.getElem_replicate] at hget
  rw [Nat.add_assoc, Nat.add_assoc, Nat.div_add_mod, ← Nat.add_assoc, hbyte] at hget
  exact absurd hget (by decide)

theorem erase_right_iff : Right cfg c .erase ↔ Clear cfg c .erase := by
  have hregion := cfg.region
  constructor
  · rintro ⟨hsuccess, -⟩
    by_contra hclear
    obtain ⟨hcount, hend⟩ := not_or.mp hclear
    obtain ⟨n, hn⟩ := Nat.exists_eq_succ_of_ne_zero hcount
    have hfails : (eraseBlocks cfg (n+1) 0 c).1 = false :=
      eraseBlocks_stops (by rw [Nat.add_zero, ← Nat.succ_eq_add_one, ← hn]; omega)
    rw [backingStoreErase, hn, hfails] at hsuccess
    exact Bool.false_ne_true hsuccess
  · intro hclear
    have hbefore : cfg.blockCount = 0
      ∨ (cfg.blockOffset+cfg.blockCount)*cfg.blockSize < cfg.flashSize := hclear
    obtain ⟨hsuccess, hmem⟩ : (eraseBlocks cfg cfg.blockCount 0 c).1 = true ∧ _ :=
      eraseBlocks_mem (by rwa [Nat.add_zero])
    refine ⟨hsuccess,fun address value hinside => ?_⟩
    rw [Inside, Nat.mul_one] at hinside
    rw [backingStoreRead_eq hinside, stored_erased fun i hi => ?_]
    have hlo : cfg.blockOffset ≤ (cfg.blockOffset*cfg.blockSize+address.toNat+i)/cfg.blockSize :=
      (Nat.le_div_iff_mul_le cfg.block_pos).mpr (by omega)
    have hhi : (cfg.blockOffset*cfg.blockSize+address.toNat+i)/cfg.blockSize
        < cfg.blockOffset+cfg.blockCount :=
      (Nat.div_lt_iff_lt_mul cfg.block_pos).mpr (by rw [Nat.add_mul]; omega)
    rw [backingStoreErase, hmem]
    exact if_pos ⟨hlo,hhi⟩

theorem item_address {address : UInt32} {n i : Nat} (hinside : Inside cfg address n) (hi : i < n) :
    (address+UInt32.ofNat (cfg.writeSize*i)).toNat = address.toNat+cfg.writeSize*i
      ∧ address.toNat+cfg.writeSize*i+cfg.writeSize ≤ cfg.blockCount*cfg.blockSize := by
  have hregion := cfg.region
  rw [Nat.add_mul] at hregion
  have hitem : cfg.writeSize*i+cfg.writeSize ≤ cfg.writeSize*n := by
    rw [← Nat.mul_succ]
    exact Nat.mul_le_mul_left _ hi
  rw [Inside] at hinside
  exact ⟨toNat_add cfg (by omega),by omega⟩

theorem write_right_iff {address : UInt32} {itemCount : Nat} :
    Right cfg c (.write address itemCount) ↔ Clear cfg c (.write address itemCount) := by
  refine forall_congr' fun hinside => forall_congr' fun herased => ?_
  constructor
  · intro hright
    by_contra hlong
    have hones : (List.replicate itemCount
        (Vector.replicate cfg.writeSize 0xFF : cfg.Word)).length = itemCount := List.length_replicate
    obtain ⟨-, -, hread⟩ := hright _ hones
    obtain ⟨-, hprogrammed⟩ := @backingStoreWriteBulk_programmed cfg c address _
      (by rw [hones]; exact hinside)
    rw [hones] at hprogrammed
    obtain ⟨i, hi, hbyte⟩ := hprogrammed.unsent hlong
    rw [length_bytesOf, List.length_map, hones] at hi
    rw [herased i hi] at hbyte
    have hitem : i/cfg.writeSize < itemCount := Nat.div_lt_of_lt_mul hi
    obtain ⟨haddress, hfits⟩ := item_address hinside hitem
    have hvalue := congrArg Prod.snd (hread (i/cfg.writeSize) (by rwa [hones]) default)
    rw [backingStoreRead_eq (by rwa [haddress]), haddress, List.getElem_replicate] at hvalue
    exact stored_unsent hbyte hvalue
  · intro hshort values hlength
    subst hlength
    obtain ⟨hsuccess, hprogrammed⟩ := @backingStoreWriteBulk_programmed cfg c address values hinside
    have hbytes : (bytesOf (values.map complement)).length = cfg.writeSize*values.length := by
      rw [length_bytesOf, List.length_map]
    refine ⟨hsuccess,fun a ha => hprogrammed.outside a (by rwa [hbytes]),fun i hi value => ?_⟩
    obtain ⟨haddress, hfits⟩ := item_address hinside hi
    rw [backingStoreRead_eq (by rwa [haddress]), haddress,
      stored_written (hprogrammed.written hshort (by rwa [hbytes])) hi]

theorem read_right_iff {address : UInt32} {itemCount : Nat} :
    Right cfg c (.read address itemCount) ↔ Clear cfg c (.read address itemCount) := by
  refine forall_congr' fun hinside => ?_
  constructor
  · intro hright
    by_contra hlong
    have hlast : ∀ value : cfg.Word, ((List.range itemCount).map fun i =>
        stored cfg c (address.toNat+cfg.writeSize*i)).getLast? = some (complement value) :=
      fun value => by
        have hcount : (List.replicate itemCount value).length = itemCount := List.length_replicate
        have hleft := @backingStoreReadBulk_left cfg c address (List.replicate itemCount value)
          (by rw [hcount]; exact hinside) (by rw [hcount]; omega)
        have hpos : itemCount ≠ 0 := fun h => by simp [h] at hlong
        rw [hright _ hcount, List.getLast?_replicate, if_neg hpos] at hleft
        exact hleft
    have hpos : 0 < cfg.writeSize := by
      have hsize := cfg.write_size
      omega
    have hone := (hlast (Vector.replicate cfg.writeSize 0)).symm.trans
      (hlast (Vector.replicate cfg.writeSize 0xFF))
    rw [complement_ones, Option.some.injEq] at hone
    have hget := congrArg (fun value : cfg.Word => value[0]) hone
    simp only [complement, Vector.getElem_map, Vector.getElem_replicate] at hget
    exact absurd hget (by decide)
  · intro hshort values hlength
    subst hlength
    exact backingStoreReadBulk_short hinside hshort

/-- The default flash, with its last block for the store. -/
def lastBlock : Config :=
  ⟨3,256,4096,65536,524288,7,1,32,8,by decide,by decide,by decide,by decide,by decide,by decide,
    by decide,by decide,by decide,by decide⟩

/-- The default flash, with its first two blocks for the store. -/
def twoBlocks : Config :=
  ⟨3,256,4096,65536,524288,0,2,32,8,by decide,by decide,by decide,by decide,by decide,by decide,
    by decide,by decide,by decide,by decide⟩

end QmkFirmware.FlashSpi
