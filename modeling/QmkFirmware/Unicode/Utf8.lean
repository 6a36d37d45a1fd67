import Mathlib.Algebra.GroupWithZero.Nat
import Mathlib.Data.List.Basic
import QmkFirmware.Lib.ByteProg

/-!
`decode_utf8` and the loop of `send_unicode_string` over a string in memory.
-/

set_option autoImplicit false

namespace QmkFirmware.Unicode

abbrev Prog := ByteProg Unit

open ByteProg

def readByte (a : Nat) : Prog UInt8 := ByteProg.readByte () a

/-- The low `n` bits of a byte, moved up by `k`. -/
def bits (b mask : UInt8) (k : Nat) : Nat := (b &&& mask).toNat <<< k

/-- The branches of `decode_utf8`, from the byte read first. -/
def decodeSequence (b₀ : UInt8) (str : Nat) : Prog (Int × Nat) :=
  if b₀ < 0x80 then pure (b₀.toNat,str+1)
  else if b₀ &&& 0xE0 = 0xC0 then do
    let b₁ ← readByte (str+1)
    pure ((bits b₀ 0x1F 6 ||| bits b₁ 0x3F 0 : Nat),str+2)
  else if b₀ &&& 0xF0 = 0xE0 then do
    let b₁ ← readByte (str+1)
    let b₂ ← readByte (str+2)
    pure ((bits b₀ 0x0F 12 ||| bits b₁ 0x3F 6 ||| bits b₂ 0x3F 0 : Nat),str+3)
  else if b₀ &&& 0xF8 = 0xF0 ∧ b₀ ≤ 0xF4 then do
    let b₁ ← readByte (str+1)
    let b₂ ← readByte (str+2)
    let b₃ ← readByte (str+3)
    pure ((bits b₀ 0x07 18 ||| bits b₁ 0x3F 12 ||| bits b₂ 0x3F 6 ||| bits b₃ 0x3F 0 : Nat),str+4)
  else pure (-1,str+1)

/-- The code point, `-1` when there is none, and where the next character begins. -/
def decodeUtf8 (str : Nat) : Prog (Int × Nat) := do
  let b₀ ← readByte str
  let r ← decodeSequence b₀ str
  -- part of a UTF-16 surrogate pair
  pure (if 0xD800 ≤ r.1 ∧ r.1 ≤ 0xDFFF then -1 else r.1,r.2)

section
variable {σ : Type} (registerUnicode : σ → Nat → σ)

/-- Where the loop ends and what the characters did, unless `fuel` rounds are too few. -/
def sendUnicodeString : Nat → Nat → σ → Prog (Option (Nat × σ))
  | 0, _, _ => pure none
  | fuel+1, str, x => do
    if (← readByte str) = 0 then pure (some (str,x)) else
    let (codePoint, next) ← decodeUtf8 str
    sendUnicodeString fuel next (if 0 ≤ codePoint then registerUnicode x codePoint.toNat else x)

end

def announced (b : UInt8) : Nat :=
  if b < 0x80 then 1
  else if b &&& 0xE0 = 0xC0 then 2
  else if b &&& 0xF0 = 0xE0 then 3
  else if b &&& 0xF8 = 0xF0 ∧ b ≤ 0xF4 then 4
  else 1

/-- The bytes behind one another are sequences as long as their lead bytes announce. -/
inductive Whole : List UInt8 → Prop
  | nil : Whole []
  | sequence {b : UInt8} {cont rest : List UInt8} : cont.length+1 = announced b → Whole rest →
    Whole (b :: (cont ++ rest))

/-- A NUL-terminated string. -/
structure StringAt (mem : ByteMem) (str : Nat) (bytes : List UInt8) : Prop where
  get : ∀ i b, bytes[i]? = some b → mem (str+i) = b
  terminated : mem (str+bytes.length) = 0
  nonzero : ∀ b ∈ bytes, b ≠ 0

theorem announced_pos (b : UInt8) : 0 < announced b := by
  unfold announced
  split_ifs <;> decide

variable {s : ByteMems Unit} {str : Nat} {bytes : List UInt8}

@[simp] theorem val_readByte (a : Nat) : (readByte a).val s = s () a := rfl
@[simp] theorem mem_readByte (a : Nat) : (readByte a).mem s = s := rfl
@[simp] theorem log_readByte (a : Nat) : (readByte a).log s = [.read () a] := rfl

@[simp] theorem decodeSequence_mem (b₀ : UInt8) (str : Nat) : (decodeSequence b₀ str).mem s = s := by
  unfold decodeSequence
  split_ifs <;> simp

theorem decodeSequence_next (b₀ : UInt8) (str : Nat) :
    ((decodeSequence b₀ str).val s).2 = str+announced b₀ := by
  unfold decodeSequence announced
  split_ifs <;> simp

theorem decodeSequence_log (b₀ : UInt8) (str : Nat) :
    .read () str :: (decodeSequence b₀ str).log s
      = (List.range (announced b₀)).map fun i => .read () (str+i) := by
  unfold decodeSequence announced
  split_ifs <;> simp [List.range_succ]

@[simp] theorem decodeUtf8_mem (str : Nat) : (decodeUtf8 str).mem s = s := by
  simp [decodeUtf8]

theorem decodeUtf8_next (str : Nat) :
    ((decodeUtf8 str).val s).2 = str+announced (s () str) := by
  simp [decodeUtf8,decodeSequence_next]

theorem decodeUtf8_log (str : Nat) : (decodeUtf8 str).log s
    = (List.range (announced (s () str))).map fun i => .read () (str+i) := by
  simp [decodeUtf8,decodeSequence_log]

namespace StringAt

theorem drop (front : List UInt8) {rest : List UInt8} (h : StringAt (s ()) str (front ++ rest)) :
    StringAt (s ()) (str+front.length) rest where
  get i b hi := by
    rw [Nat.add_assoc]
    exact h.get _ b (by rw [List.getElem?_append_right (Nat.le_add_right _ _),
      Nat.add_sub_cancel_left, hi])
  terminated := by
    rw [Nat.add_assoc, ← List.length_append]
    exact h.terminated
  nonzero b hb := h.nonzero b (List.mem_append_right front hb)

theorem head {b : UInt8} (h : StringAt (s ()) str (b :: bytes)) : s () str = b ∧ b ≠ 0 :=
  ⟨h.get 0 b rfl,h.nonzero b List.mem_cons_self⟩

end StringAt

section
variable {σ : Type} (registerUnicode : σ → Nat → σ) (x : σ)

def typed (codePoint : Int) : σ :=
  if 0 ≤ codePoint then registerUnicode x codePoint.toNat else x

theorem send_stop (h : s () str = 0) (fuel : Nat) :
    (sendUnicodeString registerUnicode (fuel+1) str x).val s = some (str,x)
      ∧ (sendUnicodeString registerUnicode (fuel+1) str x).log s = [.read () str] := by
  simp [sendUnicodeString,h]

theorem send_step {b : UInt8} (hb : s () str = b) (hne : b ≠ 0) (fuel : Nat) :
    (sendUnicodeString registerUnicode (fuel+1) str x).val s
      = (sendUnicodeString registerUnicode fuel (str+announced b)
        (typed registerUnicode x ((decodeUtf8 str).val s).1)).val s
    ∧ (sendUnicodeString registerUnicode (fuel+1) str x).log s
      = .read () str :: ((List.range (announced b)).map fun i => .read () (str+i))
        ++ (sendUnicodeString registerUnicode fuel (str+announced b)
          (typed registerUnicode x ((decodeUtf8 str).val s).1)).log s := by
  subst hb
  simp [sendUnicodeString,hne,decodeUtf8_log,decodeUtf8_next,typed]

end

/-- The loop ends at the NUL and no byte behind it is read. -/
def StaysInside {σ : Type} (registerUnicode : σ → Nat → σ) (s : ByteMems Unit) (str stop : Nat)
    (x : σ) : Prop :=
  ∃ fuel x', (sendUnicodeString registerUnicode fuel str x).val s = some (stop,x')
    ∧ ∀ a, .read () a ∈ (sendUnicodeString registerUnicode fuel str x).log s → a ≤ stop

section
variable {σ : Type} {registerUnicode : σ → Nat → σ}

theorem stays_of_whole (h : Whole bytes) {str : Nat} (hs : StringAt (s ()) str bytes) (x : σ) :
    StaysInside registerUnicode s str (str+bytes.length) x := by
  induction h generalizing str x with
  | nil =>
    obtain ⟨hval, hlog⟩ := send_stop registerUnicode x hs.terminated 0
    refine ⟨1,x,hval,fun a ha => ?_⟩
    rw [Nat.zero_add, List.length_nil, Nat.add_zero] at hlog
    have hmem : a = str := by simpa [hlog] using ha
    exact Nat.le_of_eq hmem
  | @sequence b cont rest hlen _ ih =>
    obtain ⟨hb, hne⟩ := hs.head
    have hnext := StringAt.drop (b :: cont) hs
    rw [List.length_cons, hlen] at hnext
    obtain ⟨fuel, x', hval, hlog⟩ := ih hnext
      (typed registerUnicode x ((decodeUtf8 str).val s).1)
    obtain ⟨hval', hlog'⟩ := send_step registerUnicode x hb hne fuel
    have hend : str+announced b+rest.length = str+(b :: (cont ++ rest)).length := by
      simp only [List.length_cons, List.length_append]
      omega
    rw [hend] at hval hlog
    refine ⟨fuel+1,x',hval'.trans hval,fun a ha => ?_⟩
    rw [hlog', List.mem_append] at ha
    rcases ha with ha | ha
    · simp only [List.mem_cons, List.mem_map, List.mem_range] at ha
      rcases ha with ha | ⟨i, hi, ha⟩
      · cases ha
        omega
      · cases ha
        omega
    · exact hlog a ha

theorem whole_of_stays {str : Nat} {x : σ} (hs : StringAt (s ()) str bytes)
    (h : StaysInside registerUnicode s str (str+bytes.length) x) : Whole bytes := by
  obtain ⟨fuel, x', hval, hlog⟩ := h
  induction fuel generalizing str bytes x with
  | zero => cases hval
  | succ fuel ih =>
    cases bytes with
    | nil => exact .nil
    | cons b bs =>
      obtain ⟨hb, hne⟩ := hs.head
      obtain ⟨hval', hlog'⟩ := send_step registerUnicode x hb hne fuel
      rw [hval'] at hval
      rw [hlog'] at hlog
      have hpos := announced_pos b
      -- the last byte of the sequence and the byte behind it have both been read
      have hlen : announced b ≤ bs.length+1 := by
        have hread : str+announced b ≤ str+(b :: bs).length := by
          refine hlog _ (List.mem_append_right _ ?_)
          cases fuel with
          | zero => cases hval
          | succ fuel =>
            by_cases hzero : s () (str+announced b) = 0
            · rw [(send_stop registerUnicode _ hzero fuel).2]
              exact List.mem_singleton_self _
            · rw [(send_step registerUnicode _ rfl hzero fuel).2]
              exact List.mem_cons_self
        simpa using hread
      have hsplit : bs = bs.take (announced b-1) ++ bs.drop (announced b-1) :=
        (List.take_append_drop _ bs).symm
      have hcont : (bs.take (announced b-1)).length+1 = announced b := by
        rw [List.length_take]
        omega
      rw [hsplit] at hs ⊢
      have hnext := StringAt.drop (b :: bs.take (announced b-1)) hs
      rw [List.length_cons, hcont] at hnext
      have hend : str+(b :: bs).length = str+announced b+(bs.drop (announced b-1)).length := by
        simp only [List.length_cons, List.length_drop]
        omega
      rw [hend] at hval hlog
      exact .sequence hcont (ih hnext hval fun a ha => hlog a (List.mem_append_right _ ha))

/-- The loop stays inside its string exactly when no sequence is cut off by the end. -/
theorem send_stays_inside_iff {str : Nat} (hs : StringAt (s ()) str bytes) (x : σ) :
    StaysInside registerUnicode s str (str+bytes.length) x ↔ Whole bytes :=
  ⟨whole_of_stays hs,fun h => stays_of_whole h hs x⟩

end

theorem bits_ofNat {m base w : Nat} {mask : UInt8} (hmask : mask.toNat = 2^w-1)
    (hm : m < 2^w) (hbase : base%2^w = 0) (hbyte : m+base < 256) (k : Nat) :
    bits (UInt8.ofNat (m+base)) mask k = m*2^k := by
  rw [bits, UInt8.toNat_and, hmask, Nat.and_two_pow_sub_one_eq_mod, Nat.shiftLeft_eq,
    UInt8.toNat_ofNat', Nat.mod_eq_of_lt hbyte, Nat.add_mod, hbase, Nat.add_zero, Nat.mod_mod,
    Nat.mod_eq_of_lt hm]

theorem bits_cont (n k : Nat) : bits (UInt8.ofNat (n%0x40+0x80)) 0x3F k = n%0x40*2^k :=
  @bits_ofNat (n%0x40) 0x80 6 0x3F rfl (Nat.mod_lt n (by decide)) rfl (by omega) k

theorem bits_or (n k m : Nat) (h : m < 2^k) : n*2^k ||| m = n*2^k+m := by
  rw [← Nat.shiftLeft_eq]
  exact (Nat.shiftLeft_add_eq_or_of_lt h n).symm

theorem lead_two : ∀ n : Fin 32, ¬ UInt8.ofNat (n.val+0xC0) < 0x80
    ∧ UInt8.ofNat (n.val+0xC0) &&& 0xE0 = 0xC0 := by
  decide

theorem lead_three : ∀ n : Fin 16, ¬ UInt8.ofNat (n.val+0xE0) < 0x80
    ∧ UInt8.ofNat (n.val+0xE0) &&& 0xE0 ≠ 0xC0 ∧ UInt8.ofNat (n.val+0xE0) &&& 0xF0 = 0xE0 := by
  decide

theorem lead_four : ∀ n : Fin 5, ¬ UInt8.ofNat (n.val+0xF0) < 0x80
    ∧ UInt8.ofNat (n.val+0xF0) &&& 0xE0 ≠ 0xC0 ∧ UInt8.ofNat (n.val+0xF0) &&& 0xF0 ≠ 0xE0
    ∧ UInt8.ofNat (n.val+0xF0) &&& 0xF8 = 0xF0 ∧ UInt8.ofNat (n.val+0xF0) ≤ 0xF4 := by
  decide

theorem decode_one {m : Nat} (hm : m < 0x80) :
    (decodeSequence (.ofNat m) str).val s = ((m : Int),str+1) := by
  have hto : (UInt8.ofNat m).toNat = m := UInt8.toNat_ofNat_of_lt' (Nat.lt_trans hm (by decide))
  have hlt : UInt8.ofNat m < 0x80 := UInt8.lt_iff_toNat_lt.mpr (by rw [hto]; exact hm)
  rw [decodeSequence, if_pos hlt, val_pure, hto]

theorem decode_two {m n : Nat} (hm : m < 0x20) (h₁ : s () (str+1) = .ofNat (n%0x40+0x80)) :
    (decodeSequence (.ofNat (m+0xC0)) str).val s = (((m*2^6+n%0x40 : Nat) : Int),str+2) := by
  obtain ⟨h₂, h₃⟩ := lead_two ⟨m,hm⟩
  have hlead := @bits_ofNat m 0xC0 5 0x1F rfl hm rfl (by omega)
  rw [decodeSequence, if_neg h₂, if_pos h₃]
  simp only [val_bind, mem_readByte, val_readByte, val_pure, h₁, hlead, bits_cont]
  rw [bits_or _ 6 _ (by omega), Nat.pow_zero, Nat.mul_one]

theorem decode_three {m n₁ n₂ : Nat} (hm : m < 0x10) (h₁ : s () (str+1) = .ofNat (n₁%0x40+0x80))
    (h₂ : s () (str+2) = .ofNat (n₂%0x40+0x80)) :
    (decodeSequence (.ofNat (m+0xE0)) str).val s
      = (((m*2^12+n₁%0x40*2^6+n₂%0x40 : Nat) : Int),str+3) := by
  obtain ⟨h₃, h₄, h₅⟩ := lead_three ⟨m,hm⟩
  have hlead := @bits_ofNat m 0xE0 4 0x0F rfl hm rfl (by omega)
  rw [decodeSequence, if_neg h₃, if_neg h₄, if_pos h₅]
  simp only [val_bind, mem_readByte, val_readByte, val_pure, h₁, h₂, hlead, bits_cont]
  rw [Nat.or_assoc, bits_or (n₁%0x40) 6 _ (by omega), bits_or m 12 _ (by omega), Nat.pow_zero,
    Nat.mul_one, Nat.add_assoc]

theorem decode_four {m n₁ n₂ n₃ : Nat} (hm : m < 5) (h₁ : s () (str+1) = .ofNat (n₁%0x40+0x80))
    (h₂ : s () (str+2) = .ofNat (n₂%0x40+0x80)) (h₃ : s () (str+3) = .ofNat (n₃%0x40+0x80)) :
    (decodeSequence (.ofNat (m+0xF0)) str).val s
      = (((m*2^18+n₁%0x40*2^12+n₂%0x40*2^6+n₃%0x40 : Nat) : Int),str+4) := by
  obtain ⟨h₄, h₅, h₆, h₇⟩ := lead_four ⟨m,hm⟩
  have hlead := @bits_ofNat m 0xF0 3 0x07 rfl (by omega) rfl (by omega)
  rw [decodeSequence, if_neg h₄, if_neg h₅, if_neg h₆, if_pos h₇]
  simp only [val_bind, mem_readByte, val_readByte, val_pure, h₁, h₂, h₃, hlead, bits_cont]
  rw [Nat.or_assoc, Nat.or_assoc, bits_or (n₂%0x40) 6 _ (by omega),
    bits_or (n₁%0x40) 12 _ (by omega), bits_or m 18 _ (by omega), Nat.pow_zero, Nat.mul_one]
  simp only [Nat.add_assoc]

theorem decodeSequence_char (c : Char) {rest : List UInt8}
    (h : StringAt (s ()) str (String.utf8EncodeChar c ++ rest)) :
    (decodeSequence (s () str) str).val s
      = ((c.toNat : Int),str+(String.utf8EncodeChar c).length) := by
  have hvalid : c.toNat < 0xD800 ∨ 0xDFFF < c.toNat ∧ c.toNat < 0x110000 := c.valid
  have hget (i : Nat) (b : UInt8) (hi : (String.utf8EncodeChar c)[i]? = some b) :
      s () (str+i) = b := by
    refine h.get i b ?_
    rw [List.getElem?_append_left (List.getElem?_eq_some_iff.mp hi).1, hi]
  have hc : c.val.toNat = c.toNat := rfl
  rw [String.utf8EncodeChar, hc] at hget ⊢
  generalize c.toNat = n at hvalid hget ⊢
  split_ifs at hget ⊢ with h₁ h₂ h₃
  · rw [show s () str = _ from hget 0 _ rfl]
    exact decode_one (by omega)
  · rw [show s () str = _ from hget 0 _ rfl, decode_two (by omega) (hget 1 _ rfl)]
    refine Prod.ext (congrArg Int.ofNat ?_) rfl
    omega
  · rw [show s () str = _ from hget 0 _ rfl, decode_three (by omega) (hget 1 _ rfl) (hget 2 _ rfl)]
    refine Prod.ext (congrArg Int.ofNat ?_) rfl
    omega
  · rw [show s () str = _ from hget 0 _ rfl,
      decode_four (by omega) (hget 1 _ rfl) (hget 2 _ rfl) (hget 3 _ rfl)]
    refine Prod.ext (congrArg Int.ofNat ?_) rfl
    omega

theorem decodeUtf8_char (c : Char) {rest : List UInt8}
    (h : StringAt (s ()) str (String.utf8EncodeChar c ++ rest)) :
    (decodeUtf8 str).val s = ((c.toNat : Int),str+(String.utf8EncodeChar c).length) := by
  have hvalid : c.toNat < 0xD800 ∨ 0xDFFF < c.toNat ∧ c.toNat < 0x110000 := c.valid
  simp only [decodeUtf8, val_bind, mem_readByte, val_readByte, val_pure, decodeSequence_char c h]
  rw [if_neg (by omega)]

def cutShort : ByteMems Unit := fun _ a => if a = 0 then 0xC3 else if a = 1 then 0 else 0x41

theorem cutShort_string : StringAt (cutShort ()) 0 [0xC3] := by
  refine ⟨fun i b hi => ?_,rfl,List.forall_mem_singleton.mpr (by decide)⟩
  obtain ⟨rfl, rfl⟩ : i = 0 ∧ 0xC3 = b := by simpa [List.getElem?_singleton] using hi
  rfl

theorem cutShort_reads_on : ¬ ∀ (s : ByteMems Unit) (str : Nat) (bytes : List UInt8),
    StringAt (s ()) str bytes →
      StaysInside (fun _ _ => ()) s str (str+bytes.length) () := by
  intro h
  have hwhole := whole_of_stays cutShort_string (h cutShort 0 _ cutShort_string)
  generalize hbytes : [(0xC3 : UInt8)] = bytes at hwhole
  cases hwhole with
  | nil => cases hbytes
  | @sequence b cont rest hlen _ =>
    obtain ⟨rfl, hrest⟩ := List.cons_eq_cons.mp hbytes
    obtain ⟨rfl, -⟩ := List.append_eq_nil_iff.mp hrest.symm
    exact absurd hlen (by decide)

/-- `é`. -/
def acute : ByteMems Unit := fun _ a => if a = 0 then 0xC3 else if a = 1 then 0xA9 else 0

theorem acute_string : StringAt (acute ()) 0 [0xC3,0xA9] := by
  refine ⟨fun i b hi => ?_,rfl,by simp⟩
  match i with
  | 0 | 1 => cases hi; rfl
  | i+2 => cases hi

theorem send_stays_inside_acute : StaysInside (fun _ _ => ()) acute 0 2 () ↔ Whole [0xC3,0xA9] :=
  send_stays_inside_iff acute_string ()

end QmkFirmware.Unicode
