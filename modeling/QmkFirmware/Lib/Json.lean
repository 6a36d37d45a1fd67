import Mathlib.Data.Char
import Mathlib.Data.List.Lex
import Mathlib.Data.List.Sort

/-!
JSON values, how their strings and numbers are written, and how a text is read.
-/

set_option autoImplicit false

namespace QmkFirmware.Json

abbrev Str := List Char

inductive Value where
  | str (s : Str)
  | int (n : Int)
  | bool (b : Bool)
  | null
  | list (items : List Value)
  | dict (items : List (Str × Value))
  deriving Repr

@[elab_as_elim]
theorem Value.ind {P : Value → Prop} (str : ∀ s, P (.str s)) (int : ∀ n, P (.int n))
    (bool : ∀ b, P (.bool b)) (null : P .null)
    (list : ∀ items, (∀ v ∈ items, P v) → P (.list items))
    (dict : ∀ items, (∀ p ∈ items, P p.2) → P (.dict items)) : ∀ v, P v
  | .str s => str s
  | .int n => int n
  | .bool b => bool b
  | .null => null
  | .list items => list items fun v _ => Value.ind str int bool null list dict v
  | .dict items => dict items fun p _ => Value.ind str int bool null list dict p.2
termination_by v => sizeOf v
decreasing_by
  · have hlt := List.sizeOf_lt_of_mem ‹_›
    rw [Value.list.sizeOf_spec]
    omega
  · have hlt := List.sizeOf_lt_of_mem ‹_›
    have hp : sizeOf p = 1+sizeOf p.1+sizeOf p.2 := rfl
    rw [Value.dict.sizeOf_spec]
    omega

def sortItems {α : Type} (items : List (Str × α)) : List (Str × α) :=
  items.insertionSort fun p q => p.1 ≤ q.1

mutual

def canon : Value → Value
  | .list items => .list (canonAll items)
  | .dict items => .dict (sortItems (canonItems items))
  | v => v

def canonAll : List Value → List Value
  | [] => []
  | v :: vs => canon v :: canonAll vs

def canonItems : List (Str × Value) → List (Str × Value)
  | [] => []
  | (k,v) :: items => (k,canon v) :: canonItems items

end

mutual

def distinct : Value → Bool
  | .list items => distinctAll items
  | .dict items => decide ((items.map Prod.fst).Nodup) && distinctItems items
  | _ => true

def distinctAll : List Value → Bool
  | [] => true
  | v :: vs => distinct v && distinctAll vs

def distinctItems : List (Str × Value) → Bool
  | [] => true
  | (_,v) :: items => distinct v && distinctItems items

end

def hexDigit (n : Nat) : Char := if n < 10 then Char.ofNat (48+n) else Char.ofNat (87+n)

def hex4 (n : Nat) : List Char :=
  ['\\','u',hexDigit (n/4096%16),hexDigit (n/256%16),hexDigit (n/16%16),hexDigit (n%16)]

def escape (c : Char) : List Char :=
  if c = '"' then ['\\','"']
  else if c = '\\' then ['\\','\\']
  else if c = '\n' then ['\\','n']
  else if c = '\r' then ['\\','r']
  else if c = '\t' then ['\\','t']
  else if c = '\x0c' then ['\\','f']
  else if c = '\x08' then ['\\','b']
  else if 32 ≤ c.toNat ∧ c.toNat ≤ 126 then [c]
  else if c.toNat < 65536 then hex4 c.toNat
  else hex4 (0xD800+(c.toNat-65536)/1024) ++ hex4 (0xDC00+(c.toNat-65536)%1024)

def dumpsStr (s : Str) : List Char := '"' :: (s.flatMap escape ++ ['"'])

def dumpsInt (n : Int) : List Char :=
  if n < 0 then '-' :: Nat.toDigits 10 n.natAbs else Nat.toDigits 10 n.natAbs

def dumpsBool (b : Bool) : List Char :=
  if b then ['t','r','u','e'] else ['f','a','l','s','e']

def dumpsNull : List Char := ['n','u','l','l']

def isSpace (c : Char) : Bool := c = ' ' || c = '\t' || c = '\n' || c = '\r'

def skip (cs : List Char) : List Char := cs.dropWhile isSpace

def expect : List Char → List Char → Option (List Char)
  | [], cs => some cs
  | c :: word, c' :: cs => if c' = c then expect word cs else none
  | _ :: _, [] => none

/-- What follows this character, after white space. -/
def next (c : Char) (cs : List Char) : Option (List Char) := expect [c] (skip cs)

def hexValue (c : Char) : Option Nat :=
  if 48 ≤ c.toNat ∧ c.toNat ≤ 57 then some (c.toNat-48)
  else if 97 ≤ c.toNat ∧ c.toNat ≤ 102 then some (c.toNat-87)
  else if 65 ≤ c.toNat ∧ c.toNat ≤ 70 then some (c.toNat-55)
  else none

def readHex4 : List Char → Option (Nat × List Char)
  | a :: b :: c :: d :: cs => do
    let a ← hexValue a
    let b ← hexValue b
    let c ← hexValue c
    let d ← hexValue d
    some (4096*a+256*b+16*c+d,cs)
  | _ => none

def readChar (n : Nat) : Option Char :=
  if n < 0xD800 ∨ 0xDFFF < n ∧ n < 0x110000 then some (Char.ofNat n) else none

def readUnicode (cs : List Char) : Option (Char × List Char) := do
  let (n,rest) ← readHex4 cs
  if 0xD800 ≤ n ∧ n ≤ 0xDBFF then
    let rest ← expect ['\\','u'] rest
    let (m,rest) ← readHex4 rest
    if 0xDC00 ≤ m ∧ m ≤ 0xDFFF then
      let c ← readChar (65536+1024*(n-0xD800)+(m-0xDC00))
      some (c,rest)
    else none
  else
    let c ← readChar n
    some (c,rest)

def unescape : List Char → Option (Char × List Char)
  | [] => none
  | c :: cs =>
    if c = '"' ∨ c = '\\' ∨ c = '/' then some (c,cs)
    else if c = 'n' then some ('\n',cs)
    else if c = 'r' then some ('\r',cs)
    else if c = 't' then some ('\t',cs)
    else if c = 'f' then some ('\x0c',cs)
    else if c = 'b' then some ('\x08',cs)
    else if c = 'u' then readUnicode cs
    else none

def chars : Nat → List Char → Option (Str × List Char)
  | fuel+1, c :: cs =>
    if c = '"' then some ([],cs)
    else if c = '\\' then (unescape cs).bind fun r =>
      (chars fuel r.2).map fun r' => (r.1 :: r'.1,r'.2)
    else if c.toNat < 32 then none
    else (chars fuel cs).map fun r => (c :: r.1,r.2)
  | _, _ => none

def string (cs : List Char) : Option (Str × List Char) := chars (cs.length+1) cs

def isFraction : List Char → Bool
  | c :: d :: cs => (c = '.' && d.isDigit) ||
      (c = 'e' || c = 'E') &&
        (d.isDigit || (d = '+' || d = '-') && (cs.head?.map Char.isDigit).getD false)
  | _ => false

def readNat (cs : List Char) : Option (Nat × List Char) :=
  let digits := cs.takeWhile Char.isDigit
  if digits = [] then none
  else
    let r := if cs.head? = some '0' then (0,cs.tail)
      else (Nat.ofDigitChars 10 digits 0,cs.dropWhile Char.isDigit)
    if isFraction r.2 then none else some r

def readInt (cs : List Char) : Option (Int × List Char) :=
  match expect ['-'] cs with
  | some cs => (readNat cs).map fun r => (-(r.1:Int),r.2)
  | none => (readNat cs).map fun r => ((r.1:Int),r.2)

def scalar (cs : List Char) : Option (Value × List Char) :=
  match expect ['n','u','l','l'] cs, expect ['t','r','u','e'] cs,
    expect ['f','a','l','s','e'] cs with
  | some cs, _, _ => some (.null,cs)
  | _, some cs, _ => some (.bool true,cs)
  | _, _, some cs => some (.bool false,cs)
  | _, _, _ => (readInt cs).map fun r => (.int r.1,r.2)

abbrev PairsHook := List (Str × Value) → Option (List (Str × Value))

section
variable (hook : PairsHook)

mutual

def value : Nat → List Char → Option (Value × List Char)
  | 0, _ => none
  | fuel+1, cs =>
    match next '"' cs, next '[' cs, next '{' cs with
    | some cs, _, _ => (string cs).map fun r => (.str r.1,r.2)
    | _, some cs, _ =>
      match next ']' cs with
      | some cs => some (.list [],cs)
      | none => (elements fuel cs).map fun r => (.list r.1,r.2)
    | _, _, some cs =>
      match next '}' cs with
      | some cs => (hook []).map fun items => (.dict items,cs)
      | none => (members fuel cs).bind fun r => (hook r.1).map fun items => (.dict items,r.2)
    | _, _, _ => scalar (skip cs)

def elements : Nat → List Char → Option (List Value × List Char)
  | 0, _ => none
  | fuel+1, cs => (value fuel cs).bind fun v =>
    match next ',' v.2 with
    | some cs => (elements fuel cs).map fun r => (v.1 :: r.1,r.2)
    | none => (next ']' v.2).map fun cs => ([v.1],cs)

def members : Nat → List Char → Option (List (Str × Value) × List Char)
  | 0, _ => none
  | fuel+1, cs => (next '"' cs).bind fun cs => (string cs).bind fun k =>
    (next ':' k.2).bind fun cs => (value fuel cs).bind fun v =>
      match next ',' v.2 with
      | some cs => (members fuel cs).map fun r => ((k.1,v.1) :: r.1,r.2)
      | none => (next '}' v.2).map fun cs => ([(k.1,v.1)],cs)

end

def loads (cs : List Char) : Option Value :=
  (value hook (cs.length+1) cs).bind fun r => if skip r.2 = [] then some r.1 else none

end

theorem skip_space {ws : List Char} (h : ws.all isSpace) (cs : List Char) :
    skip (ws ++ cs) = skip cs := by
  induction ws with
  | nil => rfl
  | cons c ws ih =>
    rw [List.all_cons, Bool.and_eq_true] at h
    exact (List.dropWhile_cons_of_pos h.1).trans (ih h.2)

theorem skip_cons {c : Char} (h : isSpace c = false) (cs : List Char) : skip (c :: cs) = c :: cs :=
  List.dropWhile_cons_of_neg (by rw [h]; decide)

theorem next_space {ws : List Char} (h : ws.all isSpace) (c : Char) (cs : List Char) :
    next c (ws ++ cs) = next c cs := by
  rw [next, skip_space h, next]

theorem next_self {c : Char} (h : isSpace c = false) (cs : List Char) :
    next c (c :: cs) = some cs := by
  rw [next, skip_cons h, expect, if_pos rfl, expect]

theorem next_other {c d : Char} (h : isSpace d = false) (hne : d ≠ c) (cs : List Char) :
    next c (d :: cs) = none := by
  rw [next, skip_cons h, expect, if_neg hne]

section
variable {hook : PairsHook} {ws : List Char}

theorem value_space (h : ws.all isSpace) (fuel : Nat) (cs : List Char) :
    value hook fuel (ws ++ cs) = value hook fuel cs := by
  cases fuel with
  | zero => rw [value, value]
  | succ fuel => simp only [value, next_space h, skip_space h]

theorem elements_space (h : ws.all isSpace) (fuel : Nat) (cs : List Char) :
    elements hook fuel (ws ++ cs) = elements hook fuel cs := by
  cases fuel with
  | zero => rw [elements, elements]
  | succ fuel => rw [elements, elements, value_space h]

theorem members_space (h : ws.all isSpace) (fuel : Nat) (cs : List Char) :
    members hook fuel (ws ++ cs) = members hook fuel cs := by
  cases fuel with
  | zero => rw [members, members]
  | succ fuel => rw [members, members, next_space h]

end

theorem hexValue_hexDigit : ∀ n < 16, hexValue (hexDigit n) = some n := by decide

theorem readHex4_hex4 {n : Nat} (h : n < 65536) (cs : List Char) :
    readHex4 (hexDigit (n/4096%16) :: hexDigit (n/256%16) :: hexDigit (n/16%16) ::
      hexDigit (n%16) :: cs) = some (n,cs) := by
  have hlt : ∀ m : Nat, m%16 < 16 := fun m => Nat.mod_lt m (by decide)
  have hn : 4096*(n/4096%16)+256*(n/256%16)+16*(n/16%16)+n%16 = n := by omega
  simp only [readHex4, hexValue_hexDigit _ (hlt _), Option.bind_eq_bind, Option.bind_some, hn]

theorem toNat_valid (c : Char) : c.toNat < 0xD800 ∨ 0xDFFF < c.toNat ∧ c.toNat < 0x110000 :=
  c.valid

theorem readChar_toNat (c : Char) : readChar c.toNat = some c := by
  rw [readChar, if_pos (toNat_valid c), Char.ofNat_toNat]

theorem readUnicode_hex4 {c : Char} (h : c.toNat < 65536) (cs : List Char) :
    readUnicode ((hex4 c.toNat).drop 2 ++ cs) = some (c,cs) := by
  have hv := toNat_valid c
  have hn : ¬(0xD800 ≤ c.toNat ∧ c.toNat ≤ 0xDBFF) := by omega
  show readUnicode (_ :: _ :: _ :: _ :: cs) = _
  rw [readUnicode, readHex4_hex4 h]
  simp only [Option.bind_eq_bind, Option.bind_some, if_neg hn, readChar_toNat]

theorem readUnicode_halves {n m : Nat} (hn : 0xD800 ≤ n ∧ n ≤ 0xDBFF)
    (hm : 0xDC00 ≤ m ∧ m ≤ 0xDFFF) (cs : List Char) :
    readUnicode ((hex4 n).drop 2 ++ (hex4 m ++ cs)) =
      (readChar (65536+1024*(n-0xD800)+(m-0xDC00))).map (·,cs) := by
  show readUnicode (_ :: _ :: _ :: _ :: '\\' :: 'u' :: _ :: _ :: _ :: _ :: cs) = _
  rw [readUnicode, readHex4_hex4 (by omega)]
  simp only [Option.bind_eq_bind, Option.bind_some, if_pos hn, expect, if_true,
    readHex4_hex4 (show m < 65536 by omega), if_pos hm]
  generalize readChar _ = c
  cases c <;> rfl

theorem readUnicode_pair {c : Char} (h : 65536 ≤ c.toNat) (cs : List Char) :
    readUnicode ((hex4 (0xD800+(c.toNat-65536)/1024)).drop 2 ++
      (hex4 (0xDC00+(c.toNat-65536)%1024) ++ cs)) = some (c,cs) := by
  have hv := toNat_valid c
  have hc : 65536+1024*(0xD800+(c.toNat-65536)/1024-0xD800)+
      (0xDC00+(c.toNat-65536)%1024-0xDC00) = c.toNat := by omega
  rw [readUnicode_halves (by omega) (by omega), hc, readChar_toNat, Option.map_some]

theorem escape_cases (c : Char) :
    (escape c = [c] ∧ c ≠ '"' ∧ c ≠ '\\' ∧ ¬c.toNat < 32) ∨
      ∃ e, escape c = '\\' :: e ∧ ∀ cs, unescape (e ++ cs) = some (c,cs) := by
  by_cases hq : c = '"'
  · subst hq; exact Or.inr ⟨_,rfl,fun _ => rfl⟩
  by_cases hb : c = '\\'
  · subst hb; exact Or.inr ⟨_,rfl,fun _ => rfl⟩
  by_cases hn : c = '\n'
  · subst hn; exact Or.inr ⟨_,rfl,fun _ => rfl⟩
  by_cases hr : c = '\r'
  · subst hr; exact Or.inr ⟨_,rfl,fun _ => rfl⟩
  by_cases ht : c = '\t'
  · subst ht; exact Or.inr ⟨_,rfl,fun _ => rfl⟩
  by_cases hf : c = '\x0c'
  · subst hf; exact Or.inr ⟨_,rfl,fun _ => rfl⟩
  by_cases hbs : c = '\x08'
  · subst hbs; exact Or.inr ⟨_,rfl,fun _ => rfl⟩
  rw [escape, if_neg hq, if_neg hb, if_neg hn, if_neg hr, if_neg ht, if_neg hf, if_neg hbs]
  by_cases hp : 32 ≤ c.toNat ∧ c.toNat ≤ 126
  · rw [if_pos hp]
    exact Or.inl ⟨rfl,hq,hb,Nat.not_lt.mpr hp.1⟩
  rw [if_neg hp]
  by_cases hs : c.toNat < 65536
  · rw [if_pos hs]
    exact Or.inr ⟨_,rfl,readUnicode_hex4 hs⟩
  · rw [if_neg hs]
    refine Or.inr ⟨'u' :: ((hex4 (0xD800+(c.toNat-65536)/1024)).drop 2 ++ hex4 _),rfl,fun cs => ?_⟩
    rw [List.cons_append, List.append_assoc]
    exact readUnicode_pair (Nat.not_lt.mp hs) cs

theorem chars_escape {s : Str} {fuel : Nat} (h : s.length < fuel) (rest : List Char) :
    chars fuel (s.flatMap escape ++ '"' :: rest) = some (s,rest) := by
  induction s generalizing fuel with
  | nil =>
    obtain ⟨fuel,rfl⟩ := Nat.exists_eq_add_of_lt h
    rfl
  | cons c s ih =>
    obtain ⟨fuel,rfl⟩ := Nat.exists_eq_add_of_lt h
    have hs := @ih ((c :: s).length+fuel) (by rw [List.length_cons]; omega)
    rw [List.flatMap_cons, List.append_assoc]
    rcases escape_cases c with ⟨he,hq,hb,hc⟩ | ⟨e,he,hu⟩
    · rw [he, List.singleton_append, chars, if_neg hq, if_neg hb, if_neg hc, hs]
      rfl
    · rw [he, List.cons_append, chars, if_neg (by decide), if_pos rfl, hu, Option.bind_some, hs]
      rfl

def plain (s : Str) : Bool := s.all fun c => c ≠ '"' && c ≠ '\\' && 32 ≤ c.toNat

theorem plain_cons {c : Char} {s : Str} :
    plain (c :: s) = true ↔ (c ≠ '"' ∧ c ≠ '\\' ∧ 32 ≤ c.toNat) ∧ plain s = true := by
  simp [plain, and_assoc]

theorem chars_plain {s : Str} (hp : plain s) {fuel : Nat} (h : s.length < fuel)
    (rest : List Char) : chars fuel (s ++ '"' :: rest) = some (s,rest) := by
  induction s generalizing fuel with
  | nil =>
    obtain ⟨fuel,rfl⟩ := Nat.exists_eq_add_of_lt h
    rfl
  | cons c s ih =>
    obtain ⟨fuel,rfl⟩ := Nat.exists_eq_add_of_lt h
    obtain ⟨⟨hq,hb,hc⟩,hp⟩ := plain_cons.mp hp
    rw [List.cons_append, chars, if_neg hq, if_neg hb, if_neg (Nat.not_lt.mpr hc),
      ih hp (by rw [List.length_cons]; omega)]
    rfl

theorem readHex4_some {cs rest : List Char} {n : Nat} (h : readHex4 cs = some (n,rest)) :
    ∃ u, cs = u ++ rest ∧ '"' ∉ u := by
  have hd : hexValue '"' = none := by decide
  unfold readHex4 at h
  split at h
  · next a b c d cs =>
    simp only [Option.bind_eq_bind, Option.bind_eq_some_iff, Option.some.injEq,
      Prod.mk.injEq] at h
    obtain ⟨a',ha,b',hb,c',hc,d',hd',-,rfl⟩ := h
    refine ⟨[a,b,c,d],rfl,?_⟩
    simp only [List.mem_cons, List.not_mem_nil, or_false, not_or]
    refine ⟨?_,?_,?_,?_⟩
    · rintro rfl; exact absurd (hd.symm.trans ha) (by simp)
    · rintro rfl; exact absurd (hd.symm.trans hb) (by simp)
    · rintro rfl; exact absurd (hd.symm.trans hc) (by simp)
    · rintro rfl; exact absurd (hd.symm.trans hd') (by simp)
  · exact absurd h (by simp)

theorem expect_some {word cs rest : List Char} (h : expect word cs = some rest) :
    cs = word ++ rest := by
  induction word generalizing cs with
  | nil => exact Option.some.inj h
  | cons c word ih =>
    cases cs with
    | nil => exact absurd h (by simp [expect])
    | cons d cs =>
      rw [expect] at h
      split_ifs at h with hd
      rw [hd, ih h, List.cons_append]

theorem readUnicode_some {cs rest : List Char} {c : Char} (h : readUnicode cs = some (c,rest)) :
    ∃ u, cs = u ++ rest ∧ '"' ∉ u := by
  unfold readUnicode at h
  simp only [Option.bind_eq_bind, Option.bind_eq_some_iff] at h
  obtain ⟨⟨n,r⟩,hn,h⟩ := h
  obtain ⟨u,rfl,hu⟩ := readHex4_some hn
  dsimp only at h
  split_ifs at h with hpair
  · simp only [Option.bind_eq_some_iff] at h
    obtain ⟨r',hr',⟨m,r''⟩,hm,h⟩ := h
    obtain ⟨v,rfl,hv⟩ := readHex4_some hm
    dsimp only at h
    split_ifs at h
    simp only [Option.bind_eq_some_iff, Option.some.injEq, Prod.mk.injEq] at h
    obtain ⟨_,-,-,rfl⟩ := h
    refine ⟨u ++ (['\\','u'] ++ v),?_,by simp [hu, hv]⟩
    rw [expect_some hr', List.append_assoc, List.append_assoc]
  · simp only [Option.bind_eq_some_iff, Option.some.injEq, Prod.mk.injEq] at h
    obtain ⟨_,-,-,rfl⟩ := h
    exact ⟨u,rfl,hu⟩

theorem unescape_some {cs rest : List Char} {c : Char} (h : unescape cs = some (c,rest)) :
    ∃ d u, cs = d :: u ++ rest ∧ (d :: u).count '"' ≤ [c].count '"' := by
  cases cs with
  | nil => exact absurd h (by simp [unescape])
  | cons d cs =>
    have hsingle : ∀ {c' : Char}, d ≠ '"' → some (c',cs) = some (c,rest) →
        ∃ d' u, d :: cs = d' :: u ++ rest ∧ (d' :: u).count '"' ≤ [c].count '"' := by
      intro c' hd he
      obtain ⟨-,rfl⟩ := Prod.mk.inj (Option.some.inj he)
      exact ⟨d,[],rfl,by rw [List.count_singleton, beq_false_of_ne hd]; exact Nat.zero_le _⟩
    rw [unescape] at h
    by_cases hself : d = '"' ∨ d = '\\' ∨ d = '/'
    · rw [if_pos hself] at h
      obtain ⟨rfl,rfl⟩ := Prod.mk.inj (Option.some.inj h)
      exact ⟨d,[],rfl,Nat.le_refl _⟩
    have hd : d ≠ '"' := fun hq => hself (Or.inl hq)
    rw [if_neg hself] at h
    by_cases hn : d = 'n'
    · rw [if_pos hn] at h; exact hsingle hd h
    rw [if_neg hn] at h
    by_cases hr : d = 'r'
    · rw [if_pos hr] at h; exact hsingle hd h
    rw [if_neg hr] at h
    by_cases ht : d = 't'
    · rw [if_pos ht] at h; exact hsingle hd h
    rw [if_neg ht] at h
    by_cases hf : d = 'f'
    · rw [if_pos hf] at h; exact hsingle hd h
    rw [if_neg hf] at h
    by_cases hb : d = 'b'
    · rw [if_pos hb] at h; exact hsingle hd h
    rw [if_neg hb] at h
    by_cases hu : d = 'u'
    · rw [if_pos hu] at h
      obtain ⟨u,rfl,hnot⟩ := readUnicode_some h
      refine ⟨d,u,rfl,?_⟩
      rw [List.count_eq_zero.mpr (by simp [hu, hnot])]
      exact Nat.zero_le _
    · rw [if_neg hu] at h
      exact absurd h (by simp)

/-- The text of a string is not shorter than the string, and as long only without escapes; every
quote in it is an escaped one. -/
theorem chars_some {fuel : Nat} {cs rest : List Char} {t : Str}
    (h : chars fuel cs = some (t,rest)) : ∃ u, cs = u ++ '"' :: rest ∧
      u.count '"' ≤ t.count '"' ∧ (u = t ∧ plain t ∨ t.length < u.length) := by
  induction fuel generalizing cs t with
  | zero => exact absurd h (by simp [chars])
  | succ fuel ih =>
    cases cs with
    | nil => exact absurd h (by simp [chars])
    | cons c cs =>
      rw [chars] at h
      split_ifs at h with hq hb hc
      · obtain ⟨rfl,rfl⟩ := Prod.mk.inj (Option.some.inj h)
        exact ⟨[],by rw [hq]; rfl,Nat.le_refl _,Or.inl ⟨rfl,rfl⟩⟩
      · simp only [Option.bind_eq_some_iff, Option.map_eq_some_iff] at h
        obtain ⟨⟨c',r⟩,he,⟨t',r'⟩,hr,ht⟩ := h
        obtain ⟨rfl,rfl⟩ := Prod.mk.inj ht
        obtain ⟨d,u,rfl,hd⟩ := unescape_some he
        obtain ⟨v,hv,hcount,hlen⟩ := ih hr
        dsimp only at hv hcount hlen ⊢
        have hle : t'.length ≤ v.length :=
          hlen.elim (fun h => Nat.le_of_eq (by rw [h.1])) Nat.le_of_lt
        refine ⟨c :: (d :: u ++ v),?_,?_,Or.inr ?_⟩
        · simp only [hv, List.cons_append, List.append_assoc]
        · have hsum : (c' :: t').count '"' = [c'].count '"'+t'.count '"' :=
            @List.count_append _ _ '"' [c'] t'
          rw [hb, List.count_cons_of_ne (by decide), List.count_append, hsum]
          exact Nat.add_le_add hd hcount
        · simp only [List.length_cons, List.length_append]
          omega
      · simp only [Option.map_eq_some_iff] at h
        obtain ⟨⟨t',r'⟩,hr,ht⟩ := h
        obtain ⟨rfl,rfl⟩ := Prod.mk.inj ht
        obtain ⟨v,hv,hcount,hlen⟩ := ih hr
        dsimp only at hv hcount hlen ⊢
        refine ⟨c :: v,by rw [hv]; rfl,?_,?_⟩
        · rw [List.count_cons_of_ne hq, List.count_cons_of_ne hq]
          exact hcount
        · rcases hlen with ⟨rfl,hp⟩ | hlt
          · exact Or.inl ⟨rfl,plain_cons.mpr ⟨⟨hq,hb,Nat.not_lt.mp hc⟩,hp⟩⟩
          · exact Or.inr (Nat.succ_lt_succ hlt)

theorem chars_raw {fuel : Nat} {s : Str} {cs rest : List Char}
    (h : chars fuel (s ++ '"' :: cs) = some (s,rest)) : plain s := by
  obtain ⟨u,hu,hcount,⟨-,hp⟩ | hlt⟩ := chars_some h
  · exact hp
  · -- the closing quote would have to be an escaped one that the string does not have
    exfalso
    have hpre : s ++ ['"'] <+: u := by
      have h1 : s ++ ['"'] <+: u ++ '"' :: rest := ⟨cs,by rw [← hu, List.append_assoc]; rfl⟩
      exact List.prefix_of_prefix_length_le h1 ⟨_,rfl⟩ (by simp; omega)
    obtain ⟨v,rfl⟩ := hpre
    rw [List.count_append, List.count_append, List.count_singleton_self] at hcount
    omega

def ends : List Char → Bool
  | [] => true
  | c :: _ => c = ',' || c = ']' || c = '}' || c = '\n'

theorem ends_cons {c : Char} {cs : List Char} :
    ends (c :: cs) = true ↔ c = ',' ∨ c = ']' ∨ c = '}' ∨ c = '\n' := by
  simp [ends, or_assoc]

theorem takeWhile_of_ends {rest : List Char} (h : ends rest) :
    rest.takeWhile Char.isDigit = [] ∧ rest.dropWhile Char.isDigit = rest ∧
      isFraction rest = false := by
  cases rest with
  | nil => exact ⟨rfl,rfl,rfl⟩
  | cons c cs =>
    rcases ends_cons.mp h with rfl | rfl | rfl | rfl <;> cases cs <;> exact ⟨rfl,rfl,rfl⟩

theorem toDigits_head {n : Nat} (h : (Nat.toDigits 10 n).head? = some '0') : n = 0 := by
  induction n using Nat.strong_induction_on with
  | _ n ih =>
    by_cases hn : n < 10
    · have hsmall : ∀ m < 10, [m.digitChar].head? = some '0' → m = 0 := by decide
      rw [Nat.toDigits_of_lt_base hn] at h
      exact hsmall n hn h
    · rw [Nat.toDigits_of_base_le (by decide) (by omega),
        List.head?_append_of_ne_nil _ Nat.toDigits_ne_nil] at h
      have := ih (n/10) (by omega) h
      omega

theorem readNat_toDigits (n : Nat) {rest : List Char} (h : ends rest) :
    readNat (Nat.toDigits 10 n ++ rest) = some (n,rest) := by
  obtain ⟨htake,hdrop,hfrac⟩ := takeWhile_of_ends h
  have hdigits : ∀ c ∈ Nat.toDigits 10 n, c.isDigit := fun c hc =>
    Nat.isDigit_of_mem_toDigits (by decide) (by decide) hc
  have ht : (Nat.toDigits 10 n ++ rest).takeWhile Char.isDigit = Nat.toDigits 10 n := by
    rw [List.takeWhile_append_of_pos hdigits, htake, List.append_nil]
  have hd : (Nat.toDigits 10 n ++ rest).dropWhile Char.isDigit = rest := by
    rw [List.dropWhile_append_of_pos hdigits, hdrop]
  have hpair : (if (Nat.toDigits 10 n ++ rest).head? = some '0' then
      (0,(Nat.toDigits 10 n ++ rest).tail) else (n,rest)) = (n,rest) := by
    split_ifs with hz
    · rw [List.head?_append_of_ne_nil _ Nat.toDigits_ne_nil] at hz
      rw [toDigits_head hz]
      rfl
    · rfl
  rw [readNat, ht, hd, Nat.ofDigitChars_ten_toDigits, if_neg Nat.toDigits_ne_nil, hpair]
  dsimp only
  rw [hfrac]
  rfl

theorem dumpsInt_cons (n : Int) : ∃ c cs, dumpsInt n = c :: cs ∧ (c = '-' ∨ c.isDigit) := by
  unfold dumpsInt
  split_ifs
  · exact ⟨_,_,rfl,Or.inl rfl⟩
  · obtain ⟨c,cs,h⟩ := List.exists_cons_of_ne_nil (@Nat.toDigits_ne_nil n.natAbs 10)
    refine ⟨c,cs,h,Or.inr ?_⟩
    exact Nat.isDigit_of_mem_toDigits (by decide) (by decide) (h ▸ List.mem_cons_self)

theorem readInt_dumpsInt (n : Int) {rest : List Char} (h : ends rest) :
    readInt (dumpsInt n ++ rest) = some (n,rest) := by
  have hnat := readNat_toDigits n.natAbs h
  unfold dumpsInt
  split_ifs with hn
  · have he : expect ['-'] ('-' :: Nat.toDigits 10 n.natAbs ++ rest) =
        some (Nat.toDigits 10 n.natAbs ++ rest) := rfl
    have hneg : -(n.natAbs : Int) = n := by omega
    rw [readInt, he]
    dsimp only
    rw [hnat, Option.map_some, hneg]
  · have he : expect ['-'] (Nat.toDigits 10 n.natAbs ++ rest) = none := by
      obtain ⟨c,cs,hc⟩ := List.exists_cons_of_ne_nil (@Nat.toDigits_ne_nil n.natAbs 10)
      have hdigit : c.isDigit :=
        Nat.isDigit_of_mem_toDigits (by decide) (by decide) (hc ▸ List.mem_cons_self)
      have hne : c ≠ '-' := by
        rintro rfl
        exact absurd hdigit (by decide)
      rw [hc, List.cons_append, expect, if_neg hne]
    have hpos : (n.natAbs : Int) = n := by omega
    rw [readInt, he]
    dsimp only
    rw [hnat, Option.map_some, hpos]

theorem scalar_int (n : Int) {rest : List Char} (h : ends rest) :
    scalar (dumpsInt n ++ rest) = some (.int n,rest) := by
  have hread := readInt_dumpsInt n h
  obtain ⟨c,cs,hc,hfirst⟩ := dumpsInt_cons n
  have hne : ∀ d word, d = 'n' ∨ d = 't' ∨ d = 'f' →
      expect (d :: word) (dumpsInt n ++ rest) = none := by
    rintro d word hd
    have : c ≠ d := by
      rintro rfl
      rcases hfirst with rfl | hdigit
      · revert hd; decide
      · rcases hd with rfl | rfl | rfl <;> exact absurd hdigit (by decide)
    rw [hc, List.cons_append, expect, if_neg this]
  rw [scalar, hne _ _ (Or.inl rfl), hne _ _ (Or.inr (Or.inl rfl)), hne _ _ (Or.inr (Or.inr rfl))]
  dsimp only
  rw [hread, Option.map_some]

end QmkFirmware.Json
