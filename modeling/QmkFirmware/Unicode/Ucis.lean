import Mathlib.Data.List.Nodup
import Mathlib.Tactic.SplitIfs
import QmkFirmware.Lib.Along

/-!
`ucis.c` and `process_ucis.c`: a symbol is looked up by the mnemonic typed since `ucis_start`.
-/

set_option autoImplicit false

namespace QmkFirmware.Ucis

abbrev Mnemonic := List UInt8

/-- An entry of `ucis_symbol_table`. -/
structure Symbol where
  mnemonic : Mnemonic
  codePoints : List UInt32

def isMnemonicChar (c : UInt8) : Prop := (97 ≤ c ∧ c ≤ 122) ∨ (48 ≤ c ∧ c ≤ 57)

structure Config where
  table : List Symbol
  maxInput : Nat
  maxCodePoints : Nat
  distinct : (table.map Symbol.mnemonic).Nodup
  nonempty : ∀ sym ∈ table, sym.mnemonic ≠ []
  chars : ∀ sym ∈ table, ∀ c ∈ sym.mnemonic, isMnemonicChar c
  small : table.length < 256
  max_pos : 0 < maxInput
  max_le : maxInput ≤ 255

inductive Event where
  | backspace
  | unicode (codePoint : UInt32)
  /-- `register_ucis` of the entry. -/
  | symbol (index : Nat) (codePoints : List UInt32)
  deriving DecidableEq, Repr

inductive Fault where
  | outside
  | endless
  deriving DecidableEq, Repr

structure State where
  input : List UInt8
  count : UInt8
  active : Bool
  deriving DecidableEq, Repr

def init (cfg : Config) : State := ⟨List.replicate cfg.maxInput 0,0,false⟩

def ucisStart (s : State) : State := { s with count := 0, active := true }

def keycodeToChar (keycode : UInt16) : UInt8 :=
  if 0x04 ≤ keycode ∧ keycode ≤ 0x1D then 97+(keycode-0x04).toUInt8
  else if 0x1E ≤ keycode ∧ keycode ≤ 0x26 then 49+(keycode-0x1E).toUInt8
  else if keycode = 0x27 then 48
  else 0

def ucisAdd (keycode : UInt16) (s : State) : Except Fault (Bool × State) :=
  let c := keycodeToChar keycode
  if c ≠ 0 then
    if s.count.toNat < s.input.length then
      .ok (true,{ s with input := s.input.set s.count.toNat c, count := s.count+1 })
    else .error .outside
  else .ok (false,s)

def ucisRemoveLast (s : State) : Bool × State :=
  if s.count ≠ 0 then (true,{ s with count := s.count-1 }) else (false,s)

/-- The loop of `match_mnemonic` from `input[i]` on. -/
def matchFrom (count : Nat) (mnemonic : Mnemonic) : List UInt8 → Nat → Except Fault Bool
  | [], _ => .error .outside
  | c :: rest, i =>
    if c = 0 then .ok true
    else if count < i then .ok false
    else match (mnemonic ++ [0])[i]? with
      | none => .error .outside
      | some m => if c ≠ m then .ok false else matchFrom count mnemonic rest (i+1)

def matchMnemonic (s : State) (mnemonic : Mnemonic) : Except Fault Bool :=
  matchFrom s.count.toNat mnemonic s.input 0

/-- The search of `ucis_finish` from entry `i` on. -/
def findFrom (s : State) : List Symbol → Nat → Except Fault (Option Nat)
  | [], _ => .ok none
  | sym :: rest, i =>
    match matchMnemonic s sym.mnemonic with
    | .error fault => .error fault
    | .ok true => .ok (some i)
    | .ok false => findFrom s rest (i+1)

section
variable (cfg : Config)

def registerUcis (index : Nat) : Event :=
  .symbol index (((cfg.table[index]?.map Symbol.codePoints).getD []).take cfg.maxCodePoints
    |>.takeWhile (· ≠ 0))

def ucisFinish (s : State) : Except Fault (State × List Event) :=
  match findFrom s cfg.table 0 with
  | .error fault => .error fault
  | .ok none => .ok ({ s with active := false },[])
  | .ok (some i) =>
    -- `j` is eight bits wide
    if s.count = 255 then .error .endless
    else .ok ({ s with active := false },
      List.replicate (s.count.toNat+1) .backspace ++ [registerUcis cfg i])

def ucisCancel (s : State) : State := { s with count := 0, active := false }

def isSpecial (keycode : UInt16) : Bool :=
  keycode == 0x2C || keycode == 0x28 || keycode == 0x29 || keycode == 0x2A

/-- `process_ucis` with what it returns. -/
def processUcis (keycode : UInt16) (pressed : Bool) (s : State) :
    Except Fault (Bool × State × List Event) :=
  if s.active && pressed then
    if cfg.maxInput ≤ s.count.toNat ∧ !isSpecial keycode then .ok (false,s,[])
    else match ucisAdd keycode s with
      | .error fault => .error fault
      | .ok (true, s) => .ok (true,s,[])
      | .ok (false, s) =>
        if keycode = 0x2A then
          let (removed, s) := ucisRemoveLast s
          .ok (removed,s,[])
        else if keycode = 0x29 then .ok (false,ucisCancel s,[])
        else if keycode = 0x2C ∨ keycode = 0x28 then
          (ucisFinish cfg s).map fun (s, events) => (false,s,events)
        else .ok (true,s,[])
  else .ok (true,s,[])

inductive Input where
  | start
  | key (keycode : UInt16) (pressed : Bool)
  deriving DecidableEq, Repr

def step (s : State) : Input → Except Fault (State × List Event)
  | .start => .ok (ucisStart s,[.unicode 0x2328])
  | .key keycode pressed => (processUcis cfg keycode pressed s).map Prod.snd

structure Session where
  active : Bool
  typed : List UInt8

def Session.finishes (a : Session) : Input → Bool
  | .start => false
  | .key keycode pressed => a.active && pressed && (keycode == 0x2C || keycode == 0x28)

def Session.step (a : Session) : Input → Session
  | .start => ⟨true,[]⟩
  | .key keycode pressed =>
    if a.active && pressed then
      let c := keycodeToChar keycode
      if c ≠ 0 then if a.typed.length < cfg.maxInput then { a with typed := a.typed ++ [c] } else a
      else if keycode = 0x2A then { a with typed := a.typed.dropLast }
      else if keycode = 0x29 then ⟨false,[]⟩
      else if keycode = 0x2C ∨ keycode = 0x28 then { a with active := false }
      else a
    else a

/-- The entry with the mnemonic typed, after a backspace for each character and one more. -/
def Session.events (a : Session) (input : Input) : List Event :=
  if a.finishes input then
    match cfg.table.findIdx? fun sym => sym.mnemonic == a.typed with
    | none => []
    | some i => List.replicate (a.typed.length+1) .backspace ++ [registerUcis cfg i]
  else if input = .start then [.unicode 0x2328]
  else []

/-- The step is made without a fault and sends what it should. -/
def Exact (w : State × Session) (input : Input) : Prop :=
  ∃ s, step cfg w.1 input = .ok (s,w.2.events cfg input)

def next (w : State × Session) (input : Input) : State × Session :=
  (match step cfg w.1 input with
    | .ok (s, _) => s
    | .error _ => w.1,w.2.step cfg input)

def start : State × Session := (init cfg,⟨false,[]⟩)

def content (s : State) : List UInt8 := s.input.takeWhile (· ≠ 0)

/-- When a lookup is right: nothing typed is in the table and what the array holds does not begin
a mnemonic either, or nothing was left behind the characters typed and their own entry is the first
one that begins with them. -/
def Clear (w : State × Session) (input : Input) : Prop :=
  w.2.finishes input = true →
    ((∀ sym ∈ cfg.table, sym.mnemonic ≠ w.2.typed)
      ∧ ((content w.1).length ≤ w.2.typed.length+1 →
        ∀ sym ∈ cfg.table, ¬ content w.1 <+: sym.mnemonic))
    ∨ (content w.1 = w.2.typed ∧ w.2.typed.length < cfg.maxInput
      ∧ ∃ sym, cfg.table.find? (fun sym => w.2.typed <+: sym.mnemonic) = some sym
        ∧ sym.mnemonic = w.2.typed)

end

theorem matchFrom_eq {count : Nat} (rest : List UInt8) (front m : Mnemonic)
    (hm : ∀ c ∈ m, c ≠ 0) (hi : front.length ≤ count+1) :
    matchFrom count (front ++ m) rest front.length =
      if front.length+(rest.takeWhile (· ≠ 0)).length ≤ count+1 ∧ rest.takeWhile (· ≠ 0) <+: m then
        if (rest.takeWhile (· ≠ 0)).length < rest.length then .ok true else .error .outside
      else .ok false := by
  induction rest generalizing front m with
  | nil => simp [matchFrom,hi]
  | cons c rest ih =>
    by_cases hc : c = 0
    · simp [matchFrom,hc,hi]
    have htake : (c :: rest).takeWhile (· ≠ 0) = c :: rest.takeWhile (· ≠ 0) :=
      List.takeWhile_cons_of_pos (by simpa using hc)
    rw [matchFrom, if_neg hc, htake]
    by_cases hcount : count < front.length
    · rw [if_pos hcount, if_neg]
      rw [List.length_cons]
      omega
    rw [if_neg hcount, List.append_assoc, List.getElem?_append_right (Nat.le_refl _), Nat.sub_self]
    cases m with
    | nil => simp [hc]
    | cons d m =>
      by_cases hd : c = d
      · subst d
        have hlen : (front ++ [c]).length = front.length+1 := by simp
        have hstep := ih (front ++ [c]) m (fun x hx => hm x (List.mem_cons_of_mem c hx))
          (by rw [hlen]; omega)
        simp only [List.append_assoc, List.singleton_append, hlen] at hstep
        simp only [List.cons_append, List.getElem?_cons_zero, ne_eq, not_true_eq_false, if_false,
          List.cons_prefix_cons, true_and, List.length_cons, Nat.add_lt_add_iff_right] at hstep ⊢
        rw [hstep, Nat.add_right_comm, ← Nat.add_assoc]
      · simp [hd,List.cons_prefix_cons]

def Begins (s : State) (m : Mnemonic) : Prop :=
  (content s).length ≤ s.count.toNat+1 ∧ content s <+: m

instance (s : State) (m : Mnemonic) : Decidable (Begins s m) := inferInstanceAs (Decidable (_ ∧ _))

theorem matchMnemonic_eq {s : State} {m : Mnemonic} (hm : ∀ c ∈ m, c ≠ 0) :
    matchMnemonic s m = if Begins s m then
      if (content s).length < s.input.length then .ok true else .error .outside
    else .ok false := by
  have h := @matchFrom_eq s.count.toNat s.input [] m hm (Nat.zero_le _)
  rwa [List.length_nil, List.nil_append, Nat.zero_add] at h

theorem findFrom_eq {s : State} (hfull : (content s).length < s.input.length) (table : List Symbol)
    (hm : ∀ sym ∈ table, ∀ c ∈ sym.mnemonic, c ≠ 0) (i : Nat) :
    findFrom s table i
      = .ok ((table.findIdx? fun sym => Begins s sym.mnemonic).map (·+i)) := by
  induction table generalizing i with
  | nil => rfl
  | cons sym table ih =>
    rw [findFrom, matchMnemonic_eq (hm sym List.mem_cons_self), List.findIdx?_cons]
    by_cases h : Begins s sym.mnemonic
    · simp [h,hfull]
    · rw [if_neg h, if_neg (by simpa using h)]
      simp only [ih fun sym hsym => hm sym (List.mem_cons_of_mem _ hsym)]
      cases table.findIdx? (fun sym => decide (Begins s sym.mnemonic)) with
      | none => rfl
      | some j => simp only [Option.map_some]; congr 2; omega

theorem findFrom_full {s : State} (hfull : s.input.length ≤ (content s).length) (table : List Symbol)
    (hm : ∀ sym ∈ table, ∀ c ∈ sym.mnemonic, c ≠ 0) (i : Nat) :
    findFrom s table i
      = if ∃ sym ∈ table, Begins s sym.mnemonic then .error .outside else .ok none := by
  induction table generalizing i with
  | nil => simp [findFrom]
  | cons sym table ih =>
    rw [findFrom, matchMnemonic_eq (hm sym List.mem_cons_self)]
    by_cases h : Begins s sym.mnemonic
    · simp [h,Nat.not_lt.mpr hfull]
    · rw [if_neg h]
      simp only [ih fun sym hsym => hm sym (List.mem_cons_of_mem _ hsym), List.mem_cons,
        exists_eq_or_imp, h, false_or]

section
variable {cfg : Config} {s : State} {a : Session}

/-- The array and its counter hold what the user sees. -/
structure Agrees (cfg : Config) (s : State) (a : Session) : Prop where
  length : s.input.length = cfg.maxInput
  count_le : s.count.toNat ≤ cfg.maxInput
  active : a.active = s.active
  typed : a.typed = s.input.take s.count.toNat
  chars : ∀ c ∈ a.typed, c ≠ 0

theorem Agrees.typed_length (h : Agrees cfg s a) : a.typed.length = s.count.toNat := by
  rw [h.typed, List.length_take, h.length, Nat.min_eq_left h.count_le]

theorem agrees_start : Agrees cfg (init cfg) ⟨false,[]⟩ :=
  ⟨List.length_replicate,Nat.zero_le _,rfl,rfl,List.forall_mem_nil _⟩

theorem Agrees.inactive (h : Agrees cfg s a) :
    Agrees cfg { s with active := false } { a with active := false } :=
  ⟨h.length,h.count_le,rfl,h.typed,h.chars⟩

theorem Agrees.fresh (h : Agrees cfg s a) (active : Bool) :
    Agrees cfg { s with count := 0, active := active } ⟨active,[]⟩ :=
  ⟨h.length,Nat.zero_le _,rfl,rfl,List.forall_mem_nil _⟩

theorem Agrees.add (h : Agrees cfg s a) {c : UInt8} (hc : c ≠ 0)
    (hroom : s.count.toNat < cfg.maxInput) :
    Agrees cfg { s with input := s.input.set s.count.toNat c, count := s.count+1 }
      { a with typed := a.typed ++ [c] } := by
  have hmax := cfg.max_le
  have hnext : (s.count+1).toNat = s.count.toNat+1 := by
    rw [UInt8.toNat_add]
    exact Nat.mod_eq_of_lt (by simp only [UInt8.toNat_one]; omega)
  have hlt : s.count.toNat < s.input.length := by rwa [h.length]
  refine ⟨by rw [List.length_set, h.length],by rw [hnext]; omega,h.active,?_,?_⟩
  · simp only [hnext]
    rw [List.take_add_one, List.getElem?_set_self hlt, List.take_set_of_le (Nat.le_refl _), h.typed]
    rfl
  · intro x hx
    rcases List.mem_append.mp hx with hx | hx
    · exact h.chars x hx
    · rwa [List.mem_singleton.mp hx]

theorem Agrees.removeLast (h : Agrees cfg s a) :
    Agrees cfg (ucisRemoveLast s).2 { a with typed := a.typed.dropLast } := by
  have hlen := h.typed_length
  rw [ucisRemoveLast]
  split_ifs with hzero
  · have hpos : s.count.toNat ≠ 0 := fun h0 => hzero (UInt8.toNat_inj.mp h0)
    have hprev : (s.count-1).toNat = s.count.toNat-1 :=
      UInt8.toNat_sub_of_le s.count 1 (UInt8.le_iff_toNat_le.mpr
        (by simp only [UInt8.toNat_one]; omega))
    have hle := h.count_le
    refine ⟨h.length,by rw [hprev]; omega,h.active,?_,
      fun c hc => h.chars c ((List.dropLast_sublist _).subset hc)⟩
    simp only [hprev]
    rw [List.dropLast_eq_take, hlen, h.typed, List.take_take, Nat.min_eq_left (Nat.sub_le _ _)]
  · have hnil : a.typed = [] := List.eq_nil_of_length_eq_zero (by simpa [not_not.mp hzero] using hlen)
    refine ⟨h.length,h.count_le,h.active,?_,?_⟩
    · rw [hnil, ← h.typed.trans rfl, hnil]
      rfl
    · rw [hnil]
      exact List.forall_mem_nil _

theorem special_char {keycode : UInt16} (h : isSpecial keycode = true) : keycodeToChar keycode = 0 := by
  simp only [isSpecial, Bool.or_eq_true, beq_iff_eq] at h
  rcases h with ((rfl | rfl) | rfl) | rfl <;> decide

theorem ucisAdd_other {keycode : UInt16} (hc : keycodeToChar keycode = 0) (s : State) :
    ucisAdd keycode s = .ok (false,s) := by
  simp [ucisAdd,hc]

theorem processUcis_char {keycode : UInt16} (hon : s.active = true) (h : Agrees cfg s a)
    (hc : keycodeToChar keycode ≠ 0) : processUcis cfg keycode true s =
      if s.count.toNat < cfg.maxInput then
        .ok (true,
          { s with
            input := s.input.set s.count.toNat (keycodeToChar keycode)
            count := s.count+1 },[])
      else .ok (false,s,[]) := by
  have hspecial : isSpecial keycode = false := by
    by_contra hne
    exact hc (special_char (by simpa using hne))
  by_cases hroom : s.count.toNat < cfg.maxInput
  · have hlt : s.count.toNat < s.input.length := by rwa [h.length]
    simp [processUcis,hon,hroom,Nat.not_le.mpr hroom,ucisAdd,hc,hlt]
  · simp [processUcis,hon,hroom,Nat.not_lt.mp hroom,hspecial]

theorem processUcis_other {keycode : UInt16} (hon : s.active = true)
    (hc : keycodeToChar keycode = 0) (hfinish : keycode ≠ 0x2C ∧ keycode ≠ 0x28) :
    ∃ b, processUcis cfg keycode true s = .ok (b,
      (if keycode = 0x2A then (ucisRemoveLast s).2 else if keycode = 0x29 then ucisCancel s else s),
      []) := by
  by_cases hback : keycode = 0x2A
  · subst hback
    exact ⟨(ucisRemoveLast s).1,by simp [processUcis,hon,isSpecial,ucisAdd_other hc]⟩
  by_cases hescape : keycode = 0x29
  · subst hescape
    exact ⟨false,by simp [processUcis,hon,isSpecial,ucisAdd_other hc]⟩
  by_cases hroom : s.count.toNat < cfg.maxInput
  · exact ⟨true,by simp [processUcis,hon,hback,hescape,hfinish,ucisAdd_other hc,
      Nat.not_le.mpr hroom]⟩
  · exact ⟨false,by simp [processUcis,hon,isSpecial,hback,hescape,hfinish,Nat.not_lt.mp hroom]⟩

theorem step_other (h : Agrees cfg s a) {input : Input} (hin : a.finishes input = false) :
    ∃ s', step cfg s input = .ok (s',a.events cfg input) ∧ Agrees cfg s' (a.step cfg input) := by
  rw [Session.events, hin, if_neg Bool.false_ne_true]
  cases input with
  | start => exact ⟨_,rfl,h.fresh true⟩
  | key keycode pressed =>
    rw [if_neg (by simp), step, Session.step]
    by_cases hon : (a.active && pressed) = true
    · obtain ⟨hon', rfl⟩ : a.active = true ∧ pressed = true := by simpa using hon
      have hactive : s.active = true := by rw [← h.active, hon']
      rw [if_pos hon]
      by_cases hc : keycodeToChar keycode = 0
      · have hfinish : keycode ≠ 0x2C ∧ keycode ≠ 0x28 := by
          simpa [Session.finishes,h.active,hactive] using hin
        obtain ⟨b, hb⟩ := @processUcis_other cfg s keycode hactive hc hfinish
        refine ⟨_,by rw [hb]; rfl,?_⟩
        simp only [hc, ne_eq, not_true_eq_false, if_false, hfinish, or_self]
        split_ifs
        · exact h.removeLast
        · exact h.fresh false
        · exact h
      · rw [processUcis_char hactive h hc]
        simp only [ne_eq, hc, not_false_eq_true, if_true, h.typed_length]
        split_ifs with hroom
        · exact ⟨_,rfl,h.add hc hroom⟩
        · exact ⟨_,rfl,h⟩
    · refine ⟨s,?_,?_⟩
      · rw [processUcis, ← h.active, if_neg hon]
        rfl
      · rwa [if_neg hon]

theorem chars_nonzero (cfg : Config) : ∀ sym ∈ cfg.table, ∀ c ∈ sym.mnemonic, c ≠ 0 := by
  rintro sym hsym c hc rfl
  have h := cfg.chars sym hsym 0 hc
  revert h
  unfold isMnemonicChar
  decide

theorem Agrees.content (h : Agrees cfg s a) :
    content s = a.typed ++ (s.input.drop s.count.toNat).takeWhile (· ≠ 0) := by
  have hall : ∀ c ∈ a.typed, decide (c ≠ 0) = true := fun c hc => by simpa using h.chars c hc
  conv_lhs => rw [Ucis.content, ← List.take_append_drop s.count.toNat s.input, ← h.typed]
  rw [List.takeWhile_append_of_pos hall]

def Finds (cfg : Config) (s : State) (a : Session) : Prop :=
  findFrom s cfg.table 0 = .ok (cfg.table.findIdx? fun sym => sym.mnemonic == a.typed)

theorem begins_self (h : Agrees cfg s a) (hs : Ucis.content s = a.typed) (m : Mnemonic) :
    Begins s m ↔ a.typed <+: m := by
  rw [Begins, hs, h.typed_length]
  exact and_iff_right (Nat.le_succ _)

theorem finds_of_clear (h : Agrees cfg s a)
    (hclear : ((∀ sym ∈ cfg.table, sym.mnemonic ≠ a.typed)
      ∧ ((Ucis.content s).length ≤ a.typed.length+1 →
        ∀ sym ∈ cfg.table, ¬ Ucis.content s <+: sym.mnemonic))
    ∨ (Ucis.content s = a.typed ∧ a.typed.length < cfg.maxInput
      ∧ ∃ sym, cfg.table.find? (fun sym => a.typed <+: sym.mnemonic) = some sym
        ∧ sym.mnemonic = a.typed)) : Finds cfg s a := by
  rcases hclear with ⟨habsent, hnone⟩ | ⟨hself, hroom, sym, hfirst, hsym⟩
  · have hspec : (cfg.table.findIdx? fun sym => sym.mnemonic == a.typed) = none := by
      simpa using habsent
    have hbegins : ∀ sym ∈ cfg.table, ¬ Begins s sym.mnemonic := fun sym hsym hb =>
      hnone (by rw [h.typed_length]; exact hb.1) sym hsym hb.2
    rw [Finds, hspec]
    by_cases hfull : (Ucis.content s).length < s.input.length
    · have hidx : (cfg.table.findIdx? fun sym => Begins s sym.mnemonic) = none := by
        simpa using hbegins
      rw [findFrom_eq hfull _ (chars_nonzero cfg), hidx]
      rfl
    · rw [findFrom_full (Nat.not_lt.mp hfull) _ (chars_nonzero cfg), if_neg]
      rintro ⟨sym, hsym, hb⟩
      exact hbegins sym hsym hb
  · have hfull : (Ucis.content s).length < s.input.length := by rwa [hself, h.length]
    rw [Finds, findFrom_eq hfull _ (chars_nonzero cfg)]
    simp only [begins_self h hself]
    obtain ⟨hp, front, back, htable, hbefore⟩ := List.find?_eq_some_iff_append.mp hfirst
    have hnot : ∀ x ∈ front, ¬ a.typed <+: x.mnemonic := fun x hx => by simpa using hbefore x hx
    have hne : ∀ x ∈ front, x.mnemonic ≠ a.typed := fun x hx heq =>
      hnot x hx (heq ▸ List.prefix_refl _)
    have h₁ : (front.findIdx? fun x => decide (a.typed <+: x.mnemonic)) = none := by simpa using hnot
    have h₂ : (front.findIdx? fun x => x.mnemonic == a.typed) = none := by simpa using hne
    rw [htable, List.findIdx?_append, List.findIdx?_append, h₁, h₂, List.findIdx?_cons,
      List.findIdx?_cons, hsym]
    simp

theorem clear_of_finds (h : Agrees cfg s a) (hfinds : Finds cfg s a) :
    ((∀ sym ∈ cfg.table, sym.mnemonic ≠ a.typed)
      ∧ ((Ucis.content s).length ≤ a.typed.length+1 →
        ∀ sym ∈ cfg.table, ¬ Ucis.content s <+: sym.mnemonic))
    ∨ (Ucis.content s = a.typed ∧ a.typed.length < cfg.maxInput
      ∧ ∃ sym, cfg.table.find? (fun sym => a.typed <+: sym.mnemonic) = some sym
        ∧ sym.mnemonic = a.typed) := by
  have hcontent := h.content
  rw [Finds] at hfinds
  by_cases hfull : (Ucis.content s).length < s.input.length
  · rw [findFrom_eq hfull _ (chars_nonzero cfg), Except.ok.injEq] at hfinds
    simp only [Nat.add_zero, Option.map_id'] at hfinds
    cases hspec : cfg.table.findIdx? fun sym => sym.mnemonic == a.typed with
    | none =>
      rw [hspec] at hfinds
      refine .inl ⟨by simpa using hspec,fun hle sym hsym hp => ?_⟩
      have hnone : ∀ sym ∈ cfg.table, ¬ Begins s sym.mnemonic := by simpa using hfinds
      exact hnone sym hsym ⟨by rwa [← h.typed_length],hp⟩
    | some i =>
      rw [hspec] at hfinds
      obtain ⟨hi, heq, -⟩ := List.findIdx?_eq_some_iff_getElem.mp hspec
      obtain ⟨_, hb, hbefore⟩ := List.findIdx?_eq_some_iff_getElem.mp hfinds
      have hmnemonic : cfg.table[i].mnemonic = a.typed := by simpa using heq
      have hbegins : Begins s a.typed := by simpa [hmnemonic] using hb
      have hself : Ucis.content s = a.typed := by
        refine hbegins.2.eq_of_length (Nat.le_antisymm hbegins.2.length_le ?_)
        rw [hcontent, List.length_append]
        exact Nat.le_add_right _ _
      refine .inr ⟨hself,by rwa [hself, h.length] at hfull,cfg.table[i],?_,hmnemonic⟩
      refine List.find?_eq_some_iff_getElem.mpr ⟨by simp [hmnemonic],i,hi,rfl,fun j hj => ?_⟩
      have hj' := hbefore j hj
      simp only [begins_self h hself] at hj'
      simpa using hj'
  · rw [findFrom_full (Nat.not_lt.mp hfull) _ (chars_nonzero cfg)] at hfinds
    split at hfinds
    · cases hfinds
    · rename_i hnone
      rw [Except.ok.injEq] at hfinds
      refine .inl ⟨by simpa using hfinds.symm,fun hle sym hsym hp => hnone ⟨sym,hsym,?_,hp⟩⟩
      rwa [← h.typed_length]

theorem step_finish (h : Agrees cfg s a) {input : Input} (hin : a.finishes input = true) :
    step cfg s input = ucisFinish cfg s ∧ a.step cfg input = { a with active := false } := by
  cases input with
  | start => cases hin
  | key keycode pressed =>
    obtain ⟨⟨hon, rfl⟩, hkey⟩ : (a.active = true ∧ pressed = true) ∧
      (keycode = 0x2C ∨ keycode = 0x28) := by
      simpa [Session.finishes] using hin
    have hactive : s.active = true := by rw [← h.active, hon]
    have hc : keycodeToChar keycode = 0 := special_char (by rcases hkey with rfl | rfl <;> rfl)
    have hspecial : isSpecial keycode = true := by rcases hkey with rfl | rfl <;> rfl
    have hne : keycode ≠ 0x2A ∧ keycode ≠ 0x29 := by
      rcases hkey with rfl | rfl <;> decide
    constructor
    · simp only [step, processUcis, hactive, Bool.and_self, if_true, hspecial, Bool.not_true,
        Bool.false_eq_true, and_false, if_false, ucisAdd_other hc, hne, hkey]
      cases ucisFinish cfg s <;> rfl
    · simp [Session.step,hon,hc,hne,hkey]

theorem exact_finish (h : Agrees cfg s a) {input : Input} (hin : a.finishes input = true) :
    Exact cfg (s,a) input ↔ Finds cfg s a := by
  have hstep := (step_finish h hin).1
  rw [Exact, hstep, Session.events, if_pos hin, Finds, ucisFinish]
  have hne : ∀ n (x : Event), List.replicate n Event.backspace ++ [x] ≠ [] := by simp
  constructor
  · rintro ⟨s', hs'⟩
    split at hs'
    · cases hs'
    · rename_i hfind
      rw [hfind]
      cases hspec : cfg.table.findIdx? fun sym => sym.mnemonic == a.typed with
      | none => rfl
      | some i =>
        simp only [hspec, Except.ok.injEq, Prod.mk.injEq] at hs'
        exact absurd hs'.2.symm (hne _ _)
    · rename_i i hfind
      rw [hfind]
      split at hs'
      · cases hs'
      · cases hspec : cfg.table.findIdx? fun sym => sym.mnemonic == a.typed with
        | none =>
          simp only [hspec, Except.ok.injEq, Prod.mk.injEq] at hs'
          exact absurd hs'.2 (hne _ _)
        | some j =>
          simp only [hspec, Except.ok.injEq, Prod.mk.injEq, h.typed_length, registerUcis,
            List.append_cancel_left_eq, List.cons.injEq, Event.symbol.injEq] at hs'
          rw [hs'.2.1.1]
  · intro hfind
    rw [hfind]
    cases hspec : cfg.table.findIdx? fun sym => sym.mnemonic == a.typed with
    | none => exact ⟨_,rfl⟩
    | some i =>
      have hcount : s.count ≠ 255 := by
        intro h255
        -- the array is full of what was typed, so the search is not over at an entry
        have hlen := h.typed_length
        have hle := h.count_le
        have hmax := cfg.max_le
        have hvalue : s.count.toNat = 255 := by rw [h255]; rfl
        have hcontent := congrArg List.length h.content
        rw [List.length_append] at hcontent
        have hfull : s.input.length ≤ (Ucis.content s).length := by
          rw [h.length, hcontent, hlen, hvalue]
          omega
        rw [findFrom_full hfull _ (chars_nonzero cfg), hspec] at hfind
        split at hfind <;> cases hfind
      simp only [hcount, if_false, h.typed_length]
      exact ⟨_,rfl⟩

theorem Agrees.next (h : Agrees cfg s a) {input : Input} (hexact : Exact cfg (s,a) input) :
    Agrees cfg (Ucis.next cfg (s,a) input).1 (Ucis.next cfg (s,a) input).2 := by
  obtain ⟨s', hs'⟩ := hexact
  rw [Ucis.next, hs']
  cases hin : a.finishes input with
  | false =>
    obtain ⟨s'', hs'', hagrees⟩ := step_other h hin
    obtain rfl : s'' = s' := (Prod.mk.inj (Except.ok.inj (hs''.symm.trans hs'))).1
    exact hagrees
  | true =>
    obtain ⟨hstep, hsession⟩ := step_finish h hin
    rw [hstep, ucisFinish] at hs'
    dsimp only
    rw [hsession]
    split at hs'
    · cases hs'
    · obtain rfl := (Prod.mk.inj (Except.ok.inj hs')).1
      exact h.inactive
    · split at hs'
      · cases hs'
      · obtain rfl := (Prod.mk.inj (Except.ok.inj hs')).1
        exact h.inactive

theorem exact_iff_clear (h : Agrees cfg s a) (input : Input) :
    Exact cfg (s,a) input ↔ Clear cfg (s,a) input := by
  cases hin : a.finishes input with
  | false =>
    obtain ⟨s', hs', -⟩ := step_other h hin
    exact iff_of_true ⟨s',hs'⟩ fun hfin => absurd (hin.symm.trans hfin) Bool.false_ne_true
  | true =>
    rw [exact_finish h hin, Clear, imp_iff_right hin]
    exact ⟨clear_of_finds h,finds_of_clear h⟩

end

/-- Sessions are looked up as typed exactly as long as every lookup is clear. -/
theorem sessions_exact_iff (cfg : Config) (inputs : List Input) :
    Along (next cfg) (Exact cfg) (start cfg) inputs
      ↔ Along (next cfg) (Clear cfg) (start cfg) inputs := by
  have hiff : ∀ (w : State × Session) (input : Input), Agrees cfg w.1 w.2 →
      (Exact cfg w input ↔ Clear cfg w input) := fun w input h => exact_iff_clear h input
  have hstep : ∀ (w : State × Session) (input : Input), Agrees cfg w.1 w.2 → Clear cfg w input →
      Agrees cfg (next cfg w input).1 (next cfg w input).2 :=
    fun w input h hclear => h.next ((hiff w input h).mpr hclear)
  exact Along.congr hiff hstep agrees_start

theorem oneSymbol_chars : ∀ sym ∈ [Symbol.mk [112,111,111,112] [0x1F4A9]], ∀ c ∈ sym.mnemonic,
    isMnemonicChar c := by
  simp [isMnemonicChar]

/-- One symbol, `poop`. -/
def oneSymbol : Config where
  table := [⟨[112,111,111,112],[0x1F4A9]⟩]
  maxInput := 32
  maxCodePoints := 3
  distinct := List.nodup_singleton _
  nonempty := List.forall_mem_singleton.mpr (List.cons_ne_nil _ _)
  chars := oneSymbol_chars
  small := Nat.le_add_left 2 254
  max_pos := Nat.succ_pos 31
  max_le := Nat.le_add_left 32 223

/-- The keys `p`, `o` and space in a session. -/
def halfMnemonic : List Input := [.start,.key 0x13 true,.key 0x12 true,.key 0x2C true]

theorem half_mnemonic_found : ¬ ∀ cfg inputs, Along (next cfg) (Exact cfg) (start cfg) inputs := by
  intro h
  obtain ⟨-, -, -, ⟨s, hs⟩, -⟩ := h oneSymbol halfMnemonic
  cases hs

end QmkFirmware.Ucis
