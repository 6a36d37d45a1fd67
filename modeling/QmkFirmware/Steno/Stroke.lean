import QmkFirmware.Lib.Along
import QmkFirmware.Steno.Core

/-!
A stroke is sent when the last steno key is released, and it is exactly the chord.
-/

set_option autoImplicit false

namespace QmkFirmware.Steno

def orAll (bytes : List Byte) : Byte := bytes.foldr (· ||| ·) 0

def groupOf : Mode → Nat → Nat
  | .gemini, key => key/7
  | .bolt, key => txbGetGroup (boltcode key)

def bitsOf : Mode → Nat → Byte
  | .gemini, key => BitVec.twoPow 8 (6-key % 7)
  | .bolt, key => boltcode key

def group (mode : Mode) (keys : List Nat) (i : Nat) : Byte :=
  orAll ((keys.filter fun key => groupOf mode key = i).map (bitsOf mode))

def stroke : Mode → List Nat → List Byte
  | .gemini, keys =>
    (List.range 6).map fun i => (if i = 0 then 0x80 else 0) ||| group .gemini keys i
  | .bolt, keys =>
    ((List.range 4).filter fun i => keys.any fun key =>
      boltcode key != txbNul && groupOf .bolt key == i).map (group .bolt keys) ++ [0]

def decodeGemini (bytes : List Byte) (key : Nat) : Bool :=
  (bytes.getD (key/7) 0).getLsbD (6-key % 7)

variable (cfg : Config)

def keysOf (keycode : Keycode) : List Nat :=
  if cfg.combinedMap && (qkStenoComb ≤ keycode && keycode ≤ qkStenoCombMax) then
    [(combinedmapFirst.getD (keycode-qkStenoComb).toNat qkSteno-qkSteno).toNat,
      (combinedmapSecond.getD (keycode-qkStenoComb).toNat qkSteno-qkSteno).toNat]
  else if stnMin ≤ keycode && keycode ≤ stnMax then [(keycode-qkSteno).toNat]
  else []

def modeOf (keycode : Keycode) : Option Mode :=
  if cfg.enableAll && keycode == qkStenoBolt then some .bolt
  else if cfg.enableAll && keycode == qkStenoGemini then some .gemini
  else none

/-- The keys that are held, with their keycodes, the mode, and the steno keys that were pressed
since the last stroke and the last switch of the mode. -/
structure Chord (κ : Type) where
  held : List (κ × Keycode)
  mode : Mode
  pressed : List Nat

structure Input (κ : Type) where
  /-- The key is pressed, or released if it is held. -/
  key : κ
  keycode : Keycode

variable {κ : Type} [DecidableEq κ]

/-- What a key event is meant to do, and the stroke that it sends. -/
def Chord.step (c : Chord κ) (input : Input κ) : Chord κ × List Byte :=
  match c.held.find? fun q => q.1 = input.key with
  | some q =>
    let held := c.held.erase q
    if keysOf cfg q.2 ≠ [] ∧ ∀ r ∈ held, keysOf cfg r.2 = [] then
      (⟨held,c.mode,[]⟩,stroke c.mode c.pressed)
    else (⟨held,c.mode,c.pressed⟩,[])
  | none =>
    let held := (input.key,input.keycode)::c.held
    match modeOf cfg input.keycode with
    | some mode => (⟨held,mode,[]⟩,[])
    | none => (⟨held,c.mode,c.pressed ++ keysOf cfg input.keycode⟩,[])

/-- `sent` are the bytes that the last event has sent. -/
structure World (κ : Type) where
  state : State
  chord : Chord κ
  sent : List Byte

def start (mode : Mode) : World κ := ⟨init mode,⟨[],mode,[]⟩,[]⟩

def next (v : World κ) (input : Input κ) : World κ :=
  let (keycode, pressed) := match v.chord.held.find? fun q => q.1 = input.key with
    | some q => (q.2,false)
    | none => (input.keycode,true)
  let (s, sent, _) := processSteno cfg keycode pressed v.state
  ⟨s,(v.chord.step cfg input).1,sent⟩

def heldKeys (held : List (κ × Keycode)) : Nat := held.countP fun q => keysOf cfg q.2 ≠ []

/-- Mode keys and keycodes of other features may be held too. -/
def Few (v : World κ) (input : Input κ) : Prop := heldKeys cfg (next cfg v input).chord.held < 64

instance (v : World κ) (input : Input κ) : Decidable (Few cfg v input) :=
  inferInstanceAs (Decidable (_ < _))

/-- The event sends what it is meant to send. -/
def Right (v : World κ) (input : Input κ) : Prop :=
  (next cfg v input).sent = (v.chord.step cfg input).2

/-- The top bit is that of the first byte, and the keys can be read back. -/
structure Decodes (keys : List Nat) : Prop where
  length : (stroke .gemini keys).length = 6
  top : ∀ i < 6, ((stroke .gemini keys).getD i 0).getLsbD 7 = decide (i = 0)
  keys : ∀ key < 42, decodeGemini (stroke .gemini keys) key = decide (key ∈ keys)

omit [DecidableEq κ]

theorem orAll_append (a b : List Byte) : orAll (a ++ b) = orAll a ||| orAll b := by
  induction a with
  | nil => simp [orAll]
  | cons x a ih =>
    change x ||| orAll (a ++ b) = (x ||| orAll a) ||| orAll b
    rw [ih, BitVec.or_assoc]

theorem getLsbD_orAll (bytes : List Byte) (j : Nat) :
    (orAll bytes).getLsbD j = bytes.any fun byte => byte.getLsbD j := by
  induction bytes with
  | nil => simp [orAll]
  | cons x bytes ih =>
    change (x ||| orAll bytes).getLsbD j = _
    rw [BitVec.getLsbD_or, ih, List.any_cons]

theorem orAll_eq_zero {bytes : List Byte} : orAll bytes = 0 ↔ ∀ byte ∈ bytes, byte = 0 := by
  induction bytes with
  | nil => simp [orAll]
  | cons x bytes ih =>
    change x ||| orAll bytes = 0 ↔ _
    rw [List.forall_mem_cons, ← ih]
    exact BitVec.or_eq_zero_iff

theorem group_snoc (mode : Mode) (keys : List Nat) (key i : Nat) :
    group mode (keys ++ [key]) i =
      if groupOf mode key = i then group mode keys i ||| bitsOf mode key else group mode keys i := by
  unfold group
  by_cases h : groupOf mode key = i
  · rw [if_pos h, List.filter_append, List.map_append, orAll_append]
    simp [h, orAll]
  · rw [if_neg h, List.filter_append, List.map_append, orAll_append]
    simp [h, orAll]

theorem getLsbD_geminiGroup (keys : List Nat) (i j : Nat) :
    (group .gemini keys i).getLsbD j = decide (j < 7 ∧ 7*i+(6-j) ∈ keys) := by
  unfold group
  rw [getLsbD_orAll, Bool.eq_iff_iff]
  simp only [List.any_map, List.any_filter, List.any_eq_true, Function.comp, bitsOf, groupOf,
    Bool.and_eq_true, decide_eq_true_eq, BitVec.getLsbD_twoPow]
  constructor
  · rintro ⟨key,hk,hi,-,hj⟩
    have hi := of_decide_eq_true hi
    have he : 7*i+(6-j) = key := by omega
    exact ⟨by omega,he ▸ hk⟩
  · rintro ⟨hj,hk⟩
    exact ⟨_,hk,decide_eq_true (by omega),by omega,by omega⟩

theorem getD_stroke (keys : List Nat) {i : Nat} (hi : i < 6) :
    (stroke .gemini keys).getD i 0 = (if i = 0 then 0x80 else 0) ||| group .gemini keys i := by
  simp [stroke, List.getD, hi]

theorem getLsbD_top {i j : Nat} (hj : j < 8) :
    ((if i = 0 then 0x80 else 0 : Byte)).getLsbD j = decide (j = 7 ∧ i = 0) := by
  by_cases h : i = 0
  · rw [if_pos h]
    have hall : ∀ j < 8, (0x80 : Byte).getLsbD j = decide (j = 7) := by decide
    rw [hall j hj]
    simp [h]
  · simp [h]

theorem decodes (keys : List Nat) : Decodes keys where
  length := by simp [stroke]
  top i hi := by
    rw [getD_stroke keys hi, BitVec.getLsbD_or, getLsbD_geminiGroup, getLsbD_top (by decide)]
    simp
  keys key hk := by
    have hkey : 7*(key/7)+(6-(6-key % 7)) = key := by omega
    unfold decodeGemini
    rw [getD_stroke keys (by omega), BitVec.getLsbD_or, getLsbD_geminiGroup, hkey,
      getLsbD_top (by omega)]
    have h7 : ¬6-key % 7 = 7 := by omega
    have h6 : 6-key % 7 < 7 := by omega
    simp [h7, h6]

theorem bolt_ne_zero (keys : List Nat) (i : Nat) : group .bolt keys i ≠ 0 ↔
    (keys.any fun key => boltcode key != txbNul && groupOf .bolt key == i) = true := by
  unfold group
  rw [Ne, orAll_eq_zero]
  simp only [List.mem_map, List.mem_filter, decide_eq_true_eq, List.any_eq_true, Bool.and_eq_true,
    bne_iff_ne, beq_iff_eq, bitsOf]
  constructor
  · intro h
    by_contra hn
    refine h ?_
    rintro - ⟨key,⟨hk,hi⟩,rfl⟩
    by_contra h0
    exact hn ⟨key,hk,h0,hi⟩
  · rintro ⟨key,hk,h0,hi⟩ h
    exact h0 (h _ ⟨key,⟨hk,hi⟩,rfl⟩)

def Has (s : State) (keys : List Nat) : Prop := ∀ i, s.chord i = group s.mode keys i

theorem Has.send_bolt {s : State} {keys : List Nat} (h : Has s keys) (hm : s.mode = .bolt) :
    (sendStenoChordBolt s).2 = stroke .bolt keys := by
  have hc : s.chord = group .bolt keys := funext (hm ▸ h)
  have hf : (List.range 4).filter ((fun byte => byte != 0) ∘ group .bolt keys) =
      (List.range 4).filter fun i => keys.any fun key =>
        boltcode key != txbNul && groupOf .bolt key == i := by
    refine List.filter_congr fun i _ => ?_
    rw [Bool.eq_iff_iff, ← bolt_ne_zero]
    exact bne_iff_ne
  unfold sendStenoChordBolt stroke boltStrokeSize
  rw [hc, List.filter_map, hf]

theorem Has.send_gemini {s : State} {keys : List Nat} (h : Has s keys) (hm : s.mode = .gemini) :
    (sendStenoChordGemini s).2 = stroke .gemini keys := by
  have hc : s.chord = group .gemini keys := funext (hm ▸ h)
  unfold sendStenoChordGemini stroke geminiStrokeSize
  refine List.map_congr_left fun i _ => ?_
  rw [addToChord, hc]
  by_cases h0 : i = 0
  · simp [h0, BitVec.or_comm]
  · simp [h0]

theorem Has.add {s : State} {keys : List Nat} (h : Has s keys) (key : Nat) :
    Has (addToChord (groupOf s.mode key) (bitsOf s.mode key) s) (keys ++ [key]) := by
  intro i
  change Function.update s.chord _ _ i = group s.mode (keys ++ [key]) i
  rw [group_snoc]
  by_cases hi : groupOf s.mode key = i
  · rw [hi, Function.update_self, if_pos rfl, h i]
  · rw [Function.update_of_ne (Ne.symm hi), if_neg hi, h i]

theorem geminiBit_eq (key : Nat) : geminiBit key = bitsOf .gemini key := by
  have hmod : key-key/7*7 = key % 7 := by omega
  rw [geminiBit, hmod]
  rfl

theorem int8_of_le {n : Int} (h0 : 0 ≤ n) (h : n ≤ 127) : int8 n = n :=
  Int.bmod_eq_of_le (by omega) (by omega)

/-- The count, the mode and the keys of a chord. -/
structure Holds (s : State) (count : Nat) (mode : Mode) (keys : List Nat) : Prop where
  count : s.nPressedKeys = count
  mode : s.mode = mode
  keys : Has s keys

variable {s : State} {count : Nat} {mode : Mode} {keys : List Nat}

theorem Holds.press (h : Holds s count mode keys) (hc : count < 127) (key : Nat) :
    Holds (processKey key true s).1 (count+1) mode (keys ++ [key]) ∧
      (processKey key true s).2 = [] := by
  obtain ⟨hn,rfl,hk⟩ := h
  have hadd := hk.add key
  have hcount : int8 (s.nPressedKeys+1) = (count+1 : Nat) := by
    rw [hn, int8_of_le (by omega) (by omega)]
    rfl
  obtain ⟨chord,n,mode⟩ := s
  cases mode with
  | bolt => exact ⟨⟨hcount,rfl,hadd⟩,rfl⟩
  | gemini =>
    refine ⟨⟨hcount,rfl,?_⟩,rfl⟩
    change Has (addToChord (key/7) (geminiBit key) _) _
    rw [geminiBit_eq]
    exact hadd

theorem Holds.release (h : Holds s (count+2) mode keys) (hc : count+2 ≤ 127) (key : Nat) :
    Holds (processKey key false s).1 (count+1) mode keys ∧ (processKey key false s).2 = [] := by
  obtain ⟨hn,rfl,hk⟩ := h
  have hcount : int8 (s.nPressedKeys-1) = (count+1 : Nat) := by
    rw [hn, int8_of_le (by omega) (by omega)]
    omega
  simp only [processKey, Bool.false_eq_true, if_false, hcount]
  rw [if_pos (by omega)]
  exact ⟨⟨rfl,rfl,hk⟩,rfl⟩

theorem Holds.last (h : Holds s 1 mode keys) (key : Nat) :
    Holds (processKey key false s).1 0 mode [] ∧
      (processKey key false s).2 = stroke mode keys := by
  obtain ⟨hn,rfl,hk⟩ := h
  have hcount : int8 (s.nPressedKeys-1) = 0 := by
    rw [hn]
    decide
  obtain ⟨chord,n,mode⟩ := s
  simp only [processKey, Bool.false_eq_true, if_false, hcount]
  rw [if_neg (by omega)]
  cases mode with
  | bolt => exact ⟨⟨rfl,rfl,fun _ => rfl⟩,Has.send_bolt hk rfl⟩
  | gemini => exact ⟨⟨rfl,rfl,fun _ => rfl⟩,Has.send_gemini hk rfl⟩

variable {cfg : Config}

def processKeys : List Nat → Bool → State → State × List Byte
  | [], _, s => (s,[])
  | key::keys, pressed, s =>
    let (s, sent) := processKey key pressed s
    let (s, sent') := processKeys keys pressed s
    (s,sent ++ sent')

theorem keysOf_outside {keycode : Keycode} (h : keycode < qkSteno ∨ qkStenoMax < keycode) :
    keysOf cfg keycode = [] := by
  have hcomb : (qkStenoComb ≤ keycode && keycode ≤ qkStenoCombMax) = false := by
    simp [qkSteno, qkStenoMax, qkStenoComb, qkStenoCombMax, BitVec.lt_def, BitVec.le_def] at h ⊢
    omega
  have hstn : (stnMin ≤ keycode && keycode ≤ stnMax) = false := by
    simp [qkSteno, qkStenoMax, stnMin, stnMax, BitVec.lt_def, BitVec.le_def] at h ⊢
    omega
  simp only [keysOf, hcomb, hstn, Bool.and_false, Bool.false_eq_true, if_false]

theorem keycode_of_mode {keycode : Keycode} {mode : Mode} (h : modeOf cfg keycode = some mode) :
    keycode = qkStenoBolt ∨ keycode = qkStenoGemini := by
  unfold modeOf at h
  split at h
  · rename_i hc
    exact .inl (by simpa using (Bool.and_eq_true_iff.mp hc).2)
  · split at h
    · rename_i hc
      exact .inr (by simpa using (Bool.and_eq_true_iff.mp hc).2)
    · cases h

theorem keysOf_of_mode {keycode : Keycode} {mode : Mode} (h : modeOf cfg keycode = some mode) :
    keysOf cfg keycode = [] := by
  rcases keycode_of_mode h with rfl | rfl
  · exact if_neg (by simp [qkStenoBolt, qkStenoComb])
  · exact if_neg (by simp [qkStenoGemini, qkStenoComb])

theorem processSteno_of_mode {keycode : Keycode} {mode : Mode}
    (h : modeOf cfg keycode = some mode) (pressed : Bool) (s : State) :
    processSteno cfg keycode pressed s = (if pressed then stenoSetMode mode s else s,[],false) := by
  have hin : (keycode < qkSteno || qkStenoMax < keycode) = false := by
    rcases keycode_of_mode h with rfl | rfl <;> decide
  unfold modeOf at h
  unfold processSteno
  rw [if_neg (by simp [hin])]
  split at h
  · rename_i hc
    cases h
    rw [if_pos hc]
  · rename_i hc
    rw [if_neg hc]
    split at h
    · rename_i hg
      cases h
      rw [if_pos hg]
    · cases h

theorem processSteno_of_keys {keycode : Keycode} (h : modeOf cfg keycode = none) (pressed : Bool)
    (s : State) : (processSteno cfg keycode pressed s).1
        = (processKeys (keysOf cfg keycode) pressed s).1 ∧
      (processSteno cfg keycode pressed s).2.1
        = (processKeys (keysOf cfg keycode) pressed s).2 := by
  unfold modeOf at h
  split at h
  · cases h
  · rename_i hb
    split at h
    · cases h
    · rename_i hg
      unfold processSteno
      by_cases hout : (keycode < qkSteno || qkStenoMax < keycode) = true
      · rw [if_pos hout, keysOf_outside (by simpa using hout)]
        exact ⟨rfl,rfl⟩
      · rw [if_neg hout, if_neg hb, if_neg hg]
        unfold keysOf
        split
        · simp [processKeys]
        · split
          · simp [processKeys]
          · exact ⟨rfl,rfl⟩

theorem keysOf_length (keycode : Keycode) : (keysOf cfg keycode).length ≤ 2 := by
  unfold keysOf
  split
  · simp
  · split <;> simp

theorem Holds.pressAll (h : Holds s count mode keys) (more : List Nat)
    (hc : count+more.length ≤ 127) :
    Holds (processKeys more true s).1 (count+more.length) mode (keys ++ more) ∧
      (processKeys more true s).2 = [] := by
  induction more generalizing s count keys with
  | nil => simpa [processKeys] using h
  | cons key more ih =>
    rw [List.length_cons] at hc ⊢
    obtain ⟨hp,hs⟩ := h.press (by omega) key
    obtain ⟨hr,hs'⟩ := ih hp (by omega)
    rw [List.append_assoc] at hr
    refine ⟨?_,?_⟩
    · rw [show count+(more.length+1) = count+1+more.length by omega]
      exact hr
    · simp only [processKeys, hs, hs', List.append_nil]

theorem Holds.releaseAll {key : Nat} {more : List Nat}
    (h : Holds s (count+(more.length+1)) mode keys) (hc : count+(more.length+1) ≤ 127) :
    Holds (processKeys (key::more) false s).1 count mode (if count = 0 then [] else keys) ∧
      (processKeys (key::more) false s).2 = if count = 0 then stroke mode keys else [] := by
  induction more generalizing s key with
  | nil =>
    cases count with
    | zero =>
      obtain ⟨hr,hs⟩ := h.last key
      exact ⟨hr,by simpa [processKeys] using hs⟩
    | succ count =>
      obtain ⟨hr,hs⟩ := h.release hc key
      exact ⟨hr,by simpa [processKeys] using hs⟩
  | cons key' more ih =>
    rw [List.length_cons] at h hc
    obtain ⟨hr,hs⟩ := @Holds.release s (count+more.length) mode keys h (by omega) key
    obtain ⟨hr',hs'⟩ := @ih (processKey key false s).1 key' hr (by omega)
    refine ⟨hr',?_⟩
    change (processKey key false s).2 ++ _ = _
    rw [hs, List.nil_append]
    exact hs'

def total (cfg : Config) (held : List (κ × Keycode)) : Nat :=
  (held.map fun q => (keysOf cfg q.2).length).sum

theorem heldKeys_cons (q : κ × Keycode) (held : List (κ × Keycode)) :
    heldKeys cfg (q::held) = heldKeys cfg held+if keysOf cfg q.2 = [] then 0 else 1 := by
  by_cases hk : keysOf cfg q.2 = [] <;> simp [heldKeys, hk]

theorem total_le (held : List (κ × Keycode)) : total cfg held ≤ 2*heldKeys cfg held := by
  induction held with
  | nil => simp [total]
  | cons q held ih =>
    have hq := @keysOf_length cfg q.2
    have ht : total cfg (q::held) = (keysOf cfg q.2).length+total cfg held := by simp [total]
    rw [ht, heldKeys_cons]
    by_cases hk : keysOf cfg q.2 = []
    · simpa [hk] using ih
    · rw [if_neg hk]
      omega

theorem total_eq_zero {held : List (κ × Keycode)} :
    total cfg held = 0 ↔ ∀ r ∈ held, keysOf cfg r.2 = [] := by
  induction held with
  | nil => simp [total]
  | cons q held ih =>
    have ht : total cfg (q::held) = (keysOf cfg q.2).length+total cfg held := by simp [total]
    rw [ht, Nat.add_eq_zero_iff, ih, List.length_eq_zero_iff, List.forall_mem_cons]

variable [DecidableEq κ]

theorem total_erase {held : List (κ × Keycode)} {q : κ × Keycode} (h : q ∈ held) :
    total cfg held = total cfg (held.erase q)+(keysOf cfg q.2).length := by
  have hp := ((List.perm_cons_erase h).map fun q => (keysOf cfg q.2).length).sum_nat
  rw [List.map_cons, List.sum_cons] at hp
  unfold total
  omega

structure Inv (cfg : Config) (v : World κ) : Prop where
  few : heldKeys cfg v.chord.held < 64
  holds : Holds v.state (total cfg v.chord.held) v.chord.mode v.chord.pressed

theorem Inv.press {v : World κ} (hv : Inv cfg v) {input : Input κ}
    (hq : v.chord.held.find? (fun q => decide (q.1 = input.key)) = none)
    (hf : Few cfg v input) : Right cfg v input ∧ Inv cfg (next cfg v input) := by
  have hn : next cfg v input = ⟨(processSteno cfg input.keycode true v.state).1,
      (v.chord.step cfg input).1,(processSteno cfg input.keycode true v.state).2.1⟩ := by
    simp only [next, hq]
  have hlen : heldKeys cfg ((input.key,input.keycode)::v.chord.held) < 64 := by
    have h := hf
    unfold Few at h
    rw [hn] at h
    simp only [Chord.step, hq] at h
    split at h
    · exact h
    · exact h
  have ht : total cfg ((input.key,input.keycode)::v.chord.held)
      = total cfg v.chord.held+(keysOf cfg input.keycode).length := by
    simp [total, Nat.add_comm]
  have hle := @total_le κ cfg ((input.key,input.keycode)::v.chord.held)
  cases hm : modeOf cfg input.keycode with
  | some mode =>
    have hs : v.chord.step cfg input
        = (⟨(input.key,input.keycode)::v.chord.held,mode,[]⟩,[]) := by
      simp only [Chord.step, hq, hm]
    have hp := processSteno_of_mode hm true v.state
    rw [keysOf_of_mode hm, List.length_nil, Nat.add_zero] at ht
    rw [Right, hn, hs, hp]
    refine ⟨rfl,⟨hlen,?_⟩⟩
    rw [ht]
    exact ⟨hv.holds.count,rfl,fun _ => rfl⟩
  | none =>
    have hs : v.chord.step cfg input = (⟨(input.key,input.keycode)::v.chord.held,v.chord.mode,
        v.chord.pressed ++ keysOf cfg input.keycode⟩,[]) := by
      simp only [Chord.step, hq, hm]
    obtain ⟨hp,hp'⟩ := processSteno_of_keys hm true v.state
    obtain ⟨hh,hsent⟩ := hv.holds.pressAll (keysOf cfg input.keycode) (by omega)
    rw [Right, hn, hs, hp, hp', hsent]
    refine ⟨rfl,⟨hlen,?_⟩⟩
    rw [ht]
    exact hh

theorem Inv.release {v : World κ} (hv : Inv cfg v) {input : Input κ} {q : κ × Keycode}
    (hq : v.chord.held.find? (fun q => decide (q.1 = input.key)) = some q) :
    Right cfg v input ∧ Inv cfg (next cfg v input) := by
  have hn : next cfg v input = ⟨(processSteno cfg q.2 false v.state).1,
      (v.chord.step cfg input).1,(processSteno cfg q.2 false v.state).2.1⟩ := by
    simp only [next, hq]
  have hmem := List.mem_of_find?_eq_some hq
  have hlen : heldKeys cfg (v.chord.held.erase q) < 64 :=
    Nat.lt_of_le_of_lt List.erase_sublist.countP_le hv.few
  have ht := @total_erase κ cfg _ _ _ hmem
  have hle := @total_le κ cfg v.chord.held
  have hfew := hv.few
  cases hk : keysOf cfg q.2 with
  | nil =>
    have hs : v.chord.step cfg input
        = (⟨v.chord.held.erase q,v.chord.mode,v.chord.pressed⟩,[]) := by
      simp only [Chord.step, hq, hk, ne_eq, not_true_eq_false, false_and, if_false]
    have hp : (processSteno cfg q.2 false v.state).1 = v.state ∧
        (processSteno cfg q.2 false v.state).2.1 = [] := by
      cases hm : modeOf cfg q.2 with
      | some mode =>
        rw [processSteno_of_mode hm]
        exact ⟨rfl,rfl⟩
      | none =>
        have h := processSteno_of_keys hm false v.state
        rw [hk] at h
        exact h
    rw [hk, List.length_nil, Nat.add_zero] at ht
    rw [Right, hn, hs, hp.1, hp.2]
    exact ⟨rfl,⟨hlen,ht ▸ hv.holds⟩⟩
  | cons key more =>
    have hm : modeOf cfg q.2 = none := by
      cases hm : modeOf cfg q.2 with
      | some mode =>
        rw [keysOf_of_mode hm] at hk
        cases hk
      | none => rfl
    have hs : v.chord.step cfg input = if total cfg (v.chord.held.erase q) = 0 then
          (⟨v.chord.held.erase q,v.chord.mode,[]⟩,stroke v.chord.mode v.chord.pressed)
        else (⟨v.chord.held.erase q,v.chord.mode,v.chord.pressed⟩,[]) := by
      have hne : keysOf cfg q.2 ≠ [] := by simp [hk]
      simp only [Chord.step, hq, total_eq_zero, and_iff_right hne]
    obtain ⟨hp,hp'⟩ := processSteno_of_keys hm false v.state
    rw [hk, List.length_cons] at ht
    have hh := hv.holds
    rw [ht] at hh
    obtain ⟨hr,hsent⟩ := @Holds.releaseAll _ _ _ _ key more hh (by omega)
    rw [hk] at hp hp'
    rw [Right, hn, hs, hp, hp', hsent]
    split
    · rename_i h0
      rw [h0, if_pos rfl] at hr
      exact ⟨rfl,⟨hlen,by rw [h0]; exact hr⟩⟩
    · rename_i h0
      rw [if_neg h0] at hr
      exact ⟨rfl,⟨hlen,hr⟩⟩

/-- Strokes are exactly the chords, and the keys of a Gemini stroke can be read back. -/
theorem strokes_right (cfg : Config) (mode : Mode) {inputs : List (Input κ)}
    (hf : Along (next cfg) (Few cfg) (start mode) inputs) :
    Along (next cfg) (Right cfg) (start mode) inputs ∧ ∀ keys, Decodes keys := by
  refine ⟨?_,decodes⟩
  refine @Along.imp _ _ _ _ (Right cfg) (Inv cfg) (fun v input hv hf => ?_) (start mode) ?_ _ hf
  · cases hq : v.chord.held.find? fun q => decide (q.1 = input.key) with
    | none => exact hv.press hq hf
    | some q => exact hv.release hq
  · exact ⟨Nat.zero_lt_succ 63,⟨rfl,rfl,fun _ => rfl⟩⟩

/-- S1 and TL, held over a combined key, and a switch of the mode while a key is held. -/
theorem strokes_right_overlap : Along (next ⟨true,true⟩) (Right ⟨true,true⟩) (start .gemini)
    [(⟨0,0x74C7⟩ : Input (Fin 4)),⟨1,0x74F3⟩,⟨0,0x74C7⟩,⟨1,0x74F3⟩,⟨0,0x74C9⟩,⟨2,0x74F0⟩,⟨2,0x74F0⟩,
      ⟨3,0x74CA⟩,⟨0,0x74C9⟩,⟨3,0x74CA⟩] ∧ ∀ keys, Decodes keys :=
  strokes_right ⟨true,true⟩ .gemini (by decide)

end QmkFirmware.Steno
