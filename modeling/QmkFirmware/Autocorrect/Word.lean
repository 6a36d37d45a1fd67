import Mathlib.Data.List.GetD
import QmkFirmware.Autocorrect.RoundTrip

/-!
The word that `process_autocorrect` gathers when a typo was found: the arrays it goes through, and
the two strings that `apply_autocorrect` is called with.
-/

set_option autoImplicit false

namespace QmkFirmware.Autocorrect

/-- `AUTOCORRECT_MAX_LENGTH`. -/
def maxLength (autocorrections : List Autocorrection) : Nat :=
  (autocorrections.map fun e => e.1.length).max?.getD 0

inductive Buffer where
  | typoBuffer
  | typo
  | correct
  deriving DecidableEq, Repr

abbrev Access := Buffer × Int

def Buffer.size (d : AutocorrectData) : Buffer → Nat
  | .typoBuffer => d.maxLength
  | .typo => d.maxLength+1
  | .correct => d.maxLength+10

def InBounds (d : AutocorrectData) (a : Access) : Prop := 0 ≤ a.2 ∧ a.2 < a.1.size d

instance (d : AutocorrectData) (a : Access) : Decidable (InBounds d a) :=
  inferInstanceAs (Decidable (_ ∧ _))

def appended (keycode : UInt8) (shift : Bool) (typoBuffer : List UInt8) :
    Option (UInt8 × List UInt8) :=
  if kcA ≤ keycode ∧ keycode ≤ 0x1D then some (keycode,typoBuffer)
  else if (0x1E ≤ keycode ∧ keycode ≤ 0x27) ∨ (0x2B ≤ keycode ∧ keycode ≤ 0x33)
      ∨ (0x35 ≤ keycode ∧ keycode ≤ 0x38) then some (kcSpc,typoBuffer)
  else if keycode = 0x28 then some (kcSpc,[])
  else if keycode = 0x2A then none
  else if keycode = kcQuot then some (if shift then kcSpc else kcQuot,typoBuffer)
  else none

def rotate (d : AutocorrectData) (typoBuffer : List UInt8) : List UInt8 :=
  if d.maxLength ≤ typoBuffer.length then (typoBuffer.drop 1).take (d.maxLength-1) else typoBuffer

def walkReads (data : List UInt8) : List UInt8 → Nat → UInt8 → Nat
  | [], _, _ => 0
  | key :: keys, state, code =>
    match matchNode data key state code with
    | .goto state =>
      if data.length ≤ state then 1 else
      match data[state]? with
      | some code => if code &&& 128 ≠ 0 then 1 else walkReads data keys state code+1
      | none => 1
    | _ => 1

def keyAccesses (d : AutocorrectData) (keycode : UInt8) (typoBuffer : List UInt8) : List Access :=
  let kept := rotate d typoBuffer
  let size := kept.length+1
  (if d.maxLength ≤ typoBuffer.length then (List.range d.maxLength).map fun i : Nat =>
      (.typoBuffer,(i : Int)) else [])
    ++ [(.typoBuffer,(kept.length : Int))]
    ++ (List.range (walkReads d.data (kept ++ [keycode]).reverse 0 (d.data.getD 0 0))).map
      fun j : Nat =>
      (.typoBuffer,(size : Int)-1-j)

/-- The loop back to the last word break: `typo_len` and `typo_start`. -/
def wordLoop (typoBuffer : List UInt8) : Nat → Nat → Nat × Nat
  | 0, typoLen => (typoLen,0)
  | i+1, typoLen =>
    if typoBuffer.getD i 0 = kcSpc ∧ i+1 ≠ typoBuffer.length then (typoLen,i+1)
    else wordLoop typoBuffer i (typoLen+1)

def wordReads (typoBuffer : List UInt8) : Nat → List Nat
  | 0 => []
  | i+1 =>
    if typoBuffer.getD i 0 = kcSpc ∧ i+1 ≠ typoBuffer.length then [i]
    else i :: wordReads typoBuffer i

/-- A char array. An access behind its ends is one like the others here. -/
abbrev CharArray := Int → UInt8

def CharArray.string (a : CharArray) (size : Nat) : List UInt8 :=
  ((List.range size).map fun i : Nat => a i).takeWhile (· ≠ 0)

/-- `strcpy` to an index of the array. -/
def strcpy (a : CharArray) (dest : Int) (src : List UInt8) : CharArray := fun i =>
  if dest ≤ i ∧ i < dest+src.length then src.getD (i-dest).toNat 0
  else if i = dest+src.length then 0 else a i

/-- The indices that `strcpy` writes, the terminator's included. -/
def strcpyWrites (dest : Int) (src : List UInt8) : List Int :=
  (List.range (src.length+1)).map fun j : Nat => dest+j

/-- The strings that `apply_autocorrect` gets, and what was accessed for them. -/
structure Gathered where
  typo : List UInt8
  correct : List UInt8
  accesses : List Access

/-- Behind a match, with the new key in the buffer. -/
def gather (d : AutocorrectData) (state : Nat) (typoBuffer : List UInt8) : Gathered :=
  let backspaces := backspacesAt d.data state
  let changes := changesAt d.data state
  let spaceLast := typoBuffer.getD (typoBuffer.length-1) 0 = kcSpc
  let typoLen := (wordLoop typoBuffer typoBuffer.length 0).1
  let typoStart := (wordLoop typoBuffer typoBuffer.length 0).2
  let typoLen := if spaceLast then typoLen-1 else typoLen
  let typo : CharArray := fun i =>
    if 0 ≤ i ∧ i < typoLen then typoBuffer.getD (typoStart+i.toNat) 0 - kcA+97 else 0
  let offset := if spaceLast then backspaces else backspaces+1
  let dest : Int := (typoLen : Int)-offset
  let typoString := typo.string (d.maxLength+1)
  let correct := strcpy (strcpy (fun _ => 0) 0 typoString) dest changes
  { typo := typoString
    correct := correct.string (d.maxLength+10)
    accesses := (.typoBuffer,(typoBuffer.length : Int)-1)
      :: (wordReads typoBuffer typoBuffer.length).map (fun i : Nat => (.typoBuffer,(i : Int)))
      ++ (List.range typoLen).flatMap
        (fun i : Nat => [(.typoBuffer,(typoStart : Int)+i),(.typo,(i : Int))])
      ++ (strcpyWrites 0 typoString).flatMap (fun i : Int => [(.typo,i),(.correct,i)])
      ++ (strcpyWrites dest changes).map (fun i : Int => (.correct,i)) }

/-- A pressed basic key, or anything that empties the buffer: a key that is none of these, a
modifier other than shift, or autocorrect switched off or over. -/
inductive Press where
  | key (keycode : UInt8) (shift : Bool)
  | reset
  deriving DecidableEq, Repr

structure Typing where
  typoBuffer : List UInt8
  typed : List UInt8
  deriving DecidableEq, Repr

def Typing.start : Typing := ⟨[kcSpc],[kcSpc]⟩

def typedWith (keycode : UInt8) (shift : Bool) (typed : List UInt8) : Option (List UInt8) :=
  (appended keycode shift typed).map fun (k,text) => text ++ [k]

def typing (d : AutocorrectData) (t : Typing) : Press → Typing
  | .reset => ⟨[],[]⟩
  | .key keycode shift =>
    let r := processAutocorrect d keycode shift t.typoBuffer
    { typoBuffer := r.2
      typed := match r.1, typedWith keycode shift t.typed with
        | .correct .., _ => r.2
        | .send, some typed => typed
        | .send, none => if keycode = 0x2A then t.typed.dropLast else [] }

/-- A key that completes a typo: what is appended to what, and the leaf. -/
structure Completion where
  keycode : UInt8
  before : List UInt8
  typoBuffer : List UInt8
  typed : List UInt8
  state : Nat
  deriving DecidableEq, Repr

def completes (d : AutocorrectData) (t : Typing) (keycode : UInt8) (shift : Bool) :
    Option Completion :=
  match appended keycode shift t.typoBuffer, typedWith keycode shift t.typed with
  | some (k,before), some typed =>
    match checkTypo d.data d.minLength (rotate d before ++ [k]) with
    | .found state => some ⟨k,before,rotate d before ++ [k],typed,state⟩
    | _ => none
  | _, _ => none

def lastWord (keys : List UInt8) : List UInt8 :=
  (if keys.getLast? = some kcSpc then keys.dropLast else keys).rtakeWhile (· ≠ kcSpc)

def keyChar (k : UInt8) : Char :=
  if k = kcQuot then '\'' else Char.ofNat ('a'.toNat+k.toNat - kcA.toNat)

def shownWord (keys : List UInt8) : List Char :=
  let word := (lastWord keys).map keyChar
  if keys.getLast? = some kcSpc then word else word.dropLast

def text (s : List UInt8) : List Char := s.map fun b => Char.ofNat b.toNat

/-- Every access is in its array, and the strings are the last word typed and what the correction
makes of it on screen. -/
structure WordGathered (d : AutocorrectData) (c : Completion) : Prop where
  inBounds : ∀ a ∈ keyAccesses d c.keycode c.before ++ (gather d c.state c.typoBuffer).accesses,
    InBounds d a
  typo : text (gather d c.state c.typoBuffer).typo = (lastWord c.typed).map keyChar
  correct : text (gather d c.state c.typoBuffer).correct = applied d.data c.state (shownWord c.typed)

/-- The buffer still holds the whole word, and no quote is in it. What the correction replaces is
no longer than the word, and what comes out has room. -/
structure WordFits (d : AutocorrectData) (e : Autocorrection) (c : Completion) : Prop where
  held : (lastWord c.typed).length+(if c.typed.getLast? = some kcSpc then 1 else 0)
    ≤ c.typoBuffer.length
  letters : kcQuot ∉ lastWord c.typed
  replaced : (stripColons e.1).length
    ≤ (lastWord c.typed).length+commonLength (stripColons e.1) e.2
  room : (lastWord c.typed).length+commonLength (stripColons e.1) e.2
      +((e.2.drop (commonLength (stripColons e.1) e.2)).takeWhile (· ≠ Char.ofNat 0)).length
    < (stripColons e.1).length+d.maxLength+10

structure Typing.Ok (d : AutocorrectData) (t : Typing) : Prop where
  suffix : t.typoBuffer <:+ t.typed
  fits : t.typoBuffer.length ≤ d.maxLength
  keys : ∀ k ∈ t.typoBuffer, TypoKey k

theorem processAutocorrect_appended (d : AutocorrectData) (keycode : UInt8) (shift : Bool)
    (typoBuffer : List UInt8) : processAutocorrect d keycode shift typoBuffer
      = match appended keycode shift typoBuffer with
        | some (k,before) => appendKey d k before
        | none => (.send,if keycode = 0x2A then typoBuffer.dropLast else []) := by
  rw [processAutocorrect, appended]
  by_cases h₁ : kcA ≤ keycode ∧ keycode ≤ 0x1D
  · rw [if_pos h₁, if_pos h₁]
  rw [if_neg h₁, if_neg h₁]
  by_cases h₂ : (0x1E ≤ keycode ∧ keycode ≤ 0x27) ∨ (0x2B ≤ keycode ∧ keycode ≤ 0x33)
      ∨ (0x35 ≤ keycode ∧ keycode ≤ 0x38)
  · rw [if_pos h₂, if_pos h₂]
  rw [if_neg h₂, if_neg h₂]
  by_cases h₃ : keycode = 0x28
  · rw [if_pos h₃, if_pos h₃]
  rw [if_neg h₃, if_neg h₃]
  by_cases h₄ : keycode = 0x2A
  · simp only [if_pos h₄]
  rw [if_neg h₄, if_neg h₄]
  by_cases h₅ : keycode = kcQuot
  · rw [if_pos h₅, if_pos h₅]
  simp only [if_neg h₅, if_neg h₄]

theorem appended_cases (keycode : UInt8) (shift : Bool) :
    (∀ buf, appended keycode shift buf = none)
      ∨ ∃ k, TypoKey k ∧ ((∀ buf, appended keycode shift buf = some (k,buf))
        ∨ ∀ buf, appended keycode shift buf = some (k,[])) := by
  have hspc : TypoKey kcSpc := .inr (.inl rfl)
  unfold appended
  by_cases h₁ : kcA ≤ keycode ∧ keycode ≤ 0x1D
  · exact .inr ⟨keycode,.inl h₁,.inl fun _ => if_pos h₁⟩
  simp only [if_neg h₁]
  by_cases h₂ : (0x1E ≤ keycode ∧ keycode ≤ 0x27) ∨ (0x2B ≤ keycode ∧ keycode ≤ 0x33)
      ∨ (0x35 ≤ keycode ∧ keycode ≤ 0x38)
  · exact .inr ⟨kcSpc,hspc,.inl fun _ => if_pos h₂⟩
  simp only [if_neg h₂]
  by_cases h₃ : keycode = 0x28
  · exact .inr ⟨kcSpc,hspc,.inr fun _ => if_pos h₃⟩
  simp only [if_neg h₃]
  by_cases h₄ : keycode = 0x2A
  · exact .inl fun _ => if_pos h₄
  simp only [if_neg h₄]
  by_cases h₅ : keycode = kcQuot
  · refine .inr ⟨if shift then kcSpc else kcQuot,?_,.inl fun _ => if_pos h₅⟩
    cases shift with
    | true => exact hspc
    | false => exact .inr (.inr rfl)
  · exact .inl fun _ => if_neg h₅

theorem appended_pair (keycode : UInt8) (shift : Bool) (buf buf' : List UInt8) :
    appended keycode shift buf = none ∧ appended keycode shift buf' = none
      ∨ ∃ k, TypoKey k ∧ (appended keycode shift buf = some (k,buf)
          ∧ appended keycode shift buf' = some (k,buf')
        ∨ appended keycode shift buf = some (k,[]) ∧ appended keycode shift buf' = some (k,[])) := by
  rcases appended_cases keycode shift with h | ⟨k, hk, h | h⟩
  · exact .inl ⟨h buf,h buf'⟩
  · exact .inr ⟨k,hk,.inl ⟨h buf,h buf'⟩⟩
  · exact .inr ⟨k,hk,.inr ⟨h buf,h buf'⟩⟩

section Buffer

variable {d : AutocorrectData} {buf typed : List UInt8} {k : UInt8}

theorem rotate_suffix (h : buf.length ≤ d.maxLength) : rotate d buf <:+ buf := by
  rw [rotate]
  split
  · rw [List.take_of_length_le (by rw [List.length_drop]; omega)]
    exact List.drop_suffix 1 buf
  · exact List.suffix_rfl

theorem rotate_length (hpos : 0 < d.maxLength) (h : buf.length ≤ d.maxLength) :
    (rotate d buf).length+1 ≤ d.maxLength := by
  rw [rotate]
  split
  · rw [List.length_take]
    omega
  · omega

theorem Typing.Ok.append (hpos : 0 < d.maxLength) (h : Typing.Ok d ⟨buf,typed⟩) (hk : TypoKey k) :
    Typing.Ok d ⟨rotate d buf ++ [k],typed ++ [k]⟩ where
  suffix := (List.suffix_append_inj_of_length_eq rfl).mpr ⟨(rotate_suffix h.fits).trans h.suffix,rfl⟩
  fits := by
    rw [List.length_append]
    exact rotate_length hpos h.fits
  keys j hj := by
    rcases List.mem_append.mp hj with hj | hj
    · exact h.keys j ((rotate_suffix h.fits).subset hj)
    · exact List.mem_singleton.mp hj ▸ hk

theorem Typing.Ok.empty : Typing.Ok d ⟨[],typed⟩ where
  suffix := List.nil_suffix
  fits := Nat.zero_le _
  keys := nofun

end Buffer

theorem appendKey_eq (d : AutocorrectData) (k : UInt8) (buf : List UInt8) :
    appendKey d k buf = match checkTypo d.data d.minLength (rotate d buf ++ [k]) with
      | .found state => (.correct (backspacesAt d.data state) (changesAt d.data state) (k = kcSpc),
          if k = kcSpc then [kcSpc] else [])
      | _ => (.send,rotate d buf ++ [k]) := rfl

theorem dropLast_suffix {xs ys : List UInt8} (h : xs <:+ ys) : xs.dropLast <:+ ys.dropLast := by
  obtain ⟨front, rfl⟩ := h
  cases xs with
  | nil => exact List.nil_suffix
  | cons x xs =>
    rw [List.dropLast_append_cons]
    exact List.suffix_append front _

theorem typing_ok {d : AutocorrectData} (hpos : 0 < d.maxLength) {t : Typing}
    (h : Typing.Ok d t) (p : Press) : Typing.Ok d (typing d t p) := by
  cases p with
  | reset => exact .empty
  | key keycode shift =>
    simp only [typing, processAutocorrect_appended, typedWith]
    rcases appended_pair keycode shift t.typoBuffer t.typed with ⟨h₁, h₂⟩ | ⟨k, hk, hpair⟩
    · rw [h₁, h₂]
      dsimp only [Option.map_none]
      split
      · exact ⟨dropLast_suffix h.suffix,by rw [List.length_dropLast]; have := h.fits; omega,
          fun j hj => h.keys j (List.dropLast_subset _ hj)⟩
      · exact .empty
    have hadd : ∀ buf typed, Typing.Ok d ⟨buf,typed⟩ →
        Typing.Ok d ⟨(appendKey d k buf).2,match (appendKey d k buf).1, some (typed ++ [k]) with
          | .correct .., _ => (appendKey d k buf).2
          | .send, some typed => typed
          | .send, none => if keycode = 0x2A then t.typed.dropLast else []⟩ := by
      intro buf typed hok
      rw [appendKey_eq]
      cases checkTypo d.data d.minLength (rotate d buf ++ [k]) with
      | none => exact hok.append hpos hk
      | outside => exact hok.append hpos hk
      | found state =>
        dsimp only
        split
        · exact ⟨List.suffix_rfl,hpos,fun j hj => .inr (.inl (List.mem_singleton.mp hj))⟩
        · exact .empty
    rcases hpair with ⟨h₁, h₂⟩ | ⟨h₁, h₂⟩
    · rw [h₁, h₂]
      exact hadd _ _ h
    · rw [h₁, h₂]
      exact hadd _ _ .empty

theorem start_ok {d : AutocorrectData} (hpos : 0 < d.maxLength) : Typing.Ok d .start :=
  ⟨List.suffix_rfl,hpos,fun _ hj => .inr (.inl (List.mem_singleton.mp hj))⟩

theorem completes_ok {d : AutocorrectData} (hpos : 0 < d.maxLength) {t : Typing}
    (h : Typing.Ok d t) {keycode : UInt8} {shift : Bool} {c : Completion}
    (hc : completes d t keycode shift = some c) :
    Typing.Ok d ⟨c.typoBuffer,c.typed⟩ ∧ c.before.length ≤ d.maxLength
      ∧ c.typoBuffer = rotate d c.before ++ [c.keycode]
      ∧ checkTypo d.data d.minLength c.typoBuffer = .found c.state := by
  have hadd : ∀ k buf typed, TypoKey k → Typing.Ok d ⟨buf,typed⟩ →
      (match checkTypo d.data d.minLength (rotate d buf ++ [k]) with
        | .found state => some (⟨k,buf,rotate d buf ++ [k],typed ++ [k],state⟩ : Completion)
        | _ => none) = some c →
      Typing.Ok d ⟨c.typoBuffer,c.typed⟩ ∧ c.before.length ≤ d.maxLength
        ∧ c.typoBuffer = rotate d c.before ++ [c.keycode]
        ∧ checkTypo d.data d.minLength c.typoBuffer = .found c.state := by
    intro k buf typed hk hok heq
    split at heq
    · rename_i state hfound
      obtain rfl := Option.some.inj heq
      exact ⟨hok.append hpos hk,hok.fits,rfl,hfound⟩
    · cases heq
  simp only [completes, typedWith] at hc
  rcases appended_pair keycode shift t.typoBuffer t.typed with
    ⟨h₁, h₂⟩ | ⟨k, hk, ⟨h₁, h₂⟩ | ⟨h₁, h₂⟩⟩
  · rw [h₁, h₂] at hc
    cases hc
  · rw [h₁, h₂] at hc
    exact hadd k _ _ hk h hc
  · rw [h₁, h₂] at hc
    exact hadd k _ _ hk .empty hc

theorem walkReads_le (data : List UInt8) (keys : List UInt8) (state : Nat) (code : UInt8) :
    walkReads data keys state code ≤ keys.length := by
  induction keys generalizing state code with
  | nil => exact Nat.le_refl 0
  | cons key keys ih =>
    rw [walkReads, List.length_cons]
    split
    · split
      · omega
      · split
        · split
          · omega
          · exact Nat.succ_le_succ (ih _ _)
        · omega
    · omega

theorem keyAccesses_inBounds {d : AutocorrectData} (hpos : 0 < d.maxLength) (k : UInt8)
    {buf : List UInt8} (h : buf.length ≤ d.maxLength) :
    ∀ a ∈ keyAccesses d k buf, InBounds d a := by
  intro a ha
  have hlen := rotate_length hpos h
  simp only [keyAccesses, List.mem_append, List.mem_map, List.mem_range, List.mem_singleton] at ha
  rcases ha with (ha | rfl) | ⟨j, hj, rfl⟩
  · split at ha
    · obtain ⟨i, hi, rfl⟩ := List.mem_map.mp ha
      exact ⟨Int.natCast_nonneg i,by have := List.mem_range.mp hi; simp only [Buffer.size]; omega⟩
    · cases ha
  · exact ⟨Int.natCast_nonneg _,by simp only [Buffer.size]; omega⟩
  · have hle := walkReads_le d.data (rotate d buf ++ [k]).reverse 0 (d.data.getD 0 0)
    rw [List.length_reverse, List.length_append, List.length_singleton] at hle
    exact ⟨by dsimp only; omega,by simp only [Buffer.size]; omega⟩

def breakLast (keys : List UInt8) : Nat := if keys.getLast? = some kcSpc then 1 else 0

def upToBreak (keys : List UInt8) : List UInt8 :=
  if keys.getLast? = some kcSpc then keys.dropLast else keys

theorem upToBreak_length (keys : List UInt8) :
    (upToBreak keys).length+breakLast keys = keys.length := by
  rw [upToBreak, breakLast]
  split
  · rename_i hlast
    cases keys with
    | nil => cases hlast
    | cons k keys => simp
  · rfl

theorem lastWord_suffix (keys : List UInt8) : lastWord keys <:+ upToBreak keys :=
  List.rtakeWhile_suffix _ _

theorem lastWord_length (keys : List UInt8) :
    (lastWord keys).length+breakLast keys ≤ keys.length := by
  have hle := (lastWord_suffix keys).length_le
  have hlen := upToBreak_length keys
  omega

theorem rtakeWhile_append {α : Type} (p : α → Bool) (xs ys : List α) :
    (xs ++ ys).rtakeWhile p = ys.rtakeWhile p
      ∨ (xs ++ ys).rtakeWhile p = xs.rtakeWhile p ++ ys ∧ ys.rtakeWhile p = ys := by
  induction ys using List.reverseRecOn with
  | nil => exact .inr ⟨by simp,by simp⟩
  | append_singleton ys y ih =>
    rw [← List.append_assoc, List.rtakeWhile_concat, List.rtakeWhile_concat]
    by_cases hy : p y
    · rw [if_pos hy, if_pos hy]
      rcases ih with ih | ⟨ih, ih'⟩
      · exact .inl (by rw [ih])
      · exact .inr ⟨by rw [ih, List.append_assoc],by rw [ih']⟩
    · rw [if_neg hy, if_neg hy]
      exact .inl rfl

theorem lastWord_of_suffix {buf keys : List UInt8} (hne : buf ≠ []) (h : buf <:+ keys) :
    breakLast buf = breakLast keys
      ∧ ((lastWord keys).length+breakLast keys ≤ buf.length → lastWord buf = lastWord keys)
      ∧ ((lastWord buf).length = (lastWord keys).length →
        (lastWord keys).length+breakLast keys ≤ buf.length) := by
  obtain ⟨front, rfl⟩ := h
  have hlast : (front ++ buf).getLast? = buf.getLast? := by
    rw [List.getLast?_append_of_ne_nil _ hne]
  have hbreak : breakLast buf = breakLast (front ++ buf) := by rw [breakLast, breakLast, hlast]
  have hword : lastWord (front ++ buf) = (front ++ upToBreak buf).rtakeWhile (· ≠ kcSpc) := by
    rw [lastWord, upToBreak, hlast]
    split
    · rw [List.dropLast_append_of_ne_nil hne]
    · rfl
  have hlen := upToBreak_length buf
  have hle := lastWord_length buf
  refine ⟨hbreak,fun hheld => ?_,fun heq => by omega⟩
  rcases rtakeWhile_append (· ≠ kcSpc) front (upToBreak buf) with heq | ⟨heq, hall⟩
  · rw [hword, heq]
    rfl
  · have hsame : lastWord buf = upToBreak buf := hall
    rw [hword, heq] at hheld ⊢
    rw [List.length_append] at hheld
    rw [hsame, List.length_eq_zero_iff.mp (show (front.rtakeWhile _).length = 0 by omega),
      List.nil_append]

theorem wordReads_lt {buf : List UInt8} {n i : Nat} (h : i ∈ wordReads buf n) : i < n := by
  induction n with
  | zero => cases h
  | succ n ih =>
    rw [wordReads] at h
    split at h
    · rw [List.mem_singleton.mp h]
      exact Nat.lt_succ_self n
    · rcases List.mem_cons.mp h with rfl | h
      · exact Nat.lt_succ_self i
      · exact Nat.lt_succ_of_lt (ih h)

theorem wordLoop_run (buf : List UInt8) {i : Nat} (hi : i < buf.length) (typoLen : Nat) :
    wordLoop buf i typoLen = (typoLen+((buf.take i).rtakeWhile (· ≠ kcSpc)).length,
      i-((buf.take i).rtakeWhile (· ≠ kcSpc)).length) := by
  induction i generalizing typoLen with
  | zero => simp [wordLoop]
  | succ i ih =>
    have hget : buf[i]? = some (buf.getD i 0) := by
      rw [List.getD_eq_getElem?_getD, List.getElem?_eq_getElem (by omega), Option.getD_some]
    rw [wordLoop, List.take_add_one, hget, Option.toList_some, List.rtakeWhile_concat]
    by_cases hspc : buf.getD i 0 = kcSpc
    · rw [if_pos ⟨hspc,by omega⟩, if_neg (by rw [hspc]; simp)]
      simp
    · rw [if_neg fun h => hspc h.1, ih (by omega)]
      simp only [hspc, ne_eq, not_false_eq_true, decide_true, if_true, List.length_append,
        List.length_singleton]
      simp only [Prod.mk.injEq]
      omega

theorem getD_last (buf : List UInt8) (hne : buf ≠ []) :
    buf.getD (buf.length-1) 0 = kcSpc ↔ buf.getLast? = some kcSpc := by
  rw [List.getLast?_eq_getElem?, List.getD_eq_getElem?_getD]
  have hpos := List.length_pos_of_ne_nil hne
  rw [List.getElem?_eq_getElem (by omega)]
  simp

theorem wordLoop_word {buf : List UInt8} (hne : buf ≠ []) :
    let r := wordLoop buf buf.length 0
    (if buf.getD (buf.length-1) 0 = kcSpc then r.1-1 else r.1) = (lastWord buf).length
      ∧ r.2+(lastWord buf).length+breakLast buf = buf.length := by
  intro r
  have hpos := List.length_pos_of_ne_nil hne
  obtain ⟨n, hn⟩ : ∃ n, buf.length = n+1 := ⟨buf.length-1,by omega⟩
  have hr : r = (1+((buf.take n).rtakeWhile (· ≠ kcSpc)).length,
      n-((buf.take n).rtakeWhile (· ≠ kcSpc)).length) := by
    simp only [r]
    rw [hn, wordLoop, if_neg fun h => h.2 hn.symm, wordLoop_run buf (by omega)]
  have hdrop : buf.dropLast = buf.take n := by rw [List.dropLast_eq_take, hn, Nat.add_sub_cancel]
  have hle := (List.rtakeWhile_suffix (fun k => decide (k ≠ kcSpc)) (buf.take n)).length_le
  rw [List.length_take, Nat.min_eq_left (by omega)] at hle
  by_cases hlast : buf.getLast? = some kcSpc
  · have hword : lastWord buf = (buf.take n).rtakeWhile (· ≠ kcSpc) := by
      rw [lastWord, if_pos hlast, hdrop]
    rw [if_pos ((getD_last buf hne).mpr hlast), hword, hr, breakLast, if_pos hlast]
    dsimp only
    omega
  · have hword : lastWord buf = (buf.take n).rtakeWhile (· ≠ kcSpc) ++ [buf.getLast hne] := by
      rw [lastWord, if_neg hlast]
      conv_lhs => rw [← List.dropLast_append_getLast hne, List.rtakeWhile_concat, hdrop]
      refine if_pos ?_
      simpa [List.getLast?_eq_some_getLast hne] using hlast
    rw [if_neg (mt (getD_last buf hne).mp hlast), hword, hr, breakLast, if_neg hlast,
      List.length_append, List.length_singleton]
    dsimp only
    omega

theorem string_eq {a : CharArray} {s : List UInt8} {size : Nat} (hs : ∀ i < s.length, a i = s.getD i 0)
    (hend : a s.length = 0) (hne : ∀ b ∈ s, b ≠ 0) (hsize : s.length < size) :
    a.string size = s := by
  obtain ⟨m, rfl⟩ : ∃ m, size = s.length+(m+1) := ⟨size-s.length-1,by omega⟩
  have hcells : (List.range s.length).map (fun i : Nat => a i) = s := by
    refine List.ext_getElem (by simp) fun i hi hi' => ?_
    rw [List.getElem_map, List.getElem_range, hs i hi', List.getD_eq_getElem _ _ hi']
  rw [CharArray.string, List.range_add, List.map_append, hcells, List.range_succ_eq_map,
    List.map_cons, List.map_cons, Nat.add_zero, hend, takeWhile_append_stop (by simp)]
  refine List.takeWhile_eq_self_iff.mpr fun b hb => ?_
  simpa using hne b hb

theorem strcpy_string {s t : List UInt8} {k size : Nat} (hk : k ≤ s.length)
    (hs : ∀ b ∈ s, b ≠ 0) (ht : ∀ b ∈ t, b ≠ 0) (hsize : k+t.length < size) :
    (strcpy (strcpy (fun _ => 0) 0 s) (k : Int) t).string size = s.take k ++ t := by
  have hlen : (s.take k ++ t).length = k+t.length := by simp [hk]
  refine string_eq (fun i hi => ?_) ?_ (fun b hb => ?_) (by omega)
  · rw [hlen] at hi
    by_cases hik : i < k
    · have h₁ : ¬((k : Int) ≤ i ∧ (i : Int) < k+t.length) := by omega
      have h₂ : ¬((i : Int) = k+t.length) := by omega
      have h₃ : (0 : Int) ≤ i ∧ (i : Int) < 0+s.length := by omega
      simp only [strcpy, if_neg h₁, if_neg h₂, if_pos h₃]
      rw [List.getD_append _ _ _ _ (by simp; omega), List.getD_eq_getElem?_getD,
        List.getD_eq_getElem?_getD, List.getElem?_take_of_lt hik]
      simp
    · have h₁ : (k : Int) ≤ i ∧ (i : Int) < k+t.length := by omega
      simp only [strcpy, if_pos h₁]
      rw [List.getD_append_right _ _ _ _ (by simp; omega)]
      congr 1
      rw [List.length_take]
      omega
  · have h₁ : ¬((k : Int) ≤ (k+t.length : Nat) ∧ ((k+t.length : Nat) : Int) < k+t.length) := by omega
    rw [hlen]
    simp only [strcpy, if_neg h₁]
    rw [if_pos (by omega)]
  · rcases List.mem_append.mp hb with hb | hb
    · exact hs b (List.mem_of_mem_take hb)
    · exact ht b hb

/-- `typo_buffer[i] - KC_A + 'a'`. -/
def typoChar (k : UInt8) : UInt8 := k - kcA+97

theorem typoChar_ne_zero {k : UInt8} (h : TypoKey k) : typoChar k ≠ 0 := by
  have hall : ∀ c ∈ typoChars, typoChar (typoCode c) ≠ 0 :=
    List.all_iff_forall_prop.mp (by decide +kernel)
  obtain ⟨c, hc, rfl⟩ := (typoKey_iff k).mp h
  exact hall c hc

theorem typoChar_eq_iff {k : UInt8} (h : TypoKey k) (hspc : k ≠ kcSpc) :
    Char.ofNat (typoChar k).toNat = keyChar k ↔ k ≠ kcQuot := by
  have hall : ∀ c ∈ typoChars, typoCode c ≠ kcSpc →
      (Char.ofNat (typoChar (typoCode c)).toNat = keyChar (typoCode c) ↔ typoCode c ≠ kcQuot) :=
    List.all_iff_forall_prop.mp (by decide +kernel)
  obtain ⟨c, hc, rfl⟩ := (typoKey_iff k).mp h
  exact hall c hc hspc

theorem lastWord_keys {keys : List UInt8} (h : ∀ k ∈ keys, TypoKey k) :
    ∀ k ∈ lastWord keys, TypoKey k ∧ k ≠ kcSpc := by
  intro k hk
  refine ⟨h k ?_,by simpa using List.mem_rtakeWhile_imp hk⟩
  have hmem := (lastWord_suffix keys).subset hk
  rw [upToBreak] at hmem
  split at hmem
  · exact List.dropLast_subset _ hmem
  · exact hmem

/-- The index of `correct` that the changes go to. -/
def changesDest (d : AutocorrectData) (state : Nat) (buf : List UInt8) : Int :=
  (lastWord buf).length+breakLast buf-backspacesAt d.data state-1

section Gather

variable {d : AutocorrectData} {s : Nat} {buf : List UInt8} (hne : buf ≠ [])
  (hfits : buf.length ≤ d.maxLength) (hkeys : ∀ k ∈ buf, TypoKey k)

include hne hfits hkeys

theorem gather_typo : (gather d s buf).typo = (lastWord buf).map typoChar := by
  obtain ⟨hlen, hstart⟩ := wordLoop_word hne
  have hword : ∀ i < (lastWord buf).length,
      buf.getD ((wordLoop buf buf.length 0).2+i) 0 = (lastWord buf).getD i 0 := by
    intro i hi
    obtain ⟨front, hfront⟩ := lastWord_suffix buf
    have hup := upToBreak_length buf
    have hfl := congrArg List.length hfront
    rw [List.length_append] at hfl
    have hpart : buf.getD ((wordLoop buf buf.length 0).2+i) 0
        = (upToBreak buf).getD ((wordLoop buf buf.length 0).2+i) 0 := by
      have hlt : (wordLoop buf buf.length 0).2+i < (upToBreak buf).length := by omega
      rw [List.getD_eq_getElem?_getD, List.getD_eq_getElem?_getD]
      simp only [upToBreak] at hlt ⊢
      split at hlt
      · rename_i hspc
        rw [if_pos hspc, List.getElem?_dropLast, if_pos (by rwa [List.length_dropLast] at hlt)]
      · rename_i hspc
        rw [if_neg hspc]
    rw [hpart, ← hfront, List.getD_append_right _ _ _ _ (by omega)]
    congr 1
    omega
  have hkeys' := lastWord_keys hkeys
  have hle := lastWord_length buf
  simp only [gather]
  rw [hlen]
  refine string_eq (fun i hi => ?_) ?_ (fun b hb => ?_) ?_
  · rw [List.length_map] at hi
    have h₁ : (0 : Int) ≤ i ∧ (i : Int) < (lastWord buf).length := by omega
    simp only [if_pos h₁, Int.toNat_natCast]
    rw [hword i hi, List.getD_eq_getElem _ _ hi, List.getD_eq_getElem _ _ (by simpa using hi),
      List.getElem_map]
    rfl
  · rw [List.length_map]
    exact if_neg (by omega)
  · obtain ⟨k, hk, rfl⟩ := List.mem_map.mp hb
    exact typoChar_ne_zero (hkeys' k hk).1
  · rw [List.length_map]
    omega

theorem gather_correct : (gather d s buf).correct
    = (strcpy (strcpy (fun _ => 0) 0 ((lastWord buf).map typoChar)) (changesDest d s buf)
      (changesAt d.data s)).string (d.maxLength+10) := by
  have htypo := gather_typo (s := s) hne hfits hkeys
  obtain ⟨hlen, -⟩ := wordLoop_word hne
  simp only [gather] at htypo ⊢
  rw [htypo, hlen]
  congr 2
  rw [changesDest, breakLast]
  by_cases hlast : buf.getLast? = some kcSpc
  · rw [if_pos ((getD_last buf hne).mpr hlast), if_pos hlast]
    omega
  · rw [if_neg (mt (getD_last buf hne).mp hlast), if_neg hlast]
    omega

theorem gather_inBounds_iff : (∀ a ∈ (gather d s buf).accesses, InBounds d a)
    ↔ 0 ≤ changesDest d s buf
      ∧ changesDest d s buf+(changesAt d.data s).length < d.maxLength+10 := by
  have htypo := gather_typo (s := s) hne hfits hkeys
  obtain ⟨hlen, hstart⟩ := wordLoop_word hne
  have hpos := List.length_pos_of_ne_nil hne
  have hle := lastWord_length buf
  have hdest : ((lastWord buf).length : Int)
      -((if buf.getD (buf.length-1) 0 = kcSpc then backspacesAt d.data s
        else backspacesAt d.data s+1 : Nat) : Int) = changesDest d s buf := by
    rw [changesDest, breakLast]
    by_cases hlast : buf.getLast? = some kcSpc
    · rw [if_pos ((getD_last buf hne).mpr hlast), if_pos hlast]
      omega
    · rw [if_neg (mt (getD_last buf hne).mp hlast), if_neg hlast]
      omega
  simp only [gather] at htypo ⊢
  rw [htypo, hlen, hdest]
  constructor
  · intro hall
    have hmem : ∀ j < (changesAt d.data s).length+1,
        InBounds d (.correct,changesDest d s buf+(j : Int)) := fun j hj =>
      hall _ (List.mem_append_right _ (List.mem_map.mpr
        ⟨_,List.mem_map.mpr ⟨j,List.mem_range.mpr hj,rfl⟩,rfl⟩))
    have hfirst := hmem 0 (Nat.succ_pos _)
    have hend := hmem (changesAt d.data s).length (Nat.lt_succ_self _)
    simp only [InBounds, Buffer.size] at hfirst hend
    omega
  · rintro ⟨hfirst, hend⟩ a ha
    simp only [strcpyWrites, List.mem_append, List.mem_cons, List.mem_map, List.mem_flatMap,
      List.mem_range, List.length_map, exists_exists_and_eq_and, List.not_mem_nil, or_false] at ha
    rcases ha with (((rfl | ⟨i, hi, rfl⟩) | ⟨i, hi, rfl | rfl⟩) | ⟨i, hi, rfl | rfl⟩) | ⟨i, hi, rfl⟩
    · exact ⟨by dsimp only; omega,by simp only [Buffer.size]; omega⟩
    · have := wordReads_lt hi
      exact ⟨Int.natCast_nonneg i,by simp only [Buffer.size]; omega⟩
    · exact ⟨by dsimp only; omega,by simp only [Buffer.size]; omega⟩
    · exact ⟨Int.natCast_nonneg i,by simp only [Buffer.size]; omega⟩
    · exact ⟨by dsimp only; omega,by simp only [Buffer.size]; omega⟩
    · exact ⟨by dsimp only; omega,by simp only [Buffer.size]; omega⟩
    · exact ⟨by dsimp only; omega,by simp only [Buffer.size]; omega⟩

end Gather

/-- The generated header of a dictionary. -/
def dictionaryData (autocorrections : List Autocorrection) (data : List UInt8) : AutocorrectData :=
  ⟨data,minLength autocorrections,maxLength autocorrections⟩

section Dictionary

variable {autocorrections : List Autocorrection} (hd : Accepted autocorrections) {fuel : Nat}
  {data : List UInt8} (h : serializeTrie fuel (makeTrie autocorrections) = some data)

include hd h

theorem maxLength_pos : 0 < maxLength autocorrections := by
  cases autocorrections with
  | nil =>
    obtain ⟨hroot, -⟩ := serializeTrie_encodes h (makeTrie_proper hd)
    generalize htrie : makeTrie [] = trie at hroot
    cases hroot with
    | leaf => cases htrie
    | chain => cases htrie
    | chainEnd => cases htrie
    | branch link hnodup hperm hne =>
      cases htrie
      exact absurd hperm.eq_nil hne
  | cons e es =>
    have hmem := List.length_pos_of_ne_nil (hd.nonempty e List.mem_cons_self)
    exact hmem.trans_le (List.le_max?_getD_of_mem (by simp))

theorem match_leaf {buf : List UInt8} (hkeys : ∀ k ∈ buf, TypoKey k) {state : Nat}
    (hfound : checkTypo data (minLength autocorrections) buf = .found state) :
    ∃ e ∈ autocorrections, e.1.map typoCode <:+ buf
      ∧ ∃ bytes, leafData e.1 e.2 = some bytes ∧ Located data state bytes := by
  obtain ⟨chars, hchars, rfl⟩ := exists_chars hkeys
  have hagrees := checkTypo_agrees hd h hchars
  cases hf : (makeTrie autocorrections).find chars.reverse with
  | none =>
    rw [hf, hfound] at hagrees
    cases hagrees
  | some e =>
    rw [hf] at hagrees
    obtain ⟨state', bytes, hstate, hdata, hloc⟩ := hagrees
    obtain rfl := Match.found.inj (hfound.symm.trans hstate)
    obtain ⟨he, hek⟩ := (makeTrie_find hd chars e).mp hf
    exact ⟨e,he,hek.map _,bytes,hdata,hloc⟩

end Dictionary

theorem typoCode_colon {c : Char} (hc : c ∈ typoChars) : typoCode c = kcSpc ↔ c = ':' :=
  ⟨fun heq => typoCode_inj c hc ':' (by decide) heq,fun heq => heq ▸ rfl⟩

theorem breakLast_typo {e : Autocorrection} {buf : List UInt8} (hne : e.1 ≠ [])
    (hletters : ∀ c ∈ e.1, c ∈ typoChars) (hsuffix : e.1.map typoCode <:+ buf) :
    breakLast buf = if e.1.getLast? = some ':' then 1 else 0 := by
  obtain ⟨front, rfl⟩ := hsuffix
  have hlast := List.getLast?_eq_some_getLast hne
  have hiff := typoCode_colon (hletters _ (List.getLast_mem hne))
  rw [breakLast, List.getLast?_append_of_ne_nil _ (by simpa using hne), List.getLast?_map, hlast]
  simp only [Option.map_some, Option.some.injEq, hiff]

theorem changesDest_typo {d : AutocorrectData} {state : Nat} {e : Autocorrection}
    {bytes buf : List UInt8} (hne : e.1 ≠ []) (hletters : ∀ c ∈ e.1, c ∈ typoChars)
    (hsuffix : e.1.map typoCode <:+ buf) (hdata : leafData e.1 e.2 = some bytes)
    (hloc : Located d.data state bytes) :
    changesDest d state buf = (lastWord buf).length+commonLength (stripColons e.1) e.2
      -(stripColons e.1).length := by
  have hcount := (leaf_reads hdata hloc).1
  rw [changesDest, breakLast_typo hne hletters hsuffix, hcount]
  split
  · simp
    omega
  · simp
    omega

theorem changesAt_length {d : AutocorrectData} {state : Nat} {e : Autocorrection}
    {bytes : List UInt8} (hdata : leafData e.1 e.2 = some bytes)
    (hloc : Located d.data state bytes) :
    (changesAt d.data state).length = ((e.2.drop (commonLength (stripColons e.1) e.2)).takeWhile
      (· ≠ Char.ofNat 0)).length := by
  rw [← (leaf_reads hdata hloc).2, List.length_map]

theorem typo_text_iff {buf typed : List UInt8} (hne : buf ≠ []) (hsuffix : buf <:+ typed)
    (hkeys : ∀ k ∈ buf, TypoKey k) :
    text ((lastWord buf).map typoChar) = (lastWord typed).map keyChar
      ↔ (lastWord typed).length+breakLast typed ≤ buf.length ∧ kcQuot ∉ lastWord typed := by
  obtain ⟨-, hwhole, hlength⟩ := lastWord_of_suffix hne hsuffix
  have hkeys' := lastWord_keys hkeys
  have hconvert : text ((lastWord buf).map typoChar) = (lastWord buf).map keyChar
      ↔ kcQuot ∉ lastWord buf := by
    rw [text, List.map_map, List.map_inj_left]
    refine ⟨fun hall hmem => ?_,fun hno k hk => ?_⟩
    · exact (typoChar_eq_iff (hkeys' _ hmem).1 (hkeys' _ hmem).2).mp (hall _ hmem) rfl
    · exact (typoChar_eq_iff (hkeys' k hk).1 (hkeys' k hk).2).mpr fun heq => hno (heq ▸ hk)
  constructor
  · intro heq
    have hlen := congrArg List.length heq
    simp only [text, List.length_map] at hlen
    have hheld := hlength hlen
    rw [← hwhole hheld] at heq ⊢
    exact ⟨by rwa [hwhole hheld],hconvert.mp heq⟩
  · rintro ⟨hheld, hletters⟩
    rw [← hwhole hheld] at hletters ⊢
    exact hconvert.mpr hletters

theorem shownWord_eq (keys : List UInt8) : shownWord keys
    = ((lastWord keys).map keyChar).take ((lastWord keys).length+breakLast keys-1) := by
  rw [shownWord, breakLast]
  by_cases hlast : keys.getLast? = some kcSpc
  · rw [if_pos hlast, if_pos hlast, List.take_of_length_le (by rw [List.length_map]; omega)]
  · rw [if_neg hlast, if_neg hlast, List.dropLast_eq_take, List.length_map]
    rfl

theorem correct_text {d : AutocorrectData} {state : Nat} {buf typed : List UInt8} (hne : buf ≠ [])
    (hsuffix : buf <:+ typed) (hfits : buf.length ≤ d.maxLength) (hkeys : ∀ k ∈ buf, TypoKey k)
    (hword : text ((lastWord buf).map typoChar) = (lastWord typed).map keyChar)
    (hdest : 0 ≤ changesDest d state buf)
    (hroom : changesDest d state buf+(changesAt d.data state).length < d.maxLength+10) :
    text (gather d state buf).correct = applied d.data state (shownWord typed) := by
  obtain ⟨hbreak, -, -⟩ := lastWord_of_suffix hne hsuffix
  have hlen := congrArg List.length hword
  simp only [text, List.length_map] at hlen
  obtain ⟨n, hn⟩ := Int.eq_ofNat_of_zero_le hdest
  have hcount : n = (lastWord typed).length+breakLast typed-1-backspacesAt d.data state := by
    rw [changesDest, hlen, hbreak] at hn
    omega
  have hone : breakLast typed ≤ 1 := by
    rw [breakLast]
    split <;> omega
  have hle : n ≤ (lastWord buf).length := by omega
  have hstring : (gather d state buf).correct
      = ((lastWord buf).map typoChar).take n ++ changesAt d.data state := by
    rw [gather_correct hne hfits hkeys, hn]
    refine strcpy_string (by rwa [List.length_map]) (fun b hb => ?_) (fun b hb => ?_) (by omega)
    · obtain ⟨k, hk, rfl⟩ := List.mem_map.mp hb
      exact typoChar_ne_zero (lastWord_keys hkeys k hk).1
    · simpa using List.mem_takeWhile_imp hb
  have hshown : (shownWord typed).take ((shownWord typed).length-backspacesAt d.data state)
      = ((lastWord typed).map keyChar).take n := by
    have hlen' : min ((lastWord typed).length+breakLast typed-1) (lastWord typed).length
        = (lastWord typed).length+breakLast typed-1 := Nat.min_eq_left (by omega)
    rw [shownWord_eq, List.length_take, List.length_map, hlen', List.take_take,
      Nat.min_eq_left (Nat.sub_le _ _), hcount]
  rw [hstring, applied, hshown, ← hword, text, text, List.map_append, List.map_take]

/-- The strings are right and no access is outside if and only if the word fits. -/
theorem word_gathered_iff {autocorrections : List Autocorrection} (hd : Accepted autocorrections)
    {fuel : Nat} {data : List UInt8}
    (h : serializeTrie fuel (makeTrie autocorrections) = some data) (presses : List Press)
    (keycode : UInt8) (shift : Bool) {c : Completion}
    (hc : completes (dictionaryData autocorrections data)
      (presses.foldl (typing (dictionaryData autocorrections data)) .start) keycode shift
        = some c) :
    ∃ e ∈ autocorrections, e.1.map typoCode <:+ c.typoBuffer
      ∧ (WordGathered (dictionaryData autocorrections data) c
        ↔ WordFits (dictionaryData autocorrections data) e c) := by
  have hpos : 0 < (dictionaryData autocorrections data).maxLength := maxLength_pos hd h
  have hrun : ∀ (presses : List Press) (t : Typing),
      Typing.Ok (dictionaryData autocorrections data) t → Typing.Ok
        (dictionaryData autocorrections data)
        (presses.foldl (typing (dictionaryData autocorrections data)) t) := by
    intro presses
    induction presses with
    | nil => exact fun t ht => ht
    | cons p presses ih => exact fun t ht => ih _ (typing_ok hpos ht p)
  obtain ⟨hok, hbefore, hbuf, hfound⟩ := completes_ok hpos (hrun presses _ (start_ok hpos)) hc
  obtain ⟨e, he, hek, bytes, hdata, hloc⟩ := match_leaf hd h hok.keys hfound
  refine ⟨e,he,hek,?_⟩
  have hne : c.typoBuffer ≠ [] := by simp [hbuf]
  have hdest := changesDest_typo (d := dictionaryData autocorrections data) (hd.nonempty e he)
    (hd.letters e he) hek hdata hloc
  have hchanges := changesAt_length (d := dictionaryData autocorrections data) hdata hloc
  have htypo := gather_typo (s := c.state) hne hok.fits hok.keys
  have htext := typo_text_iff hne hok.suffix hok.keys
  have hsame : (lastWord c.typed).length+breakLast c.typed ≤ c.typoBuffer.length →
      lastWord c.typoBuffer = lastWord c.typed := (lastWord_of_suffix hne hok.suffix).2.1
  have hbounds := gather_inBounds_iff (s := c.state) hne hok.fits hok.keys
  have hkey := keyAccesses_inBounds hpos c.keycode hbefore
  constructor
  · intro hg
    obtain ⟨hfirst, hend⟩ := hbounds.mp fun a ha => hg.inBounds a (List.mem_append_right _ ha)
    obtain ⟨hheld, hletters⟩ := htext.mp (htypo ▸ hg.typo)
    rw [hdest, hsame hheld] at hfirst hend
    rw [hchanges] at hend
    exact ⟨hheld,hletters,by omega,by omega⟩
  · intro hf
    have hword := htext.mpr ⟨hf.held,hf.letters⟩
    have hreplaced := hf.replaced
    have hroom := hf.room
    have hfirst : 0 ≤ changesDest (dictionaryData autocorrections data) c.state c.typoBuffer := by
      rw [hdest, hsame hf.held]
      omega
    have hend : changesDest (dictionaryData autocorrections data) c.state c.typoBuffer
        +(changesAt (dictionaryData autocorrections data).data c.state).length
          < (dictionaryData autocorrections data).maxLength+10 := by
      rw [hchanges, hdest, hsame hf.held]
      omega
    refine ⟨fun a ha => ?_,htypo ▸ hword,
      correct_text hne hok.suffix hok.fits hok.keys hword hfirst hend⟩
    rcases List.mem_append.mp ha with ha | ha
    · exact hkey a ha
    · exact hbounds.mpr ⟨hfirst,hend⟩ a ha

/-- `looses` and a space: the buffer of seven keys has just lost the first break. -/
def loosesKeys : List Press :=
  [.key 15 false,.key 18 false,.key 18 false,.key 22 false,.key 8 false,.key 22 false]

def loosesCompletion : Completion :=
  ⟨kcSpc,[kcSpc,15,18,18,22,8,22],[15,18,18,22,8,22,kcSpc],[kcSpc,15,18,18,22,8,22,kcSpc],14⟩

theorem word_gathered_looses :
    WordGathered (dictionaryData someTypos someData) loosesCompletion
      ∧ text (gather (dictionaryData someTypos someData) 14 loosesCompletion.typoBuffer).correct
        = "loses".toList := by
  have hdata : serializeTrie 10 (makeTrie someTypos) = some someData := by decide +kernel
  obtain ⟨e, he, hek, hiff⟩ := word_gathered_iff someTypos_accepted hdata loosesKeys 0x2C false
    (c := loosesCompletion) (by decide +kernel)
  have hfits : ∀ e ∈ someTypos, e.1.map typoCode <:+ loosesCompletion.typoBuffer →
      WordFits (dictionaryData someTypos someData) e loosesCompletion := by
    intro e he hek
    rcases List.mem_cons.mp he with rfl | he
    · exact ⟨by decide +kernel,by decide +kernel,by decide +kernel,by decide +kernel⟩
    · obtain rfl := List.mem_singleton.mp he
      exact absurd hek (by decide +kernel)
  exact ⟨hiff.mpr (hfits e he hek),by decide +kernel⟩

def twoWords : List Autocorrection := [("ab:cd".toList,"xy".toList)]

def twoWordsData : List UInt8 := [7,6,kcSpc,5,4,0,0x84,120,121,0]

def twoWordsCompletion : Completion :=
  ⟨7,[kcSpc,4,5,kcSpc,6],[4,5,kcSpc,6,7],[kcSpc,4,5,kcSpc,6,7],6⟩

/-- The word is `cd`, and five characters are replaced: the string goes three bytes in front of
`correct`. -/
theorem twoWords_outside :
    Accepted twoWords ∧ serializeTrie 10 (makeTrie twoWords) = some twoWordsData
      ∧ completes (dictionaryData twoWords twoWordsData)
        ([.key 4 false,.key 5 false,.key 0x2C false,.key 6 false].foldl
          (typing (dictionaryData twoWords twoWordsData)) .start) 7 false = some twoWordsCompletion
      ∧ (.correct,-3) ∈ (gather (dictionaryData twoWords twoWordsData) 6
        twoWordsCompletion.typoBuffer).accesses
      ∧ ¬ WordGathered (dictionaryData twoWords twoWordsData) twoWordsCompletion := by
  have hmem : (.correct,-3) ∈ (gather (dictionaryData twoWords twoWordsData) 6
      twoWordsCompletion.typoBuffer).accesses := by decide +kernel
  refine ⟨⟨letters_of_all (by decide +kernel),by decide +kernel,by decide +kernel,
    List.pairwise_singleton _ _⟩,by decide +kernel,by decide +kernel,hmem,fun h => ?_⟩
  have hin := h.inBounds _ (List.mem_append_right _ hmem)
  revert hin
  decide +kernel

end QmkFirmware.Autocorrect
