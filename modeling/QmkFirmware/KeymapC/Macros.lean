import QmkFirmware.KeymapC.Argument
import QmkFirmware.Lib.Replace

/-!
`_generate_macros_function` of `keymap.py`: the macros of a `keymap.json` become calls of
`SEND_STRING`.
-/

set_option autoImplicit false

namespace QmkFirmware.KeymapC

structure Text where
  chars : Str
  source : ∀ c ∈ chars, isPrintable c ∨ c = '\t' ∨ c = '\r' ∨ c = '\n'

theorem source_of_all {s : Str}
    (h : s.all fun c => isPrintable c || c = '\t' || c = '\r' || c = '\n') :
    ∀ c ∈ s, isPrintable c ∨ c = '\t' ∨ c = '\r' ∨ c = '\n' := by
  simpa [or_assoc] using h

structure Keycode where
  name : Str
  word : name.all isWord

inductive Action where
  | tap | down | up
  deriving DecidableEq, Repr

def Action.upper : Action → Str
  | .tap => ['T','A','P']
  | .down => ['D','O','W','N']
  | .up => ['U','P']

inductive Fragment where
  | text (t : Text)
  | press (action : Action) (keycodes : List Keycode)
  | delay (duration : Nat)
  | beep

def escapeText (s : Str) : Str :=
  let s := replace ['\\'] ['\\','\\'] s
  let s := replace ['\r','\n'] ['\\','n'] s
  let s := replace ['\n'] ['\\','n'] s
  let s := replace ['\r'] ['\\','n'] s
  let s := replace ['\t'] ['\\','t'] s
  replace ['"'] ['\\','"'] s

def ssCall (name arg : Str) : Str := ['S','S','_'] ++ name ++ '(' :: (arg ++ [')'])

def ssKey (action : Action) (keycode : Keycode) : Str :=
  ssCall action.upper ('X' :: '_' :: keycode.name)

def newstring (action : Action) (keycodes : List Keycode) : List Str :=
  if action = .tap ∧ 1 < keycodes.length then
    let rest := keycodes.dropLast
    rest.map (ssKey .down) ++ keycodes.getLast?.toList.map (ssKey .tap) ++
      rest.reverse.map (ssKey .up)
  else keycodes.map (ssKey action)

def fragmentText : Fragment → Str
  | .text t => '"' :: (escapeText t.chars ++ ['"'])
  | .delay duration => ssCall ['D','E','L','A','Y'] (Nat.toDigits 10 duration)
  | .beep => ['"','\\','a','"']
  | .press action keycodes => (newstring action keycodes).flatten

def newMacro (macroArray : List Fragment) : Str :=
  replace ['"','"'] [] (macroArray.flatMap fragmentText)

def sendStringLine (arg : Str) : Str := "                SEND_STRING(".toList ++ arg ++ [')',';']

def macroLines (macroArray : List Fragment) (i : Nat) : List Str :=
  ["            case QK_MACRO_".toList ++ Nat.toDigits 10 i ++ [':'],
    sendStringLine (newMacro macroArray),
    "                return false;".toList]

def generateMacrosFunction (macros : List (List Fragment)) : List Str :=
  ["bool process_record_user(uint16_t keycode, keyrecord_t *record) \x7b".toList,
    "    if (record->event.pressed) \x7b".toList,
    "        switch (keycode) \x7b".toList] ++
  (macros.zipIdx.flatMap fun p => macroLines p.1 p.2) ++
  ["        \x7d".toList,"    \x7d".toList,"\n    return true;".toList,['}',';'],[]]

def newlines : Str → Str
  | '\r' :: '\n' :: s => '\n' :: newlines s
  | '\r' :: s => '\n' :: newlines s
  | c :: s => c :: newlines s
  | [] => []

def Action.event : Action → Str → Event
  | .tap => .tap
  | .down => .down
  | .up => .up

/-- Several keys that are tapped are held together: the last one is tapped while the others are
down. -/
def pressed (action : Action) (keycodes : List Str) : List Event :=
  if action = .tap ∧ 1 < keycodes.length then
    keycodes.dropLast.map .down ++ keycodes.getLast?.toList.map .tap ++
      keycodes.dropLast.reverse.map .up
  else keycodes.map action.event

def Fragment.events : Fragment → List Event
  | .text t => (newlines t.chars).map .char
  | .press action keycodes => pressed action (keycodes.map Keycode.name)
  | .delay duration => [.delay duration]
  | .beep => [.char '\x07']

def Fragment.shown : Fragment → Bool
  | .text t => !t.chars.isEmpty
  | .press _ keycodes => !keycodes.isEmpty
  | _ => true

def Fragment.isLiteral : Fragment → Bool
  | .text _ | .beep => true
  | _ => false

def Fragment.endsInQuote : Fragment → Bool
  | .text t => t.chars.getLast? = some '"'
  | _ => false

def quotesFollowed : List Fragment → Bool
  | [] => true
  | f :: rest =>
    (!f.endsInQuote || (rest.find? Fragment.shown).any Fragment.isLiteral) && quotesFollowed rest

def Clear (m : List Fragment) : Prop := m.any Fragment.shown ∧ quotesFollowed m

/-- The argument of `SEND_STRING` in the lines of the macro sends its fragments in order. -/
def MacroRight (lines : List Str) (i : Nat) (m : List Fragment) : Prop :=
  ∃ arg, lines[3*i+4]? = some (sendStringLine arg) ∧
    readArgument arg = some (m.flatMap Fragment.events)

def escapeChar (c : Char) : Str :=
  if c = '\\' then ['\\','\\']
  else if c = '\n' then ['\\','n']
  else if c = '\t' then ['\\','t']
  else if c = '"' then ['\\','"']
  else if c = '\x07' then ['\\','a']
  else [c]

def doubled (s : Str) : Str := replace ['\\'] ['\\','\\'] s

def joined (s : Str) : Str := replace ['\r','\n'] ['\\','n'] s

def escapeRest (s : Str) : Str :=
  replace ['"'] ['\\','"'] (replace ['\t'] ['\\','t'] (replace ['\r'] ['\\','n']
    (replace ['\n'] ['\\','n'] s)))

theorem doubled_cons (c : Char) (s : Str) :
    doubled (c :: s) = (if c = '\\' then ['\\','\\'] else [c]) ++ doubled s := by
  simp only [doubled, replace_singleton, List.flatMap_cons]

theorem joined_cons {c : Char} (h : c ≠ '\r') (s : Str) : joined (c :: s) = c :: joined s :=
  replace_cons fun hp => h (List.cons_prefix_cons.mp hp).1.symm

theorem escapeRest_cons (c : Char) (s : Str) :
    escapeRest (c :: s) = escapeRest [c] ++ escapeRest s := by
  rw [← List.singleton_append]
  simp only [escapeRest, replace_singleton, List.flatMap_append]

theorem joined_return {s : Str} (h : ∀ s', s ≠ '\n' :: s') :
    joined (doubled ('\r' :: s)) = '\r' :: joined (doubled s) := by
  refine replace_cons fun hp => ?_
  obtain ⟨t,ht⟩ := (List.cons_prefix_cons.mp hp).2
  cases s with
  | nil => exact absurd ht (List.cons_ne_nil _ _)
  | cons c s =>
    change '\n' :: t = doubled (c :: s) at ht
    rw [doubled_cons] at ht
    split_ifs at ht with hc
    · exact absurd (List.cons.inj ht).1 (by decide)
    · exact h s (by rw [(List.cons.inj ht).1])

theorem escapeRest_singleton {c : Char} (hb : c ≠ '\\') (hr : c ≠ '\r') (ha : c ≠ '\x07') :
    escapeRest [c] = escapeChar c := by
  by_cases hn : c = '\n'
  · subst hn; rfl
  by_cases ht : c = '\t'
  · subst ht; rfl
  by_cases hq : c = '"'
  · subst hq; rfl
  simp [escapeRest, replace_singleton, escapeChar, hn, hr, ht, hq, hb, ha]

theorem escapeText_eq {s : Str} (h : ∀ c ∈ s, c ≠ '\x07') :
    escapeText s = (newlines s).flatMap escapeChar := by
  change escapeRest (joined (doubled s)) = _
  fun_induction newlines s with
  | case1 s ih =>
    rw [List.flatMap_cons,
      ← ih fun c hc => h c (List.mem_cons_of_mem _ (List.mem_cons_of_mem _ hc))]
    exact congrArg escapeRest (replace_append (List.cons_ne_nil _ _) _)
  | case2 s hn ih =>
    rw [List.flatMap_cons, ← ih fun c hc => h c (List.mem_cons_of_mem _ hc),
      joined_return hn, escapeRest_cons]
    rfl
  | case3 c s hn hr ih =>
    have hr' : c ≠ '\r' := hr
    rw [List.flatMap_cons, ← ih fun c hc => h c (List.mem_cons_of_mem _ hc), doubled_cons]
    split_ifs with hb
    · rw [List.cons_append, List.singleton_append, joined_cons (by decide),
        joined_cons (by decide), escapeRest_cons, escapeRest_cons, hb]
      rfl
    · rw [List.singleton_append, joined_cons hr', escapeRest_cons,
        escapeRest_singleton hb hr' (h c List.mem_cons_self)]
  | case4 => rfl

def squeeze (s : Str) : Str := replace ['"','"'] [] s

theorem squeeze_pair (s : Str) : squeeze ('"' :: '"' :: s) = squeeze s :=
  replace_append (List.cons_ne_nil _ _) s

theorem squeeze_cons {c : Char} (h : c ≠ '"') (s : Str) : squeeze (c :: s) = c :: squeeze s :=
  replace_cons fun hp => h (List.cons_prefix_cons.mp hp).1.symm

theorem squeeze_quote {c : Char} (h : c ≠ '"') (s : Str) :
    squeeze ('"' :: c :: s) = '"' :: c :: squeeze s := by
  have hp : ¬['"','"'] <+: '"' :: c :: s := fun hp =>
    h (List.cons_prefix_cons.mp (List.cons_prefix_cons.mp hp).2).1.symm
  rw [← squeeze_cons h]
  exact replace_cons hp

inductive Tail where
  /-- Nothing is open. -/
  | closed
  /-- The quote that closes a string is held back. -/
  | quote
  /-- The quote that closes a string and the escaped one in front of it went away. -/
  | dangling
  deriving DecidableEq

def Tail.held : Tail → Str
  | .quote => ['"']
  | _ => []

def Tail.mode : Tail → Mode
  | .closed => .outside
  | .quote => .literal
  | .dangling => .escape

def Tail.owed : Tail → List Event
  | .dangling => [.char '"']
  | _ => []

def readRest (t : Tail) (s : Str) : Option (List Event) := readFrom t.mode (squeeze (t.held ++ s))

def endTail (us : Str) : Tail := if us.getLast? = some '"' then .dangling else .quote

/-- Characters that are read back from their escapes. -/
def Readable (us : Str) : Prop := ∀ c ∈ us, isPrintable c ∨ c = '\t' ∨ c = '\n' ∨ c = '\x07'

theorem escapeChar_cases {c : Char} (h : isPrintable c ∨ c = '\t' ∨ c = '\n' ∨ c = '\x07') :
    (escapeChar c = [c] ∧ isPrintable c ∧ c ≠ '"' ∧ c ≠ '\\') ∨
      ∃ e, escapeChar c = ['\\',e] ∧ unescape e = some c ∧ (e = '"' ↔ c = '"') := by
  by_cases hb : c = '\\'
  · subst hb; exact Or.inr ⟨'\\',rfl,rfl,by decide⟩
  by_cases hn : c = '\n'
  · subst hn; exact Or.inr ⟨'n',rfl,rfl,by decide⟩
  by_cases ht : c = '\t'
  · subst ht; exact Or.inr ⟨'t',rfl,rfl,by decide⟩
  by_cases hq : c = '"'
  · subst hq; exact Or.inr ⟨'"',rfl,rfl,by decide⟩
  by_cases ha : c = '\x07'
  · subst ha; exact Or.inr ⟨'a',rfl,rfl,by decide⟩
  refine Or.inl ⟨by simp [escapeChar, hb, hn, ht, hq, ha],?_,hq,hb⟩
  simpa [ht, hn, ha] using h

theorem escapeChar_cons {c : Char} (h : isPrintable c ∨ c = '\t' ∨ c = '\n' ∨ c = '\x07') :
    ∃ d s, escapeChar c = d :: s ∧ d ≠ '"' := by
  rcases escapeChar_cases h with ⟨he,_,hq,_⟩ | ⟨e,he,_,_⟩
  · exact ⟨c,[],he,hq⟩
  · exact ⟨'\\',[e],he,by decide⟩

theorem readFrom_char {c : Char} (h : isPrintable c ∨ c = '\t' ∨ c = '\n' ∨ c = '\x07')
    {s : Str} (hs : c = '"' → ∃ d s', s = d :: s' ∧ d ≠ '"') :
    readFrom .literal (squeeze (escapeChar c ++ s)) =
      (readFrom .literal (squeeze s)).map (Event.char c :: ·) := by
  rcases escapeChar_cases h with ⟨he,hp,hq,hb⟩ | ⟨e,he,hu,hq⟩
  · rw [he, List.singleton_append, squeeze_cons hq, readFrom, if_neg hq, if_neg hb, if_pos hp]
  · have hsq : squeeze (e :: s) = e :: squeeze s := by
      by_cases hc : e = '"'
      · obtain ⟨d,s',rfl,hd⟩ := hs (hq.mp hc)
        rw [hc, squeeze_quote hd, squeeze_cons hd]
      · exact squeeze_cons hc s
    rw [he, List.cons_append, List.singleton_append, squeeze_cons (by decide), hsq,
      readFrom, if_neg (by decide), if_pos rfl, readFrom, hu, Option.bind_some]

theorem readFrom_content {us : Str} (hne : us ≠ []) (h : Readable us) {s : Str}
    {r : Option (List Event)} (hr : readRest (endTail us) s = r.map ((endTail us).owed ++ ·)) :
    readFrom .literal (squeeze (us.flatMap escapeChar ++ '"' :: s)) =
      r.map (us.map Event.char ++ ·) := by
  induction us with
  | nil => exact absurd rfl hne
  | cons c us ih =>
    have hc := h c List.mem_cons_self
    cases us with
    | nil =>
      rw [List.flatMap_cons, List.flatMap_nil, List.append_nil]
      by_cases hq : c = '"'
      · -- the escaped quote and the closing one are a pair
        subst hq
        exact hr
      · have he : endTail [c] = .quote := by simp [endTail, hq]
        rw [he] at hr
        rw [readFrom_char hc (fun hc' => absurd hc' hq)]
        change (readRest .quote s).map _ = _
        rw [hr, Option.map_map]
        rfl
    | cons d us =>
      have hd := h d (List.mem_cons_of_mem c List.mem_cons_self)
      obtain ⟨x,t,hx,hxq⟩ := escapeChar_cons hd
      have he : endTail (c :: d :: us) = endTail (d :: us) := by
        simp [endTail, List.getLast?_cons]
      rw [he] at hr
      have hi := ih (List.cons_ne_nil d us) (fun a ha => h a (List.mem_cons_of_mem c ha)) hr
      rw [List.flatMap_cons, List.append_assoc, readFrom_char hc, hi, Option.map_map]
      · rfl
      · intro _
        exact ⟨x,_,by rw [List.flatMap_cons, hx]; rfl,hxq⟩

theorem readRest_empty (t : Tail) (s : Str) : readRest t ('"' :: '"' :: s) = readRest t s := by
  cases t with
  | quote => exact congrArg (readFrom .literal) (squeeze_pair _)
  | closed => exact congrArg (readFrom .outside) (squeeze_pair _)
  | dangling => exact congrArg (readFrom .escape) (squeeze_pair _)

theorem readRest_literal (t : Tail) {us : Str} (hne : us ≠ []) (h : Readable us) {s : Str}
    {r : Option (List Event)} (hr : readRest (endTail us) s = r.map ((endTail us).owed ++ ·)) :
    readRest t ('"' :: (us.flatMap escapeChar ++ '"' :: s)) =
      r.map fun es => t.owed ++ (us.map Event.char ++ es) := by
  have hcontent := readFrom_content hne h hr
  obtain ⟨c,us,rfl⟩ := List.exists_cons_of_ne_nil hne
  obtain ⟨x,u,hx,hxq⟩ := escapeChar_cons (h c List.mem_cons_self)
  have hopen : squeeze ('"' :: ((c :: us).flatMap escapeChar ++ '"' :: s)) =
      '"' :: squeeze ((c :: us).flatMap escapeChar ++ '"' :: s) := by
    rw [List.flatMap_cons, hx, List.append_assoc, List.cons_append, squeeze_quote hxq,
      squeeze_cons hxq]
  cases t with
  | closed =>
    show readFrom .outside (squeeze ('"' :: _)) = _
    rw [hopen, readFrom, if_pos rfl, hcontent]
    rfl
  | quote =>
    show readFrom .literal (squeeze ('"' :: '"' :: _)) = _
    rw [squeeze_pair, hcontent]
    rfl
  | dangling =>
    show readFrom .escape (squeeze ('"' :: _)) = _
    have hu : unescape '"' = some '"' := rfl
    rw [hopen, readFrom, hu, Option.bind_some, hcontent, Option.map_map]
    rfl

/-- The text is a call that is read as the event. -/
structure Reads (x : Str) (e : Event) : Prop where
  start : ∃ y, x = 'S' :: y
  unquoted : '"' ∉ x
  read : ∀ s, readFrom .outside (x ++ s) = (readFrom .outside s).map (e :: ·)

theorem Reads.rest {x : Str} {e : Event} (h : Reads x e) {t : Tail} (ht : t ≠ .dangling)
    (s : Str) : readRest t (x ++ s) = (readRest .closed s).map (e :: ·) := by
  have hsq : squeeze (x ++ s) = x ++ squeeze s := replace_of_notMem h.unquoted s
  have hclosed : readFrom .outside (squeeze (x ++ s)) = (readRest .closed s).map (e :: ·) := by
    rw [hsq, h.read]
    rfl
  cases t with
  | closed => exact hclosed
  | quote =>
    obtain ⟨y,hy⟩ := h.start
    show readFrom .literal (squeeze ('"' :: (x ++ s))) = _
    rw [← hclosed, hy, List.cons_append, squeeze_quote (by decide), squeeze_cons (by decide)]
    exact if_pos rfl
  | dangling => exact absurd rfl ht

theorem Reads.dangling {x : Str} {e : Event} (h : Reads x e) (s : Str) :
    readRest .dangling (x ++ s) = none := by
  obtain ⟨y,rfl⟩ := h.start
  show readFrom .escape (squeeze ('S' :: (y ++ s))) = none
  rw [squeeze_cons (by decide)]
  rfl

theorem reads_ssCall {name arg : Str} {e : Event} (hn : name.all isWord) (harg : arg.all isWord)
    (he : called ('S' :: 'S' :: '_' :: name) arg = some e) : Reads (ssCall name arg) e := by
  have hnot : ∀ {w : Str}, w.all isWord → '"' ∉ w := fun hw hm =>
    absurd (List.all_eq_true.mp hw '"' hm) (by decide)
  refine ⟨⟨_,rfl⟩,?_,fun s => ?_⟩
  · have h1 := hnot hn
    have h2 := hnot harg
    simp [ssCall, h1, h2]
  · have hall : ('S' :: 'S' :: '_' :: name).all isWord := by
      rw [List.all_cons, List.all_cons, List.all_cons, hn]
      decide
    have hr := readFrom_called hall harg he s
    simpa [ssCall] using hr

theorem reads_ssKey (action : Action) (keycode : Keycode) :
    Reads (ssKey action keycode) (action.event keycode.name) := by
  have harg : ('X' :: '_' :: keycode.name).all isWord := by
    rw [List.all_cons, List.all_cons, keycode.word]
    decide
  cases action with
  | tap => exact reads_ssCall (by decide) harg rfl
  | down => exact reads_ssCall (by decide) harg rfl
  | up => exact reads_ssCall (by decide) harg rfl

theorem reads_delay (duration : Nat) :
    Reads (ssCall ['D','E','L','A','Y'] (Nat.toDigits 10 duration)) (.delay duration) := by
  have hdigit : ∀ c ∈ Nat.toDigits 10 duration, c.isDigit := fun c hc =>
    Nat.isDigit_of_mem_toDigits (by decide) (by decide) hc
  refine reads_ssCall (by decide) (List.all_eq_true.mpr fun c hc => ?_) ?_
  · simp [isWord, Char.isAlphanum, hdigit c hc]
  · unfold called
    split
    · next k hk =>
      have hx := hdigit 'X' (by rw [hk]; exact List.mem_cons_self)
      exact absurd hx (by decide)
    · rw [if_pos ⟨rfl,Nat.toDigits_ne_nil,List.all_eq_true.mpr hdigit⟩,
        Nat.ofDigitChars_ten_toDigits]

def presses (action : Action) (keycodes : List Keycode) : List (Action × Keycode) :=
  if action = .tap ∧ 1 < keycodes.length then
    keycodes.dropLast.map (Action.down,·) ++ keycodes.getLast?.toList.map (Action.tap,·) ++
      keycodes.dropLast.reverse.map (Action.up,·)
  else keycodes.map (action,·)

theorem newstring_eq (action : Action) (keycodes : List Keycode) :
    newstring action keycodes = (presses action keycodes).map fun p => ssKey p.1 p.2 := by
  unfold newstring presses
  split_ifs
  · simp only [List.map_append, List.map_map, Function.comp_def]
  · rw [List.map_map]
    rfl

theorem pressed_eq (action : Action) (keycodes : List Keycode) :
    pressed action (keycodes.map Keycode.name) =
      (presses action keycodes).map fun p => p.1.event p.2.name := by
  unfold pressed presses
  rw [List.length_map]
  split_ifs
  · simp only [List.map_append, List.map_map, ← List.map_dropLast, ← List.map_reverse,
      List.getLast?_map, Option.toList_map, Function.comp_def]
    rfl
  · rw [List.map_map, List.map_map]
    rfl

theorem presses_eq_nil (action : Action) {keycodes : List Keycode} :
    presses action keycodes = [] ↔ keycodes = [] := by
  unfold presses
  split_ifs with h
  · have hne : keycodes ≠ [] := fun he => by simp [he] at h
    simp [hne]
  · exact List.map_eq_nil_iff

theorem readRest_presses {ps : List (Action × Keycode)} (hne : ps ≠ []) {t : Tail}
    (ht : t ≠ .dangling) (s : Str) :
    readRest t ((ps.map fun p => ssKey p.1 p.2).flatten ++ s) =
      (readRest .closed s).map ((ps.map fun p => p.1.event p.2.name) ++ ·) := by
  induction ps generalizing t with
  | nil => exact absurd rfl hne
  | cons p ps ih =>
    rw [List.map_cons, List.flatten_cons, List.append_assoc, (reads_ssKey p.1 p.2).rest ht]
    cases ps with
    | nil => rfl
    | cons q ps =>
      rw [ih (List.cons_ne_nil q ps) (by decide), Option.map_map]
      rfl

def good (t : Tail) (m : List Fragment) : Bool :=
  (t ≠ .dangling || (m.find? Fragment.shown).any Fragment.isLiteral) && quotesFollowed m

def rest (t : Tail) (m : List Fragment) : Option (List Event) :=
  if good t m then some (m.flatMap Fragment.events) else none

theorem newlines_eq_nil {s : Str} : newlines s = [] ↔ s = [] := by
  fun_cases newlines s <;> simp

theorem getLast?_newlines (s : Str) :
    (newlines s).getLast? = some '"' ↔ s.getLast? = some '"' := by
  have hcons : ∀ {a b : Char} {s s' : Str}, (s.getLast? = some '"' ↔ s'.getLast? = some '"') →
      (s = [] ↔ s' = []) → (a = '"' ↔ b = '"') →
      ((a :: s).getLast? = some '"' ↔ (b :: s').getLast? = some '"') := by
    intro a b s s' h hn hab
    cases s with
    | nil =>
      rw [hn.mp rfl]
      simpa using hab
    | cons c s =>
      obtain ⟨d,s',rfl⟩ := List.exists_cons_of_ne_nil (mt hn.mpr (List.cons_ne_nil c s))
      simpa [List.getLast?_cons] using h
  fun_induction newlines s with
  | case1 s ih =>
    rw [List.getLast?_cons_cons]
    exact hcons ih newlines_eq_nil (by decide)
  | case2 s hn ih => exact hcons ih newlines_eq_nil (by decide)
  | case3 c s hn hr ih => exact hcons ih newlines_eq_nil Iff.rfl
  | case4 => exact Iff.rfl

theorem mem_newlines {s : Str} {c : Char} (h : c ∈ newlines s) : c ∈ s ∧ c ≠ '\r' ∨ c = '\n' := by
  fun_induction newlines s with
  | case1 s ih =>
    rcases List.mem_cons.mp h with h | h
    · exact Or.inr h
    · exact (ih h).imp (fun h => ⟨by simp [h.1],h.2⟩) id
  | case2 s hn ih =>
    rcases List.mem_cons.mp h with h | h
    · exact Or.inr h
    · exact (ih h).imp (fun h => ⟨by simp [h.1],h.2⟩) id
  | case3 d s hn hr ih =>
    rcases List.mem_cons.mp h with h | h
    · subst h
      exact Or.inl ⟨List.mem_cons_self,hr⟩
    · exact (ih h).imp (fun h => ⟨by simp [h.1],h.2⟩) id
  | case4 => exact absurd h List.not_mem_nil

theorem Text.readable (t : Text) : Readable (newlines t.chars) := by
  intro c hc
  rcases mem_newlines hc with ⟨hm,hr⟩ | hn
  · rcases t.source c hm with h | h | h | h
    · exact Or.inl h
    · exact Or.inr (Or.inl h)
    · exact absurd h hr
    · exact Or.inr (Or.inr (Or.inl h))
  · exact Or.inr (Or.inr (Or.inl hn))

theorem Text.no_bell (t : Text) : ∀ c ∈ t.chars, c ≠ '\x07' := by
  rintro c hc rfl
  have h := t.source _ hc
  revert h
  decide

structure IsString (f : Fragment) (us : Str) : Prop where
  readable : Readable us
  text : fragmentText f = '"' :: (us.flatMap escapeChar ++ ['"'])
  events : f.events = us.map .char
  literal : f.isLiteral
  shown : f.shown = !us.isEmpty
  quote : f.endsInQuote = decide (endTail us = .dangling)

theorem Text.isString (t : Text) : IsString (.text t) (newlines t.chars) where
  readable := t.readable
  text := by rw [fragmentText, escapeText_eq t.no_bell]
  events := rfl
  literal := rfl
  shown := by
    have hn := @newlines_eq_nil t.chars
    rw [← List.isEmpty_iff, ← List.isEmpty_iff, Bool.coe_iff_coe] at hn
    rw [Fragment.shown, hn]
  quote := by
    rw [Fragment.endsInQuote, decide_eq_decide, endTail, ← getLast?_newlines]
    split_ifs with h
    · exact iff_of_true h rfl
    · exact iff_of_false h (by decide)

theorem isString_beep : IsString .beep ['\x07'] where
  readable := by
    intro c hc
    exact Or.inr (Or.inr (Or.inr (List.mem_singleton.mp hc)))
  text := rfl
  events := rfl
  literal := rfl
  shown := rfl
  quote := rfl

section Step
variable {f : Fragment} {m : List Fragment} {t : Tail}

theorem rest_of_not_shown (hs : f.shown = false) (hq : f.endsInQuote = false)
    (he : f.events = []) : rest t (f :: m) = rest t m := by
  have hg : good t (f :: m) = good t m := by
    simp [good, quotesFollowed, hs, hq]
  rw [rest, rest, hg, List.flatMap_cons, he, List.nil_append]

theorem IsString.rest_cons {us : Str} (h : IsString f us) (hne : us ≠ []) :
    rest t (f :: m) = (rest (endTail us) m).map (us.map Event.char ++ ·) := by
  have hs : f.shown = true := by
    rw [h.shown, List.isEmpty_eq_false_iff.mpr hne]
    rfl
  have hg : good t (f :: m) = good (endTail us) m := by
    simp [good, quotesFollowed, hs, h.literal, h.quote]
  rw [rest, rest, hg, List.flatMap_cons, h.events]
  split_ifs <;> rfl

theorem rest_of_call (hs : f.shown = true) (hl : f.isLiteral = false)
    (hq : f.endsInQuote = false) :
    rest t (f :: m) =
      if t = .dangling then none else (rest .closed m).map (f.events ++ ·) := by
  have hg : good t (f :: m) = (decide (t ≠ .dangling) && good .closed m) := by
    simp [good, quotesFollowed, hs, hl, hq]
  rw [rest, rest, hg, List.flatMap_cons]
  by_cases ht : t = .dangling
  · simp [ht]
  · simp only [ht, ne_eq, not_false_eq_true, decide_true, Bool.true_and, if_false]
    split_ifs <;> rfl

end Step

theorem readRest_string {f : Fragment} {us : Str} (h : IsString f us) {m : List Fragment} {s : Str}
    (ih : ∀ t, readRest t s = (rest t m).map (t.owed ++ ·)) (t : Tail) :
    readRest t (fragmentText f ++ s) = (rest t (f :: m)).map (t.owed ++ ·) := by
  by_cases hne : us = []
  · subst hne
    have hq : f.endsInQuote = false := by rw [h.quote]; rfl
    rw [h.text, rest_of_not_shown h.shown hq h.events, ← ih t]
    exact readRest_empty t s
  · have hr := readRest_literal t hne h.readable (ih (endTail us))
    have happ : fragmentText f ++ s = '"' :: (us.flatMap escapeChar ++ '"' :: s) := by
      rw [h.text, List.cons_append, List.append_assoc, List.singleton_append]
    rw [happ, hr, h.rest_cons hne, Option.map_map]
    rfl

theorem readRest_fragment {m : List Fragment} {s : Str}
    (ih : ∀ t, readRest t s = (rest t m).map (t.owed ++ ·)) (f : Fragment) (t : Tail) :
    readRest t (fragmentText f ++ s) = (rest t (f :: m)).map (t.owed ++ ·) := by
  cases f with
  | text x => exact readRest_string x.isString ih t
  | beep => exact readRest_string isString_beep ih t
  | delay duration =>
    have hreads := reads_delay duration
    rw [rest_of_call rfl rfl rfl]
    split_ifs with ht
    · subst ht
      exact hreads.dangling s
    · have howed : t.owed = [] := by cases t <;> first | rfl | exact absurd rfl ht
      rw [fragmentText, hreads.rest ht, ih, howed, Option.map_map, Option.map_map]
      rfl
  | press action keycodes =>
    have htext : fragmentText (.press action keycodes) =
        ((presses action keycodes).map fun p => ssKey p.1 p.2).flatten := by
      rw [fragmentText, newstring_eq]
    have hevents : (Fragment.press action keycodes).events =
        (presses action keycodes).map fun p => p.1.event p.2.name := pressed_eq action keycodes
    by_cases hne : keycodes = []
    · have hps := (presses_eq_nil action).mpr hne
      have hs : (Fragment.press action keycodes).shown = false := by rw [hne]; rfl
      rw [rest_of_not_shown hs rfl (by rw [hevents, hps]; rfl), htext, hps]
      exact ih t
    · have hps := mt (presses_eq_nil action).mp hne
      have hs : (Fragment.press action keycodes).shown = true := by
        simp [Fragment.shown, hne]
      rw [rest_of_call hs rfl rfl, htext]
      split_ifs with ht
      · subst ht
        obtain ⟨p,ps,hp⟩ := List.exists_cons_of_ne_nil hps
        rw [hp, List.map_cons, List.flatten_cons, List.append_assoc]
        exact (reads_ssKey p.1 p.2).dangling _
      · have howed : t.owed = [] := by cases t <;> first | rfl | exact absurd rfl ht
        rw [readRest_presses hps ht, ih, howed, hevents, Option.map_map, Option.map_map]
        rfl

theorem readRest_fragments (m : List Fragment) (t : Tail) :
    readRest t (m.flatMap fragmentText) = (rest t m).map (t.owed ++ ·) := by
  induction m generalizing t with
  | nil => cases t <;> rfl
  | cons f m ih =>
    rw [List.flatMap_cons]
    exact readRest_fragment ih f t

theorem events_ne_nil {f : Fragment} (h : f.shown) : f.events ≠ [] := by
  cases f with
  | text t =>
    intro he
    have hn := newlines_eq_nil.mp (List.map_eq_nil_iff.mp he)
    rw [Fragment.shown, hn] at h
    exact absurd h (by decide)
  | press action keycodes =>
    intro he
    have hp := (pressed_eq action keycodes).symm.trans he
    have hk := (presses_eq_nil action).mp (List.map_eq_nil_iff.mp hp)
    rw [Fragment.shown, hk] at h
    exact absurd h (by decide)
  | delay duration => exact List.cons_ne_nil _ _
  | beep => exact List.cons_ne_nil _ _

theorem newMacro_of_not_shown {m : List Fragment} (h : m.any Fragment.shown = false) :
    newMacro m = [] := by
  induction m with
  | nil => rfl
  | cons f m ih =>
    rw [List.any_cons, Bool.or_eq_false_iff] at h
    have hrest := ih h.2
    cases f with
    | text t =>
      have hn : t.chars = [] := by simpa [Fragment.shown] using h.1
      have htext : fragmentText (.text t) = ['"','"'] := by
        rw [fragmentText, hn]
        rfl
      rw [newMacro, List.flatMap_cons, htext]
      exact (squeeze_pair _).trans hrest
    | press action keycodes =>
      have hn : keycodes = [] := by simpa [Fragment.shown] using h.1
      have htext : fragmentText (.press action keycodes) = [] := by
        rw [fragmentText, newstring_eq, (presses_eq_nil action).mpr hn]
        rfl
      rw [newMacro, List.flatMap_cons, htext]
      exact hrest
    | delay duration => exact absurd h.1 (by simp [Fragment.shown])
    | beep => exact absurd h.1 (by simp [Fragment.shown])

theorem readArgument_newMacro (m : List Fragment) :
    readArgument (newMacro m) = some (m.flatMap Fragment.events) ↔ Clear m := by
  have hread : readFrom .outside (newMacro m) = rest .closed m := by
    have h := readRest_fragments m .closed
    simp only [Tail.owed, List.nil_append, Option.map_id'] at h
    exact h
  unfold Clear
  by_cases hs : m.any Fragment.shown
  · obtain ⟨f,hf,hshown⟩ := List.any_eq_true.mp hs
    have hne : m.flatMap Fragment.events ≠ [] := fun he =>
      events_ne_nil hshown (List.flatMap_eq_nil_iff.mp he f hf)
    have hnew : newMacro m ≠ [] := by
      intro he
      rw [he, rest] at hread
      split_ifs at hread
      · exact hne (Option.some.inj hread).symm
      · exact absurd hread (by decide)
    rw [readArgument, if_neg hnew, hread, rest]
    simp [good, hs]
  · rw [newMacro_of_not_shown (Bool.not_eq_true _ ▸ hs)]
    simp [readArgument, hs]

theorem flatMap_macroLines (macros : List (List Fragment)) (n i : Nat) :
    ((macros.zipIdx n).flatMap fun p => macroLines p.1 p.2)[3*i+1]? =
      macros[i]?.map fun m => sendStringLine (newMacro m) := by
  induction macros generalizing n i with
  | nil => rfl
  | cons m macros ih =>
    rw [List.zipIdx_cons, List.flatMap_cons]
    dsimp only
    cases i with
    | zero => rfl
    | succ i =>
      have hlen : (macroLines m n).length = 3 := rfl
      rw [List.getElem?_append_right (by omega), hlen, show 3*(i+1)+1-3 = 3*i+1 by omega, ih,
        List.getElem?_cons_succ]

theorem generateMacrosFunction_line {macros : List (List Fragment)} {i : Nat} {m : List Fragment}
    (h : macros[i]? = some m) :
    (generateMacrosFunction macros)[3*i+4]? = some (sendStringLine (newMacro m)) := by
  have hlines := flatMap_macroLines macros 0 i
  rw [h, Option.map_some] at hlines
  have hlt := (List.getElem?_eq_some_iff.mp hlines).1
  unfold generateMacrosFunction
  rw [List.append_assoc, List.getElem?_append_right (by simp), List.getElem?_append_left]
  · exact hlines
  · exact hlt

/-- A macro is sent as it was written exactly when something of it is shown and every string that
ends in a quote is followed by another string, or a beep, so that the pair of quotes that goes away
is not its own. -/
theorem macro_right_iff (macros : List (List Fragment)) (i : Nat) (m : List Fragment)
    (h : macros[i]? = some m) : MacroRight (generateMacrosFunction macros) i m ↔ Clear m := by
  rw [← readArgument_newMacro]
  constructor
  · rintro ⟨arg,hline,hread⟩
    rw [generateMacrosFunction_line h] at hline
    have he := List.append_cancel_left
      (List.append_cancel_right (Option.some.inj hline))
    rwa [he]
  · intro hread
    exact ⟨_,generateMacrosFunction_line h,hread⟩

theorem macro_right_iff_joined :
    MacroRight (generateMacrosFunction [[.beep],[.text ⟨['"','a','"'],source_of_all rfl⟩,.beep]]) 1
        [.text ⟨['"','a','"'],source_of_all rfl⟩,.beep] ↔
      Clear [.text ⟨['"','a','"'],source_of_all rfl⟩,.beep] :=
  macro_right_iff [[.beep],[.text ⟨['"','a','"'],source_of_all rfl⟩,.beep]] 1
    [.text ⟨['"','a','"'],source_of_all rfl⟩,.beep] rfl

/-- The literal of a quoted word is not closed. -/
theorem macro_ends_in_quote :
    newMacro [.text ⟨['"','a','"'],source_of_all rfl⟩] = ['"','\\','"','a','\\'] ∧
      ¬MacroRight (generateMacrosFunction [[.text ⟨['"','a','"'],source_of_all rfl⟩]]) 0
        [.text ⟨['"','a','"'],source_of_all rfl⟩] := by
  have hnew : newMacro [.text ⟨['"','a','"'],source_of_all rfl⟩] = ['"','\\','"','a','\\']
    := by decide
  refine ⟨hnew,?_⟩
  rintro ⟨arg,hline,hread⟩
  have hsent : (generateMacrosFunction [[.text ⟨['"','a','"'],source_of_all rfl⟩]])[3*0+4]? =
      some (sendStringLine ['"','\\','"','a','\\']) := by
    rw [← hnew]
    exact generateMacrosFunction_line rfl
  rw [hsent] at hline
  have he := List.append_cancel_left (List.append_cancel_right (Option.some.inj hline))
  rw [← he] at hread
  exact absurd hread (by decide)

end QmkFirmware.KeymapC
