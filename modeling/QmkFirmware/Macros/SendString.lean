import Mathlib.Data.List.Basic

/-!
`send_string.c`. The getter that hands out the bytes of a string is a parameter, as in the source;
what is sent is a list of events.
-/

set_option autoImplicit false

namespace QmkFirmware.Macros

inductive Event where
  | registerCode (code : UInt8)
  | unregisterCode (code : UInt8)
  | waitMs (ms : Int)
  | bell
  deriving DecidableEq, Repr

/-- The tables are weak symbols, so that a keyboard may have its own; `bell` is `SENDSTRING_BELL`
with audio. -/
structure Config where
  keycodeLut : UInt8 → UInt8
  shiftLut : UInt8 → Bool
  altgrLut : UInt8 → Bool
  deadLut : UInt8 → Bool
  tapCodeDelay : UInt16
  tapHoldCapsDelay : UInt16
  interval : UInt8
  bell : Bool

def tapCodeDelay (code : UInt8) (delay : UInt16) : List Event :=
  [.registerCode code,.waitMs delay.toNat,.unregisterCode code]

/-- `KC_CAPS_LOCK` is held for longer. -/
def tapCode (cfg : Config) (code : UInt8) : List Event :=
  tapCodeDelay code (if code = 0x39 then cfg.tapHoldCapsDelay else cfg.tapCodeDelay)

def sendCharWithDelay (cfg : Config) (ascii : UInt8) : List Event :=
  let pause := Event.waitMs cfg.interval.toNat
  if cfg.bell ∧ ascii = 7 then [.bell] else
  (if cfg.shiftLut ascii then [.registerCode 0xE1,pause] else [])
    ++ (if cfg.altgrLut ascii then [.registerCode 0xE6,pause] else [])
    ++ tapCodeDelay (cfg.keycodeLut ascii) cfg.interval.toUInt16 ++ [pause]
    ++ (if cfg.altgrLut ascii then [.unregisterCode 0xE6,pause] else [])
    ++ (if cfg.shiftLut ascii then [.unregisterCode 0xE1,pause] else [])
    ++ (if cfg.deadLut ascii then tapCode cfg 0x2C ++ [pause] else [])

def isDigit (c : UInt8) : Bool := decide (48 ≤ c) && decide (c ≤ 57)

section
variable {σ : Type} (cfg : Config) (getter : σ → UInt8 × σ)

/-- The number of milliseconds is an `int`. -/
def readDelay : Nat → Int32 → UInt8 → σ → Option (Int32 × UInt8 × σ)
  | 0, _, _, _ => none
  | n+1, ms, ascii, s =>
    if isDigit ascii then
      let (next, s) := getter s
      readDelay n (ms*10+.ofNat (ascii.toNat-48)) next s
    else some (ms,ascii,s)

/-- What follows `SS_QMK_PREFIX`, with the last code read. -/
def sendCommand (n : Nat) (s : σ) : Option (List Event × UInt8 × σ) :=
  let (code, s) := getter s
  if code = 1 then
    let (keycode, s) := getter s
    some (tapCode cfg keycode,code,s)
  else if code = 2 then
    let (keycode, s) := getter s
    some ([.registerCode keycode],code,s)
  else if code = 3 then
    let (keycode, s) := getter s
    some ([.unregisterCode keycode],code,s)
  else if code = 4 then do
    let (first, s) := getter s
    let (ms, last, s) ← readDelay getter n 0 first s
    some ([.waitMs ms.toInt],last,s)
  else some ([],code,s)

/-- What is sent and where the getter is left, unless `n` turns are too few. -/
def sendStringWithDelayImpl : Nat → σ → Option (List Event × σ)
  | 0, _ => none
  | n+1, s =>
    let (ascii, s) := getter s
    if ascii = 0 then some ([],s)
    else if ascii = 1 then do
      let (events, last, s) ← sendCommand cfg getter n s
      let events := events ++ [.waitMs cfg.interval.toNat]
      if last = 0 then some (events,s) else
      let (more, s) ← sendStringWithDelayImpl n s
      some (events ++ more,s)
    else do
      let (more, s) ← sendStringWithDelayImpl n s
      some (sendCharWithDelay cfg ascii ++ more,s)

end

def nextOf : List UInt8 → UInt8 × List UInt8
  | [] => (0,[])
  | b :: bytes => (b,bytes)

section
variable {σ τ : Type} {cfg : Config} {getter : σ → UInt8 × σ} {getter' : τ → UInt8 × τ} {φ : σ → τ}

theorem readDelay_map (h : ∀ s, getter' (φ s) = ((getter s).1,φ (getter s).2)) (n : Nat)
    (ms : Int32) (ascii : UInt8) (s : σ) : readDelay getter' n ms ascii (φ s)
      = (readDelay getter n ms ascii s).map fun r => (r.1,r.2.1,φ r.2.2) := by
  induction n generalizing ms ascii s with
  | zero => rfl
  | succ n ih =>
    rw [readDelay, readDelay]
    split_ifs
    · rw [h s]
      exact ih ..
    · rfl

theorem sendCommand_map (h : ∀ s, getter' (φ s) = ((getter s).1,φ (getter s).2)) (n : Nat)
    (s : σ) : sendCommand cfg getter' n (φ s)
      = (sendCommand cfg getter n s).map fun r => (r.1,r.2.1,φ r.2.2) := by
  simp only [sendCommand, h]
  split_ifs
  · rfl
  · rfl
  · rfl
  · rw [readDelay_map h]
    cases readDelay getter n 0 (getter (getter s).2).1 (getter (getter s).2).2 <;> rfl
  · rfl

theorem sendString_map (h : ∀ s, getter' (φ s) = ((getter s).1,φ (getter s).2)) (n : Nat)
    (s : σ) : sendStringWithDelayImpl cfg getter' n (φ s)
      = (sendStringWithDelayImpl cfg getter n s).map fun r => (r.1,φ r.2) := by
  induction n generalizing s with
  | zero => rfl
  | succ n ih =>
    simp only [sendStringWithDelayImpl, h]
    split_ifs
    · rfl
    · rw [sendCommand_map h]
      cases sendCommand cfg getter n (getter s).2 with
      | none => rfl
      | some r =>
        simp only [Option.map_some, Option.bind_eq_bind, Option.bind_some, ih]
        split_ifs
        · rfl
        · cases sendStringWithDelayImpl cfg getter n r.2.2 <;> rfl
    · rw [ih]
      cases sendStringWithDelayImpl cfg getter n (getter s).2 <;> rfl

end

def delayOf (digits : List UInt8) : Int32 :=
  digits.foldl (fun ms c => ms*10+.ofNat (c.toNat-48)) 0

/-- `sendCommand` over the bytes of a string. -/
def commandOf (cfg : Config) (bytes : List UInt8) : List Event × UInt8 × List UInt8 :=
  let (code, bytes) := nextOf bytes
  let (keycode, rest) := nextOf bytes
  if code = 1 then (tapCode cfg keycode,code,rest)
  else if code = 2 then ([.registerCode keycode],code,rest)
  else if code = 3 then ([.unregisterCode keycode],code,rest)
  else if code = 4 then
    ([.waitMs (delayOf (bytes.takeWhile isDigit)).toInt],nextOf (bytes.dropWhile isDigit))
  else ([],code,bytes)

def turn (cfg : Config) (bytes : List UInt8) : List Event × Bool × List UInt8 :=
  let (ascii, bytes) := nextOf bytes
  if ascii = 0 then ([],true,bytes)
  else if ascii = 1 then
    let (events, last, rest) := commandOf cfg bytes
    (events ++ [.waitMs cfg.interval.toNat],decide (last = 0),rest)
  else (sendCharWithDelay cfg ascii,false,bytes)

theorem readDelay_eq {n : Nat} (ms : Int32) {bytes : List UInt8} (h : bytes.length < n) :
    readDelay nextOf n ms (nextOf bytes).1 (nextOf bytes).2
      = some ((bytes.takeWhile isDigit).foldl (fun ms c => ms*10+.ofNat (c.toNat-48)) ms,
        nextOf (bytes.dropWhile isDigit)) := by
  induction n generalizing ms bytes with
  | zero => omega
  | succ n ih =>
    cases bytes with
    | nil => rfl
    | cons b bytes =>
      rw [readDelay]
      by_cases hb : isDigit b = true
      · have hstep := ih (ms*10+.ofNat (b.toNat-48)) (Nat.lt_of_succ_lt_succ h)
        simpa [nextOf, hb] using hstep
      · simp [nextOf, hb]

theorem nextOf_length_le (bytes : List UInt8) : (nextOf bytes).2.length ≤ bytes.length := by
  cases bytes with
  | nil => exact Nat.le_refl _
  | cons b bytes => exact Nat.le_succ _

theorem sendCommand_eq {cfg : Config} {n : Nat} {bytes : List UInt8} (h : bytes.length < n) :
    sendCommand cfg nextOf n bytes = some (commandOf cfg bytes) := by
  have hdelay := readDelay_eq 0 (Nat.lt_of_le_of_lt (nextOf_length_le bytes) h)
  simp only [sendCommand, commandOf]
  split_ifs
  · rfl
  · rfl
  · rfl
  · rw [hdelay]
    rfl
  · rfl

theorem sendString_succ {cfg : Config} {n : Nat} {bytes : List UInt8} (h : bytes.length ≤ n) :
    sendStringWithDelayImpl cfg nextOf (n+1) bytes
      = if (turn cfg bytes).2.1 then some ((turn cfg bytes).1,(turn cfg bytes).2.2)
        else (sendStringWithDelayImpl cfg nextOf n (turn cfg bytes).2.2).map
          fun r => ((turn cfg bytes).1 ++ r.1,r.2) := by
  cases bytes with
  | nil => rfl
  | cons ascii bytes =>
    simp only [sendStringWithDelayImpl, turn, nextOf]
    by_cases h0 : ascii = 0
    · simp [h0]
    by_cases h1 : ascii = 1
    · simp only [h1, if_true, sendCommand_eq (Nat.lt_of_succ_le h), Option.bind_eq_bind,
        Option.bind_some, show ¬ (1 : UInt8) = 0 by decide, if_false]
      by_cases hlast : (commandOf cfg bytes).2.1 = 0
      · simp [hlast]
      · simp only [hlast, if_false, decide_false, Bool.false_eq_true]
        cases sendStringWithDelayImpl cfg nextOf n (commandOf cfg bytes).2.2 <;> rfl
    · simp only [h0, h1, if_false, Bool.false_eq_true]
      cases sendStringWithDelayImpl cfg nextOf n bytes <;> rfl

theorem commandOf_length_le (cfg : Config) (bytes : List UInt8) :
    (commandOf cfg bytes).2.2.length ≤ bytes.length := by
  have hcode := nextOf_length_le bytes
  have hkey := nextOf_length_le (nextOf bytes).2
  have hdrop := (List.dropWhile_suffix (isDigit) (l := (nextOf bytes).2)).length_le
  have hlast := nextOf_length_le ((nextOf bytes).2.dropWhile isDigit)
  simp only [commandOf]
  split_ifs <;> dsimp only <;> omega

theorem turn_length_lt (cfg : Config) {bytes : List UInt8} (h : bytes ≠ []) :
    (turn cfg bytes).2.2.length < bytes.length := by
  obtain ⟨ascii, bytes, rfl⟩ := List.exists_cons_of_ne_nil h
  have hcommand := commandOf_length_le cfg bytes
  by_cases h0 : ascii = 0
  · simp [turn, nextOf, h0]
  by_cases h1 : ascii = 1
  · subst h1
    exact Nat.lt_succ_of_le (commandOf_length_le cfg bytes)
  · simp [turn, nextOf, h0, h1]

theorem turn_nil (cfg : Config) : turn cfg [] = ([],true,[]) := rfl

theorem sendString_ends (cfg : Config) (bytes : List UInt8) : ∃ events rest,
    (∀ n, bytes.length < n → sendStringWithDelayImpl cfg nextOf n bytes = some (events,rest))
      ∧ (bytes ≠ [] → rest.length < bytes.length) := by
  induction hlen : bytes.length using Nat.strongRecOn generalizing bytes with
  | ind len ih =>
    subst hlen
    by_cases hstop : (turn cfg bytes).2.1 = true
    · refine ⟨(turn cfg bytes).1, (turn cfg bytes).2.2, fun n hn => ?_, turn_length_lt cfg⟩
      obtain ⟨m, rfl⟩ : ∃ m, n = m+1 := ⟨n-1,by omega⟩
      rw [sendString_succ (Nat.le_of_lt_succ hn), if_pos hstop]
    · have hne : bytes ≠ [] := fun he => by simp [he, turn_nil] at hstop
      have hlt := turn_length_lt cfg hne
      obtain ⟨events, rest, hrun, hrest⟩ := ih _ hlt (turn cfg bytes).2.2 rfl
      refine ⟨(turn cfg bytes).1 ++ events, rest, fun n hn => ?_, fun _ => ?_⟩
      · obtain ⟨m, rfl⟩ : ∃ m, n = m+1 := ⟨n-1,by omega⟩
        rw [sendString_succ (Nat.le_of_lt_succ hn), if_neg hstop, hrun m (by omega)]
        rfl
      · by_cases hend : (turn cfg bytes).2.2 = []
        · have hnil := hrun (bytes.length+1) (by omega)
          rw [hend] at hnil
          cases hnil
          exact List.length_pos_of_ne_nil hne
        · exact Nat.lt_trans (hrest hend) hlt

/-- Where in a command a byte is read. -/
inductive Mode where
  | text | escape | key | delay
  deriving DecidableEq, Repr

def Mode.next : Mode → UInt8 → Mode
  | .text, b => if b = 1 then .escape else .text
  | .escape, b => if b = 1 ∨ b = 2 ∨ b = 3 then .key else if b = 4 then .delay else .text
  | .key, _ => .text
  | .delay, b => if isDigit b then .delay else .text

/-- The text ends with a tap, down or up code that lacks its key. -/
def breaksOff (text : List UInt8) : Bool := decide (text.foldl Mode.next .text = .key)

theorem foldl_delay (bytes : List UInt8) : bytes.foldl Mode.next .delay
    = match bytes.dropWhile isDigit with
      | [] => .delay
      | _ :: rest => rest.foldl Mode.next .text := by
  induction bytes with
  | nil => rfl
  | cons b bytes ih =>
    by_cases hb : isDigit b = true
    · simpa [Mode.next, hb] using ih
    · simp [Mode.next, hb]

theorem dropWhile_append_nul (bytes after : List UInt8) :
    (bytes ++ 0 :: after).dropWhile isDigit = bytes.dropWhile isDigit ++ 0 :: after := by
  induction bytes with
  | nil => rfl
  | cons b bytes ih => by_cases hb : isDigit b = true <;> simp [hb, ih]

theorem takeWhile_append_nul (bytes after : List UInt8) :
    (bytes ++ 0 :: after).takeWhile isDigit = bytes.takeWhile isDigit := by
  induction bytes with
  | nil => rfl
  | cons b bytes ih => by_cases hb : isDigit b = true <;> simp [hb, ih]

inductive TextTurn (cfg : Config) (text : List UInt8) : Prop where
  | last (stop : (turn cfg text).2.1 = true) (whole : breaksOff text = false)
      (behind : ∀ after, turn cfg (text ++ 0 :: after) = ((turn cfg text).1,true,after))
  | on (rest : List UInt8) (suffix : rest <:+ text)
      (left : turn cfg text = ((turn cfg text).1,false,rest))
      (same : breaksOff text = breaksOff rest)
      (behind : ∀ after, turn cfg (text ++ 0 :: after) = ((turn cfg text).1,false,rest ++ 0 :: after))
  | past (left : turn cfg text = ((turn cfg text).1,false,[])) (broken : breaksOff text = true)
      (behind : ∀ after, turn cfg (text ++ 0 :: after) = ((turn cfg text).1,false,after))

theorem textTurn (cfg : Config) {text : List UInt8} (h : 0 ∉ text) : TextTurn cfg text := by
  cases text with
  | nil => exact .last rfl rfl fun _ => rfl
  | cons ascii bytes =>
    have h0 : ascii ≠ 0 := fun he => h (he ▸ List.mem_cons_self)
    by_cases h1 : ascii = 1
    · subst h1
      cases bytes with
      | nil => exact .last rfl rfl fun _ => rfl
      | cons code bytes =>
        by_cases hkey : code = 1 ∨ code = 2 ∨ code = 3
        · cases bytes with
          | nil => rcases hkey with rfl | rfl | rfl <;> exact .past rfl rfl fun _ => rfl
          | cons keycode bytes =>
            rcases hkey with rfl | rfl | rfl <;>
              exact .on bytes ⟨[1,_,keycode],rfl⟩ rfl rfl fun _ => rfl
        by_cases hdelay : code = 4
        · subst hdelay
          have hdigits : ∀ after,
              (bytes ++ 0 :: after).takeWhile isDigit = bytes.takeWhile isDigit :=
            takeWhile_append_nul bytes
          have hrest := dropWhile_append_nul bytes
          have hscan := foldl_delay bytes
          have hsuffix : bytes.dropWhile isDigit <:+ bytes := List.dropWhile_suffix _
          cases hd : bytes.dropWhile isDigit with
          | nil =>
            rw [hd] at hscan
            refine .last ?_ ?_ fun after => ?_
            · simp [turn, commandOf, nextOf, hd]
            · simp [breaksOff, Mode.next, hscan]
            · simp [turn, commandOf, nextOf, hdigits, hrest, hd]
          | cons last rest =>
            rw [hd] at hscan hsuffix
            have hlast : last ≠ 0 := fun he =>
              h (by simp [he ▸ hsuffix.mem List.mem_cons_self])
            refine .on rest (((List.suffix_cons last rest).trans hsuffix).trans
              ⟨[1,4],rfl⟩) ?_ ?_ fun after => ?_
            · simp [turn, commandOf, nextOf, hd, hlast]
            · simp [breaksOff, Mode.next, hscan]
            · simp [turn, commandOf, nextOf, hdigits, hrest, hd, hlast]
        · have hcode : code ≠ 0 := fun he => h (by simp [he])
          obtain ⟨hone, htwo, hthree⟩ : code ≠ 1 ∧ code ≠ 2 ∧ code ≠ 3 := by simpa using hkey
          refine .on bytes ⟨[1,code],rfl⟩ ?_ ?_ fun after => ?_
          · simp [turn, commandOf, nextOf, hcode, hone, htwo, hthree, hdelay]
          · simp [breaksOff, Mode.next, hone, htwo, hthree, hdelay]
          · simp [turn, commandOf, nextOf, hcode, hone, htwo, hthree, hdelay]
    · refine .on bytes (List.suffix_cons ascii bytes) ?_ ?_ fun after => ?_
      · simp [turn, nextOf, h0, h1]
      · simp [breaksOff, Mode.next, h1]
      · simp [turn, nextOf, h0, h1]

theorem sendString_nil (cfg : Config) {n : Nat} (h : 0 < n) :
    sendStringWithDelayImpl cfg nextOf n [] = some ([],[]) := by
  obtain ⟨m, rfl⟩ : ∃ m, n = m+1 := ⟨n-1,by omega⟩
  rfl

/-- A whole text is sent up to its NUL, whatever is behind it; a text that breaks off takes the NUL
for a key and goes on behind it. -/
theorem sendString_text (cfg : Config) {text : List UInt8} (h : 0 ∉ text) :
    ∃ events, (∀ n, text.length < n →
        ∃ rest, sendStringWithDelayImpl cfg nextOf n text = some (events,rest))
      ∧ (breaksOff text = false → ∀ after n, (text ++ 0 :: after).length < n →
        sendStringWithDelayImpl cfg nextOf n (text ++ 0 :: after) = some (events,after))
      ∧ (breaksOff text = true → ∀ after n, (text ++ 0 :: after).length < n →
        ∃ more rest, sendStringWithDelayImpl cfg nextOf n (text ++ 0 :: after)
            = some (events ++ more,rest)
          ∧ (after = [] → more = []) ∧ (after ≠ [] → rest.length < after.length)) := by
  induction hlen : text.length using Nat.strongRecOn generalizing text with
  | ind len ih =>
    subst hlen
    have hsucc : ∀ {bytes : List UInt8} {n : Nat}, bytes.length < n →
        ∃ m, n = m+1 ∧ bytes.length ≤ m := fun hn => ⟨_,(Nat.succ_pred_eq_of_pos
          (Nat.zero_lt_of_lt hn)).symm,Nat.le_pred_of_lt hn⟩
    cases textTurn cfg h with
    | last stop whole behind =>
      refine ⟨(turn cfg text).1, fun n hn => ?_, fun _ after n hn => ?_, fun hb => ?_⟩
      · obtain ⟨m, rfl, hm⟩ := hsucc hn
        exact ⟨_, by rw [sendString_succ hm, if_pos stop]⟩
      · obtain ⟨m, rfl, hm⟩ := hsucc hn
        rw [sendString_succ hm, behind, if_pos rfl]
      · exact absurd (whole.symm.trans hb) Bool.false_ne_true
    | on rest suffix left same behind =>
      have hlt : rest.length < text.length := by
        have hne : text ≠ [] := fun he => by simp [he, turn_nil] at left
        have hturn := turn_length_lt cfg hne
        rwa [left] at hturn
      obtain ⟨events, halone, hwhole, hbroken⟩ :=
        ih _ hlt (fun hm => h (suffix.mem hm)) rfl
      refine ⟨(turn cfg text).1 ++ events, fun n hn => ?_, fun hb after n hn => ?_,
        fun hb after n hn => ?_⟩
      · obtain ⟨m, rfl, hm⟩ := hsucc hn
        obtain ⟨last, hrun⟩ := halone m (by omega)
        exact ⟨last, by rw [sendString_succ hm, left, if_neg Bool.false_ne_true, hrun]; rfl⟩
      · obtain ⟨m, rfl, hm⟩ := hsucc hn
        rw [sendString_succ hm, behind, if_neg Bool.false_ne_true,
          hwhole (same ▸ hb) after m (by simp only [List.length_append] at hm ⊢; omega)]
        rfl
      · obtain ⟨m, rfl, hm⟩ := hsucc hn
        obtain ⟨more, last, hrun, hnone, hfar⟩ :=
          hbroken (same ▸ hb) after m (by simp only [List.length_append] at hm ⊢; omega)
        refine ⟨more, last, ?_, hnone, hfar⟩
        rw [sendString_succ hm, behind, if_neg Bool.false_ne_true, hrun, List.append_assoc]
        rfl
    | past left broken behind =>
      refine ⟨(turn cfg text).1, fun n hn => ?_, fun hb => ?_, fun _ after n hn => ?_⟩
      · obtain ⟨m, rfl, hm⟩ := hsucc hn
        have hne : text ≠ [] := fun he => by simp [he, turn_nil] at left
        have hpos := List.length_pos_of_ne_nil hne
        refine ⟨[], ?_⟩
        rw [sendString_succ hm, left, if_neg Bool.false_ne_true, sendString_nil cfg (by omega)]
        simp
      · exact absurd (hb.symm.trans broken) Bool.false_ne_true
      · obtain ⟨m, rfl, hm⟩ := hsucc hn
        obtain ⟨more, last, hrun, hlast⟩ := sendString_ends cfg after
        have hm' : after.length < m := by
          simp only [List.length_append, List.length_cons] at hm
          omega
        refine ⟨more, last, ?_, fun he => ?_, hlast⟩
        · rw [sendString_succ hm, behind, if_neg Bool.false_ne_true, hrun m hm']
          rfl
        · have hnil := hrun m hm'
          rw [he, sendString_nil cfg (by omega)] at hnil
          cases hnil
          rfl

end QmkFirmware.Macros
