import Mathlib.Data.List.Forall2
import QmkFirmware.Macros.SendString
import QmkFirmware.Unicode.Utf8

/-!
`unicode.c`: a code point is typed as hexadecimal digits between the keys that start and finish
the input of the host.
-/

set_option autoImplicit false

namespace QmkFirmware.Unicode

inductive InputMode where
  | macos
  | linux
  | windows
  | bsd
  | wincompose
  | emacs
  deriving DecidableEq, Repr

structure Config where
  mode : InputMode
  keyMac : UInt8
  keyLnx : UInt16
  keyWinc : UInt8
  typeDelay : UInt16
  tapCodeDelay : UInt16
  tapHoldCapsDelay : UInt16
  bell : Bool

/-- What of `host_keyboard_led_state()` is looked at. -/
structure Led where
  numLock : Bool
  capsLock : Bool
  deriving DecidableEq, Repr

def asciiToKeycodeLut : List UInt8 :=
  [0x00,0x00,0x00,0x00,0x00,0x00,0x00,0x00,0x2A,0x2B,0x28,0x00,0x00,0x00,0x00,0x00,
   0x00,0x00,0x00,0x00,0x00,0x00,0x00,0x00,0x00,0x00,0x00,0x29,0x00,0x00,0x00,0x00,
   0x2C,0x1E,0x34,0x20,0x21,0x22,0x24,0x34,0x26,0x27,0x25,0x2E,0x36,0x2D,0x37,0x38,
   0x27,0x1E,0x1F,0x20,0x21,0x22,0x23,0x24,0x25,0x26,0x33,0x33,0x36,0x2E,0x37,0x38,
   0x1F,0x04,0x05,0x06,0x07,0x08,0x09,0x0A,0x0B,0x0C,0x0D,0x0E,0x0F,0x10,0x11,0x12,
   0x13,0x14,0x15,0x16,0x17,0x18,0x19,0x1A,0x1B,0x1C,0x1D,0x2F,0x31,0x30,0x23,0x2D,
   0x35,0x04,0x05,0x06,0x07,0x08,0x09,0x0A,0x0B,0x0C,0x0D,0x0E,0x0F,0x10,0x11,0x12,
   0x13,0x14,0x15,0x16,0x17,0x18,0x19,0x1A,0x1B,0x1C,0x1D,0x2F,0x31,0x30,0x35,0x4C]

/-- The characters of `ascii_to_shift_lut`. -/
def asciiToShiftLut (ascii : UInt8) : Bool :=
  (33 ≤ ascii && ascii ≤ 38) || (40 ≤ ascii && ascii ≤ 43) || ascii == 58 || ascii == 60
    || (62 ≤ ascii && ascii ≤ 90) || (94 ≤ ascii && ascii ≤ 95) || (123 ≤ ascii && ascii ≤ 126)

def Config.tables (cfg : Config) : Macros.Config where
  keycodeLut := fun ascii => asciiToKeycodeLut.getD ascii.toNat 0
  shiftLut := asciiToShiftLut
  altgrLut := fun _ => false
  deadLut := fun _ => false
  tapCodeDelay := cfg.tapCodeDelay
  tapHoldCapsDelay := cfg.tapHoldCapsDelay
  interval := cfg.tapCodeDelay.toUInt8
  bell := cfg.bell

inductive Event where
  | key (e : Macros.Event)
  | registerMods (mods : UInt8)
  | unregisterMods (mods : UInt8)
  | registerWeakMods (mods : UInt8)
  | unregisterWeakMods (mods : UInt8)
  deriving DecidableEq, Repr

def isModifierKeycode (code : UInt8) : Bool := 0xE0 ≤ code && code ≤ 0xE7

/-- `MOD_BIT`. -/
def modBit (code : UInt8) : UInt8 := 1 <<< (code &&& 7)

def Event.mods (m : UInt8) : Event → UInt8
  | .key (.registerCode code) => if isModifierKeycode code then m ||| modBit code else m
  | .key (.unregisterCode code) => if isModifierKeycode code then m &&& ~~~modBit code else m
  | .registerMods b => m ||| b
  | .unregisterMods b => m &&& ~~~b
  | _ => m

def Event.weakMods (m : UInt8) : Event → UInt8
  | .registerWeakMods b => m ||| b
  | .unregisterWeakMods b => m &&& ~~~b
  | _ => m

def registerCode (code : UInt8) : Event := .key (.registerCode code)
def unregisterCode (code : UInt8) : Event := .key (.unregisterCode code)
def waitMs (ms : UInt16) : Event := .key (.waitMs ms.toNat)

def tapCode (cfg : Config) (code : UInt8) : List Event := (Macros.tapCode cfg.tables code).map .key

def extractModBits (code : UInt16) : UInt8 :=
  if 0x0100 ≤ code ∧ code ≤ 0x1FFF then
    let mods := (code >>> 8).toUInt8 &&& 0x0F
    if code &&& 0x1000 ≠ 0 then mods <<< 4 else mods
  else 0

/-- `register_mods` and its kin send nothing for no modifier. -/
def ifMods (event : UInt8 → Event) (mods : UInt8) : List Event :=
  if mods ≠ 0 then [event mods] else []

def tapCode16 (cfg : Config) (code : UInt16) : List Event :=
  let real := code = 0 ∨ (0xE0 ≤ code ∧ code ≤ 0xE7)
  let mods := extractModBits code
  ifMods (if real then .registerMods else .registerWeakMods) mods
    ++ [registerCode code.toUInt8,
      waitMs (if code = 0x39 then cfg.tapHoldCapsDelay else cfg.tapCodeDelay),
      unregisterCode code.toUInt8]
    ++ ifMods (if real then .unregisterMods else .unregisterWeakMods) mods

structure Keyboard where
  mods : UInt8
  weakMods : UInt8
  savedMods : UInt8
  savedLed : Led
  /-- How often the LEDs have been read. -/
  looks : Nat
  events : List Event

def Keyboard.emit (k : Keyboard) (es : List Event) : Keyboard :=
  { k with
    mods := es.foldl Event.mods k.mods
    weakMods := es.foldl Event.weakMods k.weakMods
    events := k.events ++ es }

section
variable (cfg : Config)

/-- The switch of `unicode_input_start`. -/
def startKeys (led : Led) : List Event :=
  match cfg.mode with
  | .macos => [registerCode cfg.keyMac]
  | .linux => tapCode16 cfg cfg.keyLnx
  | .windows => (if led.numLock then [] else tapCode cfg 0x53)
    ++ [registerCode 0xE2,waitMs cfg.typeDelay] ++ tapCode cfg 0x57
  | .bsd => []
  | .wincompose => tapCode cfg cfg.keyWinc ++ tapCode cfg 0x18
  | .emacs => tapCode16 cfg 0x011B ++ tapCode16 cfg 0x25 ++ tapCode16 cfg 0x28

def capsKeys (led : Led) : List Event :=
  if cfg.mode = .linux ∧ led.capsLock then tapCode cfg 0x39 else []

/-- The switch of `unicode_input_finish`. -/
def finishKeys (led : Led) : List Event :=
  match cfg.mode with
  | .macos => [unregisterCode cfg.keyMac]
  | .linux => tapCode cfg 0x2C ++ if led.capsLock then tapCode cfg 0x39 else []
  | .windows => unregisterCode 0xE2 :: if led.numLock then [] else tapCode cfg 0x53
  | .bsd => []
  | .wincompose => tapCode cfg 0x28
  | .emacs => tapCode16 cfg 0x28

-- the host's answers, one for each time the LEDs are looked at
variable (leds : Nat → Led)

def unicodeInputStart (k : Keyboard) : Keyboard :=
  let led := leds k.looks
  let k := { k with savedLed := led, looks := k.looks+1 }.emit (capsKeys cfg led)
  let k := { k with savedMods := k.mods, mods := 0, weakMods := 0 }
  k.emit (startKeys cfg led ++ [waitMs cfg.typeDelay])

def unicodeInputFinish (k : Keyboard) : Keyboard :=
  let k := k.emit (finishKeys cfg k.savedLed)
  { k with mods := k.savedMods }

def sendNibble (number : Nat) : List Event :=
  let ascii := if number &&& 0xF ≤ 9 then number+48 else number-10+97
  (Macros.sendCharWithDelay cfg.tables (.ofNat ascii)).map .key

def sendNibbleWrapper (digit : Nat) : List Event :=
  if cfg.mode = .windows then
    tapCode cfg (if digit < 10 then .ofNat (0x59+(10+digit-1)%10) else .ofNat (4+(digit-10)))
  else sendNibble cfg digit

/-- The loop of `register_hex32`, `i` being the nibbles left. -/
def hexLoop {α : Type} (leadingZero : Bool) (send : Nat → List α) (hex : Nat) : Nat → Bool → List α
  | 0, _ => []
  | i+1, first =>
    let digit := (hex >>> (i*4)) &&& 0xF
    let zero := if first ∧ leadingZero ∧ digit > 9 then send 0 else []
    -- the last four are sent in any case
    if digit ≠ 0 ∨ !first ∨ i < 4 then zero ++ send digit ++ hexLoop leadingZero send hex i false
    else zero ++ hexLoop leadingZero send hex i first

def registerHex32 (hex : Nat) : List Event :=
  hexLoop (cfg.mode = .wincompose) (sendNibbleWrapper cfg) hex 8 true

/-- What `register_unicode` types between start and finish. -/
def typeCodePoint (codePoint : Nat) : List Event :=
  if codePoint > 0xFFFF ∧ cfg.mode = .macos then
    let rest := codePoint-0x10000
    registerHex32 cfg (((rest &&& 0xFFC00) >>> 10)+0xD800)
      ++ registerHex32 cfg ((rest &&& 0x3FF)+0xDC00)
  else registerHex32 cfg codePoint

def registerUnicode (k : Keyboard) (codePoint : Nat) : Keyboard :=
  if codePoint > 0x10FFFF ∨ codePoint > 0xFFFF ∧ cfg.mode = .windows then k else
  unicodeInputFinish cfg ((unicodeInputStart cfg leds k).emit (typeCodePoint cfg codePoint))

end

def tapped (es : List Event) : List UInt8 :=
  es.filterMap fun
    | .key (.registerCode code) => some code
    | _ => none

def keyDigit (mode : InputMode) (code : UInt8) : Option Nat :=
  if 0x04 ≤ code ∧ code ≤ 0x09 then some (10+(code.toNat-0x04))
  else
    let one : UInt8 := if mode = .windows then 0x59 else 0x1E
    if one ≤ code ∧ code < one+9 then some (code.toNat-one.toNat+1)
    else if code = one+9 then some 0
    else none

def Shows (mode : InputMode) (es : List Event) (digits : List Nat) : Prop :=
  (tapped es).mapM (keyDigit mode) = some digits

def parseHex (digits : List Nat) : Nat := digits.foldl (fun n d => 16*n+d) 0

/-- The host's reading of the digits; with macOS they are the code units of UTF-16. -/
def reading (mode : InputMode) (digits : List Nat) : Option Nat :=
  if mode = .macos then
    if digits.length = 4 then
      let unit := parseHex digits
      if 0xD800 ≤ unit ∧ unit ≤ 0xDFFF then none else some unit
    else
      let high := parseHex (digits.take 4)
      let low := parseHex (digits.drop 4)
      if digits.length = 8 ∧ 0xD800 ≤ high ∧ high < 0xDC00 ∧ 0xDC00 ≤ low ∧ low < 0xE000 then
        some (0x10000+(high-0xD800)*0x400+(low-0xDC00))
      else none
  else some (parseHex digits)

def supported (mode : InputMode) (c : Char) : Bool := mode ≠ .windows || c.toNat ≤ 0xFFFF

/-- Events that type one character: the start, digits that the host reads as the character, the
finish. -/
def Types (cfg : Config) (c : Char) (es : List Event) : Prop :=
  ∃ led typed digits,
    es = capsKeys cfg led ++ (startKeys cfg led ++ [waitMs cfg.typeDelay]) ++ typed
      ++ finishKeys cfg led
    ∧ Shows cfg.mode typed digits
    ∧ reading cfg.mode digits = some c.toNat
    ∧ (cfg.mode = .wincompose → ∃ d ∈ digits.head?, d ≤ 9)

theorem Shows.append {mode : InputMode} {es es' : List Event} {ds ds' : List Nat}
    (h : Shows mode es ds) (h' : Shows mode es' ds') : Shows mode (es ++ es') (ds ++ ds') := by
  simp only [Shows, tapped, List.filterMap_append, List.mapM_append] at h h' ⊢
  rw [h, h']
  rfl

theorem Shows.nil (mode : InputMode) : Shows mode [] [] := rfl

section
variable (cfg : Config)

theorem numpad_digit : ∀ d : Fin 16, keyDigit .windows
    (if d.val < 10 then .ofNat (0x59+(10+d.val-1)%10) else .ofNat (4+(d.val-10))) = some d.val := by
  decide

theorem ascii_digit : ∀ d : Fin 16,
    let ascii := UInt8.ofNat (if d.val &&& 0xF ≤ 9 then d.val+48 else d.val-10+97)
    ascii ≠ 7 ∧ asciiToShiftLut ascii = false
      ∧ ∀ mode, mode ≠ .windows →
        keyDigit mode (asciiToKeycodeLut.getD ascii.toNat 0) = some d.val := by
  intro d
  refine ⟨?_,?_,?_⟩
  · revert d; decide
  · revert d; decide
  · intro mode hmode
    cases mode
    all_goals first | exact absurd rfl hmode | (revert d; decide)

theorem tapped_tapCode (code : UInt8) : tapped (tapCode cfg code) = [code] := rfl

theorem shows_nibble (d : Nat) (hd : d < 16) :
    Shows cfg.mode (sendNibbleWrapper cfg d) [d] := by
  by_cases hmode : cfg.mode = .windows
  · have hkey := numpad_digit ⟨d,hd⟩
    rw [Shows, sendNibbleWrapper, if_pos hmode, tapped_tapCode, hmode, List.mapM_cons, hkey]
    rfl
  · obtain ⟨hbell, hshift, hkey⟩ := ascii_digit ⟨d,hd⟩
    have htapped : tapped (sendNibble cfg d) = [asciiToKeycodeLut.getD
        (UInt8.ofNat (if d &&& 0xF ≤ 9 then d+48 else d-10+97)).toNat 0] := by
      simp only [sendNibble, Macros.sendCharWithDelay, hbell, and_false, if_false]
      simp [tapped,Config.tables,Macros.tapCodeDelay,hshift]
    rw [Shows, sendNibbleWrapper, if_neg hmode, htapped, List.mapM_cons, hkey _ hmode]
    rfl

section Loop
variable (leadingZero : Bool) (hex : Nat)

def loopDigits : Nat → Bool → List Nat := hexLoop leadingZero (fun d => [d]) hex

theorem and_lt_sixteen (n : Nat) : n &&& 0xF < 16 :=
  Nat.lt_of_le_of_lt Nat.and_le_right (by decide)

theorem shows_hexLoop (i : Nat) (first : Bool) :
    Shows cfg.mode (hexLoop leadingZero (sendNibbleWrapper cfg) hex i first)
      (loopDigits leadingZero hex i first) := by
  induction i generalizing first with
  | zero => exact .nil _
  | succ i ih =>
    have hdigit := shows_nibble cfg _ (and_lt_sixteen (hex >>> (i*4)))
    have hzero : ∀ b : Prop, [Decidable b] → Shows cfg.mode
        (if b then sendNibbleWrapper cfg 0 else []) (if b then [0] else []) := by
      intro b _
      split_ifs
      · exact shows_nibble cfg 0 (by decide)
      · exact .nil _
    simp only [hexLoop, loopDigits]
    split
    · exact ((hzero _).append hdigit).append (ih false)
    · exact (hzero _).append (ih first)

theorem parse_loopDigits (i n : Nat) (first : Bool) (hn : n = hex/16^i)
    (hfirst : first = true → n = 0) :
    (loopDigits leadingZero hex i first).foldl (fun n d => 16*n+d) n = hex := by
  induction i generalizing n first with
  | zero => simpa [loopDigits,hexLoop] using hn
  | succ i ih =>
    have hdigit : (hex >>> (i*4)) &&& 0xF = hex/16^i%16 := by
      rw [Nat.shiftRight_eq_div_pow, Nat.mul_comm i 4, Nat.pow_mul]
      exact Nat.and_two_pow_sub_one_eq_mod _ 4
    have hnext : 16*n+hex/16^i%16 = hex/16^i := by
      rw [hn, Nat.pow_succ, ← Nat.div_div_eq_div_mul]
      exact Nat.div_add_mod (hex/16^i) 16
    have hzero : ∀ b : Prop, [Decidable b] → (b → n = 0) →
        (if b then [0] else []).foldl (fun n d => 16*n+d) n = n := by
      intro b _ hb
      split_ifs with h
      · simp [hb h]
      · rfl
    have hlead := hzero (first ∧ leadingZero ∧ hex/16^i%16 > 9) fun h => hfirst h.1
    simp only [loopDigits, hexLoop, hdigit] at ih ⊢
    split
    · rw [List.foldl_append, List.foldl_append, hlead]
      exact ih _ false hnext fun h => absurd h Bool.false_ne_true
    · rename_i hskip
      simp only [not_or, Bool.not_eq_eq_eq_not, Bool.not_true, not_not] at hskip
      rw [List.foldl_append, hlead]
      refine ih n first ?_ hfirst
      rw [← hnext, hskip.1, hfirst (by simpa using hskip.2.1)]

theorem parse_hex (h : hex < 16^8) : parseHex (loopDigits leadingZero hex 8 true) = hex :=
  parse_loopDigits leadingZero hex 8 0 true (Nat.div_eq_of_lt h).symm fun _ => rfl

theorem loopDigits_length {i : Nat} (hi : i ≤ 4) (first : Bool) :
    (loopDigits false hex i first).length = i := by
  induction i generalizing first with
  | zero => rfl
  | succ i ih =>
    simp only [loopDigits, hexLoop] at ih ⊢
    rw [if_pos (.inr (.inr (by omega)))]
    simp [ih (by omega)]

theorem loopDigits_skip (h : hex < 16^4) (i : Nat) :
    loopDigits leadingZero hex (4+i) true = loopDigits leadingZero hex 4 true := by
  induction i with
  | zero => rfl
  | succ i ih =>
    have hdigit : hex >>> ((4+i)*4) &&& 0xF = 0 := by
      have hlt : hex < 2^((4+i)*4) :=
        Nat.lt_of_lt_of_le h (Nat.pow_le_pow_right (by decide : 0 < 2) (by omega : 16 ≤ (4+i)*4))
      rw [Nat.shiftRight_eq_div_pow, Nat.div_eq_of_lt hlt]
      rfl
    rw [← ih]
    conv_lhs => rw [← Nat.add_assoc, loopDigits, hexLoop]
    have hnot : ¬ 4+i < 4 := by omega
    simp [hdigit,hnot,loopDigits]

theorem loopDigits_head (i : Nat) : ∃ d ∈ (loopDigits true hex (i+1) true).head?, d ≤ 9 := by
  induction i with
  | zero =>
    by_cases hd : hex &&& 0xF > 9
    · exact ⟨0,by simp [loopDigits,hexLoop,hd],Nat.zero_le 9⟩
    · exact ⟨hex &&& 0xF,by simp [loopDigits,hexLoop,hd],Nat.not_lt.mp hd⟩
  | succ i ih =>
    by_cases hd : hex >>> ((i+1)*4) &&& 0xF > 9
    · have hne : hex >>> ((i+1)*4) &&& 0xF ≠ 0 := by omega
      rw [loopDigits, hexLoop, if_pos (.inl hne)]
      exact ⟨0,by simp [hd],Nat.zero_le 9⟩
    · rw [loopDigits, hexLoop]
      simp only [hd]
      split
      · exact ⟨_,by simp,Nat.not_lt.mp hd⟩
      · simpa [loopDigits] using ih

end Loop

/-- What the digits of `register_hex32` are in every mode. -/
def hex32Digits (hex : Nat) : List Nat := loopDigits (decide (cfg.mode = .wincompose)) hex 8 true

theorem shows_hex32 (hex : Nat) : Shows cfg.mode (registerHex32 cfg hex) (hex32Digits cfg hex) :=
  shows_hexLoop cfg _ hex 8 true

theorem parse_hex32 {hex : Nat} (h : hex < 16^8) : parseHex (hex32Digits cfg hex) = hex :=
  parse_hex _ hex h

theorem hex32_length (hmode : cfg.mode = .macos) {hex : Nat} (h : hex < 16^4) :
    (hex32Digits cfg hex).length = 4 := by
  rw [hex32Digits, hmode, loopDigits_skip _ _ h 4]
  exact loopDigits_length hex (Nat.le_refl 4) true

def codePointDigits (codePoint : Nat) : List Nat :=
  if codePoint > 0xFFFF ∧ cfg.mode = .macos then
    let rest := codePoint-0x10000
    hex32Digits cfg (((rest &&& 0xFFC00) >>> 10)+0xD800) ++ hex32Digits cfg ((rest &&& 0x3FF)+0xDC00)
  else hex32Digits cfg codePoint

theorem shows_codePoint (codePoint : Nat) :
    Shows cfg.mode (typeCodePoint cfg codePoint) (codePointDigits cfg codePoint) := by
  unfold typeCodePoint codePointDigits
  split
  · exact (shows_hex32 cfg _).append (shows_hex32 cfg _)
  · exact shows_hex32 cfg _

theorem high_half {rest : Nat} (h : rest < 0x100000) : (rest &&& 0xFFC00) >>> 10 = rest/0x400 := by
  rw [Nat.shiftRight_and_distrib, Nat.shiftRight_eq_div_pow]
  refine (Nat.and_two_pow_sub_one_eq_mod (rest/2^10) 10).trans (Nat.mod_eq_of_lt ?_)
  omega

theorem low_half (rest : Nat) : rest &&& 0x3FF = rest%0x400 :=
  Nat.and_two_pow_sub_one_eq_mod rest 10

theorem reading_codePoint (c : Char) :
    reading cfg.mode (codePointDigits cfg c.toNat) = some c.toNat := by
  have hvalid : c.toNat < 0xD800 ∨ 0xDFFF < c.toNat ∧ c.toNat < 0x110000 := c.valid
  by_cases hmac : cfg.mode = .macos
  · by_cases hbig : c.toNat > 0xFFFF
    · have hpair : codePointDigits cfg c.toNat
          = hex32Digits cfg ((c.toNat-0x10000)/0x400+0xD800)
            ++ hex32Digits cfg ((c.toNat-0x10000)%0x400+0xDC00) := by
        have hrest : c.toNat-0x10000 < 0x100000 := by omega
        have hboth : c.toNat > 0xFFFF ∧ cfg.mode = .macos := ⟨hbig,hmac⟩
        rw [codePointDigits, if_pos hboth]
        dsimp only
        rw [high_half hrest, low_half]
      have hhigh := hex32_length cfg hmac
        (show (c.toNat-0x10000)/0x400+0xD800 < 16^4 by omega)
      have hlow := hex32_length cfg hmac
        (show (c.toNat-0x10000)%0x400+0xDC00 < 16^4 by omega)
      rw [reading, if_pos hmac, hpair, List.length_append, hhigh, hlow, if_neg (by decide),
        List.take_left' hhigh, List.drop_left' hhigh, parse_hex32 cfg (by omega),
        parse_hex32 cfg (by omega)]
      dsimp only
      rw [if_pos (by omega)]
      exact congrArg some (by omega)
    · have hone : codePointDigits cfg c.toNat = hex32Digits cfg c.toNat := if_neg fun h => hbig h.1
      rw [reading, if_pos hmac, hone, if_pos (hex32_length cfg hmac (by omega)),
        parse_hex32 cfg (by omega)]
      exact if_neg (by omega)
  · have hone : codePointDigits cfg c.toNat = hex32Digits cfg c.toNat := if_neg fun h => hmac h.2
    rw [reading, if_neg hmac, hone, parse_hex32 cfg (by omega)]

theorem capsKeys_mods (led : Led) (m : UInt8) : (capsKeys cfg led).foldl Event.mods m = m := by
  unfold capsKeys
  split <;> rfl

theorem registerUnicode_types (leds : Nat → Led) (k : Keyboard) (c : Char)
    (h : supported cfg.mode c) : ∃ es, Types cfg c es
      ∧ (registerUnicode cfg leds k c.toNat).events = k.events ++ es
      ∧ (registerUnicode cfg leds k c.toNat).mods = k.mods := by
  have hvalid : c.toNat < 0xD800 ∨ 0xDFFF < c.toNat ∧ c.toNat < 0x110000 := c.valid
  have hrange : ¬ (c.toNat > 0x10FFFF ∨ c.toNat > 0xFFFF ∧ cfg.mode = .windows) := by
    simp only [supported, Bool.or_eq_true, decide_eq_true_eq] at h
    rintro (hbig | ⟨hbig, hmode⟩)
    · omega
    · rcases h with h | h
      · exact absurd hmode (by simpa using h)
      · omega
  rw [registerUnicode, if_neg hrange]
  refine ⟨_,⟨leds k.looks,_,_,rfl,shows_codePoint cfg c.toNat,reading_codePoint cfg c,fun hwin => ?_⟩,
    ?_,?_⟩
  · rw [codePointDigits, if_neg (by rw [hwin]; simp), hex32Digits, hwin]
    exact loopDigits_head c.toNat 7
  · simp [unicodeInputFinish,unicodeInputStart,Keyboard.emit]
  · simp [unicodeInputFinish,unicodeInputStart,Keyboard.emit,capsKeys_mods]

theorem registerUnicode_unsupported (leds : Nat → Led) (k : Keyboard) (c : Char)
    (h : supported cfg.mode c = false) : registerUnicode cfg leds k c.toNat = k := by
  simp only [supported, Bool.or_eq_false_iff, decide_eq_false_iff_not] at h
  have hmode : cfg.mode = .windows := by simpa using h.1
  rw [registerUnicode, if_pos (.inr ⟨by omega,hmode⟩)]

end

section
open ByteProg
variable (cfg : Config) (leds : Nat → Led)

/-- The supported characters are typed in turn, each in a sequence of its own. -/
def TypedAs (cs : List Char) (k k' : Keyboard) : Prop :=
  k'.mods = k.mods ∧ ∃ seqs, k'.events = k.events ++ seqs.flatten
    ∧ List.Forall₂ (Types cfg) (cs.filter (supported cfg.mode)) seqs

theorem TypedAs.nil (k : Keyboard) : TypedAs cfg [] k k := ⟨rfl,[],by simp,.nil⟩

theorem TypedAs.cons {c : Char} {cs : List Char} {k k' : Keyboard}
    (h : TypedAs cfg cs (registerUnicode cfg leds k c.toNat) k') : TypedAs cfg (c :: cs) k k' := by
  obtain ⟨hmods, seqs, hevents, hseqs⟩ := h
  cases hc : supported cfg.mode c with
  | false =>
    rw [registerUnicode_unsupported cfg leds k c hc] at hmods hevents
    refine ⟨hmods,seqs,hevents,?_⟩
    rwa [List.filter_cons_of_neg (by simp [hc])]
  | true =>
    obtain ⟨es, htypes, hes, hkept⟩ := registerUnicode_types cfg leds k c hc
    refine ⟨hmods.trans hkept,es :: seqs,?_,?_⟩
    · rw [hevents, hes, List.flatten_cons, List.append_assoc]
    · rw [List.filter_cons_of_pos hc]
      exact .cons htypes hseqs

theorem utf8EncodeChar_cons (c : Char) : ∃ b bs, String.utf8EncodeChar c = b :: bs := by
  rw [String.utf8EncodeChar]
  split_ifs <;> exact ⟨_,_,rfl⟩

/-- Every valid UTF-8 string is typed as itself. -/
theorem unicode_string_typed (cs : List Char) {s : ByteMems Unit} {str : Nat}
    (hs : StringAt (s ()) str (cs.flatMap String.utf8EncodeChar)) (k : Keyboard) :
    ∃ fuel stop k', (sendUnicodeString (registerUnicode cfg leds) fuel str k).val s = some (stop,k')
      ∧ TypedAs cfg cs k k' := by
  induction cs generalizing str k with
  | nil => exact ⟨1,str,k,(send_stop _ k hs.terminated 0).1,.nil cfg k⟩
  | cons c cs ih =>
    rw [List.flatMap_cons] at hs
    have hchar := decodeUtf8_char c hs
    obtain ⟨fuel, stop, k', hval, htyped⟩ :=
      ih (StringAt.drop _ hs) (registerUnicode cfg leds k c.toNat)
    obtain ⟨b, bs, hcons⟩ := utf8EncodeChar_cons c
    have hhead : s () str ≠ 0 := by
      rw [hcons] at hs
      rw [hs.head.1]
      exact hs.head.2
    refine ⟨fuel+1,stop,k',?_,htyped.cons cfg leds⟩
    have hnext : str+announced (s () str) = str+(String.utf8EncodeChar c).length := by
      rw [← decodeUtf8_next, hchar]
    rw [(send_step _ k rfl hhead fuel).1, hnext, hchar, typed, if_pos (Int.natCast_nonneg _)]
    exact hval

/-- `é` and an emoji, which Windows has no input for. -/
def smile : ByteMems Unit := fun _ a => [0xC3,0xA9,0xF0,0x9F,0x98,0x80].getD a 0

theorem smile_string : StringAt (smile ()) 0 (['é','😀'].flatMap String.utf8EncodeChar) := by
  have hbytes : ['é','😀'].flatMap String.utf8EncodeChar = [0xC3,0xA9,0xF0,0x9F,0x98,0x80] := by
    decide +kernel
  rw [hbytes]
  refine ⟨fun i b hi => ?_,rfl,by simp⟩
  rw [Nat.zero_add, smile, List.getD_eq_getElem?_getD, hi]
  rfl

def plainConfig (mode : InputMode) : Config := ⟨mode,0xE2,0x0318,0xE6,10,0,80,false⟩

theorem smile_typed : ∃ fuel stop k',
    (sendUnicodeString (registerUnicode (plainConfig .macos) fun _ => ⟨true,false⟩) fuel 0
      ⟨0x02,0,0,⟨false,false⟩,0,[]⟩).val smile = some (stop,k')
      ∧ TypedAs (plainConfig .macos) ['é','😀'] ⟨0x02,0,0,⟨false,false⟩,0,[]⟩ k' :=
  unicode_string_typed (plainConfig .macos) (fun _ => ⟨true,false⟩) ['é','😀'] smile_string _

example : tapped (typeCodePoint (plainConfig .macos) 0x1F600)
    = [0x07,0x25,0x20,0x07,0x07,0x08,0x27,0x27] := by decide +kernel

end

end QmkFirmware.Unicode
