import Mathlib.Data.List.Sort
import Mathlib.Data.List.DropRight
import QmkFirmware.Lib.Trie

/-!
`qmk generate-autocorrect-data`: the dictionary as a trie of reversed typos, and the trie as a
table of bytes. A chain entry holds the letters of a run of single children and is followed by its
child; a branch entry links each of its letters to a child.
-/

set_option autoImplicit false

namespace QmkFirmware.Autocorrect

def kcA : UInt8 := 4
def kcSpc : UInt8 := 0x2c
def kcQuot : UInt8 := 0x34

/-- `TYPO_CHARS`. It has no other characters, and `parse_file` lets none through. -/
def typoCode (c : Char) : UInt8 :=
  if c = '\'' then kcQuot else if c = ':' then kcSpc else UInt8.ofNat (c.toNat+kcA.toNat - 'a'.toNat)

def typoChars : List Char := '\'' :: ':' :: (List.range 26).map fun i => Char.ofNat ('a'.toNat+i)

/-- A typo and its correction. -/
abbrev Autocorrection := List Char × List Char

/-- What `parse_file` checks of the typos: they are distinct, and none is a substring of another. -/
structure Accepted (autocorrections : List Autocorrection) : Prop where
  letters : ∀ e ∈ autocorrections, ∀ c ∈ e.1, c ∈ typoChars
  nonempty : ∀ e ∈ autocorrections, e.1 ≠ []
  short : ∀ e ∈ autocorrections, e.1.length ≤ 127
  apart : autocorrections.Pairwise fun e f => ¬ e.1 <:+: f.1 ∧ ¬ f.1 <:+: e.1

abbrev TypoTrie := Trie Char Autocorrection

def makeTrie (autocorrections : List Autocorrection) : TypoTrie :=
  autocorrections.foldl (fun trie e => trie.insert e.1.reverse e) .empty

/-- `str.strip(':')`. -/
def stripColons (s : List Char) : List Char := (s.dropWhile (· == ':')).rdropWhile (· == ':')

def commonLength : List Char → List Char → Nat
  | a :: as, b :: bs => if a = b then commonLength as bs+1 else 0
  | _, _ => 0

/-- `bytes(s, 'ascii')`. -/
def asciiBytes (s : List Char) : Option (List UInt8) :=
  if s.all fun c => c.toNat < 128 then some (s.map fun c => UInt8.ofNat c.toNat) else none

def leafData (typo correction : List Char) : Option (List UInt8) :=
  let wordBoundaryEnding := typo.getLast? = some ':'
  let typo := stripColons typo
  let i := commonLength typo correction
  let backspaces : Int := typo.length-i-1+(if wordBoundaryEnding then 1 else 0)
  if 0 ≤ backspaces ∧ backspaces ≤ 63 then
    (asciiBytes (correction.drop i)).map fun rest =>
      UInt8.ofNat (backspaces.toNat+128) :: rest ++ [0]
  else none

inductive Entry where
  | leaf (data : List UInt8)
  | chain (chars : List Char) (link : Nat)
  | branch (chars : List Char) (links : List Nat)
  deriving DecidableEq, Repr

def chainOf (c : Char) : TypoTrie → List Char × TypoTrie
  | .node none [(c',t)] => (c :: (chainOf c' t).1, (chainOf c' t).2)
  | t => ([c], t)

/-- Traverse the children of a branch into a table of `n` entries. -/
def traverseAll (traverse : Nat → TypoTrie → Option (List Entry)) (n : Nat) :
    List (Char × TypoTrie) → Option (List Nat × List Entry)
  | [] => some ([], [])
  | (_,t) :: rest =>
    (traverse n t).bind fun entries =>
      (traverseAll traverse (n+entries.length) rest).map fun r => (n :: r.1, entries ++ r.2)

/-- The entries that `traverse` appends to a table of `n` entries; the first is the one it
returns. The first argument bounds the depth of the recursion, as Python does. Without a child and
a leaf, `serialize` finds no `data` in the entry. -/
def traverse : Nat → Nat → TypoTrie → Option (List Entry)
  | 0, _, _ => none
  | _+1, _, .node (some e) _ => (leafData e.1 e.2).map fun data => [.leaf data]
  | _+1, _, .node none [] => none
  | fuel+1, n, .node none [(c,t)] =>
    (traverse fuel (n+1) (chainOf c t).2).map fun entries => .chain (chainOf c t).1 (n+1) :: entries
  | fuel+1, n, .node none children =>
    let sorted := children.insertionSort fun x y => x.1 ≤ y.1
    (traverseAll (traverse fuel) (n+1) sorted).map fun r =>
      .branch (sorted.map Prod.fst) r.1 :: r.2

/-- The assertions keep every offset below 2^16. -/
def encodeLink (byteOffset : Nat) : List UInt8 :=
  [UInt8.ofNat (byteOffset % 256), UInt8.ofNat (byteOffset/256)]

def serializeBranch (byteOffset : Nat → Nat) : UInt8 → List (Char × Nat) → List UInt8
  | _, [] => [0]
  | mark, (c,link) :: rest =>
    (typoCode c ||| mark) :: encodeLink (byteOffset link) ++ serializeBranch byteOffset 0 rest

def serialize (byteOffset : Nat → Nat) : Entry → List UInt8
  | .leaf data => data
  | .chain chars _ => chars.map typoCode ++ [0]
  | .branch chars links => serializeBranch byteOffset 64 (chars.zip links)

def byteOffsets : Nat → List Entry → Option (List Nat)
  | _, [] => some []
  | byteOffset, e :: es =>
    let next := byteOffset+(serialize (fun _ => 0) e).length
    if next ≤ 0xffff then (byteOffsets next es).map (byteOffset :: ·) else none

def serializeTrie (fuel : Nat) (trie : TypoTrie) : Option (List UInt8) :=
  (traverse fuel 0 trie).bind fun table =>
    (byteOffsets 0 table).map fun offsets =>
      table.flatMap (serialize fun i => offsets.getD i 0)

end QmkFirmware.Autocorrect
