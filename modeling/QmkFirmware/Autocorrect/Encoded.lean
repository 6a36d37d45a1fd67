import Mathlib.Data.Bool.AllAny
import QmkFirmware.Autocorrect.Match

/-!
Where the table holds a node of the trie. `Encodes` says it byte for byte; the generator's output
encodes its trie, and the matcher goes from node to node.
-/

set_option autoImplicit false

namespace QmkFirmware.Autocorrect

-- The letters are run through as a list: there are too many characters to try each.
theorem typoCode_plain : ∀ c ∈ typoChars, typoCode c ≠ 0 ∧ typoCode c &&& 64 = 0
    ∧ typoCode c &&& 128 = 0 ∧ (typoCode c ||| 64) &&& 64 ≠ 0
    ∧ (typoCode c ||| 64) &&& 63 = typoCode c ∧ (typoCode c ||| 64) &&& 128 = 0 :=
  List.all_iff_forall_prop.mp (by decide +kernel)

theorem typoCode_inj : ∀ c ∈ typoChars, ∀ d ∈ typoChars, typoCode c = typoCode d → c = d := by
  have hall : typoChars.all (fun c => typoChars.all fun d => typoCode c = typoCode d → c = d) := by
    decide +kernel
  exact fun c hc => List.all_iff_forall_prop.mp (List.all_eq_true.mp hall c hc)

theorem typoKey_iff (k : UInt8) : TypoKey k ↔ ∃ c ∈ typoChars, typoCode c = k := by
  have hkey : ∀ c ∈ typoChars, TypoKey (typoCode c) :=
    List.all_iff_forall_prop.mp (by decide +kernel)
  have hletter : ∀ i < 26, typoCode (Char.ofNat ('a'.toNat+i)) = UInt8.ofNat (4+i) := by
    decide +kernel
  constructor
  · rintro (⟨hlow, hhigh⟩ | rfl | rfl)
    · have hlow' : 4 ≤ k.toNat := UInt8.le_iff_toNat_le.mp hlow
      have hhigh' : k.toNat ≤ 29 := UInt8.le_iff_toNat_le.mp hhigh
      refine ⟨Char.ofNat ('a'.toNat+(k.toNat-4)),?_,?_⟩
      · refine List.mem_cons_of_mem _ (List.mem_cons_of_mem _ (List.mem_map.mpr ⟨_,?_,rfl⟩))
        exact List.mem_range.mpr (by omega)
      · rw [hletter _ (by omega), Nat.add_sub_cancel' hlow', UInt8.ofNat_toNat]
    · exact ⟨':',List.mem_cons_of_mem _ List.mem_cons_self,rfl⟩
    · exact ⟨'\'',List.mem_cons_self,rfl⟩
  · rintro ⟨c, hc, rfl⟩
    exact hkey c hc

theorem leafData_some {typo correction : List Char} {bytes : List UInt8}
    (h : leafData typo correction = some bytes) : ∃ backspaces : Nat, backspaces ≤ 63 ∧
      (backspaces : Int) = (stripColons typo).length-commonLength (stripColons typo) correction-1
        +(if typo.getLast? = some ':' then 1 else 0)
      ∧ (∀ c ∈ correction.drop (commonLength (stripColons typo) correction), c.toNat < 128)
      ∧ bytes = UInt8.ofNat (backspaces+128)
        :: (correction.drop (commonLength (stripColons typo) correction)).map
          (fun c => UInt8.ofNat c.toNat) ++ [0] := by
  simp only [leafData] at h
  generalize hn : ((stripColons typo).length-commonLength (stripColons typo) correction-1
    +(if typo.getLast? = some ':' then 1 else 0) : Int) = backspaces at h
  split at h
  · rename_i hb
    obtain ⟨rest, hrest, rfl⟩ := Option.map_eq_some_iff.mp h
    simp only [asciiBytes] at hrest
    split at hrest
    · rename_i hascii
      refine ⟨_, ?_, (Int.toNat_of_nonneg hb.1), fun c hc => ?_, by rw [← Option.some.inj hrest]⟩
      · omega
      · simpa using List.all_eq_true.mp hascii c hc
    · cases hrest
  · cases h

theorem leaf_mark : ∀ n ≤ 63, UInt8.ofNat (n+128) &&& 128 ≠ 0
    ∧ ((UInt8.ofNat (n+128)) &&& 63).toNat = n := by decide +kernel

def Located (data : List UInt8) (o : Nat) (bytes : List UInt8) : Prop := bytes <+: data.drop o

theorem Located.get {data : List UInt8} {o : Nat} {bytes : List UInt8} (h : Located data o bytes)
    {j : Nat} {b : UInt8} (hb : bytes[j]? = some b) : data[o+j]? = some b := by
  obtain ⟨rest, hrest⟩ := h
  have hj := (List.getElem?_eq_some_iff.mp hb).1
  rw [← List.getElem?_drop, ← hrest, List.getElem?_append_left hj]
  exact hb

inductive Encodes (data : List UInt8) : Nat → TypoTrie → Prop where
  | leaf {o : Nat} {e : Autocorrection} {ch : List (Char × TypoTrie)} {bytes : List UInt8} :
      leafData e.1 e.2 = some bytes → Located data o bytes → Encodes data o (.node (some e) ch)
  | chain {o : Nat} {c : Char} {t : TypoTrie} {b : UInt8} : c ∈ typoChars →
      data[o]? = some (typoCode c) → data[o+1]? = some b → b ≠ 0 → t.leaf = none →
      Encodes data (o+1) t → Encodes data o (.node none [(c,t)])
  | chainEnd {o : Nat} {c : Char} {t : TypoTrie} : c ∈ typoChars →
      data[o]? = some (typoCode c) → data[o+1]? = some 0 → Encodes data (o+2) t →
      Encodes data o (.node none [(c,t)])
  | branch {o : Nat} {ch sorted : List (Char × TypoTrie)} (link : Nat → Nat) :
      (ch.map Prod.fst).Nodup → sorted.Perm ch → sorted ≠ [] →
      (∀ j x, sorted[j]? = some x → x.1 ∈ typoChars ∧ link j < 2^16
        ∧ data[o+3*j]? = some (typoCode x.1 ||| if j = 0 then 64 else 0)
        ∧ data[o+3*j+1]? = some (UInt8.ofNat (link j % 256))
        ∧ data[o+3*j+2]? = some (UInt8.ofNat (link j/256))) →
      data[o+3*sorted.length]? = some 0 →
      (∀ j x, sorted[j]? = some x → Encodes data (link j) x.2) → Encodes data o (.node none ch)

theorem Encodes.mark {data : List UInt8} {o : Nat} {t : TypoTrie} (h : Encodes data o t) :
    ∃ b, data[o]? = some b ∧ (t.leaf = none → b &&& 128 = 0 ∧ b ≠ 0)
      ∧ (t.leaf.isSome → b &&& 128 ≠ 0) := by
  cases h with
  | leaf hd hloc =>
    obtain ⟨n, hn, -, -, rfl⟩ := leafData_some hd
    exact ⟨_, hloc.get (j := 0) rfl, fun hs => absurd hs (Option.some_ne_none _),
      fun _ => (leaf_mark n hn).1⟩
  | chain hc hb _ _ _ _ =>
    have hp := typoCode_plain _ hc
    exact ⟨_, hb, fun _ => ⟨hp.2.2.1, hp.1⟩, fun hs => by cases hs⟩
  | chainEnd hc hb _ _ =>
    have hp := typoCode_plain _ hc
    exact ⟨_, hb, fun _ => ⟨hp.2.2.1, hp.1⟩, fun hs => by cases hs⟩
  | @branch o ch sorted link _ _ hne hbytes _ _ =>
    obtain ⟨x, rest, rfl⟩ := List.exists_cons_of_ne_nil hne
    obtain ⟨hc, -, hb, -⟩ := hbytes 0 x rfl
    have hp := typoCode_plain _ hc
    refine ⟨_, hb, fun _ => ⟨hp.2.2.2.2.2, fun h0 => ?_⟩, fun hs => by cases hs⟩
    have hmark := hp.2.2.2.1
    rw [if_pos rfl] at h0
    rw [h0] at hmark
    exact hmark rfl

theorem link_bytes {link : Nat} (h : link < 2^16) :
    ((UInt8.ofNat (link % 256)).toNat ||| (UInt8.ofNat (link/256)).toNat <<< 8) % 2^16 = link := by
  have hlo : (UInt8.ofNat (link % 256)).toNat = link % 256 := by
    rw [UInt8.toNat_ofNat']
    omega
  have hhi : (UInt8.ofNat (link/256)).toNat = link/256 := by
    rw [UInt8.toNat_ofNat']
    omega
  rw [hlo, hhi, Nat.or_comm, ← Nat.shiftLeft_add_eq_or_of_lt (by omega), Nat.shiftLeft_eq]
  omega

theorem scanBranch_from {data : List UInt8} (hlen : data.length < 2^16) {o : Nat}
    {sorted : List (Char × TypoTrie)} {k : Char} (hk : k ∈ typoChars)
    (hbytes : ∀ j x, sorted[j]? = some x → x.1 ∈ typoChars
      ∧ data[o+3*j]? = some (typoCode x.1 ||| if j = 0 then 64 else 0))
    (hend : data[o+3*sorted.length]? = some 0) (n i fuel : Nat) (hi : i+n = sorted.length)
    (hf : n < fuel) :
    (∃ j x, sorted[j]? = some x ∧ x.1 = k
        ∧ scanBranch data (typoCode k) fuel (o+3*i)
          (if h : i < sorted.length then typoCode sorted[i].1 else 0) = .goto (o+3*j))
      ∨ (∀ j x, i ≤ j → sorted[j]? = some x → x.1 ≠ k)
        ∧ scanBranch data (typoCode k) fuel (o+3*i)
          (if h : i < sorted.length then typoCode sorted[i].1 else 0) = .stop := by
  obtain ⟨fuel, rfl⟩ : ∃ m, fuel = m+1 := ⟨fuel-1, by omega⟩
  induction n generalizing i fuel with
  | zero =>
    right
    have hkz := (typoCode_plain k hk).1
    refine ⟨fun j x hj hx => ?_, ?_⟩
    · have := (List.getElem?_eq_some_iff.mp hx).1
      omega
    · rw [dif_neg (by omega), scanBranch, if_neg hkz.symm, if_pos rfl]
  | succ n ih =>
    have hlt : i < sorted.length := by omega
    have hget : sorted[i]? = some sorted[i] := List.getElem?_eq_getElem hlt
    obtain ⟨hc, -⟩ := hbytes i _ hget
    rw [dif_pos hlt, scanBranch]
    by_cases heq : typoCode sorted[i].1 = typoCode k
    · rw [if_pos heq]
      exact .inl ⟨i, _, hget, typoCode_inj _ hc _ hk heq, rfl⟩
    rw [if_neg heq, if_neg (typoCode_plain _ hc).1]
    have hnext : data[o+3*(i+1)]? = some (if h : i+1 < sorted.length then typoCode sorted[i+1].1
        else 0) := by
      split
      · rename_i hlt'
        obtain ⟨-, hb⟩ := hbytes (i+1) _ (List.getElem?_eq_getElem hlt')
        rw [hb, if_neg (Nat.succ_ne_zero i), UInt8.or_zero]
      · rw [show i+1 = sorted.length by omega]
        exact hend
    have hin := (List.getElem?_eq_some_iff.mp hnext).1
    have hstate : (o+3*i+3) % 2^16 = o+3*(i+1) := by
      rw [Nat.mod_eq_of_lt (by omega)]
      omega
    obtain ⟨fuel, rfl⟩ : ∃ m, fuel = m+1 := ⟨fuel-1, by omega⟩
    rw [hstate, hnext]
    rcases ih (i+1) (by omega) fuel (by omega) with ⟨j, x, hx, hxk, hscan⟩ | ⟨hnone, hscan⟩
    · exact .inl ⟨j, x, hx, hxk, hscan⟩
    · refine .inr ⟨fun j x hj hx => ?_, hscan⟩
      rcases Nat.eq_or_lt_of_le hj with rfl | hj
      · rw [hget, Option.some.injEq] at hx
        exact fun hxk => heq (by rw [hx, hxk])
      · exact hnone j x hj hx

theorem child_single (c k : Char) (u : TypoTrie) :
    Trie.child (.node none [(c,u)]) k = if k = c then some u else none := by
  by_cases h : k = c
  · simp [Trie.child, Trie.children, h]
  · simp [Trie.child, Trie.children, h, List.lookup_cons, beq_false_of_ne h]

theorem matchNode_encodes {data : List UInt8} (hlen : data.length < 2^16) {o : Nat} {t : TypoTrie}
    (h : Encodes data o t) (hl : t.leaf = none) {k : Char} (hk : k ∈ typoChars) {b : UInt8}
    (hb : data[o]? = some b) :
    (∃ u o', t.child k = some u ∧ matchNode data (typoCode k) o b = .goto o' ∧ Encodes data o' u)
      ∨ t.child k = none ∧ matchNode data (typoCode k) o b = .stop := by
  cases h with
  | leaf _ _ => cases hl
  | @chain o c u d hc hb' hd hne _ hrec =>
    obtain rfl : typoCode c = b := Option.some.inj (hb'.symm.trans hb)
    have hin := (List.getElem?_eq_some_iff.mp hd).1
    rw [child_single, matchNode, if_neg (not_not.mpr (typoCode_plain c hc).2.1)]
    by_cases hkc : k = c
    · subst hkc
      rw [if_pos rfl, if_neg (by simp), Nat.mod_eq_of_lt (by omega), hd]
      exact .inl ⟨u, o+1, rfl, by simp [hne], hrec⟩
    · rw [if_neg hkc, if_pos fun heq => hkc (typoCode_inj k hk c hc heq.symm)]
      exact .inr ⟨rfl, rfl⟩
  | @chainEnd o c u hc hb' hd hrec =>
    obtain rfl : typoCode c = b := Option.some.inj (hb'.symm.trans hb)
    have hin := (List.getElem?_eq_some_iff.mp hd).1
    obtain ⟨e, he, -⟩ := hrec.mark
    have hin' := (List.getElem?_eq_some_iff.mp he).1
    rw [child_single, matchNode, if_neg (not_not.mpr (typoCode_plain c hc).2.1)]
    by_cases hkc : k = c
    · subst hkc
      rw [if_pos rfl, if_neg (by simp), Nat.mod_eq_of_lt (by omega), hd]
      refine .inl ⟨u, o+2, rfl, ?_, hrec⟩
      simp only [if_true]
      rw [Nat.mod_eq_of_lt (by omega)]
    · rw [if_neg hkc, if_pos fun heq => hkc (typoCode_inj k hk c hc heq.symm)]
      exact .inr ⟨rfl, rfl⟩
  | @branch o ch sorted link hnodup hperm hne hbytes hend hrec =>
    obtain ⟨x₀, rest, hcons⟩ := List.exists_cons_of_ne_nil hne
    have hpos : 0 < sorted.length := by rw [hcons]; exact Nat.succ_pos _
    obtain ⟨hc, -, hb', -⟩ := hbytes 0 _ (List.getElem?_eq_getElem hpos)
    have hp := typoCode_plain _ hc
    obtain rfl : (typoCode sorted[0].1 ||| 64) = b := Option.some.inj (hb'.symm.trans hb)
    have hin := (List.getElem?_eq_some_iff.mp hend).1
    have hscan := scanBranch_from hlen hk (fun j x hx => ⟨(hbytes j x hx).1, (hbytes j x hx).2.2.1⟩)
      hend sorted.length 0 data.length (Nat.zero_add _) (by omega)
    rw [dif_pos hpos, Nat.mul_zero, Nat.add_zero] at hscan
    have hmem : ∀ u, Trie.child (.node none ch) k = some u ↔ (k,u) ∈ sorted := fun u =>
      ⟨fun h => hperm.mem_iff.mpr (Trie.mem_of_lookup h),
        fun h => Trie.lookup_of_mem hnodup (hperm.mem_iff.mp h)⟩
    rw [matchNode, if_pos hp.2.2.2.1, hp.2.2.2.2.1]
    rcases hscan with ⟨j, x, hx, rfl, hscan⟩ | ⟨hnone, hscan⟩
    · left
      obtain ⟨-, hlink, -, hlo, hhi⟩ := hbytes j x hx
      refine ⟨x.2, link j, (hmem _).mpr (List.mem_of_getElem? hx), ?_, hrec j x hx⟩
      rw [hscan]
      simp only [hlo, hhi, link_bytes hlink]
    · right
      rw [hscan]
      refine ⟨?_, rfl⟩
      cases hch : Trie.child (.node none ch) k with
      | none => rfl
      | some u =>
        obtain ⟨j, hj⟩ := List.mem_iff_getElem?.mp ((hmem u).mp hch)
        exact absurd rfl (hnone j _ (Nat.zero_le j) hj)

/-- What the walk returns, against what is on the path of the keys. -/
def Agrees (data : List UInt8) (r : Match) : Option Autocorrection → Prop
  | some e => ∃ state bytes, r = .found state ∧ leafData e.1 e.2 = some bytes
    ∧ Located data state bytes
  | none => r = .none

theorem walk_encodes {data : List UInt8} (hlen : data.length < 2^16) (keys : List Char)
    (hk : ∀ k ∈ keys, k ∈ typoChars) {o : Nat} {t : TypoTrie} (h : Encodes data o t)
    (hl : t.leaf = none) {b : UInt8} (hb : data[o]? = some b) :
    Agrees data (walk data (keys.map typoCode) o b) (t.find keys) := by
  induction keys generalizing o t b with
  | nil =>
    rw [Trie.find, hl]
    rfl
  | cons k keys ih =>
    rw [Trie.find, if_neg (by simp [hl]), List.map_cons, walk]
    rcases matchNode_encodes hlen h hl (hk k List.mem_cons_self) hb with
      ⟨u, o', hu, hgo, hrec⟩ | ⟨hu, hstop⟩
    · obtain ⟨d, hd, hnode, hleaf⟩ := hrec.mark
      have hin := (List.getElem?_eq_some_iff.mp hd).1
      rw [hu, hgo, Option.bind_some]
      simp only [if_neg (Nat.not_le.mpr hin), hd]
      cases hul : u.leaf with
      | none =>
        rw [if_neg (not_not.mpr (hnode hul).1)]
        exact ih (fun j hj => hk j (List.mem_cons_of_mem _ hj)) hrec hul hd
      | some e =>
        rw [if_pos (hleaf (by simp [hul])), Trie.find_of_leaf hul]
        cases hrec with
        | leaf hdata hloc =>
          obtain rfl := Option.some.inj hul
          exact ⟨o', _, rfl, hdata, hloc⟩
        | chain => cases hul
        | chainEnd => cases hul
        | branch => cases hul
    · rw [hu, hstop]
      rfl

end QmkFirmware.Autocorrect
