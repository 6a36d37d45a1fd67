import QmkFirmware.Autocorrect.Encoded

/-!
The generated table holds its trie: every entry stands at its offset, and every link names the
offset of the child that was traversed for it.
-/

set_option autoImplicit false

namespace QmkFirmware.Autocorrect

structure Laid (table : List Entry) (data : List UInt8) (offset : Nat → Nat) : Prop where
  here : ∀ i e, table[i]? = some e → Located data (offset i) (serialize offset e)
  next : ∀ i e e', table[i]? = some e → table[i+1]? = some e' →
    offset (i+1) = offset i+(serialize offset e).length
  small : ∀ i e, table[i]? = some e → offset i < 2^16

/-- Some entries are part of the table, from this position on. -/
def Within (table : List Entry) (n : Nat) (entries : List Entry) : Prop :=
  ∀ j e, entries[j]? = some e → table[n+j]? = some e

theorem Within.head {table entries : List Entry} {n : Nat} {e : Entry}
    (h : Within table n (e :: entries)) : table[n]? = some e := h 0 e rfl

theorem Within.tail {table entries : List Entry} {n : Nat} {e : Entry}
    (h : Within table n (e :: entries)) : Within table (n+1) entries := fun j e' hj => by
  rw [Nat.add_assoc, Nat.add_comm 1 j]
  exact h (j+1) e' hj

theorem chainOf_proper (c : Char) (t : TypoTrie) (h : t.Proper (· ∈ typoChars)) :
    (chainOf c t).2.Proper (· ∈ typoChars) := by
  induction c, t using chainOf.induct with
  | case1 c c' t ih =>
    rw [chainOf]
    exact ih (h.child (List.mem_singleton.mpr rfl)).2
  | case2 c t hother =>
    rw [chainOf]
    · exact h
    · exact hother

theorem chain_encodes {data : List UInt8} (c : Char) (t : TypoTrie) (hc : c ∈ typoChars)
    (ht : t.Proper (· ∈ typoChars)) (o : Nat)
    (hloc : Located data o ((chainOf c t).1.map typoCode ++ [0]))
    (h : Encodes data (o+(chainOf c t).1.length+1) (chainOf c t).2) :
    Encodes data o (.node none [(c,t)]) := by
  induction c, t using chainOf.induct generalizing o with
  | case1 c c' t ih =>
    rw [chainOf] at hloc h
    obtain ⟨hc', ht'⟩ := ht.child (List.mem_singleton.mpr rfl)
    have hhead : data[o]? = some (typoCode c) := hloc.get (j := 0) rfl
    have hrest : Located data (o+1) ((chainOf c' t).1.map typoCode ++ [0]) := by
      obtain ⟨rest, hrest⟩ := hloc
      refine ⟨rest, ?_⟩
      rw [← List.drop_drop, ← hrest]
      rfl
    rw [List.length_cons, Nat.add_assoc o, Nat.add_comm _ 1, ← Nat.add_assoc o] at h
    have hrec := ih hc' ht' (o+1) hrest h
    obtain ⟨b, hb, hnode, -⟩ := hrec.mark
    exact .chain hc hhead hb (hnode rfl).2 rfl hrec
  | case2 c t hother =>
    rw [chainOf] at hloc h
    · exact .chainEnd hc (hloc.get (j := 0) rfl) (hloc.get (j := 1) rfl) h
    · exact hother
    · exact hother

theorem serializeBranch_get (offset : Nat → Nat) (mark : UInt8) (xs : List (Char × Nat)) :
    (∀ j x, xs[j]? = some x →
      (serializeBranch offset mark xs)[3*j]?
          = some (typoCode x.1 ||| if j = 0 then mark else 0)
        ∧ (serializeBranch offset mark xs)[3*j+1]? = some (UInt8.ofNat (offset x.2 % 256))
        ∧ (serializeBranch offset mark xs)[3*j+2]? = some (UInt8.ofNat (offset x.2/256)))
      ∧ (serializeBranch offset mark xs)[3*xs.length]? = some 0 := by
  induction xs generalizing mark with
  | nil => exact ⟨fun j x hx => by simp at hx, rfl⟩
  | cons y xs ih =>
    obtain ⟨c, link⟩ := y
    obtain ⟨hget, hend⟩ := ih 0
    have hshift : ∀ i, (serializeBranch offset mark ((c,link) :: xs))[i+3]?
        = (serializeBranch offset 0 xs)[i]? := fun i => rfl
    refine ⟨fun j x hx => ?_, ?_⟩
    · cases j with
      | zero =>
        obtain rfl := Option.some.inj hx
        exact ⟨rfl, rfl, rfl⟩
      | succ j =>
        obtain ⟨h₀, h₁, h₂⟩ := hget j x hx
        rw [show 3*(j+1) = 3*j+3 by omega, show 3*j+3+1 = 3*j+1+3 by omega,
          show 3*j+3+2 = 3*j+2+3 by omega, hshift, hshift, hshift]
        refine ⟨?_, h₁, h₂⟩
        rw [h₀, if_neg (Nat.succ_ne_zero j)]
        simp
    · rw [List.length_cons, show 3*(xs.length+1) = 3*xs.length+3 by omega, hshift]
      exact hend

theorem traverseAll_spec {f : Nat → TypoTrie → Option (List Entry)} {n : Nat}
    {xs : List (Char × TypoTrie)} {links : List Nat} {entries : List Entry}
    (h : traverseAll f n xs = some (links,entries)) :
    links.length = xs.length ∧ ∀ (j : Nat) (x : Char × TypoTrie), xs[j]? = some x →
      ∃ link part, links[j]? = some link
      ∧ f link x.2 = some part
      ∧ ∀ table, Within table n entries → Within table link part := by
  induction xs generalizing n links entries with
  | nil =>
    obtain ⟨rfl, rfl⟩ := Prod.mk.inj (Option.some.inj h)
    exact ⟨rfl, fun j x hx => by simp at hx⟩
  | cons y xs ih =>
    obtain ⟨c, t⟩ := y
    obtain ⟨part, hpart, hrest⟩ := Option.bind_eq_some_iff.mp h
    obtain ⟨r, hr, heq⟩ := Option.map_eq_some_iff.mp hrest
    obtain ⟨rfl, rfl⟩ := Prod.mk.inj heq
    obtain ⟨hlen, hall⟩ := ih hr
    refine ⟨by simp [hlen], fun j x hx => ?_⟩
    cases j with
    | zero =>
      obtain rfl := Option.some.inj hx
      refine ⟨n, part, rfl, hpart, fun table hw j e hj => hw j e ?_⟩
      rw [List.getElem?_append_left (List.getElem?_eq_some_iff.mp hj).1]
      exact hj
    | succ j =>
      obtain ⟨link, part', hlink, hf, hw⟩ := hall j x hx
      refine ⟨link, part', hlink, hf, fun table hin => hw table fun i e hi => ?_⟩
      rw [Nat.add_assoc]
      refine hin _ e ?_
      rw [List.getElem?_append_right (Nat.le_add_right _ _), Nat.add_sub_cancel_left]
      exact hi

theorem traverse_ne_nil {fuel n : Nat} {t : TypoTrie} {entries : List Entry}
    (h : traverse fuel n t = some entries) : entries ≠ [] := by
  unfold traverse at h
  split at h
  · cases h
  · obtain ⟨_, -, rfl⟩ := Option.map_eq_some_iff.mp h
    simp
  · cases h
  · obtain ⟨_, -, rfl⟩ := Option.map_eq_some_iff.mp h
    simp
  · obtain ⟨_, -, rfl⟩ := Option.map_eq_some_iff.mp h
    simp

theorem traverse_encodes {table : List Entry} {data : List UInt8} {offset : Nat → Nat}
    (hl : Laid table data offset) {fuel n : Nat} {t : TypoTrie} {entries : List Entry}
    (h : traverse fuel n t = some entries) (hw : Within table n entries)
    (ht : t.Proper (· ∈ typoChars)) : Encodes data (offset n) t := by
  induction fuel generalizing n t entries with
  | zero => cases h
  | succ fuel ih =>
    obtain ⟨l, ch⟩ := t
    cases l with
    | some e =>
      obtain ⟨bytes, hbytes, rfl⟩ := Option.map_eq_some_iff.mp h
      exact .leaf hbytes (hl.here n _ hw.head)
    | none =>
    match ch with
    | [] => cases h
    | [(c,u)] =>
      obtain ⟨rest, hrest, rfl⟩ := Option.map_eq_some_iff.mp h
      obtain ⟨hc, hu⟩ := ht.child (List.mem_singleton.mpr rfl)
      have hfinal := ih hrest hw.tail (chainOf_proper c u hu)
      obtain ⟨e, rest', rfl⟩ := List.exists_cons_of_ne_nil (traverse_ne_nil hrest)
      have hnext := hl.next n _ _ hw.head hw.tail.head
      simp only [serialize, List.length_append, List.length_map, List.length_singleton] at hnext
      rw [hnext] at hfinal
      exact chain_encodes c u hc hu _ (hl.here n _ hw.head) hfinal
    | x₀ :: y₀ :: others =>
      generalize hch : x₀ :: y₀ :: others = children at ht
      have hnil : children ≠ [] := hch ▸ List.cons_ne_nil _ _
      rw [traverse.eq_5 _ _ _ (by simp) (by simp), hch] at h
      obtain ⟨r, hr, rfl⟩ := Option.map_eq_some_iff.mp h
      generalize hsorted : children.insertionSort (fun x y : Char × TypoTrie => x.1 ≤ y.1)
          = sorted at hr hw
      have hperm : sorted.Perm children := hsorted ▸ List.perm_insertionSort _ _
      obtain ⟨links, rest⟩ := r
      obtain ⟨hlen, hall⟩ := traverseAll_spec hr
      have hloc := hl.here n _ hw.head
      simp only [serialize] at hloc
      obtain ⟨hget, hend⟩ := serializeBranch_get offset 64 ((sorted.map Prod.fst).zip links)
      cases ht with
      | node hnodup hP hrec =>
        have hzip : ∀ (j : Nat) (x : Char × TypoTrie) (link : Nat), sorted[j]? = some x →
            links[j]? = some link →
            ((sorted.map Prod.fst).zip links)[j]? = some (x.1,link) := fun j x link hx hlink => by
          rw [List.getElem?_zip_eq_some, List.getElem?_map, hx]
          exact ⟨rfl, hlink⟩
        refine .branch (fun j => offset (links.getD j 0)) hnodup hperm ?_ (fun j x hx => ?_) ?_
          (fun j x hx => ?_)
        · rintro rfl
          exact hnil (List.Perm.nil_eq hperm).symm
        · obtain ⟨link, part, hlink, hf, hin⟩ := hall j x hx
          obtain ⟨h₀, h₁, h₂⟩ := hget j _ (hzip j x link hx hlink)
          obtain ⟨e, part', rfl⟩ := List.exists_cons_of_ne_nil (traverse_ne_nil hf)
          have hd : links.getD j 0 = link := by simp [List.getD, hlink]
          rw [hd]
          exact ⟨hP x (hperm.mem_iff.mp (List.mem_of_getElem? hx)),
            hl.small link e (hin table hw.tail).head, hloc.get h₀, hloc.get h₁, hloc.get h₂⟩
        · have hlen' : ((sorted.map Prod.fst).zip links).length = sorted.length := by simp [hlen]
          rw [hlen'] at hend
          exact hloc.get hend
        · obtain ⟨link, part, hlink, hf, hin⟩ := hall j x hx
          have hd : links.getD j 0 = link := by simp [List.getD, hlink]
          rw [hd]
          exact ih hf (hin table hw.tail) (hrec x (hperm.mem_iff.mp (List.mem_of_getElem? hx)))

theorem serializeBranch_length (f : Nat → Nat) (mark : UInt8) (xs : List (Char × Nat)) :
    (serializeBranch f mark xs).length = 3*xs.length+1 := by
  induction xs generalizing mark with
  | nil => rfl
  | cons x xs ih =>
    rw [serializeBranch, List.length_append, ih, List.length_cons, List.length_cons]
    simp only [encodeLink, List.length_cons, List.length_nil]
    omega

theorem serialize_length (f g : Nat → Nat) (e : Entry) :
    (serialize f e).length = (serialize g e).length := by
  cases e with
  | leaf => rfl
  | chain => rfl
  | branch => simp only [serialize, serializeBranch_length]

theorem byteOffsets_spec {table : List Entry} {o : Nat} {offsets : List Nat}
    (h : byteOffsets o table = some offsets) (ho : o < 2^16) (f : Nat → Nat) :
    (∀ (i : Nat) (e : Entry), table[i]? = some e →
        offsets.getD i 0 = o+((table.take i).flatMap (serialize f)).length)
      ∧ o+(table.flatMap (serialize f)).length < 2^16 := by
  induction table generalizing o offsets with
  | nil => exact ⟨fun i e he => by simp at he, ho⟩
  | cons x xs ih =>
    simp only [byteOffsets] at h
    split at h
    · rename_i hnext
      obtain ⟨rest, hrest, rfl⟩ := Option.map_eq_some_iff.mp h
      obtain ⟨hall, htotal⟩ := ih hrest (by omega)
      have hx := serialize_length (fun _ => 0) f x
      refine ⟨fun i e he => ?_, ?_⟩
      · cases i with
        | zero => simp
        | succ i =>
          have hi := hall i e he
          rw [List.take_succ_cons, List.flatMap_cons, List.length_append]
          rw [List.getD_cons_succ, hi, hx, Nat.add_assoc]
      · rw [List.flatMap_cons, List.length_append]
        omega
    · cases h

theorem laid_of_byteOffsets {table : List Entry} {offsets : List Nat}
    (h : byteOffsets 0 table = some offsets) :
    Laid table (table.flatMap (serialize fun i => offsets.getD i 0)) (fun i => offsets.getD i 0)
      ∧ (table.flatMap (serialize fun i => offsets.getD i 0)).length < 2^16 := by
  generalize hf : (fun i => offsets.getD i 0) = f
  obtain ⟨hall, htotal⟩ := byteOffsets_spec h (by decide) f
  rw [Nat.zero_add] at htotal
  have hoff : ∀ (i : Nat) (e : Entry), table[i]? = some e →
      f i = ((table.take i).flatMap (serialize f)).length := fun i e he => by
    rw [← hf]
    exact (hall i e he).trans (by rw [Nat.zero_add, hf])
  have hsplit : ∀ (i : Nat) (e : Entry), table[i]? = some e →
      table = table.take i ++ e :: table.drop (i+1) := fun i e he => by
    obtain ⟨hi, rfl⟩ := List.getElem?_eq_some_iff.mp he
    rw [← List.drop_eq_getElem_cons hi, List.take_append_drop]
  refine ⟨⟨fun i e he => ?_, fun i e e' he he' => ?_, fun i e he => ?_⟩, htotal⟩
  · refine ⟨(table.drop (i+1)).flatMap (serialize f), ?_⟩
    conv_rhs => rw [hsplit i e he]
    rw [List.flatMap_append, hoff i e he, List.drop_left, List.flatMap_cons]
  · rw [hoff _ _ he', hoff _ _ he, List.take_add_one, he]
    simp [List.flatMap_append]
  · refine Nat.lt_of_le_of_lt ?_ htotal
    conv_rhs => rw [hsplit i e he]
    rw [hoff i e he, List.flatMap_append, List.length_append]
    exact Nat.le_add_right _ _

theorem serializeTrie_encodes {fuel : Nat} {trie : TypoTrie} {data : List UInt8}
    (h : serializeTrie fuel trie = some data) (ht : trie.Proper (· ∈ typoChars)) :
    Encodes data 0 trie ∧ data.length < 2^16 := by
  obtain ⟨table, htable, h⟩ := Option.bind_eq_some_iff.mp h
  obtain ⟨offsets, hoffsets, rfl⟩ := Option.map_eq_some_iff.mp h
  obtain ⟨hlaid, hsmall⟩ := laid_of_byteOffsets hoffsets
  have hroot := traverse_encodes hlaid htable (fun j e hj => by rw [Nat.zero_add]; exact hj) ht
  obtain ⟨e, rest, rfl⟩ := List.exists_cons_of_ne_nil (traverse_ne_nil htable)
  have hzero := (byteOffsets_spec hoffsets (by decide) fun _ => 0).1 0 e rfl
  simp only [List.take_zero, List.flatMap_nil, List.length_nil, Nat.add_zero] at hzero
  rw [hzero] at hroot
  exact ⟨hroot, hsmall⟩

end QmkFirmware.Autocorrect
