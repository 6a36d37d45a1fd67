import Mathlib.Data.List.Pairwise
import QmkFirmware.Autocorrect.Table

/-!
The dictionary behind the trie: of the typos at most one ends the keys, and the trie finds it. The
parts of a typo between its word breaks.
-/

set_option autoImplicit false

namespace QmkFirmware.Autocorrect

theorem makeTrie_proper {autocorrections : List Autocorrection} (h : Accepted autocorrections) :
    (makeTrie autocorrections).Proper (· ∈ typoChars) := by
  have hfold : ∀ (es : List Autocorrection) (t : TypoTrie), (∀ e ∈ es, e ∈ autocorrections) →
      t.Proper (· ∈ typoChars) →
      (es.foldl (fun trie e => trie.insert e.1.reverse e) t).Proper (· ∈ typoChars) := by
    intro es
    induction es with
    | nil => exact fun t _ ht => ht
    | cons e es ih =>
      intro t hmem ht
      refine ih _ (fun e' he' => hmem e' (List.mem_cons_of_mem _ he')) ?_
      refine Trie.Proper.insert (fun c hc => ?_) e ht
      exact h.letters e (hmem e List.mem_cons_self) c (List.mem_reverse.mp hc)
  exact hfold autocorrections .empty (fun _ he => he) Trie.proper_empty

theorem makeTrie_get {autocorrections : List Autocorrection} (h : Accepted autocorrections)
    (path : List Char) (e : Autocorrection) :
    (makeTrie autocorrections).get path = some e ↔ e ∈ autocorrections ∧ e.1.reverse = path := by
  have hdistinct : autocorrections.Pairwise fun e f => e.1.reverse ≠ f.1.reverse :=
    h.apart.imp fun {e f} hap heq => by
      have : e.1 = f.1 := List.reverse_inj.mp heq
      exact hap.1 (this ▸ List.infix_refl _)
  rw [makeTrie, Trie.get_foldl_insert (fun e : Autocorrection => e.1.reverse) _ hdistinct]
  simp

theorem Accepted.unique {autocorrections : List Autocorrection} (h : Accepted autocorrections)
    {keys : List Char} {e f : Autocorrection} (he : e ∈ autocorrections)
    (hf : f ∈ autocorrections) (hek : e.1 <:+ keys) (hfk : f.1 <:+ keys) : e = f := by
  by_contra hne
  have : Std.Symm fun e f : Autocorrection => ¬ e.1 <:+: f.1 ∧ ¬ f.1 <:+: e.1 :=
    ⟨fun _ _ hef => ⟨hef.2, hef.1⟩⟩
  have hap := h.apart.forall he hf hne
  rcases List.suffix_or_suffix_of_suffix hek hfk with hs | hs
  · exact hap.1 hs.isInfix
  · exact hap.2 hs.isInfix

theorem makeTrie_find {autocorrections : List Autocorrection} (h : Accepted autocorrections)
    (keys : List Char) (e : Autocorrection) :
    (makeTrie autocorrections).find keys.reverse = some e
      ↔ e ∈ autocorrections ∧ e.1 <:+ keys := by
  have hfound : ∀ f, (makeTrie autocorrections).find keys.reverse = some f →
      f ∈ autocorrections ∧ f.1 <:+ keys := fun f hf => by
    obtain ⟨path, hpath, hget⟩ := Trie.find_some hf
    obtain ⟨hmem, rfl⟩ := (makeTrie_get h path f).mp hget
    exact ⟨hmem, List.reverse_prefix.mp hpath⟩
  refine ⟨hfound e, fun ⟨he, hek⟩ => ?_⟩
  obtain ⟨f, hf⟩ := Trie.find_of_get (List.reverse_prefix.mpr hek)
    ((makeTrie_get h e.1.reverse e).mpr ⟨he, rfl⟩)
  obtain ⟨hfm, hfk⟩ := hfound f hf
  rw [hf, h.unique hfm he hfk hek]

theorem makeTrie_root {autocorrections : List Autocorrection} (h : Accepted autocorrections) :
    (makeTrie autocorrections).leaf = none := by
  cases hl : (makeTrie autocorrections).leaf with
  | none => rfl
  | some e =>
    obtain ⟨he, hnil⟩ := (makeTrie_get h [] e).mp hl
    exact absurd (List.reverse_eq_nil_iff.mp hnil) (h.nonempty e he)

theorem exists_chars {keys : List UInt8} (h : ∀ k ∈ keys, TypoKey k) :
    ∃ chars : List Char, (∀ c ∈ chars, c ∈ typoChars) ∧ chars.map typoCode = keys := by
  induction keys with
  | nil => exact ⟨[], fun c hc => absurd hc List.not_mem_nil, rfl⟩
  | cons k keys ih =>
    obtain ⟨c, hc, hk⟩ := (typoKey_iff k).mp (h k List.mem_cons_self)
    obtain ⟨chars, hchars, hmap⟩ := ih fun j hj => h j (List.mem_cons_of_mem _ hj)
    refine ⟨c :: chars, fun d hd => ?_, by rw [List.map_cons, hk, hmap]⟩
    rcases List.mem_cons.mp hd with rfl | hd
    · exact hc
    · exact hchars d hd

theorem map_typoCode_inj {xs ys : List Char} (hx : ∀ c ∈ xs, c ∈ typoChars)
    (hy : ∀ c ∈ ys, c ∈ typoChars) (h : xs.map typoCode = ys.map typoCode) : xs = ys := by
  induction xs generalizing ys with
  | nil => exact (List.map_eq_nil_iff.mp h.symm).symm
  | cons x xs ih =>
    cases ys with
    | nil => cases h
    | cons y ys =>
      obtain ⟨hhead, htail⟩ := List.cons.inj h
      rw [typoCode_inj x (hx x List.mem_cons_self) y (hy y List.mem_cons_self) hhead,
        ih (fun c hc => hx c (List.mem_cons_of_mem _ hc))
          (fun c hc => hy c (List.mem_cons_of_mem _ hc)) htail]

theorem map_typoCode_suffix {typo chars : List Char} (ht : ∀ c ∈ typo, c ∈ typoChars)
    (hc : ∀ c ∈ chars, c ∈ typoChars) :
    typo.map typoCode <:+ chars.map typoCode ↔ typo <:+ chars := by
  refine ⟨fun ⟨front, hfront⟩ => ?_, fun h => h.map _⟩
  obtain ⟨before, after, rfl, -, hafter⟩ := List.map_eq_append_iff.mp hfront.symm
  have heq := map_typoCode_inj (fun c h => hc c (List.mem_append_right _ h)) ht hafter
  exact ⟨before, by rw [heq]⟩

theorem takeWhile_colons (s : List Char) :
    s.takeWhile (· == ':') = List.replicate (s.takeWhile (· == ':')).length ':' :=
  List.eq_replicate_of_mem fun c hc => by simpa using List.mem_takeWhile_imp hc

theorem rtakeWhile_colons (s : List Char) :
    s.rtakeWhile (· == ':') = List.replicate (s.rtakeWhile (· == ':')).length ':' :=
  List.eq_replicate_of_mem fun c hc => by simpa using List.mem_rtakeWhile_imp hc

theorem typo_parts (typo : List Char) :
    (stripColons typo = [] ∧ ∀ c ∈ typo, c = ':') ∨
      ∃ l t, typo = List.replicate l ':' ++ stripColons typo ++ List.replicate t ':'
        ∧ stripColons typo ≠ [] ∧ (stripColons typo).head? ≠ some ':'
        ∧ (stripColons typo).getLast? ≠ some ':' := by
  have hfront := List.takeWhile_append_dropWhile (p := (· == ':')) (l := typo)
  have hback := List.rdropWhile_append_rtakeWhile (p := (· == ':'))
    (l := typo.dropWhile (· == ':'))
  by_cases hcore : stripColons typo = []
  · left
    refine ⟨hcore, fun c hc => ?_⟩
    have hall := List.rdropWhile_eq_nil_iff.mp hcore
    rw [← hfront] at hc
    rcases List.mem_append.mp hc with hc | hc
    · simpa using List.mem_takeWhile_imp hc
    · simpa using hall c hc
  · right
    refine ⟨(typo.takeWhile (· == ':')).length,
      ((typo.dropWhile (· == ':')).rtakeWhile (· == ':')).length, ?_, hcore, fun hhead => ?_,
      fun hlast => ?_⟩
    · rw [← takeWhile_colons, List.append_assoc, stripColons, ← rtakeWhile_colons, hback, hfront]
    · obtain ⟨c, rest, hc⟩ := List.exists_cons_of_ne_nil hcore
      rw [hc] at hhead
      obtain rfl := Option.some.inj hhead
      have hd : typo.dropWhile (· == ':')
          = ':' :: (rest ++ (typo.dropWhile (· == ':')).rtakeWhile (· == ':')) := by
        rw [← List.cons_append, ← hc]
        exact hback.symm
      have hnot := List.head?_dropWhile_not (· == ':') typo
      rw [hd] at hnot
      exact absurd hnot (by simp)
    · have hnot := List.rdropWhile_last_not (p := (· == ':')) _ hcore
      rw [List.getLast?_eq_some_getLast hcore, Option.some.injEq] at hlast
      exact hnot (beq_iff_eq.mpr hlast)

end QmkFirmware.Autocorrect
