import QmkFirmware.Autocorrect.Dictionary

/-!
The table against the dictionary: what the matcher finds, and what the screen shows after the
backspaces and the string of a leaf.
-/

set_option autoImplicit false

namespace QmkFirmware.Autocorrect

/-- `AUTOCORRECT_MIN_LENGTH`. -/
def minLength (autocorrections : List Autocorrection) : Nat :=
  (autocorrections.map fun e => e.1.length).min?.getD 0

/-- What a typo shows before its last key is sent: a word break may be any character. -/
def Shows (typo shown : List Char) : Prop :=
  List.Forall₂ (fun c s => c ≠ ':' → s = c) typo.dropLast shown

/-- The text on screen after the backspaces and the string of a leaf. -/
def applied (data : List UInt8) (state : Nat) (screen : List Char) : List Char :=
  screen.take (screen.length-backspacesAt data state)
    ++ (changesAt data state).map fun b => Char.ofNat b.toNat

def wordBreaks (typo : List Char) : Nat := (typo.dropLast.takeWhile (· == ':')).length

def Corrects (data : List UInt8) (state : Nat) (e : Autocorrection) : Prop :=
  ∀ before shown, Shows e.1 shown →
    applied data state (before ++ shown) = before ++ shown.take (wordBreaks e.1) ++ e.2

/-- The matcher stays in the table, finds what the dictionary has, and corrects it. -/
structure RoundTrips (autocorrections : List Autocorrection) (data typoBuffer : List UInt8) :
    Prop where
  inside : checkTypo data (minLength autocorrections) typoBuffer ≠ .outside
  finds : (∃ state, checkTypo data (minLength autocorrections) typoBuffer = .found state) ↔
    ∃ e ∈ autocorrections, e.1.map typoCode <:+ typoBuffer
  corrects : ∀ state, checkTypo data (minLength autocorrections) typoBuffer = .found state →
    ∀ e ∈ autocorrections, e.1.map typoCode <:+ typoBuffer → Corrects data state e

/-- `strip` takes every word break off the end of the typo, and one of them is counted back. The
string of a leaf ends at its first NUL. -/
def Clean (e : Autocorrection) : Prop :=
  ((∀ c ∈ e.1, c = ':') ∨ ¬ [':',':'] <:+ e.1) ∧ Char.ofNat 0 ∉ e.2

theorem commonLength_spec (a b : List Char) : commonLength a b ≤ a.length
    ∧ commonLength a b ≤ b.length
    ∧ a.take (commonLength a b) = b.take (commonLength a b) := by
  fun_induction commonLength a b with
  | case1 x as bs ih =>
    obtain ⟨ha, hb, htake⟩ := ih
    exact ⟨Nat.succ_le_succ ha, Nat.succ_le_succ hb, by simp [htake]⟩
  | case2 => simp
  | case3 => simp

theorem takeWhile_append_stop {α : Type} {p : α → Bool} {x : α} (hx : ¬ p x) (xs ys : List α) :
    (xs ++ x :: ys).takeWhile p = xs.takeWhile p := by
  induction xs with
  | nil => simp [hx]
  | cons y xs ih =>
    rw [List.cons_append, List.takeWhile_cons, List.takeWhile_cons, ih]

theorem ascii_roundTrip {c : Char} (h : c.toNat < 128) :
    Char.ofNat (UInt8.ofNat c.toNat).toNat = c := by
  have hc : (UInt8.ofNat c.toNat).toNat = c.toNat := by
    rw [UInt8.toNat_ofNat']
    omega
  rw [hc, Char.ofNat_toNat]

theorem ascii_zero {c : Char} (h : c.toNat < 128) :
    UInt8.ofNat c.toNat = 0 ↔ c = Char.ofNat 0 := by
  refine ⟨fun h0 => ?_, fun h0 => by rw [h0]; rfl⟩
  have hround := ascii_roundTrip h
  rw [h0] at hround
  exact hround.symm

theorem ascii_takeWhile {s : List Char} (h : ∀ c ∈ s, c.toNat < 128) :
    ((s.map fun c => UInt8.ofNat c.toNat).takeWhile fun b => b ≠ 0).map
        (fun b => Char.ofNat b.toNat) = s.takeWhile fun c => c ≠ Char.ofNat 0 := by
  induction s with
  | nil => rfl
  | cons c s ih =>
    have hc := h c List.mem_cons_self
    rw [List.map_cons, List.takeWhile_cons, List.takeWhile_cons]
    by_cases h0 : c = Char.ofNat 0
    · subst h0
      rfl
    · have hb := mt (ascii_zero hc).mp h0
      simp only [ne_eq, hb, h0, not_false_eq_true, decide_true, if_true, List.map_cons,
        ascii_roundTrip hc]
      exact congrArg _ (ih fun d hd => h d (List.mem_cons_of_mem _ hd))

theorem leaf_reads {data : List UInt8} {state : Nat} {typo correction : List Char}
    {bytes : List UInt8} (h : leafData typo correction = some bytes)
    (hloc : Located data state bytes) :
    (backspacesAt data state : Int)
        = (stripColons typo).length-commonLength (stripColons typo) correction-1
          +(if typo.getLast? = some ':' then 1 else 0)
      ∧ (changesAt data state).map (fun b => Char.ofNat b.toNat)
        = (correction.drop (commonLength (stripColons typo) correction)).takeWhile
          (· ≠ Char.ofNat 0) := by
  obtain ⟨n, hn, hcount, hascii, rfl⟩ := leafData_some h
  generalize correction.drop (commonLength (stripColons typo) correction) = rest at *
  refine ⟨?_, ?_⟩
  · have hb : data[state]? = some (UInt8.ofNat (n+128)) := hloc.get (j := 0) rfl
    rw [← hcount, backspacesAt, List.getD, hb, Option.getD_some, (leaf_mark n hn).2]
  · obtain ⟨more, hmore⟩ := hloc
    have hdrop : data.drop (state+1) = rest.map (fun c => UInt8.ofNat c.toNat) ++ 0 :: more := by
      rw [← List.drop_drop, ← hmore]
      simp
    rw [changesAt, hdrop, takeWhile_append_stop (by simp)]
    exact ascii_takeWhile hascii

theorem getLast?_replicate (front : List Char) (t : Nat) (h : front.getLast? ≠ some ':') :
    ((front ++ List.replicate t ':').getLast? = some ':' ↔ 0 < t)
      ∧ ([':',':'] <:+ front ++ List.replicate t ':' ↔ 2 ≤ t) := by
  match t with
  | 0 =>
    rw [List.replicate_zero, List.append_nil]
    refine ⟨⟨fun hl => absurd hl h, fun hl => absurd hl (Nat.lt_irrefl 0)⟩,
      ⟨fun ⟨front', hf⟩ => absurd ?_ h, fun hl => absurd hl (by decide)⟩⟩
    rw [← hf]
    simp
  | 1 =>
    refine ⟨⟨fun _ => Nat.one_pos, fun _ => by simp⟩,
      ⟨fun ⟨front', hf⟩ => absurd ?_ h, fun hl => absurd hl (by decide)⟩⟩
    have hcut : front = front' ++ [':'] := by
      have := congrArg List.dropLast hf
      simpa using this.symm
    rw [hcut]
    simp
  | t+2 =>
    have hrep : List.replicate (t+2) ':' = List.replicate t ':' ++ [':',':'] := by
      rw [List.replicate_add]
      rfl
    rw [hrep, ← List.append_assoc]
    exact ⟨⟨fun _ => Nat.succ_pos _, fun _ => by simp⟩,
      ⟨fun _ => Nat.le_add_left _ _, fun _ => List.suffix_append _ _⟩⟩

theorem wordBreaks_parts (l : Nat) {c : Char} (hc : c ≠ ':') (rest : List Char) :
    wordBreaks (List.replicate l ':' ++ c :: rest) = l := by
  rw [wordBreaks, List.dropLast_append_of_ne_nil (List.cons_ne_nil _ _)]
  cases rest with
  | nil => simp
  | cons d rest =>
    rw [List.dropLast_cons_of_ne_nil (List.cons_ne_nil _ _), takeWhile_append_stop (by simpa)]
    simp

/-- What the backspaces leave of a typo: its word breaks and what it has in common with the
correction, and all but one of the word breaks behind it. -/
theorem kept_length {typo correction : List Char} (hne : typo ≠ []) {n : Nat}
    (hn : (n : Int) = (stripColons typo).length-commonLength (stripColons typo) correction-1
      +(if typo.getLast? = some ':' then 1 else 0)) :
    n < typo.length
      ∧ wordBreaks typo+commonLength (stripColons typo) correction ≤ typo.length-1-n
      ∧ (typo.length-1-n = wordBreaks typo+commonLength (stripColons typo) correction
        ↔ (∀ c ∈ typo, c = ':') ∨ ¬ [':',':'] <:+ typo)
      ∧ (typo.dropLast.drop (wordBreaks typo)).take (commonLength (stripColons typo) correction)
        = (stripColons typo).take (commonLength (stripColons typo) correction) := by
  rcases typo_parts typo with ⟨hcore, hall⟩ | ⟨l, t, htypo, hcore, hhead, hlast⟩
  · have hend : typo.getLast? = some ':' := by
      rw [List.getLast?_eq_some_getLast hne, hall _ (List.getLast_mem hne)]
    have hbreaks : wordBreaks typo = typo.length-1 := by
      rw [wordBreaks, List.takeWhile_eq_self_iff.mpr, List.length_dropLast]
      exact fun c hc => by simpa using hall c (List.dropLast_subset _ hc)
    rw [hcore, if_pos hend] at hn
    have hlen := List.length_pos_iff.mpr hne
    have hzero : commonLength [] correction = 0 := rfl
    simp only [hzero, List.length_nil] at hn
    rw [hcore, hzero, hbreaks]
    exact ⟨by omega, by omega, ⟨fun _ => .inl hall, fun _ => by omega⟩, rfl⟩
  · obtain ⟨hcommon, -, -⟩ := commonLength_spec (stripColons typo) correction
    generalize commonLength (stripColons typo) correction = i at *
    generalize stripColons typo = core at *
    obtain ⟨c, rest, rfl⟩ := List.exists_cons_of_ne_nil hcore
    have hc : c ≠ ':' := fun h => hhead (by rw [h]; rfl)
    have hfront : (List.replicate l ':' ++ c :: rest).getLast? ≠ some ':' := by
      rw [List.getLast?_append_of_ne_nil _ hcore]
      exact hlast
    obtain ⟨hend, htwo⟩ := getLast?_replicate _ t hfront
    have hbreaks : wordBreaks typo = l := by
      rw [htypo, List.append_assoc, List.cons_append]
      exact wordBreaks_parts l hc _
    have hlen : typo.length = l+(c :: rest).length+t := by
      rw [htypo]
      simp only [List.length_append, List.length_replicate]
    have hnot : ¬ ∀ c ∈ typo, c = ':' := fun hall => hc (hall c (by rw [htypo]; simp))
    rw [← htypo] at hend htwo
    rw [hbreaks]
    have hpos : 0 < (c :: rest).length := Nat.succ_pos _
    have hcount : n < typo.length ∧ typo.length-1-n = l+i+(t-1) := by
      by_cases ht : 0 < t
      · rw [if_pos (hend.mpr ht)] at hn
        omega
      · rw [if_neg (mt hend.mp ht)] at hn
        omega
    refine ⟨hcount.1, by omega, ?_, ?_⟩
    · rw [htwo, or_iff_right hnot]
      omega
    · have hshort : l+i ≤ typo.length-1 := by omega
      rw [List.dropLast_eq_take, List.drop_take, List.take_take,
        Nat.min_eq_left (by omega), htypo, List.append_assoc, List.drop_append,
        List.length_replicate, Nat.sub_self, List.drop_zero, List.drop_of_length_le (by simp),
        List.nil_append, List.take_append_of_le_length hcommon]

theorem shows_letters {typo shown : List Char}
    (h : List.Forall₂ (fun c s => c ≠ ':' → s = c) typo shown) (hc : ':' ∉ typo) :
    shown = typo := by
  induction h with
  | nil => rfl
  | @cons c s typo shown hcs _ ih =>
    rw [hcs fun h => hc (h ▸ List.mem_cons_self), ih fun h => hc (List.mem_cons_of_mem _ h)]

theorem takeWhile_no_zero {s : List Char} (h : Char.ofNat 0 ∉ s) :
    s.takeWhile (· ≠ Char.ofNat 0) = s := by
  refine List.takeWhile_eq_self_iff.mpr fun c hc => ?_
  simp only [ne_eq, decide_eq_true_eq]
  exact fun h0 => h (h0 ▸ hc)

theorem corrects_iff {data : List UInt8} {state : Nat} {e : Autocorrection} {bytes : List UInt8}
    (hne : e.1 ≠ []) (hletters : ∀ c ∈ e.1, c ∈ typoChars) (hcolon : ':' ∉ e.2)
    (h : leafData e.1 e.2 = some bytes) (hloc : Located data state bytes) :
    Corrects data state e ↔ Clean e := by
  obtain ⟨hn, hchanges⟩ := leaf_reads h hloc
  obtain ⟨hlt, hle, honly, htake⟩ := kept_length hne hn
  obtain ⟨-, hi, hcommon⟩ := commonLength_spec (stripColons e.1) e.2
  rw [hcommon] at htake
  generalize commonLength (stripColons e.1) e.2 = i at *
  have happlied : ∀ before shown, Shows e.1 shown → applied data state (before ++ shown)
      = before ++ shown.take (e.1.length-1-backspacesAt data state)
        ++ (e.2.drop i).takeWhile (· ≠ Char.ofNat 0) := by
    intro before shown hshown
    have hlen : shown.length = e.1.length-1 := by
      rw [← hshown.length_eq, List.length_dropLast]
    have hkept : (before ++ shown).length-backspacesAt data state
        = before.length+(e.1.length-1-backspacesAt data state) := by
      rw [List.length_append]
      omega
    rw [applied, hchanges, hkept, List.take_length_add_append]
  constructor
  · intro hcorrects
    have hself : Shows e.1 e.1.dropLast := List.forall₂_same.mpr fun _ _ _ => rfl
    have heq := hcorrects [] _ hself
    rw [happlied [] _ hself, List.nil_append, List.nil_append] at heq
    have hclean : Char.ofNat 0 ∉ e.2 := fun hzero => by
      have hmem : Char.ofNat 0 ∈ e.1.dropLast.take (wordBreaks e.1) ++ e.2 :=
        List.mem_append_right _ hzero
      rw [← heq] at hmem
      rcases List.mem_append.mp hmem with hmem | hmem
      · have := hletters _ (List.dropLast_subset _ (List.mem_of_mem_take hmem))
        exact absurd this (by decide)
      · exact absurd (List.mem_takeWhile_imp hmem) (by simp)
    refine ⟨honly.mp ?_, hclean⟩
    have hlen := congrArg List.length heq
    rw [takeWhile_no_zero fun hmem => hclean (List.mem_of_mem_drop hmem)] at hlen
    simp only [List.length_append, List.length_take, List.length_drop, List.length_dropLast]
      at hlen
    omega
  · rintro ⟨hbreaks, hclean⟩ before shown hshown
    have hparts : (shown.drop (wordBreaks e.1)).take i = e.2.take i := by
      rw [← htake]
      refine shows_letters (List.forall₂_take _ (List.forall₂_drop _ hshown)) ?_
      rw [htake]
      exact fun hmem => hcolon (List.mem_of_mem_take hmem)
    rw [happlied before shown hshown, honly.mpr hbreaks,
      takeWhile_no_zero fun hmem => hclean (List.mem_of_mem_drop hmem), List.take_add, hparts]
    simp only [List.append_assoc, List.take_append_drop]

theorem minLength_le {autocorrections : List Autocorrection} {e : Autocorrection}
    (he : e ∈ autocorrections) : minLength autocorrections ≤ e.1.length :=
  List.min?_getD_le_of_mem (List.mem_map.mpr ⟨e, he, rfl⟩)

theorem checkTypo_agrees {autocorrections : List Autocorrection} (hd : Accepted autocorrections)
    {fuel : Nat} {data : List UInt8} (h : serializeTrie fuel (makeTrie autocorrections) = some data)
    {chars : List Char} (hc : ∀ c ∈ chars, c ∈ typoChars) :
    Agrees data (checkTypo data (minLength autocorrections) (chars.map typoCode))
      ((makeTrie autocorrections).find chars.reverse) := by
  obtain ⟨hroot, hlen⟩ := serializeTrie_encodes h (makeTrie_proper hd)
  rw [checkTypo, List.length_map]
  by_cases hshort : chars.length < minLength autocorrections
  · rw [if_pos hshort]
    cases hf : (makeTrie autocorrections).find chars.reverse with
    | none => rfl
    | some e =>
      obtain ⟨he, hek⟩ := (makeTrie_find hd chars e).mp hf
      exact absurd (hshort.trans_le (minLength_le he)) (Nat.not_lt.mpr hek.length_le)
  · obtain ⟨b, hb, -⟩ := hroot.mark
    rw [if_neg hshort, ← List.map_reverse]
    simp only [hb]
    exact walk_encodes hlen chars.reverse (fun c hmem => hc c (List.mem_reverse.mp hmem)) hroot
      (makeTrie_root hd) hb

theorem roundTrips_iff {autocorrections : List Autocorrection} (hd : Accepted autocorrections)
    (hcolon : ∀ e ∈ autocorrections, ':' ∉ e.2) {fuel : Nat} {data : List UInt8}
    (h : serializeTrie fuel (makeTrie autocorrections) = some data) {typoBuffer : List UInt8}
    (hk : ∀ k ∈ typoBuffer, TypoKey k) :
    RoundTrips autocorrections data typoBuffer ↔
      ∀ e ∈ autocorrections, e.1.map typoCode <:+ typoBuffer → Clean e := by
  obtain ⟨chars, hchars, rfl⟩ := exists_chars hk
  have hagrees := checkTypo_agrees hd h hchars
  have hsuffix : ∀ e ∈ autocorrections,
      (e.1.map typoCode <:+ chars.map typoCode ↔ e.1 <:+ chars) := fun e he =>
    map_typoCode_suffix (hd.letters e he) hchars
  cases hf : (makeTrie autocorrections).find chars.reverse with
  | none =>
    rw [hf] at hagrees
    have hno : ∀ e ∈ autocorrections, ¬ e.1.map typoCode <:+ chars.map typoCode := by
      intro e he hek
      have := (makeTrie_find hd chars e).mpr ⟨he, (hsuffix e he).mp hek⟩
      rw [hf] at this
      cases this
    refine ⟨fun _ e he hek => absurd hek (hno e he), fun _ => ⟨?_, ?_, ?_⟩⟩
    · rw [show checkTypo _ _ _ = _ from hagrees]
      exact Match.noConfusion
    · refine ⟨fun ⟨state, hstate⟩ => ?_, fun ⟨e, he, hek⟩ => absurd hek (hno e he)⟩
      rw [show checkTypo _ _ _ = _ from hagrees] at hstate
      cases hstate
    · exact fun _ _ e he hek => absurd hek (hno e he)
  | some e =>
    rw [hf] at hagrees
    obtain ⟨state, bytes, hfound, hdata, hloc⟩ := hagrees
    obtain ⟨he, hek⟩ := (makeTrie_find hd chars e).mp hf
    have honly : ∀ f ∈ autocorrections, f.1.map typoCode <:+ chars.map typoCode → f = e :=
      fun f hfm hfk => hd.unique hfm he ((hsuffix f hfm).mp hfk) hek
    have hiff := corrects_iff (hd.nonempty e he) (hd.letters e he) (hcolon e he) hdata hloc
    refine ⟨fun hrt f hfm hfk => ?_, fun hclean => ⟨?_, ?_, fun s hs f hfm hfk => ?_⟩⟩
    · obtain rfl := honly f hfm hfk
      exact hiff.mp (hrt.corrects state hfound f hfm hfk)
    · rw [hfound]
      exact Match.noConfusion
    · exact ⟨fun _ => ⟨e, he, (hsuffix e he).mpr hek⟩, fun _ => ⟨state, hfound⟩⟩
    · obtain rfl := honly f hfm hfk
      obtain rfl := Match.found.inj (hfound.symm.trans hs)
      exact hiff.mpr (hclean f hfm hfk)

/-- Two entries of the default dictionary. -/
def someTypos : List Autocorrection :=
  [("looses:".toList,"loses".toList), ("lenght".toList,"length".toList)]

theorem letters_of_all {autocorrections : List Autocorrection}
    (h : autocorrections.all fun e => e.1.all fun c => c ∈ typoChars) :
    ∀ e ∈ autocorrections, ∀ c ∈ e.1, c ∈ typoChars := fun e he =>
  List.all_iff_forall_prop.mp (List.all_eq_true.mp h e he)

theorem someTypos_accepted : Accepted someTypos where
  letters := letters_of_all (by decide +kernel)
  nonempty := by decide +kernel
  short := by decide +kernel
  apart := by decide +kernel

def someData : List UInt8 :=
  [0x6c,7,0,23,19,0,0,22,8,22,18,18,15,0,0x84,115,101,115,0,11,10,17,8,15,0,0x81,116,104,0]

def someBuffer : List UInt8 := [kcSpc,15,18,18,22,8,22,kcSpc]

theorem roundTrips_someTypos :
    serializeTrie 10 (makeTrie someTypos) = some someData
      ∧ RoundTrips someTypos someData someBuffer
      ∧ checkTypo someData (minLength someTypos) someBuffer = .found 14
      ∧ applied someData 14 " looses".toList = " loses".toList := by
  have hdata : serializeTrie 10 (makeTrie someTypos) = some someData := by decide +kernel
  have hclean : ∀ e ∈ someTypos,
      ((e.1.all (· == ':')) = true ∨ ¬ [':',':'] <:+ e.1) ∧ Char.ofNat 0 ∉ e.2 := by
    decide +kernel
  refine ⟨hdata, (roundTrips_iff someTypos_accepted (by decide +kernel) hdata
    (by decide +kernel)).mpr fun e he _ => ?_, by decide +kernel, by decide +kernel⟩
  obtain ⟨hbreaks, hzero⟩ := hclean e he
  exact ⟨hbreaks.imp_left fun hall c hc => by simpa using List.all_eq_true.mp hall c hc, hzero⟩

def doubleBreak : List Autocorrection := [("abc::".toList,"xyz".toList)]

def doubleBreakData : List UInt8 := [kcSpc,kcSpc,6,5,4,0,0x83,120,121,122,0]

/-- Typed as `abc` and two spaces: the screen shows `abc` and one of them, and three backspaces
leave the `a`. -/
theorem doubleBreak_keeps_letter :
    Accepted doubleBreak ∧ (∀ e ∈ doubleBreak, ':' ∉ e.2)
      ∧ serializeTrie 10 (makeTrie doubleBreak) = some doubleBreakData
      ∧ checkTypo doubleBreakData (minLength doubleBreak) [4,5,6,kcSpc,kcSpc] = .found 6
      ∧ Shows "abc::".toList "abc ".toList
      ∧ applied doubleBreakData 6 "abc ".toList = "axyz".toList
      ∧ ¬ RoundTrips doubleBreak doubleBreakData [4,5,6,kcSpc,kcSpc] := by
  have hfound : checkTypo doubleBreakData (minLength doubleBreak) [4,5,6,kcSpc,kcSpc]
    = .found 6 := by decide +kernel
  have hshows : Shows "abc::".toList "abc ".toList := by
    simp [Shows]
  have happlied : applied doubleBreakData 6 "abc ".toList = "axyz".toList := by decide +kernel
  have haccepted : Accepted doubleBreak := ⟨letters_of_all (by decide +kernel), by decide +kernel,
    by decide +kernel, List.pairwise_singleton _ _⟩
  refine ⟨haccepted, by decide +kernel, by decide +kernel, hfound, hshows, happlied, fun h => ?_⟩
  have hcorrect := h.corrects 6 hfound _ List.mem_cons_self (by decide +kernel) [] _ hshows
  rw [List.nil_append, happlied] at hcorrect
  revert hcorrect
  decide +kernel

end QmkFirmware.Autocorrect
