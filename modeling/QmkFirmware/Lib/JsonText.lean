import QmkFirmware.Lib.Json

/-!
Texts that stand for a JSON value: when a reader makes the value of them, and only then.
-/

set_option autoImplicit false

namespace QmkFirmware.Json

theorem canonItems_eq (items : List (Str × Value)) :
    canonItems items = items.map fun p => (p.1,canon p.2) := by
  induction items with
  | nil => rfl
  | cons p items ih => rw [canonItems, ih, List.map_cons]

theorem keys_canonItems (items : List (Str × Value)) :
    (canonItems items).map Prod.fst = items.map Prod.fst := by
  rw [canonItems_eq, List.map_map]
  rfl

section
variable {α : Type}

theorem sortItems_perm (items : List (Str × α)) : (sortItems items).Perm items :=
  List.perm_insertionSort _ _

theorem sortItems_pairwise (items : List (Str × α)) :
    (sortItems items).Pairwise fun p q => p.1 ≤ q.1 :=
  @List.pairwise_insertionSort _ (fun p q : Str × α => p.1 ≤ q.1) _
    ⟨fun p q => le_total p.1 q.1⟩ ⟨fun _ _ _ h h' => le_trans h h'⟩ items

theorem sortItems_congr {items items' : List (Str × α)} (h : items.Perm items')
    (hnodup : (items.map Prod.fst).Nodup) : sortItems items = sortItems items' := by
  have hperm : (sortItems items).Perm (sortItems items') :=
    ((sortItems_perm items).trans h).trans (sortItems_perm items').symm
  refine hperm.eq_of_pairwise (fun p q hp hq hle hge => ?_) (sortItems_pairwise items)
    (sortItems_pairwise items')
  have hp' := (sortItems_perm items).mem_iff.mp hp
  have hq' := ((sortItems_perm items').trans h.symm).mem_iff.mp hq
  exact List.inj_on_of_nodup_map hnodup hp' hq' (le_antisymm hle hge)

end

def Starts (t : List Char) : Prop :=
  ∃ ws c cs, t = ws ++ c :: cs ∧ ws.all isSpace = true ∧ isSpace c = false ∧ c ≠ ',' ∧ c ≠ ']' ∧
    c ≠ '}'

theorem Starts.append {t : List Char} (h : Starts t) (s : List Char) : Starts (t ++ s) := by
  obtain ⟨ws,c,cs,rfl,h⟩ := h
  exact ⟨ws,c,cs ++ s,by rw [List.append_assoc, List.cons_append],h⟩

theorem Starts.space {ws t : List Char} (hws : ws.all isSpace) (h : Starts t) :
    Starts (ws ++ t) := by
  obtain ⟨ws',c,cs,rfl,hws',h⟩ := h
  refine ⟨ws ++ ws',c,cs,by rw [List.append_assoc],?_,h⟩
  rw [List.all_append, hws, hws']
  rfl

theorem Starts.next_none {t : List Char} (h : Starts t) {d : Char}
    (hd : d = ',' ∨ d = ']' ∨ d = '}') : next d t = none := by
  obtain ⟨ws,c,cs,rfl,hws,hc,h⟩ := h
  rw [next_space hws]
  refine next_other hc ?_ cs
  rintro rfl
  rcases hd with rfl | rfl | rfl
  · exact h.1 rfl
  · exact h.2.1 rfl
  · exact h.2.2 rfl

/-- The hook keeps the items of an object with distinct keys. -/
def Keeps (hook : PairsHook) : Prop :=
  ∀ items : List (Str × Value), (items.map Prod.fst).Nodup → hook items = some items

def Strict (hook : PairsHook) : Prop := ∀ items items', hook items = some items' → items' = items

/-- The text is read as the value, whatever comes behind it. -/
def Reads (hook : PairsHook) (t : List Char) (w : Value) : Prop :=
  ∀ fuel rest, t.length < fuel → ends rest = true → value hook fuel (t ++ rest) = some (w,rest)

/-- Under the condition the text is read as the value, up to the order of items; and where it is
read so, the condition holds. -/
structure Writes (hook : PairsHook) (t : List Char) (v : Value) (C : Prop) : Prop where
  starts : Starts t
  reads : C → ∃ w, Reads hook t w ∧ canon w = canon v
  only : Strict hook → ∀ fuel rest w rest', t.length < fuel → ends rest = true →
    value hook fuel (t ++ rest) = some (w,rest') → canon w = canon v → C

structure WritesElements (hook : PairsHook) (s : List Char) (vs : List Value) (C : Prop) :
    Prop where
  starts : Starts s
  reads : C → ∃ ws, canonAll ws = canonAll vs ∧ ∀ fuel rest, s.length+2 ≤ fuel →
    elements hook fuel (s ++ ']' :: rest) = some (ws,rest)
  only : Strict hook → ∀ fuel rest ws rest', s.length+2 ≤ fuel →
    elements hook fuel (s ++ ']' :: rest) = some (ws,rest') → canonAll ws = canonAll vs → C

structure WritesMembers (hook : PairsHook) (s : List Char) (items : List (Str × Value))
    (C : Prop) : Prop where
  starts : Starts s
  reads : C → ∃ ws, canonItems ws = canonItems items ∧ ∀ fuel rest, s.length+2 ≤ fuel →
    members hook fuel (s ++ '}' :: rest) = some (ws,rest)
  only : Strict hook → (items.map Prod.fst).Nodup → ∀ fuel rest ws rest', s.length+2 ≤ fuel →
    members hook fuel (s ++ '}' :: rest) = some (ws,rest') →
    (canonItems ws).Perm (canonItems items) → C

section
variable {hook : PairsHook} {t s ws : List Char} {v v' : Value} {C C' : Prop}

theorem Writes.congr (h : Writes hook t v C) (hv : canon v = canon v') (hC : C ↔ C') :
    Writes hook t v' C' where
  starts := h.starts
  reads hc := by
    obtain ⟨w,hw,he⟩ := h.reads (hC.mpr hc)
    exact ⟨w,hw,he.trans hv⟩
  only hs fuel rest w rest' hf hr hval he :=
    hC.mp (h.only hs fuel rest w rest' hf hr hval (he.trans hv.symm))

theorem Writes.space (hws : ws.all isSpace) (h : Writes hook t v C) :
    Writes hook (ws ++ t) v C where
  starts := h.starts.space hws
  reads hc := by
    obtain ⟨w,hw,he⟩ := h.reads hc
    refine ⟨w,fun fuel rest hf hr => ?_,he⟩
    rw [List.length_append] at hf
    rw [List.append_assoc, value_space hws]
    exact hw fuel rest (by omega) hr
  only hs fuel rest w rest' hf hr hval he := by
    rw [List.length_append] at hf
    rw [List.append_assoc, value_space hws] at hval
    exact h.only hs fuel rest w rest' (by omega) hr hval he

theorem Writes.of_reads (hs : Starts t) (h : Reads hook t v) : Writes hook t v True where
  starts := hs
  reads _ := ⟨v,h,rfl⟩
  only _ _ _ _ _ _ _ _ _ := trivial

theorem value_quote (fuel : Nat) (cs : List Char) :
    value hook (fuel+1) ('"' :: cs) = (string cs).map fun r => (.str r.1,r.2) := by
  rw [value, next_self rfl]

theorem length_le_escape (s : Str) : s.length ≤ (s.flatMap escape).length := by
  induction s with
  | nil => exact Nat.le_refl 0
  | cons c s ih =>
    have hc : 0 < (escape c).length := by
      rcases escape_cases c with ⟨he,-⟩ | ⟨e,he,-⟩
      · rw [he]; exact Nat.one_pos
      · rw [he]; exact Nat.succ_pos _
    rw [List.flatMap_cons, List.length_append, List.length_cons]
    omega

theorem string_escape (s : Str) (rest : List Char) :
    string (s.flatMap escape ++ '"' :: rest) = some (s,rest) := by
  have hle := length_le_escape s
  exact chars_escape (by rw [List.length_append]; omega) rest

theorem reads_str (s : Str) : Reads hook (dumpsStr s) (.str s) := by
  intro fuel rest hf _
  obtain ⟨fuel,rfl⟩ := Nat.exists_eq_add_of_lt hf
  have happ : dumpsStr s ++ rest = '"' :: (s.flatMap escape ++ '"' :: rest) := by
    rw [dumpsStr, List.cons_append, List.append_assoc, List.singleton_append]
  rw [happ, value_quote, string_escape, Option.map_some]

theorem starts_quote (t : List Char) : Starts ('"' :: t) :=
  ⟨[],'"',t,rfl,rfl,by decide⟩

theorem writes_str (s : Str) : Writes hook (dumpsStr s) (.str s) True :=
  .of_reads (starts_quote _) (reads_str s)

/-- A value that is written with another first character than those of strings, lists and
objects. -/
theorem value_scalar {c : Char} (hc : isSpace c = false) (hne : c ≠ '"' ∧ c ≠ '[' ∧ c ≠ '{')
    (fuel : Nat) (cs : List Char) : value hook (fuel+1) (c :: cs) = scalar (c :: cs) := by
  rw [value, next_other hc hne.1, next_other hc hne.2.1, next_other hc hne.2.2, skip_cons hc]

theorem writes_int (n : Int) : Writes hook (dumpsInt n) (.int n) True := by
  obtain ⟨c,cs,hc,hfirst⟩ := dumpsInt_cons n
  have hspace : isSpace c = false := by
    rcases hfirst with rfl | hd
    · rfl
    · cases hs : isSpace c with
      | false => rfl
      | true =>
        simp only [isSpace, Bool.or_eq_true, decide_eq_true_eq] at hs
        rcases hs with ((rfl | rfl) | rfl) | rfl <;> exact absurd hd (by decide)
  have hne : ∀ d, d ≠ '-' → d.isDigit = false → c ≠ d := by
    rintro d hd hdigit rfl
    rcases hfirst with rfl | h
    · exact hd rfl
    · rw [hdigit] at h
      exact absurd h (by decide)
  refine .of_reads ⟨[],c,cs,hc,rfl,hspace,hne _ (by decide) (by decide),
    hne _ (by decide) (by decide),hne _ (by decide) (by decide)⟩ fun fuel rest hf hr => ?_
  have hread := scalar_int n hr
  obtain ⟨fuel,rfl⟩ := Nat.exists_eq_add_of_lt hf
  rw [hc] at hread ⊢
  rw [List.cons_append] at hread ⊢
  rw [value_scalar hspace ⟨hne _ (by decide) (by decide),hne _ (by decide) (by decide),
    hne _ (by decide) (by decide)⟩, hread]

theorem writes_word {c : Char} {cs : List Char} (hspace : isSpace c = false)
    (hne : (c ≠ ',' ∧ c ≠ ']' ∧ c ≠ '}') ∧ c ≠ '"' ∧ c ≠ '[' ∧ c ≠ '{')
    (hread : ∀ rest, scalar (c :: cs ++ rest) = some (v,rest)) :
    Writes hook (c :: cs) v True :=
  .of_reads ⟨[],c,cs,rfl,rfl,hspace,hne.1⟩ fun fuel rest hf _ => by
    obtain ⟨fuel,rfl⟩ := Nat.exists_eq_add_of_lt hf
    rw [List.cons_append, value_scalar hspace hne.2]
    exact hread rest

theorem writes_bool (b : Bool) : Writes hook (dumpsBool b) (.bool b) True := by
  cases b with
  | true => exact writes_word rfl (by decide) fun _ => rfl
  | false => exact writes_word rfl (by decide) fun _ => rfl

theorem writes_null : Writes hook dumpsNull .null True :=
  writes_word rfl (by decide) fun _ => rfl

theorem writes_raw (s : Str) : Writes hook ('"' :: (s ++ ['"'])) (.str s) (plain s) where
  starts := starts_quote _
  reads hp := by
    refine ⟨.str s,fun fuel rest hf _ => ?_,rfl⟩
    obtain ⟨fuel,rfl⟩ := Nat.exists_eq_add_of_lt hf
    have hread : string (s ++ '"' :: rest) = some (s,rest) :=
      chars_plain hp (by rw [List.length_append]; omega) rest
    rw [List.cons_append, List.append_assoc, List.singleton_append, value_quote, hread,
      Option.map_some]
  only _ fuel rest w rest' hf _ hval he := by
    obtain ⟨fuel,rfl⟩ := Nat.exists_eq_add_of_lt hf
    rw [List.cons_append, List.append_assoc, List.singleton_append, value_quote,
      Option.map_eq_some_iff] at hval
    obtain ⟨⟨s',r⟩,hs,hw⟩ := hval
    obtain ⟨rfl,rfl⟩ := Prod.mk.inj hw
    have hss : s' = s := Value.str.inj he
    rw [hss] at hs
    exact chars_raw hs

theorem writes_quoted (s : Str) (h : ∀ s', canon v ≠ .str s') :
    Writes hook ('"' :: (s ++ ['"'])) v False where
  starts := starts_quote _
  reads hf := hf.elim
  only _ fuel rest w rest' hf _ hval he := by
    obtain ⟨fuel,rfl⟩ := Nat.exists_eq_add_of_lt hf
    rw [List.cons_append, value_quote, Option.map_eq_some_iff] at hval
    obtain ⟨⟨s',r⟩,-,hw⟩ := hval
    obtain ⟨rfl,rfl⟩ := Prod.mk.inj hw
    exact h s' he.symm

variable {vs : List Value}

theorem value_list (h : Starts s) (fuel : Nat) (cs : List Char) :
    value hook (fuel+1) ('[' :: (s ++ cs)) =
      (elements hook fuel (s ++ cs)).map fun r => (.list r.1,r.2) := by
  rw [value, next_other rfl (by decide), next_self rfl]
  dsimp only
  rw [(h.append cs).next_none (Or.inr (Or.inl rfl))]

theorem WritesElements.list (h : WritesElements hook s vs C) :
    Writes hook ('[' :: (s ++ [']'])) (.list vs) C where
  starts := ⟨[],'[',_,rfl,rfl,by decide⟩
  reads hc := by
    obtain ⟨ws,hws,hread⟩ := h.reads hc
    refine ⟨.list ws,fun fuel rest hf _ => ?_,by rw [canon, canon, hws]⟩
    obtain ⟨fuel,rfl⟩ := Nat.exists_eq_add_of_lt hf
    rw [List.cons_append, List.append_assoc, List.singleton_append, value_list h.starts, hread]
    · rfl
    · simp only [List.length_cons, List.length_append, List.length_nil]
      omega
  only hs fuel rest w rest' hf _ hval he := by
    obtain ⟨fuel,rfl⟩ := Nat.exists_eq_add_of_lt hf
    rw [List.cons_append, List.append_assoc, List.singleton_append, value_list h.starts,
      Option.map_eq_some_iff] at hval
    obtain ⟨⟨ws,r⟩,hread,hw⟩ := hval
    obtain ⟨rfl,rfl⟩ := Prod.mk.inj hw
    rw [canon, canon] at he
    refine h.only hs _ _ ws r ?_ hread (Value.list.inj he)
    simp only [List.length_cons, List.length_append, List.length_nil]
    omega

theorem writes_empty_list (hws : ws.all isSpace) :
    Writes hook ('[' :: (ws ++ [']'])) (.list []) True :=
  .of_reads ⟨[],'[',_,rfl,rfl,by decide⟩ fun fuel rest hf _ => by
    obtain ⟨fuel,rfl⟩ := Nat.exists_eq_add_of_lt hf
    rw [List.cons_append, List.append_assoc, List.singleton_append, value,
      next_other rfl (by decide), next_self rfl]
    dsimp only
    rw [next_space hws, next_self rfl]

theorem WritesElements.congr (h : WritesElements hook s vs C) (hC : C ↔ C') :
    WritesElements hook s vs C' :=
  ⟨h.starts,fun hc => h.reads (hC.mpr hc),fun hs fuel rest us rest' hf hread he =>
    hC.mp (h.only hs fuel rest us rest' hf hread he)⟩

theorem WritesElements.space (hws : ws.all isSpace) (h : WritesElements hook s vs C) :
    WritesElements hook (ws ++ s) vs C where
  starts := h.starts.space hws
  reads hc := by
    obtain ⟨us,hus,hread⟩ := h.reads hc
    refine ⟨us,hus,fun fuel rest hf => ?_⟩
    rw [List.length_append] at hf
    rw [List.append_assoc, elements_space hws]
    exact hread fuel rest (by omega)
  only hs fuel rest us rest' hf hread he := by
    rw [List.length_append] at hf
    rw [List.append_assoc, elements_space hws] at hread
    exact h.only hs fuel rest us rest' (by omega) hread he

theorem ends_append (h : ends (t ++ [']']) = true) (rest : List Char) :
    ends (t ++ ']' :: rest) = true := by
  cases t with
  | nil => rfl
  | cons c t => exact h

theorem elements_some {fuel : Nat} {cs rest : List Char} {us : List Value}
    (h : elements hook (fuel+1) cs = some (us,rest)) :
    ∃ w r us', value hook fuel cs = some (w,r) ∧ us = w :: us' ∧
      ((∃ cs', next ',' r = some cs' ∧ elements hook fuel cs' = some (us',rest)) ∨
        next ',' r = none ∧ next ']' r = some rest) := by
  rw [elements, Option.bind_eq_some_iff] at h
  obtain ⟨⟨w,r⟩,hval,h⟩ := h
  dsimp only at h
  cases hnext : next ',' r with
  | some cs' =>
    rw [hnext] at h
    obtain ⟨⟨us',r'⟩,hrest,he⟩ := Option.map_eq_some_iff.mp h
    obtain ⟨rfl,rfl⟩ := Prod.mk.inj he
    exact ⟨w,r,us',hval,rfl,Or.inl ⟨cs',hnext,hrest⟩⟩
  | none =>
    rw [hnext] at h
    obtain ⟨r',hrest,he⟩ := Option.map_eq_some_iff.mp h
    obtain ⟨rfl,rfl⟩ := Prod.mk.inj he
    exact ⟨w,r,[],hval,rfl,Or.inr ⟨hnext,hrest⟩⟩

theorem Writes.read_back (h : Writes hook t v C) (hs : Strict hook) {fuel : Nat}
    {rest r : List Char} {w : Value} (hf : t.length < fuel) (hr : ends rest = true)
    (hval : value hook fuel (t ++ rest) = some (w,r)) (he : canon w = canon v) :
    C ∧ r = rest := by
  have hc := h.only hs fuel rest w r hf hr hval he
  obtain ⟨w',hw',-⟩ := h.reads hc
  have hread := (hw' fuel rest hf hr).symm.trans hval
  exact ⟨hc,(Prod.mk.inj (Option.some.inj hread)).2.symm⟩

theorem canonAll_cons {w : Value} {us : List Value} :
    canonAll (w :: us) = canonAll (v :: vs) ↔ canon w = canon v ∧ canonAll us = canonAll vs := by
  rw [canonAll, canonAll, List.cons.injEq]

theorem Writes.last (h : Writes hook t v C) (hws : ws.all isSpace) (hends : ends (ws ++ [']'])) :
    WritesElements hook (t ++ ws) [v] C where
  starts := h.starts.append ws
  reads hc := by
    obtain ⟨w,hw,he⟩ := h.reads hc
    refine ⟨[w],canonAll_cons.mpr ⟨he,rfl⟩,fun fuel rest hf => ?_⟩
    rw [List.length_append] at hf
    obtain ⟨fuel,rfl⟩ := Nat.exists_eq_add_of_le hf
    rw [List.append_assoc, Nat.add_right_comm, elements, hw _ _ (by omega) (ends_append hends rest),
      Option.bind_some]
    dsimp only
    rw [next_space hws, next_space hws, next_other rfl (by decide), next_self rfl, Option.map_some]
  only hs fuel rest us rest' hf hread he := by
    rw [List.length_append] at hf
    obtain ⟨fuel,rfl⟩ := Nat.exists_eq_add_of_le hf
    rw [List.append_assoc, Nat.add_right_comm] at hread
    obtain ⟨w,r,us',hval,rfl,-⟩ := elements_some hread
    exact h.only hs _ _ w r (by omega) (ends_append hends rest) hval (canonAll_cons.mp he).1

theorem Writes.cons (h : Writes hook t v C) (hs : WritesElements hook s vs C') :
    WritesElements hook (t ++ ',' :: s) (v :: vs) (C ∧ C') where
  starts := h.starts.append _
  reads hc := by
    obtain ⟨w,hw,he⟩ := h.reads hc.1
    obtain ⟨us,hus,hread⟩ := hs.reads hc.2
    refine ⟨w :: us,canonAll_cons.mpr ⟨he,hus⟩,fun fuel rest hf => ?_⟩
    rw [List.length_append, List.length_cons] at hf
    obtain ⟨fuel,rfl⟩ := Nat.exists_eq_add_of_le hf
    rw [List.append_assoc, Nat.add_right_comm, elements, hw _ _ (by omega) rfl, Option.bind_some]
    dsimp only
    rw [List.cons_append, next_self rfl]
    dsimp only
    rw [hread _ _ (by omega), Option.map_some]
  only hstrict fuel rest us rest' hf hread he := by
    rw [List.length_append, List.length_cons] at hf
    obtain ⟨fuel,rfl⟩ := Nat.exists_eq_add_of_le hf
    rw [List.append_assoc, Nat.add_right_comm] at hread
    obtain ⟨w,r,us',hval,rfl,hrest⟩ := elements_some hread
    obtain ⟨hw,hus⟩ := canonAll_cons.mp he
    obtain ⟨hc,rfl⟩ := h.read_back hstrict (by omega) rfl hval hw
    rw [List.cons_append, next_self rfl] at hrest
    rcases hrest with ⟨cs,hcs,hread'⟩ | ⟨hnone,-⟩
    · obtain rfl := Option.some.inj hcs
      exact ⟨hc,hs.only hstrict _ _ us' rest' (by omega) hread' hus⟩
    · exact absurd hnone (by simp)

theorem Writes.broken (h : Writes hook t v C) (hs : Starts s) :
    WritesElements hook (t ++ '\n' :: s) (v :: vs) False where
  starts := h.starts.append _
  reads hf := hf.elim
  only hstrict fuel rest us rest' hf hread he := by
    rw [List.length_append, List.length_cons] at hf
    obtain ⟨fuel,rfl⟩ := Nat.exists_eq_add_of_le hf
    rw [List.append_assoc, Nat.add_right_comm] at hread
    obtain ⟨w,r,us',hval,rfl,hrest⟩ := elements_some hread
    obtain ⟨-,rfl⟩ := h.read_back hstrict (by omega) rfl hval (canonAll_cons.mp he).1
    have hnext : ∀ d, d = ',' ∨ d = ']' ∨ d = '}' → next d ('\n' :: s ++ ']' :: rest) = none :=
      fun d hd => ((hs.append _).space (show ['\n'].all isSpace by decide)).next_none hd
    rw [hnext _ (Or.inl rfl), hnext _ (Or.inr (Or.inl rfl))] at hrest
    rcases hrest with ⟨cs,hcs,-⟩ | ⟨-,hcs⟩
    · exact absurd hcs (by simp)
    · exact absurd hcs (by simp)

theorem writes_elements {α : Type} {f : α → Str} {g : α → Value} {P : α → Prop} {sep : List Char}
    (hsep : sep.all isSpace) (hws : ws.all isSpace) (hends : ends (ws ++ [']'])) {xs : List α}
    (hne : xs ≠ []) (h : ∀ x ∈ xs, Writes hook (f x) (g x) (P x)) :
    WritesElements hook ((',' :: sep).intercalate (xs.map f) ++ ws) (xs.map g) (∀ x ∈ xs, P x) := by
  induction xs with
  | nil => exact absurd rfl hne
  | cons x xs ih =>
    have hx := h x List.mem_cons_self
    cases xs with
    | nil =>
      rw [List.map_singleton, List.map_singleton, List.intercalate_singleton]
      exact (hx.last hws hends).congr List.forall_mem_singleton.symm
    | cons y xs =>
      have hrest := ih (List.cons_ne_nil y xs) fun z hz => h z (List.mem_cons_of_mem x hz)
      have happ : (',' :: sep).intercalate ((x :: y :: xs).map f) ++ ws =
          f x ++ ',' :: (sep ++ ((',' :: sep).intercalate ((y :: xs).map f) ++ ws)) := by
        rw [List.map_cons, List.map_cons, List.intercalate_cons_cons, List.append_assoc,
          List.append_assoc, List.cons_append]
      rw [happ]
      exact (hx.cons (hrest.space hsep)).congr List.forall_mem_cons.symm

variable {items : List (Str × Value)} {k : Str}

theorem value_dict (h : Starts s) (fuel : Nat) (cs : List Char) :
    value hook (fuel+1) ('{' :: (s ++ cs)) = (members hook fuel (s ++ cs)).bind fun r =>
      (hook r.1).map fun items => (.dict items,r.2) := by
  rw [value, next_other rfl (by decide), next_other rfl (by decide), next_self rfl]
  dsimp only
  rw [(h.append cs).next_none (Or.inr (Or.inr rfl))]

theorem WritesMembers.dict (h : WritesMembers hook s items C) (hk : Keeps hook)
    (hnodup : (items.map Prod.fst).Nodup) : Writes hook ('{' :: (s ++ ['}'])) (.dict items) C where
  starts := ⟨[],'{',_,rfl,rfl,by decide⟩
  reads hc := by
    obtain ⟨ws,hws,hread⟩ := h.reads hc
    have hkeys : (ws.map Prod.fst).Nodup := by
      rw [← keys_canonItems, hws, keys_canonItems]
      exact hnodup
    refine ⟨.dict ws,fun fuel rest hf _ => ?_,by rw [canon, canon, hws]⟩
    obtain ⟨fuel,rfl⟩ := Nat.exists_eq_add_of_lt hf
    rw [List.cons_append, List.append_assoc, List.singleton_append, value_dict h.starts, hread,
      Option.bind_some, hk ws hkeys, Option.map_some]
    simp only [List.length_cons, List.length_append, List.length_nil]
    omega
  only hs fuel rest w rest' hf _ hval he := by
    obtain ⟨fuel,rfl⟩ := Nat.exists_eq_add_of_lt hf
    rw [List.cons_append, List.append_assoc, List.singleton_append, value_dict h.starts,
      Option.bind_eq_some_iff] at hval
    obtain ⟨⟨ws,r⟩,hread,hval⟩ := hval
    obtain ⟨ws',hhook,hw⟩ := Option.map_eq_some_iff.mp hval
    obtain ⟨rfl,rfl⟩ := Prod.mk.inj hw
    obtain rfl := hs _ _ hhook
    rw [canon, canon] at he
    have hperm : (canonItems ws').Perm (canonItems items) :=
      ((sortItems_perm _).symm.trans (.of_eq (Value.dict.inj he))).trans (sortItems_perm _)
    refine h.only hs hnodup _ _ ws' r ?_ hread hperm
    simp only [List.length_cons, List.length_append, List.length_nil]
    omega

theorem writes_empty_dict (hk : Keeps hook) : Writes hook ['{','}'] (.dict []) True :=
  .of_reads ⟨[],'{',_,rfl,rfl,by decide⟩ fun fuel rest hf _ => by
    obtain ⟨fuel,rfl⟩ := Nat.exists_eq_add_of_lt hf
    rw [List.cons_append, List.singleton_append, value, next_other rfl (by decide),
      next_other rfl (by decide), next_self rfl]
    dsimp only
    rw [next_self rfl]
    dsimp only
    rw [hk [] List.nodup_nil, Option.map_some]

theorem WritesMembers.congr (h : WritesMembers hook s items C) (hC : C ↔ C') :
    WritesMembers hook s items C' :=
  ⟨h.starts,fun hc => h.reads (hC.mpr hc),fun hs hnodup fuel rest us rest' hf hread he =>
    hC.mp (h.only hs hnodup fuel rest us rest' hf hread he)⟩

theorem WritesMembers.space (hws : ws.all isSpace) (h : WritesMembers hook s items C) :
    WritesMembers hook (ws ++ s) items C where
  starts := h.starts.space hws
  reads hc := by
    obtain ⟨us,hus,hread⟩ := h.reads hc
    refine ⟨us,hus,fun fuel rest hf => ?_⟩
    rw [List.length_append] at hf
    rw [List.append_assoc, members_space hws]
    exact hread fuel rest (by omega)
  only hs hnodup fuel rest us rest' hf hread he := by
    rw [List.length_append] at hf
    rw [List.append_assoc, members_space hws] at hread
    exact h.only hs hnodup fuel rest us rest' (by omega) hread he

def dumpsKey (k : Str) : List Char := dumpsStr k ++ [':',' ']

theorem members_key (k : Str) (fuel : Nat) (cs : List Char) :
    members hook (fuel+1) (dumpsKey k ++ cs) = (value hook fuel cs).bind fun v =>
      match next ',' v.2 with
      | some cs => (members hook fuel cs).map fun r => ((k,v.1) :: r.1,r.2)
      | none => (next '}' v.2).map fun cs => ([(k,v.1)],cs) := by
  have happ : dumpsKey k ++ cs =
      '"' :: (k.flatMap escape ++ '"' :: ':' :: ([' '] ++ cs)) := by
    simp [dumpsKey, dumpsStr]
  rw [happ, members, next_self rfl, Option.bind_some, string_escape, Option.bind_some]
  dsimp only
  rw [next_self rfl, Option.bind_some]
  exact congrArg (fun r => Option.bind r _) (value_space (by decide) fuel cs)

theorem starts_key (k : Str) : Starts (dumpsKey k) := (starts_quote _).append _

theorem members_some {fuel : Nat} {cs rest : List Char} {us : List (Str × Value)}
    (h : members hook (fuel+1) (dumpsKey k ++ cs) = some (us,rest)) :
    ∃ w r us', value hook fuel cs = some (w,r) ∧ us = (k,w) :: us' ∧
      ((∃ cs', next ',' r = some cs' ∧ members hook fuel cs' = some (us',rest)) ∨
        next ',' r = none ∧ next '}' r = some rest) := by
  rw [members_key, Option.bind_eq_some_iff] at h
  obtain ⟨⟨w,r⟩,hval,h⟩ := h
  dsimp only at h
  cases hnext : next ',' r with
  | some cs' =>
    rw [hnext] at h
    obtain ⟨⟨us',r'⟩,hrest,he⟩ := Option.map_eq_some_iff.mp h
    obtain ⟨rfl,rfl⟩ := Prod.mk.inj he
    exact ⟨w,r,us',hval,rfl,Or.inl ⟨cs',hnext,hrest⟩⟩
  | none =>
    rw [hnext] at h
    obtain ⟨r',hrest,he⟩ := Option.map_eq_some_iff.mp h
    obtain ⟨rfl,rfl⟩ := Prod.mk.inj he
    exact ⟨w,r,[],hval,rfl,Or.inr ⟨hnext,hrest⟩⟩

theorem canonItems_first {w : Value} {us : List (Str × Value)}
    (h : (canonItems ((k,w) :: us)).Perm (canonItems ((k,v) :: items)))
    (hnodup : (((k,v) :: items).map Prod.fst).Nodup) :
    canon w = canon v ∧ (canonItems us).Perm (canonItems items) := by
  rw [canonItems, canonItems] at h
  have hw : canon w = canon v := by
    rcases List.mem_cons.mp (h.mem_iff.mp List.mem_cons_self) with he | hm
    · exact (Prod.mk.inj he).2
    · have hk : k ∈ items.map Prod.fst := by
        rw [← keys_canonItems]
        exact List.mem_map_of_mem hm
      exact absurd hk (List.nodup_cons.mp hnodup).1
  rw [hw] at h
  exact ⟨hw,h.cons_inv⟩

theorem Writes.lastItem (h : Writes hook t v C) (hws : ws.all isSpace)
    (hends : ends (ws ++ [']'])) (k : Str) :
    WritesMembers hook (dumpsKey k ++ (t ++ ws)) [(k,v)] C where
  starts := (starts_key k).append _
  reads hc := by
    obtain ⟨w,hw,he⟩ := h.reads hc
    refine ⟨[(k,w)],by rw [canonItems, canonItems, he]; rfl,fun fuel rest hf => ?_⟩
    rw [List.length_append, List.length_append] at hf
    obtain ⟨fuel,rfl⟩ := Nat.exists_eq_add_of_le hf
    have hend : ends (ws ++ '}' :: rest) = true := by
      cases ws with
      | nil => rfl
      | cons c ws => exact hends
    rw [List.append_assoc, List.append_assoc, Nat.add_right_comm, members_key,
      hw _ _ (by omega) hend, Option.bind_some]
    dsimp only
    rw [next_space hws, next_space hws, next_other rfl (by decide), next_self rfl, Option.map_some]
  only hs hnodup fuel rest us rest' hf hread he := by
    rw [List.length_append, List.length_append] at hf
    obtain ⟨fuel,rfl⟩ := Nat.exists_eq_add_of_le hf
    have hend : ends (ws ++ '}' :: rest) = true := by
      cases ws with
      | nil => rfl
      | cons c ws => exact hends
    rw [List.append_assoc, List.append_assoc, Nat.add_right_comm] at hread
    obtain ⟨w,r,us',hval,rfl,-⟩ := members_some hread
    exact h.only hs _ _ w r (by omega) hend hval (canonItems_first he hnodup).1

theorem Writes.consItem (h : Writes hook t v C) (hs : WritesMembers hook s items C') (k : Str) :
    WritesMembers hook (dumpsKey k ++ (t ++ ',' :: s)) ((k,v) :: items) (C ∧ C') where
  starts := (starts_key k).append _
  reads hc := by
    obtain ⟨w,hw,he⟩ := h.reads hc.1
    obtain ⟨us,hus,hread⟩ := hs.reads hc.2
    refine ⟨(k,w) :: us,by rw [canonItems, canonItems, he, hus],fun fuel rest hf => ?_⟩
    rw [List.length_append, List.length_append, List.length_cons] at hf
    obtain ⟨fuel,rfl⟩ := Nat.exists_eq_add_of_le hf
    rw [List.append_assoc, List.append_assoc, Nat.add_right_comm, members_key,
      hw _ _ (by omega) rfl, Option.bind_some]
    dsimp only
    rw [List.cons_append, next_self rfl]
    dsimp only
    rw [hread _ _ (by omega), Option.map_some]
  only hstrict hnodup fuel rest us rest' hf hread he := by
    rw [List.length_append, List.length_append, List.length_cons] at hf
    obtain ⟨fuel,rfl⟩ := Nat.exists_eq_add_of_le hf
    rw [List.append_assoc, List.append_assoc, Nat.add_right_comm] at hread
    obtain ⟨w,r,us',hval,rfl,hrest⟩ := members_some hread
    obtain ⟨hw,hus⟩ := canonItems_first he hnodup
    obtain ⟨hc,rfl⟩ := h.read_back hstrict (by omega) rfl hval hw
    rw [List.cons_append, next_self rfl] at hrest
    rcases hrest with ⟨cs,hcs,hread'⟩ | ⟨hnone,-⟩
    · obtain rfl := Option.some.inj hcs
      exact ⟨hc,hs.only hstrict (List.nodup_cons.mp hnodup).2 _ _ us' rest' (by omega) hread' hus⟩
    · exact absurd hnone (by simp)

theorem writes_members {α : Type} {key : α → Str} {f : α → Str} {g : α → Value} {P : α → Prop}
    {sep pre : List Char} (hsep : sep.all isSpace) (hpre : pre.all isSpace)
    (hws : ws.all isSpace) (hends : ends (ws ++ [']'])) {xs : List α} (hne : xs ≠ [])
    (h : ∀ x ∈ xs, Writes hook (f x) (g x) (P x)) :
    WritesMembers hook
      ((',' :: sep).intercalate (xs.map fun x => pre ++ (dumpsKey (key x) ++ f x)) ++ ws)
      (xs.map fun x => (key x,g x)) (∀ x ∈ xs, P x) := by
  induction xs with
  | nil => exact absurd rfl hne
  | cons x xs ih =>
    have hx := h x List.mem_cons_self
    cases xs with
    | nil =>
      rw [List.map_singleton, List.map_singleton, List.intercalate_singleton, List.append_assoc,
        List.append_assoc]
      exact ((hx.lastItem hws hends (key x)).space hpre).congr List.forall_mem_singleton.symm
    | cons y xs =>
      have hrest := ih (List.cons_ne_nil y xs) fun z hz => h z (List.mem_cons_of_mem x hz)
      have happ : (',' :: sep).intercalate
          ((x :: y :: xs).map fun x => pre ++ (dumpsKey (key x) ++ f x)) ++ ws =
          pre ++ (dumpsKey (key x) ++ (f x ++ ',' :: (sep ++ ((',' :: sep).intercalate
            ((y :: xs).map fun x => pre ++ (dumpsKey (key x) ++ f x)) ++ ws)))) := by
        rw [List.map_cons, List.map_cons, List.intercalate_cons_cons, List.append_assoc,
          List.append_assoc, List.append_assoc, List.append_assoc, List.cons_append]
      rw [happ]
      exact ((hx.consItem (hrest.space hsep) (key x)).space hpre).congr List.forall_mem_cons.symm

theorem Writes.loads (h : Writes hook t v C) (hc : C) :
    ∃ w, loads hook t = some w ∧ canon w = canon v := by
  obtain ⟨w,hw,he⟩ := h.reads hc
  have hread := hw (t.length+1) [] (Nat.lt_succ_self _) rfl
  rw [List.append_nil] at hread
  exact ⟨w,by rw [Json.loads, hread]; rfl,he⟩

theorem Writes.of_loads (h : Writes hook t v C) (hs : Strict hook) {w : Value}
    (hload : Json.loads hook t = some w) (he : canon w = canon v) : C := by
  rw [Json.loads, Option.bind_eq_some_iff] at hload
  obtain ⟨⟨w',r⟩,hread,hw⟩ := hload
  dsimp only at hw
  split_ifs at hw
  obtain rfl := Option.some.inj hw
  rw [← List.append_nil t] at hread
  refine h.only hs _ [] w' r ?_ rfl hread he
  rw [List.append_nil]
  exact Nat.lt_succ_self _

end

end QmkFirmware.Json
