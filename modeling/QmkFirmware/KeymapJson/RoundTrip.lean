import QmkFirmware.KeymapJson.Encoder
import QmkFirmware.Lib.JsonText

/-!
When a formatted `keymap.json` is read as what was formatted.
-/

set_option autoImplicit false

namespace QmkFirmware.KeymapJson

open Json

mutual

def dropMarkers : Nat → Value → Value
  | level, .list items => .list (dropElements level items)
  | level, .dict items => .dict (dropItems (level+1) items)
  | _, v => v

def dropElements : Nat → List Value → List Value
  | _, [] => []
  | level, v :: vs =>
    if level = 2 ∧ isMarker v then dropElements level vs
    else dropMarkers (level+1) v :: dropElements level vs

def dropItems : Nat → List (Str × Value) → List (Str × Value)
  | _, [] => []
  | level, (key,v) :: items => (key,dropMarkers level v) :: dropItems level items

end

def oneRow (items : List Value) : Bool :=
  ((items.dropWhile isMarker).dropWhile fun v => !isMarker v).all isMarker

mutual

/-- A list of keycodes has one row, of plain strings and of objects. -/
def clear : Nat → Value → Bool
  | level, .list items =>
    if level = 2 then oneRow items && clearRow items else clearElements (level+1) items
  | level, .dict items => clearItems (level+1) items
  | _, _ => true

def clearRow : List Value → Bool
  | [] => true
  | .str s :: vs => plain s && clearRow vs
  | .dict items :: vs => clearItems 3 items && clearRow vs
  | _ :: _ => false

def clearElements : Nat → List Value → Bool
  | _, [] => true
  | level, v :: vs => clear level v && clearElements level vs

def clearItems : Nat → List (Str × Value) → Bool
  | _, [] => true
  | level, (_,v) :: items => clear level v && clearItems level items

end

/-- An object whose keys, and those of the objects in it, are distinct. -/
structure Document where
  items : List (Str × Value)
  distinct : distinct (.dict items) = true

def Document.value (k : Document) : Value := .dict k.items

/-- The text is read as the value it was made of, apart from markers. -/
def Right (hook : PairsHook) (repr : Value → Str) (k : Document) : Prop :=
  ∃ w, loads hook (dumps repr k.value) = some w ∧ canon w = canon (dropMarkers 0 k.value)

/-- `_dict_raise_on_duplicates`. -/
def raiseOnDuplicates : PairsHook := fun items =>
  if (items.map Prod.fst).Nodup then some items else none

/-- A `dict` that is made of its items: a key that comes again gets the new value. -/
def insert (items : List (Str × Value)) (p : Str × Value) : List (Str × Value) :=
  if p.1 ∈ items.map Prod.fst then items.map fun q => if q.1 = p.1 then p else q
  else items ++ [p]

def pythonDict : PairsHook := fun items => some (items.foldl insert [])

theorem raiseOnDuplicates_keeps : Keeps raiseOnDuplicates := fun _ h => if_pos h

theorem raiseOnDuplicates_strict : Strict raiseOnDuplicates := by
  intro items items' h
  unfold raiseOnDuplicates at h
  split_ifs at h
  exact (Option.some.inj h).symm

theorem foldl_insert {items acc : List (Str × Value)} (h : ((acc ++ items).map Prod.fst).Nodup) :
    items.foldl insert acc = acc ++ items := by
  induction items generalizing acc with
  | nil => rw [List.foldl_nil, List.append_nil]
  | cons p items ih =>
    have hnew : p.1 ∉ acc.map Prod.fst := by
      rw [List.map_append, List.nodup_append] at h
      intro hm
      exact h.2.2 _ hm _ (by rw [List.map_cons]; exact List.mem_cons_self) rfl
    have happ : acc ++ p :: items = (acc ++ [p]) ++ items := by
      rw [List.append_assoc, List.singleton_append]
    rw [happ] at h ⊢
    rw [List.foldl_cons, insert, if_neg hnew]
    exact ih h

theorem pythonDict_keeps : Keeps pythonDict := fun items h =>
  congrArg some (@foldl_insert items [] h)

theorem dropElements_eq {level : Nat} (h : level ≠ 2) (items : List Value) :
    dropElements level items = items.map (dropMarkers (level+1)) := by
  induction items with
  | nil => rw [dropElements, List.map_nil]
  | cons v vs ih => rw [dropElements, if_neg (fun hm => h hm.1), ih, List.map_cons]

theorem dropItems_eq (level : Nat) (items : List (Str × Value)) :
    dropItems level items = items.map fun p => (p.1,dropMarkers level p.2) := by
  induction items with
  | nil => rw [dropItems, List.map_nil]
  | cons p items ih => rw [dropItems, ih, List.map_cons]

theorem clearElements_iff {level : Nat} {items : List Value} :
    clearElements level items = true ↔ ∀ v ∈ items, clear level v = true := by
  induction items with
  | nil => simp [clearElements]
  | cons v vs ih => simp [clearElements, ih]

theorem clearItems_iff {level : Nat} {items : List (Str × Value)} :
    clearItems level items = true ↔ ∀ p ∈ items, clear level p.2 = true := by
  induction items with
  | nil => simp [clearItems]
  | cons p items ih => simp [clearItems, ih]

theorem distinct_list {items : List Value} (h : distinct (.list items)) :
    ∀ v ∈ items, distinct v = true := by
  rw [distinct] at h
  induction items with
  | nil => exact fun v hv => absurd hv List.not_mem_nil
  | cons a vs ih =>
    rw [distinctAll, Bool.and_eq_true] at h
    intro v hv
    rcases List.mem_cons.mp hv with rfl | hv
    · exact h.1
    · exact ih h.2 v hv

theorem distinct_dict {items : List (Str × Value)} (h : distinct (.dict items)) :
    (items.map Prod.fst).Nodup ∧ ∀ p ∈ items, distinct p.2 = true := by
  rw [distinct, Bool.and_eq_true, decide_eq_true_eq] at h
  refine ⟨h.1,?_⟩
  have hitems := h.2
  clear h
  induction items with
  | nil => exact fun p hp => absurd hp List.not_mem_nil
  | cons q items ih =>
    rw [distinctItems, Bool.and_eq_true] at hitems
    intro p hp
    rcases List.mem_cons.mp hp with rfl | hp
    · exact hitems.1
    · exact ih hitems.2 p hp

theorem dropMarkers_below (v : Value) : ∀ level, 3 ≤ level → dropMarkers level v = v := by
  induction v using Value.ind with
  | list items ih =>
    intro level h
    rw [dropMarkers, dropElements_eq (by omega)]
    refine congrArg Value.list ((List.map_congr_left fun v hv => ?_).trans (List.map_id' items))
    exact ih v hv (level+1) (by omega)
  | dict items ih =>
    intro level h
    rw [dropMarkers, dropItems_eq]
    refine congrArg Value.dict ((List.map_congr_left fun p hp => ?_).trans (List.map_id' items))
    rw [ih p hp (level+1) (by omega)]
  | _ => intro level h; simp only [dropMarkers]

theorem plain_marker {v : Value} (h : isMarker v = true) : ∃ s, v = .str s ∧ plain s = true := by
  cases v with
  | str s =>
    have hs : s = "JSON_NEWLINE".toList := of_decide_eq_true h
    exact ⟨s,rfl,by rw [hs]; decide⟩
  | _ => exact absurd h (by simp [isMarker])

theorem clearRow_of_markers {vs : List Value} (h : vs.all isMarker = true) :
    clearRow vs = true := by
  induction vs with
  | nil => rw [clearRow]
  | cons v vs ih =>
    rw [List.all_cons, Bool.and_eq_true] at h
    obtain ⟨s,rfl,hs⟩ := plain_marker h.1
    rw [clearRow, hs, ih h.2]
    rfl

theorem dropElements_markers {vs : List Value} (h : vs.all isMarker = true) :
    dropElements 2 vs = [] := by
  induction vs with
  | nil => rw [dropElements]
  | cons v vs ih =>
    rw [List.all_cons, Bool.and_eq_true] at h
    rw [dropElements, if_pos ⟨rfl,h.1⟩, ih h.2]

section
variable {hook : PairsHook} {repr : Value → Str}

theorem indentStr_space (level : Nat) : (indentStr level).all isSpace = true := by
  rw [indentStr, List.all_replicate]
  simp [isSpace]

theorem rowIndent_space : rowIndent.all isSpace = true := by decide

theorem rowsEnd_space : rowsEnd.all isSpace = true := by decide

def clearElement (v : Value) : Bool := clearRow [v]

theorem clearRow_cons (v : Value) (vs : List Value) :
    clearRow (v :: vs) = (clearElement v && clearRow vs) := by
  cases v <;> simp [clearElement, clearRow]

theorem rowTail_markers {vs : List Value} (h : vs.all isMarker = true) (inRow : Bool) :
    (rowTail repr inRow vs).all isSpace = true ∧
      ends (rowTail repr inRow vs ++ [']']) = true := by
  induction vs generalizing inRow with
  | nil => exact ⟨rowsEnd_space,rfl⟩
  | cons v vs ih =>
    rw [List.all_cons, Bool.and_eq_true] at h
    rw [rowTail, if_pos h.1]
    refine ⟨?_,rfl⟩
    rw [List.all_cons, List.all_append, rowIndent_space, (ih h.2 false).1]
    rfl

def ElementsWrite (hook : PairsHook) (repr : Value → Str) (vs : List Value) : Prop :=
  ∀ v ∈ vs, Writes hook (elementText repr v) (dropMarkers 3 v) (clearElement v = true)

theorem starts_rowTail {vs : List Value} (hw : ElementsWrite hook repr vs)
    (h : vs.all isMarker = false) : Starts (rowTail repr false vs) := by
  induction vs with
  | nil => exact absurd h (by decide)
  | cons v vs ih =>
    rw [rowTail]
    by_cases hm : isMarker v
    · rw [if_pos hm]
      rw [List.all_cons, hm, Bool.true_and] at h
      have hrest := ih (fun v hv => hw v (List.mem_cons_of_mem _ hv)) h
      exact (hrest.space rowIndent_space).space (show ['\n'].all isSpace by decide)
    · rw [if_neg hm, if_neg (by decide)]
      exact (hw v List.mem_cons_self).starts.append _

theorem oneRow_marker {v : Value} (h : isMarker v = true) (vs : List Value) :
    oneRow (v :: vs) = oneRow vs := by
  rw [oneRow, List.dropWhile_cons_of_pos h, oneRow]

def restRow (vs : List Value) : Bool := (vs.dropWhile fun v => !isMarker v).all isMarker

theorem oneRow_key {v : Value} (h : isMarker v = false) (vs : List Value) :
    oneRow (v :: vs) = restRow vs := by
  rw [oneRow, List.dropWhile_cons_of_neg (by rw [h]; decide),
    List.dropWhile_cons_of_pos (by rw [h]; rfl), restRow]

theorem writes_rowTail {t : Str} {v : Value} {C : Prop} (h : Writes hook t v C) {vs : List Value}
    (hw : ElementsWrite hook repr vs) :
    WritesElements hook (t ++ rowTail repr true vs) (v :: dropElements 2 vs)
      (C ∧ restRow vs = true ∧ clearRow vs = true) := by
  induction vs generalizing t v C with
  | nil =>
    rw [dropElements]
    refine (h.last rowsEnd_space rfl).congr ?_
    rw [clearRow]
    exact ⟨fun h => ⟨h,rfl,rfl⟩,fun h => h.1⟩
  | cons u vs ih =>
    have hrest : ElementsWrite hook repr vs := fun v hv => hw v (List.mem_cons_of_mem _ hv)
    by_cases hm : isMarker u
    · have hrow : restRow (u :: vs) = vs.all isMarker := by
        rw [restRow, List.dropWhile_cons_of_neg (by rw [hm]; decide), List.all_cons, hm,
          Bool.true_and]
      have hclear : clearRow (u :: vs) = clearRow vs := by
        obtain ⟨s,rfl,hs⟩ := plain_marker hm
        rw [clearRow, hs, Bool.true_and]
      rw [hrow, hclear, dropElements, if_pos ⟨rfl,hm⟩]
      by_cases hall : vs.all isMarker
      · obtain ⟨hspace,hends⟩ := @rowTail_markers repr (u :: vs)
          (by rw [List.all_cons, hm, hall]; rfl) true
        rw [dropElements_markers hall]
        refine (h.last hspace hends).congr ?_
        exact ⟨fun h => ⟨h,hall,clearRow_of_markers hall⟩,fun h => h.1⟩
      · rw [rowTail, if_pos hm]
        have hstarts := starts_rowTail hrest (Bool.not_eq_true _ ▸ hall)
        refine (h.broken (hstarts.space rowIndent_space)).congr ?_
        exact ⟨fun h => h.elim,fun h => hall h.2.1⟩
    · have hrow : restRow (u :: vs) = restRow vs := by
        rw [restRow, List.dropWhile_cons_of_pos (by simp [hm]), restRow]
      have hnext := (ih (hw u List.mem_cons_self) hrest).space (show [' '].all isSpace by decide)
      rw [hrow, clearRow_cons, dropElements, if_neg (fun h => hm h.2), rowTail, if_neg hm,
        if_pos rfl]
      refine (h.cons hnext).congr ?_
      rw [Bool.and_eq_true]
      grind

theorem writes_row {ws : List Char} (hws : ws.all isSpace) {vs : List Value}
    (hw : ElementsWrite hook repr vs) :
    Writes hook ('[' :: (ws ++ rowTail repr false vs ++ [']'])) (.list (dropElements 2 vs))
      (oneRow vs = true ∧ clearRow vs = true) := by
  induction vs generalizing ws with
  | nil =>
    rw [dropElements, rowTail]
    refine (writes_empty_list ?_).congr rfl (iff_of_true trivial ⟨rfl,clearRow_of_markers rfl⟩)
    rw [List.all_append, hws, rowsEnd_space]
    rfl
  | cons v vs ih =>
    have hrest : ElementsWrite hook repr vs := fun v hv => hw v (List.mem_cons_of_mem _ hv)
    by_cases hm : isMarker v
    · have hspace : (ws ++ '\n' :: rowIndent).all isSpace = true := by
        rw [List.all_append, hws, List.all_cons, rowIndent_space]
        rfl
      have happ : ws ++ rowTail repr false (v :: vs) =
          ws ++ '\n' :: rowIndent ++ rowTail repr false vs := by
        rw [rowTail, if_pos hm, List.append_assoc, List.cons_append]
      have hclear : clearRow (v :: vs) = clearRow vs := by
        obtain ⟨s,rfl,hs⟩ := plain_marker hm
        rw [clearRow, hs, Bool.true_and]
      rw [happ, oneRow_marker hm, hclear, dropElements, if_pos ⟨rfl,hm⟩]
      exact ih hspace hrest
    · rw [oneRow_key (Bool.not_eq_true _ ▸ hm), clearRow_cons, dropElements,
        if_neg (fun h => hm h.2), rowTail, if_neg hm, if_neg (by decide)]
      have hrow := (writes_rowTail (hw v List.mem_cons_self) hrest).space hws
      refine hrow.list.congr rfl ?_
      rw [Bool.and_eq_true]
      grind

theorem elementText_quoted {v : Value} (h : isDict v = false) :
    elementText repr v = '"' :: (str repr v ++ ['"']) :=
  if_neg (by rw [h]; decide)

theorem element_writes {v : Value} (hk : Writes hook (text repr 2 v) (dropMarkers 2 v)
    (clear 2 v = true)) :
    Writes hook (elementText repr v) (dropMarkers 3 v) (clearElement v = true) := by
  rw [dropMarkers_below v 3 (Nat.le_refl 3)]
  have hquoted : isDict v = false → (∀ s, canon v ≠ .str s) → clearElement v = false →
      Writes hook (elementText repr v) v (clearElement v = true) := by
    intro hd hs hc
    rw [elementText_quoted hd, hc]
    exact (writes_quoted _ hs).congr rfl (iff_of_false id (by decide))
  cases v with
  | str s =>
    rw [elementText_quoted rfl, clearElement, clearRow, clearRow, Bool.and_true]
    exact writes_raw s
  | dict items =>
    have hbelow : dropMarkers 2 (.dict items) = .dict items := by
      have h := dropMarkers_below (.dict items) 3 (Nat.le_refl 3)
      rw [dropMarkers, dropItems_eq] at h ⊢
      rw [← h]
      refine congrArg Value.dict (List.map_congr_left fun p _ => ?_)
      rw [dropMarkers_below p.2 3 (Nat.le_refl 3), dropMarkers_below p.2 (3+1) (by decide)]
    rw [hbelow] at hk
    have htext : elementText repr (.dict items) = text repr 2 (.dict items) := if_pos rfl
    rw [htext, clearElement, clearRow, clearRow, Bool.and_true]
    exact hk.congr rfl (by rw [clear])
  | int n => exact hquoted rfl (fun s h => by simp [canon] at h) (by simp [clearElement, clearRow])
  | bool b => exact hquoted rfl (fun s h => by simp [canon] at h) (by simp [clearElement, clearRow])
  | null => exact hquoted rfl (fun s h => by simp [canon] at h) (by simp [clearElement, clearRow])
  | list items =>
    exact hquoted rfl (fun s h => by simp [canon] at h) (by simp [clearElement, clearRow])

def isScalar : Value → Bool
  | .list _ | .dict _ => false
  | _ => true

theorem primitivesOnly_iff {items : List Value} :
    primitivesOnly items = true ↔ ∀ v ∈ items, isScalar v = true := by
  rw [primitivesOnly, Bool.not_eq_true', List.any_eq_false]
  refine forall₂_congr fun v _ => ?_
  cases v <;> simp [isScalar]

theorem text_scalar {v : Value} (h : isScalar v = true) (level level' : Nat) :
    text repr level v = text repr level' v := by
  cases v with
  | list items => exact absurd h (by simp [isScalar])
  | dict items => exact absurd h (by simp [isScalar])
  | _ => simp only [text, encode]

theorem scalar_writes {t : Str} {v : Value} (h : isScalar v = true) (hw : Writes hook t v True)
    (level : Nat) : Writes hook t (dropMarkers level v) (clear level v = true) := by
  have hsame : dropMarkers level v = v ∧ clear level v = true := by
    cases v with
    | list items => exact absurd h (by simp [isScalar])
    | dict items => exact absurd h (by simp [isScalar])
    | _ => exact ⟨by simp only [dropMarkers],by simp only [clear]⟩
  rw [hsame.1]
  exact hw.congr rfl (iff_of_true trivial hsame.2)

theorem list_writes {level : Nat} (h2 : level ≠ 2) {items : List Value}
    (hw : ∀ v ∈ items, Writes hook (text repr (level+1) v) (dropMarkers (level+1) v)
      (clear (level+1) v = true)) :
    Writes hook (text repr level (.list items)) (.list (items.map (dropMarkers (level+1))))
      (∀ v ∈ items, clear (level+1) v = true) := by
  by_cases hp : primitivesOnly items
  · have htext : items.map (text repr level) = items.map (text repr (level+1)) :=
      List.map_congr_left fun v hv => text_scalar (primitivesOnly_iff.mp hp v hv) _ _
    rw [text_line repr h2 hp, htext]
    by_cases hne : items = []
    · rw [hne]
      refine (@writes_empty_list hook [] rfl).congr rfl (iff_of_true trivial ?_)
      exact fun v hv => absurd hv List.not_mem_nil
    · rw [← List.append_nil ([',',' '].intercalate _)]
      exact (writes_elements (show [' '].all isSpace by decide) rfl rfl hne hw).list
  · have hne : items ≠ [] := by
      rintro rfl
      exact hp rfl
    have hline : ∀ v ∈ items, Writes hook (indentStr (level+1) ++ text repr (level+1) v)
        (dropMarkers (level+1) v) (clear (level+1) v = true) :=
      fun v hv => (hw v hv).space (indentStr_space _)
    have hclose : ('\n' :: indentStr level).all isSpace = true := by
      rw [List.all_cons, indentStr_space]
      rfl
    have hsep : ['\n'].all isSpace = true := by decide
    rw [text_lines repr h2 (Bool.not_eq_true _ ▸ hp)]
    exact ((writes_elements hsep hclose rfl hne hline).space hsep).list

theorem dict_writes (hk : Keeps hook) {level : Nat} {items : List (Str × Value)}
    (hnodup : (items.map Prod.fst).Nodup)
    (hw : ∀ p ∈ items, Writes hook (text repr (level+1) p.2) (dropMarkers (level+1) p.2)
      (clear (level+1) p.2 = true)) :
    Writes hook (text repr level (.dict items))
      (.dict (items.map fun p => (p.1,dropMarkers (level+1) p.2)))
      (∀ p ∈ items, clear (level+1) p.2 = true) := by
  by_cases hne : items = []
  · rw [hne, text_empty]
    refine (writes_empty_dict hk).congr rfl (iff_of_true trivial ?_)
    exact fun v hv => absurd hv List.not_mem_nil
  · have hperm := sorted_perm (level+1) items
    have hsne : sorted (level+1) items ≠ [] := by
      intro h
      rw [h] at hperm
      exact hne hperm.nil_eq.symm
    have hclose : ('\n' :: indentStr level).all isSpace = true := by
      rw [List.all_cons, indentStr_space]
      rfl
    have hsep : ['\n'].all isSpace = true := by decide
    have hmembers : WritesMembers hook
        ([',','\n'].intercalate ((sorted (level+1) items).map fun p =>
          indentStr (level+1) ++ (dumpsKey p.1 ++ text repr (level+1) p.2)) ++
            '\n' :: indentStr level)
        ((sorted (level+1) items).map fun p => (p.1,dropMarkers (level+1) p.2))
        (∀ p ∈ sorted (level+1) items, clear (level+1) p.2 = true) :=
      writes_members hsep (indentStr_space _) hclose rfl hsne
        fun p hp => hw p (hperm.mem_iff.mp hp)
    have hkeys : ∀ l : List (Str × Value),
        ((l.map fun p => (p.1,dropMarkers (level+1) p.2)).map Prod.fst) = l.map Prod.fst :=
      fun l => by rw [List.map_map]; rfl
    have hdistinct : (((sorted (level+1) items).map fun p =>
        (p.1,dropMarkers (level+1) p.2)).map Prod.fst).Nodup := by
      rw [hkeys]
      exact (hperm.map Prod.fst).nodup_iff.mpr hnodup
    rw [text_dict repr level hne]
    refine ((hmembers.space hsep).dict hk hdistinct).congr ?_ ?_
    · rw [canon, canon, canonItems_eq, canonItems_eq]
      refine congrArg Value.dict (sortItems_congr ((hperm.map _).map _) ?_)
      rw [← canonItems_eq, keys_canonItems]
      exact hdistinct
    · exact forall_congr' fun p => by rw [hperm.mem_iff]

theorem value_writes (hk : Keeps hook) (v : Value) : ∀ level, distinct v = true →
    Writes hook (text repr level v) (dropMarkers level v) (clear level v = true) := by
  induction v using Value.ind with
  | str s =>
    intro level _
    rw [text, encode]
    exact scalar_writes rfl (writes_str s) level
  | int n =>
    intro level _
    rw [text, encode]
    exact scalar_writes rfl (writes_int n) level
  | bool b =>
    intro level _
    rw [text, encode]
    exact scalar_writes rfl (writes_bool b) level
  | null =>
    intro level _
    rw [text, encode]
    exact scalar_writes rfl writes_null level
  | list items ih =>
    intro level hd
    have hitems := distinct_list hd
    by_cases h2 : level = 2
    · subst h2
      have helements : ElementsWrite hook repr items := fun v hv =>
        element_writes (ih v hv 2 (hitems v hv))
      have hindent : ('\n' :: rowIndent).all isSpace = true := by
        rw [List.all_cons, rowIndent_space]
        rfl
      rw [text_row, dropMarkers]
      refine ((writes_row hindent helements).space (indentStr_space 2)).congr rfl ?_
      rw [clear, if_pos rfl, Bool.and_eq_true]
    · rw [dropMarkers, dropElements_eq h2]
      refine (list_writes h2 fun v hv => ih v hv (level+1) (hitems v hv)).congr rfl ?_
      rw [clear, if_neg h2, clearElements_iff]
  | dict items ih =>
    intro level hd
    obtain ⟨hnodup,hitems⟩ := distinct_dict hd
    rw [dropMarkers, dropItems_eq]
    refine (dict_writes hk hnodup fun p hp => ih p hp (level+1) (hitems p hp)).congr rfl ?_
    rw [clear, clearItems_iff]

end

theorem document_writes {hook : PairsHook} (hk : Keeps hook) (repr : Value → Str) (k : Document) :
    Writes hook (dumps repr k.value) (dropMarkers 0 k.value) (clear 0 k.value = true) :=
  value_writes hk k.value 0 k.distinct

/-- Exactly the clear documents are read back by a reader that refuses repeated keys, and they are
by one that takes the last value of a key. -/
theorem format_json_iff (repr : Value → Str) (k : Document) :
    (Right raiseOnDuplicates repr k ↔ clear 0 k.value = true) ∧
      (clear 0 k.value = true → Right pythonDict repr k) := by
  have hstrict := document_writes raiseOnDuplicates_keeps repr k
  refine ⟨⟨?_,hstrict.loads⟩,(document_writes pythonDict_keeps repr k).loads⟩
  rintro ⟨w,hw,he⟩
  exact hstrict.of_loads raiseOnDuplicates_strict hw he

theorem not_right {hook : PairsHook} {repr : Value → Str} {k : Document}
    (h : loads hook (dumps repr k.value) = none) : ¬Right hook repr k := by
  rintro ⟨w,hw,-⟩
  rw [h] at hw
  exact absurd hw (by simp)

/-- A row of a layer ends without a comma, and the quotes in a macro are not escaped. -/
theorem layer_rows_macro_quotes :
    ¬Right pythonDict (fun _ => []) ⟨[("layers".toList,.list [.list
        [.str "A".toList,.str "JSON_NEWLINE".toList,.str "B".toList]])],rfl⟩ ∧
      ¬Right pythonDict (fun _ => []) ⟨[("macros".toList,.list [.list
        [.str ['"','a','"']]])],rfl⟩ := by
  -- there is no list among the keycodes, and nothing is left to `repr`
  exact ⟨not_right (by decide),not_right (by decide)⟩

end QmkFirmware.KeymapJson
