import QmkFirmware.Lib.Json

/-!
`KeymapJSONEncoder` of `json_encoders.py`. The methods share the counter `indentation_level`: a
method is a function of the counter that hands it on. `repr` is what Python makes of a list inside
an f-string.
-/

set_option autoImplicit false

namespace QmkFirmware.KeymapJson

open Json

/-- A call of `encode` that waits for the counter. -/
abbrev Encoding := Nat → Str × Nat

def indentStr (level : Nat) : Str := List.replicate (4*level) ' '

def isMarker : Value → Bool
  | .str s => s = "JSON_NEWLINE".toList
  | _ => false

def isDict : Value → Bool
  | .dict _ => true
  | _ => false

def primitivesOnly (obj : List Value) : Bool :=
  !obj.any fun
    | .list _ | .dict _ => true
    | _ => false

def sortDict (level : Nat) (key : Str) : Str :=
  if level = 1 then
    if key = "version".toList then "00version".toList
    else if key = "author".toList then "01author".toList
    else if key = "notes".toList then "02notes".toList
    else if key = "layers".toList then "98layers".toList
    else if key = "documentation".toList then "99documentation".toList
    else '5' :: '0' :: key
  else key

def encodeAll : List Encoding → Nat → List Str × Nat
  | [], level => ([],level)
  | encoded :: obj, level =>
    let (text,level) := encoded level
    let (output,level) := encodeAll obj level
    (text :: output,level)

def encodeLines : List (Str × Encoding) → Nat → List Str × Nat
  | [], level => ([],level)
  | (key,encoded) :: obj, level =>
    let line := indentStr level ++ key
    let (text,level) := encoded level
    let (output,level) := encodeLines obj level
    ((line ++ text) :: output,level)

section
variable (repr : Value → Str)

/-- What Python makes of a value inside an f-string. -/
def str : Value → Str
  | .str s => s
  | .int n => dumpsInt n
  | .bool b => if b then "True".toList else "False".toList
  | .null => "None".toList
  | v => repr v

def encodeRows (row : List Str) : List (Value × Encoding) → Nat → List (List Str) × Nat
  | [], level => ([row],level)
  | (key,encoded) :: obj, level =>
    if isMarker key then
      let (layer,level) := encodeRows [] obj level
      (row :: layer,level)
    else if isDict key then
      let (text,level) := encoded level
      encodeRows (row ++ [text]) obj level
    else encodeRows (row ++ ['"' :: (str repr key ++ ['"'])]) obj level

def encodeList (obj : List (Value × Encoding)) : Encoding := fun level =>
  if level = 2 then
    let indentLevel := level+1
    let (layer,level) := encodeRows repr [] obj level
    let layer := layer.map fun row =>
      (List.replicate indentLevel (indentStr level)).flatten ++ [',',' '].intercalate row
    (indentStr level ++ ('[' :: '\n' :: (['\n'].intercalate layer ++
      '\n' :: ((List.replicate level (indentStr level)).flatten ++ [']']))),level)
  else if primitivesOnly (obj.map Prod.fst) then
    let (output,level) := encodeAll (obj.map Prod.snd) level
    ('[' :: ([',',' '].intercalate output ++ [']']),level)
  else
    let level := level+1
    let (output,level) := encodeLines (obj.map fun p => ([],p.2)) level
    let level := level-1
    ('[' :: '\n' :: ([',','\n'].intercalate output ++ '\n' :: (indentStr level ++ [']'])),level)

/-- `encode_dict` with `sort_keys`. -/
def encodeDict (obj : List (Str × Encoding)) : Encoding := fun level =>
  if obj.isEmpty then (['{','}'],level)
  else
    let level := level+1
    let items := obj.insertionSort fun p q => sortDict level p.1 ≤ sortDict level q.1
    let (output,level) := encodeLines (items.map fun p => (dumpsStr p.1 ++ [':',' '],p.2)) level
    let level := level-1
    ('{' :: '\n' :: ([',','\n'].intercalate output ++ '\n' :: (indentStr level ++ ['}'])),level)

mutual

def encode : Value → Encoding
  | .list obj => encodeList repr (encodings obj)
  | .dict obj => encodeDict (itemEncodings obj)
  | .str s => fun level => (dumpsStr s,level)
  | .int n => fun level => (dumpsInt n,level)
  | .bool b => fun level => (dumpsBool b,level)
  | .null => fun level => (dumpsNull,level)

def encodings : List Value → List (Value × Encoding)
  | [] => []
  | v :: obj => (v,encode v) :: encodings obj

def itemEncodings : List (Str × Value) → List (Str × Encoding)
  | [] => []
  | (key,v) :: obj => (key,encode v) :: itemEncodings obj

end

/-- `json.dumps` with this encoder. -/
def dumps (v : Value) : Str := (encode repr v 0).1

end

def Restores (encoded : Encoding) : Prop := ∀ level, (encoded level).2 = level

theorem encodeAll_eq {obj : List Encoding} (h : ∀ e ∈ obj, Restores e) (level : Nat) :
    encodeAll obj level = (obj.map fun e => (e level).1,level) := by
  induction obj with
  | nil => rfl
  | cons e obj ih =>
    have he := h e List.mem_cons_self level
    have hrest := ih fun e he => h e (List.mem_cons_of_mem _ he)
    rw [encodeAll]
    dsimp only
    rw [he, hrest, List.map_cons]

theorem encodeLines_eq {obj : List (Str × Encoding)} (h : ∀ p ∈ obj, Restores p.2)
    (level : Nat) : encodeLines obj level =
      (obj.map fun p => indentStr level ++ p.1 ++ (p.2 level).1,level) := by
  induction obj with
  | nil => rfl
  | cons p obj ih =>
    have hp := h p List.mem_cons_self level
    have hrest := ih fun p hp => h p (List.mem_cons_of_mem _ hp)
    rw [encodeLines]
    dsimp only
    rw [hp, hrest, List.map_cons]

section
variable (repr : Value → Str)

theorem encodeRows_restores {obj : List (Value × Encoding)} (h : ∀ p ∈ obj, Restores p.2)
    (row : List Str) (level : Nat) : (encodeRows repr row obj level).2 = level := by
  induction obj generalizing row with
  | nil => rfl
  | cons p obj ih =>
    have hp := h p List.mem_cons_self level
    have hrest := ih fun p hp => h p (List.mem_cons_of_mem _ hp)
    rw [encodeRows]
    dsimp only
    split_ifs
    · exact hrest []
    · rw [hp]
      exact hrest _
    · exact hrest _

theorem encodeList_restores {obj : List (Value × Encoding)} (h : ∀ p ∈ obj, Restores p.2) :
    Restores (encodeList repr obj) := by
  intro level
  rw [encodeList]
  dsimp only
  split_ifs
  · exact encodeRows_restores repr h [] level
  · rw [encodeAll_eq]
    intro e he
    obtain ⟨p,hp,rfl⟩ := List.mem_map.mp he
    exact h p hp
  · rw [encodeLines_eq]
    · exact Nat.add_sub_cancel level 1
    · intro q hq
      obtain ⟨p,hp,rfl⟩ := List.mem_map.mp hq
      exact h p hp

theorem encodeDict_restores {obj : List (Str × Encoding)} (h : ∀ p ∈ obj, Restores p.2) :
    Restores (encodeDict obj) := by
  intro level
  rw [encodeDict]
  dsimp only
  split_ifs
  · rfl
  · rw [encodeLines_eq]
    · exact Nat.add_sub_cancel level 1
    · intro p hp
      obtain ⟨q,hq,rfl⟩ := List.mem_map.mp hp
      exact h q ((List.perm_insertionSort _ obj).mem_iff.mp hq)

theorem encodings_eq (obj : List Value) :
    encodings repr obj = obj.map fun v => (v,encode repr v) := by
  induction obj with
  | nil => rw [encodings, List.map_nil]
  | cons v obj ih => rw [encodings, ih, List.map_cons]

theorem itemEncodings_eq (obj : List (Str × Value)) :
    itemEncodings repr obj = obj.map fun p => (p.1,encode repr p.2) := by
  induction obj with
  | nil => rw [itemEncodings, List.map_nil]
  | cons p obj ih => rw [itemEncodings, ih, List.map_cons]

theorem encode_restores (v : Value) : Restores (encode repr v) := by
  induction v using Value.ind with
  | str s => rw [encode]; exact fun _ => rfl
  | int n => rw [encode]; exact fun _ => rfl
  | bool b => rw [encode]; exact fun _ => rfl
  | null => rw [encode]; exact fun _ => rfl
  | list obj ih =>
    rw [encode, encodings_eq]
    refine encodeList_restores repr fun p hp => ?_
    obtain ⟨v,hv,rfl⟩ := List.mem_map.mp hp
    exact ih v hv
  | dict obj ih =>
    rw [encode, itemEncodings_eq]
    refine encodeDict_restores fun q hq => ?_
    obtain ⟨p,hp,rfl⟩ := List.mem_map.mp hq
    exact ih p hp

def text (level : Nat) (v : Value) : Str := (encode repr v level).1

theorem encode_eq (v : Value) (level : Nat) : encode repr v level = (text repr level v,level) :=
  Prod.ext rfl (encode_restores repr v level)

theorem mem_encodings {obj : List Value} {p : Value × Encoding}
    (h : p ∈ encodings repr obj) : Restores p.2 := by
  rw [encodings_eq] at h
  obtain ⟨v,-,rfl⟩ := List.mem_map.mp h
  exact encode_restores repr v

def elementText (v : Value) : Str :=
  if isDict v then text repr 2 v else '"' :: (str repr v ++ ['"'])

def rowIndent : Str := (List.replicate 3 (indentStr 2)).flatten

def rowsEnd : Str := '\n' :: (List.replicate 2 (indentStr 2)).flatten

def rowTail : Bool → List Value → Str
  | _, [] => rowsEnd
  | inRow, v :: vs =>
    if isMarker v then '\n' :: (rowIndent ++ rowTail false vs)
    else if inRow then [',',' '] ++ (elementText repr v ++ rowTail true vs)
    else elementText repr v ++ rowTail true vs

theorem intercalate_concat (sep t : Str) (row : List Str) :
    sep.intercalate (row ++ [t]) =
      sep.intercalate row ++ (if row.isEmpty then t else sep ++ t) := by
  induction row with
  | nil => simp [List.intercalate_singleton]
  | cons a row ih =>
    cases row with
    | nil => simp [List.intercalate_cons_cons, List.intercalate_singleton]
    | cons b row =>
      rw [List.cons_append, List.cons_append, List.intercalate_cons_cons,
        List.intercalate_cons_cons, ← List.cons_append, ih]
      simp

theorem encodeRows_ne_nil (row : List Str) (obj : List (Value × Encoding)) (level : Nat) :
    (encodeRows repr row obj level).1 ≠ [] := by
  induction obj generalizing row level with
  | nil => exact List.cons_ne_nil _ _
  | cons p obj ih =>
    rw [encodeRows]
    dsimp only
    split_ifs
    · exact List.cons_ne_nil _ _
    · exact ih _ _
    · exact ih _ _

theorem encodeRows_text (row : List Str) (obj : List Value) :
    ['\n'].intercalate ((encodeRows repr row (encodings repr obj) 2).1.map fun row =>
        rowIndent ++ [',',' '].intercalate row) ++ rowsEnd =
      rowIndent ++ ([',',' '].intercalate row ++ rowTail repr (!row.isEmpty) obj) := by
  induction obj generalizing row with
  | nil =>
    rw [encodings, encodeRows, rowTail, List.map_singleton, List.intercalate_singleton,
      List.append_assoc]
  | cons v obj ih =>
    have hgrow : ∀ t, elementText repr v = t → isMarker v = false →
        ['\n'].intercalate ((encodeRows repr (row ++ [t]) (encodings repr obj) 2).1.map fun row =>
            rowIndent ++ [',',' '].intercalate row) ++ rowsEnd =
          rowIndent ++ ([',',' '].intercalate row ++ rowTail repr (!row.isEmpty) (v :: obj)) := by
      rintro t rfl hm
      have hne : (row ++ [elementText repr v]).isEmpty = false := by cases row <;> rfl
      rw [ih, hne, intercalate_concat, rowTail, hm]
      cases row with
      | nil => rfl
      | cons a row => simp
    rw [encodings, encodeRows]
    dsimp only
    by_cases hm : isMarker v
    · rw [if_pos hm, rowTail, if_pos hm]
      dsimp only
      obtain ⟨r,rows,hrows⟩ := List.exists_cons_of_ne_nil
        (encodeRows_ne_nil repr [] (encodings repr obj) 2)
      have hrest := ih []
      rw [hrows, List.map_cons] at hrest
      rw [hrows, List.map_cons, List.map_cons, List.intercalate_cons_cons, List.append_assoc,
        List.append_assoc, hrest]
      simp [List.intercalate_nil]
    · rw [if_neg hm]
      by_cases hd : isDict v
      · rw [if_pos hd, encode_eq]
        exact hgrow _ (if_pos hd) (Bool.not_eq_true _ ▸ hm)
      · rw [if_neg hd]
        exact hgrow _ (if_neg hd) (Bool.not_eq_true _ ▸ hm)

theorem text_row (obj : List Value) :
    text repr 2 (.list obj) =
      indentStr 2 ++ '[' :: (('\n' :: rowIndent) ++ rowTail repr false obj ++ [']']) := by
  have hlevel : (encodeRows repr [] (encodings repr obj) 2).2 = 2 :=
    encodeRows_restores repr (fun p hp => mem_encodings repr hp) [] 2
  have hrows := encodeRows_text repr [] obj
  rw [text, encode, encodeList, if_pos rfl]
  dsimp only
  rw [hlevel]
  change indentStr 2 ++ ('[' :: '\n' :: (_ ++ (rowsEnd ++ [']']))) = _
  rw [← List.append_assoc]
  exact congrArg (fun t => indentStr 2 ++ ('[' :: '\n' :: (t ++ [']']))) hrows

theorem map_encodings {β : Type} (f : Value × Encoding → β) (obj : List Value) :
    (encodings repr obj).map f = obj.map fun v => f (v,encode repr v) := by
  rw [encodings_eq, List.map_map]
  rfl

theorem text_line {level : Nat} (h2 : level ≠ 2) {obj : List Value} (hp : primitivesOnly obj) :
    text repr level (.list obj) =
      '[' :: ([',',' '].intercalate (obj.map (text repr level)) ++ [']']) := by
  have hobj : (encodings repr obj).map Prod.fst = obj := by
    rw [map_encodings]
    exact List.map_id obj
  rw [text, encode, encodeList, if_neg h2, hobj, if_pos hp, encodeAll_eq, map_encodings,
    List.map_map]
  · rfl
  · intro e he
    obtain ⟨p,hp,rfl⟩ := List.mem_map.mp he
    exact mem_encodings repr hp

theorem text_lines {level : Nat} (h2 : level ≠ 2) {obj : List Value}
    (hp : primitivesOnly obj = false) :
    text repr level (.list obj) = '[' :: (['\n'] ++ ([',','\n'].intercalate
      (obj.map fun v => indentStr (level+1) ++ text repr (level+1) v) ++
        '\n' :: indentStr level) ++ [']']) := by
  have hobj : (encodings repr obj).map Prod.fst = obj := by
    rw [map_encodings]
    exact List.map_id obj
  rw [text, encode, encodeList, if_neg h2, hobj, hp, if_neg (by decide)]
  dsimp only
  rw [encodeLines_eq, List.map_map, map_encodings, Nat.add_sub_cancel]
  · simp [text]
  · intro q hq
    obtain ⟨p,hp,rfl⟩ := List.mem_map.mp hq
    exact mem_encodings repr hp

def sorted (level : Nat) (obj : List (Str × Value)) : List (Str × Value) :=
  obj.insertionSort fun p q => sortDict level p.1 ≤ sortDict level q.1

theorem sorted_perm (level : Nat) (obj : List (Str × Value)) : (sorted level obj).Perm obj :=
  List.perm_insertionSort _ _

theorem text_dict (level : Nat) {obj : List (Str × Value)} (hne : obj ≠ []) :
    text repr level (.dict obj) = '{' :: (['\n'] ++ ([',','\n'].intercalate
      ((sorted (level+1) obj).map fun p =>
        indentStr (level+1) ++ (dumpsStr p.1 ++ [':',' '] ++ text repr (level+1) p.2)) ++
          '\n' :: indentStr level) ++ ['}']) := by
  have hsort : (itemEncodings repr obj).insertionSort
      (fun p q => sortDict (level+1) p.1 ≤ sortDict (level+1) q.1) =
      (sorted (level+1) obj).map fun p => (p.1,encode repr p.2) := by
    rw [itemEncodings_eq]
    exact (List.map_insertionSort _ _ (fun p : Str × Value => (p.1,encode repr p.2)) obj
      fun _ _ _ _ => Iff.rfl).symm
  have hempty : (itemEncodings repr obj).isEmpty = false := by
    rw [itemEncodings_eq]
    obtain ⟨p,rest,rfl⟩ := List.exists_cons_of_ne_nil hne
    rfl
  rw [text, encode, encodeDict, hempty, if_neg (by decide)]
  dsimp only
  rw [hsort, encodeLines_eq, List.map_map, List.map_map, Nat.add_sub_cancel]
  · simp [Function.comp_def, text]
  · intro q hq
    obtain ⟨p,hp,rfl⟩ := List.mem_map.mp hq
    obtain ⟨p,-,rfl⟩ := List.mem_map.mp hp
    exact encode_restores repr p.2

theorem text_empty (level : Nat) : text repr level (.dict []) = ['{','}'] := by
  rw [text, encode, itemEncodings, encodeDict]
  rfl

end

end QmkFirmware.KeymapJson
