import Mathlib.Data.List.Basic

/-!
Tries as nested dictionaries: a node holds a value or none, and its children under their letters
in the order in which they came.
-/

set_option autoImplicit false

namespace QmkFirmware

inductive Trie (α β : Type) where
  | node (leaf : Option β) (children : List (α × Trie α β))

namespace Trie

variable {α β : Type} [DecidableEq α]

def leaf : Trie α β → Option β
  | .node l _ => l

def children : Trie α β → List (α × Trie α β)
  | .node _ ch => ch

def empty : Trie α β := .node none []

def child (t : Trie α β) (c : α) : Option (Trie α β) := t.children.lookup c

def setChild (c : α) (t : Trie α β) : List (α × Trie α β) → List (α × Trie α β)
  | [] => [(c,t)]
  | (d,u) :: rest => if d = c then (c,t) :: rest else (d,u) :: setChild c t rest

def insert : List α → β → Trie α β → Trie α β
  | [], v, .node _ ch => .node (some v) ch
  | c :: cs, v, .node l ch => .node l (setChild c (insert cs v ((ch.lookup c).getD empty)) ch)

def get : List α → Trie α β → Option β
  | [], t => t.leaf
  | c :: cs, t => (t.child c).bind (get cs)

def find : List α → Trie α β → Option β
  | [], t => t.leaf
  | c :: cs, t => if t.leaf.isSome then t.leaf else (t.child c).bind (find cs)

theorem lookup_setChild (c d : α) (t : Trie α β) (ch : List (α × Trie α β)) :
    (setChild c t ch).lookup d = if d = c then some t else ch.lookup d := by
  induction ch with
  | nil =>
    by_cases h : d = c
    · simp [setChild, h]
    · simp [setChild, List.lookup_cons, h, beq_false_of_ne h]
  | cons x rest ih =>
    obtain ⟨e, u⟩ := x
    simp only [setChild]
    by_cases he : e = c
    · subst he
      rw [if_pos rfl]
      by_cases h : d = e
      · simp [h]
      · simp [List.lookup_cons, h, beq_false_of_ne h]
    · rw [if_neg he, List.lookup_cons, ih, List.lookup_cons]
      by_cases hd : d = e
      · subst hd
        simp [he]
      · simp [beq_false_of_ne hd]

@[simp] theorem get_empty (q : List α) : (empty : Trie α β).get q = none := by
  cases q <;> rfl

theorem get_insert (p q : List α) (v : β) (t : Trie α β) :
    (t.insert p v).get q = if q = p then some v else t.get q := by
  induction p generalizing q t with
  | nil =>
    obtain ⟨l, ch⟩ := t
    cases q <;> simp [insert, get, leaf, child, children]
  | cons c cs ih =>
    obtain ⟨l, ch⟩ := t
    cases q with
    | nil => simp [insert, get, leaf]
    | cons d ds =>
      simp only [insert, get, child, children, lookup_setChild]
      by_cases h : d = c
      · subst h
        rw [if_pos rfl, Option.bind_some, ih]
        by_cases hds : ds = cs
        · simp [hds]
        · rw [if_neg hds, if_neg (by simpa using hds)]
          cases ch.lookup d <;> simp
      · rw [if_neg h, if_neg (by simp [h])]

theorem get_foldl_insert (path : β → List α) (vs : List β)
    (hd : vs.Pairwise fun v w => path v ≠ path w) (t : Trie α β) (q : List α) (v : β) :
    (vs.foldl (fun t w => t.insert (path w) w) t).get q = some v ↔
      (v ∈ vs ∧ path v = q) ∨ ((∀ w ∈ vs, path w ≠ q) ∧ t.get q = some v) := by
  induction vs generalizing t with
  | nil => simp
  | cons w vs ih =>
    obtain ⟨hw, hrest⟩ := List.pairwise_cons.mp hd
    rw [List.foldl_cons, ih hrest, get_insert]
    by_cases hq : q = path w
    · subst hq
      have hnone : ∀ u ∈ vs, path u ≠ path w := fun u hu h => hw u hu h.symm
      simp only [if_pos, Option.some.injEq]
      constructor
      · rintro (⟨hv, hp⟩ | ⟨-, rfl⟩)
        · exact absurd hp (hnone v hv)
        · exact .inl ⟨List.mem_cons_self, rfl⟩
      · rintro (⟨hv, hp⟩ | ⟨hall, -⟩)
        · rcases List.mem_cons.mp hv with rfl | hv
          · exact .inr ⟨hnone, rfl⟩
          · exact absurd hp (hnone v hv)
        · exact absurd rfl (hall w List.mem_cons_self)
    · rw [if_neg hq]
      constructor
      · rintro (⟨hv, hp⟩ | ⟨hall, hg⟩)
        · exact .inl ⟨List.mem_cons_of_mem _ hv, hp⟩
        · refine .inr ⟨fun u hu => ?_, hg⟩
          rcases List.mem_cons.mp hu with rfl | hu
          · exact fun h => hq h.symm
          · exact hall u hu
      · rintro (⟨hv, hp⟩ | ⟨hall, hg⟩)
        · rcases List.mem_cons.mp hv with rfl | hv
          · exact absurd hp.symm hq
          · exact .inl ⟨hv, hp⟩
        · exact .inr ⟨fun u hu => hall u (List.mem_cons_of_mem _ hu), hg⟩

theorem find_of_leaf {t : Trie α β} {v : β} (h : t.leaf = some v) (q : List α) :
    t.find q = some v := by
  cases q with
  | nil => exact h
  | cons c cs => rw [find, if_pos (by simp [h]), h]

theorem find_some {q : List α} {t : Trie α β} {v : β} (h : t.find q = some v) :
    ∃ p, p <+: q ∧ t.get p = some v := by
  induction q generalizing t with
  | nil => exact ⟨[], List.prefix_refl _, h⟩
  | cons c cs ih =>
    simp only [find] at h
    split at h
    · exact ⟨[], List.nil_prefix, h⟩
    · obtain ⟨u, hu, hf⟩ := Option.bind_eq_some_iff.mp h
      obtain ⟨p, hp, hg⟩ := ih hf
      exact ⟨c :: p, List.cons_prefix_cons.mpr ⟨rfl, hp⟩, by rw [get, hu]; exact hg⟩

theorem find_of_get {p q : List α} {t : Trie α β} {v : β} (hp : p <+: q) (h : t.get p = some v) :
    ∃ w, t.find q = some w := by
  induction q generalizing p t with
  | nil =>
    obtain rfl := List.prefix_nil.mp hp
    exact ⟨v, h⟩
  | cons c cs ih =>
    simp only [find]
    split
    · rename_i hs
      exact Option.isSome_iff_exists.mp hs
    · rename_i hs
      cases p with
      | nil => exact absurd (Option.isSome_iff_exists.mpr ⟨v, h⟩) hs
      | cons d ds =>
        obtain ⟨rfl, hds⟩ := List.cons_prefix_cons.mp hp
        obtain ⟨u, hu, hg⟩ := Option.bind_eq_some_iff.mp h
        rw [hu]
        exact ih hds hg

inductive Proper (P : α → Prop) : Trie α β → Prop where
  | node {l : Option β} {ch : List (α × Trie α β)} : (ch.map Prod.fst).Nodup →
      (∀ x ∈ ch, P x.1) → (∀ x ∈ ch, Proper P x.2) → Proper P (.node l ch)

theorem mem_setChild {c : α} {t : Trie α β} {ch : List (α × Trie α β)} {x : α × Trie α β}
    (h : x ∈ setChild c t ch) : x = (c,t) ∨ x ∈ ch := by
  induction ch with
  | nil => exact .inl (List.mem_singleton.mp h)
  | cons y rest ih =>
    simp only [setChild] at h
    split at h
    · rcases List.mem_cons.mp h with h | h
      · exact .inl h
      · exact .inr (List.mem_cons_of_mem _ h)
    · rcases List.mem_cons.mp h with h | h
      · exact .inr (h ▸ List.mem_cons_self)
      · exact (ih h).imp_right (List.mem_cons_of_mem _)

theorem nodup_setChild {c : α} {t : Trie α β} {ch : List (α × Trie α β)}
    (h : (ch.map Prod.fst).Nodup) : ((setChild c t ch).map Prod.fst).Nodup := by
  induction ch with
  | nil => simp [setChild]
  | cons y rest ih =>
    rw [List.map_cons, List.nodup_cons] at h
    simp only [setChild]
    split
    · rename_i he
      rw [List.map_cons, List.nodup_cons]
      exact ⟨he ▸ h.1, h.2⟩
    · rename_i he
      rw [List.map_cons, List.nodup_cons]
      refine ⟨fun hmem => ?_, ih h.2⟩
      obtain ⟨x, hx, hxy⟩ := List.mem_map.mp hmem
      rcases mem_setChild hx with rfl | hx
      · exact he hxy.symm
      · exact h.1 (List.mem_map.mpr ⟨x, hx, hxy⟩)

omit [DecidableEq α] in
theorem proper_empty {P : α → Prop} : Proper P (empty : Trie α β) :=
  .node List.nodup_nil (fun _ h => absurd h List.not_mem_nil) (fun _ h => absurd h List.not_mem_nil)

omit [DecidableEq α] in
theorem Proper.child {P : α → Prop} {l : Option β} {ch : List (α × Trie α β)}
    (h : Proper P (.node l ch)) {x : α × Trie α β} (hx : x ∈ ch) : P x.1 ∧ Proper P x.2 := by
  cases h with
  | node _ hP hrec => exact ⟨hP x hx, hrec x hx⟩

theorem mem_of_lookup {c : α} {t : Trie α β} {ch : List (α × Trie α β)}
    (h : ch.lookup c = some t) : (c,t) ∈ ch := by
  induction ch with
  | nil => cases h
  | cons y rest ih =>
    obtain ⟨d, u⟩ := y
    rw [List.lookup_cons] at h
    by_cases hc : c = d
    · subst hc
      simp only [beq_self_eq_true, Option.some.injEq] at h
      exact h ▸ List.mem_cons_self
    · simp only [beq_eq_false_iff_ne.mpr hc] at h
      exact List.mem_cons_of_mem _ (ih h)

theorem lookup_of_mem {c : α} {t : Trie α β} {ch : List (α × Trie α β)}
    (hn : (ch.map Prod.fst).Nodup) (h : (c,t) ∈ ch) : ch.lookup c = some t := by
  induction ch with
  | nil => cases h
  | cons y rest ih =>
    obtain ⟨d, u⟩ := y
    rw [List.map_cons, List.nodup_cons] at hn
    rw [List.lookup_cons]
    rcases List.mem_cons.mp h with heq | h
    · cases heq
      simp
    · have hc : c ≠ d := fun hc => hn.1 (hc ▸ List.mem_map.mpr ⟨(c,t), h, rfl⟩)
      simp only [beq_eq_false_iff_ne.mpr hc]
      exact ih hn.2 h

theorem Proper.insert {P : α → Prop} {p : List α} (hp : ∀ c ∈ p, P c) (v : β) {t : Trie α β}
    (h : Proper P t) : Proper P (t.insert p v) := by
  induction p generalizing t with
  | nil =>
    cases h with
    | node hn hP hrec => exact .node hn hP hrec
  | cons c cs ih =>
    cases h with
    | @node l ch hn hP hrec =>
      have hsub : Proper P ((ch.lookup c).getD empty) := by
        cases hl : ch.lookup c with
        | none => exact proper_empty
        | some u => exact hrec _ (mem_of_lookup hl)
      have hnew := ih (fun d hd => hp d (List.mem_cons_of_mem _ hd)) hsub
      refine .node (nodup_setChild hn) (fun x hx => ?_) (fun x hx => ?_)
      · rcases mem_setChild hx with rfl | hx
        · exact hp c List.mem_cons_self
        · exact hP x hx
      · rcases mem_setChild hx with rfl | hx
        · exact hnew
        · exact hrec x hx

end Trie

end QmkFirmware
