import Mathlib.Data.List.Basic

/-!
Textual replacement from left to right, without overlaps.
-/

set_option autoImplicit false

namespace QmkFirmware

variable {α : Type} [DecidableEq α] {old new : List α}

def replaceFrom (old new : List α) : Nat → List α → List α
  | _, [] => []
  | n+1, _ :: s => replaceFrom old new n s
  | 0, a :: s =>
    if old <+: a :: s then new ++ replaceFrom old new (old.length-1) s
    else a :: replaceFrom old new 0 s

/-- Every occurrence of `old`, which is not empty, gives way to `new`. -/
def replace (old new s : List α) : List α := replaceFrom old new 0 s

theorem replaceFrom_eq (n : Nat) (s : List α) :
    replaceFrom old new n s = replace old new (s.drop n) := by
  induction n generalizing s with
  | zero => rfl
  | succ n ih =>
    cases s with
    | nil => rfl
    | cons a s => exact ih s

theorem replace_append (h : old ≠ []) (s : List α) :
    replace old new (old ++ s) = new ++ replace old new s := by
  obtain ⟨a,rest,rfl⟩ := List.exists_cons_of_ne_nil h
  have hp : a :: rest <+: a :: (rest ++ s) := ⟨s,rfl⟩
  have hdrop : (rest ++ s).drop (rest.length+1-1) = s := List.drop_left
  rw [List.cons_append, replace, replaceFrom, if_pos hp, List.length_cons, replaceFrom_eq, hdrop]

theorem replace_cons {a : α} {s : List α} (h : ¬old <+: a :: s) :
    replace old new (a :: s) = a :: replace old new s :=
  if_neg h

theorem replace_singleton (b : α) (new s : List α) :
    replace [b] new s = s.flatMap fun a => if a = b then new else [a] := by
  induction s with
  | nil => rfl
  | cons a s ih =>
    rw [List.flatMap_cons, ← ih]
    by_cases hab : a = b
    · rw [if_pos hab, hab]
      exact replace_append (List.cons_ne_nil b []) s
    · rw [if_neg hab, replace_cons (fun hp => hab (List.cons_prefix_cons.mp hp).1.symm)]
      rfl

theorem replace_of_notMem {b : α} {rest t : List α} (h : b ∉ t) (s : List α) :
    replace (b :: rest) new (t ++ s) = t ++ replace (b :: rest) new s := by
  induction t with
  | nil => rfl
  | cons a t ih =>
    have hne : ¬b :: rest <+: a :: (t ++ s) := fun hp =>
      h (List.mem_cons.mpr (Or.inl (List.cons_prefix_cons.mp hp).1))
    rw [List.cons_append, replace_cons hne, ih (fun hm => h (List.mem_cons_of_mem a hm)),
      List.cons_append]

end QmkFirmware
