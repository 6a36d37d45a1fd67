import Mathlib.Data.List.Basic
import Mathlib.Data.List.Perm.Basic

/-!
A relay: items arrive at a queue and are passed on. Items of one kind may be passed on ahead
of the queue, all others leave it in the order of arrival.
-/

set_option autoImplicit false

namespace Relay

variable {α : Type}

/-- What arrived, what was passed on, and what is waiting. A passed item carries a flag that
says whether it was passed ahead of the queue. -/
inductive InOrder (mayOvertake : α → Prop) : List α → List (Bool × α) → List α → Prop where
  | start : InOrder mayOvertake [] [] []
  | arrive {a : List α} {p : List (Bool × α)} {w : List α} (x : α) :
      InOrder mayOvertake a p w → InOrder mayOvertake (a ++ [x]) p (w ++ [x])
  | next {a : List α} {p : List (Bool × α)} {w : List α} {x : α} :
      InOrder mayOvertake a p (x :: w) → InOrder mayOvertake a (p ++ [(false,x)]) w
  | overtake {a : List α} {p : List (Bool × α)} {w₁ w₂ : List α} {x : α} :
      mayOvertake x → InOrder mayOvertake a p (w₁ ++ x :: w₂) →
      InOrder mayOvertake a (p ++ [(true,x)]) (w₁ ++ w₂)

variable {mayOvertake : α → Prop} {a : List α} {p : List (Bool × α)} {w : List α}

theorem InOrder.perm (h : InOrder mayOvertake a p w) : (p.map Prod.snd ++ w).Perm a := by
  induction h with
  | start => exact .refl _
  | arrive x _ ih =>
    rw [← List.append_assoc]
    exact ih.append_right [x]
  | next _ ih => simpa using ih
  | @overtake a p w₁ w₂ x _ _ ih =>
    refine .trans ?_ ih
    rw [List.map_append, List.append_assoc]
    show (p.map Prod.snd ++ x :: (w₁ ++ w₂)).Perm _
    exact (List.perm_middle.symm).append_left _

theorem InOrder.filter (h : InOrder mayOvertake a p w) (q : α → Bool)
    (hq : ∀ x, mayOvertake x → q x = false) :
    (p.map Prod.snd).filter q ++ w.filter q = a.filter q := by
  induction h with
  | start => rfl
  | arrive x _ ih => rw [List.filter_append, List.filter_append, ← ih, List.append_assoc]
  | @next a p w x _ ih =>
    rw [← ih]
    cases hx : q x <;> simp [hx]
  | @overtake a p w₁ w₂ x hx _ ih =>
    rw [← ih]
    simp [hq x hx]

end Relay
