import Mathlib.Data.BitVec

/-!
`sym_defer_g.c`: the matrix is pushed when nothing has changed for `DEBOUNCE` milliseconds.
-/

set_option autoImplicit false

namespace QmkFirmware.Debounce

structure Global (α : Type) (w : Nat) where
  debouncing : Bool
  debouncingTime : BitVec w
  cooked : α

variable {α : Type} {w : Nat}

/-- `debounce` of sym_defer_g.c; the timer wraps around. -/
def symDeferG [DecidableEq α] (DEBOUNCE : Nat) (raw : α) (now : BitVec w) (changed : Bool)
    (s : Global α w) : Bool × Global α w :=
  if changed then (false,{ s with debouncing := true, debouncingTime := now })
  else if s.debouncing ∧ DEBOUNCE ≤ (now-s.debouncingTime).toNat then
    (decide (s.cooked ≠ raw),{ s with cooked := raw, debouncing := false })
  else (false,s)

/-- When it does not wait, the cooked matrix is the raw one. -/
def Global.Settled (s : Global α w) (raw : α) : Prop := s.debouncing = false → s.cooked = raw

theorem symDeferG_settled [DecidableEq α] {DEBOUNCE : Nat} {last raw : α} {now : BitVec w}
    {changed : Bool} {s : Global α w} (h : s.Settled last) (htold : changed = false → raw = last) :
    (symDeferG DEBOUNCE raw now changed s).2.Settled raw := by
  unfold symDeferG
  cases changed with
  | true => exact nofun
  | false =>
    rw [if_neg Bool.false_ne_true]
    split
    · exact fun _ => rfl
    · intro hidle
      rw [htold rfl]
      exact h hidle

theorem symDeferG_cooked [DecidableEq α] (DEBOUNCE : Nat) (raw : α) (now : BitVec w)
    (changed : Bool) (s : Global α w) :
    (symDeferG DEBOUNCE raw now changed s).2.cooked = s.cooked
    ∨ (symDeferG DEBOUNCE raw now changed s).2.cooked = raw := by
  unfold symDeferG
  split_ifs
  · exact .inl rfl
  · exact .inr rfl
  · exact .inl rfl

end QmkFirmware.Debounce
