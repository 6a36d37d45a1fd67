import Mathlib.Data.List.Basic
import Mathlib.Logic.Function.Basic
import Mathlib.Tactic.SplitIfs

/-!
Two lists in one array, each growing from its own end towards the other.
-/

set_option autoImplicit false

namespace QmkFirmware.TwoEnds

inductive End where
  | front | back
  deriving DecidableEq, Repr

def End.other : End → End
  | .front => .back
  | .back => .front

def End.direction : End → Int
  | .front => 1
  | .back => -1

def End.first (size : Nat) : End → Int
  | .front => 0
  | .back => size-1

/-- Where the `k`-th element from an end is. -/
def place (size : Nat) (e : End) (k : Nat) : Int := e.first size+e.direction*k

variable {α : Type} {size : Nat} {e : End} {i j k : Nat}

theorem other_ne (e : End) : e.other ≠ e := by cases e <;> decide

theorem eq_or_other (e f : End) : f = e ∨ f = e.other := by cases e <;> cases f <;> decide

@[simp] theorem place_zero : place size e 0 = e.first size := by simp [place]

theorem place_succ : place size e (k+1) = place size e k+e.direction := by
  cases e <;> simp [place, End.direction] <;> omega

theorem place_pred : place size e (k+1)-e.direction = place size e k := by
  rw [place_succ]
  omega

@[simp] theorem place_inj : place size e i = place size e j ↔ i = j := by
  cases e with
  | front => simp [place, End.direction, Int.natCast_inj]
  | back => simp [place, End.direction, Int.natCast_inj]

theorem place_inside (h : k < size) : 0 ≤ place size e k ∧ place size e k < size := by
  cases e <;> simp [place, End.direction, End.first] <;> omega

theorem place_ne (hi : i < k) (hj : j+k < size) : place size e j ≠ place size e.other i := by
  cases e <;> simp [place, End.direction, End.first, End.other] <;> omega

theorem place_meets : place size e j-e.direction = place size e.other k ↔ j+k = size := by
  cases e <;> simp [place, End.direction, End.first, End.other] <;> omega

/-- The first `k` elements from an end. -/
def slice (m : Int → α) (size : Nat) (e : End) (k : Nat) : List α :=
  (List.range k).map fun i => m (place size e i)

variable {m : Int → α}

@[simp] theorem slice_zero : slice m size e 0 = [] := rfl

@[simp] theorem length_slice : (slice m size e k).length = k := by simp [slice]

theorem slice_succ : slice m size e (k+1) = slice m size e k ++ [m (place size e k)] := by
  simp [slice, List.range_succ]

theorem getElem?_slice (h : i < k) : (slice m size e k)[i]? = some (m (place size e i)) := by
  simp [slice, h]

theorem take_slice (h : i ≤ k) : (slice m size e k).take i = slice m size e i := by
  rw [slice, ← List.map_take, List.take_range, Nat.min_eq_left h]
  rfl

theorem slice_congr {m' : Int → α} (h : ∀ i < k, m' (place size e i) = m (place size e i)) :
    slice m' size e k = slice m size e k :=
  List.map_congr_left fun i hi => h i (List.mem_range.mp hi)

theorem slice_update_self (v : α) (h : k ≤ j) :
    slice (Function.update m (place size e j) v) size e k = slice m size e k :=
  slice_congr fun i hi => Function.update_of_ne (fun he => by
    have := place_inj.mp he
    omega) ..

theorem slice_push (v : α) :
    slice (Function.update m (place size e k) v) size e (k+1) = slice m size e k ++ [v] := by
  rw [slice_succ, slice_update_self v (Nat.le_refl k), Function.update_self]

end QmkFirmware.TwoEnds
