import Mathlib.Data.Nat.Bitwise
import Mathlib.Logic.Function.Basic
import Mathlib.Tactic.SplitIfs

/-!
Flags packed into words of a fixed width: flag `i` is bit `i % w` of word `i / w`.
-/

set_option autoImplicit false

namespace QmkFirmware.PackedBits

variable {w : Nat}

def read (words : Nat → BitVec w) (i : Nat) : Bool := (words (i/w)).getLsbD (i % w)

def write (words : Nat → BitVec w) (i : Nat) (on : Bool) : Nat → BitVec w :=
  Function.update words (i/w) (if on then words (i/w) ||| BitVec.twoPow w (i % w)
    else words (i/w) &&& ~~~BitVec.twoPow w (i % w))

theorem and_twoPow_ne_zero {i : Nat} (h : i < w) (x : BitVec w) :
    x &&& BitVec.twoPow w i ≠ 0 ↔ x.getLsbD i = true := by
  rw [BitVec.and_twoPow]
  have hne : BitVec.twoPow w i ≠ 0 := fun heq => by
    have hbit := congrArg (fun y => y.getLsbD i) heq
    simp [h] at hbit
  split_ifs with hx
  · exact ⟨fun _ => hx,fun _ => hne⟩
  · exact ⟨fun h => absurd rfl h,fun h => absurd h hx⟩

theorem and_twoPow_read (hw : 0 < w) (words : Nat → BitVec w) (i : Nat) :
    words (i/w) &&& BitVec.twoPow w (i % w) ≠ 0 ↔ read words i = true :=
  and_twoPow_ne_zero (Nat.mod_lt i hw) _

theorem read_write (hw : 0 < w) (words : Nat → BitVec w) (i j : Nat) (on : Bool) :
    read (write words i on) j = if j = i then on else read words j := by
  have hi := Nat.mod_lt i hw
  have hj := Nat.mod_lt j hw
  unfold read write
  by_cases hword : j/w = i/w
  · rw [hword, Function.update_self]
    have hiff : i % w = j % w ↔ j = i := by
      refine ⟨fun h => ?_,fun h => by rw [h]⟩
      rw [← Nat.div_add_mod j w, ← Nat.div_add_mod i w, hword, h]
    have hmask : (BitVec.twoPow w (i % w)).getLsbD (j % w) = decide (j = i) := by
      rw [BitVec.getLsbD_twoPow, decide_eq_true hi, Bool.true_and, decide_eq_decide.mpr hiff]
    cases on with
    | true =>
      rw [if_pos rfl, BitVec.getLsbD_or, hmask]
      by_cases h : j = i
      · rw [if_pos h, decide_eq_true h, Bool.or_true]
      · rw [if_neg h, decide_eq_false h, Bool.or_false]
    | false =>
      rw [if_neg (by decide), BitVec.getLsbD_and, BitVec.getLsbD_not, hmask, decide_eq_true hj]
      by_cases h : j = i
      · rw [if_pos h, decide_eq_true h, Bool.not_true, Bool.and_false, Bool.and_false]
      · rw [if_neg h, decide_eq_false h, Bool.not_false, Bool.and_true, Bool.and_true]
  · rw [Function.update_of_ne hword, if_neg fun h => hword (by rw [h])]

end QmkFirmware.PackedBits
