import Mathlib.Data.List.Basic
import Mathlib.Logic.Function.Basic

/-!
A ring of `n` slots with a read and a write index and no count. Its entries are the slots from
the read index up to the write index; a write that makes the indices meet empties it.
-/

set_option autoImplicit false

namespace QmkFirmware

structure Ring (α : Type) (n : Nat) where
  slots : Nat → α
  read : Nat
  write : Nat
  read_lt : read < n
  write_lt : write < n

namespace Ring

variable {α : Type} {n : Nat}

/-- The indices that a loop from `i` visits until it meets `w`. -/
def between (n i w : Nat) : List Nat :=
  if i ≤ w then List.range' i (w-i) else List.range' i (n-i) ++ List.range' 0 w

theorem between_self (i : Nat) : between n i i = [] := by
  simp [between]

theorem next_eq {i : Nat} (h : i < n) : (i+1) % n = if i+1 = n then 0 else i+1 := by
  split
  · rename_i hn
    rw [hn, Nat.mod_self]
  · exact Nat.mod_eq_of_lt (by omega)

theorem next_lt {i : Nat} (h : i < n) : (i+1) % n < n := Nat.mod_lt _ (by omega)

theorem between_next {i w : Nat} (hi : i < n) (hw : w < n) (hne : i ≠ w) :
    between n i w = i :: between n ((i+1) % n) w := by
  rw [next_eq hi]
  unfold between
  by_cases hle : i ≤ w
  · rw [if_pos hle, if_neg (show ¬ i+1 = n by omega), if_pos (show i+1 ≤ w by omega),
      show w-i = w-(i+1)+1 by omega,
      List.range'_succ]
  · rw [if_neg hle, show n-i = n-(i+1)+1 by omega, List.range'_succ, List.cons_append]
    by_cases hn : i+1 = n
    · rw [if_pos hn, if_pos (Nat.zero_le _)]
      simp [hn]
    · rw [if_neg hn, if_neg (by omega)]

theorem mem_between_lt {i w x : Nat} (hw : w < n) (h : x ∈ between n i w) : x < n := by
  unfold between at h
  split at h <;> simp only [List.mem_append, List.mem_range'_1] at h <;> omega

theorem not_mem_between (i w : Nat) : w ∉ between n i w := by
  unfold between
  split
  · simp [List.mem_range'_1]
    omega
  · simp [List.mem_range'_1]
    omega

theorem between_push {i w : Nat} (hi : i < n) (hw : w < n) (hne : (w+1) % n ≠ i) :
    between n i ((w+1) % n) = between n i w ++ [w] := by
  rw [next_eq hw] at hne ⊢
  unfold between
  by_cases hn : w+1 = n
  · rw [if_pos hn] at hne ⊢
    rw [if_neg (by omega), if_pos (by omega), List.range'_zero, List.append_nil,
      show n-i = (w-i)+1 by omega, List.range'_concat]
    simp
    omega
  · rw [if_neg hn] at hne ⊢
    by_cases hle : i ≤ w
    · rw [if_pos (by omega), if_pos hle, show w+1-i = (w-i)+1 by omega, List.range'_concat]
      simp
      omega
    · rw [if_neg (by omega), if_neg hle, List.append_assoc, List.range'_concat]
      simp

def indices (r : Ring α n) : List Nat := between n r.read r.write

/-- What the loops over the ring see. -/
def entries (r : Ring α n) : List α := r.indices.map r.slots

def push (r : Ring α n) (x : α) : Ring α n where
  slots := Function.update r.slots r.write x
  read := r.read
  write := (r.write+1) % n
  read_lt := r.read_lt
  write_lt := next_lt r.write_lt

def pop (r : Ring α n) : Ring α n where
  slots := r.slots
  read := (r.read+1) % n
  write := r.write
  read_lt := next_lt r.read_lt
  write_lt := r.write_lt

/-- The read index jumps to the write index. -/
def drain (r : Ring α n) : Ring α n := { r with read := r.write, read_lt := r.write_lt }

def isEmpty (r : Ring α n) : Bool := r.read = r.write

def isFull (r : Ring α n) : Bool := (r.write+1) % n = r.read

theorem between_length (i w : Nat) :
    (between n i w).length = if i ≤ w then w-i else n-i+w := by
  unfold between
  split
  · simp
  · simp

theorem slots_mem_entries {r : Ring α n} {i : Nat} (h : i ∈ r.indices) : r.slots i ∈ r.entries :=
  List.mem_map_of_mem h

theorem isEmpty_iff {r : Ring α n} : r.isEmpty = true ↔ r.entries = [] := by
  rw [isEmpty, decide_eq_true_eq, entries, List.map_eq_nil_iff, indices]
  constructor
  · intro h
    rw [h, between_self]
  · intro h
    by_contra hne
    rw [between_next r.read_lt r.write_lt hne] at h
    cases h

theorem entries_push (r : Ring α n) (x : α) :
    (r.push x).entries = if (r.write+1) % n = r.read then [] else r.entries ++ [x] := by
  split
  · rename_i h
    simp [entries, indices, push, h, between_self]
  · rename_i h
    have hold : (between n r.read r.write).map (Function.update r.slots r.write x)
        = (between n r.read r.write).map r.slots := by
      refine List.map_congr_left fun i hi => ?_
      rw [Function.update_of_ne]
      rintro rfl
      exact not_mem_between _ _ hi
    rw [entries, indices]
    simp only [push]
    rw [between_push r.read_lt r.write_lt h, List.map_append, hold]
    simp [entries, indices]

theorem entries_pop {r : Ring α n} (h : r.isEmpty = false) :
    r.entries = r.slots r.read :: r.pop.entries := by
  have hne : r.read ≠ r.write := by simpa [isEmpty] using h
  simp only [entries, indices, pop, between_next r.read_lt r.write_lt hne, List.map_cons]

theorem isFull_iff {r : Ring α n} : r.isFull = true ↔ r.entries.length+1 = n := by
  have hr := r.read_lt
  have hw := r.write_lt
  rw [isFull, decide_eq_true_eq, entries, List.length_map, indices, between_length,
    next_eq hw]
  split <;> split <;> omega

theorem entries_push_room {r : Ring α n} (h : r.isFull = false) (x : α) :
    (r.push x).entries = r.entries ++ [x] := by
  rw [entries_push, if_neg]
  intro hfull
  simp [isFull, hfull] at h

theorem entries_drain (r : Ring α n) : r.drain.entries = [] := by
  simp [entries, indices, drain, between_self]

end Ring

end QmkFirmware
