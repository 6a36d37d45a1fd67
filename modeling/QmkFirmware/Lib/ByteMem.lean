import Mathlib.Data.List.Basic

/-!
Byte-addressed memory as a total function, with block reads and writes.
Nothing here knows which device the bytes belong to.
-/

set_option autoImplicit false

abbrev ByteMem := Nat → UInt8

namespace ByteMem

/-- Every byte in its reset state. -/
def blank : ByteMem := fun _ => 0

def read (m : ByteMem) (a n : Nat) : List UInt8 := (List.range n).map fun i => m (a+i)

def write (m : ByteMem) (a : Nat) (bs : List UInt8) : ByteMem :=
  fun x => if a ≤ x then bs.getD (x-a) (m x) else m x

@[simp] theorem blank_apply (x : Nat) : blank x = 0 := rfl

@[simp] theorem length_read (m : ByteMem) (a n : Nat) : (m.read a n).length = n := by
  simp [read]

@[simp] theorem read_zero (m : ByteMem) (a : Nat) : m.read a 0 = [] := rfl

theorem read_succ (m : ByteMem) (a n : Nat) : m.read a (n+1) = m a :: m.read (a+1) n := by
  simp only [read, List.range_succ_eq_map, List.map_cons, List.map_map, Nat.add_zero]
  congr 1
  apply List.map_congr_left
  intro i _
  simp [Nat.add_assoc, Nat.add_comm 1]

theorem read_add (m : ByteMem) (a n k : Nat) :
    m.read a (n+k) = m.read a n ++ m.read (a+n) k := by
  induction n generalizing a with
  | zero => simp
  | succ n ih =>
    have h : n+1+k = (n+k)+1 := by omega
    rw [h, read_succ, read_succ, ih (a+1), Nat.add_assoc a 1 n, Nat.add_comm 1 n]
    rfl

theorem read_mul (m : ByteMem) (a n k : Nat) :
    m.read a (n*k) = (List.range n).flatMap fun i => m.read (a+i*k) k := by
  induction n with
  | zero => simp
  | succ n ih =>
    rw [Nat.succ_mul, read_add, ih, List.range_succ, List.flatMap_append]
    simp

theorem getD_read (m : ByteMem) (a n i : Nat) :
    (m.read a n).getD i 0 = if i < n then m (a+i) else 0 := by
  by_cases h : i < n
  · simp [read, List.getD, h]
  · have hlen : (m.read a n).length ≤ i := by simpa using h
    rw [List.getD, List.getElem?_eq_none hlen, if_neg h]
    rfl

theorem read_congr {m m' : ByteMem} {a n : Nat} (h : ∀ x, a ≤ x → x < a+n → m x = m' x) :
    m.read a n = m'.read a n := by
  apply List.map_congr_left
  intro i hi
  have hi := List.mem_range.mp hi
  exact h _ (by omega) (by omega)

theorem read_blank (a n : Nat) : blank.read a n = List.replicate n 0 := by
  simp [read, List.map_const']

theorem write_apply (m : ByteMem) (a : Nat) (bs : List UInt8) (x : Nat) :
    m.write a bs x = if a ≤ x then bs.getD (x-a) (m x) else m x := rfl

theorem write_at (m : ByteMem) (a i : Nat) (bs : List UInt8) :
    m.write a bs (a+i) = bs.getD i (m (a+i)) := by
  rw [write_apply, if_pos (Nat.le_add_right a i), Nat.add_sub_cancel_left]

theorem write_outside {m : ByteMem} {a x : Nat} {bs : List UInt8}
    (h : x < a ∨ a + bs.length ≤ x) : m.write a bs x = m x := by
  rw [write_apply]
  split
  · have hx : bs.length ≤ x-a := by omega
    simp [List.getD, List.getElem?_eq_none hx]
  · rfl

@[simp] theorem write_nil (m : ByteMem) (a : Nat) : m.write a [] = m := by
  funext x
  simp [write_apply]

@[simp] theorem write_cons_same (m : ByteMem) (a : Nat) (b : UInt8) (bs : List UInt8) :
    m.write a (b :: bs) a = b := by
  simp [write_apply]

theorem write_append (m : ByteMem) (a : Nat) (xs ys : List UInt8) :
    m.write a (xs ++ ys) = (m.write a xs).write (a+xs.length) ys := by
  funext x
  by_cases h : a + xs.length ≤ x
  · have h₁ : a ≤ x := by omega
    have h₂ : xs.length ≤ x-a := by omega
    have h₃ : x-a-xs.length = x-(a+xs.length) := by omega
    simp [write_apply, h, h₁, List.getD, List.getElem?_append_right h₂, h₃,
      List.getElem?_eq_none h₂]
  · by_cases h₁ : a ≤ x
    · have h₂ : x-a < xs.length := by omega
      simp [write_apply, h, h₁, List.getD, List.getElem?_append_left h₂]
    · simp [write_apply, h, h₁]

theorem write_cons (m : ByteMem) (a : Nat) (b : UInt8) (bs : List UInt8) :
    m.write a (b :: bs) = (m.write a [b]).write (a+1) bs :=
  write_append m a [b] bs

@[simp] theorem read_write_same (m : ByteMem) (a : Nat) (bs : List UInt8) :
    (m.write a bs).read a bs.length = bs := by
  apply List.ext_getElem
  · simp
  · intro i h₁ h₂
    simp [read, write_apply, List.getD, List.getElem?_eq_getElem h₂]

theorem read_write_disjoint (m : ByteMem) (a b n : Nat) (bs : List UInt8)
    (h : b + n ≤ a ∨ a + bs.length ≤ b) : (m.write a bs).read b n = m.read b n := by
  apply read_congr
  intro x h₁ h₂
  exact write_outside (by omega)

theorem write_read (m : ByteMem) (a n : Nat) : m.write a (m.read a n) = m := by
  funext x
  by_cases h : a ≤ x ∧ x < a+n
  · have hx : x-a < n := by omega
    have hs : a + (x-a) = x := by omega
    simp [write_apply, h.1, read, List.getD, hx, hs]
  · exact write_outside (by simp; omega)

end ByteMem
