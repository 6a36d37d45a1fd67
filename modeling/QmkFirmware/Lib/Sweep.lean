import Mathlib.Data.List.Nodup
import Mathlib.Data.List.ProdSigma
import Mathlib.Data.List.FinRange
import Mathlib.Logic.Function.Basic

/-!
A loop over all cells of an array. Each turn replaces one cell, from its own value, and adds to
flags that all turns share.
-/

set_option autoImplicit false

namespace QmkFirmware

structure LoopOrder (ι : Type) where
  indices : List ι
  nodup : indices.Nodup
  complete : ∀ k, k ∈ indices

def LoopOrder.single (n : Nat) : LoopOrder (Fin n) :=
  ⟨List.finRange n, List.nodup_finRange n, List.mem_finRange⟩

/-- Two loops, the second inside the first. -/
def LoopOrder.nested (m n : Nat) : LoopOrder (Fin m × Fin n) where
  indices := List.finRange m ×ˢ List.finRange n
  nodup := (List.nodup_finRange m).product (List.nodup_finRange n)
  complete := fun k => List.mem_product.mpr ⟨List.mem_finRange k.1, List.mem_finRange k.2⟩

namespace Sweep

variable {ι σ φ : Type} [DecidableEq ι] (visit : ι → σ → σ × φ) (add : φ → φ → φ)

def turn (s : (ι → σ) × φ) (k : ι) : (ι → σ) × φ :=
  let r := visit k (s.1 k)
  (Function.update s.1 k r.1,add s.2 r.2)

def sweep (order : LoopOrder ι) (s : (ι → σ) × φ) : (ι → σ) × φ :=
  order.indices.foldl (turn visit add) s

theorem turn_other (s : (ι → σ) × φ) {j k : ι} (h : j ≠ k) : (turn visit add s k).1 j = s.1 j :=
  Function.update_of_ne h _ _

theorem foldl_cell (ks : List ι) (hnd : ks.Nodup) (s : (ι → σ) × φ) (j : ι) :
    (ks.foldl (turn visit add) s).1 j = if j ∈ ks then (visit j (s.1 j)).1 else s.1 j := by
  induction ks generalizing s with
  | nil => rfl
  | cons k ks ih =>
    obtain ⟨hk,hnd⟩ := List.nodup_cons.mp hnd
    rw [List.foldl_cons, ih hnd]
    by_cases hj : j = k
    · subst j
      simp [hk, turn]
    · simp [hj, turn_other visit add s hj]

theorem foldl_flag (p : φ → Bool) (hp : ∀ a b, p (add a b) = (p a || p b)) (ks : List ι)
    (hnd : ks.Nodup) (s : (ι → σ) × φ) :
    p (ks.foldl (turn visit add) s).2 = (p s.2 || ks.any fun k => p (visit k (s.1 k)).2) := by
  induction ks generalizing s with
  | nil => simp
  | cons k ks ih =>
    obtain ⟨hk,hnd⟩ := List.nodup_cons.mp hnd
    have hsame : (ks.any fun j => p (visit j ((turn visit add s k).1 j)).2)
        = ks.any fun j => p (visit j (s.1 j)).2 := by
      rw [Bool.eq_iff_iff, List.any_eq_true, List.any_eq_true]
      refine exists_congr fun j => and_congr_right fun hj => ?_
      have hne : j ≠ k := fun h => hk (h ▸ hj)
      rw [turn_other visit add s hne]
    rw [List.foldl_cons, ih hnd, hsame, List.any_cons, turn, hp, Bool.or_assoc]

theorem foldl_gathered {α : Type} (visit : ι → σ → σ × List α) (ks : List ι) (hnd : ks.Nodup)
    (s : (ι → σ) × List α) :
    (ks.foldl (turn visit (· ++ ·)) s).2 = s.2 ++ ks.flatMap fun k => (visit k (s.1 k)).2 := by
  induction ks generalizing s with
  | nil => simp
  | cons k ks ih =>
    obtain ⟨hk,hnd⟩ := List.nodup_cons.mp hnd
    have hsame : (ks.flatMap fun j => (visit j ((turn visit (· ++ ·) s k).1 j)).2)
        = ks.flatMap fun j => (visit j (s.1 j)).2 := by
      refine List.flatMap_congr fun j hj => ?_
      have hne : j ≠ k := fun h => hk (h ▸ hj)
      rw [turn_other visit _ s hne]
    rw [List.foldl_cons, ih hnd, hsame, List.flatMap_cons, turn, List.append_assoc]

variable (order : LoopOrder ι) (s : (ι → σ) × φ)

theorem sweep_cell (k : ι) : (sweep visit add order s).1 k = (visit k (s.1 k)).1 := by
  rw [sweep, foldl_cell visit add _ order.nodup, if_pos (order.complete k)]

theorem sweep_flag {p : φ → Bool} (hp : ∀ a b, p (add a b) = (p a || p b)) :
    p (sweep visit add order s).2 = true
      ↔ p s.2 = true ∨ ∃ k, p (visit k (s.1 k)).2 = true := by
  rw [sweep, foldl_flag visit add p hp _ order.nodup, Bool.or_eq_true, List.any_eq_true]
  simp [order.complete]

theorem sweep_gathered {α : Type} (visit : ι → σ → σ × List α) (s : (ι → σ) × List α) :
    (sweep visit (· ++ ·) order s).2
      = s.2 ++ order.indices.flatMap fun k => (visit k (s.1 k)).2 :=
  foldl_gathered visit _ order.nodup s

end Sweep

end QmkFirmware
