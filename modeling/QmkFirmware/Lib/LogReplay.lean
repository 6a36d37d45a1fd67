import QmkFirmware.Lib.ByteMem

/-!
Append-only logs on a byte memory. A reader looks at an address and either finds
an entry there, which moves the address on and changes a value of any type, or
finds none. The facts below are all a writer needs in order to append.
-/

set_option autoImplicit false

namespace LogReplay
variable {σ : Type}

abbrev Reader (σ : Type) := ByteMem → Nat → σ → Option (Nat × σ)

structure Local (next : Reader σ) : Prop where
  forward : ∀ {m a s b t}, next m a s = some (b,t) → a < b
  congr : ∀ {m m' : ByteMem} {a s b t}, next m a s = some (b,t) →
    (∀ x, a ≤ x → x < b → m x = m' x) → next m' a s = some (b,t)

inductive Plays (next : Reader σ) (m : ByteMem) : Nat → σ → Nat → σ → Prop where
  | refl (a : Nat) (s : σ) : Plays next m a s a s
  | step {a b c : Nat} {s t u : σ} :
      next m a s = some (b,t) → Plays next m b t c u → Plays next m a s c u

variable {next : Reader σ} {m m' : ByteMem} {a b c : Nat} {s t u : σ}

theorem Plays.one (h : next m a s = some (b,t)) : Plays next m a s b t :=
  .step h (.refl b t)

theorem Plays.trans (h : Plays next m a s b t) (k : Plays next m b t c u) :
    Plays next m a s c u := by
  induction h with
  | refl => exact k
  | step e _ ih => exact .step e (ih k)

theorem Plays.le (hl : Local next) (h : Plays next m a s b t) : a ≤ b := by
  induction h with
  | refl => exact Nat.le_refl _
  | step e _ ih => exact Nat.le_trans (Nat.le_of_lt (hl.forward e)) ih

theorem Plays.congr (hl : Local next) (h : Plays next m a s b t)
    (hm : ∀ x, a ≤ x → x < b → m x = m' x) : Plays next m' a s b t := by
  induction h with
  | refl => exact .refl _ _
  | step e k ih =>
    have h₁ := hl.forward e
    have h₂ := k.le hl
    refine .step (hl.congr e fun x hx hx' => hm x hx (by omega)) (ih ?_)
    exact fun x hx hx' => hm x (by omega) hx'

theorem Plays.write (hl : Local next) (h : Plays next m a s b t) {x : Nat}
    {bs : List UInt8} (hx : b ≤ x) : Plays next (m.write x bs) a s b t := by
  apply h.congr hl
  intro y _ hy
  exact (ByteMem.write_outside (by omega)).symm

/-- A log with a blank rest: what playback has reached when it finds nothing more. -/
structure Ends (next : Reader σ) (m : ByteMem) (a : Nat) (s : σ) (b : Nat) (t : σ) : Prop where
  plays : Plays next m a s b t
  blank : ∀ x, b ≤ x → m x = 0

/-- Appending bytes that read as one entry. The entry may claim more bytes than were
written: the rest of it then reads as blank. -/
theorem Ends.append (hl : Local next) (h : Ends next m a s b t) {bs : List UInt8}
    (hb : b + bs.length ≤ c) (e : next (m.write b bs) b t = some (c,u)) :
    Ends next (m.write b bs) a s c u where
  plays := (h.plays.write hl (Nat.le_refl b)).trans (.one e)
  blank x hx := by
    rw [ByteMem.write_outside (by omega)]
    exact h.blank x (by omega)

end LogReplay
