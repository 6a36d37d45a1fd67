import QmkFirmware.Lib.ByteProg

/-!
A device that keeps bytes in some state of its own, and what it takes for a program to run on it
as on a plain memory.
-/

set_option autoImplicit false

structure ByteDevice (σ : Type) where
  read : Nat → σ → UInt8 × σ
  write : Nat → List UInt8 → σ → σ

namespace ByteDevice

variable {ρ α β σ : Type}

def memory : ByteDevice ByteMem := ⟨fun a m => (m a,m),fun a bs m => m.write a bs⟩

/-- States that stand for a memory of this size: they answer as it does, and go on standing for
it. -/
structure Models (dev : ByteDevice σ) (size : Nat) (rel : σ → ByteMem → Prop) : Prop where
  read : ∀ {x m a}, rel x m → a < size → (dev.read a x).1 = m a ∧ rel (dev.read a x).2 m
  write : ∀ {x m a bs}, rel x m → (bs ≠ [] → a+bs.length ≤ size) →
    rel (dev.write a bs x) (m.write a bs)

theorem memory_models (size : Nat) : memory.Models size Eq where
  read := by
    rintro x m a rfl -
    exact ⟨rfl,rfl⟩
  write := by
    rintro x m a bs rfl -
    rfl

end ByteDevice

namespace ByteProg

open ByteDevice

variable {ρ α β σ : Type} [DecidableEq ρ]

/-- The program with the memory `r` on the device. -/
def runOn (r : ρ) (dev : ByteDevice σ) : ByteProg ρ α → ByteMems ρ → σ → α × ByteMems ρ × σ
  | .done v, s, x => (v,s,x)
  | .read r' a next, s, x =>
    if r' = r then (next (dev.read a x).1).runOn r dev s (dev.read a x).2
    else (next (s r' a)).runOn r dev s x
  | .write r' a bs next, s, x =>
    if r' = r then next.runOn r dev s (dev.write a bs x)
    else next.runOn r dev ((ByteAccess.write r' a bs).apply s) x

/-- The bytes of `r` that an access touches are below the size. -/
def Below (r : ρ) (size : Nat) (c : ByteAccess ρ) : Prop := ∀ x, c.touches r x → x < size

structure Agree (r : ρ) (rel : σ → ByteMem → Prop) (s s' : ByteMems ρ) (x : σ) : Prop where
  other : ∀ r' ≠ r, s' r' = s r'
  device : rel x (s r)

variable {r : ρ} {dev : ByteDevice σ} {size : Nat} {rel : σ → ByteMem → Prop}

theorem Agree.write_device (h : dev.Models size rel) {s s' : ByteMems ρ} {x : σ}
    (hagree : Agree r rel s s' x) {a : Nat} {bs : List UInt8}
    (hbelow : Below r size (.write r a bs)) :
    Agree r rel ((ByteAccess.write r a bs).apply s) s' (dev.write a bs x) := by
  refine ⟨fun r' hr' => ?_,?_⟩
  · rw [ByteAccess.apply, Function.update_of_ne hr']
    exact hagree.other r' hr'
  · rw [ByteAccess.apply, Function.update_self]
    refine h.write hagree.device fun hne => ?_
    have hpos := List.length_pos_of_ne_nil hne
    have := hbelow (a+bs.length-1) ⟨rfl,by omega,by omega⟩
    omega

theorem Agree.write_other {s s' : ByteMems ρ} {x : σ} (hagree : Agree r rel s s' x) {r' : ρ}
    (hr : r' ≠ r) (a : Nat) (bs : List UInt8) :
    Agree r rel ((ByteAccess.write r' a bs).apply s) ((ByteAccess.write r' a bs).apply s') x := by
  refine ⟨fun r'' hr'' => ?_,?_⟩
  · by_cases h : r'' = r'
    · subst h
      simp only [ByteAccess.apply, Function.update_self, hagree.other r'' hr'']
    · simp only [ByteAccess.apply, Function.update_of_ne h, hagree.other r'' hr'']
  · rw [ByteAccess.apply, Function.update_of_ne hr.symm]
    exact hagree.device

theorem runOn_agrees (h : dev.Models size rel) (p : ByteProg ρ α) {s s' : ByteMems ρ} {x : σ}
    (hagree : Agree r rel s s' x) (hbelow : WithinFrom (Below r size) p s) :
    (p.runOn r dev s' x).1 = p.val s
      ∧ Agree r rel (p.mem s) (p.runOn r dev s' x).2.1 (p.runOn r dev s' x).2.2 := by
  induction p generalizing s s' x with
  | done v => exact ⟨rfl,hagree⟩
  | read r' a next ih =>
    obtain ⟨hfirst,hrest⟩ := List.forall_mem_cons.mp hbelow
    rw [runOn]
    by_cases hr : r' = r
    · subst hr
      obtain ⟨hval,hdev⟩ := h.read hagree.device (hfirst a ⟨rfl,rfl⟩)
      rw [if_pos rfl, hval]
      exact ih _ ⟨hagree.other,hdev⟩ hrest
    · rw [if_neg hr, hagree.other r' hr]
      exact ih _ hagree hrest
  | write r' a bs next ih =>
    obtain ⟨hfirst,hrest⟩ := List.forall_mem_cons.mp hbelow
    rw [runOn]
    by_cases hr : r' = r
    · subst hr
      rw [if_pos rfl]
      exact ih (hagree.write_device h hfirst) hrest
    · rw [if_neg hr]
      exact ih (hagree.write_other hr a bs) hrest

end ByteProg
