import Mathlib.Logic.Function.Basic
import QmkFirmware.Lib.ByteMem

/-!
Programs that read and write the bytes of several memories. The effect of a program is that of
the accesses it logs, so bounds and crash states are facts about the log.
-/

set_option autoImplicit false

/-- One access: a byte read, or consecutive bytes written in one go. -/
inductive ByteAccess (ρ : Type) where
  | read (r : ρ) (a : Nat)
  | write (r : ρ) (a : Nat) (bs : List UInt8)
  deriving DecidableEq, Repr

abbrev ByteMems (ρ : Type) := ρ → ByteMem

inductive ByteProg (ρ α : Type) where
  | done (x : α)
  | read (r : ρ) (a : Nat) (next : UInt8 → ByteProg ρ α)
  | write (r : ρ) (a : Nat) (bs : List UInt8) (next : ByteProg ρ α)

namespace ByteAccess

variable {ρ : Type} [DecidableEq ρ]

def apply (s : ByteMems ρ) : ByteAccess ρ → ByteMems ρ
  | .read _ _ => s
  | .write r a bs => Function.update s r ((s r).write a bs)

def touches (r : ρ) (x : Nat) : ByteAccess ρ → Prop
  | .read r' a => r' = r ∧ a = x
  | .write r' a bs => r' = r ∧ a ≤ x ∧ x < a + bs.length

theorem apply_other {s : ByteMems ρ} {c : ByteAccess ρ} {r : ρ} {x : Nat}
    (h : ¬ c.touches r x) : c.apply s r x = s r x := by
  cases c with
  | read r' a => rfl
  | write r' a bs =>
    by_cases hr : r' = r
    · subst r'
      simp only [touches, true_and, not_and] at h
      rw [apply, Function.update_self]
      exact ByteMem.write_outside (by omega)
    · rw [apply, Function.update_of_ne (Ne.symm hr)]

end ByteAccess

namespace ByteProg

variable {ρ α β : Type}

def bind : ByteProg ρ α → (α → ByteProg ρ β) → ByteProg ρ β
  | .done x, f => f x
  | .read r a next, f => .read r a fun v => bind (next v) f
  | .write r a bs next, f => .write r a bs (bind next f)

instance : Monad (ByteProg ρ) where
  pure := .done
  bind := bind

def readByte (r : ρ) (a : Nat) : ByteProg ρ UInt8 := .read r a .done

def writeBytes (r : ρ) (a : Nat) (bs : List UInt8) : ByteProg ρ Unit := .write r a bs (.done ())

/-- `for (j = i; j < i + n; j++)`. -/
def forFrom (i : Nat) : Nat → (Nat → ByteProg ρ Unit) → ByteProg ρ Unit
  | 0, _ => pure ()
  | n+1, f => do
    f i
    forFrom (i+1) n f

theorem cut_append {a b l : List (ByteAccess ρ)} (hl : l <+: a ++ b) :
    l <+: a ∨ ∃ more, more <+: b ∧ l = a ++ more := by
  by_cases hlen : l.length ≤ a.length
  · exact .inl (List.prefix_of_prefix_length_le hl (List.prefix_append a b) hlen)
  · obtain ⟨more,rfl⟩ :=
      List.prefix_of_prefix_length_le (List.prefix_append a b) hl (Nat.le_of_not_le hlen)
    exact .inr ⟨more,(List.prefix_append_right_inj a).mp hl,rfl⟩

variable [DecidableEq ρ]

/-- What the program returns, the memories it leaves and the accesses it makes. -/
def val : ByteProg ρ α → ByteMems ρ → α
  | .done x, _ => x
  | .read r a next, s => (next (s r a)).val s
  | .write r a bs next, s => next.val ((ByteAccess.write r a bs).apply s)

def mem : ByteProg ρ α → ByteMems ρ → ByteMems ρ
  | .done _, s => s
  | .read r a next, s => (next (s r a)).mem s
  | .write r a bs next, s => next.mem ((ByteAccess.write r a bs).apply s)

def log : ByteProg ρ α → ByteMems ρ → List (ByteAccess ρ)
  | .done _, _ => []
  | .read r a next, s => .read r a :: (next (s r a)).log s
  | .write r a bs next, s => .write r a bs :: next.log ((ByteAccess.write r a bs).apply s)

variable (s : ByteMems ρ)

@[simp] theorem val_pure (x : α) : (pure x : ByteProg ρ α).val s = x := rfl
@[simp] theorem mem_pure (x : α) : (pure x : ByteProg ρ α).mem s = s := rfl
@[simp] theorem log_pure (x : α) : (pure x : ByteProg ρ α).log s = [] := rfl

@[simp] theorem val_readByte (r : ρ) (a : Nat) : (readByte r a).val s = s r a := rfl
@[simp] theorem mem_readByte (r : ρ) (a : Nat) : (readByte r a).mem s = s := rfl
@[simp] theorem log_readByte (r : ρ) (a : Nat) :
    (readByte r a).log s = [ByteAccess.read r a] := rfl

@[simp] theorem mem_writeBytes (r : ρ) (a : Nat) (bs : List UInt8) :
    (writeBytes r a bs).mem s = Function.update s r ((s r).write a bs) := rfl
@[simp] theorem log_writeBytes (r : ρ) (a : Nat) (bs : List UInt8) :
    (writeBytes r a bs).log s = [ByteAccess.write r a bs] := rfl

@[simp] theorem val_bind (p : ByteProg ρ α) (f : α → ByteProg ρ β) :
    (p >>= f).val s = (f (p.val s)).val (p.mem s) := by
  induction p generalizing s with
  | done x => rfl
  | read r a next ih => exact ih (s r a) s
  | write r a bs next ih => exact ih _

@[simp] theorem mem_bind (p : ByteProg ρ α) (f : α → ByteProg ρ β) :
    (p >>= f).mem s = (f (p.val s)).mem (p.mem s) := by
  induction p generalizing s with
  | done x => rfl
  | read r a next ih => exact ih (s r a) s
  | write r a bs next ih => exact ih _

@[simp] theorem log_bind (p : ByteProg ρ α) (f : α → ByteProg ρ β) :
    (p >>= f).log s = p.log s ++ (f (p.val s)).log (p.mem s) := by
  induction p generalizing s with
  | done x => rfl
  | read r a next ih => exact congrArg (_ :: ·) (ih (s r a) s)
  | write r a bs next ih => exact congrArg (_ :: ·) (ih _)

theorem mem_forFrom_succ (i n : Nat) (f : Nat → ByteProg ρ Unit) :
    (forFrom i (n+1) f).mem s = (forFrom (i+1) n f).mem ((f i).mem s) :=
  mem_bind s (f i) _

theorem mem_eq_log (p : ByteProg ρ α) : p.mem s = (p.log s).foldl ByteAccess.apply s := by
  induction p generalizing s with
  | done x => rfl
  | read r a next ih => exact ih (s r a) s
  | write r a bs next ih => exact ih _

theorem foldl_other {l : List (ByteAccess ρ)} {r : ρ} {x : Nat} {s : ByteMems ρ}
    (h : ∀ c ∈ l, ¬ c.touches r x) : l.foldl ByteAccess.apply s r x = s r x := by
  induction l generalizing s with
  | nil => rfl
  | cons c l ih =>
    rw [List.foldl_cons, ih fun d hd => h d (List.mem_cons_of_mem c hd),
      ByteAccess.apply_other (h c List.mem_cons_self)]

/-- Every access of every run of the program is allowed. -/
def Within (allowed : ByteAccess ρ → Prop) (p : ByteProg ρ α) : Prop :=
  ∀ s, ∀ c ∈ p.log s, allowed c

variable {allowed : ByteAccess ρ → Prop} {s}

theorem within_pure (x : α) : Within allowed (pure x : ByteProg ρ α) := fun _ _ h => nomatch h

theorem within_readByte {r : ρ} {a : Nat} (h : allowed (.read r a)) :
    Within allowed (readByte r a) := by
  intro s c hc
  obtain rfl := List.mem_singleton.mp hc
  exact h

theorem within_writeBytes {r : ρ} {a : Nat} {bs : List UInt8} (h : allowed (.write r a bs)) :
    Within allowed (writeBytes r a bs) := by
  intro s c hc
  obtain rfl := List.mem_singleton.mp hc
  exact h

theorem within_bind {p : ByteProg ρ α} {f : α → ByteProg ρ β} (hp : Within allowed p)
    (hf : ∀ x, Within allowed (f x)) : Within allowed (p >>= f) := by
  intro s c hc
  rw [log_bind] at hc
  rcases List.mem_append.mp hc with hc | hc
  · exact hp s c hc
  · exact hf _ _ c hc

theorem within_ite {P : Prop} [Decidable P] {p q : ByteProg ρ α} (hp : P → Within allowed p)
    (hq : ¬ P → Within allowed q) : Within allowed (if P then p else q) := by
  split
  · rename_i h
    exact hp h
  · rename_i h
    exact hq h

theorem within_forFrom {i n : Nat} {f : Nat → ByteProg ρ Unit}
    (h : ∀ j, i ≤ j → j < i+n → Within allowed (f j)) : Within allowed (forFrom i n f) := by
  induction n generalizing i with
  | zero => exact within_pure ()
  | succ n ih =>
    exact within_bind (h i (Nat.le_refl i) (by omega)) fun _ =>
      ih fun j hj hj' => h j (by omega) (by omega)

theorem Within.mono {allowed' : ByteAccess ρ → Prop} {p : ByteProg ρ α} (hp : Within allowed p)
    (h : ∀ c, allowed c → allowed' c) : Within allowed' p := fun s c hc => h c (hp s c hc)

theorem Within.mem_other {p : ByteProg ρ α} (hp : Within allowed p) {r : ρ} {x : Nat}
    (h : ∀ c, allowed c → ¬ c.touches r x) : p.mem s r x = s r x := by
  rw [mem_eq_log]
  exact foldl_other fun c hc => h c (hp s c hc)

theorem log_forFrom_mem {i n j : Nat} {f : Nat → ByteProg ρ Unit} (hi : i ≤ j) (hj : j < i+n) :
    ∃ t, ∀ c ∈ (f j).log t, c ∈ (forFrom i n f).log s := by
  induction n generalizing i s with
  | zero => omega
  | succ n ih =>
    have hlog : (forFrom i (n+1) f).log s
        = (f i).log s ++ (forFrom (i+1) n f).log ((f i).mem s) := log_bind s (f i) _
    rw [hlog]
    by_cases h : i = j
    · subst i
      exact ⟨s,fun c hc => List.mem_append_left _ hc⟩
    · obtain ⟨t,ht⟩ := ih (s := (f i).mem s) (show i+1 ≤ j by omega) (by omega)
      exact ⟨t,fun c hc => List.mem_append_right _ (ht c hc)⟩

/-- Every access of the run from `s` is allowed. -/
def WithinFrom (allowed : ByteAccess ρ → Prop) (p : ByteProg ρ α) (s : ByteMems ρ) : Prop :=
  ∀ c ∈ p.log s, allowed c

theorem withinFrom_bind {p : ByteProg ρ α} {f : α → ByteProg ρ β} :
    WithinFrom allowed (p >>= f) s
      ↔ WithinFrom allowed p s ∧ WithinFrom allowed (f (p.val s)) (p.mem s) := by
  rw [WithinFrom, log_bind]
  exact List.forall_mem_append

abbrev Inside (region : ρ → Nat → Prop) (p : ByteProg ρ α) : Prop :=
  Within (fun c => ∀ r x, c.touches r x → region r x) p

theorem inside_readByte {region : ρ → Nat → Prop} {r : ρ} {a : Nat} (h : region r a) :
    Inside region (readByte r a) :=
  within_readByte fun r' x hx => by
    obtain ⟨rfl,rfl⟩ := hx
    exact h

theorem inside_writeBytes {region : ρ → Nat → Prop} {r : ρ} {a : Nat} {bs : List UInt8}
    (h : ∀ x, a ≤ x → x < a+bs.length → region r x) : Inside region (writeBytes r a bs) :=
  within_writeBytes fun r' x hx => by
    obtain ⟨rfl,hlo,hhi⟩ := hx
    exact h x hlo hhi

theorem Inside.mono {region region' : ρ → Nat → Prop} {p : ByteProg ρ α} (hp : Inside region p)
    (h : ∀ r x, region r x → region' r x) : Inside region' p :=
  Within.mono hp fun _ hc r x hx => h r x (hc r x hx)

def Always (I : ByteMems ρ → Prop) (p : ByteProg ρ α) (s : ByteMems ρ) : Prop :=
  ∀ l, l <+: p.log s → I (l.foldl ByteAccess.apply s)

variable {I : ByteMems ρ → Prop}

theorem always_mem {p : ByteProg ρ α} (h : Always I p s) : I (p.mem s) := by
  rw [mem_eq_log]
  exact h _ List.prefix_rfl

theorem always_of_within {p : ByteProg ρ α} (hp : Within allowed p) (hs : I s)
    (hI : ∀ t c, allowed c → I t → I (c.apply t)) : Always I p s := by
  intro l hl
  have hall : ∀ c ∈ l, allowed c := fun c hc => hp s c (hl.subset hc)
  clear hl
  induction l generalizing s with
  | nil => exact hs
  | cons c l ih =>
    exact ih (hI s c (hall c List.mem_cons_self) hs) fun d hd => hall d (List.mem_cons_of_mem c hd)

/-- Every access keeps the invariant. -/
abbrev Keeps (I : ByteMems ρ → Prop) (p : ByteProg ρ α) : Prop :=
  Within (fun c => ∀ t, I t → I (c.apply t)) p

theorem Keeps.always {p : ByteProg ρ α} (hp : Keeps I p) (hs : I s) : Always I p s :=
  always_of_within hp hs fun t _ hc => hc t

theorem Keeps.mem {p : ByteProg ρ α} (hp : Keeps I p) (hs : I s) : I (p.mem s) :=
  always_mem (hp.always hs)

theorem Inside.keeps {region : ρ → Nat → Prop} {p : ByteProg ρ α} (hp : Inside region p)
    (hI : ∀ s t : ByteMems ρ, (∀ r x, ¬ region r x → t r x = s r x) → I s → I t) : Keeps I p :=
  Within.mono hp fun _ hc t => hI t _ fun r x hx =>
    ByteAccess.apply_other fun htouch => hx (hc r x htouch)

theorem Keeps.and {J : ByteMems ρ → Prop} {p : ByteProg ρ α} (hI : Keeps I p)
    (hJ : Keeps J p) : Keeps (fun s => I s ∧ J s) p :=
  fun s c hc t ht => ⟨hI s c hc t ht.1,hJ s c hc t ht.2⟩

def UntilLast (I : ByteMems ρ → Prop) (p : ByteProg ρ α) (s : ByteMems ρ) : Prop :=
  ∀ l, l <+: p.log s → l ≠ p.log s → I (l.foldl ByteAccess.apply s)

theorem UntilLast.mono {J : ByteMems ρ → Prop} {p : ByteProg ρ α} (hp : UntilLast I p s)
    (h : ∀ t, I t → J t) : UntilLast J p s := fun l hl hne => h _ (hp l hl hne)

theorem untilLast_bind {p : ByteProg ρ α} {f : α → ByteProg ρ β} (hp : Always I p s)
    (hf : UntilLast I (f (p.val s)) (p.mem s)) : UntilLast I (p >>= f) s := by
  intro l hl hne
  rw [log_bind] at hl hne
  rcases cut_append hl with hfirst | ⟨more,hmore,rfl⟩
  · exact hp l hfirst
  · rw [List.foldl_append, ← mem_eq_log]
    exact hf more hmore fun he => hne (by rw [he])

theorem untilLast_keeps_bind {p : ByteProg ρ α} {f : α → ByteProg ρ β} (hp : Keeps I p) (hs : I s)
    (hf : ∀ x t, I t → UntilLast I (f x) t) : UntilLast I (p >>= f) s :=
  untilLast_bind (hp.always hs) (hf _ _ (hp.mem hs))

theorem untilLast_writeBytes {r : ρ} {a : Nat} {bs : List UInt8} (hs : I s) :
    UntilLast I (writeBytes r a bs) s := by
  intro l hl hne
  rcases List.prefix_cons_iff.mp hl with rfl | ⟨l',rfl,hl'⟩
  · exact hs
  · exact absurd (congrArg _ (List.prefix_nil.mp hl')) hne

end ByteProg
