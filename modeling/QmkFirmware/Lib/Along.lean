/-!
Runs of a system whose steps all meet a condition.
-/

set_option autoImplicit false

namespace QmkFirmware

variable {σ α : Type}

/-- A condition on every step of a run. -/
def Along (next : σ → α → σ) (P : σ → α → Prop) : σ → List α → Prop
  | _, [] => True
  | s, a :: as => P s a ∧ Along next P (next s a) as

variable {next : σ → α → σ} {P : σ → α → Prop}

instance Along.decidable [∀ s a, Decidable (P s a)] : ∀ s as, Decidable (Along next P s as)
  | _, [] => .isTrue trivial
  | s, a :: as => @instDecidableAnd _ _ _ (Along.decidable (next s a) as)

theorem Along.invariant {I : σ → Prop} (hstep : ∀ s a, I s → P s a → I (next s a)) {s : σ}
    {as : List α} (hs : I s) (h : Along next P s as) : I (as.foldl next s) := by
  induction as generalizing s with
  | nil => exact hs
  | cons a as ih => exact ih (hstep s a hs h.1) h.2

theorem Along.congr {Q : σ → α → Prop} {I : σ → Prop} (hiff : ∀ s a, I s → (P s a ↔ Q s a))
    (hstep : ∀ s a, I s → Q s a → I (next s a)) {s : σ} {as : List α} (hs : I s) :
    Along next P s as ↔ Along next Q s as := by
  induction as generalizing s with
  | nil => exact Iff.rfl
  | cons a as ih =>
    exact (and_congr (hiff s a hs) Iff.rfl).trans (and_congr_right fun h => ih (hstep s a hs h))

theorem Along.of_step {I : σ → Prop} (hstep : ∀ s a, I s → P s a ∧ I (next s a)) {s : σ}
    (hs : I s) (as : List α) : Along next P s as := by
  induction as generalizing s with
  | nil => trivial
  | cons a as ih => exact ⟨(hstep s a hs).1,ih (hstep s a hs).2⟩

theorem Along.imp {Q : σ → α → Prop} {I : σ → Prop}
    (hstep : ∀ s a, I s → P s a → Q s a ∧ I (next s a)) {s : σ} (hs : I s) {as : List α}
    (h : Along next P s as) : Along next Q s as := by
  induction as generalizing s with
  | nil => trivial
  | cons a as ih =>
    obtain ⟨hq,hi⟩ := hstep s a hs h.1
    exact ⟨hq,ih hi h.2⟩

theorem Along.append {s : σ} {as bs : List α} :
    Along next P s (as ++ bs) ↔ Along next P s as ∧ Along next P (as.foldl next s) bs := by
  induction as generalizing s with
  | nil => exact ⟨fun h => ⟨trivial, h⟩, And.right⟩
  | cons a as ih => exact (and_congr_right fun _ => ih).trans and_assoc.symm

theorem Along.snoc {s : σ} {as : List α} {a : α} :
    Along next P s (as ++ [a]) ↔ Along next P s as ∧ P (as.foldl next s) a :=
  Along.append.trans (and_congr_right fun _ => and_iff_left trivial)

end QmkFirmware
