import QmkFirmware.Lib.Along

/-!
Machines that answer calls, and when one answers as another does.
-/

set_option autoImplicit false

namespace QmkFirmware

abbrev Machine (σ α β : Type) := σ → α → β × σ

namespace Machine

variable {σ τ γ α β : Type}

def answers (f : Machine σ α β) : σ → List α → List β
  | _, [] => []
  | x, c :: cs => (f x c).1 :: answers f (f x c).2 cs

def after (f : Machine σ α β) (x : σ) (cs : List α) : σ := cs.foldl (fun x c => (f x c).2) x

@[simp] theorem after_nil (f : Machine σ α β) (x : σ) : f.after x [] = x := rfl

@[simp] theorem after_cons (f : Machine σ α β) (x : σ) (c : α) (cs : List α) :
    f.after x (c :: cs) = f.after (f x c).2 cs := rfl

@[simp] theorem after_append (f : Machine σ α β) (x : σ) (cs ds : List α) :
    f.after x (cs ++ ds) = f.after (f.after x cs) ds := List.foldl_append

/-- States of the two machines are related in view of what the calls so far have come to. Calls
that this permits get the same answer, and lead to related states. -/
structure Simulates (f : Machine σ α β) (g : Machine τ α β) (next : γ → α → γ)
    (permits : γ → α → Prop) (rel : γ → σ → τ → Prop) : Prop where
  step : ∀ {l x y c}, rel l x y → permits l c →
    (f x c).1 = (g y c).1 ∧ rel (next l c) (f x c).2 (g y c).2

variable {f : Machine σ α β} {g : Machine τ α β} {next : γ → α → γ} {permits : γ → α → Prop}
  {rel : γ → σ → τ → Prop}

theorem Simulates.run (h : Simulates f g next permits rel) {l : γ} {x : σ} {y : τ} {cs : List α}
    (hrel : rel l x y) (hcs : Along next permits l cs) :
    f.answers x cs = g.answers y cs ∧ rel (cs.foldl next l) (f.after x cs) (g.after y cs) := by
  induction cs generalizing l x y with
  | nil => exact ⟨rfl,hrel⟩
  | cons c cs ih =>
    obtain ⟨hone,hnext⟩ := h.step hrel hcs.1
    obtain ⟨hanswers,hafter⟩ := ih hnext hcs.2
    exact ⟨by rw [answers, answers, hone, hanswers],hafter⟩

end Machine

end QmkFirmware
