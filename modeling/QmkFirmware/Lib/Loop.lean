/-!
Loops with fuel, and what they do with enough of it.
-/

set_option autoImplicit false

namespace QmkFirmware

variable {σ ρ τ : Type}

def loop (round : σ → σ ⊕ ρ) : Nat → σ → Option ρ
  | 0, _ => none
  | fuel+1, s =>
    match round s with
    | .inl s' => loop round fuel s'
    | .inr r => some r

def Eventually (f : Nat → Option ρ) (r : ρ) : Prop := ∃ n, ∀ fuel, n ≤ fuel → f fuel = some r

theorem Eventually.of_eq {f : Nat → Option ρ} {r : ρ} (h : ∀ fuel, f fuel = some r) :
    Eventually f r :=
  ⟨0,fun fuel _ => h fuel⟩

theorem Eventually.unique {f : Nat → Option ρ} {r r' : ρ} (h : Eventually f r)
    (h' : Eventually f r') : r = r' := by
  obtain ⟨n,hn⟩ := h
  obtain ⟨n',hn'⟩ := h'
  have he := (hn _ (Nat.le_max_left n n')).symm.trans (hn' _ (Nat.le_max_right n n'))
  exact Option.some.inj he

theorem Eventually.bind {f : Nat → Option ρ} {g : ρ → Nat → Option τ} {r : ρ} {t : τ}
    (h : Eventually f r) (h' : Eventually (g r) t) :
    Eventually (fun fuel => (f fuel).bind fun r => g r fuel) t := by
  obtain ⟨n,hn⟩ := h
  obtain ⟨n',hn'⟩ := h'
  refine ⟨max n n',fun fuel hfuel => ?_⟩
  dsimp only
  rw [hn fuel (Nat.le_trans (Nat.le_max_left n n') hfuel)]
  exact hn' fuel (Nat.le_trans (Nat.le_max_right n n') hfuel)

/-- Some result comes with enough fuel, and it is as said. -/
def Returns (f : Nat → Option ρ) (Post : ρ → Prop) : Prop := ∃ r, Eventually f r ∧ Post r

theorem Returns.bind {f : Nat → Option ρ} {g : ρ → Nat → Option τ} {Mid : ρ → Prop}
    {Post : τ → Prop} (h : Returns f Mid) (h' : ∀ r, Mid r → Returns (g r) Post) :
    Returns (fun fuel => (f fuel).bind fun r => g r fuel) Post := by
  obtain ⟨r,hr,hmid⟩ := h
  obtain ⟨t,ht,hpost⟩ := h' r hmid
  exact ⟨t,hr.bind ht,hpost⟩

theorem Returns.imp {f : Nat → Option ρ} {Post Post' : ρ → Prop} (h : Returns f Post)
    (himp : ∀ r, Post r → Post' r) : Returns f Post' := by
  obtain ⟨r,hr,hpost⟩ := h
  exact ⟨r,hr,himp r hpost⟩

variable {round : σ → σ ⊕ ρ}

theorem loop_done {s : σ} {r : ρ} (h : round s = .inr r) :
    Eventually (fun fuel => loop round fuel s) r := by
  refine ⟨1,fun fuel hfuel => ?_⟩
  obtain ⟨m,rfl⟩ := Nat.exists_eq_add_of_le' hfuel
  simp only [loop, h]

theorem loop_next {s s' : σ} {r : ρ} (h : round s = .inl s')
    (h' : Eventually (fun fuel => loop round fuel s') r) :
    Eventually (fun fuel => loop round fuel s) r := by
  obtain ⟨n,hn⟩ := h'
  refine ⟨n+1,fun fuel hfuel => ?_⟩
  obtain ⟨m,rfl⟩ := Nat.exists_eq_add_of_le' (Nat.le_trans (Nat.le_add_left 1 n) hfuel)
  simp only [loop, h]
  exact hn m (Nat.le_of_add_le_add_right hfuel)

theorem loop_returns {I : σ → Prop} {Post : ρ → Prop} (measure : σ → Nat)
    (hnext : ∀ s s', I s → round s = .inl s' → I s' ∧ measure s' < measure s)
    (hdone : ∀ s r, I s → round s = .inr r → Post r) {s : σ} (hs : I s) :
    Returns (fun fuel => loop round fuel s) Post := by
  induction hm : measure s using Nat.strongRecOn generalizing s with
  | ind m ih =>
    cases hround : round s with
    | inl s' =>
      obtain ⟨hs',hlt⟩ := hnext s s' hs hround
      obtain ⟨r,hr,hpost⟩ := ih _ (hm ▸ hlt) hs' rfl
      exact ⟨r,loop_next hround hr,hpost⟩
    | inr r => exact ⟨r,loop_done hround,hdone s r hs hround⟩

theorem loop_post {I : σ → Prop} {Post : ρ → Prop}
    (hnext : ∀ s s', I s → round s = .inl s' → I s')
    (hdone : ∀ s r, I s → round s = .inr r → Post r) {fuel : Nat} {s : σ} {r : ρ} (hs : I s)
    (h : loop round fuel s = some r) : Post r := by
  induction fuel generalizing s with
  | zero => cases h
  | succ fuel ih =>
    rw [loop] at h
    cases hround : round s with
    | inl s' =>
      rw [hround] at h
      exact ih (hnext s s' hs hround) h
    | inr r' =>
      rw [hround] at h
      exact Option.some.inj h ▸ hdone s r' hs hround

theorem loop_none {I : σ → Prop} (hnext : ∀ s, I s → ∃ s', round s = .inl s' ∧ I s') {s : σ}
    (hs : I s) (fuel : Nat) : loop round fuel s = none := by
  induction fuel generalizing s with
  | zero => rfl
  | succ fuel ih =>
    obtain ⟨s',hround,hs'⟩ := hnext s hs
    simp only [loop, hround]
    exact ih hs'

end QmkFirmware
