import QmkFirmware.Combos.Mid

/-!
`process_combo` visits the combos one after the other.
-/

set_option autoImplicit false

namespace QmkFirmware.Combos

open Tapping (KeyPos KeyEvent)

variable {t : Table}

/-- The first `n` combos have been visited. -/
def visit (t : Table) (e : KeyEvent) (keycode : UInt16) (now n : Nat) (s : State) :
    State × Bool :=
  (List.range n).foldl (fun r i =>
    let r' := processSingleCombo t e keycode now i r.1
    (r'.1,r.2 || r'.2)) (s,false)

theorem visit_succ (e : KeyEvent) (keycode : UInt16) (now n : Nat) (s : State) :
    visit t e keycode now (n+1) s
      = ((processSingleCombo t e keycode now n (visit t e keycode now n s).1).1,
        (visit t e keycode now n s).2
          || (processSingleCombo t e keycode now n (visit t e keycode now n s).1).2) := by
  simp [visit, List.range_succ]

/-- What the combos up to `n` have seen, and what the others have. -/
def upTo {α : Type} (n : Nat) (new old : Nat → α) (c : Nat) : α :=
  if c < n then new c else old c

theorem upTo_zero {α : Type} (new old : Nat → α) : upTo 0 new old = old := by
  funext c
  simp [upTo]

theorem upTo_succ {α : Type} (n : Nat) (new old : Nat → α) :
    upTo (n+1) new old = Function.update (upTo n new old) n (new n) := by
  funext c
  by_cases hc : c = n
  · subst hc
    simp [upTo]
  · rw [Function.update_of_ne hc]
    simp only [upTo]
    congr 1
    simp
    omega

theorem upTo_self {α : Type} (n : Nat) (new old : Nat → α) : upTo n new old n = old n := by
  simp [upTo]

structure Visited (n : Nat) (s s' : State) : Prop where
  state : ∀ c ≠ n, (s'.flags c).state = (s.flags c).state
  active : ∀ c ≠ n, (s'.flags c).active = (s.flags c).active
  enabled : ∀ c ≠ n, (s'.flags c).disabled = false → (s.flags c).disabled = false
  entries : ∀ c ∈ s'.comboBuffer.entries, c = n ∨ c ∈ s.comboBuffer.entries
  keyBuffer : s'.keyBuffer = s.keyBuffer
  timer : s'.timer = s.timer
  on : s'.enabled = s.enabled

theorem Visited.refl (n : Nat) (s : State) : Visited n s s :=
  ⟨fun _ _ => rfl, fun _ _ => rfl, fun _ _ h => h, fun _ h => .inr h, rfl, rfl, rfl⟩

theorem Visited.trans {n : Nat} {s s' s'' : State} (h : Visited n s s')
    (h' : Visited n s' s'') : Visited n s s'' where
  state c hc := (h'.state c hc).trans (h.state c hc)
  active c hc := (h'.active c hc).trans (h.active c hc)
  enabled c hc hd := h.enabled c hc (h'.enabled c hc hd)
  entries c hc := (h'.entries c hc).elim .inl (h.entries c)
  keyBuffer := h'.keyBuffer.trans h.keyBuffer
  timer := h'.timer.trans h.timer
  on := h'.on.trans h.on

theorem Dropped.visited {s s' : State} (h : Dropped s s') (n : Nat) : Visited n s s' where
  state c _ := h.state c
  active c _ := h.active c
  enabled c _ hd := by
    by_contra hne
    simp [h.disabled c (by simpa using hne)] at hd
  entries c hc := .inr (h.entries.subset hc)
  keyBuffer := h.keyBuffer
  timer := h.timer
  on := h.enabled

theorem visited_flags {n : Nat} {s s' : State} (hf : ∀ c ≠ n, s'.flags c = s.flags c)
    (hr : s'.comboBuffer = s.comboBuffer) (hb : s'.keyBuffer = s.keyBuffer)
    (ht : s'.timer = s.timer) (ho : s'.enabled = s.enabled) : Visited n s s' :=
  ⟨fun c hc => by rw [hf c hc], fun c hc => by rw [hf c hc],
    fun c hc hd => by rwa [hf c hc] at hd, fun c hc => .inr (hr ▸ hc), hb, ht, ho⟩

theorem keyUp_visited (n index : Nat) (s : State) : Visited n s (s.keyUp n index) :=
  visited_flags (fun _ hc => keyUp_other s index hc) rfl rfl rfl rfl

theorem keyDown_visited (n index : Nat) (s : State) : Visited n s (s.keyDown n index) := by
  obtain ⟨hring, hbuf, -, htimer, hon⟩ := keyDown_frame s n index
  exact visited_flags (fun _ hc => keyDown_other s index hc) hring hbuf htimer hon

theorem releaseCombo_visited (now n : Nat) (s : State) :
    Visited n s (releaseCombo t now n s) := by
  obtain ⟨hring, hbuf, htimer, -, hon⟩ := @releaseCombo_frame t now n s
  refine visited_flags (fun c hc => ?_) hring hbuf htimer hon
  rw [releaseCombo_flags, Function.update_of_ne hc]

theorem chordRelease_visited (now n index : Nat) (part : Bool) (s : State) :
    Visited n s (chordRelease t now n index part s).1 := by
  rcases @chordRelease_cases t now n index part s with
    ⟨-, -, -, he⟩ | ⟨-, -, -, he⟩ | ⟨-, -, -, he⟩ | ⟨-, -, -, he⟩ | ⟨-, -, he⟩
  · rw [he]
    exact ((dropComboFromBuffer_dropped n s).visited n).trans (keyUp_visited n index _)
  · rw [he]
    exact keyUp_visited n index s
  · rw [he]
    exact (releaseCombo_visited now n s).trans (keyUp_visited n index _)
  · rw [he]
    exact keyUp_visited n index s
  · rw [he]
    exact keyUp_visited n index s

theorem comboKeyDown_visited {n : Nat} (now index : Nat) {s : State}
    (ha : (s.flags n).active = false) : Visited n s (comboKeyDown t now n index s) := by
  have hdown := keyDown_visited n index s
  rcases @comboKeyDown_cases t now n index s ha with ⟨-, he⟩ | ⟨-, hd, -⟩ | ⟨-, s', hd, he, -⟩
  · rw [he]
    exact hdown
  · exact hdown.trans (hd.visited n)
  · rw [he]
    have h := hdown.trans (hd.visited n)
    refine { h with entries := fun c hc => ?_ }
    rw [Ring.entries_push] at hc
    split at hc
    · simp at hc
    · rcases List.mem_append.mp hc with hc | hc
      · exact h.entries c hc
      · exact .inl (List.mem_singleton.mp hc)

structure Ahead (n : Nat) (s s' : State) : Prop where
  state : ∀ c, n ≤ c → (s'.flags c).state = (s.flags c).state
  active : ∀ c, n ≤ c → (s'.flags c).active = (s.flags c).active
  enabled : ∀ c, n ≤ c → (s'.flags c).disabled = false → (s.flags c).disabled = false
  entries : ∀ c ∈ s'.comboBuffer.entries, n ≤ c → c ∈ s.comboBuffer.entries
  keyBuffer : s'.keyBuffer = s.keyBuffer
  timer : s'.timer = s.timer
  on : s'.enabled = s.enabled

theorem Ahead.refl (n : Nat) (s : State) : Ahead n s s :=
  ⟨fun _ _ => rfl, fun _ _ => rfl, fun _ _ h => h, fun _ h _ => h, rfl, rfl, rfl⟩

theorem Ahead.step {n : Nat} {s s' s'' : State} (h : Ahead n s s') (h' : Visited n s' s'') :
    Ahead (n+1) s s'' where
  state c hc := (h'.state c (by omega)).trans (h.state c (by omega))
  active c hc := (h'.active c (by omega)).trans (h.active c (by omega))
  enabled c hc hd := h.enabled c (by omega) (h'.enabled c (by omega) hd)
  entries c hc hn := h.entries c ((h'.entries c hc).resolve_left (by omega)) (by omega)
  keyBuffer := h'.keyBuffer.trans h.keyBuffer
  timer := h'.timer.trans h.timer
  on := h'.on.trans h.on

theorem processSingleCombo_visited {e : KeyEvent} {keycode : UInt16} {now n : Nat} {s : State}
    (hoff : (s.flags n).active = true → (s.flags n).disabled = true) :
    Visited n s (processSingleCombo t e keycode now n s).1 := by
  unfold processSingleCombo
  split
  · exact .refl n s
  · dsimp only
    split
    · rename_i hpart
      simp only [Bool.and_eq_true, Bool.not_eq_true'] at hpart
      refine comboKeyDown_visited now _ ?_
      by_contra ha
      simp [hoff (by simpa using ha)] at hpart
    · exact chordRelease_visited now n _ _ s

theorem visit_ahead {e : KeyEvent} {keycode : UInt16} {now : Nat} {s : State}
    (hoff : ∀ c, (s.flags c).active = true → (s.flags c).disabled = true) (n : Nat) :
    Ahead n s (visit t e keycode now n s).1 := by
  induction n with
  | zero => exact .refl 0 s
  | succ n ih =>
    rw [visit_succ]
    refine ih.step (processSingleCombo_visited fun ha => ?_)
    by_contra hd
    have hen := ih.enabled n (Nat.le_refl n) (by simpa using hd)
    rw [ih.active n (Nat.le_refl n)] at ha
    simp [hoff n ha] at hen

/-- A key press. `b` is the key buffer before it and `b'` behind it. -/
structure Press (t : Table) (keycode : UInt16) (b b' : List UInt16) (s : State) : Prop where
  /-- A combo that is complete now was so before, or it is complete by this key. -/
  complete : ∀ c < t.count, (s.flags c).disabled = false →
    (t.combo c).completes 0 b' = true → (t.combo c).completes 0 b = true
    ∨ ∃ index, (t.combo c).keyIndex keycode = some index
      ∧ AllDown t c ((s.flags c).state ||| keyBit index)
  /-- A readied combo is not cut off from its last key. -/
  keep : ∀ c ∈ s.comboBuffer.entries, (s.flags c).disabled = false →
    AllDown t c (s.flags c).state → ∀ index, (t.combo c).keyIndex keycode = some index →
    AllDown t c ((s.flags c).state ||| keyBit index)
  idle : s.enabled = false → b = [] ∧ b' = []

theorem visit_press {e : KeyEvent} {keycode : UInt16} {held : Held} {b b' : List UInt16}
    {s : State} (now : Nat) (hp : e.pressed = true)
    (h : Mid t (fun _ => b) (AllDown t) (fun _ => held) s)
    (hheld : held e.key = some keycode) (hpress : Press t keycode b b' s) {n : Nat}
    (hn : n ≤ t.count) :
    Mid t (upTo n (fun _ => b') fun _ => b) (AllDown t) (fun _ => held)
      (visit t e keycode now n s).1 := by
  induction n with
  | zero =>
    rw [upTo_zero]
    exact h
  | succ n ih =>
    have hmid := ih (by omega)
    have hahead := @visit_ahead t e keycode now s h.off n
    rw [visit_succ, upTo_succ]
    generalize (visit t e keycode now n s).1 = s' at hmid hahead
    have hen : (s'.flags n).disabled = false → (s.flags n).disabled = false :=
      hahead.enabled n (Nat.le_refl n)
    have hstate := hahead.state n (Nat.le_refl n)
    unfold processSingleCombo
    cases hk : (t.combo n).keyIndex keycode with
    | none =>
      refine hmid.reseen fun hd hcomp => ?_
      rw [upTo_self]
      refine (hpress.complete n (by omega) (hen hd) hcomp).resolve_right ?_
      rintro ⟨index, hk', -⟩
      simp [hk] at hk'
    | some index =>
      dsimp only
      split
      · rename_i hpart
        simp only [hp, Bool.true_and, Bool.and_eq_true, Bool.not_eq_true'] at hpart
        refine hmid.comboKeyDown now (by omega) hpart.1 hk ⟨e.key, keycode, hheld, hk⟩ ?_ ?_
        · intro hcomp
          rw [upTo_self, hstate]
          refine (hpress.complete n (by omega) (hen hpart.1) hcomp).imp_right ?_
          rintro ⟨index', hk', hd⟩
          rw [hk] at hk'
          cases hk'
          exact hd
        · intro hmem hd
          rw [hstate] at hd ⊢
          exact hpress.keep n (hahead.entries n hmem (Nat.le_refl n)) (hen hpart.1) hd index hk
      · rename_i hpart
        have hempty : (s'.flags n).disabled = false → b = [] ∧ b' = [] := fun hd => by
          refine hpress.idle ?_
          simpa [hp, hd, hahead.on] using hpart
        have hre := @Mid.reseen t _ _ _ s' hmid n b' fun hd hcomp => by
          rw [(hempty hd).2] at hcomp
          simp [Combo.completes] at hcomp
        have := @Mid.chordRelease t _ _ _ s' hre n index (AllDown t n) held now
          (!(s'.flags n).disabled && s'.enabled) (fun hd hcomp => by
            rw [Function.update_self, (hempty hd).2] at hcomp
            simp [Combo.completes] at hcomp) (fun j _ hj => hj)
        rwa [Function.update_eq_self n (AllDown t),
          Function.update_eq_self n (fun _ => held)] at this

/-- The state of each combo that is not disabled has the bits of these keycodes. -/
def Exact (t : Table) (n : Nat) (ks : List UInt16) (s : State) : Prop :=
  ∀ c < n, (s.flags c).disabled = false → (s.flags c).state = (t.combo c).stateOf 0 ks

theorem comboKeyDown_state {now n index : Nat} {s : State} (ha : (s.flags n).active = false) :
    ((comboKeyDown t now n index s).flags n).state = (s.flags n).state ||| keyBit index := by
  rcases @comboKeyDown_cases t now n index s ha with ⟨-, he⟩ | ⟨-, hd, -⟩ | ⟨-, s', hd, he, -⟩
  · rw [he, keyDown_flags]
  · rw [hd.state, keyDown_flags]
  · rw [he]
    exact (hd.state n).trans (by rw [keyDown_flags])

theorem chordRelease_disabled {now n index : Nat} {part : Bool} {s : State} (c : Nat)
    (h : (s.flags c).disabled = true) :
    ((chordRelease t now n index part s).1.flags c).disabled = true := by
  have hup : ∀ s' : State, (s'.flags c).disabled = true →
      ((s'.keyUp n index).flags c).disabled = true := by
    intro s' h'
    by_cases hc : c = n
    · subst hc
      rwa [keyUp_flags]
    · rwa [keyUp_other s' index hc]
  unfold chordRelease
  refine hup _ ?_
  split
  · split
    · exact (dropComboFromBuffer_dropped n s).disabled c h
    · exact h
  · split
    · rw [releaseCombo_flags]
      by_cases hc : c = n
      · subst hc
        simpa using h
      · rwa [Function.update_of_ne hc]
    · split <;> exact h

theorem processSingleCombo_press {e : KeyEvent} {keycode : UInt16} {now n : Nat} {s : State}
    (hp : e.pressed = true) (hon : s.enabled = true)
    (hoff : (s.flags n).active = true → (s.flags n).disabled = true)
    (hd : ((processSingleCombo t e keycode now n s).1.flags n).disabled = false) :
    (s.flags n).disabled = false ∧ ∀ ks, (s.flags n).state = (t.combo n).stateOf 0 ks →
      ((processSingleCombo t e keycode now n s).1.flags n).state
        = (t.combo n).stateOf 0 (ks ++ [keycode]) := by
  unfold processSingleCombo at hd ⊢
  cases hk : (t.combo n).keyIndex keycode with
  | none =>
    simp only [hk] at hd
    exact ⟨hd, fun ks hks => by rw [Combo.stateOf_snoc_none 0 ks hk]; exact hks⟩
  | some index =>
    simp only [hk, hp, hon, Bool.true_and, Bool.and_true] at hd ⊢
    split at hd
    · rename_i hen
      have hen : (s.flags n).disabled = false := by simpa using hen
      have ha : (s.flags n).active = false := by
        by_contra ha
        simp [hoff (by simpa using ha)] at hen
      refine ⟨hen, fun ks hks => ?_⟩
      rw [if_pos (by simpa using hen), comboKeyDown_state ha, Combo.stateOf_snoc 0 ks hk, hks]
    · rename_i hdis
      rw [chordRelease_disabled n (by simpa using hdis)] at hd
      cases hd

theorem visit_exact {e : KeyEvent} {keycode : UInt16} {ks : List UInt16} {s : State} (now : Nat)
    (hp : e.pressed = true) (hon : s.enabled = true)
    (hoff : ∀ c, (s.flags c).active = true → (s.flags c).disabled = true)
    (h : Exact t t.count ks s) {n : Nat} (hn : n ≤ t.count) :
    Exact t n (ks ++ [keycode]) (visit t e keycode now n s).1 := by
  induction n with
  | zero => exact fun c hc => absurd hc (Nat.not_lt_zero c)
  | succ n ih =>
    have ih := ih (by omega)
    have hahead := @visit_ahead t e keycode now s hoff n
    rw [visit_succ]
    generalize (visit t e keycode now n s).1 = s' at ih hahead
    have hoff' : (s'.flags n).active = true → (s'.flags n).disabled = true := fun ha => by
      by_contra hd
      have := hahead.enabled n (Nat.le_refl n) (by simpa using hd)
      simp [hoff n (hahead.active n (Nat.le_refl n) ▸ ha)] at this
    have hvis := @processSingleCombo_visited t e keycode now n s' hoff'
    intro c hc hd
    by_cases hcn : c = n
    · subst hcn
      obtain ⟨hen, hstate⟩ := processSingleCombo_press hp (hahead.on.trans hon) hoff' hd
      refine hstate ks ?_
      rw [hahead.state c (Nat.le_refl c)]
      exact h c hn (hahead.enabled c (Nat.le_refl c) hen)
    · rw [hvis.state c hcn]
      exact ih c (by omega) (hvis.enabled c hcn hd)

def PartDown (t : Table) (c : Nat) (state : BitVec 8) : Prop := 2 ≤ (t.combo c).keys.length →
  state ≠ 0 ∧ state.getLsbD (t.combo c).keys.length = false

theorem AllDown.part {c : Nat} {state : BitVec 8} (h : AllDown t c state) :
    PartDown t c state := by
  refine fun hn => ⟨?_, by simp [allDown_get h]⟩
  rintro rfl
  have hempty := allDown_get h 0
  simp only [BitVec.ofNat_eq_ofNat, BitVec.getLsbD_zero, Bool.false_eq,
    decide_eq_false_iff_not] at hempty
  omega

theorem AllDown.keyUp {c : Nat} {state : BitVec 8} (h : AllDown t c state) (index : Nat) :
    PartDown t c (state &&& ~~~keyBit index) := by
  refine fun hn => ⟨fun hzero => ?_, by simp [allDown_get h]⟩
  have hbit := fun j => congrArg (fun b : BitVec 8 => b.getLsbD j) hzero
  simp only [up_get, allDown_get h] at hbit
  have h₀ := hbit 0
  have h₁ := hbit 1
  simp only [BitVec.ofNat_eq_ofNat, BitVec.getLsbD_zero, Bool.and_eq_false_iff,
    decide_eq_false_iff_not] at h₀ h₁
  omega

theorem visit_release {e : KeyEvent} {keycode : UInt16} {held : Held} {b : List UInt16}
    {s : State} (now : Nat) (hp : e.pressed = false)
    (h : Mid t (fun _ => b) (AllDown t) (fun _ => held) s)
    (hheld : held e.key = some keycode) (n : Nat) :
    Mid t (fun _ => b) (upTo n (PartDown t) (AllDown t))
      (upTo n (fun _ => Function.update held e.key none) fun _ => held)
      (visit t e keycode now n s).1 := by
  -- any other key that is held stays so
  have hother : ∀ (c : Combo) (j : Nat), c.keyIndex keycode ≠ some j → Down held c j →
      Down (Function.update held e.key none) c j := by
    rintro c j hj ⟨k, keycode', hk, hk'⟩
    refine ⟨k, keycode', ?_, hk'⟩
    rw [Function.update_of_ne, hk]
    rintro rfl
    rw [hheld] at hk
    cases hk
    exact hj hk'
  induction n with
  | zero =>
    rw [upTo_zero, upTo_zero]
    exact h
  | succ n ih =>
    rw [visit_succ, upTo_succ, upTo_succ]
    generalize (visit t e keycode now n s).1 = s' at ih
    unfold processSingleCombo
    cases hk : (t.combo n).keyIndex keycode with
    | none =>
      refine ih.imp (fun c state hg => ?_) fun c j hd => ?_
      · by_cases hc : c = n
        · subst hc
          rw [upTo_self] at hg
          rw [Function.update_self]
          exact AllDown.part hg
        · rwa [Function.update_of_ne hc]
      · by_cases hc : c = n
        · subst hc
          rw [upTo_self] at hd
          rw [Function.update_self]
          exact hother _ j (by simp [hk]) hd
        · rwa [Function.update_of_ne hc]
    | some index =>
      simp only [hp, Bool.false_and, Bool.false_eq_true, if_false]
      refine ih.chordRelease now _ (fun _ _ hg => ?_) fun j hj hd => ?_
      · rw [upTo_self] at hg
        exact AllDown.keyUp hg index
      · rw [upTo_self] at hd
        exact hother _ j (by simpa [hk] using hj.symm) hd

end QmkFirmware.Combos
