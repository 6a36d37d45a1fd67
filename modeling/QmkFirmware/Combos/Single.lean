import QmkFirmware.Combos.Keys

/-!
What `process_single_combo` can do to the state.
-/

set_option autoImplicit false

namespace QmkFirmware.Combos

@[simp] theorem setFlags_same (s : State) (i : Nat) (f : Flags) : (s.setFlags i f).flags i = f := by
  simp [State.setFlags]

theorem setFlags_other (s : State) {i j : Nat} (f : Flags) (h : j ≠ i) :
    (s.setFlags i f).flags j = s.flags j := by
  simp [State.setFlags, h]

@[simp] theorem setFlags_comboBuffer (s : State) (i : Nat) (f : Flags) :
    (s.setFlags i f).comboBuffer = s.comboBuffer := rfl
@[simp] theorem setFlags_keyBuffer (s : State) (i : Nat) (f : Flags) :
    (s.setFlags i f).keyBuffer = s.keyBuffer := rfl
@[simp] theorem setFlags_out (s : State) (i : Nat) (f : Flags) :
    (s.setFlags i f).out = s.out := rfl

structure Dropped (s s' : State) : Prop where
  active : ∀ j, (s'.flags j).active = (s.flags j).active
  state : ∀ j, (s'.flags j).state = (s.flags j).state
  disabled : ∀ j, (s.flags j).disabled = true → (s'.flags j).disabled = true
  entries : s'.comboBuffer.entries <:+ s.comboBuffer.entries
  gone : ∀ j ∈ s.comboBuffer.entries, j ∈ s'.comboBuffer.entries ∨ (s'.flags j).disabled = true
  slots : s'.comboBuffer.slots = s.comboBuffer.slots
  write : s'.comboBuffer.write = s.comboBuffer.write
  keyBuffer : s'.keyBuffer = s.keyBuffer
  out : s'.out = s.out
  timer : s'.timer = s.timer
  longestTerm : s'.longestTerm = s.longestTerm
  enabled : s'.enabled = s.enabled

theorem Dropped.refl (s : State) : Dropped s s :=
  ⟨fun _ => rfl, fun _ => rfl, fun _ h => h, List.suffix_refl _, fun _ h => .inl h, rfl, rfl, rfl,
    rfl, rfl, rfl, rfl⟩

theorem Dropped.trans {s s' s'' : State} (h : Dropped s s') (h' : Dropped s' s'') :
    Dropped s s'' where
  active j := (h'.active j).trans (h.active j)
  state j := (h'.state j).trans (h.state j)
  disabled j hd := h'.disabled j (h.disabled j hd)
  entries := h'.entries.trans h.entries
  gone j hj := by
    rcases h.gone j hj with hj | hd
    · exact h'.gone j hj
    · exact .inr (h'.disabled j hd)
  slots := h'.slots.trans h.slots
  write := h'.write.trans h.write
  keyBuffer := h'.keyBuffer.trans h.keyBuffer
  out := h'.out.trans h.out
  timer := h'.timer.trans h.timer
  longestTerm := h'.longestTerm.trans h.longestTerm
  enabled := h'.enabled.trans h.enabled

theorem disable_flags (s : State) (i j : Nat) : (s.disable i).flags j
    = { s.flags j with disabled := (s.flags j).disabled || decide (j = i) } := by
  by_cases h : j = i
  · subst h
    simp [State.disable]
  · rw [State.disable, setFlags_other s _ h]
    simp [h]

theorem dropped_disable (s : State) (i : Nat) : Dropped s (s.disable i) where
  active j := by rw [disable_flags]
  state j := by rw [disable_flags]
  disabled j h := by
    rw [disable_flags]
    simp [h]
  entries := List.suffix_refl _
  gone j h := .inl h
  slots := rfl
  write := rfl
  keyBuffer := rfl
  out := rfl
  timer := rfl
  longestTerm := rfl
  enabled := rfl

theorem dropped_pop {s : State} (h : s.comboBuffer.isEmpty = false)
    (hd : (s.flags (s.comboBuffer.slots s.comboBuffer.read)).disabled = true) :
    Dropped s { s with comboBuffer := s.comboBuffer.pop } where
  active j := rfl
  state j := rfl
  disabled j hd := hd
  entries := by
    rw [Ring.entries_pop h]
    exact List.suffix_cons _ _
  gone j hj := by
    rw [Ring.entries_pop h] at hj
    rcases List.mem_cons.mp hj with rfl | hj
    · exact .inr hd
    · exact .inl hj
  slots := rfl
  write := rfl
  keyBuffer := rfl
  out := rfl
  timer := rfl
  longestTerm := rfl
  enabled := rfl

theorem disable_disabled (s : State) (i : Nat) : ((s.disable i).flags i).disabled = true := by
  simp [State.disable]

theorem dropComboFromBuffer_dropped (i : Nat) (s : State) :
    Dropped s (dropComboFromBuffer i s) := by
  unfold dropComboFromBuffer
  split
  · exact .refl s
  · rename_i p hp
    have hslot : s.comboBuffer.slots p = i := by simpa using List.find?_some hp
    have hmem := List.mem_of_find?_eq_some hp
    refine (dropped_disable s i).trans ?_
    dsimp only
    split
    · rename_i hread
      have hread : p = s.comboBuffer.read := hread
      refine dropped_pop ?_ ?_
      · show s.comboBuffer.isEmpty = false
        by_contra he
        rw [Bool.not_eq_false, Ring.isEmpty_iff] at he
        have := Ring.slots_mem_entries hmem
        simp [he] at this
      · show ((s.disable i).flags (s.comboBuffer.slots s.comboBuffer.read)).disabled = true
        rw [← hread, hslot]
        exact disable_disabled s i
    · exact .refl _

theorem dropComboFromBuffer_other {i j : Nat} (s : State) (h : j ≠ i) :
    (dropComboFromBuffer i s).flags j = s.flags j := by
  unfold dropComboFromBuffer
  split
  · rfl
  · dsimp only
    split <;> exact setFlags_other s _ h

theorem dropComboFromBuffer_disabled {i : Nat} {s : State} (h : i ∈ s.comboBuffer.entries) :
    ((dropComboFromBuffer i s).flags i).disabled = true := by
  obtain ⟨p, hp, hslot⟩ := List.mem_map.mp h
  unfold dropComboFromBuffer
  cases hf : s.comboBuffer.indices.find? fun p => s.comboBuffer.slots p = i with
  | none =>
    have := List.find?_eq_none.mp hf p hp
    simp [hslot] at this
  | some p =>
    dsimp only
    split <;> exact disable_disabled s i

variable {t : Table}

theorem dropOverlaps_dropped (i : Nat) (ps : List Nat) (s : State)
    (hw : ∀ p ∈ ps, p ≠ s.comboBuffer.write) : Dropped s (dropOverlaps t i ps s).1 := by
  induction ps generalizing s with
  | nil => exact .refl s
  | cons p ps ih =>
    have hps : ∀ x ∈ ps, x ≠ s.comboBuffer.write := fun x hx => hw x (List.mem_cons_of_mem _ hx)
    simp only [dropOverlaps]
    split
    · exact ih s hps
    · rename_i drop _
      split
      · exact dropped_disable s drop
      · split
        · rename_i hc
          simp only [Bool.and_eq_true, decide_eq_true_eq] at hc
          have hread : p = s.comboBuffer.read := hc.1
          refine ((dropped_disable s drop).trans (dropped_pop ?_ ?_)).trans (ih _ hps)
          · have := hw p List.mem_cons_self
            simpa [Ring.isEmpty, State.disable, ← hread] using this
          · show ((s.disable drop).flags (s.comboBuffer.slots s.comboBuffer.read)).disabled = true
            rw [← hread, ← hc.2]
            exact disable_disabled s drop
        · exact (dropped_disable s drop).trans (ih _ hps)

/-- Either the combo itself is disabled, or all entries that it shares a key with are, and it
is none of them. -/
theorem dropOverlaps_spec (i : Nat) (ps : List Nat) (s : State)
    (hw : ∀ p ∈ ps, p ≠ s.comboBuffer.write) :
    ((dropOverlaps t i ps s).2 = true → ((dropOverlaps t i ps s).1.flags i).disabled = true)
    ∧ ((dropOverlaps t i ps s).2 = false → ∀ p ∈ ps, Shares t (s.comboBuffer.slots p) i →
      s.comboBuffer.slots p ≠ i
        ∧ ((dropOverlaps t i ps s).1.flags (s.comboBuffer.slots p)).disabled = true) := by
  induction ps generalizing s with
  | nil => simp [dropOverlaps]
  | cons p ps ih =>
    have hps : ∀ x ∈ ps, x ≠ s.comboBuffer.write := fun x hx => hw x (List.mem_cons_of_mem _ hx)
    simp only [dropOverlaps]
    split
    · rename_i hnone
      obtain ⟨h₁, h₂⟩ := ih s hps
      refine ⟨h₁, fun hf x hx hsh => ?_⟩
      rcases List.mem_cons.mp hx with rfl | hx
      · exact absurd hsh (overlaps_none.mp hnone)
      · exact h₂ hf x hx hsh
    · rename_i drop hdrop
      by_cases hi : drop = i
      · rw [if_pos hi, hi]
        exact ⟨fun _ => disable_disabled s i, fun hf => by cases hf⟩
      · -- the buffered combo is the one that is dropped
        rw [if_neg hi]
        have hd : drop = s.comboBuffer.slots p := (overlaps_some hdrop).resolve_right hi
        have hrest : ∀ s' : State, Dropped (s.disable drop) s' →
            (dropOverlaps t i ps s').2 = false → ∀ x ∈ p :: ps,
            Shares t (s.comboBuffer.slots x) i → s.comboBuffer.slots x ≠ i
              ∧ ((dropOverlaps t i ps s').1.flags (s.comboBuffer.slots x)).disabled = true := by
          intro s' hs' hf x hx hsh
          have hslots : s'.comboBuffer.slots = s.comboBuffer.slots := hs'.slots
          have hps' : ∀ x ∈ ps, x ≠ s'.comboBuffer.write := fun x hx => by
            rw [hs'.write]
            exact hps x hx
          rcases List.mem_cons.mp hx with rfl | hx
          · rw [← hd]
            exact ⟨hi, (dropOverlaps_dropped i ps s' hps').disabled drop
              (hs'.disabled drop (disable_disabled s drop))⟩
          · have := (ih s' hps').2 hf x hx
            rw [hslots] at this
            exact this hsh
        split
        · rename_i hc
          simp only [Bool.and_eq_true, decide_eq_true_eq] at hc
          have hread : p = s.comboBuffer.read := hc.1
          have hpop : Dropped (s.disable drop)
              { s.disable drop with comboBuffer := (s.disable drop).comboBuffer.pop } := by
            refine dropped_pop ?_ ?_
            · have := hw p List.mem_cons_self
              simpa [Ring.isEmpty, State.disable, ← hread] using this
            · show ((s.disable drop).flags (s.comboBuffer.slots s.comboBuffer.read)).disabled = true
              rw [← hread, ← hd]
              exact disable_disabled s drop
          refine ⟨(ih _ ?_).1, hrest _ hpop⟩
          exact hps
        · refine ⟨(ih _ ?_).1, hrest _ (.refl _)⟩
          exact hps

theorem keyDown_flags (s : State) (i index : Nat) :
    (s.keyDown i index).flags i
      = { s.flags i with state := (s.flags i).state ||| keyBit index } := by
  unfold State.keyDown
  dsimp only
  split <;> simp

theorem keyDown_other (s : State) {i j : Nat} (index : Nat) (h : j ≠ i) :
    (s.keyDown i index).flags j = s.flags j := by
  unfold State.keyDown
  dsimp only
  split <;> exact setFlags_other s _ h

theorem keyDown_frame (s : State) (i index : Nat) :
    (s.keyDown i index).comboBuffer = s.comboBuffer
      ∧ (s.keyDown i index).keyBuffer = s.keyBuffer ∧ (s.keyDown i index).out = s.out
      ∧ (s.keyDown i index).timer = s.timer ∧ (s.keyDown i index).enabled = s.enabled := by
  unfold State.keyDown
  dsimp only
  split <;> exact ⟨rfl, rfl, rfl, rfl, rfl⟩

theorem keyUp_flags (s : State) (i index : Nat) :
    (s.keyUp i index).flags i
      = { s.flags i with state := (s.flags i).state &&& ~~~keyBit index } := by
  simp [State.keyUp]

theorem keyUp_other (s : State) {i j : Nat} (index : Nat) (h : j ≠ i) :
    (s.keyUp i index).flags j = s.flags j := by
  simp [State.keyUp, setFlags_other s _ h]

/-- The key of an inactive combo is down: the combo is not complete, or it is dropped, or it is
put in the combo buffer and what overlaps with it is dropped. -/
theorem comboKeyDown_cases {now i index : Nat} {s : State} (ha : (s.flags i).active = false) :
    let down := allComboKeysAreDown ((s.flags i).state ||| keyBit index) (t.combo i).keys.length
    (down = false ∧ comboKeyDown t now i index s = s.keyDown i index)
    ∨ (down = true ∧ Dropped (s.keyDown i index) (comboKeyDown t now i index s)
      ∧ ((comboKeyDown t now i index s).flags i).disabled = true)
    ∨ (down = true ∧ ∃ s', Dropped (s.keyDown i index) s'
      ∧ comboKeyDown t now i index s = { s' with comboBuffer := s'.comboBuffer.push i }
      ∧ ∀ j ∈ s.comboBuffer.entries, Shares t j i → j ≠ i ∧ (s'.flags j).disabled = true) := by
  intro down
  obtain ⟨hring, -, -, htimer, -⟩ := keyDown_frame s i index
  have hk : comboKeyDown t now i index s =
      if down then
        if s.timer ≠ 0 && comboTerm < timerElapsed now s.timer then
          (s.keyDown i index).disable i
        else
          let r := dropOverlaps t i s.comboBuffer.indices (s.keyDown i index)
          if r.2 then r.1 else { r.1 with comboBuffer := r.1.comboBuffer.push i }
      else s.keyDown i index := by
    unfold comboKeyDown
    simp only [ha, Bool.false_eq_true, if_false, keyDown_flags, hring, htimer]
    rfl
  rw [hk]
  have hw : ∀ p ∈ s.comboBuffer.indices, p ≠ (s.keyDown i index).comboBuffer.write := by
    rintro p hp rfl
    rw [hring] at hp
    exact Ring.not_mem_between _ _ hp
  have hdrop := @dropOverlaps_dropped t i s.comboBuffer.indices (s.keyDown i index) hw
  obtain ⟨hd, hkeep⟩ := @dropOverlaps_spec t i s.comboBuffer.indices (s.keyDown i index) hw
  cases hdown : down with
  | false => exact .inl ⟨rfl, by simp⟩
  | true =>
    right
    rw [if_pos rfl]
    split
    · exact .inl ⟨rfl, dropped_disable _ i, disable_disabled _ i⟩
    · dsimp only
      cases hr : (dropOverlaps t i s.comboBuffer.indices (s.keyDown i index)).2 with
      | true => exact .inl ⟨rfl, by simpa using hdrop, by simpa using hd hr⟩
      | false =>
        refine .inr ⟨rfl, _, hdrop, by simp, fun j hj hsh => ?_⟩
        obtain ⟨p, hp, rfl⟩ := List.mem_map.mp hj
        rw [hring] at hkeep
        exact hkeep hr p hp hsh

theorem chordRelease_cases {now i index : Nat} {part : Bool} {s : State} :
    ((s.flags i).active = false
      ∧ allComboKeysAreDown (s.flags i).state (t.combo i).keys.length = true
      ∧ (s.flags i).disabled = true
      ∧ chordRelease t now i index part s = ((dropComboFromBuffer i s).keyUp i index,false))
    ∨ ((s.flags i).active = false
      ∧ allComboKeysAreDown (s.flags i).state (t.combo i).keys.length = true
      ∧ (s.flags i).disabled = false
      ∧ chordRelease t now i index part s = (s.keyUp i index,part))
    ∨ ((s.flags i).active = true ∧ onlyOneKeyIsDown (s.flags i).state = true
      ∧ (s.flags i).state.getLsbD index = true
      ∧ chordRelease t now i index part s = ((releaseCombo t now i s).keyUp i index,true))
    ∨ ((s.flags i).active = true ∧ onlyOneKeyIsDown (s.flags i).state = false
      ∧ (s.flags i).state.getLsbD index = true
      ∧ chordRelease t now i index part s = (s.keyUp i index,true))
    ∨ (((s.flags i).active = true → (s.flags i).state.getLsbD index = false)
      ∧ ((s.flags i).active = false →
        allComboKeysAreDown (s.flags i).state (t.combo i).keys.length = false)
      ∧ chordRelease t now i index part s = (s.keyUp i index,false)) := by
  have hbit := @keyNotYetReleased_iff (s.flags i).state index
  unfold chordRelease
  cases ha : (s.flags i).active with
  | false =>
    cases hd : allComboKeysAreDown (s.flags i).state (t.combo i).keys.length with
    | false => simp [ha, hd]
    | true => cases hdis : (s.flags i).disabled <;> simp [ha, hd, hdis]
  | true =>
    cases hk : keyNotYetReleased (s.flags i).state index with
    | false =>
      have hf : (s.flags i).state.getLsbD index = false := by
        rw [hk] at hbit
        simpa using hbit
      simp [ha, hk, hf]
    | true =>
      have hf : (s.flags i).state.getLsbD index = true := hbit.mp hk
      cases ho : onlyOneKeyIsDown (s.flags i).state <;> simp [ha, hk, ho, hf]

end QmkFirmware.Combos
