import Mathlib.Data.List.Forall2
import QmkFirmware.Combos.Visit

/-!
`apply_combos`: the combos of the combo buffer take their keys from the key buffer one after
the other, and then the key buffer is dumped.
-/

set_option autoImplicit false

namespace QmkFirmware.Combos

open Tapping (KeyPos KeyEvent)

theorem view_dumped_other {i : Nat} {q : QueuedRecord} (h : q.comboIndex ≠ some i) :
    view i (dumped q) = [] := by
  unfold dumped
  split
  · rfl
  · cases hq : q.comboIndex with
    | none => rfl
    | some j =>
      have hj : j ≠ i := fun hj => h (hj ▸ hq)
      dsimp only
      split <;> simp [view, Sent.kind, hj]

theorem view_dumped_tick (i : Nat) {q : QueuedRecord} (h : q.record.event.type = .tick) :
    view i (dumped q) = [] := by
  simp [dumped, Tapping.KeyEvent.isNoEvent, h, view]

theorem view_dumped_combo {i : Nat} {q : QueuedRecord} (h : q.comboIndex = some i)
    (htype : q.record.event.type = .combo) (hp : q.record.event.pressed = true) :
    view i (dumped q) = [.press] := by
  unfold dumped
  rw [h]
  split
  · rename_i hno
    simp [Tapping.KeyEvent.isNoEvent, htype] at hno
  · dsimp only
    split <;> simp [view, Sent.kind, pressKind, hp]

theorem view_flatMap_cons (i : Nat) (q : QueuedRecord) (qs : List QueuedRecord) :
    view i ((q :: qs).flatMap dumped) = view i (dumped q) ++ view i (qs.flatMap dumped) := by
  rw [List.flatMap_cons, view_append]

theorem view_applyKeys_other {c : Combo} {i j : Nat} (hij : j ≠ i) (state : BitVec 8)
    {buffer : List QueuedRecord}
    (h : ∀ q ∈ buffer, q.comboIndex = some j → c.keyIndex q.keycode = none) :
    view j ((applyKeys c i state buffer).2.flatMap dumped) = view j (buffer.flatMap dumped) := by
  induction buffer generalizing state with
  | nil => rfl
  | cons q qs ih =>
    have hqs := fun x hx => h x (List.mem_cons_of_mem _ hx)
    cases hk : c.keyIndex q.keycode with
    | none =>
      simp only [applyKeys, hk]
      rw [view_flatMap_cons, view_flatMap_cons, ih state hqs]
    | some index =>
      have hother : q.comboIndex ≠ some j := fun hj => by
        simp [h q List.mem_cons_self hj] at hk
      simp only [applyKeys, hk]
      split
      · rw [view_flatMap_cons, view_flatMap_cons, view_dumped_other hother,
          view_dumped_other (by simpa using hij.symm)]
      · rw [view_flatMap_cons, view_flatMap_cons, ih _ hqs, view_dumped_other hother,
          view_dumped_tick j rfl]

theorem view_untaken {i : Nat} {buffer : List QueuedRecord}
    (h : ∀ q ∈ buffer, q.comboIndex ≠ some i) : view i (buffer.flatMap dumped) = [] := by
  induction buffer with
  | nil => rfl
  | cons q qs ih =>
    rw [view_flatMap_cons, view_dumped_other (h q List.mem_cons_self),
      ih fun x hx => h x (List.mem_cons_of_mem _ hx)]
    rfl

theorem view_applyKeys_own {c : Combo} {i : Nat} (state : BitVec 8) {buffer : List QueuedRecord}
    (h : ∀ q ∈ buffer, q.comboIndex ≠ some i) (hp : ∀ q ∈ buffer, q.record.event.pressed = true) :
    view i ((applyKeys c i state buffer).2.flatMap dumped)
      = if (applyKeys c i state buffer).1 then [.press] else [] := by
  induction buffer generalizing state with
  | nil => rfl
  | cons q qs ih =>
    have hq := h q List.mem_cons_self
    have hqs := fun x hx => h x (List.mem_cons_of_mem _ hx)
    have ih := fun state => ih state hqs fun x hx => hp x (List.mem_cons_of_mem _ hx)
    cases hk : c.keyIndex q.keycode with
    | none =>
      simp only [applyKeys, hk]
      rw [view_flatMap_cons, view_dumped_other hq, ih state]
      rfl
    | some index =>
      simp only [applyKeys, hk]
      split
      · rw [view_flatMap_cons, view_untaken hqs, List.append_nil]
        exact view_dumped_combo rfl rfl (hp q List.mem_cons_self)
      · rw [view_flatMap_cons, ih _, view_dumped_tick i rfl]
        rfl

theorem applyKeys_touched (c : Combo) (i : Nat) (state : BitVec 8) (buffer : List QueuedRecord) :
    List.Forall₂ (fun q q' => q'.keycode = q.keycode
      ∧ q'.record.event.pressed = q.record.event.pressed
      ∧ (q' = q ∨ (c.keyIndex q.keycode).isSome = true)) buffer (applyKeys c i state buffer).2 := by
  have hsame : ∀ qs : List QueuedRecord, List.Forall₂ (fun q q' => q'.keycode = q.keycode
      ∧ q'.record.event.pressed = q.record.event.pressed
      ∧ (q' = q ∨ (c.keyIndex q.keycode).isSome = true)) qs qs := fun qs =>
    List.forall₂_same.mpr fun _ _ => ⟨rfl, rfl, .inl rfl⟩
  induction buffer generalizing state with
  | nil => exact .nil
  | cons q qs ih =>
    cases hk : c.keyIndex q.keycode with
    | none =>
      simp only [applyKeys, hk]
      exact .cons ⟨rfl, rfl, .inl rfl⟩ (ih state)
    | some index =>
      simp only [applyKeys, hk]
      split
      · exact .cons ⟨rfl, rfl, .inr (by simp [hk])⟩ (hsame qs)
      · exact .cons ⟨rfl, rfl, .inr (by simp [hk])⟩ (ih _)

theorem completing_mem {c : Combo} {k : UInt16} {index : Nat} {state : BitVec 8}
    (hk : c.keyIndex k = some index) (hnot : allComboKeysAreDown state c.keys.length = false)
    (hdown : allComboKeysAreDown (state ||| keyBit index) c.keys.length = true) : k ∈ c.keys := by
  refine c.mem_of_keyIndex hk fun hend => ?_
  have hget := allDown_get hdown
  -- the end of the keys has no bit among those of the keys
  have hsame : state ||| keyBit index = state := by
    refine BitVec.eq_of_getLsbD_eq fun j hj => ?_
    rw [down_get]
    by_cases hij : index = j
    · have := hget j
      rw [down_get, ← hij, hend] at this
      simp [show c.keys.length < 8 by omega] at this
    · simp [hij]
  rw [hsame, hnot] at hdown
  cases hdown

theorem applyKeys_owner {c : Combo} {i : Nat} {state : BitVec 8} {buffer : List QueuedRecord}
    (hnot : allComboKeysAreDown state c.keys.length = false) :
    ∀ q ∈ (applyKeys c i state buffer).2, ∀ j, q.comboIndex = some j →
      (∃ q' ∈ buffer, q'.comboIndex = some j ∧ q'.keycode = q.keycode)
        ∨ j = i ∧ (applyKeys c i state buffer).1 = true ∧ q.keycode ∈ c.keys := by
  induction buffer generalizing state with
  | nil => intro q hq; cases hq
  | cons x xs ih =>
    intro q hq j hj
    cases hk : c.keyIndex x.keycode with
    | none =>
      simp only [applyKeys, hk] at hq ⊢
      rcases List.mem_cons.mp hq with rfl | hq
      · exact .inl ⟨q, List.mem_cons_self, hj, rfl⟩
      · refine (ih hnot q hq j hj).imp_left ?_
        rintro ⟨q', hq', h⟩
        exact ⟨q', List.mem_cons_of_mem _ hq', h⟩
    | some index =>
      cases hd : allComboKeysAreDown (state ||| keyBit index) c.keys.length with
      | true =>
        simp only [applyKeys, hk, hd, if_true] at hq ⊢
        rcases List.mem_cons.mp hq with rfl | hq
        · simp only [Option.some.injEq] at hj
          exact .inr ⟨hj.symm, by simp, completing_mem hk hnot hd⟩
        · exact .inl ⟨q, List.mem_cons_of_mem _ hq, hj, rfl⟩
      | false =>
        simp only [applyKeys, hk, hd, Bool.false_eq_true, if_false] at hq ⊢
        rcases List.mem_cons.mp hq with rfl | hq
        · exact .inl ⟨x, List.mem_cons_self, hj, rfl⟩
        · refine (ih hd q hq j hj).imp_left ?_
          rintro ⟨q', hq', h⟩
          exact ⟨q', List.mem_cons_of_mem _ hq', h⟩

theorem claimed_sub (c : Combo) (state : BitVec 8) (buffer : List QueuedRecord) :
    ∀ q ∈ claimed c state buffer, q ∈ buffer := by
  induction buffer generalizing state with
  | nil => intro q hq; cases hq
  | cons x xs ih =>
    intro q hq
    simp only [claimed] at hq
    split at hq
    · exact List.mem_cons_of_mem _ (ih state q hq)
    · split at hq
      · rw [List.mem_singleton.mp hq]
        exact List.mem_cons_self
      · rcases List.mem_cons.mp hq with rfl | hq
        · exact List.mem_cons_self
        · exact List.mem_cons_of_mem _ (ih _ q hq)

theorem claimed_covers {c : Combo} {state : BitVec 8} {buffer : List QueuedRecord}
    (h : c.completes state (keycodes buffer) = true) {j : Nat} (hj : j < c.keys.length)
    (hbit : state.getLsbD j = false) :
    ∃ q ∈ claimed c state buffer, c.keyIndex q.keycode = some j := by
  unfold keycodes at h
  induction buffer generalizing state with
  | nil => simp [Combo.completes] at h
  | cons x xs ih =>
    simp only [List.map_cons, Combo.completes] at h
    simp only [claimed]
    cases hk : c.keyIndex x.keycode with
    | none =>
      rw [hk] at h
      exact ih h hbit
    | some index =>
      simp only [hk, Bool.or_eq_true] at h
      by_cases hij : index = j
      · refine ⟨x, ?_, hij ▸ hk⟩
        dsimp only
        split <;> exact List.mem_cons_self
      · have hbit' : (state ||| keyBit index).getLsbD j = false := by
          rw [down_get, hbit]
          simp [hij]
        dsimp only
        split
        · rename_i hd
          have := allDown_get hd j
          simp [hbit', hj] at this
        · rename_i hd
          obtain ⟨q, hq, hqj⟩ := ih (h.resolve_left hd) hbit'
          exact ⟨q, List.mem_cons_of_mem _ hq, hqj⟩

theorem dropComboFromBuffer_flags {c : Nat} {s : State} (h : c ∈ s.comboBuffer.entries) (j : Nat) :
    (dropComboFromBuffer c s).flags j
      = { s.flags j with disabled := (s.flags j).disabled || decide (j = c) } := by
  by_cases hj : j = c
  · subst hj
    have hd := dropComboFromBuffer_dropped j s
    have hdis := dropComboFromBuffer_disabled h
    have ha := hd.active j
    have hs := hd.state j
    cases hf : (dropComboFromBuffer j s).flags j
    simp_all
  · rw [dropComboFromBuffer_other s hj]
    simp [hj]

theorem dropComboFromBuffer_rest {c : Nat} {rest : List Nat} {s : State}
    (h : c :: rest <:+ s.comboBuffer.entries) :
    rest <:+ (dropComboFromBuffer c s).comboBuffer.entries := by
  have hrest : rest <:+ s.comboBuffer.entries := (List.suffix_cons c rest).trans h
  unfold dropComboFromBuffer
  split
  · exact hrest
  · dsimp only
    split
    · have hne : s.comboBuffer.isEmpty = false := by
        by_contra he
        rw [Bool.not_eq_false, Ring.isEmpty_iff] at he
        rw [he] at h
        simp at h
      rw [Ring.entries_pop hne] at h
      rcases List.suffix_cons_iff.mp h with heq | hsuf
      · cases heq
        exact List.suffix_refl _
      · exact (List.suffix_cons c rest).trans hsuf
    · exact hrest

def fires (t : Table) (s₀ : State) (c : Nat) : Bool :=
  !(s₀.flags c).disabled && (t.combo c).completes 0 (keycodes s₀.keyBuffer)

def fired (t : Table) (s₀ : State) (done : List Nat) (c : Nat) : Bool :=
  decide (c ∈ done) && fires t s₀ c

def Covers (t : Table) (s₀ : State) (c : Nat) (events : List KeyEvent) : Prop :=
  ∀ j < (t.combo c).keys.length, ∃ q ∈ s₀.keyBuffer,
    (t.combo c).keyIndex q.keycode = some j ∧ q.record.event ∈ events

def Touched (t : Table) (s₀ : State) (done : List Nat) (q q' : QueuedRecord) : Prop :=
  q'.keycode = q.keycode ∧ q'.record.event.pressed = q.record.event.pressed
    ∧ (q' = q ∨ ∃ c ∈ done, (s₀.flags c).disabled = false
      ∧ ((t.combo c).keyIndex q.keycode).isSome = true)

/-- The loop began in `s₀` and has done these combos. -/
structure Applied (t : Table) (s₀ : State) (done : List Nat) (s : State) : Prop where
  state : ∀ c, (s.flags c).state = (s₀.flags c).state
  active : ∀ c, (s.flags c).active = ((s₀.flags c).active || fired t s₀ done c)
  disabled : ∀ c, (s.flags c).disabled = ((s₀.flags c).disabled || decide (c ∈ done))
  sent : ∃ sent, s.out = s₀.out ++ sent
    ∧ (∀ c, view c sent = if fired t s₀ done c then [.activation] else [])
    ∧ ∀ x ∈ sent, ∃ c events, x = .activated c events ∧ fired t s₀ done c = true
      ∧ Covers t s₀ c events
  presses : ∀ c, view c (s.keyBuffer.flatMap dumped)
    = if fired t s₀ done c then [.press] else []
  owned : ∀ q ∈ s.keyBuffer, ∀ c, q.comboIndex = some c → fired t s₀ done c = true
    ∧ q.keycode ∈ (t.combo c).keys
  records : List.Forall₂ (Touched t s₀ done) s₀.keyBuffer s.keyBuffer
  entries : s.comboBuffer.entries <:+ s₀.comboBuffer.entries
  enabled : s.enabled = s₀.enabled

variable {t : Table} {s₀ s : State} {done : List Nat} {c : Nat}

theorem fired_nil (c : Nat) : fired t s₀ [] c = false := by simp [fired]

theorem fired_snoc (j : Nat) :
    fired t s₀ (done ++ [c]) j = (fired t s₀ done j || decide (j = c) && fires t s₀ c) := by
  unfold fired
  by_cases hj : j = c
  · subst hj
    simp
  · simp [hj]

theorem applied_start (h : ∀ q ∈ s₀.keyBuffer, q.comboIndex = none) : Applied t s₀ [] s₀ where
  state _ := rfl
  active c := by rw [fired_nil, Bool.or_false]
  disabled c := by simp
  sent := ⟨[], by simp, fun c => by rw [fired_nil]; rfl, fun x hx => by cases hx⟩
  presses c := by
    rw [fired_nil]
    exact view_untaken fun q hq => by simp [h q hq]
  owned q hq c hc := by simp [h q hq] at hc
  records := List.forall₂_same.mpr fun _ _ => ⟨rfl, rfl, .inl rfl⟩
  entries := List.suffix_refl _
  enabled := rfl

theorem Touched.mono {done' : List Nat} (hsub : ∀ c ∈ done, c ∈ done') {q q' : QueuedRecord}
    (h : Touched t s₀ done q q') : Touched t s₀ done' q q' := by
  refine ⟨h.1, h.2.1, h.2.2.imp_right ?_⟩
  rintro ⟨c, hc, h⟩
  exact ⟨c, hsub c hc, h⟩

theorem Applied.keycodes_eq (h : Applied t s₀ done s) :
    keycodes s.keyBuffer = keycodes s₀.keyBuffer := by
  unfold keycodes
  have hr := h.records
  generalize s₀.keyBuffer = qs, s.keyBuffer = qs' at hr
  induction hr with
  | nil => rfl
  | cons hq _ ih => rw [List.map_cons, List.map_cons, ih, hq.1]

theorem Applied.pressed (h : Applied t s₀ done s)
    (hp : ∀ q ∈ s₀.keyBuffer, q.record.event.pressed = true) :
    ∀ q ∈ s.keyBuffer, q.record.event.pressed = true := by
  have hr := h.records
  generalize s₀.keyBuffer = qs, s.keyBuffer = qs' at hr hp
  induction hr with
  | nil => intro q hq; cases hq
  | @cons q q' _ _ hq _ ih =>
    intro x hx
    rcases List.mem_cons.mp hx with rfl | hx
    · rw [hq.2.1]
      exact hp q List.mem_cons_self
    · exact ih (fun y hy => hp y (List.mem_cons_of_mem _ hy)) x hx

theorem Applied.origin (h : Applied t s₀ done s) {q : QueuedRecord} (hq : q ∈ s.keyBuffer) :
    q ∈ s₀.keyBuffer ∨ ∃ c ∈ done, (s₀.flags c).disabled = false
      ∧ ((t.combo c).keyIndex q.keycode).isSome = true := by
  have hr := h.records
  generalize s₀.keyBuffer = qs, s.keyBuffer = qs' at hr hq
  induction hr with
  | nil => cases hq
  | @cons x x' _ _ hx _ ih =>
    rcases List.mem_cons.mp hq with rfl | hq
    · refine hx.2.2.imp (fun heq => ?_) fun hc => ?_
      · rw [heq]
        exact List.mem_cons_self
      · rwa [hx.1]
    · exact (ih hq).imp_left (List.mem_cons_of_mem _)

theorem applyCombo_disabled {now : Nat} (h : (s.flags c).disabled = true) :
    applyCombo t now c s = s := by
  rw [applyCombo, if_pos h]

/-- What `apply_combo` does for a combo of the combo buffer that has more than one key. -/
structure ComboApplied (t : Table) (c : Nat) (s s' : State) : Prop where
  flags : ∀ j, s'.flags j = { s.flags j with
    active := (s.flags j).active || decide (j = c) && (t.combo c).completes 0 (keycodes s.keyBuffer)
    disabled := (s.flags j).disabled || decide (j = c) }
  keyBuffer : s'.keyBuffer = (applyKeys (t.combo c) c 0 s.keyBuffer).2
  out : s'.out = s.out ++ if (t.combo c).completes 0 (keycodes s.keyBuffer) then
    [.activated c ((claimed (t.combo c) 0 s.keyBuffer).map fun q => q.record.event)] else []
  entries : s'.comboBuffer.entries <:+ s.comboBuffer.entries
  rest : ∀ rest, c :: rest <:+ s.comboBuffer.entries → rest <:+ s'.comboBuffer.entries
  enabled : s'.enabled = s.enabled

theorem applyCombo_applied {now : Nat} (hd : (s.flags c).disabled = false)
    (hlen : (t.combo c).keys.length ≠ 1) (hmem : c ∈ s.comboBuffer.entries) :
    ComboApplied t c s (applyCombo t now c s) := by
  have hfst := applyKeys_fst (t.combo c) c 0 s.keyBuffer
  -- the state in which the combo is dropped from the buffer
  obtain ⟨s₁, happly, hflags, hbuffer, hout, hring, hon⟩ : ∃ s₁,
      applyCombo t now c s = dropComboFromBuffer c s₁
        ∧ (∀ j, s₁.flags j = { s.flags j with
          active := (s.flags j).active
            || (decide (j = c) && (t.combo c).completes 0 (keycodes s.keyBuffer)) })
        ∧ s₁.keyBuffer = (applyKeys (t.combo c) c 0 s.keyBuffer).2
        ∧ (s₁.out = s.out ++ if (t.combo c).completes 0 (keycodes s.keyBuffer) then
          [.activated c ((claimed (t.combo c) 0 s.keyBuffer).map fun q => q.record.event)] else [])
        ∧ s₁.comboBuffer = s.comboBuffer ∧ s₁.enabled = s.enabled := by
    rw [applyCombo, hd, if_neg (by simp)]
    simp only [hfst, if_neg hlen]
    cases (t.combo c).completes 0 (keycodes s.keyBuffer) with
    | true =>
      refine ⟨_, rfl, fun j => ?_, rfl, rfl, rfl, rfl⟩
      by_cases hj : j = c
      · subst hj
        simp [State.activate, State.send, State.setFlags]
      · simp [State.activate, State.send, State.setFlags, hj]
    | false => exact ⟨_, rfl, fun j => by simp, rfl, by simp, rfl, rfl⟩
  have hdrop := dropComboFromBuffer_dropped c s₁
  rw [happly]
  refine ⟨fun j => ?_, ?_, ?_, ?_, fun rest hrest => ?_, ?_⟩
  · rw [dropComboFromBuffer_flags (hring ▸ hmem), hflags]
  · rw [hdrop.keyBuffer, hbuffer]
  · rw [hdrop.out, hout]
  · rw [← hring]
    exact hdrop.entries
  · rw [← hring] at hrest
    exact dropComboFromBuffer_rest hrest
  · rw [hdrop.enabled, hon]

def Apart (t : Table) (s₀ : State) (a b : Nat) : Prop :=
  (s₀.flags a).disabled = false → (s₀.flags b).disabled = false → Shares t a b →
    fires t s₀ a = false ∧ fires t s₀ b = false

theorem Applied.pass (h : Applied t s₀ done s) (hd : (s.flags c).disabled = true) :
    Applied t s₀ (done ++ [c]) s := by
  rw [h.disabled, Bool.or_eq_true, decide_eq_true_eq] at hd
  have hfired : ∀ j, fired t s₀ (done ++ [c]) j = fired t s₀ done j := by
    intro j
    rw [fired_snoc]
    by_cases hj : j = c
    · subst hj
      rcases hd with hd | hmem
      · simp [fires, hd]
      · simp [fired, hmem]
    · simp [hj]
  have hmem : ∀ j, decide (j ∈ done ++ [c])
      = (decide (j ∈ done) || decide (j = c)) := fun j => by simp
  refine ⟨h.state, fun j => ?_, fun j => ?_, ?_, fun j => ?_, fun q hq j hj => ?_, ?_,
    h.entries, h.enabled⟩
  · rw [hfired, h.active]
  · rw [hmem, h.disabled]
    by_cases hj : j = c
    · subst hj
      rcases hd with hd | hmem
      · simp [hd]
      · simp [hmem]
    · simp [hj]
  · obtain ⟨sent, hout, hview, hact⟩ := h.sent
    refine ⟨sent, hout, fun j => ?_, fun x hx => ?_⟩
    · rw [hfired, hview]
    · obtain ⟨j, events, rfl, hj, hcov⟩ := hact x hx
      exact ⟨j, events, rfl, by rw [hfired, hj], hcov⟩
  · rw [hfired, h.presses]
  · rw [hfired]
    exact h.owned q hq j hj
  · exact h.records.imp fun _ _ hq => hq.mono fun _ hx => List.mem_append_left _ hx

theorem Applied.free (h : Applied t s₀ done s) (hen : (s₀.flags c).disabled = false)
    (hapart : ∀ c' ∈ done, Apart t s₀ c' c) {q : QueuedRecord} (hq : q ∈ s.keyBuffer) {j : Nat}
    (hj : q.comboIndex = some j) : (t.combo c).keyIndex q.keycode = none := by
  obtain ⟨hfired, hkey⟩ := h.owned q hq j hj
  simp only [fired, Bool.and_eq_true, decide_eq_true_eq] at hfired
  obtain ⟨hmem, hfires⟩ := hfired
  by_contra hk
  obtain ⟨index, hk⟩ := Option.ne_none_iff_exists'.mp hk
  have hend : q.keycode ≠ comboEnd := fun hend => (t.combo j).noEnd (hend ▸ hkey)
  have hdis : (s₀.flags j).disabled = false := by
    simp only [fires, Bool.and_eq_true, Bool.not_eq_true'] at hfires
    exact hfires.1
  have hshare : Shares t j c := ⟨q.keycode, hkey, (t.combo c).keyIndex_mem hend hk⟩
  rw [(hapart j hmem hdis hen hshare).1] at hfires
  cases hfires

theorem touched_comp {done' : List Nat} {qs qs' qs'' : List QueuedRecord}
    (h : List.Forall₂ (Touched t s₀ done) qs qs')
    (h' : List.Forall₂ (fun q q' => q'.keycode = q.keycode
      ∧ q'.record.event.pressed = q.record.event.pressed
      ∧ (q' = q ∨ ((t.combo c).keyIndex q.keycode).isSome = true)) qs' qs'')
    (hen : (s₀.flags c).disabled = false) (hsub : ∀ x ∈ done, x ∈ done') (hc : c ∈ done') :
    List.Forall₂ (Touched t s₀ done') qs qs'' := by
  induction h generalizing qs'' with
  | nil =>
    cases h'
    exact .nil
  | cons hq _ ih =>
    cases h' with
    | cons hq' hrest =>
      refine .cons ⟨hq'.1.trans hq.1, hq'.2.1.trans hq.2.1, ?_⟩ (ih hrest)
      rcases hq'.2.2 with rfl | hsome
      · exact (hq.mono hsub).2.2
      · exact .inr ⟨c, hc, hen, hq.1 ▸ hsome⟩

theorem noneDown {n : Nat} (hn : 1 ≤ n) : allComboKeysAreDown 0 n = false := by
  by_contra h
  have := allDown_get ((Bool.not_eq_false _).mp h) 0
  simp [show 0 < n by omega] at this

theorem Applied.covers (h : Applied t s₀ done s) (hen : (s₀.flags c).disabled = false)
    (hapart : ∀ c' ∈ done, Apart t s₀ c' c)
    (hcomp : (t.combo c).completes 0 (keycodes s.keyBuffer) = true) :
    Covers t s₀ c ((claimed (t.combo c) 0 s.keyBuffer).map fun q => q.record.event) := by
  intro j hj
  obtain ⟨q, hq, hindex⟩ := claimed_covers hcomp hj (by simp)
  refine ⟨q, ?_, hindex, List.mem_map_of_mem hq⟩
  rcases h.origin (claimed_sub _ _ _ q hq) with hq₀ | ⟨c', hc', hen', hsome⟩
  · exact hq₀
  · obtain ⟨i, hi⟩ := Option.isSome_iff_exists.mp hsome
    have hkey := (t.combo c).mem_of_keyIndex hindex (by omega)
    have hend : q.keycode ≠ comboEnd := fun hend => (t.combo c).noEnd (hend ▸ hkey)
    have hshare : Shares t c' c := ⟨q.keycode, (t.combo c').keyIndex_mem hend hi, hkey⟩
    have hno := (hapart c' hc' hen' hen hshare).2
    rw [h.keycodes_eq] at hcomp
    rw [fires, hen, hcomp] at hno
    cases hno

theorem Applied.take {now : Nat} (h : Applied t s₀ done s) (hd : (s.flags c).disabled = false)
    (hlen : 2 ≤ (t.combo c).keys.length)
    (hpressed : ∀ q ∈ s₀.keyBuffer, q.record.event.pressed = true)
    (hapart : ∀ c' ∈ done, Apart t s₀ c' c) (hmem : c ∈ s.comboBuffer.entries) :
    Applied t s₀ (done ++ [c]) (applyCombo t now c s) := by
  have hd' := h.disabled c
  rw [hd] at hd'
  have hen : (s₀.flags c).disabled = false := (Bool.or_eq_false_iff.mp hd'.symm).1
  have hnot : c ∉ done := of_decide_eq_false (Bool.or_eq_false_iff.mp hd'.symm).2
  have hnever : fired t s₀ done c = false := by simp [fired, hnot]
  have hfires : fires t s₀ c = (t.combo c).completes 0 (keycodes s.keyBuffer) := by
    rw [fires, hen, h.keycodes_eq]
    rfl
  have hfired := fun j => @fired_snoc t s₀ done c j
  simp only [hfires] at hfired
  have happ := @applyCombo_applied t s c now hd (by omega) hmem
  refine ⟨fun j => ?_, fun j => ?_, fun j => ?_, ?_, fun j => ?_, fun q hq j hj => ?_, ?_,
    happ.entries.trans h.entries, happ.enabled.trans h.enabled⟩
  · rw [happ.flags]
    exact h.state j
  · rw [happ.flags, hfired, ← Bool.or_assoc, ← h.active]
  · rw [happ.flags, h.disabled, Bool.or_assoc]
    simp
  · obtain ⟨sent, hout, hview, hact⟩ := h.sent
    refine ⟨_, by rw [happ.out, hout, List.append_assoc], fun j => ?_, fun x hx => ?_⟩
    · rw [view_append, hview, hfired]
      by_cases hj : j = c
      · subst hj
        rw [hnever]
        cases (t.combo j).completes 0 (keycodes s.keyBuffer) <;> simp [view, Sent.kind]
      · have hcj : c ≠ j := Ne.symm hj
        cases (t.combo c).completes 0 (keycodes s.keyBuffer) <;> simp [view, Sent.kind, hj, hcj]
    · rcases List.mem_append.mp hx with hx | hx
      · obtain ⟨j, events, rfl, hj, hcov⟩ := hact x hx
        exact ⟨j, events, rfl, by rw [hfired, hj, Bool.true_or], hcov⟩
      · split at hx
        · rename_i hcomp
          rw [List.mem_singleton.mp hx]
          exact ⟨c, _, rfl, by rw [hfired, hcomp]; simp, h.covers hen hapart hcomp⟩
        · cases hx
  · rw [happ.keyBuffer, hfired]
    by_cases hj : j = c
    · subst hj
      rw [view_applyKeys_own 0 (fun q hq hown => ?_) (h.pressed hpressed), applyKeys_fst, hnever]
      · simp
      · rw [(h.owned q hq j hown).1] at hnever
        cases hnever
    · rw [view_applyKeys_other hj 0 fun q hq hown => h.free hen hapart hq hown, h.presses]
      simp [hj]
  · rw [happ.keyBuffer] at hq
    rcases applyKeys_owner (noneDown (by omega)) q hq j hj with ⟨q', hq', hown, hk⟩ | ⟨rfl, hr, hk⟩
    · obtain ⟨hold, hkey⟩ := h.owned q' hq' j hown
      exact ⟨by rw [hfired, hold, Bool.true_or], hk ▸ hkey⟩
    · rw [applyKeys_fst] at hr
      exact ⟨by rw [hfired, hr]; simp, hk⟩
  · rw [happ.keyBuffer]
    exact touched_comp h.records (applyKeys_touched _ _ _ _) hen
      (fun x hx => List.mem_append_left _ hx) (by simp)

theorem Applied.step {now : Nat} {rest : List Nat} (h : Applied t s₀ done s)
    (hlen : 2 ≤ (t.combo c).keys.length)
    (hpressed : ∀ q ∈ s₀.keyBuffer, q.record.event.pressed = true)
    (hapart : ∀ c' ∈ done, Apart t s₀ c' c) (hrest : c :: rest <:+ s.comboBuffer.entries) :
    Applied t s₀ (done ++ [c]) (applyCombo t now c s)
      ∧ rest <:+ (applyCombo t now c s).comboBuffer.entries := by
  cases hd : (s.flags c).disabled with
  | true =>
    rw [applyCombo_disabled hd]
    exact ⟨h.pass hd, (List.suffix_cons c rest).trans hrest⟩
  | false =>
    have hmem : c ∈ s.comboBuffer.entries := hrest.subset List.mem_cons_self
    exact ⟨h.take hd hlen hpressed hapart hmem,
      (@applyCombo_applied t s c now hd (by omega) hmem).rest rest hrest⟩

theorem Applied.loop {now : Nat} {cs : List Nat} (h : Applied t s₀ done s)
    (hlen : ∀ c ∈ cs, 2 ≤ (t.combo c).keys.length)
    (hpressed : ∀ q ∈ s₀.keyBuffer, q.record.event.pressed = true)
    (hapart : (done ++ cs).Pairwise (Apart t s₀)) (hcs : cs <:+ s.comboBuffer.entries) :
    Applied t s₀ (done ++ cs) (cs.foldl (fun s c => applyCombo t now c s) s) := by
  induction cs generalizing done s with
  | nil => simpa using h
  | cons c cs ih =>
    have hc : ∀ c' ∈ done, Apart t s₀ c' c := fun c' hc' =>
      (List.pairwise_append.mp hapart).2.2 c' hc' c List.mem_cons_self
    obtain ⟨hstep, hrest⟩ := @Applied.step t s₀ s done c now cs h (hlen c List.mem_cons_self)
      hpressed hc hcs
    rw [List.append_cons] at hapart ⊢
    exact ih hstep (fun x hx => hlen x (List.mem_cons_of_mem _ hx)) hapart hrest

theorem applyCombo_slots (now c : Nat) (s : State) :
    (applyCombo t now c s).comboBuffer.slots = s.comboBuffer.slots := by
  unfold applyCombo
  split
  · rfl
  · refine (dropComboFromBuffer_dropped c _).slots.trans ?_
    dsimp only
    split
    · split
      · rw [(releaseCombo_frame now c _).1]
        rfl
      · rfl
    · rfl

theorem applyCombos_eq (now : Nat) (s : State) : applyCombos t now s = clearCombos (dumpKeyBuffer
    (s.comboBuffer.entries.foldl (fun s c => applyCombo t now c s) s)) := by
  have hloop : ∀ (ps : List Nat) (s' : State), s'.comboBuffer.slots = s.comboBuffer.slots →
      ps.foldl (fun s p => applyCombo t now (s.comboBuffer.slots p) s) s'
        = (ps.map s.comboBuffer.slots).foldl (fun s c => applyCombo t now c s) s' := by
    intro ps
    induction ps with
    | nil => exact fun _ _ => rfl
    | cons p ps ih =>
      intro s' hs'
      rw [List.foldl_cons, List.map_cons, List.foldl_cons, hs']
      exact ih _ ((applyCombo_slots now _ s').trans hs')
  rw [applyCombos, hloop _ s rfl]
  rfl

structure Flushed (t : Table) (s₀ : State) (done : List Nat) (s : State) : Prop where
  active : ∀ c, (s.flags c).active = ((s₀.flags c).active || fired t s₀ done c)
  kept : ∀ c, (s.flags c).active = true → (s.flags c).state = (s₀.flags c).state
    ∧ (s.flags c).disabled = ((s₀.flags c).disabled || decide (c ∈ done))
  cleared : ∀ c, (s.flags c).active = false → s.flags c = ⟨false,false,0⟩
  sent : ∃ sent, s.out = s₀.out ++ sent
    ∧ (∀ c, view c sent = if fired t s₀ done c then [.activation,.press] else [])
    ∧ ∀ x ∈ sent, x.plain = true ∨ ∃ c events, x = .activated c events
      ∧ fired t s₀ done c = true ∧ Covers t s₀ c events
  keyBuffer : s.keyBuffer = []
  entries : s.comboBuffer.entries <:+ s₀.comboBuffer.entries
  enabled : s.enabled = s₀.enabled

theorem dumped_plain {q : QueuedRecord} {x : Sent} (h : x ∈ dumped q) : x.plain = true := by
  unfold dumped at h
  split at h
  · cases h
  · split at h
    · split at h <;> rw [List.mem_singleton.mp h] <;> rfl
    · rw [List.mem_singleton.mp h]
      rfl

theorem Applied.flush (h : Applied t s₀ done s) :
    Flushed t s₀ done (clearCombos (dumpKeyBuffer s)) := by
  have hflags : ∀ c, (clearCombos (dumpKeyBuffer s)).flags c
      = if (s.flags c).active then s.flags c
        else { s.flags c with disabled := false, state := 0 } := fun _ => rfl
  have hactive : ∀ c, ((clearCombos (dumpKeyBuffer s)).flags c).active = (s.flags c).active := by
    intro c
    rw [hflags]
    split <;> rfl
  refine ⟨fun c => ?_, fun c ha => ?_, fun c ha => ?_, ?_, rfl, h.entries, h.enabled⟩
  · rw [hactive, h.active]
  · rw [hactive] at ha
    rw [hflags, if_pos ha, h.state, h.disabled]
    exact ⟨rfl, rfl⟩
  · rw [hactive] at ha
    rw [hflags, if_neg (by simp [ha])]
    simp [ha]
  · obtain ⟨sent, hout, hview, hact⟩ := h.sent
    refine ⟨sent ++ s.keyBuffer.flatMap dumped, ?_, fun c => ?_, fun x hx => ?_⟩
    · rw [← List.append_assoc, ← hout]
      rfl
    · rw [view_append, hview, h.presses]
      split <;> rfl
    · rcases List.mem_append.mp hx with hx | hx
      · exact .inr (hact x hx)
      · obtain ⟨q, -, hq⟩ := List.mem_flatMap.mp hx
        exact .inl (dumped_plain hq)

end QmkFirmware.Combos
