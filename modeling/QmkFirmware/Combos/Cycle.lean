import QmkFirmware.Lib.Along
import QmkFirmware.Combos.Apply

/-!
Each activated combo is pressed once and released once, and in time. The state of an active
combo names keys that took part in its activation and have been held since.
-/

set_option autoImplicit false

namespace QmkFirmware.Combos

open Tapping (KeyPos KeyEvent)

variable {t : Table}

def heldAfter (held : Held) : Input → Held
  | .key e keycode _ => Function.update held e.key (if e.pressed then some keycode else none)
  | .task _ => held

def PhysicalStep (held : Held) : Input → Prop
  | .key e keycode _ => held e.key = if e.pressed then none else some keycode
  | .task _ => True

instance PhysicalStep.decidable : ∀ held i, Decidable (PhysicalStep held i)
  | held, .key e keycode _ =>
    inferInstanceAs (Decidable (held e.key = if e.pressed then none else some keycode))
  | _, .task _ => .isTrue trivial

def Physical (es : List Input) : Prop := Along heldAfter PhysicalStep (fun _ => none) es

instance Physical.decidable (es : List Input) : Decidable (Physical es) :=
  inferInstanceAs (Decidable (Along heldAfter PhysicalStep (fun _ => none) es))

/-- The key does not turn the combos on or off. -/
def PlainKey : Input → Prop
  | .key _ keycode _ => keycode ≠ qkComboOn ∧ keycode ≠ qkComboOff ∧ keycode ≠ qkComboToggle
  | .task _ => True

instance PlainKey.decidable : ∀ i, Decidable (PlainKey i)
  | .key _ keycode _ => inferInstanceAs
    (Decidable (keycode ≠ qkComboOn ∧ keycode ≠ qkComboOff ∧ keycode ≠ qkComboToggle))
  | .task _ => .isTrue trivial

/-- A key that has the keycode `COMBO_END` is not pressed while a readied combo has all its keys
down. -/
def EndApart (t : Table) (s : State) : Input → Prop
  | .key e keycode _ => e.pressed = true → keycode = comboEnd →
    ∀ c ∈ s.comboBuffer.entries, (s.flags c).disabled = false →
      allComboKeysAreDown (s.flags c).state (t.combo c).keys.length = true →
      8 ≤ (t.combo c).keys.length
  | .task _ => True

instance EndApart.decidable (t : Table) (s : State) : ∀ i, Decidable (EndApart t s i)
  | .key e keycode _ => inferInstanceAs (Decidable (e.pressed = true → keycode = comboEnd →
    ∀ c ∈ s.comboBuffer.entries, (s.flags c).disabled = false →
      allComboKeysAreDown (s.flags c).state (t.combo c).keys.length = true →
      8 ≤ (t.combo c).keys.length))
  | .task _ => .isTrue trivial

/-- `process_combo` was called for the release of the key. -/
def Released (key : KeyPos) (log : List Sent) : Prop :=
  ∃ e, (.through e ∈ log ∨ .held e ∈ log) ∧ e.pressed = false ∧ e.key = key

/-- Once all the keys that activated a combo have been released it has been released too. -/
def InTime (c : Nat) (out : List Sent) : Prop :=
  ∀ before events after, out = before ++ .activated c events :: after →
    (∀ e ∈ events, Released e.key after) → .release ∈ view c after

theorem Cycle.last {v : List Kind} (h : Cycle false v) : v = [] ∨ v.getLast? = some .release := by
  obtain ⟨n, rfl⟩ := h
  cases n with
  | zero => simp
  | succ n =>
    right
    rw [List.replicate_succ']
    simp

theorem Cycle.release_mem {v₁ v₂ : List Kind} (h : Cycle false (v₁ ++ .activation :: v₂)) :
    .release ∈ v₂ := by
  rcases h.last with hnil | hlast
  · simp at hnil
  · rw [List.getLast?_append] at hlast
    cases v₂ with
    | nil => simp at hlast
    | cons x xs =>
      rw [List.getLast?_cons_cons] at hlast
      have : (x :: xs).getLast? = some .release := by
        cases hx : (x :: xs).getLast? with
        | none => simp at hx
        | some y => simpa [hx] using hlast
      exact List.mem_of_getLast? this

theorem mem_split_append {α : Type} {a b before after : List α} {x : α}
    (h : a ++ b = before ++ x :: after) :
    (∃ mid, a = before ++ x :: mid ∧ after = mid ++ b)
      ∨ ∃ mid, before = a ++ mid ∧ b = mid ++ x :: after := by
  rcases List.append_eq_append_iff.mp h with ⟨mid, rfl, rfl⟩ | ⟨mid, rfl, hb⟩
  · exact .inr ⟨mid, rfl, rfl⟩
  · cases mid with
    | nil => exact .inr ⟨[], by simp, by simpa using hb.symm⟩
    | cons y ys =>
      simp only [List.cons_append, List.cons.injEq] at hb
      exact .inl ⟨ys, by rw [hb.1], hb.2⟩

theorem chordRelease_bits {now n index j : Nat} {part : Bool} {s : State}
    (h : ((chordRelease t now n index part s).1.flags n).state.getLsbD j = true) :
    (s.flags n).state.getLsbD j = true ∧ index ≠ j := by
  have hup : ∀ s' : State, (s'.flags n).state = (s.flags n).state →
      ((s'.keyUp n index).flags n).state.getLsbD j = true →
      (s.flags n).state.getLsbD j = true ∧ index ≠ j := by
    intro s' hs' hj
    rw [keyUp_flags, up_get, hs', Bool.and_eq_true, decide_eq_true_eq] at hj
    exact hj
  rcases @chordRelease_cases t now n index part s with
    ⟨-, -, -, he⟩ | ⟨-, -, -, he⟩ | ⟨-, -, -, he⟩ | ⟨-, -, -, he⟩ | ⟨-, -, he⟩ <;> rw [he] at h
  · exact hup _ ((dropComboFromBuffer_dropped n s).state n) h
  · exact hup s rfl h
  · exact hup _ (by rw [releaseCombo_flags, Function.update_self]) h
  · exact hup s rfl h
  · exact hup s rfl h

theorem chordRelease_active {now n index : Nat} {part : Bool} {s : State}
    (h : ((chordRelease t now n index part s).1.flags n).active = true) :
    (s.flags n).active = true := by
  have hup : ∀ s' : State, ((s'.keyUp n index).flags n).active = (s'.flags n).active := by
    intro s'
    rw [keyUp_flags]
  rcases @chordRelease_cases t now n index part s with
    ⟨-, -, -, he⟩ | ⟨-, -, -, he⟩ | ⟨ha, -, -, -⟩ | ⟨-, -, -, he⟩ | ⟨-, -, he⟩
  · rw [he, hup, (dropComboFromBuffer_dropped n s).active] at h
    exact h
  · rwa [he, hup] at h
  · exact ha
  · rwa [he, hup] at h
  · rwa [he, hup] at h

theorem comboKeyDown_active {now n index : Nat} {s : State} (ha : (s.flags n).active = false) :
    ((comboKeyDown t now n index s).flags n).active = false := by
  have hdown : ((s.keyDown n index).flags n).active = false := by
    rw [keyDown_flags]
    exact ha
  rcases @comboKeyDown_cases t now n index s ha with ⟨-, he⟩ | ⟨-, hd, -⟩ | ⟨-, s', hd, he, -⟩
  · rw [he, hdown]
  · rw [hd.active, hdown]
  · rw [he]
    exact (hd.active n).trans hdown

theorem processSingleCombo_self {e : KeyEvent} {keycode : UInt16} {now n : Nat} {s : State}
    (hoff : (s.flags n).active = true → (s.flags n).disabled = true) :
    (((processSingleCombo t e keycode now n s).1.flags n).active = true →
      (s.flags n).active = true)
    ∧ ∀ j, e.pressed = false ∨ (s.flags n).active = true →
      ((processSingleCombo t e keycode now n s).1.flags n).state.getLsbD j = true →
      (s.flags n).state.getLsbD j = true ∧ (t.combo n).keyIndex keycode ≠ some j := by
  unfold processSingleCombo
  cases hk : (t.combo n).keyIndex keycode with
  | none => exact ⟨id, fun j _ hj => ⟨hj, by simp⟩⟩
  | some index =>
    dsimp only
    split
    · rename_i hpart
      simp only [Bool.and_eq_true, Bool.not_eq_true'] at hpart
      have ha : (s.flags n).active = false := by
        by_contra ha
        simp [hoff (by simpa using ha)] at hpart
      refine ⟨fun h => ?_, fun j h _ => ?_⟩
      · rw [comboKeyDown_active ha] at h
        cases h
      · simp [ha, hpart.1] at h
    · refine ⟨chordRelease_active, fun j _ hj => ?_⟩
      obtain ⟨hbit, hne⟩ := chordRelease_bits hj
      exact ⟨hbit, by simpa using hne⟩

section Visit

variable {e : KeyEvent} {keycode : UInt16} {now : Nat} {s : State}

theorem visit_off (hoff : ∀ c, (s.flags c).active = true → (s.flags c).disabled = true) (n : Nat)
    (ha : ((visit t e keycode now n s).1.flags n).active = true) :
    ((visit t e keycode now n s).1.flags n).disabled = true := by
  have hahead := @visit_ahead t e keycode now s hoff n
  by_contra hd
  have hen := hahead.enabled n (Nat.le_refl n) (by simpa using hd)
  rw [hahead.active n (Nat.le_refl n)] at ha
  simp [hoff n ha] at hen

theorem visit_flags (hoff : ∀ c, (s.flags c).active = true → (s.flags c).disabled = true)
    (n c : Nat) :
    (((visit t e keycode now n s).1.flags c).active = true → (s.flags c).active = true)
    ∧ ∀ j, c < n → e.pressed = false ∨ (s.flags c).active = true →
      ((visit t e keycode now n s).1.flags c).state.getLsbD j = true →
      (s.flags c).state.getLsbD j = true ∧ (t.combo c).keyIndex keycode ≠ some j := by
  induction n with
  | zero => exact ⟨id, fun j hc => absurd hc (Nat.not_lt_zero c)⟩
  | succ n ih =>
    have hahead := @visit_ahead t e keycode now s hoff n
    have hoff' := @visit_off t e keycode now s hoff n
    rw [visit_succ]
    generalize (visit t e keycode now n s).1 = s' at ih hahead hoff'
    have hvis := @processSingleCombo_visited t e keycode now n s' hoff'
    by_cases hcn : c = n
    · subst hcn
      obtain ⟨hact, hbits⟩ := @processSingleCombo_self t e keycode now c s' hoff'
      refine ⟨fun h => ih.1 (hact h), fun j _ h hj => ?_⟩
      rw [← hahead.active c (Nat.le_refl c)] at h
      rw [← hahead.state c (Nat.le_refl c)]
      exact hbits j h hj
    · dsimp only
      rw [hvis.active c hcn, hvis.state c hcn]
      exact ⟨ih.1, fun j hc => ih.2 j (by omega)⟩

theorem processSingleCombo_sent {n : Nat}
    (hoff : (s.flags n).active = true → (s.flags n).disabled = true) :
    ∃ sent, (processSingleCombo t e keycode now n s).1.out = s.out ++ sent
      ∧ ∀ x ∈ sent, x.plain = true := by
  have hsame : ∀ s' : State, s'.out = s.out → ∃ sent, s'.out = s.out ++ sent
      ∧ ∀ x ∈ sent, x.plain = true := fun s' hs' => ⟨[], by simp [hs'], by simp⟩
  unfold processSingleCombo
  cases hk : (t.combo n).keyIndex keycode with
  | none => exact hsame s rfl
  | some index =>
    dsimp only
    split
    · rename_i hpart
      simp only [Bool.and_eq_true, Bool.not_eq_true'] at hpart
      have ha : (s.flags n).active = false := by
        by_contra ha
        simp [hoff (by simpa using ha)] at hpart
      have hout := (keyDown_frame s n index).2.2.1
      refine hsame _ ?_
      rcases @comboKeyDown_cases t now n index s ha with ⟨-, he⟩ | ⟨-, hd, -⟩ | ⟨-, s', hd, he, -⟩
      · rw [he, hout]
      · rw [hd.out, hout]
      · rw [he]
        exact hd.out.trans hout
    · rcases @chordRelease_cases t now n index (!(s.flags n).disabled && s.enabled) s with
        ⟨-, -, -, he⟩ | ⟨-, -, -, he⟩ | ⟨-, -, -, he⟩ | ⟨-, -, -, he⟩ | ⟨-, -, he⟩ <;> rw [he]
      · exact hsame _ (dropComboFromBuffer_dropped n s).out
      · exact hsame _ rfl
      · obtain ⟨x, hout, hx, -⟩ := @releaseCombo_out t now n s
        exact ⟨[x], hout, by simpa using hx⟩
      · exact hsame _ rfl
      · exact hsame _ rfl

theorem visit_sent (hoff : ∀ c, (s.flags c).active = true → (s.flags c).disabled = true)
    (n : Nat) : ∃ sent, (visit t e keycode now n s).1.out = s.out ++ sent
      ∧ ∀ x ∈ sent, x.plain = true := by
  induction n with
  | zero => exact ⟨[], by simp [visit], by simp⟩
  | succ n ih =>
    obtain ⟨sent, hout, hplain⟩ := ih
    have hoff' := @visit_off t e keycode now s hoff n
    rw [visit_succ]
    obtain ⟨sent', hout', hplain'⟩ :=
      @processSingleCombo_sent t e keycode now (visit t e keycode now n s).1 n hoff'
    refine ⟨sent ++ sent', by rw [hout', hout, List.append_assoc], fun x hx => ?_⟩
    exact (List.mem_append.mp hx).elim (hplain x) (hplain' x)

end Visit

/-- While the combo is active each bit of its state stands for a key that activated it and has
not been released since. -/
def Tracked (t : Table) (held : Held) (c : Nat) (s : State) : Prop :=
  ∀ before events after, s.out = before ++ .activated c events :: after →
    (s.flags c).active = true → .release ∉ view c after →
    ∀ j, (s.flags c).state.getLsbD j = true → ∃ e ∈ events, ¬ Released e.key after
      ∧ ∃ keycode, held e.key = some keycode ∧ (t.combo c).keyIndex keycode = some j

theorem released_append {key : KeyPos} {log log' : List Sent} :
    Released key (log ++ log') ↔ Released key log ∨ Released key log' := by
  unfold Released
  constructor
  · rintro ⟨e, hmem | hmem, h⟩
    · exact (List.mem_append.mp hmem).imp (fun hm => ⟨e, .inl hm, h⟩) fun hm => ⟨e, .inl hm, h⟩
    · exact (List.mem_append.mp hmem).imp (fun hm => ⟨e, .inr hm, h⟩) fun hm => ⟨e, .inr hm, h⟩
  · rintro (⟨e, hmem, h⟩ | ⟨e, hmem, h⟩)
    · exact ⟨e, hmem.imp (List.mem_append_left _) (List.mem_append_left _), h⟩
    · exact ⟨e, hmem.imp (List.mem_append_right _) (List.mem_append_right _), h⟩

theorem not_released {key : KeyPos} {log : List Sent}
    (h : ∀ x ∈ log, x.plain = true ∨ ∃ c events, x = .activated c events) :
    ¬ Released key log := by
  rintro ⟨e, hmem | hmem, -⟩ <;> rcases h _ hmem with hx | ⟨c, events, hx⟩ <;> cases hx

theorem Tracked.extend {held held' : Held} {c : Nat} {s s' : State} (h : Tracked t held c s)
    {sent : List Sent} (hout : s'.out = s.out ++ sent)
    (hsent : ∀ events, .activated c events ∉ sent)
    (hact : (s'.flags c).active = true → (s.flags c).active = true)
    (hbits : (s'.flags c).active = true → ∀ j, (s'.flags c).state.getLsbD j = true →
      (s.flags c).state.getLsbD j = true
      ∧ ∀ key keycode, held key = some keycode → (t.combo c).keyIndex keycode = some j →
        held' key = some keycode ∧ ¬ Released key sent) :
    Tracked t held' c s' := by
  intro before events after hlog ha hrel j hj
  rw [hout] at hlog
  rcases mem_split_append hlog with ⟨mid, hold, rfl⟩ | ⟨mid, -, hnew⟩
  · rw [view_append, List.mem_append, not_or] at hrel
    obtain ⟨hbit, hkeys⟩ := hbits ha j hj
    obtain ⟨e, he, hnot, keycode, hheld, hk⟩ := h before events mid hold (hact ha) hrel.1 j hbit
    obtain ⟨hheld', hnot'⟩ := hkeys e.key keycode hheld hk
    refine ⟨e, he, ?_, keycode, hheld', hk⟩
    rw [released_append, not_or]
    exact ⟨hnot, hnot'⟩
  · exact absurd (by simp [hnew]) (hsent events)

theorem Tracked.inTime {held : Held} {c : Nat} {s : State} (h : Tracked t held c s)
    (hcycle : Cycle (s.flags c).active (view c s.out))
    (hlive : (s.flags c).active = true → (s.flags c).state ≠ 0) : InTime c s.out := by
  intro before events after hlog hall
  cases ha : (s.flags c).active with
  | false =>
    rw [ha, hlog, view_append] at hcycle
    have hsplit : view c (.activated c events :: after) = .activation :: view c after := by
      simp [view, Sent.kind]
    rw [hsplit] at hcycle
    exact hcycle.release_mem
  | true =>
    by_contra hrel
    have hbit : ∃ j, (s.flags c).state.getLsbD j = true := by
      by_contra hno
      refine hlive ha (BitVec.eq_of_getLsbD_eq fun j _ => ?_)
      simpa using fun hj => hno ⟨j, hj⟩
    obtain ⟨j, hj⟩ := hbit
    obtain ⟨e, he, hnot, -⟩ := h before events after hlog ha hrel j hj
    exact hnot (hall e he)

structure Inv (t : Table) (held : Held) (s : State) : Prop where
  mid : Mid t (fun _ => keycodes s.keyBuffer) (AllDown t) (fun _ => held) s
  states : s.keyBuffer.length < comboKeyBufferLength → Exact t t.count (keycodes s.keyBuffer) s
  on : s.enabled = true
  fresh : ∀ q ∈ s.keyBuffer, q.comboIndex = none ∧ q.record.event.pressed = true
    ∧ held q.record.event.key = some q.keycode
  beyond : ∀ c, t.count ≤ c → (s.flags c).state = 0
  tracked : ∀ c, Tracked t held c s

/-- The visits are over and the key buffer may be dumped. The key of a buffered press is held
as far as the combos can tell. -/
structure Due (t : Table) (held : Held) (s : State) : Prop where
  mid : Mid t (fun _ => keycodes s.keyBuffer) (PartDown t) (fun _ => held) s
  on : s.enabled = true
  fresh : ∀ q ∈ s.keyBuffer, q.comboIndex = none ∧ q.record.event.pressed = true
    ∧ ∀ c j, (s.flags c).state.getLsbD j = true → (t.combo c).keyIndex q.keycode = some j →
      held q.record.event.key = some q.keycode
  beyond : ∀ c, t.count ≤ c → (s.flags c).state = 0
  tracked : ∀ c, Tracked t held c s

variable {held : Held} {s s' : State}

theorem Inv.due (h : Inv t held s) : Due t held s where
  mid := h.mid.imp (fun _ _ hg => hg.part) fun _ _ hd => hd
  on := h.on
  fresh q hq := by
    obtain ⟨hindex, hp, hheld⟩ := h.fresh q hq
    exact ⟨hindex, hp, fun _ _ _ _ => hheld⟩
  beyond := h.beyond
  tracked := h.tracked

theorem inv_start : Inv t (fun _ => none) .start where
  mid :=
    { index := fun c hc => by simp [Ring.entries, Ring.indices, Ring.between, State.start] at hc
      off := fun c ha => by cases ha
      ready := fun c hc => by
        simp [Ring.entries, Ring.indices, Ring.between, State.start] at hc
      apart := by simp [Ring.entries, Ring.indices, Ring.between, State.start]
      bits := fun c j hj => by simp [State.start] at hj
      live := fun c ha => by cases ha
      cycle := fun c _ => ⟨0, rfl⟩ }
  states _ c _ _ := rfl
  on := rfl
  fresh q hq := by cases hq
  beyond c _ := rfl
  tracked c before events after hlog := by simp [State.start] at hlog

theorem Inv.timers (h : Inv t held s) (timer longestTerm : UInt16) :
    Inv t held { s with timer := timer, longestTerm := longestTerm } :=
  { h with mid := { h.mid with } }

theorem Due.apart (h : Due t held s) : s.comboBuffer.entries.Pairwise (Apart t s) := by
  refine h.mid.apart.imp fun {a b} hab ha hb hsh => ?_
  obtain ⟨hna, hnb⟩ := hab ha hb hsh
  exact ⟨by simp only [fires, hna, Bool.and_false], by simp only [fires, hnb, Bool.and_false]⟩

section Flush

variable {done : List Nat}

theorem fired_enabled {c : Nat} (h : fired t s done c = true) :
    c ∈ done ∧ (s.flags c).disabled = false
      ∧ (t.combo c).completes 0 (keycodes s.keyBuffer) = true := by
  simpa only [fired, fires, Bool.and_eq_true, decide_eq_true_eq, Bool.not_eq_true'] using h

theorem Due.fired (h : Due t held s) (hlen : ∀ c < t.count, 2 ≤ (t.combo c).keys.length)
    (hdone : ∀ c ∈ done, c ∈ s.comboBuffer.entries) {c : Nat}
    (hf : Combos.fired t s done c = true) :
    (s.flags c).active = false ∧ (s.flags c).state ≠ 0
      ∧ (s.flags c).state.getLsbD (t.combo c).keys.length = false := by
  obtain ⟨hmem, hen, hcomp⟩ := fired_enabled hf
  have hc := hdone c hmem
  obtain ⟨hne, hend⟩ := h.mid.ready c hc hen hcomp (hlen c (h.mid.index c hc))
  exact ⟨off_false h.mid hen, hne, hend⟩

theorem Due.flushed_mid (h : Due t held s) (hlen : ∀ c < t.count, 2 ≤ (t.combo c).keys.length)
    (hf : Flushed t s done s') (hdone : ∀ c ∈ done, c ∈ s.comboBuffer.entries) :
    Mid t (fun _ => keycodes s'.keyBuffer) (AllDown t) (fun _ => held) s' := by
  have hempty : keycodes s'.keyBuffer = [] := by
    rw [hf.keyBuffer]
    rfl
  have hactive : ∀ c, (s'.flags c).active = true →
      (s.flags c).active = true ∨ Combos.fired t s done c = true := fun c ha => by
    rwa [hf.active, Bool.or_eq_true] at ha
  rw [hempty]
  refine ⟨fun c hc => h.mid.index c (hf.entries.subset hc), fun c ha => ?_,
    fun c _ _ hcomp => by simp [Combo.completes] at hcomp, ?_, fun c j hj => ?_, fun c ha => ?_,
    fun c hc => ?_⟩
  · rw [(hf.kept c ha).2, Bool.or_eq_true, decide_eq_true_eq]
    rcases hactive c ha with hold | hnew
    · exact .inl (h.mid.off c hold)
    · exact .inr (fired_enabled hnew).1
  · exact List.pairwise_of_forall fun a b _ _ _ => by simp [Combo.completes]
  · cases ha : (s'.flags c).active with
    | true =>
      rw [(hf.kept c ha).1] at hj
      exact h.mid.bits c j hj
    | false => simp [hf.cleared c ha] at hj
  · rw [(hf.kept c ha).1]
    rcases hactive c ha with hold | hnew
    · exact h.mid.live c hold
    · exact (h.fired hlen hdone hnew).2
  · obtain ⟨sent, hout, hview, -⟩ := hf.sent
    have hcyc := h.mid.cycle c hc
    rw [hout, view_append, hview, hf.active]
    cases hfc : Combos.fired t s done c with
    | true =>
      rw [(h.fired hlen hdone hfc).1] at hcyc ⊢
      exact hcyc.activated
    | false => simpa using hcyc

theorem Due.flushed_tracked (h : Due t held s) (hlen : ∀ c < t.count, 2 ≤ (t.combo c).keys.length)
    (hf : Flushed t s done s') (hdone : ∀ c ∈ done, c ∈ s.comboBuffer.entries) (c : Nat) :
    Tracked t held c s' := by
  obtain ⟨sent, hout, -, hsent⟩ := hf.sent
  have hquiet : ∀ x ∈ sent, x.plain = true ∨ ∃ c events, x = .activated c events :=
    fun x hx => (hsent x hx).imp_right fun ⟨c, events, heq, _⟩ => ⟨c, events, heq⟩
  intro before events after hlog ha hrel j hj
  rw [(hf.kept c ha).1] at hj
  rw [hout] at hlog
  rcases mem_split_append hlog with ⟨mid, hold, rfl⟩ | ⟨mid, -, hnew⟩
  · rw [view_append, List.mem_append, not_or] at hrel
    cases hact : (s.flags c).active with
    | true =>
      obtain ⟨e, he, hnot, hkey⟩ := h.tracked c before events mid hold hact hrel.1 j hj
      refine ⟨e, he, ?_, hkey⟩
      rw [released_append, not_or]
      exact ⟨hnot, not_released hquiet⟩
    | false =>
      -- it was released since this activation
      have hfc : Combos.fired t s done c = true := by
        rw [hf.active, hact, Bool.false_or] at ha
        exact ha
      have hone : (t.combo c).keys.length ≠ 1 := by
        have := hlen c (h.mid.index c (hdone c (fired_enabled hfc).1))
        omega
      have hcyc := h.mid.cycle c hone
      rw [hact, hold, view_append] at hcyc
      have hsplit : view c (.activated c events :: mid) = .activation :: view c mid := by
        simp [view, Sent.kind]
      rw [hsplit] at hcyc
      exact absurd hcyc.release_mem hrel.1
  · have hmem : .activated c events ∈ sent := by simp [hnew]
    obtain ⟨hfc, hcov⟩ : Combos.fired t s done c = true ∧ Covers t s c events := by
      rcases hsent _ hmem with hx | ⟨c', events', heq, hx⟩
      · cases hx
      · cases heq
        exact hx
    have hlt : j < (t.combo c).keys.length := by
      obtain ⟨key, keycode, -, hk⟩ := h.mid.bits c j hj
      have hend := (h.fired hlen hdone hfc).2.2
      refine Nat.lt_of_le_of_ne ((t.combo c).keyIndex_le hk) fun heq => ?_
      rw [← heq, hj] at hend
      cases hend
    obtain ⟨q, hq, hk, he⟩ := hcov j hlt
    refine ⟨q.record.event, he, not_released fun x hx => hquiet x ?_, q.keycode,
      (h.fresh q hq).2.2 c j hj hk, hk⟩
    rw [hnew]
    simp [hx]

theorem Due.flushed (h : Due t held s) (hlen : ∀ c < t.count, 2 ≤ (t.combo c).keys.length)
    (hf : Flushed t s done s') (hdone : ∀ c ∈ done, c ∈ s.comboBuffer.entries) :
    Inv t held s' where
  mid := h.flushed_mid hlen hf hdone
  states _ c _ hd := by
    have ha := off_false (h.flushed_mid hlen hf hdone) hd
    rw [hf.cleared c ha, hf.keyBuffer]
    rfl
  on := hf.enabled.trans h.on
  fresh q hq := by simp [hf.keyBuffer] at hq
  beyond c hc := by
    cases ha : (s'.flags c).active with
    | true => rw [(hf.kept c ha).1, h.beyond c hc]
    | false => rw [hf.cleared c ha]
  tracked := h.flushed_tracked hlen hf hdone

theorem Due.applyCombos (h : Due t held s) (hlen : ∀ c < t.count, 2 ≤ (t.combo c).keys.length)
    (now : Nat) : Inv t held (applyCombos t now s) := by
  have hstart := @applied_start t s fun q hq => (h.fresh q hq).1
  have hloop := @Applied.loop t s s [] now s.comboBuffer.entries hstart
    (fun c hc => hlen c (h.mid.index c hc)) (fun q hq => (h.fresh q hq).2.1) h.apart
    (List.suffix_refl _)
  rw [applyCombos_eq]
  exact h.flushed hlen hloop.flush fun _ hc => hc

theorem Due.dump (h : Due t held s) (hlen : ∀ c < t.count, 2 ≤ (t.combo c).keys.length) :
    Inv t held (clearCombos (dumpKeyBuffer s)) :=
  h.flushed hlen (applied_start fun q hq => (h.fresh q hq).1).flush (by simp)

end Flush

theorem Inv.logged (h : Inv t held s) {x : Sent} {e : KeyEvent}
    (hx : x = .through e ∨ x = .held e) (hup : e.pressed = false → held e.key = none) :
    Inv t held (s.send x) where
  mid :=
    { h.mid with
      cycle := fun c hc => by
        have hnone : view c [x] = [] := by rcases hx with rfl | rfl <;> rfl
        have hout : view c (s.send x).out = view c s.out := by
          rw [State.send, view_append, hnone, List.append_nil]
        rw [hout]
        exact h.mid.cycle c hc }
  states := h.states
  on := h.on
  fresh := h.fresh
  beyond := h.beyond
  tracked c := by
    refine (h.tracked c).extend rfl (by rcases hx with rfl | rfl <;> simp) id
      fun _ j hj => ⟨hj, fun key keycode hheld _ => ⟨hheld, ?_⟩⟩
    rintro ⟨e', hmem, hp, rfl⟩
    have heq : e' = e := by rcases hx with rfl | rfl <;> simpa using hmem
    rw [heq, hup (heq ▸ hp)] at hheld
    cases hheld

theorem Mid.settle {seen seen' : Nat → List UInt16} {good good' : Nat → BitVec 8 → Prop}
    {down down' : Nat → Held} (h : Mid t seen good down s)
    (hseen : ∀ c < t.count, seen' c = seen c)
    (hgood : ∀ c < t.count, ∀ state, good c state → good' c state)
    (hdown : ∀ c j, (s.flags c).state.getLsbD j = true → Down (down c) (t.combo c) j →
      Down (down' c) (t.combo c) j) : Mid t seen' good' down' s :=
  { h with
    ready := fun c hc hen hcomp => by
      have hlt := h.index c hc
      rw [hseen c hlt] at hcomp
      exact hgood c hlt _ (h.ready c hc hen hcomp)
    apart := h.apart.imp_of_mem fun {a b} ha hb hab hea heb hsh => by
      rw [hseen a (h.index a ha), hseen b (h.index b hb)]
      exact hab hea heb hsh
    bits := fun c j hj => hdown c j hj (h.bits c j hj) }

section Key

variable {e : KeyEvent} {keycode : UInt16} {now : Nat}

def heldThen (held : Held) (e : KeyEvent) (keycode : UInt16) : Held :=
  Function.update held e.key (if e.pressed then some keycode else none)

theorem heldThen_kept (hphys : held e.key = if e.pressed then none else some keycode)
    {key : KeyPos} {keycode' : UInt16} (hheld : held key = some keycode')
    (hne : e.pressed = false → keycode' ≠ keycode) :
    heldThen held e keycode key = some keycode' := by
  rw [heldThen, Function.update_of_ne, hheld]
  rintro rfl
  rw [hphys] at hheld
  split at hheld
  · cases hheld
  · rename_i hp
    exact hne (by simpa using hp) (Option.some_inj.mp hheld).symm

theorem Inv.visit_bits (h : Inv t held s) {c j : Nat}
    (hact : e.pressed = false ∨ (s.flags c).active = true)
    (hj : ((visit t e keycode now t.count s).1.flags c).state.getLsbD j = true) :
    (s.flags c).state.getLsbD j = true ∧ (t.combo c).keyIndex keycode ≠ some j := by
  by_cases hc : c < t.count
  · exact (visit_flags h.mid.off t.count c).2 j hc hact hj
  · rw [(visit_ahead h.mid.off t.count).state c (by omega), h.beyond c (by omega)] at hj
    simp at hj

theorem Inv.visit_tracked (h : Inv t held s)
    (hphys : held e.key = if e.pressed then none else some keycode) (c : Nat) :
    Tracked t (heldThen held e keycode) c (visit t e keycode now t.count s).1 := by
  obtain ⟨sent, hout, hplain⟩ := @visit_sent t e keycode now s h.mid.off t.count
  have hact := (@visit_flags t e keycode now s h.mid.off t.count c).1
  refine (h.tracked c).extend hout (fun events hmem => ?_) hact fun ha j hj => ?_
  · have := hplain _ hmem
    cases this
  · obtain ⟨hbit, hne⟩ := h.visit_bits (.inr (hact ha)) hj
    refine ⟨hbit, fun key keycode' hheld hk => ⟨heldThen_kept hphys hheld fun _ heq => ?_, ?_⟩⟩
    · exact hne (heq ▸ hk)
    · exact not_released fun x hx => .inl (hplain x hx)

theorem allDown_again {state : BitVec 8} {n index : Nat}
    (h : allComboKeysAreDown state n = true) (hindex : index < n ∨ 8 ≤ index) :
    state ||| keyBit index = state := by
  refine BitVec.eq_of_getLsbD_eq fun j hj => ?_
  rw [down_get, allDown_get h]
  by_cases hij : index = j
  · subst hij
    simp [hindex.resolve_right (by omega)]
  · simp [hij]

theorem Inv.press (h : Inv t held s) (hend : EndApart t s (.key e keycode now))
    (hp : e.pressed = true) {b' : List UInt16}
    (hb : b' = keycodes s.keyBuffer
      ∨ b' = keycodes s.keyBuffer ++ [keycode] ∧ s.keyBuffer.length < comboKeyBufferLength) :
    Press t keycode (keycodes s.keyBuffer) b' s where
  complete c hc hen hcomp := by
    rcases hb with rfl | ⟨rfl, hroom⟩
    · exact .inl hcomp
    · cases hk : (t.combo c).keyIndex keycode with
      | none =>
        rw [Combo.completes_snoc_none 0 _ hk] at hcomp
        exact .inl hcomp
      | some index =>
        rw [Combo.completes_snoc 0 _ hk, Bool.or_eq_true, ← h.states hroom c hc hen] at hcomp
        exact hcomp.imp_right fun hd => ⟨index, rfl, hd⟩
  keep c hc hen hd index hk := by
    rw [allDown_again hd]
    · exact hd
    · by_cases hzero : keycode = comboEnd
      · have := hend hp hzero c hc hen hd
        rw [hzero, (t.combo c).keyIndex_end] at hk
        cases hk
        exact .inr this
      · exact .inl ((t.combo c).keyIndex_lt hzero hk)
  idle hoff := by simp [h.on] at hoff

theorem Inv.press_mid (h : Inv t held s) (hend : EndApart t s (.key e keycode now))
    (hp : e.pressed = true) (hup : held e.key = none) {b' : List UInt16}
    (hb : b' = keycodes s.keyBuffer
      ∨ b' = keycodes s.keyBuffer ++ [keycode] ∧ s.keyBuffer.length < comboKeyBufferLength) :
    Mid t (fun _ => b') (AllDown t) (fun _ => heldThen held e keycode)
      (visit t e keycode now t.count s).1 := by
  have hdown : ∀ c j, Down held (t.combo c) j → Down (heldThen held e keycode) (t.combo c) j := by
    rintro c j ⟨key, keycode', hheld, hk⟩
    refine ⟨key, keycode', heldThen_kept ?_ hheld fun hf => ?_, hk⟩
    · rw [hup, if_pos hp]
    · simp [hp] at hf
  have hmid := h.mid.imp (fun _ _ hg => hg) hdown
  have hheld : heldThen held e keycode e.key = some keycode := by
    rw [heldThen, Function.update_self, if_pos hp]
  have := visit_press now hp hmid hheld (h.press hend hp hb) (Nat.le_refl t.count)
  exact this.settle (fun c hc => by simp [upTo, hc]) (fun _ _ _ hg => hg) fun _ _ _ hd => hd

theorem Inv.release_mid (h : Inv t held s) (hp : e.pressed = false)
    (hheld : held e.key = some keycode) :
    Mid t (fun _ => keycodes s.keyBuffer) (PartDown t) (fun _ => heldThen held e keycode)
      (visit t e keycode now t.count s).1 := by
  have hthen : heldThen held e keycode = Function.update held e.key none := by
    rw [heldThen, hp]
    rfl
  refine (visit_release now hp h.mid hheld t.count).settle (fun _ _ => rfl)
    (fun c hc state hg => by simpa [upTo, hc] using hg) fun c j hj hd => ?_
  by_cases hc : c < t.count
  · rw [hthen]
    simpa [upTo, hc] using hd
  · rw [(visit_ahead h.mid.off t.count).state c (by omega), h.beyond c (by omega)] at hj
    simp at hj

theorem processCombo_eq (hon : keycode ≠ qkComboOn) (hoff : keycode ≠ qkComboOff)
    (htoggle : keycode ≠ qkComboToggle) (s : State) :
    processCombo t e keycode now s =
      let r := visit t e keycode now t.count s
      let s := r.1
      if e.pressed && r.2 then
        let s := { s with timer := timerRead now }
        if s.keyBuffer.length < comboKeyBufferLength then
          ({ s with keyBuffer := s.keyBuffer ++ [⟨⟨e,0⟩,none,keycode⟩] },false)
        else (s,false)
      else if !s.comboBuffer.isEmpty then (applyCombos t now s,!r.2)
      else (clearCombos { dumpKeyBuffer s with timer := 0 },!r.2) := by
  unfold processCombo
  rw [if_neg (by simp [hon]), if_neg (by simp [hoff]), if_neg (by simp [htoggle])]
  rfl

theorem Inv.key_due (h : Inv t held s)
    (hphys : held e.key = if e.pressed then none else some keycode)
    (hend : EndApart t s (.key e keycode now)) :
    Due t (heldThen held e keycode) (visit t e keycode now t.count s).1 := by
  have hahead := @visit_ahead t e keycode now s h.mid.off t.count
  refine ⟨?_, hahead.on.trans h.on, fun q hq => ?_, fun c hc => ?_, h.visit_tracked hphys⟩
  · rw [hahead.keyBuffer]
    cases hp : e.pressed with
    | true =>
      rw [hp, if_pos rfl] at hphys
      exact (h.press_mid hend hp hphys (.inl rfl)).imp (fun _ _ hg => hg.part) fun _ _ hd => hd
    | false =>
      rw [hp] at hphys
      exact h.release_mid hp hphys
  · rw [hahead.keyBuffer] at hq
    obtain ⟨hindex, hpressed, hheld⟩ := h.fresh q hq
    refine ⟨hindex, hpressed, fun c j hj hk => heldThen_kept hphys hheld fun hp heq => ?_⟩
    exact (h.visit_bits (.inl hp) hj).2 (heq ▸ hk)
  · rw [hahead.state c hc, h.beyond c hc]

theorem Inv.key_buffered (h : Inv t held s) (hend : EndApart t s (.key e keycode now))
    (hp : e.pressed = true) (hup : held e.key = none) (timer : UInt16) :
    let s' := (visit t e keycode now t.count s).1
    Inv t (heldThen held e keycode)
      { s' with
        timer := timer
        keyBuffer := if s'.keyBuffer.length < comboKeyBufferLength then
          s'.keyBuffer ++ [⟨⟨e,0⟩,none,keycode⟩] else s'.keyBuffer } := by
  intro s'
  have hahead := @visit_ahead t e keycode now s h.mid.off t.count
  have hphys : held e.key = if e.pressed then none else some keycode := by rw [hup, if_pos hp]
  have hbuf : s'.keyBuffer = s.keyBuffer := hahead.keyBuffer
  have hold : ∀ q ∈ s.keyBuffer, q.comboIndex = none ∧ q.record.event.pressed = true
      ∧ heldThen held e keycode q.record.event.key = some q.keycode := by
    intro q hq
    obtain ⟨hindex, hpressed, hheld⟩ := h.fresh q hq
    exact ⟨hindex, hpressed, heldThen_kept hphys hheld fun hf => by simp [hp] at hf⟩
  have hbeyond : ∀ c, t.count ≤ c → (s'.flags c).state = 0 := fun c hc =>
    (hahead.state c hc).trans (h.beyond c hc)
  simp only [hbuf]
  split
  · rename_i hroom
    have hkeys : keycodes (s.keyBuffer ++ [⟨⟨e,0⟩,none,keycode⟩])
        = keycodes s.keyBuffer ++ [keycode] := by simp [keycodes]
    have hmid := h.press_mid hend hp hup (.inr ⟨rfl, hroom⟩)
    refine ⟨?_, fun _ => ?_, hahead.on.trans h.on, fun q hq => ?_, hbeyond, h.visit_tracked hphys⟩
    · dsimp only
      rw [hkeys]
      exact { hmid with }
    · dsimp only
      rw [hkeys]
      exact visit_exact now hp h.on h.mid.off (h.states hroom) (Nat.le_refl t.count)
    · rcases List.mem_append.mp hq with hq | hq
      · exact hold q hq
      · rw [List.mem_singleton.mp hq]
        exact ⟨rfl, hp, by rw [heldThen, Function.update_self, if_pos hp]⟩
  · rename_i hfull
    have hmid := h.press_mid hend hp hup (.inl rfl)
    exact ⟨{ hmid with }, fun hroom => absurd hroom hfull, hahead.on.trans h.on, hold, hbeyond,
      h.visit_tracked hphys⟩

theorem Inv.key (h : Inv t held s) (hlen : ∀ c < t.count, 2 ≤ (t.combo c).keys.length)
    (hphys : held e.key = if e.pressed then none else some keycode)
    (hplain : keycode ≠ qkComboOn ∧ keycode ≠ qkComboOff ∧ keycode ≠ qkComboToggle)
    (hend : EndApart t s (.key e keycode now)) :
    Inv t (heldThen held e keycode) (step t s (.key e keycode now)) := by
  have hup : e.pressed = false → heldThen held e keycode e.key = none := fun hp => by
    rw [heldThen, Function.update_self, hp]
    rfl
  have hresult : Inv t (heldThen held e keycode) (processCombo t e keycode now s).1 := by
    have hdue := h.key_due hphys hend
    rw [processCombo_eq hplain.1 hplain.2.1 hplain.2.2]
    dsimp only
    split
    · rename_i hpart
      rw [Bool.and_eq_true] at hpart
      rw [hpart.1, if_pos rfl] at hphys
      have := h.key_buffered hend hpart.1 hphys (timerRead now)
      dsimp only at this
      split
      · rename_i hroom
        rwa [if_pos hroom] at this
      · rename_i hfull
        rwa [if_neg hfull] at this
    · split
      · exact hdue.applyCombos hlen now
      · exact (hdue.dump hlen).timers 0 _
  refine hresult.logged ?_ hup
  cases (processCombo t e keycode now s).2 with
  | true => exact .inl rfl
  | false => exact .inr rfl

end Key

theorem Inv.task (h : Inv t held s) (hlen : ∀ c < t.count, 2 ≤ (t.combo c).keys.length)
    (now : Nat) : Inv t held (comboTask t now s) := by
  unfold comboTask
  split
  · exact h
  · split
    · split
      · exact (h.due.applyCombos hlen now).timers 0 0
      · exact (h.due.dump hlen).timers 0 _
    · exact h

theorem Inv.run {es : List Input} (h : Inv t held s)
    (hlen : ∀ c < t.count, 2 ≤ (t.combo c).keys.length)
    (hphys : Along heldAfter PhysicalStep held es) (hplain : ∀ i ∈ es, PlainKey i)
    (hend : Along (Combos.step t) (EndApart t) s es) :
    ∃ held', Inv t held' (es.foldl (Combos.step t) s) := by
  induction es generalizing held s with
  | nil => exact ⟨held, h⟩
  | cons i is ih =>
    obtain ⟨hstep, hphys⟩ := hphys
    obtain ⟨hapart, hend⟩ := hend
    refine ih ?_ hphys (fun i hi => hplain i (List.mem_cons_of_mem _ hi)) hend
    cases i with
    | key e keycode now => exact h.key hlen hstep (hplain _ List.mem_cons_self) hapart
    | task now => exact h.task hlen now

theorem two_keys {keys : List UInt16} (h : ∃ k ∈ keys, ∃ k' ∈ keys, k ≠ k') :
    2 ≤ keys.length := by
  obtain ⟨k, hk, k', hk', hne⟩ := h
  match keys with
  | [] => cases hk
  | [x] =>
    rw [List.mem_singleton] at hk hk'
    exact absurd (hk.trans hk'.symm) hne
  | _ :: _ :: _ => simp

/-- Between two activations of a combo it is pressed once and released once, and it is released
when the last of the keys that activated it is. -/
theorem combo_press_release (t : Table)
    (hkeys : ∀ c < t.count, ∃ k ∈ (t.combo c).keys, ∃ k' ∈ (t.combo c).keys, k ≠ k')
    (es : List Input) (hphys : Physical es) (hplain : ∀ i ∈ es, PlainKey i)
    (hend : Along (step t) (EndApart t) .start es) :
    ∀ c < t.count, (∃ active, Cycle active (view c (run t es).out))
      ∧ InTime c (run t es).out := by
  have hlen : ∀ c < t.count, 2 ≤ (t.combo c).keys.length := fun c hc => two_keys (hkeys c hc)
  obtain ⟨held, hinv⟩ := Inv.run inv_start hlen hphys hplain hend
  intro c hc
  have hcyc := hinv.mid.cycle c (by have := hlen c hc; omega)
  exact ⟨⟨_, hcyc⟩, (hinv.tracked c).inTime hcyc fun ha => (hinv.mid.live c ha).1⟩

/-- One combo of the keys A and B. -/
def pairTable : Table := ⟨1,fun _ => ⟨[4,5],6,by decide⟩⟩

def keyEvent (col : UInt8) (pressed : Bool) (now : Nat) : KeyEvent :=
  ⟨⟨0,col⟩,timerRead now,.key,pressed⟩

def keyAt (col : UInt8) (keycode : UInt16) (pressed : Bool) (now : Nat) : Input :=
  .key (keyEvent col pressed now) keycode now

theorem combo_press_release_pair :
    let es := [keyAt 0 4 true 1000,keyAt 1 5 true 1010,.task 1100,keyAt 0 4 false 1200,
      keyAt 1 5 false 1210]
    view 0 (run pairTable es).out = [.activation,.press,.release]
      ∧ InTime 0 (run pairTable es).out := by
  intro es
  exact ⟨by decide +kernel, (combo_press_release pairTable (by decide) es (by decide +kernel)
    (by decide) (by decide +kernel) 0 (by decide)).2⟩

/-- A key without a keycode joins the state of the combo; the combo is not released with its
keys. -/
theorem pair_stays_pressed :
    let es := [keyAt 0 4 true 1000,keyAt 1 5 true 1010,keyAt 2 comboEnd true 1020,.task 1100,
      keyAt 0 4 false 1200,keyAt 1 5 false 1210]
    Physical es ∧ (∀ i ∈ es, PlainKey i)
      ∧ view 0 (run pairTable es).out = [.activation,.press]
      ∧ ¬ InTime 0 (run pairTable es).out := by
  intro es
  refine ⟨by decide +kernel, by decide, by decide +kernel, fun h => ?_⟩
  have hlog : (run pairTable es).out
      = [.held (keyEvent 0 true 1000),.held (keyEvent 1 true 1010),.held (keyEvent 2 true 1020)]
        ++ .activated 0 [keyEvent 0 true 1000,keyEvent 1 true 1010]
        :: [.tapping (some 0) ⟨⟨⟨0,0⟩,1010,.combo,true⟩,6⟩,
          .tapping none ⟨keyEvent 2 true 1020,0⟩,
          .held (keyEvent 0 false 1200),.held (keyEvent 1 false 1210)] := by decide +kernel
  have hrel := h _ _ _ hlog (List.forall_mem_cons.mpr
    ⟨⟨keyEvent 0 false 1200,.inr (by decide),rfl,rfl⟩,
      List.forall_mem_singleton.mpr ⟨keyEvent 1 false 1210,.inr (by decide),rfl,rfl⟩⟩)
  exact absurd hrel (by decide)

end QmkFirmware.Combos
