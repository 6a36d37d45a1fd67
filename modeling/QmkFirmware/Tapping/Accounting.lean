import Mathlib.Data.List.Chain
import QmkFirmware.Tapping.Order
import QmkFirmware.Tapping.Tapped

/-!
Every event is passed on once. Over any run the events passed on and those waiting are the
events that arrived. For one key they are also in order, as long as no event of the key is
received while an earlier one is parked in the buffer.
-/

set_option autoImplicit false

namespace QmkFirmware.Tapping

variable {cfg : Config}

def State.timeline (s : State) : List KeyEvent := s.passed ++ s.waiting

def ofKey (key : KeyPos) (e : KeyEvent) : Bool := e.key = key

/-- The presses and releases of every key alternate, beginning with a press. -/
def Alternating (es : List KeyEvent) : Prop := ∀ key,
  ((arrivals es).filter (ofKey key)).head?.all KeyEvent.pressed = true
  ∧ ((arrivals es).filter (ofKey key)).IsChain fun a b => a.pressed ≠ b.pressed

theorem Alternating.initial {pre es : List KeyEvent} (h : Alternating es) (hp : pre <+: es) :
    Alternating pre := by
  obtain ⟨suf, rfl⟩ := hp
  intro key
  obtain ⟨hhead, hchain⟩ := h key
  rw [arrivals_append, List.filter_append] at hhead hchain
  refine ⟨?_, (List.isChain_append.mp hchain).1⟩
  rw [List.head?_append] at hhead
  cases h : ((arrivals pre).filter (ofKey key)).head? with
  | none => rfl
  | some e => rwa [h] at hhead

theorem alternating_of_keys {es : List KeyEvent}
    (h : ∀ e ∈ es, ((arrivals es).filter (ofKey e.key)).head?.all KeyEvent.pressed = true
      ∧ ((arrivals es).filter (ofKey e.key)).IsChain fun a b => a.pressed ≠ b.pressed) :
    Alternating es := by
  intro key
  by_cases hk : ∃ e ∈ es, e.key = key
  · obtain ⟨e, he, rfl⟩ := hk
    exact h e he
  · have hnil : (arrivals es).filter (ofKey key) = [] := by
      rw [List.filter_eq_nil_iff]
      intro e he hkey
      exact hk ⟨e, List.mem_of_mem_filter he, by simpa [ofKey] using hkey⟩
    rw [hnil]
    exact ⟨rfl, .nil⟩

theorem Alternating.last {pre : List KeyEvent} {e : KeyEvent} (h : Alternating (pre ++ [e]))
    (ht : e.isNoEvent = false) {x : KeyEvent}
    (hx : ((arrivals pre).filter (ofKey e.key)).getLast? = some x) : x.pressed ≠ e.pressed := by
  have hchain := (h e.key).2
  rw [arrivals_append, List.filter_append, List.isChain_append] at hchain
  exact hchain.2.2 x hx e (by simp [arrivals, ht, ofKey])

theorem not_typed {buffer : List KeyRecord} {e : KeyEvent}
    (h : waitingBufferTyped buffer e = false) {b : KeyEvent}
    (hb : b ∈ buffer.map KeyRecord.event) (hk : b.key = e.key) : b.pressed = e.pressed := by
  obtain ⟨r, hr, rfl⟩ := List.mem_map.mp hb
  have := List.any_eq_false.mp h r hr
  simp only [hk, decide_true, Bool.true_and, decide_eq_true_eq, ne_eq, not_not] at this
  exact this.symm

structure SameOrder (l m : List KeyEvent) : Prop where
  perm : l.Perm m
  perKey : ∀ key, l.filter (ofKey key) = m.filter (ofKey key)

theorem SameOrder.of_eq {l m : List KeyEvent} (h : l = m) : SameOrder l m :=
  h ▸ ⟨.refl _, fun _ => rfl⟩

theorem sameOrder_ahead (p w₁ w₂ : List KeyEvent) {x : KeyEvent} (h : ∀ y ∈ w₁, y.key ≠ x.key) :
    SameOrder (p ++ x :: (w₁ ++ w₂)) (p ++ (w₁ ++ x :: w₂)) where
  perm := (List.perm_middle.symm).append_left p
  perKey key := by
    rw [List.filter_append, List.filter_append, List.filter_append]
    congr 1
    by_cases hx : ofKey key x = true
    · have hnil : w₁.filter (ofKey key) = [] := by
        rw [List.filter_eq_nil_iff]
        intro y hy
        simp only [ofKey, decide_eq_true_eq] at hx ⊢
        rw [← hx]
        exact h y hy
      simp [hnil, hx]
    · simp [hx]

theorem passed_of {s t : State} {b : Bool} {x : KeyEvent}
    (h : t.passing = s.passing ++ [(b,x)]) : t.passed = s.passed ++ [x] := by
  simp [State.passed, h]

theorem passed_same {s t : State} (h : t.passing = s.passing) : t.passed = s.passed := by
  rw [State.passed, h]
  rfl

theorem popped_timeline {s : State} {k : KeyRecord} {rest : List KeyRecord}
    (hb : s.waitingBuffer = k :: rest) (hs : s.Wf) :
    SameOrder (popped cfg k s).timeline s.timeline := by
  have hr := @popped_round cfg s k rest hb hs
  have hbuf : s.buffered = k.event :: rest.map KeyRecord.event := by
    simp [State.buffered, hb]
  have hb' := hr.buffered
  have hp := hr.passing
  have hu' := hr.undecided
  have ht := hr.tappingKey
  rw [hbuf] at hb'
  rw [State.timeline, State.timeline, State.waiting, State.waiting, hb', hbuf]
  cases hr.effect with
  | skip _ _ htick =>
    have := (hs k (by rw [hb]; exact List.mem_cons_self)).1
    simp [this] at htick
  | pass hd _ _ hu hu₂ hpass =>
    rw [unsettled_nil hu, unsettled_nil (hu'.trans hu₂), hd, passed_of (hp.trans hpass)]
    exact .of_eq (by simp)
  | early hd _ _ hu htk hrel _ hne hpass =>
    have hu₂ : (popped cfg k s).undecided = true := by
      rw [hu', State.undecided, State.active, htk]
      exact hu
    rw [unsettled_of hu, unsettled_of hu₂, ht, htk, hd, passed_of (hp.trans hpass),
      List.append_assoc]
    exact sameOrder_ahead s.passed [s.tappingKey.event] _
      fun y hy => by rw [List.mem_singleton.mp hy]; exact hne.symm
  | take hd _ _ hu hu₂ htk hpass =>
    rw [unsettled_nil hu, unsettled_of (hu'.trans hu₂), ht, htk, hd,
      passed_same (hp.trans hpass)]
    exact .of_eq rfl
  | wait hd _ hu hu₂ htk hpass =>
    rw [unsettled_of hu, unsettled_of (hu'.trans hu₂), ht, htk, hd,
      passed_same (hp.trans hpass)]
    exact .of_eq rfl
  | settle hd _ hu hu₂ hpass =>
    rw [unsettled_of hu, unsettled_nil (hu'.trans hu₂), hd, passed_of (hp.trans hpass)]
    exact .of_eq (by simp)
  | expire hd _ hu hu₂ hpass =>
    rw [unsettled_nil hu, unsettled_nil (hu'.trans hu₂), hd, passed_same (hp.trans hpass)]
    exact .of_eq rfl

theorem drain_timeline (n : Nat) {s : State} (hs : s.Wf) :
    SameOrder (drain cfg n s).timeline s.timeline := by
  refine (@drain_keeps cfg (fun t => t.Wf ∧ SameOrder t.timeline s.timeline)
    (fun t k rest hb h => ⟨(popped_round hb h.1).wf, ?_⟩) n s ⟨hs, .of_eq rfl⟩).2
  have hstep := @popped_timeline cfg t k rest hb h.1
  exact ⟨hstep.perm.trans h.2.perm, fun key => (hstep.perKey key).trans (h.2.perKey key)⟩

theorem receive_tick {s : State} {e : KeyEvent} (hs : s.Wf)
    (hroom : Sent.clearKeyboard ∉ (receive cfg e.record s).out) (htick : e.isNoEvent = true) :
    (receive cfg e.record s).timeline = s.timeline := by
  have hr := @receive_arrival cfg s e hs hroom
  have hno : e.record.event.isNoEvent = true := htick
  have hb := hr.buffered
  have hp := hr.passing
  have hu' := hr.undecided
  have ht := hr.tappingKey
  rw [htick, Bool.or_true, if_pos rfl, List.append_nil] at hb
  rw [State.timeline, State.timeline, State.waiting, State.waiting, hb]
  cases hr.effect with
  | skip _ _ _ hst =>
    rw [State.unsettled, hu', ht, hst, passed_same (hp.trans (by rw [hst]))]
    rfl
  | pass _ _ hne | early _ _ hne | take _ _ hne => simp [hne] at hno
  | wait _ _ hu hu₂ htk hpass =>
    rw [unsettled_of hu, unsettled_of (hu'.trans hu₂), ht, htk, passed_same (hp.trans hpass)]
  | settle _ _ hu hu₂ hpass =>
    rw [unsettled_of hu, unsettled_nil (hu'.trans hu₂), passed_of (hp.trans hpass)]
    simp
  | expire _ _ hu hu₂ hpass =>
    rw [unsettled_nil hu, unsettled_nil (hu'.trans hu₂), passed_same (hp.trans hpass)]

/-- A key event is accounted for at the end of the timeline, or ahead of waiting events: when
nothing holds it up, or as a release with no opposite event in the buffer. -/
theorem receive_timeline {s : State} {e : KeyEvent} (hs : s.Wf)
    (hroom : Sent.clearKeyboard ∉ (receive cfg e.record s).out) (ht : e.isNoEvent = false) :
    (receive cfg e.record s).timeline = s.timeline ++ [e]
      ∧ (s.undecided = true ∨ settles cfg s e.record = true)
    ∨ (receive cfg e.record s).timeline = s.passed ++ e :: s.waiting
      ∧ (s.undecided = false ∧ settles cfg s e.record = false
        ∨ s.undecided = true ∧ e.pressed = false
          ∧ waitingBufferTyped s.waitingBuffer e = false ∧ e.key ≠ s.tappingKey.event.key) := by
  have hr := @receive_arrival cfg s e hs hroom
  have hb := hr.buffered
  have hp := hr.passing
  have hu' := hr.undecided
  have htk' := hr.tappingKey
  rw [ht, Bool.or_false] at hb
  rw [State.timeline, State.timeline, State.waiting, State.waiting, hb]
  cases hr.effect with
  | skip _ _ hno => simp [show e.record.event.isNoEvent = false from ht] at hno
  | pass hd hset _ hu hu₂ hpass =>
    rw [unsettled_nil hu, unsettled_nil (hu'.trans hu₂), hd, passed_of (hp.trans hpass)]
    exact .inr ⟨by simp [KeyEvent.record], .inl ⟨hu, hset⟩⟩
  | early hd _ _ hu htk hrel hty hne hpass =>
    have hu₂ : (receive cfg e.record s).undecided = true := by
      rw [hu', State.undecided, State.active, htk]
      exact hu
    rw [unsettled_of hu, unsettled_of hu₂, htk', htk, hd, passed_of (hp.trans hpass)]
    exact .inr ⟨by simp [KeyEvent.record], .inr ⟨hu, hrel, hty, hne⟩⟩
  | take hd hset _ hu hu₂ htk hpass =>
    rw [unsettled_nil hu, unsettled_of (hu'.trans hu₂), htk', htk, hd,
      passed_same (hp.trans hpass)]
    exact .inr ⟨by simp [KeyEvent.record], .inl ⟨hu, hset⟩⟩
  | wait hd _ hu hu₂ htk hpass =>
    rw [unsettled_of hu, unsettled_of (hu'.trans hu₂), htk', htk, hd,
      passed_same (hp.trans hpass)]
    exact .inl ⟨by simp, .inl hu⟩
  | settle hd _ hu hu₂ hpass =>
    rw [unsettled_of hu, unsettled_nil (hu'.trans hu₂), hd, passed_of (hp.trans hpass)]
    exact .inl ⟨by simp, .inl hu⟩
  | expire hd hset hu hu₂ hpass =>
    rw [unsettled_nil hu, unsettled_nil (hu'.trans hu₂), hd, passed_same (hp.trans hpass)]
    exact .inl ⟨by simp, .inr hset⟩

theorem run_timeline (es : List KeyEvent) (hroom : Sent.clearKeyboard ∉ (run cfg es).out) :
    (run cfg es).timeline.Perm (arrivals es) := by
  induction es using List.reverseRecOn with
  | nil => exact .refl _
  | append_singleton es e ih =>
    have hrec := fun h => hroom ((run_out es e).subset h)
    have hpre := fun h => hrec ((receive_out _ _).subset h)
    have hwf := run_wf es hpre
    rw [run_snoc, arrivals_append]
    refine (drain_timeline _ (receive_arrival hwf hrec).wf).perm.trans ?_
    cases ht : e.isNoEvent with
    | true => simpa [receive_tick hwf hrec ht, arrivals, ht] using ih hpre
    | false =>
      rw [show arrivals [e] = [e] by simp [arrivals, ht]]
      rcases receive_timeline hwf hrec ht with ⟨h, -⟩ | ⟨h, -⟩
      · rw [h]
        exact (ih hpre).append_right [e]
      · rw [h]
        refine .trans ?_ ((ih hpre).append_right [e])
        rw [State.timeline, List.append_assoc]
        exact (List.perm_append_singleton e (run cfg es).waiting).symm.append_left _

/-- In every state reached the timeline of each key is in the order of arrival. -/
def InTurn (cfg : Config) (es : List KeyEvent) : Prop := ∀ pre, pre <+: es → ∀ key,
  (run cfg pre).timeline.filter (ofKey key) = (arrivals pre).filter (ofKey key)

/-- No key event is received while the buffer holds an earlier one of its key, unless an
undecided tapping key or the end of its term holds up the event as well. -/
def KeepsTurn (cfg : Config) (es : List KeyEvent) : Prop := ∀ pre e, pre ++ [e] <+: es →
  e.isNoEvent = false → (run cfg pre).undecided = false →
  settles cfg (run cfg pre) e.record = false → ∀ b ∈ (run cfg pre).buffered, b.key ≠ e.key

theorem waiting_free {es : List KeyEvent} {e : KeyEvent} (ha : Alternating (es ++ [e]))
    (ht : e.isNoEvent = false)
    (hline : (run cfg es).timeline.filter (ofKey e.key) = (arrivals es).filter (ofKey e.key))
    (hu : (run cfg es).undecided = true) (hrel : e.pressed = false)
    (hty : waitingBufferTyped (run cfg es).waitingBuffer e = false)
    (hne : e.key ≠ (run cfg es).tappingKey.event.key) :
    ∀ y ∈ (run cfg es).waiting, y.key ≠ e.key := by
  intro y hy hkey
  rw [State.waiting, unsettled_of hu] at hy
  have hbuf : ∀ z ∈ (run cfg es).buffered.filter (ofKey e.key), z.pressed = false := by
    intro z hz
    obtain ⟨hz₁, hz₂⟩ := List.mem_filter.mp hz
    rw [← hrel]
    exact not_typed hty hz₁ (by simpa [ofKey] using hz₂)
  have hsplit : (arrivals es).filter (ofKey e.key)
      = (run cfg es).passed.filter (ofKey e.key)
        ++ (run cfg es).buffered.filter (ofKey e.key) := by
    rw [← hline, State.timeline, State.waiting, unsettled_of hu]
    simp [ofKey, hne.symm]
  have hmem : y ∈ (run cfg es).buffered.filter (ofKey e.key) := by
    rcases List.mem_cons.mp hy with rfl | hy
    · exact absurd hkey hne.symm
    · exact List.mem_filter.mpr ⟨hy, by simp [ofKey, hkey]⟩
  obtain ⟨z, hz⟩ : ∃ z, ((run cfg es).buffered.filter (ofKey e.key)).getLast? = some z :=
    ⟨_, List.getLast?_eq_some_getLast (List.ne_nil_of_mem hmem)⟩
  have hlast := @Alternating.last es e ha ht z
    (by rw [hsplit, List.getLast?_append, hz]; rfl)
  exact hlast ((hbuf z (List.mem_of_getLast? hz)).trans hrel.symm)

/-- One call keeps the order of each key if and only if its event does not go ahead of an
event of its key. -/
theorem call_inTurn_iff {es : List KeyEvent} {e : KeyEvent} (ha : Alternating (es ++ [e]))
    (hroom : Sent.clearKeyboard ∉ (run cfg (es ++ [e])).out)
    (hline : ∀ key, (run cfg es).timeline.filter (ofKey key)
      = (arrivals es).filter (ofKey key)) :
    (∀ key, (run cfg (es ++ [e])).timeline.filter (ofKey key)
        = (arrivals (es ++ [e])).filter (ofKey key))
      ↔ (e.isNoEvent = false → (run cfg es).undecided = false →
        settles cfg (run cfg es) e.record = false →
        ∀ b ∈ (run cfg es).buffered, b.key ≠ e.key) := by
  have hrec := fun h => hroom ((run_out es e).subset h)
  have hpre := fun h => hrec ((receive_out _ _).subset h)
  have hwf := run_wf es hpre
  have hdrain := fun n => (@drain_timeline cfg n _ (receive_arrival hwf hrec).wf).perKey
  rw [run_snoc, arrivals_append]
  simp only [actionTappingProcess, hdrain, List.filter_append]
  cases ht : e.isNoEvent with
  | true => simpa [receive_tick hwf hrec ht, arrivals, ht] using hline
  | false =>
    rw [show arrivals [e] = [e] by simp [arrivals, ht]]
    -- the event goes ahead, and no event of its key waits
    have hahead : (∀ y ∈ (run cfg es).waiting, y.key ≠ e.key) → ∀ key,
        ((run cfg es).passed ++ e :: (run cfg es).waiting).filter (ofKey key)
          = (arrivals es).filter (ofKey key) ++ [e].filter (ofKey key) := by
      intro hfree key
      have hsame := sameOrder_ahead (run cfg es).passed (run cfg es).waiting [] hfree
      rw [← hline key, ← List.filter_append, State.timeline, List.append_assoc]
      simpa using hsame.perKey key
    rcases receive_timeline hwf hrec ht with ⟨h, hwhy⟩ | ⟨h, hwhy⟩
    · refine ⟨fun _ _ hu hset => ?_, fun _ key => by rw [h, List.filter_append, hline key]⟩
      rcases hwhy with hu' | hset'
      · simp [hu] at hu'
      · simp [hset] at hset'
    · rcases hwhy with ⟨hu, hset⟩ | ⟨hu, hrel, hty, hne⟩
      · have hw : (run cfg es).waiting = (run cfg es).buffered := by
          rw [State.waiting, unsettled_nil hu, List.nil_append]
        constructor
        · intro hall _ _ _ b hb hkey
          -- the last of the events overtaken is the other way round
          have heq := hall e.key
          have hmem : b ∈ (run cfg es).waiting.filter (ofKey e.key) :=
            List.mem_filter.mpr ⟨hw ▸ hb, by simp [ofKey, hkey]⟩
          obtain ⟨z, hz⟩ : ∃ z,
              ((run cfg es).waiting.filter (ofKey e.key)).getLast? = some z :=
            ⟨_, List.getLast?_eq_some_getLast (List.ne_nil_of_mem hmem)⟩
          have hlast := @Alternating.last es e ha ht z (by
            rw [← hline e.key, State.timeline, List.filter_append, List.getLast?_append, hz]
            rfl)
          have hend := congrArg List.getLast? heq
          rw [h, List.filter_append, List.filter_cons_of_pos (by simp [ofKey]),
            List.getLast?_append, List.getLast?_cons, hz, List.getLast?_append] at hend
          have : z = e := by simpa [ofKey] using hend
          exact hlast (by rw [this])
        · intro hfree
          rw [h]
          exact hahead fun y hy => hfree rfl hu hset y (hw ▸ hy)
      · refine ⟨fun _ _ hu' => by simp [hu] at hu', fun _ => ?_⟩
        rw [h]
        exact hahead (waiting_free ha ht (hline e.key) hu hrel hty hne)

theorem inTurn_iff (es : List KeyEvent) (ha : Alternating es)
    (hroom : Sent.clearKeyboard ∉ (run cfg es).out) : InTurn cfg es ↔ KeepsTurn cfg es := by
  constructor
  · intro h pre e hpre
    have hsub := (List.prefix_append pre [e]).trans hpre
    exact (call_inTurn_iff (ha.initial hpre)
      (fun hm => hroom ((run_prefix_out hpre).subset hm)) (h pre hsub)).mp (h _ hpre)
  · intro h pre
    induction pre using List.reverseRecOn with
    | nil => exact fun _ _ => rfl
    | append_singleton pre e ih =>
      intro hpre
      have hsub := (List.prefix_append pre [e]).trans hpre
      exact (call_inTurn_iff (ha.initial hpre)
        (fun hm => hroom ((run_prefix_out hpre).subset hm)) (ih hsub)).mpr (h pre e hpre)

/-- The events passed on and those that wait are the events that arrived, and nothing else is
passed on but a release for each multi-tapped key that is replaced. The events of each key
keep their order in all states reached if and only if no key event is received ahead of one
of its key that is parked in the buffer. -/
theorem events_accounted_iff (cfg : Config) (es : List KeyEvent) (ha : Alternating es)
    (hroom : Sent.clearKeyboard ∉ (run cfg es).out) :
    (∀ pre, pre <+: es →
      (run cfg pre).timeline.Perm (arrivals pre) ∧ OnlyReplaced (run cfg pre).out)
    ∧ (InTurn cfg es ↔ KeepsTurn cfg es)
    ∧ (KeepsTurn cfg es → ∀ key,
      (run cfg es).passed.filter (ofKey key) <+: (arrivals es).filter (ofKey key)) := by
  have hiff := inTurn_iff es ha hroom
  refine ⟨fun pre hpre => ?_, hiff, fun hturn key => ?_⟩
  · have hroom' := fun hm => hroom ((run_prefix_out hpre).subset hm)
    exact ⟨run_timeline pre hroom', (run_tapped pre hroom').replaced⟩
  · rw [← hiff.mpr hturn es (List.prefix_refl _) key, State.timeline, List.filter_append]
    exact List.prefix_append _ _

/-- A release goes ahead of its parked press. -/
theorem release_before_press :
    let es := [press keyT 0,press keyH 10,press keyX 20,tickAt 200,release keyX 201]
    Alternating es ∧ Sent.clearKeyboard ∉ (run rollConfig es).out
      ∧ (run rollConfig es).passed
        = [press keyT 0,press keyH 10,release keyX 201,press keyX 20]
      ∧ ¬ InTurn rollConfig es := by
  refine ⟨alternating_of_keys (by decide +kernel), by decide +kernel, by decide +kernel,
    fun h => ?_⟩
  have horder := h _ (List.prefix_refl _) keyX
  revert horder
  decide +kernel

theorem events_accounted_tap :
    InTurn rollConfig [press keyT 0,release keyT 20] :=
  (events_accounted_iff rollConfig [press keyT 0,release keyT 20]
    (alternating_of_keys (by decide +kernel)) (by decide +kernel)).2.1.mpr (by
    intro pre e h
    rcases pre with _ | ⟨a, _ | ⟨b, pre⟩⟩
    · obtain rfl : e = press keyT 0 := by simpa using h
      decide +kernel
    · obtain ⟨rfl, rfl⟩ : a = press keyT 0 ∧ e = release keyT 20 := by simpa using h
      decide +kernel
    · simp at h)

end QmkFirmware.Tapping
