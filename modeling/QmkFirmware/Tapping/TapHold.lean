import QmkFirmware.Tapping.Accounting
import QmkFirmware.Tapping.Sides

/-!
Tap or hold, at the press and at the release.
-/

set_option autoImplicit false

namespace QmkFirmware.Tapping

variable {cfg : Config}

def State.ahead (k : KeyRecord) (s : State) : State :=
  { s with waitingBuffer := k :: s.waitingBuffer }

def Processed.ahead (k : KeyRecord) (p : Processed) : Processed :=
  { p with state := p.state.ahead k }

theorem typed_ahead (k : KeyRecord) (buffer : List KeyRecord) :
    waitingBufferTyped (k :: buffer) k.event = waitingBufferTyped buffer k.event := by
  simp [waitingBufferTyped]

theorem scanTap_ahead {k : KeyRecord} (hp : k.event.pressed = true) (s : State) :
    waitingBufferScanTap cfg { s.ahead k with tappingKey := k }
      = (waitingBufferScanTap cfg { s with tappingKey := k }).ahead k := by
  have hk : tapCandidate cfg k k = false := by simp [tapCandidate, hp]
  unfold waitingBufferScanTap
  simp only [State.ahead, markCandidate, hk, Bool.false_eq_true, if_false]
  split
  · rfl
  · cases markCandidate cfg k s.waitingBuffer <;> rfl

theorem processReset_ahead (k : KeyRecord) (s : State) :
    processReset cfg k (s.ahead k) = (processReset cfg k s).ahead k := by
  unfold processReset
  split
  · rfl
  · split
    · rename_i h
      rw [Bool.and_eq_true] at h
      rw [scanTap_ahead h.1]
      rfl
    · rfl

theorem processUndecided_ahead (k : KeyRecord) (s : State) :
    processUndecided cfg k (s.ahead k) = (processUndecided cfg k s).ahead k := by
  unfold processUndecided
  simp only [apply_ite (Processed.ahead k), State.ahead, typed_ahead]
  rfl

theorem processTapped_ahead (within : Bool) (k : KeyRecord) (s : State) :
    processTapped cfg within k (s.ahead k) = (processTapped cfg within k s).ahead k := by
  unfold processTapped
  simp only [apply_ite (Processed.ahead k)]
  have hun : (if 1 < s.tappingKey.tap.count then (s.ahead k).send
        (.synthesized (unregisterRecord s.tappingKey k.event.time)) else s.ahead k)
      = (if 1 < s.tappingKey.tap.count then s.send
        (.synthesized (unregisterRecord s.tappingKey k.event.time)) else s).ahead k := by
    split <;> rfl
  cases hp : k.event.pressed with
  | false =>
    simp only [Bool.and_false, Bool.false_eq_true, if_false]
    rfl
  | true =>
    have hscan := fun t => @scanTap_ahead cfg k hp t
    simp only [Processed.ahead, ← hscan, ← hun]
    rfl

theorem processReleased_ahead (k : KeyRecord) (s : State) :
    processReleased cfg k (s.ahead k) = (processReleased cfg k s).ahead k := by
  unfold processReleased
  simp only [apply_ite (Processed.ahead k)]
  cases hp : k.event.pressed with
  | false => rfl
  | true =>
    have hscan := @scanTap_ahead cfg k hp s
    simp only [Processed.ahead, ← hscan]
    rfl

theorem processTapping_ahead (k : KeyRecord) (s : State) :
    processTapping cfg k (s.ahead k) = (processTapping cfg k s).ahead k := by
  unfold processTapping processPressed
  simp only [processUndecided_ahead, processTapped_ahead, processReleased_ahead,
    processReset_ahead, apply_ite (Processed.ahead k)]
  rfl

def State.joined (s : State) (e : KeyEvent) (key : KeyPos) : Side :=
  if e.key = key then (s.side key).arrive e else s.side key

theorem filter_free {s : State} {e : KeyEvent} (hfree : ∀ b ∈ s.buffered, b.key ≠ e.key) :
    s.waitingBuffer.filter (recordOf e.key) = [] := by
  rw [List.filter_eq_nil_iff]
  intro b hb hk
  exact hfree b.event (List.mem_map.mpr ⟨b, hb, rfl⟩) (by simpa [recordOf] using hk)

theorem side_ahead {s : State} {e : KeyEvent} (hfree : ∀ b ∈ s.buffered, b.key ≠ e.key)
    (key : KeyPos) : (s.ahead e.record).side key = s.joined e key := by
  unfold State.joined
  by_cases h : e.key = key
  · subst h
    rw [if_pos rfl]
    simp [State.side, State.ahead, Side.arrive, filter_free hfree, recordOf, KeyEvent.record]
  · rw [if_neg h]
    simp [State.side, State.ahead, recordOf, KeyEvent.record, h]

theorem joined_buffer (s : State) (e : KeyEvent) (key : KeyPos) :
    s.joined e key = ⟨passedOf key s.out,stageOf s.tappingKey key,
      (s.waitingBuffer ++ [e.record]).filter (recordOf key)⟩ := by
  unfold State.joined
  by_cases h : e.key = key
  · subst h
    rw [if_pos rfl, List.filter_append]
    simp [State.side, Side.arrive, recordOf, KeyEvent.record]
  · rw [if_neg h, List.filter_append]
    simp [State.side, recordOf, KeyEvent.record, h]

theorem filter_front {k : KeyRecord} {l : List KeyRecord}
    (h : l.filter (recordOf k.event.key) = []) (key : KeyPos) :
    (l ++ [k]).filter (recordOf key) = (k :: l).filter (recordOf key) := by
  by_cases hk : k.event.key = key
  · subst hk
    rw [List.filter_append, List.filter_cons_of_pos (by simp [recordOf]), h, List.nil_append,
      List.filter_cons_of_pos (by simp [recordOf]), List.filter_nil, h]
  · rw [List.filter_append, List.filter_cons_of_neg (by simpa [recordOf] using hk)]
    simp [recordOf, hk]

theorem free_of_not_typed {s : State} {e : KeyEvent} (ha : Aligned (s.joined e e.key))
    (hty : waitingBufferTyped s.waitingBuffer e = false) :
    ∀ b ∈ s.buffered, b.key ≠ e.key := by
  intro b hb hkey
  have hmem : b ∈ (s.waitingBuffer.filter (recordOf e.key)).map KeyRecord.event := by
    obtain ⟨r, hr, rfl⟩ := List.mem_map.mp hb
    exact List.mem_map.mpr ⟨r, List.mem_filter.mpr ⟨hr, by simp [recordOf, hkey]⟩, rfl⟩
  obtain ⟨z, hz⟩ : ∃ z,
      ((s.waitingBuffer.filter (recordOf e.key)).map KeyRecord.event).getLast? = some z :=
    ⟨_, List.getLast?_eq_some_getLast (List.ne_nil_of_mem hmem)⟩
  have halt := ha.alternates
  rw [State.joined, if_pos rfl, Side.arrive_timeline, List.isChain_append] at halt
  have hlast := halt.2.2 z (by
    rw [Side.timeline, List.getLast?_append, List.getLast?_append]
    simp only [State.side, hz]
    rfl) e rfl
  obtain ⟨r, hr, rfl⟩ := List.mem_map.mp (List.mem_of_getLast? hz)
  obtain ⟨hr₁, hr₂⟩ := List.mem_filter.mp hr
  exact hlast (not_typed hty (List.mem_map.mpr ⟨r, hr₁, rfl⟩) (by simpa [recordOf] using hr₂))

/-- The event is dealt with at once: it is consumed, or it is the release that makes the
tapping key a tap. -/
def handled (cfg : Config) (s : State) (k : KeyRecord) : Bool :=
  if s.undecided then isTappingRecord s.tappingKey k && !k.event.pressed
    && withinTappingTerm cfg s.tappingKey k.event
  else !settles cfg s k

theorem handled_of {s : State} {k : KeyRecord} (hu : s.undecided = false)
    (hset : settles cfg s k = false) : handled cfg s k = true := by
  simp [handled, hu, hset]

theorem waitingBufferEnq_room {k : KeyRecord} {s : State} (ht : k.event.isNoEvent = false)
    (hroom : Sent.clearKeyboard ∉ (waitingBufferEnq k s).out) :
    waitingBufferEnq k s = { s with waitingBuffer := s.waitingBuffer ++ [k] } := by
  unfold waitingBufferEnq at hroom ⊢
  simp only [ht, Bool.false_eq_true, if_false] at hroom ⊢
  split
  · rename_i hfull
    rw [if_pos hfull] at hroom
    exact absurd (by simp [State.send]) hroom
  · rfl

theorem receive_steps {s : State} {e : KeyEvent} (ht : e.isNoEvent = false)
    (hroom : Sent.clearKeyboard ∉ (receive cfg e.record s).out)
    (ha : Aligned (s.joined e e.key)) (hmulti : replacesMulti cfg s e.record = false)
    (hfree : handled cfg s e.record = true → ∀ b ∈ s.buffered, b.key ≠ e.key) (key : KeyPos) :
    Side.Steps (s.joined e key) ((receive cfg e.record s).side key) := by
  have hpop : (∀ b ∈ s.buffered, b.key ≠ e.key) →
      Side.Steps (s.joined e key) ((popped cfg e.record (s.ahead e.record)).side key) := by
    intro hf
    rw [← side_ahead hf]
    refine popped_steps rfl ⟨ht, fun _ => rfl⟩ ((side_ahead hf e.key).symm ▸ ha) ?_ key
    have hskip : scanSkips cfg e.record s.waitingBuffer = false := by
      simp [scanSkips, show e.record.event.key = e.key from rfl, filter_free hf]
    rw [regular, hskip, Bool.and_false, Bool.not_false, Bool.and_true, Bool.not_eq_true']
    exact hmulti
  have ho := @processTapping_outcome cfg e.record s
  have hahead := @processTapping_ahead cfg e.record s
  simp only [popped, hahead, Processed.ahead] at hpop
  simp only [State.ahead, List.tail_cons] at hpop
  unfold receive at hroom ⊢
  generalize processTapping cfg e.record s = p at ho hpop hroom
  cases ho with
  | skip hno => simp [show e.record.event.isNoEvent = false from ht] at hno
  | other tk _ hu _ _ _ hset | take _ hu _ _ hset => exact hpop (hfree (handled_of hu hset))
  | tapRelease tk _ _ hpr hc _ _ _ hset =>
    exact hpop (hfree (handled_of (by simp [State.undecided]; omega) hset))
  | again tap _ _ hrel _ _ _ hset | restart _ _ hrel _ _ hset =>
    exact hpop (hfree (handled_of (by simp [State.undecided, hrel]) hset))
  | early _ _ _ hty => exact hpop (free_of_not_typed ha hty)
  | wait tk _ hu _ htk =>
    simp only [Bool.false_eq_true, if_false] at hroom ⊢
    rw [waitingBufferEnq_room ht hroom, joined_buffer, State.side, interrupted htk]
    exact .refl
  | settle tk hu htk =>
    simp only [Bool.false_eq_true, if_false] at hroom ⊢
    rw [waitingBufferEnq_room ht hroom, joined_buffer]
    exact settle_steps hu htk key _
  | firstTap _ hu hkey hp _ hw =>
    have hf := hfree (by
      simp only [handled, hu, if_true, hp, hw]
      simp [isTappingRecord, hkey])
    have hsteps := hpop hf
    simp only [Bool.false_eq_true, if_false] at hroom hsteps ⊢
    rw [waitingBufferEnq_room (k := { e.record with tap := _ }) ht hroom]
    have hfront := @filter_front { e.record with tap := (tapOnce s.tappingKey).tap } _
      (filter_free hf) key
    simpa only [State.side, hfront] using hsteps
  | expire ha hrel =>
    simp only [Bool.false_eq_true, if_false] at hroom ⊢
    rw [waitingBufferEnq_room ht hroom, joined_buffer, stageOf_released key hrel]
    exact .refl

theorem tick_steps {s : State} {e : KeyEvent} (ht : e.isNoEvent = true) (key : KeyPos) :
    Side.Steps (s.side key) ((receive cfg e.record s).side key) := by
  have htick : e.record.event.isNoEvent = true := ht
  have ho := @processTapping_outcome cfg e.record s
  unfold receive
  generalize processTapping cfg e.record s = p at ho
  cases ho with
  | skip => exact .refl
  | other _ hn | tapRelease _ hn | again _ hn | early hn | take hn | restart hn | wait _ hn
    | firstTap hn => simp [htick] at hn
  | settle tk hu htk =>
    simp only [Bool.false_eq_true, if_false, waitingBufferEnq, htick, if_true]
    exact settle_steps hu htk key _
  | expire ha hrel =>
    simp only [Bool.false_eq_true, if_false, waitingBufferEnq, htick, if_true]
    rw [State.side, stageOf_released key hrel]
    exact .refl

def drainRegular (cfg : Config) : Nat → State → Bool
  | 0, _ => true
  | n+1, s =>
    match s.waitingBuffer with
    | [] => true
    | k :: rest => regular cfg s k rest &&
      if (processTapping cfg k s).done then drainRegular cfg n (popped cfg k s) else true

theorem drain_steps (n : Nat) {s : State} (hs : s.Wf) (ha : ∀ key, Aligned (s.side key))
    (hreg : drainRegular cfg n s = true) (key : KeyPos) :
    Side.Steps (s.side key) ((drain cfg n s).side key) := by
  induction n generalizing s with
  | zero => exact .refl
  | succ n ih =>
    cases hb : s.waitingBuffer with
    | nil => simpa only [drain, hb] using .refl
    | cons k rest =>
      have hk : Fresh k := hs k (by rw [hb]; exact List.mem_cons_self)
      simp only [drainRegular, hb, Bool.and_eq_true] at hreg
      have hstep := popped_steps hb hk (ha k.event.key) hreg.1
      rw [drain_cons hb]
      split
      · rename_i hd
        rw [if_pos hd] at hreg
        exact (hstep key).trans
          (ih (popped_round hb hs).wf (fun key => (hstep key).aligned (ha key)) hreg.2)
      · exact hstep key

/-- The call neither replaces a multi-tapped key, nor deals with an event ahead of an earlier
one of its key, nor skips to a later release of a key. -/
def callRegular (cfg : Config) (s : State) (e : KeyEvent) : Bool :=
  (e.isNoEvent || !replacesMulti cfg s e.record
    && !(handled cfg s e.record && s.buffered.any (ofKey e.key)))
  && drainRegular cfg (receive cfg e.record s).waitingBuffer.length (receive cfg e.record s)

def RunRegular (cfg : Config) (es : List KeyEvent) : Prop := ∀ pre e, pre ++ [e] <+: es →
  callRegular cfg (run cfg pre) e = true

theorem runRegular_of {es : List KeyEvent} (h : ∀ n < es.length,
    es[n]?.all (callRegular cfg (run cfg (es.take n))) = true) : RunRegular cfg es := by
  rintro pre e ⟨suf, rfl⟩
  have := h pre.length (by simp)
  rwa [List.append_assoc, List.getElem?_append_right (Nat.le_refl _), Nat.sub_self,
    List.take_left] at this

theorem run_side (es : List KeyEvent) (ha : Alternating es)
    (hroom : Sent.clearKeyboard ∉ (run cfg es).out) (hreg : RunRegular cfg es) (key : KeyPos) :
    Aligned ((run cfg es).side key)
      ∧ ((run cfg es).side key).timeline = (arrivals es).filter (ofKey key) := by
  induction es using List.reverseRecOn generalizing key with
  | nil => exact ⟨aligned_nil, rfl⟩
  | append_singleton es e ih =>
    have hrec := fun h => hroom ((run_out es e).subset h)
    have hpre := fun h => hrec ((receive_out _ _).subset h)
    have hpfx : es <+: es ++ [e] := List.prefix_append _ _
    have ih := fun key => ih (ha.initial hpfx) hpre (fun pre x h => hreg pre x (h.trans hpfx)) key
    obtain ⟨hcall, hdrain⟩ := (Bool.and_eq_true _ _ ▸ hreg es e (List.prefix_refl _) :)
    have hwf := (receive_arrival (run_wf es hpre) hrec).wf
    rw [run_snoc, arrivals_append]
    cases ht : e.isNoEvent with
    | true =>
      have hrecv := fun key => @tick_steps cfg (run cfg es) e ht key
      have hsteps := (hrecv key).trans
        (drain_steps _ hwf (fun key => (hrecv key).aligned (ih key).1) hdrain key)
      exact ⟨hsteps.aligned (ih key).1, hsteps.timeline_eq.trans
        (by simpa [arrivals, ht] using (ih key).2)⟩
    | false =>
      have harr : arrivals [e] = [e] := by simp [arrivals, ht]
      have hjoin : ∀ key, Aligned ((run cfg es).joined e key)
          ∧ ((run cfg es).joined e key).timeline
            = (arrivals es).filter (ofKey key) ++ [e].filter (ofKey key) := by
        intro key
        obtain ⟨hal, htl⟩ := ih key
        by_cases hk : e.key = key
        · have hchain := (ha key).2
          rw [arrivals_append, harr, List.filter_append, ← htl] at hchain
          rw [State.joined, if_pos hk, Side.arrive_timeline, htl]
          rw [show [e].filter (ofKey key) = [e] by simp [ofKey, hk]] at hchain ⊢
          exact ⟨hal.arrive hchain, rfl⟩
        · rw [State.joined, if_neg hk, htl]
          exact ⟨hal, by simp [ofKey, hk]⟩
      simp only [ht, Bool.false_or, Bool.and_eq_true, Bool.not_eq_true', Bool.and_eq_false_iff,
        List.any_eq_false, ofKey, decide_eq_true_eq] at hcall
      have hrecv := fun key => @receive_steps cfg (run cfg es) e ht hrec (hjoin e.key).1 hcall.1
        (fun hh => hcall.2.resolve_left (by simp [hh])) key
      have hsteps := (hrecv key).trans
        (drain_steps _ hwf (fun key => (hrecv key).aligned (hjoin key).1) hdrain key)
      rw [harr, List.filter_append]
      exact ⟨hsteps.aligned (hjoin key).1, hsteps.timeline_eq.trans (hjoin key).2⟩

/-- In a regular run the releases passed on are taps if and only if their presses were: the
records of each key are passed on in the order of arrival, so with presses and releases in
turn, and every release is of the kind of the press before it. -/
theorem release_as_press (cfg : Config) (es : List KeyEvent) (ha : Alternating es)
    (hroom : Sent.clearKeyboard ∉ (run cfg es).out) (hreg : RunRegular cfg es) (key : KeyPos) :
    (passedOf key (run cfg es).out).map KeyRecord.event <+: (arrivals es).filter (ofKey key)
      ∧ (passedOf key (run cfg es).out).IsChain SameKind := by
  obtain ⟨hal, htl⟩ := run_side es ha hroom hreg key
  exact ⟨htl ▸ List.prefix_append _ _, hal.matched⟩

/-- A key is tapped, pressed again and held, and replaced by another tap key. Its second press
is a tap, its release is not. -/
theorem multi_tap_replaced :
    let es := [press keyT 0,release keyT 20,press keyT 40,press keyH 300,release keyT 320,
      release keyH 340]
    Alternating es ∧ Sent.clearKeyboard ∉ (run rollConfig es).out
      ∧ (passedOf keyT (run rollConfig es).out).map (fun r => (r.event,r.tap.count))
        = [(press keyT 0,1),(release keyT 20,1),(press keyT 40,2),(release keyT 320,0)]
      ∧ ¬ (passedOf keyT (run rollConfig es).out).IsChain SameKind := by
  exact ⟨alternating_of_keys (by decide +kernel), by decide +kernel, by decide +kernel,
    by decide +kernel⟩

theorem release_as_press_double :
    (passedOf keyT (run rollConfig
      [press keyT 0,release keyT 20,press keyT 40,press keyX 60,release keyT 80]).out).IsChain
        SameKind :=
  (release_as_press rollConfig
    [press keyT 0,release keyT 20,press keyT 40,press keyX 60,release keyT 80]
    (alternating_of_keys (by decide +kernel)) (by decide +kernel)
    (runRegular_of (by decide +kernel)) keyT).2

end QmkFirmware.Tapping
