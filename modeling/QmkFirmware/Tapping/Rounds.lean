import Mathlib.Data.List.Induction
import QmkFirmware.Tapping.Outcome

/-!
The rounds of `action_tapping_process` in terms of events: the new event is tried, then the
buffer is drained. The tapping key's press waits while it is undecided.
-/

set_option autoImplicit false

namespace QmkFirmware.Tapping

/-- The event of a call to `process_record` that passes on an arrived event, with a flag for
the branch that passes it ahead of the buffer. -/
def Sent.passing : Sent → Option (Bool × KeyEvent)
  | .record r => some (false,r.event)
  | .early r => some (true,r.event)
  | .synthesized _ | .clearKeyboard => none

def State.passing (s : State) : List (Bool × KeyEvent) := s.out.filterMap Sent.passing

/-- The events passed on so far. -/
def State.passed (s : State) : List KeyEvent := s.passing.map Prod.snd

def State.unsettled (s : State) : List KeyEvent :=
  if s.undecided then [s.tappingKey.event] else []

def State.buffered (s : State) : List KeyEvent := s.waitingBuffer.map KeyRecord.event

def Fresh (k : KeyRecord) : Prop :=
  k.event.isNoEvent = false ∧ (k.event.pressed = true → k.tap.count = 0)

def State.Wf (s : State) : Prop := ∀ b ∈ s.waitingBuffer, Fresh b

variable {cfg : Config}

theorem markCandidate_events {tk : KeyRecord} {l m : List KeyRecord}
    (h : markCandidate cfg tk l = some m) : m.map KeyRecord.event = l.map KeyRecord.event := by
  induction l generalizing m with
  | nil => cases h
  | cons b bs ih =>
    simp only [markCandidate] at h
    split at h
    · cases h
      rfl
    · obtain ⟨m', hm, rfl⟩ := Option.map_eq_some_iff.mp h
      simp [ih hm]

theorem markCandidate_fresh {tk : KeyRecord} {l m : List KeyRecord}
    (h : markCandidate cfg tk l = some m) (hl : ∀ b ∈ l, Fresh b) : ∀ b ∈ m, Fresh b := by
  induction l generalizing m with
  | nil => cases h
  | cons b bs ih =>
    simp only [markCandidate] at h
    split at h
    · rename_i hc
      cases h
      have hrel : b.event.pressed = false := by
        simp only [tapCandidate, Bool.and_eq_true, Bool.not_eq_true'] at hc
        exact hc.1.2
      intro x hx
      rcases List.mem_cons.mp hx with rfl | hx
      · exact ⟨(hl b List.mem_cons_self).1, fun h => by simp [hrel] at h⟩
      · exact hl x (List.mem_cons_of_mem _ hx)
    · obtain ⟨m', hm, rfl⟩ := Option.map_eq_some_iff.mp h
      intro x hx
      rcases List.mem_cons.mp hx with rfl | hx
      · exact hl _ List.mem_cons_self
      · exact ih hm (fun y hy => hl y (List.mem_cons_of_mem _ hy)) x hx

/-- A fresh press in the place of the tapping key: it is unsettled, or a release in the
buffer makes it a tap. -/
theorem scanTap_cases {s : State} (hp : s.tappingKey.event.pressed = true)
    (hc : s.tappingKey.tap.count = 0) :
    markCandidate cfg s.tappingKey s.waitingBuffer = none ∧ waitingBufferScanTap cfg s = s
    ∨ ∃ m, markCandidate cfg s.tappingKey s.waitingBuffer = some m
      ∧ waitingBufferScanTap cfg s
        = ⟨tapOnce s.tappingKey,m,s.out ++ [.record (tapOnce s.tappingKey)]⟩ := by
  unfold waitingBufferScanTap
  rw [if_neg (by simp [hp, hc])]
  cases hm : markCandidate cfg s.tappingKey s.waitingBuffer with
  | none => exact .inl ⟨rfl, rfl⟩
  | some m => exact .inr ⟨m, rfl, rfl⟩

theorem unregister_passing (k : KeyRecord) (s : State) :
    (unregister k s).passing = s.passing ∧ (unregister k s).waitingBuffer = s.waitingBuffer := by
  unfold unregister
  split
  · simp [State.passing, State.send, Sent.passing]
  · exact ⟨rfl, rfl⟩

inductive Effect (cfg : Config) (k : KeyRecord) (s : State) (p : Processed) : Prop where
  | skip : p.done = true → settles cfg s k = false → k.event.isNoEvent = true →
      p.state = s → Effect cfg k s p
  | pass : p.done = true → settles cfg s k = false → k.event.isNoEvent = false →
      s.undecided = false → p.state.undecided = false →
      p.state.passing = s.passing ++ [(false,k.event)] → Effect cfg k s p
  | early : p.done = true → settles cfg s k = false → k.event.isNoEvent = false →
      s.undecided = true → p.state.tappingKey = s.tappingKey → k.event.pressed = false →
      waitingBufferTyped s.waitingBuffer k.event = false →
      k.event.key ≠ s.tappingKey.event.key →
      p.state.passing = s.passing ++ [(true,k.event)] → Effect cfg k s p
  | take : p.done = true → settles cfg s k = false → k.event.isNoEvent = false →
      s.undecided = false → p.state.undecided = true →
      p.state.tappingKey.event = k.event → p.state.passing = s.passing → Effect cfg k s p
  | wait : p.done = false → settles cfg s k = false → s.undecided = true →
      p.state.undecided = true → p.state.tappingKey.event = s.tappingKey.event →
      p.state.passing = s.passing → Effect cfg k s p
  | settle : p.done = false → settles cfg s k = true → s.undecided = true →
      p.state.undecided = false →
      p.state.passing = s.passing ++ [(false,s.tappingKey.event)] → Effect cfg k s p
  | expire : p.done = false → settles cfg s k = true → s.undecided = false →
      p.state.undecided = false → p.state.passing = s.passing → Effect cfg k s p

theorem processTapping_effect {k : KeyRecord} {s : State}
    (hk : k.event.isNoEvent = true ∨ Fresh k) (hs : s.Wf) :
    let p := processTapping cfg k s
    p.keyp.event = k.event ∧ p.state.buffered = s.buffered ∧ p.state.Wf ∧ Effect cfg k s p
      ∧ (p.done = false → p.keyp.event.pressed = true → p.keyp.tap = k.tap) := by
  have hnext : ∀ r : KeyRecord, (s.out ++ [Sent.record r]).filterMap Sent.passing
      = s.passing ++ [(false,r.event)] := fun r => by simp [State.passing, Sent.passing]
  have ho := @processTapping_outcome cfg k s
  generalize processTapping cfg k s = p at ho
  cases ho with
  | skip ht hset => exact ⟨rfl, rfl, hs, .skip rfl hset ht rfl, fun h => by cases h⟩
  | other tk ht hu _ _ htk hset =>
    have hu' : State.undecided ⟨tk,s.waitingBuffer,s.out ++ [.record k]⟩ = s.undecided := by
      rcases htk with rfl | rfl <;> rfl
    exact ⟨rfl, rfl, hs, .pass rfl hset ht hu (hu'.trans hu) (hnext k), fun h => by cases h⟩
  | tapRelease tk ht _ _ _ _ hp htk hset =>
    refine ⟨rfl, rfl, hs, .pass rfl hset ht ?_ ?_ (hnext _), fun h => by cases h⟩
    · simp [State.undecided]
      omega
    · rcases htk with rfl | rfl <;> simp [State.undecided, State.active, hp]
  | again tap ht _ hrel _ _ hc hset =>
    refine ⟨rfl, rfl, hs, .pass rfl hset ht ?_ ?_ (hnext _), fun h => by cases h⟩
    · simp [State.undecided, hrel]
    · simp [State.undecided]
      omega
  | early ht hu hp hty hne hset =>
    exact ⟨rfl, rfl, hs, .early rfl hset ht hu rfl hp hty hne
      (by simp [State.passing, State.send, Sent.passing]), fun h => by cases h⟩
  | take ht hu hp htap hset =>
    have hc := (hk.resolve_left (by simp [ht])).2 hp
    obtain ⟨hpass, hbuf⟩ := unregister_passing k s
    rcases @scanTap_cases cfg { unregister k s with tappingKey := k } hp hc with
      ⟨-, he⟩ | ⟨m, hm, he⟩
    · rw [he]
      refine ⟨rfl, by simp [State.buffered, hbuf], ?_, .take rfl hset ht hu ?_ rfl hpass,
        fun h => by cases h⟩
      · show ∀ b ∈ (unregister k s).waitingBuffer, Fresh b
        rw [hbuf]
        exact hs
      · simp [State.undecided, State.active, ht, hp, hc]
    · rw [he]
      simp only [hbuf] at hm
      refine ⟨rfl, markCandidate_events hm, markCandidate_fresh hm hs, .pass rfl hset ht hu ?_ ?_,
        fun h => by cases h⟩
      · simp [State.undecided]
      · simp only [State.passing, List.filterMap_append] at hpass ⊢
        rw [hpass]
        rfl
  | restart ht ha hrel hkey hp hset =>
    have hc := (hk.resolve_left (by simp [ht])).2 hp
    refine ⟨rfl, rfl, hs, .take rfl hset ht ?_ ?_ rfl rfl, fun h => by cases h⟩
    · simp [State.undecided, hrel]
    · simp [State.undecided, State.active, ht, hp, hc]
  | wait tk ht hu _ htk hset =>
    refine ⟨rfl, rfl, hs, .wait rfl hset hu ?_ ?_ rfl, fun _ _ => rfl⟩
    · rcases htk with rfl | rfl <;> exact hu
    · rcases htk with rfl | rfl <;> rfl
  | settle tk hu htk hset =>
    refine ⟨rfl, rfl, hs, .settle rfl hset hu ?_ ?_, fun _ _ => rfl⟩
    · simp [State.undecided, State.active]
    · refine (hnext tk).trans ?_
      rcases htk with rfl | rfl <;> rfl
  | firstTap ht hu hkey hp hset =>
    exact ⟨rfl, rfl, hs, .settle rfl hset hu (by simp [State.undecided]) (hnext _),
      fun _ h => by simp [hp] at h⟩
  | expire ha hrel hset =>
    refine ⟨rfl, rfl, hs, .expire rfl hset ?_ ?_ rfl, fun _ _ => rfl⟩
    · simp [State.undecided, hrel]
    · simp [State.undecided, State.active]

def popped (cfg : Config) (k : KeyRecord) (s : State) : State :=
  let p := processTapping cfg k s
  if p.done then { p.state with waitingBuffer := p.state.waitingBuffer.tail }
  else { p.state with waitingBuffer := p.keyp :: p.state.waitingBuffer.tail }

theorem drain_cons {s : State} {k : KeyRecord} {rest : List KeyRecord}
    (h : s.waitingBuffer = k :: rest) (n : Nat) :
    drain cfg (n+1) s = if (processTapping cfg k s).done then drain cfg n (popped cfg k s)
      else popped cfg k s := by
  simp only [drain, h, popped]
  split <;> rfl

theorem drain_keeps {P : State → Prop}
    (hstep : ∀ s k rest, s.waitingBuffer = k :: rest → P s → P (popped cfg k s)) (n : Nat)
    (s : State) (h : P s) : P (drain cfg n s) := by
  induction n generalizing s with
  | zero => exact h
  | succ n ih =>
    cases hb : s.waitingBuffer with
    | nil => simpa only [drain, hb] using h
    | cons k rest =>
      rw [drain_cons hb]
      split
      · exact ih _ (hstep s k rest hb h)
      · exact hstep s k rest hb h

structure Round (cfg : Config) (k : KeyRecord) (s : State) : Prop where
  wf : (popped cfg k s).Wf
  effect : Effect cfg k s (processTapping cfg k s)
  passing : (popped cfg k s).passing = (processTapping cfg k s).state.passing
  undecided : (popped cfg k s).undecided = (processTapping cfg k s).state.undecided
  tappingKey : (popped cfg k s).tappingKey = (processTapping cfg k s).state.tappingKey
  buffered : (popped cfg k s).buffered
    = if (processTapping cfg k s).done then s.buffered.tail else s.buffered

theorem popped_round {s : State} {k : KeyRecord} {rest : List KeyRecord}
    (h : s.waitingBuffer = k :: rest) (hs : s.Wf) : Round cfg k s := by
  have hk : Fresh k := hs k (by rw [h]; exact List.mem_cons_self)
  obtain ⟨he, hb, hw, heff, hkeep⟩ := @processTapping_effect cfg k s (.inr hk) hs
  have htail : ((processTapping cfg k s).state.waitingBuffer.tail).map KeyRecord.event
      = s.buffered.tail := by
    rw [← hb]
    exact List.map_tail
  constructor
  · simp only [popped]
    split
    · exact fun b hb => hw b (List.mem_of_mem_tail hb)
    · rename_i hd
      rw [Bool.not_eq_true] at hd
      intro b hb
      rcases List.mem_cons.mp hb with rfl | hb
      · refine ⟨by rw [he]; exact hk.1, fun hp => ?_⟩
        rw [hkeep hd hp]
        exact hk.2 (by rw [← he]; exact hp)
      · exact hw b (List.mem_of_mem_tail hb)
  · exact heff
  · simp only [popped]
    split <;> rfl
  · simp only [popped]
    split <;> rfl
  · simp only [popped]
    split <;> rfl
  · simp only [popped]
    split
    · exact htail
    · show _ :: _ = _
      rw [htail, he]
      simp [State.buffered, h]

theorem processTapping_out (k : KeyRecord) (s : State) :
    s.out <+: (processTapping cfg k s).state.out := by
  have hun : s.out <+: (unregister k s).out := by
    unfold unregister
    split
    · exact List.prefix_append _ _
    · exact List.prefix_refl _
  have hscan : ∀ t : State, t.out <+: (waitingBufferScanTap cfg t).out := fun t => by
    unfold waitingBufferScanTap
    split
    · exact List.prefix_refl _
    · split
      · exact List.prefix_refl _
      · exact List.prefix_append _ _
  have ho := @processTapping_outcome cfg k s
  generalize processTapping cfg k s = p at ho
  cases ho with
  | skip | restart | wait | expire => exact List.prefix_refl _
  | other | tapRelease | again | early | settle | firstTap => exact List.prefix_append _ _
  | take => exact hun.trans (hscan { unregister k s with tappingKey := k })

theorem popped_out (k : KeyRecord) (s : State) : s.out <+: (popped cfg k s).out := by
  have h := @processTapping_out cfg k s
  simp only [popped]
  split <;> exact h

theorem receive_out (k : KeyRecord) (s : State) : s.out <+: (receive cfg k s).out := by
  have h := @processTapping_out cfg k s
  simp only [receive, waitingBufferEnq]
  split
  · exact h
  · split
    · exact h
    · split
      · exact h.trans (List.prefix_append _ _)
      · exact h

theorem drain_out (n : Nat) (s : State) : s.out <+: (drain cfg n s).out :=
  @drain_keeps cfg (fun t => s.out <+: t.out)
    (fun t k _ _ h => h.trans (popped_out k t)) n s (List.prefix_refl _)

theorem run_snoc (es : List KeyEvent) (e : KeyEvent) :
    run cfg (es ++ [e]) = actionTappingProcess cfg (run cfg es) e := by
  simp [run]

theorem run_out (es : List KeyEvent) (e : KeyEvent) :
    (receive cfg e.record (run cfg es)).out <+: (run cfg (es ++ [e])).out := by
  rw [run_snoc]
  exact drain_out _ _

theorem run_prefix_out {pre es : List KeyEvent} (h : pre <+: es) :
    (run cfg pre).out <+: (run cfg es).out := by
  obtain ⟨suf, rfl⟩ := h
  induction suf using List.reverseRecOn with
  | nil => simp only [List.append_nil, List.prefix_rfl]
  | append_singleton suf e ih =>
    rw [← List.append_assoc]
    exact ih.trans ((receive_out _ _).trans (run_out _ e))

structure Arrival (cfg : Config) (e : KeyEvent) (s : State) : Prop where
  wf : (receive cfg e.record s).Wf
  effect : Effect cfg e.record s (processTapping cfg e.record s)
  passing : (receive cfg e.record s).passing = (processTapping cfg e.record s).state.passing
  undecided : (receive cfg e.record s).undecided
    = (processTapping cfg e.record s).state.undecided
  tappingKey : (receive cfg e.record s).tappingKey
    = (processTapping cfg e.record s).state.tappingKey
  buffered : (receive cfg e.record s).buffered = s.buffered
    ++ if (processTapping cfg e.record s).done || e.isNoEvent then [] else [e]

theorem receive_arrival {s : State} {e : KeyEvent} (hs : s.Wf)
    (hroom : Sent.clearKeyboard ∉ (receive cfg e.record s).out) : Arrival cfg e s := by
  have hk : e.record.event.isNoEvent = true ∨ Fresh e.record := by
    cases h : e.isNoEvent with
    | true => exact .inl h
    | false => exact .inr ⟨h, fun _ => rfl⟩
  obtain ⟨he, hb, hw, heff, hkeep⟩ := @processTapping_effect cfg e.record s hk hs
  have hcase : receive cfg e.record s = (processTapping cfg e.record s).state
        ∧ ((processTapping cfg e.record s).done || e.isNoEvent) = true
      ∨ receive cfg e.record s = { (processTapping cfg e.record s).state with
          waitingBuffer := (processTapping cfg e.record s).state.waitingBuffer
            ++ [(processTapping cfg e.record s).keyp] }
        ∧ (processTapping cfg e.record s).done = false ∧ e.isNoEvent = false := by
    unfold receive waitingBufferEnq at hroom ⊢
    generalize processTapping cfg e.record s = p at he hroom ⊢
    have hne : p.keyp.event.isNoEvent = e.isNoEvent := by rw [he]; rfl
    cases hd : p.done with
    | true => exact .inl ⟨by simp [hd], by simp⟩
    | false =>
      simp only [hd, Bool.false_eq_true, if_false, hne] at hroom ⊢
      cases hn : e.isNoEvent with
      | true => exact .inl ⟨by simp, by simp⟩
      | false =>
        simp only [hn, Bool.false_eq_true, if_false] at hroom ⊢
        split
        · rename_i hfull
          rw [if_pos hfull] at hroom
          exact absurd (by simp [State.send]) hroom
        · exact .inr ⟨rfl, by simp, by simp⟩
  rcases hcase with ⟨hr, hor⟩ | ⟨hr, hd, hn⟩
  · exact ⟨by rw [hr]; exact hw, heff, by rw [hr], by rw [hr], by rw [hr],
      by rw [hr, hb, if_pos hor, List.append_nil]⟩
  · refine ⟨?_, heff, by rw [hr]; rfl, by rw [hr]; rfl, by rw [hr], ?_⟩
    · rw [hr]
      intro b hmem
      rcases List.mem_append.mp hmem with hmem | hmem
      · exact hw b hmem
      · rw [List.mem_singleton.mp hmem]
        exact ⟨by rw [he]; exact hn, fun hp => by rw [hkeep hd hp]; rfl⟩
    · rw [hr, hd, hn, ← hb]
      simp only [State.buffered, List.map_append, List.map_cons, List.map_nil, he]
      rfl

theorem run_wf (es : List KeyEvent) (hroom : Sent.clearKeyboard ∉ (run cfg es).out) :
    (run cfg es).Wf := by
  induction es using List.reverseRecOn with
  | nil => exact fun b hb => by cases hb
  | append_singleton es e ih =>
    have hrec := fun h => hroom ((run_out es e).subset h)
    have hwf := ih fun h => hrec ((receive_out _ _).subset h)
    rw [run_snoc]
    exact drain_keeps (fun s k rest hb hs => (popped_round hb hs).wf) _ _
      (receive_arrival hwf hrec).wf

end QmkFirmware.Tapping
