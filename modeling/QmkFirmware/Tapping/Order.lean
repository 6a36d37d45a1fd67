import QmkFirmware.Lib.Relay
import QmkFirmware.Tapping.Rounds

/-!
Order. While the tapping key is undecided events wait behind it. The drain loop stops at the
first record that is not consumed, also when that record has just settled the tapping key;
what is left in the buffer then is overtaken by the next event.
-/

set_option autoImplicit false

namespace QmkFirmware.Tapping

variable {cfg : Config}

/-- The key events of a run, without the ticks. -/
def arrivals (es : List KeyEvent) : List KeyEvent := es.filter fun e => !e.isNoEvent

/-- The unsettled press and the buffer behind it. -/
def State.waiting (s : State) : List KeyEvent := s.unsettled ++ s.buffered

def IsRelease (e : KeyEvent) : Prop := e.pressed = false

/-- No record that the drain loop tries settles or resets the tapping key without being
consumed. -/
def drainClean (cfg : Config) : Nat → State → Bool
  | 0, _ => true
  | n+1, s =>
    match s.waitingBuffer with
    | [] => true
    | k :: _ => !settles cfg s k &&
      if (processTapping cfg k s).done then drainClean cfg n (popped cfg k s) else true

theorem drainClean_cons {s : State} {k : KeyRecord} {rest : List KeyRecord}
    (h : s.waitingBuffer = k :: rest) (n : Nat) :
    drainClean cfg (n+1) s = (!settles cfg s k &&
      if (processTapping cfg k s).done then drainClean cfg n (popped cfg k s) else true) := by
  simp only [drainClean, h]

/-- The loop ends with an empty buffer or an undecided tapping key, unless it stopped at a
record that settled it. -/
theorem drain_end_iff (n : Nat) (s : State) (hs : s.Wf) (hn : s.waitingBuffer.length ≤ n) :
    ((drain cfg n s).buffered ≠ [] → (drain cfg n s).undecided = true)
      ↔ drainClean cfg n s = true := by
  induction n generalizing s with
  | zero =>
    have hnil : s.waitingBuffer = [] := List.length_eq_zero_iff.mp (by omega)
    simp [drain, drainClean, State.buffered, hnil]
  | succ n ih =>
    cases hb : s.waitingBuffer with
    | nil => simp [drain, drainClean, hb, State.buffered]
    | cons k rest =>
      have hr := @popped_round cfg s k rest hb hs
      rw [drain_cons hb, drainClean_cons hb]
      have hdone : (processTapping cfg k s).done = true → settles cfg s k = false →
          (((drain cfg n (popped cfg k s)).buffered ≠ [] →
              (drain cfg n (popped cfg k s)).undecided = true)
            ↔ (!settles cfg s k && drainClean cfg n (popped cfg k s)) = true) := by
        intro hd hset
        rw [hset, Bool.not_false, Bool.true_and]
        refine ih _ hr.wf ?_
        have hlen := congrArg List.length hr.buffered
        simp only [State.buffered, hd, if_true, List.length_tail, List.length_map, hb,
          List.length_cons] at hlen
        rw [hb, List.length_cons] at hn
        omega
      cases hr.effect with
      | skip hd hset | pass hd hset | early hd hset | take hd hset =>
        rw [if_pos hd, if_pos hd]
        exact hdone hd hset
      | wait hd hset _ hu =>
        simp [hd, hset, hr.undecided, hu]
      | settle hd hset _ hu | expire hd hset _ hu =>
        have hne : (popped cfg k s).buffered ≠ [] := by
          rw [hr.buffered, hd]
          simp [State.buffered, hb]
        simp [hd, hset, hr.undecided, hu, hne]

structure InLine (arrived : List KeyEvent) (s : State) : Prop where
  wf : s.Wf
  order : Relay.InOrder IsRelease arrived s.passing s.waiting

theorem unsettled_of {s : State} (h : s.undecided = true) :
    s.unsettled = [s.tappingKey.event] := if_pos h

theorem unsettled_nil {s : State} (h : s.undecided = false) : s.unsettled = [] := by
  rw [State.unsettled, h]
  rfl

theorem popped_inLine {arrived : List KeyEvent} {s : State} {k : KeyRecord}
    {rest : List KeyRecord} (hb : s.waitingBuffer = k :: rest) (h : InLine arrived s) :
    InLine arrived (popped cfg k s) := by
  have hr := @popped_round cfg s k rest hb h.wf
  have hbuf : s.buffered = k.event :: rest.map KeyRecord.event := by
    simp [State.buffered, hb]
  refine ⟨hr.wf, ?_⟩
  have ho := h.order
  have hb' := hr.buffered
  have hp := hr.passing
  have hu' := hr.undecided
  have ht := hr.tappingKey
  rw [State.waiting, hbuf] at ho
  rw [hbuf] at hb'
  rw [State.waiting, hb', hp]
  cases hr.effect with
  | skip _ _ htick =>
    have := (h.wf k (by rw [hb]; exact List.mem_cons_self)).1
    simp [this] at htick
  | pass hd _ _ hu hu₂ hpass =>
    rw [unsettled_nil hu] at ho
    rw [unsettled_nil (hu'.trans hu₂), hd, hpass]
    exact ho.next
  | early hd _ _ hu htk hrel _ _ hpass =>
    rw [unsettled_of hu] at ho
    have hu₂ : (popped cfg k s).undecided = true := by
      rw [hu', State.undecided, State.active, htk]
      exact hu
    rw [unsettled_of hu₂, ht, htk, hd, hpass]
    exact ho.overtake hrel
  | take hd _ _ hu hu₂ htk hpass =>
    rw [unsettled_nil hu] at ho
    rw [unsettled_of (hu'.trans hu₂), ht, htk, hd, hpass]
    exact ho
  | wait hd _ hu hu₂ htk hpass =>
    rw [unsettled_of hu] at ho
    rw [unsettled_of (hu'.trans hu₂), ht, htk, hd, hpass]
    exact ho
  | settle hd _ hu hu₂ hpass =>
    rw [unsettled_of hu] at ho
    rw [unsettled_nil (hu'.trans hu₂), hd, hpass]
    exact ho.next
  | expire hd _ hu hu₂ hpass =>
    rw [unsettled_nil hu] at ho
    rw [unsettled_nil (hu'.trans hu₂), hd, hpass]
    exact ho

theorem receive_inLine {arrived : List KeyEvent} {s : State} {e : KeyEvent}
    (hroom : Sent.clearKeyboard ∉ (receive cfg e.record s).out) (h : InLine arrived s)
    (hline : s.buffered ≠ [] → s.undecided = true) :
    InLine (arrived ++ arrivals [e]) (receive cfg e.record s) := by
  have hr := receive_arrival h.wf hroom
  refine ⟨hr.wf, ?_⟩
  have ho := h.order
  have hb := hr.buffered
  have hp := hr.passing
  have hu' := hr.undecided
  have ht := hr.tappingKey
  have hempty : s.undecided = false → s.buffered = [] := fun hu => by
    by_contra hne
    simp [hline hne] at hu
  rw [State.waiting] at ho
  rw [State.waiting, hb, hp]
  cases htick : e.isNoEvent with
  | true =>
    rw [show arrivals [e] = [] by simp [arrivals, htick], List.append_nil, Bool.or_true,
      if_pos rfl, List.append_nil]
    have hno : e.record.event.isNoEvent = true := htick
    cases hr.effect with
    | skip _ _ _ hst =>
      have hu : (receive cfg e.record s).undecided = s.undecided := by rw [hu', hst]
      rw [State.unsettled, hu, ht, hst]
      exact ho
    | pass _ _ hne | early _ _ hne | take _ _ hne => simp [hne] at hno
    | wait _ _ hu hu₂ htk hpass =>
      rw [unsettled_of hu] at ho
      rw [unsettled_of (hu'.trans hu₂), ht, htk, hpass]
      exact ho
    | settle _ _ hu hu₂ hpass =>
      rw [unsettled_of hu] at ho
      rw [unsettled_nil (hu'.trans hu₂), hpass]
      exact ho.next
    | expire _ _ hu hu₂ hpass =>
      rw [unsettled_nil hu] at ho
      rw [unsettled_nil (hu'.trans hu₂), hpass]
      exact ho
  | false =>
    rw [show arrivals [e] = [e] by simp [arrivals, htick], Bool.or_false]
    have ho := ho.arrive e
    rw [List.append_assoc] at ho
    cases hr.effect with
    | skip _ _ hno => simp [show e.record.event.isNoEvent = false from htick] at hno
    | pass hd _ _ hu hu₂ hpass =>
      rw [unsettled_nil hu, hempty hu] at ho
      rw [unsettled_nil (hu'.trans hu₂), hempty hu, hd, hpass]
      exact ho.next
    | early hd _ _ hu htk hrel _ _ hpass =>
      rw [unsettled_of hu, ← List.append_assoc] at ho
      have hu₂ : (receive cfg e.record s).undecided = true := by
        rw [hu', State.undecided, State.active, htk]
        exact hu
      rw [unsettled_of hu₂, ht, htk, hd, hpass, if_pos rfl, ← List.append_assoc]
      exact @Relay.InOrder.overtake _ _ _ _ _ [] _ hrel ho
    | take hd _ _ hu hu₂ htk hpass =>
      rw [unsettled_nil hu, hempty hu] at ho
      rw [unsettled_of (hu'.trans hu₂), hempty hu, ht, htk, hd, hpass]
      exact ho
    | wait hd _ hu hu₂ htk hpass =>
      rw [unsettled_of hu] at ho
      rw [unsettled_of (hu'.trans hu₂), ht, htk, hd, hpass]
      exact ho
    | settle hd _ hu hu₂ hpass =>
      rw [unsettled_of hu] at ho
      rw [unsettled_nil (hu'.trans hu₂), hd, hpass]
      exact ho.next
    | expire hd _ hu hu₂ hpass =>
      rw [unsettled_nil hu] at ho
      rw [unsettled_nil (hu'.trans hu₂), hd, hpass]
      exact ho

/-- No call of the run drains onto a record that settles the tapping key. -/
def RunClean (cfg : Config) (es : List KeyEvent) : Prop := ∀ pre e, pre ++ [e] <+: es →
  drainClean cfg (receive cfg e.record (run cfg pre)).waitingBuffer.length
    (receive cfg e.record (run cfg pre)) = true

/-- Whenever a call returns, what is in the buffer waits for an undecided tapping key. -/
def NothingParked (cfg : Config) (es : List KeyEvent) : Prop := ∀ pre, pre <+: es →
  (run cfg pre).buffered ≠ [] → (run cfg pre).undecided = true

theorem nothingParked_iff (es : List KeyEvent)
    (hroom : Sent.clearKeyboard ∉ (run cfg es).out) :
    NothingParked cfg es ↔ RunClean cfg es := by
  have hcall : ∀ pre e, pre ++ [e] <+: es →
      (((run cfg (pre ++ [e])).buffered ≠ [] → (run cfg (pre ++ [e])).undecided = true)
        ↔ drainClean cfg (receive cfg e.record (run cfg pre)).waitingBuffer.length
          (receive cfg e.record (run cfg pre)) = true) := by
    intro pre e h
    have hrec := fun hm => hroom ((run_prefix_out h).subset ((run_out pre e).subset hm))
    have hpre := fun hm => hrec ((receive_out _ _).subset hm)
    rw [run_snoc]
    exact drain_end_iff _ _ (receive_arrival (run_wf pre hpre) hrec).wf (Nat.le_refl _)
  constructor
  · exact fun h pre e hpre => (hcall pre e hpre).mp (h _ hpre)
  · intro h pre hpre
    cases hrev : pre using List.reverseRecOn with
    | nil => exact fun hne => absurd rfl hne
    | append_singleton pre' e =>
      rw [hrev] at hpre
      exact (hcall pre' e hpre).mpr (h pre' e hpre)

theorem arrivals_append (es fs : List KeyEvent) :
    arrivals (es ++ fs) = arrivals es ++ arrivals fs := List.filter_append es fs

theorem run_inLine (es : List KeyEvent) (hroom : Sent.clearKeyboard ∉ (run cfg es).out)
    (hclean : NothingParked cfg es) : InLine (arrivals es) (run cfg es) := by
  induction es using List.reverseRecOn with
  | nil => exact ⟨fun b hb => (by cases hb), .start⟩
  | append_singleton es e ih =>
    have hrec := fun h => hroom ((run_out es e).subset h)
    have hpre : es <+: es ++ [e] := List.prefix_append _ _
    have hline := ih (fun h => hrec ((receive_out _ _).subset h))
      fun pre h => hclean pre (h.trans hpre)
    rw [run_snoc, arrivals_append]
    exact drain_keeps (fun s k rest hb hs => popped_inLine hb hs) _ _
      (receive_inLine hrec hline (hclean es hpre))

/-- Runs in which no buffered record that the drain loop tries settles the tapping key without
being consumed are exactly those in which the buffer is only ever left waiting for an
undecided key. In them events are passed on in the order of arrival, but for the releases
that the branch for keys pressed before the tapping key passes ahead. -/
theorem buffer_waits_iff (cfg : Config) (es : List KeyEvent)
    (hroom : Sent.clearKeyboard ∉ (run cfg es).out) :
    (NothingParked cfg es ↔ RunClean cfg es) ∧
    (RunClean cfg es →
      Relay.InOrder IsRelease (arrivals es) (run cfg es).passing (run cfg es).waiting
      ∧ (run cfg es).passed.filter KeyEvent.pressed
          ++ (run cfg es).waiting.filter KeyEvent.pressed
        = (arrivals es).filter KeyEvent.pressed) := by
  have hiff := nothingParked_iff es hroom
  refine ⟨hiff, fun hclean => ?_⟩
  have horder := (run_inLine es hroom (hiff.mpr hclean)).order
  exact ⟨horder, horder.filter KeyEvent.pressed fun e he => he⟩

def keyT : KeyPos := ⟨0,0⟩
def keyH : KeyPos := ⟨0,1⟩
def keyX : KeyPos := ⟨0,2⟩

def rollConfig : Config where
  action k := if k = keyT then 0x2104 else if k = keyH then 0x2205 else 0x0006
  tappingTerm _ := 200
  quickTapTerm _ := 200
  permissiveHold _ := false
  holdOnOtherKeyPress tk := tk.event.key = keyH

def press (k : KeyPos) (time : UInt16) : KeyEvent := ⟨k,time,.key,true⟩
def release (k : KeyPos) (time : UInt16) : KeyEvent := ⟨k,time,.key,false⟩
def tickAt (time : UInt16) : KeyEvent := ⟨⟨0,0⟩,time,.tick,false⟩

/-- The first key times out, the second one becomes the tapping key and is settled by the
buffered press, which stays in the buffer. -/
theorem press_left_parked :
    let es := [press keyT 0,press keyH 10,press keyX 20,tickAt 200]
    (run rollConfig es).buffered = [press keyX 20] ∧ (run rollConfig es).undecided = false
      ∧ ¬ NothingParked rollConfig es := by
  refine ⟨by decide +kernel, by decide +kernel, fun h => ?_⟩
  have hund := h _ (List.prefix_refl _) (by decide +kernel)
  revert hund
  decide +kernel

theorem buffer_waits_roll :
    NothingParked rollConfig [press keyT 0,press keyX 20,release keyX 30] :=
  (buffer_waits_iff rollConfig [press keyT 0,press keyX 20,release keyX 30]
    (by decide +kernel)).1.mpr (by
    intro pre e h
    rcases pre with _ | ⟨a, _ | ⟨b, _ | ⟨c, pre⟩⟩⟩
    · obtain rfl : e = press keyT 0 := by simpa using h
      decide +kernel
    · obtain ⟨rfl, rfl⟩ : a = press keyT 0 ∧ e = press keyX 20 := by simpa using h
      decide +kernel
    · obtain ⟨rfl, rfl, rfl⟩ : a = press keyT 0 ∧ b = press keyX 20 ∧ e = release keyX 30 := by
        simpa using h
      decide +kernel
    · simp at h)

end QmkFirmware.Tapping
