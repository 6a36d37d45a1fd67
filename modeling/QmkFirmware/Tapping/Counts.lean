import QmkFirmware.Tapping.TapHold

/-!
Tap counts, and what a regular round of the engine passes on.
-/

set_option autoImplicit false

namespace QmkFirmware.Tapping

variable {cfg : Config}

/-- A record answers the one of its key before it: presses and releases are in turn, and a release
has the count of its press. -/
structure Answers (p r : KeyRecord) : Prop where
  turn : p.event.pressed ≠ r.event.pressed
  count : r.event.pressed = false → r.tap.count = p.tap.count

structure Counted (σ : Side) : Prop where
  matched : σ.sent.IsChain fun p r =>
    p.event.pressed = true → r.event.pressed = false → r.tap.count = p.tap.count
  stage : ∀ n p, σ.stage = .tapped n → σ.sent.getLast? = some p → p.tap.count = n
  away : ∀ p, σ.stage = .away → σ.sent.getLast? = some p → p.event.pressed = true → p.tap.count ≤ 1
  head : ∀ b, σ.buffer.head? = some b → b.tap.count ≤ 1

theorem counted_nil : Counted ⟨[],.away,[]⟩ := ⟨.nil,nofun,nofun,nofun⟩

theorem head_behind {k : KeyRecord} {buffer : List KeyRecord}
    (h : ∀ b ∈ (k :: buffer).tail, b.tap.count = 0) (b : KeyRecord) (hb : buffer.head? = some b) :
    b.tap.count ≤ 1 := by
  have := h b (List.mem_of_head? hb)
  omega

theorem Side.Step.counted {σ τ : Side} (h : Side.Step σ τ) (hσ : Aligned σ) (hc : Counted σ) :
    Counted τ := by
  obtain ⟨hmatched,hstage,haway,hhead⟩ := hc
  have hsnoc : ∀ {sent : List KeyRecord} {k : KeyRecord},
      (sent.IsChain fun p r =>
        p.event.pressed = true → r.event.pressed = false → r.tap.count = p.tap.count) →
      (∀ p, sent.getLast? = some p → p.event.pressed = true → k.event.pressed = false →
        k.tap.count = p.tap.count) →
      (sent ++ [k]).IsChain fun p r =>
        p.event.pressed = true → r.event.pressed = false → r.tap.count = p.tap.count := by
    intro sent k hsent hk
    rw [List.isChain_append]
    exact ⟨hsent,.singleton _,fun p hp r hr => by cases hr; exact hk p hp⟩
  cases h with
  | pass k =>
    -- a release is a tap as its press is, and neither counts past one
    refine ⟨hsnoc hmatched fun p hp hpressed hreleased => ?_,nofun,fun p _ hp _ => ?_,
      head_behind hσ.behind⟩
    · have hkind := (List.isChain_append.mp ((Side.Step.pass k).aligned hσ).matched).2.2 p hp k rfl
        hpressed hreleased
      have hp1 := haway p rfl hp hpressed
      have hk1 := hhead k rfl
      omega
    · rw [List.getLast?_concat, Option.some.injEq] at hp
      exact hp ▸ hhead k rfl
  | release k k' hn he hk hk' =>
    refine ⟨hsnoc hmatched fun p hp _ _ => hk.trans (hstage _ p rfl hp).symm,nofun,
      fun p _ hp hpressed => ?_,head_behind hσ.behind⟩
    rw [List.getLast?_concat, Option.some.injEq] at hp
    rw [← hp, he, hk'] at hpressed
    contradiction
  | again k k' hn he hk hk' =>
    refine ⟨hsnoc hmatched fun p _ _ hreleased => ?_,fun n p hn hp => ?_,nofun,
      head_behind hσ.behind⟩
    · rw [he, hk'] at hreleased
      contradiction
    · rw [List.getLast?_concat, Option.some.injEq] at hp
      rw [← hp, hk]
      exact Stage.tapped.inj hn
  | take k hk => exact ⟨hmatched,nofun,nofun,head_behind hσ.behind⟩
  | settle tk htk hcount =>
    refine ⟨hsnoc hmatched fun p _ _ hreleased => ?_,nofun,fun p _ hp _ => ?_,hhead⟩
    · rw [htk] at hreleased
      contradiction
    · rw [List.getLast?_concat, Option.some.injEq] at hp
      rw [← hp, hcount]
      exact Nat.zero_le _
  | firstTap tk k k' htk hcount he hk' =>
    refine ⟨hsnoc hmatched fun p _ _ hreleased => ?_,fun n p hn hp => ?_,nofun,fun b hb => ?_⟩
    · rw [htk] at hreleased
      contradiction
    · rw [List.getLast?_concat, Option.some.injEq] at hp
      rw [← hp, hcount]
      exact Stage.tapped.inj hn
    · rw [List.head?_cons, Option.some.injEq] at hb
      exact hb ▸ hk'.le
  | replaced => exact ⟨hmatched,nofun,fun p _ hp _ => (hstage 1 p rfl hp).le,hhead⟩

theorem Side.Steps.counted {σ τ : Side} (h : Side.Steps σ τ) (hσ : Aligned σ) (hc : Counted σ) :
    Counted τ := by
  induction h with
  | refl => exact hc
  | tail hsteps hstep ih => exact hstep.counted (Side.Steps.aligned hsteps hσ) ih

theorem Counted.answers {σ : Side} (hσ : Aligned σ) (hc : Counted σ) : σ.sent.IsChain Answers := by
  have halt := (List.isChain_map KeyRecord.event).mp (List.isChain_append.mp hσ.alternates).1
  have hmatched := hc.matched
  rw [List.isChain_iff_getElem] at halt hmatched ⊢
  intro i hi
  refine ⟨halt i hi,fun hr => hmatched i hi ?_ hr⟩
  simpa [hr] using halt i hi

theorem Counted.arrive {σ : Side} (hc : Counted σ) (e : KeyEvent) : Counted (σ.arrive e) where
  matched := hc.matched
  stage := hc.stage
  away := hc.away
  head b hb := by
    rw [Side.arrive, List.head?_append] at hb
    cases h : σ.buffer.head? with
    | none =>
      rw [h] at hb
      cases hb
      exact Nat.zero_le _
    | some _ =>
      rw [h] at hb
      cases hb
      exact hc.head _ h

def Appends (s : State) (out : List Sent) : Prop :=
  ∃ new, out = s.out ++ new ∧ ∀ x ∈ new, ∃ r, x.passedRecord = some r

theorem Appends.none (s : State) : Appends s s.out := ⟨[],(List.append_nil _).symm,nofun⟩

theorem Appends.one (s : State) {x : Sent} {r : KeyRecord} (h : x.passedRecord = some r) :
    Appends s (s.out ++ [x]) := ⟨[x],rfl,fun _ hy => ⟨r,List.mem_singleton.mp hy ▸ h⟩⟩

theorem scanTap_appends (s : State) : Appends s (waitingBufferScanTap cfg s).out := by
  unfold waitingBufferScanTap
  split
  · exact .none s
  · split
    · exact .none s
    · exact .one s rfl

theorem processTapping_appends {k : KeyRecord} {s : State}
    (h : k.event.isNoEvent = true ∨ replacesMulti cfg s k = false) :
    Appends s (processTapping cfg k s).state.out := by
  have ho := @processTapping_outcome cfg k s
  generalize processTapping cfg k s = p at ho
  cases ho with
  | skip | restart | wait | expire => exact .none s
  | other | tapRelease | again | early | settle | firstTap => exact .one s rfl
  | take hevent hu hpressed htap =>
    have hsame : unregister k s = s := by
      unfold unregister
      refine if_neg fun hmulti => ?_
      rw [hevent, Bool.false_eq_true, false_or] at h
      simp only [Bool.and_eq_true] at hmulti
      simp [replacesMulti, hpressed, htap, hmulti.1.1, hmulti.1.2, hmulti.2] at h
    rw [hsame]
    exact @scanTap_appends cfg { s with tappingKey := k }

theorem popped_appends {k : KeyRecord} {s : State} (h : replacesMulti cfg s k = false) :
    Appends s (popped cfg k s).out := by
  have happends := @processTapping_appends cfg k s (.inr h)
  simp only [popped]
  split
  · exact happends
  · exact happends

theorem receive_appends {e : KeyEvent} {s : State}
    (h : e.isNoEvent = true ∨ replacesMulti cfg s e.record = false)
    (hroom : Sent.clearKeyboard ∉ (receive cfg e.record s).out) :
    Appends s (receive cfg e.record s).out := by
  have happends := @processTapping_appends cfg e.record s h
  simp only [receive, waitingBufferEnq] at hroom ⊢
  split
  · exact happends
  · rename_i hd
    rw [if_neg hd] at hroom
    split
    · exact happends
    · rename_i hevent
      rw [if_neg hevent] at hroom
      split
      · rename_i hfull
        rw [if_pos hfull] at hroom
        exact absurd (List.mem_append_right _ List.mem_cons_self) hroom
      · exact happends

end QmkFirmware.Tapping
