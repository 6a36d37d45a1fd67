import QmkFirmware.TapDance.Core

/-!
At most one dance is unfinished, and every dance is finished at most once and reset once.
-/

set_option autoImplicit false

namespace QmkFirmware.TapDance

inductive Phase where
  | free | tapping | finished
  deriving DecidableEq, Repr

def Phase.next : Phase → Callback → Option Phase
  | .free, .tap => some .tapping
  | .tapping, .tap => some .tapping
  | .tapping, .finished => some .finished
  | .tapping, .release => some .tapping
  | .finished, .release => some .finished
  | .tapping, .reset => some .free
  | .finished, .reset => some .free
  | _, _ => none

/-- The callbacks of one dance, if they come in the order of one life after another: taps, with
releases, finished at most once, and reset. -/
def lifeOf (idx : UInt8) (calls : List (UInt8 × Callback)) : Option Phase :=
  calls.foldl (fun phase c => if c.1 = idx then phase.bind (·.next c.2) else phase) (some .free)

theorem lifeOf_snoc (idx j : UInt8) (c : Callback) (calls : List (UInt8 × Callback)) :
    lifeOf idx (calls ++ [(j,c)])
      = if j = idx then (lifeOf idx calls).bind (·.next c) else lifeOf idx calls := by
  rw [lifeOf, List.foldl_append]
  rfl

section
variable {Ω κ : Type} {cfg : Config Ω} (m : Keymap κ)

def Down (held : κ → Bool) (idx : UInt8) : Prop :=
  ∃ key, m.keycode key = .tapDance idx ∧ held key = true

/-- What a dance's state says, its callbacks and its key. -/
structure Sound (s : State cfg) (held : κ → Bool) : Prop where
  unique : ∀ a b, (s.states a).inUse = true → (s.states b).inUse = true →
    (s.states a).index = (s.states b).index → a = b
  blank : ∀ a, (s.states a).inUse = false → s.states a = .unused
  inRange : ∀ a, (s.states a).inUse = true → (s.states a).index.toNat < cfg.tapDanceCount
  active : ∀ a, (s.states a).inUse = true → (s.states a).finished = false →
    s.activeTd = some (s.states a).index
  used : ∀ idx, s.activeTd = some idx →
    ∃ a, (s.states a).inUse = true ∧ (s.states a).index = idx ∧ (s.states a).finished = false
  down : ∀ a, (s.states a).inUse = true →
    ((s.states a).pressed = true ↔ Down m held (s.states a).index)
  done : ∀ a, (s.states a).inUse = true → (s.states a).finished = true →
    (s.states a).pressed = true
  life : ∀ idx, ∃ p, lifeOf idx s.calls = some p
    ∧ (p = .free ↔ ∀ a, (s.states a).inUse = true → (s.states a).index ≠ idx)
    ∧ (p = .finished → ∀ a, (s.states a).inUse = true → (s.states a).index = idx →
      (s.states a).finished = true)

variable {m} {s : State cfg} {held held' : κ → Bool} {idx : UInt8} {a : Fin cfg.maxSimultaneous}

structure Touches (m : Keymap κ) (s : State cfg) (held held' : κ → Bool) (idx : UInt8)
    (a : Fin cfg.maxSimultaneous) (d : DanceState) (s' : State cfg) : Prop where
  states : s'.states = Function.update s.states a d
  blank : d.inUse = false → d = .unused
  inRange : idx.toNat < cfg.tapDanceCount
  own : ∀ b, (s.states b).inUse = true → (s.states b).index = idx → b = a
  slot : (s.states a).inUse = true → (s.states a).index = idx
  index : d.inUse = true → d.index = idx
  others : ∀ b ≠ a, (s.states b).inUse = true → (s.states b).finished = false →
    s'.activeTd = some (s.states b).index
  active : d.inUse = true → d.finished = false → s'.activeTd = some idx
  used : ∀ j, s'.activeTd = some j →
    j = idx ∧ d.inUse = true ∧ d.finished = false ∨ j ≠ idx ∧ s.activeTd = some j
  down : d.inUse = true → (d.pressed = true ↔ Down m held' idx)
  done : d.inUse = true → d.finished = true → d.pressed = true
  held : ∀ j ≠ idx, Down m held' j ↔ Down m held j
  calls : ∀ j ≠ idx, lifeOf j s'.calls = lifeOf j s.calls
  life : ∃ p, lifeOf idx s'.calls = some p ∧ (p = .free ↔ d.inUse = false)
    ∧ (p = .finished → d.finished = true)

theorem Sound.touch {d : DanceState} {s' : State cfg} (h : Sound m s held)
    (ht : Touches m s held held' idx a d s') : Sound m s' held' := by
  have hself : s'.states a = d := by rw [ht.states, Function.update_self]
  have hother : ∀ b ≠ a, s'.states b = s.states b := fun b hb => by
    rw [ht.states, Function.update_of_ne hb]
  have hne : ∀ b ≠ a, (s.states b).inUse = true → (s.states b).index ≠ idx :=
    fun b hb hu he => hb (ht.own b hu he)
  refine ⟨fun b c hb hc he => ?_,fun b hb => ?_,fun b hb => ?_,
    fun b hb hf => ?_,fun j hj => ?_,fun b hb => ?_,
    fun b hb hf => ?_,fun j => ?_⟩
  · by_cases hba : b = a <;> by_cases hca : c = a
    · rw [hba, hca]
    · subst hba
      rw [hself] at hb he
      rw [hother c hca] at hc he
      exact absurd (he.symm.trans (ht.index hb)) (hne c hca hc)
    · subst hca
      rw [hself] at hc he
      rw [hother b hba] at hb he
      exact absurd (he.trans (ht.index hc)) (hne b hba hb)
    · rw [hother b hba] at hb he
      rw [hother c hca] at hc he
      exact h.unique b c hb hc he
  · by_cases hba : b = a
    · subst hba
      rw [hself] at hb ⊢
      exact ht.blank hb
    · rw [hother b hba] at hb ⊢
      exact h.blank b hb
  · by_cases hba : b = a
    · subst hba
      rw [hself] at hb ⊢
      rw [ht.index hb]
      exact ht.inRange
    · rw [hother b hba] at hb ⊢
      exact h.inRange b hb
  · by_cases hba : b = a
    · subst hba
      rw [hself] at hb hf ⊢
      rw [ht.index hb]
      exact ht.active hb hf
    · rw [hother b hba] at hb hf ⊢
      exact ht.others b hba hb hf
  · rcases ht.used j hj with ⟨rfl, hu, hf⟩ | ⟨hji, hj⟩
    · exact ⟨a, by rw [hself]; exact ⟨hu,ht.index hu,hf⟩⟩
    · obtain ⟨b, hb, hbj, hf⟩ := h.used j hj
      have hba : b ≠ a := by
        rintro rfl
        exact hji (hbj.symm.trans (ht.slot hb))
      exact ⟨b, by rw [hother b hba]; exact ⟨hb,hbj,hf⟩⟩
  · by_cases hba : b = a
    · subst hba
      rw [hself] at hb ⊢
      rw [ht.index hb]
      exact ht.down hb
    · rw [hother b hba] at hb ⊢
      exact (h.down b hb).trans (ht.held _ (hne b hba hb)).symm
  · by_cases hba : b = a
    · subst hba
      rw [hself] at hb hf ⊢
      exact ht.done hb hf
    · rw [hother b hba] at hb hf ⊢
      exact h.done b hb hf
  · by_cases hj : j = idx
    · subst hj
      obtain ⟨p, hp, hfree, hfin⟩ := ht.life
      refine ⟨p, hp, hfree.trans ⟨fun hd b hb => ?_,fun hall => ?_⟩,fun hpf b hb hbi => ?_⟩
      · by_cases hba : b = a
        · subst hba
          rw [hself, hd] at hb
          exact absurd hb Bool.false_ne_true
        · rw [hother b hba] at hb ⊢
          exact hne b hba hb
      · by_contra hd
        have hd := Bool.eq_true_of_not_eq_false hd
        exact hall a (by rw [hself]; exact hd) (by rw [hself]; exact ht.index hd)
      · by_cases hba : b = a
        · subst hba
          rw [hself]
          exact hfin hpf
        · rw [hother b hba] at hb hbi
          exact absurd hbi (hne b hba hb)
    · have hlife := h.life j
      rw [← ht.calls j hj] at hlife
      obtain ⟨p, hp, hfree, hfin⟩ := hlife
      have hsame : ∀ b, (s'.states b).inUse = true ∧ (s'.states b).index = j
          ↔ (s.states b).inUse = true ∧ (s.states b).index = j := by
        intro b
        by_cases hba : b = a
        · subst hba
          rw [hself]
          exact ⟨fun hd => absurd ((hd.2.symm.trans (ht.index hd.1))) hj,
            fun hb => absurd (hb.2.symm.trans (ht.slot hb.1)) hj⟩
        · rw [hother b hba]
      refine ⟨p, hp, hfree.trans ⟨fun hall b hb hbj => ?_,fun hall b hb hbj => ?_⟩,
        fun hpf b hb hbj => ?_⟩
      · exact hall b ((hsame b).mp ⟨hb,hbj⟩).1 ((hsame b).mp ⟨hb,hbj⟩).2
      · exact hall b ((hsame b).mpr ⟨hb,hbj⟩).1 ((hsame b).mpr ⟨hb,hbj⟩).2
      · obtain ⟨hb', hbj'⟩ := (hsame b).mp ⟨hb,hbj⟩
        have hba : b ≠ a := by
          rintro rfl
          exact hj (hbj'.symm.trans (ht.slot hb'))
        rw [hother b hba]
        exact hfin hpf b hb' hbj'

theorem Sound.outside (h : Sound m s held) (o : Ω) : Sound m { s with outside := o } held :=
  ⟨h.unique,h.blank,h.inRange,h.active,h.used,h.down,h.done,h.life⟩

theorem findUsed_some (h : findUsed idx s = some a) :
    (s.states a).inUse = true ∧ (s.states a).index = idx := by
  simpa using List.find?_some h

theorem findUsed_none (h : findUsed idx s = none) (a : Fin cfg.maxSimultaneous)
    (ha : (s.states a).inUse = true) : (s.states a).index ≠ idx := by
  have hnone := List.find?_eq_none.mp h a (List.mem_finRange a)
  simpa [ha] using hnone

theorem findUnused_some (h : findUnused s = some a) : (s.states a).inUse = false := by
  simpa using List.find?_some h

theorem Sound.findUsed (h : Sound m s held) (ha : (s.states a).inUse = true) :
    findUsed (s.states a).index s = some a := by
  cases hfind : TapDance.findUsed (s.states a).index s with
  | none => exact absurd rfl (findUsed_none hfind a ha)
  | some b =>
    obtain ⟨hb, hi⟩ := findUsed_some hfind
    rw [h.unique b a hb ha hi]

theorem Sound.getState (h : Sound m s held) (ha : (s.states a).inUse = true) :
    tapDanceGetState (s.states a).index s = some a := by
  rw [tapDanceGetState, tapDanceGetOrAllocateState,
    if_neg (Nat.not_le.mpr (h.inRange a ha)), h.findUsed ha]

theorem Sound.tapping (h : Sound m s held) (ha : (s.states a).inUse = true)
    (hf : (s.states a).finished = false) : lifeOf (s.states a).index s.calls = some .tapping := by
  obtain ⟨p, hp, hfree, hfin⟩ := h.life (s.states a).index
  cases p with
  | free => exact absurd rfl (hfree.mp rfl a ha)
  | tapping => exact hp
  | finished => exact absurd (hf.symm.trans (hfin rfl a ha rfl)) Bool.false_ne_true

theorem Sound.alive (h : Sound m s held) (ha : (s.states a).inUse = true) :
    lifeOf (s.states a).index s.calls = some .tapping
      ∨ lifeOf (s.states a).index s.calls = some .finished ∧ (s.states a).finished = true := by
  obtain ⟨p, hp, hfree, hfin⟩ := h.life (s.states a).index
  cases p with
  | free => exact absurd rfl (hfree.mp rfl a ha)
  | tapping => exact .inl hp
  | finished => exact .inr ⟨hp,hfin rfl a ha rfl⟩

theorem Sound.only (h : Sound m s held) (ha : (s.states a).inUse = true)
    (hact : s.activeTd = none ∨ s.activeTd = some (s.states a).index) {b : Fin cfg.maxSimultaneous}
    (hba : b ≠ a) (hb : (s.states b).inUse = true) : (s.states b).finished = true := by
  by_contra hf
  have hactive := h.active b hb (Bool.eq_false_iff.mpr hf)
  rcases hact with hnone | hsome
  · rw [hnone] at hactive
    exact Option.some_ne_none _ hactive.symm
  · rw [hsome] at hactive
    exact hba (h.unique b a hb ha (Option.some.inj hactive).symm)

theorem finished_eq (idx : UInt8) {d : DanceState} (hf : d.finished = false) :
    (processOnDanceFinished idx a (s.set a d)).states
        = Function.update s.states a (if d.pressed then { d with finished := true } else .unused)
      ∧ (processOnDanceFinished idx a (s.set a d)).calls
        = (if d.pressed then s.calls ++ [(idx,.finished)]
          else s.calls ++ [(idx,.finished)] ++ [(idx,.reset)])
      ∧ (processOnDanceFinished idx a (s.set a d)).activeTd = none := by
  by_cases hp : d.pressed = true <;>
    simp [processOnDanceFinished, processOnReset, hf, hp, State.set]

theorem Sound.finish (h : Sound m s held) (ha : (s.states a).inUse = true)
    (hf : (s.states a).finished = false) {d : DanceState} (hpressed : d.pressed = (s.states a).pressed)
    (hfinished : d.finished = false) (hinUse : d.inUse = true)
    (hindex : d.index = (s.states a).index) :
    Sound m (processOnDanceFinished (s.states a).index a (s.set a d)) held := by
  obtain ⟨hstates, hcalls, hactive⟩ := finished_eq (s := s) (a := a) (s.states a).index
    hfinished
  have hlife := h.tapping ha hf
  have hothers : ∀ b ≠ a, (s.states b).inUse = true → (s.states b).finished = true :=
    fun b hba hb => h.only ha (.inr (h.active a ha hf)) hba hb
  refine h.touch
    ⟨hstates,?_,h.inRange a ha,fun b hb hi => h.unique b a hb ha hi,fun _ => rfl,?_,
      fun b hba hb hbf => absurd (hbf.symm.trans (hothers b hba hb)) Bool.false_ne_true,?_,
      fun j hj => absurd (hactive.symm.trans hj) (Option.some_ne_none j).symm,?_,?_,
      fun _ _ => Iff.rfl,fun j hj => ?_,?_⟩
  · by_cases hp : d.pressed = true <;> simp [hp, hinUse]
  · by_cases hp : d.pressed = true <;> simp [hp, DanceState.unused, hindex]
  · by_cases hp : d.pressed = true <;> simp [hp, DanceState.unused]
  · by_cases hp : d.pressed = true
    · rw [if_pos hp]
      exact fun _ => hpressed ▸ h.down a ha
    · rw [if_neg hp]
      exact fun hu => absurd hu Bool.false_ne_true
  · by_cases hp : d.pressed = true <;> simp [hp, DanceState.unused]
  · rw [hcalls]
    split_ifs <;> simp only [lifeOf_snoc, if_neg hj.symm]
  · rw [hcalls]
    by_cases hp : d.pressed = true
    · refine ⟨.finished, ?_, by simp [hp, hinUse], fun _ => by simp [hp]⟩
      rw [if_pos hp, lifeOf_snoc, if_pos rfl, hlife]
      rfl
    · refine ⟨.free, ?_, by simp [hp, DanceState.unused], fun he => nomatch he⟩
      rw [if_neg hp, lifeOf_snoc, if_pos rfl, lifeOf_snoc, if_pos rfl, hlife]
      rfl

theorem Sound.preprocess (h : Sound m s held) (keycode : Keycode) (pressed : Bool) :
    Sound m (preprocessTapDance keycode pressed s).2 held
      ∧ (pressed = true → ∀ td, (preprocessTapDance keycode pressed s).2.activeTd = some td →
        keycode = .tapDance td) := by
  cases pressed with
  | false => exact ⟨h,fun hp => absurd hp Bool.false_ne_true⟩
  | true =>
    cases hact : s.activeTd with
    | none =>
      have hsame : preprocessTapDance keycode true s = (false,s) := by
        simp [preprocessTapDance, hact]
      rw [hsame]
      exact ⟨h,fun _ td htd => absurd (hact.symm.trans htd) (Option.some_ne_none td).symm⟩
    | some td =>
      by_cases hkey : keycode = .tapDance td
      · have hsame : preprocessTapDance keycode true s = (false,s) := by
          simp [preprocessTapDance, hact, hkey]
        rw [hsame]
        refine ⟨h,fun _ td' htd => ?_⟩
        rw [hkey, Option.some.inj (hact.symm.trans htd)]
      · obtain ⟨a, ha, rfl, hf⟩ := h.used td hact
        have hfinish := h.finish ha hf (d := { s.states a with
          interrupted := true, interruptingKeycode := some keycode }) rfl hf ha rfl
        have hresult := (finished_eq (s := s) (a := a) (s.states a).index (d := {
          s.states a with interrupted := true, interruptingKeycode := some keycode }) hf).2.2
        simp only [preprocessTapDance, Bool.not_true, Bool.false_eq_true, if_false, hact,
          if_neg hkey, h.getState ha]
        exact ⟨hfinish.outside _,
          fun _ td htd => absurd (hresult.symm.trans htd) (Option.some_ne_none td).symm⟩

theorem Sound.task (h : Sound m s held) (now : UInt16) : Sound m (tapDanceTask now s) held := by
  cases hact : s.activeTd with
  | none =>
    rw [tapDanceTask, hact]
    exact h
  | some td =>
    obtain ⟨a, ha, rfl, hf⟩ := h.used td hact
    simp only [tapDanceTask, hact, h.getState ha]
    split_ifs
    · exact h
    · exact h
    · have hset : s.set a (s.states a) = s := by rw [State.set, Function.update_eq_self]
      have hfinish := h.finish ha hf rfl hf ha rfl
      rwa [hset] at hfinish

theorem down_update {key : κ} (held : κ → Bool) (hkey : m.keycode key = .tapDance idx) (b : Bool)
    [DecidableEq κ] :
    (Down m (Function.update held key b) idx ↔ b = true)
      ∧ ∀ j ≠ idx, Down m (Function.update held key b) j ↔ Down m held j := by
  refine ⟨⟨fun ⟨k, hk, hheld⟩ => ?_,fun hb => ⟨key,hkey,by simpa using hb⟩⟩,fun j hj =>
    exists_congr fun k => and_congr_right fun hk => ?_⟩
  · rw [m.distinct hk hkey] at hheld
    simpa using hheld
  · have hne : k ≠ key := by
      rintro rfl
      exact hj (Keycode.tapDance.inj (hk.symm.trans hkey))
    rw [Function.update_of_ne hne]

theorem Sound.keyOnly (h : Sound m s held)
    (hnone : ∀ a, (s.states a).inUse = true → (s.states a).index ≠ idx)
    (hheld : ∀ j ≠ idx, Down m held' j ↔ Down m held j) : Sound m s held' :=
  ⟨h.unique,h.blank,h.inRange,h.active,h.used,
    fun a ha => (h.down a ha).trans (hheld _ (hnone a ha)).symm,h.done,h.life⟩

theorem Sound.allocate (h : Sound m s held) (hrange : idx.toNat < cfg.tapDanceCount)
    (hup : ¬Down m held idx) :
    (tapDanceGetOrAllocateState idx true s = (none,s)
        ∧ ∀ a, (s.states a).inUse = true → (s.states a).index ≠ idx)
      ∨ ∃ a d, tapDanceGetOrAllocateState idx true s = (some a,s.set a d) ∧ d.inUse = true
        ∧ d.index = idx ∧ d.finished = false
        ∧ ((s.states a).inUse = true → (s.states a).index = idx)
        ∧ ∀ b, (s.states b).inUse = true → (s.states b).index = idx → b = a := by
  rw [tapDanceGetOrAllocateState, if_neg (Nat.not_le.mpr hrange)]
  cases hused : TapDance.findUsed idx s with
  | some a =>
    obtain ⟨ha, rfl⟩ := findUsed_some hused
    have hset : s.set a (s.states a) = s := by rw [State.set, Function.update_eq_self]
    refine .inr ⟨a, s.states a, by rw [hset], ha, rfl, ?_, fun _ => rfl,
      fun b hb hi => h.unique b a hb ha hi⟩
    by_contra hf
    exact hup ((h.down a ha).mp (h.done a ha (Bool.eq_true_of_not_eq_false hf)))
  | none =>
    have hnone := findUsed_none hused
    cases hfree : findUnused s with
    | none => exact .inl ⟨rfl,hnone⟩
    | some a =>
      have ha := findUnused_some hfree
      refine .inr ⟨a, _, rfl, rfl, rfl, ?_, fun hu => absurd (ha.symm.trans hu) Bool.false_ne_true,
        fun b hb hi => absurd hi (hnone b hb)⟩
      rw [h.blank a ha]
      rfl

theorem pressed_eq {d : DanceState} (now : UInt16) (hrange : idx.toNat < cfg.tapDanceCount)
    (hget : tapDanceGetOrAllocateState idx true s = (some a,s.set a d)) :
    ∃ d', d'.pressed = true ∧ d'.inUse = d.inUse ∧ d'.index = d.index
      ∧ (processTapDance (.tapDance idx) true now s).2.states = Function.update s.states a d'
      ∧ (processTapDance (.tapDance idx) true now s).2.calls = s.calls ++ [(idx,.tap)]
      ∧ (processTapDance (.tapDance idx) true now s).2.activeTd
        = if d'.finished then none else some idx := by
  simp only [processTapDance, if_neg (Nat.not_le.mpr hrange), hget, State.set, if_true,
    processOnEachTap, Function.update_self, Function.update_idem]
  refine ⟨_, ?_, ?_, ?_, rfl, trivial, rfl⟩ <;> rfl

theorem onEachRelease_eq (idx : UInt8) (a : Fin cfg.maxSimultaneous) (s : State cfg) :
    ∃ f o, ((s.states a).finished = true → f = true) ∧ processOnEachRelease idx a s
      = { s.set a { s.states a with finished := f } with
          calls := s.calls ++ [(idx,.release)], outside := o } := by
  let r := (cfg.tapDanceGet idx).onEachRelease (s.states a) s.outside
  exact ⟨(s.states a).finished || r.1, r.2, fun h => by rw [h, Bool.true_or], rfl⟩

theorem released_eq (now : UInt16) (hrange : idx.toNat < cfg.tapDanceCount)
    (hget : tapDanceGetOrAllocateState idx false s = (some a,s)) :
    ∃ f, ((s.states a).finished = true → f = true)
      ∧ (processTapDance (.tapDance idx) false now s).2.states = Function.update s.states a
        (if f then .unused else { s.states a with pressed := false, finished := false })
      ∧ (processTapDance (.tapDance idx) false now s).2.calls
        = (if f then s.calls ++ [(idx,.release)] ++ [(idx,.reset)] else s.calls ++ [(idx,.release)])
      ∧ (processTapDance (.tapDance idx) false now s).2.activeTd
        = if f ∧ s.activeTd = some idx then none else s.activeTd := by
  obtain ⟨f, o, hf, hrelease⟩ := onEachRelease_eq idx a (s.set a { s.states a with pressed := false })
  simp only [State.set, Function.update_self, Function.update_idem] at hf hrelease
  refine ⟨f, hf, ?_⟩
  simp only [processTapDance, if_neg (Nat.not_le.mpr hrange), hget, Bool.false_eq_true, if_false,
    State.set, hrelease, Function.update_self]
  cases f with
  | false => exact ⟨rfl,rfl,rfl⟩
  | true =>
    by_cases hact : s.activeTd = some idx <;>
      simp [processOnReset, State.set, hact]

variable [DecidableEq κ] {key : κ}

theorem Sound.press (h : Sound m s held) (now : UInt16) (hkey : m.keycode key = .tapDance idx)
    (hup : held key = false) (hact : ∀ td, s.activeTd = some td → td = idx) :
    Sound m (processTapDance (.tapDance idx) true now s).2 (Function.update held key true) := by
  obtain ⟨hdown, hheld⟩ := down_update held hkey true
  have hnot : ¬Down m held idx := fun ⟨k, hk, hk'⟩ => by
    rw [m.distinct hk hkey, hup] at hk'
    exact Bool.false_ne_true hk'
  by_cases hrange : cfg.tapDanceCount ≤ idx.toNat
  · have hsame : processTapDance (.tapDance idx) true now s = (false,s) := by
      simp [processTapDance, hrange]
    rw [hsame]
    refine h.keyOnly (fun a ha he => ?_) hheld
    have hlt := h.inRange a ha
    rw [he] at hlt
    omega
  have hrange := Nat.not_le.mp hrange
  rcases h.allocate hrange hnot with ⟨hget, hnone⟩ | ⟨a, d, hget, hinUse, hindex, hf, hslot, hown⟩
  · have hsame : processTapDance (.tapDance idx) true now s = (false,s) := by
      simp [processTapDance, hget]
    rw [hsame]
    exact h.keyOnly hnone hheld
  · obtain ⟨d', hpressed, hinUse', hindex', hstates, hcalls, hactive⟩ := pressed_eq now hrange hget
    have hothers : ∀ b ≠ a, (s.states b).inUse = true → (s.states b).finished = true := by
      intro b hba hb
      by_contra hbf
      exact hba (hown b hb (hact _ (h.active b hb (Bool.eq_false_iff.mpr hbf))))
    refine h.touch ⟨hstates,?_,hrange,hown,hslot,fun _ => hindex'.trans hindex,
      fun b hba hb hbf => absurd (hbf.symm.trans (hothers b hba hb)) Bool.false_ne_true,
      fun _ hf' => by rw [hactive, if_neg (Bool.eq_false_iff.mp hf')],fun j hj => ?_,
      fun _ => by rw [hpressed]; exact iff_of_true rfl (hdown.mpr rfl),fun _ _ => hpressed,
      hheld,fun j hj => by rw [hcalls, lifeOf_snoc, if_neg hj.symm],?_⟩
    · exact fun hu => absurd (hinUse.symm.trans (hinUse'.symm.trans hu)) Bool.false_ne_true.symm
    · rw [hactive] at hj
      split_ifs at hj with hf'
      exact .inl ⟨(Option.some.inj hj).symm,hinUse'.trans hinUse,Bool.eq_false_iff.mpr hf'⟩
    · obtain ⟨p, hp, hfree, hfin⟩ := h.life idx
      refine ⟨.tapping, ?_, by simp [hinUse', hinUse], fun he => nomatch he⟩
      rw [hcalls, lifeOf_snoc, if_pos rfl, hp]
      cases p with
      | free => rfl
      | tapping => rfl
      | finished =>
        -- A finished dance is reset with its key.
        have hlive : ¬∀ a, (s.states a).inUse = true → (s.states a).index ≠ idx :=
          fun hall => nomatch hfree.mpr hall
        push Not at hlive
        obtain ⟨b, hb, rfl⟩ := hlive
        exact absurd ((h.down b hb).mp (h.done b hb (hfin rfl b hb rfl))) hnot

theorem Sound.release (h : Sound m s held) (now : UInt16) (hkey : m.keycode key = .tapDance idx) :
    Sound m (processTapDance (.tapDance idx) false now s).2 (Function.update held key false) := by
  obtain ⟨hdown, hheld⟩ := down_update held hkey false
  by_cases hrange : cfg.tapDanceCount ≤ idx.toNat
  · have hsame : processTapDance (.tapDance idx) false now s = (false,s) := by
      simp [processTapDance, hrange]
    rw [hsame]
    refine h.keyOnly (fun a ha he => ?_) hheld
    have hlt := h.inRange a ha
    rw [he] at hlt
    omega
  cases hused : TapDance.findUsed idx s with
  | none =>
    have hsame : processTapDance (.tapDance idx) false now s = (false,s) := by
      simp [processTapDance, tapDanceGetOrAllocateState, hused]
    rw [hsame]
    exact h.keyOnly (findUsed_none hused) hheld
  | some a =>
    obtain ⟨ha, rfl⟩ := findUsed_some hused
    have hrange := Nat.not_le.mp hrange
    have hget : tapDanceGetOrAllocateState (s.states a).index false s = (some a,s) := by
      rw [tapDanceGetOrAllocateState, if_neg (Nat.not_le.mpr hrange), hused]
    obtain ⟨f, hf, hstates, hcalls, hactive⟩ := released_eq now hrange hget
    have hothers : ∀ b ≠ a, (s.states b).inUse = true → (s.states b).finished = false →
        s.activeTd = some (s.states b).index ∧ (s.states b).index ≠ (s.states a).index :=
      fun b hba hb hbf => ⟨h.active b hb hbf,fun he => hba (h.unique b a hb ha he)⟩
    have halive := h.alive ha
    cases f with
    | true =>
      simp only [if_true, true_and] at hstates hcalls hactive
      refine h.touch ⟨hstates,fun _ => rfl,hrange,fun b hb hi => h.unique b a hb ha hi,fun _ => rfl,
        fun hu => absurd hu Bool.false_ne_true,fun b hba hb hbf => ?_,
        fun hu => absurd hu Bool.false_ne_true,fun j hj => ?_,
        fun hu => absurd hu Bool.false_ne_true,fun hu => absurd hu Bool.false_ne_true,hheld,
        fun j hj => by simp only [hcalls, lifeOf_snoc, if_neg hj.symm],.free,?_,
        by simp [DanceState.unused],
        fun he => nomatch he⟩
      · obtain ⟨hact, hne⟩ := hothers b hba hb hbf
        rw [hactive, hact, if_neg fun he => hne (Option.some.inj he)]
      · rw [hactive] at hj
        split_ifs at hj with hact
        exact .inr ⟨fun he => hact (he ▸ hj),hj⟩
      · rw [hcalls, lifeOf_snoc, if_pos rfl, lifeOf_snoc, if_pos rfl]
        rcases halive with hlife | ⟨hlife, -⟩ <;> rw [hlife] <;> rfl
    | false =>
      have hunfinished : (s.states a).finished = false :=
        Bool.eq_false_iff.mpr fun he => Bool.false_ne_true (hf he)
      simp only [Bool.false_eq_true, if_false, false_and] at hstates hcalls hactive
      have hlife := h.tapping ha hunfinished
      refine h.touch ⟨hstates,fun hu => absurd (ha.symm.trans hu) Bool.false_ne_true.symm,hrange,
        fun b hb hi => h.unique b a hb ha hi,fun _ => rfl,fun _ => rfl,
        fun b hba hb hbf => hactive.trans (hothers b hba hb hbf).1,
        fun _ _ => hactive.trans (h.active a ha hunfinished),fun j hj => ?_,
        fun _ => ⟨fun hp => absurd hp Bool.false_ne_true,fun hd => hdown.mp hd⟩,
        fun _ hfin => absurd hfin Bool.false_ne_true,hheld,
        fun j hj => by simp only [hcalls, lifeOf_snoc, if_neg hj.symm],.tapping,?_,by simp [ha],
        fun he => nomatch he⟩
      · rw [hactive, h.active a ha hunfinished] at hj
        exact .inl ⟨(Option.some.inj hj).symm,ha,rfl⟩
      · rw [hcalls, lifeOf_snoc, if_pos rfl, hlife]
        rfl

theorem Sound.next {w : Keyboard cfg κ} (h : Sound m w.state w.held) (i : Input κ Ω) :
    Sound m (w.next m i).state (w.next m i).held := by
  cases i with
  | task now => exact h.task now
  | outside o => exact h.outside o
  | key key now =>
    obtain ⟨hpre, hact⟩ := h.preprocess (m.keycode key) (!w.held key)
    simp only [Keyboard.next]
    cases hkey : m.keycode key with
    | other keycode =>
      rw [hkey] at hpre
      refine ⟨hpre.unique,hpre.blank,hpre.inRange,hpre.active,hpre.used,fun a ha => ?_,hpre.done,
        hpre.life⟩
      refine (hpre.down a ha).trans (exists_congr fun k => and_congr_right fun hk => ?_)
      have hne : k ≠ key := by
        rintro rfl
        exact nomatch hk.symm.trans hkey
      rw [Function.update_of_ne hne]
    | tapDance idx =>
      rw [hkey] at hpre hact
      cases hheld : w.held key with
      | false =>
        rw [hheld] at hpre hact
        exact hpre.press now hkey hheld fun td htd => (Keycode.tapDance.inj (hact rfl td htd)).symm
      | true =>
        rw [hheld] at hpre
        exact hpre.release now hkey

omit [DecidableEq κ] in
theorem boot_sound (cfg : Config Ω) (m : Keymap κ) (o : Ω) :
    Sound m (boot cfg o : Keyboard cfg κ).state (boot cfg o).held where
  unique := fun _ _ ha => absurd ha Bool.false_ne_true
  blank := fun _ _ => rfl
  inRange := fun _ ha => absurd ha Bool.false_ne_true
  active := fun _ ha => absurd ha Bool.false_ne_true
  used := fun _ h => nomatch h
  down := fun _ ha => absurd ha Bool.false_ne_true
  done := fun _ ha => absurd ha Bool.false_ne_true
  life := fun _ => ⟨.free, rfl, iff_of_true rfl fun _ ha => absurd ha Bool.false_ne_true,
    fun he => nomatch he⟩

theorem Sound.run {w : Keyboard cfg κ} (h : Sound m w.state w.held) (inputs : List (Input κ Ω)) :
    Sound m (inputs.foldl (Keyboard.next m) w).state (inputs.foldl (Keyboard.next m) w).held := by
  induction inputs generalizing w with
  | nil => exact h
  | cons i inputs ih => exact ih (h.next i)

/-- At any time at most one dance is unfinished, and it is the active one; the callbacks of a dance
come in the order of its lives, and it is between two of them when no state is its; without a key
held and an active dance no state is in use. -/
theorem life_cycle (cfg : Config Ω) (m : Keymap κ) (o : Ω) (inputs : List (Input κ Ω)) :
    let w := inputs.foldl (Keyboard.next m) (boot cfg o)
    (∀ a b, (w.state.states a).inUse = true → (w.state.states a).finished = false →
        (w.state.states b).inUse = true → (w.state.states b).finished = false → a = b)
      ∧ (∀ a, (w.state.states a).inUse = true → (w.state.states a).finished = false →
        w.state.activeTd = some (w.state.states a).index)
      ∧ (∀ idx, ∃ p, lifeOf idx w.state.calls = some p
        ∧ (p = .free ↔ ∀ a, (w.state.states a).inUse = true → (w.state.states a).index ≠ idx))
      ∧ ((∀ key, w.held key = false) → w.state.activeTd = none →
        ∀ a, (w.state.states a).inUse = false) := by
  have h := (boot_sound cfg m o).run inputs
  refine ⟨fun a b ha hfa hb hfb => ?_,h.active,fun idx => ?_,fun hup hnone a => ?_⟩
  · have hab := (h.active a ha hfa).symm.trans (h.active b hb hfb)
    exact h.unique a b ha hb (Option.some.inj hab)
  · obtain ⟨p, hp, hfree, -⟩ := h.life idx
    exact ⟨p, hp, hfree⟩
  · by_contra hused
    have ha := Bool.eq_true_of_not_eq_false hused
    by_cases hf : (inputs.foldl (Keyboard.next m) (boot cfg o)).state.states a |>.finished
    · obtain ⟨key, -, hheld⟩ := (h.down a ha).mp (h.done a ha hf)
      exact absurd ((hup key).symm.trans hheld) Bool.false_ne_true
    · exact absurd (hnone.symm.trans (h.active a ha (Bool.eq_false_iff.mpr hf)))
        (Option.some_ne_none _).symm

end

end QmkFirmware.TapDance
