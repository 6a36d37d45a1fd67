import QmkFirmware.Combos.Single

/-!
What holds in the middle of a call, while `process_combo` goes through the combos. The combos
already visited have seen the event and the others have not, so what a combo has seen is a
function of its index here.
-/

set_option autoImplicit false

namespace QmkFirmware.Combos

open Tapping (KeyPos KeyEvent)

inductive Kind where
  | activation | press | release
  deriving DecidableEq, Repr

def pressKind (pressed : Bool) : Kind := if pressed then .press else .release

def Sent.kind (i : Nat) : Sent → Option Kind
  | .tapping (some j) r => if j = i then some (pressKind r.event.pressed) else none
  | .comboEvent j pressed => if j = i then some (pressKind pressed) else none
  | .activated j _ => if j = i then some .activation else none
  | .tapping none _ | .through _ | .held _ => none

def view (i : Nat) (out : List Sent) : List Kind := out.filterMap (Sent.kind i)

theorem view_append (i : Nat) (out out' : List Sent) :
    view i (out ++ out') = view i out ++ view i out' := List.filterMap_append

/-- What `dump_key_buffer` and `release_combo` send. -/
def Sent.plain : Sent → Bool
  | .tapping _ _ | .comboEvent _ _ => true
  | .activated _ _ | .through _ | .held _ => false

/-- Activation, press and release in turn, and at the end a press that is not released yet if
the combo is active. -/
def Cycle (active : Bool) (v : List Kind) : Prop :=
  ∃ n, v = (List.replicate n [Kind.activation,.press,.release]).flatten
    ++ if active then [.activation,.press] else []

theorem Cycle.released {v : List Kind} (h : Cycle true v) : Cycle false (v ++ [.release]) := by
  obtain ⟨n, rfl⟩ := h
  refine ⟨n+1, ?_⟩
  rw [List.replicate_succ']
  simp

theorem Cycle.activated {v : List Kind} (h : Cycle false v) :
    Cycle true (v ++ [.activation,.press]) := by
  obtain ⟨n, rfl⟩ := h
  exact ⟨n, by simp⟩

/-- The keys that are held down, with their keycodes. -/
abbrev Held := KeyPos → Option UInt16

def Down (held : Held) (c : Combo) (index : Nat) : Prop :=
  ∃ k keycode, held k = some keycode ∧ c.keyIndex keycode = some index

variable {t : Table}

/-- `seen` are the keycodes of the key buffer as far as a combo has seen them, `good` is what
holds of the state of a readied combo. -/
structure Mid (t : Table) (seen : Nat → List UInt16) (good : Nat → BitVec 8 → Prop)
    (held : Nat → Held) (s : State) : Prop where
  index : ∀ c ∈ s.comboBuffer.entries, c < t.count
  off : ∀ c, (s.flags c).active = true → (s.flags c).disabled = true
  ready : ∀ c ∈ s.comboBuffer.entries, (s.flags c).disabled = false →
    (t.combo c).completes 0 (seen c) = true → good c (s.flags c).state
  apart : s.comboBuffer.entries.Pairwise fun a b => (s.flags a).disabled = false →
    (s.flags b).disabled = false → Shares t a b →
    (t.combo a).completes 0 (seen a) = false ∧ (t.combo b).completes 0 (seen b) = false
  bits : ∀ c j, (s.flags c).state.getLsbD j = true → Down (held c) (t.combo c) j
  live : ∀ c, (s.flags c).active = true →
    (s.flags c).state ≠ 0 ∧ (s.flags c).state.getLsbD (t.combo c).keys.length = false
  cycle : ∀ c, (t.combo c).keys.length ≠ 1 → Cycle (s.flags c).active (view c s.out)

variable {seen : Nat → List UInt16} {good : Nat → BitVec 8 → Prop} {held : Nat → Held}
  {s s' : State}

theorem Mid.dropped (h : Mid t seen good held s) (hd : Dropped s s') :
    Mid t seen good held s' where
  index c hc := h.index c (hd.entries.subset hc)
  off c ha := hd.disabled c (h.off c (hd.active c ▸ ha))
  ready c hc hen hcomp := by
    rw [hd.state]
    refine h.ready c (hd.entries.subset hc) ?_ hcomp
    by_contra hne
    simp [hd.disabled c (by simpa using hne)] at hen
  apart := by
    have hen : ∀ c, (s'.flags c).disabled = false → (s.flags c).disabled = false := by
      intro c hen
      by_contra hne
      simp [hd.disabled c (by simpa using hne)] at hen
    exact (h.apart.sublist hd.entries.sublist).imp fun hab ha hb => hab (hen _ ha) (hen _ hb)
  bits c j hj := h.bits c j (hd.state c ▸ hj)
  live c ha := by
    rw [hd.state]
    exact h.live c (hd.active c ▸ ha)
  cycle c hc := by
    rw [hd.active, hd.out]
    exact h.cycle c hc

theorem Mid.imp {good' : Nat → BitVec 8 → Prop} {held' : Nat → Held}
    (h : Mid t seen good held s) (hg : ∀ c state, good c state → good' c state)
    (hh : ∀ c j, Down (held c) (t.combo c) j → Down (held' c) (t.combo c) j) :
    Mid t seen good' held' s :=
  { h with
    ready := fun c hc hen hcomp => hg c _ (h.ready c hc hen hcomp)
    bits := fun c j hj => hh c j (h.bits c j hj) }

theorem off_false (h : Mid t seen good held s) {c : Nat} (hd : (s.flags c).disabled = false) :
    (s.flags c).active = false := by
  by_contra hne
  simp [h.off c (by simpa using hne)] at hd

theorem Mid.keyUp (h : Mid t seen good held s) {c index : Nat} {g : BitVec 8 → Prop} {hl : Held}
    (hg : (s.flags c).disabled = false → (t.combo c).completes 0 (seen c) = true →
      good c (s.flags c).state → g ((s.flags c).state &&& ~~~keyBit index))
    (hl' : ∀ j ≠ index, Down (held c) (t.combo c) j → Down hl (t.combo c) j)
    (hlive : (s.flags c).active = true → (s.flags c).state &&& ~~~keyBit index ≠ 0) :
    Mid t seen (Function.update good c g) (Function.update held c hl) (s.keyUp c index) := by
  have hflags : ∀ x, ((s.keyUp c index).flags x).disabled = (s.flags x).disabled
      ∧ ((s.keyUp c index).flags x).active = (s.flags x).active := by
    intro x
    by_cases hx : x = c
    · subst hx
      rw [keyUp_flags]
      exact ⟨rfl, rfl⟩
    · rw [keyUp_other s index hx]
      exact ⟨rfl, rfl⟩
  refine ⟨h.index, fun x ha => ?_, fun x hx hen hcomp => ?_, ?_, fun x j hj => ?_,
    fun x ha => ?_, fun x hx => ?_⟩
  · rw [(hflags x).1]
    exact h.off x ((hflags x).2 ▸ ha)
  · rw [(hflags x).1] at hen
    have hgood := h.ready x hx hen hcomp
    by_cases hxc : x = c
    · subst hxc
      rw [Function.update_self, keyUp_flags]
      exact hg hen hcomp hgood
    · rw [Function.update_of_ne hxc, keyUp_other s index hxc]
      exact hgood
  · refine h.apart.imp fun {a b} hab ha hb => hab ?_ ?_
    · exact (hflags a).1 ▸ ha
    · exact (hflags b).1 ▸ hb
  · by_cases hxc : x = c
    · subst hxc
      rw [keyUp_flags, up_get, Bool.and_eq_true, decide_eq_true_eq] at hj
      rw [Function.update_self]
      exact hl' j (Ne.symm hj.2) (h.bits x j hj.1)
    · rw [keyUp_other s index hxc] at hj
      rw [Function.update_of_ne hxc]
      exact h.bits x j hj
  · rw [(hflags x).2] at ha
    obtain ⟨hne, hend⟩ := h.live x ha
    by_cases hxc : x = c
    · subst hxc
      rw [keyUp_flags]
      exact ⟨hlive ha, by simp [hend]⟩
    · rw [keyUp_other s index hxc]
      exact ⟨hne, hend⟩
  · rw [(hflags x).2]
    exact h.cycle x hx

theorem Mid.reseen (h : Mid t seen good held s) {c : Nat} {ks : List UInt16}
    (hks : (s.flags c).disabled = false → (t.combo c).completes 0 ks = true →
      (t.combo c).completes 0 (seen c) = true) :
    Mid t (Function.update seen c ks) good held s := by
  have hold : ∀ x, (s.flags x).disabled = false →
      (t.combo x).completes 0 (Function.update seen c ks x) = true →
      (t.combo x).completes 0 (seen x) = true := by
    intro x hx hcomp
    by_cases hxc : x = c
    · subst hxc
      rw [Function.update_self] at hcomp
      exact hks hx hcomp
    · rwa [Function.update_of_ne hxc] at hcomp
  have hnot : ∀ x, (s.flags x).disabled = false → (t.combo x).completes 0 (seen x) = false →
      (t.combo x).completes 0 (Function.update seen c ks x) = false := by
    intro x hx hcomp
    by_contra hne
    rw [Bool.not_eq_false] at hne
    rw [hold x hx hne] at hcomp
    cases hcomp
  exact { h with
    ready := fun x hx hen hcomp => h.ready x hx hen (hold x hen hcomp)
    apart := h.apart.imp fun hab ha hb hsh =>
      ⟨hnot _ ha (hab ha hb hsh).1, hnot _ hb (hab ha hb hsh).2⟩ }

theorem releaseCombo_out (now c : Nat) (s : State) : ∃ x, (releaseCombo t now c s).out = s.out ++ [x]
    ∧ x.plain = true ∧ x.kind c = some .release ∧ ∀ j ≠ c, x.kind j = none := by
  dsimp only [releaseCombo]
  split
  · exact ⟨_, rfl, rfl, by simp [Sent.kind, pressKind], fun j hj => by simp [Sent.kind, hj.symm]⟩
  · exact ⟨_, rfl, rfl, by simp [Sent.kind, pressKind], fun j hj => by simp [Sent.kind, hj.symm]⟩

theorem releaseCombo_flags (now c : Nat) (s : State) : (releaseCombo t now c s).flags
    = Function.update s.flags c { s.flags c with active := false } := by
  dsimp only [releaseCombo]
  split <;> rfl

theorem releaseCombo_frame (now c : Nat) (s : State) :
    (releaseCombo t now c s).comboBuffer = s.comboBuffer
      ∧ (releaseCombo t now c s).keyBuffer = s.keyBuffer
      ∧ (releaseCombo t now c s).timer = s.timer
      ∧ (releaseCombo t now c s).longestTerm = s.longestTerm
      ∧ (releaseCombo t now c s).enabled = s.enabled := by
  dsimp only [releaseCombo]
  split <;> exact ⟨rfl, rfl, rfl, rfl, rfl⟩

theorem Mid.releaseCombo (h : Mid t seen good held s) {c : Nat} (now : Nat)
    (ha : (s.flags c).active = true) : Mid t seen good held (releaseCombo t now c s) := by
  obtain ⟨x, hout, -, hown, hother⟩ := @releaseCombo_out t now c s
  obtain ⟨hring, -⟩ := @releaseCombo_frame t now c s
  have hflags : ∀ j, (Combos.releaseCombo t now c s).flags j
      = { s.flags j with active := (s.flags j).active && decide (j ≠ c) } := by
    intro j
    rw [releaseCombo_flags]
    by_cases hj : j = c
    · subst hj
      simp
    · simp [hj]
  refine ⟨by rw [hring]; exact h.index, fun j hj => ?_, fun j hj hen hcomp => ?_, ?_,
    fun j i hj => ?_, fun j hj => ?_, fun j hj => ?_⟩
  · rw [hflags, Bool.and_eq_true] at hj
    rw [hflags]
    exact h.off j hj.1
  · rw [hflags] at hen ⊢
    exact h.ready j (hring ▸ hj) hen hcomp
  · rw [hring]
    refine h.apart.imp fun hab hja hjb => ?_
    rw [hflags] at hja hjb
    exact hab hja hjb
  · rw [hflags] at hj
    exact h.bits j i hj
  · rw [hflags, Bool.and_eq_true] at hj
    rw [hflags]
    exact h.live j hj.1
  · rw [hflags, hout, view_append]
    by_cases hjc : j = c
    · subst hjc
      have := h.cycle j hj
      rw [ha] at this
      simpa [view, hown] using this.released
    · simpa [view, hother j hjc, hjc] using h.cycle j hj

theorem Mid.chordRelease (h : Mid t seen good held s) {c index : Nat} {g : BitVec 8 → Prop}
    {hl : Held} (now : Nat) (part : Bool)
    (hg : (s.flags c).disabled = false → (t.combo c).completes 0 (seen c) = true →
      good c (s.flags c).state → g ((s.flags c).state &&& ~~~keyBit index))
    (hl' : ∀ j ≠ index, Down (held c) (t.combo c) j → Down hl (t.combo c) j) :
    Mid t seen (Function.update good c g) (Function.update held c hl)
      (chordRelease t now c index part s).1 := by
  rcases @chordRelease_cases t now c index part s with
    ⟨ha, -, hdis, he⟩ | ⟨ha, -, -, he⟩ | ⟨ha, -, -, he⟩ | ⟨-, ho, hb, he⟩ | ⟨hb, -, he⟩
  · rw [he]
    have hd := dropComboFromBuffer_dropped c s
    refine (h.dropped hd).keyUp (fun hen => ?_) hl' fun ha' => by simp [hd.active, ha] at ha'
    simp [hd.disabled c hdis] at hen
  · rw [he]
    exact h.keyUp hg hl' fun ha' => by simp [ha] at ha'
  · rw [he]
    refine (h.releaseCombo now ha).keyUp ?_ hl' fun ha' => ?_
    · simpa [releaseCombo_flags] using hg
    · simp [releaseCombo_flags] at ha'
  · rw [he]
    exact h.keyUp hg hl' fun _ =>
      up_not_onlyOne _ ⟨index, BitVec.lt_of_getLsbD hb⟩ ho
  · rw [he]
    refine h.keyUp hg hl' fun ha' => ?_
    have hsame : (s.flags c).state &&& ~~~keyBit index = (s.flags c).state := by
      refine BitVec.eq_of_getLsbD_eq fun j hj => ?_
      rw [up_get]
      by_cases hij : index = j
      · subst hij
        simp [hb ha']
      · simp [hij]
    rw [hsame]
    exact (h.live c ha').1

def AllDown (t : Table) (c : Nat) (state : BitVec 8) : Prop :=
  allComboKeysAreDown state (t.combo c).keys.length = true

theorem Mid.keyDown (h : Mid t seen good held s) {c index : Nat} {g : BitVec 8 → Prop}
    (hen : (s.flags c).disabled = false)
    (hg : c ∈ s.comboBuffer.entries → (t.combo c).completes 0 (seen c) = true →
      g ((s.flags c).state ||| keyBit index))
    (hdown : Down (held c) (t.combo c) index) :
    Mid t seen (Function.update good c g) held (s.keyDown c index) := by
  obtain ⟨hring, -, hout, -⟩ := keyDown_frame s c index
  have hflags : ∀ x, ((s.keyDown c index).flags x).disabled = (s.flags x).disabled
      ∧ ((s.keyDown c index).flags x).active = (s.flags x).active := by
    intro x
    by_cases hx : x = c
    · subst hx
      rw [keyDown_flags]
      exact ⟨rfl, rfl⟩
    · rw [keyDown_other s index hx]
      exact ⟨rfl, rfl⟩
  refine ⟨by rw [hring]; exact h.index, fun x ha => ?_, fun x hx hen' hcomp => ?_, ?_,
    fun x j hj => ?_, fun x ha => ?_, fun x hx => ?_⟩
  · rw [(hflags x).1]
    exact h.off x ((hflags x).2 ▸ ha)
  · rw [hring] at hx
    rw [(hflags x).1] at hen'
    by_cases hxc : x = c
    · subst hxc
      rw [Function.update_self, keyDown_flags]
      exact hg hx hcomp
    · rw [Function.update_of_ne hxc, keyDown_other s index hxc]
      exact h.ready x hx hen' hcomp
  · rw [hring]
    refine h.apart.imp fun {a b} hab ha hb => hab ?_ ?_
    · exact (hflags a).1 ▸ ha
    · exact (hflags b).1 ▸ hb
  · by_cases hxc : x = c
    · subst hxc
      rw [keyDown_flags, down_get, Bool.or_eq_true, decide_eq_true_eq] at hj
      rcases hj with hj | ⟨-, rfl⟩
      · exact h.bits x j hj
      · exact hdown
    · rw [keyDown_other s index hxc] at hj
      exact h.bits x j hj
  · rw [(hflags x).2] at ha
    have hxc : x ≠ c := by
      rintro rfl
      simp [off_false h hen] at ha
    rw [keyDown_other s index hxc]
    exact h.live x ha
  · rw [(hflags x).2, hout]
    exact h.cycle x hx

theorem Mid.push (h : Mid t seen good held s) {c : Nat} (hc : c < t.count)
    (hgood : good c (s.flags c).state)
    (hsh : ∀ j ∈ s.comboBuffer.entries, Shares t j c → (s.flags j).disabled = true) :
    Mid t seen good held { s with comboBuffer := s.comboBuffer.push c } := by
  have hent := Ring.entries_push s.comboBuffer c
  by_cases hfull : (s.comboBuffer.write+1) % comboBufferLength = s.comboBuffer.read
  · rw [if_pos hfull] at hent
    exact { h with
      index := fun x hx => by simp [hent] at hx
      ready := fun x hx => by simp [hent] at hx
      apart := by rw [hent]; exact .nil }
  · rw [if_neg hfull] at hent
    have hmem : ∀ x, x ∈ (s.comboBuffer.push c).entries → x ∈ s.comboBuffer.entries ∨ x = c :=
      fun x hx => by simpa [hent] using hx
    refine { h with index := fun x hx => ?_, ready := fun x hx hen hcomp => ?_, apart := ?_ }
    · rcases hmem x hx with hx | rfl
      · exact h.index x hx
      · exact hc
    · rcases hmem x hx with hx | rfl
      · exact h.ready x hx hen hcomp
      · exact hgood
    · rw [hent, List.pairwise_append]
      refine ⟨h.apart, List.pairwise_singleton _ _, fun a ha b hb hda _ hs => ?_⟩
      rw [List.mem_singleton.mp hb] at hs
      have hda : (s.flags a).disabled = false := hda
      simp [hsh a ha hs] at hda

theorem Mid.comboKeyDown (h : Mid t seen (AllDown t) held s) {c index : Nat} {k : UInt16}
    {ks : List UInt16} (now : Nat) (hc : c < t.count) (hen : (s.flags c).disabled = false)
    (hk : (t.combo c).keyIndex k = some index) (hdown : Down (held c) (t.combo c) index)
    (hks : (t.combo c).completes 0 ks = true → (t.combo c).completes 0 (seen c) = true
      ∨ AllDown t c ((s.flags c).state ||| keyBit index))
    (hno : c ∈ s.comboBuffer.entries → AllDown t c (s.flags c).state →
      AllDown t c ((s.flags c).state ||| keyBit index)) :
    Mid t (Function.update seen c ks) (AllDown t) held (Combos.comboKeyDown t now c index s) := by
  have hsame : Function.update (AllDown t) c (AllDown t c) = AllDown t :=
    Function.update_eq_self c (AllDown t)
  have hmid := h.keyDown (g := AllDown t c) hen
    (fun hx hcomp => hno hx (h.ready c hx hen hcomp)) hdown
  rw [hsame] at hmid
  rcases @comboKeyDown_cases t now c index s (off_false h hen) with
    ⟨hd, he⟩ | ⟨-, hdrop, hdis⟩ | ⟨hd, s', hdrop, he, hsh⟩
  · rw [he]
    refine hmid.reseen fun _ hcomp => (hks hcomp).resolve_right fun hd' => ?_
    rw [AllDown, hd] at hd'
    cases hd'
  · refine (hmid.dropped hdrop).reseen fun hen' => ?_
    simp [hdis] at hen'
  · rw [he]
    -- the combo was not in the buffer, or it would have been dropped itself
    have hnot : c ∉ s.comboBuffer.entries := fun hcm => by
      obtain ⟨key, hkey⟩ := List.exists_mem_of_length_pos (allDown_pos hk hd)
      exact (hsh c hcm ⟨key, hkey, hkey⟩).1 rfl
    have hring := (keyDown_frame s c index).1
    have hmid' := hmid.dropped hdrop
    have hsub : ∀ j ∈ s'.comboBuffer.entries, j ∈ s.comboBuffer.entries := fun j hj =>
      hring ▸ hdrop.entries.subset hj
    have hseen : Mid t (Function.update seen c ks) (AllDown t) held s' :=
      { hmid' with
        ready := fun x hx hen' hcomp => by
          have hxc : x ≠ c := fun hxc => hnot (hxc ▸ hsub x hx)
          rw [Function.update_of_ne hxc] at hcomp
          exact hmid'.ready x hx hen' hcomp
        apart := by
          refine hmid'.apart.imp_of_mem fun {a b} ha hb hab hda hdb hs => ?_
          have hac : a ≠ c := fun h => hnot (h ▸ hsub a ha)
          have hbc : b ≠ c := fun h => hnot (h ▸ hsub b hb)
          rw [Function.update_of_ne hac, Function.update_of_ne hbc]
          exact hab hda hdb hs }
    refine hseen.push hc ?_ fun j hj hs => (hsh j (hsub j hj) hs).2
    rw [hdrop.state, keyDown_flags]
    exact hd

end QmkFirmware.Combos
