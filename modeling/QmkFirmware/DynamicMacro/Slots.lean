import Mathlib.Data.List.DropRight
import QmkFirmware.DynamicMacro.Core
import QmkFirmware.Lib.Along

/-!
The two slots share the buffer without interference, and a slot plays what has been recorded.
-/

set_option autoImplicit false

namespace QmkFirmware.DynamicMacro

open TwoEnds

variable {ρ Ω : Type}

section
variable (kb : Keyboard ρ Ω)

def State.setEnd (s : State ρ) (i : Int) : End → State ρ
  | .front => { s with macroEnd := i }
  | .back => { s with rMacroEnd := i }

theorem endOf_setEnd (s : State ρ) (i : Int) (slot e : End) :
    (s.setEnd i slot).endOf e = if e = slot then i else s.endOf e := by
  cases slot <;> cases e <;> rfl

variable {kb} {s : State ρ} {slot : End}

theorem recordKey_eq {r : ρ} (h : s.macroId = some slot) : recordKey kb r s
    = dynamicMacroRecordKey kb (slot.first kb.size) (s.endOf slot.other) slot.direction r s := by
  cases slot <;> simp [recordKey, h] <;> rfl

theorem stop_eq (h : s.macroId = some slot) : dynamicMacroStopRecording kb s
    = (dynamicMacroRecordEnd kb (slot.first kb.size) slot.direction s).map
      fun i => { s.setEnd i slot with macroId := none } := by
  cases slot <;> simp only [dynamicMacroStopRecording, h, End.first, End.direction, State.setEnd]
  · cases dynamicMacroRecordEnd kb 0 1 s <;> rfl
  · cases dynamicMacroRecordEnd kb (kb.size-1) (-1) s <;> rfl

theorem play_eq : dynamicMacroPlay kb s slot
    = ⟨slot,slot.first kb.size,s.endOf slot,slot.direction,[]⟩ := by
  cases slot <;> rfl

theorem load_place {k : Nat} (h : k < kb.size) :
    load kb (place kb.size slot k) s = some (s.macroBuffer (place kb.size slot k)) :=
  if_pos (place_inside h)

theorem store_place {k : Nat} {r : ρ} (h : k < kb.size) : store kb (place kb.size slot k) r s
    = some { s with macroBuffer := Function.update s.macroBuffer (place kb.size slot k) r } :=
  if_pos (place_inside h)

theorem recordKey_place {k n : Nat} {r : ρ} (hid : s.macroId = some slot)
    (hp : s.macroPointer = place kb.size slot k)
    (hend : s.endOf slot.other = place kb.size slot.other n) (hfit : k+n ≤ kb.size) :
    recordKey kb r s = some (if kb.pressed r = false ∧ k = 0 ∨ k+n = kb.size then s else
      { s with
        macroBuffer := Function.update s.macroBuffer (place kb.size slot k) r
        macroPointer := place kb.size slot (k+1) }) := by
  have hfirst : s.macroPointer = slot.first kb.size ↔ k = 0 := by
    rw [hp, ← place_zero, place_inj]
  have hfull : s.macroPointer-slot.direction = s.endOf slot.other ↔ k+n = kb.size := by
    rw [hp, hend, place_meets]
  rw [recordKey_eq hid, dynamicMacroRecordKey]
  simp only [hfirst, ne_eq, hfull]
  by_cases hlead : kb.pressed r = false ∧ k = 0
  · rw [if_pos hlead, if_pos (.inl hlead)]
  by_cases hk : k+n = kb.size
  · rw [if_neg hlead, if_neg (not_not.mpr hk), if_pos (.inr hk)]
  · rw [if_neg hlead, if_pos hk, if_neg (not_or.mpr ⟨hlead,hk⟩), hp, store_place (by omega)]
    simp only [Option.bind_eq_bind, Option.bind_some, hp, place_succ]

theorem recordEnd_place (slot : End) {n k : Nat} (hn : k ≤ n) (hk : k ≤ kb.size) :
    ∃ j ≤ k, trimPresses kb (slot.first kb.size) slot.direction s n (place kb.size slot k)
        = some (place kb.size slot j)
      ∧ slice s.macroBuffer kb.size slot j
        = (slice s.macroBuffer kb.size slot k).rdropWhile kb.pressed := by
  induction n generalizing k with
  | zero =>
    obtain rfl : k = 0 := by omega
    exact ⟨0, Nat.le_refl _, rfl, rfl⟩
  | succ n ih =>
    cases k with
    | zero =>
      refine ⟨0, Nat.le_refl _, ?_, rfl⟩
      rw [trimPresses, place_zero, if_pos rfl]
    | succ k =>
      have hne : place kb.size slot (k+1) ≠ slot.first kb.size := by
        rw [← place_zero, ne_eq, place_inj]
        omega
      rw [trimPresses, if_neg hne, place_pred, load_place (by omega), slice_succ]
      simp only [Option.bind_eq_bind, Option.bind_some]
      by_cases hr : kb.pressed (s.macroBuffer (place kb.size slot k)) = true
      · obtain ⟨j, hj, htrim, hslice⟩ := ih (k := k) (by omega) (by omega)
        refine ⟨j, by omega, by rw [if_pos hr, htrim], ?_⟩
        rw [hslice, List.rdropWhile_concat_pos _ _ _ hr]
      · refine ⟨k+1, Nat.le_refl _, by rw [if_neg hr], ?_⟩
        rw [List.rdropWhile_concat_neg _ _ _ hr, slice_succ]

end

section
variable (kb : Keyboard ρ Ω)

def State.length (s : State ρ) (e : End) : Nat :=
  (e.direction*(s.endOf e-e.first kb.size)).toNat

/-- The events between the pointers of a slot. -/
def State.stored (s : State ρ) (e : End) : List ρ :=
  slice s.macroBuffer kb.size e (s.length kb e)

def records (r : ρ) : Bool :=
  kb.validKey r && match kb.keycode r with
    | .other => true
    | .play _ => !kb.noNesting
    | .recordStart _ | .recordStop => false

/-- Without leading releases and trailing presses. -/
def trimmed (events : List ρ) : List ρ :=
  (events.dropWhile fun r => !kb.pressed r).rdropWhile kb.pressed

/-- With the events since a recording was started, whether one has found the buffer full, and both
for the last finished recording of each slot. -/
structure Watched (ρ Ω : Type) where
  machine : Machine ρ Ω
  heard : List ρ
  full : Bool
  takes : End → List ρ × Bool

def boot (blank : ρ) (o : Ω) : Watched ρ Ω := ⟨⟨init kb blank,[],o⟩,[],false,fun _ => ([],false)⟩

def State.isFull (s : State ρ) (slot : End) : Bool :=
  decide (s.macroPointer-slot.direction = s.endOf slot.other)

def Watched.note (w : Watched ρ Ω) (r : ρ) (m : Machine ρ Ω) : Watched ρ Ω :=
  match w.machine.state.macroId, m.state.macroId with
  | none, none => { w with machine := m }
  | none, some _ => { w with machine := m, heard := [], full := false }
  | some slot, none =>
    { w with machine := m, takes := Function.update w.takes slot (w.heard,w.full) }
  | some slot, some _ =>
    if records kb r then
      { w with
        machine := m
        heard := w.heard ++ [r]
        full := w.full || w.machine.state.isFull slot }
    else { w with machine := m }

def Watched.next (w : Watched ρ Ω) (i : Input ρ Ω) : Option (Watched ρ Ω) := do
  let m ← w.machine.next kb i
  match i with
  | .key r => some (w.note kb r m)
  | .resume | .outside _ => some { w with machine := m }

structure Kept (events : List ρ) (take : List ρ × Bool) : Prop where
  press : ∀ r ∈ events.head?, kb.pressed r = true
  release : ∀ r ∈ events.getLast?, kb.pressed r = false
  keys : ∀ r ∈ events, records kb r = true
  exact : take.2 = false → events = trimmed kb take.1

structure Recording (w : Watched ρ Ω) (n : End → Nat) (slot : End) (k : Nat) : Prop where
  pointer : w.machine.state.macroPointer = place kb.size slot k
  fits : k+n slot.other ≤ kb.size
  press : ∀ r ∈ (slice w.machine.state.macroBuffer kb.size slot k).head?, kb.pressed r = true
  keys : ∀ r ∈ slice w.machine.state.macroBuffer kb.size slot k, records kb r = true
  exact : w.full = false → slice w.machine.state.macroBuffer kb.size slot k
    = w.heard.dropWhile fun r => !kb.pressed r

structure Playing (s : State ρ) (n : End → Nat) (f : Frame ρ) (k : Nat) : Prop where
  le : k ≤ n f.slot
  position : f.macroBuffer = place kb.size f.slot k
  stop : f.macroEnd = place kb.size f.slot (n f.slot)
  direction : f.direction = f.slot.direction
  replayed : f.replayed = slice s.macroBuffer kb.size f.slot k

/-- The slots hold `n` events each. -/
structure Sound (n : End → Nat) (w : Watched ρ Ω) : Prop where
  ends : ∀ e, w.machine.state.endOf e = place kb.size e (n e)
  fits : n .front+n .back ≤ kb.size
  kept : ∀ e, w.machine.state.macroId ≠ some e →
    Kept kb (slice w.machine.state.macroBuffer kb.size e (n e)) (w.takes e)
  recording : ∀ slot, w.machine.state.macroId = some slot →
    w.machine.frames = [] ∧ ∃ k, Recording kb w n slot k
  playing : ∀ f ∈ w.machine.frames, ∃ k, Playing kb w.machine.state n f k

variable {kb} {w : Watched ρ Ω} {n : End → Nat}

theorem boot_sound (blank : ρ) (o : Ω) : Sound kb (fun _ => 0) (boot kb blank o) where
  ends := fun e => by cases e <;> simp [boot, init, State.endOf, place, End.first]
  fits := Nat.zero_le _
  kept := fun _ _ => ⟨(fun _ h => nomatch h),(fun _ h => nomatch h),(fun _ h => nomatch h),
    fun _ => rfl⟩
  recording := fun _ h => nomatch h
  playing := fun _ h => nomatch h

theorem Sound.fitsOf (h : Sound kb n w) (e : End) : n e+n e.other ≤ kb.size := by
  cases e
  · exact h.fits
  · exact (Nat.add_comm ..).trans_le h.fits

theorem Sound.stored (h : Sound kb n w) (e : End) : w.machine.state.stored kb e
    = slice w.machine.state.macroBuffer kb.size e (n e) := by
  have hlen : w.machine.state.length kb e = n e := by
    rw [State.length, h.ends]
    cases e <;> simp only [place, End.direction] <;> omega
  rw [State.stored, hlen]

theorem head?_of_start {l l' : List ρ} (h : l <+: l') {r : ρ} (hr : r ∈ l.head?) :
    r ∈ l'.head? := by
  obtain ⟨t, rfl⟩ := h
  cases l with
  | nil => exact nomatch hr
  | cons a l => exact hr

theorem Sound.start (h : Sound kb n w) (hid : w.machine.state.macroId = none) (slot : End)
    (o : Ω) : Sound kb n { w with
      machine := ⟨{ w.machine.state with
        macroPointer := slot.first kb.size
        macroId := some slot },[],o⟩
      heard := []
      full := false } where
  ends := h.ends
  fits := h.fits
  kept := fun e _ => h.kept e (by rw [hid]; exact nofun)
  recording := fun e he => by
    cases he
    have hfit := h.fitsOf slot
    exact ⟨rfl, 0, place_zero.symm, by omega, (fun _ hr => nomatch hr), (fun _ hr => nomatch hr),
      fun _ => rfl⟩
  playing := fun _ hf => nomatch hf

theorem kept_trimmed {events heard : List ρ} {full : Bool}
    (hpress : ∀ r ∈ events.head?, kb.pressed r = true) (hkeys : ∀ r ∈ events, records kb r = true)
    (hexact : full = false → events = heard.dropWhile fun r => !kb.pressed r) :
    Kept kb (events.rdropWhile kb.pressed) (heard,full) where
  press := fun r hr => hpress r (head?_of_start (List.rdropWhile_prefix ..) hr)
  release := fun r hr => by
    have hne : events.rdropWhile kb.pressed ≠ [] := fun he => by simp [he] at hr
    have hlast := List.rdropWhile_last_not kb.pressed events hne
    rw [List.getLast?_eq_getLast_of_ne_nil hne] at hr
    cases hr
    simpa using hlast
  keys := fun r hr => hkeys r ((List.rdropWhile_prefix ..).mem hr)
  exact := fun hf => by rw [trimmed, hexact hf]

theorem Sound.same {w' : Watched ρ Ω} {n' : End → Nat} {e : End} (h : Sound kb n w)
    (h' : Sound kb n' w') (hn : n' e = n e)
    (hbuf : ∀ i < n e, w'.machine.state.macroBuffer (place kb.size e i)
      = w.machine.state.macroBuffer (place kb.size e i)) :
    w'.machine.state.stored kb e = w.machine.state.stored kb e
      ∧ w'.machine.state.endOf e = w.machine.state.endOf e := by
  rw [h.stored, h'.stored, h.ends, h'.ends, hn]
  exact ⟨slice_congr hbuf, rfl⟩

theorem Sound.stop {slot : End} (h : Sound kb n w) (hid : w.machine.state.macroId = some slot)
    (o : Ω) : ∃ j s', dynamicMacroStopRecording kb w.machine.state = some s'
      ∧ s'.macroId = none ∧ s'.macroBuffer = w.machine.state.macroBuffer
      ∧ Sound kb (Function.update n slot j) { w with
          machine := ⟨s',[],o⟩
          takes := Function.update w.takes slot (w.heard,w.full) } := by
  obtain ⟨-, k, hrec⟩ := h.recording slot hid
  obtain ⟨j, hj, htrim, hslice⟩ := recordEnd_place (s := w.machine.state) slot
    (Nat.le_of_add_right_le hrec.fits) (Nat.le_of_add_right_le hrec.fits)
  have hstop : dynamicMacroStopRecording kb w.machine.state = some
      { w.machine.state.setEnd (place kb.size slot j) slot with macroId := none } := by
    rw [stop_eq hid, dynamicMacroRecordEnd, hrec.pointer, htrim]
    rfl
  have hbuf : (w.machine.state.setEnd (place kb.size slot j) slot).macroBuffer
      = w.machine.state.macroBuffer := by cases slot <;> rfl
  refine ⟨j, _, hstop, rfl, hbuf, ?_, ?_, ?_, (fun _ he => nomatch he), (fun _ hf => nomatch hf)⟩
  · intro e
    have hset := endOf_setEnd w.machine.state (place kb.size slot j) slot e
    refine hset.trans ?_
    rw [Function.update_apply]
    split_ifs with he
    · rw [he]
    · exact h.ends e
  · have hfits := hrec.fits
    cases slot <;> simp [End.other] at hfits ⊢ <;> omega
  · intro e _
    simp only [hbuf, Function.update_apply]
    split_ifs with he
    · subst he
      rw [hslice]
      exact kept_trimmed hrec.press hrec.keys hrec.exact
    · refine h.kept e fun hid' => he ?_
      rw [hid] at hid'
      exact (Option.some.inj hid').symm

theorem Sound.record {slot : End} {r : ρ} (h : Sound kb n w)
    (hid : w.machine.state.macroId = some slot) (hr : records kb r = true) (o : Ω) :
    ∃ s', recordKey kb r w.machine.state = some s' ∧ s'.macroId = some slot
      ∧ (∀ i < n slot.other, s'.macroBuffer (place kb.size slot.other i)
        = w.machine.state.macroBuffer (place kb.size slot.other i))
      ∧ Sound kb n { w with
          machine := ⟨s',[],o⟩
          heard := w.heard ++ [r]
          full := w.full || w.machine.state.isFull slot } := by
  obtain ⟨-, k, hrec⟩ := h.recording slot hid
  have hkept : ∀ (s' : State ρ) k, s'.macroId = some slot → (∀ e, s'.endOf e = place kb.size e (n e))
      → (∀ i < n slot.other, s'.macroBuffer (place kb.size slot.other i)
        = w.machine.state.macroBuffer (place kb.size slot.other i))
      → Recording kb { w with
          machine := ⟨s',[],o⟩
          heard := w.heard ++ [r]
          full := w.full || w.machine.state.isFull slot } n slot k
      → Sound kb n { w with
          machine := ⟨s',[],o⟩
          heard := w.heard ++ [r]
          full := w.full || w.machine.state.isFull slot } := by
    intro s' k hid' hends hbuf hrec'
    refine ⟨hends, h.fits, fun e he => ?_, fun e he => ?_, (fun _ hf => nomatch hf)⟩
    · rcases eq_or_other slot e with rfl | rfl
      · exact absurd hid' he
      · dsimp only
        rw [slice_congr hbuf]
        refine h.kept _ fun hid'' => other_ne slot ?_
        rw [hid] at hid''
        exact (Option.some.inj hid'').symm
    · obtain rfl : slot = e := Option.some.inj (hid'.symm.trans he)
      exact ⟨rfl, k, hrec'⟩
  rw [recordKey_place hid hrec.pointer (h.ends _) hrec.fits]
  have hfull : w.machine.state.isFull slot = decide (k+n slot.other = kb.size) := by
    rw [State.isFull, hrec.pointer, h.ends, decide_eq_decide]
    exact place_meets
  by_cases hstay : kb.pressed r = false ∧ k = 0 ∨ k+n slot.other = kb.size
  · rw [if_pos hstay]
    refine ⟨_, rfl, hid, fun _ _ => rfl, hkept _ k hid h.ends (fun _ _ => rfl)
      ⟨hrec.pointer,hrec.fits,hrec.press,hrec.keys,fun hf => ?_⟩⟩
    -- Not full, so that a leading release is left out.
    simp only [hfull, Bool.or_eq_false_iff, decide_eq_false_iff_not] at hf
    obtain ⟨hrel, rfl⟩ := hstay.resolve_right hf.2
    have hnone := hrec.exact hf.1
    rw [slice_zero] at hnone ⊢
    rw [List.dropWhile_append, ← hnone]
    simp [hrel]
  · rw [if_neg hstay]
    obtain ⟨hlead, hroom⟩ := not_or.mp hstay
    have hfit := hrec.fits
    have hbuf : ∀ i < n slot.other,
        Function.update w.machine.state.macroBuffer (place kb.size slot k) r
          (place kb.size slot.other i) = w.machine.state.macroBuffer (place kb.size slot.other i) :=
      fun i hi => Function.update_of_ne (place_ne hi (by omega)).symm ..
    have hpress : slice w.machine.state.macroBuffer kb.size slot k = [] → kb.pressed r = true :=
      fun hnil => by
        have hk : k = 0 := by
          rw [← length_slice (k := k), hnil]
          rfl
        simpa [hk] using hlead
    refine ⟨_, rfl, hid, hbuf, hkept _ (k+1) hid h.ends hbuf ⟨rfl,by omega,?_,?_,?_⟩⟩
    · dsimp only
      rw [slice_push]
      intro r' hr'
      cases hslice : slice w.machine.state.macroBuffer kb.size slot k with
      | nil =>
        rw [hslice] at hr'
        cases hr'
        exact hpress hslice
      | cons first rest =>
        rw [hslice] at hr'
        exact hrec.press r' (by rw [hslice]; exact hr')
    · dsimp only
      rw [slice_push]
      intro r' hr'
      rcases List.mem_append.mp hr' with hold | hnew
      · exact hrec.keys r' hold
      · rwa [List.mem_singleton.mp hnew]
    · intro hf
      have hold := hrec.exact (Bool.or_eq_false_iff.mp hf).1
      dsimp only
      rw [slice_push, List.dropWhile_append, ← hold]
      split_ifs with hnil
      · simp [List.isEmpty_iff.mp hnil, hpress (List.isEmpty_iff.mp hnil)]
      · rfl

end

end QmkFirmware.DynamicMacro
