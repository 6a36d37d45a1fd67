import Mathlib.Logic.Function.Iterate
import QmkFirmware.DynamicMacro.Slots
import QmkFirmware.Oneshot.Layer

/-!
Runs of keys and replayed events. `process_record` has the stored events by reference, and changes
one when it sets `record->event.pressed`.
-/

set_option autoImplicit false

namespace QmkFirmware.DynamicMacro

open TwoEnds

variable {ρ Ω : Type}

section
variable (kb : Keyboard ρ Ω)

/-- A replayed event is left as it is stored. -/
def Faithful (w : Watched ρ Ω) : Input ρ Ω → Prop
  | .resume =>
    match w.machine.frames with
    | [] => True
    | f :: _ =>
      let r := w.machine.state.macroBuffer f.macroBuffer
      f.macroBuffer ≠ f.macroEnd → (kb.pressed r = true ∨ kb.keycode r = .other) →
        (kb.processRecord r w.machine.outside).1 = r
  | .key _ | .outside _ => True

instance [DecidableEq ρ] (w : Watched ρ Ω) : ∀ i, Decidable (Faithful kb w i)
  | .resume =>
    match h : w.machine.frames with
    | [] => .isTrue (by rw [Faithful, h]; trivial)
    | _ :: _ => decidable_of_iff _ (iff_of_eq (by rw [Faithful, h])).symm
  | .key _ | .outside _ => .isTrue trivial

/-- A slot that is not being recorded keeps its events and its end. -/
def SlotsKept (s s' : State ρ) : Prop := ∀ e, s.macroId ≠ some e →
  s'.stored kb e = s.stored kb e ∧ s'.endOf e = s.endOf e

variable {kb} {w : Watched ρ Ω} {n : End → Nat}

theorem Sound.outside (h : Sound kb n w) (o : Ω) :
    Sound kb n { w with machine := { w.machine with outside := o } } where
  ends := h.ends
  fits := h.fits
  kept := h.kept
  recording := fun slot hid => by
    obtain ⟨hframes, k, hrec⟩ := h.recording slot hid
    exact ⟨hframes, k, hrec.pointer, hrec.fits, hrec.press, hrec.keys, hrec.exact⟩
  playing := h.playing

theorem Sound.noFrames (h : Sound kb n w) {slot : End}
    (hid : w.machine.state.macroId = some slot) : w.machine.frames = [] :=
  (h.recording slot hid).1

theorem Sound.played (h : Sound kb n w) (slot : End) :
    Playing kb w.machine.state n (dynamicMacroPlay kb w.machine.state slot) 0 := by
  rw [play_eq]
  exact ⟨Nat.zero_le _, place_zero.symm, h.ends slot, rfl, rfl⟩

theorem Sound.play (h : Sound kb n w) (hid : w.machine.state.macroId = none) (slot : End) (o : Ω) :
    Sound kb n { w with
      machine := ⟨w.machine.state,dynamicMacroPlay kb w.machine.state slot :: w.machine.frames,o⟩ }
      where
  ends := h.ends
  fits := h.fits
  kept := h.kept
  recording := fun e he => absurd (hid.symm.trans he) (Option.some_ne_none e).symm
  playing := fun f hf => by
    rcases List.mem_cons.mp hf with rfl | hf
    · exact ⟨0, h.played slot⟩
    · exact h.playing f hf

theorem slotsKept_of_eq {s s' : State ρ} (hbuf : s'.macroBuffer = s.macroBuffer)
    (hend : ∀ e, s'.endOf e = s.endOf e) : SlotsKept kb s s' := by
  intro e _
  rw [State.stored, State.stored, State.length, State.length, hend, hbuf]
  exact ⟨rfl, rfl⟩

def Goes (kb : Keyboard ρ Ω) (w : Watched ρ Ω) (i : Input ρ Ω) : Prop :=
  ∃ n w', w.next kb i = some w' ∧ Sound kb n w' ∧ SlotsKept kb w.machine.state w'.machine.state

variable {r : ρ} {slot : End}

theorem Sound.idle (h : Sound kb n w) {i : Input ρ Ω} (o : Ω)
    (hnext : w.next kb i = some { w with machine := { w.machine with outside := o } }) :
    Goes kb w i :=
  ⟨n, _, hnext, h.outside o, slotsKept_of_eq rfl fun _ => rfl⟩

theorem next_key {further : Bool} {s' : State ρ} {frame : Option (Frame ρ)}
    (hframes : w.machine.frames = [])
    (hprocess : processDynamicMacro kb r w.machine.state = some (further,s',frame)) :
    w.next kb (.key r) = some (w.note kb r ⟨s',frame.toList,
      if further then (kb.processRecord r w.machine.outside).2 else w.machine.outside⟩) := by
  cases further <;> simp [Watched.next, Machine.next, process, hframes, hprocess]

theorem note_same {m : Machine ρ Ω} (hr : w.machine.state.macroId = none ∨ records kb r = false)
    (hm : m.state.macroId = w.machine.state.macroId) : w.note kb r m = { w with machine := m } := by
  rw [Watched.note, hm]
  rcases hr with hid | hr
  · rw [hid]
  · rw [hr]
    cases w.machine.state.macroId <;> rfl

theorem Sound.passes (h : Sound kb n w) (further : Bool) (hframes : w.machine.frames = [])
    (hprocess : processDynamicMacro kb r w.machine.state = some (further,w.machine.state,none))
    (hr : w.machine.state.macroId = none ∨ records kb r = false) : Goes kb w (.key r) := by
  apply h.idle
  rw [next_key hframes hprocess, note_same hr (by rfl), Option.toList_none, ← hframes]

theorem Sound.slotsKept {n' : End → Nat} {w' : Watched ρ Ω} (h : Sound kb n w)
    (hid : w.machine.state.macroId = some slot) (h' : Sound kb n' w')
    (hn : n' slot.other = n slot.other)
    (hbuf : ∀ i < n slot.other, w'.machine.state.macroBuffer (place kb.size slot.other i)
      = w.machine.state.macroBuffer (place kb.size slot.other i)) :
    SlotsKept kb w.machine.state w'.machine.state := by
  intro e he
  rcases eq_or_other slot e with rfl | rfl
  · exact absurd hid he
  · exact h.same h' hn hbuf

theorem Sound.stopped (h : Sound kb n w) (hid : w.machine.state.macroId = some slot)
    (hprocess : processDynamicMacro kb r w.machine.state
      = (dynamicMacroStopRecording kb w.machine.state).bind fun s' => some (false,s',none)) :
    Goes kb w (.key r) := by
  obtain ⟨j, s', hs', hid', hbuf, h'⟩ := h.stop hid w.machine.outside
  refine ⟨_, _, ?_, h', h.slotsKept hid h' (Function.update_of_ne (other_ne slot) ..) fun i _ =>
    congrFun hbuf _⟩
  rw [next_key (h.noFrames hid) (by rw [hprocess, hs']; rfl), Watched.note, hid, hid']
  rfl

theorem Sound.recorded (h : Sound kb n w) (hid : w.machine.state.macroId = some slot)
    (hr : records kb r = true)
    (hprocess : processDynamicMacro kb r w.machine.state
      = (recordKey kb r w.machine.state).bind fun s' => some (true,s',none)) :
    Goes kb w (.key r) := by
  obtain ⟨s', hs', hid', hbuf, h'⟩ := h.record hid hr (kb.processRecord r w.machine.outside).2
  refine ⟨_, _, ?_, h', h.slotsKept hid h' rfl hbuf⟩
  rw [next_key (h.noFrames hid) (by rw [hprocess, hs']; rfl), Watched.note, hid, hid']
  dsimp only
  rw [hr]
  rfl

theorem Sound.keyRecording (h : Sound kb n w) (hid : w.machine.state.macroId = some slot) :
    Goes kb w (.key r) := by
  have hframes := h.noFrames hid
  cases hkey : kb.keycode r with
  | recordStart _ =>
    by_cases hr : kb.pressed r = true
    · apply h.passes false hframes _ (.inr (by simp [records, hkey]))
      simp [processDynamicMacro, hid, hkey, hr]
    · apply h.stopped hid
      simp [processDynamicMacro, hid, hkey, hr]
  | recordStop =>
    by_cases hr : kb.pressed r = true
    · apply h.stopped hid
      simp [processDynamicMacro, hid, hkey, hr]
    · apply h.passes false hframes _ (.inr (by simp [records, hkey]))
      simp [processDynamicMacro, hid, hkey, hr]
  | play _ =>
    by_cases hnest : kb.noNesting = true
    · apply h.passes false hframes _ (.inr (by simp [records, hkey, hnest]))
      simp [processDynamicMacro, hid, hkey, hnest]
    by_cases hvalid : kb.validKey r = true
    · apply h.recorded hid (by simp [records, hkey, hvalid, hnest])
      simp [processDynamicMacro, hid, hkey, hvalid, hnest]
    · apply h.passes true hframes _ (.inr (by simp [records, hvalid]))
      simp [processDynamicMacro, hid, hkey, hvalid, hnest]
  | other =>
    by_cases hvalid : kb.validKey r = true
    · apply h.recorded hid (by simp [records, hkey, hvalid])
      simp [processDynamicMacro, hid, hkey, hvalid]
    · apply h.passes true hframes _ (.inr (by simp [records, hvalid]))
      simp [processDynamicMacro, hid, hkey, hvalid]

theorem Sound.key (h : Sound kb n w) (r : ρ) : Goes kb w (.key r) := by
  cases hid : w.machine.state.macroId with
  | some slot => exact h.keyRecording hid
  | none =>
    cases hframes : w.machine.frames with
    | cons f frames =>
      apply h.idle w.machine.outside
      simp [Watched.next, Machine.next, Watched.note, hid, hframes]
      rw [← hframes]
    | nil =>
      by_cases hr : kb.pressed r = true
      · exact h.passes true hframes (by simp [processDynamicMacro, hid, hr]) (.inl hid)
      cases hkey : kb.keycode r with
      | recordStart slot =>
        refine ⟨n, _, ?_, h.start hid slot w.machine.outside,
          slotsKept_of_eq rfl fun e => by cases e <;> rfl⟩
        cases slot <;> simp [Watched.next, Machine.next, process, processDynamicMacro,
          Watched.note, hframes, hid, hr, hkey, dynamicMacroRecordStart, End.first]
      | recordStop | other =>
        exact h.passes true hframes (by simp [processDynamicMacro, hid, hr, hkey])
          (.inl hid)
      | play slot =>
        refine ⟨n, _, ?_, h.play hid slot w.machine.outside, slotsKept_of_eq rfl fun _ => rfl⟩
        simp [Watched.next, Machine.next, process, processDynamicMacro, Watched.note, hframes, hid,
          hr, hkey]

/-- A frame after its next event. -/
def Frame.advance (f : Frame ρ) (r : ρ) : Frame ρ :=
  { f with macroBuffer := f.macroBuffer+f.direction, replayed := f.replayed ++ [r] }

theorem Playing.advance {s : State ρ} {f : Frame ρ} {k : Nat} (h : Playing kb s n f k)
    (hk : k < n f.slot) : Playing kb s n (f.advance (s.macroBuffer f.macroBuffer)) (k+1) where
  le := hk
  position := by rw [Frame.advance, h.position, h.direction, place_succ]
  stop := h.stop
  direction := h.direction
  replayed := by rw [Frame.advance, slice_succ, ← h.replayed, h.position]

theorem Sound.resume {f : Frame ρ} {frames : List (Frame ρ)} (h : Sound kb n w)
    (hframes : w.machine.frames = f :: frames) (hf : Faithful kb w .resume) :
    ∃ o frames', w.next kb .resume = some { w with machine := ⟨w.machine.state,frames',o⟩ }
      ∧ Sound kb n { w with machine := ⟨w.machine.state,frames',o⟩ }
      ∧ (f.macroBuffer = f.macroEnd ∧ frames' = frames
        ∨ f.replayed.length < n f.slot ∧ ∃ r ∈ w.machine.state.stored kb f.slot,
          frames' = f.advance r :: frames
          ∨ kb.pressed r = false ∧ ∃ slot, kb.keycode r = .play slot
            ∧ frames' = dynamicMacroPlay kb w.machine.state slot :: f.advance r :: frames) := by
  have hid : w.machine.state.macroId = none := by
    cases hid : w.machine.state.macroId with
    | none => rfl
    | some slot => exact nomatch hframes.symm.trans (h.noFrames hid)
  have hsub : ∀ frames' o, (∀ g ∈ frames', ∃ k, Playing kb w.machine.state n g k) →
      Sound kb n { w with machine := ⟨w.machine.state,frames',o⟩ } := fun frames' o hplay =>
    ⟨h.ends,h.fits,h.kept,fun slot he => absurd (hid.symm.trans he) (Option.some_ne_none _).symm,hplay⟩
  have hplay := h.playing
  rw [hframes] at hplay
  obtain ⟨⟨k, hk⟩, hrest⟩ := List.forall_mem_cons.mp hplay
  by_cases hend : f.macroBuffer = f.macroEnd
  · refine ⟨w.machine.outside, frames, ?_, hsub _ _ hrest, .inl ⟨hend,rfl⟩⟩
    simp [Watched.next, Machine.next, hframes, hend]
  have hlt : k < n f.slot := by
    refine Nat.lt_of_le_of_ne hk.le fun he => hend ?_
    rw [hk.position, hk.stop, he]
  have hsize : k < kb.size := by
    have hfit := h.fitsOf f.slot
    omega
  obtain ⟨r, hr⟩ : ∃ r, w.machine.state.macroBuffer f.macroBuffer = r := ⟨_, rfl⟩
  have hload : load kb f.macroBuffer w.machine.state = some r := by
    rw [← hr, hk.position, load_place hsize]
  have hstore : store kb f.macroBuffer r w.machine.state = some w.machine.state := by
    rw [← hr, hk.position, store_place hsize, Function.update_eq_self]
  have hmem : r ∈ w.machine.state.stored kb f.slot := by
    rw [h.stored, ← hr, hk.position]
    exact List.mem_of_getElem? (getElem?_slice hlt)
  have hkeys : records kb r = true := by
    rw [h.stored] at hmem
    exact (h.kept f.slot (by rw [hid]; exact nofun)).keys r hmem
  have hadvance := hk.advance hlt
  rw [hr] at hadvance
  have hleft : f.replayed.length < n f.slot := by rwa [hk.replayed, length_slice]
  have hfurther : kb.pressed r = true ∨ kb.keycode r = .other →
      processDynamicMacro kb r w.machine.state = some (true,w.machine.state,none)
        ∧ (kb.processRecord r w.machine.outside).1 = r := by
    intro hr'
    rw [Faithful, hframes] at hf
    rw [← hr] at hr' ⊢
    refine ⟨?_, hf hend hr'⟩
    rcases hr' with hpress | hother
    · simp [processDynamicMacro, hid, hpress]
    · simp [processDynamicMacro, hid, hother]
  by_cases hr' : kb.pressed r = true ∨ kb.keycode r = .other
  · obtain ⟨hprocess, hsame⟩ := hfurther hr'
    refine ⟨(kb.processRecord r w.machine.outside).2, _, ?_,
      hsub _ _ (List.forall_mem_cons.mpr ⟨⟨_, hadvance⟩,hrest⟩), .inr ⟨hleft,r,hmem,.inl rfl⟩⟩
    simp [Watched.next, Machine.next, hframes, hend, hload, process, hprocess, hsame, hstore]
    rfl
  · obtain ⟨hpress, hother⟩ := not_or.mp hr'
    have hpress : kb.pressed r = false := Bool.eq_false_iff.mpr hpress
    cases hkey : kb.keycode r with
    | other => exact absurd hkey hother
    | recordStart _ | recordStop => simp [records, hkey] at hkeys
    | play slot =>
      refine ⟨w.machine.outside, _, ?_, hsub _ _ (List.forall_mem_cons.mpr ⟨?_,
        List.forall_mem_cons.mpr ⟨⟨_, hadvance⟩,hrest⟩⟩),
        .inr ⟨hleft,r,hmem,.inr ⟨hpress,slot,hkey,rfl⟩⟩⟩
      · simp [Watched.next, Machine.next, hframes, hend, hload, process, processDynamicMacro, hid,
          hpress, hkey, hstore]
        rfl
      · exact ⟨0, h.played slot⟩

end

section
variable (kb : Keyboard ρ Ω)

/-- One input after another, up to the first fault. -/
def next (o : Option (Watched ρ Ω)) (i : Input ρ Ω) : Option (Watched ρ Ω) := do (← o).next kb i

def FaithfulNow (o : Option (Watched ρ Ω)) (i : Input ρ Ω) : Prop :=
  match o with
  | some w => Faithful kb w i
  | none => True

instance [DecidableEq ρ] (o : Option (Watched ρ Ω)) (i : Input ρ Ω) :
    Decidable (FaithfulNow kb o i) :=
  match o with
  | some w => inferInstanceAs (Decidable (Faithful kb w i))
  | none => .isTrue trivial

/-- After `m` events of the macros being played. -/
def resumes (w : Watched ρ Ω) (m : Nat) : Option (Watched ρ Ω) :=
  (fun o => next kb o .resume)^[m] (some w)

def Plays (s : State ρ) (e e' : End) : Prop :=
  ∃ r ∈ s.stored kb e, kb.pressed r = false ∧ kb.keycode r = .play e'

/-- No macro contains a key that plays itself, also not by way of the other. -/
def NoLoop (s : State ρ) : Prop :=
  ∀ e, ¬Plays kb s e e ∧ ¬(Plays kb s e e.other ∧ Plays kb s e.other e)

/-- The innermost macro, above `frames`, has been replayed. -/
structure AtEnd (s : State ρ) (slot : End) (frames : List (Frame ρ)) (w : Watched ρ Ω) (f : Frame ρ) :
    Prop where
  state : w.machine.state = s
  frames : w.machine.frames = f :: frames
  played : f.slot = slot
  stop : f.macroBuffer = f.macroEnd
  replayed : f.replayed = s.stored kb slot

def Finishes (n : End → Nat) (s : State ρ) (slot : End) : Prop :=
  ∀ (w : Watched ρ Ω) (f : Frame ρ) (frames : List (Frame ρ)), Sound kb n w →
    w.machine.state = s → w.machine.frames = f :: frames → f.slot = slot →
    (∀ m, FaithfulNow kb (resumes kb w m) .resume) →
    ∃ m w' f', resumes kb w m = some w' ∧ Sound kb n w' ∧ AtEnd kb s slot frames w' f'

variable {kb} {w : Watched ρ Ω} {n : End → Nat}

theorem resumes_add {w' : Watched ρ Ω} {a : Nat} (h : resumes kb w a = some w') (b : Nat) :
    resumes kb w (b+a) = resumes kb w' b := by
  rw [resumes, Function.iterate_add_apply]
  exact congrArg _ h

theorem faithful_after {w' : Watched ρ Ω} {a : Nat} (h : resumes kb w a = some w')
    (hf : ∀ m, FaithfulNow kb (resumes kb w m) .resume) (m : Nat) :
    FaithfulNow kb (resumes kb w' m) .resume :=
  resumes_add h m ▸ hf (m+a)

theorem Sound.atEnd {f : Frame ρ} {frames : List (Frame ρ)} (h : Sound kb n w)
    (hframes : w.machine.frames = f :: frames) (hend : f.macroBuffer = f.macroEnd) :
    AtEnd kb w.machine.state f.slot frames w f := by
  obtain ⟨k, hk⟩ := h.playing f (by rw [hframes]; exact List.mem_cons_self)
  rw [hk.position, hk.stop, place_inj] at hend
  refine ⟨rfl,hframes,rfl,?_,?_⟩
  · rw [hk.position, hk.stop, hend]
  · rw [hk.replayed, h.stored, hend]

theorem AtEnd.return {s : State ρ} {slot : End} {frames : List (Frame ρ)} {f : Frame ρ}
    (h : Sound kb n w) (hend : AtEnd kb s slot frames w f) :
    ∃ w', resumes kb w 1 = some w' ∧ Sound kb n w' ∧ w'.machine.state = s
      ∧ w'.machine.frames = frames := by
  have hfaith : Faithful kb w .resume := by
    rw [Faithful, hend.frames]
    exact fun hne => absurd hend.stop hne
  obtain ⟨o, frames', hnext, h', ⟨-, rfl⟩ | ⟨hlt, -⟩⟩ := h.resume hend.frames hfaith
  · exact ⟨_, hnext, h', hend.state, rfl⟩
  · rw [hend.replayed, ← hend.state, ← hend.played, h.stored, length_slice] at hlt
    exact absurd hlt (Nat.lt_irrefl _)

theorem finishes_of {s : State ρ} {slot : End}
    (hsub : ∀ e, Plays kb s slot e → Finishes kb n s e) : Finishes kb n s slot := by
  intro w f frames h hs hframes hslot hf
  induction hleft : n slot-f.replayed.length using Nat.strong_induction_on generalizing w f with
  | h d ih =>
  subst hs hslot
  have hfaith : Faithful kb w .resume := hf 0
  obtain ⟨o, frames', hnext, h', ⟨hend, -⟩ | ⟨hlt, r, hr, hframes'⟩⟩ := h.resume hframes hfaith
  · exact ⟨0, w, f, rfl, h, h.atEnd hframes hend⟩
  have hone : resumes kb w 1 = some _ := hnext
  have hf' := faithful_after hone hf
  have hshorter : n f.slot-(f.advance r).replayed.length < d := by
    simp only [Frame.advance, List.length_append, List.length_singleton]
    omega
  rcases hframes' with rfl | ⟨hpress, e, hkey, rfl⟩
  · obtain ⟨m, w', f', hw', hfinal⟩ := ih _ hshorter _ (f.advance r) h' rfl rfl rfl hf' rfl
    exact ⟨m+1, w', f', (resumes_add hone m).trans hw', hfinal⟩
  · -- The nested macro is played to its end first.
    obtain ⟨a, w₂, g, hw₂, h₂, hend⟩ :=
      hsub e ⟨r,hr,hpress,hkey⟩ _ (dynamicMacroPlay kb w.machine.state e) _ h' rfl rfl
        (by rw [play_eq]) hf'
    obtain ⟨w₃, hw₃, h₃, hs₃, hframes₃⟩ := hend.return h₂
    have hf₃ := faithful_after hw₃ (faithful_after hw₂ hf')
    obtain ⟨m, w', f', hw', hfinal⟩ := ih _ hshorter w₃ (f.advance r) h₃ hs₃ hframes₃ rfl hf₃ rfl
    refine ⟨m+1+a+1, w', f', ?_, hfinal⟩
    rw [resumes_add hone, resumes_add hw₂, resumes_add hw₃, hw']

theorem NoLoop.finishes {s : State ρ} (h : NoLoop kb s) (slot : End) : Finishes kb n s slot := by
  refine finishes_of fun e he => ?_
  obtain rfl : e = slot.other := (eq_or_other slot e).resolve_left fun hself => (h slot).1 (hself ▸ he)
  refine finishes_of fun e' he' => ?_
  rcases eq_or_other slot e' with rfl | rfl
  · exact absurd ⟨he,he'⟩ (h _).2
  · exact absurd he' (h _).1

theorem Sound.goes (h : Sound kb n w) {i : Input ρ Ω} (hf : Faithful kb w i) : Goes kb w i := by
  cases i with
  | key r => exact h.key r
  | outside o => exact h.idle o rfl
  | resume =>
    cases hframes : w.machine.frames with
    | nil =>
      apply h.idle w.machine.outside
      simp [Watched.next, Machine.next, hframes]
      rw [← hframes]
    | cons f frames =>
      obtain ⟨o, frames', hnext, h', -⟩ := h.resume hframes hf
      exact ⟨n, _, hnext, h', slotsKept_of_eq rfl fun _ => rfl⟩

structure Apart (kb : Keyboard ρ Ω) (s : State ρ) : Prop where
  front : 0 ≤ s.macroEnd
  meet : s.macroEnd ≤ s.rMacroEnd+1
  back : s.rMacroEnd < kb.size
  recording : ∀ slot, s.macroId = some slot → match slot with
    | .front => 0 ≤ s.macroPointer ∧ s.macroPointer ≤ s.rMacroEnd+1
    | .back => s.macroEnd ≤ s.macroPointer+1 ∧ s.macroPointer < kb.size
  write : ∀ slot, s.macroId = some slot → s.isFull slot = false → match slot with
    | .front => s.macroPointer ≤ s.rMacroEnd
    | .back => s.macroEnd ≤ s.macroPointer

/-- The slots do not interfere, and each plays what has been recorded. -/
structure Consistent (kb : Keyboard ρ Ω) (w : Watched ρ Ω) : Prop where
  apart : Apart kb w.machine.state
  kept : ∀ e, w.machine.state.macroId ≠ some e →
    Kept kb (w.machine.state.stored kb e) (w.takes e)
  replayed : ∀ f ∈ w.machine.frames, f.replayed <+: w.machine.state.stored kb f.slot
  exact : ∀ f ∈ w.machine.frames, f.macroBuffer = f.macroEnd →
    f.replayed = w.machine.state.stored kb f.slot

theorem Sound.apart (h : Sound kb n w) : Apart kb w.machine.state := by
  have hfits := h.fits
  have hfront := h.ends .front
  have hback := h.ends .back
  simp only [State.endOf, place, End.first, End.direction] at hfront hback
  have hpointer : ∀ slot, w.machine.state.macroId = some slot → match slot with
      | .front => 0 ≤ w.machine.state.macroPointer
        ∧ w.machine.state.macroPointer ≤ w.machine.state.rMacroEnd+1
      | .back => w.machine.state.macroEnd ≤ w.machine.state.macroPointer+1
        ∧ w.machine.state.macroPointer < kb.size := by
    intro slot hid
    obtain ⟨-, k, hrec⟩ := h.recording slot hid
    have hfit := hrec.fits
    have hp := hrec.pointer
    cases slot <;> simp only [place, End.first, End.direction, End.other] at hp hfit ⊢ <;> omega
  refine ⟨by omega,by omega,by omega,hpointer,fun slot hid hfull => ?_⟩
  have hp := hpointer slot hid
  have hroom := of_decide_eq_false hfull
  cases slot <;> simp only [State.endOf, End.direction, End.other] at hp hroom ⊢ <;> omega

theorem Sound.consistent (h : Sound kb n w) : Consistent kb w where
  apart := h.apart
  kept := fun e he => h.stored e ▸ h.kept e he
  replayed := fun f hf => by
    obtain ⟨k, hk⟩ := h.playing f hf
    rw [hk.replayed, h.stored, ← take_slice hk.le]
    exact List.take_prefix ..
  exact := fun f hf hend => by
    obtain ⟨k, hk⟩ := h.playing f hf
    rw [hk.position, hk.stop, place_inj] at hend
    rw [hk.replayed, h.stored, hend]

/-- Dynamic macros work as long as `process_record` leaves the replayed events alone. -/
theorem slots_apart {blank : ρ} {o : Ω} {is : List (Input ρ Ω)}
    (h : Along (next kb) (FaithfulNow kb) (some (boot kb blank o)) is) :
    ∃ w, is.foldl (next kb) (some (boot kb blank o)) = some w ∧ Consistent kb w
      ∧ (∀ i, Faithful kb w i →
        ∃ w', w.next kb i = some w' ∧ SlotsKept kb w.machine.state w'.machine.state)
      ∧ ∀ f frames, w.machine.frames = f :: frames → NoLoop kb w.machine.state →
        (∀ m, FaithfulNow kb (resumes kb w m) .resume) →
        ∃ m w' f', resumes kb w m = some w' ∧ AtEnd kb w.machine.state f.slot frames w' f' := by
  obtain ⟨w, hw, n, hsound⟩ := h.invariant (I := fun r => ∃ w, r = some w ∧ ∃ n, Sound kb n w)
    (fun r i ⟨w, hr, n, hsound⟩ hfaith => by
      subst hr
      obtain ⟨n', w', hnext, hsound', -⟩ := hsound.goes hfaith
      exact ⟨w', hnext, n', hsound'⟩)
    ⟨_, rfl, _, boot_sound blank o⟩
  refine ⟨w, hw, hsound.consistent, fun i hi => ?_, fun f frames hframes hloop hf => ?_⟩
  · obtain ⟨n', w', hnext, -, hkept⟩ := hsound.goes hi
    exact ⟨w', hnext, hkept⟩
  · obtain ⟨m, w', f', hw', -, hend⟩ := hloop.finishes f.slot w f frames hsound rfl hframes rfl hf
    exact ⟨m, w', f', hw', hend⟩

end

structure Event where
  key : Nat
  record : Oneshot.Record
  deriving DecidableEq, Repr

def keycodeOf : Nat → Keycode
  | 0 => .recordStart .front
  | 1 => .play .front
  | _ => .other

def actionOf : Nat → Oneshot.Action
  | 2 => .oneshotLayer 1
  | 3 => .other 4
  | _ => .other 0

/-- Two dynamic macro keys, a one-shot layer key and a letter. -/
def oneshotKeyboard : Keyboard Event Oneshot.State where
  size := 8
  size_pos := Nat.succ_pos 7
  noNesting := false
  pressed := fun e => e.record.pressed
  keycode := fun e => keycodeOf e.key
  validKey := fun _ => true
  processRecord := fun e s =>
    let (record, s) := Oneshot.processRecord e.record (actionOf e.key) s
    (⟨e.key,record⟩,s)

def down (key tapCount : Nat) : Input Event Oneshot.State := .key ⟨key,⟨true,tapCount⟩⟩

def up (key tapCount : Nat) : Input Event Oneshot.State := .key ⟨key,⟨false,tapCount⟩⟩

def bootOneshot : Watched Event Oneshot.State :=
  boot oneshotKeyboard ⟨0,⟨false,0⟩⟩ ⟨⟨0,0⟩,true,fun _ => false⟩

def letterRun : List (Input Event Oneshot.State) :=
  [down 0 0,up 0 0,down 3 0,up 3 0,down 0 0,up 0 0,down 1 0,up 1 0,.resume,.resume,.resume]

theorem slots_apart_letter :
    ∃ w, letterRun.foldl (next oneshotKeyboard) (some bootOneshot) = some w
      ∧ Consistent oneshotKeyboard w
      ∧ (∀ i, Faithful oneshotKeyboard w i → ∃ w', w.next oneshotKeyboard i = some w'
        ∧ SlotsKept oneshotKeyboard w.machine.state w'.machine.state)
      ∧ ∀ f frames, w.machine.frames = f :: frames → NoLoop oneshotKeyboard w.machine.state →
        (∀ m, FaithfulNow oneshotKeyboard (resumes oneshotKeyboard w m) .resume) →
        ∃ m w' f', resumes oneshotKeyboard w m = some w'
          ∧ AtEnd oneshotKeyboard w.machine.state f.slot frames w' f' :=
  slots_apart (by decide +kernel)

/-- A one-shot layer for the letter, recorded and played twice. The press of the letter calls
`process_record` for a release, which is recorded before the one that the key sends. -/
def layeredRun : List (Input Event Oneshot.State) :=
  [up 0 0,down 2 1,up 2 1,down 3 0,up 3 0,up 3 0,up 0 0,up 1 0,.resume,.resume,.resume,.resume,
    .resume,.resume,up 1 0,.resume,.resume,.resume,.resume,.resume]

/-- The second time the letter is not pressed. -/
theorem replay_differs : (layeredRun.foldl (next oneshotKeyboard) (some bootOneshot)).map (fun w =>
      (w.machine.frames.map fun f => (decide (f.macroBuffer = f.macroEnd),
          f.replayed.map fun e => (e.key,e.record.pressed)),
        (w.takes .front).2,
        (trimmed oneshotKeyboard (w.takes .front).1).map fun e => (e.key,e.record.pressed)))
    = some ([(true,[(2,true),(2,false),(3,false),(3,false),(3,false)])],false,
      [(2,true),(2,false),(3,true),(3,false),(3,false)]) := by
  decide +kernel

end QmkFirmware.DynamicMacro
