import QmkFirmware.Tapping.KeySide
import QmkFirmware.Tapping.Order

/-!
The engine projected to one key. A round of the drain loop is made of steps of each key's side,
unless a tap key replaces a multi-tapped one or the scan of the buffer takes a later release
than the next one.
-/

set_option autoImplicit false

namespace QmkFirmware.Tapping

def Sent.passedRecord : Sent → Option KeyRecord
  | .record r | .early r => some r
  | .synthesized _ | .clearKeyboard => none

def recordOf (key : KeyPos) (r : KeyRecord) : Bool := r.event.key = key

/-- The records of a key that were passed on. -/
def passedOf (key : KeyPos) (out : List Sent) : List KeyRecord :=
  (out.filterMap Sent.passedRecord).filter (recordOf key)

def stageOf (tk : KeyRecord) (key : KeyPos) : Stage :=
  if !tk.event.isNoEvent && tk.event.pressed && tk.event.key = key then
    if tk.tap.count = 0 then .pending tk.event else .tapped tk.tap.count
  else .away

def State.side (s : State) (key : KeyPos) : Side :=
  ⟨passedOf key s.out,stageOf s.tappingKey key,s.waitingBuffer.filter (recordOf key)⟩

theorem passedOf_own {key : KeyPos} {x : Sent} {r : KeyRecord} (out : List Sent)
    (hx : x.passedRecord = some r) (hr : r.event.key = key) :
    passedOf key (out ++ [x]) = passedOf key out ++ [r] := by
  simp [passedOf, hx, recordOf, hr]

theorem passedOf_other {key : KeyPos} {x : Sent} {r : KeyRecord} (out : List Sent)
    (hx : x.passedRecord = some r) (hr : r.event.key ≠ key) :
    passedOf key (out ++ [x]) = passedOf key out := by
  simp [passedOf, hx, recordOf, hr]

theorem passedOf_unregister (key : KeyPos) (k : KeyRecord) (s : State) :
    passedOf key (unregister k s).out = passedOf key s.out := by
  unfold unregister
  split
  · simp [passedOf, State.send, Sent.passedRecord]
  · rfl

@[simp] theorem stageOf_zero (key : KeyPos) : stageOf .zero key = .away := rfl

@[simp] theorem stageOf_interrupt (tk : KeyRecord) (key : KeyPos) :
    stageOf (interrupt tk) key = stageOf tk key := rfl

theorem stageOf_released {tk : KeyRecord} (key : KeyPos) (h : tk.event.pressed = false) :
    stageOf tk key = .away := by
  simp [stageOf, h]

theorem stageOf_other {tk : KeyRecord} {key : KeyPos} (h : tk.event.key ≠ key) :
    stageOf tk key = .away := by
  simp [stageOf, h]

theorem stageOf_pressed {tk : KeyRecord} (ht : tk.event.isNoEvent = false)
    (hp : tk.event.pressed = true) :
    stageOf tk tk.event.key
      = if tk.tap.count = 0 then .pending tk.event else .tapped tk.tap.count := by
  simp [stageOf, ht, hp]

theorem stageOf_tapOnce {tk : KeyRecord} (ht : tk.event.isNoEvent = false)
    (hp : tk.event.pressed = true) : stageOf (tapOnce tk) tk.event.key = .tapped 1 := by
  simp [stageOf, ht, hp]

def replacesMulti (cfg : Config) (s : State) (k : KeyRecord) : Bool :=
  k.event.pressed && isTapRecord cfg k && s.active && s.tappingKey.event.pressed
    && 1 < s.tappingKey.tap.count

/-- `waiting_buffer_scan_tap` takes a release of the new tapping key for a tap that is not the
next event of the key. -/
def scanSkips (cfg : Config) (k : KeyRecord) (buffer : List KeyRecord) : Bool :=
  let own := buffer.filter (recordOf k.event.key)
  own.any (tapCandidate cfg k) && !own.head?.any (tapCandidate cfg k)

def scans (cfg : Config) (s : State) (k : KeyRecord) : Bool :=
  k.event.pressed && isTapRecord cfg k && !s.undecided && !settles cfg s k
    && !(s.active && !s.tappingKey.event.pressed && isTappingRecord s.tappingKey k)

variable {cfg : Config}

theorem markCandidate_other {tk : KeyRecord} {l m : List KeyRecord} {key : KeyPos}
    (h : markCandidate cfg tk l = some m) (hk : tk.event.key ≠ key) :
    m.filter (recordOf key) = l.filter (recordOf key) := by
  induction l generalizing m with
  | nil => cases h
  | cons b bs ih =>
    simp only [markCandidate] at h
    split at h
    · rename_i hc
      cases h
      have hb : b.event.key ≠ key := by
        simp only [tapCandidate, Bool.and_eq_true, decide_eq_true_eq] at hc
        rw [hc.1.1.2]
        exact hk
      simp [recordOf, hb]
    · obtain ⟨m', hm, rfl⟩ := Option.map_eq_some_iff.mp h
      simp only [List.filter_cons, ih hm]

theorem markCandidate_none {tk : KeyRecord} {l : List KeyRecord}
    (h : (l.filter (recordOf tk.event.key)).any (tapCandidate cfg tk) = false) :
    markCandidate cfg tk l = none := by
  induction l with
  | nil => rfl
  | cons b bs ih =>
    by_cases hb : recordOf tk.event.key b = true
    · rw [List.filter_cons_of_pos hb, List.any_cons, Bool.or_eq_false_iff] at h
      simp [markCandidate, h.1, ih h.2]
    · rw [List.filter_cons_of_neg hb] at h
      simp only [recordOf, decide_eq_true_eq] at hb
      simp [markCandidate, tapCandidate, hb, ih h]

theorem markCandidate_own {tk : KeyRecord} {l m : List KeyRecord}
    (h : markCandidate cfg tk l = some m) (hs : scanSkips cfg tk l = false) :
    ∃ b own, l.filter (recordOf tk.event.key) = b :: own
      ∧ m.filter (recordOf tk.event.key) = { b with tap := { b.tap with count := 1 } } :: own := by
  induction l generalizing m with
  | nil => cases h
  | cons b bs ih =>
    simp only [markCandidate] at h
    by_cases hkey : b.event.key = tk.event.key
    · have hown : recordOf tk.event.key b = true := by simp [recordOf, hkey]
      split at h
      · cases h
        exact ⟨b, bs.filter (recordOf tk.event.key), by simp [hown], by simp [recordOf, hkey]⟩
      · -- a later candidate would be one that the scan skips to
        rename_i hc
        obtain ⟨m', hm, rfl⟩ := Option.map_eq_some_iff.mp h
        rw [Bool.not_eq_true] at hc
        have hany : (bs.filter (recordOf tk.event.key)).any (tapCandidate cfg tk) = false := by
          simpa [scanSkips, hown, hc] using hs
        simp [markCandidate_none hany] at hm
    · have hown : recordOf tk.event.key b = false := by simp [recordOf, hkey]
      have hc : tapCandidate cfg tk b = false := by simp [tapCandidate, hkey]
      rw [hc, if_neg (by simp)] at h
      obtain ⟨m', hm, rfl⟩ := Option.map_eq_some_iff.mp h
      simpa [hown] using ih hm (by simpa [scanSkips, hown] using hs)

theorem interrupted {s : State} {tk : KeyRecord}
    (h : tk = s.tappingKey ∨ tk = interrupt s.tappingKey) (key : KeyPos) :
    stageOf tk key = stageOf s.tappingKey key := by
  rcases h with rfl | rfl <;> rfl

theorem settle_steps {s : State} {tk : KeyRecord} (hu : s.undecided = true)
    (htk : tk = s.tappingKey ∨ tk = interrupt s.tappingKey) (key : KeyPos)
    (buffer : List KeyRecord) :
    Side.Steps ⟨passedOf key s.out,stageOf s.tappingKey key,buffer⟩
      ⟨passedOf key (s.out ++ [.record tk]),.away,buffer⟩ := by
  obtain ⟨⟨ha, hp⟩, hc⟩ : (s.active = true ∧ s.tappingKey.event.pressed = true)
      ∧ s.tappingKey.tap.count = 0 := by simpa [State.undecided] using hu
  have ht : s.tappingKey.event.isNoEvent = false := by simpa [State.active] using ha
  have htk' : tk.event = s.tappingKey.event ∧ tk.tap.count = 0 := by
    rcases htk with rfl | rfl <;> exact ⟨rfl, hc⟩
  by_cases hk : s.tappingKey.event.key = key
  · subst hk
    rw [passedOf_own _ rfl (by rw [htk'.1]), stageOf_pressed ht hp, if_pos hc, ← htk'.1]
    exact .single (.settle tk (by rw [htk'.1]; exact hp) htk'.2)
  · rw [passedOf_other _ rfl (by rw [htk'.1]; exact hk), stageOf_other hk]
    exact .refl

def regular (cfg : Config) (s : State) (k : KeyRecord) (behind : List KeyRecord) : Bool :=
  !replacesMulti cfg s k && !(scans cfg s k && scanSkips cfg k behind)

theorem stageOf_away {tk : KeyRecord} {key : KeyPos} (h : tk.event.isNoEvent = false →
    tk.event.pressed = true → tk.event.key = key → False) : stageOf tk key = .away := by
  rw [stageOf, if_neg]
  intro hc
  simp only [Bool.and_eq_true, Bool.not_eq_true', decide_eq_true_eq] at hc
  exact h hc.1.1 hc.1.2 hc.2

theorem away_of_press {s : State} {k : KeyRecord} {rest : List KeyRecord}
    (hb : s.waitingBuffer = k :: rest) (hs : Aligned (s.side k.event.key))
    (hu : s.undecided = false) (hp : k.event.pressed = true) :
    stageOf s.tappingKey k.event.key = .away := by
  refine stageOf_away fun ht hpr hkey => ?_
  have hc : s.tappingKey.tap.count ≠ 0 := fun hc => by
    simp [State.undecided, State.active, ht, hpr, hc] at hu
  have hst : (s.side k.event.key).stage = .tapped s.tappingKey.tap.count := by
    show stageOf s.tappingKey k.event.key = _
    rw [← hkey, stageOf_pressed ht hpr, if_neg hc]
  have halt := hs.alternates
  rw [Side.timeline, hst] at halt
  have hnext := @TapOpen.next _ k.event ((rest.filter (recordOf k.event.key)).map KeyRecord.event)
    (hs.tapped _ hst).1 (by simpa [State.side, hb, recordOf, Stage.events] using halt)
  simp [hp] at hnext

theorem active_eq {s : State} (h : s.active = true) : s.tappingKey.event.isNoEvent = false := by
  simpa [State.active] using h

/-- A press is taken out of the buffer as the tapping key; when it is a tap already, its
release is marked. -/
theorem take_steps {s : State} {k : KeyRecord} {rest : List KeyRecord}
    (hb : s.waitingBuffer = k :: rest) (hk : Fresh k)
    (haway : stageOf s.tappingKey k.event.key = .away) (hu : s.undecided = false)
    (hp : k.event.pressed = true) (htap : isTapRecord cfg k = true)
    (hmulti : replacesMulti cfg s k = false) (hskip : scanSkips cfg k rest = false)
    (key : KeyPos) :
    let t := waitingBufferScanTap cfg { unregister k s with tappingKey := k }
    Side.Steps (s.side key)
      { t.side key with buffer := t.waitingBuffer.tail.filter (recordOf key) } := by
  have hc := hk.2 hp
  have hbuf : (unregister k s).waitingBuffer = k :: rest := (unregister_passing k s).2.trans hb
  have hpass := fun key => passedOf_unregister key k s
  have hpend : stageOf k k.event.key = .pending k.event := by
    rw [stageOf_pressed hk.1 hp, if_pos hc]
  have htaken : Side.Steps (s.side k.event.key)
      ⟨passedOf k.event.key s.out,.pending k.event,rest.filter (recordOf k.event.key)⟩ := by
    simp only [State.side, hb, haway]
    rw [show (k :: rest).filter (recordOf k.event.key)
      = k :: rest.filter (recordOf k.event.key) by simp [recordOf]]
    exact .single (.take k hp)
  -- another key in its place was tapped once at most
  have hleft : k.event.key ≠ key → Side.Steps (s.side key)
      ⟨passedOf key s.out,.away,rest.filter (recordOf key)⟩ := fun h => by
    simp only [State.side, hb]
    rw [show (k :: rest).filter (recordOf key) = rest.filter (recordOf key) by
      simp [recordOf, h]]
    by_cases htk : s.tappingKey.event.isNoEvent = false ∧ s.tappingKey.event.pressed = true
        ∧ s.tappingKey.event.key = key
    · obtain ⟨ht, hpr, rfl⟩ := htk
      have hone : s.tappingKey.tap.count = 1 := by
        have h₁ : s.tappingKey.tap.count ≠ 0 := fun h₀ => by
          simp [State.undecided, State.active, ht, hpr, h₀] at hu
        have h₂ : ¬ 1 < s.tappingKey.tap.count := fun h₂ => by
          simp [replacesMulti, State.active, hp, htap, ht, hpr, h₂] at hmulti
        omega
      rw [stageOf_pressed ht hpr, hone, if_neg (by omega)]
      exact .single .replaced
    · rw [stageOf_away fun h₁ h₂ h₃ => htk ⟨h₁, h₂, h₃⟩]
      exact .refl
  intro t
  rcases @scanTap_cases cfg { unregister k s with tappingKey := k } hp hc with
    ⟨-, he⟩ | ⟨m, hm, he⟩
  · rw [show t = _ from he]
    simp only [State.side, hbuf, hpass, List.tail_cons]
    by_cases h : k.event.key = key
    · subst h
      rw [hpend]
      exact htaken
    · rw [stageOf_other h]
      exact hleft h
  · simp only [hbuf] at hm
    have hself : tapCandidate cfg k k = false := by simp [tapCandidate, hp]
    simp only [markCandidate, hself, Bool.false_eq_true, if_false] at hm
    obtain ⟨m', hm', rfl⟩ := Option.map_eq_some_iff.mp hm
    rw [show t = _ from he]
    simp only [State.side, List.tail_cons]
    by_cases h : k.event.key = key
    · subst h
      obtain ⟨b, own, hrest, hmark⟩ := markCandidate_own hm' hskip
      rw [hrest] at htaken
      rw [@passedOf_own k.event.key _ (tapOnce k) _ rfl rfl, hpass, hmark,
        stageOf_tapOnce hk.1 hp]
      exact htaken.tail (.firstTap (tapOnce k) b _ hp rfl rfl rfl)
    · rw [@passedOf_other _ _ (tapOnce k) _ rfl h, hpass, @stageOf_other (tapOnce k) _ h,
        markCandidate_other hm' h]
      exact hleft h

theorem firstTap_steps {s : State} {k : KeyRecord} {rest : List KeyRecord}
    (hu : s.undecided = true) (hkey : k.event.key = s.tappingKey.event.key) (key : KeyPos) :
    Side.Steps ⟨passedOf key s.out,stageOf s.tappingKey key,(k :: rest).filter (recordOf key)⟩
      ⟨passedOf key (s.out ++ [.record (tapOnce s.tappingKey)]),
        stageOf (tapOnce s.tappingKey) key,
        ({ k with tap := (tapOnce s.tappingKey).tap } :: rest).filter (recordOf key)⟩ := by
  obtain ⟨⟨ha, hp⟩, hc⟩ : (s.active = true ∧ s.tappingKey.event.pressed = true)
      ∧ s.tappingKey.tap.count = 0 := by simpa [State.undecided] using hu
  by_cases h : k.event.key = key
  · subst h
    rw [List.filter_cons_of_pos (by simp [recordOf]), List.filter_cons_of_pos (by simp [recordOf]),
      hkey, stageOf_pressed (active_eq ha) hp, if_pos hc,
      @passedOf_own s.tappingKey.event.key _ (tapOnce s.tappingKey) _ rfl rfl,
      stageOf_tapOnce (active_eq ha) hp]
    exact .single (.firstTap (tapOnce s.tappingKey) k _ hp rfl rfl rfl)
  · have htk : s.tappingKey.event.key ≠ key := by rw [← hkey]; exact h
    rw [List.filter_cons_of_neg (by simpa [recordOf] using h),
      List.filter_cons_of_neg (by simpa [recordOf] using h),
      @passedOf_other _ _ (tapOnce s.tappingKey) _ rfl htk, stageOf_other htk,
      @stageOf_other (tapOnce s.tappingKey) _ htk]
    exact .refl

theorem popped_steps {s : State} {k : KeyRecord} {rest : List KeyRecord}
    (hb : s.waitingBuffer = k :: rest) (hk : Fresh k) (hs : Aligned (s.side k.event.key))
    (hreg : regular cfg s k rest = true) (key : KeyPos) :
    Side.Steps (s.side key) ((popped cfg k s).side key) := by
  have hown : (k :: rest).filter (recordOf k.event.key)
      = k :: rest.filter (recordOf k.event.key) := by simp [recordOf]
  have hother : k.event.key ≠ key →
      (k :: rest).filter (recordOf key) = rest.filter (recordOf key) := fun h => by
    simp [recordOf, h]
  have haway := @away_of_press s k rest hb hs
  have ho := @processTapping_outcome cfg k s
  rw [State.side, hb]
  unfold popped
  generalize processTapping cfg k s = p at ho
  cases ho with
  | skip ht => simp [hk.1] at ht
  | other tk ht hu _ hkey htk =>
    simp only [State.side, hb, if_true, List.tail_cons, interrupted htk]
    by_cases h : k.event.key = key
    · subst h
      have hst : stageOf s.tappingKey k.event.key = .away := by
        cases hp : k.event.pressed with
        | true => exact haway hu hp
        | false =>
          refine stageOf_away fun ht' hp' hkey' => ?_
          have := hkey (by simp [State.active, ht']) hp' hkey'.symm
          simp [hp] at this
      rw [hst, hown, passedOf_own _ rfl rfl]
      exact .single (.pass k)
    · rw [hother h, passedOf_other _ rfl h]
      exact .refl
  | tapRelease tk ht ha hpr hc hkey hp htk =>
    have hst' : ∀ key, stageOf tk key = .away := fun key => by
      rcases htk with rfl | rfl
      · exact stageOf_released key hp
      · rfl
    simp only [State.side, hb, if_true, List.tail_cons, hst']
    by_cases h : k.event.key = key
    · subst h
      rw [hkey, stageOf_pressed (active_eq ha) hpr, if_neg (by omega), ← hkey, hown,
        @passedOf_own _ _ { k with tap := s.tappingKey.tap } _ rfl rfl]
      exact .single (.release k _ hc rfl rfl hp)
    · rw [hother h, @passedOf_other _ _ { k with tap := s.tappingKey.tap } _ rfl h,
        stageOf_other (by rw [← hkey]; exact h)]
      exact .refl
  | again tap ht ha hrel hkey hp hc =>
    simp only [State.side, hb, if_true, List.tail_cons, stageOf_released key hrel]
    by_cases h : k.event.key = key
    · subst h
      rw [hown, @passedOf_own _ _ { k with tap := tap } _ rfl rfl]
      have hst : stageOf { k with tap := tap } k.event.key = .tapped tap.count := by
        rw [show k.event.key = ({ k with tap := tap } : KeyRecord).event.key from rfl,
          @stageOf_pressed { k with tap := tap } ht hp, if_neg (by simp only; omega)]
      rw [hst]
      exact .single (.again k _ hc rfl rfl hp)
    · rw [hother h, @passedOf_other _ _ { k with tap := tap } _ rfl h,
        @stageOf_other { k with tap := tap } _ h]
      exact .refl
  | early ht hu hp _ hne =>
    simp only [State.side, State.send, hb, if_true, List.tail_cons]
    by_cases h : k.event.key = key
    · subst h
      rw [stageOf_other hne.symm, hown, passedOf_own _ rfl rfl]
      exact .single (.pass k)
    · rw [hother h, passedOf_other _ rfl h]
      exact .refl
  | take ht hu hp htap hset hne =>
    simp only [regular, Bool.and_eq_true, Bool.not_eq_true'] at hreg
    have hscan : scans cfg s k = true := by
      simp only [scans, hp, htap, hu, hset, Bool.not_false, Bool.true_and, Bool.not_eq_true']
      by_contra h
      simp only [Bool.not_eq_false, Bool.and_eq_true, Bool.not_eq_true'] at h
      exact hne h.1.1 h.1.2 (by simpa [isTappingRecord, eq_comm] using h.2)
    have hskip : scanSkips cfg k rest = false := by simpa [hscan] using hreg.2
    have := take_steps hb hk (haway hu hp) hu hp htap hreg.1 hskip key
    simpa only [State.side, hb, if_true] using this
  | restart ht ha hrel hkey hp =>
    simp only [State.side, hb, if_true, List.tail_cons, stageOf_released key hrel]
    by_cases h : k.event.key = key
    · subst h
      rw [hown, stageOf_pressed ht hp, if_pos (hk.2 hp)]
      exact .single (.take k hp)
    · rw [hother h, stageOf_other h]
      exact .refl
  | wait tk ht hu _ htk =>
    simp only [State.side, hb, Bool.false_eq_true, if_false, List.tail_cons, interrupted htk]
    exact .refl
  | settle tk hu htk =>
    simp only [State.side, hb, Bool.false_eq_true, if_false, List.tail_cons, stageOf_zero]
    exact settle_steps hu htk key _
  | firstTap ht hu hkey hp =>
    simp only [State.side, hb, Bool.false_eq_true, if_false, List.tail_cons]
    exact firstTap_steps hu hkey key
  | expire ha hrel =>
    simp only [State.side, hb, Bool.false_eq_true, if_false, List.tail_cons, stageOf_zero,
      stageOf_released key hrel]
    exact .refl

end QmkFirmware.Tapping
