import QmkFirmware.Tapping.Rounds

/-!
The tapped key and the log. While a pressed tapping key counts as a tap, the last entry of the
log about it is its press with this count; so a release is made up for multi-tapped keys only,
and once for every press.
-/

set_option autoImplicit false

namespace QmkFirmware.Tapping

/-- The record of a call to `process_record`. -/
def Sent.sentRecord : Sent → Option KeyRecord
  | .record r | .early r | .synthesized r => some r
  | .clearKeyboard => none

def Sent.about (key : KeyPos) (x : Sent) : Bool :=
  match x.sentRecord with
  | some r => r.event.key = key
  | none => false

def lastSent (key : KeyPos) (out : List Sent) : Option Sent := (out.filter (Sent.about key)).getLast?

theorem lastSent_about {key : KeyPos} {x : Sent} (out : List Sent) (h : x.about key = true) :
    lastSent key (out ++ [x]) = some x := by
  simp [lastSent, h]

theorem lastSent_other {key : KeyPos} {x : Sent} (out : List Sent) (h : x.about key = false) :
    lastSent key (out ++ [x]) = lastSent key out := by
  simp [lastSent, h]

@[simp] theorem about_record (key : KeyPos) (r : KeyRecord) :
    (Sent.record r).about key = decide (r.event.key = key) := rfl
@[simp] theorem about_early (key : KeyPos) (r : KeyRecord) :
    (Sent.early r).about key = decide (r.event.key = key) := rfl
@[simp] theorem about_synthesized (key : KeyPos) (r : KeyRecord) :
    (Sent.synthesized r).about key = decide (r.event.key = key) := rfl
@[simp] theorem about_clearKeyboard (key : KeyPos) : Sent.clearKeyboard.about key = false := rfl

/-- Behind this log, the record is a release made up for a multi-tapped key: its last entry is
a press that counts more than one tap. -/
def Replaces (out : List Sent) (r : KeyRecord) : Prop :=
  ∃ p, lastSent r.event.key out = some (.record p) ∧ p.event.pressed = true ∧ 1 < p.tap.count
    ∧ r.tap.count = p.tap.count
    ∧ r.event = { p.event with time := r.event.time, pressed := false }

/-- Every made-up release of the log is one. -/
def OnlyReplaced (out : List Sent) : Prop :=
  ∀ pre r, pre ++ [.synthesized r] <+: out → Replaces pre r

theorem OnlyReplaced.snoc {out : List Sent} {x : Sent} (h : OnlyReplaced out)
    (hx : ∀ r, x = .synthesized r → Replaces out r) : OnlyReplaced (out ++ [x]) := by
  intro pre r hpre
  rcases List.prefix_concat_iff.mp hpre with heq | hpre
  · obtain ⟨rfl, hr⟩ := List.append_inj' heq rfl
    exact hx r (List.singleton_inj.mp hr).symm
  · exact h pre r hpre

variable {cfg : Config}

structure Tapped (cfg : Config) (s : State) : Prop where
  tapAction : s.active = true → isTapAction (cfg.action s.tappingKey.event.key) = true
  logged : s.active = true → s.tappingKey.event.pressed = true → 0 < s.tappingKey.tap.count →
    ∃ p, lastSent s.tappingKey.event.key s.out = some (.record p)
      ∧ p.event = s.tappingKey.event ∧ p.tap.count = s.tappingKey.tap.count
  replaced : OnlyReplaced s.out

theorem Tapped.inactive {tk : KeyRecord} {buffer : List KeyRecord} {out : List Sent}
    (ht : tk.event.isNoEvent = true) (h : OnlyReplaced out) : Tapped cfg ⟨tk,buffer,out⟩ :=
  ⟨fun ha => by simp [State.active, ht] at ha, fun ha => by simp [State.active, ht] at ha, h⟩

theorem Tapped.buffer {s t : State} (h : Tapped cfg s) (ht : t.tappingKey = s.tappingKey)
    (ho : t.out = s.out) : Tapped cfg t := by
  obtain ⟨htap, hlog, hrep⟩ := h
  simp only [State.active] at htap hlog
  constructor <;> simp only [State.active, ht, ho] <;> assumption

theorem Tapped.sent {r : KeyRecord} {buffer : List KeyRecord} {out : List Sent}
    (ht : isTapAction (cfg.action r.event.key) = true) (h : OnlyReplaced out) :
    Tapped cfg ⟨r,buffer,out ++ [.record r]⟩ :=
  ⟨fun _ => ht, fun _ _ _ => ⟨r, lastSent_about out (by simp), rfl, rfl⟩,
    h.snoc fun _ hr => by cases hr⟩

theorem Tapped.uncounted {r : KeyRecord} {buffer : List KeyRecord} {out : List Sent}
    (ht : isTapAction (cfg.action r.event.key) = true) (hc : r.tap.count = 0)
    (h : OnlyReplaced out) : Tapped cfg ⟨r,buffer,out⟩ :=
  ⟨fun _ => ht, fun _ _ hpos => by simp [hc] at hpos, h⟩

theorem Tapped.unregister {k : KeyRecord} {s : State} (h : Tapped cfg s) :
    OnlyReplaced (unregister k s).out := by
  unfold Tapping.unregister
  split
  · rename_i hc
    simp only [Bool.and_eq_true, decide_eq_true_eq] at hc
    obtain ⟨⟨ha, hp⟩, hc⟩ := hc
    obtain ⟨p, hlast, he, hcount⟩ := h.logged ha hp (by omega)
    refine h.replaced.snoc fun r hr => ?_
    cases hr
    exact ⟨p, hlast, by rw [he, hp], by omega, hcount.symm, by rw [he]; rfl⟩
  · exact h.replaced

theorem isTapAction_of {k : KeyRecord} (h : isTapRecord cfg k = true) :
    isTapAction (cfg.action k.event.key) = true := by
  simp only [isTapRecord, Bool.and_eq_true] at h
  exact h.2

theorem processTapping_tapped {k : KeyRecord} {s : State}
    (hk : k.event.isNoEvent = true ∨ Fresh k) (h : Tapped cfg s) :
    Tapped cfg (processTapping cfg k s).state := by
  have hsent : ∀ r, OnlyReplaced (s.out ++ [.record r]) :=
    fun r => h.replaced.snoc fun _ hr => by cases hr
  have ho := @processTapping_outcome cfg k s
  generalize processTapping cfg k s = p at ho
  cases ho with
  | skip => exact h
  | other tk ht hu hnt hkey htk =>
    have htk' : tk.event = s.tappingKey.event ∧ tk.tap.count = s.tappingKey.tap.count := by
      rcases htk with rfl | rfl <;> exact ⟨rfl, rfl⟩
    refine ⟨fun ha => ?_, fun ha hp hc => ?_, hsent k⟩
    · simp only [State.active, htk'.1] at ha ⊢
      exact h.tapAction ha
    · simp only [State.active, htk'.1, htk'.2] at ha hp hc ⊢
      -- the record is of another key, a press of this one would be a tap record
      have hne : k.event.key ≠ s.tappingKey.event.key := fun heq => by
        have hkp := hkey ha hp heq
        have hta := h.tapAction ha
        rw [← heq] at hta
        have := hnt hkp
        simp [isTapRecord, ht, hta] at this
      rw [lastSent_other _ (by simpa using hne)]
      exact h.logged ha hp hc
  | tapRelease tk _ ha _ _ hkey hp htk =>
    rcases htk with rfl | rfl
    · refine .sent ?_ h.replaced
      rw [show ({ k with tap := s.tappingKey.tap } : KeyRecord).event.key = _ from hkey]
      exact h.tapAction ha
    · exact .inactive rfl (hsent _)
  | again tap _ ha _ hkey =>
    refine .sent ?_ h.replaced
    rw [show ({ k with tap := tap } : KeyRecord).event.key = _ from hkey]
    exact h.tapAction ha
  | early _ hu =>
    refine ⟨h.tapAction, fun _ _ hc => ?_, h.replaced.snoc fun _ hr => by cases hr⟩
    simp only [State.undecided, Bool.and_eq_true, decide_eq_true_eq] at hu
    simp only [State.send, hu.2] at hc
    omega
  | take ht hu hp htap =>
    have hc := (hk.resolve_left (by simp [ht])).2 hp
    have htap := isTapAction_of htap
    rcases @scanTap_cases cfg { unregister k s with tappingKey := k } hp hc with
      ⟨-, he⟩ | ⟨m, -, he⟩
    · rw [he]
      exact .uncounted htap hc h.unregister
    · rw [he]
      exact .sent htap h.unregister
  | restart ht ha _ hkey hp =>
    refine .uncounted ?_ ((hk.resolve_left (by simp [ht])).2 hp) h.replaced
    rw [hkey]
    exact h.tapAction ha
  | wait tk _ hu _ htk =>
    have htk' : tk.event = s.tappingKey.event ∧ tk.tap.count = s.tappingKey.tap.count := by
      rcases htk with rfl | rfl <;> exact ⟨rfl, rfl⟩
    refine ⟨fun ha => ?_, fun _ _ hc => ?_, h.replaced⟩
    · simp only [State.active, htk'.1] at ha ⊢
      exact h.tapAction ha
    · simp only [State.undecided, Bool.and_eq_true, decide_eq_true_eq] at hu
      simp only [htk'.2, hu.2] at hc
      omega
  | settle => exact .inactive rfl (hsent _)
  | firstTap _ hu =>
    simp only [State.undecided, Bool.and_eq_true] at hu
    exact .sent (h.tapAction hu.1.1) h.replaced
  | expire => exact .inactive rfl h.replaced

theorem popped_tapped {s : State} {k : KeyRecord} {rest : List KeyRecord}
    (hb : s.waitingBuffer = k :: rest) (hs : s.Wf) (h : Tapped cfg s) :
    Tapped cfg (popped cfg k s) := by
  have hk : Fresh k := hs k (by rw [hb]; exact List.mem_cons_self)
  refine (@processTapping_tapped cfg k s (.inr hk) h).buffer ?_ ?_
  · simp only [popped]
    split <;> rfl
  · simp only [popped]
    split <;> rfl

theorem receive_tapped {s : State} {e : KeyEvent} (h : Tapped cfg s) :
    Tapped cfg (receive cfg e.record s) := by
  have hk : e.record.event.isNoEvent = true ∨ Fresh e.record := by
    cases ht : e.isNoEvent with
    | true => exact .inl ht
    | false => exact .inr ⟨ht, fun _ => rfl⟩
  have hp := @processTapping_tapped cfg e.record s hk h
  unfold receive waitingBufferEnq
  dsimp only
  split
  · exact hp
  · split
    · exact hp
    · split
      · exact .inactive rfl (hp.replaced.snoc fun _ hr => by cases hr)
      · exact hp.buffer rfl rfl

theorem run_tapped (es : List KeyEvent) (hroom : Sent.clearKeyboard ∉ (run cfg es).out) :
    Tapped cfg (run cfg es) := by
  induction es using List.reverseRecOn with
  | nil => exact .inactive rfl fun pre r h => by simp at h
  | append_singleton es e ih =>
    have hrec := fun h => hroom ((run_out es e).subset h)
    have hpre := fun h => hrec ((receive_out _ _).subset h)
    rw [run_snoc]
    exact (@drain_keeps cfg (fun s => s.Wf ∧ Tapped cfg s)
      (fun s k rest hb hs => ⟨(popped_round hb hs.1).wf, popped_tapped hb hs.1 hs.2⟩) _ _
      ⟨(receive_arrival (run_wf es hpre) hrec).wf, receive_tapped (ih hpre)⟩).2

end QmkFirmware.Tapping
