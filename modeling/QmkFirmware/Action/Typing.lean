import QmkFirmware.Action.AtRest
import QmkFirmware.Tapping.Counts

/-!
`action_exec` with the tapping engine of `action_tapping.c` over the actions of `action.c`. The
engine takes the actions of the keys off the layers, and what it passes on switches the layers.
-/

set_option autoImplicit false

namespace QmkFirmware.Action

open Tapping (KeyPos KeyEvent KeyRecord Sent)
open Report (isKeyPressed)

variable {b : Build}

/-- `pressed` are the keys whose last event was a press. -/
structure Typing (b : Build) where
  tapping : Tapping.State
  world : World b
  pressed : KeyPos → Bool

def Typing.start (defaultState : BitVec b.layers.size.width) (oneshot : Bool) : Typing b :=
  ⟨.start,Action.start defaultState oneshot,fun _ => false⟩

/-- The terms and the other settings of the tap keys, and what process_record_quantum consumes. -/
structure Keymap (b : Build) where
  settings : Tapping.Config
  consumes : State b → KeyRecord → Bool

variable (m : Keymap b)

/-- `layer_switch_get_action`. -/
def config (w : World b) : Tapping.Config :=
  { m.settings with action := fun key => Layers.layerSwitchGetAction key w.state.layers }

/-- A feature that consumes a press consumes its release too. -/
def consumed (w : World b) (r : KeyRecord) : Bool :=
  if r.event.pressed then m.consumes w.state r
  else (w.down r.event.key).elim (m.consumes w.state r) Held.consumed

def process (w : World b) : Sent → World b
  | .record r | .early r | .synthesized r =>
    next w (.record (consumed m w r) ⟨r.event.key,r.event.pressed,r.tap.count⟩)
  | .clearKeyboard => w.step (clearKeyboard w.state) w.down nothing

/-- The engine behind a call to `process_tapping`, and what the records do that it sent. The call
reads no action behind a record that it sends. -/
def deliver (t : Typing b) (s : Tapping.State) : Typing b :=
  { t with
    tapping := s
    world := (s.out.drop t.tapping.out.length).foldl (process m) t.world }

def receive (k : KeyRecord) (t : Typing b) : Typing b :=
  deliver m t (Tapping.receive (config m t.world) k t.tapping)

/-- Each round takes the actions from the layers that the one before has left. -/
def drain : Nat → Typing b → Typing b
  | 0, t => t
  | n+1, t =>
    match t.tapping.waitingBuffer with
    | [] => t
    | k :: _ =>
      let p := Tapping.processTapping (config m t.world) k t.tapping
      if p.done then
        drain n (deliver m t { p.state with waitingBuffer := p.state.waitingBuffer.tail })
      else deliver m t { p.state with waitingBuffer := p.keyp :: p.state.waitingBuffer.tail }

def arrive (e : KeyEvent) (t : Typing b) : Typing b :=
  { t with
    world := if e.pressed then next t.world .arrival else t.world
    pressed := if e.isNoEvent then t.pressed else Function.update t.pressed e.key e.pressed }

def actionExec (e : KeyEvent) (t : Typing b) : Typing b :=
  let t := receive m e.record (arrive e t)
  drain m t.tapping.waitingBuffer.length t

/-- An event comes, or other code does something. -/
inductive TypingInput (b : Build) where
  | event (e : KeyEvent)
  | oneshot (active : Bool)
  | layers (state defaultState : BitVec b.layers.size.width)

def Typing.next (t : Typing b) : TypingInput b → Typing b
  | .event e => actionExec m e t
  | .oneshot active => { t with world := Action.next t.world (.oneshot active) }
  | .layers state defaultState =>
    { t with world := Action.next t.world (.layers state defaultState) }

/-- No round replaces a multi-tapped key or skips to a later release. -/
def drainRegular : Nat → Typing b → Bool
  | 0, _ => true
  | n+1, t =>
    match t.tapping.waitingBuffer with
    | [] => true
    | k :: rest =>
      let cfg := config m t.world
      Tapping.regular cfg t.tapping k rest
        && if (Tapping.processTapping cfg k t.tapping).done then
          drainRegular n (deliver m t (Tapping.popped cfg k t.tapping))
        else true

/-- The call replaces no multi-tapped key, deals with no event ahead of an earlier one of its key
and does not skip to a later release. -/
def callRegular (e : KeyEvent) (t : Typing b) : Bool :=
  let t := arrive e t
  let cfg := config m t.world
  (e.isNoEvent || !Tapping.replacesMulti cfg t.tapping e.record
    && !(Tapping.handled cfg t.tapping e.record && t.tapping.buffered.any (Tapping.ofKey e.key)))
  && drainRegular m (receive m e.record t).tapping.waitingBuffer.length (receive m e.record t)

/-- Keys of the matrix are pressed and released in turn, the buffer has room, and the call is
regular. One-shot keys are not switched while one is down. -/
def Typing.Right (t : Typing b) : TypingInput b → Prop
  | .event e =>
    (e.isNoEvent = false → b.layers.inMatrix e.key = true ∧ t.pressed e.key = !e.pressed)
    ∧ Sent.clearKeyboard ∉ (actionExec m e t).tapping.out ∧ callRegular m e t = true
  | .oneshot active => Action.Right t.world (.oneshot active)
  | .layers _ _ => True

/-- They begin with a press, and each answers the one before. -/
structure Sound (sent : List KeyRecord) : Prop where
  first : ∀ r, sent.head? = some r → r.event.pressed = true
  turn : sent.IsChain Tapping.Answers

/-- A key is down with the count of the press that was passed on last. -/
def Follows (h : Option Held) (sent : List KeyRecord) : Prop :=
  h.map Held.tapCount
    = (sent.getLast?.filter fun r => r.event.pressed).map fun r => r.tap.count

variable {m : Keymap b} {w : World b} {t : Typing b}

theorem Follows.up {sent : List KeyRecord} {h : Option Held} (hf : Follows h sent)
    (hlast : ∀ p, sent.getLast? = some p → p.event.pressed = false) : h = none := by
  cases hp : sent.getLast? with
  | none => simpa [Follows, hp] using hf
  | some p => simpa [Follows, hp, Option.filter, hlast p hp] using hf

theorem Follows.down {sent : List KeyRecord} {h : Option Held} (hf : Follows h sent)
    {p : KeyRecord} (hp : sent.getLast? = some p) (hpressed : p.event.pressed = true) :
    ∃ held, h = some held ∧ held.tapCount = p.tap.count := by
  simpa [Follows, hp, Option.filter, hpressed] using hf

theorem right_record {sent : List KeyRecord} {r : KeyRecord} {rest : List KeyRecord}
    (hs : Sound (sent ++ r :: rest)) (hm : b.layers.inMatrix r.event.key = true)
    (hf : Follows (w.down r.event.key) sent) :
    Right w (.record (consumed m w r) ⟨r.event.key,r.event.pressed,r.tap.count⟩) := by
  have hanswers : ∀ p, sent.getLast? = some p → Tapping.Answers p r := fun p hp =>
    (List.isChain_append.mp hs.turn).2.2 p hp r rfl
  cases hpressed : r.event.pressed with
  | true =>
    refine ⟨hm,hf.up fun p hp => ?_⟩
    simpa [hpressed] using (hanswers p hp).turn
  | false =>
    cases hp : sent.getLast? with
    | none =>
      rw [List.getLast?_eq_none_iff] at hp
      have hfirst := hs.first r (by rw [hp]; rfl)
      rw [hpressed] at hfirst
      contradiction
    | some p =>
      obtain ⟨held,hheld,hcount⟩ := hf.down hp (by simpa [hpressed] using (hanswers p hp).turn)
      refine ⟨held.action,?_⟩
      rw [hheld, consumed, hpressed, hheld, (hanswers p hp).count hpressed, ← hcount]
      rfl

theorem process_record {x : Sent} {r : KeyRecord} (hx : x.passedRecord = some r) :
    process m w x
      = next w (.record (consumed m w r) ⟨r.event.key,r.event.pressed,r.tap.count⟩) := by
  cases x with
  | record | early => cases hx; rfl
  | synthesized | clearKeyboard => contradiction

theorem follows_record {consumed : Bool} {r : KeyRecord} {sent : List KeyRecord} :
    Follows ((next w (.record consumed ⟨r.event.key,r.event.pressed,r.tap.count⟩)).down
      r.event.key) (sent ++ [r]) := by
  cases hr : r.event.pressed <;> simp [Follows, next, World.step, hr]

theorem passedOf_append (key : KeyPos) (old new : List Sent) :
    Tapping.passedOf key (old ++ new) = Tapping.passedOf key old ++ Tapping.passedOf key new := by
  simp [Tapping.passedOf]

theorem process_all {new old : List Sent} (hnew : ∀ x ∈ new, ∃ r, x.passedRecord = some r)
    (hs : ∀ key, Sound (Tapping.passedOf key (old ++ new)))
    (hm : ∀ key, ∀ r ∈ Tapping.passedOf key (old ++ new), b.layers.inMatrix key = true)
    (hinv : Inv w) (hf : ∀ key, Follows (w.down key) (Tapping.passedOf key old)) :
    Inv (new.foldl (process m) w) ∧ ∀ key,
      Follows ((new.foldl (process m) w).down key) (Tapping.passedOf key (old ++ new)) := by
  induction new generalizing old w with
  | nil => exact ⟨hinv,by simpa using hf⟩
  | cons x new ih =>
    obtain ⟨r,hr⟩ := hnew x List.mem_cons_self
    have hown : Tapping.passedOf r.event.key (old ++ x :: new)
        = Tapping.passedOf r.event.key old ++ r :: Tapping.passedOf r.event.key new := by
      rw [passedOf_append, ← List.singleton_append, passedOf_append]
      simp [Tapping.passedOf, hr, Tapping.recordOf]
    have hright := @right_record b m w _ r _ (hown ▸ hs r.event.key)
      (hm r.event.key r (by rw [hown]; simp)) (hf r.event.key)
    rw [List.append_cons] at hs hm ⊢
    refine ih (fun y hy => hnew y (List.mem_cons_of_mem x hy)) hs hm ?_ fun key => ?_
    · rw [process_record hr]
      exact hinv.next _ hright
    · rw [process_record hr]
      by_cases hkey : r.event.key = key
      · subst hkey
        rw [Tapping.passedOf_own old hr rfl]
        exact follows_record
      · rw [Tapping.passedOf_other old hr hkey]
        simpa [next, World.step, Function.update_of_ne (Ne.symm hkey)] using hf key

/-- The events of each key are in turn, and the last one is what the key is now. -/
structure Lined (b : Build) (pressed : KeyPos → Bool) (side : KeyPos → Tapping.Side) : Prop where
  aligned : ∀ key, Tapping.Aligned (side key)
  counted : ∀ key, Tapping.Counted (side key)
  first : ∀ key e, (side key).timeline.head? = some e → e.pressed = true
  matrix : ∀ key, ∀ e ∈ (side key).timeline, b.layers.inMatrix key = true
  last : ∀ key, pressed key = (side key).timeline.getLast?.any KeyEvent.pressed

variable {pressed : KeyPos → Bool} {side : KeyPos → Tapping.Side}

theorem Lined.steps {side' : KeyPos → Tapping.Side} (h : Lined b pressed side)
    (hsteps : ∀ key, Tapping.Side.Steps (side key) (side' key)) : Lined b pressed side' where
  aligned key := (hsteps key).aligned (h.aligned key)
  counted key := (hsteps key).counted (h.aligned key) (h.counted key)
  first key := (hsteps key).timeline_eq ▸ h.first key
  matrix key := (hsteps key).timeline_eq ▸ h.matrix key
  last key := (hsteps key).timeline_eq ▸ h.last key

theorem Lined.sound (h : Lined b pressed side) (key : KeyPos) : Sound (side key).sent where
  first r hr := h.first key r.event (by simp [Tapping.Side.timeline, List.head?_append, hr])
  turn := Tapping.Counted.answers (h.aligned key) (h.counted key)

theorem Lined.arrive (h : Lined b pressed side) {e : KeyEvent}
    (hm : b.layers.inMatrix e.key = true) (hturn : pressed e.key = !e.pressed) :
    Lined b (Function.update pressed e.key e.pressed)
      (Function.update side e.key ((side e.key).arrive e)) := by
  have hchain : ((side e.key).timeline ++ [e]).IsChain fun a b => a.pressed ≠ b.pressed := by
    rw [List.isChain_append]
    refine ⟨(h.aligned e.key).alternates,.singleton _,fun x hx y hy => ?_⟩
    cases hy
    have hlast := h.last e.key
    rw [hx, hturn] at hlast
    simp only [Option.any_some] at hlast
    simp [← hlast]
  constructor
  case aligned =>
    intro key
    by_cases hkey : key = e.key
    · subst hkey
      simpa using (h.aligned e.key).arrive hchain
    · simpa [hkey] using h.aligned key
  case counted =>
    intro key
    by_cases hkey : key = e.key
    · subst hkey
      simpa using (h.counted e.key).arrive e
    · simpa [hkey] using h.counted key
  case first =>
    intro key x hx
    by_cases hkey : key = e.key
    · subst hkey
      rw [Function.update_self, Tapping.Side.arrive_timeline, List.head?_append] at hx
      cases hhead : (side e.key).timeline.head? with
      | some y =>
        rw [hhead] at hx
        exact h.first e.key x (hhead.trans hx)
      | none =>
        rw [hhead] at hx
        cases hx
        have hlast := h.last e.key
        rw [List.head?_eq_none_iff.mp hhead, hturn] at hlast
        simpa using hlast
    · rw [Function.update_of_ne hkey] at hx
      exact h.first key x hx
  case matrix =>
    intro key x hx
    by_cases hkey : key = e.key
    · exact hkey ▸ hm
    · rw [Function.update_of_ne hkey] at hx
      exact h.matrix key x hx
  case last =>
    intro key
    by_cases hkey : key = e.key
    · subst hkey
      rw [Function.update_self, Function.update_self, Tapping.Side.arrive_timeline,
        List.getLast?_concat]
      rfl
    · rw [Function.update_of_ne hkey, Function.update_of_ne hkey]
      exact h.last key

/-- The engine and the actions behind it. -/
structure Ready (t : Typing b) : Prop where
  wf : t.tapping.Wf
  lined : Lined b t.pressed t.tapping.side
  inv : Inv t.world
  follows : ∀ key, Follows (t.world.down key) (Tapping.passedOf key t.tapping.out)

theorem start_ready (defaultState : BitVec b.layers.size.width) (oneshot : Bool) :
    Ready (Typing.start defaultState oneshot) where
  wf := nofun
  lined := ⟨fun _ => Tapping.aligned_nil,fun _ => Tapping.counted_nil,nofun,nofun,fun _ => rfl⟩
  inv := start_inv defaultState oneshot
  follows _ := rfl

theorem deliver_ready {t : Typing b} {s : Tapping.State} (hl : Lined b t.pressed side)
    (hinv : Inv t.world)
    (hf : ∀ key, Follows (t.world.down key) (Tapping.passedOf key t.tapping.out))
    (hwf : s.Wf) (happ : Tapping.Appends t.tapping s.out)
    (hsteps : ∀ key, Tapping.Side.Steps (side key) (s.side key)) : Ready (deliver m t s) := by
  obtain ⟨new,hout,hnew⟩ := happ
  have hlined := hl.steps hsteps
  have hdrop : s.out.drop t.tapping.out.length = new := by rw [hout, List.drop_left]
  obtain ⟨hinv',hf'⟩ := @process_all b m t.world new t.tapping.out hnew
    (fun key => hout ▸ hlined.sound key)
    (fun key r hr => hlined.matrix key r.event (by
      rw [← hout] at hr
      exact List.mem_append_left _ (List.mem_map_of_mem hr))) hinv hf
  refine ⟨hwf,hlined,?_,fun key => ?_⟩
  · simpa only [deliver, hdrop] using hinv'
  · rw [deliver, hdrop, hout]
    exact hf' key

theorem drain_round {k : KeyRecord} {rest : List KeyRecord}
    (hb : t.tapping.waitingBuffer = k :: rest) (n : Nat) :
    drain m (n+1) t
      = if (Tapping.processTapping (config m t.world) k t.tapping).done then
          drain m n (deliver m t (Tapping.popped (config m t.world) k t.tapping))
        else deliver m t (Tapping.popped (config m t.world) k t.tapping) := by
  simp only [drain, hb, Tapping.popped]
  split <;> rfl

theorem drain_out (n : Nat) (t : Typing b) : t.tapping.out <+: (drain m n t).tapping.out := by
  induction n generalizing t with
  | zero => exact List.prefix_refl _
  | succ n ih =>
    cases hb : t.tapping.waitingBuffer with
    | nil => simp [drain, hb]
    | cons k rest =>
      have hout := @Tapping.popped_out (config m t.world) k t.tapping
      rw [drain_round hb]
      split
      · exact hout.trans (ih (deliver m t _))
      · exact hout

theorem drain_ready (n : Nat) (h : Ready t) (hreg : drainRegular m n t = true) :
    Ready (drain m n t) := by
  induction n generalizing t with
  | zero => exact h
  | succ n ih =>
    cases hb : t.tapping.waitingBuffer with
    | nil => simpa only [drain, hb] using h
    | cons k rest =>
      simp only [drainRegular, hb, Bool.and_eq_true] at hreg
      have hfresh : Tapping.Fresh k := h.wf k (by rw [hb]; exact List.mem_cons_self)
      have hmulti : Tapping.replacesMulti (config m t.world) t.tapping k = false := by
        have := hreg.1
        simp only [Tapping.regular, Bool.and_eq_true, Bool.not_eq_true'] at this
        exact this.1
      have hround : Ready (deliver m t (Tapping.popped (config m t.world) k t.tapping)) :=
        deliver_ready h.lined h.inv h.follows
          (Tapping.popped_round hb h.wf).wf (Tapping.popped_appends hmulti)
          (Tapping.popped_steps hb hfresh (h.lined.aligned k.event.key) hreg.1)
      rw [drain_round hb]
      split
      · rename_i hdone
        rw [if_pos hdone] at hreg
        exact ih hround hreg.2
      · exact hround

theorem arrive_inv (h : Inv t.world) (e : KeyEvent) : Inv (arrive e t).world := by
  unfold arrive
  cases e.pressed with
  | false => exact h
  | true => exact h.next .arrival trivial

theorem arrive_down (e : KeyEvent) : (arrive e t).world.down = t.world.down := by
  unfold arrive
  cases e.pressed <;> rfl

theorem arrive_ready (h : Ready t) {e : KeyEvent} (ht : e.isNoEvent = true) :
    Ready (arrive e t) where
  wf := h.wf
  lined := by simpa [arrive, ht] using h.lined
  inv := arrive_inv h.inv e
  follows := arrive_down (t := t) e ▸ h.follows

theorem joined_update (s : Tapping.State) (e : KeyEvent) :
    s.joined e = Function.update s.side e.key ((s.side e.key).arrive e) := by
  funext key
  by_cases hkey : e.key = key
  · subst hkey
    simp [Tapping.State.joined]
  · simp [Tapping.State.joined, hkey, Function.update_of_ne (Ne.symm hkey)]

theorem receive_ready (h : Ready t) {e : KeyEvent}
    (hright : e.isNoEvent = false → b.layers.inMatrix e.key = true ∧ t.pressed e.key = !e.pressed)
    (hroom : Sent.clearKeyboard ∉ (receive m e.record (arrive e t)).tapping.out)
    (hreg : e.isNoEvent = true ∨
      Tapping.replacesMulti (config m (arrive e t).world) t.tapping e.record = false
      ∧ (Tapping.handled (config m (arrive e t).world) t.tapping e.record = true →
        ∀ x ∈ t.tapping.buffered, x.key ≠ e.key)) :
    Ready (receive m e.record (arrive e t)) := by
  have hwf := (Tapping.receive_arrival h.wf hroom).wf
  have happ := Tapping.receive_appends (hreg.imp_right And.left) hroom
  have hfollows : ∀ key, Follows ((arrive e t).world.down key)
      (Tapping.passedOf key t.tapping.out) := arrive_down (t := t) e ▸ h.follows
  cases ht : e.isNoEvent with
  | true =>
    have hready := arrive_ready h ht
    exact deliver_ready hready.lined hready.inv hfollows hwf happ (Tapping.tick_steps ht)
  | false =>
    obtain ⟨hm,hturn⟩ := hright ht
    obtain ⟨hmulti,hfree⟩ := hreg.resolve_left (by simp [ht])
    have hlined := h.lined.arrive hm hturn
    rw [← joined_update] at hlined
    have hpressed : (arrive e t).pressed = Function.update t.pressed e.key e.pressed := by
      simp [arrive, ht]
    exact deliver_ready (hpressed ▸ hlined) (arrive_inv h.inv e) hfollows hwf happ
      (Tapping.receive_steps ht hroom (hlined.aligned e.key) hmulti hfree)

theorem actionExec_ready (h : Ready t) {e : KeyEvent} (hright : Typing.Right m t (.event e)) :
    Ready (actionExec m e t) := by
  obtain ⟨hturn,hroom,hreg⟩ := hright
  simp only [callRegular, Bool.and_eq_true, Bool.or_eq_true, Bool.not_eq_true',
    Bool.and_eq_false_iff, List.any_eq_false, Tapping.ofKey, decide_eq_true_eq] at hreg
  have hreceive : Sent.clearKeyboard ∉ (receive m e.record (arrive e t)).tapping.out := fun hout =>
    hroom ((drain_out _ _).subset hout)
  refine drain_ready _ (receive_ready h hturn hreceive ?_) hreg.2
  refine hreg.1.imp_right fun hcall => ⟨hcall.1,fun hhandled => ?_⟩
  exact hcall.2.resolve_left fun hno => Bool.noConfusion (hhandled.symm.trans hno)

theorem next_ready (h : Ready t) (input : TypingInput b) (hright : Typing.Right m t input) :
    Ready (t.next m input) := by
  cases input with
  | event e => exact actionExec_ready h hright
  | oneshot active => exact ⟨h.wf,h.lined,h.inv.next (.oneshot active) hright,h.follows⟩
  | layers state defaultState =>
    exact ⟨h.wf,h.lined,h.inv.next (.layers state defaultState) trivial,h.follows⟩

theorem Ready.down (h : Ready t) {key : KeyPos} (hwait : ∀ e ∈ t.tapping.waiting, e.key ≠ key) :
    (t.world.down key).isSome = t.pressed key := by
  have hstage : (Tapping.stageOf t.tapping.tappingKey key).events = [] := by
    unfold Tapping.stageOf
    split
    · rename_i hkey
      simp only [Bool.and_eq_true, Bool.not_eq_true', decide_eq_true_eq] at hkey
      split
      · rename_i hcount
        refine absurd hkey.2 (hwait _ (List.mem_append_left _ ?_))
        have hundecided : t.tapping.undecided = true := by
          simp [Tapping.State.undecided, Tapping.State.active, hkey.1.1, hkey.1.2, hcount]
        rw [Tapping.unsettled_of hundecided]
        exact List.mem_singleton_self _
      · rfl
    · rfl
  have hbuffer : t.tapping.waitingBuffer.filter (Tapping.recordOf key) = [] := by
    rw [List.filter_eq_nil_iff]
    intro r hr hkey
    exact hwait r.event (List.mem_append_right _ (List.mem_map_of_mem hr))
      (by simpa [Tapping.recordOf] using hkey)
  have hlast := h.lined.last key
  have hdown := h.follows key
  simp only [Tapping.State.side, Tapping.Side.timeline, hstage, hbuffer, List.map_nil,
    List.append_nil, List.getLast?_map] at hlast
  rw [hlast]
  have hsome := congrArg Option.isSome hdown
  rw [Option.isSome_map, Option.isSome_map] at hsome
  rw [hsome]
  cases (Tapping.passedOf key t.tapping.out).getLast? with
  | none => rfl
  | some p => cases hp : p.event.pressed <;> simp [Option.filter, hp]

/-- A key that holds it is pressed, or the engine has not passed on its release yet. -/
def Typing.Holds (t : Typing b) (item : Item) : Prop :=
  ∃ key h, t.world.down key = some h ∧ h.consumed = false
    ∧ keeps b t.world.state.oneshotEnable h.tapCount (decode h.action) item
    ∧ (t.pressed key = true ∨ ∃ e ∈ t.tapping.waiting, e.key = key)

theorem Ready.held (h : Ready t) {item : Item} (hitem : HeldDown t.world item) :
    t.Holds item := by
  obtain ⟨key,held,hdown,hfree,hkeeps⟩ := hitem
  refine ⟨key,held,hdown,hfree,hkeeps,?_⟩
  by_cases hwait : ∀ e ∈ t.tapping.waiting, e.key ≠ key
  · exact .inl (by rw [← h.down hwait, hdown]; rfl)
  · exact .inr (by simpa using hwait)

theorem Ready.up (h : Ready t) (hup : ∀ key, t.pressed key = false)
    (hnone : t.tapping.waiting = []) (key : KeyPos) : t.world.down key = none := by
  have hdown := @Ready.down _ _ h key (by rw [hnone]; nofun)
  rw [hup key] at hdown
  exact Option.isNone_iff_eq_none.mp (Option.isSome_eq_false_iff.mp hdown)

theorem drain_pressed (n : Nat) (t : Typing b) : (drain m n t).pressed = t.pressed := by
  induction n generalizing t with
  | zero => rfl
  | succ n ih =>
    cases hb : t.tapping.waitingBuffer with
    | nil => simp [drain, hb]
    | cons k rest =>
      rw [drain_round hb]
      split
      · exact ih (deliver m t _)
      · rfl

theorem actionExec_pressed (e : KeyEvent) (t : Typing b) : (actionExec m e t).pressed
    = if e.isNoEvent then t.pressed else Function.update t.pressed e.key e.pressed :=
  drain_pressed _ _

structure Idle (t : Typing b) : Prop where
  tappingKey : t.tapping.tappingKey.event.isNoEvent = true
  buffer : t.tapping.waitingBuffer = []
  room : Sent.clearKeyboard ∉ t.tapping.out

theorem config_plain (hplain : ∀ layer key, Tapping.isTapAction (b.layers.actionForKey layer key) = false)
    (w : World b) (k : KeyRecord) : Tapping.isTapRecord (config m w) k = false := by
  simp [Tapping.isTapRecord, config, Layers.layerSwitchGetAction, hplain]

theorem receive_idle (hplain : ∀ layer key, Tapping.isTapAction (b.layers.actionForKey layer key) = false)
    (h : Idle t) (e : KeyEvent) : (receive m e.record t).tapping
      = if e.isNoEvent then t.tapping else t.tapping.send (.record e.record) := by
  have hevent : e.record.event.isNoEvent = e.isNoEvent := rfl
  simp only [receive, deliver, Tapping.receive, Tapping.processTapping, h.tappingKey, if_true,
    Tapping.processReset, config_plain hplain, Bool.and_false, Bool.false_eq_true, if_false, hevent]
  split
  · rfl
  · rfl

theorem idle_call (hplain : ∀ layer key, Tapping.isTapAction (b.layers.actionForKey layer key) = false)
    (h : Idle t) (e : KeyEvent) : Idle (actionExec m e t) ∧ callRegular m e t = true := by
  have harrive : Idle (arrive e t) := ⟨h.tappingKey,h.buffer,h.room⟩
  have htapping := @receive_idle b m (arrive e t) hplain harrive e
  have hbuffer : (receive m e.record (arrive e t)).tapping.waitingBuffer = [] := by
    rw [htapping]
    split
    · exact h.buffer
    · exact h.buffer
  have hexec : actionExec m e t = receive m e.record (arrive e t) := by
    simp only [actionExec, hbuffer, List.length_nil, drain]
  refine ⟨hexec ▸ ⟨?_,hbuffer,?_⟩,?_⟩
  · rw [htapping]
    split
    · exact h.tappingKey
    · exact h.tappingKey
  · rw [htapping]
    split
    · exact h.room
    · simpa [Tapping.State.send] using harrive.room
  · have hbuffered : (arrive e t).tapping.buffered = [] := by
      simp [Tapping.State.buffered, harrive.buffer]
    simp [callRegular, hbuffer, drainRegular, Tapping.replacesMulti, config_plain hplain, hbuffered]

/-- A layer key that is A when it is tapped, and beside it B, or shift and A on the second layer. -/
def layerTap : Build :=
  { twoLayers with
    layers := {
      twoLayers.layers with
      actionForKey := fun layer key =>
        if key.col = 0 then if layer = 0 then 0xA104 else 1
        else if layer = 0 then 0x0005 else 0x0204 } }

def layerTapMap : Keymap layerTap where
  settings := {
    action := fun _ => 0
    tappingTerm := fun _ => 200
    quickTapTerm := fun _ => 200
    permissiveHold := fun _ => false
    holdOnOtherKeyPress := fun _ => false }
  consumes := fun _ _ => false

/-- Held over the term, with the other key rolled off the layer, and then tapped. -/
def rollOffLayer : List (TypingInput layerTap) :=
  [.event ⟨⟨0,0⟩,0,.key,true⟩,.event ⟨⟨0,1⟩,150,.key,true⟩,.event ⟨⟨0,0⟩,210,.tick,false⟩,
    .event ⟨⟨0,0⟩,250,.key,false⟩,.event ⟨⟨0,1⟩,300,.key,false⟩,.event ⟨⟨0,0⟩,400,.key,true⟩,
    .event ⟨⟨0,0⟩,450,.key,false⟩]

example : ((rollOffLayer.take 3).foldl (Typing.next layerTapMap)
    (Typing.start 1 true)).world.state.lastReport.1 = 0b10 := by decide +kernel

end QmkFirmware.Action
