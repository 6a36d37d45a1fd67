import Mathlib.Data.List.Basic
import Mathlib.Algebra.GroupWithZero.Nat
import QmkFirmware.Lib.Along

/-!
The lock of secure.c, with `preprocess_secure` in front of it: a sequence of keys unlocks while a
request is pending. The hooks are the empty ones.
-/

set_option autoImplicit false

namespace QmkFirmware.Secure

inductive Status where
  | locked | pending | unlocked
  deriving DecidableEq, Repr

abbrev Key := UInt8 × UInt8

structure Config where
  sequence : List Key
  unlockTimeout : UInt32
  idleTimeout : UInt32
  nonempty : sequence ≠ []

/-- The static variables, also the one inside `secure_keypress_event`. -/
structure State where
  status : Status
  unlockTime : UInt32
  idleTime : UInt32
  offset : UInt8
  deriving DecidableEq, Repr

def boot : State := ⟨.locked,0,0,0⟩

def lock (s : State) : State := { s with status := .locked }

def unlock (now : UInt32) (s : State) : State := { s with status := .unlocked, idleTime := now }

def requestUnlock (now : UInt32) (s : State) : State :=
  if s.status = .locked then { s with status := .pending, unlockTime := now } else s

def activityEvent (now : UInt32) (s : State) : State :=
  if s.status = .unlocked then { s with idleTime := now } else s

def keypressEvent (cfg : Config) (row col : UInt8) (now : UInt32) (s : State) : State :=
  let sequenceLen := UInt8.ofNat cfg.sequence.length
  if cfg.sequence[s.offset.toNat]? = some (row,col) then
    let s := { s with offset := s.offset+1 }
    if s.offset = sequenceLen then unlock now { s with offset := 0 } else s
  else lock { s with offset := 0 }

def unlockTimedOut (cfg : Config) (now : UInt32) (s : State) : Bool :=
  cfg.unlockTimeout ≠ 0 ∧ s.status = .pending ∧ cfg.unlockTimeout ≤ now-s.unlockTime

def idleTimedOut (cfg : Config) (now : UInt32) (s : State) : Bool :=
  cfg.idleTimeout ≠ 0 ∧ s.status = .unlocked ∧ cfg.idleTimeout ≤ now-s.idleTime

def task (cfg : Config) (now : UInt32) (s : State) : State :=
  let s := if unlockTimedOut cfg now s then lock s else s
  if idleTimedOut cfg now s then lock s else s

def preprocess (cfg : Config) (row col : UInt8) (pressed : Bool) (now : UInt32) (s : State) :
    Bool × State :=
  if s.status = .pending then
    (false, if pressed then keypressEvent cfg row col now s else s)
  else (true, s)

inductive Event where
  | lock
  | requestUnlock (now : UInt32)
  | activity (now : UInt32)
  | task (now : UInt32)
  | key (row col : UInt8) (pressed : Bool) (now : UInt32)
  deriving DecidableEq, Repr

def step (cfg : Config) (s : State) : Event → State
  | .lock => lock s
  | .requestUnlock now => requestUnlock now s
  | .activity now => activityEvent now s
  | .task now => task cfg now s
  | .key row col pressed now => (preprocess cfg row col pressed now s).2

def Event.presses : Event → List Key
  | .key row col true _ => [(row,col)]
  | _ => []

structure Watched where
  state : State
  seen : List Key
  deriving DecidableEq, Repr

def Watched.next (cfg : Config) (w : Watched) (e : Event) : Watched :=
  let s := step cfg w.state e
  ⟨s, if w.state.status = .locked ∧ s.status = .pending then [] else w.seen ++ e.presses⟩

def watch (cfg : Config) (events : List Event) : Watched := events.foldl (Watched.next cfg) ⟨boot,[]⟩

/-- A pending request ends by a lock or by its timeout only before the sequence has begun: neither
of the two sets the offset back. -/
def Unbroken (cfg : Config) (w : Watched) : Event → Prop
  | .lock => w.state.status = .pending → w.state.offset = 0
  | .task now => unlockTimedOut cfg now w.state → w.state.offset = 0
  | _ => True

instance (cfg : Config) (w : Watched) : ∀ e, Decidable (Unbroken cfg w e)
  | .lock => inferInstanceAs (Decidable (w.state.status = .pending → w.state.offset = 0))
  | .task now => inferInstanceAs (Decidable (unlockTimedOut cfg now w.state → w.state.offset = 0))
  | .requestUnlock _ => .isTrue trivial
  | .activity _ => .isTrue trivial
  | .key _ _ _ _ => .isTrue trivial

def Quiet (cfg : Config) (w : Watched) : Event → Prop
  | .lock => False
  | .task now => ¬ unlockTimedOut cfg now w.state
  | _ => True

/-- The lock opens for its sequence, within one request, and for nothing else. -/
structure NeedsSequence (cfg : Config) (before : List Event) : Prop where
  only : ∀ e, (watch cfg before).state.status ≠ .unlocked →
    (watch cfg (before ++ [e])).state.status = .unlocked →
      (watch cfg (before ++ [e])).seen = cfg.sequence
  opens : (watch cfg before).state.status = .locked → ∀ asked mid row col now,
    Along (Watched.next cfg) (Quiet cfg) (watch cfg (before ++ [.requestUnlock asked])) mid →
    mid.flatMap Event.presses ++ [(row,col)] = cfg.sequence →
      (watch cfg (before ++ .requestUnlock asked :: mid ++ [.key row col true now])).state.status
        = .unlocked
  blocks : (watch cfg before).state.status = .pending → ∀ row col pressed now,
    (preprocess cfg row col pressed now (watch cfg before).state).1 = false

structure Matches (cfg : Config) (w : Watched) : Prop where
  idle : w.state.status ≠ .pending → w.state.offset = 0
  seen : w.state.status = .pending → w.state.offset.toNat < cfg.sequence.length
    ∧ w.seen = cfg.sequence.take w.state.offset.toNat

theorem boot_matches (cfg : Config) : Matches cfg ⟨boot,[]⟩ :=
  ⟨fun _ => rfl, fun h => absurd h (by decide)⟩

theorem press_cases {cfg : Config} (hlen : cfg.sequence.length ≤ 256) {w : Watched}
    (h : Matches cfg w) (hp : w.state.status = .pending) (row col : UInt8) (now : UInt32) :
    (cfg.sequence = w.seen ++ [(row,col)] ∧
        keypressEvent cfg row col now w.state = unlock now { w.state with offset := 0 })
      ∨ (w.seen ++ [(row,col)] <+: cfg.sequence ∧ w.seen.length+1 < cfg.sequence.length ∧
        keypressEvent cfg row col now w.state = { w.state with offset := w.state.offset+1 } ∧
        (w.state.offset+1).toNat = w.state.offset.toNat+1)
      ∨ (¬ w.seen ++ [(row,col)] <+: cfg.sequence ∧
        keypressEvent cfg row col now w.state = lock { w.state with offset := 0 }) := by
  obtain ⟨hlt, hseen⟩ := h.seen hp
  have hcount : w.seen.length = w.state.offset.toNat := by
    rw [hseen, List.length_take, Nat.min_eq_left (Nat.le_of_lt hlt)]
  by_cases hkey : cfg.sequence[w.state.offset.toNat]? = some (row,col)
  · have htake : w.seen ++ [(row,col)] = cfg.sequence.take (w.state.offset.toNat+1) := by
      rw [List.take_add_one, ← hseen, hkey]
      rfl
    rw [keypressEvent, if_pos hkey]
    by_cases hlast : w.state.offset.toNat+1 = cfg.sequence.length
    · left
      refine ⟨by rw [htake, hlast, List.take_length], ?_⟩
      have hoff : w.state.offset+1 = UInt8.ofNat cfg.sequence.length := by
        rw [← hlast, UInt8.ofNat_add, UInt8.ofNat_toNat]
        rfl
      simp only [hoff, if_true]
    · right; left
      have hnext : (w.state.offset+1).toNat = w.state.offset.toNat+1 := by
        rw [UInt8.toNat_add]
        exact Nat.mod_eq_of_lt (by simp only [UInt8.toNat_one]; omega)
      refine ⟨htake ▸ List.take_prefix _ _, by omega, ?_, hnext⟩
      have hoff : w.state.offset+1 ≠ UInt8.ofNat cfg.sequence.length := fun heq => by
        have := congrArg UInt8.toNat heq
        rw [hnext, UInt8.toNat_ofNat'] at this
        omega
      simp only [if_neg hoff]
  · right; right
    refine ⟨fun hpre => hkey ?_, by rw [keypressEvent, if_neg hkey]⟩
    obtain ⟨rest, hrest⟩ := hpre
    rw [← hrest, List.append_assoc, List.getElem?_append_right (by omega), hcount]
    simp

theorem step_cases (cfg : Config) (s : State) (e : Event)
    (hkey : e.presses = [] ∨ s.status ≠ .pending) :
    (step cfg s e).offset = s.offset ∧
      ((step cfg s e).status = s.status
        ∨ (s.status = .locked ∧ (step cfg s e).status = .pending)
        ∨ ((step cfg s e).status = .locked ∧
          (e = .lock ∨ (∃ now, e = .task now ∧ unlockTimedOut cfg now s) ∨ s.status = .unlocked))) := by
  cases e with
  | lock => exact ⟨rfl, .inr (.inr ⟨rfl, .inl rfl⟩)⟩
  | requestUnlock now =>
    simp only [step, requestUnlock]
    split
    · rename_i h
      exact ⟨rfl, .inr (.inl ⟨h, rfl⟩)⟩
    · exact ⟨rfl, .inl rfl⟩
  | activity now =>
    simp only [step, activityEvent]
    split <;> exact ⟨rfl, .inl rfl⟩
  | task now =>
    simp only [step, task]
    by_cases hu : unlockTimedOut cfg now s
    · rw [if_pos hu]
      refine ⟨by split <;> rfl, .inr (.inr ⟨by split <;> rfl, .inr (.inl ⟨now, rfl, hu⟩)⟩)⟩
    · rw [if_neg hu]
      split
      · rename_i hi
        exact ⟨rfl, .inr (.inr ⟨rfl, .inr (.inr (of_decide_eq_true hi).2.1)⟩)⟩
      · exact ⟨rfl, .inl rfl⟩
  | key row col pressed now =>
    simp only [step, preprocess]
    split
    · rename_i hp
      rcases hkey with hkey | hkey
      · cases pressed with
        | true => cases hkey
        | false => exact ⟨rfl, .inl rfl⟩
      · exact absurd hp hkey
    · exact ⟨rfl, .inl rfl⟩

theorem step_press (cfg : Config) {s : State} (hp : s.status = .pending) (row col : UInt8)
    (now : UInt32) : step cfg s (.key row col true now) = keypressEvent cfg row col now s := by
  simp only [step, preprocess, hp, if_true]

theorem next_matches {cfg : Config} (hlen : cfg.sequence.length ≤ 256) (w : Watched) (e : Event)
    (h : Matches cfg w) (hu : Unbroken cfg w e) : Matches cfg (w.next cfg e) := by
  by_cases hkey : e.presses = [] ∨ w.state.status ≠ .pending
  · obtain ⟨hoff, hsame | ⟨hlocked, hpending⟩ | ⟨hlocked, hwhy⟩⟩ := step_cases cfg w.state e hkey
    · refine ⟨fun hn => ?_, fun hp => ?_⟩
      · exact hoff.trans (h.idle (hsame ▸ hn))
      · have hwp : w.state.status = .pending := hsame ▸ hp
        obtain ⟨hlt, hseen⟩ := h.seen hwp
        have hempty : e.presses = [] := hkey.resolve_right (not_not.mpr hwp)
        refine ⟨by rw [Watched.next, hoff]; exact hlt, ?_⟩
        simp only [Watched.next, hoff, hwp, hempty, reduceCtorEq, false_and, if_false,
          List.append_nil]
        exact hseen
    · refine ⟨fun hn => absurd hpending hn, fun _ => ?_⟩
      have hzero : w.state.offset = 0 := h.idle (by rw [hlocked]; decide)
      simp only [Watched.next, hoff, hlocked, hpending, and_self, if_true, hzero]
      exact ⟨List.length_pos_iff.mpr cfg.nonempty, rfl⟩
    · refine ⟨fun _ => hoff.trans ?_, fun hp => absurd (hlocked.symm.trans hp) (by decide)⟩
      by_cases hp : w.state.status = .pending
      · rcases hwhy with rfl | ⟨now, rfl, hout⟩ | hul
        · exact hu hp
        · exact hu hout
        · exact absurd (hp.symm.trans hul) (by decide)
      · exact h.idle hp
  · obtain ⟨hpress, hp⟩ := not_or.mp hkey
    have hp := not_not.mp hp
    match e, hpress with
    | .key row col true now, _ =>
      have hstep := step_press cfg hp row col now
      have hseen : (w.next cfg (.key row col true now)).seen = w.seen ++ [(row,col)] := by
        simp only [Watched.next, hp, reduceCtorEq, false_and, if_false]
        rfl
      have hstate : (w.next cfg (.key row col true now)).state
          = keypressEvent cfg row col now w.state := hstep
      rcases press_cases hlen h hp row col now with ⟨-, hk⟩ | ⟨hpre, hlt, hk, hoff⟩ | ⟨-, hk⟩
      · exact ⟨fun _ => by rw [hstate, hk]; rfl, fun hpend => by rw [hstate, hk] at hpend; cases hpend⟩
      · refine ⟨fun hn => absurd hp (by rw [hstate, hk] at hn; exact hn), fun _ => ?_⟩
        have hcount : w.seen.length = w.state.offset.toNat := by
          obtain ⟨hlt, hseen⟩ := h.seen hp
          rw [hseen, List.length_take, Nat.min_eq_left (Nat.le_of_lt hlt)]
        rw [hstate, hk, hseen]
        refine ⟨by change (w.state.offset+1).toNat < _; omega, ?_⟩
        rw [hoff, List.prefix_iff_eq_take.mp hpre, List.length_append, List.length_singleton, hcount]
      · exact ⟨fun _ => by rw [hstate, hk]; rfl, fun hpend => by rw [hstate, hk] at hpend; cases hpend⟩

theorem watch_matches {cfg : Config} (hlen : cfg.sequence.length ≤ 256) {events : List Event}
    (h : Along (Watched.next cfg) (Unbroken cfg) ⟨boot,[]⟩ events) :
    Matches cfg (watch cfg events) :=
  h.invariant (next_matches hlen) (boot_matches cfg)

theorem watch_snoc (cfg : Config) (events : List Event) (e : Event) :
    watch cfg (events ++ [e]) = (watch cfg events).next cfg e := by
  rw [watch, List.foldl_append]
  rfl

theorem watch_append (cfg : Config) (events more : List Event) :
    watch cfg (events ++ more) = more.foldl (Watched.next cfg) (watch cfg events) :=
  List.foldl_append

theorem enter_pending {cfg : Config} (hlen : cfg.sequence.length ≤ 256) {mid : List Event}
    {w : Watched} (h : Matches cfg w) (hp : w.state.status = .pending)
    (hq : Along (Watched.next cfg) (Quiet cfg) w mid) {k : Key}
    (hseq : w.seen ++ mid.flatMap Event.presses ++ [k] = cfg.sequence) :
    Matches cfg (mid.foldl (Watched.next cfg) w)
      ∧ (mid.foldl (Watched.next cfg) w).state.status = .pending
      ∧ (mid.foldl (Watched.next cfg) w).seen ++ [k] = cfg.sequence := by
  induction mid generalizing w with
  | nil => exact ⟨h, hp, by simpa using hseq⟩
  | cons e mid ih =>
    obtain ⟨hqe, hq⟩ := hq
    have hu : Unbroken cfg w e := by
      cases e with
      | lock => exact absurd hqe id
      | task now => exact fun hout => absurd hout hqe
      | _ => exact trivial
    have hnext := next_matches hlen w e h hu
    have hseen : (w.next cfg e).seen = w.seen ++ e.presses := by
      simp only [Watched.next, hp, reduceCtorEq, false_and, if_false]
    rw [List.flatMap_cons, ← List.append_assoc, ← hseen] at hseq
    refine ih hnext ?_ hq hseq
    by_cases hpress : e.presses = []
    · obtain ⟨-, hsame | ⟨hlocked, -⟩ | ⟨-, hwhy⟩⟩ := step_cases cfg w.state e (.inl hpress)
      · exact hsame.trans hp
      · exact absurd (hp.symm.trans hlocked) (by decide)
      · rcases hwhy with rfl | ⟨now, rfl, hout⟩ | hul
        · exact absurd hqe id
        · exact absurd hout hqe
        · exact absurd (hp.symm.trans hul) (by decide)
    · match e, hpress with
      | .key row col true now, _ =>
        change (step cfg w.state _).status = _
        rw [step_press cfg hp]
        rw [hseen] at hseq
        rcases press_cases hlen h hp row col now with ⟨hall, -⟩ | ⟨-, -, hk, -⟩ | ⟨hno, -⟩
        · have := congrArg List.length hseq
          rw [hall] at this
          simp only [Event.presses, List.length_append, List.length_singleton] at this
          omega
        · rw [hk]
          exact hp
        · refine absurd ?_ hno
          rw [← hseq, List.append_assoc]
          exact List.prefix_append _ _

theorem needs_sequence (cfg : Config) (hlen : cfg.sequence.length ≤ 256) {before : List Event}
    (h : Along (Watched.next cfg) (Unbroken cfg) ⟨boot,[]⟩ before) : NeedsSequence cfg before := by
  have hm := watch_matches hlen h
  refine ⟨fun e hne hul => ?_, fun hlocked asked mid row col now hq hseq => ?_,
    fun hp row col pressed now => by rw [preprocess, if_pos hp]⟩
  · rw [watch_snoc] at hul ⊢
    by_cases hkey : e.presses = [] ∨ (watch cfg before).state.status ≠ .pending
    · obtain ⟨-, hsame | ⟨-, hpending⟩ | ⟨hlocked, -⟩⟩ := step_cases cfg _ e hkey
      · exact absurd (hsame.symm.trans hul) hne
      · exact absurd (hpending.symm.trans hul) (by decide)
      · exact absurd (hlocked.symm.trans hul) (by decide)
    · obtain ⟨hpress, hp⟩ := not_or.mp hkey
      have hp := not_not.mp hp
      match e, hpress with
      | .key row col true now, _ =>
        change (step cfg (watch cfg before).state _).status = _ at hul
        rw [step_press cfg hp] at hul
        rcases press_cases hlen hm hp row col now with ⟨hall, -⟩ | ⟨-, -, hk, -⟩ | ⟨-, hk⟩
        · rw [hall]
          simp only [Watched.next, hp, reduceCtorEq, false_and, if_false]
          rfl
        · rw [hk] at hul
          exact absurd hul hne
        · rw [hk] at hul
          cases hul
  · rw [watch_snoc] at hq
    have hasked : (step cfg (watch cfg before).state (.requestUnlock asked)).status = .pending := by
      simp only [step, requestUnlock, hlocked, if_true]
    have hseen : ((watch cfg before).next cfg (.requestUnlock asked)).seen = [] := by
      simp only [Watched.next, hlocked, hasked, and_self, if_true]
    obtain ⟨hm', hp', hlast⟩ := enter_pending hlen
      (next_matches hlen _ (.requestUnlock asked) hm trivial) hasked hq
      (k := (row,col)) (by rw [hseen]; exact hseq)
    rw [watch_snoc, ← List.singleton_append, ← List.append_assoc, watch_append, watch_snoc]
    change (step cfg _ _).status = _
    rw [step_press cfg hp']
    rcases press_cases hlen hm' hp' row col now with ⟨-, hk⟩ | ⟨-, hlt, -, -⟩ | ⟨hno, -⟩
    · rw [hk]
      rfl
    · have := congrArg List.length hlast
      rw [List.length_append, List.length_singleton] at this
      omega
    · exact absurd (hlast ▸ List.prefix_refl _) hno

def twoKeys : Config := ⟨[(0,1),(0,2)],5000,60000,by decide⟩

theorem needs_sequence_twoKeys :
    NeedsSequence twoKeys [.requestUnlock 10,.key 0 1 true 20,.key 0 2 true 30,.lock] :=
  needs_sequence twoKeys (by decide) (by decide)

/-- The first key in a request that times out, and the second one in the next request. -/
theorem half_sequence_unlocks :
    ¬ NeedsSequence twoKeys
      [.requestUnlock 0,.key 0 1 true 10,.task 5000,.requestUnlock 5001] := fun h =>
  absurd (h.only (.key 0 2 true 5010) (by decide) (by decide)) (by decide)

end QmkFirmware.Secure
