import Mathlib.Algebra.GroupWithZero.Nat
import Mathlib.Data.List.DropRight
import QmkFirmware.Lib.Along

/-!
The buffer of the last hits in `rgb_matrix.c`, and when it holds the most recent ones.
-/

set_option autoImplicit false

namespace QmkFirmware.RgbMatrix

def noLed : UInt8 := 255

/-- `hits` is `LED_HITS_TO_REMEMBER`, and `releases` says that hits are recorded on releases. The
first LEDs of a key come from the hook of the keyboard. -/
structure Config where
  hits : Nat
  releases : Bool
  mapRowColumnToLedKb : Nat → Nat → List UInt8
  matrixCo : Nat → Nat → UInt8
  point : UInt8 → UInt8 × UInt8
  hits_pos : 1 ≤ hits
  leds_le : ∀ row column,
    (mapRowColumnToLedKb row column).length+(if matrixCo row column ≠ noLed then 1 else 0) ≤ hits

variable (cfg : Config)

def mapRowColumnToLed (row column : Nat) : List UInt8 :=
  let led := cfg.mapRowColumnToLedKb row column
  if cfg.matrixCo row column ≠ noLed then led ++ [cfg.matrixCo row column] else led

/-- `last_hit_buffer` and `rgb_timer_buffer`. A tick has 16 bits. -/
structure State where
  count : Nat
  x : List UInt8
  y : List UInt8
  index : List UInt8
  tick : List Nat
  timerBuffer : UInt32

def init : State where
  count := 0
  x := List.replicate cfg.hits 0
  y := List.replicate cfg.hits 0
  index := List.replicate cfg.hits 0
  tick := List.replicate cfg.hits (2^16-1)
  timerBuffer := 0

/-- The entries from `ledCount` on are copied to the start. -/
def memcpyDown {α : Type} (ledCount : Nat) (xs : List α) : List α :=
  xs.drop ledCount ++ xs.drop (cfg.hits-ledCount)

def shift (ledCount : Nat) (s : State) : State :=
  { s with
    x := memcpyDown cfg ledCount s.x
    y := memcpyDown cfg ledCount s.y
    tick := memcpyDown cfg ledCount s.tick
    index := memcpyDown cfg ledCount s.index
    count := (cfg.hits-ledCount) % 2^8 }

def addHit (s : State) (led : UInt8) : Option State :=
  if s.count < cfg.hits then
    some { s with
      x := s.x.set s.count (cfg.point led).1
      y := s.y.set s.count (cfg.point led).2
      index := s.index.set s.count led
      tick := s.tick.set s.count 0
      count := (s.count+1) % 2^8 }
  else none

def ledsOf (row col : Nat) (pressed : Bool) : List UInt8 :=
  if pressed != cfg.releases then mapRowColumnToLed cfg row col else []

/-- `rgb_matrix_handle_key_event` on the master. -/
def handleKeyEvent (row col : Nat) (pressed : Bool) (s : State) : Option State :=
  let led := ledsOf cfg row col pressed
  let ledCount := led.length % 2^8
  let s := if cfg.hits < s.count+ledCount then shift cfg ledCount s else s
  (led.take ledCount).foldlM (addHit cfg) s

def age (deltaTime : Nat) (s : State) (i : Nat) : Option State := do
  let tick ← s.tick[i]?
  if (2^16-1+(2^32-deltaTime)) % 2^32 < tick then return { s with count := s.count-1 }
  else return { s with tick := s.tick.set i ((tick+deltaTime) % 2^16) }

def deltaTime (now : UInt32) (s : State) : Nat := (now-s.timerBuffer).toNat

def rgbTaskTimers (now : UInt32) (s : State) : Option State :=
  (List.range s.count).foldlM (age (deltaTime now s)) { s with timerBuffer := now }

structure Hit where
  led : UInt8
  age : Nat
  deriving DecidableEq

structure World where
  state : State
  hits : List Hit

inductive Input where
  | key (row col : Nat) (pressed : Bool)
  | timers (now : UInt32)

def call (s : State) : Input → Option State
  | .key row col pressed => handleKeyEvent cfg row col pressed s
  | .timers now => rgbTaskTimers now s

def newHits (leds : List UInt8) : List Hit := leds.map (⟨·,0⟩)

def aged (deltaTime : Nat) (hits : List Hit) : List Hit :=
  hits.map fun hit => ⟨hit.led,hit.age+deltaTime⟩

def record (v : World) : Input → List Hit
  | .key row col pressed => v.hits ++ newHits (ledsOf cfg row col pressed)
  | .timers now => aged (deltaTime now v.state) v.hits

def start : World := ⟨init cfg,[]⟩

def next (v : World) (input : Input) : World :=
  ⟨(call cfg v.state input).getD v.state,record cfg v input⟩

def recent (hits : List Hit) : List Hit :=
  (hits.filter fun hit => hit.age ≤ 2^16-1).rtake cfg.hits

/-- The buffer has these hits and nothing else. -/
structure Holds (s : State) (hits : List Hit) : Prop where
  count : s.count = hits.length
  x : s.x.take s.count = hits.map fun hit => (cfg.point hit.led).1
  y : s.y.take s.count = hits.map fun hit => (cfg.point hit.led).2
  index : s.index.take s.count = hits.map Hit.led
  tick : s.tick.take s.count = hits.map Hit.age

def Right (v : World) (input : Input) : Prop :=
  ∃ s, call cfg v.state input = some s ∧ Holds cfg s (recent cfg (record cfg v input))

/-- A key shifts a full buffer only, or replaces it, and the count fits into 8 bits. -/
def KeyClear (s : State) (led : List UInt8) : Prop :=
  (s.count+led.length ≤ cfg.hits ∨ s.count = cfg.hits ∨ led.length = cfg.hits) ∧
    min (s.count+led.length) cfg.hits < 2^8

def TimersClear (now : UInt32) (s : State) : Prop :=
  s.count = 0 ∨ deltaTime now s ≤ 2^16-1 ∧
    ((∀ tick ∈ s.tick.take s.count, tick+deltaTime now s ≤ 2^16-1) ∨
      ∀ tick ∈ s.tick.take s.count, 2^16-1 < tick+deltaTime now s)

def Clear (v : World) : Input → Prop
  | .key row col pressed => KeyClear cfg v.state (ledsOf cfg row col pressed)
  | .timers now => TimersClear now v.state

variable {cfg}

structure Sized (cfg : Config) (s : State) : Prop where
  x : s.x.length = cfg.hits
  y : s.y.length = cfg.hits
  index : s.index.length = cfg.hits
  tick : s.tick.length = cfg.hits

variable {s : State} {hits : List Hit}

theorem take_set_succ {α : Type} {xs : List α} {i : Nat} (h : i < xs.length) (a : α) :
    (xs.set i a).take (i+1) = xs.take i ++ [a] := by
  rw [List.take_add_one, List.getElem?_set_self h, List.take_set_of_le (Nat.le_refl i)]
  rfl

theorem Holds.add (hs : Sized cfg s) (h : Holds cfg s hits) (hc : s.count < cfg.hits)
    (h8 : s.count+1 < 2^8) (led : UInt8) :
    ∃ s', addHit cfg s led = some s' ∧ s'.count = s.count+1 ∧ Sized cfg s' ∧
      Holds cfg s' (hits ++ [⟨led,0⟩]) := by
  have hm : (s.count+1) % 2^8 = s.count+1 := Nat.mod_eq_of_lt h8
  refine ⟨_,if_pos hc,hm,⟨by simpa using hs.x,by simpa using hs.y,by simpa using hs.index,
    by simpa using hs.tick⟩,?_⟩
  rw [hm]
  refine ⟨by simp [h.count],?_,?_,?_,?_⟩
  · rw [take_set_succ (hs.x ▸ hc), h.x, List.map_append]
    rfl
  · rw [take_set_succ (hs.y ▸ hc), h.y, List.map_append]
    rfl
  · rw [take_set_succ (hs.index ▸ hc), h.index, List.map_append]
    rfl
  · rw [take_set_succ (hs.tick ▸ hc), h.tick, List.map_append]
    rfl

theorem Holds.addAll (hs : Sized cfg s) (h : Holds cfg s hits) (leds : List UInt8)
    (hc : s.count+leds.length ≤ cfg.hits) (h8 : s.count+leds.length < 2^8) :
    ∃ s', leds.foldlM (addHit cfg) s = some s' ∧ s'.count = s.count+leds.length ∧ Sized cfg s' ∧
      Holds cfg s' (hits ++ newHits leds) := by
  induction leds generalizing s hits with
  | nil => exact ⟨s,rfl,rfl,hs,by simpa [newHits] using h⟩
  | cons led leds ih =>
    rw [List.length_cons] at hc h8
    obtain ⟨s₁,h₁,hcount,hs₁,hh₁⟩ := h.add hs (by omega) (by omega) led
    obtain ⟨s₂,h₂,hcount₂,hs₂,hh₂⟩ := ih hs₁ hh₁ (by omega) (by omega)
    refine ⟨s₂,?_,by rw [hcount₂, hcount, List.length_cons]; omega,hs₂,?_⟩
    · rw [List.foldlM_cons, h₁]
      exact h₂
    · simpa [newHits] using hh₂

theorem memcpyDown_length {α : Type} {xs : List α} {ledCount : Nat} (hl : ledCount ≤ cfg.hits)
    (h : xs.length = cfg.hits) : (memcpyDown cfg ledCount xs).length = cfg.hits := by
  simp only [memcpyDown, List.length_append, List.length_drop, h]
  omega

theorem take_memcpyDown {α : Type} {xs : List α} {ledCount : Nat} (h : xs.length = cfg.hits) :
    (memcpyDown cfg ledCount xs).take (cfg.hits-ledCount) = xs.drop ledCount :=
  List.take_left' (by rw [List.length_drop, h])

theorem Holds.shift (hs : Sized cfg s) (h : Holds cfg s hits) {ledCount : Nat}
    (hl : ledCount ≤ cfg.hits) (hfull : s.count = cfg.hits ∨ ledCount = cfg.hits)
    (hle : s.count ≤ cfg.hits) (h8 : cfg.hits-ledCount < 2^8) :
    (shift cfg ledCount s).count = cfg.hits-ledCount ∧ Sized cfg (shift cfg ledCount s) ∧
      Holds cfg (shift cfg ledCount s) (hits.drop ledCount) := by
  have hm : (cfg.hits-ledCount) % 2^8 = cfg.hits-ledCount := Nat.mod_eq_of_lt h8
  have hpart : ∀ {α : Type} {xs : List α} {f : Hit → α}, xs.length = cfg.hits →
      xs.take s.count = hits.map f → xs.drop ledCount = (hits.drop ledCount).map f := by
    intro α xs f hxs hf
    rw [List.map_drop, ← hf]
    rcases hfull with hfull | hfull
    · rw [List.take_of_length_le (by omega)]
    · rw [List.drop_eq_nil_of_le (by omega), List.drop_eq_nil_of_le]
      rw [List.length_take]
      omega
  refine ⟨hm,⟨memcpyDown_length hl hs.x,memcpyDown_length hl hs.y,memcpyDown_length hl hs.index,
    memcpyDown_length hl hs.tick⟩,?_⟩
  unfold RgbMatrix.shift
  rw [hm]
  refine ⟨?_,?_,?_,?_,?_⟩
  · have hcount := h.count
    rw [List.length_drop]
    dsimp only
    omega
  · exact (take_memcpyDown hs.x).trans (hpart hs.x h.x)
  · exact (take_memcpyDown hs.y).trans (hpart hs.y h.y)
  · exact (take_memcpyDown hs.index).trans (hpart hs.index h.index)
  · exact (take_memcpyDown hs.tick).trans (hpart hs.tick h.tick)

theorem rtake_append {α : Type} (n : Nat) (xs ys : List α) :
    (xs.rtake n ++ ys).rtake n = (xs ++ ys).rtake n := by
  have hmin : min (n-ys.length) n = n-ys.length := Nat.min_eq_left (Nat.sub_le _ _)
  simp only [List.rtake_eq_reverse_take_reverse, List.reverse_append, List.reverse_reverse,
    List.take_append, List.take_take, List.length_reverse, hmin]

theorem recent_append (hits : List Hit) (leds : List UInt8) :
    recent cfg (hits ++ newHits leds) = (recent cfg hits ++ newHits leds).rtake cfg.hits := by
  have hnew : (newHits leds).filter (fun hit => hit.age ≤ 2^16-1) = newHits leds := by
    rw [List.filter_eq_self]
    simp [newHits]
  rw [recent, recent, List.filter_append, hnew, rtake_append]

theorem recent_length (hits : List Hit) : (recent cfg hits).length ≤ cfg.hits := by
  rw [recent, List.rtake, List.length_drop]
  omega

theorem rtake_of_length_le {α : Type} {n : Nat} {xs : List α} (h : xs.length ≤ n) :
    xs.rtake n = xs := by
  rw [List.rtake, Nat.sub_eq_zero_of_le h, List.drop_zero]

theorem rtake_append_of_length {α : Type} {n : Nat} {xs ys : List α} (h : ys.length = n) :
    (xs ++ ys).rtake n = ys := by
  rw [List.rtake, List.length_append, h, Nat.add_sub_cancel, List.drop_left]

theorem rtake_filter {α : Type} {n : Nat} {xs : List α} {p : α → Bool}
    (h : ∀ x ∈ xs.rtake n, p x = true) : (xs.filter p).rtake n = xs.rtake n := by
  by_cases hn : xs.length ≤ n
  · rw [rtake_of_length_le hn] at h ⊢
    rw [List.filter_eq_self.mpr h, rtake_of_length_le hn]
  · have hlen : (xs.rtake n).length = n := by
      rw [List.rtake, List.length_drop]
      omega
    have hsplit : xs.filter p = (xs.take (xs.length-n)).filter p ++ xs.rtake n := by
      conv_lhs => rw [← List.take_append_drop (xs.length-n) xs, List.filter_append]
      exact congrArg _ (List.filter_eq_self.mpr h)
    rw [hsplit, rtake_append_of_length hlen]

theorem filter_eq_nil {n : Nat} (hn : 1 ≤ n) {hits : List Hit}
    (hsorted : hits.Pairwise fun a b => b.age ≤ a.age) {delta limit : Nat}
    (h : ∀ hit ∈ hits.rtake n, limit < hit.age+delta) :
    hits.filter (fun hit => hit.age+delta ≤ limit) = [] := by
  rw [List.filter_eq_nil_iff]
  intro hit hmem
  rw [decide_eq_true_eq, Nat.not_le]
  rw [← List.take_append_drop (hits.length-n) hits] at hmem hsorted
  rcases List.mem_append.mp hmem with hpre | hlast
  · have hlt : 0 < hits.length := by
      have hpos := List.length_pos_of_mem hpre
      rw [List.length_take] at hpos
      omega
    have hne : hits.drop (hits.length-n) ≠ [] := by
      rw [Ne, List.drop_eq_nil_iff]
      omega
    obtain ⟨last,hlast⟩ := List.exists_mem_of_ne_nil _ hne
    have hage := (List.pairwise_append.mp hsorted).2.2 hit hpre last hlast
    have hlt' := h last hlast
    omega
  · exact h hit hlast

theorem filter_aged (delta : Nat) (hits : List Hit) :
    (aged delta hits).filter (fun hit => hit.age ≤ 2^16-1) =
      aged delta ((hits.filter fun hit => hit.age ≤ 2^16-1).filter
        fun hit => hit.age+delta ≤ 2^16-1) := by
  rw [aged, List.filter_map, List.filter_filter]
  refine congrArg _ (List.filter_congr fun hit _ => ?_)
  rw [Bool.eq_iff_iff, Bool.and_eq_true, decide_eq_true_eq, decide_eq_true_eq]
  simp only [Function.comp, decide_eq_true_eq]
  omega

theorem aged_rtake (delta : Nat) (hits : List Hit) (n : Nat) :
    (aged delta hits).rtake n = aged delta (hits.rtake n) := by
  simp only [aged, List.rtake, List.length_map, List.map_drop]

theorem recent_aged {delta : Nat} {hits : List Hit}
    (h : ∀ hit ∈ recent cfg hits, hit.age+delta ≤ 2^16-1) :
    recent cfg (aged delta hits) = aged delta (recent cfg hits) := by
  unfold recent
  rw [filter_aged, aged_rtake, rtake_filter]
  intro hit hmem
  exact decide_eq_true (h hit hmem)

theorem recent_expired {delta : Nat} {hits : List Hit}
    (hsorted : hits.Pairwise fun a b => b.age ≤ a.age)
    (h : ∀ hit ∈ recent cfg hits, 2^16-1 < hit.age+delta) :
    recent cfg (aged delta hits) = [] := by
  have hnil := filter_eq_nil cfg.hits_pos
    (hsorted.filter fun hit : Hit => decide (hit.age ≤ 2^16-1)) h
  unfold recent
  rw [filter_aged, hnil]
  simp [aged]

theorem expired_iff {delta tick : Nat} (hd : delta ≤ 2^16-1) :
    (2^16-1+(2^32-delta)) % 2^32 < tick ↔ 2^16-1 < tick+delta := by
  omega

theorem age_fresh {delta i : Nat} (hd : delta ≤ 2^16-1) {tick : Nat} (ht : s.tick[i]? = some tick)
    (h : tick+delta ≤ 2^16-1) :
    age delta s i = some { s with tick := s.tick.set i (tick+delta) } := by
  have hm : (tick+delta) % 2^16 = tick+delta := Nat.mod_eq_of_lt (by omega)
  simp only [age, ht, Option.bind_eq_bind, Option.bind_some, hm]
  rw [if_neg (mt (expired_iff hd).mp (by omega))]
  rfl

theorem age_expired {delta i : Nat} (hd : delta ≤ 2^16-1) {tick : Nat}
    (ht : s.tick[i]? = some tick) (h : 2^16-1 < tick+delta) :
    age delta s i = some { s with count := s.count-1 } := by
  simp only [age, ht, Option.bind_eq_bind, Option.bind_some]
  rw [if_pos ((expired_iff hd).mpr h)]
  rfl

theorem age_all {delta : Nat} (hd : delta ≤ 2^16-1) (k : Nat) (hk : k ≤ s.tick.length)
    (h : ∀ tick ∈ s.tick.take k, tick+delta ≤ 2^16-1) :
    (List.range k).foldlM (age delta) s =
      some { s with tick := (s.tick.take k).map (·+delta) ++ s.tick.drop k } := by
  induction k with
  | zero => simp
  | succ k ih =>
    have hlt : k < s.tick.length := by omega
    have htake := List.take_succ_eq_append_getElem hlt
    rw [htake, List.forall_mem_append] at h
    have hlen : ((s.tick.take k).map (·+delta)).length = k := by
      rw [List.length_map, List.length_take]
      omega
    have hdrop := List.drop_eq_getElem_cons hlt
    have hget : ((s.tick.take k).map (·+delta) ++ s.tick.drop k)[k]? = some s.tick[k] := by
      rw [List.getElem?_append_right (by omega), hlen, Nat.sub_self, hdrop]
      rfl
    rw [List.range_succ, List.foldlM_append, ih (by omega) h.1]
    simp only [Option.bind_eq_bind, Option.bind_some, List.foldlM_cons, List.foldlM_nil]
    rw [age_fresh hd hget (h.2 _ (by simp))]
    have hset : ((s.tick.take k).map (·+delta) ++ s.tick.drop k).set k (s.tick[k]+delta)
        = (s.tick.take (k+1)).map (·+delta) ++ s.tick.drop (k+1) := by
      rw [List.set_append_right _ _ (by omega), hlen, Nat.sub_self, hdrop, htake,
        List.set_cons_zero,
        List.map_append, List.append_assoc]
      rfl
    simp only [Option.bind_some, hset]
    rfl

theorem expire_all {delta : Nat} (hd : delta ≤ 2^16-1) (k : Nat) (hk : k ≤ s.tick.length)
    (h : ∀ tick ∈ s.tick.take k, 2^16-1 < tick+delta) :
    (List.range k).foldlM (age delta) s = some { s with count := s.count-k } := by
  induction k with
  | zero => simp
  | succ k ih =>
    have hlt : k < s.tick.length := by omega
    rw [List.take_succ_eq_append_getElem hlt, List.forall_mem_append] at h
    rw [List.range_succ, List.foldlM_append, ih (by omega) h.1]
    simp only [Option.bind_eq_bind, Option.bind_some, List.foldlM_cons, List.foldlM_nil]
    rw [@age_expired { s with count := s.count-k } delta k hd s.tick[k]
      (List.getElem?_eq_getElem hlt) (h.2 _ (by simp))]
    rfl

structure Inv (cfg : Config) (v : World) : Prop where
  sized : Sized cfg v.state
  holds : Holds cfg v.state (recent cfg v.hits)
  sorted : v.hits.Pairwise fun a b => b.age ≤ a.age

theorem Inv.count_le {v : World} (hv : Inv cfg v) : v.state.count ≤ cfg.hits :=
  hv.holds.count ▸ recent_length v.hits

theorem ledsOf_length (row col : Nat) (pressed : Bool) :
    (ledsOf cfg row col pressed).length ≤ cfg.hits := by
  have h := cfg.leds_le row col
  unfold ledsOf
  split
  · simp only [mapRowColumnToLed]
    by_cases hled : cfg.matrixCo row col ≠ noLed
    · rw [if_pos hled] at h ⊢
      simpa using h
    · rw [if_neg hled] at h ⊢
      exact h
  · simp

theorem Inv.key {v : World} (hv : Inv cfg v) {row col : Nat} {pressed : Bool}
    (hc : KeyClear cfg v.state (ledsOf cfg row col pressed)) :
    ∃ s, handleKeyEvent cfg row col pressed v.state = some s ∧ Sized cfg s ∧
      Holds cfg s (recent cfg (v.hits ++ newHits (ledsOf cfg row col pressed))) := by
  have hlen := @ledsOf_length cfg row col pressed
  obtain ⟨hfit,h8⟩ := hc
  have hle := hv.count_le
  have hcount := hv.holds.count
  simp only [handleKeyEvent]
  generalize ledsOf cfg row col pressed = leds at hlen hfit h8 ⊢
  have hleds : leds.length % 2^8 = leds.length := Nat.mod_eq_of_lt (by omega)
  rw [hleds, List.take_length, recent_append]
  by_cases hover : cfg.hits < v.state.count+leds.length
  · rw [if_pos hover]
    have hfull : v.state.count = cfg.hits ∨ leds.length = cfg.hits := by omega
    obtain ⟨hs',hsized,hholds⟩ := hv.holds.shift hv.sized hlen hfull hle (by omega)
    obtain ⟨s,hs,-,hsz,hh⟩ := hholds.addAll hsized leds (by omega) (by omega)
    refine ⟨s,hs,hsz,?_⟩
    have he : (recent cfg v.hits ++ newHits leds).rtake cfg.hits
        = (recent cfg v.hits).drop leds.length ++ newHits leds := by
      have hn : (newHits leds).length = leds.length := List.length_map _
      rw [List.rtake, List.length_append, hn, ← hcount]
      rcases hfull with hfull | hfull
      · rw [hfull, Nat.add_sub_cancel_left, List.drop_append_of_le_length (by omega)]
      · rw [hfull, Nat.add_sub_cancel, List.drop_eq_nil_of_le (by omega : _ ≤ cfg.hits), hcount,
          List.drop_left, List.nil_append]
    rw [he]
    exact hh
  · rw [if_neg hover]
    obtain ⟨s,hs,-,hsz,hh⟩ := hv.holds.addAll hv.sized leds (by omega) (by omega)
    refine ⟨s,hs,hsz,?_⟩
    rw [rtake_of_length_le]
    · exact hh
    · rw [List.length_append, newHits, List.length_map, ← hcount]
      omega

theorem Inv.timers {v : World} (hv : Inv cfg v) {now : UInt32} (hc : TimersClear now v.state) :
    ∃ s, rgbTaskTimers now v.state = some s ∧ Sized cfg s ∧
      Holds cfg s (recent cfg (aged (deltaTime now v.state) v.hits)) := by
  have hle := hv.count_le
  have htick := hv.holds.tick
  have hlen : v.state.count ≤ v.state.tick.length := hv.sized.tick ▸ hle
  have hcount := hv.holds.count
  have hall : (∀ tick ∈ v.state.tick.take v.state.count, 2^16-1 < tick+deltaTime now v.state) →
      (v.state.count = 0 ∨ deltaTime now v.state ≤ 2^16-1) →
      ∃ s, rgbTaskTimers now v.state = some s ∧ Sized cfg s ∧
        Holds cfg s (recent cfg (aged (deltaTime now v.state) v.hits)) := by
    intro hexp hd
    have hrun : rgbTaskTimers now v.state
        = some { v.state with timerBuffer := now, count := 0 } := by
      rcases hd with h0 | hd
      · simp [rgbTaskTimers, h0]
      · have he := @expire_all { v.state with timerBuffer := now } _ hd _ hlen hexp
        rw [Nat.sub_self] at he
        exact he
    refine ⟨_,hrun,⟨hv.sized.x,hv.sized.y,hv.sized.index,hv.sized.tick⟩,?_⟩
    rw [recent_expired hv.sorted]
    · exact ⟨rfl,rfl,rfl,rfl,rfl⟩
    · intro hit hmem
      exact hexp hit.age (htick ▸ List.mem_map_of_mem hmem)
  rcases hc with h0 | ⟨hd,hfresh | hexp⟩
  · exact hall (by simp [h0]) (.inl h0)
  · refine ⟨_,@age_all { v.state with timerBuffer := now } _ hd _ hlen hfresh,
      ⟨hv.sized.x,hv.sized.y,hv.sized.index,?_⟩,?_⟩
    · have ht := hv.sized.tick
      simp only [List.length_append, List.length_map, List.length_take, List.length_drop]
      omega
    · rw [recent_aged]
      · refine ⟨by simpa [aged] using hcount,?_,?_,?_,?_⟩
        · simpa [aged, Function.comp_def] using hv.holds.x
        · simpa [aged, Function.comp_def] using hv.holds.y
        · simpa [aged, Function.comp_def] using hv.holds.index
        · have hl : ((v.state.tick.take v.state.count).map (·+deltaTime now v.state)).length
              = v.state.count := by
            rw [List.length_map, List.length_take]
            omega
          dsimp only
          rw [List.take_left' hl, htick]
          simp [aged, Function.comp_def]
      · intro hit hmem
        exact hfresh hit.age (htick ▸ List.mem_map_of_mem hmem)
  · exact hall hexp (.inr hd)

theorem newHits_sorted {hits : List Hit} (h : hits.Pairwise fun a b => b.age ≤ a.age)
    (leds : List UInt8) : (hits ++ newHits leds).Pairwise fun a b => b.age ≤ a.age := by
  refine List.pairwise_append.mpr ⟨h,?_,fun a _ b hb => ?_⟩
  · exact List.pairwise_map.mpr (List.pairwise_of_forall fun _ _ => Nat.le_refl 0)
  · obtain ⟨led,-,rfl⟩ := List.mem_map.mp hb
    exact Nat.zero_le _

theorem aged_sorted {hits : List Hit} (h : hits.Pairwise fun a b => b.age ≤ a.age) (delta : Nat) :
    (aged delta hits).Pairwise fun a b => b.age ≤ a.age :=
  List.pairwise_map.mpr (h.imp fun hab => Nat.add_le_add_right hab delta)

theorem step_right {v : World} (hv : Inv cfg v) {input : Input} (hc : Clear cfg v input) :
    Right cfg v input ∧ Inv cfg (next cfg v input) := by
  have hcall : ∃ s, call cfg v.state input = some s ∧ Sized cfg s ∧
      Holds cfg s (recent cfg (record cfg v input)) := by
    cases input with
    | key row col pressed => exact hv.key hc
    | timers now => exact hv.timers hc
  have hsorted : (record cfg v input).Pairwise fun a b => b.age ≤ a.age := by
    cases input with
    | key row col pressed => exact newHits_sorted hv.sorted _
    | timers now => exact aged_sorted hv.sorted _
  obtain ⟨s,hs,hsized,hholds⟩ := hcall
  refine ⟨⟨s,hs,hholds⟩,?_⟩
  have hn : next cfg v input = ⟨s,record cfg v input⟩ := by rw [next, hs, Option.getD_some]
  rw [hn]
  exact ⟨hsized,hholds,hsorted⟩

theorem start_inv : Inv cfg (start cfg) where
  sized := ⟨List.length_replicate,List.length_replicate,List.length_replicate,List.length_replicate⟩
  holds := by constructor <;> simp [start, init, recent, List.rtake]
  sorted := .nil

instance (s : State) (led : List UInt8) : Decidable (KeyClear cfg s led) :=
  inferInstanceAs (Decidable (_ ∧ _))

instance (now : UInt32) (s : State) : Decidable (TimersClear now s) :=
  inferInstanceAs (Decidable (_ ∨ _))

instance Clear.decidable (v : World) : ∀ input, Decidable (Clear cfg v input)
  | .key _ _ _ => inferInstanceAs (Decidable (KeyClear _ _ _))
  | .timers _ => inferInstanceAs (Decidable (TimersClear _ _))

theorem defaults_leds (row column : Nat) :
    ([] : List UInt8).length+(if UInt8.ofNat (row*4+column) ≠ noLed then 1 else 0) ≤ 8 := by
  split <;> simp

/-- Eight hits, and one LED for each key. -/
def defaults : Config where
  hits := 8
  releases := false
  mapRowColumnToLedKb _ _ := []
  matrixCo row column := UInt8.ofNat (row*4+column)
  point led := (led,led)
  hits_pos := Nat.le_add_left 1 7
  leds_le := defaults_leds

end QmkFirmware.RgbMatrix
