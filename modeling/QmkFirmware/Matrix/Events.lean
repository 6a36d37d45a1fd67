import Mathlib.Data.Fintype.Prod
import QmkFirmware.Lib.Along
import QmkFirmware.Lib.Sweep

/-!
`matrix_task` of keyboard.c with the wake-up keys of suspend.c: what the debounced matrix hands to
`action_exec`. Key presses are always processed here.
-/

set_option autoImplicit false

namespace QmkFirmware.Matrix

variable {rows cols : Nat}

abbrev Key (rows cols : Nat) := Fin rows × Fin cols

/-- `matrix_get_row`. -/
abbrev Rows (rows cols : Nat) := Fin rows → BitVec cols

abbrev RealKeys (rows cols : Nat) := Fin rows → Fin cols → Bool

def isDown (m : Rows rows cols) (k : Key rows cols) : Bool := (m k.1).getLsbD k.2

/-- A key's bits in `matrix_previous` and in `wakeup_matrix`. -/
structure Cell where
  previous : Bool
  wakeup : Bool
  deriving DecidableEq, Repr

structure KeyEvent (rows cols : Nat) where
  key : Key rows cols
  pressed : Bool
  deriving DecidableEq, Repr

def getRealKeys (real : RealKeys rows cols) (row : Fin rows) (rowdata : BitVec cols) :
    BitVec cols :=
  (List.finRange cols).foldl (fun out col =>
    if real row col && rowdata.getLsbD col then out ||| (1 : BitVec cols) <<< col.val else out) 0

def popcountMoreThanOne (rowdata : BitVec cols) : Bool := rowdata &&& (rowdata-1) ≠ 0

def hasGhostInRow (real : RealKeys rows cols) (m : Rows rows cols) (row : Fin rows)
    (rowdata : BitVec cols) : Bool :=
  let rowdata := getRealKeys real row rowdata
  popcountMoreThanOne rowdata && (List.finRange rows).any fun i =>
    i ≠ row && popcountMoreThanOne (getRealKeys real i (m i) &&& rowdata)

/-- Without `MATRIX_HAS_GHOST` no row has one. -/
def ghosted (matrixHasGhost : Bool) (real : RealKeys rows cols) (m : Rows rows cols)
    (row : Fin rows) : Bool := matrixHasGhost && hasGhostInRow real m row (m row)

abbrev Cells (rows cols : Nat) := Key rows cols → Cell

/-- A key in the loops, if it changed and its row has no ghost. `switch_events` takes a released
key off the wake-up keys. The row is stored behind its last column; of the other keys in it that
changes nothing. -/
def visitKey (matrixHasGhost : Bool) (real : RealKeys rows cols) (m : Rows rows cols)
    (k : Key rows cols) (c : Cell) : Cell × List (KeyEvent rows cols) :=
  if isDown m k = c.previous ∨ ghosted matrixHasGhost real m k.1 then (c,[]) else
  (⟨isDown m k,c.wakeup && isDown m k⟩,if c.wakeup then [] else [⟨k,isDown m k⟩])

/-- The new state and what is passed to `action_exec`. -/
def matrixTask (matrixHasGhost canRead : Bool) (real : RealKeys rows cols) (m : Rows rows cols)
    (s : Cells rows cols) : Cells rows cols × List (KeyEvent rows cols) :=
  if !canRead then (s,[]) else
  if ∀ k, isDown m k = (s k).previous then (s,[]) else
  Sweep.sweep (visitKey matrixHasGhost real m) (· ++ ·) (.nested rows cols) (s,[])

def suspendWakeupCondition (m : Rows rows cols) (s : Cells rows cols) : Bool × Cells rows cols :=
  (decide (∃ row, m row ≠ 0),fun k => { s k with wakeup := isDown m k })

def updateMatrixStateAfterWakeup (m : Rows rows cols) (s : Cells rows cols) : Cells rows cols :=
  fun k => ⟨(s k).previous || isDown m k,(s k).wakeup || (isDown m k && !(s k).previous)⟩

inductive Step (rows cols : Nat) where
  | task (canRead : Bool) (real : RealKeys rows cols) (m : Rows rows cols)
  | wakeupCondition (m : Rows rows cols)
  | afterWakeup (m : Rows rows cols)

def exec (matrixHasGhost : Bool) (s : Cells rows cols) : Step rows cols →
    Cells rows cols × List (KeyEvent rows cols)
  | .task canRead real m => matrixTask matrixHasGhost canRead real m s
  | .wakeupCondition m => ((suspendWakeupCondition m s).2,[])
  | .afterWakeup m => (updateMatrixStateAfterWakeup m s,[])

structure Watched (rows cols : Nat) where
  cells : Cells rows cols
  events : List (KeyEvent rows cols)

def Watched.next (matrixHasGhost : Bool) (w : Watched rows cols) (step : Step rows cols) :
    Watched rows cols :=
  let r := exec matrixHasGhost w.cells step
  ⟨r.1,w.events ++ r.2⟩

def boot : Watched rows cols := ⟨fun _ => ⟨false,false⟩,[]⟩

def watch (matrixHasGhost : Bool) (steps : List (Step rows cols)) : Watched rows cols :=
  steps.foldl (Watched.next matrixHasGhost) boot

/-- What was passed of one key. -/
def history (k : Key rows cols) (events : List (KeyEvent rows cols)) : List Bool :=
  (events.filter fun e => e.key = k).map KeyEvent.pressed

/-- Presses and releases in turn, a press first. -/
def Alternating (l : List Bool) : Prop := ∀ i b, l[i]? = some b → b = decide (i % 2 = 0)

def lastSeen (steps : List (Step rows cols)) : Rows rows cols :=
  steps.foldl (fun m step => match step with | .task _ _ m' => m' | _ => m) fun _ => 0

def Step.Plain (matrixHasGhost : Bool) : Step rows cols → Prop
  | .task canRead real m => canRead = true ∧ ∀ row, ghosted matrixHasGhost real m row = false
  | _ => False

/-- A suspend poll finds every key of `matrix_previous` as it is among the wake-up keys: up when
its press was passed on, down when it was not. -/
def Undisturbed (w : Watched rows cols) : Step rows cols → Prop
  | .wakeupCondition m => ∀ k, (w.cells k).previous = true → isDown m k = (w.cells k).wakeup
  | _ => True

/-- The stream is what the other features assume. -/
structure WellFormed (matrixHasGhost : Bool) (before : List (Step rows cols)) : Prop where
  alternates : ∀ k, Alternating (history k (watch matrixHasGhost before).events)
  released : ∀ real m k, isDown m k = false → ghosted matrixHasGhost real m k.1 = false →
    (history k (watch matrixHasGhost (before ++ [.task true real m])).events).getLast? ≠ some true
  exact : (∀ step ∈ before, step.Plain matrixHasGhost) → ∀ real m,
    (Step.task true real m).Plain matrixHasGhost →
      (watch matrixHasGhost (before ++ [.task true real m])).events
        = (watch matrixHasGhost before).events ++ ((LoopOrder.nested rows cols).indices.filter
          fun k => isDown m k ≠ isDown (lastSeen before) k).map fun k => ⟨k,isDown m k⟩

theorem history_append (k : Key rows cols) (es fs : List (KeyEvent rows cols)) :
    history k (es ++ fs) = history k es ++ history k fs := by
  rw [history, List.filter_append, List.map_append]
  rfl

theorem history_flatMap (f : Key rows cols → List (KeyEvent rows cols))
    (hf : ∀ j, ∀ e ∈ f j, e.key = j) (k : Key rows cols) (ks : List (Key rows cols))
    (hnd : ks.Nodup) :
    history k (ks.flatMap f) = if k ∈ ks then (f k).map KeyEvent.pressed else [] := by
  have hone : ∀ j, history k (f j) = if j = k then (f k).map KeyEvent.pressed else [] := by
    intro j
    split
    · rename_i h
      subst h
      rw [history, List.filter_eq_self.mpr fun e he => by simpa using hf j e he]
    · rename_i h
      rw [history, List.filter_eq_nil_iff.mpr fun e he => by simpa [hf j e he] using h]
      rfl
  induction ks with
  | nil => rfl
  | cons j ks ih =>
    obtain ⟨hj, hnd⟩ := List.nodup_cons.mp hnd
    rw [List.flatMap_cons, history_append, ih hnd, hone]
    by_cases hjk : j = k
    · subst hjk
      simp [hj]
    · simp [hjk, Ne.symm hjk]

theorem visitKey_key (matrixHasGhost : Bool) (real : RealKeys rows cols) (m : Rows rows cols)
    (k : Key rows cols) (c : Cell) : ∀ e ∈ (visitKey matrixHasGhost real m k c).2, e.key = k := by
  intro e he
  unfold visitKey at he
  split at he
  · cases he
  · dsimp only at he
    split at he
    · cases he
    · rw [List.mem_singleton.mp he]

theorem matrixTask_key (matrixHasGhost : Bool) (real : RealKeys rows cols) (m : Rows rows cols)
    (s : Cells rows cols) (k : Key rows cols) :
    (matrixTask matrixHasGhost true real m s).1 k = (visitKey matrixHasGhost real m k (s k)).1
      ∧ history k (matrixTask matrixHasGhost true real m s).2
        = (visitKey matrixHasGhost real m k (s k)).2.map KeyEvent.pressed := by
  unfold matrixTask
  rw [if_neg (by decide)]
  split
  · rename_i hsame
    rw [visitKey, if_pos (.inl (hsame k))]
    exact ⟨rfl, rfl⟩
  · refine ⟨Sweep.sweep_cell _ _ _ _ k, ?_⟩
    rw [Sweep.sweep_gathered, List.nil_append,
      history_flatMap _ (fun j => visitKey_key _ _ _ j (s j)) k _ (LoopOrder.nested rows cols).nodup,
      if_pos ((LoopOrder.nested rows cols).complete k)]

theorem flatMap_if {α β : Type} (p : α → Bool) (f : α → β) (ks : List α) :
    (ks.flatMap fun k => if p k then [f k] else []) = (ks.filter p).map f := by
  induction ks with
  | nil => rfl
  | cons k ks ih =>
    rw [List.flatMap_cons, ih, List.filter_cons]
    split <;> rfl

theorem Alternating.snoc {l : List Bool} (h : Alternating l) {b : Bool}
    (hb : b = decide (l.length % 2 = 0)) : Alternating (l ++ [b]) := by
  intro i c hc
  by_cases hi : i < l.length
  · rw [List.getElem?_append_left hi] at hc
    exact h i c hc
  · rw [List.getElem?_append_right (Nat.not_lt.mp hi)] at hc
    obtain ⟨hlt, rfl⟩ := List.getElem?_eq_some_iff.mp hc
    have : i = l.length := by
      rw [List.length_singleton] at hlt
      omega
    subst this
    simpa using hb

theorem Alternating.getLast? {l : List Bool} (h : Alternating l) :
    l.getLast? = some true ↔ l.length % 2 = 1 := by
  rw [List.getLast?_eq_getElem?]
  constructor
  · intro hl
    have := h _ _ hl
    have hlt := (List.getElem?_eq_some_iff.mp hl).1
    simp only [Bool.true_eq, decide_eq_true_eq] at this
    omega
  · intro hodd
    have hlt : l.length-1 < l.length := by omega
    have := h _ _ (List.getElem?_eq_getElem hlt)
    rw [List.getElem?_eq_getElem hlt, this]
    simp only [Option.some.injEq, decide_eq_true_eq]
    omega

/-- A press is out exactly for the keys of `matrix_previous` that are no wake-up keys. -/
structure Tracks (w : Watched rows cols) (k : Key rows cols) : Prop where
  alternates : Alternating (history k w.events)
  out : ((w.cells k).previous && !(w.cells k).wakeup)
    = decide ((history k w.events).length % 2 = 1)

theorem boot_tracks (k : Key rows cols) : Tracks boot k :=
  ⟨fun _ _ h => (by cases h), rfl⟩

theorem task_tracks (matrixHasGhost : Bool) (real : RealKeys rows cols) (m : Rows rows cols)
    {w : Watched rows cols} {k : Key rows cols} (h : Tracks w k) :
    Tracks (w.next matrixHasGhost (.task true real m)) k := by
  obtain ⟨hcell, hhist⟩ := matrixTask_key matrixHasGhost real m w.cells k
  have hout := h.out
  have hevents : history k (w.next matrixHasGhost (.task true real m)).events
      = history k w.events
        ++ (visitKey matrixHasGhost real m k (w.cells k)).2.map KeyEvent.pressed := by
    rw [← hhist]
    exact history_append k _ _
  have hnext : (w.next matrixHasGhost (.task true real m)).cells k
      = (visitKey matrixHasGhost real m k (w.cells k)).1 := hcell
  refine ⟨?_, ?_⟩
  · rw [hevents]
    unfold visitKey
    split
    · rw [List.map_nil, List.append_nil]
      exact h.alternates
    · rename_i hchanged
      cases hw : (w.cells k).wakeup with
      | true => simpa using h.alternates
      | false =>
        refine h.alternates.snoc ?_
        rw [hw, Bool.not_false, Bool.and_true] at hout
        have hne := (not_or.mp hchanged).1
        rw [hout] at hne
        rw [Bool.eq_not.mpr hne, ← decide_not]
        exact decide_eq_decide.mpr (by omega)
  · rw [hnext, hevents]
    unfold visitKey
    split
    · simpa using hout
    · rename_i hchanged
      have hne := (not_or.mp hchanged).1
      cases hw : (w.cells k).wakeup with
      | true =>
        rw [hw] at hout
        simpa using hout
      | false =>
        rw [hw, Bool.not_false, Bool.and_true] at hout
        rw [hout] at hne
        simp only [Bool.false_and, Bool.not_false, Bool.and_true, Bool.false_eq_true, if_false,
          List.map_cons, List.map_nil, List.length_append, List.length_singleton]
        rw [Bool.eq_not.mpr hne, ← decide_not]
        exact decide_eq_decide.mpr (by omega)

theorem next_tracks (matrixHasGhost : Bool) {w : Watched rows cols} {step : Step rows cols}
    (hu : Undisturbed w step) {k : Key rows cols} (h : Tracks w k) :
    Tracks (w.next matrixHasGhost step) k := by
  have hsame : ∀ {s : Cells rows cols}, ((s k).previous && !(s k).wakeup)
      = ((w.cells k).previous && !(w.cells k).wakeup) → Tracks ⟨s,w.events ++ []⟩ k := fun hs => by
    refine ⟨?_, ?_⟩
    · rw [List.append_nil]
      exact h.alternates
    · rw [List.append_nil]
      exact hs.trans h.out
  cases step with
  | task canRead real m =>
    cases canRead with
    | true => exact task_tracks matrixHasGhost real m h
    | false => exact hsame rfl
  | wakeupCondition m =>
    refine hsame ?_
    change ((w.cells k).previous && !isDown m k) = _
    cases hp : (w.cells k).previous with
    | false => rfl
    | true => rw [hu k hp]
  | afterWakeup m =>
    refine hsame ?_
    change (((w.cells k).previous || isDown m k)
      && !((w.cells k).wakeup || (isDown m k && !(w.cells k).previous))) = _
    cases (w.cells k).previous <;> cases (w.cells k).wakeup <;> cases isDown m k <;> rfl

theorem watch_tracks {matrixHasGhost : Bool} {steps : List (Step rows cols)}
    (h : Along (Watched.next matrixHasGhost) Undisturbed boot steps) (k : Key rows cols) :
    Tracks (watch matrixHasGhost steps) k :=
  h.invariant (I := fun w => Tracks w k) (fun _ _ ht hu => next_tracks matrixHasGhost hu ht)
    (boot_tracks k)

theorem watch_snoc (matrixHasGhost : Bool) (steps : List (Step rows cols))
    (step : Step rows cols) : watch matrixHasGhost (steps ++ [step])
      = (watch matrixHasGhost steps).next matrixHasGhost step :=
  List.foldl_concat _ _ _ _

theorem plain_cells {matrixHasGhost : Bool} {steps : List (Step rows cols)}
    (h : ∀ step ∈ steps, step.Plain matrixHasGhost) (k : Key rows cols) :
    (watch matrixHasGhost steps).cells k = ⟨isDown (lastSeen steps) k,false⟩ := by
  induction steps using List.reverseRecOn with
  | nil => simp [watch, boot, lastSeen, isDown]
  | append_singleton steps step ih =>
    have hcell := ih fun x hx => h x (List.mem_append_left _ hx)
    have hplain := h step (List.mem_append_right _ (List.mem_singleton.mpr rfl))
    match step, hplain with
    | .task _ real m, ⟨rfl, hno⟩ =>
      have hnext := (matrixTask_key matrixHasGhost real m (watch matrixHasGhost steps).cells k).1
      have hseen : lastSeen (steps ++ [.task true real m]) = m := by
        rw [lastSeen, List.foldl_concat]
      rw [watch_snoc, hseen]
      refine hnext.trans ?_
      rw [hcell]
      unfold visitKey
      split
      · rename_i hsame
        rcases hsame with hsame | hghost
        · rw [hsame]
        · exact absurd hghost (by rw [hno]; decide)
      · rfl

theorem wellFormed {matrixHasGhost : Bool} {before : List (Step rows cols)}
    (h : Along (Watched.next matrixHasGhost) Undisturbed boot before) :
    WellFormed matrixHasGhost before := by
  refine ⟨fun k => (watch_tracks h k).alternates, fun real m k hup hno => ?_,
    fun hplain real m hm => ?_⟩
  · have ht := task_tracks matrixHasGhost real m (watch_tracks h k)
    have hcell := (matrixTask_key matrixHasGhost real m (watch matrixHasGhost before).cells k).1
    rw [watch_snoc]
    refine mt ht.alternates.getLast?.mp fun hodd => ?_
    have hout := ht.out
    rw [decide_eq_true hodd, Bool.and_eq_true] at hout
    have hprev : ((visitKey matrixHasGhost real m k
        ((watch matrixHasGhost before).cells k)).1).previous = true := hcell ▸ hout.1
    unfold visitKey at hprev
    split at hprev
    · rename_i hsame
      rcases hsame with hsame | hghost
      · exact absurd (hsame.symm.trans hup) (by rw [hprev]; decide)
      · exact absurd hghost (by rw [hno]; decide)
    · exact absurd (hprev.symm.trans hup) (by decide)
  · have hcells : (watch matrixHasGhost before).cells
        = fun k => ⟨isDown (lastSeen before) k,false⟩ := funext fun k => plain_cells hplain k
    rw [watch_snoc]
    change _ ++ (matrixTask matrixHasGhost true real m (watch matrixHasGhost before).cells).2 = _
    refine congrArg _ ?_
    rw [hcells, matrixTask, if_neg (by decide)]
    split
    · rename_i hsame
      have hnone : ∀ k ∈ (LoopOrder.nested rows cols).indices,
          ¬ decide (isDown m k ≠ isDown (lastSeen before) k) = true := fun k _ => by
        simp [hsame k]
      rw [List.filter_eq_nil_iff.mpr hnone]
      rfl
    · rw [Sweep.sweep_gathered, List.nil_append, ← flatMap_if]
      refine List.flatMap_congr fun k _ => ?_
      unfold visitKey
      by_cases hk : isDown m k = isDown (lastSeen before) k
      · simp [hk]
      · simp [hk, hm.2 k.1]

def down : Rows 1 1 := fun _ => 1

def up : Rows 1 1 := fun _ => 0

def scan (m : Rows 1 1) : Step 1 1 := .task true (fun _ _ => true) m

theorem wellFormed_waking : WellFormed false [.wakeupCondition down,.afterWakeup down,scan up] :=
  wellFormed ⟨fun _ hp => absurd hp Bool.false_ne_true, trivial, trivial, trivial⟩

/-- A key held over a suspend: the poll takes it for a wake-up key, so that its release is
suppressed and its next press comes as a second press. -/
theorem held_over_suspend :
    (watch false [scan down,.wakeupCondition down,scan up]).events = [⟨(0,0),true⟩]
      ∧ ¬ WellFormed false [scan down,.wakeupCondition down]
      ∧ (watch false [scan down,.wakeupCondition down,scan up,scan down]).events
        = [⟨(0,0),true⟩,⟨(0,0),true⟩]
      ∧ ¬ WellFormed false [scan down,.wakeupCondition down,scan up,scan down] := by
  have hlost : (watch false [scan down,.wakeupCondition down,scan up]).events
    = [⟨(0,0),true⟩] := by decide +kernel
  have htwice : (watch false [scan down,.wakeupCondition down,scan up,scan down]).events
    = [⟨(0,0),true⟩,⟨(0,0),true⟩] := by decide +kernel
  refine ⟨hlost, fun h => ?_, htwice, fun h => ?_⟩
  · refine h.released (fun _ _ => true) up (0,0) (by decide) (by decide) ?_
    exact (congrArg (fun es => (history (0,0) es).getLast?) hlost).trans (by decide)
  · have halt := h.alternates (0,0) 1 true (by rw [htwice]; decide)
    exact absurd halt (by decide)

end QmkFirmware.Matrix
