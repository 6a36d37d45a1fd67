import QmkFirmware.Debounce.Core

/-!
What a call of `debounce` does to one cell, and what holds between the calls. The flags and the
common timer only save work.
-/

set_option autoImplicit false

namespace QmkFirmware.Debounce

variable {γ α ι : Type} {w : Nat}

/-- What the loop bodies of an algorithm have to keep so that the flags lose nothing. `left` is
the time on a counter; `Fit raw c` is that a cell is as a call with this raw value leaves it. -/
structure Lawful (p : Passes γ α) (left : γ → Nat) (Fit : α → Cell γ α → Prop) : Prop where
  idle : ∀ e v c, left c.counter = 0 → p.updateCounter e v c = (c,Flags.none)
  wait : ∀ v c, (p.updateCounter 0 v c).1 = c ∧ (p.updateCounter 0 v c).2.matrixNeedUpdate = false
  running : ∀ e v c, left (p.updateCounter e v c).1.counter ≠ 0 →
    (p.updateCounter e v c).2.countersNeedUpdate = true
  started : ∀ v c, left (p.transfer v c).1.counter ≠ 0 →
    left c.counter ≠ 0 ∨ (p.transfer v c).2.countersNeedUpdate = true
  fit : ∀ e v₀ v c, Fit v₀ c → Fit v (p.transfer v (p.updateCounter e v c).1).1
  due : ∀ e v c, Fit v c → (p.updateCounter e v c).2.matrixNeedUpdate = false →
    Fit v (p.updateCounter e v c).1
  stopped : ∀ v c, Fit v c → left c.counter = 0 → p.transfer v c = (c,Flags.none)
  noRequest : ∀ v c, (p.transfer v c).2.matrixNeedUpdate = false
  updated : ∀ e v c, (p.updateCounter e v c).2.cookedChanged = true
    ↔ (p.updateCounter e v c).1.cooked ≠ c.cooked
  transferred : ∀ v c, (p.transfer v c).2.cookedChanged = true
    ↔ (p.transfer v c).1.cooked ≠ c.cooked
  takes : ∀ e v c, (p.updateCounter e v c).1.cooked ≠ c.cooked →
    (p.updateCounter e v c).1.cooked = v
  keeps : ∀ v c, c.cooked = v → (p.transfer v c).1.cooked = v

def elapsed (p : Passes γ α) (last now : BitVec w) : UInt8 :=
  UInt8.ofNat (min (now-last).toNat p.maxElapsed.toNat)

theorem elapsed_toNat (p : Passes γ α) (last now : BitVec w) :
    (elapsed p last now).toNat = min (now-last).toNat p.maxElapsed.toNat := by
  have := p.maxElapsed.toNat_lt
  rw [elapsed, UInt8.toNat_ofNat']
  omega

def counted (p : Passes γ α) (last now : BitVec w) (v : α) (c : Cell γ α) : Cell γ α :=
  (p.updateCounter (elapsed p last now) v c).1

def stepped (p : Passes γ α) (last now : BitVec w) (v : α) (c : Cell γ α) : Cell γ α :=
  (p.transfer v (counted p last now v c)).1

structure Between (left : γ → Nat) (Fit : α → Cell γ α → Prop) (r : Run γ α ι w) : Prop where
  counting : ∀ k, left (r.cells k).counter ≠ 0 → r.flags.countersNeedUpdate = true
  timed : r.flags.countersNeedUpdate = true → r.lastTime = r.time
  noRequest : r.flags.matrixNeedUpdate = false
  fit : ∀ k, Fit (r.raw k) (r.cells k)

theorem start_between {left : γ → Nat} {Fit : α → Cell γ α → Prop} (zero : γ) (m : ι → α)
    (hz : left zero = 0)
    (hfit : ∀ v, Fit v ⟨zero,v⟩) : Between left Fit (start (w := w) zero m) where
  counting := fun _ hk => absurd hz hk
  timed := nofun
  noRequest := rfl
  fit := fun k => hfit (m k)

variable [DecidableEq ι] {p : Passes γ α} {left : γ → Nat} {Fit : α → Cell γ α → Prop}
  (order : LoopOrder ι) (raw : ι → α) (now : BitVec w)

theorem update_cells (e : UInt8) (s : State γ α ι w) (k : ι) :
    (updateDebounceCounters p order raw e s).cells k
      = (p.updateCounter e (raw k) (s.cells k)).1 :=
  Sweep.sweep_cell _ _ order _ k

theorem transfer_cells (s : State γ α ι w) (k : ι) :
    (transferMatrixValues p order raw s).cells k = (p.transfer (raw k) (s.cells k)).1 :=
  Sweep.sweep_cell _ _ order _ k

structure Counted (p : Passes γ α) (left : γ → Nat) (raw : ι → α) (last now : BitVec w)
    (s t : State γ α ι w) : Prop where
  cells : ∀ k, t.cells k = counted p last now (raw k) (s.cells k)
  counting : ∀ k, left (t.cells k).counter ≠ 0 → t.flags.countersNeedUpdate = true
  skipped : s.flags.countersNeedUpdate = false → t = s
  timed : s.flags.countersNeedUpdate = true → t.lastTime = now
  request : t.flags.matrixNeedUpdate = true
    ↔ ∃ k, (p.updateCounter (elapsed p last now) (raw k) (s.cells k)).2.matrixNeedUpdate = true
  changed : t.flags.cookedChanged = true ↔ ∃ k, (t.cells k).cooked ≠ (s.cells k).cooked

theorem elapsed_zero {last : BitVec w} (h : ¬ 0 < now-last) : elapsed p last now = 0 := by
  have hz : (now-last).toNat = 0 := by simpa [BitVec.lt_def] using h
  rw [elapsed, hz, Nat.zero_min]
  rfl

theorem countElapsed_counted (hp : Lawful p left Fit) (last : BitVec w) (s : State γ α ι w)
    (hcount : ∀ k, left (s.cells k).counter ≠ 0 → s.flags.countersNeedUpdate = true)
    (htime : s.flags.countersNeedUpdate = true → s.lastTime = last)
    (hreq : s.flags.matrixNeedUpdate = false) (hch : s.flags.cookedChanged = false) :
    Counted p left raw last now s (countElapsed p order raw now s) := by
  cases hneed : s.flags.countersNeedUpdate with
  | false =>
    have hidle : ∀ k e, p.updateCounter e (raw k) (s.cells k) = (s.cells k,Flags.none) := by
      intro k e
      refine hp.idle e _ _ (Decidable.byContradiction fun hk => ?_)
      exact absurd (hcount k hk) (by rw [hneed]; decide)
    have hs : countElapsed p order raw now s = s := by
      rw [countElapsed, hneed]
      rfl
    rw [hs]
    refine ⟨fun k => ?_, hcount, fun _ => rfl, fun h => absurd (hneed ▸ h) (by decide), ?_, ?_⟩
    · rw [counted, hidle]
    · simp [hreq, hidle, Flags.none]
    · simp [hch]
  | true =>
    cases htime hneed
    by_cases hpos : 0 < now-s.lastTime
    · have hs : countElapsed p order raw now s = updateDebounceCounters p order raw
          (elapsed p s.lastTime now) { s with lastTime := now } := by
        simp only [countElapsed, hneed, if_true, if_pos hpos]
        rfl
      rw [hs]
      have hcells := update_cells (p := p) order raw (elapsed p s.lastTime now)
        { s with lastTime := now }
      refine ⟨hcells, fun k hk => ?_, fun h => absurd (hneed ▸ h) (by decide), fun _ => rfl, ?_,
        ?_⟩
      · refine (Sweep.sweep_flag _ _ order _ (p := Flags.countersNeedUpdate)
          fun _ _ => rfl).mpr (.inr ⟨k,?_⟩)
        exact hp.running _ _ _ (by rwa [hcells] at hk)
      · refine (Sweep.sweep_flag _ _ order _ (p := Flags.matrixNeedUpdate) fun _ _ => rfl).trans ?_
        simp
      · refine (Sweep.sweep_flag _ _ order _ (p := Flags.cookedChanged) fun _ _ => rfl).trans ?_
        simp only [hch, Bool.false_eq_true, false_or]
        refine exists_congr fun k => ?_
        rw [hcells]
        exact hp.updated _ _ _
    · have hs : countElapsed p order raw now s = { s with lastTime := now } := by
        simp only [countElapsed, hneed, if_true, if_neg hpos]
      have he := elapsed_zero (p := p) now hpos
      rw [hs]
      refine ⟨fun k => ?_, fun _ _ => hneed, fun h => absurd (hneed ▸ h) (by decide), fun _ => rfl, ?_,
        ?_⟩
      · rw [counted, he, (hp.wait _ _).1]
      · rw [he]
        simp [hreq, (hp.wait _ _).2]
      · simp [hch]

variable [Fintype ι] [DecidableEq α]

def Transfers (p : Passes γ α) (r : Run γ α ι w) (c : Call α ι w) : Prop :=
  c.raw ≠ r.raw ∨ ∃ k,
    (p.updateCounter (elapsed p r.time c.now) (c.raw k) (r.cells k)).2.matrixNeedUpdate = true

structure Called (p : Passes γ α) (r : Run γ α ι w) (c : Call α ι w) (r' : Run γ α ι w) :
    Prop where
  raw : r'.raw = c.raw
  time : r'.time = c.now
  transferred : Transfers p r c → ∀ k, r'.cells k = stepped p r.time c.now (c.raw k) (r.cells k)
  untouched : ¬ Transfers p r c → ∀ k, r'.cells k = counted p r.time c.now (c.raw k) (r.cells k)
  returned : r'.returned = true ↔ ∃ k, (r'.cells k).cooked ≠ (r.cells k).cooked

theorem stepped_changed (hp : Lawful p left Fit) (last now : BitVec w) (v : α) (c : Cell γ α) :
    (stepped p last now v c).cooked ≠ c.cooked ↔ (counted p last now v c).cooked ≠ c.cooked
      ∨ (stepped p last now v c).cooked ≠ (counted p last now v c).cooked := by
  by_cases hu : (counted p last now v c).cooked = c.cooked
  · simp [hu]
  · have hv := hp.takes _ _ _ hu
    have hs : (stepped p last now v c).cooked = v := hp.keeps _ _ hv
    simp only [ne_eq, hu, not_false_eq_true, true_or, iff_true]
    exact fun h => hu (hv.trans (hs.symm.trans h))

theorem call_spec (hp : Lawful p left Fit) {r : Run γ α ι w} (h : Between left Fit r)
    (c : Call α ι w) :
    Called p r c (call p order r c) ∧ Between left Fit (call p order r c) := by
  have ht := countElapsed_counted order c.raw c.now hp r.time
    { r.toState with flags := { r.flags with cookedChanged := false } } h.counting h.timed
    h.noRequest rfl
  generalize hs : ({ r.toState with flags := { r.flags with cookedChanged := false } } :
    State γ α ι w) = s at ht
  have hcells : s.cells = r.cells := hs ▸ rfl
  generalize hu : countElapsed p order c.raw c.now s = t at ht
  have hcall : call p order r c
      = let u := if decide (c.raw ≠ r.raw) || t.flags.matrixNeedUpdate then
          transferMatrixValues p order c.raw
            (if s.flags.countersNeedUpdate then t else { t with lastTime := c.now }) else t
        ⟨u,c.raw,c.now,u.flags.cookedChanged⟩ := by
    rw [← hu, ← hs]
    rfl
  have hQ : Transfers p r c
      ↔ (decide (c.raw ≠ r.raw) || t.flags.matrixNeedUpdate) = true := by
    rw [Bool.or_eq_true, decide_eq_true_iff, ht.request, hcells]
    rfl
  have hcounted : ∀ k, t.cells k = counted p r.time c.now (c.raw k) (r.cells k) := by
    intro k
    rw [ht.cells, hcells]
  by_cases hq : Transfers p r c
  · rw [if_pos (hQ.mp hq)] at hcall
    generalize hv : (if s.flags.countersNeedUpdate then t else { t with lastTime := c.now })
      = u at hcall
    have hut : u.cells = t.cells ∧ u.flags = t.flags ∧ u.lastTime = c.now := by
      rw [← hv]
      split
      · rename_i hn
        exact ⟨rfl,rfl,ht.timed hn⟩
      · exact ⟨rfl,rfl,rfl⟩
    have hstep : ∀ k, (transferMatrixValues p order c.raw u).cells k
        = stepped p r.time c.now (c.raw k) (r.cells k) := by
      intro k
      rw [transfer_cells, hut.1, hcounted]
      rfl
    rw [hcall]
    refine ⟨⟨rfl,rfl,fun _ => hstep,fun hn => absurd hq hn,?_⟩,⟨fun k hk => ?_,fun _ => ?_,?_,?_⟩⟩
    · refine (Sweep.sweep_flag _ _ order _ (p := Flags.cookedChanged) fun _ _ => rfl).trans ?_
      simp only [hut.2.1, hut.1, ht.changed, hcells, ← exists_or]
      refine exists_congr fun k => ?_
      rw [hstep, stepped_changed hp, hcounted, hp.transferred]
      rfl
    · refine (Sweep.sweep_flag _ _ order _ (p := Flags.countersNeedUpdate)
        fun _ _ => rfl).mpr ?_
      rw [hstep] at hk
      rcases hp.started _ _ hk with hk | hk
      · exact .inl (hut.2.1 ▸ ht.counting k (hcounted k ▸ hk))
      · refine .inr ⟨k,?_⟩
        rw [hut.1]
        show (p.transfer (c.raw k) (t.cells k)).2.countersNeedUpdate = true
        rwa [hcounted]
    · exact hut.2.2
    · rw [← Bool.not_eq_true]
      refine mt (Sweep.sweep_flag _ _ order _ (p := Flags.matrixNeedUpdate)
        fun _ _ => rfl).mp ?_
      simp [hp.noRequest]
    · intro k
      rw [hstep]
      exact hp.fit _ _ _ _ (h.fit k)
  · rw [if_neg (mt hQ.mpr hq)] at hcall
    rw [Transfers, not_or, Decidable.not_not] at hq
    rw [hcall]
    refine ⟨⟨rfl,rfl,fun hq' => ?_,fun _ => hcounted,?_⟩,⟨ht.counting,fun hn => ?_,?_,?_⟩⟩
    · exact absurd hq' (by rw [Transfers, not_or, Decidable.not_not]; exact hq)
    · exact ht.changed.trans (by rw [hcells])
    · cases hsn : s.flags.countersNeedUpdate with
      | true => exact ht.timed hsn
      | false =>
        rw [ht.skipped hsn, hsn] at hn
        cases hn
    · rw [← Bool.not_eq_true]
      exact mt ht.request.mp (hcells ▸ hq.2)
    · intro k
      rw [hcounted, hq.1]
      refine hp.due _ _ _ (h.fit k) ?_
      rw [← Bool.not_eq_true]
      exact fun hk => hq.2 ⟨k,hq.1 ▸ hk⟩

theorem run_snoc (r : Run γ α ι w) (calls : List (Call α ι w)) (c : Call α ι w) :
    run p order r (calls ++ [c]) = call p order (run p order r calls) c := by
  rw [run, run, List.foldl_append]
  rfl

theorem run_append (r : Run γ α ι w) (calls more : List (Call α ι w)) :
    run p order r (calls ++ more) = run p order (run p order r calls) more :=
  List.foldl_append

theorem run_between (hp : Lawful p left Fit) {r : Run γ α ι w} (h : Between left Fit r)
    (calls : List (Call α ι w)) : Between left Fit (run p order r calls) := by
  induction calls generalizing r with
  | nil => exact h
  | cons c calls ih => exact ih (call_spec order hp h c).2

def Quiet (p : Passes γ α) (Fit : α → Cell γ α → Prop) : Prop :=
  ∀ v c, Fit v c → p.transfer v c = (c,Flags.none)

theorem call_stepped (hp : Lawful p left Fit) (hq : Quiet p Fit) {r : Run γ α ι w}
    (h : Between left Fit r) (c : Call α ι w) (k : ι) :
    (call p order r c).cells k = stepped p r.time c.now (c.raw k) (r.cells k) := by
  have hspec := (call_spec order hp h c).1
  by_cases ht : Transfers p r c
  · exact hspec.transferred ht k
  · rw [hspec.untouched ht, stepped]
    rw [Transfers, not_or, Decidable.not_not] at ht
    have hfit : Fit (c.raw k) (counted p r.time c.now (c.raw k) (r.cells k)) := by
      refine hp.due _ _ _ (ht.1 ▸ h.fit k) ?_
      rw [← Bool.not_eq_true]
      exact fun hk => ht.2 ⟨k,hk⟩
    rw [hq _ _ hfit]

def cellRun (p : Passes γ α) (s : Cell γ α × BitVec w) (trace : List (α × BitVec w)) :
    Cell γ α × BitVec w :=
  trace.foldl (fun s c => (stepped p s.2 c.2 c.1 s.1,c.2)) s

/-- What a call gives one cell. -/
def Call.at (k : ι) (c : Call α ι w) : α × BitVec w := (c.raw k,c.now)

theorem run_cell (hp : Lawful p left Fit) (hq : Quiet p Fit) {r : Run γ α ι w}
    (h : Between left Fit r) (calls : List (Call α ι w)) (k : ι) :
    (run p order r calls).cells k
      = (cellRun p (r.cells k,r.time) (calls.map (Call.at k))).1 := by
  induction calls generalizing r with
  | nil => rfl
  | cons c calls ih =>
    obtain ⟨hspec,hb⟩ := call_spec order hp h c
    have := ih hb
    rw [call_stepped order hp hq h, hspec.time] at this
    exact this

/-- The time that the fast timer shows between the calls, added up. -/
def measured (last : BitVec w) : List (Call α ι w) → Nat
  | [] => 0
  | c :: calls => (c.now-last).toNat + measured c.now calls

theorem measured_snoc (r : Run γ α ι w) (last : BitVec w) (hlast : r.time = last)
    (calls : List (Call α ι w)) (c : Call α ι w) : measured last (calls ++ [c])
      = measured last calls + (c.now-(run p order r calls).time).toNat := by
  induction calls generalizing r last with
  | nil => simp [measured, run, hlast]
  | cons d calls ih =>
    rw [List.cons_append, measured, ih (call p order r d) d.now rfl, measured, Nat.add_assoc]
    rfl

end QmkFirmware.Debounce
