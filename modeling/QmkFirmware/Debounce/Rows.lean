import QmkFirmware.Debounce.Eager

/-!
Whether what happens on other rows can be seen in a row's debounced values. The flags and the
timer that the rows share do no harm, but sym_defer_pr starts the counter of every row that
waits again when any row changes.
-/

set_option autoImplicit false

namespace QmkFirmware.Debounce

variable {γ α ι : Type} {w : Nat} [DecidableEq α]

theorem noneCopy_lawful :
    Lawful (noneCopy : Passes γ α) (fun _ => 0) (fun v c => c.cooked = v) where
  idle := fun _ _ _ _ => rfl
  wait := fun _ _ => ⟨rfl,rfl⟩
  running := fun _ _ _ h => absurd rfl h
  started := fun _ _ h => absurd rfl h
  fit := fun _ _ _ _ _ => rfl
  due := fun _ _ _ h _ => h
  stopped := by
    rintro v c rfl -
    simp [noneCopy, Flags.none]
  noRequest := fun _ _ => rfl
  updated := by simp [noneCopy, Flags.none]
  transferred := by
    intro v c
    exact decide_eq_true_iff.trans ne_comm
  takes := fun _ _ _ h => absurd rfl h
  keeps := fun _ _ _ => rfl

theorem noneCopy_quiet : Quiet (noneCopy : Passes γ α) (fun v c => c.cooked = v) := by
  rintro v c rfl
  simp [noneCopy, Flags.none]

section
variable [DecidableEq ι] [Fintype ι] (order : LoopOrder ι) {p : Passes γ α} {left : γ → Nat}
  {Fit : α → Cell γ α → Prop}

theorem cells_of_own (hp : Lawful p left Fit) (hq : Quiet p Fit) {zero : γ} (hz : left zero = 0)
    (hfit : ∀ v, Fit v ⟨zero,v⟩) {m m' : ι → α} {k : ι} (hm : m k = m' k)
    {a b : List (Call α ι w)} (hab : a.map (Call.at k) = b.map (Call.at k)) :
    (run p order (start zero m) a).cells k = (run p order (start zero m') b).cells k := by
  rw [run_cell order hp hq (start_between zero m hz hfit),
    run_cell order hp hq (start_between zero m' hz hfit), hab]
  show (cellRun p (⟨zero,m k⟩,0) _).1 = (cellRun p (⟨zero,m' k⟩,0) _).1
  rw [hm]

end

theorem symDeferPr_lawful (bits : Nat) {DEBOUNCE : Nat} (hD : 0 < DEBOUNCE) :
    Lawful (symDeferPr bits DEBOUNCE) UInt8.toNat Waiting := by
  have hne := debounceMs_ne_zero hD
  refine lawful_of_update _ rfl (fun v c => ?_) (fun v c => ?_) (fun v c hv hz => ?_)
    (fun v c => ?_) <;> simp only [symDeferPr, startCounterPr, Waiting]
  · split <;> simp
  · split
    · rename_i hv
      simp [hne, hv]
    · rename_i hv
      simpa using hv
  · rw [if_neg (not_not.mpr hv), ← hz]
  · split <;> simp [Flags.none]

section
variable [DecidableEq ι] [Fintype ι] (order : LoopOrder ι)

/-- When another row changes, this row does not wait with an unchanged raw value; or its counter
runs out in this call; or it was only just started. -/
def Undisturbed (debounceMs : UInt8) (k : ι) (r : Run UInt8 α ι w) (c : Call α ι w) : Prop :=
  c.raw ≠ r.raw → c.raw k = r.raw k → (r.cells k).cooked ≠ r.raw k →
    (r.cells k).counter.toNat ≤ (c.now-r.time).toNat
      ∨ (r.cells k).counter = debounceMs ∧ c.now = r.time

/-- The row's cell, the time of the last call and the raw value that it was given, when only the
row's own changes start the counter. -/
def ownRun (p : Passes UInt8 α) (s : Cell UInt8 α × BitVec w × α) (trace : List (α × BitVec w)) :
    Cell UInt8 α × BitVec w × α :=
  trace.foldl (fun s c =>
    (if c.1 ≠ s.2.2 then stepped p s.2.1 c.2 c.1 s.1 else counted p s.2.1 c.2 c.1 s.1,c.2,c.1)) s

theorem start_undisturbed {debounceMs : UInt8} {v : α} {c : Cell UInt8 α} (hfit : Waiting v c)
    {last now : BitVec w} (p : Passes UInt8 α) (hmax : p.maxElapsed = 255)
    (hupdate : p.updateCounter = updateAndTransferIfExpired)
    (h : c.cooked ≠ v → c.counter.toNat ≤ (now-last).toNat
      ∨ c.counter = debounceMs ∧ now = last) :
    (startCounterPr debounceMs v (counted p last now v c)).1 = counted p last now v c := by
  have he := elapsed_toNat p last now
  rw [counted, hupdate]
  by_cases hz : c.counter = 0
  · rw [updateAndTransfer_idle _ _ _ (hz ▸ rfl)]
    have hv : v = c.cooked := Decidable.not_not.mp fun hn => hfit.mpr hn hz
    rw [startCounterPr, if_neg (not_not.mpr hv), ← hz]
  · rcases h (hfit.mp hz).symm with hle | ⟨hd,rfl⟩
    · have hle : c.counter ≤ elapsed p last now := by
        have := c.counter.toNat_lt
        rw [hmax] at he
        rw [UInt8.le_iff_toNat_le, he]
        exact Nat.le_min.mpr ⟨hle,Nat.le_of_lt_succ this⟩
      simp [updateAndTransferIfExpired, hz, hle, startCounterPr]
    · have he : elapsed p now now = 0 := elapsed_zero now (by simp)
      rw [he, (updateAndTransfer_wait v c).1, startCounterPr, if_pos (hfit.mp hz), ← hd]

theorem call_undisturbed {bits DEBOUNCE : Nat} (hD : 0 < DEBOUNCE)
    {r : Run UInt8 (BitVec bits) ι w} (h : Between UInt8.toNat Waiting r)
    {c : Call (BitVec bits) ι w} {k : ι}
    (hc : Undisturbed (UInt8.ofNat (debounceMs 255 DEBOUNCE)) k r c) :
    (call (symDeferPr bits DEBOUNCE) order r c).cells k = if c.raw k ≠ r.raw k then
      stepped (symDeferPr bits DEBOUNCE) r.time c.now (c.raw k) (r.cells k)
      else counted (symDeferPr bits DEBOUNCE) r.time c.now (c.raw k) (r.cells k) := by
  have hspec := (call_spec order (symDeferPr_lawful bits hD) h c).1
  by_cases ht : Transfers (symDeferPr bits DEBOUNCE) r c
  · rw [hspec.transferred ht]
    split
    · rfl
    · rename_i hk
      have hk := Decidable.not_not.mp hk
      have hraw : c.raw ≠ r.raw := by
        refine ht.resolve_right ?_
        rintro ⟨j,hj⟩
        simp only [symDeferPr, updateAndTransferIfExpired] at hj
        split at hj
        · split at hj <;> cases hj
        · cases hj
      exact start_undisturbed (hk ▸ h.fit k) (symDeferPr bits DEBOUNCE) rfl rfl
        fun hn => hc hraw hk (hk ▸ hn)
  · rw [hspec.untouched ht]
    rw [Transfers, not_or, Decidable.not_not] at ht
    rw [ht.1, if_neg (not_not.mpr rfl)]

/-- No call of a run disturbs the row. -/
def RunUndisturbed (bits DEBOUNCE : Nat) (m : ι → BitVec bits)
    (calls : List (Call (BitVec bits) ι w)) (k : ι) : Prop :=
  ∀ pre c, pre ++ [c] <+: calls → Undisturbed (UInt8.ofNat (debounceMs 255 DEBOUNCE)) k
    (run (symDeferPr bits DEBOUNCE) order (start 0 m) pre) c

theorem run_undisturbed {bits DEBOUNCE : Nat} (hD : 0 < DEBOUNCE) (m : ι → BitVec bits)
    {calls : List (Call (BitVec bits) ι w)} {k : ι}
    (h : RunUndisturbed order bits DEBOUNCE m calls k) :
    let r := run (symDeferPr bits DEBOUNCE) order (start 0 m) calls
    (r.cells k,r.time,r.raw k)
      = ownRun (symDeferPr bits DEBOUNCE) (⟨0,m k⟩,0,m k) (calls.map (Call.at k)) := by
  have hp := symDeferPr_lawful bits hD
  induction calls using List.reverseRecOn with
  | nil => rfl
  | append_singleton calls c ih =>
    have ih := ih fun pre d hpre => h pre d (hpre.trans (List.prefix_append calls [c]))
    have hb := run_between order hp (start_between (w := w) 0 m rfl (by simp [Waiting])) calls
    simp only [run_snoc, List.map_append, ownRun, List.foldl_append] at ih ⊢
    rw [← ih]
    simp only [List.map_cons, List.map_nil, List.foldl_cons, List.foldl_nil, Call.at,
      call_undisturbed order hD hb (h calls c List.prefix_rfl)]
    rfl

end

/-- Two runs that agree on one row and on the times of the calls. With sym_eager_pr the row's
debounced values are the same in both; with sym_defer_pr they are if no call of either run
disturbs the row. -/
theorem rows_independent {rows bits DEBOUNCE w : Nat} {m m' : Fin rows → BitVec bits}
    {a b : List (Call (BitVec bits) (Fin rows) w)} {k : Fin rows} (hm : m k = m' k)
    (hab : a.map (Call.at k) = b.map (Call.at k)) :
    let cooked := fun p m (calls : List (Call (BitVec bits) (Fin rows) w)) n =>
      ((run (compiled DEBOUNCE p) (.single rows) (start 0 m) (calls.take n)).cells k).cooked
    (∀ n, cooked (symEagerPr bits DEBOUNCE) m a n = cooked (symEagerPr bits DEBOUNCE) m' b n)
      ∧ ((0 < DEBOUNCE → RunUndisturbed (.single rows) bits DEBOUNCE m a k
          ∧ RunUndisturbed (.single rows) bits DEBOUNCE m' b k) →
        ∀ n, cooked (symDeferPr bits DEBOUNCE) m a n
          = cooked (symDeferPr bits DEBOUNCE) m' b n) := by
  intro cooked
  have htake : ∀ n, (a.take n).map (Call.at k) = (b.take n).map (Call.at k) := by
    intro n
    rw [List.map_take, hab, List.map_take]
  by_cases hD : 0 < DEBOUNCE
  · simp only [cooked, compiled, if_pos hD]
    refine ⟨fun n => ?_,fun h n => ?_⟩
    · rw [cells_of_own _ (symEager_lawful (debounceMs_ne_zero hD) (fun _ _ _ => rfl)
        fun _ _ => rfl) (symEager_quiet fun _ _ => rfl) rfl (fun _ _ => rfl) hm (htake n)]
    · obtain ⟨ha,hb⟩ := h hD
      have hra := run_undisturbed _ hD m
        fun pre c hpre => ha pre c (hpre.trans (List.take_prefix n a))
      have hrb := run_undisturbed _ hD m'
        fun pre c hpre => hb pre c (hpre.trans (List.take_prefix n b))
      rw [htake n, hm] at hra
      exact congrArg (fun s => s.1.cooked) (hra.trans hrb.symm)
  · simp only [cooked, compiled, if_neg hD]
    exact ⟨fun n => by rw [cells_of_own _ noneCopy_lawful noneCopy_quiet rfl (fun _ => rfl) hm
        (htake n)],
      fun _ n => by rw [cells_of_own _ noneCopy_lawful noneCopy_quiet rfl (fun _ => rfl) hm
        (htake n)]⟩

/-- Row 0 changes in the first of three calls and stays; the other row has the given values. -/
def besideRow (other : Nat → BitVec 8) : List (Call (BitVec 8) (Fin 2) 16) :=
  [⟨fun k => if k.val = 0 then 1 else other 0,10⟩,⟨fun k => if k.val = 0 then 1 else other 1,12⟩,
    ⟨fun k => if k.val = 0 then 1 else other 2,15⟩]

/-- The other row changes before the first row does, in both runs, and is settled. -/
theorem rows_independent_settled :
    let cooked := fun other =>
      ((run (compiled 5 (symDeferPr 8 5)) (.single 2) (start 0 fun _ => 0) (besideRow other)).cells
        0).cooked
    cooked (fun _ => 1) = cooked fun _ => 0 := by
  have hrun : ∀ v : BitVec 8, v = 0 ∨ v = 1 → RunUndisturbed (w := 16) (.single 2) 8 5
      (fun _ => 0) (besideRow fun _ => v) (0 : Fin 2) := by
    intro v hv pre c hpre
    rw [← List.mem_inits] at hpre
    simp only [besideRow, List.inits, List.mem_cons, List.map_cons, List.map_nil,
      List.not_mem_nil, or_false, List.append_eq_nil_iff, List.cons_ne_self, and_false,
      false_or] at hpre
    rcases hpre with hpre | hpre | hpre
    · obtain ⟨rfl,hc⟩ := List.append_inj' (show pre ++ [c] = [] ++ [_] from hpre) rfl
      obtain rfl := List.singleton_inj.mp hc
      rcases hv with rfl | rfl <;> (unfold Undisturbed; decide +kernel)
    · obtain ⟨rfl,hc⟩ := List.append_inj' (show pre ++ [c] = [_] ++ [_] from hpre) rfl
      obtain rfl := List.singleton_inj.mp hc
      rcases hv with rfl | rfl <;> (unfold Undisturbed; decide +kernel)
    · obtain ⟨rfl,hc⟩ := List.append_inj' (show pre ++ [c] = [_,_] ++ [_] from hpre) rfl
      obtain rfl := List.singleton_inj.mp hc
      rcases hv with rfl | rfl <;> (unfold Undisturbed; decide +kernel)
  exact ((@rows_independent 2 8 5 16 (fun _ => 0) (fun _ => 0) (besideRow fun _ => 1)
    (besideRow fun _ => 0) 0 rfl rfl).2
    fun _ => ⟨hrun 1 (.inr rfl),hrun 0 (.inl rfl)⟩) 3

/-- A row that changes at 10 is debounced at 15, but not if another row changes at 12. -/
theorem other_row_delays :
    let cooked := fun other =>
      ((run (compiled 5 (symDeferPr 8 5)) (.single 2) (start 0 fun _ => 0) (besideRow other)).cells
        0).cooked
    (besideRow fun _ => 0).map (Call.at 0)
        = (besideRow fun n => if n = 1 then 1 else 0).map (Call.at 0)
      ∧ cooked (fun _ => 0) = 1 ∧ cooked (fun n => if n = 1 then 1 else 0) = 0 := by
  refine ⟨rfl,by decide +kernel,by decide +kernel⟩

end QmkFirmware.Debounce
