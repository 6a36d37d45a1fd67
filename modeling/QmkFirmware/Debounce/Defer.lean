import QmkFirmware.Debounce.Calls

/-!
sym_defer_pk: a key flips when it has differed from its debounced value for `DEBOUNCE`
milliseconds, whatever the other keys do.
-/

set_option autoImplicit false

namespace QmkFirmware.Debounce

def Waiting {α : Type} (v : α) (c : Cell UInt8 α) : Prop := c.counter ≠ 0 ↔ v ≠ c.cooked

theorem debounceMs_pos {g D : Nat} (hD : 0 < D) (hg : 0 < g) : 0 < debounceMs g D := by
  unfold debounceMs
  omega

theorem debounceMs_toNat (D : Nat) :
    (UInt8.ofNat (debounceMs 255 D)).toNat = debounceMs 255 D := by
  have : debounceMs 255 D ≤ 255 := Nat.min_le_right D 255
  rw [UInt8.toNat_ofNat']
  omega

theorem debounceMs_ne_zero {D : Nat} (hD : 0 < D) : UInt8.ofNat (debounceMs 255 D) ≠ 0 := by
  intro h
  have := congrArg UInt8.toNat h
  rw [debounceMs_toNat] at this
  exact absurd this (debounceMs_pos hD (by decide)).ne'

theorem sub_ne_zero_of_not_le {c e : UInt8} (h : ¬ c ≤ e) : c-e ≠ 0 := by
  intro hz
  have hlt := UInt8.not_le.mp h
  have := congrArg UInt8.toNat hz
  rw [UInt8.toNat_sub_of_le _ _ (UInt8.le_of_lt hlt)] at this
  have := UInt8.lt_iff_toNat_lt.mp hlt
  simp at *
  omega

theorem toNat_ne_zero {c : UInt8} : c.toNat ≠ 0 ↔ c ≠ 0 :=
  not_congr ⟨fun h => UInt8.toNat_inj.mp h,fun h => h ▸ rfl⟩

section
variable {α : Type} [DecidableEq α]

theorem updateAndTransfer_idle (e : UInt8) (v : α) (c : Cell UInt8 α)
    (h : c.counter.toNat = 0) : updateAndTransferIfExpired e v c = (c,Flags.none) := by
  have hz : c.counter = 0 := UInt8.toNat_inj.mp h
  simp [updateAndTransferIfExpired, hz]

theorem updateAndTransfer_wait (v : α) (c : Cell UInt8 α) :
    (updateAndTransferIfExpired 0 v c).1 = c
      ∧ (updateAndTransferIfExpired 0 v c).2.matrixNeedUpdate = false := by
  by_cases hz : c.counter = 0
  · simp [updateAndTransferIfExpired, hz, Flags.none]
  · simp [updateAndTransferIfExpired, hz, Flags.none]

theorem updateAndTransfer_waiting {v : α} {c : Cell UInt8 α} (e : UInt8) (h : Waiting v c) :
    Waiting v (updateAndTransferIfExpired e v c).1 := by
  unfold Waiting at h ⊢
  unfold updateAndTransferIfExpired
  split
  · rename_i hz
    split
    · simp
    · rename_i he
      simp [sub_ne_zero_of_not_le he, h.mp hz]
  · exact h

theorem lawful_of_update (p : Passes UInt8 α)
    (hupdate : p.updateCounter = updateAndTransferIfExpired)
    (hstarted : ∀ v c, (p.transfer v c).1.counter ≠ 0 →
      c.counter ≠ 0 ∨ (p.transfer v c).2.countersNeedUpdate = true)
    (hfit : ∀ v c, Waiting v (p.transfer v c).1)
    (hstopped : ∀ v c, v = c.cooked → c.counter = 0 → p.transfer v c = (c,Flags.none))
    (hnone : ∀ v c, (p.transfer v c).2.matrixNeedUpdate = false
      ∧ (p.transfer v c).2.cookedChanged = false ∧ (p.transfer v c).1.cooked = c.cooked) :
    Lawful p UInt8.toNat Waiting where
  idle := hupdate ▸ updateAndTransfer_idle
  wait := hupdate ▸ updateAndTransfer_wait
  running := by
    intro e v c
    rw [hupdate, toNat_ne_zero]
    unfold updateAndTransferIfExpired
    split
    · split <;> simp
    · rename_i hz
      exact fun h => absurd h hz
  started := fun v c h => by simpa [toNat_ne_zero] using hstarted v c (toNat_ne_zero.mp h)
  fit := fun _ _ v _ _ => hfit v _
  due := fun e v c h _ => hupdate ▸ updateAndTransfer_waiting e h
  stopped := by
    intro v c h hz
    have hz : c.counter = 0 := UInt8.toNat_inj.mp hz
    refine hstopped v c ?_ hz
    simpa [Waiting, hz] using h
  noRequest := fun v c => (hnone v c).1
  updated := by
    intro e v c
    rw [hupdate]
    unfold updateAndTransferIfExpired
    split
    · split
      · exact decide_eq_true_iff.trans ne_comm
      · simp [Flags.none]
    · simp [Flags.none]
  transferred := by
    intro v c
    simp [hnone v c]
  takes := by
    intro e v c
    rw [hupdate]
    unfold updateAndTransferIfExpired
    split
    · split <;> simp
    · simp
  keeps := fun v c h => (hnone v c).2.2.trans h

end

theorem startCounterPk_lawful {debounceMs : UInt8} (hD : debounceMs ≠ 0)
    {p : Passes UInt8 Bool} (hupdate : p.updateCounter = updateAndTransferIfExpired)
    (htransfer : p.transfer = startCounterPk debounceMs) :
    Lawful p UInt8.toNat Waiting ∧ Quiet p Waiting := by
  have hbody : ∀ v c, v ≠ c.cooked ∧ c.counter = 0 ∧ startCounterPk debounceMs v c
        = (⟨debounceMs,c.cooked⟩,{ Flags.none with countersNeedUpdate := true })
      ∨ v ≠ c.cooked ∧ c.counter ≠ 0 ∧ startCounterPk debounceMs v c = (c,Flags.none)
      ∨ v = c.cooked ∧ startCounterPk debounceMs v c = (⟨0,c.cooked⟩,Flags.none) := by
    intro v c
    unfold startCounterPk
    split
    · rename_i hv
      split
      · rename_i hz
        exact .inl ⟨hv,hz,rfl⟩
      · rename_i hz
        exact .inr (.inl ⟨hv,hz,rfl⟩)
    · rename_i hv
      exact .inr (.inr ⟨Decidable.not_not.mp hv,rfl⟩)
  refine ⟨lawful_of_update p hupdate (fun v c => ?_) (fun v c => ?_) (fun v c hv hz => ?_)
    (fun v c => ?_),fun v c h => ?_⟩ <;> rw [htransfer]
  · rcases hbody v c with ⟨-,-,he⟩ | ⟨-,hz,-⟩ | ⟨-,he⟩
    · simp [he]
    · simp [hz]
    · simp [he]
  · rcases hbody v c with ⟨hv,-,he⟩ | ⟨hv,hz,he⟩ | ⟨hv,he⟩
    · simp [he, Waiting, hD, hv]
    · simp [he, Waiting, hz, hv]
    · rw [he]
      simp [Waiting, hv]
  · rcases hbody v c with ⟨hn,-⟩ | ⟨hn,-⟩ | ⟨-,he⟩
    · exact absurd hv hn
    · exact absurd hv hn
    · rw [he, ← hz]
  · rcases hbody v c with ⟨-,-,he⟩ | ⟨-,-,he⟩ | ⟨-,he⟩ <;> simp [he, Flags.none]
  · rcases hbody v c with ⟨hv,hz,-⟩ | ⟨-,-,he⟩ | ⟨hv,he⟩
    · exact absurd hz (h.mpr hv)
    · exact he
    · have hz : c.counter = 0 := Decidable.not_not.mp fun hn => h.mp hn hv
      rw [he, ← hz]

theorem symDeferPk_lawful {DEBOUNCE : Nat} (hD : 0 < DEBOUNCE) :
    Lawful (symDeferPk DEBOUNCE) UInt8.toNat Waiting ∧ Quiet (symDeferPk DEBOUNCE) Waiting :=
  startCounterPk_lawful (debounceMs_ne_zero hD) rfl rfl

theorem stepped_deferPk {w : Nat} (DEBOUNCE : Nat) (last now : BitVec w) (v : Bool)
    (c : Cell UInt8 Bool) :
    let c' := stepped (symDeferPk DEBOUNCE) last now v c
    let n := (now-last).toNat
    v = c.cooked ∧ c' = ⟨0,c.cooked⟩
      ∨ v ≠ c.cooked ∧ c.counter = 0 ∧ c' = ⟨UInt8.ofNat (debounceMs 255 DEBOUNCE),c.cooked⟩
      ∨ v ≠ c.cooked ∧ c.counter ≠ 0 ∧ c.counter.toNat ≤ n ∧ c' = ⟨0,v⟩
      ∨ v ≠ c.cooked ∧ c.counter ≠ 0 ∧ n < c.counter.toNat ∧ c'.cooked = c.cooked
        ∧ c'.counter.toNat = c.counter.toNat-n ∧ c'.counter ≠ 0 := by
  intro c' n
  have he : (elapsed (symDeferPk DEBOUNCE) last now).toNat = min n 255 := elapsed_toNat _ _ _
  have hc' : c' = (startCounterPk _ v (updateAndTransferIfExpired
    (elapsed (symDeferPk DEBOUNCE) last now) v c).1).1 := rfl
  generalize elapsed (symDeferPk DEBOUNCE) last now = e at he hc'
  by_cases hz : c.counter = 0
  · have hidle : updateAndTransferIfExpired e v c = (c,Flags.none) :=
      updateAndTransfer_idle e v c (hz ▸ rfl)
    rw [hidle] at hc'
    by_cases hv : v = c.cooked
    · exact .inl ⟨hv,by simp [hc', startCounterPk, hv]⟩
    · exact .inr (.inl ⟨hv,hz,by simp [hc', startCounterPk, hv, hz]⟩)
  · by_cases hle : c.counter ≤ e
    · have hflip : c' = ⟨0,v⟩ := by simp [hc', updateAndTransferIfExpired, hz, hle, startCounterPk]
      by_cases hv : v = c.cooked
      · exact .inl ⟨hv,hv ▸ hflip⟩
      · refine .inr (.inr (.inl ⟨hv,hz,?_,hflip⟩))
        have := UInt8.le_iff_toNat_le.mp hle
        omega
    · have hcount : c' = (startCounterPk (UInt8.ofNat (debounceMs 255 DEBOUNCE)) v
          ⟨c.counter-e,c.cooked⟩).1 := by
        simp [hc', updateAndTransferIfExpired, hz, hle]
      have hsub := sub_ne_zero_of_not_le hle
      by_cases hv : v = c.cooked
      · exact .inl ⟨hv,by simp [hcount, startCounterPk, hv]⟩
      · have hkeep : c' = ⟨c.counter-e,c.cooked⟩ := by simp [hcount, startCounterPk, hv, hsub]
        have hlt := UInt8.lt_iff_toNat_lt.mp (UInt8.not_le.mp hle)
        have hmax := c.counter.toNat_lt
        have hn : e.toNat = n := by omega
        refine .inr (.inr (.inr ⟨hv,hz,hn ▸ hlt,by rw [hkeep],?_,by rwa [hkeep]⟩))
        rw [hkeep, ← hn]
        exact UInt8.toNat_sub_of_le _ _ (UInt8.le_of_lt (UInt8.not_le.mp hle))

section
variable {ι : Type} {w : Nat}

/-- The last calls, from one of them on, all find the key's raw value other than `cooked`, and
`t` milliseconds were measured after the first of these calls. -/
def Window (k : ι) (cooked : Bool) (calls : List (Call Bool ι w)) (t : Nat) : Prop :=
  ∃ first window, first :: window <:+ calls ∧ (∀ c ∈ first :: window, c.raw k ≠ cooked)
    ∧ t ≤ measured first.now window

theorem Window.not_nil {k : ι} {cooked : Bool} {t : Nat} :
    ¬ Window (w := w) k cooked [] t := by
  rintro ⟨first,window,hs,-⟩
  exact absurd (List.suffix_nil.mp hs) (List.cons_ne_nil _ _)

variable [DecidableEq ι] [Fintype ι]

theorem window_snoc (p : Passes UInt8 Bool) (order : LoopOrder ι) (r : Run UInt8 Bool ι w)
    {k : ι} {cooked : Bool} {calls : List (Call Bool ι w)} {c : Call Bool ι w} {t : Nat} :
    Window k cooked (calls ++ [c]) t ↔ c.raw k ≠ cooked ∧ (t = 0 ∨ ∃ t',
      Window k cooked calls t' ∧ t ≤ t'+(c.now-(run p order r calls).time).toNat) := by
  constructor
  · rintro ⟨first,window,⟨pre,hpre⟩,hraw,ht⟩
    rcases List.eq_nil_or_concat window with rfl | ⟨window',d,rfl⟩
    · obtain rfl : first = c := List.singleton_inj.mp (List.append_inj' hpre rfl).2
      exact ⟨hraw first (by simp),.inl (Nat.le_zero.mp ht)⟩
    · rw [List.concat_eq_append] at hpre hraw ht
      rw [← List.cons_append, ← List.append_assoc] at hpre
      obtain ⟨hcalls,hd⟩ := List.append_inj' hpre rfl
      obtain rfl : d = c := List.singleton_inj.mp hd
      refine ⟨hraw d (by simp),.inr ⟨measured first.now window',
        ⟨first,window',⟨pre,hcalls⟩,fun e he => hraw e ?_,le_rfl⟩,?_⟩⟩
      · rw [← List.cons_append]
        exact List.mem_append_left _ he
      · rw [measured_snoc (p := p) order (call p order (run p order r pre) first) first.now rfl]
          at ht
        rwa [← hcalls, run_append]
  · rintro ⟨hc,rfl | ⟨t',⟨first,window,⟨pre,rfl⟩,hraw,ht'⟩,ht⟩⟩
    · exact ⟨c,[],List.suffix_append calls [c],by simpa using hc,Nat.zero_le _⟩
    · refine ⟨first,window ++ [c],⟨pre,by simp⟩,?_,?_⟩
      · rw [← List.cons_append]
        rintro d hd
        rcases List.mem_append.mp hd with hd | hd
        · exact hraw d hd
        · exact List.mem_singleton.mp hd ▸ hc
      · rw [measured_snoc (p := p) order (call p order (run p order r pre) first) first.now rfl]
        rw [run_append] at ht
        exact ht.trans (Nat.add_le_add_right ht' _)

/-- The counter of a key is what is left of `D` milliseconds since its window began. -/
def Counts (D : Nat) (k : ι) (calls : List (Call Bool ι w)) (c : Cell UInt8 Bool) : Prop :=
  c.counter.toNat ≤ D ∧ ∀ t, Window k c.cooked calls t ↔ c.counter ≠ 0 ∧ t+c.counter.toNat ≤ D

variable {DEBOUNCE : Nat} (order : LoopOrder ι)

/-- One call: the key flips when its window has become long enough, and the counter stays what
is left of the window. -/
theorem counts_call {r : Run UInt8 Bool ι w} {calls : List (Call Bool ι w)} {k : ι}
    {before : Cell UInt8 Bool} (hD : 0 < DEBOUNCE)
    (hc : Counts (debounceMs 255 DEBOUNCE) k calls before) (c : Call Bool ι w) :
    let after := stepped (symDeferPk DEBOUNCE) (run (symDeferPk DEBOUNCE) order r calls).time
      c.now (c.raw k) before
    (after.cooked ≠ before.cooked
        ↔ Window k before.cooked (calls ++ [c]) (debounceMs 255 DEBOUNCE))
      ∧ Counts (debounceMs 255 DEBOUNCE) k (calls ++ [c]) after := by
  intro after
  have hpos := debounceMs_pos hD (show 0 < 255 by decide)
  simp only [Counts, window_snoc (symDeferPk DEBOUNCE) order r] at hc ⊢
  obtain ⟨hle,hwin⟩ := hc
  rcases stepped_deferPk DEBOUNCE (run (symDeferPk DEBOUNCE) order r calls).time c.now (c.raw k)
    before with ⟨hv,he⟩ | ⟨hv,hz,he⟩ | ⟨hv,hz,hn,he⟩ | ⟨hv,hz,hn,hck,hsub,hz'⟩
  · rw [show after = ⟨0,before.cooked⟩ from he]
    simp [hv]
  · -- the window starts with this call
    rw [show after = ⟨UInt8.ofNat (debounceMs 255 DEBOUNCE),before.cooked⟩ from he]
    simp only [hwin, hz, ne_eq, not_true_eq_false, false_and, exists_false, or_false, hv,
      not_false_eq_true, true_and, debounceMs_ne_zero hD, debounceMs_toNat, le_refl, false_iff]
    exact ⟨hpos.ne',fun t => by omega⟩
  · rw [show after = ⟨0,c.raw k⟩ from he]
    simp only [hwin, ne_eq, hz, hv, not_false_eq_true, true_and, true_iff, not_true_eq_false,
      false_and, implies_true, and_true, UInt8.toNat_zero, Nat.zero_le]
    exact .inr ⟨debounceMs 255 DEBOUNCE-before.counter.toNat,by omega,by omega⟩
  · simp only [hwin, ne_eq, show after.cooked = before.cooked from hck, not_true_eq_false, hz, hv,
      not_false_eq_true, true_and, show ¬ after.counter = 0 from hz',
      show after.counter.toNat = before.counter.toNat-_ from hsub, false_iff]
    refine ⟨?_,by omega,fun t => ⟨?_,fun h => .inr ⟨debounceMs 255 DEBOUNCE-before.counter.toNat,
      by omega,by omega⟩⟩⟩
    · rintro (h | ⟨t',h,h'⟩)
      · exact hpos.ne' h
      · omega
    · rintro (rfl | ⟨t',h,h'⟩) <;> omega

theorem run_counts (hD : 0 < DEBOUNCE) (m : ι → Bool) (calls : List (Call Bool ι w)) (k : ι) :
    Counts (debounceMs 255 DEBOUNCE) k calls
      ((run (symDeferPk DEBOUNCE) order (start 0 m) calls).cells k) := by
  obtain ⟨hp,hq⟩ := symDeferPk_lawful hD
  have hb : Between UInt8.toNat Waiting (start (w := w) 0 m) :=
    start_between 0 m rfl (by simp [Waiting])
  induction calls using List.reverseRecOn with
  | nil => exact ⟨Nat.zero_le _,fun t => by simp [Window.not_nil, run, start]⟩
  | append_singleton calls c ih =>
    rw [run_snoc, call_stepped order hp hq (run_between order hp hb calls)]
    exact (counts_call order hD ih c).2

end

/-- sym_defer_pk, called any number of times with exact `changed` flags. A key's debounced
values are a function of its own raw values and of the times of the calls; it flips in a call
exactly if its raw value has differed from its debounced value in all of the last calls for at
least `DEBOUNCE` milliseconds; and a call returns true exactly if a key flipped. -/
theorem symDeferPk_spec (DEBOUNCE w : Nat) (hD : 0 < DEBOUNCE) :
    ∃ cookedOf : Bool → List (Bool × BitVec w) → Bool,
      ∀ (rows cols : Nat) (m : Fin rows × Fin cols → Bool)
        (calls : List (Call Bool (Fin rows × Fin cols) w)),
      let after := run (symDeferPk DEBOUNCE) (.nested rows cols) (start 0 m)
      (∀ k, ((after calls).cells k).cooked = cookedOf (m k) (calls.map (Call.at k)))
        ∧ ∀ c,
          (∀ k, ((after (calls ++ [c])).cells k).cooked ≠ ((after calls).cells k).cooked
            ↔ Window k ((after calls).cells k).cooked (calls ++ [c]) (debounceMs 255 DEBOUNCE))
          ∧ ((after (calls ++ [c])).returned = true
            ↔ ∃ k, ((after (calls ++ [c])).cells k).cooked ≠ ((after calls).cells k).cooked) := by
  obtain ⟨hp,hq⟩ := symDeferPk_lawful hD
  refine ⟨fun v trace => (cellRun (symDeferPk DEBOUNCE) (⟨0,v⟩,0) trace).1.cooked,
    fun rows cols m calls => ?_⟩
  have hb : Between UInt8.toNat Waiting (start (w := w) 0 m) :=
    start_between 0 m rfl (by simp [Waiting])
  have hbetween := run_between (.nested rows cols) hp hb calls
  refine ⟨fun k => ?_,fun c => ⟨fun k => ?_,?_⟩⟩
  · rw [run_cell _ hp hq hb]
    rfl
  · rw [run_snoc, call_stepped _ hp hq hbetween]
    exact (counts_call _ hD (run_counts _ hD m calls k) c).1
  · rw [run_snoc]
    exact (call_spec _ hp hbetween c).1.returned

/-- A key held from 10 on flips at 15, with a timer of 16 bits. -/
theorem symDeferPk_spec_five :
    let hold : BitVec 16 → Call Bool (Fin 2 × Fin 2) 16 := fun now => ⟨fun k => k == (0,1),now⟩
    let after := run (symDeferPk 5) (.nested 2 2) (start 0 fun _ => false)
    Window (0,1) false [hold 10,hold 14,hold 15] 5
      ∧ ((after [hold 10,hold 14]).cells (0,1)).cooked = false
      ∧ ((after [hold 10,hold 14,hold 15]).cells (0,1)).cooked = true := by
  intro hold after
  have hwindow : Window (0,1) false [hold 10,hold 14,hold 15] 5 :=
    ⟨hold 10,[hold 14,hold 15],List.suffix_refl _,by decide,by decide⟩
  have hbefore : ((after [hold 10,hold 14]).cells (0,1)).cooked = false := by decide +kernel
  obtain ⟨_,h⟩ := symDeferPk_spec 5 16 (by decide)
  have hflip := ((h 2 2 (fun _ => false) [hold 10,hold 14]).2 (hold 15)).1 (0,1)
  refine ⟨hwindow,hbefore,?_⟩
  rw [show ((run _ _ _ [hold 10,hold 14]).cells (0,1)).cooked = false from hbefore] at hflip
  exact Bool.ne_false_iff.mp (hflip.mpr hwindow)

end QmkFirmware.Debounce
