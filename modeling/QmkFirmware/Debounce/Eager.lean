import QmkFirmware.Debounce.Defer

/-!
The eager algorithms: no key is left behind, and a key that flipped at once is locked for
`DEBOUNCE` milliseconds.
-/

set_option autoImplicit false

namespace QmkFirmware.Debounce

variable {γ α ι : Type} {w : Nat}

structure Locks (p : Passes γ α) (left : γ → Nat) (Locked : Cell γ α → Prop) : Prop where
  counts : ∀ e v c, Locked c → e.toNat < left c.counter →
    Locked (p.updateCounter e v c).1 ∧ (p.updateCounter e v c).1.cooked = c.cooked
      ∧ left (p.updateCounter e v c).1.counter = left c.counter-e.toNat
  holds : ∀ v c, Locked c → left c.counter ≠ 0 → (p.transfer v c).1 = c

theorem elapsed_le (p : Passes γ α) (last now : BitVec w) :
    (elapsed p last now).toNat ≤ (now-last).toNat := by
  rw [elapsed_toNat]
  exact Nat.min_le_left _ _

theorem stepped_locked {p : Passes γ α} {left : γ → Nat} {Locked : Cell γ α → Prop}
    (hp : Locks p left Locked) {D t : Nat} {c : Cell γ α} (hc : Locked c)
    (ht : D ≤ left c.counter+t) (last now : BitVec w) (v : α) :
    let c' := stepped p last now v c
    (c'.cooked = c.cooked ∧ Locked c' ∧ D ≤ left c'.counter+(t+(now-last).toNat))
      ∨ D ≤ t+(now-last).toNat := by
  intro c'
  have hle := elapsed_le p last now
  by_cases hlt : (elapsed p last now).toNat < left c.counter
  · obtain ⟨hl,hcooked,hleft⟩ := hp.counts _ v c hc hlt
    have hsame : c' = counted p last now v c :=
      hp.holds v _ hl (by rw [counted, hleft]; omega)
    refine .inl ⟨by rw [hsame]; exact hcooked,by rw [hsame]; exact hl,?_⟩
    rw [hsame, counted, hleft]
    omega
  · exact .inr (by omega)

theorem updateCounter_cases (e : UInt8) (c : Cell UInt8 α) :
    c.counter = 0 ∧ updateCounter e c = (c,Flags.none)
      ∨ c.counter ≠ 0 ∧ c.counter ≤ e ∧ updateCounter e c
        = (⟨0,c.cooked⟩,{ Flags.none with matrixNeedUpdate := true })
      ∨ c.counter ≠ 0 ∧ ¬ c.counter ≤ e ∧ updateCounter e c
        = (⟨c.counter-e,c.cooked⟩,{ Flags.none with countersNeedUpdate := true }) := by
  unfold updateCounter
  split
  · rename_i hz
    split
    · rename_i he
      exact .inr (.inl ⟨hz,he,rfl⟩)
    · rename_i he
      exact .inr (.inr ⟨hz,he,rfl⟩)
  · rename_i hz
    exact .inl ⟨Decidable.not_not.mp hz,rfl⟩

section
variable [DecidableEq α]

theorem transferPk_eq (debounceMs : UInt8) (v : Bool) (c : Cell UInt8 Bool) :
    transferPk debounceMs v c = transferPr debounceMs v c := by
  obtain ⟨n,o⟩ := c
  cases v <;> cases o <;> rfl

/-- A cell whose counter has elapsed is what its raw value is. -/
def Settled (v : α) (c : Cell UInt8 α) : Prop := c.counter = 0 → c.cooked = v

theorem transferPr_cases (debounceMs : UInt8) (v : α) (c : Cell UInt8 α) :
    c.cooked ≠ v ∧ c.counter = 0 ∧ transferPr debounceMs v c = (⟨debounceMs,v⟩,
        { Flags.none with countersNeedUpdate := true, cookedChanged := true })
      ∨ (c.counter = 0 → c.cooked = v) ∧ transferPr debounceMs v c = (c,Flags.none) := by
  unfold transferPr
  split
  · rename_i hv
    split
    · rename_i hz
      exact .inl ⟨hv,hz,by rw [decide_eq_true hv]⟩
    · rename_i hz
      exact .inr ⟨fun h => absurd h hz,rfl⟩
  · rename_i hv
    exact .inr ⟨fun _ => Decidable.not_not.mp hv,rfl⟩

theorem symEager_lawful {debounceMs : UInt8} (hD : debounceMs ≠ 0) {p : Passes UInt8 α}
    (hupdate : ∀ e v c, p.updateCounter e v c = updateCounter e c)
    (htransfer : ∀ v c, p.transfer v c = transferPr debounceMs v c) :
    Lawful p UInt8.toNat Settled where
  idle := by
    intro e v c hz
    rw [hupdate]
    rcases updateCounter_cases e c with ⟨-,he⟩ | ⟨hn,-⟩ | ⟨hn,-⟩
    · exact he
    · exact absurd hz (toNat_ne_zero.mpr hn)
    · exact absurd hz (toNat_ne_zero.mpr hn)
  wait := by
    intro v c
    rw [hupdate]
    rcases updateCounter_cases 0 c with ⟨-,he⟩ | ⟨hn,hle,-⟩ | ⟨-,-,he⟩
    · exact ⟨by rw [he],by rw [he]; rfl⟩
    · exact absurd (UInt8.le_zero_iff.mp hle) hn
    · simp [he, Flags.none]
  running := by
    intro e v c
    rw [hupdate, toNat_ne_zero]
    rcases updateCounter_cases e c with ⟨hz,he⟩ | ⟨-,-,he⟩ | ⟨-,-,he⟩
    · rw [he]
      exact fun hn => absurd hz hn
    · simp [he]
    · simp [he]
  started := by
    intro v c
    rw [htransfer, toNat_ne_zero, toNat_ne_zero]
    rcases transferPr_cases debounceMs v c with ⟨-,-,he⟩ | ⟨-,he⟩
    · simp [he]
    · rw [he]
      exact .inl
  fit := by
    intro e v₀ v c _
    rw [htransfer]
    rcases transferPr_cases debounceMs v (p.updateCounter e v c).1 with ⟨-,-,he⟩ | ⟨hfit,he⟩
    · rw [he]
      exact fun hz => absurd hz hD
    · rw [he]
      exact hfit
  due := by
    intro e v c hfit
    rw [hupdate]
    rcases updateCounter_cases e c with ⟨-,he⟩ | ⟨-,-,he⟩ | ⟨-,hle,he⟩
    · rw [he]
      exact fun _ => hfit
    · simp [he]
    · rw [he]
      exact fun _ hz => absurd hz (sub_ne_zero_of_not_le hle)
  stopped := by
    intro v c hfit hz
    rw [htransfer]
    have hz : c.counter = 0 := UInt8.toNat_inj.mp hz
    rcases transferPr_cases debounceMs v c with ⟨hv,-⟩ | ⟨-,he⟩
    · exact absurd (hfit hz) hv
    · exact he
  noRequest := by
    intro v c
    rw [htransfer]
    rcases transferPr_cases debounceMs v c with ⟨-,-,he⟩ | ⟨-,he⟩ <;> simp [he, Flags.none]
  updated := by
    intro e v c
    rw [hupdate]
    rcases updateCounter_cases e c with ⟨-,he⟩ | ⟨-,-,he⟩ | ⟨-,-,he⟩ <;> simp [he, Flags.none]
  transferred := by
    intro v c
    rw [htransfer]
    rcases transferPr_cases debounceMs v c with ⟨hv,-,he⟩ | ⟨-,he⟩
    · simp [he, Ne.symm hv]
    · simp [he, Flags.none]
  takes := by
    intro e v c
    rw [hupdate]
    rcases updateCounter_cases e c with ⟨-,he⟩ | ⟨-,-,he⟩ | ⟨-,-,he⟩ <;> simp [he]
  keeps := by
    intro v c hv
    rw [htransfer]
    rcases transferPr_cases debounceMs v c with ⟨hn,-⟩ | ⟨-,he⟩
    · exact absurd hv hn
    · rw [he]
      exact hv

theorem symEager_quiet {debounceMs : UInt8} {p : Passes UInt8 α}
    (htransfer : ∀ v c, p.transfer v c = transferPr debounceMs v c) : Quiet p Settled := by
  intro v c h
  rw [htransfer]
  rcases transferPr_cases debounceMs v c with ⟨hv,hz,-⟩ | ⟨-,he⟩
  · exact absurd (h hz) hv
  · exact he

theorem symEager_locks {debounceMs : UInt8} {p : Passes UInt8 α}
    (hupdate : ∀ e v c, p.updateCounter e v c = updateCounter e c)
    (htransfer : ∀ v c, p.transfer v c = transferPr debounceMs v c) :
    Locks p UInt8.toNat fun _ => True where
  counts := by
    intro e v c _ hlt
    rw [hupdate]
    rcases updateCounter_cases e c with ⟨hz,-⟩ | ⟨-,hle,-⟩ | ⟨-,hle,he⟩
    · simp [hz] at hlt
    · exact absurd (UInt8.le_iff_toNat_le.mp hle) (by omega)
    · rw [he]
      exact ⟨trivial,rfl,UInt8.toNat_sub_of_le _ _ (UInt8.le_of_lt (UInt8.not_le.mp hle))⟩
  holds := by
    intro v c _ hz
    rw [htransfer]
    rcases transferPr_cases debounceMs v c with ⟨-,hz',-⟩ | ⟨-,he⟩
    · simp [hz'] at hz
    · rw [he]

end

def AsymSettled (v : Bool) (c : Cell AsymCounter Bool) : Prop :=
  (c.counter.time = 0 → c.cooked = v)
    ∧ (c.counter.time ≠ 0 → c.counter.pressed = false → c.cooked = true ∧ v = false)

def AsymCounter.left (c : AsymCounter) : Nat := c.time.toNat

theorem AsymCounter.left_ne_zero {c : AsymCounter} : c.left ≠ 0 ↔ c.time ≠ 0 :=
  not_congr ⟨fun h => BitVec.eq_of_toNat_eq h,fun h => congrArg BitVec.toNat h⟩

theorem updateAsym_cases (e : UInt8) (v : Bool) (c : Cell AsymCounter Bool) :
    c.counter.time = 0 ∧ updateAsym e v c = (c,Flags.none)
      ∨ c.counter.time ≠ 0 ∧ c.counter.left ≤ e.toNat ∧ c.counter.pressed = true
        ∧ updateAsym e v c = (⟨{ c.counter with time := 0 },c.cooked⟩,
          { Flags.none with matrixNeedUpdate := true })
      ∨ c.counter.time ≠ 0 ∧ c.counter.left ≤ e.toNat ∧ c.counter.pressed = false
        ∧ updateAsym e v c = (⟨{ c.counter with time := 0 },v⟩,
          { Flags.none with cookedChanged := decide (v ≠ c.cooked) })
      ∨ c.counter.time ≠ 0 ∧ e.toNat < c.counter.left ∧ ∃ time : BitVec 7,
        time.toNat = c.counter.left-e.toNat ∧ time ≠ 0
        ∧ updateAsym e v c = (⟨{ c.counter with time },c.cooked⟩,
          { Flags.none with countersNeedUpdate := true }) := by
  unfold updateAsym
  split
  · rename_i hz
    split
    · rename_i he
      split
      · rename_i hp
        exact .inr (.inl ⟨hz,he,hp,rfl⟩)
      · rename_i hp
        exact .inr (.inr (.inl ⟨hz,he,Bool.eq_false_iff.mpr hp,rfl⟩))
    · rename_i he
      have hlt : e.toNat < c.counter.time.toNat := Nat.not_le.mp he
      have hmax := c.counter.time.isLt
      have hsub : (c.counter.time-BitVec.ofNat 7 e.toNat).toNat = c.counter.left-e.toNat := by
        rw [BitVec.toNat_sub, BitVec.toNat_ofNat, AsymCounter.left]
        omega
      refine .inr (.inr (.inr ⟨hz,hlt,_,hsub,fun h0 => ?_,rfl⟩))
      have hz' : (0 : BitVec 7).toNat = c.counter.time.toNat-e.toNat := h0 ▸ hsub
      exact absurd hz'.symm (Nat.sub_ne_zero_of_lt hlt)
  · rename_i hz
    exact .inl ⟨Decidable.not_not.mp hz,rfl⟩

theorem transferAsym_cases (debounceMs : BitVec 7) (v : Bool) (c : Cell AsymCounter Bool) :
    c.counter.time = 0 ∧ v = true ∧ c.cooked = false
        ∧ transferAsym debounceMs v c = (⟨⟨true,debounceMs⟩,true⟩,
          { Flags.none with countersNeedUpdate := true, cookedChanged := true })
      ∨ c.counter.time = 0 ∧ v = false ∧ c.cooked = true
        ∧ transferAsym debounceMs v c = (⟨⟨false,debounceMs⟩,true⟩,
          { Flags.none with countersNeedUpdate := true })
      ∨ c.counter.time ≠ 0 ∧ c.counter.pressed = false ∧ v = c.cooked
        ∧ transferAsym debounceMs v c = (⟨{ c.counter with time := 0 },c.cooked⟩,Flags.none)
      ∨ (c.counter.time = 0 → c.cooked = v)
        ∧ (c.counter.time ≠ 0 → c.counter.pressed = false → v ≠ c.cooked)
        ∧ transferAsym debounceMs v c = (c,Flags.none) := by
  unfold transferAsym
  split
  · rename_i hv
    split
    · rename_i hz
      split
      · rename_i ht
        have ho : c.cooked = false := Bool.eq_false_iff.mpr fun h => hv (ht.trans h.symm)
        exact .inl ⟨hz,ht,ho,by rw [ho, ht]; rfl⟩
      · rename_i hf
        have hf := Bool.eq_false_iff.mpr hf
        have ho : c.cooked = true := Bool.eq_true_of_not_eq_false fun h => hv (hf.trans h.symm)
        exact .inr (.inl ⟨hz,hf,ho,by rw [ho, hf]⟩)
    · rename_i hz
      exact .inr (.inr (.inr ⟨fun h => absurd h hz,fun _ _ => hv,rfl⟩))
  · rename_i hv
    have hv := Decidable.not_not.mp hv
    split
    · rename_i hz
      split
      · rename_i hp
        exact .inr (.inr (.inl ⟨hz,by simpa using hp,hv,rfl⟩))
      · rename_i hp
        exact .inr (.inr (.inr ⟨fun h => absurd h hz,fun _ h => absurd h (by simpa using hp),rfl⟩))
    · rename_i hz
      exact .inr (.inr (.inr ⟨fun _ => hv.symm,fun h => absurd h hz,rfl⟩))

theorem asym_quiet {debounceMs : BitVec 7} {p : Passes AsymCounter Bool}
    (htransfer : p.transfer = transferAsym debounceMs) : Quiet p AsymSettled := by
  intro v c hfit
  rw [htransfer]
  rcases transferAsym_cases debounceMs v c with ⟨hz,ht,ho,-⟩ | ⟨hz,hf,ho,-⟩ | ⟨hn,hp,hv,-⟩ | ⟨-,-,he⟩
  · exact absurd (hfit.1 hz) (by rw [ht, ho]; decide)
  · exact absurd (hfit.1 hz) (by rw [hf, ho]; decide)
  · obtain ⟨ho,hf⟩ := hfit.2 hn hp
    rw [hf, ho] at hv
    cases hv
  · exact he

theorem updateAsym_releasing {v₀ : Bool} {c : Cell AsymCounter Bool} (hfit : AsymSettled v₀ c)
    (e : UInt8) (v : Bool) (hn : (updateAsym e v c).1.counter.time ≠ 0)
    (hp : (updateAsym e v c).1.counter.pressed = false) :
    (updateAsym e v c).1.cooked = true := by
  rcases updateAsym_cases e v c with ⟨-,he⟩ | ⟨-,-,-,he⟩ | ⟨-,-,-,he⟩ | ⟨hn',-,time,-,-,he⟩
  · rw [he] at hn hp ⊢
    exact (hfit.2 hn hp).1
  · simp [he] at hn
  · simp [he] at hn
  · rw [he] at hp ⊢
    exact (hfit.2 hn' hp).1

theorem asym_lawful {debounceMs : BitVec 7} (hD : debounceMs ≠ 0) {p : Passes AsymCounter Bool}
    (hupdate : p.updateCounter = updateAsym) (htransfer : p.transfer = transferAsym debounceMs) :
    Lawful p AsymCounter.left AsymSettled where
  idle := by
    intro e v c hz
    rw [hupdate]
    rcases updateAsym_cases e v c with ⟨-,he⟩ | ⟨hn,-⟩ | ⟨hn,-⟩ | ⟨hn,-⟩
    · exact he
    all_goals exact absurd hz (AsymCounter.left_ne_zero.mpr hn)
  wait := by
    intro v c
    rw [hupdate]
    rcases updateAsym_cases 0 v c with ⟨-,he⟩ | ⟨hn,hle,-⟩ | ⟨hn,hle,-⟩ | ⟨-,-,time,ht,-,he⟩
    · exact ⟨by rw [he],by rw [he]; rfl⟩
    · exact absurd (Nat.le_zero.mp hle) (AsymCounter.left_ne_zero.mpr hn)
    · exact absurd (Nat.le_zero.mp hle) (AsymCounter.left_ne_zero.mpr hn)
    · obtain rfl : time = c.counter.time := BitVec.eq_of_toNat_eq ht
      exact ⟨by rw [he],by rw [he]; rfl⟩
  running := by
    intro e v c
    rw [hupdate, AsymCounter.left_ne_zero]
    rcases updateAsym_cases e v c with ⟨hz,he⟩ | ⟨-,-,-,he⟩ | ⟨-,-,-,he⟩ | ⟨-,-,time,-,-,he⟩
    · rw [he]
      exact fun hn => absurd hz hn
    all_goals simp [he]
  started := by
    intro v c
    rw [htransfer, AsymCounter.left_ne_zero, AsymCounter.left_ne_zero]
    rcases transferAsym_cases debounceMs v c with ⟨-,-,-,he⟩ | ⟨-,-,-,he⟩ | ⟨-,-,-,he⟩ | ⟨-,-,he⟩
    · simp [he]
    · simp [he]
    · simp [he]
    · rw [he]
      exact .inl
  fit := by
    intro e v₀ v c hfit
    rw [hupdate, htransfer]
    have hwait := updateAsym_releasing hfit e v
    generalize (updateAsym e v c).1 = u at hwait
    rcases transferAsym_cases debounceMs v u with
      ⟨-,-,-,he⟩ | ⟨-,hf,-,he⟩ | ⟨-,-,hv,he⟩ | ⟨hz,hn,he⟩ <;> rw [he]
    · exact ⟨fun h => absurd h hD,nofun⟩
    · exact ⟨fun h => absurd h hD,fun _ _ => ⟨rfl,hf⟩⟩
    · exact ⟨fun _ => hv.symm,fun h => absurd rfl h⟩
    · refine ⟨hz,fun ht hp => ⟨hwait ht hp,?_⟩⟩
      exact Bool.eq_false_iff.mpr fun hv => hn ht hp (hv.trans (hwait ht hp).symm)
  due := by
    intro e v c hfit
    rw [hupdate]
    rcases updateAsym_cases e v c with ⟨-,he⟩ | ⟨-,-,-,he⟩ | ⟨-,-,-,he⟩ | ⟨hn,-,time,-,hz,he⟩
    · rw [he]
      exact fun _ => hfit
    · simp [he]
    · rw [he]
      exact fun _ => ⟨fun _ => rfl,fun h => absurd rfl h⟩
    · rw [he]
      exact fun _ => ⟨fun h => absurd h hz,fun _ => hfit.2 hn⟩
  stopped := by
    intro v c hfit _
    exact asym_quiet htransfer v c hfit
  noRequest := by
    intro v c
    rw [htransfer]
    rcases transferAsym_cases debounceMs v c with ⟨-,-,-,he⟩ | ⟨-,-,-,he⟩ | ⟨-,-,-,he⟩ | ⟨-,-,he⟩
      <;> simp [he, Flags.none]
  updated := by
    intro e v c
    rw [hupdate]
    rcases updateAsym_cases e v c with ⟨-,he⟩ | ⟨-,-,-,he⟩ | ⟨-,-,-,he⟩ | ⟨-,-,time,-,-,he⟩
      <;> simp [he, Flags.none]
  transferred := by
    intro v c
    rw [htransfer]
    rcases transferAsym_cases debounceMs v c with ⟨-,-,ho,he⟩ | ⟨-,-,ho,he⟩ | ⟨-,-,-,he⟩ | ⟨-,-,he⟩
    · simp [he, ho]
    · simp [he, ho, Flags.none]
    · simp [he, Flags.none]
    · simp [he, Flags.none]
  takes := by
    intro e v c
    rw [hupdate]
    rcases updateAsym_cases e v c with ⟨-,he⟩ | ⟨-,-,-,he⟩ | ⟨-,-,-,he⟩ | ⟨-,-,time,-,-,he⟩
      <;> simp [he]
  keeps := by
    intro v c hv
    rw [htransfer]
    rcases transferAsym_cases debounceMs v c with ⟨-,ht,-,he⟩ | ⟨-,hf,ho,-⟩ | ⟨-,-,-,he⟩ | ⟨-,-,he⟩
    · rw [he, ht]
    · rw [hv, hf] at ho
      cases ho
    · rw [he]
      exact hv
    · rw [he]
      exact hv

theorem asym_locks {debounceMs : BitVec 7} {p : Passes AsymCounter Bool}
    (hupdate : p.updateCounter = updateAsym) (htransfer : p.transfer = transferAsym debounceMs) :
    Locks p AsymCounter.left fun c => c.counter.pressed = true where
  counts := by
    intro e v c hp hlt
    rw [hupdate]
    rcases updateAsym_cases e v c with ⟨hz,-⟩ | ⟨-,hle,-⟩ | ⟨-,hle,-⟩ | ⟨-,-,time,ht,-,he⟩
    · exact absurd hz (AsymCounter.left_ne_zero.mp (Nat.ne_zero_of_lt hlt))
    · exact absurd hlt (Nat.not_lt.mpr hle)
    · exact absurd hlt (Nat.not_lt.mpr hle)
    · rw [he]
      exact ⟨hp,rfl,ht⟩
  holds := by
    intro v c hp hn
    have hn := AsymCounter.left_ne_zero.mp hn
    rw [htransfer]
    rcases transferAsym_cases debounceMs v c with ⟨hz,-⟩ | ⟨hz,-⟩ | ⟨-,hp',-⟩ | ⟨-,-,he⟩
    · exact absurd hz hn
    · exact absurd hz hn
    · rw [hp] at hp'
      cases hp'
    · rw [he]

/-- What an eager algorithm promises: after a call a cell whose counter has elapsed is what its
raw value is; a call returns true exactly if a cell changed; and a cell that flipped at once does
not flip again before `debounceMs` milliseconds were measured. -/
def EagerSpec [DecidableEq ι] [Fintype ι] [DecidableEq α] (p : Passes γ α) (zero : γ)
    (left : γ → Nat) (debounceMs : Nat) (AtOnce : α → Prop) (order : LoopOrder ι) : Prop :=
  ∀ (w : Nat) (m : ι → α) (calls : List (Call α ι w)) (c : Call α ι w),
    let after := fun more => run p order (start zero m) (calls ++ more)
    let cooked := fun more k => ((after more).cells k).cooked
    (∀ k, left ((after [c]).cells k).counter = 0 → cooked [c] k = c.raw k)
      ∧ ((after [c]).returned = true ↔ ∃ k, cooked [c] k ≠ cooked [] k)
      ∧ ∀ k, cooked [c] k ≠ cooked [] k → AtOnce (cooked [c] k) →
        ∀ mid d, cooked (c :: mid ++ [d]) k ≠ cooked (c :: mid) k →
          debounceMs ≤ measured c.now (mid ++ [d])

section
variable [DecidableEq ι] [Fintype ι] [DecidableEq α] {p : Passes γ α} {left : γ → Nat}
  {Fit : α → Cell γ α → Prop} {Locked : Cell γ α → Prop} (order : LoopOrder ι)

theorem run_locked (hp : Lawful p left Fit) (hq : Quiet p Fit) (hl : Locks p left Locked)
    {D : Nat} {r : Run γ α ι w} (hr : Between left Fit r) {k : ι} (hk : Locked (r.cells k))
    (hD : D ≤ left (r.cells k).counter) (calls : List (Call α ι w)) :
    let c' := (run p order r calls).cells k
    (c'.cooked = (r.cells k).cooked ∧ Locked c' ∧ D ≤ left c'.counter+measured r.time calls)
      ∨ D ≤ measured r.time calls := by
  induction calls using List.reverseRecOn with
  | nil => exact .inl ⟨rfl,hk,hD⟩
  | append_singleton calls c ih =>
    have hb := run_between order hp hr calls
    rw [measured_snoc (p := p) order r r.time rfl, run_snoc, call_stepped order hp hq hb]
    rcases ih with ⟨hc,hlock,ht⟩ | ht
    · rcases stepped_locked hl hlock ht (run p order r calls).time c.now (c.raw k) with
        ⟨hc',h⟩ | h
      · exact .inl ⟨hc'.trans hc,h⟩
      · exact .inr h
    · exact .inr (by omega)

theorem eagerSpec (hp : Lawful p left Fit) (hq : Quiet p Fit) (hl : Locks p left Locked)
    {zero : γ} (hz : left zero = 0) (hzero : ∀ v, Fit v ⟨zero,v⟩)
    (hsettled : ∀ v c, Fit v c → left c.counter = 0 → c.cooked = v)
    {D : Nat} {AtOnce : α → Prop}
    (hflip : ∀ e v₀ v c, Fit v₀ c → let c' := (p.transfer v (p.updateCounter e v c).1).1
      c'.cooked ≠ c.cooked → AtOnce c'.cooked → Locked c' ∧ left c'.counter = D) :
    EagerSpec p zero left D AtOnce order := by
  intro w m calls c after cooked
  have hb := run_between order hp (start_between (w := w) zero m hz hzero) calls
  obtain ⟨hcall,hb'⟩ := call_spec order hp hb c
  have hnil : after [] = run p order (start zero m) calls :=
    congrArg (run p order _) (List.append_nil calls)
  have hone : after [c] = call p order (run p order (start zero m) calls) c :=
    run_snoc order _ calls c
  refine ⟨fun k hk => ?_,?_,fun k hne hat mid d hagain => ?_⟩
  · show ((after [c]).cells k).cooked = c.raw k
    rw [hone] at hk ⊢
    exact hsettled _ _ (hcall.raw ▸ hb'.fit k) hk
  · show (after [c]).returned = true ↔ ∃ k, ((after [c]).cells k).cooked ≠ ((after []).cells k).cooked
    rw [hone, hnil]
    exact hcall.returned
  · have hmore : ∀ more, after (c :: more) = run p order (after [c]) more := by
      intro more
      rw [hone, ← run_snoc, ← run_append, List.append_assoc]
      rfl
    have hstep := call_stepped order hp hq hb c k
    obtain ⟨hlock,hleft⟩ : Locked ((after [c]).cells k) ∧ left ((after [c]).cells k).counter = D := by
      rw [hone, hstep]
      refine hflip _ _ _ _ (hb.fit k) ?_ ?_
      · have hne : ((after [c]).cells k).cooked ≠ ((after []).cells k).cooked := hne
        rw [hone, hnil, hstep] at hne
        exact hne
      · have hat : AtOnce ((after [c]).cells k).cooked := hat
        rw [hone, hstep] at hat
        exact hat
    have htime : (after [c]).time = c.now := hone ▸ hcall.time
    have hba : Between left Fit (after [c]) := hone ▸ hb'
    have hlast := run_locked order hp hq hl hba hlock hleft.ge mid
    have hsnoc := run_snoc (p := p) order (after [c]) mid d
    rw [← htime, measured_snoc (p := p) order (after [c]) _ rfl]
    rcases hlast with ⟨-,hlock',ht⟩ | ht
    · rcases stepped_locked hl hlock' ht (run p order (after [c]) mid).time d.now (d.raw k) with
        ⟨hsame,-⟩ | h
      · refine absurd ?_ hagain
        show ((after (c :: mid ++ [d])).cells k).cooked = ((after (c :: mid)).cells k).cooked
        rw [List.cons_append, hmore (mid ++ [d]), hmore mid, hsnoc,
          call_stepped order hp hq (run_between order hp hba mid)]
        exact hsame
      · exact h
    · omega

end

theorem symEager_flip [DecidableEq α] {debounceMs : UInt8} {p : Passes UInt8 α}
    (hupdate : ∀ e v c, p.updateCounter e v c = updateCounter e c)
    (htransfer : ∀ v c, p.transfer v c = transferPr debounceMs v c) (e : UInt8) (v : α)
    (c : Cell UInt8 α) (h : (p.transfer v (p.updateCounter e v c).1).1.cooked ≠ c.cooked) :
    (p.transfer v (p.updateCounter e v c).1).1.counter = debounceMs := by
  rw [hupdate, htransfer] at h ⊢
  have hkeep : (updateCounter e c).1.cooked = c.cooked := by
    rcases updateCounter_cases e c with ⟨-,he⟩ | ⟨-,-,he⟩ | ⟨-,-,he⟩ <;> rw [he]
  rcases transferPr_cases debounceMs v (updateCounter e c).1 with ⟨-,-,he⟩ | ⟨-,he⟩
  · rw [he]
  · rw [he] at h
    exact absurd hkeep h

theorem asym_flip {debounceMs : BitVec 7} {p : Passes AsymCounter Bool}
    (hupdate : p.updateCounter = updateAsym) (htransfer : p.transfer = transferAsym debounceMs)
    (e : UInt8) {v₀ v : Bool} {c : Cell AsymCounter Bool} (hfit : AsymSettled v₀ c)
    (h : (p.transfer v (p.updateCounter e v c).1).1.cooked ≠ c.cooked)
    (hpress : (p.transfer v (p.updateCounter e v c).1).1.cooked = true) :
    (p.transfer v (p.updateCounter e v c).1).1.counter = ⟨true,debounceMs⟩ := by
  rw [hupdate, htransfer] at h hpress ⊢
  have hc : c.cooked = false := Bool.eq_false_iff.mpr fun hc => h (hpress.trans hc.symm)
  have hkeep : (updateAsym e v c).1.cooked = false := by
    rcases updateAsym_cases e v c with ⟨-,he⟩ | ⟨-,-,-,he⟩ | ⟨hn,-,hp,-⟩ | ⟨-,-,time,-,-,he⟩
    · rw [he, hc]
    · rw [he, hc]
    · exact absurd (hfit.2 hn hp).1 (by rw [hc]; decide)
    · rw [he, hc]
  rcases transferAsym_cases debounceMs v (updateAsym e v c).1 with
    ⟨-,-,-,he⟩ | ⟨-,-,ho,-⟩ | ⟨-,-,-,he⟩ | ⟨-,-,he⟩
  · rw [he]
  · rw [hkeep] at ho
    cases ho
  · rw [he, hkeep] at hpress
    cases hpress
  · rw [he, hkeep] at hpress
    cases hpress

theorem symEager_spec [DecidableEq ι] [Fintype ι] [DecidableEq α] (order : LoopOrder ι)
    {DEBOUNCE : Nat} (hD : 0 < DEBOUNCE) {p : Passes UInt8 α}
    (hupdate : ∀ e v c, p.updateCounter e v c = updateCounter e c)
    (htransfer : ∀ v c, p.transfer v c
      = transferPr (UInt8.ofNat (debounceMs 255 DEBOUNCE)) v c) :
    EagerSpec p 0 UInt8.toNat (debounceMs 255 DEBOUNCE) (fun _ => True) order := by
  refine eagerSpec order (symEager_lawful (debounceMs_ne_zero hD) hupdate htransfer)
    (symEager_quiet htransfer) (symEager_locks hupdate htransfer) rfl (fun v _ => rfl)
    (fun v c h hz => h (UInt8.toNat_inj.mp hz)) ?_
  intro e _ v c _ c' hne _
  refine ⟨trivial,?_⟩
  rw [symEager_flip hupdate htransfer e v c hne, debounceMs_toNat]

/-- sym_eager_pk, sym_eager_pr and asym_eager_defer_pk, called any number of times with exact
`changed` flags. Of the last one only presses are made at once. -/
theorem eager_spec (rows cols bits DEBOUNCE : Nat) (hD : 0 < DEBOUNCE) :
    EagerSpec (symEagerPk DEBOUNCE) 0 UInt8.toNat (debounceMs 255 DEBOUNCE) (fun _ => True)
        (.nested rows cols)
      ∧ EagerSpec (symEagerPr bits DEBOUNCE) 0 UInt8.toNat (debounceMs 255 DEBOUNCE)
        (fun _ => True) (.single rows)
      ∧ EagerSpec (asymEagerDeferPk DEBOUNCE) ⟨false,0⟩ AsymCounter.left
        (debounceMs 127 DEBOUNCE) (fun cooked => cooked = true) (.nested rows cols) := by
  have hms : (BitVec.ofNat 7 (debounceMs 127 DEBOUNCE)).toNat = debounceMs 127 DEBOUNCE := by
    have := Nat.min_le_right DEBOUNCE 127
    rw [BitVec.toNat_ofNat]
    exact Nat.mod_eq_of_lt (Nat.lt_succ_of_le this)
  have hne : BitVec.ofNat 7 (debounceMs 127 DEBOUNCE) ≠ 0 := by
    intro h
    have hpos := debounceMs_pos hD (show 0 < 127 by decide)
    rw [← hms, h] at hpos
    exact absurd hpos (by decide)
  refine ⟨symEager_spec _ hD (fun _ _ _ => rfl) (transferPk_eq _),
    symEager_spec _ hD (fun _ _ _ => rfl) (fun _ _ => rfl),?_⟩
  refine eagerSpec _ (asym_lawful hne rfl rfl) (asym_quiet rfl) (asym_locks rfl rfl) rfl
    (fun v => ⟨fun _ => rfl,fun h => absurd rfl h⟩)
    (fun v c h hz => h.1 (BitVec.eq_of_toNat_eq hz)) ?_
  intro e _ v c hfit c' hch hpress
  have hcounter : c'.counter = ⟨true,BitVec.ofNat 7 (debounceMs 127 DEBOUNCE)⟩ :=
    asym_flip (p := asymEagerDeferPk DEBOUNCE) rfl rfl e hfit hch hpress
  rw [hcounter]
  exact ⟨rfl,hms⟩

/-- A key pressed at 10 that bounces at 12 is let go at 15, after five milliseconds. -/
theorem eager_spec_bounce :
    let set : Bool → BitVec 16 → Call Bool (Fin 2 × Fin 2) 16 := fun v now =>
      ⟨fun k => k == (0,1) && v,now⟩
    let cooked := fun calls =>
      ((run (symEagerPk 5) (.nested 2 2) (start 0 fun _ => false) calls).cells (0,1)).cooked
    cooked [] = false ∧ cooked [set true 10] = true ∧ cooked [set true 10,set false 12] = true
      ∧ cooked [set true 10,set false 12,set false 15] = false
      ∧ 5 ≤ measured 10 [set false 12,set false 15] := by
  intro set cooked
  have h₀ : cooked [] = false := by decide +kernel
  have h₁ : cooked [set true 10] = true := by decide +kernel
  have h₂ : cooked [set true 10,set false 12] = true := by decide +kernel
  have h₃ : cooked [set true 10,set false 12,set false 15] = false := by decide +kernel
  have hspec := ((eager_spec 2 2 2 5 (by decide)).1 16 (fun _ => false) [] (set true 10)).2.2
  refine ⟨h₀,h₁,h₂,h₃,hspec (0,1) ?_ trivial [set false 12] (set false 15) ?_⟩
  · show cooked [set true 10] ≠ cooked []
    rw [h₀, h₁]
    decide
  · show cooked [set true 10,set false 12,set false 15] ≠ cooked [set true 10,set false 12]
    rw [h₂, h₃]
    decide

end QmkFirmware.Debounce
