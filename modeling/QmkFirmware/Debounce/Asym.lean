import QmkFirmware.Debounce.Eager

/-!
asym_eager_defer_pk: a press is taken at once and locks the key, a release when the key has been up
for `DEBOUNCE` milliseconds after that.
-/

set_option autoImplicit false

namespace QmkFirmware.Debounce

inductive AsymStep (D : Nat) (n : Nat) (v : Bool) (c c' : Cell AsymCounter Bool) : Prop where
  | press : c.counter.time = 0 → c.cooked = false → v = true → c'.cooked = true →
      c'.counter.pressed = true → c'.counter.left = D → AsymStep D n v c c'
  | release : c.cooked = true → v = false →
      (c.counter.time = 0 ∨ c.counter.pressed = true ∧ c.counter.left ≤ n) → c'.cooked = true →
      c'.counter.pressed = false → c'.counter.left = D → AsymStep D n v c c'
  | locked : c.counter.time ≠ 0 → c.counter.pressed = true → n < c.counter.left →
      c'.cooked = c.cooked → c'.counter.pressed = true → c'.counter.left = c.counter.left-n →
      AsymStep D n v c c'
  | waiting : c.counter.time ≠ 0 → c.counter.pressed = false → n < c.counter.left → v = false →
      c'.cooked = c.cooked → c'.counter.pressed = false → c'.counter.left = c.counter.left-n →
      AsymStep D n v c c'
  | released : c.counter.time ≠ 0 → c.counter.pressed = false → c.counter.left ≤ n → v = false →
      c'.cooked = false → c'.counter.left = 0 → AsymStep D n v c c'
  | settled : (c.counter.time = 0 ∨ c.counter.pressed = true ∧ c.counter.left ≤ n
        ∨ c.counter.pressed = false ∧ v = true) → v = c.cooked → c'.cooked = c.cooked →
      c'.counter.left = 0 → AsymStep D n v c c'

theorem asymMs_left (DEBOUNCE : Nat) (pressed : Bool) :
    AsymCounter.left ⟨pressed,BitVec.ofNat 7 (debounceMs 127 DEBOUNCE)⟩
      = debounceMs 127 DEBOUNCE := by
  have : debounceMs 127 DEBOUNCE ≤ 127 := Nat.min_le_right _ _
  rw [AsymCounter.left, BitVec.toNat_ofNat]
  omega

theorem stepped_asym {w : Nat} (DEBOUNCE : Nat) (last now : BitVec w) (v : Bool)
    {c : Cell AsymCounter Bool} (hc : c.counter.time ≠ 0 → c.cooked = true) :
    AsymStep (debounceMs 127 DEBOUNCE) (now-last).toNat v c
      (stepped (asymEagerDeferPk DEBOUNCE) last now v c) := by
  have he : (elapsed (asymEagerDeferPk DEBOUNCE) last now).toNat = min (now-last).toNat 127 :=
    elapsed_toNat _ _ _
  have hmax := c.counter.time.isLt
  have hleft : c.counter.left = c.counter.time.toNat := rfl
  rw [stepped, counted]
  change AsymStep _ _ _ _ (transferAsym _ v (updateAsym _ v c).1).1
  generalize elapsed (asymEagerDeferPk DEBOUNCE) last now = e at he
  rcases updateAsym_cases e v c with ⟨hz, hu⟩ | ⟨hn, hle, hp, hu⟩ | ⟨hn, hle, hp, hu⟩ |
    ⟨hn, hlt, time, ht, ht0, hu⟩ <;> rw [hu]
  · rcases transferAsym_cases (BitVec.ofNat 7 (debounceMs 127 DEBOUNCE)) v c with
      ⟨-, hv, ho, he⟩ | ⟨-, hv, ho, he⟩ | ⟨hn, -⟩ | ⟨hs, -, he⟩
    · rw [he]
      exact .press hz ho hv rfl rfl (asymMs_left _ _)
    · rw [he]
      exact .release ho hv (.inl hz) rfl rfl (asymMs_left _ _)
    · exact absurd hz hn
    · rw [he]
      exact .settled (.inl hz) (hs hz).symm rfl (by rw [AsymCounter.left, hz]; rfl)
  · have hln : c.counter.left ≤ (now-last).toNat := by omega
    rcases transferAsym_cases (BitVec.ofNat 7 (debounceMs 127 DEBOUNCE)) v
        ⟨{ c.counter with time := 0 },c.cooked⟩ with
      ⟨-, hv, ho, -⟩ | ⟨-, hv, ho, he⟩ | ⟨h0, -⟩ | ⟨hs, -, he⟩
    · exact absurd (hc hn) (by rw [show c.cooked = false from ho]; decide)
    · rw [he]
      exact .release ho hv (.inr ⟨hp, hln⟩) rfl rfl (asymMs_left _ _)
    · exact absurd rfl h0
    · rw [he]
      exact .settled (.inr (.inl ⟨hp, hln⟩)) (hs rfl).symm rfl rfl
  · have hln : c.counter.left ≤ (now-last).toNat := by omega
    rcases transferAsym_cases (BitVec.ofNat 7 (debounceMs 127 DEBOUNCE)) v
        ⟨{ c.counter with time := 0 },v⟩ with
      ⟨-, hv, ho, -⟩ | ⟨-, hv, ho, -⟩ | ⟨h0, -⟩ | ⟨-, -, he⟩
    · exact absurd (hv.symm.trans ho) (by decide)
    · exact absurd (hv.symm.trans ho) (by decide)
    · exact absurd rfl h0
    · rw [he]
      cases v with
      | true => exact .settled (.inr (.inr ⟨hp, rfl⟩)) (hc hn).symm (hc hn).symm rfl
      | false => exact .released hn hp hln rfl rfl rfl
  · have hnl : (now-last).toNat < c.counter.left := by omega
    have hleft' : AsymCounter.left ⟨c.counter.pressed,time⟩ = c.counter.left-(now-last).toNat := by
      rw [AsymCounter.left, ht]
      omega
    rcases transferAsym_cases (BitVec.ofNat 7 (debounceMs 127 DEBOUNCE)) v
        ⟨{ c.counter with time },c.cooked⟩ with
      ⟨h0, -⟩ | ⟨h0, -⟩ | ⟨-, hp, hv, he⟩ | ⟨-, hs, he⟩
    · exact absurd h0 ht0
    · exact absurd h0 ht0
    · rw [he]
      exact .settled (.inr (.inr ⟨hp, hv.trans (hc hn)⟩)) hv rfl rfl
    · rw [he]
      cases hp : c.counter.pressed with
      | true => exact .locked hn hp hnl rfl hp hleft'
      | false =>
        have hv : v = false := Bool.eq_false_iff.mpr fun h => hs ht0 hp (h.trans (hc hn).symm)
        exact .waiting hn hp hnl hv rfl hp hleft'

section
variable {ι : Type} {w : Nat} [DecidableEq ι] [Fintype ι]

/-- The debounced value of a key after these calls. -/
def cookedAfter (DEBOUNCE : Nat) (order : LoopOrder ι) (m : ι → Bool) (k : ι)
    (calls : List (Call Bool ι w)) : Bool :=
  ((run (asymEagerDeferPk DEBOUNCE) order (start ⟨false,0⟩ m) calls).cells k).cooked

variable (DEBOUNCE : Nat) (order : LoopOrder ι) (m : ι → Bool) (k : ι)

def Pressed (calls : List (Call Bool ι w)) (c : Call Bool ι w) : Prop :=
  cookedAfter DEBOUNCE order m k calls = false
    ∧ cookedAfter DEBOUNCE order m k (calls ++ [c]) = true

/-- Every press of the key was reported at least `t` milliseconds ago. With `DEBOUNCE` for `t` its
lockout has expired. -/
def Aged (calls : List (Call Bool ι w)) (t : Nat) : Prop :=
  ∀ before press since, calls = before ++ press :: since →
    Pressed DEBOUNCE order m k before press → t ≤ measured press.now since

/-- The last calls, from one on at which the lockout has expired, all find the key up, and `t`
milliseconds were measured after the first of these calls. -/
def UpSince (calls : List (Call Bool ι w)) (t : Nat) : Prop :=
  ∃ pre first window, calls = pre ++ first :: window ∧ (∀ c ∈ first :: window, c.raw k = false)
    ∧ t ≤ measured first.now window
    ∧ Aged DEBOUNCE order m k (pre ++ [first]) (debounceMs 127 DEBOUNCE)

variable {DEBOUNCE order m k}

theorem aged_snoc {calls : List (Call Bool ι w)} {c : Call Bool ι w} {t : Nat} :
    Aged DEBOUNCE order m k (calls ++ [c]) t ↔ (Pressed DEBOUNCE order m k calls c → t = 0)
      ∧ Aged DEBOUNCE order m k calls
        (t-(c.now-(run (asymEagerDeferPk DEBOUNCE) order (start ⟨false,0⟩ m) calls).time).toNat) := by
  have hlater : ∀ before press since, calls = before ++ press :: since →
      measured press.now (since ++ [c]) = measured press.now since
        +(c.now-(run (asymEagerDeferPk DEBOUNCE) order (start ⟨false,0⟩ m) calls).time).toNat := by
    rintro before press since rfl
    rw [measured_snoc (p := asymEagerDeferPk DEBOUNCE) order (call (asymEagerDeferPk DEBOUNCE) order
      (run (asymEagerDeferPk DEBOUNCE) order (start ⟨false,0⟩ m) before) press) press.now rfl,
      run_append]
    rfl
  constructor
  · intro h
    refine ⟨fun hp => Nat.le_zero.mp (h calls c [] rfl hp), fun before press since heq hp => ?_⟩
    have := h before press (since ++ [c]) (by rw [heq]; simp) hp
    rw [hlater before press since heq] at this
    omega
  · rintro ⟨hnow, hold⟩ before press since heq hp
    rcases List.eq_nil_or_concat since with rfl | ⟨since', d, rfl⟩
    · obtain ⟨rfl, hc⟩ := List.append_inj' heq rfl
      obtain rfl := List.singleton_inj.mp hc
      exact (hnow hp).le
    · rw [List.concat_eq_append] at heq ⊢
      rw [← List.cons_append, ← List.append_assoc] at heq
      obtain ⟨hcalls, hd⟩ := List.append_inj' heq rfl
      obtain rfl := List.singleton_inj.mp hd
      have := hold before press since' hcalls hp
      rw [hlater before press since' hcalls]
      omega

theorem upSince_snoc {calls : List (Call Bool ι w)} {c : Call Bool ι w} {t : Nat} :
    UpSince DEBOUNCE order m k (calls ++ [c]) t ↔ c.raw k = false
      ∧ ((t = 0 ∧ Aged DEBOUNCE order m k (calls ++ [c]) (debounceMs 127 DEBOUNCE))
        ∨ ∃ t', UpSince DEBOUNCE order m k calls t' ∧ t ≤ t'
          +(c.now-(run (asymEagerDeferPk DEBOUNCE) order (start ⟨false,0⟩ m) calls).time).toNat) := by
  have hlater : ∀ pre first window, calls = pre ++ first :: window →
      measured first.now (window ++ [c]) = measured first.now window
        +(c.now-(run (asymEagerDeferPk DEBOUNCE) order (start ⟨false,0⟩ m) calls).time).toNat := by
    rintro pre first window rfl
    rw [measured_snoc (p := asymEagerDeferPk DEBOUNCE) order (call (asymEagerDeferPk DEBOUNCE) order
      (run (asymEagerDeferPk DEBOUNCE) order (start ⟨false,0⟩ m) pre) first) first.now rfl,
      run_append]
    rfl
  constructor
  · rintro ⟨pre, first, window, heq, hup, ht, haged⟩
    rcases List.eq_nil_or_concat window with rfl | ⟨window', d, rfl⟩
    · obtain ⟨rfl, hc⟩ := List.append_inj' heq rfl
      obtain rfl := List.singleton_inj.mp hc
      exact ⟨hup _ List.mem_cons_self, .inl ⟨Nat.le_zero.mp ht, haged⟩⟩
    · rw [List.concat_eq_append] at heq hup ht
      rw [← List.cons_append, ← List.append_assoc] at heq
      obtain ⟨hcalls, hd⟩ := List.append_inj' heq rfl
      obtain rfl := List.singleton_inj.mp hd
      refine ⟨hup c (by simp), .inr ⟨measured first.now window', ⟨pre, first, window', hcalls,
        fun d hd => hup d ?_, le_rfl, haged⟩, ?_⟩⟩
      · rw [← List.cons_append]
        exact List.mem_append_left _ hd
      · rwa [hlater pre first window' hcalls] at ht
  · rintro ⟨hc, ⟨rfl, haged⟩ | ⟨t', ⟨pre, first, window, heq, hup, ht', haged⟩, ht⟩⟩
    · exact ⟨calls, c, [], rfl, by simpa using hc, Nat.zero_le _, haged⟩
    · refine ⟨pre, first, window ++ [c], by rw [heq]; simp, ?_, ?_, haged⟩
      · rw [← List.cons_append]
        intro d hd
        rcases List.mem_append.mp hd with hd | hd
        · exact hup d hd
        · exact List.mem_singleton.mp hd ▸ hc
      · rw [hlater pre first window heq]
        omega

theorem Aged.mono {calls : List (Call Bool ι w)} {t u : Nat}
    (h : Aged DEBOUNCE order m k calls t) (hle : u ≤ t) : Aged DEBOUNCE order m k calls u :=
  fun before press since heq hp => hle.trans (h before press since heq hp)

structure Tells (DEBOUNCE : Nat) (order : LoopOrder ι) (m : ι → Bool) (k : ι)
    (calls : List (Call Bool ι w)) (c : Cell AsymCounter Bool) : Prop where
  bound : c.counter.left ≤ debounceMs 127 DEBOUNCE
  busy : c.counter.left ≠ 0 → c.cooked = true
  locked : c.counter.left ≠ 0 → c.counter.pressed = true → ∀ t,
    Aged DEBOUNCE order m k calls t ↔ t+c.counter.left ≤ debounceMs 127 DEBOUNCE
  free : (c.counter.left ≠ 0 → c.counter.pressed = false) →
    Aged DEBOUNCE order m k calls (debounceMs 127 DEBOUNCE)
  up : c.cooked = true → ∀ t, UpSince DEBOUNCE order m k calls t ↔
    c.counter.left ≠ 0 ∧ c.counter.pressed = false
      ∧ t+c.counter.left ≤ debounceMs 127 DEBOUNCE

theorem Tells.expired {calls : List (Call Bool ι w)} {c : Cell AsymCounter Bool}
    (h : Tells DEBOUNCE order m k calls c) {n : Nat}
    (hover : c.counter.left = 0 ∨ c.counter.pressed = true ∧ c.counter.left ≤ n
      ∨ c.counter.pressed = false) :
    Aged DEBOUNCE order m k calls (debounceMs 127 DEBOUNCE-n) := by
  by_cases hl : c.counter.left = 0
  · exact (h.free fun hn => absurd hl hn).mono (Nat.sub_le _ _)
  · cases hp : c.counter.pressed with
    | false => exact (h.free fun _ => hp).mono (Nat.sub_le _ _)
    | true =>
      have hle : c.counter.left ≤ n := by
        rcases hover with h0 | ⟨-, hle⟩ | hf
        · exact absurd h0 hl
        · exact hle
        · exact absurd (hp.symm.trans hf) (by decide)
      have hb := h.bound
      exact (h.locked hl hp _).mpr (by omega)

theorem tells_call {calls : List (Call Bool ι w)} {call : Call Bool ι w}
    {c c' : Cell AsymCounter Bool} (hD : 0 < debounceMs 127 DEBOUNCE)
    (h : Tells DEBOUNCE order m k calls c)
    (hs : AsymStep (debounceMs 127 DEBOUNCE)
      (call.now-(run (asymEagerDeferPk DEBOUNCE) order (start ⟨false,0⟩ m) calls).time).toNat
      (call.raw k) c c')
    (hc : cookedAfter DEBOUNCE order m k calls = c.cooked)
    (hc' : cookedAfter DEBOUNCE order m k (calls ++ [call]) = c'.cooked) :
    Tells DEBOUNCE order m k (calls ++ [call]) c' ∧ (c.cooked = true →
      (c'.cooked = false ↔ UpSince DEBOUNCE order m k (calls ++ [call])
        (debounceMs 127 DEBOUNCE))) := by
  have haged := fun t => @aged_snoc ι w _ _ DEBOUNCE order m k calls call t
  have hup := fun t => @upSince_snoc ι w _ _ DEBOUNCE order m k calls call t
  generalize (call.now-(run (asymEagerDeferPk DEBOUNCE) order
    (start ⟨false,0⟩ m) calls).time).toNat = n at hs haged hup
  have hpressed : Pressed DEBOUNCE order m k calls call ↔ c.cooked = false ∧ c'.cooked = true := by
    rw [Pressed, hc, hc']
  -- with the debounced value kept, no press is new
  have hold : (c.cooked = true ∨ c'.cooked = false) → ∀ t,
      Aged DEBOUNCE order m k (calls ++ [call]) t ↔ Aged DEBOUNCE order m k calls (t-n) := by
    intro hsame t
    rw [haged t, hpressed]
    refine and_iff_right fun ⟨h₁, h₂⟩ => ?_
    rcases hsame with hs | hs
    · exact absurd (hs.symm.trans h₁) (by decide)
    · exact absurd (hs.symm.trans h₂) (by decide)
  -- a key that stays down has no window long enough
  suffices ht : Tells DEBOUNCE order m k (calls ++ [call]) c' ∧ (c'.cooked = false → c.cooked = true →
      UpSince DEBOUNCE order m k (calls ++ [call]) (debounceMs 127 DEBOUNCE)) by
    refine ⟨ht.1, fun hco => ⟨fun hf => ht.2 hf hco, fun hu => ?_⟩⟩
    refine Bool.eq_false_iff.mpr fun hco' => ?_
    obtain ⟨hl, -, hle⟩ := (ht.1.up hco' _).mp hu
    omega
  have hzero : ∀ {d : Cell AsymCounter Bool}, d.counter.time = 0 → d.counter.left = 0 := fun h0 => by
    rw [AsymCounter.left, h0]
    rfl
  have hbound := h.bound
  cases hs with
  | press h0 ho hv ho' hp' hl' =>
    refine ⟨⟨hl'.le, fun _ => ho', fun _ _ t => ?_, fun hf => ?_, fun _ t => ?_⟩,
      fun hf => absurd (hf.symm.trans ho') (by decide)⟩
    · rw [haged t, hpressed, hl']
      refine ⟨fun hn => by rw [hn.1 ⟨ho, ho'⟩]; omega, fun hle => ?_⟩
      obtain rfl : t = 0 := by omega
      exact ⟨fun _ => rfl, fun _ _ _ _ _ => by omega⟩
    · exact absurd (hp'.symm.trans (hf (by omega))) (by decide)
    · rw [hup t, hv, hp']
      simp
  | release ho hv hover ho' hp' hl' =>
    have hexp : Aged DEBOUNCE order m k (calls ++ [call]) (debounceMs 127 DEBOUNCE) := by
      refine (hold (.inl ho) _).mpr (h.expired ?_)
      rcases hover with h0 | hlock
      · exact .inl (hzero h0)
      · exact .inr (.inl hlock)
    refine ⟨⟨hl'.le, fun _ => ho', fun _ hp => ?_, fun _ => hexp, fun _ t => ?_⟩,
      fun hf => absurd (hf.symm.trans ho') (by decide)⟩
    · exact absurd (hp.symm.trans hp') (by decide)
    · have hnone : ∀ t', ¬ UpSince DEBOUNCE order m k calls t' := fun t' hu => by
        obtain ⟨hl, hp, -⟩ := (h.up ho t').mp hu
        rcases hover with h0 | hlock
        · exact hl (hzero h0)
        · exact absurd (hp.symm.trans hlock.1) (by decide)
      simp only [hup t, hv, true_and, hexp, and_true, hnone, false_and, exists_false, or_false, hp']
      omega
  | locked hn hp hlt ho' hp' hl' =>
    have hl := AsymCounter.left_ne_zero.mpr hn
    have ho := h.busy hl
    have haged' : ∀ t, Aged DEBOUNCE order m k (calls ++ [call]) t
        ↔ t+c'.counter.left ≤ debounceMs 127 DEBOUNCE := fun t => by
      rw [hold (.inl ho), h.locked hl hp, hl']
      omega
    refine ⟨⟨by omega, fun _ => ho'.trans ho, fun _ _ => haged', fun hf => ?_, fun _ t => ?_⟩,
      fun hf => absurd (hf.symm.trans (ho'.trans ho)) (by decide)⟩
    · exact absurd (hp'.symm.trans (hf (by omega))) (by decide)
    · have hnone : ∀ t', ¬ UpSince DEBOUNCE order m k calls t' := fun t' hu =>
        absurd (((h.up ho t').mp hu).2.1.symm.trans hp) (by decide)
      simp only [hup t, haged', hnone, false_and, exists_false, or_false, hp', Bool.true_eq_false,
        and_false, iff_false]
      omega
  | waiting hn hp hlt hv ho' hp' hl' =>
    have hl := AsymCounter.left_ne_zero.mpr hn
    have ho := h.busy hl
    have hexp : Aged DEBOUNCE order m k (calls ++ [call]) (debounceMs 127 DEBOUNCE) :=
      (hold (.inl ho) _).mpr (h.expired (.inr (.inr hp)))
    refine ⟨⟨by omega, fun _ => ho'.trans ho, fun _ hp'' => ?_, fun _ => hexp, fun _ t => ?_⟩,
      fun hf => absurd (hf.symm.trans (ho'.trans ho)) (by decide)⟩
    · exact absurd (hp''.symm.trans hp') (by decide)
    · simp only [hup t, hv, true_and, hexp, and_true, h.up ho, hp, hp', ne_eq, hl, not_false_eq_true]
      constructor
      · rintro (rfl | ⟨t', hle, hle'⟩) <;> omega
      · intro hle
        exact .inr ⟨debounceMs 127 DEBOUNCE-c.counter.left, by omega, by omega⟩
  | released hn hp hle hv ho' hl' =>
    have hl := AsymCounter.left_ne_zero.mpr hn
    have ho := h.busy hl
    refine ⟨⟨by omega, fun hn' => absurd hl' hn', fun hn' => absurd hl' hn', fun _ => ?_,
      fun hco => absurd (hco.symm.trans ho') (by decide)⟩, fun _ _ => ?_⟩
    · exact (hold (.inl ho) _).mpr (h.expired (.inr (.inr hp)))
    · exact (hup _).mpr ⟨hv, .inr ⟨debounceMs 127 DEBOUNCE-c.counter.left,
        (h.up ho _).mpr ⟨hl, hp, by omega⟩, by omega⟩⟩
  | settled hover hv ho' hl' =>
    have hsame : c.cooked = true ∨ c'.cooked = false := by
      rw [ho']
      cases c.cooked <;> simp
    refine ⟨⟨by omega, fun hn' => absurd hl' hn', fun hn' => absurd hl' hn', fun _ => ?_,
      fun hco t => ?_⟩, fun hf ho => absurd (hf.symm.trans (ho'.trans ho)) (by decide)⟩
    · refine (hold hsame _).mpr (h.expired ?_)
      rcases hover with h0 | hlock | ⟨hp, -⟩
      · exact .inl (hzero h0)
      · exact .inr (.inl hlock)
      · exact .inr (.inr hp)
    · rw [hup t, hv, ← ho', hco, hl']
      simp

theorem asymEagerDeferPk_lawful (hD : 0 < DEBOUNCE) :
    Lawful (asymEagerDeferPk DEBOUNCE) AsymCounter.left AsymSettled
      ∧ Quiet (asymEagerDeferPk DEBOUNCE) AsymSettled := by
  refine ⟨asym_lawful (fun h0 => ?_) rfl rfl, asym_quiet rfl⟩
  have hleft := asymMs_left DEBOUNCE false
  have := debounceMs_pos hD (show 0 < 127 by decide)
  rw [h0] at hleft
  exact absurd hleft (by change 0 ≠ _; omega)

omit [DecidableEq ι] [Fintype ι] in
theorem asym_between (m : ι → Bool) :
    Between AsymCounter.left AsymSettled (start (w := w) (⟨false,0⟩ : AsymCounter) m) :=
  start_between _ m rfl fun _ => ⟨fun _ => rfl, fun h => absurd rfl h⟩

theorem run_tells (hD : 0 < DEBOUNCE) (calls : List (Call Bool ι w)) :
    Tells DEBOUNCE order m k calls
      ((run (asymEagerDeferPk DEBOUNCE) order (start ⟨false,0⟩ m) calls).cells k) := by
  obtain ⟨hp, hq⟩ := asymEagerDeferPk_lawful hD
  have hpos := debounceMs_pos hD (show 0 < 127 by decide)
  induction calls using List.reverseRecOn with
  | nil =>
    refine ⟨Nat.zero_le _, fun h => absurd rfl h, fun h => absurd rfl h, fun _ => ?_, fun _ t => ?_⟩
    · exact fun before press since heq => by simp at heq
    · refine ⟨fun ⟨pre, first, window, heq, _⟩ => by simp at heq, fun h => absurd rfl h.1⟩
  | append_singleton calls c ih =>
    have hstep := call_stepped order hp hq (run_between order hp (asym_between m) calls) c k
    rw [run_snoc]
    have hs := stepped_asym DEBOUNCE
      (run (asymEagerDeferPk DEBOUNCE) order (start ⟨false,0⟩ m) calls).time c.now (c.raw k)
      fun hn => ih.busy (AsymCounter.left_ne_zero.mpr hn)
    rw [← hstep] at hs
    exact (tells_call hpos ih hs rfl (by rw [cookedAfter, run_snoc])).1

end

/-- asym_eager_defer_pk, called any number of times with exact `changed` flags. A key's debounced
values are a function of its own raw values and of the times of the calls. A press of a key whose
counter has elapsed is taken in the same call. A release is taken exactly at the first call that
ends a window of `DEBOUNCE` milliseconds in which the key was up in every call and which began when
the lockout of the press was over; a call that finds the key down again ends the window. -/
theorem asym_spec (DEBOUNCE w : Nat) (hD : 0 < DEBOUNCE) :
    ∃ cookedOf : Bool → List (Bool × BitVec w) → Bool,
      ∀ (rows cols : Nat) (m : Fin rows × Fin cols → Bool)
        (calls : List (Call Bool (Fin rows × Fin cols) w)),
      let after := run (asymEagerDeferPk DEBOUNCE) (.nested rows cols) (start ⟨false,0⟩ m)
      let cooked := fun k => cookedAfter DEBOUNCE (.nested rows cols) m k
      (∀ k, cooked k calls = cookedOf (m k) (calls.map (Call.at k)))
        ∧ ∀ c,
          (∀ k, (((after calls).cells k).counter.time = 0 → cooked k calls = false →
              c.raw k = true → cooked k (calls ++ [c]) = true)
            ∧ (cooked k calls = true → (cooked k (calls ++ [c]) = false ↔
              UpSince DEBOUNCE (.nested rows cols) m k (calls ++ [c]) (debounceMs 127 DEBOUNCE)))
            ∧ (c.raw k = true → ∀ t, ¬ UpSince DEBOUNCE (.nested rows cols) m k (calls ++ [c]) t))
          ∧ ((after (calls ++ [c])).returned = true
            ↔ ∃ k, cooked k (calls ++ [c]) ≠ cooked k calls) := by
  obtain ⟨hp, hq⟩ := asymEagerDeferPk_lawful hD
  have hpos := debounceMs_pos hD (show 0 < 127 by decide)
  refine ⟨fun v trace => (cellRun (asymEagerDeferPk DEBOUNCE) (⟨⟨false,0⟩,v⟩,0) trace).1.cooked,
    fun rows cols m calls => ?_⟩
  have hb := asym_between (w := w) m
  have hbetween := run_between (.nested rows cols) hp hb calls
  refine ⟨fun k => ?_, fun c => ⟨fun k => ?_, ?_⟩⟩
  · dsimp only [cookedAfter]
    rw [run_cell _ hp hq hb]
    rfl
  · have hT := @run_tells _ w _ _ DEBOUNCE (.nested rows cols) m k hD calls
    have hs := stepped_asym DEBOUNCE
      (run (asymEagerDeferPk DEBOUNCE) (.nested rows cols) (start ⟨false,0⟩ m) calls).time c.now
      (c.raw k) fun hn => hT.busy (AsymCounter.left_ne_zero.mpr hn)
    rw [← call_stepped (.nested rows cols) hp hq hbetween] at hs
    have hnext : cookedAfter DEBOUNCE (.nested rows cols) m k (calls ++ [c])
        = ((call (asymEagerDeferPk DEBOUNCE) (.nested rows cols)
          (run (asymEagerDeferPk DEBOUNCE) (.nested rows cols) (start ⟨false,0⟩ m) calls)
          c).cells k).cooked := by rw [cookedAfter, run_snoc]
    refine ⟨fun h0 ho hv => ?_, fun ho => ?_, fun hv t hu => ?_⟩
    · dsimp only
      rw [hnext]
      cases hs with
      | press _ _ _ ho' => exact ho'
      | release ho'' => exact absurd (ho.symm.trans ho'') (by decide)
      | locked hn => exact absurd h0 hn
      | waiting hn => exact absurd h0 hn
      | released hn => exact absurd h0 hn
      | settled _ hv' => exact absurd (hv.symm.trans (hv'.trans ho)) (by decide)
    · have hflip := (tells_call hpos hT hs rfl hnext).2 ho
      rwa [← hnext] at hflip
    · exact absurd (hv.symm.trans (upSince_snoc.mp hu).1) (by decide)
  · dsimp only [cookedAfter]
    rw [run_snoc]
    exact (call_spec _ hp hbetween c).1.returned

/-- Pressed at 10 and up from 16 on: released at 21, unless it is down again by then. -/
theorem asym_spec_tap :
    let tap : Bool → BitVec 16 → Call Bool (Fin 1 × Fin 1) 16 := fun v now => ⟨fun _ => v,now⟩
    let calls := [tap true 10,tap false 12,tap true 15,tap false 16]
    let cooked := cookedAfter 5 (.nested 1 1) (fun _ => false) (0,0)
    cooked calls = true ∧ cooked (calls ++ [tap false 21]) = false
      ∧ cooked (calls ++ [tap true 21]) = true := by
  intro tap calls cooked
  have hcooked : cooked calls = true := by decide +kernel
  have hreleased : cooked (calls ++ [tap false 21]) = false := by decide +kernel
  obtain ⟨_, h⟩ := asym_spec 5 16 (by decide)
  obtain ⟨-, hflip, hagain⟩ := ((h 1 1 (fun _ => false) calls).2 (tap true 21)).1 (0,0)
  refine ⟨hcooked, hreleased, Bool.eq_true_of_not_eq_false fun hf => ?_⟩
  exact hagain rfl _ ((hflip hcooked).mp hf)

end QmkFirmware.Debounce
