import Mathlib.Data.List.Induction
import QmkFirmware.WearLeveling.Crash

/-!
Runs of writes over a store that may refuse to unlock or fail a write. `wear_leveling_write`
updates the cache before it touches the store, and takes bytes it finds in the cache for
stored: a retry of a failed write returns success without writing anything.
-/

set_option autoImplicit false

namespace QmkFirmware.WearLeveling

/-- One `wear_leveling_write`: an address and the bytes. -/
abbrev WriteCall := Nat × List UInt8

def WriteCall.Covers (w : WriteCall) (x : Nat) : Prop := w.1 ≤ x ∧ x < w.1+w.2.length

instance (w : WriteCall) (x : Nat) : Decidable (w.Covers x) := by
  unfold WriteCall.Covers; infer_instance

def ackStep (w : WriteCall) (status : Status) (acked : Nat → Option UInt8) : Nat → Option UInt8 :=
  fun x => if w.Covers x then
    if status = .failed then none else some (w.2.getD (x-w.1) 0)
  else acked x

def runWrites (d : Driver) (cfg : Config) : List WriteCall → State × (Nat → Option UInt8) →
    State × (Nat → Option UInt8)
  | [], p => p
  | w :: ws, p =>
    let r := wearLevelingWrite d cfg w.1 w.2 p.1
    runWrites d cfg ws (r.2, ackStep w r.1 p.2)

theorem runWrites_append (d : Driver) (cfg : Config) (vs ws : List WriteCall)
    (p : State × (Nat → Option UInt8)) :
    runWrites d cfg (vs ++ ws) p = runWrites d cfg ws (runWrites d cfg vs p) := by
  induction vs generalizing p with
  | nil => rfl
  | cons v vs ih => exact ih _

/-- The run from power-up over an erased store, nothing acknowledged. -/
def writesFromBoot (d : Driver) (cfg : Config) (ws : List WriteCall) :
    State × (Nat → Option UInt8) := runWrites d cfg ws (boot d cfg, fun _ => none)

theorem writesFromBoot_snoc (d : Driver) (cfg : Config) (ws : List WriteCall) (w : WriteCall) :
    writesFromBoot d cfg (ws ++ [w])
      = ((wearLevelingWrite d cfg w.1 w.2 (writesFromBoot d cfg ws).1).2,
        ackStep w (wearLevelingWrite d cfg w.1 w.2 (writesFromBoot d cfg ws).1).1
          (writesFromBoot d cfg ws).2) :=
  runWrites_append d cfg ws [w] _

/-- A re-init reads back every acknowledged byte that no later call covered. -/
def AckedDurable (d : Driver) (cfg : Config) (p : State × (Nat → Option UInt8)) : Prop :=
  ∀ x b, p.2 x = some b → (reinit d cfg p.1.flash).cache x = b

/-- Bytes that are in the cache already, so that the call writes nothing, are in the store as
well. -/
def NotStale (d : Driver) (cfg : Config) (w : WriteCall) (s : State) : Prop :=
  s.cache.read w.1 w.2.length = w.2 →
    ∀ x, w.Covers x → (reinit d cfg s.flash).cache x = s.cache x

/-- Between writes: the store holds `c`, which may lag behind the cache, but not at an
acknowledged byte. -/
structure Lagging (cfg : Config) (p : State × (Nat → Option UInt8)) (c : ByteMem) : Prop where
  holds : Holds cfg p.1.flash.mem p.1.writeAddress c
  locked : p.1.unlocked = false
  fits : Fits cfg p.1.cache
  acked : ∀ x b, p.2 x = some b → p.1.cache x = b ∧ c x = b

theorem Lagging.durable {d : Driver} (hd : Sound d) {cfg : Config}
    {p : State × (Nat → Option UInt8)} {c : ByteMem} (h : Lagging cfg p c) :
    AckedDurable d cfg p := fun x b hb => by
  rw [(reinit_holds hd h.holds).1]
  exact (h.acked x b hb).2

theorem ackStep_write {w : WriteCall} {status : Status} {acked : Nat → Option UInt8}
    {c : ByteMem} (hs : status ≠ .failed) (hc : ∀ x b, acked x = some b → c x = b) {x : Nat}
    {b : UInt8} (hb : ackStep w status acked x = some b) : c.write w.1 w.2 x = b := by
  unfold ackStep at hb
  by_cases hx : w.Covers x
  · rw [if_pos hx, if_neg hs, Option.some.injEq] at hb
    obtain ⟨h₁, h₂⟩ := hx
    have hi : x-w.1 < w.2.length := by omega
    simpa [ByteMem.write_apply, h₁, List.getD, List.getElem?_eq_getElem hi] using hb
  · rw [if_neg hx] at hb
    unfold WriteCall.Covers at hx
    rw [ByteMem.write_outside (by omega)]
    exact hc x b hb

theorem ackStep_failed {w : WriteCall} {acked : Nat → Option UInt8} {c : ByteMem}
    (hc : ∀ x b, acked x = some b → c x = b) {n x : Nat} {b : UInt8}
    (hb : ackStep w .failed acked x = some b) : c.write w.1 (w.2.take n) x = b := by
  unfold ackStep at hb
  by_cases hx : w.Covers x
  · simp [hx] at hb
  · rw [if_neg hx] at hb
    unfold WriteCall.Covers at hx
    rw [ByteMem.write_outside (by simp only [List.length_take]; omega)]
    exact hc x b hb

theorem write_lagging {d : Driver} (hd : Sound d) {cfg : Config} {w : WriteCall}
    {p : State × (Nat → Option UInt8)} {c : ByteMem} (h : Lagging cfg p c)
    (hw : w.1+w.2.length ≤ cfg.logicalSize)
    (hclean : p.1.cache.read w.1 w.2.length ≠ w.2 → CleanCall d cfg w.1 w.2 p.1)
    (hstale : NotStale d cfg w p.1) :
    ∃ c', Lagging cfg (runWrites d cfg [w] p) c' := by
  obtain ⟨hu, ho⟩ := write_outcome hd hw h.locked h.holds
  have hwrites : (wearLevelingWrite d cfg w.1 w.2 p.1).1 = .failed →
      p.1.cache.read w.1 w.2.length ≠ w.2 := fun hf hsame => by
    simp [write_unchanged hw hsame] at hf
  have hrun : runWrites d cfg [w] p = ((wearLevelingWrite d cfg w.1 w.2 p.1).2,
      ackStep w (wearLevelingWrite d cfg w.1 w.2 p.1).1 p.2) := rfl
  rw [hrun]
  generalize wearLevelingWrite d cfg w.1 w.2 p.1 = r at hu ho hwrites ⊢
  have hcache : ∀ x b, p.2 x = some b → p.1.cache x = b := fun x b hb => (h.acked x b hb).1
  have hstore : ∀ x b, p.2 x = some b → c x = b := fun x b hb => (h.acked x b hb).2
  cases ho with
  | unchanged hsame =>
    refine ⟨c, h.holds, h.locked, h.fits, fun x b hb => ?_⟩
    have hx := ackStep_write (by simp) hcache hb
    conv_lhs at hx => rw [← hsame, ByteMem.write_read]
    refine ⟨hx, ?_⟩
    by_cases hcov : w.Covers x
    · rw [← hx, ← hstale hsame x hcov, (reinit_holds hd h.holds).1]
    · exact hstore x b (by simpa [ackStep, hcov] using hb)
  | logged h₁ h₂ h₃ _ _ =>
    refine ⟨c.write w.1 w.2, h₃, hu, by rw [h₂]; exact h.fits.write hw, fun x b hb => ?_⟩
    have hne : r.1 ≠ .failed := by simp [h₁]
    exact ⟨by rw [h₂]; exact ackStep_write hne hcache hb, ackStep_write hne hstore hb⟩
  | consolidated h₁ h₂ h₃ h₄ =>
    have hfit := h.fits.write hw
    refine ⟨p.1.cache.write w.1 w.2, ?_, hu, by rw [h₂]; exact hfit, fun x b hb => ?_⟩
    · rw [h₃, h₄]
      exact holds_consolidated hfit
    · have hx := ackStep_write (by simp [h₁]) hcache hb
      exact ⟨by rw [h₂]; exact hx, hx⟩
  | failed h₁ h₂ _ h₄ =>
    obtain ⟨fs, gs, he, hhold⟩ := h₄ (hclean (hwrites h₁))
    obtain ⟨n, -, -, -, happ⟩ := entriesOf_split he
    rw [happ] at hhold
    refine ⟨_, hhold, hu, by rw [h₂]; exact h.fits.write hw, fun x b hb => ?_⟩
    rw [h₁] at hb
    refine ⟨?_, ackStep_failed hstore hb⟩
    have hx := ackStep_failed (n := w.2.length) hcache hb
    rw [h₂]
    rwa [List.take_length] at hx

theorem boot_lagging {d : Driver} (hd : Sound d) (cfg : Config) :
    Lagging cfg (writesFromBoot d cfg []) ByteMem.blank := by
  obtain ⟨h, hblank⟩ := boot_synced hd cfg
  exact ⟨hblank ▸ h.holds, h.locked, h.fits, fun x b hb => by cases hb⟩

theorem writesFromBoot_lagging {d : Driver} (hd : Sound d) {cfg : Config} (ws : List WriteCall)
    (hv : ∀ w ∈ ws, w.1+w.2.length ≤ cfg.logicalSize)
    (hclean : ∀ vs w, vs ++ [w] <+: ws →
      (writesFromBoot d cfg vs).1.cache.read w.1 w.2.length ≠ w.2 →
        CleanCall d cfg w.1 w.2 (writesFromBoot d cfg vs).1)
    (hstale : ∀ vs w, vs ++ [w] <+: ws → NotStale d cfg w (writesFromBoot d cfg vs).1) :
    ∃ c, Lagging cfg (writesFromBoot d cfg ws) c := by
  induction ws using List.reverseRecOn with
  | nil => exact ⟨_, boot_lagging hd cfg⟩
  | append_singleton ws w ih =>
    have hpre : ∀ {vs}, vs <+: ws → vs <+: ws ++ [w] := fun h =>
      h.trans (List.prefix_append _ _)
    obtain ⟨c, hc⟩ := ih (fun v hv' => hv v (List.mem_append_left _ hv'))
      (fun vs v h => hclean vs v (hpre h)) (fun vs v h => hstale vs v (hpre h))
    have hstep := write_lagging hd hc (hv w (by simp)) (hclean ws w (List.prefix_refl _))
      (hstale ws w (List.prefix_refl _))
    rwa [writesFromBoot, runWrites_append]

/-- Over a store whose failures tear no entry, acknowledged writes survive a reboot at every
point of a run exactly when no call finds bytes in the cache that the store does not hold. A
call that finds its bytes in the cache appends nothing and has no entry to tear. -/
theorem acked_durable_iff {d : Driver} (hd : Sound d) (cfg : Config) (ws : List WriteCall)
    (hv : ∀ w ∈ ws, w.1+w.2.length ≤ cfg.logicalSize)
    (hclean : ∀ vs w, vs ++ [w] <+: ws →
      (writesFromBoot d cfg vs).1.cache.read w.1 w.2.length ≠ w.2 →
        CleanCall d cfg w.1 w.2 (writesFromBoot d cfg vs).1) :
    (∀ vs, vs <+: ws → AckedDurable d cfg (writesFromBoot d cfg vs))
      ↔ ∀ vs w, vs ++ [w] <+: ws → NotStale d cfg w (writesFromBoot d cfg vs).1 := by
  constructor
  · intro hdur vs w hpre hsame x hx
    have hval := hv w (hpre.subset (by simp))
    have hstep : writesFromBoot d cfg (vs ++ [w])
        = ((writesFromBoot d cfg vs).1, ackStep w .success (writesFromBoot d cfg vs).2) := by
      rw [writesFromBoot_snoc, write_unchanged hval hsame]
    have hd' := hdur _ hpre
    rw [hstep] at hd'
    rw [hd' x _ (show ackStep w .success _ x = some (w.2.getD (x-w.1) 0) by simp [ackStep, hx])]
    obtain ⟨h₁, h₂⟩ := hx
    have hlt : x-w.1 < w.2.length := by omega
    have hget : (s : ByteMem) → (s.read w.1 w.2.length).getD (x-w.1) 0 = s x := fun s => by
      have hx' : w.1+(x-w.1) = x := by omega
      simp [ByteMem.read, List.getD, hlt, hx']
    rw [← hget (writesFromBoot d cfg vs).1.cache, hsame]
  · intro hstale vs hpre
    obtain ⟨c, hc⟩ := writesFromBoot_lagging hd vs (fun w hw => hv w (hpre.subset hw))
      (fun us w h => hclean us w (h.trans hpre)) (fun us w h => hstale us w (h.trans hpre))
    exact hc.durable hd

theorem noTear_of_ok {d : Driver} {cfg : Config} (h : ∀ n, d.writeOk n = true)
    (es : List Entry) (a n : Nat) : NoTear d cfg es a n := by
  induction es generalizing a n with
  | nil => trivial
  | cons e es ih => exact fun _ => ⟨wordsStored_of_ok h _ _ _, fun _ => ih _ _⟩

/-- A driver whose first unlock fails. Booting over an erased store takes 14 calls. -/
def refusesOnce : Driver := { Driver.faultFree with unlockOk := fun n => n ≠ 14 }

theorem sound_refusesOnce : Sound refusesOnce :=
  ⟨fun _ => rfl, fun _ => rfl, fun _ => rfl, fun _ => rfl⟩

/-- The retry of a refused write returns success, and the byte is not stored. -/
theorem retry_not_stored :
    let s := boot refusesOnce smallConfig
    let r := wearLevelingWrite refusesOnce smallConfig 4 [0x14] s
    let q := wearLevelingWrite refusesOnce smallConfig 4 [0x14] r.2
    r.1 = .failed ∧ q.1 = .success ∧ (reinit refusesOnce smallConfig q.2.flash).cache 4 = 0
      ∧ ¬ AckedDurable refusesOnce smallConfig
        (writesFromBoot refusesOnce smallConfig [(4,[0x14]),(4,[0x14])]) := by
  refine ⟨by decide +kernel, by decide +kernel, by decide +kernel, fun h => ?_⟩
  have h4 := h 4 0x14 (by decide +kernel)
  revert h4
  decide +kernel

/-- A later write of other bytes to the same place is stored. -/
theorem acked_durable_small : AckedDurable refusesOnce smallConfig
    (writesFromBoot refusesOnce smallConfig [(4,[0x14]),(4,[0x15])]) := by
  have hcases : ∀ {vs : List WriteCall} {w}, vs ++ [w] <+: [(4,[0x14]),(4,[0x15])] →
      vs = [] ∧ w = (4,[0x14]) ∨ vs = [(4,[0x14])] ∧ w = (4,[0x15]) := by
    intro vs w h
    rcases vs with _ | ⟨v, _ | ⟨u, vs⟩⟩
    · exact .inl ⟨rfl, by simpa using h⟩
    · exact .inr (by simpa using h)
    · simp at h
  refine (acked_durable_iff sound_refusesOnce smallConfig [(4,[0x14]),(4,[0x15])] (by decide)
    fun vs w h _ _ => ?_).mpr (fun vs w h hsame => ?_) _ (List.prefix_refl _)
  · exact noTear_of_ok (fun _ => rfl) _ _ _
  · rcases hcases h with ⟨rfl, rfl⟩ | ⟨rfl, rfl⟩
    · exact absurd hsame (by decide +kernel)
    · exact absurd hsame (by decide +kernel)

end QmkFirmware.WearLeveling
