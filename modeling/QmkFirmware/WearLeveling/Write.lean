import QmkFirmware.WearLeveling.Store

/-!
One `wear_leveling_write` from a store that holds a cache `c`, which need not be the RAM
cache: after a failed write the two differ.
-/

set_option autoImplicit false

namespace QmkFirmware.WearLeveling
open LogReplay

def writeCalls (a : Nat) : List Word → List BackingCall
  | [] => []
  | w :: ws => .write a w true :: writeCalls (a+w.length) ws

theorem writeCalls_append (a : Nat) (vs ws : List Word) :
    writeCalls a (vs ++ ws) = writeCalls a vs ++ writeCalls (a+vs.flatten.length) ws := by
  induction vs generalizing a with
  | nil => simp [writeCalls]
  | cons v vs ih => simp [writeCalls, ih, Nat.add_assoc]

/-- Under this fault schedule the words, appended at `a` from call number `n` on, are all
stored, or they fill the log and the consolidation is stored that follows: an erase, then the
bulk writes. -/
def WordsStored (d : Driver) (cfg : Config) : List Word → Nat → Nat → Prop
  | [], _, _ => True
  | _ :: vs, a, n => d.writeOk n = true ∧
    if cfg.backingSize ≤ a+cfg.writeSize.bytes then
      ∀ i < cfg.items cfg.logicalSize+cfg.items 8, d.writeOk (n+2+i) = true
    else WordsStored d cfg vs (a+cfg.writeSize.bytes) (n+1)

theorem wordsStored_of_ok {d : Driver} {cfg : Config} (h : ∀ n, d.writeOk n = true)
    (vs : List Word) (a n : Nat) : WordsStored d cfg vs a n := by
  induction vs generalizing a n with
  | nil => trivial
  | cons v vs ih =>
    refine ⟨h n, ?_⟩
    split
    · exact fun i _ => h _
    · exact ih _ _

@[simp] theorem length_writeCalls (a : Nat) (vs : List Word) :
    (writeCalls a vs).length = vs.length := by
  induction vs generalizing a with
  | nil => rfl
  | cons v vs ih => simp [writeCalls, ih]

inductive WordsOutcome (d : Driver) (cfg : Config) (vs : List Word) (s : State) :
    Status × State → Prop where
  | all {r : Status × State} :
      r.1 = .success → r.2.writeAddress = s.writeAddress+vs.flatten.length →
      r.2.flash.mem = s.flash.mem.write s.writeAddress vs.flatten →
      r.2.flash.calls = s.flash.calls ++ writeCalls s.writeAddress vs →
      r.2.writeAddress < cfg.backingSize → WordsOutcome d cfg vs s r
  | consolidated {r : Status × State} :
      r.1 = .consolidated → r.2.writeAddress = cfg.logStart →
      r.2.flash.mem = consolidatedImage cfg s.cache → WordsOutcome d cfg vs s r
  | failed {r : Status × State} :
      r.1 = .failed → ¬ WordsStored d cfg vs s.writeAddress s.flash.calls.length →
      (d.writeOk s.flash.calls.length = false →
        r.2.flash.mem = s.flash.mem ∧ r.2.writeAddress = s.writeAddress) →
      WordsOutcome d cfg vs s r

variable {d : Driver} {cfg : Config}

structure Kept (s t : State) : Prop where
  cache : t.cache = s.cache
  unlocked : t.unlocked = s.unlocked

theorem appendRaw_failed {w : Word} {s : State} (h : d.writeOk s.flash.calls.length = false) :
    wearLevelingAppendRaw d cfg w s = (.failed, { s with flash :=
      { s.flash with calls := s.flash.calls ++ [.write s.writeAddress w false] } }) := by
  simp [wearLevelingAppendRaw, backingStoreWrite, h]

theorem appendRaw_written {w : Word} {s : State} (h : d.writeOk s.flash.calls.length = true) :
    wearLevelingAppendRaw d cfg w s = wearLevelingConsolidateIfNeeded d cfg { s with
      writeAddress := s.writeAddress+cfg.writeSize.bytes
      flash := {
        mem := s.flash.mem.write s.writeAddress w
        calls := s.flash.calls ++ [.write s.writeAddress w true] } } := by
  simp [wearLevelingAppendRaw, backingStoreWrite, h]

theorem appendWords_outcome (hd : Sound d) (vs : List Word) (s : State)
    (hv : ∀ v ∈ vs, v.length = cfg.writeSize.bytes) (hu : s.unlocked = true)
    (hs : s.writeAddress < cfg.backingSize) :
    Kept s (appendWords d cfg vs s).2 ∧ WordsOutcome d cfg vs s (appendWords d cfg vs s) := by
  induction vs generalizing s with
  | nil => exact ⟨⟨rfl, rfl⟩, .all rfl rfl (by simp [appendWords])
      (by simp [appendWords, writeCalls]) hs⟩
  | cons v vs ih =>
    have hlen := hv v List.mem_cons_self
    cases hw : d.writeOk s.flash.calls.length with
    | false =>
      rw [appendWords, appendRaw_failed hw, if_pos (by simp)]
      exact ⟨⟨rfl, rfl⟩, .failed rfl (fun h => by simp [h.1] at hw) fun _ => ⟨rfl, rfl⟩⟩
    | true =>
      have hnot : d.writeOk s.flash.calls.length = false → False := by simp [hw]
      rw [appendWords, appendRaw_written hw]
      generalize hs' : ({ s with
        writeAddress := s.writeAddress+cfg.writeSize.bytes
        flash := {
          mem := s.flash.mem.write s.writeAddress v
          calls := s.flash.calls ++ [.write s.writeAddress v true] } } : State) = s'
      have hc : s'.cache = s.cache := by rw [← hs']
      have hu' : s'.unlocked = true := by rw [← hs']; exact hu
      have ha : s'.writeAddress = s.writeAddress+v.length := by rw [← hs', hlen]
      have hm : s'.flash.mem = s.flash.mem.write s.writeAddress v := by rw [← hs']
      have hn : s'.flash.calls.length = s.flash.calls.length+1 := by rw [← hs']; simp
      by_cases hfull : cfg.backingSize ≤ s'.writeAddress
      · -- the word filled the log
        rw [wearLevelingConsolidateIfNeeded, if_pos hfull]
        obtain ⟨h₁, h₂, h₃⟩ := @consolidateForce_cases d cfg hd _ hu'
        rcases h₃ with ⟨hr, hbulk⟩ | ⟨hr, h₄, h₅⟩
        · rw [if_pos (by simp [hr])]
          refine ⟨⟨h₁.trans hc, h₂.trans hu.symm⟩, .failed hr (fun h => hbulk ?_)
            (fun h => (hnot h).elim)⟩
          have hstored := h.2
          rw [if_pos (by rwa [ha, hlen] at hfull)] at hstored
          rwa [hn]
        · rw [if_pos (by simp [hr])]
          exact ⟨⟨h₁.trans hc, h₂.trans hu.symm⟩, .consolidated hr h₄ (by rw [h₅, hc])⟩
      · rw [wearLevelingConsolidateIfNeeded, if_neg hfull, if_neg (by simp)]
        obtain ⟨hk, ho⟩ := ih s' (fun w hw => hv w (List.mem_cons_of_mem _ hw)) hu' (by omega)
        refine ⟨⟨hk.cache.trans hc, (hk.unlocked.trans hu').trans hu.symm⟩, ?_⟩
        cases ho with
        | all h₁ h₂ h₃ hcalls h₄ =>
          refine .all h₁ ?_ ?_ ?_ h₄
          · rw [h₂, ha, List.flatten_cons, List.length_append, Nat.add_assoc]
          · rw [h₃, ha, hm, List.flatten_cons, ByteMem.write_append]
          · rw [hcalls, ha, ← hs']
            simp [writeCalls]
        | consolidated h₁ h₂ h₃ => exact .consolidated h₁ h₂ (by rw [h₃, hc])
        | failed h₁ h₂ _ =>
          refine .failed h₁ (fun h => h₂ ?_) (fun h => (hnot h).elim)
          have hstored := h.2
          rw [if_neg (by rwa [ha, hlen] at hfull)] at hstored
          rwa [ha, hlen, hn]

theorem appendWords_lost {vs : List Word} {s : State}
    (h : d.writeOk s.flash.calls.length = false) (hv : vs ≠ []) :
    (appendWords d cfg vs s).1 = .failed := by
  cases vs with
  | nil => exact absurd rfl hv
  | cons v vs => rw [appendWords, appendRaw_failed h, if_pos (by simp)]

/-- Under this fault schedule no entry is torn: one after the other is stored, until one
fails at its first word or the log is full and consolidated. -/
def NoTear (d : Driver) (cfg : Config) : List Entry → Nat → Nat → Prop
  | [], _, _ => True
  | e :: es, a, n => d.writeOk n = true →
    WordsStored d cfg e.words a n ∧ (a+e.words.flatten.length < cfg.backingSize →
      NoTear d cfg es (a+e.words.flatten.length) (n+e.words.length))

def entryWords (es : List Entry) : List Word := (es.map Entry.words).flatten

/-- What became of the entries of one write, from a store that holds `c`. -/
inductive EntriesOutcome (d : Driver) (cfg : Config) (es : List Entry) (s : State)
    (c : ByteMem) : Status × State → Prop where
  | all {r : Status × State} :
      r.1 = .success → Holds cfg r.2.flash.mem r.2.writeAddress (applyEntries es c) →
      r.2.flash.calls = s.flash.calls ++ writeCalls s.writeAddress (entryWords es) →
      r.2.writeAddress = s.writeAddress+(entryWords es).flatten.length →
      EntriesOutcome d cfg es s c r
  | consolidated {r : Status × State} :
      r.1 = .consolidated → r.2.writeAddress = cfg.logStart →
      r.2.flash.mem = consolidatedImage cfg s.cache → EntriesOutcome d cfg es s c r
  | failed {r : Status × State} :
      r.1 = .failed → (∃ n, d.writeOk n = false) →
      (NoTear d cfg es s.writeAddress s.flash.calls.length → ∃ fs gs, es = fs ++ gs ∧
        Holds cfg r.2.flash.mem r.2.writeAddress (applyEntries fs c)) →
      EntriesOutcome d cfg es s c r

theorem appendEntries_outcome (hd : Sound d) (es : List Entry) (s : State) (c : ByteMem)
    (he : ∀ e ∈ es, e.Encodes cfg) (hu : s.unlocked = true)
    (hh : Holds cfg s.flash.mem s.writeAddress c) :
    Kept s (appendEntries d cfg es s).2
      ∧ EntriesOutcome d cfg es s c (appendEntries d cfg es s) := by
  induction es generalizing s c with
  | nil =>
    exact ⟨⟨rfl, rfl⟩, .all rfl hh (by simp [appendEntries, entryWords, writeCalls])
      (by simp [appendEntries, entryWords])⟩
  | cons e es ih =>
    have hen := he e List.mem_cons_self
    obtain ⟨hk, ho⟩ := appendWords_outcome hd e.words s hen.size hu hh.room
    simp only [appendEntries]
    generalize hr : appendWords d cfg e.words s = r at hk ho ⊢
    cases ho with
    | all h₁ h₂ h₃ hcalls h₄ =>
      rw [if_neg (by simp [h₁])]
      have hnext : Holds cfg r.2.flash.mem r.2.writeAddress (c.write e.address e.value) := by
        rw [h₃, h₂]
        rw [h₂] at h₄
        exact hh.append (Nat.le_refl _) h₄ (hen.reads _ _ _ hh.room)
      obtain ⟨hk', ho'⟩ := ih r.2 _ (fun f hf => he f (List.mem_cons_of_mem _ hf))
        (hk.unlocked.trans hu) hnext
      refine ⟨⟨hk'.cache.trans hk.cache, hk'.unlocked.trans hk.unlocked⟩, ?_⟩
      cases ho' with
      | all h₅ h₆ h₇ h₈ =>
        have hw : entryWords (e :: es) = e.words ++ entryWords es := rfl
        refine .all h₅ h₆ ?_ ?_
        · rw [h₇, hcalls, h₂, hw, writeCalls_append, List.append_assoc]
        · rw [h₈, h₂, hw, List.flatten_append, List.length_append, Nat.add_assoc]
      | consolidated h₅ h₆ h₇ => exact .consolidated h₅ h₆ (by rw [h₇, hk.cache])
      | failed h₅ h₆ h₇ =>
        refine .failed h₅ h₆ fun hclean => ?_
        have hfirst : d.writeOk s.flash.calls.length = true := by
          cases hw : d.writeOk s.flash.calls.length with
          | true => rfl
          | false =>
            have hlost := @appendWords_lost d cfg _ _ hw hen.nonempty
            rw [hr, h₁] at hlost
            cases hlost
        obtain ⟨fs, gs, hfg, hhold⟩ := h₇ (by
          rw [hcalls, List.length_append, length_writeCalls, h₂]
          exact (hclean hfirst).2 (by rwa [← h₂]))
        exact ⟨e :: fs, gs, by rw [hfg, List.cons_append], hhold⟩
    | consolidated h₁ h₂ h₃ =>
      rw [if_pos (by simp [h₁])]
      exact ⟨hk, .consolidated h₁ h₂ h₃⟩
    | failed h₁ h₂ h₃ =>
      rw [if_pos (by simp [h₁])]
      have hbad : ∃ n, d.writeOk n = false := by
        by_contra hn
        exact h₂ (wordsStored_of_ok (fun n => by simpa using not_exists.mp hn n) _ _ _)
      refine ⟨hk, .failed h₁ hbad fun hclean => ⟨[], e :: es, rfl, ?_⟩⟩
      obtain ⟨h₄, h₅⟩ := h₃ (by
        by_contra hw
        exact h₂ (hclean (by simpa using hw)).1)
      rw [h₄, h₅]
      exact hh

def writing (d : Driver) (address : Nat) (value : List UInt8) (s : State) : State :=
  (wearLevelingUnlock d { s with cache := s.cache.write address value }).2

/-- The fault schedule tears no entry of this call: the store refuses to unlock, or a word
that fails is the first one of its entry. The words are written right behind the unlock. -/
def CleanCall (d : Driver) (cfg : Config) (address : Nat) (value : List UInt8) (s : State) :
    Prop :=
  d.unlockOk s.flash.calls.length = true →
    NoTear d cfg (entriesOf cfg value.length address value) s.writeAddress
      (s.flash.calls.length+1)

/-- What became of a write, from a store that holds `c`. -/
inductive WriteOutcome (d : Driver) (cfg : Config) (address : Nat) (value : List UInt8)
    (s : State) (c : ByteMem) : Status × State → Prop where
  | unchanged : s.cache.read address value.length = value →
      WriteOutcome d cfg address value s c (.success, s)
  | logged {r : Status × State} :
      r.1 = .success → r.2.cache = s.cache.write address value →
      Holds cfg r.2.flash.mem r.2.writeAddress (c.write address value) →
      r.2.flash.calls = s.flash.calls ++ .unlock true :: (writeCalls s.writeAddress
        (entryWords (entriesOf cfg value.length address value)) ++ [.lock true]) →
      r.2.writeAddress = s.writeAddress
        +(entryWords (entriesOf cfg value.length address value)).flatten.length →
      WriteOutcome d cfg address value s c r
  | consolidated {r : Status × State} :
      r.1 = .consolidated → r.2.cache = s.cache.write address value →
      r.2.writeAddress = cfg.logStart →
      r.2.flash.mem = consolidatedImage cfg (s.cache.write address value) →
      WriteOutcome d cfg address value s c r
  | failed {r : Status × State} :
      r.1 = .failed → r.2.cache = s.cache.write address value →
      (∃ n, d.unlockOk n = false ∨ d.writeOk n = false) →
      (CleanCall d cfg address value s → ∃ fs gs,
        entriesOf cfg value.length address value = fs ++ gs ∧
        Holds cfg r.2.flash.mem r.2.writeAddress (applyEntries fs c)) →
      WriteOutcome d cfg address value s c r

theorem lock_mem (hd : Sound d) {s : State} (hu : s.unlocked = true) :
    wearLevelingLock d s = (.success, { s with
      unlocked := false
      flash := { s.flash with calls := s.flash.calls ++ [.lock true] } }) := by
  simp [wearLevelingLock, hu, backingStoreLock, hd.lock]

theorem end_address {n : Nat} (hn : n ≤ cfg.logicalSize) : n % 2^32 = n :=
  Nat.mod_eq_of_lt (by have hlog := cfg.logical_le; omega)

theorem write_unchanged {address : Nat} {value : List UInt8} {s : State}
    (hv : address+value.length ≤ cfg.logicalSize)
    (hsame : s.cache.read address value.length = value) :
    wearLevelingWrite d cfg address value s = (.success, s) := by
  rw [wearLevelingWrite, end_address hv, if_neg (Nat.not_lt.mpr hv), if_pos hsame]

theorem write_outcome (hd : Sound d) {address : Nat} {value : List UInt8} {s : State}
    {c : ByteMem} (hv : address+value.length ≤ cfg.logicalSize) (hu : s.unlocked = false)
    (hh : Holds cfg s.flash.mem s.writeAddress c) :
    (wearLevelingWrite d cfg address value s).2.unlocked = false
      ∧ WriteOutcome d cfg address value s c (wearLevelingWrite d cfg address value s) := by
  by_cases hsame : s.cache.read address value.length = value
  · rw [write_unchanged hv hsame]
    exact ⟨hu, .unchanged hsame⟩
  rw [wearLevelingWrite, end_address hv, if_neg (Nat.not_lt.mpr hv), if_neg hsame]
  cases hunl : d.unlockOk s.flash.calls.length with
  | false =>
    simp only [wearLevelingUnlock, hu, Bool.false_eq_true, if_false, backingStoreUnlock, hunl,
      Bool.not_false, if_true, wearLevelingLock]
    refine ⟨by simp, .failed (by simp) rfl ⟨_, .inl hunl⟩ fun _ => ⟨[], _, rfl, hh⟩⟩
  | true =>
    have hun : wearLevelingUnlock d { s with cache := s.cache.write address value }
        = (.success, writing d address value s) := by
      simp [writing, wearLevelingUnlock, hu, backingStoreUnlock, hunl]
    generalize ht : writing d address value s = t at hun
    obtain ⟨t₁, t₂, t₃, t₄, t₅⟩ : t.cache = s.cache.write address value ∧ t.unlocked = true
        ∧ t.flash.mem = s.flash.mem ∧ t.writeAddress = s.writeAddress
        ∧ t.flash.calls = s.flash.calls ++ [.unlock true] := by
      rw [← ht]
      simp [writing, wearLevelingUnlock, hu, backingStoreUnlock, hunl]
    obtain ⟨hk, ho⟩ := appendEntries_outcome hd (entriesOf cfg value.length address value) t c
      (entriesOf_encodes cfg _ _ _ hv) t₂ (by rw [t₃, t₄]; exact hh)
    rw [← writeRawLoop_eq] at hk ho
    simp only [hun, reduceCtorEq, if_false, if_true, wearLevelingWriteRaw]
    generalize writeRawLoop d cfg value.length address value t = r at hk ho
    have hru := hk.unlocked.trans t₂
    -- a successful append has left room, so the second check for a full log does nothing
    have hneed : (if r.1 = .success then wearLevelingConsolidateIfNeeded d cfg r.2 else r) = r := by
      split
      · rename_i hr
        cases ho with
        | all _ h =>
          rw [wearLevelingConsolidateIfNeeded, if_neg (Nat.not_le.mpr h.room)]
          exact Prod.ext hr.symm rfl
        | consolidated h => simp [h] at hr
        | failed h => simp [h] at hr
      · rfl
    rw [hneed, lock_mem hd hru]
    refine ⟨rfl, ?_⟩
    simp only [reduceCtorEq, if_false]
    cases ho with
    | all h₁ h₂ h₃ h₄ =>
      rw [applyEntries_entriesOf cfg _ _ _ (Nat.le_refl _)] at h₂
      refine .logged h₁ (hk.cache.trans t₁) h₂ ?_ (by rw [h₄, t₄])
      simp [h₃, t₄, t₅]
    | consolidated h₁ h₂ h₃ =>
      exact .consolidated h₁ (hk.cache.trans t₁) h₂ (by rw [← t₁]; exact h₃)
    | failed h₁ h₂ h₃ =>
      obtain ⟨n, hn⟩ := h₂
      refine .failed h₁ (hk.cache.trans t₁) ⟨n, .inr hn⟩ fun hclean => ?_
      exact h₃ (by rw [t₄, t₅, List.length_append]; exact hclean hunl)

end QmkFirmware.WearLeveling
