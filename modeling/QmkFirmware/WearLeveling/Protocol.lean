import Mathlib.Data.List.Induction
import QmkFirmware.Lib.Along
import QmkFirmware.WearLeveling.Durability

/-!
The calls the core makes to the backing store. A ledger of them says what may come next: only an
unlocked store is erased or written, and only words nothing was written to since the erase.
-/

set_option autoImplicit false

namespace QmkFirmware.WearLeveling

/-- What the calls so far have done to the store: its lock, and the bytes programmed since the last
erase that succeeded. `lost` tells that an erase failed with something in the log, and that no
erase and no initialisation has come since. -/
structure Ledger where
  locked : Bool
  programmed : Nat → Bool
  lost : Bool

def Ledger.used (cfg : Config) (l : Ledger) (a : Nat) : Bool :=
  (List.range cfg.backingSize).any fun x => decide (a ≤ x) && l.programmed x

/-- A locked store with this content. Until the first initialisation the write address is zero. -/
def Ledger.start (cfg : Config) (m : ByteMem) : Ledger :=
  let programmed := fun x => m x != 0
  ⟨true, programmed, Ledger.used cfg ⟨true, programmed, false⟩ 0⟩

def Ledger.after (cfg : Config) (l : Ledger) : BackingCall → Ledger
  | .init _ => { l with lost := false }
  | .unlock true => { l with locked := false }
  | .lock true => { l with locked := true }
  | .erase true => { l with programmed := fun _ => false, lost := false }
  | .erase false => { l with lost := l.used cfg cfg.logStart }
  | .write a v true =>
    { l with programmed := fun x => decide (a ≤ x ∧ x < a+v.length) || l.programmed x }
  | .unlock false | .lock false | .read _ _ | .write _ _ false => l

/-- A write is one aligned word inside the store, not programmed yet; it and an erase find the
store unlocked. -/
def Ledger.Allows (cfg : Config) (l : Ledger) : BackingCall → Prop
  | .write a v _ => a % cfg.writeSize.bytes = 0 ∧ v.length = cfg.writeSize.bytes
    ∧ a+cfg.writeSize.bytes ≤ cfg.backingSize
    ∧ (∀ i < cfg.writeSize.bytes, l.programmed (a+i) = false) ∧ l.locked = false
  | .erase _ => l.locked = false
  | .init _ | .unlock _ | .lock _ | .read _ _ => True

instance (cfg : Config) (l : Ledger) (c : BackingCall) : Decidable (l.Allows cfg c) := by
  cases c <;> unfold Ledger.Allows <;> infer_instance

def ledger (cfg : Config) (m : ByteMem) (calls : List BackingCall) : Ledger :=
  calls.foldl (Ledger.after cfg) (.start cfg m)

def Disciplined (cfg : Config) (m : ByteMem) (calls : List BackingCall) : Prop :=
  Along (Ledger.after cfg) (Ledger.Allows cfg) (.start cfg m) calls

/-- A public call. Reading is from the cache alone. -/
inductive PublicCall where
  | update (c : Call)
  | read (address length : Nat)
  deriving DecidableEq, Repr

def serve (d : Driver) (cfg : Config) (s : State) : PublicCall → State
  | .update c => (exec d cfg s c).2
  | .read _ _ => s

def LeavesLocked (d : Driver) (cfg : Config) (m : ByteMem) (s : State) (c : PublicCall) : Prop :=
  (ledger cfg m s.flash.calls).locked = true →
    (ledger cfg m (serve d cfg s c).flash.calls).locked = true
      ∨ (serve d cfg s c).flash.calls.getLast? = some (.lock false)

/-- The access protocol over a run that starts with this content. -/
def FollowsProtocol (d : Driver) (cfg : Config) (m : ByteMem) (run : List PublicCall) : Prop :=
  Disciplined cfg m (run.foldl (serve d cfg) (.reset ⟨m,[]⟩)).flash.calls
    ∧ Along (serve d cfg) (LeavesLocked d cfg m) (.reset ⟨m,[]⟩) run

def Appends (d : Driver) (cfg : Config) (address : Nat) (value : List UInt8) (s : State) : Prop :=
  (address+value.length) % 2^32 ≤ cfg.logicalSize ∧ s.cache.read address value.length ≠ value
    ∧ (s.unlocked = false → d.unlockOk s.flash.calls.length = true)

instance (d : Driver) (cfg : Config) (address : Nat) (value : List UInt8) (s : State) :
    Decidable (Appends d cfg address value s) := inferInstanceAs (Decidable (_ ∧ _))

/-- An initialisation finds a log that plays back, has room left, and has nothing programmed
behind its end; a write does not append behind an erase that failed. -/
def Orderly (d : Driver) (cfg : Config) (m : ByteMem) (s : State) : PublicCall → Prop
  | .update .init => ∃ a c, Holds cfg s.flash.mem a c
    ∧ ∀ x, a ≤ x → (ledger cfg m s.flash.calls).programmed x = false
  | .update (.write address value) => Appends d cfg address value s →
    (ledger cfg m s.flash.calls).lost = false
  | .update .erase | .read _ _ => True

section Calls
variable {cfg : Config} {m : ByteMem} {calls cs : List BackingCall} {c : BackingCall}

@[simp] theorem ledger_snoc :
    ledger cfg m (calls ++ [c]) = (ledger cfg m calls).after cfg c := by
  simp [ledger]

theorem disciplined_snoc : Disciplined cfg m (calls ++ [c]) ↔
    Disciplined cfg m calls ∧ (ledger cfg m calls).Allows cfg c := Along.snoc

theorem Disciplined.snoc (h : Disciplined cfg m calls) (hc : (ledger cfg m calls).Allows cfg c) :
    Disciplined cfg m (calls ++ [c]) := disciplined_snoc.mpr ⟨h, hc⟩

theorem Quiet.ledger {f g : Flash} (h : Quiet f g) (hf : Disciplined cfg m f.calls) :
    Disciplined cfg m g.calls ∧ ledger cfg m g.calls = ledger cfg m f.calls := by
  obtain ⟨cs, hcs, hread⟩ := h
  rw [hcs]
  clear hcs
  induction cs using List.reverseRecOn with
  | nil => simpa using hf
  | append_singleton cs c ih =>
    obtain ⟨h₁, h₂⟩ := ih fun c hc => hread c (List.mem_append_left _ hc)
    obtain ⟨a, ok, rfl⟩ := hread c (by simp)
    rw [← List.append_assoc, ledger_snoc]
    exact ⟨h₁.snoc trivial, h₂⟩

theorem used_of_programmed {l : Ledger} {a x : Nat} (ha : a ≤ x) (hx : x < cfg.backingSize)
    (hp : l.programmed x = true) : l.used cfg a = true :=
  List.any_eq_true.mpr ⟨x, List.mem_range.mpr hx, by simp [ha, hp]⟩

end Calls

theorem logStart_mod (cfg : Config) : cfg.logStart % cfg.writeSize.bytes = 0 := by
  have h₁ := cfg.logical_mod
  have h₂ : 8 % cfg.writeSize.bytes = 0 := by cases cfg.writeSize <;> rfl
  rw [Config.logStart, Nat.add_mod, h₁, h₂]
  rfl

theorem backing_mod (cfg : Config) : cfg.backingSize % cfg.writeSize.bytes = 0 :=
  Nat.mod_eq_zero_of_dvd ((Nat.dvd_of_mod_eq_zero cfg.logical_mod).trans
    (Nat.dvd_of_mod_eq_zero cfg.backing_mod))

theorem word_room {cfg : Config} {a : Nat} (ha : a % cfg.writeSize.bytes = 0)
    (hlt : a < cfg.backingSize) : a+cfg.writeSize.bytes ≤ cfg.backingSize := by
  obtain ⟨k, hk⟩ := Nat.dvd_of_mod_eq_zero ha
  obtain ⟨n, hn⟩ := Nat.dvd_of_mod_eq_zero (backing_mod cfg)
  rw [hk, hn] at hlt ⊢
  have hkn : k < n := Nat.lt_of_mul_lt_mul_left hlt
  calc cfg.writeSize.bytes*k+cfg.writeSize.bytes = cfg.writeSize.bytes*(k+1) := rfl
    _ ≤ cfg.writeSize.bytes*n := Nat.mul_le_mul_left _ hkn

theorem plays_mod {cfg : Config} {m : ByteMem} {a b : Nat} {c c' : ByteMem}
    (h : LogReplay.Plays (nextEntry cfg) m a c b c') (ha : a % cfg.writeSize.bytes = 0) :
    b % cfg.writeSize.bytes = 0 := by
  induction h with
  | refl => exact ha
  | step e _ ih =>
    refine ih ?_
    rcases (nextEntry_cases e).2 with ⟨-, -, -, rfl, -⟩ | ⟨-, hw, -, rfl, -⟩ | ⟨-, hw, -, rfl, -⟩
    · rw [Nat.add_mul_mod_self_right]
      exact ha
    · rw [hw] at ha ⊢
      simpa [WriteSize.bytes] using ha
    · rw [hw] at ha ⊢
      simpa [WriteSize.bytes] using ha

/-- The word at the write address and those behind it may be written. -/
structure Placed (cfg : Config) (l : Ledger) (a : Nat) : Prop where
  aligned : a % cfg.writeSize.bytes = 0
  inside : a < cfg.backingSize
  free : ∀ x, a ≤ x → x < cfg.backingSize → l.programmed x = false

theorem Placed.room {cfg : Config} {l : Ledger} {a : Nat} (h : Placed cfg l a) :
    a+cfg.writeSize.bytes ≤ cfg.backingSize := word_room h.aligned h.inside

variable {d : Driver} {cfg : Config} {m : ByteMem}

theorem writeBulk_disciplined (a : Nat) (vs : List Word) (f : Flash)
    (hv : ∀ v ∈ vs, v.length = cfg.writeSize.bytes) (hf : Disciplined cfg m f.calls)
    (hl : (ledger cfg m f.calls).locked = false) (ha : a % cfg.writeSize.bytes = 0)
    (hb : a+vs.length*cfg.writeSize.bytes ≤ cfg.backingSize)
    (hp : ∀ x, a ≤ x → x < a+vs.length*cfg.writeSize.bytes →
      (ledger cfg m f.calls).programmed x = false) :
    let g := (backingStoreWriteBulk d cfg a vs f).2
    Disciplined cfg m g.calls ∧ (ledger cfg m g.calls).locked = false
      ∧ (ledger cfg m g.calls).lost = (ledger cfg m f.calls).lost
      ∧ ∀ x, a+vs.length*cfg.writeSize.bytes ≤ x → (ledger cfg m g.calls).programmed x
        = (ledger cfg m f.calls).programmed x := by
  induction vs generalizing a f with
  | nil => exact ⟨hf, hl, rfl, fun _ _ => rfl⟩
  | cons v vs ih =>
    have hw := hv v List.mem_cons_self
    have hlen : (v :: vs).length*cfg.writeSize.bytes
        = cfg.writeSize.bytes+vs.length*cfg.writeSize.bytes := by
      rw [List.length_cons, Nat.succ_mul, Nat.add_comm]
    rw [hlen] at hb hp ⊢
    have hall : ∀ ok, (ledger cfg m f.calls).Allows cfg (.write a v ok) := fun ok =>
      ⟨ha, hw, by omega, fun i hi => hp _ (by omega) (by omega), hl⟩
    simp only [backingStoreWriteBulk, backingStoreWrite]
    rcases Bool.eq_false_or_eq_true (d.writeOk f.calls.length) with hok | hok
    rotate_left
    · simp only [hok, Bool.not_false, if_true]
      exact ⟨hf.snoc (hall _), by simpa [Ledger.after] using hl, by simp [Ledger.after],
        fun x _ => by simp [Ledger.after]⟩
    · simp only [hok, Bool.not_true, Bool.false_eq_true, if_false, if_true]
      obtain ⟨h₁, h₂, h₃, h₄⟩ := ih (a+cfg.writeSize.bytes)
        ⟨f.mem.write a v, f.calls ++ [.write a v true]⟩
        (fun w hw => hv w (List.mem_cons_of_mem _ hw)) (hf.snoc (hall _))
        (by simpa [Ledger.after] using hl) (by rw [Nat.add_mod_right]; exact ha) (by omega)
        (fun x hx hx' => by
          have := hp x (by omega) (by omega)
          simp only [ledger_snoc, Ledger.after, this, hw]
          simp
          omega)
      refine ⟨h₁, h₂, h₃.trans (by simp [Ledger.after]), fun x hx => ?_⟩
      rw [h₄ x (by omega)]
      simp only [ledger_snoc, Ledger.after, hw]
      have hout : ¬ (a ≤ x ∧ x < a+cfg.writeSize.bytes) := by omega
      simp [hout]

structure Guarded (cfg : Config) (m : ByteMem) (s : State) : Prop where
  calls : Disciplined cfg m s.flash.calls
  flag : s.unlocked = !(ledger cfg m s.flash.calls).locked
  placed : (ledger cfg m s.flash.calls).lost = false →
    Placed cfg (ledger cfg m s.flash.calls) s.writeAddress

theorem writeConsolidated_disciplined {s : State} (hu : s.unlocked = true)
    (hc : Disciplined cfg m s.flash.calls) (hl : (ledger cfg m s.flash.calls).locked = false)
    (hp : ∀ x, (ledger cfg m s.flash.calls).programmed x = false) :
    let t := (wearLevelingWriteConsolidated d cfg s).2
    Disciplined cfg m t.flash.calls ∧ t.unlocked = true
      ∧ (ledger cfg m t.flash.calls).locked = false
      ∧ (ledger cfg m t.flash.calls).lost = (ledger cfg m s.flash.calls).lost
      ∧ ∀ x, cfg.logStart ≤ x → (ledger cfg m t.flash.calls).programmed x = false := by
  have hroom := cfg.room
  simp only [wearLevelingWriteConsolidated, wearLevelingUnlock, hu, if_true, reduceCtorEq, if_false]
  obtain ⟨h₁, h₂, h₃, h₄⟩ := writeBulk_disciplined (d := d) 0
    (words cfg s.cache 0 (cfg.items cfg.logicalSize)) s.flash (words_size cfg _ _ _) hc hl
    (Nat.zero_mod _) (by rw [length_words, items_logical]; omega) (fun x _ _ => hp x)
  rw [length_words, items_logical, Nat.zero_add] at h₄
  generalize backingStoreWriteBulk d cfg 0 _ _ = r at h₁ h₂ h₃ h₄ ⊢
  split
  · refine ⟨h₁, rfl, h₂, h₃, fun x hx => ?_⟩
    rw [h₄ x (by unfold Config.logStart at hx; omega), hp]
  · obtain ⟨h₅, h₆, h₇, h₈⟩ := writeBulk_disciplined (d := d) cfg.logicalSize
      (words cfg (ByteMem.blank.write 0 (raw64 (cfg.fnv (s.cache.read 0 cfg.logicalSize)))) 0
        (cfg.items 8)) r.2 (words_size cfg _ _ _) h₁ h₂ cfg.logical_mod
      (by rw [length_words, items_eight]; omega)
      (fun x hx _ => by rw [h₄ x hx, hp])
    rw [length_words, items_eight] at h₈
    refine ⟨h₅, rfl, h₆, h₇.trans h₃, fun x hx => ?_⟩
    rw [h₈ x hx, h₄ x (by unfold Config.logStart at hx; omega), hp]

theorem placed_logStart {l : Ledger} (h : ∀ x, cfg.logStart ≤ x → x < cfg.backingSize →
    l.programmed x = false) : Placed cfg l cfg.logStart := ⟨logStart_mod cfg, cfg.room, h⟩

theorem consolidateForce_guarded {s : State} (hu : s.unlocked = true)
    (hc : Disciplined cfg m s.flash.calls) (hl : (ledger cfg m s.flash.calls).locked = false)
    (hused : (ledger cfg m s.flash.calls).used cfg cfg.logStart = true) :
    let t := (wearLevelingConsolidateForce d cfg s).2
    Guarded cfg m t ∧ t.unlocked = true := by
  have hallow : ∀ ok, Disciplined cfg m (s.flash.calls ++ [.erase ok]) := fun ok => hc.snoc hl
  simp only [wearLevelingConsolidateForce, backingStoreErase]
  rcases Bool.eq_false_or_eq_true (d.eraseOk s.flash.calls.length) with hok | hok
  rotate_left
  · simp only [hok, Bool.not_false, if_true]
    refine ⟨⟨hallow _, ?_, fun hlost => ?_⟩, hu⟩
    · simp [Ledger.after, hu, hl]
    · simp [Ledger.after, hused] at hlost
  · simp only [hok, Bool.not_true, Bool.false_eq_true, if_false]
    obtain ⟨h₁, h₂, h₃, -, h₅⟩ := @writeConsolidated_disciplined d cfg m
      { s with flash := ⟨ByteMem.blank, s.flash.calls ++ [.erase true]⟩ } hu (hallow _)
      (by simpa [Ledger.after] using hl) (fun x => by simp [Ledger.after])
    refine ⟨⟨h₁, h₂.trans (by simp [h₃]), fun _ => placed_logStart fun x hx _ => h₅ x hx⟩, h₂⟩

theorem consolidateForce_status (s : State) :
    (wearLevelingConsolidateForce d cfg s).1 ≠ .success := by
  simp only [wearLevelingConsolidateForce, wearLevelingWriteConsolidated]
  split_ifs <;> simp

theorem appendRaw_guarded {s : State} {w : Word} (h : Guarded cfg m s) (hu : s.unlocked = true)
    (hlost : (ledger cfg m s.flash.calls).lost = false) (hw : w.length = cfg.writeSize.bytes) :
    let r := wearLevelingAppendRaw d cfg w s
    Guarded cfg m r.2 ∧ r.2.unlocked = true
      ∧ (r.1 = .success → (ledger cfg m r.2.flash.calls).lost = false) := by
  have hplaced := h.placed hlost
  have hroom := hplaced.room
  have hbytes := cfg.writeSize.bytes_ge
  have hl : (ledger cfg m s.flash.calls).locked = false := by simpa [hu] using h.flag
  have hallow : ∀ ok, Disciplined cfg m (s.flash.calls ++ [.write s.writeAddress w ok]) :=
    fun ok => h.calls.snoc ⟨hplaced.aligned, hw, hroom,
      fun i hi => hplaced.free _ (by omega) (by omega), hl⟩
  cases hok : d.writeOk s.flash.calls.length with
  | false =>
    rw [appendRaw_failed hok]
    refine ⟨⟨hallow _, ?_, fun _ => ?_⟩, hu, by simp⟩
    · simpa [Ledger.after] using h.flag
    · simpa [Ledger.after] using hplaced
  | true =>
    rw [appendRaw_written hok, wearLevelingConsolidateIfNeeded]
    split
    · rename_i hfull
      -- the word just written is in the log
      have hstart : cfg.logStart ≤ s.writeAddress := by
        obtain ⟨i, hi⟩ := Nat.dvd_of_mod_eq_zero (logStart_mod cfg)
        obtain ⟨j, hj⟩ := Nat.dvd_of_mod_eq_zero hplaced.aligned
        have hlt : cfg.logStart < s.writeAddress+cfg.writeSize.bytes :=
          Nat.lt_of_lt_of_le (show cfg.logStart < cfg.backingSize from cfg.room) hfull
        rw [hi, hj, ← Nat.mul_succ] at hlt
        rw [hi, hj]
        exact Nat.mul_le_mul_left _ (Nat.le_of_lt_succ (Nat.lt_of_mul_lt_mul_left hlt))
      obtain ⟨h₁, h₂⟩ := @consolidateForce_guarded d cfg m { s with
          writeAddress := s.writeAddress+cfg.writeSize.bytes
          flash := {
            mem := s.flash.mem.write s.writeAddress w
            calls := s.flash.calls ++ [.write s.writeAddress w true] } } hu (hallow _)
        (by simpa [Ledger.after] using hl)
        (used_of_programmed hstart hplaced.inside (by simp [Ledger.after]; omega))
      exact ⟨h₁, h₂, fun hr => absurd hr (consolidateForce_status _)⟩
    · rename_i hfull
      refine ⟨⟨hallow _, ?_, fun _ => ⟨?_, Nat.not_le.mp hfull, fun x hx hx' => ?_⟩⟩, hu, fun _ => ?_⟩
      · simpa [Ledger.after] using h.flag
      · rw [Nat.add_mod_right]
        exact hplaced.aligned
      · have := hplaced.free x (by dsimp only at hx; omega) hx'
        simp only [ledger_snoc, Ledger.after, this, hw]
        simp
        dsimp only at hx
        omega
      · simpa [Ledger.after] using hlost

theorem appendWords_guarded {s : State} (vs : List Word) (h : Guarded cfg m s)
    (hu : s.unlocked = true) (hlost : (ledger cfg m s.flash.calls).lost = false)
    (hv : ∀ v ∈ vs, v.length = cfg.writeSize.bytes) :
    let r := appendWords d cfg vs s
    Guarded cfg m r.2 ∧ r.2.unlocked = true
      ∧ (r.1 = .success → (ledger cfg m r.2.flash.calls).lost = false) := by
  induction vs generalizing s with
  | nil => exact ⟨h, hu, fun _ => hlost⟩
  | cons v vs ih =>
    obtain ⟨h₁, h₂, h₃⟩ := appendRaw_guarded (d := d) h hu hlost (hv v List.mem_cons_self)
    simp only [appendWords]
    generalize wearLevelingAppendRaw d cfg v s = r at h₁ h₂ h₃ ⊢
    split
    · exact ⟨h₁, h₂, h₃⟩
    · rename_i hr
      exact ih h₁ h₂ (h₃ (not_not.mp hr)) fun w hw => hv w (List.mem_cons_of_mem _ hw)

theorem appendEntries_guarded {s : State} (es : List Entry) (h : Guarded cfg m s)
    (hu : s.unlocked = true) (hlost : (ledger cfg m s.flash.calls).lost = false)
    (he : ∀ e ∈ es, ∀ v ∈ e.words, v.length = cfg.writeSize.bytes) :
    let r := appendEntries d cfg es s
    Guarded cfg m r.2 ∧ r.2.unlocked = true
      ∧ (r.1 = .success → (ledger cfg m r.2.flash.calls).lost = false) := by
  induction es generalizing s with
  | nil => exact ⟨h, hu, fun _ => hlost⟩
  | cons e es ih =>
    obtain ⟨h₁, h₂, h₃⟩ := appendWords_guarded (d := d) e.words h hu hlost (he e List.mem_cons_self)
    simp only [appendEntries]
    generalize appendWords d cfg e.words s = r at h₁ h₂ h₃ ⊢
    split
    · exact ⟨h₁, h₂, h₃⟩
    · rename_i hr
      exact ih h₁ h₂ (h₃ (not_not.mp hr)) fun f hf => he f (List.mem_cons_of_mem _ hf)

theorem entriesOf_size (fuel address : Nat) (p : List UInt8) :
    ∀ e ∈ entriesOf cfg fuel address p, ∀ v ∈ e.words, v.length = cfg.writeSize.bytes := by
  induction fuel generalizing address p with
  | zero => simp [entriesOf]
  | succ fuel ih =>
    simp only [entriesOf]
    split_ifs
    · simp
    · exact List.forall_mem_cons.mpr ⟨by simp [word01Entry, rawWord], ih _ _⟩
    · exact List.forall_mem_cons.mpr ⟨by simp [optimized64Entry, rawWord], ih _ _⟩
    · exact List.forall_mem_cons.mpr ⟨by simp [multibyteEntry, rawWord], ih _ _⟩
    · exact List.forall_mem_cons.mpr ⟨by simp [multibyteEntry, rawWord], ih _ _⟩

theorem lock_guarded {s : State} (h : Guarded cfg m s) (hu : s.unlocked = true) :
    let t := (wearLevelingLock d s).2
    Guarded cfg m t ∧ ((ledger cfg m t.flash.calls).locked = true
      ∨ t.flash.calls.getLast? = some (.lock false)) := by
  have hl : (ledger cfg m s.flash.calls).locked = false := by simpa [hu] using h.flag
  simp only [wearLevelingLock, hu, Bool.not_true, Bool.false_eq_true, if_false, backingStoreLock]
  rcases Bool.eq_false_or_eq_true (d.lockOk s.flash.calls.length) with hok | hok
  · simp only [hok, Bool.not_true, Bool.false_eq_true, if_false]
    refine ⟨⟨h.calls.snoc trivial, ?_, fun hlost => ?_⟩, .inl ?_⟩
    · simp [Ledger.after]
    · simp only [ledger_snoc, Ledger.after] at hlost ⊢
      exact ⟨(h.placed hlost).aligned, (h.placed hlost).inside, (h.placed hlost).free⟩
    · simp [Ledger.after]
  · simp only [hok, Bool.not_false, if_true]
    refine ⟨⟨h.calls.snoc trivial, ?_, fun hlost => ?_⟩, .inr (by simp)⟩
    · simpa [Ledger.after, hu] using hl
    · simp only [ledger_snoc, Ledger.after] at hlost ⊢
      exact h.placed hlost

theorem unlock_guarded {s : State} (h : Guarded cfg m s) :
    let u := wearLevelingUnlock d s
    Guarded cfg m u.2 ∧ (ledger cfg m u.2.flash.calls).lost = (ledger cfg m s.flash.calls).lost
      ∧ (u.1 = .unchanged ∧ s.unlocked = true ∧ u.2 = s
        ∨ u.1 = .failure ∧ u.2.unlocked = false
        ∨ u.1 = .success ∧ u.2.unlocked = true ∧ d.unlockOk s.flash.calls.length = true) := by
  cases hu : s.unlocked with
  | true =>
    simp only [wearLevelingUnlock, hu, if_true]
    exact ⟨h, trivial, .inl ⟨trivial, trivial, trivial⟩⟩
  | false =>
    have hl : (ledger cfg m s.flash.calls).locked = true := by simpa [hu] using h.flag
    simp only [wearLevelingUnlock, hu, Bool.false_eq_true, if_false, backingStoreUnlock]
    rcases Bool.eq_false_or_eq_true (d.unlockOk s.flash.calls.length) with hok | hok
    · simp only [hok, Bool.not_true, Bool.false_eq_true, if_false]
      refine ⟨⟨h.calls.snoc trivial, by simp [Ledger.after], fun hlost => ?_⟩,
        by simp [Ledger.after], .inr (.inr ⟨trivial, trivial, trivial⟩)⟩
      simp only [ledger_snoc, Ledger.after] at hlost ⊢
      exact ⟨(h.placed hlost).aligned, (h.placed hlost).inside, (h.placed hlost).free⟩
    · simp only [hok, Bool.not_false, if_true]
      refine ⟨⟨h.calls.snoc trivial, by simpa [Ledger.after, hu] using hl, fun hlost => ?_⟩,
        by simp [Ledger.after], .inr (.inl ⟨trivial, trivial⟩)⟩
      simp only [ledger_snoc, Ledger.after] at hlost ⊢
      exact h.placed hlost

theorem locked_of_flag {s : State} (h : Guarded cfg m s) (hu : s.unlocked = false) :
    (ledger cfg m s.flash.calls).locked = true := by simpa [hu] using h.flag

theorem writeRaw_guarded {s : State} (address : Nat) (value : List UInt8) (h : Guarded cfg m s)
    (hu : s.unlocked = true) (hlost : (ledger cfg m s.flash.calls).lost = false) :
    let r := wearLevelingWriteRaw d cfg address value s
    let w := if r.1 = .success then wearLevelingConsolidateIfNeeded d cfg r.2 else r
    Guarded cfg m w.2 ∧ w.2.unlocked = true := by
  obtain ⟨h₁, h₂, h₃⟩ := appendEntries_guarded (d := d) _ h hu hlost
    (entriesOf_size value.length address value)
  simp only [wearLevelingWriteRaw, writeRawLoop_eq]
  generalize appendEntries d cfg (entriesOf cfg value.length address value) s = r at h₁ h₂ h₃ ⊢
  split
  · rename_i hr
    -- a log that can be appended to has room
    rw [wearLevelingConsolidateIfNeeded, if_neg (Nat.not_le.mpr (h₁.placed (h₃ hr)).inside)]
    exact ⟨h₁, h₂⟩
  · exact ⟨h₁, h₂⟩

theorem write_guarded {s : State} (address : Nat) (value : List UInt8) (h : Guarded cfg m s)
    (hlost : Appends d cfg address value s → (ledger cfg m s.flash.calls).lost = false) :
    let t := (wearLevelingWrite d cfg address value s).2
    Guarded cfg m t ∧ ((ledger cfg m s.flash.calls).locked = true →
      (ledger cfg m t.flash.calls).locked = true
        ∨ t.flash.calls.getLast? = some (.lock false)) := by
  simp only [wearLevelingWrite]
  split
  · exact ⟨h, .inl⟩
  rename_i hfit
  split
  · exact ⟨h, .inl⟩
  rename_i hnew
  have hs : Guarded cfg m { s with cache := s.cache.write address value } :=
    ⟨h.calls, h.flag, h.placed⟩
  obtain ⟨h₁, h₂, h₃⟩ := unlock_guarded (d := d) hs
  generalize wearLevelingUnlock d { s with cache := s.cache.write address value } = u at h₁ h₂ h₃
  dsimp only at h₂ h₃
  rcases h₃ with ⟨hu, hun, hsame⟩ | ⟨hu, hun⟩ | ⟨hu, hun, hok⟩
  · have hl := hlost ⟨Nat.not_lt.mp hfit, hnew, fun hf => by simp [hun] at hf⟩
    obtain ⟨h₄, -⟩ := writeRaw_guarded (d := d) address value h₁ (by rw [hsame]; exact hun)
      (h₂.trans hl)
    simp only [hu, reduceCtorEq, if_false]
    refine ⟨h₄, fun hlocked => ?_⟩
    rw [h.flag, hlocked] at hun
    cases hun
  · rw [if_pos hu, wearLevelingLock, if_pos (by simp [hun])]
    exact ⟨h₁, fun _ => .inl (locked_of_flag h₁ hun)⟩
  · have hl := hlost ⟨Nat.not_lt.mp hfit, hnew, fun _ => hok⟩
    obtain ⟨h₄, h₅⟩ := writeRaw_guarded (d := d) address value h₁ hun (h₂.trans hl)
    obtain ⟨h₆, h₇⟩ := lock_guarded (d := d) h₄ h₅
    simp only [hu, reduceCtorEq, if_false, if_true]
    exact ⟨h₆, fun _ => h₇⟩

theorem erase_guarded {s : State} (h : Guarded cfg m s) :
    let t := (wearLevelingErase d cfg s).2
    Guarded cfg m t ∧ ((ledger cfg m s.flash.calls).locked = true →
      (ledger cfg m t.flash.calls).locked = true
        ∨ t.flash.calls.getLast? = some (.lock false)) := by
  have hu := unlock_guarded (d := d) h
  simp only [wearLevelingErase]
  generalize wearLevelingUnlock d s = u at hu
  obtain ⟨h₁, -, h₃⟩ := hu
  -- the erase itself, and the write address behind it
  have herased : ∀ u' : State, Guarded cfg m u' → u'.unlocked = true →
      let e := wearLevelingClearCache cfg { u' with flash := (backingStoreErase d u'.flash).2 }
      Guarded cfg m e ∧ e.unlocked = true := by
    intro u' h' hun
    have hl : (ledger cfg m u'.flash.calls).locked = false := by simpa [hun] using h'.flag
    simp only [backingStoreErase, wearLevelingClearCache]
    generalize d.eraseOk u'.flash.calls.length = ok
    refine ⟨⟨h'.calls.snoc hl, ?_, fun hlost => placed_logStart fun x hx hx' => ?_⟩, hun⟩
    · cases ok <;> simp [Ledger.after, hun, hl]
    · cases ok with
      | true => simp [Ledger.after]
      | false =>
        simp only [ledger_snoc, Ledger.after] at hlost ⊢
        by_contra hp
        rw [used_of_programmed hx hx' (by simpa using hp)] at hlost
        cases hlost
  rcases h₃ with ⟨hu, hun, hsame⟩ | ⟨hu, hun⟩ | ⟨hu, hun, -⟩
  · have := herased u.2 h₁ (by rw [hsame]; exact hun)
    simp only [hu, reduceCtorEq, if_false]
    refine ⟨this.1, fun hlocked => ?_⟩
    rw [h.flag, hlocked] at hun
    cases hun
  · simp only [hu, if_true, wearLevelingLock, hun, Bool.not_false]
    exact ⟨h₁, fun _ => .inl (locked_of_flag h₁ hun)⟩
  · obtain ⟨h₄, h₅⟩ := herased u.2 h₁ hun
    obtain ⟨h₆, h₇⟩ := lock_guarded (d := d) h₄ h₅
    simp only [hu, reduceCtorEq, if_false, if_true]
    exact ⟨h₆, fun _ => h₇⟩

theorem init_guarded (hi : ∀ n, d.initOk n = true) (hr : Readable d) {s : State}
    (h : Guarded cfg m s) (hlog : ∃ a c, Holds cfg s.flash.mem a c
      ∧ ∀ x, a ≤ x → (ledger cfg m s.flash.calls).programmed x = false) :
    let t := (wearLevelingInit d cfg s).2
    Guarded cfg m t ∧ (ledger cfg m t.flash.calls).locked
      = (ledger cfg m s.flash.calls).locked := by
  obtain ⟨a, c, hh, hfree⟩ := hlog
  obtain ⟨-, -, h₃, h₄, -, h₆⟩ := init_resumes hi hr hh
  obtain ⟨h₇, h₈⟩ := h₆.ledger (h.calls.snoc trivial)
  dsimp only at h₃ h₄ ⊢
  rw [ledger_snoc] at h₈
  refine ⟨⟨h₇, ?_, fun _ => ⟨?_, ?_, fun x hx _ => ?_⟩⟩, by rw [h₈]; rfl⟩
  · rw [h₄, h₈]
    exact h.flag
  · rw [h₃]
    exact plays_mod hh.ends.plays (logStart_mod cfg)
  · rw [h₃]
    exact hh.room
  · rw [h₈]
    exact hfree x (by omega)

theorem serve_guarded (hi : ∀ n, d.initOk n = true) (hr : Readable d) {s : State}
    {c : PublicCall} (h : Guarded cfg m s) (hc : Orderly d cfg m s c) :
    Guarded cfg m (serve d cfg s c) ∧ LeavesLocked d cfg m s c := by
  cases c with
  | read address length => exact ⟨h, .inl⟩
  | update c =>
    cases c with
    | write address value => exact write_guarded address value h hc
    | erase => exact erase_guarded h
    | init =>
      obtain ⟨h₁, h₂⟩ := init_guarded hi hr h hc
      exact ⟨h₁, fun hl => .inl (h₂.trans hl)⟩

theorem start_guarded (cfg : Config) (m : ByteMem) : Guarded cfg m (.reset ⟨m,[]⟩) where
  calls := trivial
  flag := rfl
  placed hlost := by
    refine ⟨Nat.zero_mod _, Nat.lt_of_le_of_lt (Nat.zero_le _) cfg.room, fun x _ hx => ?_⟩
    by_contra hp
    have hused : (Ledger.start cfg m).lost = true :=
      used_of_programmed (l := ⟨true, fun x => m x != 0, false⟩) (Nat.zero_le x) hx
        (by simpa [State.reset, ledger, Ledger.start] using hp)
    have hlost : (Ledger.start cfg m).lost = false := hlost
    rw [hused] at hlost
    cases hlost

/-- A run keeps to the access protocol as long as every initialisation finds a log that plays
back and every write has a place to append to. Unlocking, locking, erasing and writing may fail
at any time. -/
theorem follows_protocol (hi : ∀ n, d.initOk n = true) (hr : Readable d) (cfg : Config)
    (m : ByteMem) (run : List PublicCall)
    (h : Along (serve d cfg) (Orderly d cfg m) (.reset ⟨m,[]⟩) run) :
    FollowsProtocol d cfg m run := by
  have hstep : ∀ s c, Guarded cfg m s → Orderly d cfg m s c →
      LeavesLocked d cfg m s c ∧ Guarded cfg m (serve d cfg s c) := fun s c hs hc =>
    (serve_guarded hi hr hs hc).symm
  have hstart := start_guarded cfg m
  have hkept : Guarded cfg m (run.foldl (serve d cfg) (.reset ⟨m,[]⟩)) :=
    Along.invariant (fun s c hs hc => (hstep s c hs hc).2) hstart h
  exact ⟨hkept.calls,Along.imp hstep hstart h⟩

/-- A store that fails its first erase, its second write and a later unlock. -/
def stubborn : Driver := { Driver.faultFree with
  eraseOk := fun n => n ≠ 15
  writeOk := fun n => n ≠ 19
  unlockOk := fun n => n ≠ 38 }

/-- The erase that fails finds nothing in the log. -/
def someCalls : List PublicCall :=
  [.update .init, .update .erase, .update (.write 4 [0x14,0x15]), .read 4 2, .update .erase,
    .update .init, .update (.write 0 [7]), .update (.write 0 [8])]

theorem follows_protocol_someCalls : FollowsProtocol stubborn smallConfig ByteMem.blank someCalls :=
  follows_protocol (fun _ => rfl) (fun _ => rfl) smallConfig ByteMem.blank someCalls
    ⟨⟨_, _, holds_blank _, fun _ _ => rfl⟩, trivial, fun _ => by decide +kernel, trivial, trivial,
      ⟨_, _, holds_blank _, fun _ _ => rfl⟩, fun _ => by decide +kernel,
      fun _ => by decide +kernel, trivial⟩

instance (cfg : Config) (m : ByteMem) (calls : List BackingCall) :
    Decidable (Disciplined cfg m calls) :=
  inferInstanceAs (Decidable (Along (Ledger.after cfg) (Ledger.Allows cfg) _ calls))

def neverErases : Driver := { Driver.faultFree with eraseOk := fun _ => false }

/-- Twelve words fill the log; the erase behind them fails, and another word is to be written. -/
def fillingCalls : List PublicCall :=
  .update .init :: (List.range 13).map fun i => .update (.write 0 [UInt8.ofNat (i+1)])

/-- Over a log that does not play back, the initialisation erases while the store is locked. And
when the erase fails that a full log asks for, the next write is behind the end of the store. -/
theorem protocol_broken :
    ¬ FollowsProtocol .faultFree smallConfig (ByteMem.blank.write 24 [0xC0,0]) [.update .init]
      ∧ ¬ FollowsProtocol neverErases smallConfig
        ByteMem.blank fillingCalls := by
  have h₁ : ¬ Disciplined smallConfig (ByteMem.blank.write 24 [0xC0,0])
      (([.update .init] : List PublicCall).foldl (serve .faultFree smallConfig)
        (.reset ⟨ByteMem.blank.write 24 [0xC0,0],[]⟩)).flash.calls := by decide +kernel
  have h₂ : ¬ Disciplined smallConfig ByteMem.blank
      (fillingCalls.foldl (serve neverErases smallConfig)
        (.reset ⟨ByteMem.blank,[]⟩)).flash.calls := by decide +kernel
  exact ⟨mt And.left h₁, mt And.left h₂⟩

end QmkFirmware.WearLeveling
