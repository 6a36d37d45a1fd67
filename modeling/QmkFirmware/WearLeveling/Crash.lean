import QmkFirmware.WearLeveling.Durability

/-!
Power loss between the backing store writes of one logged write. An entry of several
words has no commit marker: playback takes as many words as the entry's own length says,
and those that were never written read as zero.
-/

set_option autoImplicit false

namespace QmkFirmware.WearLeveling
open LogReplay

def backingWrites (calls : List BackingCall) : List (Nat × Word) :=
  calls.filterMap fun
    | .write a v true => some (a,v)
    | _ => none

def applyWrites (ws : List (Nat × Word)) (m : ByteMem) : ByteMem :=
  ws.foldl (fun m w => m.write w.1 w.2) m

/-- The backing store writes of one `wear_leveling_write`. -/
def writesOf (cfg : Config) (address : Nat) (value : List UInt8) (s : State) :
    List (Nat × Word) :=
  backingWrites ((wearLevelingWrite .faultFree cfg address value s).2.flash.calls.drop
    s.flash.calls.length)

/-- The store after power was lost behind these writes. -/
def cut (f : Flash) (ws : List (Nat × Word)) : Flash := { f with mem := applyWrites ws f.mem }

theorem backingWrites_writeCalls (a : Nat) (vs : List Word) (m : ByteMem) (k : Nat) :
    (backingWrites (writeCalls a vs)).length = vs.length
      ∧ applyWrites ((backingWrites (writeCalls a vs)).take k) m = m.write a (vs.take k).flatten := by
  induction vs generalizing a m k with
  | nil => simp [writeCalls, backingWrites, applyWrites]
  | cons v vs ih =>
    have hcons : backingWrites (writeCalls a (v :: vs))
        = (a,v) :: backingWrites (writeCalls (a+v.length) vs) := rfl
    cases k with
    | zero =>
      refine ⟨?_, by simp [applyWrites]⟩
      rw [hcons, List.length_cons, (ih (a+v.length) m 0).1, List.length_cons]
    | succ k =>
      obtain ⟨h₁, h₂⟩ := ih (a+v.length) (m.write a v) k
      refine ⟨by rw [hcons, List.length_cons, h₁, List.length_cons], ?_⟩
      rw [hcons, List.take_succ_cons, List.take_succ_cons, List.flatten_cons,
        ByteMem.write_append]
      exact h₂

theorem entriesOf_cons (cfg : Config) (fuel address : Nat) {p : List UInt8}
    (hp : p.length ≠ 0) :
    ∃ e n, 0 < n ∧ n ≤ p.length ∧ e.address = address ∧ e.value = p.take n
      ∧ (e.words.length = 1 ∨ n ≤ 5 ∧ e = multibyteEntry cfg address (p.take n))
      ∧ entriesOf cfg (fuel+1) address p = e :: entriesOf cfg fuel (address+n) (p.drop n) := by
  simp only [entriesOf, if_neg hp]
  split
  · rename_i h
    exact ⟨_, 2, by omega, h.2.1, rfl, rfl, .inl rfl, rfl⟩
  · split
    · exact ⟨_, 1, by omega, by omega, rfl, rfl, .inl rfl, rfl⟩
    · split
      · rename_i h
        exact ⟨_, logEntryMultibyteMaxBytes, by decide, h, rfl, rfl, .inr ⟨by decide, rfl⟩, rfl⟩
      · rename_i h
        simp only [logEntryMultibyteMaxBytes] at h
        exact ⟨_, p.length, by omega, Nat.le_refl _, rfl, rfl, .inr ⟨by omega, rfl⟩, rfl⟩

/-- The first of the entries hold a first part of the value; the others are the cut of the
rest. -/
theorem entriesOf_split {cfg : Config} {fuel address : Nat} {p : List UInt8} {fs gs : List Entry}
    (he : entriesOf cfg fuel address p = fs ++ gs) :
    ∃ n k, n ≤ p.length ∧ gs = entriesOf cfg k (address+n) (p.drop n)
      ∧ ∀ c, applyEntries fs c = c.write address (p.take n) := by
  induction fs generalizing fuel address p with
  | nil => exact ⟨0, fuel, Nat.zero_le _, by simpa using he.symm, by simp [applyEntries]⟩
  | cons f fs ih =>
    obtain ⟨fuel, rfl⟩ : ∃ k, fuel = k+1 := by
      cases fuel with
      | zero => simp [entriesOf] at he
      | succ k => exact ⟨k, rfl⟩
    have hp : p.length ≠ 0 := by
      intro h
      simp [entriesOf, h] at he
    obtain ⟨e, n, hn, hnp, ha, hval, -, hcons⟩ := entriesOf_cons cfg fuel address hp
    rw [hcons, List.cons_append, List.cons.injEq] at he
    obtain ⟨n', k, hn', hg, happ⟩ := ih he.2
    rw [List.length_drop] at hn'
    refine ⟨n+n', k, by omega, by rw [hg, List.drop_drop, Nat.add_assoc], fun c => ?_⟩
    have hl : (p.take n).length = n := by simp; omega
    rw [List.take_add, ByteMem.write_append, hl, ← happ, ← he.1]
    show applyEntries fs (c.write e.address e.value) = _
    rw [ha, hval]

/-- `n` words of the value were stored, and they end between two entries. -/
def EntryBoundary (cfg : Config) (address : Nat) (value : List UInt8) (n : Nat) : Prop :=
  ∃ fs gs, entriesOf cfg value.length address value = fs ++ gs ∧ n = (entryWords fs).length

/-- `n` words of the value were stored, and they end inside the entry `e`, behind `j` of its
words. -/
def Torn (cfg : Config) (address : Nat) (value : List UInt8) (n : Nat) (e : Entry) (j : Nat) :
    Prop :=
  ∃ fs gs, entriesOf cfg value.length address value = fs ++ e :: gs
    ∧ n = (entryWords fs).length+j ∧ 0 < j ∧ j < e.words.length

theorem boundary_or_torn (es : List Entry) {n : Nat} (h : n ≤ (entryWords es).length) :
    (∃ fs gs, es = fs ++ gs ∧ n = (entryWords fs).length)
    ∨ ∃ fs e gs j, es = fs ++ e :: gs ∧ n = (entryWords fs).length+j ∧ 0 < j
        ∧ j < e.words.length := by
  induction es generalizing n with
  | nil => exact .inl ⟨[], [], rfl, by simpa [entryWords] using h⟩
  | cons e es ih =>
    have hw : ∀ fs, entryWords (e :: fs) = e.words ++ entryWords fs := fun _ => rfl
    rw [hw, List.length_append] at h
    by_cases hn : n = 0
    · exact .inl ⟨[], e :: es, rfl, by simpa [entryWords] using hn⟩
    by_cases hj : n < e.words.length
    · exact .inr ⟨[], e, es, n, rfl, by simp [entryWords], by omega, hj⟩
    rcases ih (n := n-e.words.length) (by omega) with ⟨fs, gs, h₁, h₂⟩ | ⟨fs, f, gs, j, h₁, h₂, h₃⟩
    · refine .inl ⟨e :: fs, gs, by rw [h₁, List.cons_append], ?_⟩
      rw [hw, List.length_append]
      omega
    · refine .inr ⟨e :: fs, f, gs, j, by rw [h₁, List.cons_append], ?_, h₃⟩
      rw [hw, List.length_append]
      omega

/-- Outside the written range every byte is the old one, inside it the old or the new one. -/
def OldOrNew (address : Nat) (value : List UInt8) (old now : ByteMem) : Prop :=
  ∀ x, (x < address ∨ address+value.length ≤ x → now x = old x)
    ∧ (now x = old x ∨ now x = value.getD (x-address) 0)

def OldNewOrZero (address : Nat) (value : List UInt8) (old now : ByteMem) : Prop :=
  ∀ x, (x < address ∨ address+value.length ≤ x → now x = old x)
    ∧ (now x = old x ∨ now x = value.getD (x-address) 0 ∨ now x = 0)

theorem oldOrNew_take (address : Nat) (value : List UInt8) (c : ByteMem) (n : Nat) :
    OldOrNew address value c (c.write address (value.take n)) := by
  intro x
  have hl := List.length_take_le n value
  have hl' : (value.take n).length ≤ value.length := by simp
  by_cases hx : x < address ∨ address+(value.take n).length ≤ x
  · rw [ByteMem.write_outside hx]
    exact ⟨fun _ => rfl, .inl rfl⟩
  · have h₁ : address ≤ x := by omega
    have h₂ : x-address < (value.take n).length := by omega
    refine ⟨fun h => absurd h (by omega), .inr ?_⟩
    have h₃ : x-address < value.length := by omega
    simp [ByteMem.write_apply, h₁, List.getD, List.getElem?_eq_getElem h₂,
      List.getElem?_eq_getElem h₃]

/-- A torn entry is a multi-byte one. Playback takes all its words; what is missing of the
header or the value reads as zero. -/
theorem holds_torn {cfg : Config} {m : ByteMem} {b : Nat} {c : ByteMem} (h : Holds cfg m b c)
    {a j : Nat} {v : List UInt8} (hv₁ : 1 ≤ v.length) (hv₅ : v.length ≤ 5)
    (hx : a+v.length ≤ cfg.logicalSize) (hj : 0 < j) (hj' : j < multibyteWords cfg v.length)
    (hr : b+multibyteWords cfg v.length*cfg.writeSize.bytes < cfg.backingSize) :
    ∃ w, w.length = v.length
      ∧ (∀ i < v.length,
          w.getD i 0 = if 3+i < j*cfg.writeSize.bytes then v.getD i 0 else 0)
      ∧ Holds cfg (m.write b ((multibyteEntry cfg a v).words.take j).flatten)
          (b+multibyteWords cfg v.length*cfg.writeSize.bytes)
          (c.write (if 3 ≤ j*cfg.writeSize.bytes then a else a/256*256) w) := by
  have hlog := cfg.logical_le
  have hw := cfg.writeSize.bytes_ge
  have hwords : ((multibyteEntry cfg a v).words.take j).flatten
      = (multibyteLog a v).read 0 (j*cfg.writeSize.bytes) := by
    rw [← flatten_rawWords, multibyteEntry, ← List.map_take, List.take_range,
      Nat.min_eq_left (by omega)]
  rw [hwords]
  have hN : 2 ≤ j*cfg.writeSize.bytes := Nat.le_trans hw (Nat.le_mul_of_pos_left _ hj)
  have hN' : j*cfg.writeSize.bytes < multibyteWords cfg v.length*cfg.writeSize.bytes :=
    Nat.mul_lt_mul_of_pos_right hj' (by omega)
  generalize j*cfg.writeSize.bytes = N at hN hN' ⊢
  set m' := m.write b ((multibyteLog a v).read 0 N) with hm'
  -- bytes of the entry that are stored, and those that are not
  have stored : ∀ i < N, m' (b+i) = multibyteLog a v i := fun i hi => entryAt_written hi
  have missing : ∀ i, N ≤ i → m' (b+i) = 0 := by
    intro i hi
    rw [hm', ByteMem.write_outside (by simp; omega)]
    exact h.ends.blank _ (by omega)
  have hvalue : ∀ i < v.length, multibyteLog a v (3+i) = v.getD i 0 := by
    intro i hi
    simp [multibyteLog, ByteMem.write_apply, List.getD, List.getElem?_eq_getElem hi]
  have hw' : ∀ i < v.length, (m'.read (b+3) v.length).getD i 0
      = if 3+i < N then v.getD i 0 else 0 := by
    intro i hi
    have hget : (m'.read (b+3) v.length).getD i 0 = m' (b+(3+i)) := by
      simp [ByteMem.read, List.getD, hi, Nat.add_assoc]
    rw [hget]
    split
    · rename_i hs
      rw [stored _ hs, hvalue i hi]
    · exact missing _ (by omega)
  refine ⟨m'.read (b+3) v.length, by simp, hw', ?_⟩
  refine h.append (by rw [ByteMem.length_read]; omega) hr ?_
  rw [← hm']
  have e₀ := stored 0 (by omega)
  have e₁ := stored 1 (by omega)
  rw [multibyteLog_head (by omega)] at e₀ e₁
  rw [Nat.add_zero] at e₀
  by_cases hhead : 3 ≤ N
  · rw [if_pos hhead]
    have e₂ := stored 2 (by omega)
    rw [multibyteLog_head (by omega)] at e₂
    refine nextEntry_multibyte h.room ?_ ?_ hv₁ hv₅ hx
    · rw [e₀, multibyte_head_toNat (by omega) (by omega)]
    · rw [e₁, e₂, multibyte_mid_toNat, multibyte_low_toNat]
      omega
  · -- the low address byte is in the word that is missing
    rw [if_neg hhead]
    have e₂ := missing 2 (by omega)
    refine nextEntry_multibyte h.room ?_ ?_ hv₁ hv₅ (by omega)
    · rw [e₀, multibyte_head_toNat (by omega) (by omega)]
      omega
    · rw [e₁, e₂, multibyte_mid_toNat]
      simp
      omega

theorem holds_entries {cfg : Config} (es : List Entry) {m : ByteMem} {b : Nat} {c : ByteMem}
    (h : Holds cfg m b c) (he : ∀ e ∈ es, e.Encodes cfg)
    (hr : b+(entryWords es).flatten.length < cfg.backingSize) :
    Holds cfg (m.write b (entryWords es).flatten) (b+(entryWords es).flatten.length)
      (applyEntries es c) := by
  induction es generalizing m b c with
  | nil => simpa [entryWords, applyEntries] using h
  | cons e es ih =>
    have hw : entryWords (e :: es) = e.words ++ entryWords es := rfl
    rw [hw, List.flatten_append, List.length_append] at hr
    have hone := h.append (Nat.le_refl _) (by omega)
      ((he e List.mem_cons_self).reads m b c h.room)
    rw [hw, List.flatten_append, ByteMem.write_append, List.length_append, ← Nat.add_assoc]
    exact ih hone (fun f hf => he f (List.mem_cons_of_mem _ hf)) (by omega)

theorem holds_boundary {cfg : Config} {m : ByteMem} {b : Nat} {c : ByteMem}
    (h : Holds cfg m b c) {address : Nat} {value : List UInt8} {n : Nat}
    (hv : address+value.length ≤ cfg.logicalSize)
    (hr : b+(entryWords (entriesOf cfg value.length address value)).flatten.length
      < cfg.backingSize)
    (hn : EntryBoundary cfg address value n) :
    ∃ a c', Holds cfg (m.write b ((entryWords (entriesOf cfg value.length address value)).take
        n).flatten) a c' ∧ OldOrNew address value c c' := by
  obtain ⟨fs, gs, he, rfl⟩ := hn
  have henc := entriesOf_encodes cfg value.length address value hv
  obtain ⟨n, k, -, -, happ⟩ := entriesOf_split he
  rw [he] at henc hr ⊢
  have hw : entryWords (fs ++ gs) = entryWords fs ++ entryWords gs := by simp [entryWords]
  rw [hw, List.flatten_append, List.length_append] at hr
  rw [hw, List.take_left]
  refine ⟨_, _, holds_entries fs h (fun e h => henc e (List.mem_append_left _ h)) (by omega), ?_⟩
  rw [happ]
  exact oldOrNew_take address value c n

def Misplaced (e : Entry) (x : Nat) : Prop :=
  e.address/256*256 ≤ x ∧ x < e.address/256*256+e.value.length

theorem holds_inside {cfg : Config} {m : ByteMem} {b : Nat} {c : ByteMem}
    (h : Holds cfg m b c) {address : Nat} {value : List UInt8} {n : Nat} {e : Entry} {j : Nat}
    (hv : address+value.length ≤ cfg.logicalSize)
    (hr : b+(entryWords (entriesOf cfg value.length address value)).flatten.length
      < cfg.backingSize)
    (hn : Torn cfg address value n e j) :
    cfg.writeSize ≠ .eight
    ∧ ∃ a c', Holds cfg (m.write b ((entryWords (entriesOf cfg value.length address value)).take
        n).flatten) a c'
      ∧ (3 ≤ j*cfg.writeSize.bytes → OldNewOrZero address value c c')
      ∧ (j*cfg.writeSize.bytes < 3 → ∀ x, (Misplaced e x → c' x = 0) ∧
          (¬ Misplaced e x → (x < address ∨ address+value.length ≤ x → c' x = c x)
            ∧ (c' x = c x ∨ c' x = value.getD (x-address) 0))) := by
  obtain ⟨fs, gs, he, rfl, hj, hj'⟩ := hn
  have henc := entriesOf_encodes cfg value.length address value hv
  obtain ⟨n, k, hnle, hrest, happ⟩ := entriesOf_split he
  -- the torn entry is the first one of the rest of the value
  obtain ⟨k, rfl⟩ : ∃ i, k = i+1 := by
    cases k with
    | zero => simp [entriesOf] at hrest
    | succ i => exact ⟨i, rfl⟩
  have hp : (value.drop n).length ≠ 0 := by
    intro h0
    simp [entriesOf, h0] at hrest
  obtain ⟨f, l, hl, hl', -, -, hf, hcons⟩ := entriesOf_cons cfg k (address+n) hp
  rw [hcons, List.cons.injEq] at hrest
  obtain ⟨rfl, -⟩ := hrest
  obtain ⟨hl₅, rfl⟩ : l ≤ 5 ∧ e = multibyteEntry cfg (address+n) ((value.drop n).take l) := by
    rcases hf with h1 | h1
    · omega
    · exact h1
  rw [List.length_drop] at hl'
  set v := (value.drop n).take l with hvdef
  have hvl : v.length = l := by simp [hvdef]; omega
  have hwl : (multibyteEntry cfg (address+n) v).words.length = multibyteWords cfg v.length := by
    simp [multibyteEntry]
  rw [hwl] at hj'
  have hws : cfg.writeSize ≠ .eight := by
    intro h8
    simp [multibyteWords, h8] at hj'
    omega
  have hfull : (multibyteEntry cfg (address+n) v).words.flatten.length
      = multibyteWords cfg v.length*cfg.writeSize.bytes := by
    simp [multibyteEntry, flatten_rawWords]
  have hwords : entryWords (fs ++ multibyteEntry cfg (address+n) v :: gs)
      = entryWords fs ++ ((multibyteEntry cfg (address+n) v).words ++ entryWords gs) := by
    simp [entryWords]
  rw [he] at henc hr ⊢
  rw [hwords, List.flatten_append, List.flatten_append, List.length_append, List.length_append,
    hfull] at hr
  have hfs := holds_entries fs h (fun e h => henc e (List.mem_append_left _ h)) (by omega)
  obtain ⟨w, hwlen, hwv, hhold⟩ := holds_torn (v := v) hfs (by omega) (by omega)
    (show address+n+v.length ≤ cfg.logicalSize by omega) hj hj' (by omega)
  rw [hwords, List.take_append, List.take_of_length_le (by omega), Nat.add_sub_cancel_left,
    List.take_append_of_le_length (by omega), List.flatten_append, ByteMem.write_append]
  refine ⟨hws, _, _, hhold, ?_, ?_⟩
  · intro h3 x
    rw [if_pos h3, happ]
    have hbase := oldOrNew_take address value c n x
    by_cases hx : address+n ≤ x ∧ x < address+n+w.length
    · have hi : x-(address+n) < v.length := by omega
      have hget : (c.write address (value.take n)).write (address+n) w x
          = w.getD (x-(address+n)) 0 := by
        have : x-(address+n) < w.length := by omega
        simp [ByteMem.write_apply, hx.1, List.getD, List.getElem?_eq_getElem this]
      have hval : v.getD (x-(address+n)) 0 = value.getD (x-address) 0 := by
        have h₁ : x-(address+n) < l := by omega
        have h₂ : n+(x-(address+n)) = x-address := by omega
        simp [hvdef, List.getD, h₁, h₂]
      refine ⟨fun h => absurd h (by omega), ?_⟩
      rw [hget, hwv _ hi]
      split
      · exact .inr (.inl hval)
      · exact .inr (.inr rfl)
    · rw [ByteMem.write_outside (by omega)]
      exact ⟨hbase.1, hbase.2.imp_right .inl⟩
  · intro h3 x
    rw [if_neg (by omega), happ]
    have hbase := oldOrNew_take address value c n x
    refine ⟨fun hm => ?_, fun hm => ?_⟩
    · obtain ⟨h₁, h₂⟩ := hm
      simp only [multibyteEntry] at h₁ h₂
      have hi : x-(address+n)/256*256 < w.length := by omega
      have hget : (c.write address (value.take n)).write ((address+n)/256*256) w x
          = w.getD (x-(address+n)/256*256) 0 := by
        simp [ByteMem.write_apply, h₁, List.getD, List.getElem?_eq_getElem hi]
      rw [hget, hwv _ (by omega), if_neg (by omega)]
    · simp only [Misplaced, multibyteEntry] at hm
      rw [ByteMem.write_outside (by omega)]
      exact hbase

theorem Fits.of_old {cfg : Config} {address : Nat} {value : List UInt8} {c c' : ByteMem}
    (hf : Fits cfg c) (hv : address+value.length ≤ cfg.logicalSize)
    (h : ∀ x, address+value.length ≤ x → c' x = c x ∨ c' x = 0) : Fits cfg c' := fun x hx => by
  rcases h x (by omega) with h | h
  · rw [h, hf x hx]
  · exact h

theorem writesOf_logged {cfg : Config} {address : Nat} {value : List UInt8} {s : State}
    (h : (wearLevelingWrite .faultFree cfg address value s).2.flash.calls
      = s.flash.calls ++ .unlock true :: (writeCalls s.writeAddress
        (entryWords (entriesOf cfg value.length address value)) ++ [.lock true])) :
    writesOf cfg address value s = backingWrites (writeCalls s.writeAddress
      (entryWords (entriesOf cfg value.length address value))) := by
  simp [writesOf, h, backingWrites]

/-- What a cut inside the entry `e`, behind `j` of its words, does to the cache. It is a
multi-byte entry of a 2- or 4-byte store. With its header stored, missing bytes read as
zero; when the header is cut (2-byte stores) the zeros land at the entry's address with its
low byte cleared. -/
def TornTo (cfg : Config) (address : Nat) (value : List UInt8) (e : Entry) (j : Nat)
    (old now : ByteMem) : Prop :=
  cfg.writeSize ≠ .eight
  ∧ (3 ≤ j*cfg.writeSize.bytes → OldNewOrZero address value old now)
  ∧ (j*cfg.writeSize.bytes < 3 → ∀ x, (Misplaced e x → now x = 0) ∧
      (¬ Misplaced e x → (x < address ∨ address+value.length ≤ x → now x = old x)
        ∧ (now x = old x ∨ now x = value.getD (x-address) 0)))

/-- From `t` on the layer is a plain byte array again: every later run reads back what it
found and what it wrote, and so does a reboot at any moment. -/
def ReadsBack (cfg : Config) (t : State) : Prop :=
  ∀ more : List Call, (∀ c ∈ more, c.Valid cfg) →
    let u := run .faultFree cfg more t
    (∀ a n, a+n ≤ cfg.logicalSize →
      wearLevelingRead cfg a n u = (.success, (plain more t.cache).read a n))
    ∧ (reinit .faultFree cfg u.flash).cache = u.cache
    ∧ (reinit .faultFree cfg u.flash).writeAddress = u.writeAddress

theorem reinit_readsBack {cfg : Config} {f : Flash} {a : Nat} {c : ByteMem}
    (hh : Holds cfg f.mem a c) (hf : Fits cfg c) :
    (reinit .faultFree cfg f).cache = c ∧ ReadsBack cfg (reinit .faultFree cfg f) := by
  obtain ⟨h₁, h₂, h₃, h₄⟩ := reinit_holds Sound.faultFree hh
  have hsync : Synced cfg (reinit .faultFree cfg f) :=
    ⟨by rw [h₄, h₂, h₁]; exact hh, h₃, by rw [h₁]; exact hf⟩
  refine ⟨h₁, fun more hmore => ?_⟩
  obtain ⟨hu, hcache⟩ := run_synced hsync more hmore
  exact ⟨fun a n h => by rw [read_in_range h, hcache], hu.reinit Sound.faultFree⟩

theorem cut_logged {cfg : Config} {address : Nat} {value : List UInt8} {s : State}
    (hs : Synced cfg s) (hv : address+value.length ≤ cfg.logicalSize) {ws : List (Nat × Word)}
    (hws : ws <+: backingWrites (writeCalls s.writeAddress
      (entryWords (entriesOf cfg value.length address value))))
    (hroom : s.writeAddress+(entryWords (entriesOf cfg value.length address value)).flatten.length
      < cfg.backingSize) :
    let t := reinit .faultFree cfg (cut s.flash ws)
    (EntryBoundary cfg address value ws.length → OldOrNew address value s.cache t.cache
      ∧ ReadsBack cfg t)
    ∧ ∀ e j, Torn cfg address value ws.length e j →
      TornTo cfg address value e j s.cache t.cache ∧ ReadsBack cfg t := by
  intro t
  have hmem : (cut s.flash ws).mem = s.flash.mem.write s.writeAddress
      ((entryWords (entriesOf cfg value.length address value)).take ws.length).flatten := by
    have h := (backingWrites_writeCalls s.writeAddress
      (entryWords (entriesOf cfg value.length address value)) s.flash.mem ws.length).2
    rw [← List.prefix_iff_eq_take.mp hws] at h
    exact h
  refine ⟨fun hb => ?_, fun e j ht => ?_⟩
  · obtain ⟨a, c', hh, hold⟩ := holds_boundary hs.holds hv hroom hb
    rw [← hmem] at hh
    obtain ⟨h₁, h₂⟩ := reinit_readsBack hh
      (hs.fits.of_old hv fun x hx => .inl ((hold x).1 (.inr hx)))
    refine ⟨?_, h₂⟩
    show OldOrNew address value s.cache (reinit .faultFree cfg (cut s.flash ws)).cache
    rw [h₁]
    exact hold
  · obtain ⟨h8, a, c', hh, hzero, hmis⟩ := holds_inside hs.holds hv hroom ht
    rw [← hmem] at hh
    have hfit : Fits cfg c' := hs.fits.of_old hv fun x hx => by
      by_cases h3 : 3 ≤ j*cfg.writeSize.bytes
      · rcases (hzero h3 x).2 with h | h | h
        · exact .inl h
        · exact .inl ((hzero h3 x).1 (.inr hx))
        · exact .inr h
      · by_cases hm : Misplaced e x
        · exact .inr ((hmis (by omega) x).1 hm)
        · exact .inl (((hmis (by omega) x).2 hm).1 (.inr hx))
    obtain ⟨h₁, h₂⟩ := reinit_readsBack hh hfit
    refine ⟨?_, h₂⟩
    show TornTo cfg address value e j s.cache (reinit .faultFree cfg (cut s.flash ws)).cache
    rw [h₁]
    exact ⟨h8, hzero, hmis⟩

/-- Power loss after any prefix of the backing store writes of a logged write. Between two
entries the range holds old or new bytes and nothing else changed; a cut inside an entry is
described by `TornTo`. Either way the layer goes on from what it recovered. -/
theorem crash_within_log (cfg : Config) (calls : List Call) (hc : ∀ c ∈ calls, c.Valid cfg)
    (address : Nat) (value : List UInt8) (hv : address+value.length ≤ cfg.logicalSize)
    (hn : (wearLevelingWrite .faultFree cfg address value
      (run .faultFree cfg calls (boot .faultFree cfg))).1 ≠ .consolidated)
    (ws : List (Nat × Word))
    (hws : ws <+: writesOf cfg address value (run .faultFree cfg calls (boot .faultFree cfg))) :
    let s := run .faultFree cfg calls (boot .faultFree cfg)
    let t := reinit .faultFree cfg (cut s.flash ws)
    (EntryBoundary cfg address value ws.length ∨ ∃ e j, Torn cfg address value ws.length e j)
    ∧ (EntryBoundary cfg address value ws.length → OldOrNew address value s.cache t.cache)
    ∧ (∀ e j, Torn cfg address value ws.length e j →
        TornTo cfg address value e j s.cache t.cache)
    ∧ ReadsBack cfg t := by
  obtain ⟨hs, -⟩ := run_synced (boot_synced Sound.faultFree cfg).1 calls hc
  generalize run .faultFree cfg calls (boot .faultFree cfg) = s at hs hn hws
  intro s' t
  obtain ⟨-, ho⟩ := write_outcome Sound.faultFree hv hs.locked hs.holds
  have hwd : writesOf cfg address value s = backingWrites
      ((wearLevelingWrite .faultFree cfg address value s).2.flash.calls.drop
        s.flash.calls.length) := rfl
  generalize hr : wearLevelingWrite .faultFree cfg address value s = r at ho hn hwd
  cases ho with
  | unchanged =>
    rw [hwd, List.drop_length] at hws
    obtain rfl : ws = [] := List.prefix_nil.mp hws
    obtain ⟨h₁, h₂⟩ := reinit_readsBack (show Holds cfg (cut s.flash []).mem _ _ from hs.holds)
      hs.fits
    refine ⟨.inl ⟨[], _, rfl, rfl⟩, fun _ => ?_, fun e j ht => ?_, h₂⟩
    · show OldOrNew address value s.cache (reinit .faultFree cfg (cut s.flash [])).cache
      rw [h₁]
      exact fun x => ⟨fun _ => rfl, .inl rfl⟩
    · obtain ⟨fs, gs, -, hlen, hj, -⟩ := ht
      rw [List.length_nil] at hlen
      omega
  | consolidated h₁ => exact absurd h₁ hn
  | failed _ _ h _ =>
    obtain ⟨n, hn⟩ := h
    simp [Driver.faultFree] at hn
  | logged h₁ h₂ h₃ h₄ h₅ =>
    rw [← hr] at h₄
    rw [writesOf_logged h₄] at hws
    have hroom := h₃.room
    rw [h₅] at hroom
    obtain ⟨hbound, htorn⟩ := cut_logged hs hv hws hroom
    obtain ⟨hlen, -⟩ := backingWrites_writeCalls s.writeAddress
      (entryWords (entriesOf cfg value.length address value)) s.flash.mem 0
    rcases boundary_or_torn (entriesOf cfg value.length address value)
      (n := ws.length) (hlen ▸ hws.length_le) with hb | ⟨fs, e, gs, j, ht⟩
    · exact ⟨.inl hb, fun hb => (hbound hb).1, fun e j ht => (htorn e j ht).1, (hbound hb).2⟩
    · have ht : Torn cfg address value ws.length e j := ⟨fs, gs, ht⟩
      exact ⟨.inr ⟨e, j, ht⟩, fun hb => (hbound hb).1, fun e j ht => (htorn e j ht).1,
        (htorn e j ht).2⟩

/-- A two-byte store with addresses beyond the single-byte encoding. -/
def pageConfig : Config where
  writeSize := .two
  logicalSize := 66
  backingSize := 132
  fnv bs := fnv64aBuf bs fnv1a64Init
  logical_pos := by decide
  backing_ge := by decide
  logical_mod := by decide
  backing_mod := by decide
  logical_le := by decide
  room := by decide

/-- Losing all but the first word of an entry for address 65 clears address 0. -/
theorem crash_clears_other_byte :
    let s := run .faultFree pageConfig [.write 0 [7]] (boot .faultFree pageConfig)
    (wearLevelingWrite .faultFree pageConfig 65 [5] s).1 = .success
    ∧ [(76,[8,0])] <+: writesOf pageConfig 65 [5] s
    ∧ ¬ OldOrNew 65 [5] s.cache (reinit .faultFree pageConfig (cut s.flash [(76,[8,0])])).cache := by
  refine ⟨by decide +kernel, by decide +kernel, fun h => ?_⟩
  have h0 := (h 0).1 (.inl (by decide))
  revert h0
  decide +kernel

/-- What the cut above leaves, an entry without its length and value, the layer goes on from. -/
theorem crash_within_log_page :
    let s := run .faultFree pageConfig [.write 0 [7]] (boot .faultFree pageConfig)
    let t := reinit .faultFree pageConfig (cut s.flash [(76,[8,0])])
    TornTo pageConfig 65 [5] (multibyteEntry pageConfig 65 [5]) 1 s.cache t.cache
    ∧ ReadsBack pageConfig t :=
  have h := crash_within_log pageConfig [.write 0 [7]] (by decide) 65 [5] (by decide)
    (by decide +kernel) [(76,[8,0])] (by decide +kernel)
  ⟨h.2.2.1 _ _ ⟨[], [], rfl, by decide, by decide, by decide⟩, h.2.2.2⟩

end QmkFirmware.WearLeveling
