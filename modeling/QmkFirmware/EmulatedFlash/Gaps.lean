import QmkFirmware.EmulatedFlash.Faults

/-!
A log with a gap. An entry that was refused leaves an erased half-word, behind which `EEPROM_Init`
reads nothing. What each function of the driver makes of what it would read.
-/

set_option autoImplicit false

namespace QmkFirmware.EmulatedFlash.Faulty

section Definitions

variable (cfg : Config) (ok : Nat → Bool)

/-- What `EEPROM_Init` would read. -/
def recovered (s : State) : ByteMem := (eepromInit cfg s).dataBuf

/-- The log that `EEPROM_Init` would read ends where the next entry goes. -/
def InStep (s : State) : Prop := (eepromInit cfg s).emptySlot = s.emptySlot

def Logged (s : State) (x : Nat) : Prop :=
  (replay cfg s.flash cfg.writeLogBytes cfg.logBase fun _ => 0).2 x
    = (replay cfg s.flash cfg.writeLogBytes cfg.logBase fun _ => 0xFF).2 x

/-- One of the next `n` half-words is refused. -/
def Refused (s : State) (n : Nat) : Prop := ∃ i < n, ok (calls s+i) = false

def compactSize (s : State) : Nat :=
  (List.range (cfg.densityBytes/2)).countP fun i => word s.dataBuf (2*i) ≠ 0

def entrySize (s : State) (a : Nat) : Nat :=
  if a < 128 ∨ word s.dataBuf (2*(a/2)) ≤ 1 then 1 else 2

def Full (s : State) (n : Nat) : Prop := cfg.logLast < s.emptySlot+2*n

instance (s : State) (n : Nat) : Decidable (Full cfg s n) := Nat.decLt _ _

end Definitions

/-- The entries of the log up to `e` set the bytes `o`; behind them is the end of the log, or an
erased half-word with entries behind it. -/
structure LogTo (cfg : Config) (flash : ByteMem) (slot e : Nat) (o : Nat → Option UInt8) : Prop where
  base : cfg.logBase ≤ e
  le : e ≤ slot
  slot_le : slot ≤ cfg.logLast
  even : e%2 = 0
  slot_even : slot%2 = 0
  blank : ∀ x, slot ≤ x → x < cfg.logLast → flash x = 0xFF
  plays : ∀ buf, LogReplay.Plays (nextEntry cfg) flash cfg.logBase buf e (overlay o buf)
  inside : ∀ x, o x ≠ none → x < cfg.densityBytes
  gap : e < slot → word flash e = emptyWord

/-- What a write finds: everything behind the place of the next entry is erased. -/
def Placed (cfg : Config) (s : State) : Prop := ∃ e o, LogTo cfg s.flash s.emptySlot e o

variable {cfg : Config} {ok : Nat → Bool} {s : State} {flash : ByteMem} {slot e : Nat}
  {o : Nat → Option UInt8}

theorem log_even (cfg : Config) : cfg.logLast%2 = 0 := by
  have := cfg.density_even
  have := cfg.log_even
  rw [Config.logLast]
  omega

theorem LogTo.ends (h : LogTo cfg flash slot e o) : e = cfg.logLast ∨ word flash e = emptyWord := by
  have hle := h.le
  have hslot := h.slot_le
  have heven := h.even
  have hlast := log_even cfg
  rcases Nat.eq_or_lt_of_le hle with heq | hlt
  · rcases Nat.eq_or_lt_of_le hslot with hfull | hroom
    · exact .inl (heq.trans hfull)
    · exact .inr (word_eq_empty_iff.mpr ⟨h.blank _ heq.ge (by omega),h.blank _ (by omega) (by omega)⟩)
  · exact .inr (h.gap hlt)

theorem LogTo.replay (h : LogTo cfg flash slot e o) (buf : ByteMem) :
    replay cfg flash cfg.writeLogBytes cfg.logBase buf = (e,overlay o buf) := by
  have hbase := h.base
  have hle := h.le
  have hslot := h.slot_le
  refine replay_of_plays cfg.writeLogBytes (h.plays buf) (by omega) h.ends ?_
  rw [Config.logLast, Config.logBase] at *
  omega

theorem LogTo.recovered_eq (h : LogTo cfg s.flash slot e o) {x : Nat}
    (hx : x < cfg.densityBytes) : recovered cfg s x = (o x).getD (~~~s.flash x) := by
  simp only [recovered, eepromInit, h.replay, overlay, loadCompacted_apply, if_pos hx]

theorem LogTo.inStep_iff (h : LogTo cfg s.flash s.emptySlot e o) :
    InStep cfg s ↔ e = s.emptySlot := by
  simp only [InStep, eepromInit, h.replay]

theorem LogTo.logged_iff (h : LogTo cfg s.flash slot e o) {x : Nat} :
    Logged cfg s x ↔ o x ≠ none := by
  simp only [Logged, h.replay, overlay]
  cases o x with
  | none => simp
  | some v => simp

theorem LogTo.keep (h : LogTo cfg flash slot e o) {flash' : ByteMem} {slot' : Nat}
    (hle : slot ≤ slot') (hslot : slot' ≤ cfg.logLast) (heven : slot'%2 = 0)
    (hsame : ∀ x, cfg.logBase ≤ x → x < slot ∨ slot' ≤ x → flash' x = flash x)
    (hgap : e = slot → e < slot' → word flash' e = emptyWord) :
    LogTo cfg flash' slot' e o where
  base := h.base
  le := h.le.trans hle
  slot_le := hslot
  even := h.even
  slot_even := heven
  blank x hx hx' := by
    have hbase := h.base
    have hle := h.le
    rw [hsame x (by omega) (.inr hx)]
    exact h.blank x (by omega) hx'
  plays buf := by
    have hle := h.le
    exact (h.plays buf).congr (nextEntry_local cfg) fun x hx hx' =>
      (hsame x hx (.inl (by omega))).symm
  inside := h.inside
  gap hlt := by
    have hbase := h.base
    have heven := h.even
    have hslot := h.slot_even
    rcases Nat.eq_or_lt_of_le h.le with heq | hlt'
    · exact hgap heq hlt
    · rw [word_congr (hsame e hbase (.inl hlt')) (hsame (e+1) (by omega) (.inl (by omega)))]
      exact h.gap hlt'

theorem LogTo.append (h : LogTo cfg flash slot slot o) (flash' : ByteMem) {slot' : Nat}
    (o' : Nat → Option UInt8) (hslot : slot' ≤ cfg.logLast) (heven : slot'%2 = 0)
    (hsame : ∀ x, x < slot ∨ slot' ≤ x → flash' x = flash x)
    (hentry : ∀ buf, nextEntry cfg flash' slot buf = some (slot',overlay o' buf))
    (hinside : ∀ x, o' x ≠ none → x < cfg.densityBytes) :
    LogTo cfg flash' slot' slot' fun x => (o' x).or (o x) where
  base := by
    have hforward := (nextEntry_local cfg).forward (hentry flash)
    have hbase := h.base
    omega
  le := le_rfl
  slot_le := hslot
  even := heven
  slot_even := heven
  blank x hx hx' := by
    have hforward := (nextEntry_local cfg).forward (hentry flash)
    rw [hsame x (.inr hx)]
    exact h.blank x (by omega) hx'
  plays buf := by
    have hplays : LogReplay.Plays (nextEntry cfg) flash' cfg.logBase buf slot (overlay o buf) :=
      (h.plays buf).congr (nextEntry_local cfg) fun x _ hx => (hsame x (.inl hx)).symm
    have hboth : overlay o' (overlay o buf) = overlay (fun x => (o' x).or (o x)) buf := by
      funext x
      simp only [overlay]
      cases o' x <;> rfl
    rw [← hboth]
    exact hplays.trans (.one (hentry _))
  inside x hx := by
    cases hox : o' x with
    | none => exact h.inside x (by simpa [hox] using hx)
    | some v => exact hinside x (by simp [hox])
  gap hlt := absurd hlt (Nat.lt_irrefl _)

theorem LogTo.slot_empty (h : LogTo cfg flash slot e o) (hroom : slot+2 ≤ cfg.logLast) :
    word flash slot = emptyWord :=
  word_eq_empty_iff.mpr ⟨h.blank _ le_rfl (by omega),h.blank _ (by omega) (by omega)⟩

@[simp] theorem calls_program (s : State) (flash dataBuf : ByteMem) (slot a : Nat) (w : UInt16) :
    calls ⟨flash,dataBuf,slot,s.ops ++ [.programHalfWord a w]⟩ = calls s+1 := by
  simp [calls]

theorem program_accepted {a : Nat} {w : UInt16} (hok : ok (calls s) = true)
    (hempty : word s.flash a = emptyWord) :
    programHalfWord ok a w s = (.complete,{ s with
      flash := storeWord s.flash a w, ops := s.ops ++ [.programHalfWord a w] }) := by
  rw [programHalfWord, if_pos hok, programHalfWord_erased hempty]

theorem program_refused {a : Nat} {w : UInt16} (hok : ok (calls s) = false) :
    programHalfWord ok a w s = (.errorPg,{ s with ops := s.ops ++ [.programHalfWord a w] }) := by
  rw [programHalfWord, hok]
  rfl

theorem refused_zero : ¬Refused ok s 0 := fun ⟨_,hi,_⟩ => absurd hi (Nat.not_lt_zero _)

theorem refused_succ {n : Nat} :
    Refused ok s (n+1) ↔ Refused ok s n ∨ ok (calls s+n) = false := by
  constructor
  · rintro ⟨i,hi,hok⟩
    rcases Nat.lt_succ_iff_lt_or_eq.mp hi with hlt | rfl
    · exact .inl ⟨i,hlt,hok⟩
    · exact .inr hok
  · rintro (⟨i,hi,hok⟩ | hok)
    · exact ⟨i,Nat.lt_succ_of_lt hi,hok⟩
    · exact ⟨n,Nat.lt_succ_self n,hok⟩

theorem refused_one : Refused ok s 1 ↔ ok (calls s) = false := by
  rw [refused_succ, or_iff_right refused_zero, Nat.add_zero]

/-- It programs `n` half-words, all or not all of them with success; the bytes that
`EEPROM_Init` reads as the cache has them stay so if it succeeds. -/
structure Stores (cfg : Config) (ok : Nat → Bool) (s : State) (n : Nat) (r : Status × State) :
    Prop where
  placed : Placed cfg r.2
  cache : r.2.dataBuf = s.dataBuf
  status : r.1 = .complete ∨ r.1 = .errorPg
  complete : r.1 = .complete ↔ ¬Refused ok s n
  kept : r.1 = .complete → ∀ x, x < cfg.densityBytes → recovered cfg s x = s.dataBuf x →
    recovered cfg r.2 x = s.dataBuf x

/-- Compaction after `k` words of the cache. -/
structure Compacting (cfg : Config) (ok : Nat → Bool) (s : State) (k n : Nat)
    (r : Status × State) : Prop where
  cache : r.2.dataBuf = s.dataBuf
  slot : r.2.emptySlot = cfg.logBase
  count : calls r.2 = calls s+n
  blank : ∀ x, 2*k ≤ x → r.2.flash x = 0xFF
  status : r.1 = .complete ∨ r.1 = .errorPg
  complete : r.1 = .complete ↔ ¬Refused ok s n
  cells : r.1 = .complete → ∀ x, x < 2*k → r.2.flash x = ~~~s.dataBuf x

theorem Compacting.step {k n : Nat} {r : Status × State} (h : Compacting cfg ok s k n r) :
    Compacting cfg ok s (k+1) (n+(if word s.dataBuf (2*k) ≠ 0 then 1 else 0))
      (compactWord ok r k) := by
  have hempty : word r.2.flash (2*k) = emptyWord :=
    word_eq_empty_iff.mpr ⟨h.blank _ le_rfl,h.blank _ (by omega)⟩
  rw [compactWord, h.cache]
  by_cases hvalue : word s.dataBuf (2*k) = 0
  · -- an erased half-word stands for zero already
    simp only [hvalue, ne_eq, not_true_eq_false, if_false, Nat.add_zero]
    refine ⟨h.cache,h.slot,h.count,fun x hx => h.blank x (by omega),h.status,h.complete,
      fun hc x hx => ?_⟩
    by_cases hlt : x < 2*k
    · exact h.cells hc x hlt
    · have hzero : s.dataBuf x = 0 := by
        rcases (show x = 2*k ∨ x = 2*k+1 by omega) with rfl | rfl
        · rw [← lo_word s.dataBuf, hvalue]
          rfl
        · rw [← hi_word s.dataBuf, hvalue]
          rfl
      rw [h.blank x (by omega), hzero]
      rfl
  simp only [ne_eq, hvalue, not_false_eq_true, if_true]
  cases hok : ok (calls r.2) with
  | false =>
    rw [program_refused hok]
    refine ⟨h.cache,h.slot,?_,fun x hx => h.blank x (by omega),.inr rfl,?_,nofun⟩
    · rw [calls_program, h.count, Nat.add_assoc]
    · refine iff_of_false nofun (not_not.mpr (refused_succ.mpr (.inr ?_)))
      rw [← h.count]
      exact hok
  | true =>
    rw [program_accepted hok hempty]
    simp only [not_true_eq_false, if_false]
    refine ⟨h.cache,h.slot,?_,fun x hx => ?_,h.status,?_,fun hc x hx => ?_⟩
    · rw [calls_program, h.count, Nat.add_assoc]
    · dsimp only
      rw [storeWord_apply, if_neg (by omega), if_neg (by omega)]
      exact h.blank x (by omega)
    · rw [refused_succ, ← h.count, hok]
      simpa using h.complete
    · dsimp only
      rw [storeWord_apply, lo_not, hi_not, lo_word, hi_word]
      split
      · rename_i hxa
        rw [hxa]
      · split
        · rename_i hxa
          rw [hxa]
        · exact h.cells hc x (by omega)

theorem compact_spec (s : State) :
    Compacting cfg ok s (cfg.densityBytes/2) (compactSize cfg s) (eepromCompact cfg ok s) := by
  have hrun : ∀ k, Compacting cfg ok s k
      ((List.range k).countP fun i => word s.dataBuf (2*i) ≠ 0)
      ((List.range k).foldl (compactWord ok) (.complete,eepromClear cfg s)) := by
    intro k
    induction k with
    | zero =>
      exact ⟨rfl,rfl,by simp [eepromClear, eraseFlash, calls],fun _ _ => rfl,.inl rfl,
        iff_of_true rfl refused_zero,fun _ x hx => absurd hx (Nat.not_lt_zero _)⟩
    | succ k ih =>
      rw [List.range_succ, List.foldl_append, List.countP_append, List.countP_singleton]
      simpa using ih.step
  exact hrun _

theorem compact_stores (s : State) :
    Stores cfg ok s (compactSize cfg s) (eepromCompact cfg ok s)
      ∧ ((eepromCompact cfg ok s).1 = .complete → InStep cfg (eepromCompact cfg ok s).2
        ∧ ∀ x, x < cfg.densityBytes →
          recovered cfg (eepromCompact cfg ok s).2 x = s.dataBuf x) := by
  have h := @compact_spec cfg ok s
  generalize eepromCompact cfg ok s = r at h ⊢
  have heven := cfg.density_even
  have hlog : LogTo cfg r.2.flash r.2.emptySlot cfg.logBase fun _ => none := by
    rw [h.slot]
    exact ⟨le_rfl,le_rfl,by rw [Config.logBase, Config.logLast]; omega,cfg.density_even,
      cfg.density_even,fun x hx _ => h.blank x (by rw [Config.logBase] at hx; omega),
      fun _ => .refl _ _,fun _ hx => absurd rfl hx,fun hlt => absurd hlt (Nat.lt_irrefl _)⟩
  have hread : r.1 = .complete → ∀ x, x < cfg.densityBytes → recovered cfg r.2 x = s.dataBuf x := by
    intro hc x hx
    rw [hlog.recovered_eq hx, Option.getD_none, h.cells hc x (by omega), UInt8.not_not]
  exact ⟨⟨⟨_,_,hlog⟩,h.cache,h.status,h.complete,fun hc x hx _ => hread hc x hx⟩,
    fun hc => ⟨hlog.inStep_iff.mpr h.slot.symm,hread hc⟩⟩

theorem direct_programmed {address : UInt16}
    (h : word s.flash (2*(address.toNat/2)) ≠ emptyWord) :
    eepromWriteDirectEntry ok address s = (.zero,s) := by
  rw [eepromWriteDirectEntry, toNat_aligned]
  exact if_neg h

theorem direct_stores {address : UInt16} (h : Placed cfg s)
    (hempty : word s.flash (2*(address.toNat/2)) = emptyWord)
    (hlt : address.toNat < cfg.densityBytes) :
    Stores cfg ok s (if word s.dataBuf (2*(address.toNat/2)) = 0 then 0 else 1)
        (eepromWriteDirectEntry ok address s)
      ∧ ((eepromWriteDirectEntry ok address s).1 = .complete → ∀ x, x/2 = address.toNat/2 →
        ¬Logged cfg s x →
          recovered cfg (eepromWriteDirectEntry ok address s).2 x = s.dataBuf x) := by
  obtain ⟨e, o, hlog⟩ := h
  have heven := cfg.density_even
  have hbase := hlog.base
  have hdensity : cfg.logBase = cfg.densityBytes := rfl
  -- what is read once the cell stands for the word of the cache
  have hread : ∀ t : State, LogTo cfg t.flash s.emptySlot e o →
      (∀ x, x/2 = address.toNat/2 → t.flash x = ~~~s.dataBuf x) →
      (∀ x, x/2 ≠ address.toNat/2 → t.flash x = s.flash x) →
      (∀ x, x < cfg.densityBytes → recovered cfg s x = s.dataBuf x →
        recovered cfg t x = s.dataBuf x)
      ∧ ∀ x, x/2 = address.toNat/2 → ¬Logged cfg s x → recovered cfg t x = s.dataBuf x := by
    intro t hlog' hcell hother
    constructor
    · intro x hx hright
      rw [hlog.recovered_eq hx] at hright
      rw [hlog'.recovered_eq hx]
      by_cases hxa : x/2 = address.toNat/2
      · rw [hcell x hxa, UInt8.not_not]
        cases hox : o x with
        | none => rfl
        | some v => simpa [hox] using hright
      · rw [hother x hxa]
        exact hright
    · intro x hxa hnot
      rw [hlog.logged_iff, not_not] at hnot
      rw [hlog'.recovered_eq (by omega), hnot, Option.getD_none, hcell x hxa, UInt8.not_not]
  rw [eepromWriteDirectEntry, toNat_aligned]
  dsimp only
  rw [if_pos hempty]
  by_cases hvalue : word s.dataBuf (2*(address.toNat/2)) = 0
  · obtain ⟨hlo, hhi⟩ := word_eq_empty_iff.mp hempty
    obtain ⟨h₁, h₂⟩ := hread s hlog (fun x hx => by
      rcases (show x = 2*(address.toNat/2) ∨ x = 2*(address.toNat/2)+1 by omega) with rfl | rfl
      · rw [hlo, ← lo_word s.dataBuf, hvalue]
        rfl
      · rw [hhi, ← hi_word s.dataBuf, hvalue]
        rfl) fun _ _ => rfl
    have hsame : ~~~word s.dataBuf (2*(address.toNat/2)) = emptyWord := by
      rw [hvalue]
      rfl
    rw [if_pos hsame, if_pos hvalue]
    exact ⟨⟨⟨e,o,hlog⟩,rfl,.inl rfl,iff_of_true rfl refused_zero,fun _ => h₁⟩,fun _ => h₂⟩
  have hnonempty : ~~~word s.dataBuf (2*(address.toNat/2)) ≠ emptyWord := fun heq =>
    hvalue (UInt16.not_not.symm.trans (congrArg (~~~ ·) heq))
  rw [if_neg hnonempty, if_neg hvalue]
  cases hok : ok (calls s) with
  | false =>
    rw [program_refused hok]
    exact ⟨⟨⟨e,o,hlog⟩,rfl,.inr rfl,iff_of_false nofun (not_not.mpr (refused_one.mpr hok)),nofun⟩,
      nofun⟩
  | true =>
    rw [program_accepted hok hempty]
    have hother : ∀ x, x/2 ≠ address.toNat/2 → storeWord s.flash (2*(address.toNat/2))
        (~~~word s.dataBuf (2*(address.toNat/2))) x = s.flash x := fun x hx => by
      rw [storeWord_apply, if_neg (by omega), if_neg (by omega)]
    have hlog' : LogTo cfg (storeWord s.flash (2*(address.toNat/2))
        (~~~word s.dataBuf (2*(address.toNat/2)))) s.emptySlot e o :=
      hlog.keep le_rfl hlog.slot_le hlog.slot_even (fun x hx _ => hother x (by omega))
        fun heq hlt => absurd hlt (by omega)
    obtain ⟨h₁, h₂⟩ := hread { s with
      flash := storeWord s.flash (2*(address.toNat/2)) (~~~word s.dataBuf (2*(address.toNat/2)))
      ops := s.ops ++ [.programHalfWord (2*(address.toNat/2))
        (~~~word s.dataBuf (2*(address.toNat/2)))] } hlog' (fun x hx => by
      dsimp only
      rw [storeWord_apply, lo_not, hi_not, lo_word, hi_word]
      rcases (show x = 2*(address.toNat/2) ∨ x = 2*(address.toNat/2)+1 by omega) with rfl | rfl
      · rw [if_pos rfl]
      · rw [if_neg (by omega), if_pos rfl]) hother
    exact ⟨⟨⟨e,o,hlog'⟩,rfl,.inl rfl,iff_of_true rfl (by simp [refused_one, hok]),fun _ => h₁⟩,
      fun _ => h₂⟩

/-- An entry is in the flash, with the bytes that the cache has. It counts for `EEPROM_Init` if the
log has no gap in front of it. -/
theorem LogTo.entry (h : LogTo cfg s.flash s.emptySlot e o) {t : State} (o' : Nat → Option UInt8)
    (hroom : t.emptySlot ≤ cfg.logLast) (heven : t.emptySlot%2 = 0)
    (hsame : ∀ x, x < s.emptySlot ∨ t.emptySlot ≤ x → t.flash x = s.flash x)
    (hentry : ∀ buf, nextEntry cfg t.flash s.emptySlot buf = some (t.emptySlot,overlay o' buf))
    (hinside : ∀ x, o' x ≠ none → x < cfg.densityBytes)
    (hvalue : ∀ x v, o' x = some v → v = s.dataBuf x) :
    Placed cfg t
      ∧ (∀ x, x < cfg.densityBytes → recovered cfg s x = s.dataBuf x →
        recovered cfg t x = s.dataBuf x)
      ∧ (InStep cfg s → InStep cfg t ∧ ∀ x, o' x ≠ none → recovered cfg t x = s.dataBuf x) := by
  have hforward := (nextEntry_local cfg).forward (hentry s.flash)
  have hbase := h.base
  have hle := h.le
  have hdensity : cfg.logBase = cfg.densityBytes := rfl
  rcases Nat.eq_or_lt_of_le hle with heq | hlt
  · have hlog : LogTo cfg t.flash t.emptySlot t.emptySlot fun x => (o' x).or (o x) := by
      rw [heq] at h
      exact h.append t.flash o' hroom heven hsame hentry hinside
    have hread : ∀ x, x < cfg.densityBytes →
        recovered cfg t x = ((o' x).or (o x)).getD (~~~s.flash x) := fun x hx => by
      rw [hlog.recovered_eq hx, hsame x (.inl (by omega))]
    refine ⟨⟨_,_,hlog⟩,fun x hx hright => ?_,fun _ => ⟨hlog.inStep_iff.mpr rfl,fun x hx => ?_⟩⟩
    · rw [h.recovered_eq hx] at hright
      rw [hread x hx]
      cases hox : o' x with
      | none => exact hright
      | some v => exact hvalue x v hox
    · rw [hread x (hinside x hx)]
      cases hox : o' x with
      | none => exact absurd hox hx
      | some v => exact hvalue x v hox
  · have hlog : LogTo cfg t.flash t.emptySlot e o :=
      h.keep (by omega) hroom heven (fun x _ hx => hsame x hx) fun heq => absurd heq (by omega)
    refine ⟨⟨_,_,hlog⟩,fun x hx hright => ?_,fun hstep => ?_⟩
    · rw [h.recovered_eq hx] at hright
      rw [hlog.recovered_eq hx, hsame x (.inl (by omega))]
      exact hright
    · exact absurd (h.inStep_iff.mp hstep) (by omega)

theorem LogTo.refuse (h : LogTo cfg s.flash s.emptySlot e o) {t : State}
    (hle : s.emptySlot ≤ t.emptySlot) (hroom : t.emptySlot ≤ cfg.logLast)
    (heven : t.emptySlot%2 = 0)
    (hsame : ∀ x, x < s.emptySlot+2 ∨ t.emptySlot ≤ x → t.flash x = s.flash x) :
    Placed cfg t := by
  have hslot := h.slot_even
  have hslot' := h.slot_le
  refine ⟨e,o,h.keep hle hroom heven (fun x _ hx => hsame x (by omega)) fun heq hlt => ?_⟩
  rw [heq] at hlt ⊢
  rw [word_congr (hsame _ (.inl (by omega))) (hsame _ (.inl (by omega)))]
  exact h.slot_empty (by omega)

theorem full_one (h : s.emptySlot%2 = 0) : Full cfg s 1 ↔ cfg.logLast ≤ s.emptySlot := by
  have hlast := log_even cfg
  simp only [Full]
  omega

theorem logByte_full {address : UInt16} (h : cfg.logLast ≤ s.emptySlot) :
    eepromWriteLogByteEntry cfg ok address s = eepromCompact cfg ok s := by
  rw [eepromWriteLogByteEntry, if_pos h]

theorem logByte_room {address : UInt16} (h : Placed cfg s) (ha : address < 0x80)
    (hroom : ¬Full cfg s 1) :
    let r := eepromWriteLogByteEntry cfg ok address s
    Stores cfg ok s 1 r ∧ r.2.emptySlot = s.emptySlot+2 ∧ calls r.2 = calls s+1
      ∧ (r.1 = .complete → InStep cfg s →
        InStep cfg r.2 ∧ recovered cfg r.2 address.toNat = s.dataBuf address.toNat) := by
  obtain ⟨e, o, hlog⟩ := h
  have hslot := hlog.slot_even
  have hdensity := cfg.density_ge
  have hlow : address.toNat < 128 := UInt16.lt_iff_toNat_lt.mp ha
  have hlast : s.emptySlot+2 ≤ cfg.logLast := by
    simp only [Full] at hroom
    omega
  have hempty := hlog.slot_empty hlast
  rw [full_one hslot] at hroom
  simp only [eepromWriteLogByteEntry, if_neg hroom]
  cases hok : ok (calls s) with
  | false =>
    rw [program_refused hok]
    refine ⟨⟨?_,rfl,.inr rfl,?_,by simp⟩,rfl,calls_program ..,by simp⟩
    · exact hlog.refuse (Nat.le_add_right _ 2) hlast (by dsimp only; omega) fun _ _ => rfl
    · exact iff_of_false (by simp) (not_not.mpr (refused_one.mpr hok))
  | true =>
    rw [program_accepted hok hempty]
    obtain ⟨h₁, h₂, h₃⟩ := hlog.entry (t := { s with
        flash := storeWord s.flash s.emptySlot
          (address <<< 8 ||| (s.dataBuf address.toNat).toUInt16)
        emptySlot := s.emptySlot+2
        ops := s.ops ++ [.programHalfWord s.emptySlot
          (address <<< 8 ||| (s.dataBuf address.toNat).toUInt16)] })
      (byteOverlay address.toNat (s.dataBuf address.toNat)) hlast (by dsimp only; omega)
      (fun x hx => by
        dsimp only at hx ⊢
        rw [storeWord_apply, if_neg (by omega), if_neg (by omega)])
      (fun buf => by
        rw [over_byteOverlay]
        exact nextEntry_byte ha (word_storeWord _ _ _))
      (fun x hx => by
        by_cases hxa : x = address.toNat
        · omega
        · exact absurd (if_neg hxa) hx)
      (fun x v hx => by
        simp only [byteOverlay] at hx
        split at hx
        · rename_i hxa
          rw [hxa]
          exact (Option.some.inj hx).symm
        · cases hx)
    refine ⟨⟨h₁,rfl,.inl rfl,iff_of_true rfl (by simp [refused_one, hok]),fun _ => h₂⟩,rfl,
      calls_program ..,fun _ hstep => ⟨(h₃ hstep).1,(h₃ hstep).2 _ ?_⟩⟩
    simp [byteOverlay]

theorem wordOverlay_inside {a : Nat} {w : UInt16} {x : Nat} (h : wordOverlay a w x ≠ none) :
    x = a ∨ x = a+1 := by
  by_contra hx
  rw [not_or] at hx
  exact h (by rw [wordOverlay, if_neg hx.1, if_neg hx.2])

theorem wordOverlay_value {a x : Nat} {v : UInt8} (h : wordOverlay a (word s.dataBuf a) x = some v) :
    v = s.dataBuf x := by
  simp only [wordOverlay, lo_word, hi_word] at h
  split at h
  · rename_i hxa
    rw [hxa]
    exact (Option.some.inj h).symm
  · split at h
    · rename_i hxa
      rw [hxa]
      exact (Option.some.inj h).symm
    · cases h

section Word

variable {address : UInt16} (h : LogTo cfg s.flash s.emptySlot e o)
  (hlt : address.toNat < cfg.densityBytes) (heven : address.toNat%2 = 0)

include h hlt heven

theorem wordEntry {t : State} (hroom : t.emptySlot ≤ cfg.logLast) (hslot : t.emptySlot%2 = 0)
    (hsame : ∀ x, x < s.emptySlot ∨ t.emptySlot ≤ x → t.flash x = s.flash x)
    (hentry : ∀ buf, nextEntry cfg t.flash s.emptySlot buf
      = some (t.emptySlot,setWord cfg address (word s.dataBuf address.toNat) buf)) :
    Placed cfg t
      ∧ (∀ x, x < cfg.densityBytes → recovered cfg s x = s.dataBuf x →
        recovered cfg t x = s.dataBuf x)
      ∧ (InStep cfg s → ∀ x, x/2 = address.toNat/2 → recovered cfg t x = s.dataBuf x) := by
  have hdensity := cfg.density_even
  obtain ⟨h₁, h₂, h₃⟩ := h.entry (wordOverlay address.toNat (word s.dataBuf address.toNat)) hroom
    hslot hsame (fun buf => by rw [over_wordOverlay, hentry buf, setWord, if_pos hlt])
    (fun x hx => by rcases wordOverlay_inside hx with rfl | rfl <;> omega)
    fun x v hx => wordOverlay_value hx
  refine ⟨h₁,h₂,fun hstep x hx => (h₃ hstep).2 x ?_⟩
  rcases (show x = address.toNat ∨ x = address.toNat+1 by omega) with rfl | rfl
  · simp [wordOverlay]
  · simp [wordOverlay]

theorem logWord_small (hvalue : word s.dataBuf address.toNat ≤ 1)
    (hroom : s.emptySlot+2 ≤ cfg.logLast) :
    let r := eepromWriteLogWordEntry cfg ok address s
    Stores cfg ok s 1 r ∧ (r.1 = .complete → InStep cfg s →
      ∀ x, x/2 = address.toNat/2 → recovered cfg r.2 x = s.dataBuf x) := by
  have hempty := h.slot_empty hroom
  have hslot := h.slot_even
  have hle := cfg.density_le
  have hencoding : (0x8000 : UInt16) ||| word s.dataBuf address.toNat <<< 13
      ≠ (0x8000 : UInt16) ||| 0x6000 := by
    rcases le_one_cases hvalue with hv | hv <;> rw [hv] <;> decide
  rw [eepromWriteLogWordEntry]
  simp only [hvalue, if_true, if_neg (Nat.not_lt.mpr hroom), hencoding, if_false]
  cases hok : ok (calls s) with
  | false =>
    rw [program_refused hok]
    refine ⟨⟨?_,rfl,.inr rfl,?_,nofun⟩,nofun⟩
    · exact h.refuse (Nat.le_add_right _ 2) hroom (by dsimp only; omega) fun _ _ => rfl
    · exact iff_of_false nofun (not_not.mpr (refused_one.mpr hok))
  | true =>
    rw [program_accepted hok hempty]
    obtain ⟨h₁, h₂, h₃⟩ := wordEntry h hlt heven (t := { s with
        flash := storeWord s.flash s.emptySlot
          (address >>> 1 ||| ((0x8000 : UInt16) ||| word s.dataBuf address.toNat <<< 13))
        emptySlot := s.emptySlot+2
        ops := s.ops ++ [.programHalfWord s.emptySlot
          (address >>> 1 ||| ((0x8000 : UInt16) ||| word s.dataBuf address.toNat <<< 13))] })
      hroom (by dsimp only; omega)
      (fun x hx => by
        dsimp only at hx ⊢
        rw [storeWord_apply, if_neg (by omega), if_neg (by omega)])
      fun buf => nextEntry_encoded (by omega) heven hvalue (word_storeWord _ _ _)
    exact ⟨⟨h₁,rfl,.inl rfl,iff_of_true rfl (by simp [refused_one, hok]),fun _ => h₂⟩,
      fun _ => h₃⟩

theorem logWord_large (hlow : 128 ≤ address.toNat) (hvalue : ¬word s.dataBuf address.toNat ≤ 1)
    (hroom : s.emptySlot+4 ≤ cfg.logLast) :
    let r := eepromWriteLogWordEntry cfg ok address s
    Stores cfg ok s 2 r ∧ (r.1 = .complete → InStep cfg s →
      ∀ x, x/2 = address.toNat/2 → recovered cfg r.2 x = s.dataBuf x) := by
  have hempty := h.slot_empty (by omega)
  have hslot := h.slot_even
  have hle := cfg.density_le
  have hnonzero : word s.dataBuf address.toNat ≠ 0 := fun hzero => hvalue (by rw [hzero]; decide)
  have htwo : Refused ok s 2 ↔ ok (calls s) = false ∨ ok (calls s+1) = false := by
    rw [refused_succ, refused_one]
  have hfirst_other : ∀ w x, x < s.emptySlot ∨ s.emptySlot+2 ≤ x →
      storeWord s.flash s.emptySlot w x = s.flash x := by
    intro w x hx
    rw [storeWord_apply, if_neg (by omega), if_neg (by omega)]
  have hnext : ∀ w, word (storeWord s.flash s.emptySlot w) (s.emptySlot+2) = emptyWord := by
    intro w
    rw [word_storeWord_ne (by omega)]
    exact word_eq_empty_iff.mpr ⟨h.blank _ (by omega) (by omega),h.blank _ (by omega) (by omega)⟩
  have hmark : (address-0x80) >>> 1 ||| ((0x8000 : UInt16) ||| 0x6000) = pairEntry address := rfl
  rw [eepromWriteLogWordEntry]
  simp only [hvalue, if_false, if_neg (Nat.not_lt.mpr hroom), if_true, hmark]
  have hok' : ∀ t : State, calls t = calls s+1 → ok (calls t) = ok (calls s+1) := fun t ht => by
    rw [ht]
  cases hok : ok (calls s) with
  | false =>
    rw [program_refused hok]
    dsimp only
    cases hnow : ok (calls s+1) with
    | false =>
      rw [program_refused ((hok' _ (calls_program ..)).trans hnow)]
      refine ⟨⟨?_,rfl,.inr rfl,?_,nofun⟩,nofun⟩
      · exact h.refuse (by dsimp only; omega) hroom (by dsimp only; omega) fun _ _ => rfl
      · exact iff_of_false nofun (not_not.mpr (htwo.mpr (.inl hok)))
    | true =>
      rw [program_accepted ((hok' _ (calls_program ..)).trans hnow)
        (word_eq_empty_iff.mpr ⟨h.blank _ (by omega) (by omega),h.blank _ (by omega) (by omega)⟩)]
      refine ⟨⟨?_,rfl,.inr rfl,?_,nofun⟩,nofun⟩
      · refine h.refuse (by dsimp only; omega) hroom (by dsimp only; omega) fun x hx => ?_
        dsimp only at hx ⊢
        rw [storeWord_apply, if_neg (by omega), if_neg (by omega)]
      · exact iff_of_false nofun (not_not.mpr (htwo.mpr (.inl hok)))
  | true =>
    rw [program_accepted hok hempty]
    dsimp only
    cases hnow : ok (calls s+1) with
    | false =>
      -- with the first half-word alone the entry counts for nothing
      rw [program_refused ((hok' _ (calls_program ..)).trans hnow)]
      refine ⟨⟨?_,rfl,.inr rfl,?_,nofun⟩,nofun⟩
      · refine (h.entry (fun _ => none) hroom (by dsimp only; omega)
          (fun x hx => hfirst_other _ x (by dsimp only at hx; omega)) (fun buf => ?_)
          (fun x hx => absurd rfl hx) nofun).1
        exact nextEntry_cut (by omega) heven hlow hroom (word_storeWord _ _ _) (hnext _)
      · exact iff_of_false nofun (not_not.mpr (htwo.mpr (.inr hnow)))
    | true =>
      have hsecond := @program_accepted ok { s with
          flash := storeWord s.flash s.emptySlot (pairEntry address)
          emptySlot := s.emptySlot+2
          ops := s.ops ++ [.programHalfWord s.emptySlot (pairEntry address)] } (s.emptySlot+2)
        (~~~word s.dataBuf address.toNat) ((hok' _ (calls_program ..)).trans hnow) (hnext _)
      rw [hsecond]
      obtain ⟨h₁, h₂, h₃⟩ := wordEntry h hlt heven (t := { s with
          flash := storeWord (storeWord s.flash s.emptySlot (pairEntry address)) (s.emptySlot+2)
            (~~~word s.dataBuf address.toNat)
          emptySlot := s.emptySlot+2+2
          ops := s.ops ++ [.programHalfWord s.emptySlot (pairEntry address)]
            ++ [.programHalfWord (s.emptySlot+2) (~~~word s.dataBuf address.toNat)] })
        hroom (by dsimp only; omega)
        (fun x hx => by
          dsimp only at hx ⊢
          rw [storeWord_apply, if_neg (by omega), if_neg (by omega), hfirst_other _ x (by omega)])
        fun buf => nextEntry_pair (by omega) heven hlow hroom hnonzero
          (by rw [word_storeWord_ne (by omega), word_storeWord]) (word_storeWord _ _ _)
      exact ⟨⟨h₁,rfl,.inl rfl,iff_of_true rfl (by rw [htwo, hok, hnow]; nofun),fun _ => h₂⟩,
        fun _ => h₃⟩

end Word

theorem logWord_stores {address : UInt16} (h : Placed cfg s) (hlt : address.toNat < cfg.densityBytes)
    (heven : address.toNat%2 = 0) (hlow : 128 ≤ address.toNat) :
    let n := entrySize s address.toNat
    let r := eepromWriteLogWordEntry cfg ok address s
    Stores cfg ok s (if Full cfg s n then compactSize cfg s else n) r
      ∧ (r.1 = .complete → Full cfg s n ∨ InStep cfg s →
        ∀ x, x/2 = address.toNat/2 → recovered cfg r.2 x = s.dataBuf x) := by
  intro n r
  obtain ⟨e, o, hlog⟩ := h
  have hdensity := cfg.density_even
  have hhalf : 2*(address.toNat/2) = address.toNat := by omega
  have hn : n = if word s.dataBuf address.toNat ≤ 1 then 1 else 2 := by
    simp only [n, entrySize, hhalf, Nat.not_lt.mpr hlow, false_or]
  by_cases hfull : Full cfg s n
  · have hcompact : r = eepromCompact cfg ok s := by
      have hsize : (if word s.dataBuf address.toNat ≤ 1 then 2 else 4) = 2*n := by
        rw [hn]
        split <;> rfl
      simp only [r, eepromWriteLogWordEntry]
      refine if_pos ?_
      rw [hsize]
      exact hfull
    obtain ⟨h₁, h₂⟩ := @compact_stores cfg ok s
    rw [if_pos hfull, hcompact]
    exact ⟨h₁,fun hc _ x hx => (h₂ hc).2 x (by omega)⟩
  · rw [if_neg hfull]
    by_cases hvalue : word s.dataBuf address.toNat ≤ 1
    · rw [if_pos hvalue] at hn
      rw [hn] at hfull ⊢
      obtain ⟨h₁, h₂⟩ := @logWord_small cfg ok s e o address hlog hlt heven hvalue
        (Nat.le_of_not_lt hfull)
      exact ⟨h₁,fun hc hstep => h₂ hc (hstep.resolve_left hfull)⟩
    · rw [if_neg hvalue] at hn
      rw [hn] at hfull ⊢
      obtain ⟨h₁, h₂⟩ := @logWord_large cfg ok s e o address hlog hlt heven hlow hvalue
        (Nat.le_of_not_lt hfull)
      exact ⟨h₁,fun hc hstep => h₂ hc (hstep.resolve_left hfull)⟩

theorem logByte_stores {address : UInt16} (h : Placed cfg s) (ha : address < 0x80) :
    let r := eepromWriteLogByteEntry cfg ok address s
    Stores cfg ok s (if Full cfg s 1 then compactSize cfg s else 1) r
      ∧ (r.1 = .complete → Full cfg s 1 ∨ InStep cfg s →
        InStep cfg r.2 ∧ recovered cfg r.2 address.toNat = s.dataBuf address.toNat)
      ∧ (r.1 = .complete → Full cfg s 1 →
        ∀ x, x < cfg.densityBytes → recovered cfg r.2 x = s.dataBuf x)
      ∧ (¬Full cfg s 1 → r.2.emptySlot = s.emptySlot+2 ∧ calls r.2 = calls s+1) := by
  intro r
  have hlow : address.toNat < 128 := UInt16.lt_iff_toNat_lt.mp ha
  have hdensity := cfg.density_ge
  by_cases hfull : Full cfg s 1
  · obtain ⟨e, o, hlog⟩ := h
    have hcompact : r = eepromCompact cfg ok s := logByte_full ((full_one hlog.slot_even).mp hfull)
    obtain ⟨h₁, h₂⟩ := @compact_stores cfg ok s
    rw [if_pos hfull, hcompact]
    exact ⟨h₁,fun hc _ => ⟨(h₂ hc).1,(h₂ hc).2 _ (by omega)⟩,fun hc _ => (h₂ hc).2,
      fun hnot => absurd hfull hnot⟩
  · obtain ⟨h₁, h₂, h₃, h₄⟩ := @logByte_room cfg ok s address h ha hfull
    rw [if_neg hfull]
    exact ⟨h₁,fun hc hstep => h₄ hc (hstep.resolve_left hfull),fun _ hfull' => absurd hfull' hfull,
      fun _ => ⟨h₂,h₃⟩⟩

end QmkFirmware.EmulatedFlash.Faulty
