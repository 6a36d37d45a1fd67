import QmkFirmware.EmulatedFlash.Entry

/-!
What the flash stores: the compacted area with the log's bytes laid over it. `EEPROM_Init` reads
it back; a direct write, an entry and a compaction change it.
-/

set_option autoImplicit false

namespace QmkFirmware.EmulatedFlash

variable (cfg : Config)

def overlay (o : Nat → Option UInt8) (buf : ByteMem) : ByteMem := fun x => (o x).getD (buf x)

/-- The flash stores these contents, and the log with the bytes `o` ends at `slot`. -/
structure Stored (flash : ByteMem) (slot : Nat) (c : ByteMem) (o : Nat → Option UInt8) : Prop where
  slot_ge : cfg.logBase ≤ slot
  slot_le : slot ≤ cfg.logLast
  slot_even : slot%2 = 0
  blank : ∀ x, slot ≤ x → x < cfg.logLast → flash x = 0xFF
  plays : ∀ buf, LogReplay.Plays (nextEntry cfg) flash cfg.logBase buf slot (overlay o buf)
  inside : ∀ x, o x ≠ none → x < cfg.densityBytes
  /-- A byte in the log has its cell programmed, so that no direct write comes after it. -/
  programmed : ∀ x, o x ≠ none → word flash (2*(x/2)) ≠ emptyWord
  contents : ∀ x, x < cfg.densityBytes → c x = (o x).getD (~~~flash x)

variable {cfg} {flash : ByteMem} {slot : Nat} {c : ByteMem} {o : Nat → Option UInt8}

theorem lo_not (w : UInt16) : (~~~w).toUInt8 = ~~~w.toUInt8 := by
  simp

theorem hi_not (w : UInt16) : (~~~w >>> 8).toUInt8 = ~~~(w >>> 8).toUInt8 := by
  apply UInt8.toNat_inj.mp
  have hw := w.toNat_lt
  rw [toNat_hi, UInt8.toNat_not, toNat_hi, UInt16.toNat_not]
  simp only [UInt16.size, UInt8.size]
  omega

theorem lo_word (m : ByteMem) (a : Nat) : (word m a).toUInt8 = m a := by
  apply UInt8.toNat_inj.mp
  have := (m a).toNat_lt
  rw [toNat_lo, toNat_word]
  omega

theorem hi_word (m : ByteMem) (a : Nat) : (word m a >>> 8).toUInt8 = m (a+1) := by
  apply UInt8.toNat_inj.mp
  have := (m a).toNat_lt
  rw [toNat_hi, toNat_word]
  omega

theorem loadCompacted_apply (flash buf : ByteMem) (x : Nat) :
    loadCompacted cfg flash buf x = if x < cfg.densityBytes then ~~~flash x else buf x := by
  have hloop : ∀ k, (List.range k).foldl (fun dest i => storeWord dest (2*i) (~~~word flash (2*i)))
      buf x = if x < 2*k then ~~~flash x else buf x := by
    intro k
    induction k with
    | zero => simp
    | succ k ih =>
      rw [List.range_succ, List.foldl_append, List.foldl_cons, List.foldl_nil, storeWord_apply, ih,
        lo_not, hi_not, lo_word, hi_word]
      by_cases hlo : x = 2*k
      · rw [if_pos hlo, if_pos (by omega), hlo]
      · by_cases hhi : x = 2*k+1
        · rw [if_neg hlo, if_pos hhi, if_pos (by omega), hhi]
        · rw [if_neg hlo, if_neg hhi]
          exact if_congr (by omega) rfl rfl
  have heven := cfg.density_even
  rw [loadCompacted, hloop, show 2*(cfg.densityBytes/2) = cfg.densityBytes by omega]

theorem Stored.slot_end (h : Stored cfg flash slot c o) :
    slot = cfg.logLast ∨ word flash slot = emptyWord := by
  have hle := h.slot_le
  have heven := h.slot_even
  have hlast : cfg.logLast%2 = 0 := by
    have := cfg.density_even
    have := cfg.log_even
    rw [Config.logLast]
    omega
  rcases Nat.eq_or_lt_of_le hle with heq | hlt
  · exact .inl heq
  · exact .inr (word_eq_empty_iff.mpr ⟨h.blank _ le_rfl hlt, h.blank _ (by omega) (by omega)⟩)

theorem Stored.init {s : State} (h : Stored cfg s.flash slot c o) :
    eepromInit cfg s = { s with
      emptySlot := slot
      dataBuf := fun x => if x < cfg.densityBytes then c x else s.dataBuf x } := by
  have hge := h.slot_ge
  have hle := h.slot_le
  have hreplay := replay_of_plays cfg.writeLogBytes
    (h.plays (loadCompacted cfg s.flash s.dataBuf)) hle h.slot_end
    (by rw [Config.logLast, Config.logBase] at *; omega)
  have hbuf : overlay o (loadCompacted cfg s.flash s.dataBuf)
      = fun x => if x < cfg.densityBytes then c x else s.dataBuf x := by
    funext x
    rw [overlay, loadCompacted_apply]
    split
    · rename_i hx
      rw [h.contents x hx]
    · rename_i hx
      have hnone : o x = none := by
        by_contra hsome
        exact hx (h.inside x hsome)
      rw [hnone, Option.getD_none]
  rw [eepromInit, hreplay, hbuf]

theorem Stored.append (h : Stored cfg flash slot c o) (flash' : ByteMem) {slot' : Nat}
    (o' : Nat → Option UInt8) (hslot : slot' ≤ cfg.logLast) (heven : slot'%2 = 0)
    (hsame : ∀ x, x < slot ∨ slot' ≤ x → flash' x = flash x)
    (hentry : ∀ buf, nextEntry cfg flash' slot buf = some (slot',overlay o' buf))
    (hinside : ∀ x, o' x ≠ none → x < cfg.densityBytes)
    (hprogrammed : ∀ x, o' x ≠ none → word flash (2*(x/2)) ≠ emptyWord) :
    Stored cfg flash' slot' (overlay o' c) fun x => (o' x).or (o x) := by
  have hforward := (nextEntry_local cfg).forward (hentry c)
  have hbase := h.slot_ge
  have hdensity := cfg.density_even
  have hcell : ∀ x, x < cfg.densityBytes → word flash' (2*(x/2)) = word flash (2*(x/2)) := by
    intro x hx
    rw [Config.logBase] at hbase
    exact word_congr (hsame _ (.inl (by omega))) (hsame _ (.inl (by omega)))
  have hcases : ∀ x, (o' x).or (o x) ≠ none → o' x ≠ none ∨ o x ≠ none := by
    intro x hx
    cases hox : o' x with
    | none => exact .inr (by simpa [hox] using hx)
    | some v => exact .inl (by simp)
  refine ⟨by omega, hslot, heven, ?_, ?_, ?_, ?_, ?_⟩
  · intro x hx hx'
    rw [hsame x (.inr hx)]
    exact h.blank x (by omega) hx'
  · intro buf
    have hplays : LogReplay.Plays (nextEntry cfg) flash' cfg.logBase buf slot (overlay o buf) :=
      (h.plays buf).congr (nextEntry_local cfg) fun x _ hx => (hsame x (.inl hx)).symm
    have htrans := hplays.trans (.one (hentry _))
    have hover : overlay o' (overlay o buf) = overlay (fun x => (o' x).or (o x)) buf := by
      funext x
      simp only [overlay]
      cases o' x <;> rfl
    rwa [hover] at htrans
  · intro x hx
    exact (hcases x hx).elim (hinside x) (h.inside x)
  · intro x hx
    have hlt : x < cfg.densityBytes := (hcases x hx).elim (hinside x) (h.inside x)
    rw [hcell x hlt]
    exact (hcases x hx).elim (hprogrammed x) (h.programmed x)
  · intro x hx
    rw [Config.logBase] at hbase
    rw [overlay, h.contents x hx, hsame x (.inl (by omega))]
    cases o' x <;> rfl

theorem Stored.direct {a : Nat} {w : UInt16} {c' : ByteMem} (h : Stored cfg flash slot c o)
    (ha : a%2 = 0) (hlt : a < cfg.densityBytes) (hempty : word flash a = emptyWord)
    (hw : word c' a = w) (hc : ∀ x, x ≠ a → x ≠ a+1 → c' x = c x) :
    Stored cfg (storeWord flash a (~~~w)) slot c' o := by
  have hbase := h.slot_ge
  have hdensity := cfg.density_even
  rw [Config.logBase] at hbase
  have hother : ∀ x, x ≠ a → x ≠ a+1 → storeWord flash a (~~~w) x = flash x := by
    intro x hx hx'
    rw [storeWord_apply, if_neg hx, if_neg hx']
  -- the log has nothing for this word
  have hnone : ∀ x, x/2 = a/2 → o x = none := by
    intro x hx
    by_contra hsome
    refine h.programmed x hsome ?_
    rw [show 2*(x/2) = a by omega]
    exact hempty
  refine ⟨h.slot_ge, h.slot_le, h.slot_even, ?_, ?_, h.inside, ?_, ?_⟩
  · intro x hx hx'
    rw [hother x (by omega) (by omega)]
    exact h.blank x hx hx'
  · intro buf
    exact (h.plays buf).congr (nextEntry_local cfg) fun x hx _ =>
      (hother x (by rw [Config.logBase] at hx; omega) (by rw [Config.logBase] at hx; omega)).symm
  · intro x hx
    have hne : x/2 ≠ a/2 := fun heq => hx (hnone x heq)
    rw [word_storeWord_ne (by omega)]
    exact h.programmed x hx
  · intro x hx
    by_cases hxa : x/2 = a/2
    · rw [hnone x hxa, Option.getD_none, storeWord_apply, lo_not, hi_not, ← hw, lo_word, hi_word]
      rcases (show x = a ∨ x = a+1 by omega) with rfl | rfl
      · rw [if_pos rfl, UInt8.not_not]
      · rw [if_neg (by omega), if_pos rfl, UInt8.not_not]
    · rw [hc x (by omega) (by omega), h.contents x hx, hother x (by omega) (by omega)]

theorem stored_compacted (hflash : ∀ x, x < cfg.densityBytes → flash x = ~~~c x)
    (hblank : ∀ x, cfg.logBase ≤ x → x < cfg.logLast → flash x = 0xFF) :
    Stored cfg flash cfg.logBase c fun _ => none where
  slot_ge := le_rfl
  slot_le := by rw [Config.logBase, Config.logLast]; omega
  slot_even := cfg.density_even
  blank := hblank
  plays buf := .refl _ _
  inside x hx := absurd rfl hx
  programmed x hx := absurd rfl hx
  contents x hx := by rw [Option.getD_none, hflash x hx, UInt8.not_not]

theorem stored_erased : Stored cfg (fun _ => 0xFF) cfg.logBase (fun _ => 0) fun _ => none :=
  stored_compacted (fun _ _ => by decide) fun _ _ _ => rfl

end QmkFirmware.EmulatedFlash
