import QmkFirmware.EmulatedFlash.Stored

/-!
What the driver does to the flash, as a list of operations. Each half-word must be erased when it
is programmed, and lie in the area. Where a list is cut off short, the flash still stores the old
or the new value of each byte.
-/

set_option autoImplicit false

namespace QmkFirmware.EmulatedFlash

variable (cfg : Config)

/-- An operation on a flash that takes nothing but erased half-words of its area. -/
def FlashOp.apply (flash : ByteMem) : FlashOp → Option ByteMem
  | .erase => some fun _ => 0xFF
  | .programHalfWord address data =>
    if word flash address = emptyWord ∧ address%2 = 0 ∧ address+2 ≤ cfg.logLast then
      some (storeWord flash address data)
    else none

def runOps (flash : ByteMem) (ops : List FlashOp) : Option ByteMem :=
  ops.foldlM (FlashOp.apply cfg) flash

def Cut (flash : ByteMem) (ops : List FlashOp) (c c' : ByteMem) : Prop :=
  ∀ k, ∃ flash' slot d o, runOps cfg flash (ops.take k) = some flash'
    ∧ Stored cfg flash' slot d o ∧ ∀ x, x < cfg.densityBytes → d x = c x ∨ d x = c' x

/-- What a function of the driver does to the flash, which stored `c` and then stores `c'`. -/
structure Effect (s s' : State) (c c' : ByteMem) : Prop where
  stored : ∃ o, Stored cfg s'.flash s'.emptySlot c' o
  ops : ∃ new, s'.ops = s.ops ++ new ∧ runOps cfg s.flash new = some s'.flash
    ∧ (.erase ∉ new → Cut cfg s.flash new c c')

variable {cfg} {flash flash' : ByteMem} {slot : Nat} {c c' d : ByteMem} {o : Nat → Option UInt8}
  {ops ops' : List FlashOp} {s s' s'' : State}

theorem runOps_append (h : runOps cfg flash ops = some flash') :
    runOps cfg flash (ops ++ ops') = runOps cfg flash' ops' := by
  rw [runOps, List.foldlM_append]
  rw [runOps] at h
  rw [h]
  rfl

theorem Stored.congr (h : Stored cfg flash slot c o)
    (hc : ∀ x, x < cfg.densityBytes → d x = c x) : Stored cfg flash slot d o :=
  { h with contents := fun x hx => (hc x hx).trans (h.contents x hx) }

theorem Stored.program {a : Nat} {w : UInt16} (hempty : word flash a = emptyWord) (ha : a%2 = 0)
    (hlast : a+2 ≤ cfg.logLast) :
    runOps cfg flash [.programHalfWord a w] = some (storeWord flash a w) := by
  rw [runOps, List.foldlM_cons, FlashOp.apply, if_pos ⟨hempty, ha, hlast⟩]
  rfl

theorem Stored.cut_nil (h : Stored cfg flash slot c o) : Cut cfg flash [] c c' := fun k =>
  ⟨flash, slot, c, o, by rw [List.take_nil]; rfl, h, fun _ _ => .inl rfl⟩

theorem Cut.one {op : FlashOp} {slot' : Nat} {o' : Nat → Option UInt8}
    (h : Stored cfg flash slot c o) (hop : runOps cfg flash [op] = some flash')
    (h' : Stored cfg flash' slot' c' o') : Cut cfg flash [op] c c' := by
  intro k
  cases k with
  | zero => exact ⟨flash, slot, c, o, rfl, h, fun _ _ => .inl rfl⟩
  | succ k => exact ⟨flash', slot', c', o', by simpa using hop, h', fun _ _ => .inr rfl⟩

theorem Cut.append (h : Cut cfg flash ops c d) (hops : runOps cfg flash ops = some flash')
    (h' : Cut cfg flash' ops' d c')
    (hd : ∀ x, x < cfg.densityBytes → d x = c x ∨ d x = c' x) :
    Cut cfg flash (ops ++ ops') c c' := by
  intro k
  rw [List.take_append]
  rcases Nat.lt_or_ge k ops.length with hk | hk
  · obtain ⟨flash₁, slot, e, o, hrun, hstored, he⟩ := h k
    refine ⟨flash₁, slot, e, o, ?_, hstored, fun x hx => ?_⟩
    · rw [Nat.sub_eq_zero_of_le hk.le, List.take_zero, List.append_nil]
      exact hrun
    · rcases he x hx with hx' | hx'
      · exact .inl hx'
      · rw [hx']
        exact hd x hx
  · obtain ⟨flash₁, slot, e, o, hrun, hstored, he⟩ := h' (k-ops.length)
    refine ⟨flash₁, slot, e, o, ?_, hstored, fun x hx => ?_⟩
    · rw [List.take_of_length_le hk, runOps_append hops]
      exact hrun
    · rcases he x hx with hx' | hx'
      · rw [hx']
        exact hd x hx
      · exact .inr hx'

theorem Effect.refl (h : Stored cfg s.flash s.emptySlot c o) : Effect cfg s s c c :=
  ⟨⟨o, h⟩, [], (List.append_nil _).symm, rfl, fun _ => h.cut_nil⟩

theorem Effect.trans (h : Effect cfg s s' c d) (h' : Effect cfg s' s'' d c')
    (hd : ∀ x, x < cfg.densityBytes → d x = c x ∨ d x = c' x) : Effect cfg s s'' c c' := by
  obtain ⟨-, new, hops, hrun, hcut⟩ := h
  obtain ⟨hstored, new', hops', hrun', hcut'⟩ := h'
  refine ⟨hstored, new ++ new', ?_, ?_, fun herase => ?_⟩
  · rw [hops', hops, List.append_assoc]
  · rw [runOps_append hrun]
    exact hrun'
  · simp only [List.mem_append, not_or] at herase
    exact (hcut herase.1).append hrun (hcut' herase.2) hd

theorem Effect.congr (h : Effect cfg s s' c d)
    (hd : ∀ x, x < cfg.densityBytes → c' x = d x) : Effect cfg s s' c c' := by
  obtain ⟨⟨o, hstored⟩, new, hops, hrun, hcut⟩ := h
  refine ⟨⟨o, hstored.congr hd⟩, new, hops, hrun, fun herase k => ?_⟩
  obtain ⟨flash', slot, e, o', hrun', hstored', he⟩ := hcut herase k
  exact ⟨flash', slot, e, o', hrun', hstored', fun x hx => by rw [hd x hx]; exact he x hx⟩

theorem Effect.of_cache {buf : ByteMem} (h : Effect cfg { s with dataBuf := buf } s' c c') :
    Effect cfg s s' c c' :=
  ⟨h.stored, h.ops⟩

theorem programHalfWord_erased {a : Nat} {w : UInt16} (h : word s.flash a = emptyWord) :
    programHalfWord a w s = (.complete,{ s with
      flash := storeWord s.flash a w, ops := s.ops ++ [.programHalfWord a w] }) := by
  rw [programHalfWord]
  dsimp only
  rw [if_pos (.inl h)]

theorem compactWord_snd {r : Status × State} {i : Nat}
    (h : word r.2.flash (2*i) = emptyWord) :
    (compactWord r i).2 = if word r.2.dataBuf (2*i) = 0 then r.2 else { r.2 with
      flash := storeWord r.2.flash (2*i) (~~~word r.2.dataBuf (2*i))
      ops := r.2.ops ++ [.programHalfWord (2*i) (~~~word r.2.dataBuf (2*i))] } := by
  rw [compactWord]
  by_cases hvalue : word r.2.dataBuf (2*i) = 0
  · simp [hvalue]
  · simp [hvalue, programHalfWord_erased h]

theorem compact_loop (s : State) {k : Nat} (hk : k ≤ cfg.densityBytes/2) :
    ∃ new flash, ((List.range k).foldl compactWord (.complete,eepromClear cfg s)).2
        = ⟨flash,s.dataBuf,cfg.logBase,s.ops ++ .erase :: new⟩
      ∧ runOps cfg s.flash (.erase :: new) = some flash
      ∧ ∀ x, flash x = if x < 2*k then ~~~s.dataBuf x else 0xFF := by
  induction k with
  | zero => exact ⟨[], fun _ => 0xFF, rfl, rfl, by simp⟩
  | succ k ih =>
    obtain ⟨new, flash, hstate, hrun, hflash⟩ := ih (by omega)
    rw [List.range_succ, List.foldl_append, List.foldl_cons, List.foldl_nil]
    generalize (List.range k).foldl compactWord (.complete,eepromClear cfg s) = r at hstate ⊢
    have hempty : word flash (2*k) = emptyWord :=
      word_eq_empty_iff.mpr ⟨by rw [hflash, if_neg (by omega)],
        by rw [hflash, if_neg (by omega)]⟩
    rw [compactWord_snd (by rw [hstate]; exact hempty), hstate]
    dsimp only
    have hnext : ∀ x, storeWord flash (2*k) (~~~word s.dataBuf (2*k)) x
        = if x < 2*(k+1) then ~~~s.dataBuf x else 0xFF := by
      intro x
      rw [storeWord_apply, lo_not, hi_not, lo_word, hi_word, hflash]
      by_cases hlo : x = 2*k
      · rw [if_pos hlo, if_pos (by omega), hlo]
      · by_cases hhi : x = 2*k+1
        · rw [if_neg hlo, if_pos hhi, if_pos (by omega), hhi]
        · rw [if_neg hlo, if_neg hhi]
          exact if_congr (by omega) rfl rfl
    by_cases hvalue : word s.dataBuf (2*k) = 0
    · -- an erased half-word stands for zero already
      rw [if_pos hvalue]
      refine ⟨new, flash, rfl, hrun, fun x => ?_⟩
      rw [← hnext, hvalue, storeWord_apply]
      by_cases hx : x = 2*k
      · rw [if_pos hx, hx, hflash, if_neg (by omega)]
        decide
      · by_cases hx' : x = 2*k+1
        · rw [if_neg hx, if_pos hx', hx', hflash, if_neg (by omega)]
          decide
        · rw [if_neg hx, if_neg hx']
    · rw [if_neg hvalue]
      refine ⟨new ++ [.programHalfWord (2*k) (~~~word s.dataBuf (2*k))], _, ?_, ?_, hnext⟩
      · rw [List.append_assoc, List.cons_append]
      · rw [← List.cons_append, runOps_append hrun]
        refine Stored.program hempty (by omega) ?_
        rw [Config.logLast]
        omega

theorem compact_spec (s : State) (hcache : ∀ x, x < cfg.densityBytes → s.dataBuf x = c x) :
    ∃ new flash, (eepromCompact cfg s).2
        = ⟨flash,s.dataBuf,cfg.logBase,s.ops ++ .erase :: new⟩
      ∧ runOps cfg s.flash (.erase :: new) = some flash
      ∧ (∀ x, x < cfg.densityBytes → flash x = ~~~c x)
      ∧ Stored cfg flash cfg.logBase c fun _ => none := by
  obtain ⟨new, flash, hstate, hrun, hflash⟩ := compact_loop s (le_refl (cfg.densityBytes/2))
  have heven := cfg.density_even
  have hcells : ∀ x, x < cfg.densityBytes → flash x = ~~~c x := fun x hx => by
    rw [hflash, if_pos (by omega), hcache x hx]
  refine ⟨new, flash, hstate, hrun, hcells, stored_compacted hcells fun x hx _ => ?_⟩
  rw [hflash, if_neg (by rw [Config.logBase] at hx; omega)]

theorem compact_effect (s : State) (c : ByteMem)
    (hcache : ∀ x, x < cfg.densityBytes → s.dataBuf x = c' x) :
    Effect cfg s (eepromCompact cfg s).2 c c' := by
  obtain ⟨new, flash, hstate, hrun, -, hstored⟩ := compact_spec s hcache
  rw [hstate]
  exact ⟨⟨_, hstored⟩, .erase :: new, rfl, hrun, fun herase => absurd List.mem_cons_self herase⟩

end QmkFirmware.EmulatedFlash
