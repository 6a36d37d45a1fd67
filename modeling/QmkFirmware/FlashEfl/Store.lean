import Mathlib.Data.List.GetD
import QmkFirmware.FlashEfl.Core

/-!
The embedded flash as the backing store of the wear-leveling core: every call succeeds, every read
gives what was written, and no byte outside the sectors of the store is ever touched.
-/

set_option autoImplicit false

namespace QmkFirmware.FlashEfl

open WearLeveling

variable {σ : Type}

def Efl.InSector (e : Efl σ) (i a : Nat) : Prop :=
  e.sectorOffset i ≤ a ∧ a < e.sectorOffset (i+1)

/-- The documented behaviour of a flash without faults. `Free` bytes were not programmed since
their sector was erased. -/
structure Works (e : Efl σ) (line : Nat) (Ready : σ → Prop) (Free : σ → Nat → Prop) : Prop where
  next : ∀ i < e.sectorsCount, e.sectorOffset (i+1) = e.sectorOffset i+e.sectorSize i
  aligned : ∀ i ≤ e.sectorsCount, e.sectorOffset i % line = 0
  erased : ∀ {x a}, Free x a → e.mapped x a = if e.erasedIsOne then 0xFF else 0
  ecc : ∀ a x, e.ecc a x = false
  start : ∀ x, (e.start x).1 = true ∧ Ready (e.start x).2
    ∧ e.mapped (e.start x).2 = e.mapped x ∧ ∀ a, Free x a → Free (e.start x).2 a
  stop : ∀ x, e.mapped (e.stop x) = e.mapped x ∧ ∀ a, Free x a → Free (e.stop x) a
  erase : ∀ {x i}, Ready x → i < e.sectorsCount →
    let r := e.startEraseSector i x
    let q := e.waitErase r.2
    r.1 = .noError ∧ q.1 = .noError ∧ Ready q.2 ∧ ∀ a, (e.InSector i a → Free q.2 a)
      ∧ (¬ e.InSector i a → e.mapped q.2 a = e.mapped x a ∧ (Free x a → Free q.2 a))
  program : ∀ {x a bs}, Ready x → a % line = 0 → bs.length = line →
    a+line ≤ e.sectorOffset e.sectorsCount → (∀ i < line, Free x (a+i)) →
    let r := e.program a bs x
    r.1 = .noError ∧ Ready r.2 ∧ e.mapped r.2 = (e.mapped x).write a bs
      ∧ ∀ b, b < a ∨ a+line ≤ b → Free x b → Free r.2 b

variable {e : Efl σ} {efl : Config} {cfg : WearLeveling.Config} {Ready : σ → Prop}
  {Free : σ → Nat → Prop} {line : Nat}

structure Found (e : Efl σ) (cfg : WearLeveling.Config) (t : Store σ) : Prop where
  base : t.baseOffset = e.sectorOffset t.firstSector
  sectors : t.firstSector+t.sectorCount ≤ e.sectorsCount
  room : t.baseOffset+cfg.backingSize ≤ e.sectorOffset (t.firstSector+t.sectorCount)

theorem countForwards_found (hw : Works e line Ready Free) {n i counter base last : Nat}
    (h : countForwards e cfg n i counter = some last) (hi : i+n ≤ e.sectorsCount)
    (hcounter : e.sectorOffset i = base+counter) :
    i ≤ last ∧ last ≤ e.sectorsCount ∧ base+cfg.backingSize ≤ e.sectorOffset last := by
  induction n generalizing i counter with
  | zero => cases h
  | succ n ih =>
    have hnext := hw.next i (by omega)
    rw [countForwards] at h
    split at h
    · cases h
      exact ⟨Nat.le_succ i,by omega,by omega⟩
    · obtain ⟨h₁,h₂,h₃⟩ := ih h (by omega) (by omega)
      exact ⟨by omega,h₂,h₃⟩

theorem countBackwards_found (hw : Works e line Ready Free) {last counter first : Nat}
    (h : countBackwards e cfg last counter = some first) (hlast : last ≤ e.sectorsCount) :
    first ≤ last ∧ e.sectorOffset first+cfg.backingSize ≤ e.sectorOffset last+counter := by
  induction last generalizing counter with
  | zero => cases h
  | succ last ih =>
    have hnext := hw.next last hlast
    rw [countBackwards] at h
    split at h
    · cases h
      exact ⟨Nat.le_succ _,by omega⟩
    · obtain ⟨h₁,h₂⟩ := ih h (by omega)
      exact ⟨by omega,by omega⟩

theorem skipPast_le {n last : Nat} (h : skipPast e n = some last) : last ≤ n := by
  induction n with
  | zero => cases h
  | succ n ih =>
    rw [skipPast] at h
    split at h
    · exact Nat.le_succ_of_le (ih h)
    · cases h
      exact Nat.le_refl _

theorem found_between {first last : Nat} {one : Bool} {f : σ} (hle : first ≤ last)
    (hlast : last ≤ e.sectorsCount)
    (hroom : e.sectorOffset first+cfg.backingSize ≤ e.sectorOffset last) :
    Found e cfg ⟨e.sectorOffset first,first,last-first,one,f⟩ := by
  have hsum : first+(last-first) = last := Nat.add_sub_cancel' hle
  refine ⟨rfl,?_,?_⟩
  · rwa [hsum]
  · rwa [hsum]

theorem init_found (hw : Works e line Ready Free) {f : σ} {t : Store σ}
    (h : backingStoreInit e efl cfg (.reset efl f) = some t) :
    Found e cfg t ∧ t.erasedIsOne = e.erasedIsOne ∧ t.flash = e.stop f := by
  simp only [backingStoreInit] at h
  split at h
  · cases h
  rename_i homit
  cases hfirst : efl.firstSector with
  | some first =>
    simp only [hfirst, searchForwards] at h
    cases hlast : countForwards e cfg (e.sectorsCount-efl.omitLastSectorCount-first) first 0 with
    | none => simp [hlast,Store.reset] at h
    | some last =>
      simp only [hlast, Store.reset, hfirst, Option.getD_some] at h
      split at h
      · cases h
      · cases h
        by_cases hle : first ≤ e.sectorsCount
        · obtain ⟨h₁,h₂,h₃⟩ := countForwards_found hw hlast (by omega) rfl
          exact ⟨found_between h₁ h₂ h₃,rfl,rfl⟩
        · -- no sector is left to look at
          rw [show e.sectorsCount-efl.omitLastSectorCount-first = 0 by omega] at hlast
          cases hlast
  | none =>
    simp only [hfirst, searchBackwards, Option.bind_eq_bind, Option.bind_eq_some_iff] at h
    obtain ⟨last,hskip,h⟩ := h
    split at h
    · cases h
    · obtain ⟨first,hcount,h⟩ := Option.bind_eq_some_iff.mp h
      cases h
      have hle := skipPast_le hskip
      obtain ⟨h₁,h₂⟩ := countBackwards_found hw hcount (by omega)
      exact ⟨found_between h₁ (by omega) h₂,rfl,rfl⟩

theorem init_again {f : σ} {s t : Store σ}
    (h : backingStoreInit e efl cfg (.reset efl f) = some t) (hs : s.firstSector = t.firstSector) :
    backingStoreInit e efl cfg s = some { t with flash := e.stop s.flash } := by
  simp only [backingStoreInit] at h ⊢
  split at h
  · cases h
  rename_i homit
  rw [if_neg homit]
  cases hfirst : efl.firstSector with
  | some first =>
    simp only [hfirst, searchForwards] at h ⊢
    cases hlast : countForwards e cfg (e.sectorsCount-efl.omitLastSectorCount-first) first 0 with
    | none => simp [hlast,Store.reset] at h
    | some last =>
      simp only [hlast] at h ⊢
      split at h
      · cases h
      · cases h
        rename_i hgo
        rw [if_neg hgo, hs]
  | none =>
    simp only [hfirst, searchBackwards, Option.bind_eq_bind, Option.bind_eq_some_iff] at h ⊢
    obtain ⟨last,hskip,h⟩ := h
    refine ⟨last,hskip,?_⟩
    split at h
    · cases h
    · rename_i hgo
      obtain ⟨first,hcount,h⟩ := Option.bind_eq_some_iff.mp h
      cases h
      rw [if_neg hgo, hcount]
      rfl

def encodeByte (one : Bool) (b : UInt8) : UInt8 := if one then ~~~ b else b

theorem encode_eq (one : Bool) (value : Word) : encode one value = value.map (encodeByte one) := by
  cases one
  · exact (List.map_id value).symm
  · rfl

@[simp] theorem length_encode (one : Bool) (value : Word) :
    (encode one value).length = value.length := by rw [encode_eq, List.length_map]

theorem encodeByte_encodeByte (one : Bool) (b : UInt8) : encodeByte one (encodeByte one b) = b := by
  cases one
  · rfl
  · simp [encodeByte]

theorem encodeByte_zero (one : Bool) : encodeByte one 0 = if one then 0xFF else 0 := by
  cases one <;> rfl

theorem encode_read {one : Bool} {flash m : ByteMem} {base a n : Nat}
    (h : ∀ x, a ≤ x → x < a+n → flash (base+x) = encodeByte one (m x)) :
    encode one (flash.read (base+a) n) = m.read a n := by
  rw [encode_eq, ByteMem.read, List.map_map, ByteMem.read]
  refine List.map_congr_left fun i hi => ?_
  have hi := List.mem_range.mp hi
  rw [Function.comp_apply, Nat.add_assoc, h (a+i) (by omega) (by omega), encodeByte_encodeByte]

theorem write_encode {one : Bool} {flash m : ByteMem} {base a x : Nat} {value : Word}
    (h : flash (base+x) = encodeByte one (m x)) :
    (flash.write (base+a) (encode one value)) (base+x) = encodeByte one ((m.write a value) x) := by
  by_cases hin : a ≤ x
  · obtain ⟨i,rfl⟩ := Nat.exists_eq_add_of_le hin
    rw [← Nat.add_assoc, ByteMem.write_at, ByteMem.write_at, Nat.add_assoc, h, encode_eq,
      List.getD_map]
  · rw [ByteMem.write_outside (.inl (by omega)), ByteMem.write_outside (.inl (by omega)), h]

/-- The flash of the store stands for the memory `m`, in view of the calls so far. The bytes outside
the sectors of the store are those of `code`. -/
structure StandsFor (e : Efl σ) (cfg : WearLeveling.Config) (Ready : σ → Prop)
    (Free : σ → Nat → Prop) (t : Store σ) (code : ByteMem) (l : Ledger) (x : σ) (m : ByteMem) :
    Prop where
  ready : l.locked = false → Ready x
  content : ∀ a < cfg.backingSize,
    e.mapped x (t.baseOffset+a) = encodeByte e.erasedIsOne (m a)
  free : ∀ a < cfg.backingSize, l.programmed a = false → Free x (t.baseOffset+a)
  rest : ∀ a, a < t.baseOffset ∨ e.sectorOffset (t.firstSector+t.sectorCount) ≤ a →
    e.mapped x a = code a

variable {t : Store σ} {code m : ByteMem} {l : Ledger} {x : σ}

theorem sectorOffset_le (hw : Works e line Ready Free) {i n : Nat} (h : i+n ≤ e.sectorsCount) :
    e.sectorOffset i ≤ e.sectorOffset (i+n) := by
  induction n with
  | zero => exact Nat.le_refl _
  | succ n ih =>
    have hnext := hw.next (i+n) h
    have hle := ih (by omega)
    rw [← Nat.add_assoc]
    omega

theorem eraseSectors_erases (hw : Works e line Ready Free) {n i : Nat} {x : σ} (hx : Ready x)
    (hi : i+n ≤ e.sectorsCount) :
    let r := eraseSectors e n i true x
    r.1 = true ∧ Ready r.2 ∧ ∀ a,
      (e.sectorOffset i ≤ a → a < e.sectorOffset (i+n) → Free r.2 a)
      ∧ (a < e.sectorOffset i ∨ e.sectorOffset (i+n) ≤ a →
        e.mapped r.2 a = e.mapped x a ∧ (Free x a → Free r.2 a)) := by
  induction n generalizing i x with
  | zero => exact ⟨rfl,hx,fun a => ⟨fun hlo hhi => absurd hlo (Nat.not_le.mpr hhi),
      fun _ => ⟨rfl,id⟩⟩⟩
  | succ n ih =>
    obtain ⟨hstart,hwait,hready,hbytes⟩ := hw.erase hx (show i < e.sectorsCount by omega)
    have hstep : eraseSectors e (n+1) i true x
        = eraseSectors e n (i+1) true (e.waitErase (e.startEraseSector i x).2).2 := by
      simp [eraseSectors,hstart,hwait]
    obtain ⟨hok,hready',hrest⟩ := ih hready (show i+1+n ≤ e.sectorsCount by omega)
    have hsum : i+1+n = i+(n+1) := by omega
    have hnext := hw.next i (by omega)
    have hle := sectorOffset_le hw (show i+1+n ≤ e.sectorsCount by omega)
    rw [hsum] at hrest hle
    rw [hstep]
    refine ⟨hok,hready',fun a => ⟨fun hlo hhi => ?_,fun hout => ?_⟩⟩
    · by_cases hin : a < e.sectorOffset (i+1)
      · exact ((hrest a).2 (.inl hin)).2 ((hbytes a).1 ⟨hlo,hin⟩)
      · exact (hrest a).1 (Nat.not_lt.mp hin) hhi
    · have hsector : ¬ e.InSector i a := fun h => by
        have h₁ := h.1
        have h₂ := h.2
        omega
      obtain ⟨hsame,hfree⟩ := (hbytes a).2 hsector
      obtain ⟨hsame',hfree'⟩ := (hrest a).2 (by omega)
      exact ⟨hsame'.trans hsame,fun h => hfree' (hfree h)⟩

theorem StandsFor.stop (hw : Works e line Ready Free)
    (h : StandsFor e cfg Ready Free t code l x m) {l' : Ledger} (hl : l'.locked = true)
    (hp : l'.programmed = l.programmed) :
    StandsFor e cfg Ready Free t code l' (e.stop x) m := by
  obtain ⟨hsame,hfree⟩ := hw.stop x
  refine ⟨fun hun => ?_,by rw [hsame]; exact h.content,
    fun a ha hc => hfree _ (h.free a ha (hp ▸ hc)),by rw [hsame]; exact h.rest⟩
  rw [hl] at hun
  cases hun

theorem StandsFor.start (hw : Works e line Ready Free)
    (h : StandsFor e cfg Ready Free t code l x m) :
    StandsFor e cfg Ready Free t code { l with locked := false } (e.start x).2 m := by
  obtain ⟨-,hready,hsame,hfree⟩ := hw.start x
  exact ⟨fun _ => hready,by rw [hsame]; exact h.content,fun a ha hp => hfree _ (h.free a ha hp),
    by rw [hsame]; exact h.rest⟩

theorem StandsFor.erase (hw : Works e line Ready Free) (ht : Found e cfg t)
    (h : StandsFor e cfg Ready Free t code l x m) (hl : l.locked = false) :
    let r := eraseSectors e t.sectorCount t.firstSector true x
    r.1 = true ∧ StandsFor e cfg Ready Free t code (l.after cfg (.erase true)) r.2 ByteMem.blank := by
  obtain ⟨hok,hready,hbytes⟩ := eraseSectors_erases hw (h.ready hl) ht.sectors
  have hroom := ht.room
  have hbase := ht.base
  have hfree : ∀ a < cfg.backingSize,
      Free (eraseSectors e t.sectorCount t.firstSector true x).2 (t.baseOffset+a) := fun a ha =>
    (hbytes _).1 (by omega) (by omega)
  refine ⟨hok,fun _ => hready,fun a ha => ?_,fun a ha _ => hfree a ha,fun a ha => ?_⟩
  · rw [hw.erased (hfree a ha), ByteMem.blank, encodeByte_zero]
  · rw [((hbytes a).2 (by omega)).1, h.rest a ha]

theorem StandsFor.write (hw : Works e cfg.writeSize.bytes Ready Free) (ht : Found e cfg t)
    (h : StandsFor e cfg Ready Free t code l x m) {a : Nat} {v : Word}
    (hallows : l.Allows cfg (.write a v true)) :
    let r := e.program (t.baseOffset+a) (encode e.erasedIsOne v) x
    r.1 = .noError
      ∧ StandsFor e cfg Ready Free t code (l.after cfg (.write a v true)) r.2 (m.write a v) := by
  obtain ⟨halign,hlen,hin,hclear,hl⟩ := hallows
  have hroom := ht.room
  have hbase := ht.base
  have hle : e.sectorOffset (t.firstSector+t.sectorCount) ≤ e.sectorOffset e.sectorsCount := by
    obtain ⟨k,hk⟩ := Nat.exists_eq_add_of_le ht.sectors
    have hmono := sectorOffset_le hw (Nat.le_of_eq hk.symm)
    rwa [← hk] at hmono
  have haligned : (t.baseOffset+a) % cfg.writeSize.bytes = 0 := by
    rw [Nat.add_mod, halign, hbase,
      hw.aligned _ (Nat.le_trans (Nat.le_add_right _ _) ht.sectors)]
    simp
  obtain ⟨hok,hready,hmapped,hfree⟩ := hw.program (h.ready hl) haligned
    ((length_encode _ v).trans hlen) (by omega) fun i hi => by
      rw [Nat.add_assoc]
      exact h.free (a+i) (by omega) (hclear i hi)
  refine ⟨hok,fun _ => hready,fun b hb => ?_,fun b hb hp => ?_,fun b hb => ?_⟩
  · rw [hmapped]
    exact write_encode (h.content b hb)
  · simp only [Ledger.after, hlen, Bool.or_eq_false_iff, decide_eq_false_iff_not] at hp
    exact hfree _ (by omega) (h.free b hb hp.2)
  · rw [hmapped, ByteMem.write_outside (by rw [length_encode, hlen]; omega), h.rest b hb]

theorem efl_simulates (hw : Works e cfg.writeSize.bytes Ready Free) {f : σ}
    (hinit : backingStoreInit e efl cfg (.reset efl f) = some t) :
    (eflBacking e efl cfg).answer.Simulates (plainBacking cfg).answer (Ledger.after cfg)
      (Permits cfg) fun l y m => ∃ x, y = some { t with flash := x }
        ∧ StandsFor e cfg Ready Free t code l x m := by
  obtain ⟨hfound,hone,-⟩ := init_found hw hinit
  constructor
  rintro l y m c ⟨x,rfl,h⟩ ⟨hallows,hc⟩
  cases c with
  | init ok =>
    obtain ⟨rfl,hl⟩ := hc
    have hagain := init_again hinit (s := { t with flash := x }) rfl
    simp only [Backing.answer, eflBacking, plainBacking, Option.bind_some, hagain]
    exact ⟨trivial,_,rfl,h.stop hw hl rfl⟩
  | unlock ok =>
    obtain rfl : ok = true := hc
    exact ⟨by simp [Backing.answer,eflBacking,plainBacking,backingStoreUnlock,(hw.start x).1],
      _,rfl,h.start hw⟩
  | lock ok =>
    obtain rfl : ok = true := hc
    exact ⟨rfl,_,rfl,h.stop hw rfl rfl⟩
  | erase ok =>
    obtain rfl : ok = true := hc
    obtain ⟨hok,hnext⟩ := h.erase hw hfound hallows
    exact ⟨by simp [Backing.answer,eflBacking,plainBacking,backingStoreErase,hok],_,rfl,hnext⟩
  | read a ok =>
    obtain ⟨rfl,hin⟩ := hc
    have hword : encode e.erasedIsOne ((e.mapped x).read (t.baseOffset+a) cfg.writeSize.bytes)
        = m.read a cfg.writeSize.bytes :=
      encode_read fun b _ hb => h.content b (by omega)
    exact ⟨by simp [Backing.answer,eflBacking,plainBacking,backingStoreRead,hw.ecc,hone,hword],
      x,rfl,h⟩
  | write a v ok =>
    obtain rfl : ok = true := hc
    obtain ⟨hok,hnext⟩ := h.write hw hfound hallows
    refine ⟨?_,_,rfl,?_⟩
    · simp [Backing.answer,eflBacking,plainBacking,backingStoreWrite,hone,hok]
    · simpa [Backing.answer,eflBacking,plainBacking,backingStoreWrite,hone] using hnext

/-- The driver before its first initialisation. -/
def powerOn (efl : Config) (f : σ) : Option (Store σ) := some (.reset efl f)

theorem running_on_flash (hw : Works e cfg.writeSize.bytes Ready Free) {f : σ}
    (hinit : backingStoreInit e efl cfg (.reset efl f) = some t)
    (hfree : ∀ a < cfg.backingSize, Free f (t.baseOffset+a)) {s : State} (h : Running cfg s) :
    (eflBacking e efl cfg).answer.answers (powerOn efl f) s.flash.calls
        = (plainBacking cfg).answer.answers ByteMem.blank s.flash.calls
      ∧ ∃ x, (eflBacking e efl cfg).answer.after (powerOn efl f) s.flash.calls
          = some { t with flash := x }
        ∧ StandsFor e cfg Ready Free t (e.mapped f) (ledger cfg ByteMem.blank s.flash.calls) x
          s.flash.mem := by
  obtain ⟨cs,hcs⟩ := h.begun
  have hpermitted := h.recorded.permitted
  rw [hcs] at hpermitted
  have hafter := h.recorded.mem
  rw [hcs] at hafter
  obtain ⟨hsame,hstays⟩ := hw.stop f
  have hfirst : (eflBacking e efl cfg).answer (powerOn efl f) (.init true)
      = ((true,[]),some { t with flash := e.stop f }) := by
    simp only [Backing.answer, eflBacking, powerOn, Option.bind_some, hinit]
    rw [← (init_found hw hinit).2.2]
  have hstart : StandsFor e cfg Ready Free t (e.mapped f)
      ((Ledger.start cfg ByteMem.blank).after cfg (.init true)) (e.stop f) ByteMem.blank := by
    refine ⟨fun hl => (nomatch hl),fun a ha => ?_,fun a ha _ => hstays _ (hfree a ha),
      fun a _ => congrFun hsame a⟩
    rw [hw.erased (hstays _ (hfree a ha)), ByteMem.blank, encodeByte_zero]
  obtain ⟨hanswers,x,hx,hstands⟩ := (efl_simulates hw hinit).run ⟨_,rfl,hstart⟩ hpermitted.2
  rw [hcs]
  refine ⟨?_,x,?_,?_⟩
  · rw [Machine.answers, Machine.answers, hfirst, hanswers]
    rfl
  · rw [Machine.after_cons, hfirst, hx]
  · rw [← hafter]
    exact hstands

end QmkFirmware.FlashEfl
