import QmkFirmware.Lib.Machine
import QmkFirmware.WearLeveling.Arbitrary
import QmkFirmware.WearLeveling.Protocol

/-!
The calls of the core on a driver of the backing store. Over a store without faults every one of
them is permitted to a driver whose words may be written once after an erase.
-/

set_option autoImplicit false

namespace QmkFirmware.WearLeveling

open LogReplay

/-- The functions of a driver. `backing_store_read` leaves the store as it is. -/
structure Backing (σ : Type) where
  init : σ → Bool × σ
  unlock : σ → Bool × σ
  lock : σ → Bool × σ
  erase : σ → Bool × σ
  read : Nat → σ → Bool × Word
  write : Nat → Word → σ → Bool × σ

def Backing.answer {σ : Type} (b : Backing σ) : Machine σ BackingCall (Bool × Word)
  | x, .init _ => (((b.init x).1,[]),(b.init x).2)
  | x, .unlock _ => (((b.unlock x).1,[]),(b.unlock x).2)
  | x, .lock _ => (((b.lock x).1,[]),(b.lock x).2)
  | x, .erase _ => (((b.erase x).1,[]),(b.erase x).2)
  | x, .read a _ => (b.read a x,x)
  | x, .write a v _ => (((b.write a v x).1,[]),(b.write a v x).2)

variable (cfg : Config)

/-- The store of `Driver.faultFree`. -/
def plainBacking : Backing ByteMem where
  init m := (true,m)
  unlock m := (true,m)
  lock m := (true,m)
  erase _ := (true,ByteMem.blank)
  read a m := (true,m.read a cfg.writeSize.bytes)
  write a v m := (true,m.write a v)

/-- A call that succeeds. An initialisation finds the store locked, and a word that is read lies in
the store. -/
def Permits (l : Ledger) (c : BackingCall) : Prop :=
  l.Allows cfg c ∧ match c with
    | .init ok => ok = true ∧ l.locked = true
    | .read a ok => ok = true ∧ a+cfg.writeSize.bytes ≤ cfg.backingSize
    | .unlock ok | .lock ok | .erase ok | .write _ _ ok => ok = true

def Made (P : BackingCall → Prop) (f g : Flash) : Prop :=
  ∃ cs, g.calls = f.calls ++ cs ∧ g.mem = (plainBacking cfg).answer.after f.mem cs ∧ ∀ c ∈ cs, P c

def Change : BackingCall → Prop
  | .unlock ok | .lock ok | .erase ok | .write _ _ ok => ok = true
  | .init _ | .read _ _ => False

variable {cfg} {P : BackingCall → Prop} {f g h : Flash} {s : State}

theorem Made.refl (f : Flash) : Made cfg P f f := ⟨[],by simp⟩

theorem Made.trans (hfg : Made cfg P f g) (hgh : Made cfg P g h) : Made cfg P f h := by
  obtain ⟨cs,hcs,hmem,hP⟩ := hfg
  obtain ⟨ds,hds,hmem',hP'⟩ := hgh
  refine ⟨cs ++ ds,by rw [hds, hcs, List.append_assoc],?_,fun c hc => ?_⟩
  · rw [hmem', hmem, Machine.after_append]
  · exact (List.mem_append.mp hc).elim (hP c) (hP' c)

theorem Made.one {c : BackingCall} (hP : P c) :
    Made cfg P f ⟨((plainBacking cfg).answer f.mem c).2,f.calls ++ [c]⟩ :=
  ⟨[c],rfl,rfl,fun _ hc => List.mem_singleton.mp hc ▸ hP⟩

theorem unlock_made : Made cfg Change s.flash (wearLevelingUnlock .faultFree s).2.flash := by
  rw [wearLevelingUnlock]
  split
  · exact .refl _
  · exact .one (c := .unlock true) rfl

theorem lock_made : Made cfg Change s.flash (wearLevelingLock .faultFree s).2.flash := by
  rw [wearLevelingLock]
  split
  · exact .refl _
  · exact .one (c := .lock true) rfl

theorem writeBulk_made (a : Nat) (vs : List Word) (f : Flash) :
    Made cfg Change f (backingStoreWriteBulk .faultFree cfg a vs f).2 := by
  induction vs generalizing a f with
  | nil => exact .refl f
  | cons v vs ih => exact (Made.one (P := Change) (c := .write a v true) rfl).trans (ih _ _)

theorem writeConsolidated_made :
    Made cfg Change s.flash (wearLevelingWriteConsolidated .faultFree cfg s).2.flash := by
  have hdata : Made cfg Change s.flash (wearLevelingUnlock .faultFree s).2.flash := unlock_made
  simp only [wearLevelingWriteConsolidated]
  generalize wearLevelingUnlock .faultFree s = u at hdata ⊢
  have hbulk := hdata.trans
    (writeBulk_made 0 (words cfg u.2.cache 0 (cfg.items cfg.logicalSize)) u.2.flash)
  generalize backingStoreWriteBulk .faultFree cfg 0 _ _ = r at hbulk ⊢
  have hhash := hbulk.trans (writeBulk_made cfg.logicalSize (words cfg (ByteMem.blank.write 0
    (raw64 (cfg.fnv (u.2.cache.read 0 cfg.logicalSize)))) 0 (cfg.items 8)) r.2)
  generalize backingStoreWriteBulk .faultFree cfg cfg.logicalSize _ _ = q at hhash ⊢
  split
  · refine Made.trans ?_ lock_made
    split
    · exact hbulk
    · exact hhash
  · split
    · exact hbulk
    · exact hhash

theorem consolidateForce_made :
    Made cfg Change s.flash (wearLevelingConsolidateForce .faultFree cfg s).2.flash := by
  have herase : Made cfg Change s.flash (backingStoreErase .faultFree s.flash).2 :=
    .one (c := .erase true) rfl
  exact herase.trans writeConsolidated_made

theorem consolidateIfNeeded_made :
    Made cfg Change s.flash (wearLevelingConsolidateIfNeeded .faultFree cfg s).2.flash := by
  rw [wearLevelingConsolidateIfNeeded]
  split
  · exact consolidateForce_made
  · exact .refl _

theorem appendRaw_made (v : Word) :
    Made cfg Change s.flash (wearLevelingAppendRaw .faultFree cfg v s).2.flash := by
  rw [appendRaw_written rfl]
  exact (Made.one (P := Change) (c := .write s.writeAddress v true) rfl).trans
    consolidateIfNeeded_made

theorem appendWords_made (vs : List Word) :
    Made cfg Change s.flash (appendWords .faultFree cfg vs s).2.flash := by
  induction vs generalizing s with
  | nil => exact .refl _
  | cons v vs ih =>
    rw [appendWords]
    split
    · exact appendRaw_made v
    · exact (appendRaw_made v).trans ih

theorem appendEntries_made (es : List Entry) :
    Made cfg Change s.flash (appendEntries .faultFree cfg es s).2.flash := by
  induction es generalizing s with
  | nil => exact .refl _
  | cons e es ih =>
    rw [appendEntries]
    split
    · exact appendWords_made e.words
    · exact (appendWords_made e.words).trans ih

theorem writeRaw_made (address : Nat) (value : List UInt8) :
    let r := wearLevelingWriteRaw .faultFree cfg address value s
    let w := if r.1 = .success then wearLevelingConsolidateIfNeeded .faultFree cfg r.2 else r
    Made cfg Change s.flash w.2.flash := by
  simp only [wearLevelingWriteRaw, writeRawLoop_eq]
  split
  · exact (appendEntries_made _).trans consolidateIfNeeded_made
  · exact appendEntries_made _

theorem write_made (address : Nat) (value : List UInt8) :
    Made cfg Change s.flash (wearLevelingWrite .faultFree cfg address value s).2.flash := by
  have hunlock : Made cfg Change s.flash
      (wearLevelingUnlock .faultFree { s with cache := s.cache.write address value }).2.flash :=
    unlock_made
  simp only [wearLevelingWrite]
  generalize wearLevelingUnlock .faultFree { s with cache := s.cache.write address value } = u
    at hunlock ⊢
  have hwrite := hunlock.trans (writeRaw_made address value)
  split
  · exact .refl _
  split
  · exact .refl _
  split
  · exact hunlock.trans lock_made
  split
  · exact hwrite.trans lock_made
  · exact hwrite

theorem erase_made : Made cfg Change s.flash (wearLevelingErase .faultFree cfg s).2.flash := by
  have hunlock : Made cfg Change s.flash (wearLevelingUnlock .faultFree s).2.flash := unlock_made
  simp only [wearLevelingErase]
  generalize wearLevelingUnlock .faultFree s = u at hunlock ⊢
  have herase : Made cfg Change s.flash
      (wearLevelingClearCache cfg
        { u.2 with flash := (backingStoreErase .faultFree u.2.flash).2 }).flash :=
    hunlock.trans (.one (c := .erase true) rfl)
  split
  · exact hunlock.trans lock_made
  split
  · exact herase.trans lock_made
  · exact herase

def Looks (cfg : Config) (c : BackingCall) : Prop :=
  ∃ a, c = .read a true ∧ a+cfg.writeSize.bytes ≤ cfg.backingSize

theorem looks_after {cs : List BackingCall} (h : ∀ c ∈ cs, Looks cfg c) (m : ByteMem) :
    (plainBacking cfg).answer.after m cs = m := by
  induction cs with
  | nil => rfl
  | cons c cs ih =>
    obtain ⟨⟨a,rfl,-⟩,hcs⟩ := List.forall_mem_cons.mp h
    exact ih hcs

theorem Made.looks_mem (h : Made cfg (Looks cfg) f g) : g.mem = f.mem := by
  obtain ⟨cs,-,hmem,hlooks⟩ := h
  rw [hmem, looks_after hlooks]

theorem readBulk_made {a n : Nat} (h : a+n*cfg.writeSize.bytes ≤ cfg.backingSize) (f : Flash) :
    Made cfg (Looks cfg) f (backingStoreReadBulk .faultFree cfg a n f).2.2 := by
  induction n generalizing a f with
  | zero => exact .refl f
  | succ n ih =>
    rw [Nat.succ_mul] at h
    have hone : Made cfg (Looks cfg) f (backingStoreRead .faultFree cfg a f).2.2 :=
      .one (c := .read a true) ⟨a,rfl,by omega⟩
    exact hone.trans (ih (by omega) _)

section
variable {p : Playback}

theorem playbackRound_reads (hc : p.cancel = false) (hp : p.address < cfg.backingSize) :
    ∃ n, ReadsWords cfg p (playbackRound .faultFree cfg p) n := by
  have hd : Readable .faultFree := Sound.faultFree.read
  by_cases hz : p.flash.mem.read p.address cfg.writeSize.bytes
      = List.replicate cfg.writeSize.bytes 0
  · exact ⟨1,(playbackRound_blank_reads hd hz).1⟩
  by_cases hty : LogEntryType.ofCode (logEntryGetType (entryAt p.flash.mem p.address))
      = some .multibyte
  · have hcases := playbackRound_multibyte hd hc hz hty
    dsimp only at hcases
    split at hcases
    · exact ⟨_,hcases.1⟩
    · exact ⟨_,hcases.1⟩
  · exact ⟨1,(playbackRound_other hd hc hp hz hty).reads⟩

theorem playbackRound_made (hc : p.cancel = false) (hp : p.address < cfg.backingSize)
    (hsafe : SafeRound .faultFree cfg p) :
    Made cfg (Looks cfg) p.flash (playbackRound .faultFree cfg p).flash := by
  obtain ⟨n,hreads⟩ := playbackRound_reads hc hp
  have hinside := hsafe.reads
  rw [newReads_eq hreads] at hinside
  have hlooks : ∀ c ∈ (List.range n).map fun i =>
      BackingCall.read (p.address+i*cfg.writeSize.bytes) true, Looks cfg c := by
    intro c hmem
    obtain ⟨i,-,rfl⟩ := List.mem_map.mp hmem
    exact ⟨_,rfl,hinside _ hmem⟩
  exact ⟨_,hreads.calls,by rw [hreads.mem, looks_after hlooks],hlooks⟩

theorem playbackLoop_made (fuel : Nat)
    (hsafe : ∀ q ∈ visited .faultFree cfg fuel p, SafeRound .faultFree cfg q) :
    Made cfg (Looks cfg) p.flash (playbackLoop .faultFree cfg fuel p).flash := by
  induction fuel generalizing p with
  | zero => exact .refl _
  | succ fuel ih =>
    rw [visited] at hsafe
    rw [playbackLoop]
    split
    · exact .refl _
    · rename_i hgo
      rw [if_neg hgo] at hsafe
      simp only [Bool.or_eq_true, decide_eq_true_eq, not_or, Bool.not_eq_true, Nat.not_le] at hgo
      obtain ⟨hround,hrest⟩ := List.forall_mem_cons.mp hsafe
      exact (playbackRound_made hgo.1 hgo.2 hround).trans (ih hrest)

end

theorem entryOk_of_next {m : ByteMem} {a b : Nat} {c c' : ByteMem}
    (h : nextEntry cfg m a c = some (b,c')) (hb : b ≤ cfg.backingSize) : EntryOk cfg m a := by
  intro hne hty
  rcases (nextEntry_cases h).2 with ⟨-,hl,-,rfl,-⟩ | ⟨hty',-⟩ | ⟨hty',-⟩
  · have hhead := (extraWords_eq cfg (l := logEntryMultibyteGetLength (entryAt m a))).2
    have hmul := Nat.mul_le_mul_right cfg.writeSize.bytes hhead
    exact ⟨by omega,fun _ => ⟨hl,hb⟩⟩
  · exact nomatch hty.symm.trans hty'
  · exact nomatch hty.symm.trans hty'

theorem entriesOk_of_ends {m : ByteMem} {a b : Nat} {c c' : ByteMem}
    (h : Ends (nextEntry cfg) m a c b c') (hb : b < cfg.backingSize) : EntriesOk cfg m a c := by
  obtain ⟨hplays,hblank⟩ := h
  have hzero : m.read b cfg.writeSize.bytes = List.replicate cfg.writeSize.bytes 0 := by
    rw [← ByteMem.read_blank b]
    exact ByteMem.read_congr fun x hx _ => hblank x hx
  intro x cx hx hlt
  clear hlt
  induction hx with
  | refl x cx =>
    cases hplays with
    | refl => exact fun hne => absurd hzero hne
    | step e k =>
      have hle := k.le (nextEntry_local cfg)
      exact entryOk_of_next e (by omega)
  | step e k ih =>
    cases hplays with
    | refl => exact absurd hzero (nextEntry_cases e).1
    | step e' k' =>
      cases e.symm.trans e'
      exact ih k'

def opened (cfg : Config) (s : State) : State :=
  ⟨ByteMem.blank,cfg.logStart,s.unlocked,⟨s.flash.mem,s.flash.calls ++ [.init true]⟩⟩

theorem wearLevelingInit_opened (cfg : Config) (s : State) :
    wearLevelingInit .faultFree cfg s =
      let q := wearLevelingReadConsolidated .faultFree cfg (opened cfg s)
      if q.1 = .failed then (.failed, wearLevelingClearCache cfg q.2) else
      let t := wearLevelingPlaybackLog .faultFree cfg q.2
      if t.1 = .failed then (.failed, wearLevelingClearCache cfg t.2) else t := rfl

theorem init_made {a : Nat} {c : ByteMem} (h : Holds cfg s.flash.mem a c) :
    Made cfg (Looks cfg) (opened cfg s).flash
      (wearLevelingInit .faultFree cfg s).2.flash := by
  have hd : Readable .faultFree := Sound.faultFree.read
  have hlog := cfg.room
  -- the consolidated data and its checksum
  have hcons : ∀ t : State, t.flash.mem = s.flash.mem →
      let q := wearLevelingReadConsolidated .faultFree cfg t
      q.1 = .success ∧ q.2.cache = base cfg s.flash.mem ∧ Made cfg (Looks cfg) t.flash q.2.flash := by
    intro t ht
    have hdata : Made cfg (Looks cfg) t.flash
        (backingStoreReadBulk .faultFree cfg 0 (cfg.items cfg.logicalSize) t.flash).2.2 :=
      readBulk_made (by rw [items_logical]; omega) t.flash
    obtain ⟨h₁,h₂,h₃⟩ := readBulk_ok cfg hd 0 (cfg.items cfg.logicalSize) t.flash
    generalize hq : backingStoreReadBulk .faultFree cfg 0 (cfg.items cfg.logicalSize) t.flash = r
      at h₁ h₂ h₃ hdata
    have hhash : Made cfg (Looks cfg) t.flash
        (backingStoreReadBulk .faultFree cfg cfg.logicalSize (cfg.items 8) r.2.2).2.2 :=
      hdata.trans (readBulk_made (by rw [items_eight]; omega) _)
    rw [items_logical, ht] at h₂
    have hread : (ByteMem.blank.write 0 (s.flash.mem.read 0 cfg.logicalSize)).read 0
        cfg.logicalSize = s.flash.mem.read 0 cfg.logicalSize := by
      have hsame := ByteMem.read_write_same ByteMem.blank 0 (s.flash.mem.read 0 cfg.logicalSize)
      rwa [ByteMem.length_read] at hsame
    simp only [wearLevelingReadConsolidated, hq, h₁, h₂, h₃, ht, hread, Bool.not_true,
      Bool.false_eq_true, if_false, base, wearLevelingClearCache]
    split
    · exact ⟨rfl,rfl,hhash⟩
    · exact ⟨rfl,rfl,hhash⟩
  obtain ⟨hok,hcache,hmade⟩ := hcons (opened cfg s) rfl
  rw [wearLevelingInit_opened]
  generalize wearLevelingReadConsolidated .faultFree cfg (opened cfg s) = q at hok hcache hmade ⊢
  have hends : Ends (nextEntry cfg) q.2.flash.mem cfg.logStart q.2.cache a c := by
    rw [hmade.looks_mem, hcache]
    exact h.ends
  have hrounds := ((entriesOk_of_ends hends h.room).playbackSafe (s := q.2) hd).rounds
  have hloop := hmade.trans (playbackLoop_made cfg.backingSize hrounds)
  have hstart := h.start_le
  have hpos : 0 < cfg.logStart := by unfold Config.logStart; omega
  obtain ⟨hstatus,haddr,-,-⟩ := playbackLoop_ends hd (p := playbackStart cfg q.2) rfl hends h.room
    cfg.backingSize (show a-cfg.logStart < cfg.backingSize by have := h.room; omega)
  have hlog : wearLevelingPlaybackLog .faultFree cfg q.2 = (.success, { q.2 with
      cache := (playbackLoop .faultFree cfg cfg.backingSize (playbackStart cfg q.2)).cache
      writeAddress := a
      flash := (playbackLoop .faultFree cfg cfg.backingSize (playbackStart cfg q.2)).flash }) := by
    have hnot : (playbackStart cfg q.2).status ≠ .failed := by simp [playbackStart]
    simp only [playbackStart] at hstatus haddr hnot ⊢
    simp only [wearLevelingPlaybackLog, hstatus, haddr, wearLevelingConsolidateIfNeeded,
      if_neg (Nat.not_le.mpr h.room), reduceCtorEq, if_false]
  simp only [hok, hlog, reduceCtorEq, if_false]
  exact hloop

structure Recorded (cfg : Config) (s : State) : Prop where
  guarded : Guarded cfg ByteMem.blank s
  permitted : Along (Ledger.after cfg) (Permits cfg) (.start cfg ByteMem.blank) s.flash.calls
  mem : (plainBacking cfg).answer.after ByteMem.blank s.flash.calls = s.flash.mem

theorem permits_of_allows {l : Ledger} {cs : List BackingCall}
    (h : Along (Ledger.after cfg) (Ledger.Allows cfg) l cs)
    (hcs : ∀ c ∈ cs, Change c ∨ Looks cfg c) :
    Along (Ledger.after cfg) (Permits cfg) l cs := by
  induction cs generalizing l with
  | nil => trivial
  | cons c cs ih =>
    obtain ⟨hc,hrest⟩ := List.forall_mem_cons.mp hcs
    refine ⟨⟨h.1,?_⟩,ih h.2 hrest⟩
    rcases hc with hc | ⟨a,rfl,ha⟩
    · cases c with
      | init | read => exact hc.elim
      | unlock | lock | erase | write => exact hc
    · exact ⟨rfl,ha⟩

theorem Recorded.extend {t : State} (h : Recorded cfg s) (ht : Guarded cfg ByteMem.blank t)
    (hmade : Made cfg (fun c => Change c ∨ Looks cfg c) s.flash t.flash) : Recorded cfg t := by
  obtain ⟨cs,hcs,hmem,hP⟩ := hmade
  refine ⟨ht,?_,?_⟩
  · have hallows := ht.calls
    rw [Disciplined, hcs, Along.append] at hallows
    rw [hcs, Along.append]
    exact ⟨h.permitted,permits_of_allows hallows.2 hP⟩
  · rw [hcs, hmem, Machine.after_append, h.mem]

theorem Made.imp {Q : BackingCall → Prop} (h : Made cfg P f g) (hPQ : ∀ c, P c → Q c) :
    Made cfg Q f g := by
  obtain ⟨cs,hcs,hmem,hP⟩ := h
  exact ⟨cs,hcs,hmem,fun c hc => hPQ c (hP c hc)⟩

theorem Recorded.lost (h : Recorded cfg s) :
    (ledger cfg ByteMem.blank s.flash.calls).lost = false := by
  refine Along.invariant (I := fun l => l.lost = false) (fun l c hl hc => ?_) ?_ h.permitted
  · cases c with
    | init => rfl
    | read => exact hl
    | unlock ok | lock ok | write _ _ ok | erase ok =>
      obtain rfl : ok = true := hc.2
      simp [Ledger.after,hl]
  · simp [Ledger.start,Ledger.used,ByteMem.blank]

theorem Recorded.behind (h : Recorded cfg s) {x : Nat} (hx : cfg.backingSize ≤ x) :
    (ledger cfg ByteMem.blank s.flash.calls).programmed x = false := by
  refine Along.invariant (I := fun l => l.programmed x = false) (fun l c hl hc => ?_) ?_
    h.permitted
  · cases c with
    | init | read => simpa [Ledger.after] using hl
    | unlock ok | lock ok | erase ok =>
      obtain rfl : ok = true := hc.2
      simp [Ledger.after,hl]
    | write a v ok =>
      obtain ⟨⟨-,hlen,hin,-⟩,hok⟩ := hc
      obtain rfl : ok = true := hok
      simp [Ledger.after,hl]
      omega
  · simp [Ledger.start,ByteMem.blank]

theorem Recorded.start (cfg : Config) : Recorded cfg (.reset .erased) :=
  ⟨start_guarded cfg ByteMem.blank,trivial,rfl⟩

theorem Recorded.write (h : Recorded cfg s) (address : Nat) (value : List UInt8) :
    Recorded cfg (wearLevelingWrite .faultFree cfg address value s).2 :=
  h.extend (write_guarded address value h.guarded fun _ => h.lost).1
    ((write_made address value).imp fun _ => .inl)

theorem Recorded.erase (h : Recorded cfg s) :
    Recorded cfg (wearLevelingErase .faultFree cfg s).2 :=
  h.extend (erase_guarded h.guarded).1 (erase_made.imp fun _ => .inl)

theorem Recorded.init (h : Recorded cfg s) (hu : s.unlocked = false) {c : ByteMem} {a : Nat}
    (hh : Holds cfg s.flash.mem a c)
    (hfree : ∀ x, a ≤ x → (ledger cfg ByteMem.blank s.flash.calls).programmed x = false) :
    Recorded cfg (wearLevelingInit .faultFree cfg s).2 := by
  have hguarded := (init_guarded (fun _ => rfl) Sound.faultFree.read h.guarded ⟨a,c,hh,hfree⟩).1
  have hopened : Recorded cfg { s with flash := (opened cfg s).flash } := by
    refine ⟨⟨h.guarded.calls.snoc trivial,?_,fun hlost => ?_⟩,?_,?_⟩
    · rw [opened, ledger_snoc]
      exact h.guarded.flag
    · rw [opened, ledger_snoc] at hlost ⊢
      obtain ⟨h₁,h₂,h₃⟩ := h.guarded.placed h.lost
      exact ⟨h₁,h₂,h₃⟩
    · exact Along.snoc.mpr ⟨h.permitted,trivial,rfl,locked_of_flag h.guarded hu⟩
    · rw [opened, Machine.after_append, h.mem]
      rfl
  exact hopened.extend hguarded ((init_made hh).imp fun _ => .inr)

structure Running (cfg : Config) (s : State) : Prop where
  synced : Synced cfg s
  recorded : Recorded cfg s
  begun : ∃ cs, s.flash.calls = .init true :: cs

theorem Running.free (h : Running cfg s) {x : Nat} (hx : s.writeAddress ≤ x) :
    (ledger cfg ByteMem.blank s.flash.calls).programmed x = false := by
  by_cases hin : x < cfg.backingSize
  · exact (h.recorded.guarded.placed h.recorded.lost).free x hx hin
  · exact h.recorded.behind (Nat.not_lt.mp hin)

theorem Made.begun (h : Made cfg P f g) (hf : ∃ cs, f.calls = .init true :: cs) :
    ∃ cs, g.calls = .init true :: cs := by
  obtain ⟨ds,hds,-⟩ := h
  obtain ⟨cs,hcs⟩ := hf
  exact ⟨cs ++ ds,by rw [hds, hcs, List.cons_append]⟩

theorem Running.write (h : Running cfg s) {address : Nat} {value : List UInt8}
    (hv : address+value.length ≤ cfg.logicalSize) :
    Running cfg (wearLevelingWrite .faultFree cfg address value s).2 where
  synced := (exec_synced (c := .write address value) h.synced hv).1
  recorded := h.recorded.write address value
  begun := (@write_made cfg s address value).begun h.begun

theorem Running.erase (h : Running cfg s) :
    Running cfg (wearLevelingErase .faultFree cfg s).2 where
  synced := (exec_synced (c := .erase) h.synced trivial).1
  recorded := h.recorded.erase
  begun := (@erase_made cfg s).begun h.begun

theorem Running.init (h : Running cfg s) :
    Running cfg (wearLevelingInit .faultFree cfg s).2 where
  synced := (exec_synced (c := .init) h.synced trivial).1
  recorded := h.recorded.init h.synced.locked h.synced.holds fun _ => h.free
  begun := by
    obtain ⟨cs,hcs⟩ := h.begun
    exact (init_made h.synced.holds).begun ⟨cs ++ [.init true],by
      rw [opened, hcs, List.cons_append]⟩

theorem reinit_eq (hu : s.unlocked = false) :
    reinit .faultFree cfg s.flash = (wearLevelingInit .faultFree cfg s).2 := by
  have hsame : opened cfg (.reset s.flash) = opened cfg s := by rw [opened, opened, hu]; rfl
  rw [reinit, wearLevelingInit_opened, wearLevelingInit_opened, hsame]

theorem Running.reinit (h : Running cfg s) : Running cfg (reinit .faultFree cfg s.flash) :=
  @reinit_eq cfg s h.synced.locked ▸ h.init

theorem boot_running (cfg : Config) : Running cfg (boot .faultFree cfg) where
  synced := (boot_synced Sound.faultFree cfg).1
  recorded := (Recorded.start cfg).init rfl (holds_blank cfg) fun x _ => by
    simp [State.reset,Flash.erased,ledger,Ledger.start,ByteMem.blank]
  begun := (init_made (s := .reset .erased) (holds_blank cfg)).begun ⟨[],rfl⟩

theorem Running.exec (h : Running cfg s) {c : Call} (hc : c.Valid cfg) :
    Running cfg (exec .faultFree cfg s c).2 := by
  cases c with
  | write address value => exact h.write hc
  | erase => exact h.erase
  | init => exact h.init

theorem run_running {calls : List Call} (h : Running cfg s) (hc : ∀ c ∈ calls, c.Valid cfg) :
    Running cfg (run .faultFree cfg calls s) := by
  induction calls generalizing s with
  | nil => exact h
  | cons c calls ih =>
    obtain ⟨hfirst,hrest⟩ := List.forall_mem_cons.mp hc
    exact ih (h.exec hfirst) hrest

end QmkFirmware.WearLeveling
