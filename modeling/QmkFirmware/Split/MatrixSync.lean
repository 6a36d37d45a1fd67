import QmkFirmware.Lib.Crc
import QmkFirmware.Split.Encoder

/-!
The matrix of the other half of a split keyboard. The slave publishes its matrix with a checksum;
the master reads the checksum, and the matrix if the checksum is not that of its copy or the copy
is old. Every transaction of the master is a step of its own, it may fail, and the slave publishes
between them.
-/

set_option autoImplicit false

namespace QmkFirmware.Split.MatrixSync

variable {n : Nat}

/-- The memory of the rows of a hand. -/
abbrev Matrix (n : Nat) := Vector UInt8 n

def noKeys : Matrix n := Vector.replicate n 0

/-- `split_slave_matrix_sync_t`. -/
structure SlaveMatrixSync (n : Nat) where
  checksum : UInt8
  matrix : Matrix n
  deriving DecidableEq, Repr

def forcedSyncThrottleMs : UInt32 := 100

def splitMaxConnectionErrors : UInt8 := 10

def splitConnectionCheckTimeout : UInt16 := 500

def timerElapsed32 (last now : UInt32) : UInt32 := now-last

/-- `timer_read`, at a time of the long timer. -/
def timerRead (now : UInt32) : UInt16 := now.toUInt16

def timerElapsed (last : UInt16) (now : UInt32) : UInt16 := timerRead now-last

/-- Where the master is in `matrix_post_scan`. -/
inductive Phase where
  | idle
  /-- To read the checksum, in the `iter`th turn of `transaction_handler_master`. -/
  | checksum (iter numRetries : Nat)
  | retrieve (iter numRetries : Nat) (currChecksum : UInt8)
  /-- The matrix is there, and the other transactions are to follow. -/
  | others
  deriving DecidableEq, Repr

structure System (n : Nat) where
  slaveShmem : SlaveMatrixSync n
  masterShmem : SlaveMatrixSync n
  lastUpdate : UInt32
  lastMatrix : Matrix n
  connectionErrors : UInt8
  connectionCheckTimer : UInt16
  lastConnected : Bool
  phase : Phase
  /-- The buffer of `matrix_post_scan`, and what it has returned. -/
  slaveMatrix : Matrix n
  changed : Bool
  /-- The rows of the other hand in the matrix of the master. -/
  otherHand : Matrix n
  /-- All that the slave has published, the last of it when a poll last went well, and the polls
  that failed since. -/
  published : List (Matrix n)
  agreed : Option (Matrix n)
  failures : Nat

def System.start : System n where
  slaveShmem := ⟨0,noKeys⟩
  masterShmem := ⟨0,noKeys⟩
  lastUpdate := 0
  lastMatrix := noKeys
  connectionErrors := 0
  connectionCheckTimer := 0
  lastConnected := false
  phase := .idle
  slaveMatrix := noKeys
  changed := false
  otherHand := noKeys
  published := []
  agreed := none
  failures := 0

/-- The steps of both halves. A read that fails may leave anything in the memory of the master. -/
inductive Action (n : Nat) where
  /-- `slave_matrix_handlers_slave`, under the lock. -/
  | publish (slaveMatrix : Matrix n)
  | postScan (now : UInt32)
  | readChecksum (failed : Option UInt8) (now : UInt32)
  | readMatrix (failed : Option (Matrix n)) (now : UInt32)
  | others (okay : Bool) (now : UInt32)

def System.isTransportConnected (s : System n) : Bool :=
  s.connectionErrors < splitMaxConnectionErrors

/-- The rest of `matrix_post_scan`, when the transport has told if it is connected. -/
def System.postScanDone (s : System n) (connected : Bool) : System n :=
  let s :=
    if connected then
      { s with changed := s.otherHand ≠ s.slaveMatrix, lastConnected := true }
    else if s.lastConnected then
      { s with slaveMatrix := noKeys, changed := true, lastConnected := false }
    else { s with changed := false }
  { s with otherHand := if s.changed then s.slaveMatrix else s.otherHand, phase := .idle }

def System.countError (s : System n) : System n :=
  { s with
    connectionErrors :=
      if s.connectionErrors < 255 then s.connectionErrors+1 else s.connectionErrors
    failures := s.failures+1 }

/-- The rest of `transport_master_if_connected`, when `transport_master` is through. -/
def System.transportDone (s : System n) (okay : Bool) (now : UInt32) : System n :=
  if okay then { s with connectionErrors := 0, failures := 0 }.postScanDone true
  else if s.countError.isTransportConnected then s.countError.postScanDone true
  else { s.countError with connectionCheckTimer := timerRead now }.postScanDone false

/-- The rest of `slave_matrix_handlers_master`, with what has been read, and then of its loop in
`transaction_handler_master`. -/
def System.handlerDone (s : System n) (read : Option (Matrix n)) (iter numRetries : Nat)
    (now : UInt32) : System n :=
  match read with
  | some tempMatrix =>
    { s with
      lastMatrix := tempMatrix
      slaveMatrix := tempMatrix
      agreed := s.published.getLast?
      phase := .others }
  | none =>
    let s := { s with slaveMatrix := s.lastMatrix }
    if iter < numRetries then { s with phase := .checksum (iter+1) numRetries }
    else s.transportDone false now

variable (crc : List UInt8 → UInt8)

/-- A transaction out of its turn does nothing. -/
def step (s : System n) : Action n → System n
  | .publish slaveMatrix =>
    { s with
      slaveShmem := ⟨crc slaveMatrix.toList,slaveMatrix⟩
      published := s.published ++ [slaveMatrix] }
  | .postScan now =>
    if s.phase ≠ .idle then s
    else
      let s := { s with slaveMatrix := noKeys }
      if s.isTransportConnected = false
          ∧ timerElapsed s.connectionCheckTimer now < splitConnectionCheckTimeout then
        s.postScanDone false
      else { s with phase := .checksum 1 (if s.isTransportConnected then 10 else 1) }
  | .readChecksum failed now =>
    match s.phase with
    | .checksum iter numRetries =>
      match failed with
      | some checksum =>
        { s with masterShmem := { s.masterShmem with checksum := checksum } }.handlerDone none
          iter numRetries now
      | none =>
        let curr := s.slaveShmem.checksum
        let s := { s with masterShmem := { s.masterShmem with checksum := curr } }
        if timerElapsed32 s.lastUpdate now ≥ forcedSyncThrottleMs
            ∨ curr ≠ crc s.masterShmem.matrix.toList then
          { s with phase := .retrieve iter numRetries curr }
        else s.handlerDone (some s.masterShmem.matrix) iter numRetries now
    | _ => s
  | .readMatrix failed now =>
    match s.phase with
    | .retrieve iter numRetries curr =>
      match failed with
      | some matrix =>
        { s with masterShmem := { s.masterShmem with matrix := matrix } }.handlerDone none
          iter numRetries now
      | none =>
        let s := { s with masterShmem := { s.masterShmem with matrix := s.slaveShmem.matrix } }
        if curr = crc s.masterShmem.matrix.toList then
          { s with lastUpdate := now }.handlerDone (some s.masterShmem.matrix) iter numRetries now
        else s.handlerDone none iter numRetries now
    | _ => s
  | .others okay now => if s.phase ≠ .others then s else s.transportDone okay now

/-- A run of both halves. -/
def run (as : List (Action n)) : System n := as.foldl (step crc) .start

def bits (a : Matrix n) : List (BitVec 8) := a.toList.map UInt8.toBitVec

/-- The keys that are down in only one of two matrices. -/
def keysApart (a b : Matrix n) : Nat := Crc.distance (bits a) (bits b)

theorem crc8_step : ∀ c : BitVec 8,
    (if UInt8.ofBitVec c &&& 0x80 ≠ 0 then (UInt8.ofBitVec c <<< 1) ^^^ 0x31
      else UInt8.ofBitVec c <<< 1).toBitVec = Crc.mulX 0x31#8 c := by decide

theorem crc8_byte (c : UInt8) : ((List.range 8).foldl (fun (crc : UInt8) _ =>
    if crc &&& 0x80 ≠ 0 then (crc <<< 1) ^^^ 0x31 else crc <<< 1) c).toBitVec
      = (Crc.mulX 0x31#8)^[8] c.toBitVec := by
  have hstep (c : UInt8) : (if c &&& 0x80 ≠ 0 then (c <<< 1) ^^^ 0x31 else c <<< 1).toBitVec
      = Crc.mulX 0x31#8 c.toBitVec := crc8_step c.toBitVec
  simp only [show List.range 8 = [0,1,2,3,4,5,6,7] from rfl, List.foldl_cons, List.foldl_nil,
    hstep, Function.iterate_succ_apply', Function.iterate_zero_apply]

theorem crc8_eq (data : List UInt8) :
    (crc8 data).toBitVec = Crc.remainder 0x31#8 0xff#8 (data.map UInt8.toBitVec) := by
  have hgen (c : UInt8) : (data.foldl (fun (crc d : UInt8) => (List.range 8).foldl (fun crc _ =>
      if crc &&& 0x80 ≠ 0 then (crc <<< 1) ^^^ 0x31 else crc <<< 1) (crc ^^^ d)) c).toBitVec
        = Crc.remainder 0x31#8 c.toBitVec (data.map UInt8.toBitVec) := by
    induction data generalizing c with
    | nil => rfl
    | cons d data ih =>
      rw [List.foldl_cons, ih, crc8_byte, List.map_cons, Crc.remainder_cons]
      rfl
  exact hgen 0xff

theorem crc8_order : Crc.OrderAtLeast 0x31#8 127 := by
  have hall : ∀ k < 127, 0 < k → (Crc.mulX 0x31#8)^[k] 1 ≠ 1 := by decide
  exact fun k hpos hlt => hall k hlt hpos

theorem keysApart_of_crc8 (hn : n ≤ 15) {a b : Matrix n} (h : crc8 a.toList = crc8 b.toList) :
    Even (keysApart a b) ∧ (a = b ∨ 4 ≤ keysApart a b) := by
  have hlen : (bits a).length = (bits b).length := by simp [bits]
  have hunseen := @Crc.unseen 8 0x31#8 (by decide) (by decide) (by decide) 127
    crc8_order 0xff#8 (bits a) (bits b) hlen (by simp [bits]; omega)
    (by rw [bits, bits, ← crc8_eq, ← crc8_eq, h])
  refine ⟨hunseen.1,hunseen.2.imp (fun heq => ?_) id⟩
  have hinj : Function.Injective UInt8.toBitVec := fun _ _ => UInt8.toBitVec_inj.mp
  exact Vector.toList_inj.mp (hinj.list_map heq)

structure Kept (s : System n) : Prop where
  published : ∀ m, s.published.getLast? = some m → s.slaveShmem = ⟨crc m.toList,m⟩
  agreed : ∀ m, s.agreed = some m →
    m ∈ s.published ∧ crc s.lastMatrix.toList = crc m.toList
  cleared : s.lastConnected = false → s.otherHand = noKeys
  errors : s.connectionErrors.toNat = min 255 s.failures

structure Inv (s : System n) : Prop extends Kept crc s where
  taken : s.phase = .others → s.slaveMatrix = s.lastMatrix
  shown : s.phase ≠ .others → s.lastConnected = true → s.otherHand = s.lastMatrix
  plugged : s.lastConnected = true → s.failures < 10

variable {crc} {s : System n}

theorem inv_start : Inv crc (.start : System n) where
  published _ h := by simp [System.start] at h
  agreed _ h := by simp [System.start] at h
  cleared _ := rfl
  errors := rfl
  taken h := by simp [System.start] at h
  shown _ h := by simp [System.start] at h
  plugged h := by simp [System.start] at h

theorem Kept.isTransportConnected (h : Kept crc s) :
    s.isTransportConnected = true ↔ s.failures < 10 := by
  have herrors := h.errors
  rw [System.isTransportConnected, decide_eq_true_iff, UInt8.lt_iff_toNat_lt,
    show splitMaxConnectionErrors.toNat = 10 from rfl]
  omega

theorem postScanDone_true (s : System n) :
    s.postScanDone true = { s with
      changed := s.otherHand ≠ s.slaveMatrix
      lastConnected := true
      otherHand := s.slaveMatrix
      phase := .idle } := by
  by_cases h : s.otherHand = s.slaveMatrix <;> simp [System.postScanDone, h]

theorem postScanDone_false (h : s.lastConnected = false → s.otherHand = noKeys) :
    s.postScanDone false = { s with
      slaveMatrix := if s.lastConnected then noKeys else s.slaveMatrix
      changed := s.lastConnected
      lastConnected := false
      otherHand := noKeys
      phase := .idle } := by
  cases hlast : s.lastConnected with
  | true => simp [System.postScanDone, hlast]
  | false => simp [System.postScanDone, hlast, h hlast]

theorem Kept.connected (h : Kept crc s) (htaken : s.slaveMatrix = s.lastMatrix)
    (hplugged : s.failures < 10) : Inv crc (s.postScanDone true) := by
  rw [postScanDone_true]
  exact ⟨⟨h.published,h.agreed,nofun,h.errors⟩,nofun,fun _ _ => htaken,fun _ => hplugged⟩

theorem Kept.disconnected (h : Kept crc s) : Inv crc (s.postScanDone false) := by
  rw [postScanDone_false h.cleared]
  exact ⟨⟨h.published,h.agreed,fun _ => rfl,h.errors⟩,nofun,nofun,nofun⟩

theorem Kept.countError (h : Kept crc s) : Kept crc s.countError := by
  refine ⟨h.published,h.agreed,h.cleared,?_⟩
  have herrors := h.errors
  dsimp only [System.countError]
  split
  · next hlt =>
    rw [UInt8.lt_iff_toNat_lt] at hlt
    rw [UInt8.toNat_add]
    simp only [UInt8.reduceToNat] at hlt ⊢
    omega
  · next hge =>
    rw [UInt8.lt_iff_toNat_lt] at hge
    simp only [UInt8.reduceToNat] at hge
    omega

theorem Kept.transportDone (h : Kept crc s) (htaken : s.slaveMatrix = s.lastMatrix)
    (okay : Bool) (now : UInt32) : Inv crc (s.transportDone okay now) := by
  cases okay with
  | true =>
    have hkept : Kept crc { s with connectionErrors := 0, failures := 0 } :=
      ⟨h.published,h.agreed,h.cleared,rfl⟩
    exact hkept.connected htaken (Nat.zero_lt_succ _)
  | false =>
    simp only [System.transportDone, Bool.false_eq_true, if_false]
    split
    · next hconnected =>
      exact h.countError.connected htaken (h.countError.isTransportConnected.mp hconnected)
    · exact Kept.disconnected ⟨h.published,h.agreed,h.cleared,h.countError.errors⟩

theorem Kept.handlerDone (h : Kept crc s) {read : Option (Matrix n)}
    (hread : ∀ m, read = some m → ∀ p, s.published.getLast? = some p →
      crc m.toList = crc p.toList)
    (hshown : s.lastConnected = true → s.otherHand = s.lastMatrix)
    (hplugged : s.lastConnected = true → s.failures < 10) (iter numRetries : Nat) (now : UInt32) :
    Inv crc (s.handlerDone read iter numRetries now) := by
  cases read with
  | some m =>
    refine ⟨⟨h.published,fun p hp => ?_,h.cleared,h.errors⟩,fun _ => rfl,
      fun hphase => absurd rfl hphase,hplugged⟩
    exact ⟨List.mem_of_getLast? hp,hread m rfl p hp⟩
  | none =>
    simp only [System.handlerDone]
    split
    · exact ⟨⟨h.published,h.agreed,h.cleared,h.errors⟩,nofun,fun _ => hshown,hplugged⟩
    · apply Kept.transportDone
      · exact ⟨h.published,h.agreed,h.cleared,h.errors⟩
      · rfl

theorem Inv.publish (h : Inv crc s) (m : Matrix n) : Inv crc (step crc s (.publish m)) where
  published p hp := by
    simp only [step, List.getLast?_concat, Option.some.injEq] at hp ⊢
    rw [hp]
  agreed p hp := ⟨List.mem_append_left _ (h.agreed p hp).1,(h.agreed p hp).2⟩
  cleared := h.cleared
  errors := h.errors
  taken := h.taken
  shown := h.shown
  plugged := h.plugged

theorem Inv.postScan (h : Inv crc s) (now : UInt32) : Inv crc (step crc s (.postScan now)) := by
  simp only [step]
  split
  · exact h
  · next hidle =>
    have hidle : s.phase ≠ .others := by simp [not_not.mp hidle]
    split
    · exact Kept.disconnected ⟨h.published,h.agreed,h.cleared,h.errors⟩
    · exact ⟨⟨h.published,h.agreed,h.cleared,h.errors⟩,nofun,fun _ => h.shown hidle,h.plugged⟩

theorem Inv.readChecksum (h : Inv crc s) (failed : Option UInt8) (now : UInt32) :
    Inv crc (step crc s (.readChecksum failed now)) := by
  cases hphase : s.phase with
  | checksum iter numRetries =>
    have hshown := h.shown (by simp [hphase])
    simp only [step, hphase]
    cases failed with
    | some checksum =>
      apply Kept.handlerDone
      · exact ⟨h.published,h.agreed,h.cleared,h.errors⟩
      · nofun
      · exact hshown
      · exact h.plugged
    | none =>
      dsimp only
      split
      · exact ⟨⟨h.published,h.agreed,h.cleared,h.errors⟩,nofun,fun _ => hshown,h.plugged⟩
      · next hsame =>
        apply Kept.handlerDone
        · exact ⟨h.published,h.agreed,h.cleared,h.errors⟩
        · intro m hm p hp
          rw [← Option.some.inj hm, ← not_not.mp (not_or.mp hsame).2, h.published p hp]
        · exact hshown
        · exact h.plugged
  | _ => simpa only [step, hphase] using h

theorem Inv.readMatrix (h : Inv crc s) (failed : Option (Matrix n)) (now : UInt32) :
    Inv crc (step crc s (.readMatrix failed now)) := by
  cases hphase : s.phase with
  | retrieve iter numRetries curr =>
    have hshown := h.shown (by simp [hphase])
    simp only [step, hphase]
    cases failed with
    | some matrix =>
      apply Kept.handlerDone
      · exact ⟨h.published,h.agreed,h.cleared,h.errors⟩
      · nofun
      · exact hshown
      · exact h.plugged
    | none =>
      dsimp only
      split
      · apply Kept.handlerDone
        · exact ⟨h.published,h.agreed,h.cleared,h.errors⟩
        · intro m hm p hp
          rw [← Option.some.inj hm, h.published p hp]
        · exact hshown
        · exact h.plugged
      · apply Kept.handlerDone
        · exact ⟨h.published,h.agreed,h.cleared,h.errors⟩
        · nofun
        · exact hshown
        · exact h.plugged
  | _ => simpa only [step, hphase] using h

theorem Inv.others (h : Inv crc s) (okay : Bool) (now : UInt32) :
    Inv crc (step crc s (.others okay now)) := by
  simp only [step]
  split
  · exact h
  · next hothers => exact h.toKept.transportDone (h.taken (not_not.mp hothers)) okay now

theorem Inv.step (h : Inv crc s) : ∀ a, Inv crc (MatrixSync.step crc s a)
  | .publish m => h.publish m
  | .postScan now => h.postScan now
  | .readChecksum failed now => h.readChecksum failed now
  | .readMatrix failed now => h.readMatrix failed now
  | .others okay now => h.others okay now

theorem inv_run (as : List (Action n)) : Inv crc (run crc as) :=
  List.foldlRecOn as (MatrixSync.step crc) inv_start fun _ h a _ => h.step a

/-- Between two scans the master shows the matrix it took last, or no key of a half that is not
connected. Of what the slave had published then the matrix is not apart by an odd number of keys,
or by two. -/
theorem other_hand (hn : n ≤ 15) (as : List (Action n)) :
    let s := run crc8 as
    s.phase = .idle →
    s.otherHand = (if s.lastConnected then s.lastMatrix else noKeys)
      ∧ (10 ≤ s.failures → s.otherHand = noKeys)
      ∧ ∀ m, s.agreed = some m → m ∈ s.published ∧ Even (keysApart s.lastMatrix m)
        ∧ (s.lastMatrix = m ∨ 4 ≤ keysApart s.lastMatrix m) := by
  intro s hidle
  have h : Inv crc8 s := inv_run as
  have hshown := h.shown (by simp [hidle])
  refine ⟨?_,fun hfailures => ?_,fun m hm => ?_⟩
  · cases hlast : s.lastConnected with
    | true => exact hshown hlast
    | false => exact h.cleared hlast
  · cases hlast : s.lastConnected with
    | true => exact absurd (h.plugged hlast) (by omega)
    | false => exact h.cleared hlast
  · obtain ⟨hmem,hcrc⟩ := h.agreed m hm
    exact ⟨hmem,keysApart_of_crc8 hn hcrc⟩

/-- The cable is pulled while two keys of the slave are down. -/
theorem other_hand_unplugged :
    (run crc8 ([.publish #v[5],.postScan 0,.readChecksum none 1,.readMatrix none 2,.others true 3]
      ++ (List.replicate 10 [.postScan 4,.readChecksum none 4,.others false 4]).flatten)
        : System 1).otherHand = noKeys :=
  (other_hand (by decide) _ (by decide +kernel)).2.1 (by decide +kernel)

theorem publish_again {m : Matrix n} (hshmem : s.slaveShmem = ⟨crc m.toList,m⟩) (k : Nat) :
    (List.replicate k (Action.publish m)).foldl (step crc) s
      = { s with published := s.published ++ List.replicate k m } := by
  induction k with
  | zero => simp
  | succ k ih =>
    rw [List.replicate_succ', List.foldl_append, ih, List.replicate_succ', ← List.append_assoc]
    simp [step, hshmem]

/-- A poll whose transactions all go through ends with the matrix that the slave publishes all the
while, whatever failed before. Only a copy that is not yet old may stand for it. -/
theorem undisturbed (hn : n ≤ 15) (as : List (Action n)) {iter numRetries : Nat}
    (hphase : (run crc8 as).phase = .checksum iter numRetries) {m : Matrix n}
    (hm : (run crc8 as).published.getLast? = some m) (t₁ t₂ t₃ : UInt32) (j k : Nat) :
    let s := run crc8 as
    let s' := run crc8 (as ++ .readChecksum none t₁ :: (List.replicate j (.publish m)
      ++ .readMatrix none t₂ :: (List.replicate k (.publish m) ++ [.others true t₃])))
    s'.phase = .idle ∧ s'.lastConnected = true ∧ s'.failures = 0
      ∧ (s'.otherHand = m
        ∨ timerElapsed32 s.lastUpdate t₁ < forcedSyncThrottleMs
          ∧ s'.otherHand = s.masterShmem.matrix ∧ Even (keysApart s'.otherHand m)
          ∧ 4 ≤ keysApart s'.otherHand m) := by
  intro s s'
  have hshmem : s.slaveShmem = ⟨crc8 m.toList,m⟩ := (inv_run as).published m hm
  have hphase : s.phase = .checksum iter numRetries := hphase
  have hm : s.published.getLast? = some m := hm
  have hrun : s' = step crc8 ((List.replicate k (.publish m)).foldl (step crc8)
      (step crc8 ((List.replicate j (.publish m)).foldl (step crc8)
        (step crc8 s (.readChecksum none t₁))) (.readMatrix none t₂))) (.others true t₃) := by
    simp [s', s, run]
  by_cases hread : timerElapsed32 s.lastUpdate t₁ ≥ forcedSyncThrottleMs
      ∨ crc8 m.toList ≠ crc8 s.masterShmem.matrix.toList
  · have hdone : s'.phase = .idle ∧ s'.lastConnected = true ∧ s'.failures = 0
        ∧ s'.otherHand = m := by
      simp [hrun, step, hphase, hshmem, hread, publish_again, System.handlerDone,
        System.transportDone, postScanDone_true]
    exact ⟨hdone.1,hdone.2.1,hdone.2.2.1,.inl hdone.2.2.2⟩
  · have hdone : s'.phase = .idle ∧ s'.lastConnected = true ∧ s'.failures = 0
        ∧ s'.otherHand = s.masterShmem.matrix := by
      simp [hrun, step, hphase, hshmem, hread, publish_again, System.handlerDone,
        System.transportDone, postScanDone_true]
    obtain ⟨hnew,hsame⟩ := not_or.mp hread
    obtain ⟨heven,heq | hfour⟩ := keysApart_of_crc8 hn (not_not.mp hsame).symm
    · exact ⟨hdone.1,hdone.2.1,hdone.2.2.1,.inl (hdone.2.2.2.trans heq)⟩
    · rw [hdone.2.2.2]
      exact ⟨hdone.1,hdone.2.1,hdone.2.2.1,.inr ⟨UInt32.not_le.mp hnew,rfl,heven,hfour⟩⟩

/-- The second read of the checksum succeeds. -/
theorem undisturbed_press :
    (run crc8 [.publish #v[5],.postScan 0,.readChecksum (some 7) 1,.readChecksum none 2,
      .readMatrix none 3,.publish #v[5],.others true 4] : System 1).otherHand = #v[5] := by
  let as : List (Action 1) := [.publish #v[5],.postScan 0,.readChecksum (some 7) 1]
  have hphase : (run crc8 as).phase = .checksum 2 10 := by decide
  have h := undisturbed (m := #v[5]) (by decide) as hphase (by decide) 2 3 4 0 1
  exact h.2.2.2.elim id fun hold => absurd hold.2.2.2 (by decide)

end QmkFirmware.Split.MatrixSync
