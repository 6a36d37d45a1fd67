import QmkFirmware.DeferredExec.Core

/-!
The tokens: they stay apart, and every live entry is a job that was deferred and not called off.
-/

set_option autoImplicit false

namespace QmkFirmware.DeferredExec

variable {C A : Type}

theorem allocateLoop_spec (table : Table C A) (first : UInt8) (fuel : Nat) (current : UInt8) :
    (allocateLoop table first fuel current).1 = 0
      ∨ (allocateLoop table first fuel current).1 = (allocateLoop table first fuel current).2
        ∧ tokenCanBeUsed table (allocateLoop table first fuel current).2 := by
  induction fuel generalizing current with
  | zero => exact .inl rfl
  | succ fuel ih =>
    rw [allocateLoop]
    split
    · rename_i hfree
      exact .inr ⟨rfl,hfree⟩
    · split
      · exact .inl rfl
      · exact ih (current+1)

theorem slot_spec {table : Table C A} {token : UInt8} {i : Nat} (h : slot table token = some i) :
    ∃ e, table[i]? = some e ∧ e.token = token := by
  obtain ⟨hi, heq, -⟩ := List.findIdx?_eq_some_iff_getElem.mp h
  exact ⟨_,List.getElem?_eq_getElem hi,by simpa using heq⟩

theorem deferExecAdvanced_cases (table : Table C A) (current : UInt8) (now delayMs : UInt32)
    (callback : Option C) (cbArg : Option A) :
    let r := deferExecAdvanced table current now delayMs callback cbArg
    r.1 = 0 ∧ r.2.2 = table
      ∨ r.1 ≠ 0 ∧ tokenCanBeUsed table r.1 ∧ callback ≠ none ∧ ∃ i, slot table 0 = some i
        ∧ r.2.2 = table.set i ⟨r.1,now+delayMs,callback,cbArg⟩ := by
  intro r
  simp only [r, deferExecAdvanced]
  split
  · exact .inl ⟨rfl,rfl⟩
  · rename_i hvalid
    split
    · exact .inl ⟨rfl,rfl⟩
    · rename_i i hi
      split
      · exact .inl ⟨rfl,rfl⟩
      · rename_i hne
        rcases allocateLoop_spec table (current+1) 256 (current+1) with hzero | ⟨heq, hfree⟩
        · exact absurd hzero hne
        · exact .inr ⟨fun hzero => hne (heq.trans hzero),hfree,
            fun hnone => hvalid (.inr (.inr hnone)),i,hi,rfl⟩

theorem extendDeferredExecAdvanced_cases (table : Table C A) (now : UInt32) (token : UInt8)
    (delayMs : UInt32) :
    let r := extendDeferredExecAdvanced table now token delayMs
    r = (false,table) ∨ token ≠ 0 ∧ ∃ i e, slot table token = some i ∧ table[i]? = some e
      ∧ e.token = token ∧ r = (true,table.set i { e with triggerTime := now+delayMs }) := by
  intro r
  simp only [r, extendDeferredExecAdvanced]
  split
  · exact .inl rfl
  · rename_i hvalid
    split
    · exact .inl rfl
    · rename_i i hi
      obtain ⟨e, he, htoken⟩ := slot_spec hi
      refine .inr ⟨fun hzero => hvalid (.inr (.inr hzero)),i,e,hi,he,htoken,?_⟩
      rw [List.modify_eq_set_getElem?, he]
      rfl

theorem cancelDeferredExecAdvanced_cases (table : Table C A) (token : UInt8) :
    let r := cancelDeferredExecAdvanced table token
    r = (false,table) ∨ token ≠ 0 ∧ ∃ i e, slot table token = some i ∧ table[i]? = some e
      ∧ e.token = token ∧ r = (true,table.set i .cleared) := by
  intro r
  simp only [r, cancelDeferredExecAdvanced]
  split
  · exact .inl rfl
  · rename_i hvalid
    split
    · exact .inl rfl
    · rename_i i hi
      obtain ⟨e, he, htoken⟩ := slot_spec hi
      exact .inr ⟨fun hzero => hvalid (.inr hzero),i,e,hi,he,htoken,rfl⟩

/-- Only an entry with the token is another one than before. -/
def OnlyHolder (token : UInt8) (table table' : Table C A) : Prop :=
  ∀ j : Nat, table'[j]? ≠ table[j]? →
    ∃ e : Executor C A, table[j]? = some e ∧ e.token = token ∧ token ≠ 0

theorem OnlyHolder.set {table : Table C A} {token : UInt8} (hne : token ≠ 0) {i : Nat}
    {e : Executor C A} (he : table[i]? = some e) (htoken : e.token = token) (e' : Executor C A) :
    OnlyHolder token table (table.set i e') := by
  intro j hj
  by_cases hij : i = j
  · exact ⟨e,hij ▸ he,htoken,hne⟩
  · exact absurd (List.getElem?_set_ne hij) hj

theorem extend_onlyHolder (table : Table C A) (now : UInt32) (token : UInt8) (delayMs : UInt32) :
    OnlyHolder token table (extendDeferredExecAdvanced table now token delayMs).2 := by
  rcases extendDeferredExecAdvanced_cases table now token delayMs with
    h | ⟨hne, i, e, -, he, htoken, h⟩
  · rw [h]
    exact fun j hj => absurd rfl hj
  · rw [h]
    exact .set hne he htoken _

theorem cancel_onlyHolder (table : Table C A) (token : UInt8) :
    OnlyHolder token table (cancelDeferredExecAdvanced table token).2 := by
  rcases cancelDeferredExecAdvanced_cases table token with h | ⟨hne, i, e, -, he, htoken, h⟩
  · rw [h]
    exact fun j hj => absurd rfl hj
  · rw [h]
    exact .set hne he htoken _

inductive Change (m : Machine C A) : Input C A → List (Event C A) → Table C A → Prop where
  | none {input : Input C A} : Change m input [] m.table
  | deferred {i : Nat} {e : Executor C A} {token : UInt8} {delayMs : UInt32} {callback : C}
      {cbArg : Option A} : slot m.table 0 = some i → m.table[i]? = some e → e.token = 0 →
      token ≠ 0 → tokenCanBeUsed m.table token →
      Change m (.defer delayMs (some callback) cbArg)
        [.deferred i (some callback,cbArg) m.time delayMs.toNat]
        (m.table.set i ⟨token,m.timerRead+delayMs,some callback,cbArg⟩)
  | extended {i : Nat} {e : Executor C A} {delayMs : UInt32} : slot m.table e.token = some i →
      m.table[i]? = some e → e.token ≠ 0 →
      Change m (.extend e.token delayMs) [.extended i m.time delayMs.toNat]
        (m.table.set i { e with triggerTime := m.timerRead+delayMs })
  | cancelled {i : Nat} {e : Executor C A} : m.table[i]? = some e → e.token ≠ 0 →
      Change m (.cancel e.token) [.cancelled i] (m.table.set i .cleared)
  | invoked {t : Execution} {e : Executor C A} : m.task = some t → t.running = none →
      m.table[t.index]? = some e → e.token ≠ 0 →
      timerDiff e.triggerTime (UInt32.ofNat t.now) ≤ 0 →
      Change m .check [.invoked t.index (e.callback,e.cbArg) t.now] m.table
  | returned {t : Execution} {e : Executor C A} {delayMs : UInt32} : m.task = some t →
      t.running = some e.token → m.table[t.index]? = some e →
      Change m (.finish delayMs) [.returned t.index delayMs.toNat]
        (m.table.set t.index (if 0 < delayMs then
          { e with triggerTime := e.triggerTime+delayMs } else .cleared))

theorem step_change (m : Machine C A) (input : Input C A) :
    Change m input (step m input).2 (step m input).1.table := by
  cases input with
  | wait => exact .none
  | otherTable => exact .none
  | defer delayMs callback cbArg =>
    rw [step]
    split
    · rcases deferExecAdvanced_cases m.table m.currentToken m.timerRead delayMs callback cbArg with
        ⟨hzero, htable⟩ | ⟨hne, hfree, hcallback, i, hi, htable⟩
      · simp only [hzero, htable, if_true]
        exact .none
      · obtain ⟨e, he, htoken⟩ := slot_spec hi
        obtain ⟨c, rfl⟩ := Option.ne_none_iff_exists'.mp hcallback
        simp only [if_neg hne, htable, hi]
        exact .deferred hi he htoken hne hfree
    · exact .none
  | extend token delayMs =>
    rw [step]
    split
    · rcases extendDeferredExecAdvanced_cases m.table m.timerRead token delayMs with
        h | ⟨hne, i, e, hi, he, htoken, h⟩
      · simp only [h, Bool.false_eq_true, if_false]
        exact .none
      · simp only [h, if_true, hi]
        subst htoken
        exact .extended hi he hne
    · exact .none
  | cancel token =>
    rw [step]
    split
    · rcases cancelDeferredExecAdvanced_cases m.table token with
        h | ⟨hne, i, e, hi, he, htoken, h⟩
      · simp only [h, Bool.false_eq_true, if_false]
        exact .none
      · simp only [h, if_true, hi]
        subst htoken
        exact .cancelled he hne
    · exact .none
  | task =>
    rw [step]
    split <;> exact .none
  | check =>
    rw [step]
    split
    · rename_i t ht
      split
      · rename_i hrun
        rw [check]
        split
        · exact .none
        · rename_i e he
          split
          · rename_i hdue
            exact .invoked ht hrun he hdue.1 hdue.2
          · exact .none
      · exact .none
    · exact .none
  | finish delayMs =>
    rw [step]
    split
    · rename_i t ht
      split
      · rename_i currToken hrun
        simp only [returned]
        split
        · exact .none
        · rename_i e he
          split
          · exact .none
          · rename_i htoken
            rw [not_not] at htoken
            exact .returned ht (htoken ▸ hrun) he
      · exact .none
    · exact .none

/-- No two live entries have one token. -/
def Distinct (table : Table C A) : Prop :=
  ∀ (i j : Nat) (e f : Executor C A), table[i]? = some e → table[j]? = some f → e.token ≠ 0 →
    e.token = f.token → i = j

theorem Distinct.set {table : Table C A} (h : Distinct table) {i : Nat} {e' : Executor C A}
    (hnew : e'.token ≠ 0 → ∀ (j : Nat) (e : Executor C A), table[j]? = some e →
      e.token = e'.token → j = i) :
    Distinct (table.set i e') := by
  intro j k e f he hf hne htoken
  rw [List.getElem?_set] at he hf
  by_cases hj : i = j
  · by_cases hk : i = k
    · exact hj.symm.trans hk
    · rw [if_neg hk] at hf
      rw [if_pos hj] at he
      split at he
      · obtain rfl := Option.some.inj he
        exact absurd (hnew hne k f hf htoken.symm).symm hk
      · cases he
  · rw [if_neg hj] at he
    by_cases hk : i = k
    · rw [if_pos hk] at hf
      split at hf
      · obtain rfl := Option.some.inj hf
        exact absurd (hnew (htoken ▸ hne) j e he htoken).symm hj
      · cases hf
    · rw [if_neg hk] at hf
      exact h j k e f he hf hne htoken

theorem tokenCanBeUsed_spec {table : Table C A} {token : UInt8} (h : tokenCanBeUsed table token)
    {j : Nat} {e : Executor C A} (he : table[j]? = some e) : e.token ≠ token := by
  simp only [tokenCanBeUsed, Bool.and_eq_true, List.all_eq_true, decide_eq_true_eq] at h
  exact h.2 e (List.mem_of_getElem? he)

theorem Change.distinct {m : Machine C A} {input : Input C A} {evs : List (Event C A)}
    {table : Table C A} (hc : Change m input evs table) (h : Distinct m.table) : Distinct table := by
  have hkeep : ∀ {i : Nat} {e e' : Executor C A}, m.table[i]? = some e → e'.token = e.token →
      Distinct (m.table.set i e') := by
    intro i e e' he htoken
    exact h.set fun hne j f hf hft =>
      (h i j e f he hf (htoken ▸ hne) (htoken.symm.trans hft.symm)).symm
  have hclear : ∀ i : Nat, Distinct (m.table.set i .cleared) := fun i =>
    h.set fun hne => absurd rfl hne
  cases hc with
  | none => exact h
  | invoked => exact h
  | deferred hi he hfree hne husable =>
    exact h.set fun _ j f hf heq => absurd heq (tokenCanBeUsed_spec husable hf)
  | extended hi he hlive => exact hkeep he rfl
  | cancelled => exact hclear _
  | returned ht hrun he =>
    split
    · exact hkeep he rfl
    · exact hclear _

def Stands (e : Executor C A) (job : Option (Timetable.Job (Option C × Option A))) : Prop :=
  if e.token = 0 then job = none
  else ∃ j, job = some j ∧ j.payload = (e.callback,e.cbArg)
    ∧ e.triggerTime = UInt32.ofNat j.trigger

structure Tracks (s : State C A) : Prop where
  distinct : Distinct s.1.table
  running : ∀ t token, s.1.task = some t → t.running = some token → token ≠ 0
  entries : ∀ (i : Nat) (e : Executor C A), s.1.table[i]? = some e → Stands e (s.2 i)

theorem Stands.live {e : Executor C A} {job : Option (Timetable.Job (Option C × Option A))}
    (h : Stands e job) (hne : e.token ≠ 0) : ∃ j, job = some j ∧ j.payload = (e.callback,e.cbArg)
      ∧ e.triggerTime = UInt32.ofNat j.trigger := by
  rwa [Stands, if_neg hne] at h

theorem Stands.of_live {e : Executor C A} {j : Timetable.Job (Option C × Option A)}
    (hne : e.token ≠ 0) (hpayload : j.payload = (e.callback,e.cbArg))
    (htrigger : e.triggerTime = UInt32.ofNat j.trigger) : Stands e (some j) := by
  rw [Stands, if_neg hne]
  exact ⟨j,rfl,hpayload,htrigger⟩

theorem Stands.cleared : Stands (.cleared : Executor C A) none := by
  simp [Stands, Executor.cleared]

theorem timerRead_add (m : Machine C A) (delayMs : UInt32) :
    m.timerRead+delayMs = UInt32.ofNat (m.time+delayMs.toNat) := by
  rw [Machine.timerRead, UInt32.ofNat_add, UInt32.ofNat_toNat]

theorem entries_set {s : State C A} (h : Tracks s) {i : Nat} {e' : Executor C A}
    {ev : Event C A} (hplace : ev.place = i) (hnew : Stands e' (Timetable.next s.2 ev i)) :
    ∀ (j : Nat) (f : Executor C A), (s.1.table.set i e')[j]? = some f →
      Stands f ([ev].foldl Timetable.next s.2 j) := by
  intro j f hf
  rw [List.foldl_cons, List.foldl_nil]
  rw [List.getElem?_set] at hf
  by_cases hij : i = j
  · rw [if_pos hij] at hf
    split at hf
    · obtain rfl := Option.some.inj hf
      exact hij ▸ hnew
    · cases hf
  · rw [if_neg hij] at hf
    rw [Timetable.next_other s.2 ev (by rw [hplace]; exact fun heq => hij heq.symm)]
    exact h.entries j f hf

theorem Change.entries {s : State C A} (h : Tracks s) {input : Input C A}
    {evs : List (Event C A)} {table : Table C A} (hc : Change s.1 input evs table) :
    Along Timetable.next Timetable.Own s.2 evs
      ∧ ∀ (j : Nat) (f : Executor C A), table[j]? = some f →
        Stands f (evs.foldl Timetable.next s.2 j) := by
  cases hc with
  | none => exact ⟨trivial,h.entries⟩
  | deferred hi he hfree hne husable =>
    refine ⟨⟨trivial,trivial⟩,entries_set h rfl ?_⟩
    rw [Timetable.next, Function.update_self]
    exact .of_live hne rfl (timerRead_add _ _)
  | extended hi he hlive =>
    refine ⟨⟨trivial,trivial⟩,entries_set h rfl ?_⟩
    obtain ⟨j, hj, hpayload, -⟩ := (h.entries _ _ he).live hlive
    rw [Timetable.next, Function.update_self, hj]
    exact .of_live hlive hpayload (timerRead_add _ _)
  | cancelled he hlive =>
    refine ⟨⟨trivial,trivial⟩,entries_set h rfl ?_⟩
    rw [Timetable.next, Function.update_self]
    exact .cleared
  | @invoked t e ht hrun he hlive hdue =>
    obtain ⟨job, hj, hpayload, htrigger⟩ := (h.entries _ _ he).live hlive
    refine ⟨⟨⟨job,hj,hpayload⟩,trivial⟩,fun j f hf => ?_⟩
    by_cases hij : t.index = j
    · subst hij
      obtain rfl := Option.some.inj (he.symm.trans hf)
      simp only [List.foldl_cons, List.foldl_nil, Timetable.next, Function.update_self, hj]
      exact .of_live hlive hpayload htrigger
    · simp only [List.foldl_cons, List.foldl_nil]
      have hplace : j ≠ (.invoked t.index (e.callback,e.cbArg) t.now : Event C A).place := Ne.symm hij
      rw [Timetable.next_other _ _ hplace]
      exact h.entries j f hf
  | @returned t e delayMs ht hrun he =>
    refine ⟨⟨trivial,trivial⟩,entries_set h rfl ?_⟩
    have hlive := h.running t e.token ht hrun
    obtain ⟨job, hj, hpayload, htrigger⟩ := (h.entries _ _ he).live hlive
    have hzero : delayMs.toNat = 0 ↔ ¬ 0 < delayMs := by
      rw [UInt32.lt_iff_toNat_lt]
      exact (Nat.not_lt.trans Nat.le_zero).symm
    rw [Timetable.next, Function.update_self, hj, Option.bind_some, Timetable.Job.repeat]
    by_cases hpos : 0 < delayMs
    · rw [if_pos hpos, if_neg fun hz => hzero.mp hz hpos]
      refine .of_live hlive hpayload ?_
      rw [htrigger, UInt32.ofNat_add, UInt32.ofNat_toNat]
    · rw [if_neg hpos, if_pos (hzero.mpr hpos)]
      exact .cleared

theorem step_running {m : Machine C A} (input : Input C A)
    (h : ∀ t token, m.task = some t → t.running = some token → token ≠ 0) :
    ∀ t token, (step m input).1.task = some t → t.running = some token → token ≠ 0 := by
  cases input with
  | wait => exact h
  | otherTable => exact h
  | defer | extend | cancel =>
    rw [step]
    split <;> exact h
  | task =>
    rw [step]
    split
    · intro t token ht hrun
      cases ht
      cases hrun
    · exact h
  | check =>
    rw [step]
    split
    · rename_i t ht
      split
      · rename_i hrun
        rw [check]
        split
        · nofun
        · split
          · rename_i hdue
            intro t' token ht' hrun'
            cases ht'
            cases hrun'
            exact hdue.1
          · intro t' token ht' hrun'
            cases ht'
            exact h t token ht hrun'
      · exact h
    · exact h
  | finish delayMs =>
    rw [step]
    split
    · split
      · simp only [returned]
        split
        · rintro t token ⟨⟩ ⟨⟩
        · split <;> rintro t token ⟨⟩ ⟨⟩
      · exact h
    · exact h

theorem Tracks.advance {s : State C A} (h : Tracks s) (input : Input C A) :
    Tracks (advance s input) where
  distinct := (step_change s.1 input).distinct h.distinct
  running := step_running input h.running
  entries := ((step_change s.1 input).entries h).2

theorem Tracks.start (count : Nat) (currentToken : UInt8) (time : Nat) (last : UInt32) :
    Tracks (start count currentToken time last : State C A) where
  distinct i j e f he _ hne _ := by
    obtain rfl := (List.mem_replicate.mp (List.mem_of_getElem? he)).2
    exact absurd rfl hne
  running _ _ ht := by cases ht
  entries i e he := by
    obtain rfl := (List.mem_replicate.mp (List.mem_of_getElem? he)).2
    exact .cleared

theorem Tracks.run {s : State C A} (h : Tracks s) (inputs : List (Input C A)) :
    Tracks (inputs.foldl DeferredExec.advance s) := by
  induction inputs generalizing s with
  | nil => exact h
  | cons input inputs ih => exact ih (h.advance input)

theorem events_own {s : State C A} (h : Tracks s) (inputs : List (Input C A)) :
    Along Timetable.next Timetable.Own s.2 (events s.1 inputs) := by
  induction inputs generalizing s with
  | nil => exact trivial
  | cons input inputs ih =>
    exact Along.append.mpr ⟨((step_change s.1 input).entries h).1,ih (h.advance input)⟩

end QmkFirmware.DeferredExec
