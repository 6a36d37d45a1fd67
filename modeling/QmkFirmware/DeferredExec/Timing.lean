import QmkFirmware.DeferredExec.Tokens

/-!
When the callbacks run: never early, as long as no trigger is half the range of the timer away from
where the task looks at it first.
-/

set_option autoImplicit false

namespace QmkFirmware.DeferredExec

variable {C A : Type}

def Machine.nextPass (m : Machine C A) : Nat :=
  if 0 < timerDiff m.timerRead m.lastExecutionTime then m.time
  else m.time+(m.lastExecutionTime - m.timerRead).toNat+1

/-- The first time that an entry may be compared with: a running task keeps its `now`. -/
def Machine.firstLook (m : Machine C A) (i : Nat) : Nat :=
  match m.task with
  | some t => if t.index < i ∨ t.index = i ∧ t.running = none then t.now else m.nextPass
  | none => m.nextPass

/-- The trigger that a step sets is less than half the range of the timer behind the first look. -/
def Short (s : State C A) : Input C A → Prop
  | .defer delayMs callback _ => ∀ i ∈ slot s.1.table 0, callback.isSome →
    s.1.time+delayMs.toNat < s.1.firstLook i+2^31
  | .extend token delayMs => ∀ i ∈ slot s.1.table token, token ≠ 0 →
    s.1.time+delayMs.toNat < s.1.firstLook i+2^31
  | .finish delayMs => ∀ t ∈ s.1.task, ∀ e ∈ s.1.table[t.index]?, t.running = some e.token →
    ∀ job ∈ s.2 t.index, job.trigger+delayMs.toNat < s.1.firstLook t.index+2^31
  | _ => True

instance (s : State C A) (input : Input C A) : Decidable (Short s input) :=
  match input with
  | .defer delayMs callback _ => inferInstanceAs (Decidable (∀ i ∈ slot s.1.table 0,
      callback.isSome → s.1.time+delayMs.toNat < s.1.firstLook i+2^31))
  | .extend token delayMs => inferInstanceAs (Decidable (∀ i ∈ slot s.1.table token, token ≠ 0 →
      s.1.time+delayMs.toNat < s.1.firstLook i+2^31))
  | .finish delayMs => inferInstanceAs (Decidable (∀ t ∈ s.1.task, ∀ e ∈ s.1.table[t.index]?,
      t.running = some e.token → ∀ job ∈ s.2 t.index,
        job.trigger+delayMs.toNat < s.1.firstLook t.index+2^31))
  | .wait _ | .otherTable _ | .cancel _ | .task | .check => .isTrue trivial

theorem timerDiff_pos_iff (a b : UInt32) :
    0 < timerDiff a b ↔ 0 < (a-b).toNat ∧ (a-b).toNat < 2^31 := by
  have hlt := (a-b).toNat_lt
  rw [timerDiff, BitVec.toInt_eq_toNat_cond, UInt32.toNat_toBitVec]
  split <;> omega

theorem sub_toNat (n : Nat) (b : UInt32) :
    (UInt32.ofNat n-b).toNat = (n+2^32-b.toNat) % 2^32 := by
  have hb := b.toNat_lt
  rw [UInt32.toNat_sub, UInt32.toNat_ofNat']
  omega

section Pass

variable (m : Machine C A)

theorem time_le_nextPass : m.time ≤ m.nextPass := by
  rw [Machine.nextPass]
  split <;> omega

theorem nextPass_open : 0 < timerDiff (UInt32.ofNat m.nextPass) m.lastExecutionTime := by
  rw [Machine.nextPass]
  split
  · assumption
  · have hlast := m.lastExecutionTime.toNat_lt
    rw [timerDiff_pos_iff, sub_toNat, Machine.timerRead, UInt32.toNat_sub, UInt32.toNat_ofNat']
    omega

theorem nextPass_le {p : Nat} (h : m.time ≤ p)
    (hopen : 0 < timerDiff (UInt32.ofNat p) m.lastExecutionTime) : m.nextPass ≤ p := by
  rw [Machine.nextPass]
  split
  · exact h
  · rename_i hclosed
    have hlast := m.lastExecutionTime.toNat_lt
    rw [timerDiff_pos_iff, sub_toNat] at hopen
    rw [timerDiff_pos_iff, Machine.timerRead, sub_toNat] at hclosed
    rw [Machine.timerRead, UInt32.toNat_sub, UInt32.toNat_ofNat']
    omega

theorem nextPass_mono {m' : Machine C A} (hlast : m'.lastExecutionTime = m.lastExecutionTime)
    (htime : m.time ≤ m'.time) : m.nextPass ≤ m'.nextPass :=
  nextPass_le m (htime.trans (time_le_nextPass m')) (hlast ▸ nextPass_open m')

end Pass

theorem due_of_timerDiff {trigger now : Nat} (hnear : trigger < now+2^31)
    (h : timerDiff (UInt32.ofNat trigger) (UInt32.ofNat now) ≤ 0) : trigger ≤ now := by
  have hnot := mt (timerDiff_pos_iff (UInt32.ofNat trigger) (UInt32.ofNat now)).mpr
    (Int.not_lt.mpr h)
  rw [sub_toNat, UInt32.toNat_ofNat'] at hnot
  omega

/-- The time goes on, and so does the loop of a running task, with the `now` it has. -/
structure Goes (m m' : Machine C A) : Prop where
  time : m.time ≤ m'.time
  last : m'.lastExecutionTime = m.lastExecutionTime
  loop : ∀ t', m'.task = some t' → ∃ t, m.task = some t ∧ t.now = t'.now
    ∧ (t.index < t'.index ∨ t.index = t'.index ∧ (t'.running = none → t.running = none))

structure Begins (m m' : Machine C A) : Prop where
  idle : m.task = none
  pass : m.nextPass = m.time
  time : m'.time = m.time
  task : m'.task = some ⟨m.time,0,none⟩

theorem Goes.refl (m : Machine C A) : Goes m m :=
  ⟨Nat.le_refl _,rfl,fun t' ht' => ⟨t',ht',rfl,.inr ⟨rfl,id⟩⟩⟩

theorem Goes.of_turn {m m' : Machine C A} {t t' : Execution} (ht : m.task = some t)
    (ht' : m'.task = some t') (htime : m'.time = m.time)
    (hlast : m'.lastExecutionTime = m.lastExecutionTime) (hnow : t.now = t'.now)
    (hindex : t.index < t'.index ∨ t.index = t'.index ∧ (t'.running = none → t.running = none)) :
    Goes m m' where
  time := htime.ge
  last := hlast
  loop u hu := by
    obtain rfl := Option.some.inj (ht'.symm.trans hu)
    exact ⟨t,ht,hnow,hindex⟩

theorem step_clock (m : Machine C A) (input : Input C A) :
    Goes m (step m input).1 ∨ Begins m (step m input).1 := by
  have hsame : ∀ (table : Table C A) (token : UInt8),
      Goes m { m with table := table, currentToken := token } := fun _ _ =>
    ⟨Nat.le_refl _,rfl,(Goes.refl m).loop⟩
  cases input with
  | wait ms => exact .inl ⟨Nat.le_add_right _ _,rfl,(Goes.refl m).loop⟩
  | otherTable => exact .inl (hsame _ _)
  | defer | extend | cancel =>
    rw [step]
    split
    · exact .inl (hsame _ _)
    · exact .inl (.refl m)
  | task =>
    rw [step]
    split
    · rename_i hopen
      exact .inr ⟨hopen.1,if_pos hopen.2,rfl,rfl⟩
    · exact .inl (.refl m)
  | check =>
    simp only [step]
    split
    · rename_i t ht
      split
      · rename_i hrun
        rw [check]
        split
        · exact .inl ⟨Nat.le_refl _,rfl,fun _ hnone => absurd hnone.symm (Option.some_ne_none _)⟩
        · split
          · exact .inl (.of_turn ht rfl rfl rfl rfl (.inr ⟨rfl,fun _ => hrun⟩))
          · exact .inl (.of_turn ht rfl rfl rfl rfl (.inl (Nat.lt_succ_self _)))
      · exact .inl (.refl m)
    · exact .inl (.refl m)
  | finish delayMs =>
    simp only [step]
    split
    · rename_i t ht
      split
      · simp only [returned]
        split
        · exact .inl (.of_turn ht rfl rfl rfl rfl (.inl (Nat.lt_succ_self _)))
        · split <;> exact .inl (.of_turn ht rfl rfl rfl rfl (.inl (Nat.lt_succ_self _)))
      · exact .inl (.refl m)
    · exact .inl (.refl m)

theorem step_time (m : Machine C A) (input : Input C A) : m.time ≤ (step m input).1.time := by
  rcases step_clock m input with h | h
  · exact h.time
  · exact h.time.ge

section Look

variable {m : Machine C A} (hnow : ∀ t, m.task = some t → t.now ≤ m.time)

include hnow

theorem step_now (input : Input C A) :
    ∀ t, (step m input).1.task = some t → t.now ≤ (step m input).1.time := by
  intro t' ht'
  rcases step_clock m input with h | h
  · obtain ⟨t, ht, hsame, -⟩ := h.loop t' ht'
    exact hsame ▸ (hnow t ht).trans h.time
  · obtain rfl := Option.some.inj (h.task.symm.trans ht')
    exact h.time.ge

theorem firstLook_le_nextPass (i : Nat) : m.firstLook i ≤ m.nextPass := by
  rw [Machine.firstLook]
  split
  · rename_i t ht
    split
    · exact (hnow t ht).trans (time_le_nextPass m)
    · exact Nat.le_refl _
  · exact Nat.le_refl _

theorem step_firstLook (input : Input C A) (i : Nat) :
    m.firstLook i ≤ (step m input).1.firstLook i := by
  rcases step_clock m input with h | h
  · have hle := (firstLook_le_nextPass hnow i).trans (nextPass_mono m h.last h.time)
    cases htask : (step m input).1.task with
    | none => rwa [Machine.firstLook.eq_def (step m input).1, htask]
    | some t' =>
      obtain ⟨t, ht, hsame, hindex⟩ := h.loop t' htask
      rw [Machine.firstLook.eq_def (step m input).1, htask]
      dsimp only
      split
      · rename_i hahead
        have hbefore : t.index < i ∨ t.index = i ∧ t.running = none := by
          rcases hindex with hlt | ⟨heq, hrun⟩
          · exact .inl (by omega)
          · rw [heq]
            exact hahead.imp_right fun h => ⟨h.1,hrun h.2⟩
        simp only [Machine.firstLook, ht, if_pos hbefore, hsame]
        exact Nat.le_refl _
      · exact hle
  · have hfirst : m.firstLook i = m.time := by
      rw [Machine.firstLook, h.idle]
      exact h.pass
    rw [hfirst, Machine.firstLook.eq_def (step m input).1, h.task]
    dsimp only
    split
    · exact Nat.le_refl _
    · exact h.time.ge.trans (time_le_nextPass _)

end Look

theorem firstLook_checked {m : Machine C A} {t : Execution} (ht : m.task = some t)
    (hrun : t.running = none) : m.firstLook t.index = t.now := by
  simp [Machine.firstLook, ht, hrun]

structure OnTime (m : Machine C A) (i : Nat) (job : Timetable.Job (Option C × Option A)) : Prop where
  scheduled : job.scheduled ≤ job.trigger
  again : job.again ≤ job.trigger
  ran : job.ran ≤ job.trigger
  before : job.ran ≤ m.time
  near : job.trigger < m.firstLook i+2^31

structure Timely (s : State C A) : Prop where
  now : ∀ t, s.1.task = some t → t.now ≤ s.1.time
  jobs : ∀ i job, s.2 i = some job → OnTime s.1 i job

theorem OnTime.later {m m' : Machine C A} {i : Nat} {job : Timetable.Job (Option C × Option A)}
    (h : OnTime m i job) (htime : m.time ≤ m'.time) (hlook : m.firstLook i ≤ m'.firstLook i) :
    OnTime m' i job where
  scheduled := h.scheduled
  again := h.again
  ran := h.ran
  before := h.before.trans htime
  near := h.near.trans_le (Nat.add_le_add_right hlook _)

theorem Change.onTime {s : State C A} (htracks : Tracks s) (h : Timely s) {input : Input C A}
    (hshort : Short s input) {evs : List (Event C A)} {table : Table C A}
    (hc : Change s.1 input evs table) : Along Timetable.next Timetable.Punctual s.2 evs
      ∧ ∀ i job, evs.foldl Timetable.next s.2 i = some job → OnTime s.1 i job := by
  have hplace : ∀ (ev : Event C A),
      (∀ job, Timetable.next s.2 ev ev.place = some job → OnTime s.1 ev.place job) →
      ∀ i job, [ev].foldl Timetable.next s.2 i = some job → OnTime s.1 i job := by
    intro ev hev i job hjob
    rw [List.foldl_cons, List.foldl_nil] at hjob
    by_cases hi : i = ev.place
    · subst hi
      exact hev job hjob
    · rw [Timetable.next_other s.2 ev hi] at hjob
      exact h.jobs i job hjob
  cases hc with
  | none => exact ⟨trivial,h.jobs⟩
  | @deferred i e token delayMs callback cbArg hi he hfree hne husable =>
    refine ⟨⟨trivial,trivial⟩,hplace _ fun job hjob => ?_⟩
    rw [Timetable.next, Timetable.Event.place, Function.update_self] at hjob
    obtain rfl := Option.some.inj hjob
    exact ⟨Nat.le_refl _,Nat.zero_le _,Nat.zero_le _,Nat.zero_le _,
      hshort i hi rfl⟩
  | @extended i e delayMs hi he hlive =>
    refine ⟨⟨trivial,trivial⟩,hplace _ fun job hjob => ?_⟩
    rw [Timetable.next, Timetable.Event.place, Function.update_self] at hjob
    obtain ⟨old, hold, rfl⟩ := Option.map_eq_some_iff.mp hjob
    have hbefore := (h.jobs i old hold).before
    exact ⟨Nat.le_refl _,Nat.zero_le _,hbefore.trans (Nat.le_add_right _ _),hbefore,
      hshort i hi hlive⟩
  | cancelled he hlive =>
    refine ⟨⟨trivial,trivial⟩,hplace _ fun job hjob => ?_⟩
    rw [Timetable.next, Timetable.Event.place, Function.update_self] at hjob
    cases hjob
  | @invoked t e ht hrun he hlive hdue =>
    obtain ⟨job, hj, -, htrigger⟩ := (htracks.entries _ _ he).live hlive
    have hon := h.jobs t.index job hj
    have hnear := hon.near
    rw [firstLook_checked ht hrun] at hnear
    rw [htrigger] at hdue
    have hle := due_of_timerDiff hnear hdue
    refine ⟨⟨fun job' hj' => ?_,trivial⟩,hplace _ fun job' hj' => ?_⟩
    · obtain rfl := Option.some.inj (hj.symm.trans hj')
      exact ⟨hon.scheduled.trans hle,hon.again.trans hle⟩
    · rw [Timetable.next, Timetable.Event.place, Function.update_self, hj] at hj'
      obtain rfl := Option.some.inj hj'
      exact ⟨hon.scheduled,hon.again,Nat.le_refl _,hle.trans (h.now t ht),hon.near⟩
  | @returned t e delayMs ht hrun he =>
    refine ⟨⟨trivial,trivial⟩,hplace _ fun job' hj' => ?_⟩
    rw [Timetable.next, Timetable.Event.place, Function.update_self] at hj'
    obtain ⟨job, hj, hrepeat⟩ := Option.bind_eq_some_iff.mp hj'
    have hon := h.jobs t.index job hj
    rw [Timetable.Job.repeat] at hrepeat
    split at hrepeat
    · cases hrepeat
    · obtain rfl := Option.some.inj hrepeat
      exact ⟨hon.scheduled.trans (Nat.le_add_right _ _),Nat.add_le_add_right hon.ran _,
        hon.ran.trans (Nat.le_add_right _ _),hon.before,hshort t ht e he hrun job hj⟩

theorem Timely.advance {s : State C A} (htracks : Tracks s) (h : Timely s) {input : Input C A}
    (hshort : Short s input) : Timely (advance s input) where
  now := step_now h.now input
  jobs i job hjob := ((step_change s.1 input).onTime htracks h hshort).2 i job hjob |>.later
    (step_time s.1 input) (step_firstLook h.now input i)

theorem events_punctual {s : State C A} (htracks : Tracks s) (h : Timely s)
    (inputs : List (Input C A)) (hshort : Along DeferredExec.advance Short s inputs) :
    Along Timetable.next Timetable.Punctual s.2 (events s.1 inputs) := by
  induction inputs generalizing s with
  | nil => exact trivial
  | cons input inputs ih =>
    exact Along.append.mpr ⟨((step_change s.1 input).onTime htracks h hshort.1).1,
      ih (htracks.advance input) (h.advance htracks hshort.1) hshort.2⟩

theorem Timely.start (count : Nat) (currentToken : UInt8) (time : Nat) (last : UInt32) :
    Timely (start count currentToken time last : State C A) :=
  ⟨(fun _ ht => nomatch ht),(fun _ _ hjob => nomatch hjob)⟩

theorem events_append (s : State C A) (as bs : List (Input C A)) :
    events s.1 (as ++ bs) = events s.1 as ++ events (as.foldl advance s).1 bs := by
  induction as generalizing s with
  | nil => rfl
  | cons a as ih =>
    simp only [List.cons_append, events, List.foldl_cons, List.append_assoc]
    exact congrArg _ (ih (advance s a))

theorem foldl_advance_jobs (s : State C A) (inputs : List (Input C A)) :
    (inputs.foldl advance s).2 = (events s.1 inputs).foldl Timetable.next s.2 := by
  induction inputs generalizing s with
  | nil => rfl
  | cons input inputs ih =>
    rw [List.foldl_cons, ih, events, List.foldl_append]
    rfl

theorem turn_over {s : State C A} {now k : Nat} (htask : s.1.task = some ⟨now,k,none⟩)
    (hk : k < s.1.table.length) : ∃ inputs : List (Input C A),
      (inputs.foldl advance s).1.task = some ⟨now,k+1,none⟩
        ∧ (inputs.foldl advance s).1.table.length = s.1.table.length
        ∧ ∀ i, i ≠ k → (inputs.foldl advance s).1.table[i]? = s.1.table[i]?
          ∧ (inputs.foldl advance s).2 i = s.2 i := by
  have he : s.1.table[k]? = some s.1.table[k] := List.getElem?_eq_getElem hk
  generalize s.1.table[k] = e at he
  by_cases hdue : e.token ≠ 0 ∧ timerDiff e.triggerTime (UInt32.ofNat now) ≤ 0
  · refine ⟨[.check,.finish 0],?_⟩
    have hcheck : step s.1 .check = ({ s.1 with task := some ⟨now,k,some e.token⟩ },
        [.invoked k (e.callback,e.cbArg) now]) := by
      simp only [step, htask, if_true, check, he, if_pos hdue]
    have hfinish : step { s.1 with task := some ⟨now,k,some e.token⟩ } (.finish 0)
        = ({ s.1 with table := s.1.table.set k .cleared, task := some ⟨now,k+1,none⟩ },
          [.returned k 0]) := by
      simp only [step, returned, he, ne_eq, not_true, if_false]
      rfl
    simp only [List.foldl_cons, List.foldl_nil, advance, hcheck, hfinish, List.length_set]
    refine ⟨trivial,trivial,fun i hi => ⟨List.getElem?_set_ne hi.symm,?_⟩⟩
    rw [Timetable.next_other _ _ hi, Timetable.next_other _ _ hi]
  · refine ⟨[.check],?_⟩
    have hcheck : step s.1 .check = ({ s.1 with task := some ⟨now,k+1,none⟩ },[]) := by
      simp only [step, htask, if_true, check, he, if_neg hdue]
    simp only [List.foldl_cons, List.foldl_nil, advance, hcheck]
    exact ⟨trivial,trivial,fun _ _ => ⟨trivial,trivial⟩⟩

theorem comes_to {s : State C A} {now k i : Nat} (htask : s.1.task = some ⟨now,k,none⟩)
    (hk : k ≤ i) (hi : i < s.1.table.length) : ∃ inputs : List (Input C A),
      (inputs.foldl advance s).1.task = some ⟨now,i,none⟩
        ∧ (inputs.foldl advance s).1.table[i]? = s.1.table[i]?
        ∧ (inputs.foldl advance s).2 i = s.2 i := by
  obtain ⟨n, rfl⟩ := Nat.exists_eq_add_of_le hk
  induction n generalizing s k with
  | zero => exact ⟨[],htask,rfl,rfl⟩
  | succ n ih =>
    obtain ⟨first, hfirst, hlength, hothers⟩ := turn_over htask (by omega)
    obtain ⟨hentry, hjob⟩ := hothers (k+(n+1)) (by omega)
    have hindex : k+(n+1) = k+1+n := by omega
    rw [hindex] at hi hentry hjob ⊢
    obtain ⟨rest, hrest, hentry', hjob'⟩ := ih hfirst (by omega) (by omega)
    refine ⟨first ++ rest,?_⟩
    rw [List.foldl_append]
    exact ⟨hrest,hentry'.trans hentry,hjob'.trans hjob⟩

theorem far_early {s : State C A} (htracks : Tracks s) (hidle : s.1.task = none) {i : Nat}
    {e : Executor C A} (he : s.1.table[i]? = some e) (hlive : e.token ≠ 0)
    {job : Timetable.Job (Option C × Option A)} (hjob : s.2 i = some job)
    (htrigger : job.scheduled = job.trigger) (hfar : s.1.nextPass+2^31 ≤ job.trigger)
    (hrange : job.trigger < s.1.nextPass+2^32) : ∃ inputs : List (Input C A),
      ¬ Along Timetable.next Timetable.Punctual s.2 (events s.1 inputs) := by
  have htime := time_le_nextPass s.1
  have hwait : s.1.time+(s.1.nextPass - s.1.time) = s.1.nextPass := by omega
  let begun : State C A := ({ s.1 with
    time := s.1.nextPass, lastExecutionTime := UInt32.ofNat s.1.nextPass
    task := some ⟨s.1.nextPass,0,none⟩ },s.2)
  have hbegin : [.wait (s.1.nextPass - s.1.time),.task].foldl advance s = begun := by
    simp only [begun, List.foldl_cons, List.foldl_nil, advance, step, hwait, hidle,
      Machine.timerRead, nextPass_open, and_self, if_true]
  have hi := (List.getElem?_eq_some_iff.mp he).1
  obtain ⟨way, hway, hentry, hkept⟩ := comes_to (s := begun) rfl (Nat.zero_le i) hi
  generalize hs' : way.foldl advance begun = s' at hway hentry hkept
  have hdue : timerDiff e.triggerTime (UInt32.ofNat s.1.nextPass) ≤ 0 := by
    obtain ⟨job', hjob', -, heq⟩ := (htracks.entries i e he).live hlive
    obtain rfl := Option.some.inj (hjob.symm.trans hjob')
    refine Int.not_lt.mp (mt (timerDiff_pos_iff _ _).mp ?_)
    rw [heq, sub_toNat, UInt32.toNat_ofNat']
    omega
  have hlast : events s'.1 [.check] = [.invoked i (e.callback,e.cbArg) s.1.nextPass] := by
    have hdue' : e.token ≠ 0 ∧ timerDiff e.triggerTime (UInt32.ofNat s.1.nextPass) ≤ 0 :=
      ⟨hlive,hdue⟩
    have he' : s'.1.table[i]? = some e := hentry.trans he
    simp only [events, step, hway, if_true, check, he', if_pos hdue', List.append_nil]
  refine ⟨[.wait (s.1.nextPass - s.1.time),.task] ++ way ++ [.check],fun hall => ?_⟩
  rw [events_append, List.foldl_append, hbegin, hs', hlast] at hall
  obtain ⟨-, hrun, -⟩ := Along.append.mp hall
  rw [← foldl_advance_jobs, List.foldl_append, hbegin, hs'] at hrun
  have hearly := (hrun job (hkept.trans hjob)).1
  omega

/-- The condition is needed: what is deferred with a longer delay, outside the callbacks, can run
before the delay is over. -/
theorem far_defer_early {s : State C A} (htracks : Tracks s) (hidle : s.1.task = none)
    {delayMs : UInt32} {callback : Option C} {cbArg : Option A}
    (haccepted : (deferExecAdvanced s.1.table s.1.currentToken s.1.timerRead delayMs callback
      cbArg).1 ≠ 0) (hfar : ¬ Short s (.defer delayMs callback cbArg)) :
    ∃ inputs : List (Input C A), ¬ Along Timetable.next Timetable.Punctual s.2
      (events s.1 (.defer delayMs callback cbArg :: inputs)) := by
  have hcallable : s.1.Callable := fun t ht => by
    rw [hidle] at ht
    cases ht
  rcases deferExecAdvanced_cases s.1.table s.1.currentToken s.1.timerRead delayMs callback cbArg
    with ⟨hzero, -⟩ | ⟨-, -, -, i, hi, htable⟩
  · exact absurd hzero haccepted
  have hfree := (List.getElem?_eq_some_iff.mp (slot_spec hi).choose_spec.1).1
  have hfirst : s.1.firstLook i = s.1.nextPass := by simp only [Machine.firstLook, hidle]
  have hlong : s.1.nextPass+2^31 ≤ s.1.time+delayMs.toNat := by
    refine Nat.le_of_not_lt fun hlt => hfar fun j hj _ => ?_
    obtain rfl := Option.some.inj (hi.symm.trans hj)
    rwa [hfirst]
  have hstep : step s.1 (.defer delayMs callback cbArg) =
      ({ s.1 with
          table := s.1.table.set i ⟨(deferExecAdvanced s.1.table s.1.currentToken s.1.timerRead
            delayMs callback cbArg).1,s.1.timerRead+delayMs,callback,cbArg⟩
          currentToken := (deferExecAdvanced s.1.table s.1.currentToken s.1.timerRead delayMs
            callback cbArg).2.1 },
        [.deferred i (callback,cbArg) s.1.time delayMs.toNat]) := by
    simp only [step, if_pos hcallable, htable, if_neg haccepted, hi]
    rfl
  have hrange := delayMs.toNat_lt
  have htime := time_le_nextPass s.1
  have hadvance := htracks.advance (.defer delayMs callback cbArg)
  rw [advance, hstep] at hadvance
  have hjob : [(.deferred i (callback,cbArg) s.1.time delayMs.toNat : Event C A)].foldl
      Timetable.next s.2 i
        = some ⟨(callback,cbArg),s.1.time+delayMs.toNat,s.1.time+delayMs.toNat,0,0⟩ := by
    simp only [List.foldl_cons, List.foldl_nil, Timetable.next, Function.update_self]
  obtain ⟨inputs, hinputs⟩ := far_early hadvance hidle (List.getElem?_set_self hfree) haccepted
    hjob rfl hlong (show s.1.time+delayMs.toNat < s.1.nextPass+2^32 by omega)
  refine ⟨inputs,fun hall => hinputs ?_⟩
  rw [events, hstep] at hall
  exact (Along.append.mp hall).2

/-- In every run the tokens stay apart, only the entry with the token is changed by a call, and only
a job that is there runs. If the triggers are near enough, none runs early. -/
theorem executor_obeys (count : Nat) (currentToken : UInt8) (time : Nat) (last : UInt32)
    (inputs : List (Input C A)) :
    let s := inputs.foldl advance (start count currentToken time last)
    let evs := events (start count currentToken time last : State C A).1 inputs
    Distinct s.1.table
      ∧ (∀ token, OnlyHolder token s.1.table (cancelDeferredExecAdvanced s.1.table token).2)
      ∧ (∀ now token delayMs, OnlyHolder token s.1.table
        (extendDeferredExecAdvanced s.1.table now token delayMs).2)
      ∧ Along Timetable.next Timetable.Own (fun _ => none) evs
      ∧ (∀ before mid after i payload time,
        evs = before ++ .cancelled i :: (mid ++ .invoked i payload time :: after) →
        ∃ payload time delay, .deferred i payload time delay ∈ mid)
      ∧ (Along advance Short (start count currentToken time last) inputs →
        Along Timetable.next Timetable.Punctual (fun _ => none) evs) := by
  intro s evs
  have htracks := Tracks.start (C := C) (A := A) count currentToken time last
  have hown := events_own htracks inputs
  refine ⟨(htracks.run inputs).distinct,fun token => cancel_onlyHolder _ token,
    fun now token delayMs => extend_onlyHolder _ now token delayMs,hown,?_,
    events_punctual htracks (.start count currentToken time last) inputs⟩
  intro before mid after i payload time heq
  rw [show events _ inputs = _ from heq] at hown
  exact Timetable.deferred_between hown

/-- Two entries: one is cancelled, and the other comes back twice. -/
def twoEntries : List (Input Nat Nat) :=
  [.defer 5 (some 1) none,.defer 3 (some 2) (some 7),.cancel 1,.wait 4,.task,.check,.check,
    .finish 10,.check,.wait 9,.task,.check,.check,.finish 0,.check]

theorem executor_obeys_twoEntries :
    Along Timetable.next Timetable.Punctual (fun _ => none)
      (events (start 2 0 0 0 : State Nat Nat).1 twoEntries)
      ∧ events (start 2 0 0 0 : State Nat Nat).1 twoEntries
        = [.deferred 0 (some 1,none) 0 5,.deferred 1 (some 2,some 7) 0 3,.cancelled 0,
          .invoked 1 (some 2,some 7) 4,.returned 1 10,.invoked 1 (some 2,some 7) 13,
          .returned 1 0] := by
  exact ⟨(executor_obeys 2 0 0 0 twoEntries).2.2.2.2.2 (by decide +kernel),by decide +kernel⟩

/-- A delay of more than half the range is over with the next pass. -/
theorem long_delay_early :
    let evs := events (start 1 0 0 0 : State Nat Nat).1
      [.defer 0x80000001 (some 1) none,.wait 1,.task,.check]
    evs = [.deferred 0 (some 1,none) 0 0x80000001,.invoked 0 (some 1,none) 1]
      ∧ ¬ Along Timetable.next Timetable.Punctual (fun _ => none) evs := by
  intro evs
  have hevs : evs = [.deferred 0 (some 1,none) 0 0x80000001,.invoked 0 (some 1,none) 1] := by
    decide +kernel
  refine ⟨hevs,fun h => ?_⟩
  rw [hevs] at h
  obtain ⟨-, hrun, -⟩ := h
  have hearly := (hrun _ rfl).1
  revert hearly
  decide +kernel

end QmkFirmware.DeferredExec
