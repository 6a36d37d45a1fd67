import Mathlib.Logic.Function.Basic
import QmkFirmware.Lib.Along

/-!
Jobs in places that are used again: put off, put off anew, called off and repeated. What the
history alone says of when a job may run, in a time that never wraps.
-/

set_option autoImplicit false

namespace QmkFirmware.Timetable

/-- A job: its next trigger, when it was to run after it was last deferred or extended, and when it
was to run after it last came back, and the trigger of its last run. -/
structure Job (π : Type) where
  payload : π
  trigger : Nat
  scheduled : Nat
  again : Nat
  ran : Nat
  deriving DecidableEq, Repr

inductive Event (κ π : Type) where
  | deferred (place : κ) (payload : π) (time delay : Nat)
  | extended (place : κ) (time delay : Nat)
  | cancelled (place : κ)
  | invoked (place : κ) (payload : π) (time : Nat)
  | returned (place : κ) (delay : Nat)
  deriving DecidableEq, Repr

variable {κ π : Type} [DecidableEq κ]

def Event.place : Event κ π → κ
  | .deferred i _ _ _ | .extended i _ _ | .cancelled i | .invoked i _ _ | .returned i _ => i

abbrev Jobs (κ π : Type) := κ → Option (Job π)

def Job.extend (time delay : Nat) (job : Job π) : Job π :=
  { job with trigger := time+delay, scheduled := time+delay, again := 0 }

def Job.repeat (delay : Nat) (job : Job π) : Option (Job π) :=
  if delay = 0 then none
  else some { job with trigger := job.trigger+delay, again := job.ran+delay }

def next (jobs : Jobs κ π) : Event κ π → Jobs κ π
  | .deferred i payload time delay =>
    Function.update jobs i (some ⟨payload,time+delay,time+delay,0,0⟩)
  | .extended i time delay => Function.update jobs i ((jobs i).map (Job.extend time delay))
  | .cancelled i => Function.update jobs i none
  | .invoked i _ _ => Function.update jobs i ((jobs i).map fun job => { job with ran := job.trigger })
  | .returned i delay => Function.update jobs i ((jobs i).bind (Job.repeat delay))

/-- Only a job that is there runs, and as what it was deferred as. -/
def Own (jobs : Jobs κ π) : Event κ π → Prop
  | .invoked i payload _ => ∃ job, jobs i = some job ∧ job.payload = payload
  | _ => True

/-- No job runs before its delay is over. -/
def Punctual (jobs : Jobs κ π) : Event κ π → Prop
  | .invoked i _ time => ∀ job, jobs i = some job → job.scheduled ≤ time ∧ job.again ≤ time
  | _ => True

theorem next_other (jobs : Jobs κ π) (e : Event κ π) {i : κ} (h : i ≠ e.place) :
    next jobs e i = jobs i := by
  cases e <;> exact Function.update_of_ne h _ _

theorem next_none (jobs : Jobs κ π) (e : Event κ π) {i : κ}
    (h : ∀ payload time delay, e ≠ .deferred i payload time delay) (hi : jobs i = none) :
    next jobs e i = none := by
  by_cases hij : i = e.place
  · subst hij
    cases e with
    | deferred j payload time delay => exact absurd rfl (h payload time delay)
    | extended => simp_all [next, Event.place]
    | cancelled => simp [next, Event.place]
    | invoked => simp_all [next, Event.place]
    | returned => simp_all [next, Event.place]
  · rw [next_other jobs e hij, hi]

theorem foldl_next_none {i : κ} (es : List (Event κ π))
    (h : ∀ payload time delay, .deferred i payload time delay ∉ es) {jobs : Jobs κ π}
    (hi : jobs i = none) : es.foldl next jobs i = none := by
  induction es generalizing jobs with
  | nil => exact hi
  | cons e es ih =>
    refine ih (fun p t d hmem => h p t d (List.mem_cons_of_mem _ hmem)) (next_none jobs e ?_ hi)
    exact fun p t d heq => h p t d (heq ▸ List.mem_cons_self)

theorem deferred_between {jobs : Jobs κ π} {before mid after : List (Event κ π)} {i : κ}
    {payload : π} {time : Nat}
    (h : Along next Own jobs (before ++ .cancelled i :: (mid ++ .invoked i payload time :: after))) :
    ∃ payload time delay, .deferred i payload time delay ∈ mid := by
  refine Classical.byContradiction fun hnone => ?_
  obtain ⟨-, -, hmid⟩ := Along.append.mp h
  obtain ⟨-, hown, -⟩ := Along.append.mp hmid
  obtain ⟨job, hjob, -⟩ := hown
  have hgone : next (before.foldl next jobs) (.cancelled i) i = none := by simp [next]
  rw [foldl_next_none mid (fun p t d hmem => hnone ⟨p,t,d,hmem⟩) hgone] at hjob
  cases hjob

end QmkFirmware.Timetable
