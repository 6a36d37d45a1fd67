import Mathlib.Data.List.Chain
import Mathlib.Logic.Relation
import QmkFirmware.Tapping.Outcome

/-!
One key's side of the engine: the records of the key that were passed on, what the tapping key
is to it, and its records in the buffer. The steps here are what may happen to one key for its
releases to be passed on as what their presses were.
-/

set_option autoImplicit false

namespace QmkFirmware.Tapping

/-- What the tapping key is to a key: another key or released, its unsettled press, or its
pressed tap of a count. -/
inductive Stage where
  | away
  | pending (e : KeyEvent)
  | tapped (n : Nat)
  deriving DecidableEq

def Stage.events : Stage → List KeyEvent
  | .pending e => [e]
  | .away | .tapped _ => []

structure Side where
  sent : List KeyRecord
  stage : Stage
  buffer : List KeyRecord

def Side.timeline (σ : Side) : List KeyEvent :=
  σ.sent.map KeyRecord.event ++ (σ.stage.events ++ σ.buffer.map KeyRecord.event)

/-- A release behind a press is a tap if and only if the press was. -/
def SameKind (p r : KeyRecord) : Prop :=
  p.event.pressed = true → r.event.pressed = false → (0 < r.tap.count ↔ 0 < p.tap.count)

instance (p r : KeyRecord) : Decidable (SameKind p r) :=
  inferInstanceAs (Decidable (p.event.pressed = true → r.event.pressed = false →
    (0 < r.tap.count ↔ 0 < p.tap.count)))

/-- What may happen to a key, with its record at the head of its buffer. -/
inductive Side.Step : Side → Side → Prop
  | pass {sent buffer : List KeyRecord} (k : KeyRecord) :
      Step ⟨sent,.away,k :: buffer⟩ ⟨sent ++ [k],.away,buffer⟩
  | release {sent buffer : List KeyRecord} {n : Nat} (k k' : KeyRecord) :
      0 < n → k'.event = k.event → k'.tap.count = n → k.event.pressed = false →
      Step ⟨sent,.tapped n,k :: buffer⟩ ⟨sent ++ [k'],.away,buffer⟩
  | again {sent buffer : List KeyRecord} {n : Nat} (k k' : KeyRecord) :
      1 < n → k'.event = k.event → k'.tap.count = n → k.event.pressed = true →
      Step ⟨sent,.away,k :: buffer⟩ ⟨sent ++ [k'],.tapped n,buffer⟩
  | take {sent buffer : List KeyRecord} (k : KeyRecord) : k.event.pressed = true →
      Step ⟨sent,.away,k :: buffer⟩ ⟨sent,.pending k.event,buffer⟩
  | settle {sent buffer : List KeyRecord} (tk : KeyRecord) : tk.event.pressed = true →
      tk.tap.count = 0 →
      Step ⟨sent,.pending tk.event,buffer⟩ ⟨sent ++ [tk],.away,buffer⟩
  | firstTap {sent buffer : List KeyRecord} (tk k k' : KeyRecord) : tk.event.pressed = true →
      tk.tap.count = 1 → k'.event = k.event → k'.tap.count = 1 →
      Step ⟨sent,.pending tk.event,k :: buffer⟩ ⟨sent ++ [tk],.tapped 1,k' :: buffer⟩
  /-- Another key takes the place of a first tap. -/
  | replaced {sent buffer : List KeyRecord} : Step ⟨sent,.tapped 1,buffer⟩ ⟨sent,.away,buffer⟩

def TapOpen (sent : List KeyRecord) : Prop :=
  ∃ p, sent.getLast? = some p ∧ p.event.pressed = true ∧ 0 < p.tap.count

def HeadTap (buffer : List KeyRecord) : Prop :=
  ∃ b, buffer.head? = some b ∧ 0 < b.tap.count

theorem tapOpen_snoc {sent : List KeyRecord} {k : KeyRecord} :
    TapOpen (sent ++ [k]) ↔ k.event.pressed = true ∧ 0 < k.tap.count := by
  simp [TapOpen]

theorem headTap_cons {buffer : List KeyRecord} {k : KeyRecord} :
    HeadTap (k :: buffer) ↔ 0 < k.tap.count := by
  simp [HeadTap]

structure Aligned (σ : Side) : Prop where
  alternates : σ.timeline.IsChain fun a b => a.pressed ≠ b.pressed
  matched : σ.sent.IsChain SameKind
  behind : ∀ b ∈ σ.buffer.tail, b.tap.count = 0
  closes : TapOpen σ.sent → (∃ n, σ.stage = .tapped n) ∨ HeadTap σ.buffer
  headTap : HeadTap σ.buffer → TapOpen σ.sent
  tapped : ∀ n, σ.stage = .tapped n → TapOpen σ.sent ∧ (n = 1 → HeadTap σ.buffer)

theorem Side.Step.timeline_eq {σ τ : Side} (h : Side.Step σ τ) : τ.timeline = σ.timeline := by
  cases h with
  | release k k' _ he | again k k' _ he => simp [Side.timeline, Stage.events, he]
  | firstTap tk k k' _ _ he => simp [Side.timeline, Stage.events, he]
  | pass | take | settle | replaced => simp [Side.timeline, Stage.events]

theorem TapOpen.next {sent : List KeyRecord} {e : KeyEvent} {rest : List KeyEvent}
    (h : TapOpen sent)
    (hc : (sent.map KeyRecord.event ++ e :: rest).IsChain fun a b => a.pressed ≠ b.pressed) :
    e.pressed = false := by
  obtain ⟨p, hp, hpr, -⟩ := h
  have := (List.isChain_append.mp hc).2.2 p.event (by simp [hp]) e rfl
  rw [hpr] at this
  simpa using this.symm

theorem matched_snoc {sent : List KeyRecord} {k : KeyRecord} (h : sent.IsChain SameKind)
    (hk : ∀ p, sent.getLast? = some p → SameKind p k) : (sent ++ [k]).IsChain SameKind := by
  rw [List.isChain_append]
  exact ⟨h, .singleton _, fun p hp x hx => by cases hx; exact hk p hp⟩

theorem matched_press {sent : List KeyRecord} {k : KeyRecord} (h : sent.IsChain SameKind)
    (hk : k.event.pressed = true) : (sent ++ [k]).IsChain SameKind :=
  matched_snoc h fun _ _ _ hr => by simp [hk] at hr

theorem not_headTap_tail {k : KeyRecord} {buffer : List KeyRecord}
    (h : ∀ b ∈ (k :: buffer).tail, b.tap.count = 0) : ¬ HeadTap buffer := by
  rintro ⟨b, hb, hpos⟩
  have := h b (List.mem_of_head? hb)
  omega

theorem Side.Step.aligned {σ τ : Side} (h : Side.Step σ τ) (hσ : Aligned σ) : Aligned τ := by
  have halt := hσ.alternates
  have halt' := h.timeline_eq ▸ halt
  cases h with
  | @pass sent buffer k =>
    -- a press is not counted here: a counted record is a release
    have hpress : ¬ (k.event.pressed = true ∧ 0 < k.tap.count) := by
      rintro ⟨hp, hc⟩
      have := (hσ.headTap (headTap_cons.mpr hc)).next halt
      simp [hp] at this
    refine ⟨halt', matched_snoc hσ.matched fun p hp hpr _ => ?_,
      fun b hb => hσ.behind b (List.mem_of_mem_tail hb),
      fun ht => absurd (tapOpen_snoc.mp ht) hpress,
      fun ht => absurd ht (not_headTap_tail hσ.behind), fun n hn => by cases hn⟩
    constructor
    · intro hc
      obtain ⟨q, hq, -, hpos⟩ := hσ.headTap (headTap_cons.mpr hc)
      cases hp.symm.trans hq
      exact hpos
    · intro hc
      rcases hσ.closes ⟨p, hp, hpr, hc⟩ with ⟨n, hn⟩ | hh
      · cases hn
      · exact headTap_cons.mp hh
  | @release sent buffer n k k' hn he hc hrel =>
    have hnot : ¬ TapOpen (sent ++ [k']) := fun ht => by
      have := (tapOpen_snoc.mp ht).1
      simp [he, hrel] at this
    refine ⟨halt', matched_snoc hσ.matched fun p hp hpr _ => ?_,
      fun b hb => hσ.behind b (List.mem_of_mem_tail hb), fun ht => absurd ht hnot,
      fun ht => absurd ht (not_headTap_tail hσ.behind), fun n hn => by cases hn⟩
    obtain ⟨q, hq, -, hpos⟩ := (hσ.tapped n rfl).1
    cases hp.symm.trans hq
    exact ⟨fun _ => hpos, fun _ => by omega⟩
  | @again sent buffer n k k' hn he hc hp =>
    refine ⟨halt', matched_press hσ.matched (by rw [he, hp]),
      fun b hb => hσ.behind b (List.mem_of_mem_tail hb), fun _ => .inl ⟨n, rfl⟩,
      fun ht => absurd ht (not_headTap_tail hσ.behind), fun m hm => ?_⟩
    cases hm
    exact ⟨tapOpen_snoc.mpr ⟨by rw [he, hp], by omega⟩, fun h => by omega⟩
  | @take sent buffer k hp =>
    refine ⟨halt', hσ.matched, fun b hb => hσ.behind b (List.mem_of_mem_tail hb),
      fun ht => ?_, fun ht => absurd ht (not_headTap_tail hσ.behind), fun n hn => by cases hn⟩
    have := ht.next halt
    simp [hp] at this
  | @settle sent buffer tk hp hc =>
    refine ⟨halt', matched_press hσ.matched hp, hσ.behind, fun ht => ?_, fun ht => ?_,
      fun n hn => by cases hn⟩
    · have := (tapOpen_snoc.mp ht).2
      omega
    · have := (hσ.headTap ht).next halt
      simp [hp] at this
  | @firstTap sent buffer tk k k' hp hc he hc' =>
    have hopen : TapOpen (sent ++ [tk]) := tapOpen_snoc.mpr ⟨hp, by omega⟩
    have hhead : HeadTap (k' :: buffer) := headTap_cons.mpr (by omega)
    refine ⟨halt', matched_press hσ.matched hp, hσ.behind, fun _ => .inr hhead,
      fun _ => hopen, fun n hn => ⟨hopen, fun _ => hhead⟩⟩
  | replaced =>
    obtain ⟨hopen, hhead⟩ := hσ.tapped 1 rfl
    exact ⟨halt', hσ.matched, hσ.behind, fun _ => .inr (hhead rfl), hσ.headTap,
      fun n hn => by cases hn⟩

def Side.Steps : Side → Side → Prop := Relation.ReflTransGen Side.Step

theorem Side.Steps.trans {ρ σ τ : Side} (h : Side.Steps ρ σ) (h' : Side.Steps σ τ) :
    Side.Steps ρ τ := Relation.ReflTransGen.trans h h'

theorem Side.Steps.timeline_eq {σ τ : Side} (h : Side.Steps σ τ) :
    τ.timeline = σ.timeline := by
  induction h with
  | refl => rfl
  | tail _ hstep ih => exact hstep.timeline_eq.trans ih

theorem Side.Steps.aligned {σ τ : Side} (h : Side.Steps σ τ) (hσ : Aligned σ) : Aligned τ := by
  induction h with
  | refl => exact hσ
  | tail _ hstep ih => exact hstep.aligned ih

def Side.arrive (σ : Side) (e : KeyEvent) : Side := { σ with buffer := σ.buffer ++ [e.record] }

theorem Side.arrive_timeline (σ : Side) (e : KeyEvent) :
    (σ.arrive e).timeline = σ.timeline ++ [e] := by
  simp [Side.timeline, Side.arrive, KeyEvent.record]

theorem Aligned.arrive {σ : Side} (h : Aligned σ) {e : KeyEvent}
    (he : (σ.timeline ++ [e]).IsChain fun a b => a.pressed ≠ b.pressed) :
    Aligned (σ.arrive e) := by
  have hhead : HeadTap (σ.buffer ++ [e.record]) ↔ HeadTap σ.buffer := by
    cases hb : σ.buffer with
    | nil => simp [HeadTap, KeyEvent.record]
    | cons b bs => simp [HeadTap]
  refine ⟨by rw [Side.arrive_timeline]; exact he, h.matched, fun b hb => ?_,
    fun ht => (h.closes ht).imp_right hhead.mpr, fun ht => h.headTap (hhead.mp ht),
    fun n hn => ⟨(h.tapped n hn).1, fun h1 => hhead.mpr ((h.tapped n hn).2 h1)⟩⟩
  cases hs : σ.buffer with
  | nil => simp [Side.arrive, hs] at hb
  | cons c cs =>
    have hb : b ∈ cs ∨ b = e.record := by simpa [Side.arrive, hs] using hb
    rcases hb with hb | rfl
    · exact h.behind b (by simpa [hs] using hb)
    · rfl

theorem aligned_nil : Aligned ⟨[],.away,[]⟩ :=
  ⟨.nil, .nil, fun b hb => by simp at hb, fun ⟨p, hp, _⟩ => by simp at hp,
    fun ⟨b, hb, _⟩ => by simp at hb, fun n hn => by cases hn⟩

end QmkFirmware.Tapping
