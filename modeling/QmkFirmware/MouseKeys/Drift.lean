import QmkFirmware.MouseKeys.Core

/-!
Mouse keys do not drift: what is kept moves only for a key that is held, and once no key is held
everything stops.
-/

set_option autoImplicit false

namespace QmkFirmware.MouseKeys

/-- The sign of `n` is that of a key that is down. -/
def Held (down : Code → Bool) (key : Bool → Code) (n : Int) : Prop :=
  (0 < n → down (key true) = true) ∧ (n < 0 → down (key false) = true)

def SameWay (n m : Int) : Prop := (0 < n ↔ 0 < m) ∧ (n < 0 ↔ m < 0)

def dueWheel (cfg : Config) (s : State) (now : UInt16) : Bool :=
  elapsed s.lastTimerW now (s.wheelRepeat != 0) cfg.wheelInterval cfg.wheelDelay

def AllUp (v : World) : Prop :=
  ∀ axis forward, v.down (.cursor axis forward) = false ∧ v.down (.wheel axis forward) = false

def Quiet : Input → Prop
  | .key (.cursor _ _) => False
  | .key (.wheel _ _) => False
  | _ => True

/-- The task calls that come after the time of a frame. -/
def frames (cfg : Config) : World → List Input → Nat
  | _, [] => 0
  | v, .task now :: more =>
    (due cfg v.state now).toNat+frames cfg (next cfg v (.task now)) more
  | v, input :: more => frames cfg (next cfg v input) more

def Still (report : Report) : Prop := ∀ axis, report.cursor axis = 0 ∧ report.wheel axis = 0

def Stopped (v : World) : Prop := Still v.state.report ∧ ∀ report ∈ v.sent, Still report

structure Bounded (cfg : Config) (report : Report) : Prop where
  cursor : ∀ axis, (report.cursor axis).natAbs ≤ cfg.moveMax
  wheel : ∀ axis, (report.wheel axis).natAbs ≤ cfg.wheelMax

structure NoDrift (cfg : Config) (v : World) : Prop where
  cursor : cfg.mode ≠ .inertia → ∀ axis, Held v.down (.cursor axis) (v.state.report.cursor axis)
  wheel : ∀ axis, Held v.down (.wheel axis) (v.state.report.wheel axis)
  dir : cfg.mode = .inertia → ∀ axis, Held v.down (.cursor axis) (v.state.dir axis)
  /-- A velocity without a direction shrinks at each frame. -/
  slows : cfg.mode = .inertia → ∀ now, v.state.frame ≠ 0 → due cfg v.state now = true →
    ∀ axis, v.state.dir axis = 0 → v.state.inertia axis ≠ 0 →
      ((mousekeyTask cfg now v.state).1.inertia axis).natAbs < (v.state.inertia axis).natAbs
  kept_le : Bounded cfg v.state.report
  sent_le : ∀ report ∈ v.sent, Bounded cfg report
  /-- What a call sends goes the way of what is kept, diagonals as well. -/
  way : ∀ now, ∀ report ∈ (mousekeyTask cfg now v.state).2, ∀ axis,
    (cfg.mode ≠ .inertia → due cfg v.state now = true →
      SameWay (report.cursor axis) (v.state.report.cursor axis)) ∧
    (dueWheel cfg v.state now = true →
      SameWay (report.wheel axis) (v.state.report.wheel axis))
  stops : AllUp v → ∀ more, (∀ input ∈ more, Quiet input) →
    (cfg.mode = .inertia → cfg.timeToMax.toNat ≤ frames cfg v more) →
    Stopped (more.foldl (next cfg) v)

theorem int8_of_le {n : Int} (h : n.natAbs ≤ 127) : int8 n = n :=
  Int.bmod_eq_of_le (by omega) (by omega)

theorem int16_of_le {n : Int} (h : n.natAbs ≤ 32767) : int16 n = n :=
  Int.bmod_eq_of_le (by omega) (by omega)

theorem limitUnit_pos {unitMax : Nat} (h : 1 ≤ unitMax) (unit : Nat) :
    1 ≤ limitUnit unitMax unit := by
  simp only [limitUnit]
  split
  · exact h
  · split <;> omega

theorem limitUnit_le {unitMax : Nat} (h : 1 ≤ unitMax) (unit : Nat) :
    limitUnit unitMax unit ≤ unitMax := by
  simp only [limitUnit]
  split
  · exact Nat.le_refl _
  · split <;> omega

variable {cfg : Config}

theorem moveUnit_pos (s : State) : 1 ≤ moveUnit cfg s := by
  unfold moveUnit
  split <;> exact limitUnit_pos cfg.moveMax_pos _

theorem moveUnit_le (s : State) : moveUnit cfg s ≤ cfg.moveMax := by
  unfold moveUnit
  split <;> exact limitUnit_le cfg.moveMax_pos _

theorem wheelUnit_pos (s : State) : 1 ≤ wheelUnit cfg s := by
  unfold wheelUnit
  split <;> exact limitUnit_pos cfg.wheelMax_pos _

theorem wheelUnit_le (s : State) : wheelUnit cfg s ≤ cfg.wheelMax := by
  unfold wheelUnit
  split <;> exact limitUnit_le cfg.wheelMax_pos _

theorem int8_signed {unit : Nat} (h : unit ≤ 127) (forward : Bool) :
    int8 (unit*signOf forward) = if forward then (unit : Int) else -unit := by
  cases forward <;> simp only [signOf] <;> rw [int8_of_le (by simp; omega)] <;> simp

theorem timesInvSqrt2_pos {x : Int} (h : 0 < x) (hx : x ≤ 127) :
    0 < timesInvSqrt2 x ∧ timesInvSqrt2 x ≤ x := by
  have hn : int16 (x*181) = x*181 := int16_of_le (by omega)
  have hd : (x*181+256/2).tdiv 256 = (x*181+128)/256 := Int.tdiv_eq_ediv_of_nonneg (by omega)
  simp only [timesInvSqrt2, hn, hd]
  rw [if_neg (by omega), int8_of_le (by omega)]
  omega

theorem timesInvSqrt2_neg (x : Int) (h : 0 < x) (hx : x ≤ 127) :
    timesInvSqrt2 (-x) = -timesInvSqrt2 x := by
  have hn : int16 (-x*181) = -(x*181) := by rw [int16_of_le (by omega)]; omega
  have hp : int16 (x*181) = x*181 := int16_of_le (by omega)
  have hd : (-(x*181)-256/2).tdiv 256 = -((x*181+256/2).tdiv 256) := by
    rw [← Int.neg_tdiv]
    congr 1
    omega
  have hq : (x*181+256/2).tdiv 256 = (x*181+128)/256 := Int.tdiv_eq_ediv_of_nonneg (by omega)
  simp only [timesInvSqrt2, hn, hp, hd, hq]
  rw [if_pos (by omega), if_neg (by omega), int8_of_le (by omega), int8_of_le (by omega)]

theorem timesInvSqrt2_way {x : Int} (hx : x.natAbs ≤ 127) (h0 : x ≠ 0) :
    SameWay (timesInvSqrt2 x) x ∧ (timesInvSqrt2 x).natAbs ≤ x.natAbs := by
  rcases Int.lt_or_gt_of_ne h0 with h | h
  · obtain ⟨hp,hl⟩ := @timesInvSqrt2_pos (-x) (by omega) (by omega)
    have he : timesInvSqrt2 x = -timesInvSqrt2 (-x) := by
      rw [← timesInvSqrt2_neg (-x) (by omega) (by omega), Int.neg_neg]
    exact ⟨⟨by omega,by omega⟩,by omega⟩
  · obtain ⟨hp,hl⟩ := timesInvSqrt2_pos h (by omega)
    exact ⟨⟨by omega,by omega⟩,by omega⟩

theorem signed_way {unit : Nat} (h1 : 1 ≤ unit) (hu : unit ≤ 127) (kept : Int) :
    SameWay (if kept ≠ 0 then int8 (unit*signOf (0 < kept)) else 0) kept ∧
      (if kept ≠ 0 then int8 (unit*signOf (0 < kept)) else 0).natAbs ≤ unit := by
  rw [int8_signed hu]
  split
  · by_cases hk : 0 < kept
    · simp only [hk, decide_true, if_true]
      exact ⟨⟨by omega,by omega⟩,by omega⟩
    · simp only [hk, decide_false, Bool.false_eq_true, if_false]
      exact ⟨⟨by omega,by omega⟩,by omega⟩
  · exact ⟨⟨by omega,by omega⟩,by omega⟩

theorem scaled_way {unit : Nat} (hu : unit ≤ 127) {moved kept : Axis → Int}
    (hm : ∀ axis, SameWay (moved axis) (kept axis) ∧ (moved axis).natAbs ≤ unit) (axis : Axis) :
    SameWay ((if moved .horizontal ≠ 0 ∧ moved .vertical ≠ 0 then fun axis =>
        if timesInvSqrt2 (moved axis) = 0 then 1 else timesInvSqrt2 (moved axis)
      else moved) axis) (kept axis) ∧
    ((if moved .horizontal ≠ 0 ∧ moved .vertical ≠ 0 then fun axis =>
        if timesInvSqrt2 (moved axis) = 0 then 1 else timesInvSqrt2 (moved axis)
      else moved) axis).natAbs ≤ unit := by
  split
  · rename_i hboth
    obtain ⟨⟨hf,hb⟩,hl⟩ := hm axis
    have h0 : moved axis ≠ 0 := by
      cases axis
      · exact hboth.1
      · exact hboth.2
    obtain ⟨⟨hf',hb'⟩,hl'⟩ := timesInvSqrt2_way (by omega) h0
    beta_reduce
    rw [if_neg (by omega)]
    exact ⟨⟨hf'.trans hf,hb'.trans hb⟩,by omega⟩
  · exact hm axis

theorem stepAxes_way {unit : Nat} (h1 : 1 ≤ unit) (hu : unit ≤ 127) (kept : Axis → Int)
    (axis : Axis) :
    SameWay (stepAxes unit kept axis) (kept axis) ∧ (stepAxes unit kept axis).natAbs ≤ unit :=
  scaled_way hu (fun axis => signed_way h1 hu (kept axis)) axis

theorem inertiaUnit_le (frame : UInt8) (inertia dir : Int) :
    (inertiaUnit cfg frame inertia dir).natAbs ≤ cfg.moveMax := by
  simp only [inertiaUnit]
  generalize (if frame < 2 then _ else _ : Int) = unit
  split
  · omega
  · split <;> omega

theorem inertiaUnit_zero (frame : UInt8) : inertiaUnit cfg frame 0 0 = 0 := by
  have h0 : int16 0 = 0 := rfl
  have hm : ¬(cfg.moveMax : Int) < 0 := by omega
  simp [inertiaUnit, h0, hm]

theorem friction_lt (hi : cfg.mode = .inertia) {n : Int} (h0 : 0 ≤ n) :
    0 ≤ (n*(256-cfg.friction)).tdiv 256 ∧ (n*(256-cfg.friction)).tdiv 256 ≤ n ∧
      (n ≠ 0 → (n*(256-cfg.friction)).tdiv 256 < n) := by
  have h1 := cfg.friction_pos hi
  have h2 := cfg.friction_le hi
  have hn : 0 ≤ n*(256-cfg.friction) := Int.mul_nonneg h0 (by omega)
  have hl : n*(256-cfg.friction) ≤ n*255 := Int.mul_le_mul_of_nonneg_left (by omega) h0
  rw [Int.tdiv_eq_ediv_of_nonneg hn]
  omega

theorem friction_slows (hi : cfg.mode = .inertia) {velocity : Int} (hv : velocity.natAbs ≤ 127)
    (direction : Int) :
    (if -1 < direction ∧ velocity < 0 then int8 (((velocity+1)*(256-cfg.friction)).tdiv 256)
      else if direction < 1 ∧ 0 < velocity then int8 ((velocity*(256-cfg.friction)).tdiv 256)
      else velocity).natAbs ≤ velocity.natAbs ∧
    (direction = 0 → velocity ≠ 0 →
      (if -1 < direction ∧ velocity < 0 then int8 (((velocity+1)*(256-cfg.friction)).tdiv 256)
      else if direction < 1 ∧ 0 < velocity then int8 ((velocity*(256-cfg.friction)).tdiv 256)
      else velocity).natAbs < velocity.natAbs) := by
  split
  · obtain ⟨h0,hl,-⟩ := friction_lt hi (show 0 ≤ -(velocity+1) by omega)
    have hn : ((velocity+1)*(256-cfg.friction)).tdiv 256
        = -((-(velocity+1)*(256-cfg.friction)).tdiv 256) := by
      rw [Int.neg_mul, Int.neg_tdiv, Int.neg_neg]
    rw [hn, int8_of_le (by omega)]
    omega
  · split
    · obtain ⟨h0,hl,hs⟩ := friction_lt hi (show 0 ≤ velocity by omega)
      rw [int8_of_le (by omega)]
      omega
    · omega

theorem calcInertia_slows (hi : cfg.mode = .inertia) {direction velocity : Int}
    (hv : velocity.natAbs ≤ cfg.timeToMax.toNat) (hd : direction = 0) (h0 : velocity ≠ 0) :
    (calcInertia cfg direction velocity).natAbs < velocity.natAbs := by
  have hm := cfg.timeToMax_le hi
  obtain ⟨-,hs⟩ := friction_slows hi (show velocity.natAbs ≤ 127 by omega) direction
  simp only [calcInertia]
  rw [if_neg (by omega), if_neg (by omega)]
  exact hs hd h0

theorem calcInertia_zero : calcInertia cfg 0 0 = 0 := by
  simp [calcInertia]

theorem calcInertia_le (hi : cfg.mode = .inertia) {direction velocity : Int}
    (hv : velocity.natAbs ≤ cfg.timeToMax.toNat) :
    (calcInertia cfg direction velocity).natAbs ≤ cfg.timeToMax.toNat := by
  have hm := cfg.timeToMax_le hi
  obtain ⟨hl,-⟩ := friction_slows hi (show velocity.natAbs ≤ 127 by omega) direction
  simp only [calcInertia]
  generalize (if -1 < direction ∧ velocity < 0 then _ else _ : Int) = slowed at hl ⊢
  split
  · rw [int8_of_le (by omega)]
    omega
  · split
    · rw [int8_of_le (by omega)]
      omega
    · omega

variable {now : UInt16} {s : State}

@[simp] theorem mousekeySend_report (report : Report) :
    (mousekeySend report now s).report = s.report := by
  simp only [mousekeySend]
  split <;> split <;> rfl

@[simp] theorem mousekeySend_dir (report : Report) : (mousekeySend report now s).dir = s.dir := by
  simp only [mousekeySend]
  split <;> split <;> rfl

@[simp] theorem mousekeySend_inertia (report : Report) :
    (mousekeySend report now s).inertia = s.inertia := by
  simp only [mousekeySend]
  split <;> split <;> rfl

@[simp] theorem mousekeySend_frame (report : Report) :
    (mousekeySend report now s).frame = s.frame := by
  simp only [mousekeySend]
  split <;> split <;> rfl

/-- The cursor in `mousekey_task`. -/
def cursorPart (cfg : Config) (now : UInt16) (s : State) : (Axis → Int) × State :=
  if cfg.mode = .inertia then inertiaStep cfg now s else cursorStep cfg now s

theorem wheelStep_snd (s : State) :
    (wheelStep cfg now s).2 = { s with wheelRepeat := (wheelStep cfg now s).2.wheelRepeat } := by
  simp only [wheelStep]
  split <;> rfl

@[simp] theorem wheelStep_report : (wheelStep cfg now s).2.report = s.report := by
  rw [wheelStep_snd]

@[simp] theorem wheelStep_dir : (wheelStep cfg now s).2.dir = s.dir := by
  rw [wheelStep_snd]

@[simp] theorem wheelStep_inertia : (wheelStep cfg now s).2.inertia = s.inertia := by
  rw [wheelStep_snd]

@[simp] theorem wheelStep_frame : (wheelStep cfg now s).2.frame = s.frame := by
  rw [wheelStep_snd]

theorem mousekeyTask_eq (s : State) : mousekeyTask cfg now s =
    let part := cursorPart cfg now s
    let s := (wheelStep cfg now part.2).2
    let report : Report := ⟨part.1,(wheelStep cfg now part.2).1,s.report.buttons⟩
    if hasMouseReportChanged report s.report || shouldMousekeyReportSend report then
      (mousekeySend report now s,some report)
    else (s,none) := rfl

theorem task_report (s : State) :
    (mousekeyTask cfg now s).1.report = (cursorPart cfg now s).2.report := by
  rw [mousekeyTask_eq]
  dsimp only
  split <;> simp

theorem task_dir (s : State) :
    (mousekeyTask cfg now s).1.dir = (cursorPart cfg now s).2.dir := by
  rw [mousekeyTask_eq]
  dsimp only
  split <;> simp

theorem task_inertia (s : State) :
    (mousekeyTask cfg now s).1.inertia = (cursorPart cfg now s).2.inertia := by
  rw [mousekeyTask_eq]
  dsimp only
  split <;> simp

theorem task_frame (s : State) :
    (mousekeyTask cfg now s).1.frame = (cursorPart cfg now s).2.frame := by
  rw [mousekeyTask_eq]
  dsimp only
  split <;> simp

theorem task_sent {report : Report} (h : report ∈ (mousekeyTask cfg now s).2) :
    report.cursor = (cursorPart cfg now s).1 ∧
      report.wheel = (wheelStep cfg now (cursorPart cfg now s).2).1 := by
  rw [mousekeyTask_eq] at h
  dsimp only at h
  split at h
  · cases h
    exact ⟨rfl,rfl⟩
  · cases h

theorem cursorStep_snd (s : State) :
    (cursorStep cfg now s).2 = { s with moveRepeat := (cursorStep cfg now s).2.moveRepeat } := by
  simp only [cursorStep]
  split <;> rfl

theorem cursorPart_wheel (s : State) :
    (cursorPart cfg now s).2.report.wheel = s.report.wheel ∧
      (cursorPart cfg now s).2.lastTimerW = s.lastTimerW ∧
      (cursorPart cfg now s).2.wheelRepeat = s.wheelRepeat ∧
      (cursorPart cfg now s).2.dir = s.dir := by
  unfold cursorPart
  split
  · simp only [inertiaStep, resetStopped]
    split <;> split <;> exact ⟨rfl,rfl,rfl,rfl⟩
  · rw [cursorStep_snd]
    exact ⟨rfl,rfl,rfl,rfl⟩

theorem moves_eq_false {axes : Axis → Int} : moves axes = false ↔ ∀ axis, axes axis = 0 := by
  simp only [moves, Bool.or_eq_false_iff, bne_eq_false_iff_eq]
  constructor
  · rintro ⟨hx,hy⟩ (_ | _)
    · exact hx
    · exact hy
  · exact fun h => ⟨h .horizontal,h .vertical⟩

theorem cursorStep_way (s : State) (axis : Axis) :
    ((cursorStep cfg now s).1 axis).natAbs ≤ cfg.moveMax ∧
      ((cursorStep cfg now s).1 axis = 0 ∨
        SameWay ((cursorStep cfg now s).1 axis) (s.report.cursor axis)) ∧
      (due cfg s now = true →
        SameWay ((cursorStep cfg now s).1 axis) (s.report.cursor axis)) := by
  have hm := cfg.moveMax_le
  simp only [cursorStep]
  split
  · obtain ⟨hw,hl⟩ := stepAxes_way (@moveUnit_pos cfg _)
      (Nat.le_trans (@moveUnit_le cfg _) hm) s.report.cursor axis
    exact ⟨Nat.le_trans hl (moveUnit_le _),.inr hw,fun _ => hw⟩
  · rename_i hn
    refine ⟨Nat.zero_le _,.inl rfl,fun hd => ?_⟩
    rw [hd, Bool.and_true, Bool.not_eq_true, moves_eq_false] at hn
    rw [hn axis]
    exact ⟨Iff.rfl,Iff.rfl⟩

theorem wheelStep_way (s : State) (axis : Axis) :
    ((wheelStep cfg now s).1 axis).natAbs ≤ cfg.wheelMax ∧
      ((wheelStep cfg now s).1 axis = 0 ∨
        SameWay ((wheelStep cfg now s).1 axis) (s.report.wheel axis)) ∧
      (dueWheel cfg s now = true →
        SameWay ((wheelStep cfg now s).1 axis) (s.report.wheel axis)) := by
  have hm := cfg.wheelMax_le
  simp only [wheelStep, dueWheel]
  split
  · obtain ⟨hw,hl⟩ := stepAxes_way (@wheelUnit_pos cfg _)
      (Nat.le_trans (@wheelUnit_le cfg _) hm) s.report.wheel axis
    exact ⟨Nat.le_trans hl (wheelUnit_le _),.inr hw,fun _ => hw⟩
  · rename_i hn
    refine ⟨Nat.zero_le _,.inl rfl,fun hd => ?_⟩
    rw [hd, Bool.and_true, Bool.not_eq_true, moves_eq_false] at hn
    rw [hn axis]
    exact ⟨Iff.rfl,Iff.rfl⟩

theorem resetStopped_dir (s : State) : (resetStopped s).dir = s.dir := by
  unfold resetStopped
  split <;> rfl

theorem resetStopped_inertia (s : State) : (resetStopped s).inertia = s.inertia := by
  unfold resetStopped
  split <;> rfl

theorem resetStopped_cursor (s : State) (axis : Axis) :
    (resetStopped s).report.cursor axis = s.report.cursor axis ∨
      (resetStopped s).report.cursor axis = 0 := by
  unfold resetStopped
  split
  · exact .inr rfl
  · exact .inl rfl

theorem resetStopped_stopped {s : State} (hd : ∀ axis, s.dir axis = 0)
    (hi : ∀ axis, s.inertia axis = 0) (axis : Axis) : (resetStopped s).report.cursor axis = 0 := by
  unfold resetStopped
  rw [if_pos ⟨hd _,hd _,hi _,hi _⟩]

theorem resetStopped_frame {s : State} (h : (resetStopped s).frame = 0) :
    s.frame = 0 ∨ ∀ axis, s.inertia axis = 0 := by
  unfold resetStopped at h
  split at h
  · rename_i hs
    exact .inr fun axis => by cases axis <;> simp [hs]
  · exact .inl h

theorem inertiaFrame_frame (h : s.frame ≠ 0) : (inertiaFrame cfg s).2.frame ≠ 0 := by
  by_cases h2 : s.frame < 2
  · simp [inertiaFrame, h2]
  · simpa [inertiaFrame, h2] using h

theorem inertiaFrame_cursor (axis : Axis) :
    (inertiaFrame cfg s).2.report.cursor axis = s.report.cursor axis ∨
      (inertiaFrame cfg s).2.report.cursor axis = 0 := by
  by_cases h : s.dir axis = 0 ∧ calcInertia cfg (s.dir axis) (s.inertia axis) = 0
  · exact .inr (by simp [inertiaFrame, h.1, h.1 ▸ h.2])
  · exact .inl (if_neg h)

theorem inertiaStep_spec (s : State) :
    (inertiaStep cfg now s).2.dir = s.dir ∧
    (inertiaStep cfg now s).2.inertia = (if s.frame ≠ 0 ∧ due cfg s now = true then
      fun axis => calcInertia cfg (s.dir axis) (s.inertia axis) else s.inertia) ∧
    (inertiaStep cfg now s).1 = (if s.frame ≠ 0 ∧ due cfg s now = true then
      fun axis => inertiaUnit cfg s.frame (calcInertia cfg (s.dir axis) (s.inertia axis))
        (s.dir axis) else fun _ => 0) ∧
    (∀ axis, (inertiaStep cfg now s).2.report.cursor axis = s.report.cursor axis ∨
      (inertiaStep cfg now s).2.report.cursor axis = 0) ∧
    ((∀ axis, s.dir axis = 0) → (∀ axis, (inertiaStep cfg now s).2.inertia axis = 0) →
      ∀ axis, (inertiaStep cfg now s).2.report.cursor axis = 0) ∧
    ((inertiaStep cfg now s).2.frame = 0 →
      s.frame = 0 ∨ ∀ axis, (inertiaStep cfg now s).2.inertia axis = 0) := by
  by_cases h : s.frame ≠ 0 ∧ due cfg s now = true
  · have he : inertiaStep cfg now s
        = ((inertiaFrame cfg s).1,resetStopped (inertiaFrame cfg s).2) := by
      simp only [inertiaStep, if_pos h]
    rw [if_pos h, if_pos h, he]
    refine ⟨resetStopped_dir _,resetStopped_inertia _,rfl,fun axis => ?_,fun hd hi => ?_,
      fun hf => ?_⟩
    · rcases resetStopped_cursor (inertiaFrame cfg s).2 axis with hc | hc
      · rw [hc]
        exact inertiaFrame_cursor axis
      · exact .inr hc
    · exact resetStopped_stopped hd
        (fun axis => resetStopped_inertia (inertiaFrame cfg s).2 ▸ hi axis)
    · rcases resetStopped_frame hf with hf | hi
      · exact absurd hf (inertiaFrame_frame h.1)
      · exact .inr (resetStopped_inertia (inertiaFrame cfg s).2 ▸ hi)
  · have he : inertiaStep cfg now s = (fun _ => 0,resetStopped s) := by
      simp only [inertiaStep, if_neg h]
    rw [if_neg h, if_neg h, he]
    refine ⟨resetStopped_dir _,resetStopped_inertia _,rfl,resetStopped_cursor s,fun hd hi => ?_,
      fun hf => ?_⟩
    · exact resetStopped_stopped hd (resetStopped_inertia s ▸ hi)
    · exact (resetStopped_frame hf).imp_right fun hi => resetStopped_inertia s ▸ hi

structure Unmoved (s s' : State) : Prop where
  cursor : s'.report.cursor = s.report.cursor
  wheel : s'.report.wheel = s.report.wheel
  dir : s'.dir = s.dir
  inertia : s'.inertia = s.inertia
  frame : s'.frame = s.frame

theorem overlap_unmoved (s : State) : Unmoved s (overlap cfg s) := by
  unfold overlap
  split
  · split <;> exact ⟨rfl,rfl,rfl,rfl,rfl⟩
  · exact ⟨rfl,rfl,rfl,rfl,rfl⟩

theorem Unmoved.trans {s s' s'' : State} (h : Unmoved s s') (h' : Unmoved s' s'') : Unmoved s s'' :=
  ⟨h'.cursor.trans h.cursor,h'.wheel.trans h.wheel,h'.dir.trans h.dir,h'.inertia.trans h.inertia,
    h'.frame.trans h.frame⟩

theorem mousekeyOn_unmoved {code : Code} (h : Quiet (.key code)) (s : State) :
    Unmoved s (mousekeyOn cfg code s) := by
  refine (@overlap_unmoved cfg s).trans ?_
  cases code with
  | cursor axis forward => exact h.elim
  | wheel axis forward => exact h.elim
  | button n => exact ⟨rfl,rfl,rfl,rfl,rfl⟩
  | acceleration n => exact ⟨rfl,rfl,rfl,rfl,rfl⟩

theorem unmoved_repeats (s : State) :
    Unmoved s (let s := if moves s.report.cursor then s else { s with moveRepeat := 0 }
      if moves s.report.wheel then s else { s with wheelRepeat := 0 }) := by
  dsimp only
  split <;> split <;> exact ⟨rfl,rfl,rfl,rfl,rfl⟩

theorem mousekeyOff_unmoved {code : Code} (h : Quiet (.key code)) (s : State) :
    Unmoved s (mousekeyOff cfg code s) := by
  refine Unmoved.trans ?_ (unmoved_repeats _)
  cases code with
  | cursor axis forward => exact h.elim
  | wheel axis forward => exact h.elim
  | button n => exact ⟨rfl,rfl,rfl,rfl,rfl⟩
  | acceleration n => exact ⟨rfl,rfl,rfl,rfl,rfl⟩

theorem Held.zero {down : Code → Bool} {key : Bool → Code} : Held down key 0 :=
  ⟨fun h => absurd h (by decide),fun h => absurd h (by decide)⟩

theorem Held.of_up {down : Code → Bool} {key : Bool → Code} {n : Int} (h : Held down key n)
    (hup : ∀ forward, down (key forward) = false) : n = 0 := by
  have hf : ¬0 < n := fun hn => by simpa [hup] using h.1 hn
  have hb : ¬n < 0 := fun hn => by simpa [hup] using h.2 hn
  omega

theorem Held.press {down : Code → Bool} {key : Bool → Code} {n : Int} (h : Held down key n)
    (code : Code) : Held (Function.update down code true) key n := by
  constructor
  · intro hn
    by_cases hk : key true = code
    · rw [hk, Function.update_self]
    · rw [Function.update_of_ne hk]
      exact h.1 hn
  · intro hn
    by_cases hk : key false = code
    · rw [hk, Function.update_self]
    · rw [Function.update_of_ne hk]
      exact h.2 hn

theorem Held.pressed (down : Code → Bool) (key : Bool → Code) (forward : Bool) {n : Int}
    (hn : if forward then 0 ≤ n else n ≤ 0) :
    Held (Function.update down (key forward) true) key n := by
  cases forward with
  | false => exact ⟨fun h => absurd h (by simpa using hn),fun _ => Function.update_self ..⟩
  | true => exact ⟨fun _ => Function.update_self ..,fun h => absurd h (by simpa using hn)⟩

theorem Held.release {down : Code → Bool} {key : Bool → Code} {n : Int} (h : Held down key n)
    {code : Code} (hf : key true = code → n ≤ 0) (hb : key false = code → 0 ≤ n) :
    Held (Function.update down code false) key n := by
  constructor
  · intro hn
    rw [Function.update_of_ne fun hk => absurd (hf hk) (by omega)]
    exact h.1 hn
  · intro hn
    rw [Function.update_of_ne fun hk => absurd (hb hk) (by omega)]
    exact h.2 hn

structure Inv (cfg : Config) (v : World) : Prop where
  cursor : cfg.mode ≠ .inertia → ∀ axis, Held v.down (.cursor axis) (v.state.report.cursor axis)
  wheel : ∀ axis, Held v.down (.wheel axis) (v.state.report.wheel axis)
  dir : cfg.mode = .inertia → ∀ axis, Held v.down (.cursor axis) (v.state.dir axis)
  inertia : cfg.mode = .inertia → ∀ axis, (v.state.inertia axis).natAbs ≤ cfg.timeToMax.toNat
  idle : cfg.mode = .inertia → v.state.frame = 0 → ∀ axis, v.state.inertia axis = 0
  kept : Bounded cfg v.state.report
  sent : ∀ report ∈ v.sent, Bounded cfg report
  sent_cursor : cfg.mode ≠ .inertia → ∀ report ∈ v.sent, ∀ axis,
    report.cursor axis = 0 ∨ SameWay (report.cursor axis) (v.state.report.cursor axis)
  sent_wheel : ∀ report ∈ v.sent, ∀ axis,
    report.wheel axis = 0 ∨ SameWay (report.wheel axis) (v.state.report.wheel axis)

theorem start_inv : Inv cfg start where
  cursor _ _ := Held.zero
  wheel _ := Held.zero
  dir _ _ := Held.zero
  inertia _ _ := Nat.zero_le _
  idle _ _ _ := rfl
  kept := ⟨fun _ => Nat.zero_le _,fun _ => Nat.zero_le _⟩
  sent _ h := by simp [start] at h
  sent_cursor _ _ h := by simp [start] at h
  sent_wheel _ h := by simp [start] at h

theorem Inv.unmoved {v : World} (hv : Inv cfg v) {s : State} (h : Unmoved v.state s) :
    Inv cfg ⟨s,v.down,none⟩ where
  cursor hm axis := by simpa only [h.cursor] using hv.cursor hm axis
  wheel axis := by simpa only [h.wheel] using hv.wheel axis
  dir hm axis := by simpa only [h.dir] using hv.dir hm axis
  inertia hm axis := by simpa only [h.inertia] using hv.inertia hm axis
  idle hm hf axis := by
    simpa only [h.inertia] using hv.idle hm (h.frame ▸ hf) axis
  kept := ⟨by simpa only [h.cursor] using hv.kept.cursor,
    by simpa only [h.wheel] using hv.kept.wheel⟩
  sent _ h := by simp at h
  sent_cursor _ _ h := by simp at h
  sent_wheel _ h := by simp at h

section Edits

variable {down down' : Code → Bool}

theorem Inv.keys (hv : Inv cfg ⟨s,down,none⟩)
    (hc : cfg.mode ≠ .inertia → ∀ axis, Held down' (.cursor axis) (s.report.cursor axis))
    (hw : ∀ axis, Held down' (.wheel axis) (s.report.wheel axis))
    (hd : cfg.mode = .inertia → ∀ axis, Held down' (.cursor axis) (s.dir axis)) :
    Inv cfg ⟨s,down',none⟩ :=
  { hv with cursor := hc, wheel := hw, dir := hd }

theorem Inv.press (hv : Inv cfg ⟨s,down,none⟩) (code : Code) :
    Inv cfg ⟨s,Function.update down code true,none⟩ :=
  hv.keys (fun hm axis => (hv.cursor hm axis).press code) (fun axis => (hv.wheel axis).press code)
    fun hm axis => (hv.dir hm axis).press code

theorem Inv.setCursor (hv : Inv cfg ⟨s,down,none⟩) (axis : Axis) {n : Int}
    (hh : cfg.mode ≠ .inertia → Held down (.cursor axis) n) (hn : n.natAbs ≤ cfg.moveMax) :
    Inv cfg ⟨setCursor axis n s,down,none⟩ :=
  { hv with
    cursor := by
      intro hm a
      by_cases ha : a = axis
      · rw [ha]
        simpa [MouseKeys.setCursor] using hh hm
      · simpa [MouseKeys.setCursor, ha] using hv.cursor hm a
    kept := by
      refine ⟨fun a => ?_,hv.kept.wheel⟩
      by_cases ha : a = axis
      · rw [ha]
        simpa [MouseKeys.setCursor] using hn
      · simpa [MouseKeys.setCursor, ha] using hv.kept.cursor a
    sent := by simp
    sent_cursor := by simp
    sent_wheel := by simp }

theorem Inv.setWheel (hv : Inv cfg ⟨s,down,none⟩) (axis : Axis) {n : Int}
    (hh : Held down (.wheel axis) n) (hn : n.natAbs ≤ cfg.wheelMax) :
    Inv cfg ⟨setWheel axis n s,down,none⟩ :=
  { hv with
    wheel := by
      intro a
      by_cases ha : a = axis
      · rw [ha]
        simpa [MouseKeys.setWheel] using hh
      · simpa [MouseKeys.setWheel, ha] using hv.wheel a
    kept := by
      refine ⟨hv.kept.cursor,fun a => ?_⟩
      by_cases ha : a = axis
      · rw [ha]
        simpa [MouseKeys.setWheel] using hn
      · simpa [MouseKeys.setWheel, ha] using hv.kept.wheel a
    sent := by simp
    sent_cursor := by simp
    sent_wheel := by simp }

theorem Inv.setDir (hv : Inv cfg ⟨s,down,none⟩) (axis : Axis) {n : Int}
    (hh : Held down (.cursor axis) n) :
    Inv cfg ⟨{ s with dir := Function.update s.dir axis n },down,none⟩ :=
  { hv with
    dir := by
      intro hm a
      by_cases ha : a = axis
      · rw [ha]
        simpa using hh
      · simpa [ha] using hv.dir hm a }

theorem Inv.setFrame (hv : Inv cfg ⟨s,down,none⟩) {frame : UInt8} (hf : frame ≠ 0) :
    Inv cfg ⟨{ s with frame := frame },down,none⟩ :=
  { hv with idle := fun _ h => absurd h hf }

end Edits

theorem signOf_way (forward : Bool) {unit : Nat} (hu : unit ≤ 127) :
    if forward then 0 ≤ int8 (unit*signOf forward) else int8 (unit*signOf forward) ≤ 0 := by
  rw [int8_signed hu]
  cases forward <;> simp

theorem signed_le (forward : Bool) {unit most : Nat} (hu : unit ≤ most) (hm : most ≤ 127) :
    (int8 (unit*signOf forward)).natAbs ≤ most := by
  rw [int8_signed (Nat.le_trans hu hm)]
  cases forward <;> simp [hu]

theorem Inv.on {v : World} (hv : Inv cfg v) (code : Code) :
    Inv cfg ⟨mousekeyOn cfg code v.state,Function.update v.down code true,none⟩ := by
  have ho := (hv.unmoved (@overlap_unmoved cfg v.state)).press code
  cases code with
  | cursor axis forward =>
    by_cases hm : cfg.mode = .inertia
    · have hd := ho.setDir axis
        (Held.pressed v.down (.cursor axis) forward (n := signOf forward)
          (by cases forward <;> simp [signOf]))
      by_cases hf : (overlap cfg v.state).frame < 2
      · have hs := (hd.setFrame (show (1 : UInt8) ≠ 0 by decide)).setCursor axis (absurd hm)
          (inertiaUnit_le 1 ((overlap cfg v.state).inertia axis) (signOf forward))
        simpa [mousekeyOn, hm, hf] using hs
      · simpa [mousekeyOn, hm, hf] using hd
    · have hc := ho.setCursor axis (fun _ => Held.pressed v.down (.cursor axis) forward
          (signOf_way forward (Nat.le_trans (@moveUnit_le cfg (overlap cfg v.state))
            cfg.moveMax_le)))
        (signed_le forward (moveUnit_le _) cfg.moveMax_le)
      simpa [mousekeyOn, hm] using hc
  | wheel axis forward =>
    exact ho.setWheel axis (Held.pressed v.down (.wheel axis) forward
      (signOf_way forward (Nat.le_trans (wheelUnit_le _) cfg.wheelMax_le)))
      (signed_le forward (wheelUnit_le _) cfg.wheelMax_le)
  | button n => exact ho.unmoved ⟨rfl,rfl,rfl,rfl,rfl⟩
  | acceleration n => exact ho.unmoved ⟨rfl,rfl,rfl,rfl,rfl⟩

theorem Inv.release {down : Code → Bool} (hv : Inv cfg ⟨s,down,none⟩) (code : Code)
    (hc : cfg.mode ≠ .inertia → ∀ axis forward, code = .cursor axis forward →
      if forward then s.report.cursor axis ≤ 0 else 0 ≤ s.report.cursor axis)
    (hw : ∀ axis forward, code = .wheel axis forward →
      if forward then s.report.wheel axis ≤ 0 else 0 ≤ s.report.wheel axis)
    (hd : cfg.mode = .inertia → ∀ axis forward, code = .cursor axis forward →
      if forward then s.dir axis ≤ 0 else 0 ≤ s.dir axis) :
    Inv cfg ⟨s,Function.update down code false,none⟩ :=
  hv.keys
    (fun hm axis => (hv.cursor hm axis).release (fun hk => hc hm axis true hk.symm)
      fun hk => hc hm axis false hk.symm)
    (fun axis => (hv.wheel axis).release (fun hk => hw axis true hk.symm)
      fun hk => hw axis false hk.symm)
    fun hm axis => (hv.dir hm axis).release (fun hk => hd hm axis true hk.symm)
      fun hk => hd hm axis false hk.symm

theorem Inv.off {v : World} (hv : Inv cfg v) (code : Code) :
    Inv cfg ⟨mousekeyOff cfg code v.state,Function.update v.down code false,none⟩ := by
  have h0 : Inv cfg ⟨v.state,v.down,none⟩ := hv.unmoved ⟨rfl,rfl,rfl,rfl,rfl⟩
  have hr := fun s h => @Inv.unmoved cfg ⟨s,Function.update v.down code false,none⟩ h _
    (unmoved_repeats s)
  cases code with
  | cursor axis forward =>
    refine hr _ ?_
    dsimp only
    by_cases hm : cfg.mode = .inertia
    · rw [if_pos hm]
      split
      · rename_i ho
        refine h0.release _ (absurd hm) (by simp) ?_
        rintro - a f ⟨⟩
        cases forward <;> simp [opposes, signOf] at ho ⊢ <;> omega
      · refine (h0.setDir axis Held.zero).release _ (absurd hm) (by simp) ?_
        rintro - a f ⟨⟩
        simp
    · rw [if_neg hm]
      split
      · refine (h0.setCursor axis (fun _ => Held.zero) (Nat.zero_le _)).release _ ?_ (by simp)
          fun h => absurd h hm
        rintro - a f ⟨⟩
        simp [MouseKeys.setCursor]
      · rename_i ho
        refine h0.release _ ?_ (by simp) fun h => absurd h hm
        rintro - a f ⟨⟩
        cases forward <;> simp [signOf] at ho ⊢ <;> omega
  | wheel axis forward =>
    refine hr _ ?_
    dsimp only
    split
    · refine (h0.setWheel axis Held.zero (Nat.zero_le _)).release _ (by simp) ?_ (by simp)
      rintro a f ⟨⟩
      simp [MouseKeys.setWheel]
    · rename_i ho
      refine h0.release _ (by simp) ?_ (by simp)
      rintro a f ⟨⟩
      cases forward <;> simp [signOf] at ho ⊢ <;> omega
  | button n =>
    refine hr _ ?_
    dsimp only
    exact (h0.release (.button n) (by simp) (by simp) (by simp)).unmoved ⟨rfl,rfl,rfl,rfl,rfl⟩
  | acceleration n =>
    refine hr _ ?_
    dsimp only
    exact (h0.release (.acceleration n) (by simp) (by simp) (by simp)).unmoved
      ⟨rfl,rfl,rfl,rfl,rfl⟩

theorem Inv.sends {v : World} (hv : Inv cfg v) (now : UInt16) :
    Inv cfg ⟨mousekeySend v.state.report now v.state,v.down,some v.state.report⟩ := by
  have hu : Unmoved v.state (mousekeySend v.state.report now v.state) :=
    ⟨by simp,by simp,by simp,by simp,by simp⟩
  refine { hv.unmoved hu with sent := ?_, sent_cursor := ?_, sent_wheel := ?_ }
  · rintro report ⟨⟩
    exact hv.kept
  · rintro hm report ⟨⟩ axis
    rw [mousekeySend_report]
    exact .inr ⟨Iff.rfl,Iff.rfl⟩
  · rintro report ⟨⟩ axis
    rw [mousekeySend_report]
    exact .inr ⟨Iff.rfl,Iff.rfl⟩

theorem cursorPart_of_inertia (hm : cfg.mode = .inertia) (s : State) :
    cursorPart cfg now s = inertiaStep cfg now s := if_pos hm

theorem cursorPart_of_ne (hm : cfg.mode ≠ .inertia) (s : State) :
    cursorPart cfg now s = cursorStep cfg now s := if_neg hm

theorem cursorPart_le (s : State) (axis : Axis) :
    ((cursorPart cfg now s).1 axis).natAbs ≤ cfg.moveMax := by
  by_cases hm : cfg.mode = .inertia
  · rw [cursorPart_of_inertia hm, (inertiaStep_spec s).2.2.1]
    split
    · exact inertiaUnit_le _ _ _
    · exact Nat.zero_le _
  · rw [cursorPart_of_ne hm]
    exact (cursorStep_way s axis).1

theorem task_cursor_of_ne (hm : cfg.mode ≠ .inertia) (s : State) :
    (mousekeyTask cfg now s).1.report = s.report := by
  rw [task_report, cursorPart_of_ne hm, cursorStep_snd]

theorem Inv.task {v : World} (hv : Inv cfg v) (now : UInt16) :
    Inv cfg ⟨(mousekeyTask cfg now v.state).1,v.down,(mousekeyTask cfg now v.state).2⟩ := by
  obtain ⟨hwheel,-,-,hdir⟩ := @cursorPart_wheel cfg now v.state
  have hw : (mousekeyTask cfg now v.state).1.report.wheel = v.state.report.wheel := by
    rw [task_report, hwheel]
  obtain ⟨-,hi,-,hc,-,hf⟩ := @inertiaStep_spec cfg now v.state
  constructor
  · intro hm axis
    simpa only [task_cursor_of_ne hm] using hv.cursor hm axis
  · intro axis
    simpa only [hw] using hv.wheel axis
  · intro hm axis
    simpa only [task_dir, hdir] using hv.dir hm axis
  · intro hm axis
    rw [task_inertia, cursorPart_of_inertia hm, hi]
    split
    · exact calcInertia_le hm (hv.inertia hm axis)
    · exact hv.inertia hm axis
  · intro hm hz axis
    rw [task_frame, cursorPart_of_inertia hm] at hz
    rw [task_inertia, cursorPart_of_inertia hm]
    rcases hf hz with h0 | h0
    · rw [hi, if_neg fun h => h.1 h0]
      exact hv.idle hm h0 axis
    · exact h0 axis
  · refine ⟨fun axis => ?_,fun axis => by simpa only [hw] using hv.kept.wheel axis⟩
    by_cases hm : cfg.mode = .inertia
    · dsimp only
      rw [task_report, cursorPart_of_inertia hm]
      rcases hc axis with h | h
      · rw [h]
        exact hv.kept.cursor axis
      · rw [h]
        exact Nat.zero_le _
    · simpa only [task_cursor_of_ne hm] using hv.kept.cursor axis
  · intro report hr
    obtain ⟨hrc,hrw⟩ := task_sent hr
    exact ⟨fun axis => hrc ▸ cursorPart_le v.state axis,
      fun axis => hrw ▸ (wheelStep_way _ axis).1⟩
  · intro hm report hr axis
    obtain ⟨hrc,-⟩ := task_sent hr
    simp only [task_cursor_of_ne hm]
    rw [hrc, cursorPart_of_ne hm]
    exact (cursorStep_way v.state axis).2.1
  · intro report hr axis
    obtain ⟨-,hrw⟩ := task_sent hr
    simp only [hw, ← hwheel]
    rw [hrw]
    exact (wheelStep_way _ axis).2.1

theorem inv_next {v : World} (hv : Inv cfg v) (input : Input) : Inv cfg (next cfg v input) := by
  cases input with
  | key code =>
    by_cases hd : v.down code = true
    · simpa [next, hd] using hv.off code
    · simpa [next, hd] using hv.on code
  | send now => exact hv.sends now
  | task now => exact hv.task now

theorem SameWay.eq_zero {n : Int} (h : SameWay n 0) : n = 0 := by
  obtain ⟨hf,hb⟩ := h
  omega

theorem AllUp.wheel {v : World} (hup : AllUp v) (hv : Inv cfg v) (axis : Axis) :
    v.state.report.wheel axis = 0 ∧ ∀ report ∈ v.sent, report.wheel axis = 0 := by
  have hw := (hv.wheel axis).of_up fun forward => (hup axis forward).2
  refine ⟨hw,fun report hr => ?_⟩
  rcases hv.sent_wheel report hr axis with h | h
  · exact h
  · exact SameWay.eq_zero (hw ▸ h)

theorem AllUp.stopped_of_ne {v : World} (hup : AllUp v) (hv : Inv cfg v)
    (hm : cfg.mode ≠ .inertia) : Stopped v := by
  have hc := fun axis => (hv.cursor hm axis).of_up fun forward => (hup axis forward).1
  refine ⟨fun axis => ⟨hc axis,(hup.wheel hv axis).1⟩,fun report hr axis =>
    ⟨?_,(hup.wheel hv axis).2 report hr⟩⟩
  rcases hv.sent_cursor hm report hr axis with h | h
  · exact h
  · exact SameWay.eq_zero (hc axis ▸ h)

theorem AllUp.next {v : World} (hup : AllUp v) {input : Input} (hq : Quiet input) :
    AllUp (next cfg v input) := by
  cases input with
  | key code =>
    have hk : ∀ axis forward, Code.cursor axis forward ≠ code ∧ Code.wheel axis forward ≠ code := by
      rintro axis forward
      exact ⟨by rintro rfl; exact hq,by rintro rfl; exact hq⟩
    intro axis forward
    by_cases hd : v.down code = true
    · simpa [MouseKeys.next, hd, hk axis forward] using hup axis forward
    · simpa [MouseKeys.next, hd, hk axis forward] using hup axis forward
  | send now => exact hup
  | task now => exact hup

/-- The velocities are no more than `left`. -/
def Slowing (left : Nat) (v : World) : Prop :=
  (∀ axis, (v.state.inertia axis).natAbs ≤ left) ∧ (left = 0 → Stopped v)

def framesOf (cfg : Config) (v : World) : Input → Nat
  | .task now => (due cfg v.state now).toNat
  | _ => 0

theorem Slowing.unmoved {v : World} {left : Nat} (hs : Slowing left v) {s : State}
    (h : Unmoved v.state s) (down : Code → Bool) : Slowing left ⟨s,down,none⟩ := by
  refine ⟨by simpa only [h.inertia] using hs.1,fun h0 => ⟨fun axis => ?_,by simp⟩⟩
  simpa only [h.cursor, h.wheel] using (hs.2 h0).1 axis

theorem Slowing.inertia {v : World} {left : Nat} (hs : Slowing left v) (hv : Inv cfg v)
    (hd : ∀ axis, v.state.dir axis = 0) (hm : cfg.mode = .inertia) (now : UInt16) (axis : Axis) :
    ((inertiaStep cfg now v.state).2.inertia axis).natAbs
      ≤ left-(due cfg v.state now).toNat := by
  have hl := hs.1 axis
  rw [(inertiaStep_spec v.state).2.1]
  split
  · rename_i hf
    rw [hf.2, Bool.toNat_true]
    dsimp only
    by_cases h0 : v.state.inertia axis = 0
    · rw [hd, h0, calcInertia_zero]
      exact Nat.zero_le _
    · have hlt := calcInertia_slows hm (hv.inertia hm axis) (hd axis) h0
      omega
  · rename_i hf
    cases hdue : due cfg v.state now with
    | false => exact hl
    | true =>
      have hz : v.state.frame = 0 := by
        by_contra hn
        exact hf ⟨hn,hdue⟩
      rw [hv.idle hm hz axis]
      exact Nat.zero_le _

theorem Slowing.next {v : World} {left : Nat} (hs : Slowing left v) (hv : Inv cfg v) (hup : AllUp v)
    (hm : cfg.mode = .inertia) {input : Input} (hq : Quiet input) :
    Slowing (left-framesOf cfg v input) (next cfg v input) := by
  cases input with
  | key code =>
    by_cases hd : v.down code = true
    · simpa [MouseKeys.next, framesOf, hd] using hs.unmoved (mousekeyOff_unmoved hq v.state) _
    · simpa [MouseKeys.next, framesOf, hd] using hs.unmoved (mousekeyOn_unmoved hq v.state) _
  | send now =>
    refine ⟨fun axis => ?_,fun h0 => ⟨fun axis => ?_,?_⟩⟩
    · simpa [MouseKeys.next, framesOf] using hs.1 axis
    · simpa [MouseKeys.next] using (hs.2 h0).1 axis
    · rintro report ⟨⟩
      exact (hs.2 h0).1
  | task now =>
    have hd := fun axis => (hv.dir hm axis).of_up fun forward => (hup axis forward).1
    have hi := hs.inertia hv hd hm now
    have hn := inv_next hv (.task now)
    refine ⟨fun axis => ?_,fun h0 => ?_⟩
    · simpa only [MouseKeys.next, task_inertia, cursorPart_of_inertia hm, framesOf] using hi axis
    · have hz : ∀ axis, (inertiaStep cfg now v.state).2.inertia axis = 0 := by
        intro axis
        have hle := hi axis
        simp only [framesOf] at h0
        omega
      have hw := AllUp.wheel (hup.next hq) hn
      refine ⟨fun axis => ⟨?_,(hw axis).1⟩,fun report hr axis => ⟨?_,(hw axis).2 report hr⟩⟩
      · simp only [MouseKeys.next, task_report, cursorPart_of_inertia hm]
        exact (inertiaStep_spec v.state).2.2.2.2.1 hd hz axis
      · obtain ⟨hrc,-⟩ := task_sent hr
        have hspec := @inertiaStep_spec cfg now v.state
        rw [hrc, cursorPart_of_inertia hm, hspec.2.2.1]
        split
        · rename_i hf
          have hza := hz axis
          rw [hspec.2.1, if_pos hf] at hza
          dsimp only at hza ⊢
          rw [hza, hd, inertiaUnit_zero]
        · rfl

theorem frames_cons (v : World) (input : Input) (more : List Input) :
    frames cfg v (input::more) = framesOf cfg v input+frames cfg (next cfg v input) more := by
  cases input <;> simp [frames, framesOf]

theorem Slowing.run {v : World} {left : Nat} (hs : Slowing left v) (hv : Inv cfg v) (hup : AllUp v)
    (hm : cfg.mode = .inertia) {more : List Input} (hq : ∀ input ∈ more, Quiet input)
    (hl : left ≤ frames cfg v more) : Stopped (more.foldl (MouseKeys.next cfg) v) := by
  induction more generalizing left v with
  | nil => exact hs.2 (Nat.le_zero.mp hl)
  | cons input more ih =>
    have hqi := hq input (by simp)
    rw [frames_cons] at hl
    exact ih (hs.next hv hup hm hqi) (inv_next hv input) (hup.next hqi)
      (fun i h => hq i (by simp [h])) (by omega)

theorem Inv.stops {v : World} (hv : Inv cfg v) (hup : AllUp v) {more : List Input}
    (hq : ∀ input ∈ more, Quiet input)
    (hf : cfg.mode = .inertia → cfg.timeToMax.toNat ≤ frames cfg v more) :
    Stopped (more.foldl (next cfg) v) := by
  by_cases hm : cfg.mode = .inertia
  · have h1 := cfg.timeToMax_pos hm
    have hs : Slowing cfg.timeToMax.toNat v := ⟨hv.inertia hm,fun h => absurd h (by omega)⟩
    exact hs.run hv hup hm hq (hf hm)
  · clear hf
    induction more generalizing v with
    | nil => exact hup.stopped_of_ne hv hm
    | cons input more ih =>
      exact ih (inv_next hv input) (hup.next (hq input (by simp))) fun i h => hq i (by simp [h])

theorem Inv.slows {v : World} (hv : Inv cfg v) (hm : cfg.mode = .inertia) {now : UInt16}
    (hf : v.state.frame ≠ 0) (hdue : due cfg v.state now = true) {axis : Axis}
    (hd : v.state.dir axis = 0) (h0 : v.state.inertia axis ≠ 0) :
    ((mousekeyTask cfg now v.state).1.inertia axis).natAbs < (v.state.inertia axis).natAbs := by
  rw [task_inertia, cursorPart_of_inertia hm, (inertiaStep_spec v.state).2.1, if_pos ⟨hf,hdue⟩]
  exact calcInertia_slows hm (hv.inertia hm axis) hd h0

theorem task_way {report : Report} (hr : report ∈ (mousekeyTask cfg now s).2) (axis : Axis) :
    (cfg.mode ≠ .inertia → due cfg s now = true →
      SameWay (report.cursor axis) (s.report.cursor axis)) ∧
    (dueWheel cfg s now = true → SameWay (report.wheel axis) (s.report.wheel axis)) := by
  obtain ⟨hrc,hrw⟩ := task_sent hr
  constructor
  · intro hm hd
    rw [hrc, cursorPart_of_ne hm]
    exact (cursorStep_way s axis).2.2 hd
  · intro hd
    obtain ⟨hw,ht,hrep,-⟩ := @cursorPart_wheel cfg now s
    have hdue : dueWheel cfg (cursorPart cfg now s).2 now = true := by
      simpa only [dueWheel, ht, hrep] using hd
    have h := (wheelStep_way (cursorPart cfg now s).2 axis).2.2 hdue
    rwa [← hrw, hw] at h

/-- Mouse keys do not drift. -/
theorem no_drift (cfg : Config) (inputs : List Input) :
    NoDrift cfg (inputs.foldl (next cfg) start) := by
  have hv : Inv cfg (inputs.foldl (next cfg) start) :=
    List.foldlRecOn inputs (next cfg) start_inv fun _ h input _ => inv_next h input
  exact
    { cursor := hv.cursor
      wheel := hv.wheel
      dir := hv.dir
      slows := fun hm _ hf hdue _ => hv.slows hm hf hdue
      kept_le := hv.kept
      sent_le := hv.sent
      way := fun _ _ hr axis => task_way hr axis
      stops := fun hup _ hq hf => hv.stops hup hq hf }

end QmkFirmware.MouseKeys
