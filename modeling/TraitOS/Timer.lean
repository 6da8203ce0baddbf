import TraitOS.Tsys
import TraitOS.TtaskSwitch

/-!
# Ticks

`timer_callback` first lets the scheduler switch and counts the tick afterwards. A task that
is preempted is therefore suspended inside the handler with its tick not yet counted, and
counts it when it runs again. Below, the switch machine runs together with the counter, and
each slot knows whether its task is suspended there. The sleeping of a task is a comparison
of the counter with a point in time.
-/
namespace TraitOS.Timer
open MachineWord Runs Ttask Tsys

variable {op : SchedOp}

structure Clock where
  machine : Machine
  /-- The task of the slot is suspended inside `timer_callback`. -/
  inTimer : ℕ → Bool
  tickCount : ℕ
  /-- The interrupts the timer has delivered. -/
  delivered : ℕ

def bootClock (kernel bootStackTop : ℕ) (hk : kernel ≠ 0) : Clock :=
  ⟨bootMachine kernel bootStackTop hk, fun _ => false, 0, 0⟩

/-- The slot whose stack gets a fresh frame. -/
def freshSlot (s : Sched) : SchedOp → Option ℕ
  | .create fn arg stack => (ttaskCreate s fn arg stack).2
  | .createUser entry aspace userRsp stack => (ttaskCreateUser s entry aspace userRsp stack).2
  | _ => none

namespace Clock

/-- The end of `timer_callback`. -/
def count (c : Clock) : Clock := { c with tickCount := incr32 c.tickCount }

/-- The running slot continues; if it was suspended in the handler, the handler ends. -/
def resume (c : Clock) : Clock :=
  if c.inTimer c.machine.sched.current then
    count { c with inTimer := Function.update c.inTimer c.machine.sched.current false }
  else c

/-- The table after a call: who runs has changed, or has not. -/
def after (c : Clock) (tick : Bool) (m : Machine) : Clock :=
  if m.sched.current = c.machine.sched.current then
    if tick then count { c with machine := m } else { c with machine := m }
  else resume { c with
    machine := m
    inTimer := Function.update c.inTimer c.machine.sched.current tick }

end Clock

def timerStep (c : Clock) (op : SchedOp) : Option Clock :=
  (switchStep c.machine op).map fun m =>
    Clock.after { c with
      delivered := if op = .tick then c.delivered + 1 else c.delivered
      inTimer := (freshSlot c.machine.sched op).elim c.inTimer fun i =>
        Function.update c.inTimer i false }
      (op = .tick) m

/-! ## The counter and the suspended handlers -/

/-- The slots whose tasks are suspended in the handler. -/
def suspended (inTimer : ℕ → Bool) : Finset ℕ :=
  (Finset.range maxTasks).filter fun i => inTimer i = true

structure Counts (c : Clock) : Prop where
  running : c.machine.halted = true ∨ c.machine.sched.state c.machine.sched.current = .ready
  ready : ∀ i, c.inTimer i = true → i < maxTasks ∧ i ≠ c.machine.sched.current ∧
    c.machine.sched.state i = .ready
  lt : c.tickCount < 2 ^ 32
  total : (c.tickCount + (suspended c.inTimer).card) % 2 ^ 32 = c.delivered % 2 ^ 32

lemma card_suspended_set {inTimer : ℕ → Bool} {i : ℕ} (hi : i < maxTasks) (h : inTimer i = false) :
    (suspended (Function.update inTimer i true)).card = (suspended inTimer).card + 1 := by
  have heq : suspended (Function.update inTimer i true) = insert i (suspended inTimer) := by
    ext j
    by_cases hj : j = i
    · simp [suspended, hj, hi]
    · simp [suspended, hj]
  rw [heq, Finset.card_insert_of_notMem (by simp [suspended, h])]

lemma card_suspended_clear {inTimer : ℕ → Bool} {i : ℕ} (hi : i < maxTasks) (h : inTimer i = true) :
    (suspended (Function.update inTimer i false)).card + 1 = (suspended inTimer).card := by
  have hcleared : Function.update inTimer i false i = false := Function.update_self i _ _
  have hself := card_suspended_set hi hcleared
  rw [Function.update_idem, ← h, Function.update_eq_self] at hself
  exact hself.symm

lemma card_suspended_le (inTimer : ℕ → Bool) : (suspended inTimer).card ≤ maxTasks := by
  have hle := Finset.card_filter_le (Finset.range maxTasks) fun i => inTimer i = true
  rwa [Finset.card_range] at hle

/-- The counter is exact if and only if no task is suspended in the handler. -/
theorem Counts.exact_iff {c : Clock} (h : Counts c) : c.tickCount = c.delivered % 2 ^ 32 ↔
    ∀ i, c.inTimer i = false := by
  have hlt := h.lt
  have htotal := h.total
  have hle := card_suspended_le c.inTimer
  have hcard : (suspended c.inTimer).card = 0 ↔ ∀ i, c.inTimer i = false := by
    rw [Finset.card_eq_zero, suspended, Finset.filter_eq_empty_iff]
    constructor
    · intro hnone i
      by_contra hi
      rw [Bool.not_eq_false] at hi
      exact hnone (Finset.mem_range.mpr (h.ready i hi).1) hi
    · exact fun hnone i _ => by simp [hnone i]
  unfold maxTasks at hle
  rw [← hcard]
  omega

/-! ## Steps -/

lemma pickNext_ready {s : Sched} (h : ttaskPickNext s ≠ s.current) : s.state (ttaskPickNext s) =
    .ready := by
  obtain ⟨heq, _⟩ | ⟨_, hready, _⟩ := ttaskPickNext_spec s
  · exact absurd heq h
  · exact hready

/-- What a call does to the table, for a READY caller. -/
structure TableStep (m : Machine) (op : SchedOp) (m' : Machine) : Prop where
  running : m'.halted = true ∨ m'.sched.state m'.sched.current = .ready
  others : ∀ i, i ≠ m.sched.current → m.sched.state i = .ready → m'.sched.state i = .ready
  caller : op = .tick → m'.sched.state m.sched.current = .ready

lemma tableStep_pickSwitch {m m₁ : Machine} (hhalt : m₁.sched.current = m.sched.current)
    (hstate : ∀ i, m₁.sched.state i = m.sched.state i)
    (hready : m.sched.state m.sched.current = .ready) : TableStep m op m₁.pickSwitch := by
  have hsched := (pickSwitch_spec m₁).1
  have hst (i : ℕ) : m₁.pickSwitch.sched.state i = m.sched.state i := by
    rw [hsched, ttaskPickSwitch_state, hstate]
  refine ⟨Or.inr ?_, fun i _ hr => (hst i).trans hr, fun _ => (hst _).trans hready⟩
  rw [hst, hsched, ttaskPickSwitch_current, ← hstate]
  by_cases h : ttaskPickNext m₁.sched = m₁.sched.current
  · rw [h, hhalt, hstate, hready]
  · exact pickNext_ready h

lemma tableStep_place (m : Machine) (hop : op ≠ .tick)
    (hready : m.sched.state m.sched.current = .ready) (t : Task) (stack : ℕ) :
    TableStep m op (m.place (placeTask m.sched t stack)) := by
  have hsched := (place_spec m (placeTask m.sched t stack)).1
  have hkeep : (placeTask m.sched t stack).1.current = m.sched.current ∧
      ∀ i, m.sched.state i = .ready → (placeTask m.sched t stack).1.state i = .ready := by
    obtain ⟨heq, _⟩ | ⟨i, _, hfree, ⟨_, heq⟩ | ⟨_, heq⟩⟩ := placeTask_cases m.sched t stack
    · rw [heq]
      exact ⟨rfl, fun _ h => h⟩
    all_goals
      rw [heq]
      refine ⟨rfl, fun j hj => ?_⟩
      have hne : j ≠ i := by
        rintro rfl
        rw [hj] at hfree
        exact absurd hfree (by decide)
      rw [Sched.setTask_state, if_neg hne, hj]
  refine ⟨Or.inr ?_, fun i _ hr => hsched ▸ hkeep.2 i hr, fun h => absurd h hop⟩
  rw [hsched, hkeep.1]
  exact hkeep.2 _ hready

lemma tableStep_block (m : Machine) : TableStep m .block m.block := by
  have hsched := (block_spec m).1
  refine ⟨Or.inr ?_, fun i hne hr => ?_, SchedOp.noConfusion⟩
  · rw [hsched, ttaskBlock_current, ttaskBlock_state]
    by_cases h : ttaskPickNext (park m.sched) = m.sched.current
    · rw [if_pos h, if_neg]
      rintro ⟨j, hj, hne, hr⟩
      obtain ⟨_, honly⟩ | ⟨_, hready, _⟩ := ttaskPickNext_spec (park m.sched)
      · exact hne (honly j hj (by rw [park_state, if_neg hne, hr]))
      · rw [h, park_state, if_pos rfl] at hready
        exact absurd hready (by decide)
    · have hready := pickNext_ready h
      rw [park_state, if_neg h] at hready
      rw [if_neg h, hready]
  · rw [hsched, ttaskBlock_state, if_neg hne, hr]

lemma tableStep_exit (m : Machine) : TableStep m .exit m.exit := by
  obtain ⟨s, hs⟩ : ∃ s, s = m.sched.setTask m.sched.current
      { m.sched.tasks m.sched.current with state := .exited } := ⟨_, rfl⟩
  have hcur : s.current = m.sched.current := by rw [hs, Sched.setTask_current]
  have hst (i : ℕ) (hne : i ≠ m.sched.current) : s.state i = m.sched.state i := by
    rw [hs, Sched.setTask_state, if_neg hne]
  unfold Machine.exit
  dsimp only
  rw [← hs]
  by_cases h : ttaskPickNext s = m.sched.current
  · rw [if_pos h]
    exact ⟨Or.inl rfl, fun i hne hr => (hst i hne).trans hr, SchedOp.noConfusion⟩
  · rw [if_neg h]
    have hsched := (pickSwitch_spec { m with sched := s }).1
    refine ⟨Or.inr ?_, fun i hne hr => ?_, SchedOp.noConfusion⟩
    · rw [hsched, ttaskPickSwitch_state, ttaskPickSwitch_current]
      exact pickNext_ready (by rwa [hcur])
    · rw [hsched, ttaskPickSwitch_state]
      exact (hst i hne).trans hr

theorem switchStep_table {m m' : Machine} (h : switchStep m op = some m')
    (hready : m.sched.state m.sched.current = .ready) : TableStep m op m' := by
  unfold switchStep at h
  split_ifs at h
  cases op with
  | create fn arg stack =>
    cases h
    exact tableStep_place m SchedOp.noConfusion hready _ _
  | createUser entry aspace userRsp stack =>
    dsimp only at h
    split_ifs at h
    cases h
    unfold ttaskCreateUser
    split_ifs
    · exact tableStep_place m SchedOp.noConfusion hready _ _
    · exact tableStep_place m SchedOp.noConfusion hready _ _
  | tick =>
    cases h
    refine tableStep_pickSwitch rfl (fun i => ?_) hready
    rw [Sched.setTask_state]
    split_ifs with hi
    · rw [hi]
      rfl
    · rfl
  | yield =>
    cases h
    exact tableStep_pickSwitch rfl (fun _ => rfl) hready
  | block =>
    cases h
    exact tableStep_block m
  | wake id =>
    cases h
    have hkeep (i : ℕ) (hr : m.sched.state i = .ready) : (ttaskWake m.sched id).state i =
      .ready := by
      rw [ttaskWake_state]
      split_ifs
      · rfl
      · exact hr
    refine ⟨Or.inr ?_, fun i _ hr => hkeep i hr, SchedOp.noConfusion⟩
    rw [ttaskWake_current]
    exact hkeep _ hready
  | exit =>
    cases h
    exact tableStep_exit m

lemma freshSlot_unused {s : Sched} {i : ℕ} (h : freshSlot s op = some i) : s.state i ≠ .ready := by
  have hplace (t : Task) (stack : ℕ) (h : (placeTask s t stack).2 = some i) : s.state i ≠
    .ready := by
    obtain ⟨_, hnone⟩ | ⟨j, _, hfree, ⟨_, heq⟩ | ⟨_, heq⟩⟩ := placeTask_cases s t stack
    · exact nomatch hnone.symm.trans h
    · rw [heq] at h
      exact nomatch h
    · rw [heq] at h
      cases h
      exact fun hr => absurd (hr ▸ hfree) (by decide)
  cases op with
  | create fn arg stack => exact hplace _ _ h
  | createUser entry aspace userRsp stack =>
    simp only [freshSlot, ttaskCreateUser] at h
    split_ifs at h
    · exact hplace _ _ h
    · exact hplace _ _ h
  | tick | yield | block | wake | exit => exact nomatch h

/-- One step of the clock: a new task takes a slot that was suspended nowhere. -/
lemma timerStep_eq {c c' : Clock} (hc : Counts c) (h : timerStep c op = some c') :
    ∃ m, switchStep c.machine op = some m ∧ c' = Clock.after
      { c with delivered := if op = .tick then c.delivered + 1 else c.delivered } (op =
        .tick) m := by
  obtain ⟨m, hm, rfl⟩ := Option.map_eq_some_iff.mp h
  refine ⟨m, hm, ?_⟩
  have hsame : (freshSlot c.machine.sched op).elim c.inTimer (fun i =>
    Function.update c.inTimer i false) = c.inTimer := by
    cases hfresh : freshSlot c.machine.sched op with
    | none => rfl
    | some i =>
      have hfalse : c.inTimer i = false := by
        by_contra hi
        rw [Bool.not_eq_false] at hi
        exact freshSlot_unused hfresh (hc.ready i hi).2.2
      rw [Option.elim_some, ← hfalse, Function.update_eq_self]
  rw [hsame]

lemma not_halted {m m' : Machine} (h : switchStep m op = some m') : m.halted = false := by
  unfold switchStep at h
  split_ifs at h with hh
  exact Bool.not_eq_true _ ▸ hh

/-- Who runs next continues: a handler it was suspended in ends and counts its tick. -/
lemma resume_counts {c : Clock}
    (hrun : c.machine.halted = true ∨ c.machine.sched.state c.machine.sched.current = .ready)
    (hready : ∀ i, c.inTimer i = true → i < maxTasks ∧ c.machine.sched.state i = .ready)
    (hlt : c.tickCount < 2 ^ 32)
    (htotal : (c.tickCount + (suspended c.inTimer).card) % 2 ^ 32 = c.delivered % 2 ^ 32) :
    Counts c.resume := by
  unfold Clock.resume
  cases hin : c.inTimer c.machine.sched.current with
  | false =>
    rw [if_neg Bool.false_ne_true]
    refine ⟨hrun, fun i hi => ⟨(hready i hi).1, ?_, (hready i hi).2⟩, hlt, htotal⟩
    rintro rfl
    exact Bool.false_ne_true (hin.symm.trans hi)
  | true =>
    rw [if_pos rfl]
    refine ⟨hrun, fun i hi => ?_, Nat.mod_lt _ (by decide), ?_⟩
    · have hne : i ≠ c.machine.sched.current := by
        rintro rfl
        exact Bool.false_ne_true ((Function.update_self ..).symm.trans hi)
      have hold : c.inTimer i = true := (Function.update_of_ne hne _ _).symm.trans hi
      exact ⟨(hready i hold).1, hne, (hready i hold).2⟩
    · have hcard := card_suspended_clear (hready _ hin).1 hin
      change (incr32 c.tickCount +
        (suspended (Function.update c.inTimer c.machine.sched.current false)).card) % 2 ^ 32 =
        c.delivered % 2 ^ 32
      unfold incr32
      omega

theorem counts_step {c c' : Clock} (hc : Counts c) (h : timerStep c op = some c') : Counts c' := by
  obtain ⟨m, hm, rfl⟩ := timerStep_eq hc h
  have hready : c.machine.sched.state c.machine.sched.current = .ready := by
    rcases hc.running with hhalt | hr
    · exact absurd ((not_halted hm).symm.trans hhalt) Bool.false_ne_true
    · exact hr
  obtain ⟨hrun, hothers, hcaller⟩ := switchStep_table hm hready
  have hlt := hc.lt
  have htotal := hc.total
  have hkept (i : ℕ) (hi : c.inTimer i = true) : m.sched.state i = .ready :=
    hothers i (hc.ready i hi).2.1 (hc.ready i hi).2.2
  unfold Clock.after
  by_cases hcur : m.sched.current = c.machine.sched.current
  · rw [if_pos hcur]
    have hin (i : ℕ) (hi : c.inTimer i = true) : i < maxTasks ∧ i ≠ m.sched.current ∧
      m.sched.state i = .ready :=
      ⟨(hc.ready i hi).1, by rw [hcur]; exact (hc.ready i hi).2.1, hkept i hi⟩
    by_cases htick : op = .tick
    · rw [decide_eq_true htick, if_pos rfl, if_pos htick]
      refine ⟨hrun, hin, Nat.mod_lt _ (by decide), ?_⟩
      change (incr32 c.tickCount + (suspended c.inTimer).card) % 2 ^ 32 = (c.delivered + 1) % 2 ^ 32
      unfold incr32
      omega
    · rw [decide_eq_false htick, if_neg Bool.false_ne_true, if_neg htick]
      exact ⟨hrun, hin, hlt, htotal⟩
  · rw [if_neg hcur]
    have hself : c.inTimer c.machine.sched.current = false := by
      by_contra hi
      rw [Bool.not_eq_false] at hi
      exact (hc.ready _ hi).2.1 rfl
    refine resume_counts hrun (fun i hi => ?_) hlt ?_
    · by_cases hi' : i = c.machine.sched.current
      · have htick : decide (op = .tick) = true := by
          rw [hi'] at hi
          exact (Function.update_self ..).symm.trans hi
        rw [hi']
        exact ⟨c.machine.sched.current_lt, hcaller (of_decide_eq_true htick)⟩
      · have hold : c.inTimer i = true := (Function.update_of_ne hi' _ _).symm.trans hi
        exact ⟨(hc.ready i hold).1, hkept i hold⟩
    · dsimp only
      by_cases htick : op = .tick
      · rw [decide_eq_true htick, if_pos htick, card_suspended_set c.machine.sched.current_lt hself]
        omega
      · rw [decide_eq_false htick, if_neg htick, ← hself, Function.update_eq_self]
        exact htotal

lemma counts_boot (kernel bootStackTop : ℕ) (hk : kernel ≠
    0) : Counts (bootClock kernel bootStackTop hk) :=
  ⟨Or.inr rfl, fun _ h => (nomatch h), Nat.two_pow_pos 32, by simp [bootClock, suspended]⟩

/-! ## Runs -/

def TicksExact (c : Clock) : Prop := c.tickCount = c.delivered % 2 ^ 32

/-- A tick leaves the running task on the CPU. -/
def NoTickSwitch (c : Clock) (op : SchedOp) : Prop :=
  op = .tick → (ttaskTick c.machine.sched).current = c.machine.sched.current

instance (c : Clock) (op : SchedOp) : Decidable (NoTickSwitch c op) :=
  inferInstanceAs (Decidable (_ → _))

lemma tick_sched {m m' : Machine} (h : switchStep m .tick = some m') : m'.sched =
    ttaskTick m.sched := by
  unfold switchStep at h
  split_ifs at h
  cases h
  exact (pickSwitch_spec _).1

/-- While nobody is suspended in the handler, only a tick that preempts suspends somebody. -/
lemma noneSuspended_iff {c c' : Clock} (hc : Counts c) (hnone : ∀ i, c.inTimer i = false)
    (h : timerStep c op = some c') : (∀ i, c'.inTimer i = false) ↔ NoTickSwitch c op := by
  obtain ⟨m, hm, rfl⟩ := timerStep_eq hc h
  unfold Clock.after NoTickSwitch
  by_cases hcur : m.sched.current = c.machine.sched.current
  · rw [if_pos hcur]
    refine iff_of_true (fun i => ?_) fun htick => ?_
    · by_cases htick : op = .tick
      · rw [decide_eq_true htick, if_pos rfl]
        exact hnone i
      · rw [decide_eq_false htick, if_neg Bool.false_ne_true]
        exact hnone i
    · subst htick
      rw [← tick_sched hm, hcur]
  · rw [if_neg hcur]
    by_cases htick : op = .tick
    · subst htick
      rw [← tick_sched hm]
      refine iff_of_false (fun hall => ?_) fun hsame => hcur (hsame rfl)
      -- the preempted task stays behind in the handler
      have hself := hall c.machine.sched.current
      rw [Clock.resume, if_neg] at hself
      · exact Bool.false_ne_true (hself.symm.trans (Function.update_self ..))
      · change ¬ Function.update c.inTimer _ _ m.sched.current = true
        rw [Function.update_of_ne hcur, hnone]
        exact Bool.false_ne_true
    · refine iff_of_true (fun i => ?_) fun h => absurd h htick
      have hsame : Function.update c.inTimer c.machine.sched.current (decide (op = .tick)) =
        c.inTimer := by
        rw [decide_eq_false htick, ← hnone c.machine.sched.current, Function.update_eq_self]
      rw [hsame, Clock.resume, if_neg]
      · exact hnone i
      · change ¬ c.inTimer m.sched.current = true
        rw [hnone]
        exact Bool.false_ne_true

/-- In a run from boot the counter is exact in a state if and only if no task is suspended in
the handler; and it is exact after every step if and only if no tick of the run switches
tasks. -/
theorem ticks_exact_iff (kernel bootStackTop : ℕ) (hk : kernel ≠ 0) (ops : List SchedOp) (c : Clock)
    (hrun : exec timerStep (bootClock kernel bootStackTop hk) ops = some c) :
    (TicksExact c ↔ ∀ i, c.inTimer i = false) ∧
    (Along timerStep (fun _ _ c' => TicksExact c') (bootClock kernel bootStackTop hk) ops ↔
      exec (guarded timerStep NoTickSwitch) (bootClock kernel bootStackTop hk) ops = some c) := by
  have hboot := counts_boot kernel bootStackTop hk
  refine ⟨(exec_invariant (fun _ _ _ hs h => counts_step hs h) ops hboot hrun).exact_iff, ?_⟩
  have hstep : ∀ s op t, Counts s ∧ (∀ i, s.inTimer i = false) → timerStep s op = some t →
      (TicksExact t ↔ NoTickSwitch s op) ∧ (NoTickSwitch s op → Counts t ∧ ∀ i, t.inTimer i =
        false) := by
    intro s op t ⟨hs, hnone⟩ h
    have ht := counts_step hs h
    have hiff := noneSuspended_iff hs hnone h
    exact ⟨ht.exact_iff.trans hiff, fun hno => ⟨ht, hiff.mpr hno⟩⟩
  exact along_iff_guarded hstep ops ⟨hboot, fun _ => rfl⟩ hrun

/-- The boot task alone: ticks keep it running and are all counted. -/
theorem ticks_exact_alone :
    ∃ c, exec timerStep (bootClock 0x7000 0x9000 (by decide)) [.tick, .tick, .tick] = some c ∧
      c.tickCount = 3 ∧
      Along timerStep (fun _ _ c' => TicksExact c') (bootClock 0x7000 0x9000 (by decide))
        [.tick, .tick, .tick] := by
  have hthree : (exec (guarded timerStep NoTickSwitch) (bootClock 0x7000 0x9000 (by decide))
    [.tick, .tick, .tick]).map
      Clock.tickCount = some 3 := by decide +kernel
  obtain ⟨c, hc, hcount⟩ := Option.map_eq_some_iff.mp hthree
  have hrun := exec_of_guarded _ hc
  exact ⟨c, hrun, hcount, (ticks_exact_iff 0x7000 0x9000 (by decide) _ c hrun).2.mpr hc⟩

/-- One tick preempts the boot task: the new task reads a counter that is one behind. -/
theorem preempting_tick_not_counted :
    ∃ c, exec timerStep (bootClock 0x7000 0x9000 (by decide)) [.create 0 0 0x5000, .tick] = some c ∧
      c.machine.sched.current = 1 ∧ c.delivered = 1 ∧ c.tickCount = 0 := by
  have hall : (exec timerStep (bootClock 0x7000 0x9000 (by decide)) [.create 0 0 0x5000, .tick]).map
      (fun c => (c.machine.sched.current, c.delivered, c.tickCount)) = some (1, 1, 0) := by
        decide +kernel
  obtain ⟨c, hc, heq⟩ := Option.map_eq_some_iff.mp hall
  simp only [Prod.mk.injEq] at heq
  exact ⟨c, hc, heq⟩

/-! ## Sleeping -/

/-- The point in time `TSYS_SLEEP` waits for. -/
def sleepUntil (start n : ℕ) : BitVec 64 := BitVec.ofNat 64 start + BitVec.ofNat 64 n

/-- The condition of the loop of `TSYS_SLEEP`, for a value of the counter. -/
def KeepsWaiting (now : ℕ) (wake : BitVec 64) : Prop := (BitVec.ofNat 64 now - wake).toInt < 0

instance (now : ℕ) (wake : BitVec 64) : Decidable (KeepsWaiting now wake) :=
  inferInstanceAs (Decidable (_ < _))

/-- The 64-bit difference does not wrap, so a counter that has wrapped looks like an earlier time.
-/
lemma keepsWaiting_iff {start n now : ℕ} (hs : start < 2 ^ 32) (hn : n < 2 ^ 31)
    (hnow : now < 2 ^ 32) : KeepsWaiting now (sleepUntil start n) ↔ now < start + n := by
  unfold KeepsWaiting sleepUntil
  rw [BitVec.toInt_eq_toNat_cond, BitVec.toNat_sub, BitVec.toNat_add]
  simp only [BitVec.toNat_ofNat]
  split_ifs <;> omega

lemma sleepLoop_ends (wake : BitVec 64) (later : List Sys) (s : Sys) :
    (sleepLoop wake later s).2 = true ↔ ∃ t ∈ s :: later, ¬ KeepsWaiting t.shared.ticks wake := by
  induction later generalizing s with
  | nil =>
    unfold sleepLoop
    rw [List.exists_mem_cons_iff]
    by_cases h : (BitVec.ofNat 64 s.shared.ticks - wake).toInt < 0
    · have hwaits : KeepsWaiting s.shared.ticks wake := h
      rw [if_pos h]
      simp [hwaits]
    · rw [if_neg h]
      exact iff_of_true rfl (Or.inl h)
  | cons next rest ih =>
    unfold sleepLoop
    rw [List.exists_mem_cons_iff]
    by_cases h : (BitVec.ofNat 64 s.shared.ticks - wake).toInt < 0
    · have hwaits : KeepsWaiting s.shared.ticks wake := h
      rw [if_pos h, ← ih next]
      simp [hwaits]
    · rw [if_neg h]
      exact iff_of_true rfl (Or.inl h)

lemma sysSleep_returns (s : Sys) (later : List Sys) (r : Registers) (ha1 : 0 ≤ r.a1) :
    (sysSleep s later r).rax.isSome = true ↔
      ∃ t ∈ s :: later,
        ¬ KeepsWaiting t.shared.ticks (BitVec.ofNat 64 s.shared.ticks + r.rdi) := by
  rw [← sleepLoop_ends]
  unfold sysSleep
  rw [if_neg (not_lt.mpr ha1)]
  dsimp only
  split_ifs with h <;> simp [h, returns, waits]

/-- The loop evaluates its condition after `k` ticks. It is right if and only if the time is
not over yet or the counter has not wrapped; and a call that evaluates it at every tick returns,
at the `n`-th one, if and only if the counter does not wrap before. -/
theorem sleep_exact_iff (start n : ℕ) (hs : start < 2 ^ 32) (hn : n < 2 ^ 31) :
    (∀ k < 2 ^ 31, (KeepsWaiting ((start + k) % 2 ^ 32) (sleepUntil start n) ↔ k < n) ↔
      k < n ∨ start + k < 2 ^ 32) ∧
    (∀ (s : Sys) (r : Registers) (later : List Sys),
      s.shared.ticks = start → r.rdi = BitVec.ofNat 64 n → later.length < 2 ^ 31 →
      (∀ i (hi : i < later.length), later[i].shared.ticks = (start + (i + 1)) % 2 ^ 32) →
      ((sysSleep s later r).rax.isSome = true ↔ n ≤ later.length ∧ start + n < 2 ^ 32)) := by
  refine ⟨fun k hk => ?_, fun s r later hticks hrdi hlength hlater => ?_⟩
  · rw [keepsWaiting_iff hs hn (Nat.mod_lt _ (by decide))]
    omega
  have ha1 : 0 ≤ r.a1 := by
    unfold Registers.a1
    rw [hrdi, BitVec.toInt_eq_toNat_cond, BitVec.toNat_ofNat]
    split_ifs <;> omega
  have hwake : BitVec.ofNat 64 s.shared.ticks + r.rdi = sleepUntil start n := by
    rw [hticks, hrdi, sleepUntil]
  rw [sysSleep_returns s later r ha1, hwake]
  constructor
  · rintro ⟨t, ht, hover⟩
    -- the state after `k` ticks
    obtain ⟨k, hk, htick⟩ : ∃ k ≤ later.length, t.shared.ticks = (start + k) % 2 ^ 32 := by
      rcases List.mem_cons.mp ht with rfl | ht
      · exact ⟨0, Nat.zero_le _, by omega⟩
      · obtain ⟨i, hi, rfl⟩ := List.getElem_of_mem ht
        exact ⟨i + 1, hi, hlater i hi⟩
    rw [htick, keepsWaiting_iff hs hn (Nat.mod_lt _ (by decide))] at hover
    omega
  · rintro ⟨hle, hlt⟩
    cases n with
    | zero =>
      refine ⟨s, List.mem_cons_self, ?_⟩
      rw [keepsWaiting_iff hs hn (by omega)]
      omega
    | succ n =>
      refine ⟨later[n], List.mem_cons_of_mem _ (List.getElem_mem hle), ?_⟩
      rw [hlater n hle, keepsWaiting_iff hs hn (Nat.mod_lt _ (by decide))]
      omega

/-- Two ticks from the start of the system. -/
theorem sleep_exact_at_boot :
    ¬ KeepsWaiting ((0 + 2) % 2 ^ 32) (sleepUntil 0 2) ∧
      KeepsWaiting ((0 + 1) % 2 ^ 32) (sleepUntil 0 2) := by
  have hexact := (sleep_exact_iff 0 2 (by decide) (by decide)).1
  exact ⟨fun h => absurd ((((hexact 2 (by decide)).mpr (Or.inr (by decide))).mp h)) (by decide),
    ((hexact 1 (by decide)).mpr (Or.inl (by decide))).mpr (by decide)⟩

/-- One tick before the counter wraps a task sleeps for one tick: no value of the counter ends
the wait. -/
theorem sleep_over_wrap_waits :
    KeepsWaiting ((4294967295 + 1) % 2 ^ 32) (sleepUntil 4294967295 1) ∧
      ∀ now < 2 ^ 32, KeepsWaiting now (sleepUntil 4294967295 1) :=
  ⟨by decide, fun now hnow => (keepsWaiting_iff (by decide) (by decide) hnow).mpr (by omega)⟩

end TraitOS.Timer
