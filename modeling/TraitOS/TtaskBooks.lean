import TraitOS.TtaskSwitch

/-!
# The books of the scheduler

A switch through `ttask_pick_switch` gives the next task a full slice and counts the
switch, for the task and in total. `ttask_block` switches as well, and does none of this.
-/
namespace TraitOS.Ttask
open MachineWord Runs

/-- What `ttask_pick_switch` writes for the task it switches to. -/
structure Credited (s s' : Sched) (next : ℕ) : Prop where
  slice : (s'.tasks next).slice = ttaskSliceTicks (s.tasks next).priority
  switches : (s'.tasks next).switches = incr32 (s.tasks next).switches
  total : s'.totalSwitches = incr32 s.totalSwitches

lemma incr32_ne (x : ℕ) : incr32 x ≠ x := by
  unfold incr32
  omega

lemma ttaskPickSwitch_next {s : Sched} (h : ttaskPickNext s ≠ s.current) :
    (ttaskPickSwitch s).tasks (ttaskPickNext s) = { s.tasks (ttaskPickNext s) with
      slice := ttaskSliceTicks (s.tasks (ttaskPickNext s)).priority
      switches := incr32 (s.tasks (ttaskPickNext s)).switches } := by
  have heq : ttaskPickSwitch s = (creditSwitch s (ttaskPickNext s)).switchTo (ttaskPickNext s)
    (ttaskPickNext_lt s) :=
    if_neg h
  rw [heq, Sched.switchTo_tasks]
  exact Sched.setTask_tasks_self s _ _

theorem ttaskPickSwitch_credited {s : Sched} (h : ttaskPickNext s ≠ s.current) :
    Credited s (ttaskPickSwitch s) (ttaskPickNext s) := by
  refine ⟨by rw [ttaskPickSwitch_next h], by rw [ttaskPickSwitch_next h], ?_⟩
  have heq : ttaskPickSwitch s = (creditSwitch s (ttaskPickNext s)).switchTo (ttaskPickNext s)
    (ttaskPickNext_lt s) :=
    if_neg h
  rw [heq]
  rfl

lemma ttaskBlock_totalSwitches (s : Sched) : (ttaskBlock s).totalSwitches = s.totalSwitches := by
  unfold ttaskBlock
  dsimp only
  split_ifs <;> rfl

/-! ## Runs -/

lemma switchCtx_entries (m : Machine) (saved : Frame) (s : Sched) :
    (m.switchCtx saved s).entries.length = m.entries.length + 1 := by
  obtain ⟨active, h⟩ := resume_cases
    { m with sched := s, frame := Function.update m.frame m.sched.current saved }
  unfold Machine.switchCtx
  rw [h]
  exact List.length_append

/-- The task that runs has its full slice. -/
def FullSlice (s : Sched) : Prop :=
  (s.tasks s.current).slice = ttaskSliceTicks (s.tasks s.current).priority

/-- What a step may do to the books. -/
inductive Books (m : Machine) (op : SchedOp) (m' : Machine) : Prop where
  | same (switches : m'.entries.length = m.entries.length)
      (total : m'.sched.totalSwitches = m.sched.totalSwitches)
      (stays : op = .block → ttaskPickNext (park m.sched) = m.sched.current)
  | kept (switches : m'.entries.length = m.entries.length + 1)
      (total : m'.sched.totalSwitches = incr32 m.sched.totalSwitches) (full : FullSlice m'.sched)
      (other : op ≠ .block)
  | missed (switches : m'.entries.length = m.entries.length + 1)
      (total : m'.sched.totalSwitches = m.sched.totalSwitches) (block : op = .block)
      (leaves : ttaskPickNext (park m.sched) ≠ m.sched.current)

lemma pickSwitch_books {m m₁ : Machine} {op : SchedOp} (hop : op ≠ .block)
    (hentries : m₁.entries = m.entries) (htotal : m₁.sched.totalSwitches = m.sched.totalSwitches) :
    Books m op m₁.pickSwitch := by
  by_cases h : ttaskPickNext m₁.sched = m₁.sched.current
  · have heq : m₁.pickSwitch = m₁ := if_pos h
    rw [heq]
    exact .same (congrArg List.length hentries) htotal fun hb => absurd hb hop
  · have heq : m₁.pickSwitch = (m₁.setRsp0 (ttaskPickNext m₁.sched)).switchCtx
        (.pickSwitch (ttaskPickNext m₁.sched)) (ttaskPickSwitch m₁.sched) := if_neg h
    have hsched := (pickSwitch_spec m₁).1
    refine .kept ?_ ?_ ?_ hop
    · rw [heq, switchCtx_entries, ← hentries]
      rfl
    · rw [hsched, (ttaskPickSwitch_credited h).total, htotal]
    · rw [hsched, FullSlice, ttaskPickSwitch_current, ttaskPickSwitch_next h]

lemma block_books (m : Machine) : Books m .block m.block := by
  have htotal : m.block.sched.totalSwitches = m.sched.totalSwitches := by
    rw [(block_spec m).1, ttaskBlock_totalSwitches]
  by_cases h : ttaskPickNext (park m.sched) = m.sched.current
  · have heq : m.block = { m with sched := ttaskBlock m.sched } := if_pos h
    exact .same (by rw [heq]) htotal fun _ => h
  · have heq : m.block = m.switchCtx .block (ttaskBlock m.sched) := if_neg h
    exact .missed (by rw [heq, switchCtx_entries]) htotal rfl h

lemma place_books (m : Machine) {op : SchedOp} (hop : op ≠ .block) {r : Sched × Option ℕ}
    (htotal : r.1.totalSwitches = m.sched.totalSwitches) : Books m op (m.place r) := by
  obtain ⟨hsched, _, _, hentries, _⟩ := place_spec m r
  exact .same (congrArg List.length hentries) (by rw [hsched, htotal]) fun hb => absurd hb hop

lemma placeTask_totalSwitches (s : Sched) (t : Task) (stack : ℕ) :
    (placeTask s t stack).1.totalSwitches = s.totalSwitches := by
  unfold placeTask
  cases reusableSlot s with
  | none => rfl
  | some i =>
    dsimp only
    split_ifs <;> rfl

lemma ttaskWake_totalSwitches (s : Sched) (id : ℕ) : (ttaskWake s id).totalSwitches =
    s.totalSwitches := by
  unfold ttaskWake
  split_ifs <;> rfl

theorem switchStep_books {m m' : Machine} {op : SchedOp} (h : switchStep m op =
    some m') : Books m op m' := by
  unfold switchStep at h
  split_ifs at h
  cases op with
  | create fn arg stack =>
    cases h
    exact place_books m SchedOp.noConfusion (placeTask_totalSwitches _ _ _)
  | createUser entry aspace userRsp stack =>
    dsimp only at h
    split_ifs at h
    cases h
    refine place_books m SchedOp.noConfusion ?_
    unfold ttaskCreateUser
    split_ifs <;> exact placeTask_totalSwitches _ _ _
  | tick =>
    cases h
    exact pickSwitch_books SchedOp.noConfusion rfl rfl
  | yield =>
    cases h
    exact pickSwitch_books SchedOp.noConfusion rfl rfl
  | block =>
    cases h
    exact block_books m
  | wake id =>
    cases h
    exact .same rfl (ttaskWake_totalSwitches _ _) SchedOp.noConfusion
  | exit =>
    cases h
    unfold Machine.exit
    dsimp only
    split_ifs
    · exact .same rfl rfl SchedOp.noConfusion
    · exact pickSwitch_books SchedOp.noConfusion rfl rfl

/-- The counter is the number of switches so far. -/
def SwitchesCounted (m : Machine) : Prop := m.sched.totalSwitches = m.entries.length % 2 ^ 32

/-- A step after which the counter is right, and a task that was switched in by it has its
full slice. -/
def InOrder (m : Machine) (_ : SchedOp) (m' : Machine) : Prop :=
  SwitchesCounted m' ∧ (m'.entries.length ≠ m.entries.length → FullSlice m'.sched)

/-- The step is no block that gives up the CPU. -/
def NoBlockSwitch (m : Machine) (op : SchedOp) : Prop :=
  op = .block → ttaskPickNext (park m.sched) = m.sched.current

instance (m : Machine) (op : SchedOp) : Decidable (NoBlockSwitch m op) :=
  inferInstanceAs (Decidable (_ → _))

lemma inOrder_iff {m m' : Machine} {op : SchedOp} (hm : SwitchesCounted m)
    (h : switchStep m op = some m') :
    (InOrder m op m' ↔ NoBlockSwitch m op) ∧ (NoBlockSwitch m op → SwitchesCounted m') := by
  unfold InOrder SwitchesCounted at *
  cases switchStep_books h with
  | same hlen htotal hstays =>
    have hcount : m'.sched.totalSwitches = m'.entries.length % 2 ^ 32 := by rw [hlen, htotal, hm]
    exact ⟨iff_of_true ⟨hcount, fun hne => absurd hlen hne⟩ hstays, fun _ => hcount⟩
  | kept hlen htotal hfull hop =>
    have hcount : m'.sched.totalSwitches = m'.entries.length % 2 ^ 32 := by
      rw [hlen, htotal, hm]
      exact Nat.mod_add_mod _ _ _
    exact ⟨iff_of_true ⟨hcount, fun _ => hfull⟩ fun hb => absurd hb hop, fun _ => hcount⟩
  | missed hlen htotal hblock hleaves =>
    refine ⟨iff_of_false (fun hin => ?_) fun hno => hleaves (hno hblock),
      fun hno => absurd (hno hblock) hleaves⟩
    have hcount := hin.1
    rw [hlen, htotal, hm] at hcount
    omega

/-- A block that gives up the CPU never does the bookkeeping of the other switch path; and
in a run from boot the total is right and every task switched in has a full slice, after
every step, exactly if no step is such a block. -/
theorem switch_bookkeeping_iff (kernel bootStackTop : ℕ) (hk : kernel ≠ 0) (ops : List SchedOp)
    (m : Machine) (hrun : exec switchStep (bootMachine kernel bootStackTop hk) ops = some m) :
    (∀ s : Sched, ttaskPickNext s ≠ s.current → Credited s (ttaskPickSwitch s) (ttaskPickNext s)) ∧
    (∀ s : Sched, (ttaskPickNext (park s) ≠ s.current →
      Credited s (ttaskBlock s) (ttaskPickNext (park s))) ↔ ttaskPickNext (park s) = s.current) ∧
    (Along switchStep InOrder (bootMachine kernel bootStackTop hk) ops ↔
      exec (guarded switchStep NoBlockSwitch) (bootMachine kernel bootStackTop hk) ops =
        some m) := by
  refine ⟨fun s h => ttaskPickSwitch_credited h, fun s => ⟨fun h => ?_, fun h hne => absurd h hne⟩,
    ?_⟩
  · by_contra hne
    have htotal := (h hne).total
    rw [ttaskBlock_totalSwitches] at htotal
    exact incr32_ne _ htotal.symm
  · have hboot : SwitchesCounted (bootMachine kernel bootStackTop hk) := rfl
    have hstep : ∀ s op t, SwitchesCounted s → switchStep s op = some t →
        (InOrder s op t ↔ NoBlockSwitch s op) ∧ (NoBlockSwitch s op → SwitchesCounted t) :=
      fun _ _ _ hs h => inOrder_iff hs h
    exact along_iff_guarded hstep ops hboot hrun

/-- A tick switches to a new task, which yields to another one; nobody blocks. -/
theorem switch_bookkeeping_yielding :
    ∃ m, exec switchStep (bootMachine 0x7000 0x9000 (by decide))
        [.create 0 0 0x5000, .create 0 0 0x6000, .tick, .yield] = some m ∧
      m.entries.length = 2 ∧
      Along switchStep InOrder (bootMachine 0x7000 0x9000 (by decide))
        [.create 0 0 0x5000, .create 0 0 0x6000, .tick, .yield] := by
  have hlength : (exec (guarded switchStep NoBlockSwitch) (bootMachine 0x7000 0x9000 (by decide))
      [.create 0 0 0x5000, .create 0 0 0x6000, .tick, .yield]).map (fun m => m.entries.length) =
        some 2 := by
    decide
  obtain ⟨m, hm, htwo⟩ := Option.map_eq_some_iff.mp hlength
  have hrun := exec_of_guarded _ hm
  exact ⟨m, hrun, htwo, (switch_bookkeeping_iff 0x7000 0x9000 (by decide) _ m hrun).2.2.mpr hm⟩

/-- The boot task blocks: the new task runs, and no switch is counted. -/
theorem block_is_not_counted :
    ∃ m, exec switchStep (bootMachine 0x7000 0x9000 (by decide)) [.create 0 0 0x5000, .block] =
      some m ∧
      m.sched.current = 1 ∧ m.entries.length = 1 ∧ m.sched.totalSwitches = 0 ∧
        (m.sched.tasks 1).switches = 0 := by
  have hbooks : (exec switchStep (bootMachine 0x7000 0x9000 (by decide)) [.create 0 0 0x5000,
    .block]).map
      (fun m => (m.sched.current, m.entries.length, m.sched.totalSwitches,
        (m.sched.tasks 1).switches)) = some (1, 1, 0, 0) := by decide
  obtain ⟨m, hm, heq⟩ := Option.map_eq_some_iff.mp hbooks
  simp only [Prod.mk.injEq] at heq
  exact ⟨m, hm, heq⟩

end TraitOS.Ttask
