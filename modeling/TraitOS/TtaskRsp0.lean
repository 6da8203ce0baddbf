import TraitOS.TtaskSpace

/-!
# The stack of the next entry into the kernel

`tss_set_rsp0` names the stack on which an interrupt of a user task is pushed.
`ttask_pick_switch` sets it to the stack of the task it switches to; `ttask_block` leaves
it as it is.
-/
namespace TraitOS.Ttask
open MachineWord Runs

/-- What the stack of a task is, and whether ring 3 interrupts land there. -/
@[ext] structure KernelStack where
  userMode : Bool
  stack : ℕ
  stackSize : ℕ
deriving DecidableEq

def Task.kernelStack (t : Task) : KernelStack := ⟨t.userMode, t.stack, t.stackSize⟩

def Sched.kernelStack (s : Sched) (i : ℕ) : KernelStack := (s.tasks i).kernelStack

/-- If a user task runs, interrupts are pushed on its own kernel stack. -/
def OwnRsp0 (m : Machine) : Prop :=
  (m.sched.tasks m.sched.current).userMode = true →
    m.rsp0 = (m.sched.tasks m.sched.current).stack + (m.sched.tasks m.sched.current).stackSize

/-- A block switches to no user task other than one whose stack is set already. -/
def BlockKeepsRsp0 (m : Machine) (op : SchedOp) : Prop :=
  op = .block → ttaskPickNext (park m.sched) ≠ m.sched.current →
    (m.sched.tasks (ttaskPickNext (park m.sched))).userMode = true →
      m.rsp0 = (m.sched.tasks (ttaskPickNext (park m.sched))).stack +
        (m.sched.tasks (ttaskPickNext (park m.sched))).stackSize

instance (m : Machine) (op : SchedOp) : Decidable (BlockKeepsRsp0 m op) :=
  inferInstanceAs (Decidable (_ → _))

/-! ## Stacks stay with their tasks -/

lemma setTask_kernelStack (s : Sched) (i j : ℕ) (t : Task) (h : t.kernelStack = s.kernelStack i) :
    (s.setTask i t).kernelStack j = s.kernelStack j := by
  unfold Sched.kernelStack
  by_cases hj : j = i
  · rw [hj, Sched.setTask_tasks_self]
    exact h
  · rw [Sched.setTask_tasks_of_ne s t hj]

lemma ttaskPickSwitch_kernelStack (s : Sched) (i : ℕ) : (ttaskPickSwitch s).kernelStack i =
    s.kernelStack i := by
  unfold ttaskPickSwitch
  dsimp only
  split_ifs with h
  · rfl
  · exact setTask_kernelStack s _ i _ rfl

lemma park_kernelStack (s : Sched) (i : ℕ) : (park s).kernelStack i = s.kernelStack i :=
  setTask_kernelStack s _ i _ rfl

lemma ttaskBlock_kernelStack (s : Sched) (i : ℕ) : (ttaskBlock s).kernelStack i =
    s.kernelStack i := by
  unfold ttaskBlock
  dsimp only
  split_ifs with h
  · refine (setTask_kernelStack (park s) s.current i _ ?_).trans (park_kernelStack s i)
    rfl
  · exact park_kernelStack s i

lemma ttaskWake_kernelStack (s : Sched) (id i : ℕ) : (ttaskWake s id).kernelStack i =
    s.kernelStack i := by
  unfold ttaskWake
  split_ifs
  · rfl
  · exact setTask_kernelStack s id i _ rfl
  · rfl

/-! ## The invariant -/

/-- User tasks have a stack, the running one is READY, and its stack is the one that is
set. -/
structure Rsp0Inv (m : Machine) : Prop where
  stack_ne : ∀ i, (m.sched.kernelStack i).userMode = true → (m.sched.kernelStack i).stack ≠ 0
  running : m.halted = false → m.sched.state m.sched.current = .ready
  own : (m.sched.kernelStack m.sched.current).userMode = true →
    m.rsp0 = (m.sched.kernelStack m.sched.current).stack +
      (m.sched.kernelStack m.sched.current).stackSize

lemma rsp0Inv_boot (kernel bootStackTop : ℕ) (h : kernel ≠
    0) : Rsp0Inv (bootMachine kernel bootStackTop h) := by
  have hstack : ∀ i, (bootMachine kernel bootStackTop h).sched.kernelStack i = ⟨false, 0, 0⟩ := by
    intro i
    unfold Sched.kernelStack bootMachine ttaskInit
    by_cases hi : i = 0
    · simp [hi, blank, Task.kernelStack]
    · simp [hi, blank, Task.kernelStack]
  refine ⟨fun i hu => ?_, fun _ => rfl, fun hu => ?_⟩
  · rw [hstack] at hu
    cases hu
  · rw [hstack] at hu
    cases hu

/-- A new table in which all stacks and the running slot are as before. -/
lemma Rsp0Inv.table {m : Machine} (hm : Rsp0Inv m) {s : Sched} {halted : Bool}
    (hstack : ∀ i, s.kernelStack i = m.sched.kernelStack i) (hcurrent : s.current = m.sched.current)
    (hready : halted = false → s.state s.current = .ready) :
    Rsp0Inv { m with sched := s, halted := halted } := by
  refine ⟨fun i hu => ?_, hready, fun hu => ?_⟩
  · dsimp only at hu ⊢
    rw [hstack] at hu ⊢
    exact hm.stack_ne i hu
  · dsimp only at hu ⊢
    rw [hcurrent, hstack] at hu ⊢
    exact hm.own hu

lemma resume_keeps (m : Machine) :
    m.resume.sched = m.sched ∧ m.resume.rsp0 = m.rsp0 ∧ m.resume.halted = m.halted := by
  obtain ⟨active, h⟩ := resume_cases m
  rw [h]
  exact ⟨rfl, rfl, rfl⟩

/-- A switch is right if the stack was set for the new running task. -/
lemma rsp0Inv_switchCtx {m : Machine} {saved : Frame} {s : Sched}
    (hstack : ∀ i, (s.kernelStack i).userMode = true → (s.kernelStack i).stack ≠ 0)
    (hready : s.state s.current = .ready)
    (hset : (s.kernelStack s.current).userMode = true →
      m.rsp0 = (s.kernelStack s.current).stack + (s.kernelStack s.current).stackSize) :
    Rsp0Inv (m.switchCtx saved s) := by
  obtain ⟨hs, hr, -⟩ :=
    resume_keeps { m with sched := s, frame := Function.update m.frame m.sched.current saved }
  refine ⟨fun i => ?_, fun _ => ?_, ?_⟩
  · rw [Machine.switchCtx, hs]
    exact hstack i
  · rw [Machine.switchCtx, hs]
    exact hready
  · rw [Machine.switchCtx, hs, hr]
    exact hset

/-- Who keeps the CPU must have been right before; who gets it has its stack set. -/
lemma rsp0Inv_pickSwitch {m : Machine}
    (hstack : ∀ i, (m.sched.kernelStack i).userMode = true → (m.sched.kernelStack i).stack ≠ 0)
    (hm : ttaskPickNext m.sched = m.sched.current → Rsp0Inv m) : Rsp0Inv m.pickSwitch := by
  unfold Machine.pickSwitch
  by_cases hnext : ttaskPickNext m.sched = m.sched.current
  · simp only [if_pos hnext]
    exact hm hnext
  · simp only [if_neg hnext]
    refine rsp0Inv_switchCtx (fun i hu => ?_) (pickSwitch_ready (Or.inr hnext)) fun hu => ?_
    · rw [ttaskPickSwitch_kernelStack] at hu ⊢
      exact hstack i hu
    · rw [ttaskPickSwitch_current, ttaskPickSwitch_kernelStack] at hu ⊢
      exact if_pos (hstack _ hu)

lemma rsp0Inv_block {m : Machine} (hm : Rsp0Inv m) (h : BlockKeepsRsp0 m .block) :
    Rsp0Inv m.block := by
  unfold Machine.block
  by_cases hnext : ttaskPickNext (park m.sched) = m.sched.current
  · simp only [if_pos hnext]
    refine hm.table (ttaskBlock_kernelStack m.sched) ?_ fun _ => ttaskBlock_ready m.sched
    simp only [ttaskBlock, if_pos hnext]
    rfl
  · simp only [if_neg hnext]
    have hcur : (ttaskBlock m.sched).current = ttaskPickNext (park m.sched) := by
      simp only [ttaskBlock, if_neg hnext]
      rfl
    refine rsp0Inv_switchCtx (fun i hu => ?_) (ttaskBlock_ready m.sched) fun hu => ?_
    · rw [ttaskBlock_kernelStack] at hu ⊢
      exact hm.stack_ne i hu
    · rw [hcur, ttaskBlock_kernelStack] at hu ⊢
      exact h rfl hnext hu

/-- A new task takes a slot that the running one does not have. -/
lemma rsp0Inv_place {m : Machine} (hm : Rsp0Inv m) (hrun : m.halted = false) {t : Task} {stack : ℕ}
    (hnew : t.userMode = true → stack ≠ 0) : Rsp0Inv (m.place (placeTask m.sched t stack)) := by
  have hready := hm.running hrun
  have hset : ∀ i u, (m.sched.state i = .free ∨ m.sched.state i = .exited) →
      (u.userMode = true → u.stack ≠ 0) →
        ∀ frame, Rsp0Inv { m with sched := m.sched.setTask i u, frame := frame } := by
    intro i u hi hu frame
    have hne : m.sched.current ≠ i := by
      intro h
      rw [← h, hready] at hi
      exact absurd hi (by decide)
    have hcur : (m.sched.setTask i u).kernelStack m.sched.current =
      m.sched.kernelStack m.sched.current := by
      unfold Sched.kernelStack
      rw [Sched.setTask_tasks_of_ne m.sched u hne]
    refine ⟨fun j => ?_, fun _ => ?_, ?_⟩
    · by_cases hj : j = i
      · dsimp only
        rw [hj, Sched.kernelStack, Sched.setTask_tasks_self]
        exact hu
      · dsimp only
        rw [Sched.kernelStack, Sched.setTask_tasks_of_ne m.sched u hj]
        exact hm.stack_ne j
    · dsimp only
      rw [Sched.setTask_current, Sched.setTask_state, if_neg hne, hready]
    · dsimp only
      rw [Sched.setTask_current, hcur]
      exact hm.own
  obtain ⟨hsame, hnone⟩ | ⟨i, -, hslot, ⟨hzero, hplace⟩ | ⟨hpos, hplace⟩⟩ :=
    placeTask_cases m.sched t stack
  · rw [Machine.place, hnone, hsame]
    exact hm
  · rw [hplace]
    exact hset i { t with state := .free } hslot (fun hu => absurd hzero (hnew hu)) m.frame
  · rw [hplace]
    exact hset i { t with stack := stack, stackSize := stackBytes } hslot (fun _ => hpos) _

theorem rsp0Inv_step {m t : Machine} {op : SchedOp} (hm : Rsp0Inv m) (hop : BlockKeepsRsp0 m op)
    (h : switchStep m op = some t) : Rsp0Inv t := by
  unfold switchStep at h
  cases hrun : m.halted with
  | true =>
    rw [hrun] at h
    exact nomatch h
  | false =>
    rw [hrun] at h
    have hready := hm.running hrun
    cases op with
    | create fn arg stack =>
      cases h
      exact rsp0Inv_place hm hrun fun hu => nomatch hu
    | createUser entry aspace userRsp stack =>
      simp only [Bool.false_eq_true, if_false] at h
      split_ifs at h
      cases h
      unfold ttaskCreateUser
      by_cases h0 : stack = 0
      · rw [if_pos h0]
        exact rsp0Inv_place hm hrun fun hu => nomatch hu
      · rw [if_neg h0]
        exact rsp0Inv_place hm hrun fun _ => h0
    | tick =>
      cases h
      let ticked : Task := { m.sched.tasks m.sched.current with
        ticks := incr32 (m.sched.tasks m.sched.current).ticks
        slice := (m.sched.tasks m.sched.current).slice - 1 }
      have hbefore : Rsp0Inv { m with sched := m.sched.setTask m.sched.current ticked } := by
        refine hm.table (fun i => setTask_kernelStack m.sched m.sched.current i ticked rfl)
          rfl fun _ => ?_
        rw [Sched.setTask_current, Sched.setTask_state, if_pos rfl]
        exact hready
      exact rsp0Inv_pickSwitch hbefore.stack_ne fun _ => hbefore
    | yield =>
      cases h
      exact rsp0Inv_pickSwitch hm.stack_ne fun _ => hm
    | block =>
      cases h
      exact rsp0Inv_block hm hop
    | wake id =>
      cases h
      refine hm.table (ttaskWake_kernelStack m.sched id) (ttaskWake_current m.sched id) fun _ => ?_
      rw [ttaskWake_current, ttaskWake_state, hready]
      split_ifs <;> rfl
    | exit =>
      cases h
      have hstack (i : ℕ) : (m.sched.setTask m.sched.current
          { m.sched.tasks m.sched.current with state := .exited }).kernelStack i =
            m.sched.kernelStack i :=
        setTask_kernelStack m.sched m.sched.current i _ rfl
      unfold Machine.exit
      dsimp only
      by_cases hnext : ttaskPickNext (m.sched.setTask m.sched.current
          { m.sched.tasks m.sched.current with state := .exited }) = m.sched.current
      · rw [if_pos hnext]
        exact hm.table hstack rfl fun hh => nomatch hh
      · rw [if_neg hnext]
        refine rsp0Inv_pickSwitch (fun i hu => ?_) fun hsame => absurd hsame hnext
        dsimp only at hu ⊢
        rw [hstack] at hu ⊢
        exact hm.stack_ne i hu

/-- In every run in which no block switches to a user task without its stack being set, the
stack that is set is the one of the running user task. -/
theorem rsp0_of_running_user (kernel bootStackTop : ℕ) (hk : kernel ≠ 0) (ops : List SchedOp)
    (m : Machine)
    (hrun : exec (guarded switchStep BlockKeepsRsp0) (bootMachine kernel bootStackTop hk) ops =
      some m) :
    OwnRsp0 m := by
  have hinv : Rsp0Inv m := by
    refine exec_invariant (I := Rsp0Inv) ?_ ops (rsp0Inv_boot kernel bootStackTop hk) hrun
    intro s a t hs hstep
    obtain ⟨hop, hstep⟩ := (guarded_eq_some _ _ s t a).mp hstep
    exact rsp0Inv_step hs hop hstep
  exact hinv.own

/-- Two user tasks, the second of which runs. -/
def twoTasks (last : SchedOp) : List SchedOp :=
  [.createUser 0x8000000000 2 0 0x10000, .createUser 0x8000000000 3 0 0x20000, .yield, last]

theorem rsp0_of_yielding_tasks :
    ∃ m, exec (guarded switchStep BlockKeepsRsp0) (bootMachine 1 0x1000 (by decide))
      (twoTasks .yield) = some m ∧ m.sched.current = 2 ∧ OwnRsp0 m := by
  have hcur : (exec (guarded switchStep BlockKeepsRsp0) (bootMachine 1 0x1000 (by decide))
    (twoTasks .yield)).map
      (fun m => m.sched.current) = some 2 := by decide +kernel
  obtain ⟨m, hm, hc⟩ := Option.map_eq_some_iff.mp hcur
  exact ⟨m, hm, hc, rsp0_of_running_user 1 0x1000 (by decide) (twoTasks .yield) m hm⟩

/-- The first task blocks: the second one runs, and its interrupts are pushed on the stack of
the first. -/
theorem block_leaves_rsp0 :
    ∃ m, exec switchStep (bootMachine 1 0x1000 (by decide)) (twoTasks .block) = some m ∧
      m.sched.current = 2 ∧ (m.sched.tasks 2).kernelStack = ⟨true, 0x20000, 8192⟩ ∧
      (m.sched.tasks 1).kernelStack = ⟨true, 0x10000, 8192⟩ ∧ m.rsp0 = 0x12000 ∧ ¬ OwnRsp0 m := by
  have hstate : (exec switchStep (bootMachine 1 0x1000 (by decide)) (twoTasks .block)).map
      (fun m => (m.sched.current, (m.sched.tasks 2).kernelStack, (m.sched.tasks 1).kernelStack,
        m.rsp0)) =
      some (2, ⟨true, 0x20000, 8192⟩, ⟨true, 0x10000, 8192⟩, 0x12000) := by decide +kernel
  obtain ⟨m, hm, hv⟩ := Option.map_eq_some_iff.mp hstate
  simp only [Prod.mk.injEq] at hv
  obtain ⟨hcur, hsecond, hfirst, hrsp⟩ := hv
  refine ⟨m, hm, hcur, hsecond, hfirst, hrsp, fun hown => ?_⟩
  unfold OwnRsp0 at hown
  rw [hcur, hrsp] at hown
  obtain ⟨huser, hstack, hsize⟩ := (KernelStack.mk.injEq ..).mp hsecond
  rw [hstack, hsize] at hown
  exact absurd (hown huser) (by decide)

end TraitOS.Ttask
