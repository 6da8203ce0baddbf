import TraitOS.Ttask
import TraitOS.Runs

/-!
# Context switches and the active address space

A suspended task is a stack frame: the `iretq` frame of a task that never ran,
or a call of one of the two functions that switch stacks. What happens after a
switch is decided by the resumed frame, with the local variables of the call that
once switched away. The machine below records every entry into a task together
with the address space that is active there. Address spaces are named by their
descriptor's address, zero being the null pointer.
-/
namespace TraitOS.Ttask
open MachineWord

/-- The frame a saved context points to. -/
inductive Frame where
  /-- Nothing was saved yet. -/
  | unsaved
  /-- The frame built for a task that never ran. -/
  | fresh
  /-- Inside `ttask_pick_switch`, with its local `next`. -/
  | pickSwitch (next : ℕ)
  /-- Inside `ttask_block`. -/
  | block
  deriving DecidableEq, Repr

/-- Control leaves the scheduler into a task while a space is active. -/
structure Entry where
  task : ℕ
  userMode : Bool
  aspace : ℕ
  active : ℕ
  deriving DecidableEq, Repr

structure Machine where
  sched : Sched
  frame : ℕ → Frame
  /-- The space `vmm_aspace_kernel` returns. -/
  kernel : ℕ
  kernel_ne : kernel ≠ 0
  active : ℕ
  bootStackTop : ℕ
  rsp0 : ℕ
  halted : Bool
  entries : List Entry

namespace Machine

/-- The end of `ttask_pick_switch`, run by the resumed call with its `next`. -/
def moveSpace (m : Machine) (next : ℕ) : Machine :=
  let t := m.sched.tasks next
  let want := if t.userMode then t.aspace else m.kernel
  if want ≠ 0 ∧ m.active ≠ want then { m with active := want } else m

/-- Control reaches the running task. -/
def enter (m : Machine) : Machine :=
  let t := m.sched.tasks m.sched.current
  { m with entries := m.entries ++ [⟨m.sched.current, t.userMode, t.aspace, m.active⟩] }

/-- The running slot's frame continues. -/
def resume (m : Machine) : Machine :=
  match m.frame m.sched.current with
  | .pickSwitch next => (m.moveSpace next).enter
  | _ => m.enter

/-- Save the caller's frame and continue on the stack of the table's new running
slot. -/
def switchCtx (m : Machine) (saved : Frame) (s : Sched) : Machine :=
  resume { m with sched := s, frame := Function.update m.frame m.sched.current saved }

/-- Ring 3 transitions land on the next task's kernel stack. -/
def setRsp0 (m : Machine) (next : ℕ) : Machine :=
  let t := m.sched.tasks next
  { m with rsp0 := if t.stack ≠ 0 then t.stack + t.stackSize else m.bootStackTop }

def pickSwitch (m : Machine) : Machine :=
  let next := ttaskPickNext m.sched
  if next = m.sched.current then m
  else (m.setRsp0 next).switchCtx (.pickSwitch next) (ttaskPickSwitch m.sched)

def block (m : Machine) : Machine :=
  let s := ttaskBlock m.sched
  if ttaskPickNext (park m.sched) = m.sched.current then { m with sched := s }
  else m.switchCtx .block s

def tick (m : Machine) : Machine :=
  let t := m.sched.tasks m.sched.current
  pickSwitch { m with
    sched := m.sched.setTask m.sched.current { t with
      ticks := incr32 t.ticks
      slice := t.slice - 1 } }

/-- With nobody to switch to an exiting task halts with interrupts disabled. -/
def exit (m : Machine) : Machine :=
  let s := m.sched.setTask m.sched.current
    { m.sched.tasks m.sched.current with state := .exited }
  if ttaskPickNext s = m.sched.current then { m with sched := s, halted := true }
  else pickSwitch { m with sched := s }

/-- A new task starts from the frame built on its stack. -/
def place (m : Machine) (r : Sched × Option ℕ) : Machine :=
  match r.2 with
  | none => { m with sched := r.1 }
  | some i => { m with sched := r.1, frame := Function.update m.frame i .fresh }

end Machine

inductive SchedOp where
  | create (fn arg stack : ℕ)
  | createUser (entry aspace userRsp stack : ℕ)
  | tick
  | yield
  | block
  | wake (id : ℕ)
  | exit
  deriving DecidableEq, Repr

/-- One call by the running task. User tasks are created with an address space
of their own. -/
def switchStep (m : Machine) (op : SchedOp) : Option Machine :=
  if m.halted then none
  else match op with
    | .create fn arg stack => some (m.place (ttaskCreate m.sched fn arg stack))
    | .createUser entry aspace userRsp stack =>
      if aspace = 0 ∨ aspace = m.kernel then none
      else some (m.place (ttaskCreateUser m.sched entry aspace userRsp stack))
    | .tick => some m.tick
    | .yield => some m.pickSwitch
    | .block => some m.block
    | .wake id => some { m with sched := ttaskWake m.sched id }
    | .exit => some m.exit

def bootMachine (kernel bootStackTop : ℕ) (h : kernel ≠ 0) : Machine where
  sched := ttaskInit
  frame := fun _ => .unsaved
  kernel := kernel
  kernel_ne := h
  active := kernel
  bootStackTop := bootStackTop
  rsp0 := bootStackTop
  halted := false
  entries := []

/-! ## The table and the record of entries through a switch -/

theorem resume_cases (m : Machine) : ∃ active, m.resume =
    Machine.enter { m with active := active } := by
  unfold Machine.resume
  cases m.frame m.sched.current with
  | pickSwitch next =>
    unfold Machine.moveSpace
    dsimp only
    generalize (if (m.sched.tasks next).userMode then (m.sched.tasks next).aspace else m.kernel)
      = want
    split_ifs
    · exact ⟨want, rfl⟩
    · exact ⟨m.active, rfl⟩
  | unsaved => exact ⟨m.active, rfl⟩
  | fresh => exact ⟨m.active, rfl⟩
  | block => exact ⟨m.active, rfl⟩

/-- A switch installs the new table, keeps the rest of the machine and appends to
the record of entries. -/
theorem switchCtx_spec (m : Machine) (saved : Frame) (s : Sched) :
    (m.switchCtx saved s).sched = s ∧ (m.switchCtx saved s).kernel = m.kernel ∧
      (m.switchCtx saved s).halted = m.halted ∧ m.entries <+: (m.switchCtx saved s).entries := by
  obtain ⟨active, h⟩ := resume_cases
    { m with sched := s, frame := Function.update m.frame m.sched.current saved }
  unfold Machine.switchCtx
  rw [h]
  exact ⟨rfl, rfl, rfl, List.prefix_append _ _⟩

theorem pickSwitch_spec (m : Machine) :
    m.pickSwitch.sched = ttaskPickSwitch m.sched ∧ m.pickSwitch.kernel = m.kernel ∧
      m.pickSwitch.halted = m.halted ∧ m.entries <+: m.pickSwitch.entries := by
  unfold Machine.pickSwitch
  by_cases h : ttaskPickNext m.sched = m.sched.current
  · simp only [if_pos h, ttaskPickSwitch]
    exact ⟨trivial, trivial, trivial, List.prefix_refl _⟩
  · simp only [if_neg h]
    exact switchCtx_spec _ _ _

theorem block_spec (m : Machine) :
    m.block.sched = ttaskBlock m.sched ∧ m.block.kernel = m.kernel ∧
      m.block.halted = m.halted ∧ m.entries <+: m.block.entries := by
  unfold Machine.block
  dsimp only
  split_ifs
  · exact ⟨rfl, rfl, rfl, List.prefix_refl _⟩
  · exact switchCtx_spec _ _ _

theorem place_spec (m : Machine) (r : Sched × Option ℕ) :
    (m.place r).sched = r.1 ∧ (m.place r).kernel = m.kernel ∧ (m.place r).halted = m.halted ∧
      (m.place r).entries = m.entries ∧ (m.place r).active = m.active := by
  unfold Machine.place
  cases r.2 with
  | none => exact ⟨rfl, rfl, rfl, rfl, rfl⟩
  | some i => exact ⟨rfl, rfl, rfl, rfl, rfl⟩

theorem switchStep_entries {m t : Machine} {op : SchedOp} (h : switchStep m op = some t) :
    t.kernel = m.kernel ∧ m.entries <+: t.entries := by
  unfold switchStep at h
  split_ifs at h
  cases op with
  | create fn arg stack =>
    cases h
    obtain ⟨_, hk, _, he, _⟩ := place_spec m (ttaskCreate m.sched fn arg stack)
    exact ⟨hk, he ▸ List.prefix_refl _⟩
  | createUser entry aspace userRsp stack =>
    dsimp only at h
    split_ifs at h
    cases h
    obtain ⟨_, hk, _, he, _⟩ := place_spec m (ttaskCreateUser m.sched entry aspace userRsp stack)
    exact ⟨hk, he ▸ List.prefix_refl _⟩
  | tick =>
    cases h
    obtain ⟨_, hk, _, he⟩ := pickSwitch_spec { m with sched := m.sched.setTask m.sched.current _ }
    exact ⟨hk, he⟩
  | yield =>
    cases h
    obtain ⟨_, hk, _, he⟩ := pickSwitch_spec m
    exact ⟨hk, he⟩
  | block =>
    cases h
    obtain ⟨_, hk, _, he⟩ := block_spec m
    exact ⟨hk, he⟩
  | wake id =>
    cases h
    exact ⟨rfl, List.prefix_refl _⟩
  | exit =>
    cases h
    unfold Machine.exit
    dsimp only
    split_ifs
    · exact ⟨rfl, List.prefix_refl _⟩
    · obtain ⟨_, hk, _, he⟩ := pickSwitch_spec { m with sched := m.sched.setTask m.sched.current _ }
      exact ⟨hk, he⟩

end TraitOS.Ttask
