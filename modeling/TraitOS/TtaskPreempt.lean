import TraitOS.TtaskRsp0

/-!
# Preemption inside task creation

`ttask_create` and `ttask_create_user` are run statement by statement, and a timer tick
may switch tasks between two of them unless interrupts are masked. Kernel stacks are
memory: a task that is switched away leaves its return address and six registers on its
stack and the address in its `context`; a new task gets the frame that
`ttask_init_stack` pushes. Memory is addressed by 64-bit words.
-/
namespace TraitOS.Ttask

/-- Addresses fixed by the linker: the code that saved frames return to, and the boot
stack. -/
structure KernelText where
  ttaskEntry : ℕ
  ttaskEntryIret : ℕ
  pickSwitchReturn : ℕ
  blockReturn : ℕ
  bootStack : ℕ
  stackTop : ℕ

/-- What `ttask_init_stack` pushes. -/
inductive FrameWord where
  | const (n : ℕ)
  | fn
  | userRsp
  | belowTop
  | entry
  | entryIret
deriving DecidableEq, Repr

/-- The statements of the two creators, on the slot they work on. -/
inductive Stmt where
  | search
  | reclaim
  | freeStack
  | freeSpace
  | clear
  | ready
  | priority (p : ℕ)
  | slice
  | fn (f : ℕ)
  | arg (a : ℕ)
  | stack
  | checkStack
  | stackSize
  | userMode
  | aspace (a : ℕ)
  | userRsp (r : ℕ)
  | top
  | frame
  | push (w : FrameWord)
  | context
deriving DecidableEq, Repr

/-- A call of a creator: its locals, the result of its `tmalloc`, and what is left to do. -/
structure Creation where
  slot : ℕ
  sp : ℕ
  stack : ℕ
  rest : List Stmt
deriving DecidableEq, Repr

structure Kern where
  sched : Sched
  context : ℕ → ℕ
  mem : ℕ → ℕ
  rsp0 : ℕ
  /-- The interrupt flag, and the one each suspended task continues with. -/
  intr : Bool
  savedIntr : ℕ → Bool
  halted : Bool
  creating : ℕ → Option Creation

def prologue : List Stmt := [.search, .reclaim, .clear, .ready]
def epilogue : List Stmt := [.top, .frame, .context]

def createProgram (f a : ℕ) : List Stmt :=
  prologue ++ [.priority 1, .slice, .fn f, .arg a, .stack, .checkStack, .stackSize] ++ epilogue

def createUserProgram (entry aspace userRsp : ℕ) : List Stmt :=
  prologue ++ [.priority 2, .slice, .fn entry, .stack, .checkStack, .stackSize, .userMode,
    .aspace aspace, .userRsp userRsp] ++ epilogue

def userFrame : List FrameWord := [.const 0x23, .userRsp, .const 0x202, .const 0x1B, .fn]
def kernelFrame : List FrameWord := [.const 0x10, .belowTop, .const 0x202, .const 0x08, .entry]
def savedRegisters : List FrameWord := [.const 0, .const 0, .const 0, .const 0, .const 0, .const 0]

/-- The words of a fresh stack, from its top down. -/
def freshFrame (user : Bool) : List FrameWord :=
  (if user then userFrame else kernelFrame) ++ [.entryIret] ++ savedRegisters

/-- The top of a stack, where `ttask_init_stack` starts. -/
def Task.stackTop (t : Task) : ℕ := (t.stack + t.stackSize) / 16 * 16

/-- A word pushed at `sp`; one word lies above the stack pointer of a kernel task. -/
def FrameWord.value (x : KernelText) (t : Task) (sp : ℕ) : FrameWord → ℕ
  | .const n => n
  | .fn => t.fn
  | .userRsp => t.userRsp
  | .belowTop => sp
  | .entry => x.ttaskEntry
  | .entryIret => x.ttaskEntryIret

/-! ## Statements -/

def Kern.setTask (k : Kern) (i : ℕ) (t : Task) : Kern := { k with sched := k.sched.setTask i t }

/-- The bounds of a task's stack; slot 0 starts on the boot stack. -/
def stackLo (x : KernelText) (s : Sched) (i : ℕ) : ℕ :=
  if i = 0 ∧ (s.tasks i).stack = 0 then x.bootStack else (s.tasks i).stack

def stackHi (x : KernelText) (s : Sched) (i : ℕ) : ℕ :=
  if i = 0 ∧ (s.tasks i).stack = 0 then x.stackTop else (s.tasks i).stack + (s.tasks i).stackSize

/-- Memory apart from the boot stack and from all stacks that are in use. -/
def FreshStack (x : KernelText) (s : Sched) (stack : ℕ) : Prop :=
  (stack + stackBytes ≤ x.bootStack ∨ x.stackTop ≤ stack) ∧
    ∀ j < maxTasks, (s.tasks j).stack ≠ 0 →
      stack + stackBytes ≤ (s.tasks j).stack ∨ (s.tasks j).stack + stackBytes ≤ stack

instance (x : KernelText) (s : Sched) (stack : ℕ) : Decidable (FreshStack x s stack) :=
  inferInstanceAs (Decidable (_ ∧ _))

/-- One statement of a creator; it goes on with what is left, or returns. -/
def advance (x : KernelText) (k : Kern) (c : Creation) : Option (Kern × Option Creation) :=
  let t := k.sched.tasks c.slot
  match c.rest with
  | [] => some (k, none)
  | stmt :: rest =>
    let go (k : Kern) : Option (Kern × Option Creation) := some (k, some { c with rest := rest })
    match stmt with
    | .search =>
      if t.state = .free ∨ t.state = .exited then go k
      else if c.slot + 1 < maxTasks then some (k, some { c with slot := c.slot + 1 })
      else some (k, none)
    | .reclaim =>
      if t.state = .exited then some (k, some { c with rest := .freeStack :: .freeSpace :: rest })
        else go k
    | .freeStack => go (k.setTask c.slot { t with stack := 0 })
    | .freeSpace => go (if t.userMode = true then k.setTask c.slot { t with aspace := 0 } else k)
    | .clear => go { k.setTask c.slot blank with context := Function.update k.context c.slot 0 }
    | .ready => go (k.setTask c.slot { t with state := .ready })
    | .priority p => go (k.setTask c.slot { t with priority := p })
    | .slice => go (k.setTask c.slot { t with slice := ttaskSliceTicks t.priority })
    | .fn f => go (k.setTask c.slot { t with fn := f })
    | .arg a => go (k.setTask c.slot { t with arg := a })
    | .stack => go (k.setTask c.slot { t with stack := c.stack })
    | .checkStack =>
      if t.stack = 0 then some (k.setTask c.slot { t with state := .free }, none) else go k
    | .stackSize => go (k.setTask c.slot { t with stackSize := stackBytes })
    | .userMode => go (k.setTask c.slot { t with userMode := true })
    | .aspace a => go (k.setTask c.slot { t with aspace := a })
    | .userRsp r => go (k.setTask c.slot { t with userRsp := r })
    | .top => some (k, some { c with sp := t.stackTop, rest := rest })
    | .frame => some (k, some { c with rest := (freshFrame t.userMode).map Stmt.push ++ rest })
    | .push w => some ({ k with mem := Function.update k.mem (c.sp - 8) (w.value x t c.sp) },
        some { c with sp := c.sp - 8, rest := rest })
    | .context =>
      -- the frame of a new task has the interrupt flag set
      go { k with
        context := Function.update k.context c.slot c.sp
        savedIntr := Function.update k.savedIntr c.slot true }

end TraitOS.Ttask
