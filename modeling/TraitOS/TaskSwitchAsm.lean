import TraitOS.X86
import TraitOS.TtaskPreempt

/-!
# The instructions of the context switch

`ttask_switch_ctx` at the level of registers and bytes, in a system of tasks that run one at a
time and may store wherever no parked task keeps its frame. A task that calls it comes back to
its return address with its callee-saved registers, its stack pointer and its live stack as it
left them, whatever ran in between; a task that never ran comes to the `iretq` frame that
`ttask_init_stack` built for it.
-/
namespace TraitOS.TaskSwitchAsm
open ByteMemory StackMachine X86 Ttask Runs

/-! ## The source -/

/-- The size of a `ttask_t`; its first member is the saved stack pointer. -/
def taskBytes : ℕ := 104

/-- Where the linker put the variables of the scheduler. -/
structure Image extends KernelText where
  currentTask : ℕ
  nextTask : ℕ
  tasks : ℕ
  dataLo : ℕ
  dataHi : ℕ
  current_in : dataLo ≤ currentTask ∧ currentTask + 8 ≤ dataHi
  next_in : dataLo ≤ nextTask ∧ nextTask + 8 ≤ dataHi
  tasks_in : dataLo ≤ tasks ∧ tasks + taskBytes * maxTasks ≤ dataHi
  data_lt : dataHi < 2 ^ 64
  current_next : currentTask + 8 ≤ nextTask ∨ nextTask + 8 ≤ currentTask
  current_tasks : currentTask + 8 ≤ tasks ∨ tasks + taskBytes * maxTasks ≤ currentTask
  next_tasks : nextTask + 8 ≤ tasks ∨ tasks + taskBytes * maxTasks ≤ nextTask

variable (x : Image)

/-- The address of a task, which is that of its context. -/
def Image.task (i : ℕ) : ℕ := x.tasks + taskBytes * i

/-- A range of memory apart from the variables. -/
def Image.Outside (lo hi : ℕ) : Prop := hi ≤ x.dataLo ∨ x.dataHi ≤ lo

instance (lo hi : ℕ) : Decidable (x.Outside lo hi) := inferInstanceAs (Decidable (_ ∨ _))

/-- The registers as `ttask_switch_ctx` takes them from a stack, with the return address. -/
def frameRegs : List Reg := [.r15, .r14, .r13, .r12, .rbx, .rbp, .rip]

def ttaskSwitchCtx : List (Op Reg) :=
  [.push .rbp, .push .rbx, .push .r12, .push .r13, .push .r14, .push .r15,
    .load .rdi x.currentTask, .storeAt .rdi .rsp,
    .load .rax x.nextTask, .store x.currentTask .rax, .loadAt .rsp .rax,
    .pop .r15, .pop .r14, .pop .r13, .pop .r12, .pop .rbx, .pop .rbp, .pop .rip]

/-- `next_task = &tasks[j]; ttask_switch_ctx();` with the address the call returns to. -/
def callSwitch (c : Processor) (j : ℕ) (ret : Word) : Processor :=
  exec .rsp { c with mem := storeWord c.mem x.nextTask (BitVec.ofNat 64 (x.task j)) }
    (.pushImm ret :: ttaskSwitchCtx x)

/-- The pushes of `ttask_init_stack`, from the top of the stack down, and where they end. -/
def pushFrame (t : Task) (m : Memory) (sp : ℕ) : List FrameWord → Memory × ℕ
  | [] => (m, sp)
  | w :: ws => pushFrame t (store64 m (sp - 8) (w.value x.toKernelText t sp)) (sp - 8) ws

def ttaskInitStack (m : Memory) (i : ℕ) (t : Task) : Memory :=
  let r := pushFrame x t m t.stackTop (freshFrame t.userMode)
  store64 r.1 (x.task i) r.2

/-! ## The system -/

/-- The running task and those that wait on their own stacks. -/
structure System where
  cpu : Processor
  current : ℕ
  parked : Finset ℕ
  lo : ℕ → ℕ
  hi : ℕ → ℕ

namespace System

def context (s : System) (i : ℕ) : ℕ := (loadWord s.cpu.mem (x.task i)).toNat

/-- A processor state the running task may come to: it leaves the frames of the parked tasks, their
contexts and `current_task` alone. -/
def Respects (s : System) (c : Processor) : Prop :=
  (∀ j ∈ s.parked, (∀ a < s.hi j, s.context x j ≤ a → c.mem a = s.cpu.mem a) ∧
    ∀ a < x.task j + 8, x.task j ≤ a → c.mem a = s.cpu.mem a) ∧
  ∀ a < x.currentTask + 8, x.currentTask ≤ a → c.mem a = s.cpu.mem a

instance (s : System) (c : Processor) : Decidable (s.Respects x c) :=
  inferInstanceAs (Decidable (_ ∧ _))

/-- There is room for the frame on the running stack. -/
def Room (s : System) : Prop :=
  s.lo s.current + 56 ≤ (s.cpu.reg .rsp).toNat ∧ (s.cpu.reg .rsp).toNat ≤ s.hi s.current

instance (s : System) : Decidable s.Room := inferInstanceAs (Decidable (_ ∧ _))

/-- A stack for a new task: apart from the variables and from every stack in use. -/
def Fresh (s : System) (t : Task) : Prop :=
  t.stack + 96 ≤ t.stackTop ∧ t.stackTop < 2 ^ 64 ∧ x.Outside t.stack t.stackTop ∧
    ∀ j ∈ insert s.current s.parked, t.stackTop ≤ s.lo j ∨ s.hi j ≤ t.stack

instance (s : System) (t : Task) : Decidable (s.Fresh x t) :=
  inferInstanceAs (Decidable (_ ∧ _ ∧ _ ∧ _))

end System

inductive Action where
  /-- The running task goes on, to some state of the processor. -/
  | work (c : Processor)
  | switch (j : ℕ) (ret : Word)
  /-- The running task switches away for good. -/
  | exit (j : ℕ) (ret : Word)
  | create (i : ℕ) (t : Task)

def step (s : System) : Action → Option System
  | .work c => if s.Respects x c then some { s with cpu := c } else none
  | .switch j ret =>
    if j ∈ s.parked ∧ s.Room then
      some { s with
        cpu := callSwitch x s.cpu j ret
        current := j
        parked := insert s.current (s.parked.erase j) }
    else none
  | .exit j ret =>
    if j ∈ s.parked ∧ s.Room then
      some { s with cpu := callSwitch x s.cpu j ret, current := j, parked := s.parked.erase j }
    else none
  | .create i t =>
    if i < maxTasks ∧ i ≠ s.current ∧ i ∉ s.parked ∧ s.Fresh x t then
      some { s with
        cpu := { s.cpu with mem := ttaskInitStack x s.cpu.mem i t }
        parked := insert i s.parked
        lo := Function.update s.lo i t.stack
        hi := Function.update s.hi i t.stackTop }
    else none

/-! ## The instructions -/

variable {x}

/-- The context of a task among the variables. -/
lemma Image.cell {i : ℕ} (hi : i < maxTasks) :
    x.dataLo ≤ x.task i ∧ x.task i + 8 ≤ x.dataHi ∧ (x.currentTask + 8 ≤ x.task i ∨
      x.task i + 8 ≤ x.currentTask) ∧ (x.nextTask + 8 ≤ x.task i ∨ x.task i + 8 ≤ x.nextTask) := by
  have htasks := x.tasks_in
  have hcurrent := x.current_tasks
  have hnext := x.next_tasks
  unfold Image.task taskBytes at *
  unfold maxTasks at *
  omega

lemma Image.task_apart {i j : ℕ} (h : i ≠ j) : x.task i + 8 ≤ x.task j ∨
    x.task j + 8 ≤ x.task i := by
  unfold Image.task taskBytes
  omega

lemma Image.toNat_task {i : ℕ} (hi : i < maxTasks) : (BitVec.ofNat 64 (x.task i)).toNat =
    x.task i := by
  have hcell := x.cell hi
  have hlt := x.data_lt
  rw [BitVec.toNat_ofNat, Nat.mod_eq_of_lt (by omega)]

/-- The frame a caller leaves on its stack. -/
def callerFrame (c : Processor) (ret : Word) : List Word :=
  [.r15, .r14, .r13, .r12, .rbx, .rbp].map c.reg ++ [ret]

/-- The exchange of the stack pointers, between the pushes and the pops. -/
def exchange (x : Image) : List (Op Reg) :=
  [.load .rdi x.currentTask, .storeAt .rdi .rsp, .load .rax x.nextTask, .store x.currentTask .rax,
    .loadAt .rsp .rax]

lemma pushed_frame {c : Processor} (ret : Word) (hroom : 56 ≤ (c.reg .rsp).toNat) :
    Pushed .rsp c (callerFrame c ret) (exec .rsp (c.push .rsp ret) (calleeSaved.map Op.push)) := by
  have hcall : Pushed .rsp c [ret] (c.push .rsp ret) := .push ret (by omega)
  have hpointer := hcall.pointer
  have hrest := @pushed_registers Reg _ .rsp (c.push .rsp ret) calleeSaved (by decide)
    (by simp [calleeSaved] at hpointer ⊢; omega)
  have hsame : (calleeSaved.map (c.push .rsp ret).reg).reverse =
    [.r15, .r14, .r13, .r12, .rbx, .rbp].map c.reg := by
    simp [calleeSaved, hcall.kept]
  rw [hsame] at hrest
  exact hcall.trans hrest

lemma exec_exchange {c : Processor} {cur j : ℕ} (hcur : cur < maxTasks) (hj : j < maxTasks)
    (hcurrent : loadWord c.mem x.currentTask = BitVec.ofNat 64 (x.task cur))
    (hnext : loadWord c.mem x.nextTask = BitVec.ofNat 64 (x.task j)) :
    (exec .rsp c (exchange x)).mem =
        storeWord (storeWord c.mem (x.task cur) (c.reg .rsp))
          x.currentTask (BitVec.ofNat 64 (x.task j)) ∧
      (exec .rsp c (exchange x)).reg .rsp = loadWord (exec .rsp c (exchange x)).mem (x.task j) := by
  have hcell := x.cell hcur
  have hread : loadWord (storeWord c.mem (x.task cur) (c.reg .rsp)) x.nextTask =
    BitVec.ofNat 64 (x.task j) := by
    rw [loadWord_storeWord_of_disjoint _ _ (by omega), hnext]
  constructor <;>
    simp [exchange, Op.run, Cpu.set, hcurrent, hread, x.toNat_task hcur, x.toNat_task hj]

/-- What a call of `ttask_switch_ctx` does: the caller's frame is on its stack and its context
points there, the registers are those of the other task's frame, and nothing else is written but the
two variables. -/
structure Switched (x : Image) (c c' : Processor) (cur j : ℕ) (ret : Word) (ws : List Word) :
    Prop where
  saved : Words c'.mem ((c.reg .rsp).toNat - 56) (callerFrame c ret)
  context : (loadWord c'.mem (x.task cur)).toNat = (c.reg .rsp).toNat - 56
  current : loadWord c'.mem x.currentTask = BitVec.ofNat 64 (x.task j)
  loaded : frameRegs.map c'.reg = ws
  pointer : (c'.reg .rsp).toNat = (loadWord c.mem (x.task j)).toNat + 56
  kept : ∀ a, a < (c.reg .rsp).toNat - 56 ∨ (c.reg .rsp).toNat ≤ a → a < x.task cur ∨
    x.task cur + 8 ≤ a →
    a < x.currentTask ∨ x.currentTask + 8 ≤ a → a < x.nextTask ∨ x.nextTask + 8 ≤ a →
      c'.mem a = c.mem a

lemma callSwitch_spec {c : Processor} {cur j ctx : ℕ} {ret : Word} {ws : List Word}
    (hcur : cur < maxTasks) (hj : j < maxTasks) (hne : j ≠ cur)
    (hcurrent : loadWord c.mem x.currentTask = BitVec.ofNat 64 (x.task cur))
    (hroom : 56 ≤ (c.reg .rsp).toNat)
    (hout : x.Outside ((c.reg .rsp).toNat - 56) (c.reg .rsp).toNat) (hlen : ws.length = 7)
    (hctx : (loadWord c.mem (x.task j)).toNat = ctx) (hws : Words c.mem ctx ws)
    (hout' : x.Outside ctx (ctx + 56))
    (hapart : ctx + 56 ≤ (c.reg .rsp).toNat - 56 ∨ (c.reg .rsp).toNat ≤ ctx)
    (hlt : ctx + 56 < 2 ^ 64) : Switched x c (callSwitch x c j ret) cur j ret ws := by
  unfold Image.Outside at hout hout'
  have hci := x.current_in
  have hni := x.next_in
  have hcn := x.current_next
  have htc := x.cell hcur
  have htj := x.cell hj
  have hcj := x.task_apart hne
  -- up to the last push nothing is written but `next_task` and the stack
  obtain ⟨c₀, hc₀⟩ : ∃ c₀ : Processor,
    c₀ = { c with mem := storeWord c.mem x.nextTask (BitVec.ofNat 64 (x.task j)) } := ⟨_, rfl⟩
  have hreg₀ : c₀.reg = c.reg := by rw [hc₀]
  obtain ⟨c₂, hc₂⟩ : ∃ c₂, c₂ = exec .rsp (c₀.push .rsp ret) (calleeSaved.map Op.push) := ⟨_, rfl⟩
  have hpush : Pushed .rsp c₀ (callerFrame c ret) c₂ := by
    rw [hc₂, callerFrame, ← hreg₀]
    exact pushed_frame ret (by rw [hreg₀]; exact hroom)
  have hsp : (c₂.reg .rsp).toNat = (c.reg .rsp).toNat - 56 := by
    have h := hpush.pointer
    simp [hreg₀, callerFrame] at h
    omega
  have hmem₂ (a : ℕ) (ha : a < (c.reg .rsp).toNat - 56 ∨ (c.reg .rsp).toNat ≤ a) : c₂.mem a =
    c₀.mem a :=
    hpush.frame a (by rw [hsp, hreg₀]; exact ha)
  have hmem (a : ℕ) (ha : a < (c.reg .rsp).toNat - 56 ∨ (c.reg .rsp).toNat ≤ a)
      (ha' : a < x.nextTask ∨ x.nextTask + 8 ≤ a) : c₂.mem a = c.mem a := by
    rw [hmem₂ a ha, hc₀]
    exact storeWord_of_out _ _ ha'
  have hnext : loadWord c₂.mem x.nextTask = BitVec.ofNat 64 (x.task j) := by
    rw [loadWord_congr fun a ha ha' => hmem₂ a (by omega), hc₀]
    exact loadWord_storeWord ..
  -- the exchange writes the caller's context and `current_task`
  obtain ⟨hmem₃, hsp₃⟩ := exec_exchange hcur hj
    (hcurrent ▸ loadWord_congr fun a ha ha' => hmem a (by omega) (by omega)) hnext
  obtain ⟨c₃, hc₃⟩ : ∃ c₃, c₃ = exec .rsp c₂ (exchange x) := ⟨_, rfl⟩
  rw [← hc₃] at hmem₃ hsp₃
  have hkept (a : ℕ) (ha : a < x.task cur ∨ x.task cur + 8 ≤ a) (ha' : a < x.currentTask ∨
    x.currentTask + 8 ≤ a) :
      c₃.mem a = c₂.mem a := by
    rw [hmem₃, storeWord_of_out _ _ ha', storeWord_of_out _ _ ha]
  have hpointer : (c₃.reg .rsp).toNat = ctx := by
    rw [hsp₃, ← hctx]
    exact congrArg _ (loadWord_congr fun a ha ha' =>
      (hkept a (by omega) (by omega)).trans (hmem a (by omega) (by omega)))
  -- the pops load the other frame
  have hpop : Popped .rsp c₃ frameRegs ws (exec .rsp c₃ (frameRegs.map Op.pop)) := by
    refine popped_registers (by decide) (by decide) ?_ hlen (by rw [hpointer, hlen]; exact hlt)
    rw [hpointer]
    refine hws.congr fun a ha ha' => ?_
    rw [hlen] at ha'
    exact ((hkept a (by omega) (by omega)).trans (hmem a (by omega) (by omega))).symm
  have hstep : callSwitch x c j ret = exec .rsp c₃ (frameRegs.map Op.pop) := by
    rw [hc₃, hc₂, hc₀]
    rfl
  rw [hstep]
  refine ⟨?_, ?_, ?_, hpop.values, ?_, fun a ha ha₁ ha₂ ha₃ => ?_⟩
  · rw [hpop.mem]
    have hwords := hpush.words
    rw [hsp] at hwords
    refine hwords.congr fun a ha ha' => ?_
    simp only [callerFrame, List.length_append, List.length_map, List.length_cons,
      List.length_nil] at ha'
    exact (hkept a (by omega) (by omega)).symm
  · rw [hpop.mem, hmem₃, loadWord_storeWord_of_disjoint _ _ (by omega), loadWord_storeWord, hsp]
  · rw [hpop.mem, hmem₃, loadWord_storeWord]
  · rw [hpop.pointer, hpointer, hlen, hctx]
  · rw [hpop.mem, hkept a ha₁ ha₂, hmem a ha ha₃]

/-! ## The frame of a new task -/

/-- The words of a frame, in the order they are pushed. -/
def frameValues (x : Image) (t : Task) : ℕ → List FrameWord → List Word
  | _, [] => []
  | sp, w :: ws => BitVec.ofNat 64 (w.value x.toKernelText t sp) :: frameValues x t (sp - 8) ws

@[simp] lemma frameValues_length (t : Task) (sp : ℕ) (ws : List FrameWord) :
    (frameValues x t sp ws).length = ws.length := by
  induction ws generalizing sp with
  | nil => rfl
  | cons w ws ih => simp [frameValues, ih]

lemma pushFrame_spec (t : Task) (m : Memory) {sp : ℕ} {ws : List FrameWord}
    (hroom : 8 * ws.length ≤ sp) :
    (pushFrame x t m sp ws).2 = sp - 8 * ws.length ∧
      Words (pushFrame x t m sp ws).1 (sp - 8 * ws.length) (frameValues x t sp ws).reverse ∧
      ∀ a, a < sp - 8 * ws.length ∨ sp ≤ a → (pushFrame x t m sp ws).1 a = m a := by
  induction ws generalizing m sp with
  | nil => simp [pushFrame, frameValues]
  | cons w ws ih =>
    rw [List.length_cons] at hroom ⊢
    obtain ⟨hend, hwords, hkept⟩ := @ih (store64 m (sp - 8) (w.value x.toKernelText t sp)) (sp - 8)
      (by omega)
    have hsub : sp - 8 - 8 * ws.length = sp - 8 * (ws.length + 1) := by omega
    have hadd : sp - 8 * (ws.length + 1) + 8 * ws.length = sp - 8 := by omega
    rw [hsub] at hend hwords hkept
    refine ⟨hend, ?_, fun a ha => (hkept a (by omega)).trans (storeLE_of_out _ _ (by omega))⟩
    rw [frameValues, List.reverse_cons, words_append]
    refine ⟨hwords, ?_, trivial⟩
    rw [List.length_reverse, frameValues_length, hadd, pushFrame]
    refine (loadWord_congr fun a ha _ => hkept a (Or.inr ha)).trans ?_
    exact loadWord_store64 ..

lemma ttaskInitStack_spec (m : Memory) {i : ℕ} (hi : i < maxTasks) {t : Task}
    (hroom : t.stack + 96 ≤ t.stackTop) (hlt : t.stackTop < 2 ^ 64)
    (hout : x.Outside t.stack t.stackTop) :
    (loadWord (ttaskInitStack x m i t) (x.task i)).toNat = t.stackTop - 96 ∧
      Words (ttaskInitStack x m i t) (t.stackTop - 96)
        (frameValues x t t.stackTop (freshFrame t.userMode)).reverse ∧
      ∀ a, a < t.stackTop - 96 ∨ t.stackTop ≤ a → a < x.task i ∨ x.task i + 8 ≤ a →
        ttaskInitStack x m i t a = m a := by
  have hlen : (freshFrame t.userMode).length = 12 := by cases t.userMode <;> rfl
  have hcell := x.cell hi
  unfold Image.Outside at hout
  obtain ⟨hend, hwords, hkept⟩ := @pushFrame_spec x t m t.stackTop (freshFrame t.userMode)
    (by rw [hlen]; omega)
  rw [hlen] at hend hwords hkept
  unfold ttaskInitStack
  dsimp only
  rw [hend, show 8 * 12 = 96 from rfl]
  refine ⟨?_, hwords.congr fun a ha ha' => ?_, fun a ha ha' => ?_⟩
  · rw [loadWord_store64, BitVec.toNat_ofNat, Nat.mod_eq_of_lt (by omega)]
  · rw [List.length_reverse, frameValues_length, hlen] at ha'
    exact (storeLE_of_out _ _ (by omega)).symm
  · exact (storeLE_of_out _ _ ha').trans (hkept a ha)

/-! ## The invariant of the system -/

structure Inv (x : Image) (s : System) : Prop where
  running : s.current ∉ s.parked
  index : ∀ i ∈ insert s.current s.parked, i < maxTasks
  current : loadWord s.cpu.mem x.currentTask = BitVec.ofNat 64 (x.task s.current)
  stack : ∀ i ∈ insert s.current s.parked, s.hi i < 2 ^ 64 ∧ x.Outside (s.lo i) (s.hi i)
  apart : ∀ i ∈ insert s.current s.parked, ∀ j ∈ insert s.current s.parked, i ≠ j →
    s.hi i ≤ s.lo j ∨ s.hi j ≤ s.lo i
  saved : ∀ j ∈ s.parked, s.lo j ≤ s.context x j ∧ s.context x j + 56 ≤ s.hi j

section Steps
variable {s s' : System} {i j : ℕ} {ret : Word}

/-- A switch to a parked task loads the frame its context points to. -/
lemma Inv.switched (h : Inv x s) (hj : j ∈ s.parked) (hroom : s.Room) {ws : List Word}
    (hlen : ws.length = 7) (hws : Words s.cpu.mem (s.context x j) ws) :
    Switched x s.cpu (callSwitch x s.cpu j ret) s.current j ret ws := by
  have hcur : s.current ∈ insert s.current s.parked := Finset.mem_insert_self ..
  have hj' : j ∈ insert s.current s.parked := Finset.mem_insert_of_mem hj
  have hne : j ≠ s.current := fun heq => h.running (heq ▸ hj)
  obtain ⟨hlo, hhi⟩ := hroom
  have hstack := h.stack _ hcur
  have hstack' := h.stack _ hj'
  have hapart := h.apart _ hj' _ hcur hne
  have hsaved := h.saved j hj
  unfold Image.Outside at hstack hstack'
  have hctx : (loadWord s.cpu.mem (x.task j)).toNat = s.context x j := rfl
  exact callSwitch_spec (h.index _ hcur) (h.index _ hj') hne h.current (by omega)
    (by unfold Image.Outside; omega) hlen
    hctx hws (by unfold Image.Outside; omega) (by omega) (by omega)

/-- A memory in which a parked task finds its frame and its stack as they are. -/
structure Keeps (x : Image) (s : System) (i : ℕ) (m : Memory) : Prop where
  context : loadWord m (x.task i) = loadWord s.cpu.mem (x.task i)
  live : ∀ a, s.context x i ≤ a → a < s.hi i → m a = s.cpu.mem a

lemma Switched.keeps {c : Processor} {ws : List Word} (h : Switched x s.cpu c s.current j ret ws)
    (hinv : Inv x s) (hroom : s.Room) (hi : i ∈ s.parked) : Keeps x s i c.mem := by
  have hcur : s.current ∈ insert s.current s.parked := Finset.mem_insert_self ..
  have hi' : i ∈ insert s.current s.parked := Finset.mem_insert_of_mem hi
  have hne : i ≠ s.current := fun heq => hinv.running (heq ▸ hi)
  obtain ⟨hlo, hhi⟩ := hroom
  have hstack := hinv.stack _ hcur
  have hstack' := hinv.stack _ hi'
  have hapart := hinv.apart _ hi' _ hcur hne
  have hsaved := hinv.saved i hi
  have hci := x.current_in
  have hni := x.next_in
  have hcell := x.cell (hinv.index _ hcur)
  have hcell' := x.cell (hinv.index _ hi')
  have hij := x.task_apart hne
  unfold Image.Outside at hstack hstack'
  refine ⟨loadWord_congr fun a ha ha' => ?_, fun a ha ha' => ?_⟩
  · exact h.kept a (by omega) (by omega) (by omega) (by omega)
  · exact h.kept a (by omega) (by omega) (by omega) (by omega)

/-- Every action leaves the parked tasks alone. -/
lemma Inv.keeps (h : Inv x s) {a : Action} (hstep : step x s a = some s') (hi : i ∈ s.parked) :
    Keeps x s i s'.cpu.mem ∧ s'.hi i = s.hi i ∧ s'.lo i = s.lo i := by
  cases a with simp only [step, Option.ite_none_right_eq_some, Option.some.injEq] at hstep
  | work c =>
    obtain ⟨hrespects, rfl⟩ := hstep
    obtain ⟨hlive, htask⟩ := hrespects.1 i hi
    exact ⟨⟨loadWord_congr fun a ha ha' => htask a ha' ha, fun a ha ha' => hlive a ha' ha⟩, rfl,
      rfl⟩
  | switch j ret =>
    obtain ⟨⟨hj, hroom⟩, rfl⟩ := hstep
    obtain ⟨ws, hlen, hws⟩ := exists_words s.cpu.mem (s.context x j) 7
    exact ⟨(h.switched hj hroom hlen hws).keeps h hroom hi, rfl, rfl⟩
  | exit j ret =>
    obtain ⟨⟨hj, hroom⟩, rfl⟩ := hstep
    obtain ⟨ws, hlen, hws⟩ := exists_words s.cpu.mem (s.context x j) 7
    exact ⟨(h.switched hj hroom hlen hws).keeps h hroom hi, rfl, rfl⟩
  | create k t =>
    obtain ⟨⟨hk, hcur, hpark, hroom, hlt, hdata, hapart⟩, rfl⟩ := hstep
    have hi' : i ∈ insert s.current s.parked := Finset.mem_insert_of_mem hi
    have hne : i ≠ k := fun heq => hpark (heq ▸ hi)
    have hsaved := h.saved i hi
    have hstack := h.stack i hi'
    have hapart := hapart i hi'
    have hcell := x.cell hk
    have hcell' := x.cell (h.index i hi')
    have hik := x.task_apart hne
    obtain ⟨-, -, hkept⟩ := ttaskInitStack_spec s.cpu.mem hk hroom hlt hdata
    unfold Image.Outside at hdata hstack
    refine ⟨⟨loadWord_congr fun a ha ha' => hkept a (by omega) (by omega), fun a ha ha' => ?_⟩,
      Function.update_of_ne hne .., Function.update_of_ne hne ..⟩
    exact hkept a (by omega) (by omega)

lemma Inv.step (h : Inv x s) {a : Action} (hstep : TaskSwitchAsm.step x s a = some s') : Inv x s' :=
  by
  have hkeeps (i : ℕ) (hi : i ∈ s.parked) := h.keeps hstep hi
  have hsaved (i : ℕ) (hi : i ∈ s.parked) : s'.lo i ≤ s'.context x i ∧
    s'.context x i + 56 ≤ s'.hi i := by
    obtain ⟨hkeep, hhi, hlo⟩ := hkeeps i hi
    rw [System.context, hkeep.context, hhi, hlo]
    exact h.saved i hi
  cases a with simp only [TaskSwitchAsm.step, Option.ite_none_right_eq_some,
    Option.some.injEq] at hstep
  | work c =>
    obtain ⟨hrespects, rfl⟩ := hstep
    refine ⟨h.running, h.index, ?_, h.stack, h.apart, hsaved⟩
    rw [← h.current]
    exact loadWord_congr fun a ha ha' => hrespects.2 a ha' ha
  | switch j ret =>
    obtain ⟨⟨hj, hroom⟩, rfl⟩ := hstep
    obtain ⟨ws, hlen, hws⟩ := exists_words s.cpu.mem (s.context x j) 7
    have hswitched := @Inv.switched x s j ret h hj hroom ws hlen hws
    have hne : j ≠ s.current := fun heq => h.running (heq ▸ hj)
    have halive : insert j (insert s.current (s.parked.erase j)) = insert s.current s.parked := by
      rw [Finset.insert_comm, Finset.insert_erase hj]
    refine ⟨by simp [hne], halive ▸ h.index, hswitched.current, halive ▸ h.stack, halive ▸ h.apart,
      fun i hi => ?_⟩
    rcases Finset.mem_insert.mp hi with rfl | hi
    · have hcontext := hswitched.context
      unfold System.Room at hroom
      simp only [System.context, hcontext]
      omega
    · exact hsaved i (Finset.mem_of_mem_erase hi)
  | exit j ret =>
    obtain ⟨⟨hj, hroom⟩, rfl⟩ := hstep
    obtain ⟨ws, hlen, hws⟩ := exists_words s.cpu.mem (s.context x j) 7
    have hswitched := @Inv.switched x s j ret h hj hroom ws hlen hws
    have hsub : insert j (s.parked.erase j) ⊆ insert s.current s.parked := by
      rw [Finset.insert_erase hj]
      exact Finset.subset_insert ..
    exact ⟨by simp, fun i hi => h.index i (hsub hi), hswitched.current,
      fun i hi => h.stack i (hsub hi),
      fun i hi k hk => h.apart i (hsub hi) k (hsub hk), fun i hi =>
        hsaved i (Finset.mem_of_mem_erase hi)⟩
  | create k t =>
    obtain ⟨⟨hk, hcur, hpark, hroom, hlt, hdata, hapart⟩, rfl⟩ := hstep
    obtain ⟨hcontext, -, hkept⟩ := ttaskInitStack_spec s.cpu.mem hk hroom hlt hdata
    have hne (i : ℕ) (hi : i ∈ insert s.current s.parked) : i ≠ k := by
      rintro rfl
      rcases Finset.mem_insert.mp hi with rfl | hi
      · exact hcur rfl
      · exact hpark hi
    have hold (i : ℕ) (hi : i ∈ insert s.current s.parked) :
        Function.update s.lo k t.stack i = s.lo i ∧ Function.update s.hi k t.stackTop i = s.hi i :=
      ⟨Function.update_of_ne (hne i hi) .., Function.update_of_ne (hne i hi) ..⟩
    have hci := x.current_in
    have hcell := x.cell hk
    refine ⟨?_, ?_, ?_, ?_, ?_, ?_⟩ <;> dsimp only
    · simp [hcur.symm, h.running]
    · rw [Finset.insert_comm]
      exact Finset.forall_mem_insert .. |>.mpr ⟨hk, h.index⟩
    · rw [← h.current]
      unfold Image.Outside at hdata
      exact loadWord_congr fun a ha ha' => hkept a (by omega) (by omega)
    · rw [Finset.insert_comm]
      refine (Finset.forall_mem_insert ..).mpr ⟨?_, fun i hi => ?_⟩
      · simpa using ⟨hlt, hdata⟩
      · rw [(hold i hi).1, (hold i hi).2]
        exact h.stack i hi
    · rw [Finset.insert_comm]
      refine (Finset.forall_mem_insert ..).mpr ⟨(Finset.forall_mem_insert ..).mpr ⟨by simp,
        fun j hj _ => ?_⟩,
        fun i hi => (Finset.forall_mem_insert ..).mpr ⟨fun _ => ?_, fun j hj hij => ?_⟩⟩
      · simpa [(hold j hj).1, (hold j hj).2] using hapart j hj
      · simpa [(hold i hi).1, (hold i hi).2] using (hapart i hi).symm
      · rw [(hold i hi).1, (hold i hi).2, (hold j hj).1, (hold j hj).2]
        exact h.apart i hi j hj hij
    · refine (Finset.forall_mem_insert ..).mpr ⟨?_, hsaved⟩
      simp only [System.context, hcontext, Function.update_self]
      omega

end Steps

/-! ## Coming back -/

/-- A task as it was left: parked with its frame, or running again with the registers of it, and
with the same bytes on its stack. -/
def LeftAs (x : Image) (i : ℕ) (ws : List Word) (sp : ℕ) (m : Memory) (hi : ℕ)
    (s : System) : Prop :=
  s.hi i = hi ∧ (∀ a, sp ≤ a → a < hi → s.cpu.mem a = m a) ∧
    (i ∈ s.parked ∧ s.context x i + 56 = sp ∧ Words s.cpu.mem (s.context x i) ws ∨
      i = s.current ∧ frameRegs.map s.cpu.reg = ws ∧ (s.cpu.reg .rsp).toNat = sp)

/-- An action of another task. -/
lemma LeftAs.step {s s' : System} {i sp hi : ℕ} {ws : List Word} {m : Memory}
    (h : LeftAs x i ws sp m hi s) (hinv : Inv x s) (hlen : ws.length = 7) {a : Action}
    (hother : s.current ≠ i) (hstep : TaskSwitchAsm.step x s a = some s') :
    LeftAs x i ws sp m hi s' := by
  obtain ⟨hhi, hbytes, ⟨hi, hcontext, hwords⟩ | ⟨rfl, -⟩⟩ := h
  · obtain ⟨hkeep, hhi', -⟩ := hinv.keeps hstep hi
    have hsaved := hinv.saved i hi
    have hbytes' (a : ℕ) (ha : sp ≤ a) (ha' : a < s.hi i) : s'.cpu.mem a = m a := by
      rw [hkeep.live a (by omega) ha', hbytes a ha (hhi ▸ ha')]
    have hparked (hmem : i ∈ s'.parked) :
        i ∈ s'.parked ∧ s'.context x i + 56 = sp ∧ Words s'.cpu.mem (s'.context x i) ws := by
      have hsame : s'.context x i = s.context x i := by
        rw [System.context, hkeep.context, System.context]
      refine ⟨hmem, hsame ▸ hcontext, hsame ▸ hwords.congr fun a ha ha' => ?_⟩
      rw [hlen] at ha'
      exact (hkeep.live a ha (by omega)).symm
    -- the frame was loaded if this task was switched to
    have hback {j : ℕ} {ret : Word} (hroom : s.Room) (heq : i = j) :
        frameRegs.map (callSwitch x s.cpu j ret).reg = ws ∧
          ((callSwitch x s.cpu j ret).reg .rsp).toNat = sp := by
      subst heq
      have hswitched := @Inv.switched x s i ret hinv hi hroom ws hlen hwords
      exact ⟨hswitched.loaded, hswitched.pointer.trans hcontext⟩
    refine ⟨hhi'.trans hhi, hhi ▸ hbytes', ?_⟩
    cases a with simp only [TaskSwitchAsm.step, Option.ite_none_right_eq_some,
      Option.some.injEq] at hstep
    | work c =>
      obtain ⟨-, rfl⟩ := hstep
      exact Or.inl (hparked hi)
    | switch j ret =>
      obtain ⟨⟨-, hroom⟩, rfl⟩ := hstep
      by_cases heq : i = j
      · exact Or.inr ⟨heq, hback hroom heq⟩
      · exact Or.inl (hparked (Finset.mem_insert_of_mem (Finset.mem_erase.mpr ⟨heq, hi⟩)))
    | exit j ret =>
      obtain ⟨⟨-, hroom⟩, rfl⟩ := hstep
      by_cases heq : i = j
      · exact Or.inr ⟨heq, hback hroom heq⟩
      · exact Or.inl (hparked (Finset.mem_erase.mpr ⟨heq, hi⟩))
    | create k t =>
      obtain ⟨-, rfl⟩ := hstep
      exact Or.inl (hparked (Finset.mem_insert_of_mem hi))
  · exact absurd rfl hother

/-- A run of the other tasks, up to the point where the task runs again. -/
lemma LeftAs.run {u t : System} {i sp hi : ℕ} {ws : List Word} {m : Memory}
    (h : LeftAs x i ws sp m hi u) (hinv : Inv x u) (hlen : ws.length = 7) (actions : List Action)
    (hrun : Runs.exec (guarded (TaskSwitchAsm.step x) fun v _ => v.current ≠ i) u actions = some t)
    (hback : t.current = i) :
    frameRegs.map t.cpu.reg = ws ∧ (t.cpu.reg .rsp).toNat = sp ∧ ∀ a, sp ≤ a → a < hi →
      t.cpu.mem a = m a := by
  have hall (v : System) (a : Action) (v' : System) (hv : Inv x v ∧ LeftAs x i ws sp m hi v)
      (hstep : guarded (TaskSwitchAsm.step x) (fun v _ => v.current ≠ i) v a = some v') :
      Inv x v' ∧ LeftAs x i ws sp m hi v' := by
    obtain ⟨hother, hstep⟩ := (guarded_eq_some ..).mp hstep
    exact ⟨hv.1.step hstep, hv.2.step hv.1 hlen hother hstep⟩
  obtain ⟨hinv', hleft⟩ := exec_invariant hall actions ⟨hinv, h⟩ hrun
  obtain ⟨-, hbytes, ⟨hmem, -⟩ | ⟨-, hregs, hsp⟩⟩ := hleft
  · exact absurd (hback ▸ hmem) hinv'.running
  · exact ⟨hregs, hsp, hbytes⟩

/-- To the task that makes it, a call of `ttask_switch_ctx` is an ordinary call: in every run of the
other tasks, when the caller runs again it is at its return address with the registers a call keeps,
its stack pointer and everything that was on its stack. -/
theorem resumed_as_left (s u t : System) (hinv : Inv x s) (j : ℕ) (ret : Word)
    (hcall : step x s (.switch j ret) = some u) (actions : List Action)
    (hrun : Runs.exec (guarded (step x) fun v _ => v.current ≠ s.current) u actions = some t)
    (hback : t.current = s.current) :
    (∀ r ∈ calleeSaved, t.cpu.reg r = s.cpu.reg r) ∧ t.cpu.reg .rsp = s.cpu.reg .rsp ∧
      t.cpu.reg .rip = ret ∧
      ∀ a, (s.cpu.reg .rsp).toNat ≤ a → a < s.hi s.current → t.cpu.mem a = s.cpu.mem a := by
  have hinv' := hinv.step hcall
  simp only [step, Option.ite_none_right_eq_some, Option.some.injEq] at hcall
  obtain ⟨⟨hj, hroom⟩, rfl⟩ := hcall
  have hcur : s.current ∈ insert s.current s.parked := Finset.mem_insert_self ..
  obtain ⟨ws, hlen, hws⟩ := exists_words s.cpu.mem (s.context x j) 7
  have hswitched := @Inv.switched x s j ret hinv hj hroom ws hlen hws
  have hstack := hinv.stack _ hcur
  have hcell := x.cell (hinv.index _ hcur)
  have hci := x.current_in
  have hni := x.next_in
  unfold Image.Outside at hstack
  unfold System.Room at hroom
  have hleft : LeftAs x s.current (callerFrame s.cpu ret)
      (s.cpu.reg .rsp).toNat s.cpu.mem (s.hi s.current) { s with
        cpu := callSwitch x s.cpu j ret
        current := j
        parked := insert s.current (s.parked.erase j) } := by
    refine ⟨rfl, fun a ha ha' => ?_, Or.inl ⟨Finset.mem_insert_self .., ?_, ?_⟩⟩
    · exact hswitched.kept a (by omega) (by omega) (by omega) (by omega)
    · rw [System.context, hswitched.context]
      omega
    · rw [System.context, hswitched.context]
      exact hswitched.saved
  obtain ⟨hregs, hsp, hbytes⟩ := LeftAs.run hleft hinv' rfl actions hrun hback
  simp only [frameRegs, callerFrame, List.map_cons, List.map_nil, List.cons_append, List.nil_append,
    List.cons.injEq, and_true] at hregs
  exact ⟨by simp [calleeSaved, hregs], BitVec.eq_of_toNat_eq hsp, hregs.2.2.2.2.2.2, hbytes⟩

def sampleImage : Image where
  ttaskEntry := 0x10
  ttaskEntryIret := 0x20
  pickSwitchReturn := 0x30
  blockReturn := 0x40
  bootStack := 0x1000
  stackTop := 0x5000
  currentTask := 0x110000
  nextTask := 0x110008
  tasks := 0x100000
  dataLo := 0x100000
  dataHi := 0x110010
  current_in := by decide
  next_in := by decide
  tasks_in := by decide
  data_lt := by decide
  current_next := by decide
  current_tasks := by decide
  next_tasks := by decide

/-- The idle task on the boot stack. -/
def idle : System where
  cpu := ⟨fun _ => 0x4000, storeWord (fun _ => 0) 0x110000 (BitVec.ofNat 64 (sampleImage.task 0))⟩
  current := 0
  parked := ∅
  lo := fun _ => 0x1000
  hi := fun _ => 0x5000

lemma idle_inv : Inv sampleImage idle where
  running := by decide
  index := by decide
  current := loadWord_storeWord ..
  stack := by decide
  apart := by decide
  saved := by decide

def sampleTask : Task := { blank with state := .ready, stack := 0x20000, stackSize := 0x2000 }

/-- The idle task has created a task. -/
def idleAndTask : System :=
  { idle with
    cpu := { idle.cpu with mem := ttaskInitStack sampleImage idle.cpu.mem 1 sampleTask }
    parked := insert 1 idle.parked
    lo := Function.update idle.lo 1 sampleTask.stack
    hi := Function.update idle.hi 1 sampleTask.stackTop }

lemma step_idle : step sampleImage idle (.create 1 sampleTask) = some idleAndTask := by
  rw [step, if_pos (by decide)]
  rfl

/-- The new task runs. -/
def taskRunning : System :=
  { idleAndTask with
    cpu := callSwitch sampleImage idleAndTask.cpu 1 0x30
    current := 1
    parked := {0} }

lemma step_idleAndTask : step sampleImage idleAndTask (.switch 1 0x30) = some taskRunning := by
  rw [step, if_pos (by decide)]
  rfl

/-- The idle task switches to the new task, which switches back. -/
theorem resumed_idle :
    ∃ t, Runs.exec (guarded (step sampleImage) fun v _ => v.current ≠
      0) taskRunning [.switch 0 0x30] = some t ∧
      t.cpu.reg .rbp = 0x4000 ∧ t.cpu.reg .rsp = 0x4000 := by
  have hroom : taskRunning.Room := by decide +kernel
  have hback : Runs.exec (guarded (step sampleImage) fun v _ => v.current ≠
    0) taskRunning [.switch 0 0x30] = some
      { taskRunning with
        cpu := callSwitch sampleImage taskRunning.cpu 0 0x30
        current := 0
        parked := insert taskRunning.current (taskRunning.parked.erase 0) } := by
    simp [guarded, step, hroom, show taskRunning.current = 1 from rfl, show taskRunning.parked =
      {0} from rfl]
  have hsame :=
    resumed_as_left idleAndTask taskRunning _ (idle_inv.step step_idle) 1 0x30 step_idleAndTask _
      hback rfl
  exact ⟨_, hback, hsame.1 .rbp (by decide), hsame.2.1⟩

/-- What a new task starts with. -/
def Image.start (x : Image) (t : Task) : ReturnFrame :=
  if t.userMode then ⟨BitVec.ofNat 64 t.fn, 0x1B, 0x202, BitVec.ofNat 64 t.userRsp, 0x23⟩
  else ⟨BitVec.ofNat 64 x.ttaskEntry, 0x08, 0x202, BitVec.ofNat 64 (t.stackTop - 8), 0x10⟩

lemma freshFrame_values (t : Task) :
    (frameValues x t t.stackTop (freshFrame t.userMode)).reverse =
      [0, 0, 0, 0, 0, 0, BitVec.ofNat 64 x.ttaskEntryIret] ++ (x.start t).words := by
  cases h : t.userMode <;>
    simp [freshFrame, userFrame, kernelFrame, savedRegisters, frameValues, FrameWord.value,
      Image.start, h, ReturnFrame.words]

/-- When a new task runs for the first time it is at `ttask_entry_iret`, and the `iretq` there
starts it: a kernel task in `ttask_entry` one word below the top of its stack, a user task in ring 3
at its entry point and its user stack. -/
theorem fresh_start (s u v : System) (hinv : Inv x s) (i : ℕ) (t : Task)
    (hcreate : step x s (.create i t) = some u) (actions : List Action)
    (hrun : Runs.exec (guarded (step x) fun w _ => w.current ≠ i) u actions = some v)
    (hback : v.current = i) :
    v.cpu.reg .rip = BitVec.ofNat 64 x.ttaskEntryIret ∧ returnRegs.map (iretq v.cpu).reg =
      (x.start t).words := by
  have hinv' := hinv.step hcreate
  simp only [step, Option.ite_none_right_eq_some, Option.some.injEq] at hcreate
  obtain ⟨⟨hi, hcur, hpark, hroom, hlt, hdata, hapart⟩, rfl⟩ := hcreate
  obtain ⟨hcontext, hwords, -⟩ := ttaskInitStack_spec s.cpu.mem hi hroom hlt hdata
  rw [freshFrame_values, words_append] at hwords
  obtain ⟨hsaved, hframe⟩ := hwords
  have hsp : t.stackTop - 96 + 56 = t.stackTop - 40 := by omega
  obtain ⟨m, hm⟩ : ∃ m, m = ttaskInitStack x s.cpu.mem i t := ⟨_, rfl⟩
  rw [← hm] at hcontext hsaved hframe
  rw [← hm] at hrun hinv'
  have hleft : LeftAs x i [0, 0, 0, 0, 0, 0, BitVec.ofNat 64 x.ttaskEntryIret]
    (t.stackTop - 40) m t.stackTop
      { s with
        cpu := { s.cpu with mem := m }
        parked := insert i s.parked
        lo := Function.update s.lo i t.stack
        hi := Function.update s.hi i t.stackTop } := by
    refine ⟨by simp, fun _ _ _ => rfl, Or.inl ⟨Finset.mem_insert_self .., ?_, ?_⟩⟩
    · rw [System.context, hcontext, hsp]
    · rw [System.context, hcontext]
      exact hsaved
  obtain ⟨hregs, hrsp, hbytes⟩ := LeftAs.run hleft hinv' rfl actions hrun hback
  simp only [frameRegs, List.map_cons, List.map_nil, List.cons.injEq, and_true] at hregs
  refine ⟨hregs.2.2.2.2.2.2, (iretq_spec ?_).1⟩
  rw [hrsp]
  refine Words.congr (m := m) ?_ fun a ha ha' => (hbytes a ha ?_).symm
  · simpa [hsp] using hframe
  · have hlen : (x.start t).words.length = 5 := rfl
    rw [hlen] at ha'
    omega

/-- The first run of the sample task. -/
theorem sampleTask_start :
    taskRunning.cpu.reg .rip = 0x20 ∧
      returnRegs.map (iretq taskRunning.cpu).reg = [0x10, 0x08, 0x202, 0x21ff8, 0x10] := by
  have hrun : Runs.exec (guarded (step sampleImage) fun v _ => v.current ≠
      1) idleAndTask [.switch 1 0x30] = some taskRunning := by
    rw [Runs.exec_cons, guarded, if_pos (by decide), step_idleAndTask]
    rfl
  exact fresh_start idle idleAndTask taskRunning idle_inv 1 sampleTask step_idle _ hrun rfl

end TraitOS.TaskSwitchAsm
