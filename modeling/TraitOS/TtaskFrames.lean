import TraitOS.TtaskPreempt

/-!
# Frames on the kernel stacks

The kernel with stacks in memory. A task that is not running keeps its frame on its own stack,
through every switch, tick, exit and wake-up.
-/
namespace TraitOS.Ttask
open MachineWord

/-- What the running task or the timer does. Where a switch may follow, the stack pointer and the
registers of the running task are given. -/
inductive KernOp where
  | create (fn arg stack : ℕ)
  | createUser (entry aspace userRsp stack : ℕ)
  | advance
  /-- The timer, in kernel code. -/
  | tick (sp : ℕ) (regs : ℕ → ℕ)
  /-- The timer, in ring 3. What is pushed before the switch takes `depth` bytes. -/
  | userTick (depth : ℕ) (regs : ℕ → ℕ)
  | yield (sp : ℕ) (regs : ℕ → ℕ)
  | block (sp : ℕ) (regs : ℕ → ℕ)
  | exit (sp : ℕ) (regs : ℕ → ℕ)
  | wake (id : ℕ)
  | setIntr (on : Bool)
  | store (addr value : ℕ)

/-! ## The model -/

section Model
variable (x : KernelText)

/-- The stack pointer leaves room for a frame on the stack of the running task. -/
def OnStack (k : Kern) (sp : ℕ) : Prop :=
  stackLo x k.sched k.sched.current + 56 ≤ sp ∧ sp ≤ stackHi x k.sched k.sched.current ∧ sp % 8 = 0

instance (k : Kern) (sp : ℕ) : Decidable (OnStack x k sp) := inferInstanceAs (Decidable (_ ∧ _))

/-- An address on the stack of another task. -/
def OnOtherStack (k : Kern) (addr : ℕ) : Prop :=
  ∃ j < maxTasks, j ≠ k.sched.current ∧ stackLo x k.sched j ≤ addr ∧ addr < stackHi x k.sched j

instance (k : Kern) (addr : ℕ) : Decidable (OnOtherStack x k addr) :=
  inferInstanceAs (Decidable (∃ _ < _, _))

/-- `ttask_switch_ctx`: the return address and six registers go on the stack of the running task,
and the running task of the table continues with its own interrupt flag. -/
def Kern.switchCtx (k : Kern) (sp : ℕ) (regs : ℕ → ℕ) (ret : ℕ) (flag : Bool) (s : Sched) : Kern :=
  { k with
    sched := s
    context := Function.update k.context k.sched.current (sp - 56)
    mem := fun a => if a = sp - 8 then ret else if sp - 56 ≤ a ∧ a < sp - 8 then regs a else k.mem a
    intr := Function.update k.savedIntr k.sched.current flag s.current
    savedIntr := Function.update k.savedIntr k.sched.current flag }

def Kern.pickSwitch (k : Kern) (sp : ℕ) (regs : ℕ → ℕ) (flag : Bool) : Kern :=
  let next := ttaskPickNext k.sched
  let t := k.sched.tasks next
  if next = k.sched.current then k
  else Kern.switchCtx { k with rsp0 := if t.stack ≠ 0 then t.stack + t.stackSize else x.stackTop }
    sp regs
    x.pickSwitchReturn flag (ttaskPickSwitch k.sched)

def Kern.block (k : Kern) (sp : ℕ) (regs : ℕ → ℕ) : Kern :=
  if ttaskPickNext (park k.sched) = k.sched.current then { k with sched := ttaskBlock k.sched }
  else k.switchCtx sp regs x.blockReturn k.intr (ttaskBlock k.sched)

/-- The timer interrupt; `iretq` sets the flag again. -/
def Kern.tick (k : Kern) (sp : ℕ) (regs : ℕ → ℕ) : Kern :=
  let t := k.sched.tasks k.sched.current
  (k.setTask k.sched.current { t with ticks := incr32 t.ticks, slice := t.slice - 1 }).pickSwitch x
    sp regs true

/-- Memory below an address is overwritten. -/
def Kern.push (k : Kern) (top depth : ℕ) (regs : ℕ → ℕ) : Kern :=
  { k with mem := fun a => if top - depth ≤ a ∧ a < top then regs a else k.mem a }

/-- The processor pushes from `rsp0` down, whoever's stack that is. -/
def Kern.userTick (k : Kern) (depth : ℕ) (regs : ℕ → ℕ) : Kern :=
  (k.push k.rsp0 depth regs).tick x (k.rsp0 - depth) regs

def Kern.exit (k : Kern) (sp : ℕ) (regs : ℕ → ℕ) : Kern :=
  let exited := k.setTask k.sched.current { k.sched.tasks k.sched.current with state := .exited }
  if ttaskPickNext exited.sched = k.sched.current then { exited with intr := false, halted := true }
  else exited.pickSwitch x sp regs false

/-- The creators at work after a statement of one of them. A task whose record is cleared is gone,
and so is the creator it was in. -/
def Kern.afterClear (k : Kern) (c : Creation) : ℕ → Option Creation :=
  if c.rest.head? = some .clear then Function.update k.creating c.slot none else k.creating

/-- One action. While a creator is at work its task does nothing else; only the timer can come
between. -/
def kernStep (k : Kern) (op : KernOp) : Option Kern :=
  let cur := k.sched.current
  if k.halted then none
  else match op, k.creating cur with
    | .create fn arg stack, none =>
      some { k with
        creating := Function.update k.creating cur (some ⟨0, 0, stack, createProgram fn arg⟩) }
    | .createUser entry aspace userRsp stack, none =>
      some { k with
        creating := Function.update k.creating cur (some ⟨0, 0, stack,
          createUserProgram entry aspace userRsp⟩) }
    | .advance, some c =>
      (Ttask.advance x k c).map fun r =>
        { r.1 with creating := Function.update (k.afterClear c) cur r.2 }
    | .tick sp regs, _ => if k.intr then some (k.tick x sp regs) else none
    | .userTick depth regs, none =>
      if k.intr = true ∧ (k.sched.tasks cur).userMode = true then some (k.userTick x depth regs)
        else none
    | .yield sp regs, none => some (k.pickSwitch x sp regs k.intr)
    | .block sp regs, none => some (k.block x sp regs)
    | .exit sp regs, none => some (k.exit x sp regs)
    | .wake id, none => some { k with sched := ttaskWake k.sched id }
    | .setIntr on, none => some { k with intr := on }
    | .store addr value, none => some { k with mem := Function.update k.mem addr value }
    | _, _ => none

/-- The creator has found its slot and not stored the context of the new task. -/
def Creation.placing (c : Creation) : Bool := !c.rest.contains .search && c.rest.contains .context

/-- If the next statement takes a stack from the allocator, it is apart from the others. -/
def StackGranted (k : Kern) (c : Creation) : Prop :=
  c.rest.head? = some .stack → c.stack = 0 ∨ FreshStack x k.sched c.stack

instance (k : Kern) (c : Creation) : Decidable (StackGranted x k c) :=
  inferInstanceAs (Decidable (_ → _))

/-- A creator works with interrupts masked from the slot it found to the store of its context, and
is given a stack of its own. Whoever is switched away is on their own stack; in ring 3 that is the
stack `rsp0` names. Nobody stores on the stack of another task. -/
def Masked (k : Kern) : KernOp → Prop
  | .advance => ∀ c ∈ k.creating k.sched.current,
      (c.placing = true → k.intr = false) ∧ StackGranted x k c
  | .tick sp _ | .yield sp _ | .block sp _ | .exit sp _ => OnStack x k sp
  | .userTick depth _ =>
    k.rsp0 = stackHi x k.sched k.sched.current ∧ OnStack x k (k.rsp0 - depth)
  | .store addr _ => ¬ OnOtherStack x k addr
  | _ => True

instance (k : Kern) : (op : KernOp) → Decidable (Masked x k op)
  | .advance => inferInstanceAs (Decidable (∀ c ∈ _, _))
  | .tick .. | .yield .. | .block .. | .exit .. => inferInstanceAs (Decidable (OnStack _ _ _))
  | .userTick .. => inferInstanceAs (Decidable (_ ∧ _))
  | .store .. => inferInstanceAs (Decidable (¬ _))
  | .create .. | .createUser .. | .wake _ | .setIntr _ => inferInstanceAs (Decidable True)

/-- A frame `iretq` can take: to the entry of all tasks in ring 0, or into a program in ring 3. -/
def IretFrame (mem : ℕ → ℕ) (p : ℕ) : Prop :=
  mem (p + 16) = 0x202 ∧
    (mem p = x.ttaskEntry ∧ mem (p + 8) = 0x08 ∧ mem (p + 32) = 0x10 ∨ mem (p + 8) = 0x1B ∧
      mem (p + 32) = 0x23)

instance (mem : ℕ → ℕ) (p : ℕ) : Decidable (IretFrame x mem p) :=
  inferInstanceAs (Decidable (_ ∧ _))

/-- The context of a task is on its own stack, at six registers and the address in the scheduler
they return to, or at the frame of a task that never ran. -/
def Resumable (k : Kern) (i : ℕ) : Prop :=
  let p := k.context i
  0 < stackLo x k.sched i ∧ stackLo x k.sched i ≤ p ∧ p % 8 = 0 ∧
    (p + 56 ≤ stackHi x k.sched i ∧ (k.mem (p + 48) = x.pickSwitchReturn ∨
      k.mem (p + 48) = x.blockReturn) ∨
      p + 96 ≤ stackHi x k.sched i ∧ k.mem (p + 48) = x.ttaskEntryIret ∧ IretFrame x k.mem (p + 56))

instance (k : Kern) (i : ℕ) : Decidable (Resumable x k i) := inferInstanceAs (Decidable (_ ∧ _))

end Model

/-- After `ttask_init`, with any memory. -/
def bootKern (mem : ℕ → ℕ) (rsp0 : ℕ) (intr : Bool) : Kern where
  sched := ttaskInit
  context := fun _ => 0
  mem := mem
  rsp0 := rsp0
  intr := intr
  savedIntr := fun _ => false
  halted := false
  creating := fun _ => none

/-! ## Stacks and frames -/

/-- A task that is READY or BLOCKED. -/
def Alive (s : Sched) (i : ℕ) : Prop := s.state i = .ready ∨ s.state i = .blocked

/-- Every task but the running one has its frame, and the stacks of all tasks are apart. -/
structure Stacks (x : KernelText) (k : Kern) : Prop where
  boot : 0 < x.bootStack
  saved : ∀ i < maxTasks, i ≠ k.sched.current → Alive k.sched i → Resumable x k i
  owned : ∀ i < maxTasks, i ≠ 0 → Alive k.sched i → (k.sched.kernelStack i).stack ≠ 0
  placed : ∀ i < maxTasks, (k.sched.kernelStack i).stack ≠ 0 → (k.sched.kernelStack i).stackSize =
    stackBytes ∧
    ((k.sched.kernelStack i).stack + stackBytes ≤ x.bootStack ∨
      x.stackTop ≤ (k.sched.kernelStack i).stack)
  apart : ∀ i < maxTasks, ∀ j < maxTasks, i ≠ j → (k.sched.kernelStack i).stack ≠ 0 →
    (k.sched.kernelStack j).stack ≠ 0 →
      (k.sched.kernelStack i).stack + stackBytes ≤ (k.sched.kernelStack j).stack ∨
        (k.sched.kernelStack j).stack + stackBytes ≤ (k.sched.kernelStack i).stack
  home : k.sched.current ≠ 0 → (k.sched.kernelStack k.sched.current).stack ≠ 0

/-- The stacks are in order and the running task is READY. -/
structure Settled (x : KernelText) (k : Kern) : Prop extends Stacks x k where
  running : k.halted = false → k.sched.state k.sched.current = .ready

section Frames
variable {x : KernelText} {k k' : Kern} {i : ℕ}

lemma stackLo_congr {s s' : Sched} (h : s'.kernelStack i = s.kernelStack i) : stackLo x s' i =
    stackLo x s i := by
  have hstack : (s'.tasks i).stack = (s.tasks i).stack := congrArg KernelStack.stack h
  rw [stackLo, stackLo, hstack]

lemma stackHi_congr {s s' : Sched} (h : s'.kernelStack i = s.kernelStack i) : stackHi x s' i =
    stackHi x s i := by
  have hstack : (s'.tasks i).stack = (s.tasks i).stack := congrArg KernelStack.stack h
  have hsize : (s'.tasks i).stackSize = (s.tasks i).stackSize := congrArg KernelStack.stackSize h
  rw [stackHi, stackHi, hstack, hsize]

/-- A frame stays as long as nothing is written to the stack it is on. -/
lemma Resumable.congr (h : Resumable x k i)
    (hstack : k'.sched.kernelStack i = k.sched.kernelStack i)
    (hcontext : k'.context i = k.context i)
    (hmem : ∀ a, stackLo x k.sched i ≤ a → a < stackHi x k.sched i → k'.mem a = k.mem a) :
    Resumable x k' i := by
  unfold Resumable at h ⊢
  dsimp only at h ⊢
  rw [stackLo_congr hstack, stackHi_congr hstack, hcontext]
  obtain ⟨hpos, hlo, halign, ⟨hhi, hret⟩ | ⟨hhi, hret, hframe⟩⟩ := h
  · refine ⟨hpos, hlo, halign, Or.inl ⟨hhi, ?_⟩⟩
    rwa [hmem _ (by omega) (by omega)]
  · refine ⟨hpos, hlo, halign, Or.inr ⟨hhi, ?_, ?_⟩⟩
    · rwa [hmem _ (by omega) (by omega)]
    · unfold IretFrame at hframe ⊢
      rwa [hmem _ (by omega) (by omega), hmem _ (by omega) (by omega), hmem _ (by omega) (by omega),
        hmem _ (by omega) (by omega)]

lemma Stacks.lo_pos (h : Stacks x k) : 0 < stackLo x k.sched k.sched.current := by
  have hboot := h.boot
  have hhome : k.sched.current ≠ 0 → (k.sched.tasks k.sched.current).stack ≠ 0 := h.home
  unfold stackLo
  split_ifs with hzero
  · exact hboot
  · by_cases h0 : k.sched.current = 0
    · have hstack : (k.sched.tasks k.sched.current).stack ≠ 0 := fun hz => hzero ⟨h0, hz⟩
      omega
    · have hstack := hhome h0
      omega

/-- The stack of the running task and that of another one have no byte in common. -/
lemma Stacks.disjoint (h : Stacks x k) (hi : i < maxTasks) (hne : i ≠ k.sched.current)
    (halive : Alive k.sched i) :
    stackHi x k.sched k.sched.current ≤ stackLo x k.sched i ∨
      stackHi x k.sched i ≤ stackLo x k.sched k.sched.current := by
  have hcur := k.sched.current_lt
  have hplaced := h.placed
  have hhome := h.home
  have howned := h.owned i hi
  have hapart := h.apart i hi _ hcur hne
  unfold stackHi stackLo
  unfold Sched.kernelStack Task.kernelStack at *
  dsimp only at *
  by_cases hzero : i = 0 ∧ (k.sched.tasks i).stack = 0
  · have hnot : k.sched.current ≠ 0 := fun h0 => hne (hzero.1.trans h0.symm)
    have hother := hplaced _ hcur (hhome hnot)
    rw [if_pos hzero, if_pos hzero, if_neg fun hc => hnot hc.1, if_neg fun hc => hnot hc.1]
    omega
  · have hstack : (k.sched.tasks i).stack ≠ 0 := by
      by_cases h0 : i = 0
      · exact fun hz => hzero ⟨h0, hz⟩
      · exact howned h0 halive
    have hown := hplaced i hi hstack
    rw [if_neg hzero, if_neg hzero]
    by_cases hboot : k.sched.current = 0 ∧ (k.sched.tasks k.sched.current).stack = 0
    · rw [if_pos hboot, if_pos hboot]
      omega
    · have hcurrent : (k.sched.tasks k.sched.current).stack ≠ 0 := by
        by_cases h0 : k.sched.current = 0
        · exact fun hz => hboot ⟨h0, hz⟩
        · exact hhome h0
      have hsize := (hplaced _ hcur hcurrent).1
      rw [if_neg hboot, if_neg hboot]
      have hpair := hapart hstack hcurrent
      omega

/-- A change of the table that wakes nobody from the dead and leaves the stacks. -/
lemma Stacks.table (h : Stacks x k) (hcurrent : k'.sched.current = k.sched.current)
    (hstack : ∀ i, k'.sched.kernelStack i = k.sched.kernelStack i)
    (halive : ∀ i, Alive k'.sched i → Alive k.sched i) (hcontext : k'.context = k.context)
    (hmem : ∀ i < maxTasks, i ≠ k.sched.current → Alive k.sched i → ∀ a, stackLo x k.sched i ≤ a →
      a < stackHi x k.sched i → k'.mem a = k.mem a) :
    Stacks x k' := by
  refine ⟨h.boot, fun i hi hne ha => ?_, fun i hi h0 ha => ?_, fun i hi => ?_, fun i hi j hj => ?_,
    ?_⟩
  · rw [hcurrent] at hne
    exact (h.saved i hi hne (halive i ha)).congr (hstack i) (congrFun hcontext i)
      (hmem i hi hne (halive i ha))
  · rw [hstack]
    exact h.owned i hi h0 (halive i ha)
  · rw [hstack]
    exact h.placed i hi
  · rw [hstack, hstack]
    exact h.apart i hi j hj
  · rw [hcurrent, hstack]
    exact h.home

lemma Stacks.setRsp0 (h : Stacks x k) (rsp0 : ℕ) : Stacks x { k with rsp0 := rsp0 } :=
  ⟨h.boot, h.saved, h.owned, h.placed, h.apart, h.home⟩

/-- The running task leaves its frame on its own stack and another one continues. -/
lemma Stacks.switchCtx (h : Stacks x k) {sp : ℕ} (hsp : OnStack x k sp) (regs : ℕ → ℕ) {ret : ℕ}
    (hret : ret = x.pickSwitchReturn ∨ ret = x.blockReturn) (flag : Bool) {s : Sched}
    (hstack : ∀ i, s.kernelStack i = k.sched.kernelStack i)
    (halive : ∀ i, Alive s i → Alive k.sched i) (hready : s.state s.current = .ready) :
    Settled x (k.switchCtx sp regs ret flag s) := by
  obtain ⟨hlo, hhi, halign⟩ := hsp
  have hs : (k.switchCtx sp regs ret flag s).sched = s := rfl
  refine ⟨⟨h.boot, fun i hi hne ha => ?_, fun i hi h0 ha => ?_, fun i hi => ?_, fun i hi j hj => ?_,
    fun h0 => ?_⟩, fun _ => hready⟩
  · by_cases hcur : i = k.sched.current
    · have hcontext : (k.switchCtx sp regs ret flag s).context i = sp - 56 := by
        rw [hcur]
        exact Function.update_self ..
      have hword : (k.switchCtx sp regs ret flag s).mem (sp - 8) = ret := if_pos rfl
      unfold Resumable
      dsimp only
      rw [hs, stackLo_congr (hstack i), stackHi_congr (hstack i), hcontext, hcur]
      have hat : sp - 56 + 48 = sp - 8 := by omega
      refine ⟨h.lo_pos, by omega, by omega, Or.inl ⟨by omega, ?_⟩⟩
      rwa [hat, hword]
    · have hapart := h.disjoint hi hcur (halive i ha)
      refine (h.saved i hi hcur (halive i ha)).congr (hstack i)
        (Function.update_of_ne hcur _ _) fun a ha' hb => ?_
      have hframe : ¬ (sp - 56 ≤ a ∧ a < sp) := by omega
      exact (if_neg (by omega)).trans (if_neg (by omega))
  · rw [hs, hstack]
    exact h.owned i hi h0 (halive i ha)
  · rw [hs, hstack]
    exact h.placed i hi
  · rw [hs, hstack, hstack]
    exact h.apart i hi j hj
  · have hlt : s.current < maxTasks := s.current_lt
    rw [hs, hstack]
    exact h.owned _ hlt h0 (halive _ (Or.inl hready))

end Frames

/-! ## The scheduler -/

section Scheduler
variable {x : KernelText} {k : Kern} {sp : ℕ} {regs : ℕ → ℕ}

lemma Stacks.pickSwitch (h : Stacks x k) (hsp : OnStack x k sp) (flag : Bool)
    (hstay : ttaskPickNext k.sched = k.sched.current → Settled x k) :
    Settled x (k.pickSwitch x sp regs flag) := by
  unfold Kern.pickSwitch
  dsimp only
  by_cases hnext : ttaskPickNext k.sched = k.sched.current
  · rw [if_pos hnext]
    exact hstay hnext
  · rw [if_neg hnext]
    have hready : k.sched.state (ttaskPickNext k.sched) = .ready := by
      obtain ⟨heq, -⟩ | ⟨-, hready, -⟩ := ttaskPickNext_spec k.sched
      · exact absurd heq hnext
      · exact hready
    refine (h.setRsp0 _).switchCtx (by exact hsp) regs (Or.inl rfl) flag
      (ttaskPickSwitch_kernelStack k.sched) (fun i hi => ?_) ?_
    · unfold Alive at hi
      rwa [ttaskPickSwitch_state] at hi
    · rw [ttaskPickSwitch_state, ttaskPickSwitch_current]
      exact hready

/-- A change of a task that keeps its state and its stack. -/
lemma Settled.setTask (h : Settled x k) {i : ℕ} {t : Task} (hstate : t.state = k.sched.state i)
    (hstack : t.kernelStack = k.sched.kernelStack i) : Settled x (k.setTask i t) := by
  have hsame (j : ℕ) : (k.sched.setTask i t).state j = k.sched.state j := by
    rw [Sched.setTask_state]
    split_ifs with hj
    · rw [hstate, hj]
    · rfl
  refine ⟨h.toStacks.table rfl (fun j => setTask_kernelStack k.sched i j t hstack)
    (fun j hj => ?_) rfl fun _ _ _ _ _ _ _ => rfl, fun hrun => (hsame _).trans (h.running hrun)⟩
  change Alive (k.sched.setTask i t) j at hj
  unfold Alive at hj
  rwa [hsame] at hj

lemma Settled.tick (h : Settled x k) (hsp : OnStack x k sp) : Settled x (k.tick x sp regs) := by
  have hticked := @Settled.setTask x k h k.sched.current
    { k.sched.tasks k.sched.current with
      ticks := incr32 (k.sched.tasks k.sched.current).ticks
      slice := (k.sched.tasks k.sched.current).slice - 1 } rfl rfl
  refine hticked.toStacks.pickSwitch ?_ true fun _ => hticked
  obtain ⟨hlo, hhi, halign⟩ := hsp
  have hstack := setTask_kernelStack k.sched k.sched.current k.sched.current
    { k.sched.tasks k.sched.current with
      ticks := incr32 (k.sched.tasks k.sched.current).ticks
      slice := (k.sched.tasks k.sched.current).slice - 1 } rfl
  exact ⟨(stackLo_congr hstack).symm ▸ hlo, (stackHi_congr hstack).symm ▸ hhi, halign⟩

lemma Settled.exit (h : Settled x k) (hsp : OnStack x k sp) : Settled x (k.exit x sp regs) := by
  have hstack (i : ℕ) := setTask_kernelStack k.sched k.sched.current i
    { k.sched.tasks k.sched.current with state := .exited } rfl
  have hexited :
    Stacks x (k.setTask k.sched.current { k.sched.tasks k.sched.current with state := .exited }) :=
      by
    refine h.toStacks.table rfl hstack (fun i hi => ?_) rfl fun _ _ _ _ _ _ _ => rfl
    change Alive (k.sched.setTask _ _) i at hi
    unfold Alive at hi
    rw [Sched.setTask_state] at hi
    split_ifs at hi
    · simp at hi
    · exact hi
  unfold Kern.exit
  dsimp only
  split_ifs with hnext
  · exact ⟨⟨hexited.boot, hexited.saved, hexited.owned, hexited.placed, hexited.apart,
      hexited.home⟩, fun hrun => absurd hrun (by simp)⟩
  · refine hexited.pickSwitch ?_ false fun hstay => absurd hstay hnext
    obtain ⟨hlo, hhi, halign⟩ := hsp
    exact ⟨(stackLo_congr (hstack _)).symm ▸ hlo, (stackHi_congr (hstack _)).symm ▸ hhi, halign⟩

lemma Settled.block (h : Settled x k) (hrun : k.halted = false) (hsp : OnStack x k sp) :
    Settled x (k.block x sp regs) := by
  have halive (i : ℕ) (hi : Alive (ttaskBlock k.sched) i) : Alive k.sched i := by
    by_cases hcur : i = k.sched.current
    · exact Or.inl (hcur ▸ h.running hrun)
    · unfold Alive at hi
      rwa [ttaskBlock_state, if_neg hcur] at hi
  unfold Kern.block
  split_ifs with hnext
  · have hcurrent : (ttaskBlock k.sched).current = k.sched.current :=
      (ttaskBlock_current k.sched).trans hnext
    exact ⟨h.toStacks.table hcurrent (ttaskBlock_kernelStack k.sched) halive rfl fun _ _ _ _ _ _
      _ => rfl, fun _ => ttaskBlock_ready k.sched⟩
  · exact h.toStacks.switchCtx hsp regs (Or.inr rfl) k.intr (ttaskBlock_kernelStack k.sched) halive
      (ttaskBlock_ready k.sched)

lemma Settled.wake (h : Settled x k)
    (id : ℕ) : Settled x { k with sched := ttaskWake k.sched id } := by
  have hstate := ttaskWake_state k.sched id
  refine ⟨h.toStacks.table (ttaskWake_current k.sched id) (ttaskWake_kernelStack k.sched id)
    (fun i hi => ?_) rfl fun _ _ _ _ _ _ _ => rfl, fun hrun => ?_⟩
  · unfold Alive at hi
    rw [hstate] at hi
    split_ifs at hi with hwoken
    · exact Or.inr (hwoken.1 ▸ hwoken.2.2)
    · exact hi
  · change (ttaskWake k.sched id).state (ttaskWake k.sched id).current = .ready
    rw [ttaskWake_current, hstate]
    split_ifs
    · rfl
    · exact h.running hrun

lemma Settled.store (h : Settled x k) {addr : ℕ} (value : ℕ) (hother : ¬ OnOtherStack x k addr) :
    Settled x { k with mem := Function.update k.mem addr value } := by
  refine ⟨h.toStacks.table rfl (fun _ => rfl) (fun _ hi => hi) rfl fun i hi hne _ a hlo hhi => ?_,
    h.running⟩
  refine Function.update_of_ne ?_ _ _
  rintro rfl
  exact hother ⟨i, hi, hne, hlo, hhi⟩

lemma Settled.userTick (h : Settled x k) {depth : ℕ}
    (hown : k.rsp0 = stackHi x k.sched k.sched.current) (hsp : OnStack x k (k.rsp0 - depth)) :
    Settled x (k.userTick x depth regs) := by
  have hpushed : Settled x (k.push k.rsp0 depth regs) := by
    refine ⟨h.toStacks.table rfl (fun _ => rfl) (fun _ hi => hi) rfl fun i hi hne ha a hlo hhi =>
      ?_, h.running⟩
    have hapart := h.toStacks.disjoint hi hne ha
    exact if_neg (by unfold OnStack at hsp; omega)
  exact hpushed.tick hsp

end Scheduler

end TraitOS.Ttask
