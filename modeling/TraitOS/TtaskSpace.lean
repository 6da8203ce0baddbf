import TraitOS.TtaskSwitch

/-!
# Which address space a task runs in

The move to the next task's address space stands after the exchange of the
stacks, where a task that runs for the first time never comes and where the local
`next` of a resumed call names whom that call once switched to. It follows that
entries are right exactly in the runs that never hand out the CPU while a user
task is READY: there all spaces are the kernel's.
-/
namespace TraitOS.Ttask
open MachineWord Runs

variable {m : Machine} {s : Sched}

/-- The entered task runs in its own space, the kernel's for kernel tasks. -/
def Entry.InOwnSpace (kernel : ℕ) (e : Entry) : Prop :=
  e.active = if e.userMode then e.aspace else kernel

instance (kernel : ℕ) (e : Entry) : Decidable (e.InOwnSpace kernel) :=
  inferInstanceAs (Decidable (_ = _))

def SchedOp.schedules : SchedOp → Bool
  | .tick => true
  | .yield => true
  | .block => true
  | .exit => true
  | _ => false

/-- The step does not hand out the CPU while a user task is READY. -/
def NoUserReady (m : Machine) (op : SchedOp) : Prop :=
  op.schedules = true →
    ∀ i < maxTasks, m.sched.state i = .ready → (m.sched.tasks i).userMode = false

instance (m : Machine) (op : SchedOp) : Decidable (NoUserReady m op) :=
  inferInstanceAs (Decidable (_ → _))

/-! ## What the scheduler never changes of a task -/

@[ext] structure Kind where
  userMode : Bool
  priority : ℕ
  aspace : ℕ

def Sched.kind (s : Sched) (i : ℕ) : Kind :=
  ⟨(s.tasks i).userMode, (s.tasks i).priority, (s.tasks i).aspace⟩

lemma setTask_kind (s : Sched) (i j : ℕ) (t : Task)
    (h : Kind.mk t.userMode t.priority t.aspace = s.kind i) :
    (s.setTask i t).kind j = s.kind j := by
  unfold Sched.kind
  by_cases hj : j = i
  · rw [hj, Sched.setTask_tasks_self]
    exact h
  · rw [Sched.setTask_tasks_of_ne s t hj]

lemma ttaskPickSwitch_kind (s : Sched) (i : ℕ) : (ttaskPickSwitch s).kind i = s.kind i := by
  unfold ttaskPickSwitch
  dsimp only
  split_ifs with h
  · rfl
  · exact setTask_kind s _ i _ rfl

lemma park_kind (s : Sched) (i : ℕ) : (park s).kind i = s.kind i := setTask_kind s _ i _ rfl

lemma ttaskBlock_kind (s : Sched) (i : ℕ) : (ttaskBlock s).kind i = s.kind i := by
  unfold ttaskBlock
  dsimp only
  split_ifs with h
  · refine (setTask_kind (park s) s.current i _ ?_).trans (park_kind s i)
    rfl
  · exact park_kind s i

lemma ttaskWake_kind (s : Sched) (id i : ℕ) : (ttaskWake s id).kind i = s.kind i := by
  unfold ttaskWake
  split_ifs
  · rfl
  · exact setTask_kind s id i _ rfl
  · rfl

/-! ## Runs without user tasks -/

/-- As long as no user task was entered: the kernel's space is active, every user
task still waits for its first entry, and user tasks outrank all others. -/
structure KernelOnly (m : Machine) : Prop where
  active : m.active = m.kernel
  current_kernel : (m.sched.kind m.sched.current).userMode = false
  user_fresh : ∀ i < maxTasks, (m.sched.kind i).userMode = true →
    m.sched.state i = .ready ∧ m.frame i = .fresh ∧ (m.sched.kind i).priority = 2 ∧
      (m.sched.kind i).aspace ≠ m.kernel
  kernel_low : ∀ i < maxTasks, (m.sched.kind i).userMode = false → m.sched.state i ≠ .free →
    (m.sched.kind i).priority ≤ 1
  frames : ∀ i next, m.frame i = .pickSwitch next → next < maxTasks
  entries : ∀ e ∈ m.entries, e.InOwnSpace m.kernel

lemma kernelOnly_boot (kernel bootStackTop : ℕ) (h : kernel ≠ 0) :
    KernelOnly (bootMachine kernel bootStackTop h) := by
  have hkind : ∀ i, (bootMachine kernel bootStackTop h).sched.kind i = ⟨false, 0, 0⟩ := by
    intro i
    unfold Sched.kind bootMachine ttaskInit
    by_cases hi : i = 0
    · simp [hi, blank]
    · simp [hi, blank]
  refine ⟨rfl, by rw [hkind], ?_, ?_, ?_, ?_⟩
  · intro i _ hu
    rw [hkind] at hu
    exact absurd hu (by decide)
  · intro i _ _ _
    rw [hkind]
    exact Nat.zero_le 1
  · intro i next hf
    exact absurd hf (by simp [bootMachine])
  · intro e he
    exact absurd he List.not_mem_nil

/-- A change of the table that keeps every kind, the running slot and the READY
tasks that do not run. -/
lemma kernelOnly_table (hm : KernelOnly m) (halted : Bool) (hkind : ∀ i, s.kind i = m.sched.kind i)
    (hcurrent : s.current = m.sched.current)
    (hready : ∀ i, i ≠ m.sched.current → m.sched.state i = .ready → s.state i = .ready)
    (htaken : ∀ i, s.state i ≠ .free → m.sched.state i ≠ .free) :
    KernelOnly { m with sched := s, halted := halted } := by
  refine ⟨hm.active, ?_, ?_, ?_, hm.frames, hm.entries⟩
  · change (s.kind s.current).userMode = false
    rw [hkind, hcurrent]
    exact hm.current_kernel
  · intro i hi hu
    have huser : (m.sched.kind i).userMode = true :=
      (congrArg Kind.userMode (hkind i)).symm.trans hu
    obtain ⟨hr, hf, hprio, hspace⟩ := hm.user_fresh i hi huser
    have hne : i ≠ m.sched.current := by
      intro h
      rw [h, hm.current_kernel] at huser
      exact absurd huser (by decide)
    refine ⟨hready i hne hr, hf, (congrArg Kind.priority (hkind i)).trans hprio, fun h => ?_⟩
    exact hspace ((congrArg Kind.aspace (hkind i)).symm.trans h)
  · intro i hi hu hfree
    have hkernel : (m.sched.kind i).userMode = false :=
      (congrArg Kind.userMode (hkind i)).symm.trans hu
    have hlow := hm.kernel_low i hi hkernel (htaken i hfree)
    exact (congrArg Kind.priority (hkind i)).le.trans hlow

/-- A new record for the running task that keeps its kind. -/
lemma kernelOnly_setCurrent (hm : KernelOnly m) {t : Task} (halted : Bool)
    (hkind : Kind.mk t.userMode t.priority t.aspace = m.sched.kind m.sched.current)
    (hrun : m.sched.state m.sched.current = .ready) :
    KernelOnly { m with sched := m.sched.setTask m.sched.current t, halted := halted } := by
  apply kernelOnly_table hm halted (fun j => setTask_kind m.sched m.sched.current j t hkind) rfl
  · intro i hne hr
    rw [Sched.setTask_state, if_neg hne, hr]
  · intro i hi
    by_cases hic : i = m.sched.current
    · rw [hic, hrun]
      decide
    · rwa [Sched.setTask_state, if_neg hic] at hi

/-- A new task in a slot nobody runs in: a kernel task of low priority or an empty
slot, or a user task that has not run. -/
lemma kernelOnly_newTask (hm : KernelOnly m) {i : ℕ} (hne : i ≠ m.sched.current) {t : Task}
    {frame : ℕ → Frame} (hframe : frame = m.frame ∨ frame = Function.update m.frame i .fresh)
    (hnew : (t.userMode = false ∧ (t.state ≠ .free → t.priority ≤ 1)) ∨
      (t.userMode = true ∧ t.state = .ready ∧ frame i = .fresh ∧ t.priority = 2 ∧
        t.aspace ≠ m.kernel)) :
    KernelOnly { m with sched := m.sched.setTask i t, frame := frame } := by
  have hself : (m.sched.setTask i t).kind i = ⟨t.userMode, t.priority, t.aspace⟩ := by
    unfold Sched.kind
    rw [Sched.setTask_tasks_self]
  have hother : ∀ j, j ≠ i → (m.sched.setTask i t).kind j = m.sched.kind j := by
    intro j hj
    unfold Sched.kind
    rw [Sched.setTask_tasks_of_ne m.sched t hj]
  have hframes : ∀ j, j ≠ i → frame j = m.frame j := by
    intro j hj
    obtain rfl | rfl := hframe
    · rfl
    · exact Function.update_of_ne hj _ _
  refine ⟨hm.active, ?_, ?_, ?_, ?_, hm.entries⟩
  · change ((m.sched.setTask i t).kind m.sched.current).userMode = false
    rw [hother _ hne.symm]
    exact hm.current_kernel
  · intro j hj hu
    change ((m.sched.setTask i t).kind j).userMode = true at hu
    change (m.sched.setTask i t).state j = .ready ∧ frame j = .fresh ∧
      ((m.sched.setTask i t).kind j).priority = 2 ∧ ((m.sched.setTask i t).kind j).aspace ≠ m.kernel
    rw [Sched.setTask_state]
    by_cases hji : j = i
    · rw [hji, hself] at hu ⊢
      obtain ⟨hkernel, _⟩ | ⟨_, hfresh⟩ := hnew
      · rw [show t.userMode = true from hu] at hkernel
        exact absurd hkernel (by decide)
      · rw [if_pos rfl]
        exact hfresh
    · rw [hother j hji] at hu ⊢
      rw [if_neg hji, hframes j hji]
      exact hm.user_fresh j hj hu
  · intro j hj hu hfree
    change ((m.sched.setTask i t).kind j).userMode = false at hu
    change (m.sched.setTask i t).state j ≠ .free at hfree
    change ((m.sched.setTask i t).kind j).priority ≤ 1
    rw [Sched.setTask_state] at hfree
    by_cases hji : j = i
    · rw [hji, hself] at hu ⊢
      rw [if_pos hji] at hfree
      obtain ⟨_, hlow⟩ | ⟨huser, _⟩ := hnew
      · exact hlow hfree
      · rw [show t.userMode = false from hu] at huser
        exact absurd huser (by decide)
    · rw [hother j hji] at hu ⊢
      rw [if_neg hji] at hfree
      exact hm.kernel_low j hj hu hfree
  · intro j next hf
    change frame j = .pickSwitch next at hf
    obtain rfl | rfl := hframe
    · exact hm.frames j next hf
    · rw [Function.update_apply] at hf
      split_ifs at hf
      exact hm.frames j next hf

/-! ## Entering a task -/

@[simp] theorem enter_entries (m : Machine) :
    m.enter.entries = m.entries ++
      [⟨m.sched.current, (m.sched.kind m.sched.current).userMode,
        (m.sched.kind m.sched.current).aspace, m.active⟩] := rfl

/-- In a table without user tasks every resumed frame finds the kernel's space
active and leaves it so. -/
lemma resume_of_kernel (hall : ∀ i < maxTasks, (m.sched.kind i).userMode = false)
    (hactive : m.active = m.kernel)
    (hframes : ∀ i next, m.frame i = .pickSwitch next → next < maxTasks) : m.resume = m.enter := by
  unfold Machine.resume
  cases hf : m.frame m.sched.current with
  | pickSwitch next =>
    have hkernel : (m.sched.tasks next).userMode = false := hall next (hframes _ next hf)
    have hmove : m.moveSpace next = m := by
      unfold Machine.moveSpace
      simp only [hkernel, Bool.false_eq_true, if_false, hactive, ne_eq, not_true_eq_false,
        and_false]
    exact congrArg Machine.enter hmove
  | unsaved => rfl
  | fresh => rfl
  | block => rfl

lemma kernelOnly_enter (hm : KernelOnly m) : KernelOnly m.enter := by
  refine ⟨hm.active, hm.current_kernel, hm.user_fresh, hm.kernel_low, hm.frames,
    fun e he => ?_⟩
  rw [enter_entries, List.mem_append, List.mem_singleton] at he
  obtain hold | rfl := he
  · exact hm.entries e hold
  · unfold Entry.InOwnSpace
    rw [hm.current_kernel]
    exact hm.active

/-- A switch in a table without user tasks. -/
lemma kernelOnly_switchCtx (hm : KernelOnly m)
    (hall : ∀ i < maxTasks, (m.sched.kind i).userMode = false) {saved : Frame}
    (hsaved : ∀ next, saved = .pickSwitch next → next < maxTasks)
    (hkind : ∀ i, s.kind i = m.sched.kind i)
    (htaken : ∀ i, s.state i ≠ .free → m.sched.state i ≠ .free) :
    KernelOnly (m.switchCtx saved s) := by
  have hallS : ∀ i < maxTasks, (s.kind i).userMode = false := by
    intro i hi
    rw [hkind i]
    exact hall i hi
  have hframes : ∀ i next, Function.update m.frame m.sched.current saved i = .pickSwitch next →
      next < maxTasks := by
    intro i next hf
    rw [Function.update_apply] at hf
    split_ifs at hf
    · exact hsaved next hf
    · exact hm.frames i next hf
  have hresume := resume_of_kernel
    (m := { m with sched := s, frame := Function.update m.frame m.sched.current saved })
    hallS hm.active hframes
  unfold Machine.switchCtx
  rw [hresume]
  apply kernelOnly_enter
  refine ⟨hm.active, hallS _ s.current_lt, ?_, ?_, hframes, hm.entries⟩
  · intro i hi hu
    have hk := hallS i hi
    rw [hk] at hu
    exact absurd hu (by decide)
  · intro i hi hu hfree
    have hlow := hm.kernel_low i hi (hall i hi) (htaken i hfree)
    rwa [← hkind i] at hlow

/-- A switch to a user task that never ran enters it in the kernel's space. -/
lemma switchCtx_wrong (hm : KernelOnly m) (saved : Frame)
    (hkind : s.kind s.current = m.sched.kind s.current)
    (huser : (m.sched.kind s.current).userMode = true) :
    ∃ e ∈ (m.switchCtx saved s).entries, ¬ e.InOwnSpace m.kernel := by
  obtain ⟨_, hfresh, _, hspace⟩ := hm.user_fresh s.current s.current_lt huser
  have hne : s.current ≠ m.sched.current := by
    intro h
    rw [h, hm.current_kernel] at huser
    exact absurd huser (by decide)
  have hframe : Function.update m.frame m.sched.current saved s.current = .fresh := by
    rw [Function.update_of_ne hne, hfresh]
  have hentries : (m.switchCtx saved s).entries = m.entries ++
      [⟨s.current, (s.kind s.current).userMode, (s.kind s.current).aspace, m.active⟩] := by
    unfold Machine.switchCtx Machine.resume
    simp only [hframe]
    rfl
  refine ⟨_, by rw [hentries]; exact List.mem_append_right _ (List.mem_singleton_self _), ?_⟩
  unfold Entry.InOwnSpace
  rw [hkind, huser, hm.active]
  exact fun h => hspace h.symm

/-- User tasks outrank kernel tasks, so the pick is one of them when one is READY. -/
lemma pick_user (hhigh : ∀ i < maxTasks, (s.kind i).userMode = true → (s.kind i).priority = 2)
    (hlow : ∀ i < maxTasks, (s.kind i).userMode = false → s.state i = .ready →
      (s.kind i).priority ≤ 1)
    (hcurrent : (s.kind s.current).userMode = false) {u : ℕ} (hu : u < maxTasks)
    (hready : s.state u = .ready) (huser : (s.kind u).userMode = true) :
    (s.kind (ttaskPickNext s)).userMode = true := by
  have hne : u ≠ s.current := by
    intro h
    rw [h, hcurrent] at huser
    exact absurd huser (by decide)
  obtain ⟨_, honly⟩ | ⟨hlt, hr, hmax⟩ := ttaskPickNext_spec s
  · exact absurd (honly u hu hready) hne
  · by_contra hkernel
    have hbelow := hlow _ hlt (by simpa using hkernel) hr
    have habove : (s.kind u).priority ≤ (s.kind (ttaskPickNext s)).priority :=
      hmax u hu hready hne
    have htwo := hhigh u hu huser
    omega

/-! ## The operations that schedule -/

/-- No slot of the table belongs to a user task. -/
def AllKernel (s : Sched) : Prop := ∀ i < maxTasks, (s.kind i).userMode = false

lemma KernelOnly.setRsp0 (hm : KernelOnly m) (next : ℕ) : KernelOnly (m.setRsp0 next) :=
  ⟨hm.active, hm.current_kernel, hm.user_fresh, hm.kernel_low, hm.frames, hm.entries⟩

lemma kernelOnly_pickSwitch (hm : KernelOnly m) (hall : AllKernel m.sched) :
    KernelOnly m.pickSwitch := by
  unfold Machine.pickSwitch
  dsimp only
  split_ifs with h
  · exact hm
  · apply kernelOnly_switchCtx (hm.setRsp0 _) hall
    · intro next hnext
      rw [← Frame.pickSwitch.inj hnext]
      exact ttaskPickNext_lt m.sched
    · exact ttaskPickSwitch_kind m.sched
    · intro i hi
      rwa [ttaskPickSwitch_state] at hi

/-- A task that is switched to is READY; who keeps the CPU must be READY already. -/
lemma pickSwitch_ready (h : s.state s.current = .ready ∨ ttaskPickNext s ≠ s.current) :
    (ttaskPickSwitch s).state (ttaskPickSwitch s).current = .ready := by
  rw [ttaskPickSwitch_state, ttaskPickSwitch_current]
  obtain ⟨heq, _⟩ | ⟨_, hr, _⟩ := ttaskPickNext_spec s
  · rw [heq]
    exact h.resolve_right (fun hne => hne heq)
  · exact hr

/-- A READY user task is picked, since it outranks the kernel tasks. -/
lemma KernelOnly.picks_user (hm : KernelOnly m) (hkind : ∀ i, s.kind i = m.sched.kind i)
    (hcurrent : s.current = m.sched.current)
    (hstate : ∀ i, i ≠ m.sched.current → s.state i = m.sched.state i)
    (hself : s.state s.current = .ready → m.sched.state m.sched.current ≠ .free) {u : ℕ}
    (hu : u < maxTasks) (hready : m.sched.state u = .ready)
    (huser : (m.sched.kind u).userMode = true) :
    (m.sched.kind (ttaskPickNext s)).userMode = true := by
  have hne : u ≠ m.sched.current := by
    intro h
    rw [h, hm.current_kernel] at huser
    exact absurd huser (by decide)
  rw [← hkind]
  apply pick_user (u := u)
  · intro i hi hiu
    rw [hkind] at hiu ⊢
    exact (hm.user_fresh i hi hiu).2.2.1
  · intro i hi hik hir
    rw [hkind] at hik ⊢
    apply hm.kernel_low i hi hik
    by_cases hic : i = m.sched.current
    · rw [hic] at hir ⊢
      exact hself (hcurrent ▸ hir)
    · rw [← hstate i hic, hir]
      decide
  · rw [hkind, hcurrent]
    exact hm.current_kernel
  · exact hu
  · rw [hstate u hne, hready]
  · rw [hkind]
    exact huser

lemma pickSwitch_wrong (hm : KernelOnly m) {u : ℕ} (hu : u < maxTasks)
    (hready : m.sched.state u = .ready) (huser : (m.sched.kind u).userMode = true) :
    ∃ e ∈ m.pickSwitch.entries, ¬ e.InOwnSpace m.kernel := by
  have hpick : (m.sched.kind (ttaskPickNext m.sched)).userMode = true :=
    hm.picks_user (fun _ => rfl) rfl (fun _ _ => rfl) (fun h => by rw [h]; decide) hu hready huser
  have hne : ttaskPickNext m.sched ≠ m.sched.current := by
    intro h
    rw [h, hm.current_kernel] at hpick
    exact absurd hpick (by decide)
  unfold Machine.pickSwitch
  dsimp only
  rw [if_neg hne]
  apply switchCtx_wrong (hm.setRsp0 _)
  · exact ttaskPickSwitch_kind m.sched _
  · rw [ttaskPickSwitch_current]
    exact hpick

/-! ## Steps -/

/-- The invariant of the good runs: nothing but kernel tasks ran, and the machine
is halted or its running task is READY. -/
structure SpaceInv (m : Machine) : Prop extends KernelOnly m where
  running : m.halted = false → m.sched.state m.sched.current = .ready

lemma SpaceInv.allKernel (hm : SpaceInv m)
    (h : ∀ i < maxTasks, m.sched.state i = .ready → (m.sched.tasks i).userMode = false) :
    AllKernel m.sched := by
  intro i hi
  by_contra huser
  have hu : (m.sched.kind i).userMode = true := by simpa using huser
  have hkernel : (m.sched.kind i).userMode = false := h i hi (hm.user_fresh i hi hu).1
  rw [hu] at hkernel
  exact absurd hkernel (by decide)

lemma spaceInv_place (hm : SpaceInv m) (hrun : m.halted = false) {t : Task} {stack : ℕ}
    (hnew : (t.userMode = false ∧ (stack ≠ 0 → t.priority ≤ 1)) ∨ (t.userMode = true ∧ stack ≠ 0 ∧
      t.state = .ready ∧ t.priority = 2 ∧ t.aspace ≠ m.kernel)) :
    SpaceInv (m.place (placeTask m.sched t stack)) := by
  have hready := hm.running hrun
  have hkeep : ∀ i u, (m.sched.state i = .free ∨ m.sched.state i = .exited) →
      i ≠ m.sched.current ∧
        (m.sched.setTask i u).state (m.sched.setTask i u).current = .ready := by
    intro i u hi
    have hne : i ≠ m.sched.current := by
      intro h
      rw [h, hready] at hi
      exact absurd hi (by decide)
    refine ⟨hne, ?_⟩
    rw [Sched.setTask_current, Sched.setTask_state, if_neg hne.symm, hready]
  obtain ⟨hsame, hnone⟩ | ⟨i, hi, hslot, ⟨hzero, hplace⟩ | ⟨hpos, hplace⟩⟩ :=
    placeTask_cases m.sched t stack
  · have hplace : m.place (placeTask m.sched t stack) = m := by
      unfold Machine.place
      rw [hnone, hsame]
    rw [hplace]
    exact hm
  · rw [hplace]
    obtain ⟨hne, hcur⟩ := hkeep i { t with state := .free } hslot
    refine ⟨kernelOnly_newTask hm.toKernelOnly hne (Or.inl rfl) (Or.inl ⟨?_, fun h => ?_⟩),
      fun _ => hcur⟩
    · obtain ⟨hkernel, _⟩ | ⟨_, hstack, _⟩ := hnew
      · exact hkernel
      · exact absurd hzero hstack
    · exact absurd rfl h
  · rw [hplace]
    obtain ⟨hne, hcur⟩ := hkeep i { t with stack := stack, stackSize := stackBytes } hslot
    refine ⟨kernelOnly_newTask hm.toKernelOnly hne (Or.inr rfl) ?_, fun _ => hcur⟩
    obtain ⟨hkernel, hlow⟩ | ⟨huser, _, hstate, hprio, hspace⟩ := hnew
    · exact Or.inl ⟨hkernel, fun _ => hlow hpos⟩
    · exact Or.inr ⟨huser, hstate, Function.update_self .., hprio, hspace⟩

lemma spaceInv_wake (hm : SpaceInv m) (id : ℕ) :
    SpaceInv { m with sched := ttaskWake m.sched id } := by
  have hstate := ttaskWake_state m.sched id
  refine ⟨kernelOnly_table hm.toKernelOnly m.halted (ttaskWake_kind m.sched id)
    (ttaskWake_current m.sched id) ?_ ?_, fun hh => ?_⟩
  · intro i _ hr
    rw [hstate, hr]
    split_ifs <;> rfl
  · intro i hi
    rw [hstate] at hi
    split_ifs at hi with hwake
    · rw [hwake.1, hwake.2.2]
      decide
    · exact hi
  · change (ttaskWake m.sched id).state (ttaskWake m.sched id).current = .ready
    rw [ttaskWake_current, hstate, hm.running hh]
    split_ifs <;> rfl

lemma spaceInv_pickSwitch (hm : KernelOnly m) (hall : AllKernel m.sched)
    (h : m.sched.state m.sched.current = .ready ∨ ttaskPickNext m.sched ≠ m.sched.current) :
    SpaceInv m.pickSwitch := by
  refine ⟨kernelOnly_pickSwitch hm hall, fun _ => ?_⟩
  rw [(pickSwitch_spec m).1]
  exact pickSwitch_ready h

lemma ttaskBlock_ready (s : Sched) : (ttaskBlock s).state (ttaskBlock s).current = .ready := by
  unfold ttaskBlock
  dsimp only
  split_ifs with h
  · rw [Sched.setTask_current, Sched.setTask_state]
    exact if_pos rfl
  · obtain ⟨heq, _⟩ | ⟨_, hr, _⟩ := ttaskPickNext_spec (park s)
    · exact absurd heq h
    · exact hr

lemma spaceInv_block (hm : SpaceInv m) (hrun : m.halted = false) (hall : AllKernel m.sched) :
    SpaceInv m.block := by
  have hstate := ttaskBlock_state m.sched
  have htaken : ∀ i, (ttaskBlock m.sched).state i ≠ .free → m.sched.state i ≠ .free := by
    intro i hi
    rw [hstate] at hi
    by_cases hic : i = m.sched.current
    · rw [hic, hm.running hrun]
      decide
    · rwa [if_neg hic] at hi
  refine ⟨?_, fun _ => ?_⟩
  · unfold Machine.block
    dsimp only
    split_ifs with h
    · apply kernelOnly_table hm.toKernelOnly m.halted (ttaskBlock_kind m.sched)
        ((ttaskBlock_current m.sched).trans h) ?_ htaken
      intro i hne hr
      rw [hstate, if_neg hne, hr]
    · apply kernelOnly_switchCtx hm.toKernelOnly hall ?_ (ttaskBlock_kind m.sched) htaken
      intro next hnext
      exact absurd hnext (by simp)
  · rw [(block_spec m).1]
    exact ttaskBlock_ready m.sched

lemma block_wrong (hm : KernelOnly m) {u : ℕ} (hu : u < maxTasks)
    (hready : m.sched.state u = .ready) (huser : (m.sched.kind u).userMode = true) :
    ∃ e ∈ m.block.entries, ¬ e.InOwnSpace m.kernel := by
  have hpick : (m.sched.kind (ttaskPickNext (park m.sched))).userMode = true := by
    apply hm.picks_user (park_kind m.sched) rfl ?_ ?_ hu hready huser
    · intro i hi
      rw [park_state, if_neg hi]
    · intro hself
      rw [park_state] at hself
      exact absurd hself (by simp [park, Sched.setTask])
  have hne : ttaskPickNext (park m.sched) ≠ m.sched.current := by
    intro h
    rw [h, hm.current_kernel] at hpick
    exact absurd hpick (by decide)
  unfold Machine.block
  dsimp only
  rw [if_neg hne]
  apply switchCtx_wrong hm
  · exact ttaskBlock_kind m.sched _
  · rw [ttaskBlock_current]
    exact hpick

/-- The exiting task's mark. -/
lemma kernelOnly_exited (hm : SpaceInv m) (hrun : m.halted = false) (halted : Bool) :
    KernelOnly { m with
      sched := m.sched.setTask m.sched.current
        { m.sched.tasks m.sched.current with state := .exited }
      halted := halted } :=
  kernelOnly_setCurrent hm.toKernelOnly halted rfl (hm.running hrun)

/-- Setting the running task's record keeps the table free of user tasks. -/
lemma allKernel_setCurrent (hall : AllKernel s) {t : Task}
    (hkind : Kind.mk t.userMode t.priority t.aspace = s.kind s.current) :
    AllKernel (s.setTask s.current t) := by
  intro i hi
  rw [setTask_kind s s.current i t hkind]
  exact hall i hi

/-- A step that meets the condition keeps the invariant. -/
theorem spaceInv_step {m t : Machine} {op : SchedOp} (hm : SpaceInv m) (hop : NoUserReady m op)
    (h : switchStep m op = some t) : SpaceInv t := by
  unfold switchStep at h
  split_ifs at h with hhalt
  have hrun : m.halted = false := by simpa using hhalt
  have hready := hm.running hrun
  cases op with
  | create fn arg stack =>
    cases h
    exact spaceInv_place hm hrun (Or.inl ⟨rfl, fun _ => le_refl 1⟩)
  | createUser entry aspace userRsp stack =>
    dsimp only at h
    split_ifs at h with hspace
    cases h
    unfold ttaskCreateUser
    split_ifs with h0
    · exact spaceInv_place hm hrun (Or.inl ⟨rfl, fun hne => absurd rfl hne⟩)
    · exact spaceInv_place hm hrun
        (Or.inr ⟨rfl, h0, rfl, rfl, fun heq => hspace (Or.inr heq)⟩)
  | tick =>
    cases h
    have hall := hm.allKernel (hop rfl)
    apply spaceInv_pickSwitch
    · exact kernelOnly_setCurrent hm.toKernelOnly m.halted rfl hready
    · exact allKernel_setCurrent hall rfl
    · left
      change (m.sched.setTask m.sched.current _).state m.sched.current = .ready
      rw [Sched.setTask_state, if_pos rfl]
      exact hready
  | yield =>
    cases h
    exact spaceInv_pickSwitch hm.toKernelOnly (hm.allKernel (hop rfl)) (Or.inl hready)
  | block =>
    cases h
    exact spaceInv_block hm hrun (hm.allKernel (hop rfl))
  | wake id =>
    cases h
    exact spaceInv_wake hm id
  | exit =>
    cases h
    have hall := hm.allKernel (hop rfl)
    unfold Machine.exit
    dsimp only
    split_ifs with hstay
    · exact ⟨kernelOnly_exited hm hrun true, fun hh => absurd hh (by simp)⟩
    · apply spaceInv_pickSwitch
      · exact kernelOnly_exited hm hrun m.halted
      · exact allKernel_setCurrent hall rfl
      · exact Or.inr hstay

/-- A step that hands out the CPU while a user task is READY enters it, for the
first time, in the kernel's address space. -/
theorem space_step_wrong {m t : Machine} {op : SchedOp} (hm : SpaceInv m) (hop : ¬ NoUserReady m op)
    (h : switchStep m op = some t) : ∃ e ∈ t.entries, ¬ e.InOwnSpace m.kernel := by
  unfold NoUserReady at hop
  push Not at hop
  obtain ⟨hsched, u, hu, hready, huser⟩ := hop
  have huserTask : (m.sched.tasks u).userMode = true := by simpa using huser
  have huserMode : (m.sched.kind u).userMode = true := huserTask
  have hne : u ≠ m.sched.current := by
    intro heq
    rw [heq, hm.current_kernel] at huserMode
    exact absurd huserMode (by decide)
  have hafter : ∀ t : Task, (m.sched.setTask m.sched.current t).state u = .ready ∧
      ((m.sched.setTask m.sched.current t).kind u).userMode = true := by
    intro t
    refine ⟨by rw [Sched.setTask_state, if_neg hne, hready], ?_⟩
    unfold Sched.kind
    rw [Sched.setTask_tasks_of_ne m.sched t hne]
    exact huserMode
  unfold switchStep at h
  split_ifs at h with hhalt
  have hrun : m.halted = false := by simpa using hhalt
  cases op with
  | create fn arg stack => exact absurd hsched (by simp [SchedOp.schedules])
  | createUser entry aspace userRsp stack => exact absurd hsched (by simp [SchedOp.schedules])
  | wake id => exact absurd hsched (by simp [SchedOp.schedules])
  | tick =>
    cases h
    have hm' := kernelOnly_setCurrent hm.toKernelOnly (t := { m.sched.tasks m.sched.current with
      ticks := incr32 (m.sched.tasks m.sched.current).ticks
      slice := (m.sched.tasks m.sched.current).slice - 1 }) m.halted rfl (hm.running hrun)
    exact pickSwitch_wrong hm' hu (hafter _).1 (hafter _).2
  | yield =>
    cases h
    exact pickSwitch_wrong hm.toKernelOnly hu hready huserMode
  | block =>
    cases h
    exact block_wrong hm.toKernelOnly hu hready huserMode
  | exit =>
    cases h
    have hm' := kernelOnly_exited hm hrun m.halted
    have hwrong := pickSwitch_wrong hm' hu (hafter _).1 (hafter _).2
    have hmoves : ttaskPickNext (m.sched.setTask m.sched.current
        { m.sched.tasks m.sched.current with state := .exited }) ≠ m.sched.current := by
      intro hstay
      have hpick := hm'.picks_user (fun _ => rfl) rfl (fun _ _ => rfl) (fun hr => by
        rw [hr]; decide)
        hu (hafter _).1 (hafter _).2
      rw [hstay] at hpick
      exact absurd (hpick.symm.trans hm'.current_kernel) (by decide)
    unfold Machine.exit
    dsimp only
    rw [if_neg hmoves]
    exact hwrong

lemma spaceInv_boot (kernel bootStackTop : ℕ) (h : kernel ≠ 0) :
    SpaceInv (bootMachine kernel bootStackTop h) :=
  ⟨kernelOnly_boot kernel bootStackTop h, fun _ => rfl⟩

theorem exec_entries {m t : Machine} (ops : List SchedOp) (h : exec switchStep m ops = some t) :
    t.kernel = m.kernel ∧ m.entries <+: t.entries := by
  have hstep : ∀ s op u, (s.kernel = m.kernel ∧ m.entries <+: s.entries) →
      switchStep s op = some u → u.kernel = m.kernel ∧ m.entries <+: u.entries := by
    intro s op u hs hu
    obtain ⟨hk, he⟩ := switchStep_entries hu
    exact ⟨hk.trans hs.1, hs.2.trans he⟩
  exact exec_invariant (I := fun s => s.kernel = m.kernel ∧ m.entries <+: s.entries) hstep ops
    ⟨rfl, List.prefix_refl _⟩ h

/-- From a state of a good run: all later entries are right exactly when all later
steps meet the condition. -/
theorem entries_inOwnSpace_iff {m t : Machine} (ops : List SchedOp) (hm : SpaceInv m)
    (h : exec switchStep m ops = some t) :
    (∀ e ∈ t.entries, e.InOwnSpace m.kernel) ↔
      exec (guarded switchStep NoUserReady) m ops = some t := by
  induction ops generalizing m with
  | nil =>
    cases h
    exact ⟨fun _ => rfl, fun _ => hm.entries⟩
  | cons op ops ih =>
    obtain ⟨u, hu, hrest⟩ := (exec_cons_eq_some switchStep m t op ops).mp h
    obtain ⟨hkernel, _⟩ := switchStep_entries hu
    by_cases hop : NoUserReady m op
    · have hguard : guarded switchStep NoUserReady m op = some u :=
        (guarded_eq_some _ _ m u op).mpr ⟨hop, hu⟩
      rw [exec_cons, hguard, ← hkernel]
      exact ih (spaceInv_step hm hop hu) hrest
    · constructor
      · intro hall
        obtain ⟨e, he, hwrong⟩ := space_step_wrong hm hop hu
        obtain ⟨_, hgrown⟩ := exec_entries ops hrest
        exact absurd (hall e (hgrown.subset he)) hwrong
      · intro hguarded
        obtain ⟨v, hv, _⟩ := (exec_cons_eq_some _ m t op ops).mp hguarded
        exact absurd ((guarded_eq_some _ _ m v op).mp hv).1 hop

/-- In a run from boot every entry into a task finds the task's own address space
active if and only if no step of the run hands out the CPU while a user task is
READY. -/
theorem aspace_switch_correct_iff (kernel bootStackTop : ℕ) (hk : kernel ≠ 0) (ops : List SchedOp)
    (m : Machine) (hrun : exec switchStep (bootMachine kernel bootStackTop hk) ops = some m) :
    (∀ e ∈ m.entries, e.InOwnSpace kernel) ↔
      exec (guarded switchStep NoUserReady) (bootMachine kernel bootStackTop hk) ops = some m :=
  entries_inOwnSpace_iff ops (spaceInv_boot kernel bootStackTop hk) hrun

/-- Two kernel tasks and the boot task take turns: every step meets the condition
and all entries are right. -/
theorem kernel_tasks_entered_in_kernel_space :
    ∃ m, exec switchStep (bootMachine 0x7000 0x9000 (by decide))
        [.create 0 0 0x5000, .tick, .create 0 0 0x6000, .tick, .block, .exit] = some m ∧
      m.entries.length = 4 ∧ ∀ e ∈ m.entries, e.InOwnSpace 0x7000 := by
  have hlength : (exec (guarded switchStep NoUserReady) (bootMachine 0x7000 0x9000 (by decide))
      [.create 0 0 0x5000, .tick, .create 0 0 0x6000, .tick, .block, .exit]).map
        (fun m => m.entries.length) = some 4 := by decide
  obtain ⟨m, hm, hfour⟩ := Option.map_eq_some_iff.mp hlength
  have hrun := exec_of_guarded _ hm
  exact ⟨m, hrun, hfour, (aspace_switch_correct_iff 0x7000 0x9000 (by decide) _ m hrun).mpr hm⟩

/-- The boot task creates a user program, and the next tick enters it with the
kernel's address space active. -/
theorem user_task_entered_in_kernel_space :
    ∃ m, exec switchStep (bootMachine 0x7000 0x9000 (by decide))
        [.createUser 0x8000000000 0x5000 0x8000001000 0x6000, .tick] = some m ∧
      ¬ ∀ e ∈ m.entries, e.InOwnSpace m.kernel := by
  have hwrong : (exec switchStep (bootMachine 0x7000 0x9000 (by decide))
      [.createUser 0x8000000000 0x5000 0x8000001000 0x6000, .tick]).map
        (fun m => decide (∀ e ∈ m.entries, e.InOwnSpace m.kernel)) = some false := by decide
  obtain ⟨m, hm, hentries⟩ := Option.map_eq_some_iff.mp hwrong
  exact ⟨m, hm, of_decide_eq_false hentries⟩

end TraitOS.Ttask
