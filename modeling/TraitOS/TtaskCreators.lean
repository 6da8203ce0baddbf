import TraitOS.TtaskFrames

/-!
# A task creator from its call to its return

What `ttask_create` and `ttask_create_user` leave behind if nothing comes between their statements:
the new record has a stack apart from all others and a complete frame on it.
-/
namespace TraitOS.Ttask

/-! ## A creator from its call to its return -/

/-- A creator at `c` returns with the kernel `k'`, if nothing comes between its statements and the
stack it is given is apart from the others. -/
inductive Returns (x : KernelText) : Kern → Creation → Kern → Prop
  | done {k k' : Kern} {c : Creation} (h : advance x k c = some (k', none)) : Returns x k c k'
  | next {k k₁ k' : Kern} {c c₁ : Creation} (hstack : StackGranted x k c)
      (h : advance x k c = some (k₁, some c₁)) (rest : Returns x k₁ c₁ k') : Returns x k c k'

/-- Wherever the creator returns, `P` holds. -/
def Finishes (x : KernelText) (P : Kern → Prop) (k : Kern) (c : Creation) : Prop :=
  ∀ k', Returns x k c k' → P k'

/-- The kernel with a new record in a slot. -/
def Kern.draft (k : Kern) (i : ℕ) (t : Task) (context : ℕ) : Kern :=
  { k.setTask i t with context := Function.update k.context i context }

/-- What the statements that fill a field make of the record. -/
def Stmt.edit (t : Task) : Stmt → Task
  | .ready => { t with state := .ready }
  | .priority p => { t with priority := p }
  | .slice => { t with slice := ttaskSliceTicks t.priority }
  | .fn f => { t with fn := f }
  | .arg a => { t with arg := a }
  | .stackSize => { t with stackSize := stackBytes }
  | .userMode => { t with userMode := true }
  | .aspace a => { t with aspace := a }
  | .userRsp r => { t with userRsp := r }
  | _ => t

def Stmt.isEdit : Stmt → Bool
  | .ready | .priority _ | .slice | .fn _ | .arg _ | .stackSize | .userMode | .aspace _ |
    .userRsp _ => true
  | _ => false

/-- Memory after words were pushed from `sp` down. -/
def pushAll (x : KernelText) (t : Task) (mem : ℕ → ℕ) (sp : ℕ) : List FrameWord → ℕ → ℕ
  | [] => mem
  | w :: ws => pushAll x t (Function.update mem (sp - 8) (w.value x t sp)) (sp - 8) ws

section Creator
variable {x : KernelText} {P : Kern → Prop} {k : Kern} {i sp st ctx : ℕ} {t : Task}
  {rest : List Stmt}

lemma Finishes.of_next {k₁ : Kern} {c c₁ : Creation} (h : advance x k c = some (k₁, some c₁))
    (hrest : StackGranted x k c → Finishes x P k₁ c₁) : Finishes x P k c := by
  intro k' hk'
  cases hk' with
  | done hdone => cases hdone.symm.trans h
  | next hstack hnext hreturns =>
    cases hnext.symm.trans h
    exact hrest hstack k' hreturns

lemma Finishes.of_done {k₁ : Kern} {c : Creation} (h : advance x k c = some (k₁, none))
    (hP : P k₁) : Finishes x P k c := by
  intro k' hk'
  cases hk' with
  | done hdone =>
    cases hdone.symm.trans h
    exact hP
  | next _ hnext _ => cases hnext.symm.trans h

lemma setTask_setTask (s : Sched) (i : ℕ) (t u : Task) : (s.setTask i t).setTask i u =
    s.setTask i u := by
  unfold Sched.setTask
  rw [Function.update_idem]

lemma draft_setTask (k : Kern) (i : ℕ) (t u : Task) (ctx : ℕ) : (k.draft i t ctx).setTask i u =
    k.draft i u ctx := by
  unfold Kern.draft Kern.setTask
  rw [setTask_setTask]

lemma draft_tasks (k : Kern) (i : ℕ) (t : Task) (ctx : ℕ) : (k.draft i t ctx).sched.tasks i = t :=
  Sched.setTask_tasks_self _ _ _

lemma Finishes.edit {s : Stmt} (hs : s.isEdit = true)
    (h : Finishes x P (k.draft i (s.edit t) ctx) ⟨i, sp, st, rest⟩) :
    Finishes x P (k.draft i t ctx) ⟨i, sp, st, s :: rest⟩ := by
  have hstep : advance x (k.draft i t ctx) ⟨i, sp, st, s :: rest⟩ =
      some ((k.draft i t ctx).setTask i (s.edit ((k.draft i t ctx).sched.tasks i)),
        some ⟨i, sp, st, rest⟩) := by
    cases s <;> first | rfl | cases hs
  rw [draft_tasks, draft_setTask] at hstep
  exact .of_next hstep fun _ => h

lemma Finishes.edits {edits : List Stmt} (hedits : ∀ s ∈ edits, s.isEdit = true)
    (h : Finishes x P (k.draft i (edits.foldl Stmt.edit t) ctx) ⟨i, sp, st, rest⟩) :
    Finishes x P (k.draft i t ctx) ⟨i, sp, st, edits ++ rest⟩ := by
  induction edits generalizing t with
  | nil => exact h
  | cons s edits ih =>
    exact .edit (hedits s (by simp)) (ih (fun s' hs' => hedits s' (by simp [hs'])) h)

/-- The allocation of the stack, which may fail. -/
lemma Finishes.stack (hfail : P (k.draft i { t with stack := 0, state := .free } ctx))
    (hfresh : st ≠ 0 → FreshStack x (k.draft i t ctx).sched st →
      Finishes x P (k.draft i { t with stack := st } ctx) ⟨i, sp, st, rest⟩) :
    Finishes x P (k.draft i t ctx) ⟨i, sp, st, .stack :: .checkStack :: rest⟩ := by
  have hstep : advance x (k.draft i t ctx) ⟨i, sp, st, .stack :: .checkStack :: rest⟩ =
      some ((k.draft i t ctx).setTask i { (k.draft i t ctx).sched.tasks i with stack := st },
        some ⟨i, sp, st, .checkStack :: rest⟩) := rfl
  rw [draft_tasks, draft_setTask] at hstep
  refine .of_next hstep fun hgranted => ?_
  by_cases hzero : st = 0
  · subst hzero
    have hcheck : advance x (k.draft i { t with stack := 0 } ctx) ⟨i, sp, 0, .checkStack :: rest⟩ =
        some ((k.draft i { t with stack := 0 } ctx).setTask i
          { (k.draft i { t with stack := 0 } ctx).sched.tasks i with state := .free }, none) :=
      if_pos (by rw [draft_tasks])
    rw [draft_tasks, draft_setTask] at hcheck
    exact .of_done hcheck hfail
  · refine .of_next (if_neg (by rw [draft_tasks]; exact hzero)) fun _ => ?_
    exact hfresh hzero ((hgranted rfl).resolve_left hzero)

/-- The words of a frame, one after the other. -/
lemma Finishes.push {mem : ℕ → ℕ} {words : List FrameWord}
    (h : Finishes x P { k with mem := pushAll x (k.sched.tasks i) mem sp words }
      ⟨i, sp - 8 * words.length, st, rest⟩) :
    Finishes x P { k with mem := mem } ⟨i, sp, st, words.map Stmt.push ++ rest⟩ := by
  induction words generalizing sp mem with
  | nil => exact h
  | cons w words ih =>
    refine .of_next rfl fun _ => ih ?_
    have hdepth : sp - 8 - 8 * words.length = sp - 8 * (w :: words).length := by
      rw [List.length_cons]
      omega
    rw [hdepth]
    exact h

lemma freshFrame_length (user : Bool) : (freshFrame user).length = 12 := by
  cases user <;> rfl

/-- The record is full; the frame is pushed and the context set. -/
lemma Finishes.epilogue
    (h : P { k.draft i t (t.stackTop - 96) with
      mem := pushAll x t k.mem t.stackTop (freshFrame t.userMode)
      savedIntr := Function.update k.savedIntr i true }) :
    Finishes x P (k.draft i t ctx) ⟨i, sp, st, Ttask.epilogue⟩ := by
  have htask := draft_tasks k i t ctx
  refine .of_next rfl fun _ => .of_next rfl fun _ => ?_
  rw [htask]
  change Finishes x P { k.draft i t ctx with mem := k.mem }
    ⟨i, t.stackTop, st, (freshFrame t.userMode).map Stmt.push ++ [.context]⟩
  refine Finishes.push (.of_next rfl fun _ => .of_done rfl ?_)
  dsimp only
  rw [htask, freshFrame_length]
  unfold Kern.draft
  rw [Function.update_idem]
  exact h

end Creator

/-! ## A new task in its slot -/

section NewTask
variable {x : KernelText} {k k' : Kern} {i : ℕ} {t : Task}

/-- Words are written below the pointer only. -/
lemma pushAll_other {mem : ℕ → ℕ} {sp a : ℕ} {words : List FrameWord}
    (hroom : 8 * words.length ≤ sp) (ha : a < sp - 8 * words.length ∨ sp ≤ a) :
    pushAll x t mem sp words a = mem a := by
  induction words generalizing mem sp with
  | nil => rfl
  | cons w words ih =>
    rw [List.length_cons] at hroom ha
    rw [pushAll, ih (by omega) (by omega), Function.update_of_ne (by omega)]

lemma pushAll_word {mem : ℕ → ℕ} {sp j : ℕ} {words : List FrameWord} (hroom : 8 * words.length ≤ sp)
    {w : FrameWord} (hw : words[j]? = some w) :
    pushAll x t mem sp words (sp - 8 * (j + 1)) = w.value x t (sp - 8 * j) := by
  induction words generalizing mem sp j with
  | nil => simp at hw
  | cons v words ih =>
    rw [List.length_cons] at hroom
    rw [pushAll]
    cases j with
    | zero =>
      cases hw
      rw [pushAll_other (by omega) (by omega), Function.update_self, Nat.mul_zero, Nat.sub_zero]
    | succ j =>
      have hword : pushAll x t (Function.update mem (sp - 8) (v.value x t sp))
          (sp - 8) words (sp - 8 - 8 * (j + 1)) = w.value x t (sp - 8 - 8 * j) := ih (by omega) hw
      rwa [show sp - 8 - 8 * (j + 1) = sp - 8 * (j + 1 + 1) by omega,
        show sp - 8 - 8 * j = sp - 8 * (j + 1) by omega] at hword

/-- A stack for slot `i` apart from the boot stack and from the stacks of the other slots. -/
def StackFor (x : KernelText) (k : Kern) (i stack : ℕ) : Prop :=
  (stack + stackBytes ≤ x.bootStack ∨ x.stackTop ≤ stack) ∧
    ∀ j < maxTasks, j ≠ i → (k.sched.tasks j).stack ≠ 0 →
      stack + stackBytes ≤ (k.sched.tasks j).stack ∨ (k.sched.tasks j).stack + stackBytes ≤ stack

/-- The record of a slot is replaced by a task that is not running. -/
lemma Settled.replace (h : Settled x k) (hrun : k.halted = false) (hi : i < maxTasks)
    (hcur : k.sched.current ≠ i) (hsched : k'.sched = k.sched.setTask i t)
    (hcontext : ∀ j, j ≠ i → k'.context j = k.context j)
    (hmem : ∀ j < maxTasks, j ≠ i → Alive k.sched j → ∀ a, stackLo x k.sched j ≤ a →
      a < stackHi x k.sched j → k'.mem a = k.mem a)
    (hnew : Alive k'.sched i → t.stack ≠ 0 ∧ Resumable x k' i)
    (hplaced : t.stack ≠ 0 → t.stackSize = stackBytes ∧ StackFor x k i t.stack) : Settled x k' := by
  have hself : k'.sched.kernelStack i = t.kernelStack := by
    unfold Sched.kernelStack
    rw [hsched, Sched.setTask_tasks_self]
  have hother (j : ℕ) (hj : j ≠ i) : k'.sched.kernelStack j = k.sched.kernelStack j := by
    unfold Sched.kernelStack
    rw [hsched, Sched.setTask_tasks_of_ne _ _ hj]
  have hstate (j : ℕ) (hj : j ≠ i) : k'.sched.state j = k.sched.state j := by
    rw [hsched, Sched.setTask_state, if_neg hj]
  have hcurrent : k'.sched.current = k.sched.current := by
    rw [hsched]
    rfl
  have hready := h.running hrun
  have halive (j : ℕ) (hj : j ≠ i) (ha : Alive k'.sched j) : Alive k.sched j := by
    unfold Alive at ha
    rwa [hstate j hj] at ha
  refine ⟨⟨h.boot, fun j hj hne ha => ?_, fun j hj h0 ha => ?_, fun j hj hstack => ?_,
    fun j hj l hl hjl hsj hsl => ?_, ?_⟩, fun _ => ?_⟩
  · by_cases hji : j = i
    · exact hji ▸ (hnew (hji ▸ ha)).2
    · rw [hcurrent] at hne
      exact (h.saved j hj hne (halive j hji ha)).congr (hother j hji) (hcontext j hji)
        (hmem j hj hji (halive j hji ha))
  · by_cases hji : j = i
    · subst hji
      rw [hself]
      exact (hnew ha).1
    · rw [hother j hji]
      exact h.owned j hj h0 (halive j hji ha)
  · by_cases hji : j = i
    · subst hji
      rw [hself] at hstack ⊢
      exact ⟨(hplaced hstack).1, (hplaced hstack).2.1⟩
    · rw [hother j hji] at hstack ⊢
      exact h.placed j hj hstack
  · by_cases hji : j = i
    · subst hji
      rw [hself] at hsj ⊢
      rw [hother l (Ne.symm hjl)] at hsl ⊢
      exact (hplaced hsj).2.2 l hl (Ne.symm hjl) hsl
    · rw [hother j hji] at hsj ⊢
      by_cases hli : l = i
      · subst hli
        rw [hself] at hsl ⊢
        exact ((hplaced hsl).2.2 j hj hji hsj).symm
      · rw [hother l hli] at hsl ⊢
        exact h.apart j hj l hl hjl hsj hsl
  · rw [hcurrent, hother _ hcur]
    exact h.home
  · rw [hcurrent, hstate _ hcur]
    exact hready

/-- The new stack and the stack of a task have no byte in common. -/
lemma Settled.apart_new (h : Settled x k) {stack : ℕ} (hfor : StackFor x k i stack) {j : ℕ}
    (hj : j < maxTasks) (hji : j ≠ i) (halive : Alive k.sched j) :
    stack + stackBytes ≤ stackLo x k.sched j ∨ stackHi x k.sched j ≤ stack := by
  unfold stackLo stackHi
  by_cases hboot : j = 0 ∧ (k.sched.tasks j).stack = 0
  · rw [if_pos hboot, if_pos hboot]
    exact hfor.1
  · have hstack : (k.sched.tasks j).stack ≠ 0 := by
      by_cases h0 : j = 0
      · exact fun hz => hboot ⟨h0, hz⟩
      · exact h.owned j hj h0 halive
    have hsize : (k.sched.tasks j).stackSize = stackBytes := (h.placed j hj hstack).1
    rw [if_neg hboot, if_neg hboot, hsize]
    exact hfor.2 j hj hji hstack

/-- The frame of a new task is complete. -/
lemma pushAll_frame (mem : ℕ → ℕ) {p : ℕ} (hp : p + 96 = t.stackTop) :
    pushAll x t mem t.stackTop (freshFrame t.userMode) (p + 48) = x.ttaskEntryIret ∧
      IretFrame x (pushAll x t mem t.stackTop (freshFrame t.userMode)) (p + 56) := by
  have hroom : 8 * (freshFrame t.userMode).length ≤ t.stackTop := by
    rw [freshFrame_length]
    omega
  have hword (j : ℕ) {w : FrameWord} (hw : (freshFrame t.userMode)[j]? = some w) {a : ℕ}
      (ha : a = t.stackTop - 8 * (j + 1)) :
      pushAll x t mem t.stackTop (freshFrame t.userMode) a = w.value x t (t.stackTop - 8 * j) :=
    ha ▸ pushAll_word hroom hw
  unfold IretFrame
  cases huser : t.userMode with
  | false =>
    rw [huser] at hword
    exact ⟨hword 5 rfl (by omega), hword 2 rfl (by omega),
      Or.inl ⟨hword 4 rfl (by omega), hword 3 rfl (by omega), hword 0 rfl (by omega)⟩⟩
  | true =>
    rw [huser] at hword
    exact ⟨hword 5 rfl (by omega), hword 2 rfl (by omega), Or.inr ⟨hword 3 rfl (by omega),
      hword 0 rfl (by omega)⟩⟩

/-- A creator that filled its record leaves a task that can be resumed. -/
lemma Settled.create (h : Settled x k) (hrun : k.halted = false) (hi : i < maxTasks)
    (hcur : k.sched.current ≠ i) (hstack : t.stack ≠ 0) (hsize : t.stackSize = stackBytes)
    (hfor : StackFor x k i t.stack) :
    Settled x { k.draft i t (t.stackTop - 96) with
      mem := pushAll x t k.mem t.stackTop (freshFrame t.userMode)
      savedIntr := Function.update k.savedIntr i true } := by
  have htop : t.stackTop = (t.stack + stackBytes) / 16 * 16 := by
    rw [Task.stackTop, hsize]
  have hbytes : stackBytes = 8192 := rfl
  have hroom : 8 * (freshFrame t.userMode).length ≤ t.stackTop := by
    rw [freshFrame_length]
    omega
  refine h.replace hrun hi hcur rfl (fun j hj => Function.update_of_ne hj _ _)
    (fun j hj hji ha a hlo hhi => ?_)
    (fun _ => ⟨hstack, ?_⟩) fun _ => ⟨hsize, hfor⟩
  · have hapart := h.apart_new hfor hj hji ha
    refine pushAll_other hroom ?_
    rw [freshFrame_length]
    omega
  · have hframe := @pushAll_frame x t k.mem (t.stackTop - 96) (by omega)
    have hcontext : Function.update k.context i (t.stackTop - 96) i = t.stackTop - 96 :=
      Function.update_self ..
    have hlo : stackLo x (k.sched.setTask i t) i = t.stack := by
      simp [stackLo, Sched.setTask_tasks_self, hstack]
    have hhi : stackHi x (k.sched.setTask i t) i = t.stack + stackBytes := by
      simp [stackHi, Sched.setTask_tasks_self, hstack, hsize]
    unfold Resumable
    dsimp only [Kern.draft, Kern.setTask]
    rw [hcontext, hlo, hhi]
    exact ⟨by omega, by omega, by omega, Or.inr ⟨by omega, hframe⟩⟩

/-- No stack for the new task: its slot is free again. -/
lemma Settled.noStack (h : Settled x k) (hrun : k.halted = false) (hi : i < maxTasks)
    (hcur : k.sched.current ≠ i) (ctx : ℕ) :
    Settled x (k.draft i { t with stack := 0, state := .free } ctx) := by
  refine h.replace hrun hi hcur rfl (fun j hj => Function.update_of_ne hj _ _)
    (fun _ _ _ _ _ _ _ => rfl)
    (fun ha => ?_) fun hne => absurd rfl hne
  change Alive (k.sched.setTask i _) i at ha
  unfold Alive at ha
  rw [Sched.setTask_state, if_pos rfl] at ha
  simp at ha

lemma FreshStack.stackFor {stack ctx : ℕ} (h : FreshStack x (k.draft i t ctx).sched stack) :
    StackFor x k i stack := by
  refine ⟨h.1, fun j hj hji hne => ?_⟩
  have htask : (k.draft i t ctx).sched.tasks j = k.sched.tasks j :=
    Sched.setTask_tasks_of_ne _ _ hji
  have hapart := h.2 j hj
  rw [htask] at hapart
  exact hapart hne

/-- What a creator does with the slot it cleared. -/
structure Body (x : KernelText) (body : List Stmt) : Prop where
  last : body.getLast? = some .context
  found : .search ∉ body
  finishes : ∀ (k : Kern) (i sp stack : ℕ), Settled x k → k.halted = false → i < maxTasks →
    k.sched.current ≠ i → Finishes x (Settled x) (k.draft i blank 0) ⟨i, sp, stack, body⟩

/-- The part of the two creators that is the same: a first group of fields, a stack, a second group.
-/
lemma Settled.creator (h : Settled x k) (hrun : k.halted = false) (hi : i < maxTasks)
    (hcur : k.sched.current ≠ i) {before after : List Stmt} {sp stack : ℕ}
    (hbefore : ∀ s ∈ before, s.isEdit = true) (hafter : ∀ s ∈ after, s.isEdit = true)
    (hstack : ∀ u : Task, (after.foldl Stmt.edit u).stack = u.stack)
    (hsize : ∀ u : Task, (after.foldl Stmt.edit u).stackSize = stackBytes) :
    Finishes x (Settled x) (k.draft i blank 0)
      ⟨i, sp, stack, before ++ .stack :: .checkStack :: (after ++ epilogue)⟩ := by
  refine Finishes.edits hbefore ?_
  refine Finishes.stack (h.noStack hrun hi hcur 0) fun hne hfresh => ?_
  refine Finishes.edits hafter ?_
  refine Finishes.epilogue (h.create hrun hi hcur ?_ (hsize _) ?_)
  · rwa [hstack]
  · rw [hstack]
    exact hfresh.stackFor

lemma createProgram_body (x : KernelText) (fn arg : ℕ) :
    Body x ((createProgram fn arg).drop 3) where
  last := rfl
  found := by simp [createProgram, prologue, epilogue]
  finishes k i sp stack h hrun hi hcur :=
    @Settled.creator x k i h hrun hi hcur [.ready, .priority 1, .slice, .fn fn, .arg arg]
      [.stackSize] sp stack (by simp [Stmt.isEdit]) (by simp [Stmt.isEdit]) (fun _ => rfl) fun _ =>
        rfl

lemma createUserProgram_body (x : KernelText) (entry aspace userRsp : ℕ) :
    Body x ((createUserProgram entry aspace userRsp).drop 3) where
  last := rfl
  found := by simp [createUserProgram, prologue, epilogue]
  finishes k i sp stack h hrun hi hcur :=
    @Settled.creator x k i h hrun hi hcur [.ready, .priority 2, .slice, .fn entry]
      [.stackSize, .userMode, .aspace aspace, .userRsp userRsp] sp stack
      (by simp [Stmt.isEdit]) (by simp [Stmt.isEdit]) (fun _ => rfl) fun _ => rfl

/-- With nothing in between, a creator that found a slot leaves the stacks in order, whether or not
an exited task has to be cleaned up. -/
lemma Body.of_found {body : List Stmt} (hbody : Body x body) (h : Settled x k)
    (hrun : k.halted = false) (hi : i < maxTasks) (hcur : k.sched.current ≠ i) (sp stack : ℕ) :
    Finishes x (Settled x) k ⟨i, sp, stack, .reclaim :: .clear :: body⟩ := by
  have hclear {k₁ : Kern} (hk₁ : k₁ = k ∨ ∃ t, k₁ = k.setTask i t) :
      Finishes x (Settled x) k₁ ⟨i, sp, stack, .clear :: body⟩ := by
    have hdraft : k₁.draft i blank 0 = k.draft i blank 0 := by
      rcases hk₁ with rfl | ⟨t, rfl⟩
      · rfl
      · unfold Kern.draft Kern.setTask
        rw [setTask_setTask]
    refine .of_next (show _ = some (k₁.draft i blank 0, _) from rfl) fun _ => ?_
    rw [hdraft]
    exact hbody.finishes k i sp stack h hrun hi hcur
  by_cases hexited : (k.sched.tasks i).state = .exited
  · refine .of_next (if_pos hexited) fun _ => .of_next rfl fun _ => .of_next rfl fun _ => ?_
    refine hclear (Or.inr ?_)
    split_ifs
    · unfold Kern.setTask
      rw [setTask_setTask]
      exact ⟨_, rfl⟩
    · exact ⟨_, rfl⟩
  · exact .of_next (if_neg hexited) fun _ => hclear (Or.inl rfl)

end NewTask

end TraitOS.Ttask
