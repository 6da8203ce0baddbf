import TraitOS.TtaskCreators

/-!
# Every READY task can be resumed

A creator makes its slot READY before the slot has a stack and a frame, so a timer tick in between
switches to a null context. If a creator works with interrupts masked from the slot it found to the
store of its context, every READY task has its frame wherever the timer can come.
-/
namespace TraitOS.Ttask
open Runs

variable {c : Creation}

/-! ## Where a creator is -/

section Creators
variable {x : KernelText} {k k' : Kern} {c : Creation} {o : Option Creation}

/-- A creator of task `j` that has not touched its slot yet, or is about to return. -/
inductive Early (x : KernelText) (j : ℕ) (c : Creation) : Prop
  | search (body : List Stmt) (hbody : Body x body) (hlt : c.slot < maxTasks)
      (hrest : c.rest = .search :: .reclaim :: .clear :: body)
  | found (body : List Stmt) (hbody : Body x body) (hlt : c.slot < maxTasks) (hne : c.slot ≠ j)
      (hrest : c.rest = .reclaim :: .clear :: body)
  | returns (hrest : c.rest = [])

/-- A creator that is at its slot, and puts everything in order if nothing comes between. -/
structure Busy (x : KernelText) (k : Kern) (c : Creation) : Prop where
  last : c.rest.getLast? = some .context
  found : .search ∉ c.rest
  finishes : Finishes x (Settled x) k c

lemma Busy.placing (h : Busy x k c) : c.placing = true := by
  have hcontext : .context ∈ c.rest := List.mem_of_getLast? h.last
  simp [Creation.placing, h.found, hcontext]

/-- Where the creator of the running task stands after a statement. -/
def Proceeds (x : KernelText) (k : Kern) (o : Option Creation) : Prop :=
  (Settled x k ∧ ∀ c, o = some c → Early x k.sched.current c) ∨
    k.intr = false ∧ ∃ c, o = some c ∧ Busy x k c

lemma Proceeds.early (h : Settled x k) (hc : Early x k.sched.current c) : Proceeds x k (some c) :=
  Or.inl ⟨h, fun _ heq => Option.some.inj heq ▸ hc⟩

lemma Proceeds.return (h : Settled x k) : Proceeds x k none :=
  Or.inl ⟨h, fun _ heq => by simp at heq⟩

/-- A statement is done, or replaced by others; none of them is the search or the last one. -/
lemma advance_rest {s : Stmt} {rest : List Stmt} (hrest : c.rest = s :: rest) (hs : s ≠ .search)
    {c' : Creation} (hstep : advance x k c = some (k', some c')) :
    ∃ more, c'.rest = more ++ rest ∧ .search ∉ more ∧ (s = .context → more = []) := by
  obtain ⟨slot, sp, stack, _⟩ := c
  dsimp only at hrest
  subst hrest
  cases s with
  | search => exact absurd rfl hs
  | reclaim =>
    simp only [advance] at hstep
    split_ifs at hstep
    · cases hstep
      exact ⟨[.freeStack, .freeSpace], rfl, by simp, fun h => by simp at h⟩
    · cases hstep
      exact ⟨[], rfl, by simp, fun _ => rfl⟩
  | checkStack =>
    simp only [advance] at hstep
    split_ifs at hstep <;> cases hstep
    exact ⟨[], rfl, by simp, fun _ => rfl⟩
  | frame =>
    cases hstep
    exact ⟨(freshFrame (k.sched.tasks slot).userMode).map Stmt.push, rfl, by simp, fun h => by
      simp at h⟩
  | _ =>
    cases hstep
    exact ⟨[], rfl, by simp, fun _ => rfl⟩

lemma advance_intr (hstep : advance x k c = some (k', o)) : k'.intr = k.intr := by
  obtain ⟨slot, sp, stack, rest⟩ := c
  cases rest with
  | nil =>
    cases hstep
    rfl
  | cons stmt rest =>
    cases stmt <;> simp only [advance] at hstep <;> (try split_ifs at hstep) <;> cases hstep <;> rfl

lemma Busy.advance (h : Busy x k c) (hintr : k.intr = false) (hstack : StackGranted x k c)
    (hstep : advance x k c = some (k', o)) : Proceeds x k' o := by
  cases o with
  | none => exact .return (h.finishes k' (.done hstep))
  | some c' =>
    have hfinishes : Finishes x (Settled x) k' c' :=
      fun k₂ hk₂ => h.finishes k₂ (.next hstack hstep hk₂)
    have hlast := h.last
    have hfound := h.found
    cases hrest : c.rest with
    | nil => simp [hrest] at hlast
    | cons s rest =>
      rw [hrest, List.mem_cons, not_or] at hfound
      rw [hrest] at hlast
      obtain ⟨more, hmore, hsearch, hcontext⟩ := advance_rest hrest (Ne.symm hfound.1) hstep
      by_cases hnil : rest = []
      · -- the context is stored: the creator only has to return
        subst hnil
        have hdone : c'.rest = [] := by
          rw [hmore, hcontext (by simpa using hlast), List.append_nil]
        refine .early (hfinishes k' (.done ?_)) (.returns hdone)
        rw [Ttask.advance, hdone]
      · refine Or.inr ⟨(advance_intr hstep).trans hintr, c', rfl, ?_, ?_, hfinishes⟩
        · rw [List.getLast?_cons_of_ne_nil hnil] at hlast
          rw [hmore, List.getLast?_append_of_ne_nil _ hnil, hlast]
        · rw [hmore, List.mem_append, not_or]
          exact ⟨hsearch, hfound.2⟩

lemma Early.advance (h : Early x k.sched.current c) (hsettled : Settled x k)
    (hrun : k.halted = false) (hmask : c.placing = true → k.intr = false)
    (hstack : StackGranted x k c) (hstep : advance x k c = some (k', o)) : Proceeds x k' o := by
  cases h with
  | search body hbody hlt hrest =>
    obtain ⟨slot, sp, stack, rest⟩ := c
    dsimp only at hlt hrest
    subst hrest
    simp only [Ttask.advance] at hstep
    split_ifs at hstep with hfree hmore
    · cases hstep
      have hne : slot ≠ k.sched.current := by
        rintro rfl
        have hready : (k.sched.tasks k.sched.current).state = .ready := hsettled.running hrun
        simp [hready] at hfree
      exact .early hsettled (.found body hbody hlt hne rfl)
    · cases hstep
      exact .early hsettled (.search body hbody hmore rfl)
    · cases hstep
      exact .return hsettled
  | found body hbody hlt hne hrest =>
    have hbusy : Busy x k c := by
      refine ⟨?_, ?_, ?_⟩
      · rw [hrest, List.getLast?_cons_cons, List.getLast?_cons, hbody.last]
        rfl
      · simp [hrest, hbody.found]
      · obtain ⟨slot, sp, stack, rest⟩ := c
        dsimp only at hrest
        subst hrest
        exact hbody.of_found hsettled hrun hlt hne.symm sp stack
    exact hbusy.advance (hmask hbusy.placing) hstack hstep
  | returns hrest =>
    rw [Ttask.advance, hrest] at hstep
    cases hstep
    exact .return hsettled

/-- A slot whose context is null has no frame. -/
lemma not_resumable {i : ℕ} (h : k.context i = 0) : ¬ Resumable x k i := by
  unfold Resumable
  dsimp only
  rw [h]
  omega

/-- Where the timer can come, or no creator is at its slot, every READY task but the running one has
its frame. -/
lemma Proceeds.resumable (h : Proceeds x k o)
    (hopen : k.intr = true ∨ o.any Creation.placing = false) {i : ℕ} (hi : i < maxTasks)
    (hne : i ≠ k.sched.current) (hready : k.sched.state i = .ready) : Resumable x k i := by
  obtain ⟨hsettled, -⟩ | ⟨hintr, c, rfl, hbusy⟩ := h
  · exact hsettled.saved i hi hne (Or.inl hready)
  · rw [Option.any_some, hbusy.placing, hintr] at hopen
    simp at hopen

end Creators

/-! ## Whole runs -/

section Runs
variable {x : KernelText} {k k' : Kern}

lemma advance_setCreating (x : KernelText) (k : Kern) (c : Creation) (f : ℕ → Option Creation) :
    advance x { k with creating := f } c = (advance x k c).map fun r =>
      ({ r.1 with creating := f }, r.2) := by
  obtain ⟨slot, sp, stack, rest⟩ := c
  cases rest with
  | nil => rfl
  | cons stmt rest => cases stmt <;> (try rfl) <;> simp only [advance] <;> split_ifs <;> rfl

/-- A creator works on its slot and on memory only. -/
lemma advance_frame {o : Option Creation} (h : advance x k c = some (k', o)) :
    k'.sched.current = k.sched.current ∧ k'.halted = k.halted := by
  obtain ⟨slot, sp, stack, rest⟩ := c
  cases rest with
  | nil =>
    cases h
    simp
  | cons stmt rest =>
    cases stmt <;> simp only [advance] at h <;> (try split_ifs at h) <;> cases h <;> exact ⟨rfl,
      rfl⟩

lemma Settled.setCreating (h : Settled x k) (f : ℕ →
    Option Creation) : Settled x { k with creating := f } :=
  ⟨⟨h.boot, h.saved, h.owned, h.placed, h.apart, h.home⟩, h.running⟩

lemma Returns.setCreating (h : Returns x k c k') (f : ℕ → Option Creation) :
    Returns x { k with creating := f } c { k' with creating := f } := by
  induction h with
  | done h =>
    refine .done ?_
    rw [advance_setCreating, h]
    rfl
  | next hstack h _ ih =>
    refine .next hstack ?_ ih
    rw [advance_setCreating, h]
    rfl

lemma Finishes.setCreating (h : Finishes x (Settled x) k c) (f : ℕ → Option Creation) :
    Finishes x (Settled x) { k with creating := f } c :=
  fun k' hk' => (h _ (hk'.setCreating k.creating)).setCreating k'.creating

/-- The creators of suspended tasks are at their beginning; that of the running task is too, and the
stacks are in order, or it is at its slot with interrupts masked. -/
structure Orderly (x : KernelText) (k : Kern) : Prop where
  suspended : ∀ j, j ≠ k.sched.current → ∀ c, k.creating j = some c → Early x j c
  running : Proceeds x k (k.creating k.sched.current)

lemma Orderly.of_settled (h : Settled x k) (hearly : ∀ j c, k.creating j = some c →
    Early x j c) : Orderly x k :=
  ⟨fun j _ => hearly j, Or.inl ⟨h, hearly _⟩⟩

lemma Orderly.early (h : Orderly x k)
    (hearly : ∀ c, k.creating k.sched.current = some c → Early x k.sched.current c) (j : ℕ)
    (c : Creation) (hc : k.creating j = some c) : Early x j c := by
  by_cases hj : j = k.sched.current
  · exact hj ▸ hearly c (hj ▸ hc)
  · exact h.suspended j hj c hc

lemma Orderly.idle (h : Orderly x k) (hnone : k.creating k.sched.current = none) :
    Settled x k ∧ ∀ j c, k.creating j = some c → Early x j c := by
  obtain ⟨hsettled, hearly⟩ | ⟨-, c, hc, -⟩ := h.running
  · exact ⟨hsettled, h.early hearly⟩
  · cases hnone.symm.trans hc

lemma pickSwitch_creating (k : Kern) (sp : ℕ) (regs : ℕ → ℕ) (flag : Bool) :
    (k.pickSwitch x sp regs flag).creating = k.creating := by
  unfold Kern.pickSwitch
  dsimp only
  split_ifs <;> rfl

lemma exit_creating (k : Kern) (sp : ℕ) (regs : ℕ → ℕ) : (k.exit x sp regs).creating =
    k.creating := by
  unfold Kern.exit
  dsimp only
  split_ifs
  · rfl
  · exact pickSwitch_creating _ _ _ _

lemma block_creating (k : Kern) (sp : ℕ) (regs : ℕ → ℕ) : (k.block x sp regs).creating =
    k.creating := by
  unfold Kern.block
  split_ifs <;> rfl

lemma afterClear_eq_some {c c' : Creation} {j : ℕ} (h : k.afterClear c j = some c') : k.creating j =
    some c' := by
  unfold Kern.afterClear at h
  split_ifs at h
  · by_cases hj : j = c.slot
    · subst hj
      simp at h
    · rwa [Function.update_of_ne hj] at h
  · exact h

/-- A statement of a creator. -/
lemma Orderly.advance (h : Orderly x k) (hrun : k.halted = false) (hmasked : Masked x k .advance)
    {o : Option Creation} (hc : k.creating k.sched.current = some c)
    (hstep : Ttask.advance x k c = some (k', o)) :
    Orderly x { k' with creating := Function.update (k.afterClear c) k.sched.current o } := by
  have hcurrent := (advance_frame hstep).1
  obtain ⟨hmask, hstack⟩ := hmasked c hc
  have hproceeds : Proceeds x k' o := by
    have hrunning := h.running
    rw [hc] at hrunning
    obtain ⟨hsettled, hearly⟩ | ⟨hintr, c', hc', hbusy⟩ := hrunning
    · exact (hearly c rfl).advance hsettled hrun hmask hstack hstep
    · cases hc'
      exact hbusy.advance hintr hstack hstep
  refine ⟨fun j hj c' hc' => ?_, ?_⟩
  · dsimp only at hj hc'
    rw [hcurrent] at hj
    rw [Function.update_of_ne hj] at hc'
    exact h.suspended j hj c' (afterClear_eq_some hc')
  · dsimp only
    rw [hcurrent, Function.update_self]
    obtain ⟨hsettled, hearly⟩ | ⟨hintr, c', hc', hbusy⟩ := hproceeds
    · exact Or.inl ⟨hsettled.setCreating _, hearly⟩
    · exact Or.inr ⟨hintr, c', hc', hbusy.last, hbusy.found, hbusy.finishes.setCreating _⟩

/-- A call of a creator. -/
lemma Orderly.call (h : Settled x k) (hearly : ∀ j c, k.creating j = some c → Early x j c)
    (hc : Early x k.sched.current c) :
    Orderly x { k with creating := Function.update k.creating k.sched.current (some c) } := by
  refine .of_settled (h.setCreating _) fun j c' hc' => ?_
  dsimp only at hc'
  by_cases hj : j = k.sched.current
  · subst hj
    rw [Function.update_self] at hc'
    cases hc'
    exact hc
  · rw [Function.update_of_ne hj] at hc'
    exact hearly j c' hc'

lemma tick_creating (k : Kern) (sp : ℕ) (regs : ℕ → ℕ) : (k.tick x sp regs).creating = k.creating :=
  pickSwitch_creating _ _ _ _

/-- The timer comes with interrupts enabled only. -/
lemma Orderly.enabled (h : Orderly x k) (hintr : k.intr = true) :
    Settled x k ∧ ∀ j c, k.creating j = some c → Early x j c := by
  obtain ⟨hsettled, hearly⟩ | ⟨hmasked, -⟩ := h.running
  · exact ⟨hsettled, h.early hearly⟩
  · exact absurd (hmasked.symm.trans hintr) (by decide)

lemma Orderly.tick (h : Orderly x k) (hintr : k.intr = true) {sp : ℕ} (hsp : OnStack x k sp)
    (regs : ℕ → ℕ) : Orderly x (k.tick x sp regs) := by
  obtain ⟨hsettled, hearly⟩ := h.enabled hintr
  refine .of_settled (hsettled.tick hsp) ?_
  rwa [tick_creating]

/-- One action. -/
lemma Orderly.step (h : Orderly x k) {op : KernOp} (hmasked : Masked x k op)
    (hstep : kernStep x k op = some k') : Orderly x k' := by
  unfold kernStep at hstep
  dsimp only at hstep
  by_cases hrun : k.halted = true
  · simp [hrun] at hstep
  rw [if_neg hrun] at hstep
  rw [Bool.not_eq_true] at hrun
  cases hc : k.creating k.sched.current with
  | some c =>
    rw [hc] at hstep
    cases op with
    | advance =>
      obtain ⟨⟨k₁, o⟩, hadvance, rfl⟩ := Option.map_eq_some_iff.mp hstep
      exact h.advance hrun hmasked hc hadvance
    | tick sp regs =>
      obtain ⟨hintr, hticked⟩ := Option.ite_none_right_eq_some.mp hstep
      cases hticked
      exact h.tick hintr hmasked regs
    | _ => cases hstep
  | none =>
    rw [hc] at hstep
    obtain ⟨hsettled, hearly⟩ := h.idle hc
    cases op with
    | create fn arg stack =>
      cases hstep
      exact .call hsettled hearly (.search _ (createProgram_body x fn arg) (by simp [maxTasks]) rfl)
    | createUser entry aspace userRsp stack =>
      cases hstep
      exact .call hsettled hearly
        (.search _ (createUserProgram_body x entry aspace userRsp) (by simp [maxTasks]) rfl)
    | advance => cases hstep
    | tick sp regs =>
      obtain ⟨hintr, hticked⟩ := Option.ite_none_right_eq_some.mp hstep
      cases hticked
      exact h.tick hintr hmasked regs
    | userTick depth regs =>
      obtain ⟨-, hticked⟩ := Option.ite_none_right_eq_some.mp hstep
      cases hticked
      refine .of_settled (hsettled.userTick hmasked.1 hmasked.2) ?_
      unfold Kern.userTick
      rwa [tick_creating]
    | yield sp regs =>
      cases hstep
      refine .of_settled (hsettled.toStacks.pickSwitch hmasked _ fun _ => hsettled) ?_
      rwa [pickSwitch_creating]
    | block sp regs =>
      cases hstep
      refine .of_settled (hsettled.block hrun hmasked) ?_
      rwa [block_creating]
    | exit sp regs =>
      cases hstep
      refine .of_settled (hsettled.exit hmasked) ?_
      rwa [exit_creating]
    | wake id =>
      cases hstep
      exact .of_settled (hsettled.wake id) hearly
    | setIntr on =>
      cases hstep
      exact .of_settled ⟨⟨hsettled.boot, hsettled.saved, hsettled.owned, hsettled.placed,
        hsettled.apart, hsettled.home⟩, hsettled.running⟩ hearly
    | store addr value =>
      cases hstep
      exact .of_settled (hsettled.store value hmasked) hearly

lemma bootKern_orderly (hboot : 0 < x.bootStack) (mem : ℕ → ℕ) (rsp0 : ℕ) (intr : Bool) :
    Orderly x (bootKern mem rsp0 intr) := by
  have hblank (i : ℕ) (h0 : i ≠ 0) : ttaskInit.tasks i = blank := by
    simp [ttaskInit, h0]
  have halive (i : ℕ) (h0 : i ≠ 0) : ¬ Alive ttaskInit i := by
    unfold Alive Sched.state
    rw [hblank i h0]
    decide
  have hstack (i : ℕ) : (ttaskInit.kernelStack i).stack = 0 := by
    by_cases h0 : i = 0
    · subst h0
      rfl
    · unfold Sched.kernelStack
      rw [hblank i h0]
      rfl
  refine .of_settled ⟨⟨hboot, fun i _ hne ha => absurd ha (halive i hne),
    fun i _ h0 ha => absurd ha (halive i h0),
    fun i _ hne => absurd (hstack i) hne, fun i _ j _ _ hne => absurd (hstack i) hne, fun hne =>
      absurd rfl hne⟩,
    fun _ => rfl⟩ fun j c hc => ?_
  cases hc

/-- In every run in which creators work masked and every task is on its own stack when it is
switched away, wherever the timer can come, every READY task but the running one has its frame. It
also has with interrupts disabled, unless a creator is at its slot. -/
theorem pickable_resumable (hboot : 0 < x.bootStack) (mem : ℕ → ℕ) (rsp0 : ℕ) (intr : Bool)
    (ops : List KernOp)
    (hrun : exec (guarded (kernStep x) (Masked x)) (bootKern mem rsp0 intr) ops = some k)
    (hopen : k.intr = true ∨ (k.creating k.sched.current).any Creation.placing = false) :
    ∀ i < maxTasks, i ≠ k.sched.current → k.sched.state i = .ready → Resumable x k i := by
  have hk : Orderly x k := exec_invariant (fun s a t hs hstep => by
    obtain ⟨hmasked, hnext⟩ := (guarded_eq_some _ _ s t a).mp hstep
    exact hs.step hmasked hnext) ops (bootKern_orderly hboot mem rsp0 intr) hrun
  exact fun i hi hne hready => hk.running.resumable hopen hi hne hready

end Runs

/-- A link of the kernel with a boot stack of four pages. -/
def sampleText : KernelText := ⟨0x10, 0x20, 0x30, 0x40, 0x1000, 0x5000⟩

/-- The shell creates a program with interrupts masked. When it enables them the timer switches to
the program, which the timer interrupts in ring 3. -/
def maskedCreation : List KernOp :=
  [.setIntr false, .createUser 0x99 0x7000 0x6000 0x8000] ++ List.replicate 30 .advance ++
    [.setIntr true, .tick 0x4000 fun _ => 0, .userTick 168 fun _ => 0]

/-- Every READY task has its frame after such a creation. -/
theorem masked_creation_resumable :
    ∃ k, exec (guarded (kernStep sampleText) (Masked sampleText))
        (bootKern (fun _ => 0) 0 true) maskedCreation = some k ∧
      k.intr = true ∧ k.sched.current = 1 ∧ k.sched.state 0 = .ready ∧
        ∀ i < maxTasks, i ≠ k.sched.current → k.sched.state i = .ready →
          Resumable sampleText k i := by
  have hview : (exec (guarded (kernStep sampleText) (Masked sampleText))
      (bootKern (fun _ => 0) 0 true) maskedCreation).map
        (fun k => (k.intr, k.sched.current, k.sched.state 0)) = some (true, 1, .ready) := by
    decide +kernel
  obtain ⟨k, hk, hview⟩ := Option.map_eq_some_iff.mp hview
  simp only [Prod.mk.injEq] at hview
  obtain ⟨hintr, hcurrent, hstate⟩ := hview
  exact ⟨k, hk, hintr, hcurrent, hstate,
    pickable_resumable (by decide) _ _ _ _ hk (Or.inl hintr)⟩

/-- The shell creates a task with interrupts enabled; after five steps the slot is READY, and a tick
switches to it. -/
theorem ready_before_its_frame :
    ∃ k k', exec (kernStep sampleText) (bootKern (fun _ => 0) 0 true)
        [.create 0x99 0 0x8000, .advance, .advance, .advance, .advance, .advance] = some k ∧
      k.intr = true ∧ k.sched.state 1 = .ready ∧ k.sched.current = 0 ∧ ¬ Resumable sampleText k 1 ∧
        kernStep sampleText k (.tick 0x4000 fun _ => 0) = some k' ∧ k'.sched.current = 1 := by
  have hview : (exec (kernStep sampleText) (bootKern (fun _ => 0) 0 true)
      [.create 0x99 0 0x8000, .advance, .advance, .advance, .advance, .advance]).map
        (fun k => (k.intr, k.sched.state 1, k.sched.current, k.context 1,
          (kernStep sampleText k (.tick 0x4000 fun _ => 0)).map fun k' => k'.sched.current)) =
      some (true, .ready, 0, 0, some 1) := by decide +kernel
  obtain ⟨k, hk, hview⟩ := Option.map_eq_some_iff.mp hview
  simp only [Prod.mk.injEq] at hview
  obtain ⟨hintr, hstate, hcurrent, hcontext, htick⟩ := hview
  obtain ⟨k', hk', hswitched⟩ := Option.map_eq_some_iff.mp htick
  exact ⟨k, k', hk, hintr, hstate, hcurrent, not_resumable hcontext, hk', hswitched⟩

end TraitOS.Ttask
