import TraitOS.TipcMutex

/-!
# Mutexes and the lives of tasks

The owner of a mutex is the slot of a task, and slots are used again. Beside the system we number
the tasks as they are created and record, for one mutex, which task took it and how many of its
locks are outstanding. The slot in the owner field stands for that task until a new task gets the
slot.
-/
namespace TraitOS.Tipc
open MachineWord Ttask Runs

/-- A slot with a task that has not exited. -/
def Live (st : TaskState) : Prop := st ≠ .free ∧ st ≠ .exited

instance (st : TaskState) : Decidable (Live st) := inferInstanceAs (Decidable (_ ∧ _))

/-- The system, the task in each slot, the number of tasks so far, and the holder of the mutex with
its locks. -/
structure Lives where
  system : System
  born : ℕ → ℕ
  next : ℕ
  holder : Option (ℕ × ℕ)

/-- The slot an action gives to a new task. -/
def newSlot (s : System) : Action → Option ℕ
  | .create _ fn arg stack => (ttaskCreate s.kernel.sched fn arg stack).2
  | .createUser _ entry aspace userRsp stack =>
    (ttaskCreateUser s.kernel.sched entry aspace userRsp stack).2
  | _ => none

/-- The call that ended in a step. -/
def ended (s t : System) : Option Event := t.log[s.log.length]?

section Model
variable (mu : ℕ)

/-- A lock of the free mutex is taken by the caller, other successful calls count up and down. -/
def Lives.note (s : Lives) (e : Event) : Option (ℕ × ℕ) :=
  if e.reply = .ok ∧ e.call = .lock mu then
    if (s.system.kernel.mutex mu).owner = tipcNone then some (s.born e.task, 1)
    else s.holder.map fun h => (h.1, h.2 + 1)
  else if e.reply = .ok ∧ e.call = .unlock mu then
    s.holder.bind fun h => if h.2 ≤ 1 then none else some (h.1, h.2 - 1)
  else s.holder

def Lives.after (s : Lives) (a : Action) (t : System) : Lives where
  system := t
  born := (newSlot s.system a).elim s.born fun i => Function.update s.born i s.next
  next := (newSlot s.system a).elim s.next fun _ => s.next + 1
  holder := (ended s.system t).elim s.holder (s.note mu)

def liveStep (s : Lives) (a : Action) : Option Lives := (systemStep s.system a).map (s.after mu a)

/-- Task `t` took the mutex and has not given it back. -/
def Lives.Holds (s : Lives) (t : ℕ) : Prop := ∃ n, 0 < n ∧ s.holder = some (s.born t, n)

/-- The slot in the owner field, if it has a task, has the one that holds the mutex. -/
def Rightful (s : Lives) : Prop :=
  ∀ t < maxTasks, Live (s.system.kernel.sched.state t) → (s.system.kernel.mutex mu).owner = t →
    s.Holds t

/-- A lock that returns by the recursive path and an unlock that returns 0 are by the task that
holds the mutex. -/
def CallsRightful (s : Lives) (t : System) : Prop :=
  ∀ e, ended s.system t = some e → e.reply = .ok →
    (e.call = .lock mu → (s.system.kernel.mutex mu).owner ≠ tipcNone → s.Holds e.task) ∧
      (e.call = .unlock mu → s.Holds e.task)

/-- A new task gets no slot that is the owner of the mutex. -/
def SlotUnowned (s : Lives) (a : Action) : Prop :=
  newSlot s.system a ≠ some (s.system.kernel.mutex mu).owner

instance (s : Lives) (a : Action) : Decidable (SlotUnowned mu s a) :=
  inferInstanceAs (Decidable (_ ≠ _))

end Model

def newLives (mailbox : ℕ → Mailbox) (mutex : ℕ → Mutex) : Lives :=
  ⟨boot mailbox mutex, fun _ => 0, 1, none⟩

/-! ## Who is live -/

lemma live_wakeHead (st : ℕ → TaskState) (q : List ℕ) (i : ℕ) : Live (wakeHead st q i) ↔
    Live (st i) := by
  cases q with
  | nil => exact Iff.rfl
  | cons w q =>
    simp only [wakeHead]
    by_cases h : w < maxTasks ∧ st w = .blocked
    · rw [if_pos h, Function.update_apply]
      by_cases hi : i = w
      · rw [if_pos hi, hi, h.2]
        exact iff_of_true (by decide) (by decide)
      · rw [if_neg hi]
    · rw [if_neg h]

lemma live_blockSelf (st : ℕ → TaskState) {self : ℕ} (hself : st self = .ready) (i : ℕ) :
    Live (blockSelf st self i) ↔ Live (st i) := by
  unfold blockSelf
  rw [Function.update_apply]
  by_cases hi : i = self
  · rw [if_pos hi, hi, hself]
    refine iff_of_true ?_ (by decide)
    split_ifs <;> decide
  · rw [if_neg hi]

lemma live_wait (v : View) {self : ℕ} (hself : v.state self = .ready) (q : WaitList) (i : ℕ) :
    Live ((v.wait self q).1.state i) ↔ Live (v.state i) := by
  unfold View.wait
  split_ifs
  · exact live_blockSelf v.state hself i
  · exact Iff.rfl

/-- A section neither begins nor ends a task. -/
lemma live_section (v : View) {self : ℕ} (hself : v.state self = .ready) (c : Call) (i : ℕ) :
    Live ((specSection v self c).1.state i) ↔ Live (v.state i) := by
  cases c with
  | send mb msg =>
    change Live ((specSend v self mb msg).1.state i) ↔ _
    unfold specSend
    split_ifs
    · exact Iff.rfl
    · exact live_wakeHead v.state _ i
    · exact live_wait v hself _ i
  | recv mb =>
    change Live ((specRecv v self mb).1.state i) ↔ _
    unfold specRecv
    split_ifs
    · exact Iff.rfl
    · cases v.ring mb with
      | nil => exact live_wait v hself _ i
      | cons m rest => exact live_wakeHead v.state _ i
  | lock mv =>
    change Live ((specLock v self mv).1.state i) ↔ _
    unfold specLock
    split_ifs
    · exact Iff.rfl
    · exact Iff.rfl
    · exact Iff.rfl
    · exact live_wait v hself _ i
  | unlock mv =>
    change Live ((specUnlock v self mv).1.state i) ↔ _
    unfold specUnlock
    split_ifs
    · exact Iff.rfl
    · exact Iff.rfl
    · exact live_wakeHead v.state _ i
    · exact Iff.rfl

/-- Creation makes the one slot it returns live. -/
lemma live_place (s : Sched) (t : Task) (stack i : ℕ) :
    (Live (placeState s.state stack i) ↔ Live (s.state i) ∨ (placeTask s t stack).2 = some i) ∧
      ((placeTask s t stack).2 = some i → ¬ Live (s.state i)) := by
  unfold placeTask placeState reusableSlot
  cases hslot : (List.range maxTasks).find? (fun i => s.state i = .free ∨ s.state i = .exited) with
  | none => simp
  | some j =>
    have hdead : ¬ Live (s.state j) := by
      have hfree := (reusableSlot_eq_some hslot).2
      exact fun h => hfree.elim h.1 h.2
    dsimp only
    rw [Function.update_apply]
    by_cases h0 : stack = 0
    · rw [if_pos h0, if_pos h0]
      refine ⟨?_, by simp⟩
      by_cases hi : i = j
      · rw [if_pos hi, hi]
        exact iff_of_false (by decide) (not_or.mpr ⟨hdead, by simp⟩)
      · rw [if_neg hi]
        simp
    · rw [if_neg h0, if_neg h0]
      refine ⟨?_, fun h => Option.some.inj h ▸ hdead⟩
      by_cases hi : i = j
      · rw [if_pos hi, hi]
        simp [Live]
      · rw [if_neg hi]
        simp [Ne.symm hi]

/-- Outside the sections a step ends no call and leaves the mutexes alone; it makes the new slot
live. -/
structure TableStep (s : System) (a : Action) (t : System) : Prop where
  live : ∀ i, Live (t.kernel.sched.state i) → Live (s.kernel.sched.state i) ∨ newSlot s a = some i
  new : ∀ i, newSlot s a = some i → Live (t.kernel.sched.state i) ∧ ¬ Live (s.kernel.sched.state i)
  owner : ∀ mu, (t.kernel.mutex mu).owner = (s.kernel.mutex mu).owner
  depth : ∀ mu, (t.kernel.mutex mu).depth = (s.kernel.mutex mu).depth
  ended : ended s t = none

lemma ended_of_log {s t : System} (h : t.log = s.log) : ended s t = none := by
  unfold ended
  rw [h]
  exact List.getElem?_eq_none le_rfl

/-- A step that changes the states of the tasks alone. -/
lemma TableStep.of_spec {s t : System} {a : Action} {st : ℕ → TaskState}
    (h : t.spec = { s.spec with view := s.spec.view.setState st })
    (hlive : ∀ i, Live (st i) → Live (s.kernel.sched.state i) ∨ newSlot s a = some i)
    (hnew : ∀ i, newSlot s a = some i → Live (st i) ∧
      ¬ Live (s.kernel.sched.state i)) : TableStep s a t := by
  have hstate : t.kernel.sched.state = st := congrArg (fun s => s.view.state) h
  have howner : t.spec.view.owner = s.spec.view.owner := congrArg (fun s => s.view.owner) h
  have hdepth : t.spec.view.depth = s.spec.view.depth := congrArg (fun s => s.view.depth) h
  have hlog : t.spec.log = s.spec.log := by rw [h]
  rw [← hstate] at hlive hnew
  exact ⟨hlive, hnew, fun mu => congrFun howner mu, fun mu => congrFun hdepth mu, ended_of_log hlog⟩

lemma TableStep.of_create {s t : System} {a : Action} {task : Task} {stack : ℕ}
    (hslot : newSlot s a = (placeTask s.kernel.sched task stack).2)
    (h : t.spec =
      { s.spec with view := s.spec.view.setState (placeState s.spec.view.state stack) }) :
    
    TableStep s a t := by
  refine TableStep.of_spec h (fun i hi => ?_) (fun i hi => ?_)
  · rw [hslot]
    exact (live_place s.kernel.sched task stack i).1.mp hi
  · rw [hslot] at hi
    have hplace := live_place s.kernel.sched task stack i
    exact ⟨hplace.1.mpr (Or.inr hi), hplace.2 hi⟩

lemma newSlot_createUser (s : System) (t entry aspace userRsp stack : ℕ) :
    ∃ task, newSlot s (.createUser t entry aspace userRsp stack) =
      (placeTask s.kernel.sched task stack).2 := by
  unfold newSlot ttaskCreateUser
  by_cases h0 : stack = 0
  · simp only [h0]
    exact ⟨_, rfl⟩
  · simp only [if_neg h0]
    exact ⟨_, rfl⟩

/-- A step runs a section of a READY task or changes the table. -/
lemma systemStep_cases {s t : System} {a : Action} (h : systemStep s a = some t) :
    (∃ i c, a = .run i ∧ i < maxTasks ∧ s.kernel.sched.state i = .ready ∧
      t.spec = s.spec.settle i c (specSection s.spec.view i c)) ∨ TableStep s a t := by
  have hspec := systemStep_spec s a
  rw [h] at hspec
  have hstep : specStep s.spec a = some t.spec := hspec.symm
  obtain ⟨hlt, hready⟩ := specStep_ready hstep
  unfold specStep at hstep
  rw [if_pos ⟨hlt, hready⟩] at hstep
  cases a with
  | run i =>
    obtain ⟨c, -, ht⟩ := Option.map_eq_some_iff.mp hstep
    exact Or.inl ⟨i, c, rfl, hlt, hready, ht.symm⟩
  | call i c =>
    simp only [SpecSystem.act] at hstep
    split_ifs at hstep with hp
    have ht := Option.some.inj hstep
    have hview : t.spec.view = s.spec.view := by rw [← ht]
    refine Or.inr ⟨fun i hi => Or.inl ?_, by simp [newSlot], fun mu => ?_, fun mu => ?_,
      ended_of_log ?_⟩
    · rwa [show t.kernel.sched.state = s.kernel.sched.state from congrArg View.state hview] at hi
    · exact congrFun (congrArg View.owner hview) mu
    · exact congrFun (congrArg View.depth hview) mu
    · exact (congrArg SpecSystem.log ht).symm
  | tick i =>
    have ht := Option.some.inj hstep
    exact Or.inr (TableStep.of_spec ht.symm (fun i hi => Or.inl hi) (by simp [newSlot]))
  | create i fn arg stack =>
    simp only [SpecSystem.act] at hstep
    split_ifs at hstep with hp
    exact Or.inr (TableStep.of_create rfl (Option.some.inj hstep).symm)
  | createUser i entry aspace userRsp stack =>
    simp only [SpecSystem.act] at hstep
    split_ifs at hstep with hp
    obtain ⟨task, hslot⟩ := newSlot_createUser s i entry aspace userRsp stack
    exact Or.inr (TableStep.of_create hslot (Option.some.inj hstep).symm)
  | exit i =>
    simp only [SpecSystem.act] at hstep
    split_ifs at hstep with hp
    refine Or.inr (TableStep.of_spec (Option.some.inj hstep).symm (fun j hj => Or.inl ?_)
      (by simp [newSlot]))
    rw [Function.update_apply] at hj
    by_cases hji : j = i
    · rw [if_pos hji] at hj
      exact absurd hj (by decide)
    · rwa [if_neg hji] at hj

lemma newSlot_lt {s : System} {a : Action} (i : ℕ) (h : newSlot s a = some i) : i < maxTasks := by
  have hplace (task : Task) (stack : ℕ) (hi : (placeTask s.kernel.sched task stack).2 =
    some i) : i < maxTasks := by
    obtain ⟨-, hnone⟩ | ⟨j, hj, -, ⟨-, heq⟩ | ⟨-, heq⟩⟩ := placeTask_cases s.kernel.sched task stack
    · rw [hnone] at hi
      cases hi
    · rw [heq] at hi
      cases hi
    · rw [heq] at hi
      exact Option.some.inj hi ▸ hj
  cases a with
  | create t fn arg stack => exact hplace _ stack h
  | createUser t entry aspace userRsp stack =>
    obtain ⟨task, hslot⟩ := newSlot_createUser s t entry aspace userRsp stack
    exact hplace task stack (hslot.symm.trans h)
  | call | run | tick | exit => cases h

/-! ## One step -/

/-- A live owner holds the mutex, and the depth counts its locks; all numbers of tasks were given
out. -/
structure LivesInv (mu : ℕ) (s : Lives) : Prop where
  counted : ∀ t < maxTasks, Live (s.system.kernel.sched.state t) →
    (s.system.kernel.mutex mu).owner = t →
    ∃ n, 0 < n ∧ n % 2 ^ 32 = (s.system.kernel.mutex mu).depth ∧ s.holder = some (s.born t, n)
  born_lt : ∀ t, s.born t < s.next
  holder_lt : ∀ h, s.holder = some h → h.1 < s.next

section Step
variable {mu : ℕ} {s : Lives} {a : Action} {t : System}

lemma LivesInv.rightful (h : LivesInv mu s) : Rightful mu s := by
  intro t ht hlive howner
  obtain ⟨n, hn, -, hholder⟩ := h.counted t ht hlive howner
  exact ⟨n, hn, hholder⟩

/-- If nothing happens to the mutex and no task begins, the invariant stays. -/
lemma LivesInv.keep (h : LivesInv mu s) {s' : Lives}
    (hlive : ∀ i, Live (s'.system.kernel.sched.state i) → Live (s.system.kernel.sched.state i))
    (howner : (s'.system.kernel.mutex mu).owner = (s.system.kernel.mutex mu).owner)
    (hdepth : (s'.system.kernel.mutex mu).depth = (s.system.kernel.mutex mu).depth)
    (hborn : s'.born = s.born) (hnext : s'.next = s.next) (hholder : s'.holder = s.holder) :
    LivesInv mu s' := by
  refine ⟨fun t ht hl ho => ?_, fun t => ?_, fun x hx => ?_⟩
  · rw [hdepth, hholder, hborn]
    exact h.counted t ht (hlive t hl) (howner.symm.trans ho)
  · rw [hborn, hnext]
    exact h.born_lt t
  · rw [hnext]
    exact h.holder_lt x (hholder.symm.trans hx)

/-- A new task in a slot that is not the owner. -/
lemma LivesInv.table (h : LivesInv mu s) (ht : TableStep s.system a t)
    (hslot : SlotUnowned mu s a) : LivesInv mu (s.after mu a t) := by
  have hholder : (s.after mu a t).holder = s.holder := by
    rw [Lives.after, ht.ended, Option.elim_none]
  cases hnew : newSlot s.system a with
  | none =>
    refine h.keep (fun i hi => (ht.live i hi).resolve_right (by simp [hnew])) (ht.owner mu)
      (ht.depth mu) ?_ ?_ hholder
    · simp [Lives.after, hnew]
    · simp [Lives.after, hnew]
  | some j =>
    have hborn : (s.after mu a t).born = Function.update s.born j s.next := by
      simp [Lives.after, hnew]
    have hnext : (s.after mu a t).next = s.next + 1 := by simp [Lives.after, hnew]
    refine ⟨fun i hlt hl ho => ?_, fun i => ?_, fun x hx => ?_⟩
    · have ho' : (s.system.kernel.mutex mu).owner = i := (ht.owner mu).symm.trans ho
      have hij : i ≠ j := by
        rintro rfl
        exact hslot (hnew.trans (congrArg some ho'.symm))
      have hl' := (ht.live i hl).resolve_right (fun heq =>
        hij (Option.some.inj (heq.symm.trans hnew)))
      rw [hholder, hborn, Function.update_of_ne hij]
      obtain ⟨n, hn, hdepth, hsome⟩ := h.counted i hlt hl' ho'
      exact ⟨n, hn, hdepth.trans (ht.depth mu).symm, hsome⟩
    · rw [hborn, hnext, Function.update_apply]
      have hlt := h.born_lt i
      split_ifs <;> omega
    · rw [hnext]
      have hlt := h.holder_lt x (hholder.symm.trans hx)
      omega

/-- A new task in the slot that is the owner is taken for the holder. -/
lemma LivesInv.not_rightful (h : LivesInv mu s)
    (hlt : ∀ i, newSlot s.system a = some i → i < maxTasks) (ht : TableStep s.system a t)
    (hslot : ¬ SlotUnowned mu s a) : ¬ Rightful mu (s.after mu a t) := by
  intro hright
  have hnew : newSlot s.system a = some (s.system.kernel.mutex mu).owner := not_not.mp hslot
  obtain ⟨n, -, hholder⟩ := hright _ (hlt _ hnew) (ht.new _ hnew).1 (ht.owner mu)
  have hkept : (s.after mu a t).holder = s.holder := by rw [Lives.after, ht.ended, Option.elim_none]
  have hborn : (s.after mu a t).born (s.system.kernel.mutex mu).owner = s.next := by
    simp [Lives.after, hnew]
  rw [hborn] at hholder
  have hfresh := h.holder_lt _ (hkept.symm.trans hholder)
  exact absurd hfresh (lt_irrefl _)

lemma ended_settle {s t : System} {i : ℕ} {c : Call} {r : View × Option Reply}
    (h : t.spec = s.spec.settle i c r) : ended s t = r.2.map fun reply => ⟨i, c, reply⟩ := by
  have hlog : t.log = (s.spec.settle i c r).log := congrArg SpecSystem.log h
  unfold ended
  rw [hlog]
  cases hreply : r.2 with
  | none =>
    simp only [SpecSystem.settle, hreply]
    exact List.getElem?_eq_none le_rfl
  | some reply =>
    simp only [SpecSystem.settle, hreply]
    exact List.getElem?_concat_length

/-- The owner after a step is task `i`, with a count for its locks. -/
lemma LivesInv.taken (h : LivesInv mu s) {s' : Lives} {i n : ℕ}
    (howner : (s'.system.kernel.mutex mu).owner = i) (hn : 0 < n)
    (hdepth : n % 2 ^ 32 = (s'.system.kernel.mutex mu).depth)
    (hholder : s'.holder = some (s.born i, n)) (hborn : s'.born = s.born)
    (hnext : s'.next = s.next) : LivesInv mu s' := by
  refine ⟨fun t _ _ ho => ?_, fun t => ?_, fun x hx => ?_⟩
  · obtain rfl : i = t := howner.symm.trans ho
    rw [hborn]
    exact ⟨n, hn, hdepth, hholder⟩
  · rw [hborn, hnext]
    exact h.born_lt t
  · cases hholder.symm.trans hx
    rw [hnext]
    exact h.born_lt i

/-- The mutex is free after a step. -/
lemma LivesInv.freed (h : LivesInv mu s) {s' : Lives}
    (howner : (s'.system.kernel.mutex mu).owner = tipcNone)
    (hholder : ∀ x, s'.holder = some x → ∃ y, s.holder = some y ∧ x.1 = y.1)
    (hborn : s'.born = s.born) (hnext : s'.next = s.next) : LivesInv mu s' := by
  refine ⟨fun t ht _ ho => absurd (ho.symm.trans howner) (slot_ne_none ht), fun t => ?_,
    fun x hx => ?_⟩
  · rw [hborn, hnext]
    exact h.born_lt t
  · obtain ⟨y, hy, hxy⟩ := hholder x hx
    rw [hnext, hxy]
    exact h.holder_lt y hy

/-- A section of a READY task: its calls are rightful, and the record follows the mutex. -/
lemma LivesInv.section (h : LivesInv mu s) {i : ℕ} {c : Call} (hlt : i < maxTasks)
    (hready : s.system.kernel.sched.state i = .ready)
    (ht : t.spec = s.system.spec.settle i c (specSection s.system.spec.view i c)) :
    CallsRightful mu s t ∧ LivesInv mu (s.after mu (.run i) t) := by
  have hlive (j : ℕ) : Live (t.kernel.sched.state j) ↔ Live (s.system.kernel.sched.state j) := by
    have hstate : t.kernel.sched.state = (specSection s.system.spec.view i c).1.state :=
      congrArg (fun s => s.view.state) ht
    rw [hstate]
    exact live_section s.system.spec.view hready c j
  have hself : Live (s.system.kernel.sched.state i) := by
    rw [hready]
    decide
  have howner : (t.kernel.mutex mu).owner = (specSection s.system.spec.view i c).1.owner mu :=
    congrArg (fun s => s.view.owner mu) ht
  have hdepth : (t.kernel.mutex mu).depth = (specSection s.system.spec.view i c).1.depth mu :=
    congrArg (fun s => s.view.depth mu) ht
  have hended := ended_settle ht
  obtain ⟨rfl, hreply, hset, hkind⟩ | ⟨rfl, hreply, hold, hcount, hset⟩ | ⟨hset, hcount, happ⟩ :=
    specSection_mutex s.system.spec.view i mu c
  · -- a lock
    rw [hreply, Option.map_some] at hended
    have hnote : (s.after mu (.run i) t).holder =
        if (s.system.kernel.mutex mu).owner = tipcNone then some (s.born i, 1)
        else s.holder.map fun h => (h.1, h.2 + 1) := by
      simp [Lives.after, hended, Lives.note]
    rcases hkind with ⟨hfree, hone⟩ | ⟨hmine, hmore⟩
    · have hfree' : (s.system.kernel.mutex mu).owner = tipcNone := hfree
      rw [if_pos hfree'] at hnote
      refine ⟨fun e he _ => ?_, h.taken (howner.trans hset) one_pos ?_ hnote rfl rfl⟩
      · cases hended.symm.trans he
        exact ⟨fun _ hne => absurd hfree' hne, by simp⟩
      · exact (hdepth.trans hone).symm
    · have hmine' : (s.system.kernel.mutex mu).owner = i := hmine
      have hnone : (s.system.kernel.mutex mu).owner ≠ tipcNone := hmine'.trans_ne (slot_ne_none hlt)
      obtain ⟨n, hn, hmod, hholder⟩ := h.counted i hlt hself hmine'
      rw [if_neg hnone, hholder, Option.map_some] at hnote
      refine ⟨fun e he _ => ?_, h.taken (howner.trans hset) (Nat.succ_pos n) ?_ hnote rfl rfl⟩
      · cases hended.symm.trans he
        exact ⟨fun _ _ => ⟨n, hn, hholder⟩, by simp⟩
      · refine Eq.trans ?_ (hdepth.trans hmore).symm
        have hold : s.system.spec.view.depth mu = n % 2 ^ 32 := hmod.symm
        rw [hold, incr32]
        omega
  · -- an unlock
    have hmine : (s.system.kernel.mutex mu).owner = i := hold
    obtain ⟨n, hn, hmod, hholder⟩ := h.counted i hlt hself hmine
    have hdepth' : s.system.spec.view.depth mu = n % 2 ^ 32 := hmod.symm
    rw [hreply, Option.map_some] at hended
    have hnote : (s.after mu (.run i) t).holder = if n ≤ 1 then none
      else some (s.born i, n - 1) := by
      simp [Lives.after, hended, Lives.note, hholder]
    refine ⟨fun e he _ => ?_, ?_⟩
    · cases hended.symm.trans he
      exact ⟨by simp, fun _ => ⟨n, hn, hholder⟩⟩
    rw [hdepth'] at hset hcount
    by_cases hlast : decr32 (n % 2 ^ 32) = 0
    · rw [if_pos hlast] at hset
      refine h.freed (howner.trans hset) (fun x hx => ⟨_, hholder, ?_⟩) rfl rfl
      rw [hnote] at hx
      split_ifs at hx
      exact (congrArg Prod.fst (Option.some.inj hx)).symm
    · rw [if_neg hlast] at hset
      unfold decr32 at hlast hcount
      rw [if_neg (by omega)] at hnote
      refine h.taken (howner.trans hset) (by omega) (Eq.trans ?_ (hdepth.trans hcount).symm)
        hnote rfl rfl
      omega
  · -- another call
    have hnote : (s.after mu (.run i) t).holder = s.holder := by
      cases hreply : (specSection s.system.spec.view i c).2 with
      | none => simp [Lives.after, hended, hreply]
      | some reply =>
        have hother : ∀ c', reply = .ok ∧ c = c' → c' ≠ .lock mu ∧ c' ≠ .unlock mu := by
          rintro _ ⟨rfl, rfl⟩
          exact happ hreply
        simp only [Lives.after, hended, hreply, Option.map_some, Option.elim_some, Lives.note]
        rw [if_neg fun heq => (hother _ heq).1 rfl, if_neg fun heq => (hother _ heq).2 rfl]
    refine ⟨fun e he hok => ?_, h.keep (fun j => (hlive j).mp) (howner.trans hset)
      (hdepth.trans hcount) rfl rfl hnote⟩
    rw [he] at hended
    obtain ⟨reply, hreply, rfl⟩ := Option.map_eq_some_iff.mp hended.symm
    obtain rfl : reply = .ok := hok
    exact ⟨fun heq => absurd heq (happ hreply).1, fun heq => absurd heq (happ hreply).2⟩

/-- A step keeps the owner in step with the tasks exactly if it gives no owning slot to a new task.
-/
lemma LivesInv.step (h : LivesInv mu s) {s' : Lives} (hstep : liveStep mu s a = some s') :
    (CallsRightful mu s s'.system ∧ Rightful mu s' ↔ SlotUnowned mu s a) ∧
      (SlotUnowned mu s a → LivesInv mu s') := by
  obtain ⟨t, ht, rfl⟩ := Option.map_eq_some_iff.mp hstep
  obtain ⟨i, c, rfl, hlt, hready, hspec⟩ | htable := systemStep_cases ht
  · obtain ⟨hcalls, hinv⟩ := h.section hlt hready hspec
    exact ⟨iff_of_true ⟨hcalls, hinv.rightful⟩ (by simp [SlotUnowned, newSlot]), fun _ => hinv⟩
  · have hcalls : CallsRightful mu s t := fun e he => by
      rw [htable.ended] at he
      cases he
    refine ⟨⟨fun hboth => ?_, fun hslot => ⟨hcalls, (h.table htable hslot).rightful⟩⟩,
      h.table htable⟩
    by_contra hslot
    exact h.not_rightful newSlot_lt htable hslot hboth.2

end Step

/-! ## Whole runs -/

lemma newLives_inv (mu : ℕ) (mailbox : ℕ → Mailbox) (mutex : ℕ →
    Mutex) : LivesInv mu (newLives mailbox mutex) := by
  refine ⟨fun t ht _ howner => ?_, fun _ => one_pos, fun h hh => ?_⟩
  · exact absurd howner.symm (slot_ne_none ht)
  · cases hh

/-- In every run of tasks that call, exit and are created, recursive locks and successful unlocks
are by the task that holds the mutex exactly if no new task ever gets the slot in the owner field.
-/
theorem mutex_follows_task_iff (mu : ℕ) (mailbox : ℕ → Mailbox) (mutex : ℕ → Mutex)
    (actions : List Action) (u : Lives)
    (hrun : exec (liveStep mu) (newLives mailbox mutex) actions = some u) :
    Along (liveStep mu) (fun s _ t => CallsRightful mu s t.system ∧
      Rightful mu t) (newLives mailbox mutex) actions ↔
      exec (guarded (liveStep mu) (SlotUnowned mu)) (newLives mailbox mutex) actions = some u :=
  along_iff_guarded (fun _ _ _ h hstep => h.step hstep) actions (newLives_inv mu mailbox mutex) hrun

/-- Task 1 takes the mutex and gives it back, exits, and another task gets its slot. -/
def reuseRun : List Action :=
  [.create 0 0 0 0x1000, .call 1 (.lock 7), .run 1, .call 1 (.unlock 7), .run 1, .exit 1,
    .create 0 0 0 0x1000, .call 1 (.lock 7), .run 1]

theorem reuseRun_follows_task :
    ∃ u, exec (liveStep 7) (newLives (fun _ => blankMailbox) fun _ => blankMutex) reuseRun =
      some u ∧ Along (liveStep 7) (fun s _ t => CallsRightful 7 s t.system ∧ Rightful 7 t)
        (newLives (fun _ => blankMailbox) fun _ => blankMutex) reuseRun := by
  have hsome : (exec (guarded (liveStep 7) (SlotUnowned 7))
      (newLives (fun _ => blankMailbox) fun _ => blankMutex)
      reuseRun).isSome = true := by decide +kernel
  obtain ⟨u, hu⟩ := Option.isSome_iff_exists.mp hsome
  exact ⟨u, exec_of_guarded _ hu,
    (mutex_follows_task_iff 7 _ _ reuseRun u (exec_of_guarded _ hu)).mpr hu⟩

/-- Task 1 exits with the mutex locked; the next task in its slot locks it too, and unlocks it. -/
def inheritRun : List Action :=
  [.create 0 0 0 0x1000, .call 1 (.lock 7), .run 1, .exit 1, .create 0 0 0 0x1000,
    .call 1 (.lock 7), .run 1, .call 1 (.unlock 7), .run 1]

/-- The second task gets 0 from a lock and from an unlock, while the first one holds the mutex. -/
theorem new_task_inherits_mutex :
    ∃ u, exec (liveStep 7) (newLives (fun _ => blankMailbox) fun _ => blankMutex) inheritRun =
      some u ∧ u.system.log = [⟨1, .lock 7, .ok⟩, ⟨1, .lock 7, .ok⟩, ⟨1, .unlock 7, .ok⟩] ∧
      u.holder = some (1, 1) ∧ u.born 1 = 2 := by
  have hview : (exec (liveStep 7) (newLives (fun _ => blankMailbox) fun _ => blankMutex)
    inheritRun).map
      (fun u => (u.system.log, u.holder, u.born 1)) =
        some ([⟨1, .lock 7, .ok⟩, ⟨1, .lock 7, .ok⟩, ⟨1, .unlock 7, .ok⟩], some (1, 1), 2) := by
          decide +kernel
  obtain ⟨u, hu, hview⟩ := Option.map_eq_some_iff.mp hview
  simp only [Prod.mk.injEq] at hview
  exact ⟨u, hu, hview⟩

end TraitOS.Tipc
