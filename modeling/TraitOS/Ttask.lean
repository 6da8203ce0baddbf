import TraitOS.MachineWord
import Mathlib.Logic.Function.Basic
import Mathlib.Data.List.Range

/-!
# The task table and the pick

A fixed table of 32 task slots, slot 0 being the boot context. The scheduler
core below is the part of the source that acts on the table alone: who runs
next, and the bookkeeping of each switch path. A context switch appears here as
the change of the running slot; what the resumed stack frame then does is the
subject of the switch machine. Results of the heap are arguments: a task is
created with the stack pointer its allocation returned, zero meaning failure.
-/
namespace TraitOS.Ttask
open MachineWord

def maxTasks : ℕ := 32
def stackBytes : ℕ := 8 * 1024

inductive TaskState where
  | free
  | ready
  | running
  | exited
  | blocked
  deriving DecidableEq, Repr

/-- One candidate of the scan, against the best index and priority so far. -/
def pickStep (current : ℕ) (state : ℕ → TaskState) (prio : ℕ → ℕ) (count : ℕ) (exclude : ℤ)
    (best : ℤ × ℤ) (i : ℕ) : ℤ × ℤ :=
  let idx := (current + 1 + i) % count
  if (idx : ℤ) = exclude ∨ state idx ≠ .ready then best
  else if best.2 < prio idx then (idx, prio idx) else best

def ttaskPickIndexEx (current : ℕ) (state : ℕ → TaskState) (prio : ℕ → ℕ) (count : ℕ)
    (exclude : ℤ) : ℤ :=
  ((List.range count).foldl (pickStep current state prio count exclude) (-1, -1)).1

def sliceMax : ℕ := 16
def sliceIdle : ℕ := 32

def ttaskSliceTicks (prio : ℕ) : ℕ :=
  if prio = 0 then sliceIdle
  else
    let s := 1 <<< (prio &&& 7)
    if sliceMax < s then sliceMax else s

structure Task where
  state : TaskState
  priority : ℕ
  ticks : ℕ
  slice : ℕ
  switches : ℕ
  blockedCount : ℕ
  wakeCount : ℕ
  fn : ℕ
  arg : ℕ
  stack : ℕ
  stackSize : ℕ
  userMode : Bool
  aspace : ℕ
  userRsp : ℕ
  deriving DecidableEq, Repr

/-- A slot after its memory was cleared. -/
def blank : Task where
  state := .free
  priority := 0
  ticks := 0
  slice := 0
  switches := 0
  blockedCount := 0
  wakeCount := 0
  fn := 0
  arg := 0
  stack := 0
  stackSize := 0
  userMode := false
  aspace := 0
  userRsp := 0

structure Sched where
  tasks : ℕ → Task
  current : ℕ
  current_lt : current < maxTasks
  totalSwitches : ℕ
  totalBlocks : ℕ
  totalWakes : ℕ

namespace Sched

def setTask (s : Sched) (i : ℕ) (t : Task) : Sched :=
  { s with tasks := Function.update s.tasks i t }

def state (s : Sched) (i : ℕ) : TaskState := (s.tasks i).state

/-- The running slot becomes `t`. -/
def switchTo (s : Sched) (t : ℕ) (ht : t < maxTasks) : Sched :=
  { s with current := t, current_lt := ht }

@[simp] theorem setTask_tasks_self (s : Sched) (i : ℕ) (t : Task) :
    (s.setTask i t).tasks i = t := by
  change Function.update s.tasks i t i = t
  exact Function.update_self i t s.tasks

theorem setTask_tasks_of_ne (s : Sched) {i j : ℕ} (t : Task) (h : j ≠ i) :
    (s.setTask i t).tasks j = s.tasks j := by
  change Function.update s.tasks i t j = s.tasks j
  exact Function.update_of_ne h t s.tasks

@[simp] theorem setTask_current (s : Sched) (i : ℕ) (t : Task) :
    (s.setTask i t).current = s.current := rfl

@[simp] theorem switchTo_tasks (s : Sched) (t : ℕ) (ht : t < maxTasks) :
    (s.switchTo t ht).tasks = s.tasks := rfl

theorem setTask_state (s : Sched) (i j : ℕ) (t : Task) :
    (s.setTask i t).state j = if j = i then t.state else s.state j := by
  unfold state
  split_ifs with h
  · rw [h, setTask_tasks_self]
  · rw [setTask_tasks_of_ne s t h]

@[simp] theorem switchTo_state (s : Sched) (t : ℕ) (ht : t < maxTasks) :
    (s.switchTo t ht).state = s.state := rfl

end Sched

def ttaskInit : Sched where
  tasks := Function.update (fun _ => blank) 0 { blank with state := .ready }
  current := 0
  current_lt := by decide
  totalSwitches := 0
  totalBlocks := 0
  totalWakes := 0

/-- Slot the scan from the running one prefers; the running slot is passed over
once its slice has run out. -/
def pickIndex (s : Sched) : ℤ :=
  ttaskPickIndexEx s.current s.state (fun i => (s.tasks i).priority) maxTasks
    (if (s.tasks s.current).slice = 0 then (s.current : ℤ) else -1)

def ttaskPickNext (s : Sched) : ℕ :=
  if 0 ≤ pickIndex s then (pickIndex s).toNat else s.current

/-- Bookkeeping of the first switch path, before the stacks are exchanged. -/
def creditSwitch (s : Sched) (next : ℕ) : Sched :=
  let t := s.tasks next
  { s.setTask next { t with
      slice := ttaskSliceTicks t.priority
      switches := incr32 t.switches } with
    totalSwitches := incr32 s.totalSwitches }

/-- A slot the scan may choose. -/
def Eligible (state : ℕ → TaskState) (exclude : ℤ) (idx : ℕ) : Prop :=
  (idx : ℤ) ≠ exclude ∧ state idx = .ready

/-- What the two accumulators of the scan say after `n` candidates: nothing was
eligible, or they hold the first of the candidates of highest priority. -/
def PickedSoFar (current : ℕ) (state : ℕ → TaskState) (prio : ℕ → ℕ) (count : ℕ) (exclude : ℤ)
    (n : ℕ) (best : ℤ × ℤ) : Prop :=
  let idx := fun i => (current + 1 + i) % count
  (best = (-1, -1) ∧ ∀ i < n, ¬ Eligible state exclude (idx i)) ∨
    ∃ j < n, Eligible state exclude (idx j) ∧ best = ((idx j : ℤ), (prio (idx j) : ℤ)) ∧
      (∀ i < n, Eligible state exclude (idx i) → prio (idx i) ≤ prio (idx j)) ∧
      ∀ i < j, Eligible state exclude (idx i) → prio (idx i) < prio (idx j)

lemma pickedSoFar_step {current : ℕ} {state : ℕ → TaskState} {prio : ℕ → ℕ} {count : ℕ}
    {exclude : ℤ} {n : ℕ} {best : ℤ × ℤ} (h : PickedSoFar current state prio count exclude n best) :
    PickedSoFar current state prio count exclude (n + 1)
      (pickStep current state prio count exclude best n) := by
  have hlast : ∀ i, i < n + 1 → i < n ∨ i = n := fun i hi => by omega
  by_cases he : Eligible state exclude ((current + 1 + n) % count)
  · have hskip : ¬ (((current + 1 + n) % count : ℕ) = exclude ∨
        state ((current + 1 + n) % count) ≠ .ready) := by
      intro hor
      exact hor.elim (fun h => he.1 h) (fun h => h he.2)
    by_cases hb : best.2 < prio ((current + 1 + n) % count)
    · have hval : pickStep current state prio count exclude best n =
          ((((current + 1 + n) % count : ℕ) : ℤ), (prio ((current + 1 + n) % count) : ℤ)) := by
        simp only [pickStep, if_neg hskip, if_pos hb]
      have hbelow : ∀ i < n, Eligible state exclude ((current + 1 + i) % count) →
          prio ((current + 1 + i) % count) < prio ((current + 1 + n) % count) := by
        intro i hi hie
        obtain ⟨_, hnone⟩ | ⟨j, _, _, hbest, hmax, _⟩ := h
        · exact absurd hie (hnone i hi)
        · have hle := hmax i hi hie
          rw [hbest] at hb
          exact lt_of_le_of_lt hle (Int.ofNat_lt.mp hb)
      refine Or.inr ⟨n, Nat.lt_succ_self n, he, hval, ?_, hbelow⟩
      intro i hi hie
      obtain hlt | rfl := hlast i hi
      · exact (hbelow i hlt hie).le
      · exact le_refl _
    · have hval : pickStep current state prio count exclude best n = best := by
        simp only [pickStep, if_neg hskip, if_neg hb]
      rw [hval]
      obtain ⟨hbest, _⟩ | ⟨j, hj, hje, hbest, hmax, hfirst⟩ := h
      · rw [hbest] at hb
        exact absurd (lt_of_lt_of_le (by norm_num) (Int.natCast_nonneg _)) hb
      · refine Or.inr ⟨j, by omega, hje, hbest, ?_, hfirst⟩
        intro i hi hie
        obtain hlt | rfl := hlast i hi
        · exact hmax i hlt hie
        · rw [hbest] at hb
          exact Int.ofNat_le.mp (not_lt.mp hb)
  · have hskip : ((current + 1 + n) % count : ℕ) = exclude ∨
        state ((current + 1 + n) % count) ≠ .ready := by
      by_contra hno
      push Not at hno
      exact he hno
    have hval : pickStep current state prio count exclude best n = best := by
      simp only [pickStep, if_pos hskip]
    rw [hval]
    obtain ⟨hbest, hnone⟩ | ⟨j, hj, hje, hbest, hmax, hfirst⟩ := h
    · refine Or.inl ⟨hbest, fun i hi => ?_⟩
      obtain hlt | rfl := hlast i hi
      · exact hnone i hlt
      · exact he
    · refine Or.inr ⟨j, by omega, hje, hbest, fun i hi hie => ?_, hfirst⟩
      obtain hlt | rfl := hlast i hi
      · exact hmax i hlt hie
      · exact absurd hie he

lemma pickedSoFar_range (current : ℕ) (state : ℕ → TaskState) (prio : ℕ → ℕ) (count : ℕ)
    (exclude : ℤ) (n : ℕ) :
    PickedSoFar current state prio count exclude n
      ((List.range n).foldl (pickStep current state prio count exclude) (-1, -1)) := by
  induction n with
  | zero => exact Or.inl ⟨rfl, fun i hi => absurd hi (Nat.not_lt_zero i)⟩
  | succ n ih =>
    rw [List.range_succ, List.foldl_append]
    exact pickedSoFar_step ih

/-- The cyclic scan meets every slot of the table. -/
lemma exists_scan_position (current : ℕ) {count idx : ℕ} (h : idx < count) :
    ∃ i < count, (current + 1 + i) % count = idx := by
  have hpos : 0 < count := Nat.zero_lt_of_lt h
  refine ⟨(idx + (count - (current + 1) % count)) % count, Nat.mod_lt _ hpos, ?_⟩
  have hmod := Nat.mod_lt (current + 1) hpos
  rw [Nat.add_mod, Nat.mod_mod, ← Nat.add_mod]
  have hsplit := Nat.div_add_mod (current + 1) count
  have hsum : current + 1 + (idx + (count - (current + 1) % count)) =
      idx + count * ((current + 1) / count + 1) := by
    rw [Nat.mul_add, Nat.mul_one]
    omega
  rw [hsum, Nat.add_mul_mod_self_left, Nat.mod_eq_of_lt h]

/-- The pick returns `-1` when no slot is eligible; otherwise the first slot of
highest priority that the cyclic scan from `current + 1` meets. -/
theorem ttaskPickIndexEx_spec (current : ℕ) (state : ℕ → TaskState) (prio : ℕ → ℕ) {count : ℕ}
    (hcount : 0 < count) (exclude : ℤ) :
    (ttaskPickIndexEx current state prio count exclude = -1 ∧
      ∀ idx < count, ¬ Eligible state exclude idx) ∨
    ∃ j < count, ∃ idx < count, idx = (current + 1 + j) % count ∧
      ttaskPickIndexEx current state prio count exclude = (idx : ℤ) ∧
      Eligible state exclude idx ∧
      (∀ other < count, Eligible state exclude other → prio other ≤ prio idx) ∧
      ∀ i < j, Eligible state exclude ((current + 1 + i) % count) →
        prio ((current + 1 + i) % count) < prio idx := by
  have hspec := pickedSoFar_range current state prio count exclude count
  unfold ttaskPickIndexEx
  obtain ⟨hbest, hnone⟩ | ⟨j, hj, hje, hbest, hmax, hfirst⟩ := hspec
  · refine Or.inl ⟨by rw [hbest], fun idx hidx => ?_⟩
    obtain ⟨i, hi, hpos⟩ := exists_scan_position current hidx
    exact hpos ▸ hnone i hi
  · refine Or.inr ⟨j, hj, _, Nat.mod_lt _ hcount, rfl, by rw [hbest], hje, ?_, hfirst⟩
    intro other hother hoe
    obtain ⟨i, hi, hpos⟩ := exists_scan_position current hother
    rw [← hpos] at hoe ⊢
    exact hmax i hi hoe

/-- Either nothing but possibly the running task can run, or the pick is a READY
slot of highest priority. -/
theorem ttaskPickNext_spec (s : Sched) :
    (ttaskPickNext s = s.current ∧
      ∀ i < maxTasks, s.state i = .ready → i = s.current) ∨
    (ttaskPickNext s < maxTasks ∧ s.state (ttaskPickNext s) = .ready ∧
      ∀ i < maxTasks, s.state i = .ready → i ≠ s.current →
        (s.tasks i).priority ≤ (s.tasks (ttaskPickNext s)).priority) := by
  have hpick := ttaskPickIndexEx_spec s.current s.state (fun i => (s.tasks i).priority)
    (show 0 < maxTasks by decide) (if (s.tasks s.current).slice = 0 then (s.current : ℤ) else -1)
  have helig : ∀ i, s.state i = .ready → i ≠ s.current →
      Eligible s.state (if (s.tasks s.current).slice = 0 then (s.current : ℤ) else -1) i := by
    intro i hr hne
    refine ⟨?_, hr⟩
    split_ifs <;> omega
  obtain ⟨hidx, hnone⟩ | ⟨_, _, idx, hlt, _, hidx, he, hmax, _⟩ := hpick
  · have hnext : ttaskPickNext s = s.current := by
      have hval : pickIndex s = -1 := hidx
      simp [ttaskPickNext, hval]
    refine Or.inl ⟨hnext, fun i hi hr => ?_⟩
    by_contra hne
    exact hnone i hi (helig i hr hne)
  · have hnext : ttaskPickNext s = idx := by
      have hval : pickIndex s = (idx : ℤ) := hidx
      simp [ttaskPickNext, hval]
    rw [hnext]
    exact Or.inr ⟨hlt, he.2, fun i hi hr hne => hmax i hi (helig i hr hne)⟩

theorem ttaskPickNext_lt (s : Sched) : ttaskPickNext s < maxTasks := by
  obtain ⟨h, _⟩ | ⟨h, _, _⟩ := ttaskPickNext_spec s
  · exact h ▸ s.current_lt
  · exact h

def ttaskPickSwitch (s : Sched) : Sched :=
  let next := ttaskPickNext s
  if next = s.current then s
  else (creditSwitch s next).switchTo next (ttaskPickNext_lt s)

def ttaskYield (s : Sched) : Sched := ttaskPickSwitch s

def ttaskSelf (s : Sched) : ℕ := s.current

/-- The running task marks itself BLOCKED. -/
def park (s : Sched) : Sched :=
  let t := s.tasks s.current
  { s.setTask s.current { t with
      state := .blocked
      blockedCount := incr32 t.blockedCount } with
    totalBlocks := incr32 s.totalBlocks }

/-- With nobody else to run the caller takes its BLOCKED mark back and returns. -/
def ttaskBlock (s : Sched) : Sched :=
  let parked := park s
  let next := ttaskPickNext parked
  if next = s.current then
    parked.setTask s.current { parked.tasks s.current with state := .ready }
  else parked.switchTo next (ttaskPickNext_lt parked)

def ttaskWake (s : Sched) (id : ℕ) : Sched :=
  if maxTasks ≤ id then s
  else if s.state id = .blocked then
    let t := s.tasks id
    { s.setTask id { t with state := .ready, wakeCount := incr32 t.wakeCount } with
      totalWakes := incr32 s.totalWakes }
  else s

def ttaskExit (s : Sched) : Sched :=
  ttaskPickSwitch (s.setTask s.current { s.tasks s.current with state := .exited })

def ttaskTick (s : Sched) : Sched :=
  let t := s.tasks s.current
  ttaskPickSwitch (s.setTask s.current { t with
    ticks := incr32 t.ticks
    slice := t.slice - 1 })

/-- First slot a new task can take. -/
def reusableSlot (s : Sched) : Option ℕ :=
  (List.range maxTasks).find? (fun i => s.state i = .free ∨ s.state i = .exited)

/-- A cleared slot with the fields both creators fill before the stack. -/
def draftTask (priority fn : ℕ) : Task :=
  { blank with
    state := .ready
    priority := priority
    slice := ttaskSliceTicks priority
    fn := fn }

/-- Take a slot for a new task; the slot goes back to FREE when its stack could
not be allocated. -/
def placeTask (s : Sched) (t : Task) (stack : ℕ) : Sched × Option ℕ :=
  match reusableSlot s with
  | none => (s, none)
  | some i =>
    if stack = 0 then (s.setTask i { t with state := .free }, none)
    else (s.setTask i { t with stack := stack, stackSize := stackBytes }, some i)

def ttaskCreate (s : Sched) (fn arg stack : ℕ) : Sched × Option ℕ :=
  placeTask s { draftTask 1 fn with arg := arg } stack

def ttaskCreateUser (s : Sched) (entry aspace userRsp stack : ℕ) : Sched × Option ℕ :=
  if stack = 0 then placeTask s (draftTask 2 entry) 0
  else placeTask s { draftTask 2 entry with userMode := true, aspace := aspace, userRsp := userRsp }
    stack

/-! ## What the operations do to the states of the tasks -/

theorem creditSwitch_state (s : Sched) (next i : ℕ) :
    (creditSwitch s next).state i = s.state i := by
  change (s.setTask next _).state i = s.state i
  rw [Sched.setTask_state]
  split_ifs with h
  · rw [h]; rfl
  · rfl

theorem ttaskPickSwitch_state (s : Sched) (i : ℕ) : (ttaskPickSwitch s).state i = s.state i := by
  unfold ttaskPickSwitch
  dsimp only
  split_ifs with h
  · rfl
  · exact creditSwitch_state s _ i

theorem ttaskPickSwitch_current (s : Sched) : (ttaskPickSwitch s).current = ttaskPickNext s := by
  unfold ttaskPickSwitch
  dsimp only
  split_ifs with h
  · exact h.symm
  · rfl

theorem ttaskTick_state (s : Sched) (i : ℕ) : (ttaskTick s).state i = s.state i := by
  unfold ttaskTick
  rw [ttaskPickSwitch_state, Sched.setTask_state]
  split_ifs with h
  · rw [h]; rfl
  · rfl

theorem ttaskExit_state (s : Sched) (i : ℕ) :
    (ttaskExit s).state i = if i = s.current then .exited else s.state i := by
  unfold ttaskExit
  rw [ttaskPickSwitch_state, Sched.setTask_state]

theorem ttaskWake_state (s : Sched) (id i : ℕ) :
    (ttaskWake s id).state i =
      if i = id ∧ id < maxTasks ∧ s.state id = .blocked then .ready else s.state i := by
  unfold ttaskWake
  by_cases hlt : maxTasks ≤ id
  · rw [if_pos hlt, if_neg (fun h => absurd h.2.1 (not_lt.mpr hlt))]
  · rw [if_neg hlt]
    by_cases hb : s.state id = .blocked
    · rw [if_pos hb]
      change (s.setTask id _).state i = _
      rw [Sched.setTask_state]
      by_cases hi : i = id
      · rw [if_pos hi, if_pos ⟨hi, not_le.mp hlt, hb⟩]
      · rw [if_neg hi, if_neg (fun h => hi h.1)]
    · rw [if_neg hb, if_neg (fun h => hb h.2.2)]

@[simp] theorem ttaskWake_current (s : Sched) (id : ℕ) : (ttaskWake s id).current = s.current := by
  unfold ttaskWake
  split_ifs <;> rfl

theorem park_state (s : Sched) (i : ℕ) :
    (park s).state i = if i = s.current then .blocked else s.state i := by
  change (s.setTask s.current _).state i = _
  rw [Sched.setTask_state]

/-- Blocking changes the state of the caller alone: BLOCKED when another task is
READY, and READY again when nobody else can run. -/
theorem ttaskBlock_state (s : Sched) (i : ℕ) :
    (ttaskBlock s).state i =
      if i = s.current then
        if ∃ j < maxTasks, j ≠ s.current ∧ s.state j = .ready then .blocked else .ready
      else s.state i := by
  unfold ttaskBlock
  dsimp only
  by_cases hother : ∃ j < maxTasks, j ≠ s.current ∧ s.state j = .ready
  · have ⟨j, hj, hne, hr⟩ := hother
    have hjr : (park s).state j = .ready := by rw [park_state, if_neg hne, hr]
    have hnext : ttaskPickNext (park s) ≠ s.current := by
      intro heq
      obtain ⟨_, honly⟩ | ⟨_, hready, _⟩ := ttaskPickNext_spec (park s)
      · exact hne (honly j hj hjr)
      · rw [heq, park_state, if_pos rfl] at hready
        exact absurd hready (by decide)
    rw [if_neg hnext, Sched.switchTo_state, park_state, if_pos hother]
  · have hnext : ttaskPickNext (park s) = s.current := by
      obtain ⟨heq, _⟩ | ⟨hlt, hready, _⟩ := ttaskPickNext_spec (park s)
      · exact heq
      · by_contra hne
        rw [park_state, if_neg hne] at hready
        exact hother ⟨_, hlt, hne, hready⟩
    rw [if_pos hnext, Sched.setTask_state, park_state, if_neg hother]
    split_ifs <;> rfl

theorem ttaskBlock_current (s : Sched) : (ttaskBlock s).current = ttaskPickNext (park s) := by
  unfold ttaskBlock
  dsimp only
  split_ifs with h
  · exact h.symm
  · rfl

theorem reusableSlot_eq_some {s : Sched} {i : ℕ} (h : reusableSlot s = some i) :
    i < maxTasks ∧ (s.state i = .free ∨ s.state i = .exited) := by
  unfold reusableSlot at h
  have hmem := List.mem_of_find?_eq_some h
  have hp := List.find?_some h
  exact ⟨List.mem_range.mp hmem, by simpa using hp⟩

/-- Creation touches one slot, and only one that no task occupies. -/
theorem placeTask_cases (s : Sched) (t : Task) (stack : ℕ) :
    (placeTask s t stack).1 = s ∧ (placeTask s t stack).2 = none ∨
    ∃ i < maxTasks, (s.state i = .free ∨ s.state i = .exited) ∧
      ((stack = 0 ∧ placeTask s t stack = (s.setTask i { t with state := .free }, none)) ∨
       (stack ≠ 0 ∧ placeTask s t stack =
        (s.setTask i { t with stack := stack, stackSize := stackBytes }, some i))) := by
  unfold placeTask
  cases hslot : reusableSlot s with
  | none => exact Or.inl ⟨rfl, rfl⟩
  | some i =>
    obtain ⟨hlt, hst⟩ := reusableSlot_eq_some hslot
    refine Or.inr ⟨i, hlt, hst, ?_⟩
    by_cases h0 : stack = 0
    · exact Or.inl ⟨h0, by simp [h0]⟩
    · exact Or.inr ⟨h0, by simp [h0]⟩

end TraitOS.Ttask
