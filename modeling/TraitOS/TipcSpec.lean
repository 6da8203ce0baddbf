import TraitOS.Tipc

/-!
# The IPC calls on lists

What the IPC calls mean once rings are read as lists and tasks as their states:
a mailbox is a bounded queue of messages, a wait queue a list of task ids, a
section one of a few updates. Every section of the kernel computes exactly the
section below on its view, and so does every step and every run of the system.
-/
namespace TraitOS.Tipc
open MachineWord RingBuffer Ttask Runs

/-- The wait lists of all mailboxes and mutexes. -/
inductive WaitList where
  | send (mb : ℕ)
  | recv (mb : ℕ)
  | lock (mu : ℕ)
  deriving DecidableEq, Repr

@[ext] structure View where
  state : ℕ → TaskState
  ring : ℕ → List Msg
  waiting : WaitList → List ℕ
  owner : ℕ → ℕ
  depth : ℕ → ℕ

namespace View

def setState (v : View) (st : ℕ → TaskState) : View := { v with state := st }

def setRing (v : View) (mb : ℕ) (l : List Msg) : View :=
  { v with ring := Function.update v.ring mb l }

def setWaiting (v : View) (q : WaitList) (l : List ℕ) : View :=
  { v with waiting := Function.update v.waiting q l }

def setMutex (v : View) (mu owner depth : ℕ) : View :=
  { v with
    owner := Function.update v.owner mu owner
    depth := Function.update v.depth mu depth }

@[simp] theorem setRing_self (v : View) (mb : ℕ) : v.setRing mb (v.ring mb) = v := by
  simp [setRing]

@[simp] theorem setWaiting_self (v : View) (q : WaitList) : v.setWaiting q (v.waiting q) = v := by
  simp [setWaiting]

@[simp] theorem setMutex_self (v : View) (mu : ℕ) :
    v.setMutex mu (v.owner mu) (v.depth mu) = v := by
  simp [setMutex]

end View

/-- States after the head of a wait list was woken. -/
def wakeHead (st : ℕ → TaskState) : List ℕ → ℕ → TaskState
  | [] => st
  | w :: _ => if w < maxTasks ∧ st w = .blocked then Function.update st w .ready else st

/-- States after `self` blocked. -/
def blockSelf (st : ℕ → TaskState) (self : ℕ) : ℕ → TaskState :=
  Function.update st self
    (if ∃ j < maxTasks, j ≠ self ∧ st j = .ready then .blocked else .ready)

namespace View

def wakeFirst (v : View) (q : WaitList) : View :=
  (v.setWaiting q (v.waiting q).tail).setState (wakeHead v.state (v.waiting q))

/-- Register and block, or give up when the list is full. -/
def wait (v : View) (self : ℕ) (q : WaitList) : View × Option Reply :=
  if (v.waiting q).length < waitMax then
    ((v.setWaiting q (v.waiting q ++ [self])).setState (blockSelf v.state self), none)
  else (v, some .failed)

end View

def specSend (v : View) (self mb : ℕ) (msg : Msg) : View × Option Reply :=
  if mb = 0 then (v, some .failed)
  else if (v.ring mb).length < queueSlots then
    ((v.setRing mb (v.ring mb ++ [msg])).wakeFirst (.recv mb), some .ok)
  else v.wait self (.send mb)

def specRecv (v : View) (self mb : ℕ) : View × Option Reply :=
  if mb = 0 then (v, some .failed)
  else match v.ring mb with
    | m :: rest => ((v.setRing mb rest).wakeFirst (.send mb), some (.message m))
    | [] => v.wait self (.recv mb)

def specLock (v : View) (self mu : ℕ) : View × Option Reply :=
  if mu = 0 then (v, some .failed)
  else if v.owner mu = tipcNone then (v.setMutex mu self 1, some .ok)
  else if v.owner mu = self then (v.setMutex mu self (incr32 (v.depth mu)), some .ok)
  else v.wait self (.lock mu)

def specUnlock (v : View) (self mu : ℕ) : View × Option Reply :=
  if mu = 0 then (v, some .failed)
  else if v.owner mu ≠ self then (v, some .failed)
  else if decr32 (v.depth mu) = 0 then
    ((v.setMutex mu tipcNone (decr32 (v.depth mu))).wakeFirst (.lock mu), some .ok)
  else (v.setMutex mu self (decr32 (v.depth mu)), some .ok)

/-- One critical section of a call by task `self`. -/
def specSection (v : View) (self : ℕ) : Call → View × Option Reply
  | .send mb msg => specSend v self mb msg
  | .recv mb => specRecv v self mb
  | .lock mu => specLock v self mu
  | .unlock mu => specUnlock v self mu

def Kernel.waitq (k : Kernel) : WaitList → Waitq
  | .send mb => (k.mailbox mb).waitSend
  | .recv mb => (k.mailbox mb).waitRecv
  | .lock mu => (k.mutex mu).wait

def Kernel.view (k : Kernel) : View where
  state := k.sched.state
  ring := fun mb => (k.mailbox mb).ring.contents
  waiting := fun q => (k.waitq q).contents
  owner := fun mu => (k.mutex mu).owner
  depth := fun mu => (k.mutex mu).depth

/-- The empty marker is no slot of the table. -/
lemma slot_ne_none {t : ℕ} (ht : t < maxTasks) : t ≠ tipcNone := by
  unfold maxTasks at ht
  unfold tipcNone
  omega

/-! ## Each kernel update on its view -/

theorem view_setSched (k : Kernel) (s : Sched) : (k.setSched s).view = k.view.setState s.state := by
  ext q <;> cases q <;> rfl

theorem view_setMailbox (k : Kernel) (mb : ℕ) (b : Mailbox) :
    (k.setMailbox mb b).view =
      ((k.view.setRing mb b.ring.contents).setWaiting (.send mb) b.waitSend.contents).setWaiting
        (.recv mb) b.waitRecv.contents := by
  have hring : (k.setMailbox mb b).view.ring =
      Function.update k.view.ring mb b.ring.contents := by
    funext i
    by_cases hi : i = mb
    · subst hi; simp [Kernel.view, Kernel.setMailbox]
    · simp [Kernel.view, Kernel.setMailbox, hi]
  have hwait : (k.setMailbox mb b).view.waiting =
      Function.update (Function.update k.view.waiting (.send mb) b.waitSend.contents) (.recv mb)
        b.waitRecv.contents := by
    funext q
    cases q with
    | send i =>
      by_cases hi : i = mb
      · subst hi; simp [Kernel.view, Kernel.setMailbox, Kernel.waitq]
      · simp [Kernel.view, Kernel.setMailbox, Kernel.waitq, hi]
    | recv i =>
      by_cases hi : i = mb
      · subst hi; simp [Kernel.view, Kernel.setMailbox, Kernel.waitq]
      · simp [Kernel.view, Kernel.setMailbox, Kernel.waitq, hi]
    | lock i => simp [Kernel.view, Kernel.setMailbox, Kernel.waitq]
  exact View.ext rfl hring hwait rfl rfl

theorem view_setMutex (k : Kernel) (mu : ℕ) (m : Mutex) :
    (k.setMutex mu m).view =
      (k.view.setMutex mu m.owner m.depth).setWaiting (.lock mu) m.wait.contents := by
  have howner : (k.setMutex mu m).view.owner = Function.update k.view.owner mu m.owner := by
    funext i
    by_cases hi : i = mu
    · subst hi; simp [Kernel.view, Kernel.setMutex]
    · simp [Kernel.view, Kernel.setMutex, hi]
  have hdepth : (k.setMutex mu m).view.depth = Function.update k.view.depth mu m.depth := by
    funext i
    by_cases hi : i = mu
    · subst hi; simp [Kernel.view, Kernel.setMutex]
    · simp [Kernel.view, Kernel.setMutex, hi]
  have hwait : (k.setMutex mu m).view.waiting =
      Function.update k.view.waiting (.lock mu) m.wait.contents := by
    funext q
    cases q with
    | send i => simp [Kernel.view, Kernel.setMutex, Kernel.waitq]
    | recv i => simp [Kernel.view, Kernel.setMutex, Kernel.waitq]
    | lock i =>
      by_cases hi : i = mu
      · subst hi; simp [Kernel.view, Kernel.setMutex, Kernel.waitq]
      · simp [Kernel.view, Kernel.setMutex, Kernel.waitq, hi]
  exact View.ext rfl rfl hwait howner hdepth

theorem wakeFirst_spec (s : Sched) (q : Waitq) :
    (wakeFirst s q).1.state = wakeHead s.state q.contents ∧
      (wakeFirst s q).2.contents = q.contents.tail := by
  unfold wakeFirst tipcCoreWaitqPop
  cases hpop : q.pop with
  | none =>
    have hempty := q.pop_eq_none.mp hpop
    simp [hempty, wakeHead]
  | some r =>
    have hcons : q.contents = r.1 :: r.2.contents := Ring.pop_contents hpop
    rw [hcons]
    refine ⟨?_, rfl⟩
    funext i
    have hwake : (if r.1 ≠ tipcNone then ttaskWake s r.1 else s) = ttaskWake s r.1 := by
      split_ifs with h
      · rfl
      · have hout : maxTasks ≤ r.1 := by
          rw [not_not.mp h]
          decide
        simp [ttaskWake, hout]
    simp only [hwake, ttaskWake_state, wakeHead]
    by_cases hb : r.1 < maxTasks ∧ s.state r.1 = .blocked
    · by_cases hi : i = r.1
      · rw [if_pos ⟨hi, hb⟩, if_pos hb, hi, Function.update_self]
      · rw [if_neg (fun h => hi h.1), if_pos hb, Function.update_of_ne hi]
    · rw [if_neg (fun h => hb h.2), if_neg hb]

theorem ttaskBlock_view (s : Sched) : (ttaskBlock s).state = blockSelf s.state s.current := by
  funext i
  rw [ttaskBlock_state]
  unfold blockSelf
  by_cases hi : i = s.current
  · rw [if_pos hi, hi, Function.update_self]
  · rw [if_neg hi, Function.update_of_ne hi]

/-- The waiting branch of every call, whichever object the queue belongs to. -/
lemma wait_view (k : Kernel) (q : WaitList) (put : Waitq → Kernel)
    (hput : ∀ r, (put r).view = k.view.setWaiting q r.contents) :
    Prod.map Kernel.view id
      (match tipcCoreWaitqPush (k.waitq q) (ttaskSelf k.sched) with
        | none => (k, some Reply.failed)
        | some r => ((put r).setSched (ttaskBlock k.sched), none)) =
      k.view.wait k.sched.current q := by
  have hlength : (k.view.waiting q).length = (k.waitq q).count := Ring.length_contents _
  unfold View.wait tipcCoreWaitqPush
  cases hpush : (k.waitq q).push (ttaskSelf k.sched) with
  | none =>
    have hfull := (Ring.push_eq_none _ _).mp hpush
    rw [if_neg (by omega)]
    rfl
  | some r =>
    have hcontents := Ring.push_contents hpush
    have hroom := Ring.count_lt_of_push hpush
    rw [if_pos (by omega)]
    simp only [Prod.map_apply, id_eq, view_setSched, hput, hcontents, ttaskBlock_view]
    rfl

theorem tipcSend_view (k : Kernel) (mb : ℕ) (msg : Msg) :
    Prod.map Kernel.view id (tipcSend k mb msg) = specSend k.view k.sched.current mb msg := by
  unfold tipcSend specSend
  by_cases h0 : mb = 0
  · rw [if_pos h0, if_pos h0]
    rfl
  rw [if_neg h0, if_neg h0]
  have hlength : (k.view.ring mb).length = (k.mailbox mb).ring.count := Ring.length_contents _
  dsimp only [tipcCoreMbPush]
  cases hpush : (k.mailbox mb).ring.push msg with
  | none =>
    have hfull := (Ring.push_eq_none _ _).mp hpush
    rw [if_neg (by omega)]
    apply wait_view k (.send mb) (fun q => k.setMailbox mb { k.mailbox mb with waitSend := q })
    intro q
    rw [view_setMailbox]
    change ((k.view.setRing mb (k.view.ring mb)).setWaiting (.send mb) q.contents).setWaiting
      (.recv mb) (k.view.waiting (.recv mb)) = _
    rw [View.setRing_self]
    exact View.setWaiting_self (k.view.setWaiting (.send mb) q.contents) (.recv mb)
  | some ring =>
    have hcontents := Ring.push_contents hpush
    have hroom := Ring.count_lt_of_push hpush
    obtain ⟨hstate, htail⟩ := wakeFirst_spec k.sched (k.mailbox mb).waitRecv
    rw [if_pos (by omega)]
    simp only [Option.map_some, Prod.map_apply, id_eq, view_setSched, view_setMailbox, hstate,
      htail, hcontents]
    have hsend : (k.mailbox mb).waitSend.contents =
        (k.view.setRing mb ((k.mailbox mb).ring.contents ++ [msg])).waiting (.send mb) := rfl
    rw [hsend, View.setWaiting_self]
    rfl

theorem tipcRecv_view (k : Kernel) (mb : ℕ) :
    Prod.map Kernel.view id (tipcRecv k mb) = specRecv k.view k.sched.current mb := by
  unfold tipcRecv specRecv
  by_cases h0 : mb = 0
  · rw [if_pos h0, if_pos h0]
    rfl
  rw [if_neg h0, if_neg h0]
  dsimp only [tipcCoreMbPop]
  cases hpop : (k.mailbox mb).ring.pop with
  | none =>
    have hempty : k.view.ring mb = [] := (Ring.pop_eq_none _).mp hpop
    rw [hempty]
    apply wait_view k (.recv mb) (fun q => k.setMailbox mb { k.mailbox mb with waitRecv := q })
    intro q
    rw [view_setMailbox]
    change ((k.view.setRing mb (k.view.ring mb)).setWaiting (.send mb)
      (k.view.waiting (.send mb))).setWaiting (.recv mb) q.contents = _
    rw [View.setRing_self, View.setWaiting_self]
  | some r =>
    have hcontents : k.view.ring mb = r.1 :: r.2.contents := Ring.pop_contents hpop
    obtain ⟨hstate, htail⟩ := wakeFirst_spec k.sched (k.mailbox mb).waitSend
    rw [hcontents]
    simp only [Option.map_some, Prod.map_apply, id_eq, view_setSched, view_setMailbox, hstate,
      htail]
    have hrecv : (k.mailbox mb).waitRecv.contents =
        ((k.view.setRing mb r.2.contents).setWaiting (.send mb)
          (k.mailbox mb).waitSend.contents.tail).waiting (.recv mb) := rfl
    rw [hrecv, View.setWaiting_self]
    rfl

theorem tipcMutexLock_view (k : Kernel) (mu : ℕ) :
    Prod.map Kernel.view id (tipcMutexLock k mu) = specLock k.view k.sched.current mu := by
  unfold tipcMutexLock specLock
  by_cases h0 : mu = 0
  · rw [if_pos h0, if_pos h0]
    rfl
  rw [if_neg h0, if_neg h0]
  have hkeep : ∀ owner depth, (k.setMutex mu ⟨owner, depth, (k.mutex mu).wait⟩).view =
      k.view.setMutex mu owner depth := by
    intro owner depth
    rw [view_setMutex]
    exact View.setWaiting_self (k.view.setMutex mu owner depth) (.lock mu)
  dsimp only
  by_cases hfree : k.view.owner mu = tipcNone
  · rw [if_pos hfree, if_pos (show (k.mutex mu).owner = tipcNone from hfree), Prod.map_apply, hkeep]
    rfl
  rw [if_neg hfree, if_neg (show ¬ (k.mutex mu).owner = tipcNone from hfree)]
  by_cases hself : k.view.owner mu = k.sched.current
  · have howner : (k.mutex mu).owner = ttaskSelf k.sched := hself
    rw [if_pos hself, if_pos howner, Prod.map_apply, hkeep, howner]
    rfl
  rw [if_neg hself, if_neg (show ¬ (k.mutex mu).owner = ttaskSelf k.sched from hself)]
  apply wait_view k (.lock mu) (fun q => k.setMutex mu { k.mutex mu with wait := q })
  intro q
  rw [view_setMutex]
  change (k.view.setMutex mu (k.view.owner mu) (k.view.depth mu)).setWaiting (.lock mu) q.contents
    = _
  rw [View.setMutex_self]

theorem tipcMutexUnlock_view (k : Kernel) (mu : ℕ) :
    Prod.map Kernel.view id (tipcMutexUnlock k mu) = specUnlock k.view k.sched.current mu := by
  unfold tipcMutexUnlock specUnlock
  by_cases h0 : mu = 0
  · rw [if_pos h0, if_pos h0]
    rfl
  rw [if_neg h0, if_neg h0]
  dsimp only
  by_cases hself : k.view.owner mu ≠ k.sched.current
  · rw [if_pos hself, if_pos (show (k.mutex mu).owner ≠ ttaskSelf k.sched from hself)]
    rfl
  have howner : (k.mutex mu).owner = ttaskSelf k.sched := not_not.mp hself
  rw [if_neg hself, if_neg (not_not.mpr howner)]
  by_cases hlast : decr32 (k.view.depth mu) = 0
  · obtain ⟨hstate, htail⟩ := wakeFirst_spec k.sched (k.mutex mu).wait
    rw [if_pos hlast, if_pos (show decr32 (k.mutex mu).depth = 0 from hlast)]
    simp only [Prod.map_apply, id_eq, view_setSched, view_setMutex, hstate, htail]
    rfl
  · rw [if_neg hlast, if_neg (show ¬ decr32 (k.mutex mu).depth = 0 from hlast), Prod.map_apply,
      view_setMutex, howner]
    have hwait := View.setWaiting_self
      (k.view.setMutex mu k.sched.current (decr32 (k.view.depth mu))) (.lock mu)
    exact Prod.ext hwait rfl

/-- Every critical section of the kernel is the section on lists. -/
theorem section_view (k : Kernel) (c : Call) :
    Prod.map Kernel.view id (c.section k) = specSection k.view k.sched.current c := by
  cases c with
  | send mb msg => exact tipcSend_view k mb msg
  | recv mb => exact tipcRecv_view k mb
  | lock mu => exact tipcMutexLock_view k mu
  | unlock mu => exact tipcMutexUnlock_view k mu

/-! ## The system on lists -/

structure SpecSystem where
  view : View
  pending : ℕ → Option Call
  log : List Event
  woken : ℕ → Bool

def System.spec (s : System) : SpecSystem := ⟨s.kernel.view, s.pending, s.log, s.woken⟩

def SpecSystem.settle (s : SpecSystem) (t : ℕ) (c : Call) (r : View × Option Reply) :
    SpecSystem where
  view := r.1
  pending := match r.2 with
    | none => s.pending
    | some _ => Function.update s.pending t none
  log := match r.2 with
    | none => s.log
    | some reply => s.log ++ [⟨t, c, reply⟩]
  woken := fun i =>
    if i = t then false
    else s.woken i || decide (s.view.state i = .blocked ∧ r.1.state i = .ready)

/-- States after a task was created, with `stack` what its allocation returned. -/
def placeState (st : ℕ → TaskState) (stack : ℕ) : ℕ → TaskState :=
  match (List.range maxTasks).find? (fun i => st i = .free ∨ st i = .exited) with
  | none => st
  | some i => Function.update st i (if stack = 0 then .free else .ready)

def SpecSystem.act (s : SpecSystem) : Action → Option SpecSystem
  | .call t c =>
    if s.pending t = none then
      some { s with pending := Function.update s.pending t (some (c.enter t)) }
    else none
  | .run t => (s.pending t).map (fun c => s.settle t c (specSection s.view t c))
  | .tick _ => some s
  | .create t _ _ stack =>
    if s.pending t = none then
      some { s with view := s.view.setState (placeState s.view.state stack) }
    else none
  | .createUser t _ _ _ stack =>
    if s.pending t = none then
      some { s with view := s.view.setState (placeState s.view.state stack) }
    else none
  | .exit t =>
    if s.pending t = none then
      some { s with view := s.view.setState (Function.update s.view.state t .exited) }
    else none

def specStep (s : SpecSystem) (a : Action) : Option SpecSystem :=
  if a.task < maxTasks ∧ s.view.state a.task = .ready then s.act a else none

theorem placeTask_state (s : Sched) (t : Task) (stack : ℕ) (ht : t.state = .ready) :
    (placeTask s t stack).1.state = placeState s.state stack := by
  unfold placeTask placeState reusableSlot
  cases (List.range maxTasks).find? (fun i => s.state i = .free ∨ s.state i = .exited) with
  | none => rfl
  | some i =>
    funext j
    by_cases h0 : stack = 0
    · simp only [if_pos h0, Sched.setTask_state, Function.update_apply]
    · simp only [if_neg h0, Sched.setTask_state, Function.update_apply, ht]

theorem settle_spec (s : System) (t : ℕ) (c : Call) (r : Kernel × Option Reply) :
    (s.settle t c r).spec = s.spec.settle t c (Prod.map Kernel.view id r) := rfl

/-- A change of the table alone, by a task that is in no call. -/
lemma table_spec (s : System) (t : ℕ) (g f : Sched) {st : ℕ → TaskState} (hst : f.state = st) :
    (if s.pending t = none then
        some ({ s with kernel := (s.kernel.setSched g).setSched f } : System)
      else none).map System.spec =
      if s.spec.pending t = none then some { s.spec with view := s.spec.view.setState st }
      else none := by
  have hspec : ({ s with kernel := (s.kernel.setSched g).setSched f } : System).spec =
      { s.spec with view := s.spec.view.setState st } := by
    rw [← hst]
    exact congrArg (fun v => SpecSystem.mk v s.pending s.log s.woken) (view_setSched s.kernel f)
  by_cases hp : s.pending t = none
  · rw [if_pos hp, if_pos (show s.spec.pending t = none from hp), Option.map_some, hspec]
  · rw [if_neg hp, if_neg (show ¬ s.spec.pending t = none from hp), Option.map_none]

/-- Every action of the system is the action on lists. -/
theorem act_spec (s : System) (a : Action) (h : a.task < maxTasks) :
    (s.act (s.kernel.setSched (s.kernel.sched.switchTo a.task h)) a).map System.spec =
      s.spec.act a := by
  have hview : (s.kernel.setSched (s.kernel.sched.switchTo a.task h)).view = s.kernel.view := by
    rw [view_setSched]
    rfl
  cases a with
  | call t c =>
    by_cases hp : s.pending t = none
    · simp only [System.act, SpecSystem.act, if_pos hp, Option.map_some,
        if_pos (show s.spec.pending t = none from hp)]
      exact congrArg (fun v => some (SpecSystem.mk v _ _ _)) hview
    · simp only [System.act, SpecSystem.act, if_neg hp, Option.map_none,
        if_neg (show ¬ s.spec.pending t = none from hp)]
  | run t =>
    simp only [System.act, SpecSystem.act, Option.map_map]
    change _ = (s.pending t).map _
    congr 1
    funext c
    rw [Function.comp_apply, settle_spec, section_view, hview]
    rfl
  | tick t =>
    have htick : (ttaskTick (s.kernel.sched.switchTo t h)).state = s.kernel.sched.state :=
      funext fun i => ttaskTick_state _ i
    have hkernel := view_setSched s.kernel (ttaskTick (s.kernel.sched.switchTo t h))
    rw [htick] at hkernel
    exact congrArg (fun v => some (SpecSystem.mk v s.pending s.log s.woken)) hkernel
  | create t fn arg stack =>
    exact table_spec s t _ _ (placeTask_state (s.kernel.sched.switchTo t h) _ stack rfl)
  | createUser t entry aspace userRsp stack =>
    have hplace : (ttaskCreateUser (s.kernel.sched.switchTo t h) entry aspace userRsp
        stack).1.state = placeState s.kernel.sched.state stack := by
      unfold ttaskCreateUser
      split_ifs with h0
      · rw [h0]
        exact placeTask_state (s.kernel.sched.switchTo t h) (draftTask 2 entry) 0 rfl
      · exact placeTask_state (s.kernel.sched.switchTo t h) _ stack rfl
    exact table_spec s t _ _ hplace
  | exit t =>
    have hexit : (ttaskExit (s.kernel.sched.switchTo t h)).state =
        Function.update s.kernel.sched.state t .exited := by
      funext i
      rw [ttaskExit_state, Function.update_apply]
      rfl
    exact table_spec s t _ _ hexit

theorem systemStep_spec (s : System) (a : Action) :
    (systemStep s a).map System.spec = specStep s.spec a := by
  unfold systemStep specStep
  by_cases hlt : a.task < maxTasks
  · rw [dif_pos hlt]
    by_cases hr : s.kernel.sched.state a.task = .ready
    · rw [if_pos hr, if_pos (show a.task < maxTasks ∧ s.spec.view.state a.task = .ready from
        ⟨hlt, hr⟩)]
      exact act_spec s a hlt
    · rw [if_neg hr, if_neg (fun h => hr h.2)]
      rfl
  · rw [dif_neg hlt, if_neg (fun h => hlt h.1)]
    rfl

/-- Ways the table changes outside the IPC calls, by a task that is in no call;
a tick changes no state. -/
def TableChange (s : SpecSystem) (a : Action) (st : ℕ → TaskState) : Prop :=
  st = s.view.state ∨
    s.pending a.task = none ∧
      ((∃ stack, st = placeState s.view.state stack) ∨
        (a = .exit a.task ∧ st = Function.update s.view.state a.task .exited))

/-- A step enters a call, runs one section, or changes the table only. -/
theorem specStep_cases {s t : SpecSystem} {a : Action} (h : specStep s a = some t) :
    (∃ i c, a = .call i c ∧ s.pending i = none ∧
      t = { s with pending := Function.update s.pending i (some (c.enter i)) }) ∨
    (∃ i c, a = .run i ∧ s.pending i = some c ∧ t = s.settle i c (specSection s.view i c)) ∨
    ∃ st, TableChange s a st ∧ t = { s with view := s.view.setState st } := by
  unfold specStep at h
  split_ifs at h with hready
  cases a with
  | call i c =>
    simp only [SpecSystem.act] at h
    split_ifs at h with hp
    exact Or.inl ⟨i, c, rfl, hp, (Option.some.inj h).symm⟩
  | run i =>
    obtain ⟨c, hp, ht⟩ := Option.map_eq_some_iff.mp h
    exact Or.inr (Or.inl ⟨i, c, rfl, hp, ht.symm⟩)
  | tick i => exact Or.inr (Or.inr ⟨s.view.state, Or.inl rfl, (Option.some.inj h).symm⟩)
  | create i fn arg stack =>
    simp only [SpecSystem.act] at h
    split_ifs at h with hp
    exact Or.inr (Or.inr ⟨_, Or.inr ⟨hp, Or.inl ⟨stack, rfl⟩⟩, (Option.some.inj h).symm⟩)
  | createUser i entry aspace userRsp stack =>
    simp only [SpecSystem.act] at h
    split_ifs at h with hp
    exact Or.inr (Or.inr ⟨_, Or.inr ⟨hp, Or.inl ⟨stack, rfl⟩⟩, (Option.some.inj h).symm⟩)
  | exit i =>
    simp only [SpecSystem.act] at h
    split_ifs at h with hp
    exact Or.inr (Or.inr ⟨_, Or.inr ⟨hp, Or.inr ⟨rfl, rfl⟩⟩, (Option.some.inj h).symm⟩)

theorem specStep_ready {s t : SpecSystem} {a : Action} (h : specStep s a = some t) :
    a.task < maxTasks ∧ s.view.state a.task = .ready := by
  unfold specStep at h
  split_ifs at h with hready
  exact hready

theorem specStep_run {s u : SpecSystem} {t : ℕ} (h : specStep s (.run t) = some u) :
    ∃ c, s.pending t = some c ∧ u = s.settle t c (specSection s.view t c) := by
  unfold specStep at h
  split_ifs at h with hready
  obtain ⟨c, hp, hu⟩ := Option.map_eq_some_iff.mp h
  exact ⟨c, hp, hu.symm⟩

/-- Every run of the system is a run on lists. -/
theorem run_spec {s t : System} {actions : List Action} (h : exec systemStep s actions = some t) :
    exec specStep s.spec actions = some t.spec := by
  have hmap := exec_map systemStep_spec s actions
  rw [h] at hmap
  exact hmap.symm

end TraitOS.Tipc
