import TraitOS.RingBuffer
import TraitOS.Runs
import TraitOS.Ttask

/-!
# Mailboxes and mutexes over the task table

The IPC calls are loops around one critical section each: a section either
finishes the call or registers the caller in a wait queue and blocks, after
which the loop starts over. With interrupts disabled a section is atomic, so the
system below interleaves whole sections of any READY tasks; the order in which
the scheduler runs them is left open. Mailboxes and mutexes are named by their
address, zero being the null pointer; message buffers are passed by value.
-/
namespace TraitOS.Tipc
open MachineWord RingBuffer Ttask

def msgData : ℕ := 56
def queueSlots : ℕ := 8
def waitMax : ℕ := 16
def tipcNone : ℕ := 0xFFFFFFFF

structure Msg where
  sender : ℕ
  len : ℕ
  data : Vector UInt8 msgData
  deriving DecidableEq, Repr

abbrev Waitq := Ring ℕ waitMax

structure Mailbox where
  ring : Ring Msg queueSlots
  waitSend : Waitq
  waitRecv : Waitq

structure Mutex where
  owner : ℕ
  depth : ℕ
  wait : Waitq

def tipcCoreWaitqInit (q : Waitq) : Waitq := Ring.empty q.slot (by decide)

def tipcCoreWaitqPush (q : Waitq) (id : ℕ) : Option Waitq := q.push id

def tipcCoreWaitqPop (q : Waitq) : ℕ × Waitq :=
  match q.pop with
  | none => (tipcNone, q)
  | some r => r

def tipcCoreMbInit (mb : Mailbox) : Mailbox where
  ring := Ring.empty mb.ring.slot (by decide)
  waitSend := tipcCoreWaitqInit mb.waitSend
  waitRecv := tipcCoreWaitqInit mb.waitRecv

def tipcCoreMbPush (mb : Mailbox) (m : Msg) : Option Mailbox :=
  (mb.ring.push m).map (fun ring => { mb with ring := ring })

def tipcCoreMbPop (mb : Mailbox) : Option (Msg × Mailbox) :=
  mb.ring.pop.map (fun r => (r.1, { mb with ring := r.2 }))

def tipcCoreMutexInit (m : Mutex) : Mutex where
  owner := tipcNone
  depth := 0
  wait := tipcCoreWaitqInit m.wait

structure Kernel where
  sched : Sched
  mailbox : ℕ → Mailbox
  mutex : ℕ → Mutex

namespace Kernel

def setMailbox (k : Kernel) (mb : ℕ) (b : Mailbox) : Kernel :=
  { k with mailbox := Function.update k.mailbox mb b }

def setMutex (k : Kernel) (mu : ℕ) (m : Mutex) : Kernel :=
  { k with mutex := Function.update k.mutex mu m }

def setSched (k : Kernel) (s : Sched) : Kernel := { k with sched := s }

end Kernel

/-- What a finished call gives its caller: `0`, `0` with a message in the
buffer, or `-1`. -/
inductive Reply where
  | ok
  | message (m : Msg)
  | failed
  deriving DecidableEq, Repr

/-- Take the first waiter out of a queue and make it runnable. -/
def wakeFirst (s : Sched) (q : Waitq) : Sched × Waitq :=
  let r := tipcCoreWaitqPop q
  (if r.1 ≠ tipcNone then ttaskWake s r.1 else s, r.2)

/-- One critical section of a send; no reply means that the caller was parked
and its loop starts over. -/
def tipcSend (k : Kernel) (mb : ℕ) (msg : Msg) : Kernel × Option Reply :=
  if mb = 0 then (k, some .failed)
  else
    let b := k.mailbox mb
    match tipcCoreMbPush b msg with
    | some pushed =>
      let w := wakeFirst k.sched pushed.waitRecv
      ((k.setMailbox mb { pushed with waitRecv := w.2 }).setSched w.1, some .ok)
    | none =>
      match tipcCoreWaitqPush b.waitSend (ttaskSelf k.sched) with
      | none => (k, some .failed)
      | some q => ((k.setMailbox mb { b with waitSend := q }).setSched (ttaskBlock k.sched), none)

def tipcRecv (k : Kernel) (mb : ℕ) : Kernel × Option Reply :=
  if mb = 0 then (k, some .failed)
  else
    let b := k.mailbox mb
    match tipcCoreMbPop b with
    | some (m, popped) =>
      let w := wakeFirst k.sched popped.waitSend
      ((k.setMailbox mb { popped with waitSend := w.2 }).setSched w.1, some (.message m))
    | none =>
      match tipcCoreWaitqPush b.waitRecv (ttaskSelf k.sched) with
      | none => (k, some .failed)
      | some q => ((k.setMailbox mb { b with waitRecv := q }).setSched (ttaskBlock k.sched), none)

def tipcMutexLock (k : Kernel) (mu : ℕ) : Kernel × Option Reply :=
  if mu = 0 then (k, some .failed)
  else
    let m := k.mutex mu
    let self := ttaskSelf k.sched
    if m.owner = tipcNone then
      (k.setMutex mu { m with owner := self, depth := 1 }, some .ok)
    else if m.owner = self then
      (k.setMutex mu { m with depth := incr32 m.depth }, some .ok)
    else
      match tipcCoreWaitqPush m.wait self with
      | none => (k, some .failed)
      | some q => ((k.setMutex mu { m with wait := q }).setSched (ttaskBlock k.sched), none)

def tipcMutexUnlock (k : Kernel) (mu : ℕ) : Kernel × Option Reply :=
  if mu = 0 then (k, some .failed)
  else
    let m := k.mutex mu
    if m.owner ≠ ttaskSelf k.sched then (k, some .failed)
    else if decr32 m.depth = 0 then
      let w := wakeFirst k.sched m.wait
      ((k.setMutex mu { owner := tipcNone, depth := decr32 m.depth, wait := w.2 }).setSched w.1,
        some .ok)
    else (k.setMutex mu { m with depth := decr32 m.depth }, some .ok)

inductive Call where
  | send (mb : ℕ) (msg : Msg)
  | recv (mb : ℕ)
  | lock (mu : ℕ)
  | unlock (mu : ℕ)
  deriving DecidableEq, Repr

/-- A send stamps the caller's id on the message before its loop. -/
def Call.enter (self : ℕ) : Call → Call
  | .send mb msg => .send mb { msg with sender := self }
  | c => c

def Call.section (k : Kernel) : Call → Kernel × Option Reply
  | .send mb msg => tipcSend k mb msg
  | .recv mb => tipcRecv k mb
  | .lock mu => tipcMutexLock k mu
  | .unlock mu => tipcMutexUnlock k mu

/-- A finished call, for the history. -/
structure Event where
  task : ℕ
  call : Call
  reply : Reply
  deriving DecidableEq, Repr

/-- The kernel, the call each task is inside of, the finished calls in order,
and which tasks were woken without having run since. -/
structure System where
  kernel : Kernel
  pending : ℕ → Option Call
  log : List Event
  woken : ℕ → Bool

/-- Actions of the tasks; every action names the task the scheduler runs. -/
inductive Action where
  | call (t : ℕ) (c : Call)
  | run (t : ℕ)
  | tick (t : ℕ)
  | create (t fn arg stack : ℕ)
  | createUser (t entry aspace userRsp stack : ℕ)
  | exit (t : ℕ)
  deriving DecidableEq, Repr

def Action.task : Action → ℕ
  | .call t _ => t
  | .run t => t
  | .tick t => t
  | .create t _ _ _ => t
  | .createUser t _ _ _ _ => t
  | .exit t => t

/-- The kernel after the section of task `t` and the reply of that section, put
into the system: the call is over when there is a reply. -/
def System.settle (s : System) (t : ℕ) (c : Call) (r : Kernel × Option Reply) : System where
  kernel := r.1
  pending := match r.2 with
    | none => s.pending
    | some _ => Function.update s.pending t none
  log := match r.2 with
    | none => s.log
    | some reply => s.log ++ [⟨t, c, reply⟩]
  woken := fun i =>
    if i = t then false
    else s.woken i ||
      decide (s.kernel.sched.state i = .blocked ∧ r.1.sched.state i = .ready)

/-- Task `t`, already switched to, takes the action. -/
def System.act (s : System) (k : Kernel) : Action → Option System
  | .call t c =>
    if s.pending t = none then
      some { s with kernel := k, pending := Function.update s.pending t (some (c.enter t)) }
    else none
  | .run t => (s.pending t).map (fun c => s.settle t c (c.section k))
  | .tick _ => some { s with kernel := k.setSched (ttaskTick k.sched) }
  | .create t fn arg stack =>
    if s.pending t = none then
      some { s with kernel := k.setSched (ttaskCreate k.sched fn arg stack).1 }
    else none
  | .createUser t entry aspace userRsp stack =>
    if s.pending t = none then
      some { s with kernel := k.setSched (ttaskCreateUser k.sched entry aspace userRsp stack).1 }
    else none
  | .exit t =>
    if s.pending t = none then some { s with kernel := k.setSched (ttaskExit k.sched) } else none

/-- A READY task is switched to and takes its action. -/
def systemStep (s : System) (a : Action) : Option System :=
  if h : a.task < maxTasks then
    if s.kernel.sched.state a.task = .ready then
      s.act (s.kernel.setSched (s.kernel.sched.switchTo a.task h)) a
    else none
  else none

/-- The scheduler after its start and freshly initialised mailboxes and mutexes,
over whatever their memory held. -/
def boot (mailbox : ℕ → Mailbox) (mutex : ℕ → Mutex) : System where
  kernel := {
    sched := ttaskInit
    mailbox := fun mb => tipcCoreMbInit (mailbox mb)
    mutex := fun mu => tipcCoreMutexInit (mutex mu) }
  pending := fun _ => none
  log := []
  woken := fun _ => false

/-! Objects in zeroed memory, for concrete runs. -/

def blankMsg : Msg := ⟨0, 0, Vector.replicate msgData 0⟩

def blankWaitq : Waitq := Ring.empty (fun _ => 0) (by decide)

def blankMailbox : Mailbox := ⟨Ring.empty (fun _ => blankMsg) (by decide), blankWaitq, blankWaitq⟩

def blankMutex : Mutex := ⟨0, 0, blankWaitq⟩

end TraitOS.Tipc
