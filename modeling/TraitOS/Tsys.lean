import TraitOS.Tipc
import TraitOS.TvmmUser

/-!
# System calls

`syscall_handler` decodes a number and three arguments, validates them and serves the call.
A call that waits (for a message, a mutex, a key or a point in time) runs in turns: between
two of them other tasks change what tasks share, and memory, and the scheduler may resume the
task under another CR3. The machine the task finds each time it runs again is part of the input.
-/
namespace TraitOS.Tsys
open ByteMemory Ttask Tipc Tvmm

/-- The `TSYS_` numbers. -/
inductive Number where
  | write
  | exit
  | getpid
  | yield
  | sleep
  | mbInit
  | mbSend
  | mbRecv
  | mutexInit
  | mutexLock
  | mutexUnlock
  | getticks
  | read
deriving DecidableEq, Repr

def Number.ofLong : ℤ → Option Number
  | 1 => some .write
  | 2 => some .exit
  | 3 => some .getpid
  | 4 => some .yield
  | 5 => some .sleep
  | 6 => some .mbInit
  | 7 => some .mbSend
  | 8 => some .mbRecv
  | 9 => some .mutexInit
  | 10 => some .mutexLock
  | 11 => some .mutexUnlock
  | 12 => some .getticks
  | 13 => some .read
  | _ => none

/-- The saved registers the handler reads. -/
structure Registers where
  cs : BitVec 64
  rax : BitVec 64
  rdi : BitVec 64
  rsi : BitVec 64
  rdx : BitVec 64
deriving DecidableEq, Repr

namespace Registers

def nr (r : Registers) : Option Number := Number.ofLong r.rax.toInt
def a1 (r : Registers) : ℤ := r.rdi.toInt
def a2 (r : Registers) : ℕ := r.rsi.toNat
def a3 (r : Registers) : ℤ := r.rdx.toInt

end Registers

inductive ObjType where
  | free
  | mb
  | mutex
deriving DecidableEq, Repr

def tipcMaxObj : ℕ := 32
def msgBytes : ℕ := 64

/-- What the tasks share: the scheduler and the objects of the table with their types, the
clock, the keys not read yet and the characters on the console. -/
structure Shared where
  ipc : Kernel
  objType : ℕ → ObjType
  ticks : ℕ
  keys : List ℤ
  console : List UInt8

/-- The machine a call sees: what is shared, physical memory and the active PML4. -/
structure Sys where
  shared : Shared
  mem : Memory
  root : ℕ

def Sys.setIpc (s : Sys) (k : Kernel) : Sys := { s with shared := { s.shared with ipc := k } }

/-- The object of a table slot. Number 0 is the null pointer. -/
def slotObject (id : ℕ) : ℕ := id + 1

inductive Access where
  | read (x : ℕ)
  | write (x : ℕ)
deriving DecidableEq, Repr

/-- The machine when the call returns or is left waiting, the result unless it is waiting or
has exited, and the user bytes the kernel has touched with the machine in which it did. -/
structure Outcome where
  sys : Sys
  rax : Option (BitVec 64)
  during : Sys
  accesses : List Access

def returns (s : Sys) (v : ℤ) : Outcome := ⟨s, some (BitVec.ofInt 64 v), s, []⟩
def waits (s : Sys) : Outcome := ⟨s, none, s, []⟩

/-! ## User memory -/

def userByte (s : Sys) (x : ℕ) : UInt8 := (translate s.mem s.root x).elim 0 s.mem

def setUserByte (s : Sys) (x : ℕ) (v : UInt8) : Sys :=
  (translate s.mem s.root x).elim s fun p => { s with mem := Function.update s.mem p v }

def readsFrom (x n : ℕ) : List Access := (List.range n).map fun i => .read (x + i)
def writesTo (x n : ℕ) : List Access := (List.range n).map fun i => .write (x + i)

def readMsg (s : Sys) (x : ℕ) : Msg where
  sender := loadLE (userByte s) x 4
  len := loadLE (userByte s) (x + 4) 4
  data := Vector.ofFn fun i => userByte s (x + 8 + i)

/-- The bytes of a message in the order of its fields. -/
def msgByte (msg : Msg) (i : ℕ) : UInt8 :=
  if i < 4 then storeLE (fun _ => 0) 0 4 msg.sender i
  else if i < 8 then storeLE (fun _ => 0) 4 4 msg.len i
  else msg.data.toArray.getD (i - 8) 0

def writeMsg (s : Sys) (x : ℕ) (msg : Msg) : Sys :=
  (List.range msgBytes).foldl (fun s i => setUserByte s (x + i) (msgByte msg i)) s

/-! ## Waiting -/

/-- The loop of an IPC call. Its sections run until one gives a reply; after a section that
parks the caller the next one finds the next machine. -/
def ipcLoop (turn : Kernel → Kernel × Option Reply) : List Sys → Sys → Sys × Option Reply
  | [], s => (s.setIpc (turn s.shared.ipc).1, (turn s.shared.ipc).2)
  | later :: rest, s =>
    match (turn s.shared.ipc).2 with
    | some reply => (s.setIpc (turn s.shared.ipc).1, some reply)
    | none => ipcLoop turn rest later

def yielded (s : Sys) : Sys := s.setIpc (s.shared.ipc.setSched (ttaskYield s.shared.ipc.sched))

/-- The loop of `TSYS_SLEEP`; the result says whether it ended. -/
def sleepLoop (wake : BitVec 64) : List Sys → Sys → Sys × Bool
  | later, s =>
    if (BitVec.ofNat 64 s.shared.ticks - wake).toInt < 0 then
      match later with
      | [] => (yielded s, false)
      | next :: rest => sleepLoop wake rest next
    else (s, true)

def keyNone : ℤ := -1

def keyboardGetchar (s : Sys) : Sys × ℤ :=
  match s.shared.keys with
  | [] => (s, keyNone)
  | key :: keys => ({ s with shared := { s.shared with keys := keys } }, key)

/-- The loop of `TSYS_READ`: the first key that is there. -/
def keyLoop : List Sys → Sys → Sys × Option ℤ
  | later, s =>
    let c := keyboardGetchar s
    if c.2 = keyNone then
      match later with
      | [] => (yielded c.1, none)
      | next :: rest => keyLoop rest next
    else (c.1, some c.2)

/-! ## The calls -/

def replyCode : Reply → ℤ
  | .failed => -1
  | _ => 0

/-- The end of a call whose result is that of an IPC function. -/
def ipcOutcome (r : Sys × Option Reply) : Outcome :=
  ⟨r.1, r.2.map fun reply => BitVec.ofInt 64 (replyCode reply), r.1, []⟩

/-- The id names an object of a type. -/
def isObject (s : Sys) (id : ℤ) (type : ObjType) : Bool :=
  0 ≤ id ∧ id < tipcMaxObj ∧ s.shared.objType id.toNat = type

def sysWrite (s : Sys) (r : Registers) : Outcome :=
  if r.a1 ≠ 1 ∨ r.a3 ≤ 0 ∨ vmmRangeUser s.mem s.root r.a2 r.rdx.toNat false = false then
    returns s (-1)
  else
    let text := (List.range r.rdx.toNat).map fun i => userByte s (r.a2 + i)
    ⟨{ s with shared := { s.shared with console := s.shared.console ++ text } }, some r.rdx,
      s, readsFrom r.a2 r.rdx.toNat⟩

def sysSleep (s : Sys) (later : List Sys) (r : Registers) : Outcome :=
  if r.a1 < 0 then returns s (-1)
  else
    let w := sleepLoop (BitVec.ofNat 64 s.shared.ticks + r.rdi) later s
    if w.2 then returns w.1 0 else waits w.1

/-- A free slot of the table becomes an object that `init` has set up. -/
def sysInit (s : Sys) (type : ObjType) (init : Kernel → ℕ → Kernel) : Outcome :=
  match (List.range tipcMaxObj).find? fun i => s.shared.objType i = .free with
  | none => returns s (-1)
  | some i =>
    returns { s with shared := { s.shared with
      objType := Function.update s.shared.objType i type
      ipc := init s.shared.ipc (slotObject i) } } i

def tipcMailboxInit (k : Kernel) (mb : ℕ) : Kernel :=
  k.setMailbox mb (tipcCoreMbInit (k.mailbox mb))
def tipcMutexInit (k : Kernel) (mu : ℕ) : Kernel := k.setMutex mu (tipcCoreMutexInit (k.mutex mu))

def sysMbSend (s : Sys) (later : List Sys) (r : Registers) : Outcome :=
  if isObject s r.a1 .mb = false ∨ vmmRangeUser s.mem s.root r.a2 msgBytes false = false then
    returns s (-1)
  else
    let msg := { readMsg s r.a2 with sender := ttaskSelf s.shared.ipc.sched }
    { ipcOutcome (ipcLoop (fun k => tipcSend k (slotObject r.a1.toNat) msg) later s) with
      during := s
      accesses := readsFrom r.a2 msgBytes }

/-- The buffer is validated for reading at the start, and written when there is a message. -/
def sysMbRecv (s : Sys) (later : List Sys) (r : Registers) : Outcome :=
  if isObject s r.a1 .mb = false ∨ vmmRangeUser s.mem s.root r.a2 msgBytes false = false then
    returns s (-1)
  else
    match ipcLoop (fun k => tipcRecv k (slotObject r.a1.toNat)) later s with
    | (s', some (.message msg)) =>
      { returns (writeMsg s' r.a2 msg) 0 with during := s', accesses := writesTo r.a2 msgBytes }
    | w => ipcOutcome w

/-- A call on a mutex. -/
def sysMutex (s : Sys) (later : List Sys) (r : Registers)
    (turn : Kernel → ℕ → Kernel × Option Reply) : Outcome :=
  if isObject s r.a1 .mutex = false then returns s (-1)
  else ipcOutcome (ipcLoop (fun k => turn k (slotObject r.a1.toNat)) later s)

def sysRead (s : Sys) (later : List Sys) (r : Registers) : Outcome :=
  if r.a1 ≠ 0 ∨ r.a3 ≤ 0 ∨ vmmRangeUser s.mem s.root r.a2 r.rdx.toNat true = false then
    returns s (-1)
  else
    match keyLoop later s with
    | (s', none) => waits s'
    | (s', some key) =>
      if key < 0 then returns s' 0
      else { returns (setUserByte s' r.a2 (UInt8.ofNat key.toNat)) 1 with
        during := s'
        accesses := writesTo r.a2 1 }

def sysYield (s : Sys) : List Sys → Outcome
  | [] => waits (yielded s)
  | next :: _ => returns next 0

def syscallHandler (s : Sys) (later : List Sys) (r : Registers) : Outcome :=
  if r.cs.toNat % 4 = 0 then returns s (-1)
  else
    match r.nr with
    | some .write => sysWrite s r
    | some .exit => waits (s.setIpc (s.shared.ipc.setSched (ttaskExit s.shared.ipc.sched)))
    | some .getpid => returns s (ttaskSelf s.shared.ipc.sched)
    | some .yield => sysYield s later
    | some .sleep => sysSleep s later r
    | some .mbInit => sysInit s .mb tipcMailboxInit
    | some .mbSend => sysMbSend s later r
    | some .mbRecv => sysMbRecv s later r
    | some .mutexInit => sysInit s .mutex tipcMutexInit
    | some .mutexLock => sysMutex s later r tipcMutexLock
    | some .mutexUnlock => sysMutex s later r tipcMutexUnlock
    | some .getticks => returns s s.shared.ticks
    | some .read => sysRead s later r
    | none => returns s (-1)

/-! ## What a call may touch -/

/-- A byte the kernel reads is mapped for the user, one it writes is writable too. -/
def Access.Permitted (s : Sys) : Access → Prop
  | .read x => UserMapped s.mem s.root x false
  | .write x => UserMapped s.mem s.root x true

/-- Every access is permitted by the address space that is active when it happens. -/
def Permitted (o : Outcome) : Prop := ∀ a ∈ o.accesses, a.Permitted o.during

/-- The arguments pass the checks of the call. -/
def validates (s : Sys) (r : Registers) : Bool :=
  match r.nr with
  | some .write => r.a1 = 1 ∧ 0 < r.a3 ∧ vmmRangeUser s.mem s.root r.a2 r.rdx.toNat false
  | some .sleep => 0 ≤ r.a1
  | some .mbSend => isObject s r.a1 .mb && vmmRangeUser s.mem s.root r.a2 msgBytes false
  | some .mbRecv => isObject s r.a1 .mb && vmmRangeUser s.mem s.root r.a2 msgBytes false
  | some .mutexLock => isObject s r.a1 .mutex
  | some .mutexUnlock => isObject s r.a1 .mutex
  | some .read => r.a1 = 0 ∧ 0 < r.a3 ∧ vmmRangeUser s.mem s.root r.a2 r.rdx.toNat true
  | none => false
  | _ => true

lemma permitted_readsFrom {s : Sys} {x n : ℕ} (h : vmmRangeUser s.mem s.root x n false = true) :
    ∀ a ∈ readsFrom x n, a.Permitted s := by
  intro a ha
  obtain ⟨i, hi, rfl⟩ := List.mem_map.mp ha
  have := List.mem_range.mp hi
  exact (vmmRangeUser_eq_true _ _ _ _ _).mp h _ (by omega) (by omega)

lemma permitted_writesTo_iff (s : Sys) (x n : ℕ) :
    (∀ a ∈ writesTo x n, a.Permitted s) ↔ vmmRangeUser s.mem s.root x n true = true := by
  rw [vmmRangeUser_eq_true]
  constructor
  · intro h y hy hyn
    have hmem : Access.write (x + (y - x)) ∈ writesTo x n :=
      List.mem_map.mpr ⟨y - x, List.mem_range.mpr (by omega), rfl⟩
    rw [Nat.add_sub_cancel' hy] at hmem
    exact h _ hmem
  · intro h a ha
    obtain ⟨i, hi, rfl⟩ := List.mem_map.mp ha
    have := List.mem_range.mp hi
    exact h _ (by omega) (by omega)

lemma permitted_returns (s : Sys) (v : ℤ) : Permitted (returns s v) := fun _ h => nomatch h

lemma permitted_waits (s : Sys) : Permitted (waits s) := fun _ h => nomatch h

lemma permitted_ipcOutcome (w : Sys × Option Reply) : Permitted (ipcOutcome w) :=
  fun _ h => nomatch h

lemma sysWrite_permitted (s : Sys) (r : Registers) : Permitted (sysWrite s r) := by
  unfold sysWrite
  split_ifs with h
  · exact permitted_returns _ _
  · simp only [not_or, Bool.not_eq_false] at h
    exact permitted_readsFrom h.2.2

lemma sysMbSend_permitted (s : Sys) (later : List Sys) (r : Registers) :
    Permitted (sysMbSend s later r) := by
  unfold sysMbSend
  split_ifs with h
  · exact permitted_returns _ _
  · simp only [not_or, Bool.not_eq_false] at h
    exact permitted_readsFrom h.2

lemma sysMutex_permitted (s : Sys) (later : List Sys) (r : Registers)
    (turn : Kernel → ℕ → Kernel × Option Reply) : Permitted (sysMutex s later r turn) := by
  unfold sysMutex
  split_ifs
  · exact permitted_returns _ _
  · exact permitted_ipcOutcome _

lemma sysInit_permitted (s : Sys) (type : ObjType) (init : Kernel → ℕ → Kernel) :
    Permitted (sysInit s type init) := by
  unfold sysInit
  split <;> exact permitted_returns _ _

lemma sysSleep_permitted (s : Sys) (later : List Sys) (r : Registers) :
    Permitted (sysSleep s later r) := by
  unfold sysSleep
  dsimp only
  split_ifs
  · exact permitted_returns _ _
  · exact permitted_returns _ _
  · exact permitted_waits _

lemma sysYield_permitted (s : Sys) (later : List Sys) : Permitted (sysYield s later) := by
  cases later with
  | nil => exact permitted_waits _
  | cons next rest => exact permitted_returns _ _

/-- The machine in which a call stores its result, and the number of bytes it stores. What a read
stores without having waited is left out. -/
def lateStore (s : Sys) (later : List Sys) (r : Registers) : Option (Sys × ℕ) :=
  match r.nr with
  | some .mbRecv =>
    match ipcLoop (fun k => tipcRecv k (slotObject r.a1.toNat)) later s with
    | (s', some (.message _)) => some (s', msgBytes)
    | _ => none
  | some .read =>
    match keyLoop later s with
    | (s', some key) => if key < 0 ∨ (keyboardGetchar s).2 ≠ keyNone then none else some (s', 1)
    | _ => none
  | _ => none

/-- The bytes are writable in the address space that is active when they are stored. -/
def StoresSafely (s : Sys) (later : List Sys) (r : Registers) : Prop :=
  ∀ p ∈ lateStore s later r, vmmRangeUser p.1.mem p.1.root r.a2 p.2 true = true

lemma keyboardGetchar_space (s : Sys) :
    (keyboardGetchar s).1.mem = s.mem ∧ (keyboardGetchar s).1.root = s.root := by
  unfold keyboardGetchar
  split <;> exact ⟨rfl, rfl⟩

/-- A key that is there is taken at once. -/
lemma keyLoop_of_key {s : Sys} (later : List Sys) (h : (keyboardGetchar s).2 ≠ keyNone) :
    keyLoop later s = ((keyboardGetchar s).1, some (keyboardGetchar s).2) := by
  unfold keyLoop
  exact if_neg h

/-- Of a buffer that is validated for writing only the first byte is written. -/
lemma sysRead_permitted_iff {s : Sys} {r : Registers} (hn : r.nr = some .read)
    (hvalid : validates s r = true) (later : List Sys) :
    Permitted (sysRead s later r) ↔ StoresSafely s later r := by
  simp only [validates, hn, decide_eq_true_eq] at hvalid
  obtain ⟨ha1, ha3, hbuf⟩ := hvalid
  have hpos : 0 < r.rdx.toNat := by
    by_contra h0
    have hzero : r.rdx = 0 := BitVec.eq_of_toNat_eq (by simpa using h0)
    exact absurd ha3 (by rw [Registers.a3, hzero]; decide)
  have hpass : ¬ (r.a1 ≠ 0 ∨ r.a3 ≤ 0 ∨ vmmRangeUser s.mem s.root r.a2 r.rdx.toNat true =
    false) := by
    simp [ha1, ha3, hbuf]
  unfold StoresSafely lateStore sysRead
  rw [hn, if_neg hpass]
  dsimp only
  rcases hloop : keyLoop later s with ⟨s', _ | key⟩
  · exact iff_of_true (permitted_waits _) (by simp)
  · dsimp only
    by_cases hneg : key < 0
    · rw [if_pos hneg, if_pos (Or.inl hneg)]
      exact iff_of_true (permitted_returns _ _) (by simp)
    · rw [if_neg hneg]
      by_cases hkey : (keyboardGetchar s).2 = keyNone
      · rw [if_neg (by simp [hneg, hkey])]
        exact (permitted_writesTo_iff s' r.a2 1).trans (by simp)
      · -- no wait, so the tables are those the buffer was validated with
        rw [if_pos (Or.inr hkey)]
        refine iff_of_true ?_ (by simp)
        rw [keyLoop_of_key later hkey, Prod.mk.injEq] at hloop
        obtain ⟨hmem, hroot⟩ := keyboardGetchar_space s
        refine (permitted_writesTo_iff s' r.a2 1).mpr ((vmmRangeUser_eq_true _ _ _ _ _).mpr ?_)
        rw [← hloop.1, hmem, hroot]
        exact fun x hx hx1 => (vmmRangeUser_eq_true _ _ _ _ _).mp hbuf x hx (by omega)

lemma sysMbRecv_permitted_iff {s : Sys} {r : Registers} (hn : r.nr = some .mbRecv)
    (hvalid : validates s r = true) (later : List Sys) :
    Permitted (sysMbRecv s later r) ↔ StoresSafely s later r := by
  simp only [validates, hn, Bool.and_eq_true] at hvalid
  unfold StoresSafely lateStore sysMbRecv
  rw [hn, if_neg (by simp [hvalid])]
  dsimp only
  split
  · exact (permitted_writesTo_iff _ r.a2 msgBytes).trans (by simp)
  · exact iff_of_true (permitted_ipcOutcome _) (by simp)

/-- A mailbox with one message. -/
def oneMessage : Mailbox :=
  { blankMailbox with ring := (blankMailbox.ring.push blankMsg).getD blankMailbox.ring }

/-- Arguments that fail the checks have no effect. -/
lemma syscallHandler_rejects {s : Sys} {r : Registers} (h : validates s r = false)
    (later : List Sys) : syscallHandler s later r = returns s (-1) := by
  unfold validates at h
  unfold syscallHandler
  split_ifs with hring
  · rfl
  cases hn : r.nr with
  | none => rfl
  | some n =>
    rw [hn] at h
    cases n with
    | write =>
      refine if_pos ?_
      simpa [imp_iff_not_or, or_assoc] using h
    | sleep =>
      refine if_pos ?_
      simpa using h
    | mbSend =>
      refine if_pos ?_
      simpa [imp_iff_not_or] using h
    | mbRecv =>
      refine if_pos ?_
      simpa [imp_iff_not_or] using h
    | mutexLock => exact if_pos h
    | mutexUnlock => exact if_pos h
    | read =>
      refine if_pos ?_
      simpa [imp_iff_not_or, or_assoc] using h
    | exit => exact nomatch h
    | getpid => exact nomatch h
    | yield => exact nomatch h
    | mbInit => exact nomatch h
    | mutexInit => exact nomatch h
    | getticks => exact nomatch h

/-- With arguments that pass the checks, every access is permitted if and only if the store at the
end of the call is. -/
lemma syscallHandler_permitted_iff {s : Sys} {r : Registers} (hring : r.cs.toNat % 4 ≠ 0)
    (hvalid : validates s r = true) (later : List Sys) :
    Permitted (syscallHandler s later r) ↔ StoresSafely s later r := by
  have hother (o : Outcome) (ho : Permitted o) (hn : r.nr ≠ some .mbRecv ∧ r.nr ≠ some .read) :
      Permitted o ↔ StoresSafely s later r := by
    refine iff_of_true ho fun p hp => ?_
    unfold lateStore at hp
    split at hp
    · exact absurd ‹_› hn.1
    · exact absurd ‹_› hn.2
    · simp at hp
  unfold syscallHandler
  rw [if_neg hring]
  cases hn : r.nr with
  | none => exact hother _ (permitted_returns _ _) (by simp [hn])
  | some n =>
    cases n with
    | write => exact hother _ (sysWrite_permitted s r) (by simp [hn])
    | exit => exact hother _ (permitted_waits _) (by simp [hn])
    | getpid => exact hother _ (permitted_returns _ _) (by simp [hn])
    | yield => exact hother _ (sysYield_permitted s later) (by simp [hn])
    | sleep => exact hother _ (sysSleep_permitted s later r) (by simp [hn])
    | mbInit => exact hother _ (sysInit_permitted _ _ _) (by simp [hn])
    | mbSend => exact hother _ (sysMbSend_permitted s later r) (by simp [hn])
    | mbRecv => exact sysMbRecv_permitted_iff hn hvalid later
    | mutexInit => exact hother _ (sysInit_permitted _ _ _) (by simp [hn])
    | mutexLock => exact hother _ (sysMutex_permitted _ _ _ _) (by simp [hn])
    | mutexUnlock => exact hother _ (sysMutex_permitted _ _ _ _) (by simp [hn])
    | getticks => exact hother _ (permitted_returns _ _) (by simp [hn])
    | read => exact sysRead_permitted_iff hn hvalid later

/-- Tables for one user page, at `0x8000000000` on the frame `0x5000`, without the write bit. -/
def readOnlyMemory : Memory :=
  let m := PageTable.setEntry (fun _ => 0) 0x1000 1 0x2007
  let m := PageTable.setEntry (PageTable.setEntry m 0x2000 0 0x3007) 0x3000 0 0x4007
  PageTable.setEntry m 0x4000 0 0x5005

/-- A mailbox with a message in the first slot of the table. -/
def receivingSys : Sys where
  shared := {
    ipc := ⟨ttaskInit, fun _ => oneMessage, fun _ => blankMutex⟩
    objType := fun i => if i = 0 then .mb else .free
    ticks := 0
    keys := []
    console := [] }
  mem := readOnlyMemory
  root := 0x1000

def receiveRegisters : Registers := ⟨0x1B, 8, 0, 0x8000000000, 0⟩

end TraitOS.Tsys
