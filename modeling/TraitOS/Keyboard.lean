import TraitOS.RingBuffer
import TraitOS.Runs

/-!
# The keyboard ring

`key_buffer_push` runs in the keyboard interrupt and is not interrupted itself.
`keyboard_getchar` runs in tasks that can be preempted between its statements, and both
the shell and a task in a read call run it. Keys are of any type, so that two presses of
one key can be told apart; what was stored and what was returned so far is recorded
beside the ring.
-/
namespace TraitOS.Keyboard
open RingBuffer Runs

def keyBufferSize : ℕ := 256

/-- Where a task is in `keyboard_getchar`: outside, behind the test of the first
statement, or with the key it read. -/
inductive Pc (α : Type*) where
  | outside
  | tested
  | holding (c : α)
deriving DecidableEq, Repr

structure Keyboard (ι α : Type*) where
  buffer : ℕ → α
  head : ℕ
  tail : ℕ
  head_lt : head < keyBufferSize
  tail_lt : tail < keyBufferSize
  pc : ι → Pc α
  stored : List α
  returned : List α

inductive Action (ι α : Type*) where
  | press (c : α)
  | run (task : ι)
deriving Repr

variable {ι α : Type*}

lemma next_lt (i : ℕ) : (i + 1) % keyBufferSize < keyBufferSize := Nat.mod_lt _ (by decide)

/-- The ring is full, so the key is dropped. -/
def Keyboard.full (s : Keyboard ι α) : Bool := (s.tail + 1) % keyBufferSize = s.head

def keyBufferPush (s : Keyboard ι α) (c : α) : Keyboard ι α :=
  if s.full then s
  else { s with
    buffer := Function.update s.buffer s.tail c
    tail := (s.tail + 1) % keyBufferSize
    tail_lt := next_lt s.tail
    stored := s.stored ++ [c] }

/-- One statement of `keyboard_getchar`: the test, the read of the slot, the advance of
the head with the return. -/
def keyboardGetchar [DecidableEq ι] (s : Keyboard ι α) (task : ι) : Keyboard ι α :=
  match s.pc task with
  | .outside => if s.head = s.tail then s else { s with pc := Function.update s.pc task .tested }
  | .tested => { s with pc := Function.update s.pc task (.holding (s.buffer s.head)) }
  | .holding c => { s with
      head := (s.head + 1) % keyBufferSize
      head_lt := next_lt s.head
      pc := Function.update s.pc task .outside
      returned := s.returned ++ [c] }

def step [DecidableEq ι] (s : Keyboard ι α) : Action ι α → Option (Keyboard ι α)
  | .press c => some (keyBufferPush s c)
  | .run task => some (keyboardGetchar s task)

/-- The number of keys in the ring, from its two indices. -/
def Keyboard.pending (s : Keyboard ι α) : ℕ := (s.tail + keyBufferSize - s.head) % keyBufferSize

def keyboardInit (buffer : ℕ → α) : Keyboard ι α where
  buffer := buffer
  head := 0
  tail := 0
  head_lt := by decide
  tail_lt := by decide
  pc := fun _ => .outside
  stored := []
  returned := []

/-- A task gets past the test of `keyboard_getchar` only while no other task is inside. -/
def Alone [Fintype ι] (s : Keyboard ι α) : Action ι α → Prop
  | .press _ => True
  | .run task => s.head ≠ s.tail → s.pc task matches .outside → ∀ other, s.pc other matches .outside

instance [Fintype ι] (s : Keyboard ι α) : (a : Action ι α) → Decidable (Alone s a)
  | .press _ => inferInstanceAs (Decidable True)
  | .run _ => inferInstanceAs (Decidable (_ → _ → ∀ _, _))

/-! ## The ring of the two indices -/

def Keyboard.ring (s : Keyboard ι α) : Ring α keyBufferSize :=
  ⟨s.buffer, s.head, s.pending, s.head_lt, (Nat.mod_lt _ (by decide)).le⟩

lemma pending_lt (s : Keyboard ι α) : s.pending < keyBufferSize := Nat.mod_lt _ (by decide)

lemma tail_eq (s : Keyboard ι α) : (s.head + s.pending) % keyBufferSize = s.tail := by
  have hh := s.head_lt
  have ht := s.tail_lt
  unfold Keyboard.pending keyBufferSize at *
  omega

lemma full_iff (s : Keyboard ι α) : s.full = true ↔ s.pending = 255 := by
  have hh := s.head_lt
  have ht := s.tail_lt
  unfold Keyboard.full Keyboard.pending keyBufferSize at *
  rw [decide_eq_true_eq]
  omega

lemma empty_iff (s : Keyboard ι α) : s.head = s.tail ↔ s.pending = 0 := by
  have hh := s.head_lt
  have ht := s.tail_lt
  unfold Keyboard.pending keyBufferSize at *
  omega

/-- Storing a key pushes it to the ring. -/
lemma ring_push {s : Keyboard ι α} (c : α) (hfull : s.full = false) :
    s.ring.push c = some (keyBufferPush s c).ring := by
  have hh := s.head_lt
  have ht := s.tail_lt
  have hp := pending_lt s
  have hcount : (keyBufferPush s c).pending = s.pending + 1 := by
    have hne : s.pending ≠ 255 := fun h =>
      Bool.false_ne_true (hfull.symm.trans ((full_iff s).mpr h))
    simp only [keyBufferPush, hfull, Bool.false_eq_true, if_false]
    unfold Keyboard.pending keyBufferSize at *
    dsimp only
    omega
  unfold Ring.push
  rw [dif_pos (show s.ring.count < keyBufferSize from hp)]
  congr 1
  have hslot : (s.ring.head + s.ring.count) % keyBufferSize = s.tail := tail_eq s
  unfold Keyboard.ring at *
  simp only [hslot, hcount]
  simp [keyBufferPush, hfull]

/-- Advancing the head pops the ring. -/
lemma ring_pop [DecidableEq ι] {s : Keyboard ι α} {task : ι} {c : α} (hpc : s.pc task = .holding c)
    (hne : s.pending ≠ 0) : s.ring.pop = some (s.buffer s.head, (keyboardGetchar s task).ring) := by
  have hh := s.head_lt
  have ht := s.tail_lt
  have hcount : (keyboardGetchar s task).pending = s.pending - 1 := by
    simp only [keyboardGetchar, hpc]
    unfold Keyboard.pending keyBufferSize at *
    dsimp only
    omega
  unfold Ring.pop
  rw [if_neg (show s.ring.count ≠ 0 from hne)]
  unfold Keyboard.ring at *
  simp only [hcount]
  simp [keyboardGetchar, hpc]

lemma contents_eq_nil_iff (s : Keyboard ι α) : s.ring.contents = [] ↔ s.pending = 0 := by
  rw [← List.length_eq_zero_iff, Ring.length_contents]
  exact Iff.rfl

/-! ## Runs with one consumer inside at a time -/

/-- The keys stored are those returned and then those in the ring; a task inside
`keyboard_getchar` is the only one, and has or is about to read the oldest key. -/
structure Fifo (s : Keyboard ι α) : Prop where
  queue : s.stored = s.returned ++ s.ring.contents
  tested : ∀ task, s.pc task ≠ .outside → s.ring.contents ≠ []
  holding : ∀ task c, s.pc task = .holding c → s.ring.contents.head? = some c
  single : ∀ task task', s.pc task ≠ .outside → s.pc task' ≠ .outside → task = task'

lemma Fifo.push {s : Keyboard ι α} (h : Fifo s) (c : α) : Fifo (keyBufferPush s c) := by
  cases hfull : s.full with
  | true =>
    simp only [keyBufferPush, hfull, if_true]
    exact h
  | false =>
    have hcontents := Ring.push_contents (ring_push c hfull)
    have hpc : (keyBufferPush s c).pc = s.pc := by simp [keyBufferPush, hfull]
    refine ⟨?_, ?_, ?_, ?_⟩
    · rw [hcontents, ← List.append_assoc]
      simp [keyBufferPush, hfull, h.queue]
    · simp [hcontents]
    · intro task d hd
      rw [hpc] at hd
      rw [hcontents, List.head?_append_of_ne_nil _ (h.tested task (by rw [hd]; nofun))]
      exact h.holding task d hd
    · rw [hpc]
      exact h.single

lemma head?_contents {s : Keyboard ι α} (hne : s.pending ≠ 0) :
    s.ring.contents.head? = some (s.buffer s.head) := by
  obtain ⟨k, hk⟩ := Nat.exists_eq_succ_of_ne_zero hne
  simp [Ring.contents, Keyboard.ring, hk, List.range_succ_eq_map, Nat.mod_eq_of_lt s.head_lt]

theorem Fifo.getchar [DecidableEq ι] {s : Keyboard ι α} (h : Fifo s) (task : ι)
    (halone : s.head ≠ s.tail → s.pc task = .outside → ∀ other, s.pc other = .outside) :
    Fifo (keyboardGetchar s task) := by
  cases hpc : s.pc task with
  | outside =>
    by_cases hempty : s.head = s.tail
    · simp only [keyboardGetchar, hpc, if_pos hempty]
      exact h
    · have hout := halone hempty hpc
      have hne : s.ring.contents ≠ [] := fun hnil =>
        hempty ((empty_iff s).mpr ((contents_eq_nil_iff s).mp hnil))
      have honly : ∀ t, (Function.update s.pc task .tested) t ≠ .outside → t = task := by
        intro t ht
        by_contra hne'
        exact ht (by rw [Function.update_of_ne hne']; exact hout t)
      simp only [keyboardGetchar, hpc, if_neg hempty]
      refine ⟨h.queue, fun _ _ => hne, fun t c hc => ?_, fun t t' ht ht' =>
        (honly t ht).trans (honly t' ht').symm⟩
      dsimp only at hc
      have := honly t (by rw [hc]; nofun)
      subst this
      rw [Function.update_self] at hc
      exact nomatch hc
  | tested =>
    have hne : s.ring.contents ≠ [] := h.tested task (by rw [hpc]; nofun)
    have hpend : s.pending ≠ 0 := fun h0 => hne ((contents_eq_nil_iff s).mpr h0)
    have honly : ∀ t, (Function.update s.pc task (.holding (s.buffer s.head))) t ≠ .outside →
      t = task := by
      intro t ht
      by_contra hne'
      rw [Function.update_of_ne hne'] at ht
      exact hne' (h.single t task ht (by rw [hpc]; nofun))
    simp only [keyboardGetchar, hpc]
    refine ⟨h.queue, fun _ _ => hne, fun t c hc => ?_, fun t t' ht ht' =>
      (honly t ht).trans (honly t' ht').symm⟩
    dsimp only at hc
    have := honly t (by rw [hc]; nofun)
    subst this
    rw [Function.update_self] at hc
    obtain rfl := Pc.holding.inj hc
    exact head?_contents hpend
  | holding c =>
    have hne : s.ring.contents ≠ [] := h.tested task (by rw [hpc]; nofun)
    have hpend : s.pending ≠ 0 := fun h0 => hne ((contents_eq_nil_iff s).mpr h0)
    have hhead := Option.some.inj ((head?_contents hpend).symm.trans (h.holding task c hpc))
    have hcontents := Ring.pop_contents (ring_pop hpc hpend)
    have hout : ∀ t, (keyboardGetchar s task).pc t = .outside := by
      intro t
      simp only [keyboardGetchar, hpc]
      by_cases ht : t = task
      · rw [ht, Function.update_self]
      · rw [Function.update_of_ne ht]
        by_contra hin
        exact ht (h.single t task hin (by rw [hpc]; nofun))
    refine ⟨?_, fun t ht => absurd (hout t) ht, fun t d hd => ?_, fun t _ ht => absurd (hout t) ht⟩
    · rw [hhead] at hcontents
      have hq := h.queue
      rw [hcontents] at hq
      simp only [keyboardGetchar, hpc] at *
      simpa using hq
    · rw [hout t] at hd
      exact nomatch hd

lemma Fifo.init (buffer : ℕ → α) : Fifo (keyboardInit buffer : Keyboard ι α) :=
  ⟨by simp [keyboardInit, Keyboard.ring, Ring.contents, Keyboard.pending], fun _ h => absurd rfl h,
    fun _ _ => nofun, fun _ _ h => absurd rfl h⟩

/-- While one task at a time is inside `keyboard_getchar`, keys come back in the order in
which they were stored and each at most once, the indices count the keys stored and not
returned, and a key is dropped exactly when these are 255. -/
theorem keyboard_fifo [DecidableEq ι] [Fintype ι] (buffer : ℕ → α) (actions : List (Action ι α))
    (s : Keyboard ι α) (hrun : exec (guarded step Alone) (keyboardInit buffer) actions = some s) :
    s.returned <+: s.stored ∧ s.returned.length + s.pending = s.stored.length ∧
      ∀ c, (keyBufferPush s c).stored = s.stored ↔ s.returned.length + 255 = s.stored.length := by
  have hinv : Fifo s := by
    refine exec_invariant ?_ actions (Fifo.init buffer) hrun
    intro s a t h hstep
    obtain ⟨halone, hstep⟩ := (guarded_eq_some ..).mp hstep
    cases a with
    | press c => exact Option.some.inj hstep ▸ h.push c
    | run task =>
      refine Option.some.inj hstep ▸ h.getchar task fun hne hout other => ?_
      have := halone hne (by rw [hout]) other
      cases hpc : s.pc other <;> simp_all
  have hcount : s.returned.length + s.pending = s.stored.length := by
    rw [hinv.queue, List.length_append, Ring.length_contents]
    rfl
  refine ⟨⟨_, hinv.queue.symm⟩, hcount, fun c => ?_⟩
  have hfull := full_iff s
  cases h : s.full with
  | true =>
    have := hfull.mp h
    simp [keyBufferPush, h, ← hcount, this]
  | false =>
    have hne : s.pending ≠ 255 := fun he => Bool.false_ne_true (h.symm.trans (hfull.mpr he))
    simp [keyBufferPush, h, ← hcount, Ne.symm hne]

/-- The shell takes a key, then a second task takes the next one. -/
theorem keyboard_fifo_small :
    ∃ s, exec (guarded step Alone) (keyboardInit (fun _ => 0) : Keyboard Bool UInt8)
        [.press 97, .press 98, .run true, .run true, .run true, .run false, .run false,
          .run false] = some s ∧
      s.returned = [97, 98] ∧ s.returned <+: s.stored :=
  ⟨_, rfl, rfl, (keyboard_fifo (fun _ => 0)
    [.press 97, .press 98, .run true, .run true, .run true, .run false, .run false,
      .run false] _ rfl).1⟩

/-- Both tasks read the slot before either advances the head: the key comes back twice,
and the head has overtaken the tail. -/
theorem key_returned_twice :
    ∃ s, exec step (keyboardInit (fun _ => 0) : Keyboard Bool UInt8)
        [.press 97, .run true, .run true, .run false, .run false, .run false, .run true] = some s ∧
      s.stored = [97] ∧ s.returned = [97, 97] ∧ s.pending = 255 :=
  ⟨_, rfl, rfl, rfl, rfl⟩

end TraitOS.Keyboard
