import TraitOS.CyclicTour
import TraitOS.Ttask

/-!
# Picks and timeslices

The pick over the task table, for tables of any size, and what it makes of the slice of
the running task. The scan starts behind the running slot and a later candidate wins only
with a higher priority, so the running task keeps the CPU against lower ranks only: a READY
neighbour of the same rank is met first.
-/
namespace TraitOS.Ttask
open MachineWord CyclicTour

lemma scan_ends_at_current {current count : ℕ} (h : current < count) :
    (current + 1 + (count - 1)) % count = current := by
  rw [show current + 1 + (count - 1) = current + count by omega, Nat.add_mod_right,
    Nat.mod_eq_of_lt h]

/-- The pick is `-1` exactly when no slot but the excluded one is READY. Otherwise it is the
first READY slot of the highest rank on a scan that begins behind `current` and ends with
it. -/
theorem ttaskPickIndexEx_exact (current count : ℕ) (state : ℕ → TaskState) (prio : ℕ → ℕ)
    (exclude : ℤ) (hcur : current < count) :
    (ttaskPickIndexEx current state prio count exclude = -1 ↔
      ∀ idx < count, (idx : ℤ) ≠ exclude → state idx ≠ .ready) ∧
    (ttaskPickIndexEx current state prio count exclude ≠ -1 →
      ∃ j < count, ∃ idx < count, idx = (current + 1 + j) % count ∧
        ttaskPickIndexEx current state prio count exclude = idx ∧ (idx : ℤ) ≠ exclude ∧
          state idx = .ready ∧
        (∀ other < count, (other : ℤ) ≠ exclude → state other = .ready → prio other ≤ prio idx) ∧
        ∀ i < j, (((current + 1 + i) % count : ℕ) : ℤ) ≠ exclude →
          state ((current + 1 + i) % count) = .ready →
          prio ((current + 1 + i) % count) < prio idx) ∧
    (current + 1 + (count - 1)) % count = current := by
  refine ⟨?_, ?_, scan_ends_at_current hcur⟩
  · obtain ⟨hpick, hnone⟩ | ⟨_, _, idx, hlt, _, hpick, helig, _, _⟩ :=
      ttaskPickIndexEx_spec current state prio (Nat.zero_lt_of_lt hcur) exclude
    · exact iff_of_true hpick fun idx hidx hne hready => hnone idx hidx ⟨hne, hready⟩
    · exact iff_of_false (by omega) fun h => h idx hlt helig.1 helig.2
  · intro hpick
    obtain ⟨hnone, _⟩ | ⟨j, hj, idx, hlt, hidx, heq, helig, hmax, hfirst⟩ :=
      ttaskPickIndexEx_spec current state prio (Nat.zero_lt_of_lt hcur) exclude
    · exact absurd hnone hpick
    · exact ⟨j, hj, idx, hlt, hidx, heq, helig.1, helig.2, fun other ho hne hr =>
        hmax other ho ⟨hne, hr⟩, fun i hi hne hr => hfirst i hi ⟨hne, hr⟩⟩

/-- Three slots of one rank, the last of which runs: the first one is picked. -/
theorem ttaskPickIndexEx_exact_three :
    ttaskPickIndexEx 2 (fun _ => .ready) (fun _ => 1) 3 (-1) ≠ -1 ∧
      ∃ j : ℕ, j < 3 ∧ ∃ idx : ℕ, idx < 3 ∧ idx = (2 + 1 + j) % 3 ∧
        ttaskPickIndexEx 2 (fun _ => .ready) (fun _ => 1) 3 (-1) = idx := by
  have hpick : ttaskPickIndexEx 2 (fun _ => .ready) (fun _ => 1) 3 (-1) ≠ -1 := by decide
  obtain ⟨j, hj, idx, hlt, hidx, heq, -⟩ :=
    (ttaskPickIndexEx_exact 2 3 (fun _ => .ready) (fun _ => 1) (-1) (by decide)).2.1 hpick
  exact ⟨hpick, j, hj, idx, hlt, hidx, heq⟩

/-! ## Round robin -/

def ttaskPickIndex (current : ℕ) (state : ℕ → TaskState) (prio : ℕ → ℕ) (count : ℕ) : ℤ :=
  ttaskPickIndexEx current state prio count (-1)

def ttaskReadyCountEx (state : ℕ → TaskState) (count : ℕ) : ℕ :=
  (List.range count).foldl (fun n i => if state i = .ready then n + 1 else n) 0

lemma ttaskReadyCountEx_eq (state : ℕ → TaskState) (count : ℕ) :
    ttaskReadyCountEx state count = Nat.count (fun i => state i = .ready) count := by
  induction count with
  | zero => rfl
  | succ count ih =>
    have hstep : ttaskReadyCountEx state (count + 1) =
        if state count = .ready then ttaskReadyCountEx state count + 1
          else ttaskReadyCountEx state count := by
      simp only [ttaskReadyCountEx, List.range_succ, List.foldl_append, List.foldl_cons,
        List.foldl_nil]
    rw [hstep, ih, Nat.count_succ]
    split_ifs <;> rfl

/-- All READY tasks have the same rank. -/
def OneRank (state : ℕ → TaskState) (prio : ℕ → ℕ) (count : ℕ) : Prop :=
  ∀ i < count, ∀ j < count, state i = .ready → state j = .ready → prio i = prio j

/-- Among equals the pick is the next READY slot. -/
lemma ttaskPickIndex_next {current count : ℕ} {state : ℕ → TaskState} {prio : ℕ → ℕ}
    (hrank : OneRank state prio count) (hcur : current < count) (hready : state current = .ready) :
    ∃ j < count, ttaskPickIndex current state prio count = ((current + 1 + j) % count : ℕ) ∧
      state ((current + 1 + j) % count) = .ready ∧ ∀ i < j, state ((current + 1 + i) % count) ≠
        .ready := by
  have hpos := Nat.zero_lt_of_lt hcur
  obtain ⟨_, hnone⟩ | ⟨j, hj, idx, hlt, rfl, heq, helig, _, hfirst⟩ :=
    ttaskPickIndexEx_spec current state prio hpos (-1)
  · exact absurd ⟨by omega, hready⟩ (hnone current hcur)
  · refine ⟨j, hj, heq, helig.2, fun i hi hr => ?_⟩
    have hless := hfirst i hi ⟨by omega, hr⟩
    have hsame := hrank _ (Nat.mod_lt _ hpos) _ hlt hr helig.2
    omega

/-- One pick after the other, as an index. -/
def picked (state : ℕ → TaskState) (prio : ℕ → ℕ) (count current : ℕ) : ℕ :=
  (ttaskPickIndex current state prio count).toNat

lemma picked_follows {count : ℕ} {state : ℕ → TaskState} {prio : ℕ → ℕ}
    (hrank : OneRank state prio count) :
    Follows count (fun i => state i = .ready) (picked state prio count) := by
  intro c hc hr
  obtain ⟨j, hj, heq, hready, hnone⟩ := ttaskPickIndex_next hrank hc hr
  exact ⟨j, hj, by rw [picked, heq, Int.toNat_natCast], hready, hnone⟩

/-- Picking again and again among READY tasks of one rank: every pick is the next READY slot
of the cycle, each of them is met once in cyclic order, and the tour ends where it began
after as many picks as `ttask_ready_count_ex` counts. -/
theorem roundRobin_visits_all (current count : ℕ) (state : ℕ → TaskState) (prio : ℕ → ℕ)
    (hrank : OneRank state prio count) (hcur : current < count) (hready : state current = .ready) :
    (∀ k, ttaskPickIndex ((picked state prio count)^[k] current) state prio count =
      ((picked state prio count)^[k + 1] current : ℕ)) ∧
    (picked state prio count)^[ttaskReadyCountEx state count] current = current ∧
    (∀ k, (picked state prio count)^[k] current < count ∧
      state ((picked state prio count)^[k] current) = .ready) ∧
    (∀ i < count, state i = .ready →
      ∃! k, k < ttaskReadyCountEx state count ∧ (picked state prio count)^[k] current = i) ∧
    ∀ k l, k < l → l < ttaskReadyCountEx state count →
      offset count current ((picked state prio count)^[k] current) <
        offset count current ((picked state prio count)^[l] current) := by
  rw [ttaskReadyCountEx_eq]
  obtain ⟨hback, hmarked, honce, horder⟩ := (picked_follows hrank).tour hcur hready
  refine ⟨fun k => ?_, hback, hmarked, honce, horder⟩
  obtain ⟨hlt, hr⟩ := hmarked k
  obtain ⟨j, _, heq, _⟩ := ttaskPickIndex_next hrank hlt hr
  rw [Function.iterate_succ_apply', picked, heq, Int.toNat_natCast]

/-- Slots 0, 2 and 3 of five are READY: from slot 2 the tour takes three picks. -/
theorem roundRobin_visits_three :
    (picked (fun i => if i = 1 ∨ i = 4 then .blocked else .ready) (fun _ => 1) 5)^[3] 2 = 2 :=
  (roundRobin_visits_all 2 5 (fun i => if i = 1 ∨ i = 4 then .blocked else .ready) (fun _ => 1)
    (fun _ _ _ _ _ _ => rfl) (by decide) (by decide)).2.1

/-! ## Timeslices -/

/-- No READY task reaches the rank of the running one. -/
def Outranks (s : Sched) : Prop :=
  ∀ i < maxTasks, i ≠ s.current → s.state i = .ready →
    (s.tasks i).priority < (s.tasks s.current).priority

/-- A running task with ticks left keeps the CPU exactly when it outranks all others. -/
lemma ttaskPickNext_eq_current_iff {s : Sched} (hready : s.state s.current = .ready)
    (hslice : (s.tasks s.current).slice ≠ 0) : ttaskPickNext s = s.current ↔ Outranks s := by
  have hpick : pickIndex s =
    ttaskPickIndexEx s.current s.state (fun i => (s.tasks i).priority) maxTasks (-1) := by
    rw [pickIndex, if_neg hslice]
  have helig (i : ℕ) (hr : s.state i = .ready) : Eligible s.state (-1) i := ⟨by omega, hr⟩
  obtain ⟨_, hnone⟩ | ⟨j, hj, idx, hlt, hidx, heq, hel, hmax, hfirst⟩ :=
    ttaskPickIndexEx_spec s.current s.state (fun i => (s.tasks i).priority) (show 0 <
      maxTasks by decide) (-1)
  · exact absurd (helig _ hready) (hnone _ s.current_lt)
  have hnext : ttaskPickNext s = idx := by simp [ttaskPickNext, hpick, heq]
  rw [hnext]
  constructor
  · -- the running slot comes last, so all others were met before it
    intro hcur i hi hne hr
    obtain ⟨k, hk, hpos⟩ := exists_scan_position s.current hi
    have hlast : k < j := by
      by_contra hle
      have hjk : j ≠ k := fun h => hne (by rw [← hpos, ← h, ← hidx, hcur])
      have hmod : (s.current + 1 + j) % maxTasks = s.current := by rw [← hidx, hcur]
      have hcurlt := s.current_lt
      unfold maxTasks at *
      omega
    have hbelow := hfirst k hlast (hpos ▸ helig i hr)
    rw [hpos, hcur] at hbelow
    exact hbelow
  · intro hout
    by_contra hne
    exact absurd (hmax _ s.current_lt (helig _ hready)) (not_le.mpr (hout idx hlt hne hel.2))

/-- The table when the tick has been charged to the running task. -/
def charged (s : Sched) : Sched :=
  s.setTask s.current { s.tasks s.current with
    ticks := incr32 (s.tasks s.current).ticks
    slice := (s.tasks s.current).slice - 1 }

lemma charged_state (s : Sched) (i : ℕ) : (charged s).state i = s.state i := by
  rw [charged, Sched.setTask_state]
  split_ifs with h
  · rw [h]
    rfl
  · rfl

lemma charged_priority (s : Sched) (i : ℕ) : ((charged s).tasks i).priority =
    (s.tasks i).priority := by
  by_cases h : i = s.current
  · rw [h, charged, Sched.setTask_tasks_self]
  · rw [charged, Sched.setTask_tasks_of_ne _ _ h]

lemma outranks_charged (s : Sched) : Outranks (charged s) ↔ Outranks s := by
  have hcur : (charged s).current = s.current := rfl
  simp only [Outranks, charged_state, charged_priority, hcur]

lemma ttaskTick_of_kept {s : Sched} (h : ttaskPickNext (charged s) = s.current) : ttaskTick s =
    charged s := by
  have hcur : (charged s).current = s.current := rfl
  unfold ttaskTick ttaskPickSwitch
  exact if_pos (h.trans hcur.symm)

/-- Between two ticks the rest of the table may change, but not who runs nor their record. -/
def SameRunning (s t : Sched) : Prop :=
  t.current = s.current ∧ t.tasks t.current = s.tasks s.current

lemma SameRunning.state {s t : Sched} (h : SameRunning s t) : t.state t.current =
    s.state s.current := by
  rw [Sched.state, h.2]
  rfl

lemma ttaskTick_keeps {s : Sched} (hready : s.state s.current = .ready)
    (hslice : 2 ≤ (s.tasks s.current).slice) (hout : Outranks s) :
    (ttaskTick s).current = s.current ∧
      ((ttaskTick s).tasks s.current).slice = (s.tasks s.current).slice - 1 ∧
      (ttaskTick s).state s.current = .ready := by
  have hself : ((charged s).tasks s.current).slice = (s.tasks s.current).slice - 1 := by
    rw [charged, Sched.setTask_tasks_self]
  have hnonzero : ((charged s).tasks (charged s).current).slice ≠ 0 := by
    rw [show (charged s).current = s.current from rfl, hself]
    omega
  have hkept := (ttaskPickNext_eq_current_iff ((charged_state s _).trans hready) hnonzero).mpr
    ((outranks_charged s).mpr hout)
  rw [ttaskTick_of_kept hkept]
  exact ⟨rfl, hself, (charged_state s _).trans hready⟩

/-- Ticks in a row: as long as the slice lasts and nobody reaches its rank, the task runs. -/
lemma ticks_keep (f : ℕ → Sched) (hready : (f 0).state (f 0).current = .ready) :
    ∀ n < ((f 0).tasks (f 0).current).slice, (∀ k < n, Outranks (f k) ∧
      SameRunning (ttaskTick (f k)) (f (k + 1))) → (f n).current = (f 0).current ∧
        ((f n).tasks (f n).current).slice = ((f 0).tasks (f 0).current).slice - n ∧
        (f n).state (f n).current = .ready := by
  intro n
  induction n with
  | zero => exact fun _ _ => ⟨rfl, rfl, hready⟩
  | succ n ih =>
    intro hn hall
    obtain ⟨hcur, hslice, hr⟩ := ih (by omega) fun k hk => hall k (by omega)
    obtain ⟨hout, hsame⟩ := hall n (Nat.lt_succ_self n)
    obtain ⟨hkept, hless, hstill⟩ := ttaskTick_keeps hr (by omega) hout
    refine ⟨hsame.1.trans (hkept.trans hcur), ?_, ?_⟩
    · rw [hsame.2, hkept, hless]
      omega
    · rw [hsame.state, hkept]
      exact hstill

/-- A tick leaves the running task on the CPU, with its slice reduced by one, exactly when no
other READY task has its rank; then it runs until its slice is used up. -/
theorem timeslice_honoured_iff (s : Sched) (hready : s.state s.current = .ready)
    (hslice : 2 ≤ (s.tasks s.current).slice)
    (hrank : ∀ i < maxTasks, i ≠ s.current → s.state i = .ready →
      (s.tasks i).priority ≤ (s.tasks s.current).priority) :
    ((ttaskTick s).current = s.current ∧
        ((ttaskTick s).tasks s.current).slice = (s.tasks s.current).slice - 1 ↔
      ∀ i < maxTasks, i ≠ s.current → s.state i = .ready →
        (s.tasks i).priority ≠ (s.tasks s.current).priority) ∧
    ∀ f : ℕ → Sched, f 0 = s → ∀ n < (s.tasks s.current).slice,
      (∀ k < n, Outranks (f k) ∧ SameRunning (ttaskTick (f k)) (f (k + 1))) →
      (f n).current = s.current ∧ ((f n).tasks (f n).current).slice =
        (s.tasks s.current).slice - n := by
  refine ⟨⟨fun ⟨hkept, _⟩ i hi hne hr => ?_, fun hties => ?_⟩, ?_⟩
  · have hself : ((charged s).tasks (charged s).current).slice ≠ 0 := by
      rw [charged, Sched.setTask_current, Sched.setTask_tasks_self]
      dsimp only
      omega
    have hout := (ttaskPickNext_eq_current_iff ((charged_state s _).trans hready) hself).mp
      ((ttaskPickSwitch_current (charged s)).symm.trans hkept)
    exact ((outranks_charged s).mp hout i hi hne hr).ne
  · have hout : Outranks s := fun i hi hne hr =>
      lt_of_le_of_ne (hrank i hi hne hr) (hties i hi hne hr)
    obtain ⟨hkept, hless, _⟩ := ttaskTick_keeps hready hslice hout
    exact ⟨hkept, hless⟩
  · intro f hf n hn hall
    subst hf
    obtain ⟨hcur, hleft, _⟩ := ticks_keep f hready n hn hall
    exact ⟨hcur, hleft⟩

/-- Two READY tasks; the first one, of rank 2, runs with four ticks left. -/
def twoReady (other : ℕ) : Sched where
  tasks := fun i =>
    if i = 1 then { blank with state := .ready, priority := 2, slice := 4 }
    else if i = 2 then { blank with state := .ready, priority := other, slice := 4 }
    else blank
  current := 1
  current_lt := by decide
  totalSwitches := 0
  totalBlocks := 0
  totalWakes := 0

theorem timeslice_honoured_lower_rank :
    (ttaskTick (twoReady 1)).current = 1 ∧ ((ttaskTick (twoReady 1)).tasks 1).slice = 3 :=
  (timeslice_honoured_iff (twoReady 1) (by decide) (by decide) (by decide)).1.mpr (by decide)

/-- A neighbour of the same rank takes the CPU at the next tick. -/
theorem equal_rank_preempts :
    (twoReady 2).state 1 = .ready ∧ ((twoReady 2).tasks 1).slice = 4 ∧
      (∀ i < maxTasks, i ≠ 1 → (twoReady 2).state i = .ready →
        ((twoReady 2).tasks i).priority ≤ ((twoReady 2).tasks 1).priority) ∧
      (ttaskTick (twoReady 2)).current = 2 := by
  decide

end TraitOS.Ttask
