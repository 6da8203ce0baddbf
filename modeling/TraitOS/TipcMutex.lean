import TraitOS.TipcSpec

/-!
# Mutual exclusion of the recursive mutex

The history of finished calls says how many locks of a mutex a task has taken
and given back. The owner and depth fields always agree with it, however waiting
tasks are woken, overtaken and queued again.
-/
namespace TraitOS.Tipc
open MachineWord Ttask Runs

variable {log : List Event}

/-- Successful calls `c` of task `t`. -/
def successes (c : Call) (t : ℕ) (log : List Event) : ℕ := log.count ⟨t, c, .ok⟩

def locks (mu t : ℕ) (log : List Event) : ℕ := successes (.lock mu) t log

def unlocks (mu t : ℕ) (log : List Event) : ℕ := successes (.unlock mu) t log

theorem successes_append (c : Call) (t : ℕ) (log : List Event) (e : Event) :
    successes c t (log ++ [e]) = successes c t log + if e = ⟨t, c, .ok⟩ then 1 else 0 := by
  unfold successes
  rw [List.count_append, List.count_singleton]
  simp only [beq_iff_eq]

/-- The fields of one mutex agree with the history: nobody holds it and it is
free, or one task does and depth counts its locks. -/
def Held (owner depth : ℕ) (log : List Event) (mu : ℕ) : Prop :=
  (owner = tipcNone ∧ depth = 0 ∧ ∀ u, locks mu u log = unlocks mu u log) ∨
    ∃ t < maxTasks, owner = t ∧ 0 < depth ∧ depth < 2 ^ 32 ∧
      locks mu t log = unlocks mu t log + depth ∧ ∀ u, u ≠ t → locks mu u log = unlocks mu u log

def MutexInv (mu : ℕ) (s : SpecSystem) : Prop := Held (s.view.owner mu) (s.view.depth mu) s.log mu

/-- The discipline of the tasks: none exits while holding the mutex, and none
takes its lock so often that the count would reach `2 ^ 32`. -/
def disciplined (mu : ℕ) (s : System) : Action → Bool
  | .exit t => locks mu t s.log ≤ unlocks mu t s.log
  | .run t => s.pending t ≠ some (.lock mu) ∨
      locks mu t s.log + 1 < unlocks mu t s.log + 2 ^ 32
  | _ => true

/-! ## What a section does to one mutex -/

theorem wait_mutex (v : View) (self : ℕ) (q : WaitList) :
    (v.wait self q).1.owner = v.owner ∧ (v.wait self q).1.depth = v.depth ∧
      (v.wait self q).2 ≠ some .ok := by
  unfold View.wait
  split_ifs
  · exact ⟨rfl, rfl, by simp⟩
  · exact ⟨rfl, rfl, by simp⟩

/-- The section leaves mutex `mu` alone and is no successful call on it. -/
def Apart (v : View) (mu : ℕ) (c : Call) (r : View × Option Reply) : Prop :=
  r.1.owner mu = v.owner mu ∧ r.1.depth mu = v.depth mu ∧
    (r.2 = some .ok → c ≠ .lock mu ∧ c ≠ .unlock mu)

lemma apart_of_wait (v : View) (mu self : ℕ) (c : Call) (q : WaitList) :
    Apart v mu c (v.wait self q) := by
  obtain ⟨howner, hdepth, hreply⟩ := wait_mutex v self q
  exact ⟨congrFun howner mu, congrFun hdepth mu, fun h => absurd h hreply⟩

lemma apart_setMutex (v : View) {mu mv : ℕ} (h : mv ≠ mu) (owner depth : ℕ) (c : Call)
    (hc : c = .lock mv ∨ c = .unlock mv) (r : Option Reply) :
    Apart v mu c (v.setMutex mv owner depth, r) := by
  refine ⟨Function.update_of_ne h.symm _ _, Function.update_of_ne h.symm _ _, fun _ => ?_⟩
  obtain rfl | rfl := hc
  · exact ⟨fun heq => h (Call.lock.inj heq), by simp⟩
  · exact ⟨by simp, fun heq => h (Call.unlock.inj heq)⟩

/-- A successful lock makes the caller the owner: of a free mutex with depth
one, of its own with one more. -/
def Locked (v : View) (self mu : ℕ) (r : View × Option Reply) : Prop :=
  r.2 = some .ok ∧ r.1.owner mu = self ∧
    ((v.owner mu = tipcNone ∧ r.1.depth mu = 1) ∨
      (v.owner mu = self ∧ r.1.depth mu = incr32 (v.depth mu)))

/-- A successful unlock is by the owner and frees the mutex at depth zero. -/
def Unlocked (v : View) (self mu : ℕ) (r : View × Option Reply) : Prop :=
  r.2 = some .ok ∧ v.owner mu = self ∧ r.1.depth mu = decr32 (v.depth mu) ∧
    r.1.owner mu = if decr32 (v.depth mu) = 0 then tipcNone else self

lemma specLock_mutex (v : View) (self mu mv : ℕ) :
    (mv = mu ∧ Locked v self mu (specLock v self mv)) ∨
      Apart v mu (.lock mv) (specLock v self mv) := by
  unfold specLock
  by_cases h0 : mv = 0
  · rw [if_pos h0]
    exact Or.inr ⟨rfl, rfl, by simp⟩
  rw [if_neg h0]
  by_cases hfree : v.owner mv = tipcNone
  · rw [if_pos hfree]
    by_cases hm : mv = mu
    · subst hm
      exact Or.inl ⟨rfl, rfl, Function.update_self ..,
        Or.inl ⟨hfree, Function.update_self ..⟩⟩
    · exact Or.inr (apart_setMutex v hm self 1 _ (Or.inl rfl) _)
  rw [if_neg hfree]
  by_cases hself : v.owner mv = self
  · rw [if_pos hself]
    by_cases hm : mv = mu
    · subst hm
      exact Or.inl ⟨rfl, rfl, Function.update_self ..,
        Or.inr ⟨hself, Function.update_self ..⟩⟩
    · exact Or.inr (apart_setMutex v hm self _ _ (Or.inl rfl) _)
  rw [if_neg hself]
  exact Or.inr (apart_of_wait v mu self _ _)

lemma specUnlock_mutex (v : View) (self mu mv : ℕ) :
    (mv = mu ∧ Unlocked v self mu (specUnlock v self mv)) ∨
      Apart v mu (.unlock mv) (specUnlock v self mv) := by
  unfold specUnlock
  by_cases h0 : mv = 0
  · rw [if_pos h0]
    exact Or.inr ⟨rfl, rfl, by simp⟩
  rw [if_neg h0]
  by_cases hself : v.owner mv ≠ self
  · rw [if_pos hself]
    exact Or.inr ⟨rfl, rfl, by simp⟩
  rw [if_neg hself]
  by_cases hlast : decr32 (v.depth mv) = 0
  · rw [if_pos hlast]
    by_cases hm : mv = mu
    · subst hm
      refine Or.inl ⟨rfl, rfl, not_not.mp hself, Function.update_self .., ?_⟩
      rw [if_pos hlast]
      exact Function.update_self ..
    · exact Or.inr (apart_setMutex v hm tipcNone _ _ (Or.inr rfl) _)
  · rw [if_neg hlast]
    by_cases hm : mv = mu
    · subst hm
      refine Or.inl ⟨rfl, rfl, not_not.mp hself, Function.update_self .., ?_⟩
      rw [if_neg hlast]
      exact Function.update_self ..
    · exact Or.inr (apart_setMutex v hm self _ _ (Or.inr rfl) _)

/-- Successful calls on `mu` set its fields; everything else leaves it alone. -/
theorem specSection_mutex (v : View) (self mu : ℕ) (c : Call) :
    (c = .lock mu ∧ Locked v self mu (specSection v self c)) ∨
      (c = .unlock mu ∧ Unlocked v self mu (specSection v self c)) ∨
      Apart v mu c (specSection v self c) := by
  cases c with
  | send mb msg =>
    refine Or.inr (Or.inr ?_)
    change Apart v mu (.send mb msg) (specSend v self mb msg)
    unfold specSend
    split_ifs
    · exact ⟨rfl, rfl, by simp⟩
    · exact ⟨rfl, rfl, by simp⟩
    · exact apart_of_wait v mu self _ _
  | recv mb =>
    refine Or.inr (Or.inr ?_)
    change Apart v mu (.recv mb) (specRecv v self mb)
    unfold specRecv
    split_ifs
    · exact ⟨rfl, rfl, by simp⟩
    · cases v.ring mb with
      | nil => exact apart_of_wait v mu self _ _
      | cons m rest => exact ⟨rfl, rfl, by simp⟩
  | lock mv =>
    obtain ⟨rfl, hlocked⟩ | hapart := specLock_mutex v self mu mv
    · exact Or.inl ⟨rfl, hlocked⟩
    · exact Or.inr (Or.inr hapart)
  | unlock mv =>
    obtain ⟨rfl, hunlocked⟩ | hapart := specUnlock_mutex v self mu mv
    · exact Or.inr (Or.inl ⟨rfl, hunlocked⟩)
    · exact Or.inr (Or.inr hapart)

/-! ## The history follows -/

/-- Calls that are no successful call on the mutex do not count. -/
lemma held_append_other {owner depth mu : ℕ} (h : Held owner depth log mu) (e : Event)
    (he : e.reply = .ok → e.call ≠ .lock mu ∧ e.call ≠ .unlock mu) :
    Held owner depth (log ++ [e]) mu := by
  have hcount : ∀ c u, (c = .lock mu ∨ c = .unlock mu) →
      successes c u (log ++ [e]) = successes c u log := by
    intro c u hc
    rw [successes_append, if_neg, Nat.add_zero]
    intro heq
    have hne := he (by rw [heq])
    rw [heq] at hne
    exact hc.elim hne.1 hne.2
  have hl : ∀ u, locks mu u (log ++ [e]) = locks mu u log := fun u => hcount _ u (Or.inl rfl)
  have hu : ∀ u, unlocks mu u (log ++ [e]) = unlocks mu u log := fun u => hcount _ u (Or.inr rfl)
  simpa only [Held, hl, hu] using h

lemma locks_append_lock (mu t u : ℕ) (log : List Event) :
    locks mu u (log ++ [⟨t, .lock mu, .ok⟩]) = locks mu u log + (if u = t then 1 else 0) ∧
      unlocks mu u (log ++ [⟨t, .lock mu, .ok⟩]) = unlocks mu u log := by
  unfold locks unlocks
  rw [successes_append, successes_append]
  simp [eq_comm]

lemma locks_append_unlock (mu t u : ℕ) (log : List Event) :
    locks mu u (log ++ [⟨t, .unlock mu, .ok⟩]) = locks mu u log ∧
      unlocks mu u (log ++ [⟨t, .unlock mu, .ok⟩]) =
        unlocks mu u log + (if u = t then 1 else 0) := by
  unfold locks unlocks
  rw [successes_append, successes_append]
  simp [eq_comm]

/-- A mutex owned by a task is held by it. -/
lemma Held.of_owner {t depth mu : ℕ} (h : Held t depth log mu) (ht : t < maxTasks) :
    0 < depth ∧ depth < 2 ^ 32 ∧ locks mu t log = unlocks mu t log + depth ∧
      ∀ u, u ≠ t → locks mu u log = unlocks mu u log := by
  obtain ⟨hnone, _⟩ | ⟨u, _, rfl, hpos, hlt, hcount, hothers⟩ := h
  · exact absurd hnone (slot_ne_none ht)
  · exact ⟨hpos, hlt, hcount, hothers⟩

/-- A free mutex is held by nobody. -/
lemma Held.of_free {depth mu : ℕ} (h : Held tipcNone depth log mu) (u : ℕ) :
    locks mu u log = unlocks mu u log := by
  obtain ⟨_, _, hall⟩ | ⟨t, ht, heq, _⟩ := h
  · exact hall u
  · exact absurd heq.symm (slot_ne_none ht)

lemma held_lock {owner depth depth' t mu : ℕ} (h : Held owner depth log mu) (ht : t < maxTasks)
    (hroom : locks mu t log + 1 < unlocks mu t log + 2 ^ 32)
    (hkind : (owner = tipcNone ∧ depth' = 1) ∨ (owner = t ∧ depth' = incr32 depth)) :
    Held t depth' (log ++ [⟨t, .lock mu, .ok⟩]) mu := by
  have hl := fun u => (locks_append_lock mu t u log).1
  have hu := fun u => (locks_append_lock mu t u log).2
  have hothers : (∀ u, u ≠ t → locks mu u log = unlocks mu u log) →
      ∀ u, u ≠ t → locks mu u (log ++ [⟨t, .lock mu, .ok⟩]) =
        unlocks mu u (log ++ [⟨t, .lock mu, .ok⟩]) := by
    intro hall u hne
    rw [hl, hu, if_neg hne, Nat.add_zero]
    exact hall u hne
  obtain ⟨rfl, rfl⟩ | ⟨rfl, rfl⟩ := hkind
  · have hall := h.of_free
    refine Or.inr ⟨t, ht, rfl, by omega, by norm_num, ?_, hothers (fun u _ => hall u)⟩
    rw [hl, hu, if_pos rfl, hall t]
  · obtain ⟨hpos, _, hcount, hrest⟩ := h.of_owner ht
    have hincr : incr32 depth = depth + 1 := incr32_of_lt (by omega)
    rw [hincr]
    refine Or.inr ⟨owner, ht, rfl, by omega, by omega, ?_, hothers hrest⟩
    rw [hl, hu, if_pos rfl, hcount]
    omega

lemma held_unlock {depth t mu : ℕ} (h : Held t depth log mu) (ht : t < maxTasks) :
    Held (if decr32 depth = 0 then tipcNone else t) (decr32 depth)
      (log ++ [⟨t, .unlock mu, .ok⟩]) mu := by
  have hl := fun u => (locks_append_unlock mu t u log).1
  have hu := fun u => (locks_append_unlock mu t u log).2
  obtain ⟨hpos, hlt, hcount, hrest⟩ := h.of_owner ht
  have hself : locks mu t (log ++ [⟨t, .unlock mu, .ok⟩]) =
      unlocks mu t (log ++ [⟨t, .unlock mu, .ok⟩]) + (depth - 1) := by
    rw [hl, hu, if_pos rfl, hcount]
    omega
  have hothers : ∀ u, u ≠ t → locks mu u (log ++ [⟨t, .unlock mu, .ok⟩]) =
      unlocks mu u (log ++ [⟨t, .unlock mu, .ok⟩]) := by
    intro u hne
    rw [hl, hu, if_neg hne, Nat.add_zero]
    exact hrest u hne
  rw [decr32_of_pos hpos hlt]
  by_cases hlast : depth - 1 = 0
  · rw [if_pos hlast]
    refine Or.inl ⟨rfl, hlast, fun u => ?_⟩
    by_cases hut : u = t
    · rw [hut, hself, hlast, Nat.add_zero]
    · exact hothers u hut
  · rw [if_neg hlast]
    exact Or.inr ⟨t, ht, rfl, by omega, by omega, hself, hothers⟩

lemma mutexInv_settle {mu t : ℕ} {s : SpecSystem} {c : Call} (hs : MutexInv mu s)
    (ht : t < maxTasks)
    (hroom : c = .lock mu → locks mu t s.log + 1 < unlocks mu t s.log + 2 ^ 32) :
    MutexInv mu (s.settle t c (specSection s.view t c)) := by
  obtain ⟨rfl, hreply, howner, hkind⟩ | ⟨rfl, hreply, hold, hdepth, howner⟩ |
    ⟨howner, hdepth, happ⟩ := specSection_mutex s.view t mu c
  · have hnext := held_lock hs ht (hroom rfl) hkind
    simpa only [MutexInv, SpecSystem.settle, hreply, howner] using hnext
  · have hheld : Held t (s.view.depth mu) s.log mu := hold ▸ hs
    have hnext := held_unlock hheld ht
    simpa only [MutexInv, SpecSystem.settle, hreply, howner, hdepth] using hnext
  · have hheld : Held ((specSection s.view t c).1.owner mu) ((specSection s.view t c).1.depth mu)
        s.log mu := by
      rw [howner, hdepth]
      exact hs
    cases hreply : (specSection s.view t c).2 with
    | none => simpa only [MutexInv, SpecSystem.settle, hreply] using hheld
    | some reply =>
      have hnext := held_append_other hheld ⟨t, c, reply⟩ (fun hok => happ (by rw [hreply, ← hok]))
      simpa only [MutexInv, SpecSystem.settle, hreply] using hnext

theorem mutexInv_step (mu : ℕ) (s : System) (a : Action) (t : System) (hs : MutexInv mu s.spec)
    (h : guarded systemStep (fun s a => disciplined mu s a) s a = some t) : MutexInv mu t.spec := by
  obtain ⟨hdisc, hstep⟩ := (guarded_eq_some _ _ s t a).mp h
  have hspec := systemStep_spec s a
  rw [hstep] at hspec
  have hready := specStep_ready hspec.symm
  obtain ⟨i, c, _, _, ht⟩ | ⟨i, c, rfl, hp, ht⟩ | ⟨st, _, ht⟩ := specStep_cases hspec.symm
  · rw [ht]
    exact hs
  · rw [ht]
    apply mutexInv_settle hs hready.1
    intro hc
    have hpending : s.pending i = some (.lock mu) := hc ▸ hp
    simp only [disciplined, hpending, ne_eq, not_true_eq_false, false_or,
      decide_eq_true_eq] at hdisc
    exact hdisc
  · rw [ht]
    exact hs

lemma mutexInv_boot (mu : ℕ) (mailbox : ℕ → Mailbox) (mutex : ℕ → Mutex) :
    MutexInv mu (boot mailbox mutex).spec :=
  Or.inl ⟨rfl, rfl, fun _ => rfl⟩

/-- What mutex `mu` guarantees in a state of a run. -/
structure MutexContract (s : System) (mu : ℕ) : Prop where
  exclusive : ∀ t u, unlocks mu t s.log < locks mu t s.log →
    unlocks mu u s.log < locks mu u s.log → t = u
  owned : ∀ t, unlocks mu t s.log < locks mu t s.log →
    (s.kernel.mutex mu).owner = t ∧
      locks mu t s.log = unlocks mu t s.log + (s.kernel.mutex mu).depth
  unowned : (∀ t, ¬ unlocks mu t s.log < locks mu t s.log) →
    (s.kernel.mutex mu).owner = tipcNone
  balanced : ∀ t, unlocks mu t s.log ≤ locks mu t s.log
  unlock_iff : ∀ t u, s.pending t = some (.unlock mu) → systemStep s (.run t) = some u →
    (u.log = s.log ++ [⟨t, .unlock mu, .ok⟩] ↔ unlocks mu t s.log < locks mu t s.log)

/-- A task holds the mutex exactly when the owner field names it. -/
lemma Held.holder_iff {owner depth mu t : ℕ} (h : Held owner depth log mu) (ht : t < maxTasks) :
    unlocks mu t log < locks mu t log ↔ owner = t := by
  obtain ⟨rfl, _, hall⟩ | ⟨u, hu, rfl, hpos, _, hcount, hothers⟩ := h
  · have hsame := hall t
    have hne := slot_ne_none ht
    constructor
    · intro hlt
      omega
    · intro heq
      exact absurd heq.symm hne
  · by_cases htu : t = owner
    · rw [htu]
      constructor
      · intro _
        rfl
      · intro _
        omega
    · have hsame := hothers t htu
      constructor
      · intro hlt
        omega
      · intro heq
        exact absurd heq.symm htu

/-- An unlock section always ends the call, with `0` for the owner only. -/
lemma unlock_log {s u : System} {t mu : ℕ} (hmu : mu ≠ 0) (hp : s.pending t = some (.unlock mu))
    (hstep : systemStep s (.run t) = some u) :
    u.log = s.log ++ [⟨t, .unlock mu, if (s.kernel.mutex mu).owner = t then .ok else .failed⟩] := by
  have hspec := systemStep_spec s (.run t)
  rw [hstep] at hspec
  obtain ⟨c, hpi, hu⟩ := specStep_run hspec.symm
  have hc : c = .unlock mu := Option.some.inj (hpi.symm.trans hp)
  have hlog : u.log = (s.spec.settle t c (specSection s.spec.view t c)).log :=
    congrArg SpecSystem.log hu
  have hreply : (specUnlock s.spec.view t mu).2 =
      some (if (s.kernel.mutex mu).owner = t then .ok else .failed) := by
    unfold specUnlock
    rw [if_neg hmu]
    by_cases howner : s.spec.view.owner mu ≠ t
    · rw [if_pos howner, if_neg (show ¬ (s.kernel.mutex mu).owner = t from howner)]
    · rw [if_neg howner, if_pos (show (s.kernel.mutex mu).owner = t from not_not.mp howner)]
      split_ifs <;> rfl
  rw [hlog, hc]
  simp only [SpecSystem.settle, specSection, hreply]
  rfl

/-- In every run in which no task exits while holding the mutex or nests
`2 ^ 32` locks of it, at most one task holds it, the owner and depth fields say
who and how often, and unlocking succeeds for that task only. -/
theorem mutex_mutual_exclusion (mu : ℕ) (hmu : mu ≠ 0) (mailbox : ℕ → Mailbox) (mutex : ℕ → Mutex)
    (actions : List Action) (s : System)
    (hrun : exec (guarded systemStep (fun s a => disciplined mu s a)) (boot mailbox mutex) actions =
      some s) :
    MutexContract s mu := by
  have hspecInv : MutexInv mu s.spec :=
    exec_invariant (I := fun s => MutexInv mu s.spec) (mutexInv_step mu) actions
      (mutexInv_boot mu mailbox mutex) hrun
  have hinv : Held (s.kernel.mutex mu).owner (s.kernel.mutex mu).depth s.log mu := hspecInv
  have howned : ∀ t, unlocks mu t s.log < locks mu t s.log →
      (s.kernel.mutex mu).owner = t ∧
        locks mu t s.log = unlocks mu t s.log + (s.kernel.mutex mu).depth := by
    intro t hlt
    obtain ⟨_, _, hall⟩ | ⟨u, _, howner, _, _, hcount, hothers⟩ := hinv
    · have hsame := hall t
      omega
    · by_cases htu : t = u
      · exact ⟨howner.trans htu.symm, htu ▸ hcount⟩
      · have hsame := hothers t htu
        omega
  refine ⟨?_, howned, ?_, ?_, ?_⟩
  · intro t u ht hu
    exact (howned t ht).1.symm.trans (howned u hu).1
  · intro hnobody
    obtain ⟨hnone, _⟩ | ⟨u, _, _, hpos, _, hcount, _⟩ := hinv
    · exact hnone
    · have hholder := hnobody u
      omega
  · intro t
    obtain ⟨_, _, hall⟩ | ⟨u, _, _, _, _, hcount, hothers⟩ := hinv
    · exact (hall t).ge
    · by_cases htu : t = u
      · subst htu
        omega
      · exact (hothers t htu).ge
  · intro t u hp hstep
    have hspec := systemStep_spec s (.run t)
    rw [hstep] at hspec
    have ht : t < maxTasks := (specStep_ready hspec.symm).1
    rw [hinv.holder_iff ht, unlock_log hmu hp hstep]
    by_cases howner : (s.kernel.mutex mu).owner = t
    · simp [howner]
    · simp [howner]

/-- The boot task locks twice, task 1 waits, and gets the mutex after the second
unlock. -/
def handoverRun : List Action :=
  [.create 0 0 0 0x1000, .call 0 (.lock 7), .run 0, .call 0 (.lock 7), .run 0,
    .call 1 (.lock 7), .run 1, .call 0 (.unlock 7), .run 0, .call 0 (.unlock 7), .run 0, .run 1]

theorem handover_mutual_exclusion :
    ∃ s, exec (guarded systemStep (fun s a => disciplined 7 s a))
        (boot (fun _ => blankMailbox) (fun _ => blankMutex)) handoverRun = some s ∧
      (s.kernel.mutex 7).owner = 1 ∧ MutexContract s 7 := by
  have howner : (exec (guarded systemStep (fun s a => disciplined 7 s a))
      (boot (fun _ => blankMailbox) (fun _ => blankMutex)) handoverRun).map
        (fun s => (s.kernel.mutex 7).owner) = some 1 := by decide
  obtain ⟨s, hs, howns⟩ := Option.map_eq_some_iff.mp howner
  exact ⟨s, hs, howns, mutex_mutual_exclusion 7 (by decide) _ _ handoverRun s hs⟩

end TraitOS.Tipc
