import TraitOS.TipcSpec
import Mathlib.Data.Finset.Card

/-!
# No wakeup is lost

Each wait list has a demand: how many of its waiters could proceed if they ran
now. While a list is not empty its demand never exceeds the number of tasks that
were woken from it and have not run since. The boot task takes no part in the
IPC calls and stays READY, so a task that registers always blocks.
-/
namespace TraitOS.Tipc
open MachineWord RingBuffer Ttask Runs

variable {s : SpecSystem} {t : ℕ} {c : Call} {q : WaitList} {r : View × Option Reply}

/-- The list a call waits on. -/
def Call.waitList : Call → Option WaitList
  | .send mb _ => some (.send mb)
  | .recv mb => some (.recv mb)
  | .lock mu => some (.lock mu)
  | .unlock _ => none

/-- Address of the object a wait list belongs to. -/
def WaitList.object : WaitList → ℕ
  | .send mb => mb
  | .recv mb => mb
  | .lock mu => mu

def demand (v : View) : WaitList → ℕ
  | .send mb => queueSlots - (v.ring mb).length
  | .recv mb => (v.ring mb).length
  | .lock mu => if v.owner mu = tipcNone then 1 else 0

/-- Tasks inside a call on list `q` that were woken and have not run since. -/
def wokenOn (woken : ℕ → Bool) (pending : ℕ → Option Call) (q : WaitList) : Finset ℕ :=
  (Finset.range maxTasks).filter
    (fun i => woken i = true ∧ (pending i).bind Call.waitList = some q)

theorem mem_wokenOn (woken : ℕ → Bool) (pending : ℕ → Option Call) (q : WaitList) (i : ℕ) :
    i ∈ wokenOn woken pending q ↔
      i < maxTasks ∧ woken i = true ∧ (pending i).bind Call.waitList = some q := by
  unfold wokenOn
  rw [Finset.mem_filter, Finset.mem_range]

structure WakeInv (s : SpecSystem) : Prop where
  boot_ready : s.view.state 0 = .ready
  null : ∀ q, q.object = 0 → s.view.waiting q = []
  queued : ∀ q, ∀ i ∈ s.view.waiting q,
    i < maxTasks ∧ s.view.state i = .blocked ∧ (s.pending i).bind Call.waitList = some q
  nodup : ∀ q, (s.view.waiting q).Nodup
  woken : ∀ i, s.woken i = true → s.view.state i = .ready ∧ s.pending i ≠ none
  covered : ∀ q, s.view.waiting q ≠ [] → demand s.view q ≤ (wokenOn s.woken s.pending q).card

/-! ## What a section does to the wait lists -/

/-- The caller registers in its list, which had nothing to offer it. -/
def Parks (v : View) (self : ℕ) (c : Call) (r : View × Option Reply) : Prop :=
  ∃ q, c.waitList = some q ∧ q.object ≠ 0 ∧ demand v q = 0 ∧
    r = ((v.setWaiting q (v.waiting q ++ [self])).setState (blockSelf v.state self), none)

/-- The call ends and nobody is woken; nothing is left over for the caller's list. -/
def EndsAlone (v : View) (c : Call) (r : View × Option Reply) : Prop :=
  r.2 ≠ none ∧ r.1.state = v.state ∧ r.1.waiting = v.waiting ∧
    (∀ q, c.waitList ≠ some q → demand r.1 q ≤ demand v q) ∧
    ∀ q, c.waitList = some q → demand r.1 q = 0 ∨ q.object = 0

/-- The call ends, uses up one unit of its own list and wakes the head of the
list it served. -/
def EndsWaking (v : View) (c : Call) (r : View × Option Reply) : Prop :=
  r.2 ≠ none ∧ ∃ q w, r.1 = View.wakeFirst w q ∧ w.state = v.state ∧ w.waiting = v.waiting ∧
    c.waitList ≠ some q ∧ demand w q ≤ demand v q + 1 ∧
    (∀ p, p ≠ q → c.waitList ≠ some p → demand w p ≤ demand v p) ∧
    ∀ p, p ≠ q → c.waitList = some p → demand w p + 1 ≤ demand v p

lemma wait_parks {v : View} {self : ℕ} (hc : c.waitList = some q) (h0 : q.object ≠ 0)
    (hd : demand v q = 0) : Parks v self c (v.wait self q) ∨ EndsAlone v c (v.wait self q) := by
  unfold View.wait
  split_ifs with hroom
  · exact Or.inl ⟨q, hc, h0, hd, rfl⟩
  · refine Or.inr ⟨by simp, rfl, rfl, fun p _ => le_refl _, fun p hp => Or.inl ?_⟩
    have hpq : p = q := Option.some.inj (hp.symm.trans hc)
    rw [hpq]
    exact hd

lemma failed_endsAlone {v : View} (h0 : ∀ q, c.waitList = some q → q.object = 0) :
    EndsAlone v c (v, some .failed) :=
  ⟨by simp, rfl, rfl, fun _ _ => le_refl _, fun q hq => Or.inr (h0 q hq)⟩

lemma demand_setRing_of_ne (v : View) (mb : ℕ) (l : List Msg) (hs : q ≠ .send mb)
    (hr : q ≠ .recv mb) : demand (v.setRing mb l) q = demand v q := by
  cases q with
  | send b =>
    have hb : b ≠ mb := fun h => hs (h ▸ rfl)
    simp [demand, View.setRing, hb]
  | recv b =>
    have hb : b ≠ mb := fun h => hr (h ▸ rfl)
    simp [demand, View.setRing, hb]
  | lock mu => rfl

lemma demand_setMutex_of_ne (v : View) (mu owner depth : ℕ) (hq : q ≠ .lock mu) :
    demand (v.setMutex mu owner depth) q = demand v q := by
  cases q with
  | send b => rfl
  | recv b => rfl
  | lock m =>
    have hm : m ≠ mu := fun h => hq (h ▸ rfl)
    simp [demand, View.setMutex, hm]

lemma specSend_wake (v : View) (self mb : ℕ) (msg : Msg) :
    Parks v self (.send mb msg) (specSend v self mb msg) ∨
      EndsAlone v (.send mb msg) (specSend v self mb msg) ∨
      EndsWaking v (.send mb msg) (specSend v self mb msg) := by
  have hlist : (Call.send mb msg).waitList = some (.send mb) := rfl
  unfold specSend
  by_cases h0 : mb = 0
  · rw [if_pos h0]
    refine Or.inr (Or.inl (failed_endsAlone (fun q hq => ?_)))
    rw [← Option.some.inj (hlist.symm.trans hq)]
    exact h0
  rw [if_neg h0]
  by_cases hroom : (v.ring mb).length < queueSlots
  · rw [if_pos hroom]
    have hsend : demand (v.setRing mb (v.ring mb ++ [msg])) (.send mb) + 1 ≤
      demand v (.send mb) := by
      simp only [demand, View.setRing, Function.update_self, List.length_append,
        List.length_singleton]
      omega
    have hrecv : demand (v.setRing mb (v.ring mb ++ [msg])) (.recv mb) ≤ demand v (.recv mb) +
      1 := by
      simp [demand, View.setRing]
    refine Or.inr (Or.inr ⟨by simp, .recv mb, v.setRing mb (v.ring mb ++ [msg]), rfl, rfl, rfl,
      by simp [hlist], hrecv, fun p hp hc => ?_, fun p _ hc => ?_⟩)
    · have hs : p ≠ .send mb := fun h => hc (h ▸ hlist)
      exact (demand_setRing_of_ne v mb _ hs hp).le
    · rw [← Option.some.inj (hlist.symm.trans hc)]
      exact hsend
  · rw [if_neg hroom]
    have hfull : demand v (.send mb) = 0 := by
      simp only [demand]
      omega
    exact (wait_parks hlist h0 hfull).imp_right Or.inl

lemma specRecv_wake (v : View) (self mb : ℕ) :
    Parks v self (.recv mb) (specRecv v self mb) ∨
      EndsAlone v (.recv mb) (specRecv v self mb) ∨
      EndsWaking v (.recv mb) (specRecv v self mb) := by
  have hlist : (Call.recv mb).waitList = some (.recv mb) := rfl
  unfold specRecv
  by_cases h0 : mb = 0
  · rw [if_pos h0]
    refine Or.inr (Or.inl (failed_endsAlone (fun q hq => ?_)))
    rw [← Option.some.inj (hlist.symm.trans hq)]
    exact h0
  rw [if_neg h0]
  cases hring : v.ring mb with
  | nil =>
    have hempty : demand v (.recv mb) = 0 := by simp [demand, hring]
    exact (wait_parks hlist h0 hempty).imp_right Or.inl
  | cons m rest =>
    have hrecv : demand (v.setRing mb rest) (.recv mb) + 1 ≤ demand v (.recv mb) := by
      simp [demand, View.setRing, hring]
    have hsend : demand (v.setRing mb rest) (.send mb) ≤ demand v (.send mb) + 1 := by
      simp only [demand, View.setRing, Function.update_self, hring, List.length_cons]
      omega
    refine Or.inr (Or.inr ⟨by simp, .send mb, v.setRing mb rest, rfl, rfl, rfl, by simp [hlist],
      hsend, fun p hp hc => ?_, fun p _ hc => ?_⟩)
    · have hr : p ≠ .recv mb := fun h => hc (h ▸ hlist)
      exact (demand_setRing_of_ne v mb _ hp hr).le
    · rw [← Option.some.inj (hlist.symm.trans hc)]
      exact hrecv

lemma specLock_wake (v : View) {self : ℕ} (hself : self < maxTasks) (mu : ℕ) :
    Parks v self (.lock mu) (specLock v self mu) ∨
      EndsAlone v (.lock mu) (specLock v self mu) := by
  have hlist : (Call.lock mu).waitList = some (.lock mu) := rfl
  -- taking the mutex, for the first time or again, leaves nothing for its waiters
  have htaken : ∀ depth, EndsAlone v (.lock mu) (v.setMutex mu self depth, some .ok) := by
    intro depth
    refine ⟨by simp, rfl, rfl, fun q hq => ?_, fun q hq => Or.inl ?_⟩
    · have hne : q ≠ .lock mu := fun h => hq (h ▸ hlist)
      exact (demand_setMutex_of_ne v mu self depth hne).le
    · rw [← Option.some.inj (hlist.symm.trans hq)]
      simp [demand, View.setMutex, slot_ne_none hself]
  unfold specLock
  by_cases h0 : mu = 0
  · rw [if_pos h0]
    refine Or.inr (failed_endsAlone (fun q hq => ?_))
    rw [← Option.some.inj (hlist.symm.trans hq)]
    exact h0
  rw [if_neg h0]
  by_cases hfree : v.owner mu = tipcNone
  · rw [if_pos hfree]
    exact Or.inr (htaken 1)
  rw [if_neg hfree]
  by_cases hmine : v.owner mu = self
  · rw [if_pos hmine]
    exact Or.inr (htaken _)
  rw [if_neg hmine]
  exact wait_parks hlist h0 (by simp [demand, hfree])

lemma specUnlock_wake (v : View) {self : ℕ} (hself : self < maxTasks) (mu : ℕ) :
    EndsAlone v (.unlock mu) (specUnlock v self mu) ∨
      EndsWaking v (.unlock mu) (specUnlock v self mu) := by
  have hlist : ∀ q, (Call.unlock mu).waitList ≠ some q := fun q => by simp [Call.waitList]
  have hfailed : EndsAlone v (.unlock mu) (v, some .failed) :=
    failed_endsAlone (fun q hq => absurd hq (hlist q))
  unfold specUnlock
  by_cases h0 : mu = 0
  · rw [if_pos h0]
    exact Or.inl hfailed
  rw [if_neg h0]
  by_cases hmine : v.owner mu ≠ self
  · rw [if_pos hmine]
    exact Or.inl hfailed
  rw [if_neg hmine]
  by_cases hlast : decr32 (v.depth mu) = 0
  · rw [if_pos hlast]
    refine Or.inr ⟨by simp, .lock mu, v.setMutex mu tipcNone (decr32 (v.depth mu)), rfl, rfl, rfl,
      hlist _, ?_, fun p hp _ => ?_, fun p _ hc => absurd hc (hlist p)⟩
    · simp [demand, View.setMutex]
    · exact (demand_setMutex_of_ne v mu _ _ hp).le
  · rw [if_neg hlast]
    refine Or.inl ⟨by simp, rfl, rfl, fun q _ => ?_, fun q hq => absurd hq (hlist q)⟩
    by_cases hq : q = .lock mu
    · subst hq
      simp [demand, View.setMutex, slot_ne_none hself]
    · exact (demand_setMutex_of_ne v mu _ _ hq).le

theorem specSection_wake (v : View) {self : ℕ} (hself : self < maxTasks) (c : Call) :
    Parks v self c (specSection v self c) ∨ EndsAlone v c (specSection v self c) ∨
      EndsWaking v c (specSection v self c) := by
  cases c with
  | send mb msg => exact specSend_wake v self mb msg
  | recv mb => exact specRecv_wake v self mb
  | lock mu => exact (specLock_wake v hself mu).imp_right Or.inl
  | unlock mu => exact Or.inr (specUnlock_wake v hself mu)

/-! ## Counting the woken tasks -/

/-- Whoever was woken and is not the task that runs stays counted. -/
lemma wokenOn_settle (s : SpecSystem) (t : ℕ) (c : Call) (r : View × Option Reply) (q : WaitList) :
    (wokenOn s.woken s.pending q).erase t ⊆
      wokenOn (s.settle t c r).woken (s.settle t c r).pending q := by
  intro i hi
  obtain ⟨hne, hmem⟩ := Finset.mem_erase.mp hi
  obtain ⟨hlt, hw, hq⟩ := (mem_wokenOn ..).mp hmem
  have hpending : (s.settle t c r).pending i = s.pending i := by
    cases hr : r.2 with
    | none => simp [SpecSystem.settle, hr]
    | some reply => simp [SpecSystem.settle, hr, hne]
  refine (mem_wokenOn ..).mpr ⟨hlt, ?_, hpending ▸ hq⟩
  simp [SpecSystem.settle, hne, hw]

/-- The running task is counted for the list of its own call only. -/
lemma wokenOn_subset_settle (hp : s.pending t = some c) (r : View × Option Reply)
    (hq : c.waitList ≠ some q) :
    wokenOn s.woken s.pending q ⊆
      wokenOn (s.settle t c r).woken (s.settle t c r).pending q := by
  have hnot : t ∉ wokenOn s.woken s.pending q := by
    intro hmem
    obtain ⟨_, _, hlist⟩ := (mem_wokenOn ..).mp hmem
    rw [hp] at hlist
    exact hq hlist
  have hsub := wokenOn_settle s t c r q
  rwa [Finset.erase_eq_of_notMem hnot] at hsub

lemma card_wokenOn_settle (hp : s.pending t = some c) (r : View × Option Reply)
    (hq : c.waitList ≠ some q) :
    (wokenOn s.woken s.pending q).card ≤
      (wokenOn (s.settle t c r).woken (s.settle t c r).pending q).card :=
  Finset.card_le_card (wokenOn_subset_settle hp r hq)

lemma card_wokenOn_settle_succ (s : SpecSystem) (t : ℕ) (c : Call) (r : View × Option Reply)
    (q : WaitList) :
    (wokenOn s.woken s.pending q).card ≤
      (wokenOn (s.settle t c r).woken (s.settle t c r).pending q).card + 1 := by
  have hsub := Finset.card_le_card (wokenOn_settle s t c r q)
  have herase := Finset.pred_card_le_card_erase (s := wokenOn s.woken s.pending q) (a := t)
  omega

/-! ## Preservation -/

lemma settle_pending_of_ne (s : SpecSystem) {t i : ℕ} (c : Call) (r : View × Option Reply)
    (h : i ≠ t) : (s.settle t c r).pending i = s.pending i := by
  cases hr : r.2 with
  | none => simp [SpecSystem.settle, hr]
  | some reply => simp [SpecSystem.settle, hr, h]

lemma settle_woken {t i : ℕ} (h : (s.settle t c r).woken i = true) :
    i ≠ t ∧ (s.woken i = true ∨ (s.view.state i = .blocked ∧ r.1.state i = .ready)) := by
  by_cases hi : i = t
  · simp [SpecSystem.settle, hi] at h
  · exact ⟨hi, by simpa [SpecSystem.settle, hi] using h⟩

/-- A READY task is in no wait list. -/
lemma WakeInv.not_queued (hs : WakeInv s) (ht : s.view.state t = .ready) (q : WaitList) :
    t ∉ s.view.waiting q := by
  intro hmem
  have hb := (hs.queued q t hmem).2.1
  rw [ht] at hb
  exact absurd hb (by decide)

lemma wakeInv_parks (hs : WakeInv s) (h0 : t ≠ 0) (ht : t < maxTasks)
    (hready : s.view.state t = .ready) (hp : s.pending t = some c) (hr : Parks s.view t c r) :
    WakeInv (s.settle t c r) := by
  obtain ⟨q, hlist, hobj, hdemand, rfl⟩ := hr
  -- the boot task is READY, so the caller really blocks
  have hblock : blockSelf s.view.state t = Function.update s.view.state t .blocked := by
    unfold blockSelf
    rw [if_pos ⟨0, by decide, h0.symm, hs.boot_ready⟩]
  have hstate : ∀ i, i ≠ t → blockSelf s.view.state t i = s.view.state i := by
    intro i hi
    rw [hblock, Function.update_of_ne hi]
  have hself : blockSelf s.view.state t t = .blocked := by rw [hblock, Function.update_self]
  have hnot := hs.not_queued hready
  refine ⟨?_, ?_, ?_, ?_, ?_, ?_⟩
  · change blockSelf s.view.state t 0 = .ready
    rw [hstate 0 h0.symm, hs.boot_ready]
  · intro p hpobj
    have hpq : p ≠ q := fun h => hobj (h ▸ hpobj)
    change Function.update s.view.waiting q _ p = []
    rw [Function.update_of_ne hpq, hs.null p hpobj]
  · intro p i hi
    have hold : i ∈ s.view.waiting p → i < maxTasks ∧ blockSelf s.view.state t i = .blocked ∧
        (s.pending i).bind Call.waitList = some p := by
      intro hmem
      obtain ⟨hlt, hb, hpend⟩ := hs.queued p i hmem
      have hit : i ≠ t := fun h => hnot p (h ▸ hmem)
      exact ⟨hlt, (hstate i hit).trans hb, hpend⟩
    change i ∈ Function.update s.view.waiting q (s.view.waiting q ++ [t]) p at hi
    by_cases hpq : p = q
    · subst hpq
      rw [Function.update_self, List.mem_append, List.mem_singleton] at hi
      obtain hmem | rfl := hi
      · exact hold hmem
      · refine ⟨ht, hself, ?_⟩
        change (s.pending i).bind Call.waitList = some p
        rw [hp]
        exact hlist
    · rw [Function.update_of_ne hpq] at hi
      exact hold hi
  · intro p
    change (Function.update s.view.waiting q (s.view.waiting q ++ [t]) p).Nodup
    by_cases hpq : p = q
    · subst hpq
      rw [Function.update_self]
      exact List.Nodup.append (hs.nodup p) (List.nodup_singleton t)
        (fun i hi hit => hnot p (List.mem_singleton.mp hit ▸ hi))
    · rw [Function.update_of_ne hpq]
      exact hs.nodup p
  · intro i hw
    obtain ⟨hit, hold | ⟨hb, hr⟩⟩ := settle_woken hw
    · exact ⟨(hstate i hit).trans (hs.woken i hold).1, (hs.woken i hold).2⟩
    · have hsame : s.view.state i = .ready := (hstate i hit).symm.trans hr
      rw [hb] at hsame
      exact absurd hsame (by decide)
  · intro p hne
    by_cases hpq : p = q
    · rw [hpq]
      exact hdemand.le.trans (Nat.zero_le _)
    · change Function.update s.view.waiting q _ p ≠ [] at hne
      rw [Function.update_of_ne hpq] at hne
      have hlists : c.waitList ≠ some p := fun h => hpq (Option.some.inj (h.symm.trans hlist))
      exact (hs.covered p hne).trans (card_wokenOn_settle hp _ hlists)

/-- A section that changes no wait list and no state; what is left is the count. -/
lemma wakeInv_of_same_lists (hs : WakeInv s) (hready : s.view.state t = .ready)
    (hstate : r.1.state = s.view.state) (hwaiting : r.1.waiting = s.view.waiting)
    (hcovered : ∀ p, s.view.waiting p ≠ [] →
      demand r.1 p ≤ (wokenOn (s.settle t c r).woken (s.settle t c r).pending p).card) :
    WakeInv (s.settle t c r) := by
  have hview : (s.settle t c r).view = r.1 := rfl
  refine ⟨?_, ?_, ?_, ?_, ?_, ?_⟩
  · rw [hview, hstate, hs.boot_ready]
  · intro p hpobj
    rw [hview, hwaiting, hs.null p hpobj]
  · intro p i hi
    rw [hview, hwaiting] at hi
    have hit : i ≠ t := fun h => hs.not_queued hready p (h ▸ hi)
    rw [hview, hstate, settle_pending_of_ne s c r hit]
    exact hs.queued p i hi
  · intro p
    rw [hview, hwaiting]
    exact hs.nodup p
  · intro i hw
    obtain ⟨hit, hold⟩ := settle_woken hw
    rw [hview, hstate, settle_pending_of_ne s c r hit]
    obtain hold | ⟨hb, hr⟩ := hold
    · exact hs.woken i hold
    · rw [hstate, hb] at hr
      exact absurd hr (by decide)
  · intro p hne
    rw [hview, hwaiting] at hne
    exact hcovered p hne

lemma wakeInv_endsAlone (hs : WakeInv s) (hready : s.view.state t = .ready)
    (hp : s.pending t = some c) (hr : EndsAlone s.view c r) : WakeInv (s.settle t c r) := by
  obtain ⟨_, hstate, hwaiting, hothers, hown⟩ := hr
  apply wakeInv_of_same_lists hs hready hstate hwaiting
  intro p hne
  by_cases hlist : c.waitList = some p
  · obtain hzero | hobj := hown p hlist
    · rw [hzero]
      exact Nat.zero_le _
    · exact absurd (hs.null p hobj) hne
  · exact ((hothers p hlist).trans (hs.covered p hne)).trans (card_wokenOn_settle hp r hlist)

lemma demand_wakeFirst (v : View) (q p : WaitList) : demand (v.wakeFirst q) p = demand v p := by
  cases p <;> rfl

/-- Lists other than the served one keep their waiters, and lose at most the
running task from those counted for them. -/
lemma covered_of_ne (hs : WakeInv s) (hp : s.pending t = some c) (r : View × Option Reply)
    {v : View} {p : WaitList} (hne : s.view.waiting p ≠ [])
    (hothers : c.waitList ≠ some p → demand v p ≤ demand s.view p)
    (hown : c.waitList = some p → demand v p + 1 ≤ demand s.view p) :
    demand v p ≤ (wokenOn (s.settle t c r).woken (s.settle t c r).pending p).card := by
  have hbefore := hs.covered p hne
  by_cases hlist : c.waitList = some p
  · have hsucc := card_wokenOn_settle_succ s t c r p
    have hused := hown hlist
    omega
  · exact ((hothers hlist).trans hbefore).trans (card_wokenOn_settle hp r hlist)

/-- The served list has a waiter: it leaves the list, becomes READY and counts as
woken. -/
lemma wakeInv_woken {t w : ℕ} {rest : List ℕ} (hs : WakeInv s) (hready : s.view.state t = .ready)
    (hp : s.pending t = some c) (hcons : s.view.waiting q = w :: rest)
    (hstate : r.1.state = Function.update s.view.state w .ready)
    (hwaiting : r.1.waiting = Function.update s.view.waiting q rest) (hq : c.waitList ≠ some q)
    (hserved : demand r.1 q ≤ demand s.view q + 1)
    (hothers : ∀ p, p ≠ q → c.waitList ≠ some p → demand r.1 p ≤ demand s.view p)
    (hown : ∀ p, p ≠ q → c.waitList = some p → demand r.1 p + 1 ≤ demand s.view p) :
    WakeInv (s.settle t c r) := by
  have hview : (s.settle t c r).view = r.1 := rfl
  have hmem : w ∈ s.view.waiting q := by simp [hcons]
  obtain ⟨hwlt, hwb, hwp⟩ := hs.queued q w hmem
  have hwt : w ≠ t := fun h => hs.not_queued hready q (h ▸ hmem)
  have hnodup := hs.nodup q
  rw [hcons] at hnodup
  have hsub : ∀ p i, i ∈ r.1.waiting p → i ∈ s.view.waiting p ∧ i ≠ w := by
    intro p i hi
    rw [hwaiting] at hi
    by_cases hpq : p = q
    · subst hpq
      rw [Function.update_self] at hi
      rw [hcons]
      exact ⟨List.mem_cons_of_mem w hi, fun h => (List.nodup_cons.mp hnodup).1 (h ▸ hi)⟩
    · rw [Function.update_of_ne hpq] at hi
      refine ⟨hi, fun h => hpq ?_⟩
      have hip := (hs.queued p i hi).2.2
      rw [h, hwp] at hip
      exact (Option.some.inj hip).symm
  refine ⟨?_, ?_, ?_, ?_, ?_, ?_⟩
  · rw [hview, hstate, Function.update_apply]
    split_ifs
    · rfl
    · exact hs.boot_ready
  · intro p hpobj
    have hpq : p ≠ q := fun h => by
      rw [← h, hs.null p hpobj] at hcons
      exact absurd hcons (by simp)
    rw [hview, hwaiting, Function.update_of_ne hpq, hs.null p hpobj]
  · intro p i hi
    obtain ⟨hold, hiw⟩ := hsub p i hi
    have hit : i ≠ t := fun h => hs.not_queued hready p (h ▸ hold)
    rw [hview, hstate, Function.update_of_ne hiw, settle_pending_of_ne s c r hit]
    exact hs.queued p i hold
  · intro p
    rw [hview, hwaiting]
    by_cases hpq : p = q
    · rw [hpq, Function.update_self]
      exact (List.nodup_cons.mp hnodup).2
    · rw [Function.update_of_ne hpq]
      exact hs.nodup p
  · intro i hi
    obtain ⟨hit, hold⟩ := settle_woken hi
    rw [hview, hstate, settle_pending_of_ne s c r hit, Function.update_apply]
    by_cases hiw : i = w
    · rw [if_pos hiw, hiw]
      exact ⟨rfl, fun hnone => by simp [hnone] at hwp⟩
    · rw [if_neg hiw]
      obtain hold | ⟨hb, hr⟩ := hold
      · exact hs.woken i hold
      · rw [hstate, Function.update_of_ne hiw, hb] at hr
        exact absurd hr (by decide)
  · intro p hne
    rw [hview] at hne ⊢
    by_cases hpq : p = q
    · subst hpq
      have hbefore := hs.covered p (by simp [hcons])
      have hnew : w ∉ wokenOn s.woken s.pending p := by
        intro hw
        have hwr := (hs.woken w ((mem_wokenOn ..).mp hw).2.1).1
        rw [hwb] at hwr
        exact absurd hwr (by decide)
      have hcounted : insert w (wokenOn s.woken s.pending p) ⊆
          wokenOn (s.settle t c r).woken (s.settle t c r).pending p := by
        refine Finset.insert_subset_iff.mpr ⟨?_, wokenOn_subset_settle hp r hq⟩
        have hwoken : (s.settle t c r).woken w = true := by
          simp [SpecSystem.settle, hwt, hwb, hstate]
        refine (mem_wokenOn ..).mpr ⟨hwlt, hwoken, ?_⟩
        rw [settle_pending_of_ne s c r hwt]
        exact hwp
      have hcard := Finset.card_le_card hcounted
      rw [Finset.card_insert_of_notMem hnew] at hcard
      omega
    · rw [hwaiting, Function.update_of_ne hpq] at hne
      exact covered_of_ne hs hp r hne (hothers p hpq) (hown p hpq)

lemma wakeInv_endsWaking (hs : WakeInv s) (hready : s.view.state t = .ready)
    (hp : s.pending t = some c) (hr : EndsWaking s.view c r) : WakeInv (s.settle t c r) := by
  obtain ⟨_, q, v, hv, hvstate, hvwaiting, hq, hserved, hothers, hown⟩ := hr
  have hdemand : ∀ p, demand r.1 p = demand v p := fun p => by rw [hv, demand_wakeFirst]
  have hstate : r.1.state = wakeHead s.view.state (s.view.waiting q) := by
    rw [hv, ← hvstate, ← hvwaiting]
    rfl
  have hwaiting : r.1.waiting = Function.update s.view.waiting q (s.view.waiting q).tail := by
    rw [hv, ← hvwaiting]
    rfl
  simp only [← hdemand] at hserved hothers hown
  cases hlist : s.view.waiting q with
  | nil =>
    rw [hlist] at hstate hwaiting
    have hsame : r.1.waiting = s.view.waiting := by
      rw [hwaiting, List.tail_nil, ← hlist, Function.update_eq_self]
    apply wakeInv_of_same_lists hs hready hstate hsame
    intro p hne
    have hpq : p ≠ q := fun h => hne (h ▸ hlist)
    exact covered_of_ne hs hp r hne (hothers p hpq) (hown p hpq)
  | cons w rest =>
    obtain ⟨hwlt, hwb, _⟩ := hs.queued q w (by simp [hlist])
    rw [hlist] at hstate hwaiting
    replace hstate := hstate.trans (if_pos ⟨hwlt, hwb⟩)
    exact wakeInv_woken hs hready hp hlist hstate hwaiting hq hserved hothers hown

/-- A change of the table that keeps READY and BLOCKED tasks as they are. -/
lemma wakeInv_setState (hs : WakeInv s) {st : ℕ → TaskState} (hboot : st 0 = .ready)
    (hblocked : ∀ i, s.view.state i = .blocked → st i = .blocked)
    (hready : ∀ i, s.pending i ≠ none → s.view.state i = .ready → st i = .ready) :
    WakeInv { s with view := s.view.setState st } := by
  refine ⟨hboot, hs.null, ?_, hs.nodup, ?_, ?_⟩
  · intro q i hi
    obtain ⟨hlt, hb, hp⟩ := hs.queued q i hi
    exact ⟨hlt, hblocked i hb, hp⟩
  · intro i hw
    obtain ⟨hr, hp⟩ := hs.woken i hw
    exact ⟨hready i hp hr, hp⟩
  · intro q hne
    have hcovered := hs.covered q hne
    have hsame : demand (s.view.setState st) q = demand s.view q := by cases q <;> rfl
    rw [hsame]
    exact hcovered

/-- The boot task makes no IPC call and does not exit. -/
def bootIdle : Action → Bool
  | .call t _ => t ≠ 0
  | .run t => t ≠ 0
  | .exit t => t ≠ 0
  | _ => true

lemma placeState_of_occupied (st : ℕ → TaskState) (stack : ℕ) {i : ℕ} (hf : st i ≠ .free)
    (he : st i ≠ .exited) : placeState st stack i = st i := by
  unfold placeState
  cases hfind : (List.range maxTasks).find? (fun i => st i = .free ∨ st i = .exited) with
  | none => rfl
  | some j =>
    have hj := List.find?_some hfind
    have hij : i ≠ j := by
      intro h
      rw [← h] at hj
      simp [hf, he] at hj
    exact Function.update_of_ne hij _ _

/-- Entering a call: the task was in none, so it is in no list and not counted. -/
lemma wakeInv_call (hs : WakeInv s) (hp : s.pending t = none) (c : Call) :
    WakeInv { s with pending := Function.update s.pending t (some c) } := by
  have hkeep : ∀ i, s.pending i ≠ none →
      Function.update s.pending t (some c) i = s.pending i := by
    intro i hi
    have hne : i ≠ t := fun h => hi (h ▸ hp)
    exact Function.update_of_ne hne _ _
  refine ⟨hs.boot_ready, hs.null, ?_, hs.nodup, ?_, ?_⟩
  · intro q i hi
    obtain ⟨hlt, hb, hlist⟩ := hs.queued q i hi
    have hsome : s.pending i ≠ none := fun hnone => by simp [hnone] at hlist
    exact ⟨hlt, hb, (congrArg (·.bind Call.waitList) (hkeep i hsome)).trans hlist⟩
  · intro i hw
    obtain ⟨hr, hsome⟩ := hs.woken i hw
    exact ⟨hr, fun hnone => hsome ((hkeep i hsome).symm.trans hnone)⟩
  · intro q hne
    refine (hs.covered q hne).trans (Finset.card_le_card fun i hi => ?_)
    obtain ⟨hlt, hw, hlist⟩ := (mem_wokenOn ..).mp hi
    have hsome := (hs.woken i hw).2
    exact (mem_wokenOn ..).mpr
      ⟨hlt, hw, (congrArg (·.bind Call.waitList) (hkeep i hsome)).trans hlist⟩

/-- Creation takes unoccupied slots, and an exiting task is in no call. -/
lemma wakeInv_table (hs : WakeInv s) {a : Action} (hidle : bootIdle a = true)
    (hready : s.view.state a.task = .ready) {st : ℕ → TaskState} (h : TableChange s a st) :
    WakeInv { s with view := s.view.setState st } := by
  have hplace : ∀ stack i, s.view.state i = .ready ∨ s.view.state i = .blocked →
      placeState s.view.state stack i = s.view.state i := by
    intro stack i hi
    apply placeState_of_occupied
    · intro hf
      rw [hf] at hi
      exact absurd hi (by decide)
    · intro he
      rw [he] at hi
      exact absurd hi (by decide)
  obtain rfl | ⟨hp, ⟨stack, rfl⟩ | ⟨hexit, rfl⟩⟩ := h
  · exact wakeInv_setState hs hs.boot_ready (fun _ hb => hb) (fun _ _ hr => hr)
  · apply wakeInv_setState hs
    · rw [hplace stack 0 (Or.inl hs.boot_ready), hs.boot_ready]
    · intro i hb
      rw [hplace stack i (Or.inr hb), hb]
    · intro i _ hr
      rw [hplace stack i (Or.inl hr), hr]
  · have htask : a.task ≠ 0 := by
      rw [hexit] at hidle
      simpa [bootIdle] using hidle
    apply wakeInv_setState hs
    · rw [Function.update_of_ne htask.symm, hs.boot_ready]
    · intro i hb
      have hne : i ≠ a.task := by
        intro h
        rw [h, hready] at hb
        exact absurd hb (by decide)
      rw [Function.update_of_ne hne, hb]
    · intro i hsome hr
      have hne : i ≠ a.task := fun h => hsome (h ▸ hp)
      rw [Function.update_of_ne hne, hr]

theorem wakeInv_step (s : System) (a : Action) (t : System) (hs : WakeInv s.spec)
    (h : guarded systemStep (fun _ a => bootIdle a) s a = some t) : WakeInv t.spec := by
  obtain ⟨hidle, hstep⟩ := (guarded_eq_some _ _ s t a).mp h
  have hspec := systemStep_spec s a
  rw [hstep] at hspec
  obtain ⟨hlt, hready⟩ := specStep_ready hspec.symm
  obtain ⟨i, c, _, hp, ht⟩ | ⟨i, c, rfl, hp, ht⟩ | ⟨st, htable, ht⟩ := specStep_cases hspec.symm
  · rw [ht]
    exact wakeInv_call hs hp _
  · have hi : i ≠ 0 := by simpa [bootIdle] using hidle
    rw [ht]
    obtain hparks | halone | hwaking := specSection_wake s.spec.view hlt c
    · exact wakeInv_parks hs hi hlt hready hp hparks
    · exact wakeInv_endsAlone hs hready hp halone
    · exact wakeInv_endsWaking hs hready hp hwaking
  · rw [ht]
    exact wakeInv_table hs hidle hready htable

lemma wakeInv_boot (mailbox : ℕ → Mailbox) (mutex : ℕ → Mutex) :
    WakeInv (boot mailbox mutex).spec := by
  have hempty : ∀ q, (boot mailbox mutex).spec.view.waiting q = [] := by
    intro q
    cases q with
    | send mb => exact Ring.contents_empty (mailbox mb).waitSend.slot (show 0 < waitMax by decide)
    | recv mb => exact Ring.contents_empty (mailbox mb).waitRecv.slot (show 0 < waitMax by decide)
    | lock mu => exact Ring.contents_empty (mutex mu).wait.slot (show 0 < waitMax by decide)
  refine ⟨rfl, fun q _ => hempty q, ?_, ?_, ?_, ?_⟩
  · intro q i hi
    rw [hempty q] at hi
    exact absurd hi List.not_mem_nil
  · intro q
    rw [hempty q]
    exact List.nodup_nil
  · intro i hw
    exact absurd hw (by simp [System.spec, boot])
  · intro q hne
    exact absurd (hempty q) hne

/-- What holds of all wait queues in a state of a run. -/
structure WakeContract (s : System) : Prop where
  blocked : ∀ q, ∀ i ∈ (s.kernel.waitq q).contents, s.kernel.sched.state i = .blocked
  once : ∀ q, (s.kernel.waitq q).contents.Nodup
  one_queue : ∀ p q i, i ∈ (s.kernel.waitq p).contents → i ∈ (s.kernel.waitq q).contents → p = q
  receivers : ∀ mb, (s.kernel.mailbox mb).waitRecv.contents ≠ [] →
    (s.kernel.mailbox mb).ring.contents.length ≤ (wokenOn s.woken s.pending (.recv mb)).card
  senders : ∀ mb, (s.kernel.mailbox mb).waitSend.contents ≠ [] →
    queueSlots - (s.kernel.mailbox mb).ring.contents.length ≤
      (wokenOn s.woken s.pending (.send mb)).card
  lockers : ∀ mu, (s.kernel.mutex mu).wait.contents ≠ [] → (s.kernel.mutex mu).owner = tipcNone →
    (wokenOn s.woken s.pending (.lock mu)).Nonempty

/-- In every run in which the boot task stays out of the IPC calls, every queued
id is a BLOCKED task queued once, and what a wait queue waits for is never more
than the tasks already woken for it can take. -/
theorem no_lost_wakeup (mailbox : ℕ → Mailbox) (mutex : ℕ → Mutex) (actions : List Action)
    (s : System)
    (hrun : exec (guarded systemStep (fun _ a => bootIdle a)) (boot mailbox mutex) actions =
      some s) :
    WakeContract s := by
  have hinv : WakeInv s.spec :=
    exec_invariant (I := fun s => WakeInv s.spec) wakeInv_step actions
      (wakeInv_boot mailbox mutex) hrun
  refine ⟨fun q i hi => (hinv.queued q i hi).2.1, hinv.nodup, ?_, ?_, ?_, ?_⟩
  · intro p q i hip hiq
    have hp := (hinv.queued p i hip).2.2
    have hq := (hinv.queued q i hiq).2.2
    exact Option.some.inj (hp.symm.trans hq)
  · intro mb hne
    exact hinv.covered (.recv mb) hne
  · intro mb hne
    exact hinv.covered (.send mb) hne
  · intro mu hne hfree
    have hcovered := hinv.covered (.lock mu) hne
    have hone : demand s.spec.view (.lock mu) = 1 := if_pos hfree
    rw [hone] at hcovered
    exact Finset.card_pos.mp hcovered

/-- Two tasks wait for a message and a third sends one: the first waiter is woken
and has not run yet, the second still waits. -/
def twoWaitersRun : List Action :=
  [.create 0 0 0 0x1000, .create 0 0 0 0x2000, .create 0 0 0 0x3000,
    .call 1 (.recv 5), .run 1, .call 2 (.recv 5), .run 2,
    .call 3 (.send 5 blankMsg), .run 3]

theorem twoWaiters_no_lost_wakeup :
    ∃ s, exec (guarded systemStep (fun _ a => bootIdle a))
        (boot (fun _ => blankMailbox) (fun _ => blankMutex)) twoWaitersRun = some s ∧
      (s.kernel.mailbox 5).waitRecv.contents = [2] ∧ WakeContract s := by
  have hwaiting : (exec (guarded systemStep (fun _ a => bootIdle a))
      (boot (fun _ => blankMailbox) (fun _ => blankMutex)) twoWaitersRun).map
        (fun s => (s.kernel.mailbox 5).waitRecv.contents) = some [2] := by decide
  obtain ⟨s, hs, hqueue⟩ := Option.map_eq_some_iff.mp hwaiting
  exact ⟨s, hs, hqueue, no_lost_wakeup _ _ twoWaitersRun s hs⟩

end TraitOS.Tipc
