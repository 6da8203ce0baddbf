import TraitOS.TipcSpec

/-!
# Mailboxes are bounded FIFO queues

Over any run the messages that sends put in and receives took out of a mailbox,
both read off the history of finished calls, differ by the messages in its ring.
-/
namespace TraitOS.Tipc
open RingBuffer Runs

/-- The message a finished call put into mailbox `mb`. -/
def Event.accepted (mb : ℕ) (e : Event) : Option Msg :=
  match e.call, e.reply with
  | .send b m, .ok => if b = mb then some m else none
  | _, _ => none

/-- The message a finished call took out of mailbox `mb`. -/
def Event.received (mb : ℕ) (e : Event) : Option Msg :=
  match e.call, e.reply with
  | .recv b, .message m => if b = mb then some m else none
  | _, _ => none

def accepted (mb : ℕ) (log : List Event) : List Msg := log.filterMap (Event.accepted mb)

def received (mb : ℕ) (log : List Event) : List Msg := log.filterMap (Event.received mb)

theorem accepted_append (mb : ℕ) (log : List Event) (e : Event) :
    accepted mb (log ++ [e]) = accepted mb log ++ (e.accepted mb).toList := by
  unfold accepted
  rw [List.filterMap_append]
  congr 1

theorem received_append (mb : ℕ) (log : List Event) (e : Event) :
    received mb (log ++ [e]) = received mb log ++ (e.received mb).toList := by
  unfold received
  rw [List.filterMap_append]
  congr 1

theorem wait_ring (v : View) (self : ℕ) (q : WaitList) :
    (v.wait self q).1.ring = v.ring ∧
      ((v.wait self q).2 = none ∨ (v.wait self q).2 = some .failed) := by
  unfold View.wait
  split_ifs
  · exact ⟨rfl, Or.inl rfl⟩
  · exact ⟨rfl, Or.inr rfl⟩

/-- A section that leaves every ring alone and finishes no transfer. -/
def Quiet (v : View) (c : Call) (r : View × Option Reply) : Prop :=
  r.1.ring = v.ring ∧
    ∀ reply, r.2 = some reply → ∀ t mb,
      Event.accepted mb ⟨t, c, reply⟩ = none ∧ Event.received mb ⟨t, c, reply⟩ = none

lemma quiet_of_failed {v : View} {c : Call} {r : View × Option Reply} (hring : r.1.ring = v.ring)
    (hreply : r.2 = none ∨ r.2 = some .failed) : Quiet v c r := by
  refine ⟨hring, fun reply hr t mb => ?_⟩
  obtain hnone | hfailed := hreply
  · rw [hnone] at hr
    exact absurd hr (by simp)
  · rw [hfailed] at hr
    cases hr
    cases c <;> exact ⟨rfl, rfl⟩

/-- What a section does to the rings: append a message and say so, remove the
first one and return it, or nothing. -/
theorem specSection_ring (v : View) (self : ℕ) (c : Call) :
    (∃ mb msg, c = .send mb msg ∧ (specSection v self c).2 = some .ok ∧
      (specSection v self c).1.ring = Function.update v.ring mb (v.ring mb ++ [msg])) ∨
    (∃ mb m rest, c = .recv mb ∧ v.ring mb = m :: rest ∧
      (specSection v self c).2 = some (.message m) ∧
      (specSection v self c).1.ring = Function.update v.ring mb rest) ∨
    Quiet v c (specSection v self c) := by
  cases c with
  | send mb msg =>
    change (∃ b m, _ ∧ (specSend v self mb msg).2 = _ ∧ (specSend v self mb msg).1.ring = _) ∨ _ ∨
      Quiet v (.send mb msg) (specSend v self mb msg)
    unfold specSend
    by_cases h0 : mb = 0
    · rw [if_pos h0]
      exact Or.inr (Or.inr (quiet_of_failed rfl (Or.inr rfl)))
    rw [if_neg h0]
    by_cases hroom : (v.ring mb).length < queueSlots
    · rw [if_pos hroom]
      exact Or.inl ⟨mb, msg, rfl, rfl, rfl⟩
    · rw [if_neg hroom]
      obtain ⟨hring, hreply⟩ := wait_ring v self (.send mb)
      exact Or.inr (Or.inr (quiet_of_failed hring hreply))
  | recv mb =>
    change _ ∨ (∃ b m rest, _ ∧ _ ∧ (specRecv v self mb).2 = _ ∧ (specRecv v self mb).1.ring = _) ∨
      Quiet v (.recv mb) (specRecv v self mb)
    unfold specRecv
    by_cases h0 : mb = 0
    · rw [if_pos h0]
      exact Or.inr (Or.inr (quiet_of_failed rfl (Or.inr rfl)))
    rw [if_neg h0]
    cases hring : v.ring mb with
    | nil =>
      obtain ⟨hkeep, hreply⟩ := wait_ring v self (.recv mb)
      exact Or.inr (Or.inr (quiet_of_failed hkeep hreply))
    | cons m rest => exact Or.inr (Or.inl ⟨mb, m, rest, rfl, hring, rfl, rfl⟩)
  | lock mu =>
    refine Or.inr (Or.inr ⟨?_, fun reply _ t mb => ?_⟩)
    · change (specLock v self mu).1.ring = v.ring
      unfold specLock
      split_ifs
      · rfl
      · rfl
      · rfl
      · exact (wait_ring v self (.lock mu)).1
    · cases reply <;> exact ⟨rfl, rfl⟩
  | unlock mu =>
    refine Or.inr (Or.inr ⟨?_, fun reply _ t mb => ?_⟩)
    · change (specUnlock v self mu).1.ring = v.ring
      unfold specUnlock
      split_ifs <;> rfl
    · cases reply <;> exact ⟨rfl, rfl⟩

/-- The history of each mailbox matches its ring, and every send in the history
or under way carries its task. -/
structure FifoInv (s : SpecSystem) : Prop where
  order : ∀ mb, accepted mb s.log = received mb s.log ++ s.view.ring mb
  stamped : ∀ e ∈ s.log, ∀ mb msg, e.call = .send mb msg → msg.sender = e.task
  pending : ∀ t mb msg, s.pending t = some (.send mb msg) → msg.sender = t

lemma fifoInv_settle {s : SpecSystem} {t : ℕ} {c : Call} (hs : FifoInv s)
    (hp : s.pending t = some c) : FifoInv (s.settle t c (specSection s.view t c)) := by
  have hstamp : ∀ mb msg, c = .send mb msg → msg.sender = t := by
    intro mb msg hc
    exact hs.pending t mb msg (hc ▸ hp)
  have hpending : ∀ r : View × Option Reply, ∀ u mb msg,
      (s.settle t c r).pending u = some (.send mb msg) → msg.sender = u := by
    intro r u mb msg hu
    cases hr : r.2 with
    | none =>
      simp only [SpecSystem.settle, hr] at hu
      exact hs.pending u mb msg hu
    | some reply =>
      simp only [SpecSystem.settle, hr, Function.update_apply] at hu
      split_ifs at hu
      exact hs.pending u mb msg hu
  have hlog : ∀ r : View × Option Reply, ∀ e ∈ (s.settle t c r).log, ∀ mb msg,
      e.call = .send mb msg → msg.sender = e.task := by
    intro r e he mb msg hcall
    cases hr : r.2 with
    | none =>
      simp only [SpecSystem.settle, hr] at he
      exact hs.stamped e he mb msg hcall
    | some reply =>
      simp only [SpecSystem.settle, hr, List.mem_append, List.mem_singleton] at he
      obtain hold | rfl := he
      · exact hs.stamped e hold mb msg hcall
      · exact hstamp mb msg hcall
  refine ⟨fun mb => ?_, hlog _, hpending _⟩
  have horder := hs.order mb
  obtain ⟨b, msg, rfl, hreply, hring⟩ | ⟨b, m, rest, rfl, hcons, hreply, hring⟩ | ⟨hring, hquiet⟩ :=
    specSection_ring s.view t c
  · simp only [SpecSystem.settle, hreply, accepted_append, received_append, hring,
      Function.update_apply, horder, Event.accepted, Event.received]
    by_cases hb : b = mb
    · subst hb
      simp
    · simp [hb, Ne.symm hb]
  · simp only [SpecSystem.settle, hreply, accepted_append, received_append, hring,
      Function.update_apply, horder, Event.accepted, Event.received]
    by_cases hb : b = mb
    · subst hb
      simp [hcons]
    · simp [hb, Ne.symm hb]
  · cases hreply : (specSection s.view t c).2 with
    | none => simp only [SpecSystem.settle, hreply, hring, horder]
    | some reply =>
      obtain ⟨hacc, hrec⟩ := hquiet reply hreply t mb
      simp only [SpecSystem.settle, hreply, accepted_append, received_append, hring, hacc, hrec,
        horder, Option.toList_none, List.append_nil]

theorem fifoInv_step (s : SpecSystem) (a : Action) (t : SpecSystem) (hs : FifoInv s)
    (h : specStep s a = some t) : FifoInv t := by
  obtain ⟨i, c, _, _, rfl⟩ | ⟨i, c, _, hp, rfl⟩ | ⟨st, _, rfl⟩ := specStep_cases h
  · refine ⟨hs.order, hs.stamped, fun u mb msg hu => ?_⟩
    simp only [Function.update_apply] at hu
    split_ifs at hu with hui
    · cases c <;> simp only [Call.enter, Option.some.injEq, reduceCtorEq, Call.send.injEq] at hu
      rw [← hu.2, hui]
    · exact hs.pending u mb msg hu
  · exact fifoInv_settle hs hp
  · exact ⟨hs.order, hs.stamped, hs.pending⟩

lemma fifoInv_boot (mailbox : ℕ → Mailbox) (mutex : ℕ →
    Mutex) : FifoInv (boot mailbox mutex).spec := by
  refine ⟨fun mb => ?_, fun e he => ?_, fun t mb msg h => ?_⟩
  · have hempty : (boot mailbox mutex).spec.view.ring mb = [] :=
      Ring.contents_empty (mailbox mb).ring.slot (show 0 < queueSlots by decide)
    rw [hempty]
    rfl
  · exact absurd he (List.not_mem_nil)
  · exact absurd h (by simp [System.spec, boot])

/-- A step that finishes no call, or finishes one with `-1`. -/
def NoTransfer (s t : System) : Prop :=
  t.log = s.log ∨ ∃ e : Event, e.reply = .failed ∧ t.log = s.log ++ [e]

/-- What a mailbox guarantees in a state of a run. -/
structure FifoContract (s : System) (mb : ℕ) : Prop where
  order : accepted mb s.log = received mb s.log ++ (s.kernel.mailbox mb).ring.contents
  bounded : (s.kernel.mailbox mb).ring.contents.length ≤ queueSlots
  stamped : ∀ e ∈ s.log, ∀ msg, e.call = .send mb msg → msg.sender = e.task
  untouched : ∀ a t, systemStep s a = some t → NoTransfer s t →
    (t.kernel.mailbox mb).ring.contents = (s.kernel.mailbox mb).ring.contents

/-- In every run of any tasks every mailbox is a bounded FIFO queue: receives
return the accepted messages in order, the ring holds the rest, each message
carries its sender, and a call that returns `-1` moves no message. -/
theorem mailbox_refines_fifo (mailbox : ℕ → Mailbox) (mutex : ℕ → Mutex) (actions : List Action)
    (s : System) (hrun : exec systemStep (boot mailbox mutex) actions = some s) (mb : ℕ) :
    FifoContract s mb := by
  have hinv : FifoInv s.spec :=
    exec_invariant fifoInv_step actions (fifoInv_boot mailbox mutex) (run_spec hrun)
  refine ⟨hinv.order mb, ?_, fun e he msg hcall => hinv.stamped e he mb msg hcall, ?_⟩
  · rw [Ring.length_contents]
    exact (s.kernel.mailbox mb).ring.count_le
  · intro a t hstep hquiet
    have hspec := systemStep_spec s a
    rw [hstep] at hspec
    have hnext : FifoInv t.spec := fifoInv_step s.spec a t.spec hinv hspec.symm
    have hbefore := hinv.order mb
    have hafter := hnext.order mb
    have hsame : accepted mb t.log = accepted mb s.log ∧ received mb t.log = received mb s.log := by
      obtain hlog | ⟨e, hfailed, hlog⟩ := hquiet
      · rw [hlog]
        exact ⟨rfl, rfl⟩
      · have hnone : e.accepted mb = none ∧ e.received mb = none := by
          unfold Event.accepted Event.received
          rw [hfailed]
          cases e.call <;> exact ⟨rfl, rfl⟩
        rw [hlog, accepted_append, received_append, hnone.1, hnone.2]
        simp
    change accepted mb t.log = received mb t.log ++ (t.kernel.mailbox mb).ring.contents at hafter
    change accepted mb s.log = received mb s.log ++ (s.kernel.mailbox mb).ring.contents at hbefore
    rw [hsame.1, hsame.2, hbefore] at hafter
    exact (List.append_cancel_left hafter).symm

/-- Task 1 waits for a message that the boot task then sends. -/
def handoffRun : List Action :=
  [.create 0 0 0 0x1000, .call 1 (.recv 5), .run 1, .call 0 (.send 5 blankMsg), .run 0, .run 1]

theorem handoff_refines_fifo :
    ∃ s, exec systemStep (boot (fun _ => blankMailbox) (fun _ => blankMutex)) handoffRun = some s ∧
      received 5 s.log = [blankMsg] ∧ FifoContract s 5 := by
  have hreceived : (exec systemStep (boot (fun _ => blankMailbox) (fun _ => blankMutex))
      handoffRun).map (fun s => received 5 s.log) = some [blankMsg] := by decide
  obtain ⟨s, hs, hlog⟩ := Option.map_eq_some_iff.mp hreceived
  exact ⟨s, hs, hlog, mailbox_refines_fifo _ _ handoffRun s hs 5⟩

end TraitOS.Tipc
