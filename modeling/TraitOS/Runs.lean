import Mathlib.Data.List.Basic

/-!
# Runs of a transition function

A component is a function from a state and a labelled action to the next state,
partial where the action is not enabled. All choices of the environment (which
task runs, what an interrupted client stores, where an allocation fails) are
carried by the label, so a run is a list of labels. Invariants are established
once per step and lifted to whole runs here.
-/
namespace TraitOS.Runs

variable {σ α : Type*}

/-- Execute a list of actions; the result is missing as soon as one of them is
not enabled. -/
def exec {σ α : Type*} (next : σ → α → Option σ) : σ → List α → Option σ
  | s, [] => some s
  | s, a :: as => (next s a).bind (fun t => exec next t as)

@[simp] theorem exec_nil (next : σ → α → Option σ) (s : σ) :
    exec next s [] = some s := rfl

@[simp] theorem exec_cons (next : σ → α → Option σ) (s : σ) (a : α)
    (as : List α) : exec next s (a :: as) = (next s a).bind (fun t => exec next t as) := rfl

theorem exec_cons_eq_some (next : σ → α → Option σ) (s u : σ) (a : α) (as : List α) :
    exec next s (a :: as) = some u ↔ ∃ t, next s a = some t ∧ exec next t as = some u := by
  simp only [exec_cons, Option.bind_eq_some_iff]

theorem exec_append (next : σ → α → Option σ) (s : σ) (as bs : List α) :
    exec next s (as ++ bs) = (exec next s as).bind (fun t => exec next t bs) := by
  induction as generalizing s with
  | nil => rfl
  | cons a as ih =>
    simp only [List.cons_append, exec_cons]
    cases next s a with
    | none => rfl
    | some t => exact ih t

/-- The invariant rule: what every enabled step preserves holds at the end of
every run that starts in it. -/
theorem exec_invariant {next : σ → α → Option σ} {I : σ → Prop}
    (hstep : ∀ s a t, I s → next s a = some t → I t) (as : List α) {s t : σ} (hs : I s)
    (hrun : exec next s as = some t) : I t := by
  induction as generalizing s with
  | nil =>
    simp only [exec_nil, Option.some.injEq] at hrun
    exact hrun ▸ hs
  | cons a as ih =>
    obtain ⟨u, hu, hrest⟩ := (exec_cons_eq_some next s t a as).mp hrun
    exact ih (hstep s a u hs hu) hrest

/-- Functional simulation: when every step of the concrete function is the step
of the abstract one under `f`, so is every run. -/
theorem exec_map {σ τ α : Type*} {next : σ → α → Option σ} {spec : τ → α → Option τ} {f : σ → τ}
    (hstep : ∀ s a, (next s a).map f = spec (f s) a) (s : σ) (as : List α) :
    (exec next s as).map f = exec spec (f s) as := by
  induction as generalizing s with
  | nil => rfl
  | cons a as ih =>
    rw [exec_cons, exec_cons, ← hstep s a]
    cases next s a with
    | none => rfl
    | some t => exact ih t

/-- Simulation up to a flag that no step sets again: a run that ends with the flag set is a run of
the abstract function. -/
theorem exec_simulates {σ τ α : Type*} {next : σ → α → Option σ} {spec : τ → α → Option τ}
    {f : σ → τ} {flag : σ → Prop}
    (hstep : ∀ s a t, next s a = some t → flag t → flag s ∧ spec (f s) a = some (f t)) (as : List α)
    {s t : σ} (hrun : exec next s as = some t) (ht : flag t) :
    flag s ∧ exec spec (f s) as = some (f t) := by
  induction as generalizing s with
  | nil =>
    simp only [exec_nil, Option.some.injEq] at hrun
    exact ⟨hrun ▸ ht, congrArg (some ∘ f) hrun⟩
  | cons a as ih =>
    obtain ⟨u, hu, hrest⟩ := (exec_cons_eq_some next s t a as).mp hrun
    obtain ⟨hflag, hspec⟩ := ih hrest
    obtain ⟨hs, hnext⟩ := hstep s a u hu hflag
    exact ⟨hs, (exec_cons_eq_some spec _ _ a as).mpr ⟨f u, hnext, hspec⟩⟩

/-- Keep only the steps whose action meets a condition in the state before it. -/
def guarded {σ α : Type*} (next : σ → α → Option σ) (C : σ → α → Prop)
    [∀ s a, Decidable (C s a)] (s : σ) (a : α) : Option σ :=
  if C s a then next s a else none

theorem guarded_eq_some (next : σ → α → Option σ) (C : σ → α → Prop) [∀ s a, Decidable (C s a)]
    (s t : σ) (a : α) : guarded next C s a = some t ↔ C s a ∧ next s a = some t := by
  unfold guarded
  split_ifs with h <;> simp [h]

/-- A run in which every step meets the condition is a run. -/
theorem exec_of_guarded {next : σ → α → Option σ} {C : σ → α → Prop} [∀ s a, Decidable (C s a)]
    (as : List α) {s t : σ} (h : exec (guarded next C) s as = some t) :
    exec next s as = some t := by
  induction as generalizing s with
  | nil => exact h
  | cons a as ih =>
    obtain ⟨u, hu, hrest⟩ := (exec_cons_eq_some _ s t a as).mp h
    have hstep := ((guarded_eq_some next C s u a).mp hu).2
    exact (exec_cons_eq_some next s t a as).mpr ⟨u, hstep, ih hrest⟩

/-- Every step of a run is in a relation. -/
def Along {σ α : Type*} (next : σ → α → Option σ) (R : σ → α → σ → Prop) : σ → List α → Prop
  | _, [] => True
  | s, a :: as => ∀ t, next s a = some t → R s a t ∧ Along next R t as

/-- Where each step from a good state is in the relation exactly if it meets a condition
before it, and then leads to a good state, a run is good throughout exactly if all of its
steps meet the condition. -/
theorem along_iff_guarded {next : σ → α → Option σ} {R : σ → α → σ → Prop} {I : σ → Prop}
    {C : σ → α → Prop} [∀ s a, Decidable (C s a)]
    (hstep : ∀ s a t, I s → next s a = some t → (R s a t ↔ C s a) ∧ (C s a → I t)) (as : List α)
    {s u : σ} (hs : I s) (hrun : exec next s as = some u) :
    Along next R s as ↔ exec (guarded next C) s as = some u := by
  induction as generalizing s with
  | nil => exact iff_of_true trivial hrun
  | cons a as ih =>
    obtain ⟨t, ht, hrest⟩ := (exec_cons_eq_some next s u a as).mp hrun
    obtain ⟨hiff, hgood⟩ := hstep s a t hs ht
    have honly : Along next R s (a :: as) ↔ R s a t ∧ Along next R t as :=
      ⟨fun h => h t ht, fun h t' ht' => Option.some.inj (ht.symm.trans ht') ▸ h⟩
    rw [honly, hiff, exec_cons_eq_some]
    constructor
    · intro ⟨hc, hall⟩
      exact ⟨t, (guarded_eq_some next C s t a).mpr ⟨hc, ht⟩, (ih (hgood hc) hrest).mp hall⟩
    · intro ⟨t', ht', hrun'⟩
      obtain ⟨hc, hnext⟩ := (guarded_eq_some next C s t' a).mp ht'
      cases ht.symm.trans hnext
      exact ⟨hc, (ih (hgood hc) hrest).mpr hrun'⟩

end TraitOS.Runs
