import Mathlib.Data.List.Basic

/-!
# Computations that record their reads

A computation that may stop with an error carries the indices at which it has read, in
order. Its result alone is that of the plain computation; a property of the reads is shown
along the binds.
-/
namespace TraitOS.ReadLog

structure Logged (ε α : Type) where
  result : Except ε α
  reads : List ℕ

namespace Logged
variable {ε α β : Type}

/-- A computation that reads nothing. -/
def lift (x : Except ε α) : Logged ε α := ⟨x, []⟩

/-- Read one cell. -/
def read (m : ℕ → α) (i : ℕ) : Logged ε α := ⟨.ok (m i), [i]⟩

def bind (x : Logged ε α) (f : α → Logged ε β) : Logged ε β :=
  match x.result with
  | .ok a => ⟨(f a).result, x.reads ++ (f a).reads⟩
  | .error e => ⟨.error e, x.reads⟩

instance : Monad (Logged ε) where
  pure a := lift (.ok a)
  bind := bind

/-- Every read has the property. -/
def All (P : ℕ → Prop) (x : Logged ε α) : Prop := ∀ i ∈ x.reads, P i

@[simp] lemma result_pure (a : α) : (pure a : Logged ε α).result = .ok a := rfl

/-- Forgetting the reads commutes with sequencing. -/
@[simp] lemma result_bind (x : Logged ε α) (f : α → Logged ε β) :
    (x >>= f).result = x.result >>= fun a => (f a).result := by
  change (bind x f).result = _
  unfold bind
  cases x.result with
  | ok a => rfl
  | error e => rfl

lemma result_bind_ok {x : Logged ε α} {f : α → Logged ε β} {a : α} (h : x.result = .ok a) :
    (x >>= f).result = (f a).result := by
  rw [result_bind, h]
  rfl

variable {P : ℕ → Prop}

@[simp] lemma all_pure (a : α) : All P (pure a : Logged ε α) := fun _ h => nomatch h
@[simp] lemma all_lift (x : Except ε α) : All P (lift x) := fun _ h => nomatch h

@[simp] lemma all_read (m : ℕ → α) (i : ℕ) : All P (read m i : Logged ε α) ↔ P i :=
  List.forall_mem_singleton

/-- What follows is read only after a result. -/
lemma all_bind {x : Logged ε α} {f : α → Logged ε β} :
    All P (x >>= f) ↔ All P x ∧ ∀ a, x.result = .ok a → All P (f a) := by
  change All P (bind x f) ↔ _
  unfold bind
  cases hx : x.result with
  | ok a =>
    unfold All
    simp only [List.forall_mem_append]
    refine and_congr_right fun _ => ⟨fun h b hb => ?_, fun h => h a rfl⟩
    rw [← Except.ok.inj hb]
    exact h
  | error e => exact ⟨fun h => ⟨h, fun _ ha => nomatch ha⟩, fun h => h.1⟩

/-- The rule for a read whose value is known. -/
lemma all_bind_ok {x : Logged ε α} {f : α → Logged ε β} {a : α} (h : x.result = .ok a) :
    All P (x >>= f) ↔ All P x ∧ All P (f a) := by
  rw [all_bind]
  refine and_congr_right fun _ => ⟨fun hf => hf a h, fun hf b hb => ?_⟩
  rw [h] at hb
  rwa [← Except.ok.inj hb]

end Logged
end TraitOS.ReadLog
