import Mathlib.Data.List.Basic
import Mathlib.Data.List.Range
import Mathlib.Data.Nat.ModEq
import Mathlib.Tactic

/-!
# Fixed-capacity rings

A ring stores its elements in an array of `cap` slots, from index `head`
onwards modulo the capacity. The index bounds are fields, so every ring value
is well formed and the queue laws below need no side conditions. The queue a
ring stands for is `contents`, oldest element first.
-/
namespace TraitOS.RingBuffer

variable {α : Type*} {cap : ℕ}

structure Ring (α : Type*) (cap : ℕ) where
  slot : ℕ → α
  head : ℕ
  count : ℕ
  head_lt : head < cap
  count_le : count ≤ cap

namespace Ring

def contents {α : Type*} {cap : ℕ} (r : Ring α cap) : List α :=
  (List.range r.count).map (fun i => r.slot ((r.head + i) % cap))

@[simp] theorem length_contents (r : Ring α cap) :
    r.contents.length = r.count := by simp [contents]

/-- Store at the first slot after the queue; refused when all slots are taken. -/
def push {α : Type*} {cap : ℕ} (r : Ring α cap) (x : α) : Option (Ring α cap) :=
  if h : r.count < cap then
    some {
      slot := Function.update r.slot ((r.head + r.count) % cap) x
      head := r.head
      count := r.count + 1
      head_lt := r.head_lt
      count_le := h }
  else none

/-- Take the element at `head`; refused when no slot is taken. -/
def pop {α : Type*} {cap : ℕ} (r : Ring α cap) : Option (α × Ring α cap) :=
  if r.count = 0 then none
  else
    some (r.slot r.head, {
      slot := r.slot
      head := (r.head + 1) % cap
      count := r.count - 1
      head_lt := Nat.mod_lt _ (Nat.zero_lt_of_lt r.head_lt)
      count_le := Nat.le_trans (Nat.sub_le _ _) r.count_le })

theorem push_eq_none (r : Ring α cap) (x : α) : r.push x = none ↔ r.count = cap := by
  have h := r.count_le
  unfold push
  split_ifs with hlt <;> simp <;> omega

theorem count_lt_of_push {r r' : Ring α cap} {x : α} (h : r.push x = some r') : r.count < cap := by
  unfold push at h
  split_ifs at h with hlt
  exact hlt

theorem pop_eq_none (r : Ring α cap) : r.pop = none ↔ r.contents = [] := by
  unfold pop
  rw [← List.length_eq_zero_iff, length_contents]
  split_ifs with h <;> simp [h]

/-- Two occupied positions of one ring are the same slot only when they are the
same position: the distance between them is below the capacity. -/
lemma slot_index_injective {cap h i j : ℕ} (hi : i < cap) (hj : j < cap)
    (he : (h + i) % cap = (h + j) % cap) : i = j := by
  have hmod : i % cap = j % cap := Nat.ModEq.add_left_cancel' h he
  rwa [Nat.mod_eq_of_lt hi, Nat.mod_eq_of_lt hj] at hmod

theorem push_contents {r r' : Ring α cap} {x : α} (h : r.push x = some r') :
    r'.contents = r.contents ++ [x] := by
  unfold push at h
  split_ifs at h with hlt
  cases h
  simp only [contents, List.range_succ, List.map_append, List.map_cons, List.map_nil,
    Function.update_self]
  congr 1
  apply List.map_congr_left
  intro i hi
  have hir := List.mem_range.mp hi
  apply Function.update_of_ne
  intro he
  have := slot_index_injective (by omega) hlt he
  omega

theorem pop_contents {r r' : Ring α cap} {x : α} (h : r.pop = some (x, r')) :
    r.contents = x :: r'.contents := by
  unfold pop at h
  split_ifs at h with h0
  simp only [Option.some.injEq, Prod.mk.injEq] at h
  obtain ⟨rfl, rfl⟩ := h
  obtain ⟨k, hk⟩ := Nat.exists_eq_succ_of_ne_zero h0
  simp only [contents, hk, List.range_succ_eq_map, List.map_cons, List.map_map, Nat.add_zero,
    Nat.mod_eq_of_lt r.head_lt, Nat.succ_sub_one, List.cons.injEq, true_and]
  apply List.map_congr_left
  intro i _
  simp only [Function.comp_apply, Nat.mod_add_mod]
  congr 2
  omega

/-- A ring with no element, over whatever the slots held before. -/
def empty {α : Type*} {cap : ℕ} (slot : ℕ → α) (hcap : 0 < cap) : Ring α cap :=
  ⟨slot, 0, 0, hcap, Nat.zero_le _⟩

@[simp] theorem contents_empty (slot : ℕ → α) (hcap : 0 < cap) :
    (empty slot hcap : Ring α cap).contents = [] := by simp [contents, empty]

end Ring

end TraitOS.RingBuffer
