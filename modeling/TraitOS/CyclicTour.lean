import Mathlib.Data.Nat.Nth

/-!
# Tours around a cycle

A function that leads from every marked place of a cycle to the marked place that follows
it. Its iterates are the marked places by their distance from the start, so one tour has as
many steps as there are marks.
-/
namespace TraitOS.CyclicTour

/-- `next` leads from a marked place of a cycle of `n` places to the first marked one behind
it, which may be the place itself. -/
def Follows (n : ℕ) (p : ℕ → Prop) (next : ℕ → ℕ) : Prop :=
  ∀ c < n, p c → ∃ j < n, next c = (c + 1 + j) % n ∧ p ((c + 1 + j) % n) ∧
    ∀ i < j, ¬ p ((c + 1 + i) % n)

/-- The place at a distance from the start is marked. -/
def Marked (n : ℕ) (p : ℕ → Prop) (start o : ℕ) : Prop := p ((start + o) % n)

instance (n : ℕ) (p : ℕ → Prop) [DecidablePred p] (start : ℕ) : DecidablePred (Marked n p start) :=
  fun o => inferInstanceAs (Decidable (p ((start + o) % n)))

/-- How far a place is from the start. -/
def offset (n start i : ℕ) : ℕ := (i + (n - start)) % n

section Tour
variable {n start : ℕ} {p : ℕ → Prop} {next : ℕ → ℕ}

lemma offset_lt (hs : start < n) (i : ℕ) : offset n start i < n :=
  Nat.mod_lt _ (Nat.zero_lt_of_lt hs)

lemma offset_at (hs : start < n) {o : ℕ} (ho : o < n) : offset n start ((start + o) % n) = o := by
  have hsum : start + o + (n - start) = o + n := by omega
  rw [offset, Nat.mod_add_mod, hsum, Nat.add_mod_right, Nat.mod_eq_of_lt ho]

lemma at_offset (hs : start < n) {i : ℕ} (hi : i < n) : (start + offset n start i) % n = i := by
  have hsum : start + (i + (n - start)) = i + n := by omega
  rw [offset, Nat.add_mod_mod, hsum, Nat.add_mod_right, Nat.mod_eq_of_lt hi]

lemma marked_infinite (hs : start < n) (hp : p start) : (Set.ofPred (Marked n p start)).Infinite :=
  by
  refine Set.infinite_of_forall_exists_gt fun a => ⟨(a + 1) * n, ?_, ?_⟩
  · change p ((start + (a + 1) * n) % n)
    rwa [Nat.add_mul_mod_self_right, Nat.mod_eq_of_lt hs]
  · exact (Nat.lt_succ_self a).trans_le (Nat.le_mul_of_pos_right _ (Nat.zero_lt_of_lt hs))

variable [DecidablePred p]

/-- Around the whole cycle all marks are counted, wherever the count starts. -/
lemma count_marked (n start : ℕ) (p : ℕ → Prop) [DecidablePred p] : Nat.count (Marked n p start) n =
    Nat.count p n := by
  have hround : Nat.count (fun i => p (i % n)) n = Nat.count p n := by
    rw [Nat.count_eq_card_filter_range, Nat.count_eq_card_filter_range]
    refine congrArg Finset.card (Finset.filter_congr fun i hi => ?_)
    rw [Nat.mod_eq_of_lt (Finset.mem_range.mp hi)]
  have hshift : Nat.count (fun k => p ((n + k) % n)) start =
    Nat.count (fun i => p (i % n)) start := by
    simp only [Nat.add_mod_left]
  have hleft := Nat.count_add (fun i => p (i % n)) start n
  have hright := Nat.count_add (fun i => p (i % n)) n start
  rw [Nat.add_comm n start, hshift, hround] at hright
  have hmarked : Nat.count (Marked n p start) n = Nat.count (fun k => p ((start + k) % n)) n := rfl
  omega

/-- The marks by their distance are the places the iterates visit. -/
theorem Follows.iterate_eq (hf : Follows n p next) (hs : start < n) (hp : p start) (k : ℕ) :
    next^[k] start = (start + Nat.nth (Marked n p start) k) % n := by
  have hinf := marked_infinite hs hp
  induction k with
  | zero =>
    have hzero : Marked n p start 0 := by
      change p ((start + 0) % n)
      rwa [Nat.add_zero, Nat.mod_eq_of_lt hs]
    have hfirst := Nat.nth_count hzero
    rw [Nat.count_zero] at hfirst
    rw [hfirst, Function.iterate_zero, id, Nat.add_zero, Nat.mod_eq_of_lt hs]
  | succ k ih =>
    obtain ⟨o, ho⟩ : ∃ o, Nat.nth (Marked n p start) k = o := ⟨_, rfl⟩
    have hmark : Marked n p start o := ho ▸ Nat.nth_mem_of_infinite hinf k
    obtain ⟨j, _, hnext, hj, hnone⟩ := hf _ (Nat.mod_lt _ (Nat.zero_lt_of_lt hs)) hmark
    have hpos (i : ℕ) : ((start + o) % n + 1 + i) % n = (start + (o + 1 + i)) % n := by
      rw [Nat.add_assoc, Nat.mod_add_mod]
      congr 1
      omega
    simp only [hpos] at hnext hj hnone
    -- no mark lies between the two, so the second is the next one in the count
    have hcount : Nat.count (Marked n p start) (o + 1 + j) = k + 1 := by
      have hbetween : Nat.count (fun i => Marked n p start (o + 1 + i)) j = 0 := by
        rw [Nat.count_eq_card_filter_range, Finset.card_eq_zero, Finset.filter_eq_empty_iff]
        exact fun i hi => hnone i (Finset.mem_range.mp hi)
      rw [Nat.count_add, hbetween, ← ho, Nat.count_nth_succ_of_infinite hinf, Nat.add_zero]
    have hnth := Nat.nth_count (p := Marked n p start) hj
    rw [hcount] at hnth
    rw [Function.iterate_succ_apply', ih, ho, hnext, hnth]

/-- A tour: it comes back after as many steps as there are marks, meets each mark once on
the way, and in the order of the cycle. -/
structure Tour (n : ℕ) (p : ℕ → Prop) [DecidablePred p] (next : ℕ → ℕ) (start : ℕ) : Prop where
  back : next^[Nat.count p n] start = start
  marked : ∀ k, next^[k] start < n ∧ p (next^[k] start)
  once : ∀ i < n, p i → ∃! k, k < Nat.count p n ∧ next^[k] start = i
  order : ∀ k l, k < l → l < Nat.count p n →
    offset n start (next^[k] start) < offset n start (next^[l] start)

theorem Follows.tour (hf : Follows n p next) (hs : start < n)
    (hp : p start) : Tour n p next start := by
  have hinf := marked_infinite hs hp
  have hround : Marked n p start n := by
    change p ((start + n) % n)
    rwa [Nat.add_mod_right, Nat.mod_eq_of_lt hs]
  have hlast : Nat.nth (Marked n p start) (Nat.count p n) = n := by
    rw [← count_marked n start p]
    exact Nat.nth_count hround
  have hmono := Nat.nth_strictMono hinf
  have hbelow (k : ℕ) (hk : k < Nat.count p n) : Nat.nth (Marked n p start) k < n := by
    have hlt := hmono hk
    rwa [hlast] at hlt
  have hoffset (k : ℕ) (hk : k < Nat.count p n) :
      offset n start (next^[k] start) = Nat.nth (Marked n p start) k := by
    rw [hf.iterate_eq hs hp, offset_at hs (hbelow k hk)]
  refine ⟨?_, fun k => ?_, fun i hi hpi => ?_, fun k l hkl hl => ?_⟩
  · rw [hf.iterate_eq hs hp, hlast, Nat.add_mod_right, Nat.mod_eq_of_lt hs]
  · rw [hf.iterate_eq hs hp]
    exact ⟨Nat.mod_lt _ (Nat.zero_lt_of_lt hs), Nat.nth_mem_of_infinite hinf k⟩
  · have hmark : Marked n p start (offset n start i) := by
      change p ((start + offset n start i) % n)
      rwa [at_offset hs hi]
    have hlt : Nat.count (Marked n p start) (offset n start i) < Nat.count p n := by
      rw [← count_marked n start p]
      exact Nat.count_strict_mono hmark (offset_lt hs i)
    refine ⟨_, ⟨hlt, ?_⟩, fun k ⟨hk, hki⟩ => ?_⟩
    · rw [hf.iterate_eq hs hp, Nat.nth_count hmark, at_offset hs hi]
    · rw [← hki, hoffset k hk, Nat.count_nth_of_infinite hinf]
  · rw [hoffset k (hkl.trans hl), hoffset l hl]
    exact hmono hkl

end Tour

end TraitOS.CyclicTour
