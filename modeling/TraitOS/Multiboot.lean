import TraitOS.ByteMemory
import Mathlib.Logic.Relation

/-!
# Walking a Multiboot2 information block

The block starts with its total size; the tags follow from offset eight, each
with a type and a size, rounded up to eight bytes. Several kernel modules walk
the same list. A walk whose stride becomes zero never ends in the source; it
runs out of fuel here and has no result. The loader hands over a 32-bit
address, so the 64-bit pointer arithmetic of the walks does not wrap.
-/
namespace TraitOS.Multiboot
open ByteMemory

variable {m : Memory}

def infoSize (m : Memory) (mbi : ℕ) : ℕ := load32 m mbi
def infoEnd (m : Memory) (mbi : ℕ) : ℕ := mbi + infoSize m mbi

def tagType (m : Memory) (p : ℕ) : ℕ := load32 m p
def tagSize (m : Memory) (p : ℕ) : ℕ := load32 m (p + 4)

/-- `(size + 7) & ~7`, the sum taken in 32 bits. -/
def tagStride (m : Memory) (p : ℕ) : ℕ := (tagSize m p + 7) % 2 ^ 32 / 8 * 8

/-- One walk over the tags: stop at the end of the block or at the end tag,
otherwise run the body and move on. -/
def tagLoop {σ : Type*} (m : Memory) (limit : ℕ) (body : σ → ℕ → Option σ) :
    ℕ → ℕ → σ → Option σ
  | 0, _, _ => none
  | fuel + 1, p, s =>
    if p + 8 ≤ limit then
      if tagType m p = 0 then some s
      else (body s p).bind (tagLoop m limit body fuel (p + tagStride m p))
    else some s

/-- The addresses of the tags a walk from `p` passes over. -/
def tagList (m : Memory) (limit : ℕ) : ℕ → ℕ → Option (List ℕ)
  | 0, _ => none
  | fuel + 1, p =>
    if p + 8 ≤ limit then
      if tagType m p = 0 then some []
      else (tagList m limit fuel (p + tagStride m p)).map (fun ps => p :: ps)
    else some []

/-- A walk is a fold over the tags it passes; both are missing when either the
walk does not end or the body faults. -/
theorem tagLoop_eq_foldlM {σ : Type*} (m : Memory) (limit : ℕ) (body : σ → ℕ → Option σ)
    (fuel p : ℕ) (s : σ) :
    tagLoop m limit body fuel p s =
      (tagList m limit fuel p).bind (fun ps => ps.foldlM body s) := by
  induction fuel generalizing p s with
  | zero => rfl
  | succ fuel ih =>
    simp only [tagLoop, tagList]
    split_ifs with hp ht
    · rfl
    · have hrec : ∀ t, tagLoop m limit body fuel (p + tagStride m p) t =
          (tagList m limit fuel (p + tagStride m p)).bind (fun ps => ps.foldlM body t) :=
        fun t => ih _ t
      cases hl : tagList m limit fuel (p + tagStride m p) with
      | none =>
        cases hb : body s p with
        | none => simp
        | some t => simp [hrec t, hl]
      | some ps =>
        cases hb : body s p with
        | none => simp [hb]
        | some t => simp [hrec t, hl, hb]
    · rfl

def TagStep (m : Memory) (limit p q : ℕ) : Prop :=
  p + 8 ≤ limit ∧ tagType m p ≠ 0 ∧ q = p + tagStride m p

/-- A tag of the block: an address the walk reaches, inside the block and not
the end tag. -/
def IsTag (m : Memory) (mbi p : ℕ) : Prop :=
  Relation.ReflTransGen (TagStep m (infoEnd m mbi)) (mbi + 8) p ∧
    p + 8 ≤ infoEnd m mbi ∧ tagType m p ≠ 0

theorem mem_tagList (m : Memory) (limit fuel p : ℕ) {ps : List ℕ}
    (h : tagList m limit fuel p = some ps) (q : ℕ) :
    q ∈ ps ↔ Relation.ReflTransGen (TagStep m limit) p q ∧ q + 8 ≤ limit ∧ tagType m q ≠ 0 := by
  induction fuel generalizing p ps with
  | zero => simp [tagList] at h
  | succ fuel ih =>
    simp only [tagList] at h
    split_ifs at h with hp ht
    · cases h
      constructor
      · intro hq; simp at hq
      · rintro ⟨hr, hq, htq⟩
        rcases Relation.ReflTransGen.cases_head hr with rfl | ⟨r, hstep, -⟩
        · exact absurd ht htq
        · exact absurd ht hstep.2.1
    · obtain ⟨ps', hps', rfl⟩ := Option.map_eq_some_iff.mp h
      rw [List.mem_cons, ih _ hps']
      constructor
      · rintro (rfl | ⟨hr, hq, htq⟩)
        · exact ⟨Relation.ReflTransGen.refl, hp, ht⟩
        · exact ⟨Relation.ReflTransGen.head ⟨hp, ht, rfl⟩ hr, hq, htq⟩
      · rintro ⟨hr, hq, htq⟩
        rcases Relation.ReflTransGen.cases_head hr with rfl | ⟨r, ⟨-, -, rfl⟩, hr'⟩
        · exact Or.inl rfl
        · exact Or.inr ⟨hr', hq, htq⟩
    · cases h
      constructor
      · intro hq; simp at hq
      · rintro ⟨hr, hq, htq⟩
        rcases Relation.ReflTransGen.cases_head hr with rfl | ⟨r, hstep, -⟩
        · exact absurd hq hp
        · exact absurd hstep.1 hp

/-- A well-formed block lies in the first 4 GiB, its tags lie inside it, and its
memory-map tags hold at least their own header and full entries. -/
structure WellFormed (m : Memory) (mbi : ℕ) : Prop where
  fits : infoEnd m mbi ≤ 2 ^ 32
  tag_size : ∀ p, IsTag m mbi p → 8 ≤ tagSize m p ∧ p + tagSize m p ≤ infoEnd m mbi
  mmap_size : ∀ p, IsTag m mbi p → tagType m p = 6 → 16 ≤ tagSize m p ∧ 24 ≤ load32 m (p + 8)
  module_size : ∀ p, IsTag m mbi p → tagType m p = 3 → 16 ≤ tagSize m p

lemma tagList_isSome (m : Memory) (limit fuel p : ℕ)
    (hstride : ∀ q, Relation.ReflTransGen (TagStep m limit) p q → q + 8 ≤ limit → tagType m q ≠ 0 →
      8 ≤ tagStride m q)
    (hfuel : limit - p < 8 * fuel) : ∃ ps, tagList m limit fuel p = some ps := by
  induction fuel generalizing p with
  | zero => omega
  | succ fuel ih =>
    simp only [tagList]
    split_ifs with hp ht
    · exact ⟨[], rfl⟩
    · have hs := hstride p Relation.ReflTransGen.refl hp ht
      obtain ⟨ps, hps⟩ := ih (p + tagStride m p)
        (fun q hq => hstride q (Relation.ReflTransGen.head ⟨hp, ht, rfl⟩ hq)) (by omega)
      exact ⟨p :: ps, by rw [hps]; rfl⟩
    · exact ⟨[], rfl⟩

lemma start_le_of_walk {limit p q : ℕ} (h : Relation.ReflTransGen (TagStep m limit) p q) :
    p ≤ q := by
  induction h with
  | refl => exact le_rfl
  | tail _ hstep ih => exact ih.trans (by rw [hstep.2.2]; omega)

/-- Enough steps for a walk over the whole block: every tag takes eight bytes. -/
def walkFuel (m : Memory) (mbi : ℕ) : ℕ := infoSize m mbi + 1

def infoTags (m : Memory) (mbi : ℕ) : Option (List ℕ) :=
  tagList m (infoEnd m mbi) (walkFuel m mbi) (mbi + 8)

theorem mem_infoTags {mbi : ℕ} {ps : List ℕ} (h : infoTags m mbi = some ps) (p : ℕ) :
    p ∈ ps ↔ IsTag m mbi p := mem_tagList m _ _ _ h p

/-- Every tag holds at least its header and lies inside the block. -/
def TagsInside (m : Memory) (mbi : ℕ) : Prop :=
  ∀ p, IsTag m mbi p → 8 ≤ tagSize m p ∧ p + tagSize m p ≤ infoEnd m mbi

/-- The walk over a block that holds its tags ends. -/
theorem infoTags_of_tagsInside {mbi : ℕ} (h : TagsInside m mbi) :
    ∃ ps, infoTags m mbi = some ps := by
  apply tagList_isSome
  · intro q hq hin htype
    have hsize := h q ⟨hq, hin, htype⟩
    have hlt : infoSize m mbi < 2 ^ 32 := load32_lt _ _
    have hstart := start_le_of_walk hq
    unfold tagStride infoEnd at *
    omega
  · unfold walkFuel infoEnd
    omega

/-! ## Searching for a tag -/

/-- A walk that stops at the first tag it accepts. -/
def tagFind (m : Memory) (limit : ℕ) (accept : ℕ → Bool) : ℕ → ℕ → Option (Option ℕ)
  | 0, _ => none
  | fuel + 1, p =>
    if p + 8 ≤ limit then
      if tagType m p = 0 then some none
      else if accept p then some (some p)
      else tagFind m limit accept fuel (p + tagStride m p)
    else some none

/-- The search over the whole block. -/
def findTag (m : Memory) (mbi : ℕ) (accept : ℕ → Bool) : Option (Option ℕ) :=
  tagFind m (infoEnd m mbi) accept (walkFuel m mbi) (mbi + 8)

/-- The first accepted tag of the block. -/
def FirstTag (m : Memory) (mbi : ℕ) (accept : ℕ → Bool) (p : ℕ) : Prop :=
  IsTag m mbi p ∧ accept p = true ∧ ∀ q, IsTag m mbi q → accept q = true → p ≤ q

theorem FirstTag.unique {mbi p q : ℕ} {accept : ℕ → Bool} (hp : FirstTag m mbi accept p)
    (hq : FirstTag m mbi accept q) : p = q :=
  le_antisymm (hp.2.2 q hq.1 hq.2.1) (hq.2.2 p hp.1 hp.2.1)

lemma tagFind_congr {limit : ℕ} {accept accept' : ℕ → Bool} (fuel p : ℕ)
    (h : ∀ q, Relation.ReflTransGen (TagStep m limit) p q → q + 8 ≤ limit → tagType m q ≠ 0 →
      accept q = accept' q) :
    tagFind m limit accept fuel p = tagFind m limit accept' fuel p := by
  induction fuel generalizing p with
  | zero => rfl
  | succ fuel ih =>
    unfold tagFind
    split_ifs with hp ht ha ha' ha'
    · rfl
    · rfl
    · exact absurd ((h p .refl hp ht).symm.trans ha) ha'
    · exact absurd ((h p .refl hp ht).trans ha') ha
    · exact ih _ fun q hq => h q (.head ⟨hp, ht, rfl⟩ hq)
    · rfl

lemma tagFind_some {limit : ℕ} {accept : ℕ → Bool} {fuel p q : ℕ}
    (h : tagFind m limit accept fuel p = some (some q)) :
    Relation.ReflTransGen (TagStep m limit) p q ∧ q + 8 ≤ limit ∧ tagType m q ≠ 0 ∧
      accept q = true ∧
      ∀ r, Relation.ReflTransGen (TagStep m limit) p r → accept r = true → r + 8 ≤ limit →
        tagType m r ≠ 0 → q ≤ r := by
  induction fuel generalizing p with
  | zero => exact nomatch h
  | succ fuel ih =>
    unfold tagFind at h
    split_ifs at h with hp ht ha
    · exact nomatch Option.some.inj h
    · cases Option.some.inj h
      exact ⟨.refl, hp, ht, ha, fun r hr _ _ _ => start_le_of_walk hr⟩
    · obtain ⟨hreach, hin, htype, hacc, hfirst⟩ := ih h
      refine ⟨.head ⟨hp, ht, rfl⟩ hreach, hin, htype, hacc, fun r hr har hrin hrt => ?_⟩
      rcases Relation.ReflTransGen.cases_head hr with rfl | ⟨_, ⟨-, -, rfl⟩, hr'⟩
      · exact absurd har ha
      · exact hfirst r hr' har hrin hrt
    · exact nomatch Option.some.inj h

/-- A search with enough fuel comes to a tag the walk reaches if it accepts it. -/
lemma tagFind_reaches {limit : ℕ} {accept : ℕ → Bool} {fuel p q : ℕ} (hfuel : limit < p + 8 * fuel)
    (hreach : Relation.ReflTransGen (TagStep m limit) p q) (hin : q + 8 ≤ limit)
    (htype : tagType m q ≠ 0) (hacc : accept q = true) :
    ∃ r, tagFind m limit accept fuel p = some (some r) := by
  induction fuel generalizing p with
  | zero =>
    have := start_le_of_walk hreach
    omega
  | succ fuel ih =>
    rcases Relation.ReflTransGen.cases_head hreach with rfl | ⟨_, ⟨hp, ht, rfl⟩, hreach'⟩
    · exact ⟨p, by rw [tagFind, if_pos hin, if_neg htype, if_pos hacc]⟩
    · rw [tagFind, if_pos hp, if_neg ht]
      split_ifs with ha
      · exact ⟨p, rfl⟩
      · -- a stride is a multiple of eight; a walk that does not move stays here
        by_cases hzero : tagStride m p = 0
        · have hstay : ∀ r, Relation.ReflTransGen (TagStep m limit) p r → r = p := fun r hr => by
            induction hr with
            | refl => rfl
            | tail _ hstep ih => rw [hstep.2.2, ih, hzero, Nat.add_zero]
          exact absurd (hstay q hreach ▸ hacc) ha
        · refine ih ?_ hreach'
          unfold tagStride at hzero ⊢
          omega

section Block
variable {m : Memory} {mbi : ℕ} {accept accept' : ℕ → Bool}

lemma findTag_congr (h : ∀ p, IsTag m mbi p → accept p = accept' p) : findTag m mbi accept =
    findTag m mbi accept' :=
  tagFind_congr _ _ fun p hreach hin htype => h p ⟨hreach, hin, htype⟩

lemma findTag_first {p : ℕ} (h : findTag m mbi accept = some (some p)) : FirstTag m mbi accept p :=
  by
  obtain ⟨hreach, hin, htype, hacc, hfirst⟩ := tagFind_some h
  exact ⟨⟨hreach, hin, htype⟩, hacc, fun q hq haq => hfirst q hq.1 haq hq.2.1 hq.2.2⟩

lemma findTag_of_isTag {p : ℕ} (hp : IsTag m mbi p) (hacc : accept p = true) :
    ∃ q, findTag m mbi accept = some (some q) := by
  have hfuel : infoEnd m mbi < mbi + 8 + 8 * walkFuel m mbi := by
    unfold infoEnd walkFuel
    omega
  exact tagFind_reaches hfuel hp.1 hp.2.1 hp.2.2 hacc

/-- The search finds a tag exactly if it is the first accepted one. -/
theorem findTag_eq_some_iff {p : ℕ} : findTag m mbi accept = some (some p) ↔
    FirstTag m mbi accept p := by
  refine ⟨findTag_first, fun h => ?_⟩
  obtain ⟨q, hq⟩ := findTag_of_isTag h.1 h.2.1
  rw [h.unique (findTag_first hq)]
  exact hq

lemma exists_firstTag {p : ℕ} (hp : IsTag m mbi p) (hacc : accept p = true) : ∃ q,
    FirstTag m mbi accept q :=
  (findTag_of_isTag hp hacc).imp fun _ => findTag_first

end Block

end TraitOS.Multiboot
