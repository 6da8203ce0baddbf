import TraitOS.TvmmLife

/-!
# The page tables of the boot code

The boot code maps the first 1 GiB of memory twice with 2 MiB leaves: as it is,
through PML4 slot 0, and in the window at the end of the address space, through
slot 511. The hardening code later splits the first leaf of each mapping into a
page table. Either way the result is a tree that the table invariant describes,
with the leaves left out.
-/
namespace TraitOS.Tvmm
open ByteMemory PageTable Tpmm Tmalloc

variable {m : Memory}

/-! ## The boot code -/

/-- `mov [table + i * 8], eax`: the upper half of the entry is left alone. -/
def setEntryLow (m : Memory) (table i eax : ℕ) : Memory := storeLE m (table + 8 * i) 4 eax

/-- The loops that fill a page directory with 2 MiB leaves. -/
def setLeaves (m : Memory) (table : ℕ) : ℕ → Memory
  | 0 => m
  | i + 1 => setEntryLow (setLeaves m table i) table i ((i <<< 21) ||| 0x83)

/-- The five tables lie one after the other from `p4Table` on. -/
def setupPaging (m : Memory) (p4Table : ℕ) : Memory :=
  let p3Table := p4Table + 4096
  let p2Table := p3Table + 4096
  let p3High := p2Table + 4096
  let p2High := p3High + 4096
  let m := fill m p4Table (5120 * 4) 0
  let m := setEntryLow m p4Table 0 (p3Table ||| 0x3)
  let m := setEntryLow m p3Table 0 (p2Table ||| 0x3)
  let m := setLeaves m p2Table 512
  let m := setEntryLow m p4Table 511 (p3High ||| 0x3)
  let m := setEntryLow m p3High 510 (p2High ||| 0x3)
  setLeaves m p2High 512

/-- The state after `vmm_init` with this CR3, before any use of the heap. -/
def vmmInit (p : Paging) (cr3 kernelAddr : ℕ) (cells : Memory) : Vmm where
  heap := emptyHeap p (target cr3) cells
  kernelAddr := kernelAddr
  kernelAspace := ⟨cr3, physToVirt (target cr3)⟩
  current := kernelAddr
  cr3 := cr3

/-! ## Trees of this shape -/

/-- The frames of a boot tree, and of the page tables that its two first leaves may
have been split into. -/
structure BootFrames where
  p4 : ℕ
  p3 : ℕ
  p2 : ℕ
  p3High : ℕ
  p2High : ℕ
  low : Option ℕ
  high : Option ℕ

def BootFrames.frames (b : BootFrames) : List ℕ :=
  [b.p4, b.p3, b.p2, b.p3High, b.p2High] ++ (b.low.toList ++ b.high.toList)

def LeadsTo (e f : ℕ) : Prop := present e = true ∧ large e = false ∧ frameNo e = f

/-- A table with a single entry. -/
structure OneChild (m : Memory) (table i child : ℕ) : Prop where
  child : LeadsTo (entry m (table * frameBytes) i) child
  empty : ∀ j < entries, j ≠ i → entry m (table * frameBytes) j = 0

/-- A page directory of 2 MiB leaves over the first 1 GiB. -/
structure LeafDirectory (m : Memory) (pd : ℕ) (split : Option ℕ) : Prop where
  leaf : ∀ i < entries, (i = 0 → split = none) →
    present (entry m (pd * frameBytes) i) = true ∧ large (entry m (pd * frameBytes) i) = true ∧
      target (entry m (pd * frameBytes) i) = i * 2 ^ 21
  table : ∀ t, split = some t → LeadsTo (entry m (pd * frameBytes) 0) t

structure BootTree (b : BootFrames) (m : Memory) : Prop where
  first : LeadsTo (entry m (b.p4 * frameBytes) 0) b.p3
  last : LeadsTo (entry m (b.p4 * frameBytes) 511) b.p3High
  empty : ∀ i < entries, i ≠ 0 → i ≠ 511 → entry m (b.p4 * frameBytes) i = 0
  third : OneChild m b.p3 0 b.p2
  thirdHigh : OneChild m b.p3High 510 b.p2High
  identity : LeafDirectory m b.p2 b.low
  window : LeafDirectory m b.p2High b.high

/-! ## The tree the boot code builds -/

lemma setEntryLow_eq {table i v : ℕ} (h0 : entry m table i = 0) (hv : v < 2 ^ 32) :
    setEntryLow m table i v = setEntry m table i v := by
  have hzero : ∀ k < 8, m (table + 8 * i + k) = 0 := eq_zero_of_loadLE h0
  funext x
  unfold setEntryLow setEntry store64 storeLE
  by_cases hlow : table + 8 * i ≤ x ∧ x < table + 8 * i + 4
  · rw [if_pos hlow, if_pos (by omega)]
  · rw [if_neg hlow]
    by_cases hhigh : table + 8 * i ≤ x ∧ x < table + 8 * i + 8
    · rw [if_pos hhigh]
      obtain ⟨k, rfl⟩ := Nat.exists_eq_add_of_le hhigh.1
      have hpow : 256 ^ 4 ≤ 256 ^ k := Nat.pow_le_pow_right (by decide) (by omega)
      rw [hzero k (by omega), Nat.add_sub_cancel_left, Nat.div_eq_of_lt (by omega)]
      rfl
    · rw [if_neg hhigh]

/-- An entry of a cleared table, as the boot code writes it. -/
lemma entry_setEntryLow {f g i j v : ℕ} (hi : i < entries) (hj : j < entries)
    (h0 : entry m (g * frameBytes) j = 0) (hv : v < 2 ^ 32) :
    entry (setEntryLow m (g * frameBytes) j v) (f * frameBytes) i =
      if f = g ∧ i = j then v else entry m (f * frameBytes) i := by
  rw [setEntryLow_eq h0 hv]
  by_cases h : f = g ∧ i = j
  · rw [if_pos h, h.1, h.2]
    exact entry_setEntry_self m _ _ (by omega)
  · rw [if_neg h]
    exact entry_setEntry_of_ne m v hi hj (not_and_or.mp h)

lemma leaf_lt {i : ℕ} (hi : i < entries) : (i <<< 21) ||| 0x83 < 2 ^ 32 := by
  refine Nat.or_lt_two_pow ?_ (by decide)
  rw [Nat.shiftLeft_eq]
  unfold entries at hi
  omega

lemma leaf_spec {i : ℕ} (hi : i < entries) :
    present ((i <<< 21) ||| 0x83) = true ∧ large ((i <<< 21) ||| 0x83) = true ∧
      target ((i <<< 21) ||| 0x83) = i * 2 ^ 21 := by
  have hframe : i <<< 21 = (i * 512) * frameBytes := by
    rw [Nat.shiftLeft_eq]
    unfold frameBytes
    omega
  have hp : present 0x83 = true := by decide
  have hl : large 0x83 = true := by decide
  have ht : target 0x83 = 0 := by decide
  refine ⟨?_, ?_, ?_⟩
  · rw [present_or, hp, Bool.or_true]
  · rw [large_or, hl, Bool.or_true]
  · unfold entries at hi
    rw [target_or, ht, Nat.or_zero, hframe, target_frame (by omega)]
    unfold frameBytes
    omega

lemma entry_setLeaves {f g i : ℕ} (hi : i < entries)
    (h0 : ∀ j < entries, entry m (g * frameBytes) j = 0) (n : ℕ) (hn : n ≤ entries) :
    entry (setLeaves m (g * frameBytes) n) (f * frameBytes) i =
      if f = g ∧ i < n then (i <<< 21) ||| 0x83 else entry m (f * frameBytes) i := by
  induction n generalizing f i with
  | zero => simp [setLeaves]
  | succ n ih =>
    have hslot : entry (setLeaves m (g * frameBytes) n) (g * frameBytes) n = 0 := by
      rw [ih hn (by omega), if_neg (by omega)]
      exact h0 n hn
    unfold setLeaves
    rw [entry_setEntryLow hi hn hslot (leaf_lt hn), ih hi (by omega)]
    by_cases hself : f = g ∧ i = n
    · rw [if_pos hself, if_pos ⟨hself.1, by omega⟩, hself.2]
    · rw [if_neg hself]
      exact if_congr (by omega) rfl rfl

lemma pointer_spec {f : ℕ} (hf : f < 2 ^ 20) :
    f * frameBytes ||| 0x3 < 2 ^ 32 ∧ LeadsTo (f * frameBytes ||| 0x3) f := by
  have hp : present 0x3 = true := by decide
  have hl : large 0x3 = false := by decide
  have ht : target 0x3 = 0 := by decide
  refine ⟨Nat.or_lt_two_pow (by unfold frameBytes; omega) (by decide), ?_, ?_, ?_⟩
  · rw [present_or, hp, Bool.or_true]
  · rw [large_or, hl, large_frame, Bool.or_false]
  · apply frameNo_eq_of_target
    rw [target_or, ht, Nat.or_zero, target_frame (by omega)]

/-- The entries of the five tables that start at frame `P`. -/
def Content (P : ℕ) (m : Memory) (c : ℕ → ℕ → ℕ) : Prop :=
  ∀ k < 5, ∀ i < entries, entry m ((P + k) * frameBytes) i = c k i

lemma Content.setEntryLow {P v : ℕ} {c : ℕ → ℕ → ℕ} (h : Content P m c) (k₀ j : ℕ) (hk₀ : k₀ < 5)
    (hj : j < entries) (h0 : c k₀ j = 0) (hv : v < 2 ^ 32) :
    Content P (setEntryLow m ((P + k₀) * frameBytes) j v)
      fun k i => if k = k₀ ∧ i = j then v else c k i := by
  intro k hk i hi
  rw [entry_setEntryLow hi hj ((h k₀ hk₀ j hj).trans h0) hv, h k hk i hi]
  exact if_congr (by omega) rfl rfl

lemma Content.setLeaves {P : ℕ} {c : ℕ → ℕ → ℕ} (h : Content P m c) (k₀ : ℕ) (hk₀ : k₀ < 5)
    (h0 : ∀ j, c k₀ j = 0) :
    Content P (setLeaves m ((P + k₀) * frameBytes) 512)
      fun k i => if k = k₀ then (i <<< 21) ||| 0x83 else c k i := by
  intro k hk i hi
  rw [entry_setLeaves hi (fun j hj => (h k₀ hk₀ j hj).trans (h0 j)) 512 le_rfl, h k hk i hi]
  exact if_congr (by unfold entries at hi; omega) rfl rfl

/-- What the boot code leaves in its five tables. -/
theorem content_setupPaging (m : Memory) {P : ℕ} (hP : P + 5 ≤ 2 ^ 20) :
    Content P (setupPaging m (P * frameBytes)) fun k i =>
      if k = 4 then (i <<< 21) ||| 0x83
      else if k = 3 ∧ i = 510 then (P + 4) * frameBytes ||| 0x3
      else if k = 0 ∧ i = 511 then (P + 3) * frameBytes ||| 0x3
      else if k = 2 then (i <<< 21) ||| 0x83
      else if k = 1 ∧ i = 0 then (P + 2) * frameBytes ||| 0x3
      else if k = 0 ∧ i = 0 then (P + 1) * frameBytes ||| 0x3
      else 0 := by
  have hnext : ∀ f, f * frameBytes + 4096 = (f + 1) * frameBytes := fun f =>
    (Nat.succ_mul f 4096).symm
  have h0 : Content P (fill m (P * frameBytes) (5120 * 4) 0) fun _ _ => 0 := by
    intro k hk i hi
    unfold entries at hi
    unfold frameBytes
    exact loadLE_fill_zero m (by omega) (by omega)
  have hp : ∀ k < 5, (P + k) * frameBytes ||| 0x3 < 2 ^ 32 := fun k hk =>
    (pointer_spec (by omega)).1
  unfold setupPaging
  dsimp only
  rw [hnext, hnext, hnext, hnext]
  have h1 := h0.setEntryLow 0 0 (by decide) (by decide) rfl (hp 1 (by decide))
  have h2 := h1.setEntryLow 1 0 (by decide) (by decide) rfl (hp 2 (by decide))
  have h3 := h2.setLeaves 2 (by decide) (fun _ => rfl)
  have h4 := h3.setEntryLow 0 511 (by decide) (by decide) rfl (hp 3 (by decide))
  have h5 := h4.setEntryLow 3 510 (by decide) (by decide) rfl (hp 4 (by decide))
  exact h5.setLeaves 4 (by decide) (fun _ => rfl)

/-- The tree of the boot code has the shape. -/
theorem setupPaging_tree (m : Memory) {P : ℕ} (hP : P + 5 ≤ 2 ^ 20) :
    BootTree ⟨P, P + 1, P + 2, P + 3, P + 4, none, none⟩ (setupPaging m (P * frameBytes)) := by
  have h := content_setupPaging m hP
  have hp : ∀ k < 5, LeadsTo ((P + k) * frameBytes ||| 0x3) (P + k) :=
    fun k hk => (pointer_spec (by omega)).2
  refine ⟨?_, ?_, ?_, ⟨?_, ?_⟩, ⟨?_, ?_⟩, ⟨?_, fun _ => nofun⟩, ⟨?_, fun _ => nofun⟩⟩
  · rw [show entry _ (P * frameBytes) 0 = _ from h 0 (by decide) 0 (by decide)]
    exact hp 1 (by decide)
  · rw [show entry _ (P * frameBytes) 511 = _ from h 0 (by decide) 511 (by decide)]
    exact hp 3 (by decide)
  · intro i hi hne hne'
    rw [show entry _ (P * frameBytes) i = _ from h 0 (by decide) i hi]
    simp [hne, hne']
  · rw [h 1 (by decide) 0 (by decide)]
    exact hp 2 (by decide)
  · intro i hi hne
    rw [h 1 (by decide) i hi]
    simp [hne]
  · rw [h 3 (by decide) 510 (by decide)]
    exact hp 4 (by decide)
  · intro i hi hne
    rw [h 3 (by decide) i hi]
    simp [hne]
  · intro i hi _
    rw [h 2 (by decide) i hi]
    exact leaf_spec hi
  · intro i hi _
    rw [h 4 (by decide) i hi]
    exact leaf_spec hi

/-! ## The invariant after boot -/

/-- The leaves of a boot tree. -/
def bootLayout (b : BootFrames) (pages : Prop) : Layout where
  leaf := fun tree j i => (tree = b.p3 ∧ j = 0 ∧ (i = 0 → b.low = none)) ∨
    (tree = b.p3High ∧ j = 510 ∧ (i = 0 → b.high = none))
  pages := pages

def bootUse (b : BootFrames) (kernel f : ℕ) : Use :=
  if f = b.p4 then .node kernel []
  else if f = b.p3 then .node b.p3 []
  else if f = b.p2 then .node b.p3 [0]
  else if f = b.p3High then .node b.p3High []
  else if f = b.p2High then .node b.p3High [510]
  else if some f = b.low then .node b.p3 [0, 0]
  else if some f = b.high then .node b.p3High [510, 0]
  else .idle

/-- The nodes after boot, one disjunct a table. -/
def IsBootNode (b : BootFrames) (kernel f tree : ℕ) (path : List ℕ) : Prop :=
  (f = b.p4 ∧ tree = kernel ∧ path = []) ∨ (f = b.p3 ∧ tree = b.p3 ∧ path = []) ∨
    (f = b.p2 ∧ tree = b.p3 ∧ path = [0]) ∨ (f = b.p3High ∧ tree = b.p3High ∧ path = []) ∨
    (f = b.p2High ∧ tree = b.p3High ∧ path = [510]) ∨
    (some f = b.low ∧ tree = b.p3 ∧ path = [0, 0]) ∨
    (some f = b.high ∧ tree = b.p3High ∧ path = [510, 0])

section Boot
variable {b : BootFrames} {kernel : ℕ}

lemma bootUse_iff (kernel : ℕ) (hnd : b.frames.Nodup) (f tree : ℕ) (path : List ℕ) :
    bootUse b kernel f = .node tree path ↔ IsBootNode b kernel f tree path := by
  simp only [BootFrames.frames, List.cons_append, List.nil_append, List.nodup_cons, List.mem_cons,
    List.mem_append, Option.mem_toList, not_or, List.nodup_append] at hnd
  unfold bootUse IsBootNode
  constructor
  · split_ifs <;> grind
  · rintro (⟨rfl, rfl, rfl⟩ | ⟨rfl, rfl, rfl⟩ | ⟨rfl, rfl, rfl⟩ | ⟨rfl, rfl, rfl⟩ | ⟨rfl, rfl,
      rfl⟩ | ⟨hf, rfl, rfl⟩ | ⟨hf, rfl, rfl⟩) <;> grind

lemma bootUse_ne_spare (f : ℕ) : bootUse b kernel f ≠ .spare := by
  unfold bootUse
  split_ifs <;> simp

lemma mem_frames_of_bootUse (f : ℕ) (h : bootUse b kernel f ≠ .idle) : f ∈ b.frames := by
  by_contra hnot
  simp only [BootFrames.frames, List.cons_append, List.nil_append, List.mem_cons, List.mem_append,
    Option.mem_toList, not_or] at hnot
  obtain ⟨h4, h3, h2, h3', h2', hl, hh⟩ := hnot
  apply h
  unfold bootUse
  rw [if_neg h4, if_neg h3, if_neg h2, if_neg h3', if_neg h2', if_neg (fun h => hl h.symm),
    if_neg (fun h => hh h.symm)]

/-- The frames of a boot tree are managed, in the first 1 GiB, and not in the pool. -/
structure Placed (b : BootFrames) (s : Pmm) : Prop where
  nodup : b.frames.Nodup
  valid : Valid s
  held : ∀ f ∈ b.frames, f ∉ freeSet s
  nonzero : 0 ∉ b.frames
  managed : ∀ f ∈ b.frames, f < s.totalFrames ∧ f < lowFrames

/-- The scope of the entries of a boot tree that lead somewhere. -/
lemma bootScope {pages : Prop} (ht : BootTree b m) (hkernel : ¬ kernel < pmmMaxFrames)
    (h3 : b.p3 < pmmMaxFrames) (h3' : b.p3High < pmmMaxFrames) (hne : b.p3 ≠ b.p3High)
    {f tree i : ℕ} {path : List ℕ} (hf : IsBootNode b kernel f tree path) (hi : i < entries)
    (hin : spaceScope (bootLayout b pages) tree path i) :
    entry m (f * frameBytes) i = 0 ∨
      ∃ child, LeadsTo (entry m (f * frameBytes) i) child ∧
        IsBootNode b kernel child tree (path ++ [i]) := by
  unfold IsBootNode
  rcases hf with ⟨rfl, rfl, rfl⟩ | ⟨rfl, rfl, rfl⟩ | ⟨rfl, rfl, rfl⟩ | ⟨rfl, rfl, rfl⟩ | ⟨rfl, rfl,
    rfl⟩ |
    ⟨hf, rfl, rfl⟩ | ⟨hf, rfl, rfl⟩
  · -- the user half of the PML4 is empty
    have hk := ((spaceScope_space hkernel).mp hin).1 rfl
    refine Or.inl (ht.empty i hi ?_ ?_)
    · rintro rfl
      exact absurd hk (by decide)
    · rintro rfl
      exact absurd hk (by decide)
  · by_cases h0 : i = 0
    · exact Or.inr ⟨b.p2, h0 ▸ ht.third.child, by simp [h0]⟩
    · exact Or.inl (ht.third.empty i hi h0)
  · unfold spaceScope bootLayout at hin
    rw [if_pos h3] at hin
    simp only [true_and, not_or, Classical.not_imp, hne, false_and, not_false_eq_true,
      and_true] at hin
    obtain ⟨h0, hlow⟩ := hin
    obtain ⟨t, hlow⟩ := Option.ne_none_iff_exists'.mp hlow
    exact Or.inr ⟨t, h0 ▸ ht.identity.table t hlow, by simp [h0, hlow]⟩
  · by_cases h0 : i = 510
    · exact Or.inr ⟨b.p2High, h0 ▸ ht.thirdHigh.child, by simp [h0]⟩
    · exact Or.inl (ht.thirdHigh.empty i hi h0)
  · unfold spaceScope bootLayout at hin
    rw [if_pos h3'] at hin
    simp only [true_and, not_or, Classical.not_imp, hne.symm, false_and, not_false_eq_true] at hin
    obtain ⟨h0, hhigh⟩ := hin
    obtain ⟨t, hhigh⟩ := Option.ne_none_iff_exists'.mp hhigh
    exact Or.inr ⟨t, h0 ▸ ht.window.table t hhigh, by simp [h0, hhigh]⟩
  · unfold spaceScope at hin
    rw [if_pos h3] at hin
    exact hin.elim
  · unfold spaceScope at hin
    rw [if_pos h3'] at hin
    exact hin.elim

/-- Every node but the roots is where its parent's entry leads. -/
lemma bootParent (pages : Prop) (ht : BootTree b m) (h3 : b.p3 < pmmMaxFrames)
    (h3' : b.p3High < pmmMaxFrames) (hne : b.p3 ≠ b.p3High) {k tree i : ℕ} {path : List ℕ}
    (hk : IsBootNode b kernel k tree (path ++ [i])) :
    ∃ f, IsBootNode b kernel f tree path ∧ i < entries ∧
      spaceScope (bootLayout b pages) tree path i ∧ LeadsTo (entry m (f * frameBytes) i) k := by
  have hnil : path ++ [i] ≠ [] := List.append_ne_nil_of_right_ne_nil _ (List.cons_ne_nil _ _)
  have hone : ∀ j, path ++ [i] = [j] → path = [] ∧ i = j := by
    intro j h
    simpa [List.append_eq_singleton_iff] using h
  have htwo : ∀ j j', path ++ [i] = [j, j'] → path = [j] ∧ i = j' := by
    intro j j' h
    have hsplit : path ++ [i] = [j] ++ [j'] := h
    obtain ⟨hpath, hlast⟩ := List.append_inj' hsplit rfl
    exact ⟨hpath, (List.cons.inj hlast).1⟩
  unfold IsBootNode at hk ⊢
  rcases hk with ⟨_, _, h⟩ | ⟨_, _, h⟩ | ⟨rfl, rfl, h⟩ | ⟨_, _, h⟩ | ⟨rfl, rfl, h⟩ | ⟨hlow, rfl,
    h⟩ |
    ⟨hhigh, rfl, h⟩
  · exact absurd h hnil
  · exact absurd h hnil
  · obtain ⟨rfl, rfl⟩ := hone _ h
    refine ⟨b.p3, by simp, by decide, ?_, ht.third.child⟩
    unfold spaceScope
    rw [if_pos h3]
    trivial
  · exact absurd h hnil
  · obtain ⟨rfl, rfl⟩ := hone _ h
    refine ⟨b.p3High, by simp, by decide, ?_, ht.thirdHigh.child⟩
    unfold spaceScope
    rw [if_pos h3']
    trivial
  · obtain ⟨rfl, rfl⟩ := htwo _ _ h
    refine ⟨b.p2, by simp, by decide, ?_, ht.identity.table k hlow.symm⟩
    unfold spaceScope bootLayout
    rw [if_pos h3, ← hlow]
    simp [hne]
  · obtain ⟨rfl, rfl⟩ := htwo _ _ h
    refine ⟨b.p2High, by simp, by decide, ?_, ht.window.table k hhigh.symm⟩
    unfold spaceScope bootLayout
    rw [if_pos h3', ← hhigh]
    simp [hne.symm]

lemma not_present_zero {e : ℕ} (h : e = 0) : present e ≠ true := by
  rw [h]
  decide

theorem bootTables {s : Pmm} (pages : Prop) (ht : BootTree b m) (hp : Placed b s)
    (hkernel : ¬ kernel < pmmMaxFrames) :
    Tables (bootLayout b pages) ⟨m, s⟩ (bootUse b kernel) := by
  have hmem : ∀ f ∈ [b.p4, b.p3, b.p2, b.p3High, b.p2High], f ∈ b.frames :=
    fun f hf => List.mem_append_left _ hf
  have hmax : ∀ f ∈ b.frames, f < pmmMaxFrames :=
    fun f hf => (hp.managed f hf).1.trans_le hp.valid.total_le
  have h3 := hmax b.p3 (hmem _ (by simp))
  have h3' := hmax b.p3High (hmem _ (by simp))
  have hne : b.p3 ≠ b.p3High := by
    have := hp.nodup
    simp only [BootFrames.frames, List.cons_append, List.nil_append, List.nodup_cons, List.mem_cons,
      not_or] at this
    exact this.2.1.2.1
  have huse := bootUse_iff kernel hp.nodup
  have hroots : ∀ f tree, bootUse b kernel f = .node tree [] →
      (f = b.p4 ∧ tree = kernel) ∨ (f = b.p3 ∧ tree = b.p3) ∨ (f = b.p3High ∧ tree = b.p3High) := by
    intro f tree hf
    simpa [IsBootNode] using (huse f tree []).mp hf
  have hhangs : ∀ i k, Hangs m (bootUse b kernel) i k →
      (i = 0 ∧ k = b.p3) ∨ (i = 511 ∧ k = b.p3High) := by
    rintro i k ⟨r, tree, hr, hu, hi, hks, hpres, rfl⟩
    obtain rfl : r = b.p4 := by
      rcases hroots r tree hr with h | h | h
      · exact h.1
      · exact absurd (h.2 ▸ h3) hu
      · exact absurd (h.2 ▸ h3') hu
    by_cases h0 : i = 0
    · exact Or.inl ⟨h0, h0 ▸ ht.first.2.2⟩
    · by_cases h511 : i = 511
      · exact Or.inr ⟨h511, h511 ▸ ht.last.2.2⟩
      · exact absurd hpres (not_present_zero (ht.empty i hi h0 h511))
  refine ⟨⟨?_, ?_, ?_, ?_, ?_⟩, hp.valid, ?_, ?_, ?_, ?_, ?_, ?_, ?_, ?_⟩
  · intro f tree path i hf _ hi hin hpres
    rcases bootScope ht hkernel h3 h3' hne ((huse f tree path).mp hf) hi hin with h0 | ⟨c, hc,
      hnode⟩
    · exact absurd hpres (not_present_zero h0)
    · rw [hc.2.2]
      exact (huse c tree _).mpr hnode
  · intro f tree path i hf _ hi hin
    rcases bootScope ht hkernel h3 h3' hne ((huse f tree path).mp hf) hi hin with h0 | ⟨c, hc, _⟩
    · rw [h0]
      decide
    · exact hc.2.1
  · intro k tree path i hk
    obtain ⟨f, hf, hi, hin, hlead⟩ := bootParent pages ht h3 h3' hne ((huse k tree _).mp hk)
    exact ⟨f, (huse f tree path).mpr hf, hi, hin, hlead.1, hlead.2.2⟩
  · intro f g tree hf hg
    have hf' := hroots f tree hf
    have hg' := hroots g tree hg
    omega
  · intro f tree path hf
    rcases (huse f tree path).mp hf with ⟨_, _, rfl⟩ | ⟨_, _, rfl⟩ | ⟨_, _, rfl⟩ | ⟨_, _, rfl⟩ |
      ⟨_, _, rfl⟩ | ⟨_, _, rfl⟩ | ⟨_, _, rfl⟩
    all_goals decide
  · exact fun f hf => hp.held f (mem_frames_of_bootUse f hf)
  · by_contra h
    exact hp.nonzero (mem_frames_of_bootUse 0 h)
  · exact fun f hf => (hp.managed f (mem_frames_of_bootUse f hf)).1
  · exact fun f tree path hf _ => (hp.managed f (mem_frames_of_bootUse f (ne_idle_of_node hf))).2
  · intro f tree hf hlt
    have hf' := hroots f tree hf
    omega
  · intro i k hk
    rcases hhangs i k hk with ⟨_, rfl⟩ | ⟨_, rfl⟩
    · exact (huse _ _ _).mpr (by simp [IsBootNode])
    · exact (huse _ _ _).mpr (by simp [IsBootNode])
  · intro i i' k hk hk'
    have hi := hhangs i k hk
    have hi' := hhangs i' k hk'
    omega
  · rintro tree j i (⟨rfl, rfl, hsplit⟩ | ⟨rfl, rfl, hsplit⟩) hi
    · obtain ⟨hpres, hlarge, _⟩ := ht.identity.leaf i hi hsplit
      exact ⟨b.p2, (huse _ _ _).mpr (by simp [IsBootNode]), hpres, hlarge⟩
    · obtain ⟨hpres, hlarge, _⟩ := ht.window.leaf i hi hsplit
      exact ⟨b.p2High, (huse _ _ _).mpr (by simp [IsBootNode]), hpres, hlarge⟩

/-- A world right after boot, with no space but the kernel's and no frame held. -/
structure Booted (b : BootFrames) (w : World) : Prop where
  tree : BootTree b w.vm.mem
  placed : Placed b w.vm.pmm
  init : w.vmm = vmmInit w.vm (b.p4 * frameBytes) w.vmm.kernelAddr w.vmm.heap.cells
  kernelAddr : virtBase ≤ w.vmm.kernelAddr ∧ w.vmm.kernelAddr < heapVirtBase
  spaces : w.spaces = []
  spare : w.spare = ∅

def bootGhost (b : BootFrames) (kernel : ℕ) : Ghost := ⟨bootUse b kernel, [], [], [], []⟩

theorem Booted.sound {w : World} (hb : Booted b w) (pages : Prop) :
    Sound (bootLayout b pages) w (bootGhost b w.vmm.kernelAddr) := by
  have hlow : b.p4 < lowFrames := (hb.placed.managed b.p4 (by simp [BootFrames.frames])).2
  have hkernel : pmmMaxFrames ≤ w.vmm.kernelAddr := by
    have := hb.kernelAddr.1
    have hmax : pmmMaxFrames ≤ virtBase := by decide
    omega
  have htarget : target (b.p4 * frameBytes) = b.p4 * frameBytes :=
    target_frame (by unfold lowFrames at hlow; omega)
  have hat : aspaceAt w.vmm w.vmm.kernelAddr = rootAspace b.p4 := by
    have hdesc := congrArg Vmm.kernelAspace hb.init
    unfold aspaceAt rootAspace
    rw [if_pos rfl, hdesc]
    dsimp only [vmmInit]
    rw [htarget]
  have hroot : rootOf w.vmm w.vmm.kernelAddr = b.p4 * frameBytes := by
    unfold rootOf
    rw [hat]
    exact physBehind_physToVirt hlow
  have hhas : ∀ as, w.Has as → as = w.vmm.kernelAddr := by
    rintro as (rfl | hin)
    · rfl
    · rw [hb.spaces] at hin
      exact nomatch hin
  have huse := bootUse_iff w.vmm.kernelAddr hb.placed.nodup
  have hcur : w.vmm.current = w.vmm.kernelAddr := congrArg Vmm.current hb.init
  refine ⟨bootTables pages hb.tree hb.placed (Nat.not_lt.mpr hkernel), ?_, ?_, ?_, ?_, ?_,
    ⟨hkernel, hb.kernelAddr.2⟩, ?_, ?_⟩
  · have hheap := congrArg Vmm.heap hb.init
    rw [hheap]
    exact emptyHeap_laid _ _ _
  · rintro k i (⟨_, h, _⟩ | ⟨_, h, _⟩)
    · exact absurd h (by decide)
    · exact absurd h (by decide)
  · intro as has
    rw [hhas as has]
    exact ⟨b.p4, (huse _ _ _).mpr (by simp [IsBootNode]), hat, hb.tree.last.1⟩
  · intro f tree path hf
    have hmax : ∀ f ∈ b.frames, f < pmmMaxFrames :=
      fun f hf => (hb.placed.managed f hf).1.trans_le hb.placed.valid.total_le
    have h3 := hmax b.p3 (by simp [BootFrames.frames])
    have h3' := hmax b.p3High (by simp [BootFrames.frames])
    rcases (huse f tree path).mp hf with ⟨_, rfl, _⟩ | ⟨_, rfl, _⟩ | ⟨_, rfl, _⟩ | ⟨_, rfl, _⟩ |
      ⟨_, rfl, _⟩ | ⟨_, rfl, _⟩ | ⟨_, rfl, _⟩
    · exact Or.inr (Or.inl rfl)
    all_goals exact Or.inl (by assumption)
  · intro as has
    rw [hb.spaces] at has
    exact nomatch has
  · refine ⟨Or.inl hcur, ?_⟩
    rw [hcur, hroot]
    have hheap := congrArg (fun v : Vmm => v.heap.current) hb.init
    exact hheap.trans htarget
  · intro _ f
    rw [hb.spare]
    exact iff_of_false (bootUse_ne_spare f) (Finset.notMem_empty f)

end Boot

end TraitOS.Tvmm
