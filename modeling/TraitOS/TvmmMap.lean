import TraitOS.TvmmTables

/-!
# Mapping and unmapping one page of the user half

The walk to the last table of an address, then the store into one entry of it.
That entry decides who holds a frame, so a mapping moves a frame from its holder to
the tree and an unmapping gives it back.
-/
namespace TraitOS.Tvmm
open ByteMemory PageTable Tpmm

variable {lay : Layout} {p : Paging} {use : ℕ → Use} {q : List ℕ}

/-- How many table frames the pool can still give in a row. -/
def Supply : ℕ → Pmm → Prop
  | 0, _ => True
  | n + 1, s => (tpmmAllocLow s).2 ≠ 0 ∧ Supply n (tpmmAllocLow s).1

lemma Supply.pred {n : ℕ} {s : Pmm} (h : Supply (n + 1) s) : Supply n s := by
  induction n generalizing s with
  | zero => trivial
  | succ n ih => exact ⟨h.1, ih h.2⟩

lemma Extends.dropWires {fx : Effect} {p p' : Paging} {use use' : ℕ → Use}
    (h : Extends fx p p' use use')
    (hw : ∀ r tree i, use r = .node tree [] → ¬ tree < pmmMaxFrames → kernelSlot i = true →
      ¬ fx.wires r i) :
    Extends { fx with wires := fun _ _ => False } p p' use use' :=
  { h with
    roots := fun r tree i hr hu hi hk _ => h.roots r tree i hr hu hi hk (hw r tree i hr hu hk) }

/-- The table behind a described entry of a node. -/
theorem ensureChild_spec (ht : Tables lay p use) {g tree idx : ℕ} (flags : ℕ)
    (hg : use g = .node tree q) (hlen : q.length + 1 < levels tree) (hi : idx < entries)
    (hin : spaceScope lay tree q idx) :
    (tableEnsure p (g * frameBytes) idx flags = (p, none) ∧ ¬ Supply 1 p.pmm) ∨
      ∃ p' c use', tableEnsure p (g * frameBytes) idx flags = (p', some (c * frameBytes)) ∧
        Tables lay p' use' ∧
        Extends ⟨fun t => t = tree, fun _ _ => False, fun _ => False⟩ p p' use use' ∧
        use' c = .node tree (q ++ [idx]) ∧ ∀ k, Supply (k + 1) p.pmm → Supply k p'.pmm := by
  have hlt : q.length + 1 < depth := lt_of_lt_of_le hlen (levels_le tree)
  rcases tableEnsure_spec ht flags hg hlen hi
      (fun _ _ => ht.owned.plain g tree q idx hg hlt hi hin) (fun _ => Position.inTree hin) with
    ⟨hfail, h0⟩ | ⟨hp, heq⟩ | ⟨p', c, use', _, heq, ht', hext, hc, _, _, _, hpmm⟩
  · exact Or.inl ⟨hfail, fun hs => hs.1 h0⟩
  · have hchild := ht.owned.down g tree q idx hg (by omega) hi hin hp
    exact Or.inr ⟨p, _, use, heq, ht, Extends.refl ht _, hchild, fun _ => Supply.pred⟩
  · refine Or.inr ⟨p', c, use', heq, ht', hext.dropWires ?_, hc, ?_⟩
    · rintro r t i hr hu hk ⟨rfl, rfl⟩
      rw [hg] at hr
      cases hr
      rw [((spaceScope_space hu).mp hin).1 rfl] at hk
      exact Bool.false_ne_true hk
    · intro k hk
      rw [hpmm]
      exact hk.2

/-! ## Storing into the last table -/

/-- The lookup of an address whose last table is known. -/
theorem physInPd_at (ht : Tables lay p use) {f c t virt : ℕ} (hf : use f = .node t q)
    (hlen : q.length + 2 = levels t) (hc : use c = .node t (q ++ [pdIndex virt])) :
    physInPd p.mem (f * frameBytes) virt = tableLookup p.mem (c * frameBytes) (ptIndex virt) := by
  obtain ⟨f', hf', hi, hin, hp, hk⟩ := ht.owned.up c t q _ hc
  obtain rfl := ht.owned.unique t q f' f hf' hf
  have hl := ht.owned.plain f' t q _ hf (by have := levels_le t; omega) hi hin
  rw [physInPd_of_present hl hp, hk]

theorem physBelow_at (ht : Tables lay p use) {f c t virt : ℕ} (hf : use f = .node t q)
    (hlen : q.length + 3 = levels t)
    (hc : use c = .node t (q ++ [pdptIndex virt] ++ [pdIndex virt])) :
    physBelow p.mem (f * frameBytes) virt = tableLookup p.mem (c * frameBytes) (ptIndex virt) := by
  obtain ⟨g, hg, _⟩ := ht.owned.up c t _ _ hc
  obtain ⟨f', hf', hi, hin, hp, hk⟩ := ht.owned.up g t q _ hg
  obtain rfl := ht.owned.unique t q f' f hf' hf
  rw [physBelow_of_present hp, hk]
  apply physInPd_at ht hg _ hc
  rw [List.length_append, List.length_singleton]
  omega

/-- A table of the last level and the entry of it that is stored to. -/
structure LastTable (p : Paging) (use : ℕ → Use) (c d t : ℕ) (q : List ℕ) : Prop where
  node : use c = .node t q
  level : q.length + 1 = levels t
  index : d < entries

lemma entry_leaf_of_ne {c d t : ℕ} (hl : LastTable p use c d t q) (e : ℕ) {f i t' : ℕ} {q' : List ℕ}
    (hf : use f = .node t' q') (hi : i < entries) (h : ¬ (t' = t ∧ q' = q ∧ i = d)) :
    entry (setEntry p.mem (c * frameBytes) d e) (f * frameBytes) i =
      entry p.mem (f * frameBytes) i := by
  apply entry_setEntry_of_ne p.mem e hi hl.index
  by_contra hcon
  push Not at hcon
  obtain ⟨rfl, rfl⟩ := hcon
  rw [hl.node] at hf
  cases hf
  exact h ⟨rfl, rfl, rfl⟩

theorem physInPd_leaf (ht : Tables lay p use) {c d t : ℕ} (hl : LastTable p use c d t q) (e : ℕ)
    {f t' virt : ℕ} {q' : List ℕ} (hf : use f = .node t' q') (hlen : q'.length + 2 = levels t')
    (hoff : ¬ (t' = t ∧ q' ++ [pdIndex virt] = q ∧ ptIndex virt = d)) :
    physInPd (setEntry p.mem (c * frameBytes) d e) (f * frameBytes) virt =
      physInPd p.mem (f * frameBytes) virt := by
  have hi := pdIndex_lt virt
  have hsame := entry_leaf_of_ne hl e hf hi (by
    rintro ⟨rfl, rfl, _⟩
    have := hl.level
    omega)
  cases hlg : large (entry p.mem (f * frameBytes) (pdIndex virt)) with
  | true => rw [physInPd_of_large hlg, physInPd_of_large (by rw [hsame, hlg]), hsame]
  | false =>
    cases hp : present (entry p.mem (f * frameBytes) (pdIndex virt)) with
    | false =>
      rw [physInPd_of_absent hlg hp, physInPd_of_absent (by rw [hsame, hlg]) (by rw [hsame, hp])]
    | true =>
      have hlt : q'.length < depth := by have := levels_le t'; omega
      have hchild := ht.owned.down f t' q' _ hf hlt hi
        (spaceScope_of_not_large ht hf hlen hi hlg) hp
      rw [physInPd_of_present hlg hp, physInPd_of_present (by rw [hsame, hlg]) (by rw [hsame, hp]),
        hsame]
      exact tableLookup_congr (entry_leaf_of_ne hl e hchild (ptIndex_lt virt) hoff)

theorem physBelow_leaf (ht : Tables lay p use) {c d t : ℕ} (hl : LastTable p use c d t q) (e : ℕ)
    {f t' virt : ℕ} {q' : List ℕ} (hf : use f = .node t' q') (hlen : q'.length + 3 = levels t')
    (hoff : ¬ (t' = t ∧ q' ++ [pdptIndex virt] ++ [pdIndex virt] = q ∧ ptIndex virt = d)) :
    physBelow (setEntry p.mem (c * frameBytes) d e) (f * frameBytes) virt =
      physBelow p.mem (f * frameBytes) virt := by
  have hi := pdptIndex_lt virt
  have hsame := entry_leaf_of_ne hl e hf hi (by
    rintro ⟨rfl, rfl, _⟩
    have := hl.level
    omega)
  cases hp : present (entry p.mem (f * frameBytes) (pdptIndex virt)) with
  | false => rw [physBelow_of_absent hp, physBelow_of_absent (by rw [hsame, hp])]
  | true =>
    have hlt : q'.length < depth := by have := levels_le t'; omega
    have hchild := ht.owned.down f t' q' _ hf hlt hi (spaceScope_pdpt hlen) hp
    rw [physBelow_of_present hp, physBelow_of_present (by rw [hsame, hp]), hsame]
    apply physInPd_leaf ht hl e hchild _ hoff
    rw [List.length_append, List.length_singleton]
    omega

/-- A store into a last table keeps the invariant when the uses change among data
only. -/
theorem Tables.storeLeaf {use use' : ℕ → Use} (ht : Tables lay p use) {c d t e : ℕ}
    (hl : LastTable p use c d t q)
    (ho : Owned (spaceScope lay) (setEntry p.mem (c * frameBytes) d e) use')
    (hidle : ∀ f, use' f = .idle ↔ use f = .idle)
    (htable : ∀ f t path, path.length < depth → (use' f = .node t path ↔ use f = .node t path)) :
    Tables lay { p with mem := setEntry p.mem (c * frameBytes) d e } use' := by
  have hnil : ([] : List ℕ).length < depth := by decide
  have hone : ∀ b : ℕ, [b].length < depth := fun b => by
    rw [List.length_singleton]
    decide
  have hentry : ∀ {f t' i : ℕ} {q' : List ℕ}, use f = .node t' q' → q'.length + 1 < levels t' →
      i < entries → entry (setEntry p.mem (c * frameBytes) d e) (f * frameBytes) i =
        entry p.mem (f * frameBytes) i := by
    intro f t' i q' hf hlt hi
    apply entry_leaf_of_ne hl e hf hi
    rintro ⟨rfl, rfl, _⟩
    have := hl.level
    omega
  have hhangs : ∀ i k, Hangs (setEntry p.mem (c * frameBytes) d e) use' i k →
      Hangs p.mem use i k := by
    rintro i k ⟨r, t', hr, hu, hi, hk, hp, hframe⟩
    rw [htable r t' [] hnil] at hr
    rw [hentry hr (by rw [levels_of_space hu]; decide) hi] at hp hframe
    exact ⟨r, t', hr, hu, hi, hk, hp, hframe⟩
  refine ⟨ho, ht.valid, ?_, ?_, ?_, ?_, ?_, ?_, ?_, ?_⟩
  · exact fun f hf => ht.held f (fun h => hf ((hidle f).mpr h))
  · exact (hidle 0).mpr ht.nonzero
  · exact fun f hf => ht.managed f (fun h => hf ((hidle f).mpr h))
  · exact fun f t' path hf hlt => ht.low f t' path ((htable f t' path hlt).mp hf) hlt
  · exact fun f t' hf hk => ht.named f t' ((htable f t' [] hnil).mp hf) hk
  · exact fun i k hk => (htable k k [] hnil).mpr (ht.shared i k (hhangs i k hk))
  · exact fun i i' k hk hk' => ht.single i i' k (hhangs i k hk) (hhangs i' k hk')
  · intro t' b i hcov hi
    obtain ⟨f, hf, hp, hlg⟩ := ht.leaves t' b i hcov hi
    have hlev : [b].length + 1 < levels t' := by
      rw [List.length_singleton]
      unfold levels depth
      split_ifs <;> omega
    refine ⟨f, (htable f t' [b] (hone b)).mpr hf, ?_⟩
    dsimp only
    rw [hentry hf hlev hi]
    exact ⟨hp, hlg⟩

/-! ## The user half -/

/-- The last table of an address of the user half. -/
theorem ensureUser_spec (ht : Tables lay p use) {r tree : ℕ} (virt flags : ℕ)
    (hr : use r = .node tree []) (hu : ¬ tree < pmmMaxFrames)
    (hk : kernelSlot (pml4Index virt) = false) :
    ∃ p' use', Tables lay p' use' ∧
      Extends ⟨fun t => t = tree, fun _ _ => False, fun _ => False⟩ p p' use use' ∧
      ((ensureTables p (r * frameBytes) virt flags = (p', none) ∧ ¬ Supply 3 p.pmm) ∨
        ∃ c, ensureTables p (r * frameBytes) virt flags = (p', some (c * frameBytes)) ∧
          use' c = .node tree [pml4Index virt, pdptIndex virt, pdIndex virt]) := by
  have hlev : levels tree = 4 := levels_of_space hu
  unfold ensureTables
  rcases ensureChild_spec ht flags hr (by rw [hlev]; decide) (pml4Index_lt virt)
      (spaceScope_root hu hk) with
    ⟨hfail, hno⟩ | ⟨p1, c1, use1, heq1, ht1, hext1, hc1, hs1⟩
  · rw [hfail]
    exact ⟨p, use, ht, Extends.refl ht _, Or.inl ⟨rfl, fun hs => hno hs.pred.pred⟩⟩
  rw [heq1, withTable_some]
  rcases ensureChild_spec ht1 flags hc1 (by rw [hlev]; simp) (pdptIndex_lt virt)
      (spaceScope_inner hu (by simp) (by simp [depth])) with
    ⟨hfail, hno⟩ | ⟨p2, c2, use2, heq2, ht2, hext2, hc2, hs2⟩
  · rw [hfail]
    exact ⟨p1, use1, ht1, hext1, Or.inl ⟨rfl, fun hs => hno (hs1 2 hs).pred⟩⟩
  rw [heq2, withTable_some]
  rcases ensureChild_spec ht2 flags hc2 (by rw [hlev]; simp) (pdIndex_lt virt)
      (spaceScope_inner hu (by simp) (by simp [depth])) with
    ⟨hfail, hno⟩ | ⟨p3, c3, use3, heq3, ht3, hext3, hc3, _⟩
  · exact ⟨p2, use2, ht2, hext1.trans hext2, Or.inl ⟨hfail, fun hs => hno (hs2 1 (hs1 2 hs))⟩⟩
  · exact ⟨p3, use3, ht3, (hext1.trans hext2).trans hext3, Or.inr ⟨c3, heq3, hc3⟩⟩

/-- Bits 12 to 47 of an address. -/
def pageOf (virt : ℕ) : ℕ := virt / 4096 % 2 ^ 36

lemma index_eq (shift v : ℕ) : index shift v = v / 2 ^ shift % 512 := by
  unfold index
  rw [Nat.shiftRight_eq_div_pow]
  exact Nat.and_two_pow_sub_one_eq_mod _ 9

lemma pageOf_eq_iff (v v' : ℕ) : pageOf v = pageOf v' ↔
    [pml4Index v, pdptIndex v, pdIndex v] = [pml4Index v', pdptIndex v', pdIndex v'] ∧
      ptIndex v = ptIndex v' := by
  unfold pageOf pml4Index pdptIndex pdIndex ptIndex
  simp only [index_eq, List.cons.injEq, and_true]
  omega

lemma user_last {c tree virt : ℕ} (hu : ¬ tree < pmmMaxFrames)
    (hc : use c = .node tree [pml4Index virt, pdptIndex virt, pdIndex virt]) :
    LastTable p use c (ptIndex virt) tree [pml4Index virt, pdptIndex virt, pdIndex virt] :=
  ⟨hc, by rw [levels_of_space hu]; rfl, ptIndex_lt virt⟩

theorem physOf_at (ht : Tables lay p use) {r c tree virt : ℕ} (hr : use r = .node tree [])
    (hu : ¬ tree < pmmMaxFrames)
    (hc : use c = .node tree [pml4Index virt, pdptIndex virt, pdIndex virt]) :
    physOf p.mem (r * frameBytes) virt = tableLookup p.mem (c * frameBytes) (ptIndex virt) := by
  obtain ⟨g, hg, _⟩ := ht.owned.up c tree [pml4Index virt, pdptIndex virt] _ hc
  obtain ⟨f, hf, _⟩ := ht.owned.up g tree [pml4Index virt] _ hg
  obtain ⟨r', hr', _, _, hp, hk⟩ := ht.owned.up f tree [] _ hf
  obtain rfl := ht.owned.root r' r tree hr' hr
  rw [physOf_of_present hp, hk]
  exact physBelow_at ht hf (levels_of_space hu).symm hc

/-- A store into the last table of a user page is seen by lookups of that page in
that space only. -/
theorem physOf_leaf_user (ht : Tables lay p use) {c tree virt : ℕ} (hu : ¬ tree < pmmMaxFrames)
    (hc : use c = .node tree [pml4Index virt, pdptIndex virt, pdIndex virt]) (e : ℕ) {r t' v : ℕ}
    (hr : use r = .node t' []) (hu' : ¬ t' < pmmMaxFrames)
    (hoff : ¬ (t' = tree ∧ pageOf v = pageOf virt)) :
    physOf (setEntry p.mem (c * frameBytes) (ptIndex virt) e) (r * frameBytes) v =
      physOf p.mem (r * frameBytes) v := by
  have hl : LastTable p use c (ptIndex virt) tree _ := user_last hu hc
  have hi := pml4Index_lt v
  have hsame := entry_leaf_of_ne hl e hr hi (by
    rintro ⟨_, hnil, _⟩
    exact List.cons_ne_nil _ _ hnil.symm)
  cases hp : present (entry p.mem (r * frameBytes) (pml4Index v)) with
  | false => rw [physOf_of_absent hp, physOf_of_absent (by rw [hsame, hp])]
  | true =>
    rw [physOf_of_present hp, physOf_of_present (by rw [hsame, hp]), hsame]
    cases hk : kernelSlot (pml4Index v) with
    | true =>
      have hnode := ht.slots r t' _ hr hu' hi hk hp
      have hsmall := ht.small _ (ne_idle_of_node hnode)
      apply physBelow_leaf ht hl e hnode (levels_of_kernel hsmall).symm
      rintro ⟨heq, _⟩
      exact hu (heq ▸ hsmall)
    | false =>
      have hnode := ht.owned.down r t' [] _ hr (by decide) hi (spaceScope_root hu' hk) hp
      apply physBelow_leaf ht hl e hnode (levels_of_space hu').symm
      rintro ⟨heq, hpath, hpt⟩
      exact hoff ⟨heq, (pageOf_eq_iff v virt).mpr ⟨hpath, hpt⟩⟩

/-- The frames a space can account for: its own below the root, those its callers
hold and the free ones. -/
def Around (tree : ℕ) (p : Paging) (use : ℕ → Use) (f : ℕ) : Prop :=
  f ∈ freeSet p.pmm ∨ use f = .spare ∨ ∃ path, path ≠ [] ∧ use f = .node tree path

/-- Pages went from their holders to a space or back, and the space may have taken
table frames from the pool. -/
structure Handover (tree : ℕ) (p p' : Paging) (use use' : ℕ → Use) : Prop where
  keep : ∀ f t path, path.length < depth ∨ t ≠ tree → use f = .node t path →
    use' f = .node t path
  names : ∀ f t path, use' f = .node t path → t = tree ∨ use f = .node t path
  around : ∀ f, Around tree p' use' f ↔ Around tree p use f
  total : p'.pmm.totalFrames = p.pmm.totalFrames
  roots : ∀ r t i, use r = .node t [] → ¬ t < pmmMaxFrames → i < entries →
    kernelSlot i = true → entry p'.mem (r * frameBytes) i = entry p.mem (r * frameBytes) i

theorem Handover.refl (tree : ℕ) (p : Paging) (use : ℕ → Use) : Handover tree p p use use where
  keep := fun _ _ _ _ hf => hf
  names := fun _ _ _ hf => Or.inr hf
  around := fun _ => Iff.rfl
  total := rfl
  roots := fun _ _ _ _ _ _ _ => rfl

theorem Handover.trans {tree : ℕ} {p p' p'' : Paging} {use use' use'' : ℕ → Use}
    (h : Handover tree p p' use use') (h' : Handover tree p' p'' use' use'') :
    Handover tree p p'' use use'' where
  keep := fun f t path hor hf => h'.keep f t path hor (h.keep f t path hor hf)
  names := fun f t path hf => (h'.names f t path hf).elim Or.inl (h.names f t path)
  around := fun f => (h'.around f).trans (h.around f)
  total := h'.total.trans h.total
  roots := fun r t i hr hu hi hk => by
    have hr' := h.keep r t [] (Or.inl (by decide)) hr
    rw [h'.roots r t i hr' hu hi hk, h.roots r t i hr hu hi hk]

/-- Growing the tables of a space only. -/
theorem Extends.handover {p p' : Paging} {use use' : ℕ → Use} {tree : ℕ}
    {moves : ℕ → Prop} (ht : Tables lay p use)
    (hroot : ∃ r, use r = .node tree []) (ht' : Tables lay p' use')
    (h : Extends ⟨fun t => t = tree, fun _ _ => False, moves⟩ p p' use use') :
    Handover tree p p' use use' where
  keep := fun f t path _ hf => (h.keep f (ne_idle_of_node hf)).trans hf
  names := fun f t path hf => by
    by_cases hidle : use f = .idle
    · obtain ⟨_, t', path', rfl, _, hf'⟩ := h.fresh f hidle (ne_idle_of_node hf)
      rw [hf'] at hf
      exact Or.inl (Use.node.inj hf).1.symm
    · exact Or.inr ((h.keep f hidle).symm.trans hf)
  around := fun f => by
    unfold Around
    by_cases hidle : use f = .idle
    · by_cases hidle' : use' f = .idle
      · rw [h.pool, hidle, hidle']
        simp
      · obtain ⟨hfree, t, path, rfl, _, hf⟩ := h.fresh f hidle hidle'
        have hne : path ≠ [] := by
          rintro rfl
          obtain ⟨r, hr⟩ := hroot
          have hr' := (h.keep r (ne_idle_of_node hr)).trans hr
          rw [ht'.owned.root f r t hf hr', hr] at hidle
          exact Use.noConfusion hidle
        exact iff_of_true (Or.inr (Or.inr ⟨path, hne, hf⟩)) (Or.inl hfree)
    · rw [h.pool, h.keep f hidle]
      simp [hidle, ht.held f hidle]
  total := h.total
  roots := fun r t i hr hu' hi hk => h.roots r t i hr hu' hi hk (fun hw => hw)

lemma tableLookup_eq_iff (m : Memory) (table i f : ℕ) :
    tableLookup m table i = some (f * frameBytes) ↔
    present (entry m table i) = true ∧ frameNo (entry m table i) = f := by
  cases hp : present (entry m table i) with
  | false => simp [tableLookup_of_absent hp]
  | true =>
    rw [tableLookup_of_present hp, target_eq_frameNo, Option.some.injEq]
    unfold frameBytes
    constructor
    · intro h
      exact ⟨rfl, by omega⟩
    · rintro ⟨_, rfl⟩
      rfl

/-- Only the page behind the entry, which was the tree's, is affected by its
release. -/
lemma released_cases (ht : Tables lay p use) {c d t : ℕ} (hl : LastTable p use c d t q)
    (hu : ¬ t < pmmMaxFrames) (hpages : lay.pages) (hq : q ≠ []) (f : ℕ) :
    (tableLookup p.mem (c * frameBytes) d ≠ some (f * frameBytes) ∧
        released p.mem use c d f = use f) ∨
      (tableLookup p.mem (c * frameBytes) d = some (f * frameBytes) ∧
        released p.mem use c d f = .spare ∧ use f = .node t (q ++ [d])) := by
  have hlen : q.length < depth := by
    have := hl.level
    rw [levels_of_space hu] at this
    omega
  have hscope : spaceScope lay t q d := (spaceScope_space hu).mpr ⟨(absurd · hq), fun _ => hpages⟩
  unfold released
  by_cases hhit : tableLookup p.mem (c * frameBytes) d = some (f * frameBytes)
  · obtain ⟨hp, hf⟩ := (tableLookup_eq_iff _ _ _ _).mp hhit
    have hpage := ht.owned.down c t q d hl.node hlen hl.index hscope hp
    rw [if_pos hp, hf, Function.update_self]
    rw [hf] at hpage
    exact Or.inr ⟨hhit, rfl, hpage⟩
  · refine Or.inl ⟨hhit, ?_⟩
    by_cases hp : present (entry p.mem (c * frameBytes) d) = true
    · rw [if_pos hp, Function.update_of_ne]
      exact fun heq => hhit ((tableLookup_eq_iff _ _ _ _).mpr ⟨hp, heq.symm⟩)
    · rw [if_neg hp]

/-- Clearing an entry of a last table of a space: its page is its holder's again. -/
theorem clearLeaf_spec (ht : Tables lay p use) {c d t : ℕ} (hl : LastTable p use c d t q)
    (hu : ¬ t < pmmMaxFrames) (hpages : lay.pages) (hq : q ≠ []) :
    let p' : Paging := { p with mem := setEntry p.mem (c * frameBytes) d 0 }
    let use' := released p.mem use c d
    Tables lay p' use' ∧ Handover t p p' use use' ∧
      ∀ f, use' f = .spare ↔
        use f = .spare ∨ tableLookup p.mem (c * frameBytes) d = some (f * frameBytes) := by
  intro p' use'
  have hlen : q.length + 1 = depth := hl.level.trans (levels_of_space hu)
  have hscope : spaceScope lay t q d := (spaceScope_space hu).mpr ⟨(absurd · hq), fun _ => hpages⟩
  have hcases := released_cases ht hl hu hpages hq
  have hlong : (q ++ [d]).length = depth := by
    rw [List.length_append, List.length_singleton, hlen]
  have htable : ∀ f t' path, path.length < depth ∨ t' ≠ t →
      (use' f = .node t' path ↔ use f = .node t' path) := by
    intro f t' path hor
    rcases hcases f with ⟨_, hsame⟩ | ⟨_, hspare, hpage⟩
    · exact iff_of_eq (congrArg (· = _) hsame)
    · refine iff_of_false (fun h => Use.noConfusion (hspare.symm.trans h)) (fun h => ?_)
      rw [hpage] at h
      cases h
      rcases hor with hlt | hne
      · omega
      · exact hne rfl
  refine ⟨ht.storeLeaf hl (ht.owned.clear hl.node hlen hl.index hscope) ?_
    (fun f t' path hlt => htable f t' path (Or.inl hlt)), ⟨?_, ?_, ?_, rfl, ?_⟩, ?_⟩
  · intro f
    rcases hcases f with ⟨_, hsame⟩ | ⟨_, hspare, hpage⟩
    · exact iff_of_eq (congrArg (· = _) hsame)
    · exact iff_of_false (fun h => Use.noConfusion (hspare.symm.trans h)) (ne_idle_of_node hpage)
  · exact fun f t' path hor hf => (htable f t' path hor).mpr hf
  · intro f t' path hf
    rcases hcases f with ⟨_, hsame⟩ | ⟨_, hspare, _⟩
    · exact Or.inr (hsame.symm.trans hf)
    · exact Use.noConfusion (hspare.symm.trans hf)
  · intro f
    unfold Around
    rcases hcases f with ⟨_, hsame⟩ | ⟨_, hspare, hpage⟩
    · rw [show use' f = use f from hsame]
    · exact iff_of_true (Or.inr (Or.inl hspare)) (Or.inr (Or.inr ⟨_, by simp, hpage⟩))
  · intro r t' i hr _ hi _
    apply entry_leaf_of_ne hl 0 hr hi
    rintro ⟨_, hnil, _⟩
    exact hq hnil.symm
  · intro f
    rcases hcases f with ⟨hne, hsame⟩ | ⟨heq, hspare, hpage⟩
    · rw [show use' f = use f from hsame]
      exact ⟨Or.inl, fun h => h.resolve_right hne⟩
    · exact iff_of_true hspare (Or.inr heq)

/-- Pointing an empty entry of a last table of a space to a page somebody holds. -/
theorem fillLeaf_spec (ht : Tables lay p use) {c d t e h : ℕ} (hl : LastTable p use c d t q)
    (hu : ¬ t < pmmMaxFrames) (hpages : lay.pages) (hq : q ≠ [])
    (hold : present (entry p.mem (c * frameBytes) d) = false) (hh : use h = .spare)
    (he : e < 2 ^ 64) (hp : present e = true) (hframe : frameNo e = h) :
    let p' : Paging := { p with mem := setEntry p.mem (c * frameBytes) d e }
    let use' := Function.update use h (.node t (q ++ [d]))
    Tables lay p' use' ∧ Handover t p p' use use' ∧
      ∀ f, use' f = .spare ↔ f ≠ h ∧ use f = .spare := by
  intro p' use'
  have hlen : q.length + 1 = depth := hl.level.trans (levels_of_space hu)
  have hscope : spaceScope lay t q d := (spaceScope_space hu).mpr ⟨(absurd · hq), fun _ => hpages⟩
  have hlong : (q ++ [d]).length = depth := by
    rw [List.length_append, List.length_singleton, hlen]
  have hself : use' h = .node t (q ++ [d]) := Function.update_self h _ use
  have hother : ∀ f, f ≠ h → use' f = use f := fun f hf => Function.update_of_ne hf _ _
  have htable : ∀ f t' path, path.length < depth ∨ t' ≠ t →
      (use' f = .node t' path ↔ use f = .node t' path) := by
    intro f t' path hor
    by_cases hfh : f = h
    · rw [hfh, hself, hh]
      refine iff_of_false (fun heq => ?_) Use.noConfusion
      cases heq
      rcases hor with hlt | hne
      · omega
      · exact hne rfl
    · rw [hother f hfh]
  have hlink := ht.owned.link hl.node (by omega) hl.index hscope hold
    (show ¬ IsNode (use h) by rw [hh]; exact id) he hp hframe (fun hlt => absurd hlt (by omega))
  refine ⟨ht.storeLeaf hl hlink ?_ (fun f t' path hlt => htable f t' path (Or.inl hlt)),
    ⟨fun f t' path hor hf => (htable f t' path hor).mpr hf, ?_, ?_, rfl, ?_⟩, ?_⟩
  · intro f
    by_cases hfh : f = h
    · rw [hfh, hself, hh]
      exact iff_of_false Use.noConfusion Use.noConfusion
    · rw [hother f hfh]
  · intro f t' path hf
    by_cases hfh : f = h
    · rw [hfh, hself] at hf
      exact Or.inl (Use.node.inj hf).1.symm
    · exact Or.inr ((hother f hfh).symm.trans hf)
  · intro f
    unfold Around
    by_cases hfh : f = h
    · rw [hfh]
      exact iff_of_true (Or.inr (Or.inr ⟨_, by simp, hself⟩)) (Or.inr (Or.inl hh))
    · rw [hother f hfh]
  · intro r t' i hr _ hi _
    apply entry_leaf_of_ne hl e hr hi
    rintro ⟨_, hnil, _⟩
    exact hq hnil.symm
  · intro f
    by_cases hfh : f = h
    · rw [hfh, hself]
      simp
    · rw [hother f hfh]
      simp [hfh]

/-- The entry both mapping functions store. -/
def leafEntry (phys flags : ℕ) : ℕ := target phys ||| flags ||| pagePresent

lemma leafEntry_spec {flags : ℕ} (phys : ℕ) (hf : flags < 2 ^ 64) :
    leafEntry phys flags < 2 ^ 64 ∧ present (leafEntry phys flags) = true ∧
      target (leafEntry phys flags) = target phys ||| target flags := by
  have ht : target phys < 2 ^ 64 := lt_of_le_of_lt Nat.and_le_right (by decide)
  unfold leafEntry
  refine ⟨Nat.or_lt_two_pow (Nat.or_lt_two_pow ht hf) (by decide), ?_, ?_⟩
  · rw [present_or]
    exact Bool.or_true _
  · rw [target_or, target_or, target_target, show target pagePresent = 0 by decide, Nat.or_zero]

/-- Lookups keep their result, in all spaces, away from the given pages of the given
spaces. -/
def SameLookups (p p' : Paging) (use : ℕ → Use) (moves : ℕ → ℕ → Prop) : Prop :=
  ∀ r t v, use r = .node t [] → ¬ t < pmmMaxFrames → ¬ moves t v →
    physOf p'.mem (r * frameBytes) v = physOf p.mem (r * frameBytes) v

/-- Mapping a page of the user half. -/
theorem mapUser_spec (ht : Tables lay p use) (hpages : lay.pages) {r tree virt phys flags h : ℕ}
    (hr : use r = .node tree []) (hu : ¬ tree < pmmMaxFrames)
    (hk : kernelSlot (pml4Index virt) = false) (hflags : flags < 2 ^ 64) (hpure : target flags = 0)
    (hh : use h = .spare) (hphys : frameNo phys = h) :
    ∃ p' use', Tables lay p' use' ∧ Handover tree p p' use use' ∧
      ((mapPage p (r * frameBytes) virt phys flags = (p', false) ∧ ¬ Supply 3 p.pmm ∧
          (∀ f, use' f = .spare ↔ use f = .spare) ∧ SameLookups p p' use fun _ _ => False) ∨
        (mapPage p (r * frameBytes) virt phys flags = (p', true) ∧
          physOf p'.mem (r * frameBytes) virt = some (target phys) ∧
          (∀ f, use' f = .spare ↔ f ≠ h ∧
            (use f = .spare ∨ physOf p.mem (r * frameBytes) virt = some (f * frameBytes))) ∧
          SameLookups p p' use fun t v => t = tree ∧ pageOf v = pageOf virt)) := by
  obtain ⟨p1, use1, ht1, hext, hres⟩ := ensureUser_spec ht virt flags hr hu hk
  have hover := hext.handover ht ⟨r, hr⟩ ht1
  have hr1 := (hext.keep r (ne_idle_of_node hr)).trans hr
  have hspare1 : ∀ f, use1 f = .spare ↔ use f = .spare := by
    intro f
    by_cases hidle : use f = .idle
    · refine iff_of_false (fun hs => ?_) (fun hs => Use.noConfusion (hidle.symm.trans hs))
      obtain ⟨_, t, path, _, _, hf⟩ := hext.fresh f hidle (by rw [hs]; exact Use.noConfusion)
      exact Use.noConfusion (hf.symm.trans hs)
    · rw [hext.keep f hidle]
  have hsame1 : ∀ r' t v, use r' = .node t [] → ¬ t < pmmMaxFrames →
      physOf p1.mem (r' * frameBytes) v = physOf p.mem (r' * frameBytes) v :=
    fun r' t v hr' ht' => hext.lookups r' t v hr' ht' (fun h => h)
  unfold mapPage
  rcases hres with ⟨hfail, hno⟩ | ⟨c, heq, hc⟩
  · rw [hfail, withTable_none]
    exact ⟨p1, use1, ht1, hover, Or.inl ⟨rfl, hno, hspare1, fun r' t v hr' ht' _ =>
      hsame1 r' t v hr' ht'⟩⟩
  rw [heq, withTable_some]
  have hl : LastTable p1 use1 c (ptIndex virt) tree _ := user_last hu hc
  have hq : [pml4Index virt, pdptIndex virt, pdIndex virt] ≠ [] := List.cons_ne_nil _ _
  have hshort : [pml4Index virt, pdptIndex virt, pdIndex virt].length < depth := by simp [depth]
  obtain ⟨hlt, hpr, htarget⟩ := leafEntry_spec phys hflags
  rw [hpure, Nat.or_zero] at htarget
  have hframe : frameNo (leafEntry phys flags) = h := by
    rw [target_eq_frameNo phys, hphys] at htarget
    exact frameNo_eq_of_target htarget
  -- the old page, if any, leaves first
  obtain ⟨ht2, hover2, hspare2⟩ := clearLeaf_spec ht1 hl hu hpages hq
  have hzero := entry_setEntry_self p1.mem (c * frameBytes) (ptIndex virt) (show 0 <
    2 ^ 64 by decide)
  have hc2 := hover2.keep c tree _ (Or.inl hshort) hc
  have hh2 : released p1.mem use1 c (ptIndex virt) h = .spare :=
    (hspare2 h).mpr (Or.inl ((hspare1 h).mpr hh))
  obtain ⟨ht3, hover3, hspare3⟩ := fillLeaf_spec ht2 (user_last hu hc2) hu hpages hq
    (by rw [hzero]; decide) hh2 hlt hpr hframe
  dsimp only at ht3 hover3
  rw [setEntry_setEntry] at ht3 hover3
  refine ⟨_, _, ht3, (hover.trans hover2).trans hover3, Or.inr ⟨rfl, ?_, ?_, ?_⟩⟩
  · have hc3 := hover3.keep c tree _ (Or.inl hshort) hc2
    have hr3 := hover3.keep r tree [] (Or.inl (by decide))
      (hover2.keep r tree [] (Or.inl (by decide)) hr1)
    rw [physOf_at ht3 hr3 hu hc3, tableLookup_of_present, entry_setEntry_self _ _ _ hlt, htarget]
    rw [entry_setEntry_self _ _ _ hlt]
    exact hpr
  · intro f
    rw [hspare3, hspare2, hspare1, ← physOf_at ht1 hr1 hu hc, hsame1 r tree virt hr hu]
  · intro r' t v hr' ht' hoff
    have hr1' := (hext.keep r' (ne_idle_of_node hr')).trans hr'
    rw [physOf_leaf_user ht1 hu hc _ hr1' ht' hoff, hsame1 r' t v hr' ht']

/-- The walk without allocation, from the PDPT on. -/
theorem lookupBelow_spec (ht : Tables lay p use) {f t virt : ℕ} (hf : use f = .node t q)
    (hlen : q.length + 3 = levels t)
    (hin : spaceScope lay t (q ++ [pdptIndex virt]) (pdIndex virt)) :
    let found := (tableLookup p.mem (f * frameBytes) (pdptIndex virt)).bind fun pd =>
      tableLookup p.mem pd (pdIndex virt)
    (found = none ∧ physBelow p.mem (f * frameBytes) virt = none) ∨
      ∃ c, found = some (c * frameBytes) ∧
        use c = .node t (q ++ [pdptIndex virt] ++ [pdIndex virt]) := by
  intro found
  have hle := levels_le t
  cases hp : present (entry p.mem (f * frameBytes) (pdptIndex virt)) with
  | false =>
    rw [physBelow_of_absent hp]
    exact Or.inl ⟨congrArg (Option.bind · _) (tableLookup_of_absent hp), rfl⟩
  | true =>
    have hg := ht.owned.down f t q _ hf (by omega) (pdptIndex_lt virt) (spaceScope_pdpt hlen) hp
    have hlen' : (q ++ [pdptIndex virt]).length + 2 = levels t := by
      rw [List.length_append, List.length_singleton]
      omega
    simp only [found]
    rw [tableLookup_of_present hp, physBelow_of_present hp, target_eq_frameNo, Option.bind_some]
    generalize frameNo (entry p.mem (f * frameBytes) (pdptIndex virt)) = g at hg
    cases hp' : present (entry p.mem (g * frameBytes) (pdIndex virt)) with
    | false =>
      have hl := ht.owned.plain g t _ _ hg (by omega) (pdIndex_lt virt) hin
      rw [tableLookup_of_absent hp', physInPd_of_absent hl hp']
      exact Or.inl ⟨rfl, rfl⟩
    | true =>
      rw [tableLookup_of_present hp', target_eq_frameNo]
      exact Or.inr ⟨_, rfl, ht.owned.down g t _ _ hg (by omega) (pdIndex_lt virt) hin hp'⟩

/-- The walk without allocation in the user half. -/
theorem lookupUser_spec (ht : Tables lay p use) {r tree virt : ℕ} (hr : use r = .node tree [])
    (hu : ¬ tree < pmmMaxFrames) (hk : kernelSlot (pml4Index virt) = false) :
    (lookupTables p.mem (r * frameBytes) virt = none ∧ physOf p.mem (r * frameBytes) virt = none) ∨
      ∃ c, lookupTables p.mem (r * frameBytes) virt = some (c * frameBytes) ∧
        use c = .node tree [pml4Index virt, pdptIndex virt, pdIndex virt] := by
  unfold lookupTables
  cases hp : present (entry p.mem (r * frameBytes) (pml4Index virt)) with
  | false =>
    rw [tableLookup_of_absent hp, physOf_of_absent hp]
    exact Or.inl ⟨rfl, rfl⟩
  | true =>
    have hf := ht.owned.down r tree [] _ hr (by decide) (pml4Index_lt virt)
      (spaceScope_root hu hk) hp
    rw [tableLookup_of_present hp, physOf_of_present hp, target_eq_frameNo, Option.bind_some]
    exact lookupBelow_spec ht hf (levels_of_space hu).symm
      (spaceScope_inner hu (by simp) (by simp [depth]))

/-- Unmapping a page of the user half. -/
theorem unmapUser_spec (ht : Tables lay p use) (hpages : lay.pages) {r tree virt : ℕ}
    (hr : use r = .node tree []) (hu : ¬ tree < pmmMaxFrames)
    (hk : kernelSlot (pml4Index virt) = false) :
    ∃ use', Tables lay (unmapPage p (r * frameBytes) virt) use' ∧
      Handover tree p (unmapPage p (r * frameBytes) virt) use use' ∧
      physOf (unmapPage p (r * frameBytes) virt).mem (r * frameBytes) virt = none ∧
      (∀ f, use' f = .spare ↔
        use f = .spare ∨ physOf p.mem (r * frameBytes) virt = some (f * frameBytes)) ∧
      SameLookups p (unmapPage p (r * frameBytes) virt) use
        fun t v => t = tree ∧ pageOf v = pageOf virt := by
  unfold unmapPage
  rcases lookupUser_spec ht hr hu hk with ⟨hnone, hphys⟩ | ⟨c, hsome, hc⟩
  · rw [hnone, hphys]
    refine ⟨use, ht, Handover.refl tree p use, hphys, fun f => ?_, fun _ _ _ _ _ _ => rfl⟩
    simp
  · rw [hsome]
    have hl : LastTable p use c (ptIndex virt) tree _ := user_last hu hc
    have hshort : [pml4Index virt, pdptIndex virt, pdIndex virt].length < depth := by simp [depth]
    obtain ⟨ht', hover, hspare⟩ := clearLeaf_spec ht hl hu hpages (List.cons_ne_nil _ _)
    have hzero := entry_setEntry_self p.mem (c * frameBytes) (ptIndex virt) (show 0 <
      2 ^ 64 by decide)
    refine ⟨_, ht', hover, ?_, ?_, ?_⟩
    · have hc' := hover.keep c tree _ (Or.inl hshort) hc
      have hr' := hover.keep r tree [] (Or.inl (by decide)) hr
      have hlook := physOf_at ht' hr' hu hc'
      refine hlook.trans (tableLookup_of_absent ?_)
      rw [hzero]
      decide
    · intro f
      rw [hspare, physOf_at ht hr hu hc]
    · exact fun r' t v hr' ht'' hoff => physOf_leaf_user ht hu hc 0 hr' ht'' hoff

/-! ## The user half without its pages -/

/-- When pages are not described, a store into a last table of a space is a matter of
lookups only. -/
theorem storeUser_spec (ht : Tables lay p use) (hpages : ¬ lay.pages) {tree c virt : ℕ}
    (hu : ¬ tree < pmmMaxFrames)
    (hc : use c = .node tree [pml4Index virt, pdptIndex virt, pdIndex virt]) (e : ℕ) :
    let p' : Paging := { p with mem := setEntry p.mem (c * frameBytes) (ptIndex virt) e }
    Tables lay p' use ∧
      Extends ⟨fun _ => False, fun _ _ => False, fun v => pageOf v = pageOf virt⟩ p p' use use := by
  intro p'
  have hl : LastTable p use c (ptIndex virt) tree _ := user_last hu hc
  have ht' : Tables lay p' use := by
    apply ht.storeLeaf hl _ (fun _ => Iff.rfl) (fun _ _ _ _ => Iff.rfl)
    apply ht.owned.congr _ (fun _ _ _ => Iff.rfl)
    intro f t path i hf hi hin
    apply entry_leaf_of_ne hl e hf hi
    rintro ⟨rfl, rfl, _⟩
    exact hpages (((spaceScope_space hu).mp hin).2 rfl)
  refine ⟨ht', fun _ _ => rfl, fun _ h h' => absurd h h', ?_, rfl, ?_, ?_, ?_⟩
  · exact fun f => ⟨fun hf => ⟨hf, ht.idle_of_free hf⟩, fun hf => hf.1⟩
  · intro x hx
    apply setEntry_of_frame _ _ hl.index
    intro heq
    exact hx (heq ▸ ⟨_, _, hc, by simp [depth]⟩)
  · intro r t i hr _ hi _ _
    apply entry_leaf_of_ne hl e hr hi
    rintro ⟨_, hnil, _⟩
    exact List.cons_ne_nil _ _ hnil.symm
  · exact fun r t v hr hu' hoff => physOf_leaf_user ht hu hc e hr hu' (fun h => hoff h.2)

theorem mapUser_loose (ht : Tables lay p use) (hpages : ¬ lay.pages) {r tree virt flags : ℕ}
    (phys : ℕ) (hr : use r = .node tree []) (hu : ¬ tree < pmmMaxFrames)
    (hk : kernelSlot (pml4Index virt) = false) (hflags : flags < 2 ^ 64) :
    ∃ use', Tables lay (mapPage p (r * frameBytes) virt phys flags).1 use' ∧
      Extends ⟨fun t => t = tree, fun _ _ => False, fun v => pageOf v = pageOf virt⟩ p
        (mapPage p (r * frameBytes) virt phys flags).1 use use' ∧
      ((mapPage p (r * frameBytes) virt phys flags).2 = true →
        physOf (mapPage p (r * frameBytes) virt phys flags).1.mem (r * frameBytes) virt =
          some (target phys ||| target flags)) := by
  obtain ⟨p1, use1, ht1, hext, hres⟩ := ensureUser_spec ht virt flags hr hu hk
  have hwide : Extends ⟨fun t => t = tree, fun _ _ => False, fun v => pageOf v = pageOf virt⟩ p p1
      use use1 := hext.mono (fun _ h => h) (fun _ _ h => h) (fun _ => False.elim)
  unfold mapPage
  rcases hres with ⟨hfail, _⟩ | ⟨c, heq, hc⟩
  · rw [hfail]
    exact ⟨use1, ht1, hwide, fun h => absurd h Bool.false_ne_true⟩
  · rw [heq]
    obtain ⟨hlt, hpr, htarget⟩ := leafEntry_spec phys hflags
    obtain ⟨ht2, hext2⟩ := storeUser_spec ht1 hpages hu hc (leafEntry phys flags)
    have hr1 := (hext.keep r (ne_idle_of_node hr)).trans hr
    have hself := entry_setEntry_self p1.mem (c * frameBytes) (ptIndex virt) hlt
    refine ⟨use1, ht2, hwide.trans (hext2.mono (fun _ => False.elim) (fun _ _ h => h)
      (fun _ h => h)), fun _ => ?_⟩
    refine (physOf_at ht2 hr1 hu hc).trans ((tableLookup_of_present ?_).trans ?_)
    · rw [hself]
      exact hpr
    · rw [hself, htarget]

theorem unmapUser_loose (ht : Tables lay p use) (hpages : ¬ lay.pages) {r tree virt : ℕ}
    (hr : use r = .node tree []) (hu : ¬ tree < pmmMaxFrames)
    (hk : kernelSlot (pml4Index virt) = false) :
    Tables lay (unmapPage p (r * frameBytes) virt) use ∧
      Extends ⟨fun _ => False, fun _ _ => False, fun v => pageOf v = pageOf virt⟩ p
        (unmapPage p (r * frameBytes) virt) use use := by
  unfold unmapPage
  rcases lookupUser_spec ht hr hu hk with ⟨hnone, _⟩ | ⟨c, hsome, hc⟩
  · rw [hnone]
    exact ⟨ht, Extends.refl ht _⟩
  · rw [hsome]
    exact storeUser_spec ht hpages hu hc 0

end TraitOS.Tvmm
