import TraitOS.TvmmMap

/-!
# Mapping and unmapping one page of the kernel half

The tables of the kernel half are shared by all spaces, and the frames they map
are not tracked. What matters is that the walk does not take a large leaf for a
table, and which PML4 a missing slot is wired in.
-/
namespace TraitOS.Tvmm
open ByteMemory PageTable Tpmm

variable {lay : Layout} {p : Paging} {use : ℕ → Use} {r tree c virt : ℕ}

/-- The kernel tree through which a root reaches an address. -/
def treeOf (m : Memory) (r virt : ℕ) : ℕ := frameNo (entry m (r * frameBytes) (pml4Index virt))

def slotPresent (m : Memory) (r virt : ℕ) : Bool :=
  present (entry m (r * frameBytes) (pml4Index virt))

/-- The address is not inside a large leaf of the root's kernel half. -/
def Uncovered (lay : Layout) (m : Memory) (r virt : ℕ) : Prop :=
  slotPresent m r virt = true → ¬ lay.leaf (treeOf m r virt) (pdptIndex virt) (pdIndex virt)

lemma spaceScope_kernel {k b i : ℕ} (hk : k < pmmMaxFrames) (h : ¬ lay.leaf k b i) :
    spaceScope lay k [b] i := by
  unfold spaceScope
  rwa [if_pos hk]

lemma not_covered_of_idle (ht : Tables lay p use) {c b i : ℕ} (hc : use c = .idle)
    (hmax : c < pmmMaxFrames) (hi : i < entries) : ¬ lay.leaf c b i := by
  intro hcov
  obtain ⟨f, hf, _⟩ := ht.leaves c b i hcov hi
  obtain ⟨g, hg, _⟩ := ht.owned.up f c [] b hf
  obtain rfl := ht.named g c hg hmax
  exact ne_idle_of_node hg hc

/-- The root of the kernel tree an address belongs to. -/
theorem ensureSlot_spec (ht : Tables lay p use) {r tree virt : ℕ} (flags : ℕ)
    (hr : use r = .node tree []) (hu : ¬ tree < pmmMaxFrames)
    (hk : kernelSlot (pml4Index virt) = true) (hcov : Uncovered lay p.mem r virt) :
    (tableEnsure p (r * frameBytes) (pml4Index virt) flags = (p, none) ∧ ¬ Supply 1 p.pmm) ∨
      ∃ p' k use', tableEnsure p (r * frameBytes) (pml4Index virt) flags =
          (p', some (k * frameBytes)) ∧ Tables lay p' use' ∧
        Extends ⟨fun t => t < pmmMaxFrames,
          fun r' i => r' = r ∧ i = pml4Index virt ∧ slotPresent p.mem r virt = false,
          fun _ => False⟩ p p' use use' ∧
        use' k = .node k [] ∧ slotPresent p'.mem r virt = true ∧ treeOf p'.mem r virt = k ∧
        ¬ lay.leaf k (pdptIndex virt) (pdIndex virt) ∧
        ∀ n, Supply (n + 1) p.pmm → Supply n p'.pmm := by
  have hlev : levels tree = 4 := levels_of_space hu
  rcases tableEnsure_spec ht flags hr (by rw [hlev]; decide) (pml4Index_lt virt)
      (fun h => absurd h (by rw [hlev]; decide))
      (fun c => Position.ownTree rfl hu hk) with
    ⟨hfail, h0⟩ | ⟨hp, heq⟩ | ⟨p', c, use', habs, heq, ht', hext, hc, hp', hframe, hfree, hpmm⟩
  · exact Or.inl ⟨hfail, fun hs => hs.1 h0⟩
  · exact Or.inr ⟨p, _, use, heq, ht, Extends.refl ht _,
      ht.slots r tree _ hr hu (pml4Index_lt virt) hk hp, hp, rfl, hcov hp, fun _ => Supply.pred⟩
  · have hmax := free_lt ht.valid hfree
    refine Or.inr ⟨p', c, use', heq, ht', hext.mono ?_ ?_ (fun _ h => h), hc, hp', hframe,
      not_covered_of_idle ht (ht.idle_of_free hfree) hmax (pdIndex_lt virt), ?_⟩
    · rintro t rfl
      exact hmax
    · exact fun r' i h => ⟨h.1, h.2, habs⟩
    · intro n hn
      rw [hpmm]
      exact hn.2

/-- The last table of an address of the kernel half. -/
theorem ensureKernel_spec (ht : Tables lay p use) {r tree virt : ℕ} (flags : ℕ)
    (hr : use r = .node tree []) (hu : ¬ tree < pmmMaxFrames)
    (hk : kernelSlot (pml4Index virt) = true) (hcov : Uncovered lay p.mem r virt) :
    ∃ p' use', Tables lay p' use' ∧
      Extends ⟨fun t => t < pmmMaxFrames,
        fun r' i => r' = r ∧ i = pml4Index virt ∧ slotPresent p.mem r virt = false,
        fun _ => False⟩ p p' use use' ∧
      ((ensureTables p (r * frameBytes) virt flags = (p', none) ∧ ¬ Supply 3 p.pmm) ∨
        ∃ c, ensureTables p (r * frameBytes) virt flags = (p', some (c * frameBytes)) ∧
          slotPresent p'.mem r virt = true ∧
          use' c = .node (treeOf p'.mem r virt) [pdptIndex virt, pdIndex virt]) := by
  unfold ensureTables
  rcases ensureSlot_spec ht flags hr hu hk hcov with
    ⟨hfail, hno⟩ | ⟨p1, k, use1, heq1, ht1, hext1, hk1, hp1, htree1, hcov1, hs1⟩
  · rw [hfail]
    exact ⟨p, use, ht, Extends.refl ht _, Or.inl ⟨rfl, fun hs => hno hs.pred.pred⟩⟩
  rw [heq1, withTable_some]
  have hmax : k < pmmMaxFrames := ht1.small k (ne_idle_of_node hk1)
  have hlev : levels k = 3 := levels_of_kernel hmax
  have hr1 := (hext1.keep r (ne_idle_of_node hr)).trans hr
  -- the walk below the slot touches the kernel tree only
  have hwiden : ∀ {q q' : Paging} {u u' : ℕ → Use},
      Extends ⟨fun t => t = k, fun _ _ => False, fun _ => False⟩ q q' u u' →
      Extends ⟨fun t => t < pmmMaxFrames,
        fun r' i => r' = r ∧ i = pml4Index virt ∧ slotPresent p.mem r virt = false,
        fun _ => False⟩ q q' u u' :=
    fun h => h.mono (fun t ht => ht ▸ hmax) (fun _ _ => False.elim) (fun _ => False.elim)
  rcases ensureChild_spec ht1 flags hk1 (by rw [hlev]; decide) (pdptIndex_lt virt)
      (spaceScope_pdpt hlev.symm) with
    ⟨hfail, hno⟩ | ⟨p2, c2, use2, heq2, ht2, hext2, hc2, hs2⟩
  · rw [hfail]
    exact ⟨p1, use1, ht1, hext1, Or.inl ⟨rfl, fun hs => hno (hs1 2 hs).pred⟩⟩
  rw [heq2, withTable_some]
  rcases ensureChild_spec ht2 flags hc2 (by rw [hlev]; simp) (pdIndex_lt virt)
      (spaceScope_kernel hmax hcov1) with
    ⟨hfail, hno⟩ | ⟨p3, c3, use3, heq3, ht3, hext3, hc3, _⟩
  · exact ⟨p2, use2, ht2, hext1.trans (hwiden hext2),
      Or.inl ⟨hfail, fun hs => hno (hs2 1 (hs1 2 hs))⟩⟩
  · have hslot := (hext2.trans hext3).roots r tree _ hr1 hu (pml4Index_lt virt) hk (fun h => h)
    refine ⟨p3, use3, ht3, (hext1.trans (hwiden hext2)).trans (hwiden hext3),
      Or.inr ⟨c3, heq3, ?_, ?_⟩⟩
    · unfold slotPresent
      rw [hslot]
      exact hp1
    · unfold treeOf
      rw [hslot]
      exact (congrArg (fun t => use3 c3 = .node t [pdptIndex virt, pdIndex virt]) htree1).mpr hc3

/-! ## Storing into the last table -/

lemma kernel_last {c k virt : ℕ} (hk : k < pmmMaxFrames)
    (hc : use c = .node k [pdptIndex virt, pdIndex virt]) :
    LastTable p use c (ptIndex virt) k [pdptIndex virt, pdIndex virt] :=
  ⟨hc, by rw [levels_of_kernel hk]; rfl, ptIndex_lt virt⟩

theorem physOf_kernel_at (ht : Tables lay p use) (hr : use r = .node tree [])
    (hu : ¬ tree < pmmMaxFrames) (hk : kernelSlot (pml4Index virt) = true)
    (hp : slotPresent p.mem r virt = true)
    (hc : use c = .node (treeOf p.mem r virt) [pdptIndex virt, pdIndex virt]) :
    physOf p.mem (r * frameBytes) virt = tableLookup p.mem (c * frameBytes) (ptIndex virt) := by
  have hnode := ht.slots r tree _ hr hu (pml4Index_lt virt) hk hp
  have hmax := ht.small _ (ne_idle_of_node hnode)
  rw [physOf_of_present hp]
  exact physBelow_at ht hnode (levels_of_kernel hmax).symm hc

/-- A store into the last table of a kernel page is seen by lookups of that page
only, though in every space that shares the tree. -/
theorem physOf_leaf_kernel (ht : Tables lay p use) (hr : use r = .node tree [])
    (hu : ¬ tree < pmmMaxFrames) (hk : kernelSlot (pml4Index virt) = true)
    (hp : slotPresent p.mem r virt = true)
    (hc : use c = .node (treeOf p.mem r virt) [pdptIndex virt, pdIndex virt]) (e : ℕ) {r' t' v : ℕ}
    (hr' : use r' = .node t' []) (hu' : ¬ t' < pmmMaxFrames) (hoff : pageOf v ≠ pageOf virt) :
    physOf (setEntry p.mem (c * frameBytes) (ptIndex virt) e) (r' * frameBytes) v =
      physOf p.mem (r' * frameBytes) v := by
  have hnode := ht.slots r tree _ hr hu (pml4Index_lt virt) hk hp
  have hmax := ht.small _ (ne_idle_of_node hnode)
  have hl : LastTable p use c (ptIndex virt) (treeOf p.mem r virt) _ := kernel_last hmax hc
  have hi := pml4Index_lt v
  have hsame := entry_leaf_of_ne hl e hr' hi (by
    rintro ⟨_, hnil, _⟩
    exact List.cons_ne_nil _ _ hnil.symm)
  cases hp' : present (entry p.mem (r' * frameBytes) (pml4Index v)) with
  | false => rw [physOf_of_absent hp', physOf_of_absent (by rw [hsame, hp'])]
  | true =>
    rw [physOf_of_present hp', physOf_of_present (by rw [hsame, hp']), hsame]
    cases hk' : kernelSlot (pml4Index v) with
    | true =>
      have hnode' := ht.slots r' t' _ hr' hu' hi hk' hp'
      have hmax' := ht.small _ (ne_idle_of_node hnode')
      apply physBelow_leaf ht hl e hnode' (levels_of_kernel hmax').symm
      rintro ⟨heq, hpath, hpt⟩
      have hslot := ht.single _ _ _ ⟨r', t', hr', hu', hi, hk', hp', heq⟩
        ⟨r, tree, hr, hu, pml4Index_lt virt, hk, hp, rfl⟩
      rw [List.nil_append, List.singleton_append] at hpath
      exact hoff ((pageOf_eq_iff v virt).mpr ⟨congrArg₂ List.cons hslot hpath, hpt⟩)
    | false =>
      have hnode' := ht.owned.down r' t' [] _ hr' (by decide) hi (spaceScope_root hu' hk') hp'
      apply physBelow_leaf ht hl e hnode' (levels_of_space hu').symm
      rintro ⟨heq, _⟩
      exact hu' (heq ▸ hmax)

/-- A store into the last table of a kernel page. -/
theorem storeKernel_spec (ht : Tables lay p use) (hr : use r = .node tree [])
    (hu : ¬ tree < pmmMaxFrames) (hk : kernelSlot (pml4Index virt) = true)
    (hp : slotPresent p.mem r virt = true)
    (hc : use c = .node (treeOf p.mem r virt) [pdptIndex virt, pdIndex virt]) {e : ℕ}
    (he : e < 2 ^ 64) :
    let p' : Paging := { p with mem := setEntry p.mem (c * frameBytes) (ptIndex virt) e }
    Tables lay p' use ∧
      Extends ⟨fun _ => False, fun _ _ => False, fun v => pageOf v = pageOf virt⟩ p p' use use ∧
      physOf p'.mem (r * frameBytes) virt = if present e then some (target e) else none := by
  intro p'
  have hnode := ht.slots r tree _ hr hu (pml4Index_lt virt) hk hp
  have hmax : treeOf p.mem r virt < pmmMaxFrames := ht.small _ (ne_idle_of_node hnode)
  have hl : LastTable p use c (ptIndex virt) (treeOf p.mem r virt) _ := kernel_last hmax hc
  have hroot : ∀ r' t' i, use r' = .node t' [] → i < entries →
      entry p'.mem (r' * frameBytes) i = entry p.mem (r' * frameBytes) i := by
    intro r' t' i hr' hi
    apply entry_leaf_of_ne hl e hr' hi
    rintro ⟨_, hnil, _⟩
    exact List.cons_ne_nil _ _ hnil.symm
  have ht' : Tables lay p' use := by
    apply ht.storeLeaf hl _ (fun _ => Iff.rfl) (fun _ _ _ _ => Iff.rfl)
    apply ht.owned.congr _ (fun _ _ _ => Iff.rfl)
    intro f t path i hf hi hin
    apply entry_leaf_of_ne hl e hf hi
    rintro ⟨rfl, rfl, _⟩
    unfold spaceScope at hin
    rwa [if_pos hmax] at hin
  refine ⟨ht', ⟨fun _ _ => rfl, fun _ h h' => absurd h h', ?_, rfl, ?_, ?_, ?_⟩, ?_⟩
  · exact fun f => ⟨fun hf => ⟨hf, ht.idle_of_free hf⟩, fun hf => hf.1⟩
  · intro x hx
    apply setEntry_of_frame _ _ hl.index
    intro heq
    exact hx (heq ▸ ⟨_, _, hc, by simp [depth]⟩)
  · exact fun r' t' i hr' _ hi _ _ => hroot r' t' i hr' hi
  · exact fun r' t' v hr' hu' hoff => physOf_leaf_kernel ht hr hu hk hp hc e hr' hu' hoff
  · have hslot := hroot r tree _ hr (pml4Index_lt virt)
    have hp' : slotPresent p'.mem r virt = true := by
      unfold slotPresent
      rw [hslot]
      exact hp
    have hc' : use c = .node (treeOf p'.mem r virt) [pdptIndex virt, pdIndex virt] := by
      unfold treeOf
      rw [hslot]
      exact hc
    rw [physOf_kernel_at ht' hr hu hk hp' hc']
    unfold tableLookup
    rw [entry_setEntry_self p.mem _ _ he]

/-! ## The two operations -/

/-- What mapping or unmapping a kernel page may do: add kernel tables, wire the
slot of the address in the root if it was missing there, and change the lookups of
the given pages. -/
def kernelEffect (m : Memory) (r virt : ℕ) (moves : ℕ → Prop) : Effect :=
  ⟨fun t => t < pmmMaxFrames,
    fun r' i => r' = r ∧ i = pml4Index virt ∧ slotPresent m r virt = false, moves⟩

lemma Uncovered.congr {m m' : Memory} {r virt : ℕ} (h : Uncovered lay m r virt)
    (hslot : entry m' (r * frameBytes) (pml4Index virt) =
      entry m (r * frameBytes) (pml4Index virt)) :
    Uncovered lay m' r virt := by
  unfold Uncovered slotPresent treeOf at *
  rwa [hslot]

/-- An address that has its last table is not inside a large leaf. -/
lemma uncovered_of_table (ht : Tables lay p use) (hr : use r = .node tree [])
    (hu : ¬ tree < pmmMaxFrames) (hk : kernelSlot (pml4Index virt) = true)
    (hc : use c = .node (treeOf p.mem r virt) [pdptIndex virt, pdIndex virt]) :
    Uncovered lay p.mem r virt := by
  intro hp
  have hnode := ht.slots r tree _ hr hu (pml4Index_lt virt) hk hp
  have hmax : treeOf p.mem r virt < pmmMaxFrames := ht.small _ (ne_idle_of_node hnode)
  obtain ⟨_, _, _, hin, _⟩ := ht.owned.up c _ [pdptIndex virt] _ hc
  unfold spaceScope at hin
  rwa [if_pos hmax] at hin

theorem mapKernel_spec (ht : Tables lay p use) {r tree virt flags : ℕ} (phys : ℕ)
    (hr : use r = .node tree []) (hu : ¬ tree < pmmMaxFrames)
    (hk : kernelSlot (pml4Index virt) = true) (hflags : flags < 2 ^ 64)
    (hcov : Uncovered lay p.mem r virt) :
    ∃ p' use', Tables lay p' use' ∧
      ((mapPage p (r * frameBytes) virt phys flags = (p', false) ∧ ¬ Supply 3 p.pmm ∧
          Extends (kernelEffect p.mem r virt fun _ => False) p p' use use') ∨
        (mapPage p (r * frameBytes) virt phys flags = (p', true) ∧
          (physOf p'.mem (r * frameBytes) virt = some (target phys ||| target flags) ∧
            Uncovered lay p'.mem r virt) ∧
          Extends (kernelEffect p.mem r virt fun v => pageOf v = pageOf virt) p p' use use')) := by
  obtain ⟨p1, use1, ht1, hext, hres⟩ := ensureKernel_spec ht flags hr hu hk hcov
  have hr1 := (hext.keep r (ne_idle_of_node hr)).trans hr
  unfold mapPage
  rcases hres with ⟨hfail, hno⟩ | ⟨c, heq, hp1, hc⟩
  · rw [hfail, withTable_none]
    exact ⟨p1, use1, ht1, Or.inl ⟨rfl, hno, hext⟩⟩
  rw [heq, withTable_some]
  obtain ⟨hlt, hpr, htarget⟩ := leafEntry_spec phys hflags
  obtain ⟨ht2, hext2, hphys⟩ := storeKernel_spec ht1 hr1 hu hk hp1 hc hlt
  rw [hpr, if_pos rfl, htarget] at hphys
  have hslot := hext2.roots r tree _ hr1 hu (pml4Index_lt virt) hk (fun h => h)
  have hcov2 : Uncovered lay _ r virt := (uncovered_of_table ht1 hr1 hu hk hc).congr hslot
  refine ⟨_, use1, ht2, Or.inr ⟨rfl, ⟨hphys, hcov2⟩,
    Extends.trans (hext.mono ?_ ?_ ?_) (hext2.mono ?_ ?_ ?_)⟩⟩
  · exact fun _ h => h
  · exact fun _ _ h => h
  · exact fun _ => False.elim
  · exact fun _ => False.elim
  · exact fun _ _ => False.elim
  · exact fun _ h => h

/-- The walk without allocation in the kernel half. -/
theorem lookupKernel_spec (ht : Tables lay p use) {r tree virt : ℕ} (hr : use r = .node tree [])
    (hu : ¬ tree < pmmMaxFrames) (hk : kernelSlot (pml4Index virt) = true)
    (hcov : Uncovered lay p.mem r virt) :
    (lookupTables p.mem (r * frameBytes) virt = none ∧ physOf p.mem (r * frameBytes) virt = none) ∨
      ∃ c, lookupTables p.mem (r * frameBytes) virt = some (c * frameBytes) ∧
        slotPresent p.mem r virt = true ∧
        use c = .node (treeOf p.mem r virt) [pdptIndex virt, pdIndex virt] := by
  unfold lookupTables
  cases hp : present (entry p.mem (r * frameBytes) (pml4Index virt)) with
  | false =>
    rw [tableLookup_of_absent hp, physOf_of_absent hp]
    exact Or.inl ⟨rfl, rfl⟩
  | true =>
    have hf := ht.slots r tree _ hr hu (pml4Index_lt virt) hk hp
    have hmax := ht.small _ (ne_idle_of_node hf)
    rw [tableLookup_of_present hp, physOf_of_present hp, target_eq_frameNo, Option.bind_some]
    exact (lookupBelow_spec ht hf (levels_of_kernel hmax).symm
      (spaceScope_kernel hmax (hcov hp))).imp id fun ⟨c, hfound, hc⟩ => ⟨c, hfound, hp, hc⟩

theorem unmapKernel_spec (ht : Tables lay p use) {r tree virt : ℕ} (hr : use r = .node tree [])
    (hu : ¬ tree < pmmMaxFrames) (hk : kernelSlot (pml4Index virt) = true)
    (hcov : Uncovered lay p.mem r virt) :
    Tables lay (unmapPage p (r * frameBytes) virt) use ∧
      physOf (unmapPage p (r * frameBytes) virt).mem (r * frameBytes) virt = none ∧
      Extends ⟨fun _ => False, fun _ _ => False, fun v => pageOf v = pageOf virt⟩ p
        (unmapPage p (r * frameBytes) virt) use use := by
  unfold unmapPage
  rcases lookupKernel_spec ht hr hu hk hcov with ⟨hnone, hphys⟩ | ⟨c, hsome, hp, hc⟩
  · rw [hnone]
    exact ⟨ht, hphys, Extends.refl ht _⟩
  · rw [hsome]
    obtain ⟨ht', hext, hphys⟩ := storeKernel_spec ht hr hu hk hp hc (show 0 < 2 ^ 64 by decide)
    exact ⟨ht', hphys, hext⟩

end TraitOS.Tvmm
