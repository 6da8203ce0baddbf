import TraitOS.TvmmShared
import TraitOS.TvmmRelease

/-!
# The mapping law of the kernel half

Mapping and unmapping one page of the kernel half of a machine that booted. The boot
tree maps memory with 2 MiB leaves; the walk of `vmm_map_page` takes such a leaf for a
page table, so the law is about the addresses that are not inside one.
-/
namespace TraitOS.Tvmm
open ByteMemory PageTable Tpmm Tstring Runs

/-! ## Translations -/

lemma physOf_of_underLeaf {m : Memory} {root virt : ℕ} (h : underLeaf m root virt = true) :
    physOf m root virt ≠ none := by
  unfold underLeaf at h
  cases h1 : tableLookup m root (pml4Index virt) with
  | none =>
    rw [h1] at h
    exact absurd h Bool.false_ne_true
  | some pdpt =>
    rw [h1, Option.elim_some] at h
    cases h2 : tableLookup m pdpt (pdptIndex virt) with
    | none =>
      rw [h2] at h
      exact absurd h Bool.false_ne_true
    | some pd =>
      rw [h2, Option.elim_some] at h
      have hl := (Bool.and_eq_true_iff.mp h).2
      rw [physOf_eq, h1, Option.bind_some]
      unfold physBelow
      rw [h2, Option.bind_some, physInPd_of_large hl]
      exact Option.some_ne_none _

section Translations
variable {lay : Layout} {p p' : Paging} {use use' : ℕ → Use} {r tree virt : ℕ}

lemma not_underLeaf_of_user (ht : Tables lay p use) (hr : use r = .node tree [])
    (hu : ¬ tree < pmmMaxFrames) (hk : kernelSlot (pml4Index virt) = false) :
    underLeaf p.mem (r * frameBytes) virt = false := by
  unfold underLeaf
  cases h1 : tableLookup p.mem (r * frameBytes) (pml4Index virt) with
  | none => rfl
  | some pdpt =>
    rw [Option.elim_some]
    cases h2 : tableLookup p.mem pdpt (pdptIndex virt) with
    | none => rfl
    | some pd =>
      obtain ⟨hp1, rfl⟩ := tableLookup_eq_some h1
      obtain ⟨hp2, rfl⟩ := tableLookup_eq_some h2
      have hpdpt := ht.owned.down r tree [] _ hr (by decide) (pml4Index_lt virt)
        (spaceScope_root hu hk) hp1
      have hpd := ht.owned.down _ tree _ _ hpdpt (by simp [depth]) (pdptIndex_lt virt)
        (spaceScope_inner hu (by simp) (by simp [depth])) hp2
      rw [Option.elim_some, ht.owned.plain _ tree _ _ hpd (by simp [depth]) (pdIndex_lt virt)
        (spaceScope_inner hu (by simp) (by simp [depth])), Bool.and_false]

lemma not_underLeaf_of_uncovered (ht : Tables lay p use) (hr : use r = .node tree [])
    (hu : ¬ tree < pmmMaxFrames) (hk : kernelSlot (pml4Index virt) = true)
    (hcov : Uncovered lay p.mem r virt) : underLeaf p.mem (r * frameBytes) virt = false := by
  unfold underLeaf
  cases h1 : tableLookup p.mem (r * frameBytes) (pml4Index virt) with
  | none => rfl
  | some pdpt =>
    rw [Option.elim_some]
    cases h2 : tableLookup p.mem pdpt (pdptIndex virt) with
    | none => rfl
    | some pd =>
      obtain ⟨hp1, rfl⟩ := tableLookup_eq_some h1
      obtain ⟨hp2, rfl⟩ := tableLookup_eq_some h2
      have hpdpt := ht.slots r tree _ hr hu (pml4Index_lt virt) hk hp1
      have hmax := ht.small _ (ne_idle_of_node hpdpt)
      have hpd := ht.owned.down _ _ [] _ hpdpt (by decide) (pdptIndex_lt virt)
        (spaceScope_pdpt (levels_of_kernel hmax).symm) hp2
      rw [Option.elim_some, ht.owned.plain _ _ _ _ hpd (by simp [depth]) (pdIndex_lt virt)
        (spaceScope_kernel hmax (hcov hp1)), Bool.and_false]

/-- Which addresses are inside a large leaf does not change, except where the lookup does. -/
lemma Extends.underLeaf_eq {v s t : ℕ} {moves : ℕ → Prop} (ht : Tables lay p use)
    (ht' : Tables lay p' use') (hext : Extends (kernelEffect p.mem r virt moves) p p' use use')
    (hs : use s = .node t []) (hu : ¬ t < pmmMaxFrames) (hoff : ¬ moves v) :
    underLeaf p'.mem (s * frameBytes) v = underLeaf p.mem (s * frameBytes) v := by
  have hs' := (hext.keep s (ne_idle_of_node hs)).trans hs
  cases hk : kernelSlot (pml4Index v) with
  | false => rw [not_underLeaf_of_user ht hs hu hk, not_underLeaf_of_user ht' hs' hu hk]
  | true =>
    by_cases hw : (kernelEffect p.mem r virt moves).wires s (pml4Index v)
    · -- the slot was missing: nothing translated there, and nothing does now
      obtain ⟨rfl, hslot, habs⟩ := hw
      have habs' : present (entry p.mem (s * frameBytes) (pml4Index v)) = false := hslot ▸ habs
      have hnone := (hext.lookups s t v hs hu hoff).trans (physOf_of_absent habs')
      have hbefore : underLeaf p.mem (s * frameBytes) v = false := by
        unfold underLeaf
        rw [tableLookup_of_absent habs']
        rfl
      rw [hbefore]
      by_contra h
      exact physOf_of_underLeaf (Bool.not_eq_false _ ▸ h) hnone
    · have hslot := hext.roots s t _ hs hu (pml4Index_lt v) hk hw
      cases h : underLeaf p.mem (s * frameBytes) v with
      | false =>
        have hcov := uncovered_of_not_underLeaf ht hs hu hk h
        exact not_underLeaf_of_uncovered ht' hs' hu hk (hcov.congr hslot)
      | true =>
        by_contra h'
        have hcov := uncovered_of_not_underLeaf ht' hs' hu hk (Bool.not_eq_true _ ▸ h')
        have := not_underLeaf_of_uncovered ht hs hu hk (hcov.congr hslot.symm)
        exact Bool.false_ne_true (this.symm.trans h)

theorem Extends.translate_eq {v s t : ℕ} {moves : ℕ → Prop} (ht : Tables lay p use)
    (ht' : Tables lay p' use') (hext : Extends (kernelEffect p.mem r virt moves) p p' use use')
    (hs : use s = .node t []) (hu : ¬ t < pmmMaxFrames) (hoff : ¬ moves v) :
    translate p'.mem (s * frameBytes) v = translate p.mem (s * frameBytes) v := by
  have hs' := (hext.keep s (ne_idle_of_node hs)).trans hs
  rw [Tvmm.translate_eq ht v hs hu, Tvmm.translate_eq ht' v hs' hu, hext.lookups s t v hs hu hoff,
    hext.underLeaf_eq ht ht' hs hu hoff]

end Translations

/-! ## What the calls write

The frames written are the tables on the way of the address, and frames taken from the
pool to become tables: once a table is new, all below it are. -/

/-- A table the running call took from the pool `F` it started with. -/
structure NewTable (F : Finset ℕ) (p : Paging) (c : ℕ) : Prop where
  taken : c ∈ F
  absent : ∀ i < entries, present (entry p.mem (c * frameBytes) i) = false
  valid : Valid p.pmm
  pool : freeSet p.pmm ⊆ F
  gone : c ∉ freeSet p.pmm

section Content
variable {F : Finset ℕ} {p : Paging}

lemma tableEnsure_of_absent {g idx : ℕ} (flags : ℕ) (hv : Valid p.pmm) (hpool : freeSet p.pmm ⊆ F)
    (hg : g ∉ freeSet p.pmm) (hi : idx < entries)
    (habs : present (entry p.mem (g * frameBytes) idx) = false) :
    (∃ p', tableEnsure p (g * frameBytes) idx flags = (p', none) ∧ p'.mem = p.mem) ∨
      ∃ p' c, tableEnsure p (g * frameBytes) idx flags = (p', some (c * frameBytes)) ∧
        NewTable F p' c ∧ ∀ x, x / frameBytes ≠ g → x / frameBytes ∉ F → p'.mem x = p.mem x := by
  unfold tableEnsure
  dsimp only
  obtain ⟨hspec, _⟩ := tpmmAllocLow_spec hv
  rw [if_neg (by rw [habs]; exact Bool.false_ne_true)]
  by_cases h0 : (tpmmAllocLow p.pmm).2 = 0
  · rw [if_pos h0]
    exact Or.inl ⟨_, rfl, rfl⟩
  · rw [if_neg h0]
    obtain ⟨c, hc, hfree, _, hset⟩ := granted_one hv hspec h0
    have hc40 : c < 2 ^ 40 := (free_lt hv hfree).trans (by decide)
    have hcg : c ≠ g := fun h => hg (h ▸ hfree)
    refine Or.inr ⟨⟨wired p.mem c g idx (tableEntry (c * frameBytes) flags),
      (tpmmAllocLow p.pmm).1⟩, c,
      ?_, ⟨hpool hfree, fun i hi' => ?_, hspec.valid hv, ?_, ?_⟩, fun x hx hF => ?_⟩
    · rw [hc, target_frame hc40, tmemset_eq_fill]
      rfl
    · exact (congrArg present (entry_wired_new p.mem _ hi' hi hcg)).trans (by decide)
    · exact hset ▸ (Finset.erase_subset _ _).trans hpool
    · exact hset ▸ Finset.notMem_erase c _
    · have hxc : x / frameBytes ≠ c := fun h => hF (h ▸ hpool hfree)
      exact (setEntry_of_frame _ _ hi hx).trans (fill_of_frame _ _ hxc)

/-- A walk that wrote allowed frames only, and ended in one. -/
def Confined (ok : ℕ → Prop) (p : Paging) (r : Paging × Option ℕ) : Prop :=
  (∀ x, ¬ ok (x / frameBytes) → r.1.mem x = p.mem x) ∧
    ∀ table, r.2 = some table → ∃ c, table = c * frameBytes ∧ ok c

lemma Confined.withTable {ok : ℕ → Prop} {r : Paging × Option ℕ}
    {next : Paging → ℕ → Paging × Option ℕ} (h : Confined ok p r)
    (hnext : ∀ c, r.2 = some (c * frameBytes) → Confined ok r.1 (next r.1 (c * frameBytes))) :
    Confined ok p (Tvmm.withTable r none next) := by
  obtain ⟨q, table⟩ := r
  cases table with
  | none => exact ⟨h.1, nofun⟩
  | some table =>
    obtain ⟨c, rfl, _⟩ := h.2 table rfl
    obtain ⟨hmem, hlast⟩ := hnext c rfl
    exact ⟨fun x hx => (hmem x hx).trans (h.1 x hx), hlast⟩

/-- A walk that starts in a new table stays in frames of the pool. -/
lemma NewTable.ensure {c idx : ℕ} (hc : NewTable F p c) (flags : ℕ) (hi : idx < entries) :
    Confined (· ∈ F) p (tableEnsure p (c * frameBytes) idx flags) ∧
      ∀ c', (tableEnsure p (c * frameBytes) idx flags).2 = some (c' * frameBytes) →
        NewTable F (tableEnsure p (c * frameBytes) idx flags).1 c' := by
  rcases tableEnsure_of_absent flags hc.valid hc.pool hc.gone hi (hc.absent idx hi) with
    ⟨p', heq, hmem⟩ | ⟨p', c₁, heq, hnew, hmem⟩
  · rw [heq]
    exact ⟨⟨fun x _ => congrFun hmem x, nofun⟩, nofun⟩
  · rw [heq]
    refine ⟨⟨fun x hx => hmem x (fun h => hx (h ▸ hc.taken)) hx, fun table h => ?_⟩, fun c' h => ?_⟩
    · exact ⟨c₁, (Option.some.inj h).symm, hnew.taken⟩
    · obtain rfl : c₁ = c' := Nat.eq_of_mul_eq_mul_right (by decide) (Option.some.inj h)
      exact hnew

lemma withTable_pure (r : Paging × Option ℕ) :
    withTable r none (fun q table => (q, some table)) = r := by
  obtain ⟨q, _ | table⟩ := r <;> rfl

/-- One level of the walk: the entry leads on, or all below it is new. -/
lemma confined_ensure {ok : ℕ → Prop} {g idx : ℕ} {next : Paging → ℕ → Paging × Option ℕ}
    (flags : ℕ) (hv : Valid p.pmm) (hF : ∀ c ∈ freeSet p.pmm, ok c) (hok : ok g)
    (hg : g ∉ freeSet p.pmm) (hi : idx < entries)
    (hold : present (entry p.mem (g * frameBytes) idx) = true →
      Confined ok p (next p (frameNo (entry p.mem (g * frameBytes) idx) * frameBytes)))
    (hnew : ∀ q c, NewTable (freeSet p.pmm) q c → Confined ok q (next q (c * frameBytes))) :
    Confined ok p (withTable (tableEnsure p (g * frameBytes) idx flags) none next) := by
  cases hp : present (entry p.mem (g * frameBytes) idx) with
  | true =>
    have heq : tableEnsure p (g * frameBytes) idx flags =
        (p, some (frameNo (entry p.mem (g * frameBytes) idx) * frameBytes)) := by
      unfold tableEnsure
      rw [← target_eq_frameNo]
      exact if_pos hp
    rw [heq, withTable_some]
    exact hold hp
  | false =>
    rcases tableEnsure_of_absent flags hv (Finset.Subset.refl _) hg hi hp with
      ⟨p', heq, hmem⟩ | ⟨p', c, heq, hc, hmem⟩
    · rw [heq, withTable_none]
      exact ⟨fun x _ => congrFun hmem x, nofun⟩
    · rw [heq, withTable_some]
      obtain ⟨hrest, hlast⟩ := hnew p' c hc
      refine ⟨fun x hx => (hrest x hx).trans (hmem x (fun h => hx (h ▸ hok)) fun h => hx (hF _ h)),
        hlast⟩

lemma Confined.mono {ok ok' : ℕ → Prop} {r : Paging × Option ℕ} (h : Confined ok p r)
    (hsub : ∀ c, ok c → ok' c) : Confined ok' p r :=
  ⟨fun x hx => h.1 x (fun hok => hx (hsub _ hok)), fun table ht =>
    (h.2 table ht).imp fun c hc => ⟨hc.1, hsub c hc.2⟩⟩

/-- The frames the walk to the last table may write. -/
def onWay (p : Paging) (root virt : ℕ) (c : ℕ) : Prop :=
  c * frameBytes ∈ tablesAt p.mem root virt ∨ c ∈ freeSet p.pmm

instance (p : Paging) (root virt c : ℕ) : Decidable (onWay p root virt c) :=
  inferInstanceAs (Decidable (_ ∨ _))

theorem ensureTables_confined {r virt : ℕ} (flags : ℕ) (hv : Valid p.pmm)
    (hheld : ∀ c, c * frameBytes ∈ tablesAt p.mem (r * frameBytes) virt → c ∉ freeSet p.pmm)
    (hleaf : underLeaf p.mem (r * frameBytes) virt = false) :
    Confined (onWay p (r * frameBytes) virt) p (ensureTables p (r * frameBytes) virt flags) := by
  have hF : ∀ c ∈ freeSet p.pmm, onWay p (r * frameBytes) virt c := fun _ h => Or.inr h
  have hnew2 : ∀ q c, NewTable (freeSet p.pmm) q c →
      Confined (onWay p (r * frameBytes) virt) q (tableEnsure q (c * frameBytes)
        (pdIndex virt) flags) :=
    fun q c hc => (hc.ensure flags (pdIndex_lt virt)).1.mono hF
  have hnew1 : ∀ q c, NewTable (freeSet p.pmm) q c →
      Confined (onWay p (r * frameBytes) virt) q
        (withTable (tableEnsure q (c * frameBytes) (pdptIndex virt) flags) none fun q pd =>
          tableEnsure q pd (pdIndex virt) flags) := by
    intro q c hc
    obtain ⟨h, hnext⟩ := hc.ensure flags (pdptIndex_lt virt)
    exact (h.mono hF).withTable fun c' hc' => hnew2 _ c' (hnext c' hc')
  have hroot : r * frameBytes ∈ tablesAt p.mem (r * frameBytes) virt := List.mem_cons_self
  refine confined_ensure flags hv hF (Or.inl hroot) (hheld r hroot) (pml4Index_lt virt)
    (fun hp1 => ?_) hnew1
  unfold onWay tablesAt at *
  unfold underLeaf at hleaf
  rw [tableLookup_of_present hp1, target_eq_frameNo, Option.elim_some] at *
  generalize frameNo (entry p.mem (r * frameBytes) (pml4Index virt)) = k at *
  have hk : k * frameBytes ∈ r * frameBytes :: k * frameBytes ::
      (tableLookup p.mem (k * frameBytes) (pdptIndex virt)).elim [] fun pd =>
        pd :: if large (entry p.mem pd (pdIndex virt)) then []
          else (tableLookup p.mem pd (pdIndex virt)).toList := by simp
  refine confined_ensure flags hv hF (Or.inl hk) (hheld k hk) (pdptIndex_lt virt)
    (fun hp2 => ?_) hnew2
  rw [tableLookup_of_present hp2, target_eq_frameNo, Option.elim_some] at *
  generalize frameNo (entry p.mem (k * frameBytes) (pdptIndex virt)) = d at *
  have hd : d * frameBytes ∈ r * frameBytes :: k * frameBytes :: d * frameBytes ::
      if large (entry p.mem (d * frameBytes) (pdIndex virt)) then []
        else (tableLookup p.mem (d * frameBytes) (pdIndex virt)).toList := by simp
  rw [← withTable_pure (tableEnsure p (d * frameBytes) (pdIndex virt) flags)]
  refine confined_ensure flags hv hF (Or.inl hd) (hheld d hd) (pdIndex_lt virt) (fun hp3 => ?_) ?_
  · have hl : large (entry p.mem (d * frameBytes) (pdIndex virt)) = false := by
      rwa [hp3, Bool.true_and] at hleaf
    refine ⟨fun _ _ => rfl, fun table h => ⟨_, (Option.some.inj h).symm, Or.inl ?_⟩⟩
    simp [hl, tableLookup_of_present hp3, target_eq_frameNo]
  · exact fun q c hc =>
      ⟨fun _ _ => rfl, fun table h => ⟨c, (Option.some.inj h).symm, Or.inr hc.taken⟩⟩

theorem mapPage_content {r virt : ℕ} (phys flags : ℕ) (hv : Valid p.pmm)
    (hheld : ∀ c, c * frameBytes ∈ tablesAt p.mem (r * frameBytes) virt → c ∉ freeSet p.pmm)
    (hleaf : underLeaf p.mem (r * frameBytes) virt = false) {p' : Paging} {done : Bool}
    (hmap : mapPage p (r * frameBytes) virt phys flags = (p', done)) (x : ℕ)
    (hx : ¬ onWay p (r * frameBytes) virt (x / frameBytes)) : p'.mem x = p.mem x := by
  obtain ⟨hmem, hlast⟩ := ensureTables_confined flags hv hheld hleaf
  have hkept := hmem x hx
  unfold mapPage at hmap
  rcases hres : ensureTables p (r * frameBytes) virt flags with ⟨q, _ | table⟩
  · rw [hres, withTable_none] at hmap
    rw [hres] at hkept
    exact (Prod.mk.inj hmap).1 ▸ hkept
  · rw [hres] at hkept hlast
    obtain ⟨c, rfl, hc⟩ := hlast table rfl
    have hne : x / frameBytes ≠ c := fun h => hx (h ▸ hc)
    rw [hres, withTable_some] at hmap
    rw [← (Prod.mk.inj hmap).1]
    exact (setEntry_of_frame _ _ (ptIndex_lt virt) hne).trans hkept

/-- The last table of an address outside the large leaves is one of its tables. -/
lemma lookupTables_mem {m : Memory} {root virt pt : ℕ} (hleaf : underLeaf m root virt = false)
    (h : lookupTables m root virt = some pt) : pt ∈ tablesAt m root virt := by
  obtain ⟨pdpt, h1, h⟩ := Option.bind_eq_some_iff.mp h
  obtain ⟨pd, h2, h3⟩ := Option.bind_eq_some_iff.mp h
  unfold underLeaf at hleaf
  unfold tablesAt
  rw [h1, Option.elim_some, h2, Option.elim_some, (tableLookup_eq_some h3).1,
    Bool.true_and] at hleaf
  rw [h1, Option.elim_some, h2, Option.elim_some, hleaf, if_neg Bool.false_ne_true, h3]
  simp

theorem unmapPage_content {r virt : ℕ} (hleaf : underLeaf p.mem (r * frameBytes) virt = false)
    (x : ℕ) (hx : x / frameBytes * frameBytes ∉ tablesAt p.mem (r * frameBytes) virt) {p' : Paging}
    (hunmap : unmapPage p (r * frameBytes) virt = p') : p'.mem x = p.mem x := by
  unfold unmapPage at hunmap
  cases hres : lookupTables p.mem (r * frameBytes) virt with
  | none =>
    rw [hres, Option.elim_none] at hunmap
    rw [hunmap]
  | some pt =>
    have hmem := lookupTables_mem hleaf hres
    obtain ⟨_, _, h⟩ := Option.bind_eq_some_iff.mp hres
    obtain ⟨_, _, h⟩ := Option.bind_eq_some_iff.mp h
    rw [(tableLookup_eq_some h).2] at hmem hres
    rw [hres, Option.elim_some] at hunmap
    rw [← hunmap]
    refine setEntry_of_frame _ _ (ptIndex_lt virt) fun heq => hx ?_
    rwa [heq]

/-- A frame that is still free after the call kept its bytes. -/
lemma Extends.content_of_notMem {fx : Effect} {p' : Paging} {use use' : ℕ → Use} {x : ℕ}
    {way : Prop} (hext : Extends fx p p' use use') (hcontent : ¬ way → p'.mem x = p.mem x)
    (hx : ¬ (way ∧ x / frameBytes ∉ freeSet p'.pmm)) : p'.mem x = p.mem x := by
  by_cases hfree : x / frameBytes ∈ freeSet p'.pmm
  · refine hext.content x ?_
    rintro ⟨tree, path, hnode, _⟩
    exact ne_idle_of_node hnode ((hext.pool _).mp hfree).2
  · exact hcontent fun hway => hx ⟨hway, hfree⟩

end Content

/-! ## The law -/

/-- The tables of an address of the kernel half are not free. -/
lemma tablesAt_held {lay : Layout} {p : Paging} {use : ℕ → Use} (ht : Tables lay p use)
    {r tree virt : ℕ} (hr : use r = .node tree []) (hu : ¬ tree < pmmMaxFrames)
    (hk : kernelSlot (pml4Index virt) = true) (c : ℕ)
    (hc : c * frameBytes ∈ tablesAt p.mem (r * frameBytes) virt) : c ∉ freeSet p.pmm := by
  obtain ⟨f, heq, hf⟩ := tablesAt_kernel ht hr hu hk hc
  obtain rfl : c = f := Nat.eq_of_mul_eq_mul_right (by decide) heq
  rcases hf with ⟨hnode, _⟩ | ⟨t, path, _, hnode, _⟩
  · exact ht.held c (ne_idle_of_node hnode)
  · exact ht.held c (ne_idle_of_node hnode)

/-- Outside the large leaves a page is mapped where it is asked to be, or not at all; no
other page moves, and only tables are written: those of the address and frames taken from
the pool. Unmapping takes away this page alone. -/
theorem kernel_mapping_law (b : BootFrames) (w₀ w : World) (hb : Booted b w₀) (ops : List Op)
    (hrun : exec (guarded step Disciplined) w₀ ops = some w) (virt : ℕ)
    (hk : kernelSlot (pml4Index virt) = true)
    (hleaf : underLeaf w.vm.mem w.vmm.heap.current virt = false) :
    (∀ phys flags p done, flags < 2 ^ 64 → target phys ||| target flags = target phys →
      vmmMapPage w.vm w.vmm.heap.current virt phys flags = (p, done) →
      (done = true → translate p.mem w.vmm.heap.current virt = some (target phys + virt % 4096)) ∧
      (∀ as v, w.Has as → done = false ∨ pageOf v ≠ pageOf virt →
        translate p.mem (rootOf w.vmm as) v = translate w.vm.mem (rootOf w.vmm as) v) ∧
      ∀ x, ¬ (onWay w.vm w.vmm.heap.current virt (x / frameBytes) ∧
        x / frameBytes ∉ freeSet p.pmm) → p.mem x = w.vm.mem x) ∧
    ∀ p, vmmUnmapPage w.vm w.vmm.heap.current virt = p →
      translate p.mem w.vmm.heap.current virt = none ∧
      (∀ as v, w.Has as → pageOf v ≠ pageOf virt →
        translate p.mem (rootOf w.vmm as) v = translate w.vm.mem (rootOf w.vmm as) v) ∧
      ∀ x, x / frameBytes * frameBytes ∉ tablesAt w.vm.mem w.vmm.heap.current virt →
        p.mem x = w.vm.mem x := by
  obtain ⟨g, hs⟩ := hb.run hrun
  obtain ⟨r, hr, hroot, _⟩ := hs.root hs.current.1
  have hu := hs.not_lt hs.current.1
  have hcur : w.vmm.heap.current = r * frameBytes := hs.current.2.trans hroot
  rw [hcur] at hleaf ⊢
  have hcov := uncovered_of_not_underLeaf hs.tables hr hu hk hleaf
  constructor
  · intro phys flags p done hflags hpure hmap
    have hmap' : mapPage w.vm (r * frameBytes) virt phys flags = (p, done) :=
      (if_neg (not_userSlot_of_kernel hk)).symm.trans hmap
    obtain ⟨p', use', ht', hcase⟩ := mapKernel_spec hs.tables phys hr hu hk hflags hcov
    have hcontent := mapPage_content phys flags hs.tables.valid (tablesAt_held hs.tables hr hu hk)
      hleaf hmap'
    rcases hcase with ⟨heq, _, hext⟩ | ⟨heq, ⟨hphys, hcov'⟩, hext⟩
    · cases heq.symm.trans hmap'
      refine ⟨nofun, fun as v has _ => ?_, fun x hx => hext.content_of_notMem (hcontent x) hx⟩
      obtain ⟨s, hs', hsroot, _⟩ := hs.root has
      rw [hsroot]
      exact hext.translate_eq hs.tables ht' hs' (hs.not_lt has) not_false
    · cases heq.symm.trans hmap'
      have hr' := (hext.keep r (ne_idle_of_node hr)).trans hr
      refine ⟨fun _ => ?_, fun as v has hoff => ?_, fun x hx => hext.content_of_notMem (hcontent x)
        hx⟩
      · rw [translate_eq ht' virt hr' hu, hphys, not_underLeaf_of_uncovered ht' hr' hu hk hcov',
          hpure]
        rfl
      · obtain ⟨s, hs', hsroot, _⟩ := hs.root has
        rw [hsroot]
        exact hext.translate_eq hs.tables ht' hs' (hs.not_lt has) (hoff.resolve_left nofun)
  · intro p hunmap
    have hunmap' : unmapPage w.vm (r * frameBytes) virt = p :=
      (if_neg (not_userSlot_of_kernel hk)).symm.trans hunmap
    obtain ⟨ht', hphys, hext⟩ := unmapKernel_spec hs.tables hr hu hk hcov
    rw [hunmap'] at ht' hphys hext
    have hext' : Extends (kernelEffect w.vm.mem r virt fun v => pageOf v =
      pageOf virt) w.vm p g.use g.use :=
      hext.mono (fun _ => False.elim) (fun _ _ => False.elim) (fun _ h => h)
    refine ⟨?_, fun as v has hoff => ?_, fun x hx => unmapPage_content hleaf x hx hunmap'⟩
    · rw [translate_eq ht' virt hr hu, hphys]
      rfl
    · obtain ⟨s, hs', hsroot, _⟩ := hs.root has
      rw [hsroot]
      exact hext'.translate_eq hs.tables ht' hs' (hs.not_lt has) hoff

/-- A page mapped in a slot that was empty on the small machine. -/
theorem kernel_mapping_law_bootMachine :
    ∃ p, vmmMapPage bootMachine.vm bootMachine.vmm.heap.current 0xFFFF800000000000 0x110000 3 =
      (p, true) ∧
      translate p.mem bootMachine.vmm.heap.current 0xFFFF800000000000 = some 0x110000 := by
  have habs : present (entry bootMachine.vm.mem bootMachine.vmm.heap.current 256) = false := by
    have hempty := bootMachine_booted.tree.empty 256 (by decide) (by decide) (by decide)
    exact (congrArg present hempty).trans (by decide)
  have hleaf : underLeaf bootMachine.vm.mem bootMachine.vmm.heap.current 0xFFFF800000000000 =
    false := by
    unfold underLeaf
    rw [show pml4Index 0xFFFF800000000000 = 256 by decide, tableLookup_of_absent habs]
    rfl
  obtain ⟨p, hmap, _⟩ :=
    mapPage_supply (k := 0) bootMachine.vmm.heap.current 0xFFFF800000000000 0x110000 3
    (show Supply 3 bootMachine.vm.pmm by decide +kernel)
  have hmap' : vmmMapPage bootMachine.vm bootMachine.vmm.heap.current 0xFFFF800000000000 0x110000
      3 = (p, true) := (if_neg (by decide)).trans hmap
  have hlaw := kernel_mapping_law _ _ bootMachine bootMachine_booted [] rfl 0xFFFF800000000000
    (by decide) hleaf
  exact ⟨p, hmap', (hlaw.1 0x110000 3 p true (by decide) (by decide) hmap').1 rfl⟩

/-- An identity-mapped address: memory behind the leaf is written as if it were a table,
and the address still leads where it did. -/
theorem leaf_taken_for_table :
    let r := vmmMapPage bootMachine.vm bootMachine.vmm.heap.current 0x110000 0x120000 3
    kernelSlot (pml4Index 0x110000) = true ∧ r.2 = true ∧
      translate r.1.mem bootMachine.vmm.heap.current 0x110000 ≠ some 0x120000 ∧
      r.1.mem 0x880 ≠ bootMachine.vm.mem 0x880 ∧
      ¬ onWay bootMachine.vm bootMachine.vmm.heap.current 0x110000 (0x880 / frameBytes) := by
  decide +kernel

end TraitOS.Tvmm
