import TraitOS.TvmmLaw

/-!
# What a space gives back

While callers map and unmap pages of one space, every frame that leaves the pool goes
to the callers or below the root of the space, and the other way round. When the
callers hold what they held before, the space owns exactly what the pool lacks, and
the teardown decides what of it comes back.
-/
namespace TraitOS.Tvmm
open ByteMemory PageTable Tpmm Tmalloc Runs

/-- The calls in the life of one space: its pages are mapped and unmapped, frames are
taken and given back for them, and it may be switched to and away from. -/
def Tends (as : ℕ) : Op → Prop
  | .map as' _ _ _ => as' = as
  | .unmap as' _ => as' = as
  | .switch _ => True
  | .alloc _ => True
  | .free _ => True
  | _ => False

instance (as : ℕ) : (op : Op) → Decidable (Tends as op)
  | .map as' .. | .unmap as' _ => inferInstanceAs (Decidable (as' = as))
  | .switch _ | .alloc _ | .free _ => inferInstanceAs (Decidable True)
  | .create | .destroy _ | .mapPage .. | .unmapPage _ => inferInstanceAs (Decidable False)

def Tended (as : ℕ) (w : World) (op : Op) : Prop := Disciplined w op ∧ Tends as op

instance (as : ℕ) (w : World) (op : Op) : Decidable (Tended as w op) :=
  inferInstanceAs (Decidable (_ ∧ _))

section Release
variable {lay : Layout} {as c : ℕ} {w w' : World} {g : Ghost}

lemma vm_enter (s : Vmm) (root as cr3 : ℕ) :
    ({ s with heap := { s.heap with current := root }, current := as, cr3 := cr3 } : Vmm).heap.vm =
      s.heap.vm := rfl

lemma vm_switch (s : Vmm) (as : ℕ) : (vmmAspaceSwitch s as).heap.vm = s.heap.vm :=
  vm_enter s (rootOf s as) as (aspaceAt s as).pml4Phys

/-- What holds while a space with root frame `c` is tended: the frames it can account
for are the ones given. -/
structure Accounts (lay : Layout) (as c : ℕ) (spaces : List ℕ) (around : ℕ → Prop) (w : World)
    (g : Ghost) : Prop where
  sound : Sound lay w g
  root : g.use c = .node as []
  spaces : w.spaces = spaces
  around : ∀ f, Around as w.vm g.use f ↔ around f

theorem Accounts.step {spaces : List ℕ} {around : ℕ → Prop} (hpages : lay.pages)
    (ha : Accounts lay as c spaces around w g) (has : as ∈ spaces) {op : Op} (hd : Tended as w op)
    (hstep : step w op = some w') : ∃ g', Accounts lay as c spaces around w' g' := by
  have hmem : as ∈ w.spaces := by rwa [ha.spaces]
  -- the root stays where it is in every state that still has the space
  have hroot : ∀ {w' : World} {g' : Ghost}, Steady (fun _ _ => False) w w' g g' →
      w'.spaces = w.spaces → g'.use c = .node as [] := by
    intro w' g' hst hsp
    have hmem' : as ∈ w'.spaces := by rwa [hsp]
    exact hst.root as c (Or.inr hmem) (Or.inr hmem') ha.root
  obtain ⟨hdisc, htends⟩ := hd
  have hsp := spaces_of_step hstep (fun h => by rw [h] at htends; exact htends)
    (fun as' h => by rw [h] at htends; exact htends)
  cases op with
  | map as' virt phys flags =>
    obtain rfl : as' = as := htends
    obtain ⟨use', hs', hst, haround, _⟩ := ha.sound.map hpages hdisc.2 hdisc.1 hstep
    exact ⟨_, hs', hroot hst hsp, hsp.trans ha.spaces, fun f => (haround f).trans (ha.around f)⟩
  | unmap as' virt =>
    obtain rfl : as' = as := htends
    obtain ⟨use', hs', hst, haround, _⟩ := ha.sound.unmap hpages hstep
    exact ⟨_, hs', hroot hst hsp, hsp.trans ha.spaces, fun f => (haround f).trans (ha.around f)⟩
  | switch as' =>
    by_cases has' : w.Has as'
    · simp only [Tvmm.step, if_pos has'] at hstep
      obtain rfl := Option.some.inj hstep
      obtain ⟨hs', hst⟩ := ha.sound.switch has'
      refine ⟨g, hs', hroot hst hsp, hsp.trans ha.spaces, fun f => ?_⟩
      rw [← ha.around f, World.vm, vm_switch]
    · simp only [Tvmm.step, if_neg has'] at hstep
      cases hstep
  | alloc a =>
    obtain ⟨use', hs', hst, haround⟩ := ha.sound.alloc a hstep
    exact ⟨_, hs', hroot hst hsp, hsp.trans ha.spaces, fun f => (haround as f).trans (ha.around f)⟩
  | free phys =>
    obtain ⟨use', hs', hst, haround⟩ := ha.sound.free hpages hstep
    exact ⟨_, hs', hroot hst hsp, hsp.trans ha.spaces, fun f => (haround as f).trans (ha.around f)⟩
  | create | destroy | mapPage | unmapPage => exact htends.elim

theorem Accounts.run {spaces : List ℕ} {around : ℕ → Prop} (hpages : lay.pages)
    (ha : Accounts lay as c spaces around w g) (has : as ∈ spaces) {ops : List Op}
    (hrun : exec (guarded Tvmm.step (Tended as)) w ops = some w') :
    ∃ g', Accounts lay as c spaces around w' g' := by
  refine exec_invariant (I := fun w => ∃ g, Accounts lay as c spaces around w g) ?_ ops ⟨g, ha⟩ hrun
  rintro s op t ⟨g, hs⟩ hstep
  obtain ⟨hd, hstep⟩ := (guarded_eq_some ..).mp hstep
  exact hs.step hpages has hd hstep

/-! ## Tables on the way of an address -/

/-- The tables a walk for an address goes through, the root first. -/
def tablesAt (m : Memory) (root virt : ℕ) : List ℕ :=
  root :: (tableLookup m root (pml4Index virt)).elim [] fun pdpt =>
    pdpt :: (tableLookup m pdpt (pdptIndex virt)).elim [] fun pd =>
      pd :: if large (entry m pd (pdIndex virt)) then []
        else (tableLookup m pd (pdIndex virt)).toList

/-- The tables of the kernel half belong to the root and to kernel trees. -/
theorem tablesAt_kernel {p : Paging} {use : ℕ → Use} (ht : Tables lay p use) {r tree virt : ℕ}
    (hr : use r = .node tree []) (hu : ¬ tree < pmmMaxFrames)
    (hk : kernelSlot (pml4Index virt) = true) {x : ℕ}
    (hx : x ∈ tablesAt p.mem (r * frameBytes) virt) :
    ∃ f, x = f * frameBytes ∧ ((use f = .node tree [] ∧ f = r) ∨
      ∃ t path, t < pmmMaxFrames ∧ use f = .node t path ∧ path.length < 3) := by
  unfold tablesAt at hx
  rcases List.mem_cons.mp hx with rfl | hx
  · exact ⟨r, rfl, Or.inl ⟨hr, rfl⟩⟩
  cases h1 : tableLookup p.mem (r * frameBytes) (pml4Index virt) with
  | none =>
    rw [h1] at hx
    exact nomatch hx
  | some pdpt =>
    obtain ⟨hp1, rfl⟩ := tableLookup_eq_some h1
    rw [h1, Option.elim_some] at hx
    have hpdpt := ht.slots r tree _ hr hu (pml4Index_lt virt) hk hp1
    generalize frameNo (entry p.mem (r * frameBytes) (pml4Index virt)) = k at *
    have hsmall : k < pmmMaxFrames := ht.small k (ne_idle_of_node hpdpt)
    rcases List.mem_cons.mp hx with rfl | hx
    · exact ⟨k, rfl, Or.inr ⟨k, [], hsmall, hpdpt, by decide⟩⟩
    cases h2 : tableLookup p.mem (k * frameBytes) (pdptIndex virt) with
    | none =>
      rw [h2] at hx
      exact nomatch hx
    | some pd =>
      obtain ⟨hp2, rfl⟩ := tableLookup_eq_some h2
      rw [h2, Option.elim_some] at hx
      have hin : spaceScope lay k [] (pdptIndex virt) := by
        unfold spaceScope
        rw [if_pos hsmall]
        trivial
      have hpd := ht.owned.down k k [] _ hpdpt (by decide) (pdptIndex_lt virt) hin hp2
      generalize frameNo (entry p.mem (k * frameBytes) (pdptIndex virt)) = d at *
      rcases List.mem_cons.mp hx with rfl | hx
      · exact ⟨d, rfl, Or.inr ⟨k, _, hsmall, hpd, by simp⟩⟩
      by_cases hl : large (entry p.mem (d * frameBytes) (pdIndex virt)) = true
      · rw [if_pos hl] at hx
        exact nomatch hx
      · rw [if_neg hl, Option.mem_toList] at hx
        obtain ⟨hp3, rfl⟩ := tableLookup_eq_some hx
        have hin' : spaceScope lay k ([] ++ [pdptIndex virt]) (pdIndex virt) := by
          unfold spaceScope
          rw [if_pos hsmall]
          intro hleaf
          obtain ⟨f, hf, _, hlarge⟩ := ht.leaves _ _ _ hleaf (pdIndex_lt virt)
          rw [ht.owned.unique _ _ f d hf hpd] at hlarge
          exact hl hlarge
        have hpt := ht.owned.down d k _ _ hpd (by simp [depth]) (pdIndex_lt virt) hin' hp3
        exact ⟨_, rfl, Or.inr ⟨k, _, hsmall, hpt, by simp⟩⟩

/-! ## The balance of a space -/

/-- The frames the heap took while a space was created. -/
def heapGrowth (w w' : World) : Finset ℕ :=
  freeSet (tpmmAllocLow w.vm.pmm).1 \ freeSet w'.vm.pmm

/-- No PML4 entry of the user half is present. -/
def NoUserSlot (w : World) (as : ℕ) : Prop :=
  ∀ i < entries, kernelSlot i = false → present (entry w.vm.mem (rootOf w.vmm as) i) = false

lemma Created.back {w₁ : World} (hc : Created w w₁ g as c) :
    freeSet w.vm.pmm \ heapGrowth w w₁ = insert c (freeSet w₁.vm.pmm) := by
  obtain ⟨hmem, herase⟩ := hc.taken
  have hpool := hc.pool
  unfold heapGrowth
  rw [herase] at hpool ⊢
  ext f
  simp only [Finset.mem_sdiff, Finset.mem_erase, Finset.mem_insert]
  by_cases hf : f = c
  · simp [hf, hmem]
  · have hsub : f ∈ freeSet w₁.vm.pmm → f ∈ freeSet w.vm.pmm :=
      fun h => Finset.mem_of_mem_erase (hpool h)
    simp only [hf, ne_eq, not_false_eq_true, true_and, false_or]
    tauto

/-- The PDPTs of a space are what its user slots lead to. -/
lemma noUserSlot_iff (hs : Sound lay w g) (has : w.Has as) (hr : g.use c = .node as []) :
    NoUserSlot w as ↔ ∀ f i, g.use f ≠ .node as [i] := by
  have hu := hs.not_lt has
  unfold NoUserSlot
  rw [(hs.root_eq has hr).1]
  constructor
  · intro h f i hf
    obtain ⟨f', hf', hi, hin, hp, _⟩ := hs.tables.owned.up f as [] i hf
    obtain rfl := hs.tables.owned.root f' c as hf' hr
    have hk := ((spaceScope_space hu).mp hin).1 rfl
    exact Bool.false_ne_true ((h i hi hk).symm.trans hp)
  · intro h i hi hk
    by_contra hp
    rw [Bool.not_eq_false] at hp
    exact h _ i (hs.tables.owned.down c as [] i hr (by decide) hi (spaceScope_root hu hk) hp)

lemma Created.noUserSlot {w₁ : World} (hc : Created w w₁ g as c) (hs : Sound lay w₁ g) :
    NoUserSlot w₁ as := by
  have hin : as ∈ w₁.spaces := by
    rw [hc.spaces]
    exact List.mem_cons_self
  rw [noUserSlot_iff hs (Or.inr hin) hc.root]
  intro f i hf
  obtain rfl := hc.only f [i] hf
  rw [hc.root] at hf
  exact List.cons_ne_nil _ _ (Use.node.inj hf).2.symm

/-- After the callers have settled, a destruction brings back all frames but the
PDPTs. -/
theorem Accounts.destroy {w₀ w₁ w₂ w₃ : World} {g₁ g₂ : Ghost} (hpages : lay.pages)
    (hc : Created w₀ w₁ g₁ as c) (hs₁ : Sound lay w₁ g₁)
    (ha : Accounts lay as c w₁.spaces (Around as w₁.vm g₁.use) w₂ g₂) (hheld : w₂.spare = w₁.spare)
    (hcur : as ≠ w₂.vmm.current) (hstep : Tvmm.step w₂ (.destroy as) = some w₃) (f : ℕ) :
    f ∈ freeSet w₃.vm.pmm ↔
      f ∈ insert c (freeSet w₁.vm.pmm) ∧ ∀ i, g₂.use f ≠ .node as [i] := by
  have hmem : as ∈ w₂.spaces := by
    rw [ha.spaces, hc.spaces]
    exact List.mem_cons_self
  have hspare : g₂.use f = .spare ↔ g₁.use f = .spare := by
    rw [ha.sound.spare hpages, hs₁.spare hpages, hheld]
  obtain ⟨_, _, _, _, hset⟩ := ha.sound.destroy hpages hmem hcur ha.root hstep
  obtain ⟨_, hfreed⟩ := freedSpace_spec ha.sound hpages (Or.inr hmem) ha.root
  rw [hset, Finset.mem_union, List.mem_toFinset, hfreed, Finset.mem_insert]
  have haround := ha.around f
  unfold Around at haround
  -- what the pool and the space hold together has not changed
  have hnode₁ : ¬ ∃ path, path ≠ [] ∧ g₁.use f = .node as path := by
    rintro ⟨path, hne, hf⟩
    obtain rfl := hc.only f path hf
    rw [hc.root] at hf
    exact hne (Use.node.inj hf).2.symm
  have hidle₁ : f ∈ freeSet w₁.vm.pmm → g₁.use f = .idle := hs₁.tables.idle_of_free
  have hidle₂ : f ∈ freeSet w₂.vm.pmm → g₂.use f = .idle := ha.sound.tables.idle_of_free
  constructor
  · rintro (hfree | ⟨path, hpath, hlen⟩)
    · have hidle := hidle₂ hfree
      refine ⟨Or.inr ?_, fun i h => Use.noConfusion (hidle.symm.trans h)⟩
      rcases haround.mp (Or.inl hfree) with h | h | h
      · exact h
      · exact absurd (hspare.mpr h) (fun h' => Use.noConfusion (hidle.symm.trans h'))
      · exact absurd h hnode₁
    · refine ⟨?_, fun i h => ?_⟩
      · by_cases hnil : path = []
        · rw [hnil] at hpath
          exact Or.inl (ha.sound.tables.owned.root f c as hpath ha.root)
        · rcases haround.mp (Or.inr (Or.inr ⟨path, hnil, hpath⟩)) with h | h | h
          · exact Or.inr h
          · exact absurd (hspare.mpr h) (fun h' => Use.noConfusion (hpath.symm.trans h'))
          · exact absurd h hnode₁
      · rw [hpath] at h
        rw [(Use.node.inj h).2] at hlen
        exact hlen rfl
  · rintro ⟨rfl | hfree, hno⟩
    · exact Or.inr ⟨[], ha.root, by decide⟩
    · rcases haround.mpr (Or.inl hfree) with h | h | ⟨path, _, hpath⟩
      · exact Or.inl h
      · exact absurd (hspare.mp h) (fun h' => Use.noConfusion ((hidle₁ hfree).symm.trans h'))
      · refine Or.inr ⟨path, hpath, fun hlen => ?_⟩
        obtain ⟨i, rfl⟩ := List.length_eq_one_iff.mp hlen
        exact hno i hpath

/-- The pool is as before the creation, but for what the heap took, exactly if the space
has no PDPT. -/
theorem Accounts.restores_iff {w₀ w₁ w₂ w₃ : World} {g₁ g₂ : Ghost} (hpages : lay.pages)
    (hc : Created w₀ w₁ g₁ as c) (hs₁ : Sound lay w₁ g₁)
    (ha : Accounts lay as c w₁.spaces (Around as w₁.vm g₁.use) w₂ g₂) (hheld : w₂.spare = w₁.spare)
    (hcur : as ≠ w₂.vmm.current) (hstep : Tvmm.step w₂ (.destroy as) = some w₃) :
    freeSet w₃.vm.pmm = freeSet w₀.vm.pmm \ heapGrowth w₀ w₁ ↔ NoUserSlot w₂ as := by
  have hpool := ha.destroy hpages hc hs₁ hheld hcur hstep
  have hmem : as ∈ w₂.spaces := by
    rw [ha.spaces, hc.spaces]
    exact List.mem_cons_self
  rw [hc.back, noUserSlot_iff ha.sound (Or.inr hmem) ha.root]
  constructor
  · intro heq f i hf
    -- a PDPT was taken from the pool after the creation, and stays away
    have hback : f ∈ insert c (freeSet w₁.vm.pmm) := by
      rcases (ha.around f).mp (Or.inr (Or.inr ⟨[i], List.cons_ne_nil _ _, hf⟩)) with h | h | ⟨p,
        hne, h⟩
      · exact Finset.mem_insert_of_mem h
      · have hsp := (hs₁.spare hpages f).mp h
        rw [← hheld] at hsp
        exact Use.noConfusion (((ha.sound.spare hpages f).mpr hsp).symm.trans hf)
      · obtain rfl := hc.only f p h
        exact Finset.mem_insert_self _ _
    exact ((hpool f).mp (heq ▸ hback)).2 i hf
  · intro hno
    ext f
    rw [hpool f]
    exact and_iff_left (hno f)

end Release

/-- The life of a space, from its creation to its destruction: it leaves the pool as it
was, but for what the heap took, exactly if it never came to have a PDPT. No frame is
freed twice, no kernel table is freed or written. -/
theorem destroy_restores_pool_iff (b : BootFrames) (w₀ w w₁ w₂ w₃ : World) (as : ℕ)
    (hb : Booted b w₀) (before during : List Op)
    (hbefore : exec (guarded step Disciplined) w₀ before = some w) (hroom : HasRoom w.vmm.heap 16)
    (hcreate : step w .create = some w₁) (hnew : w₁.spaces = as :: w.spaces)
    (hduring : exec (guarded step (Tended as)) w₁ during = some w₂) (hheld : w₂.spare = w.spare)
    (hcur : as ≠ w₂.vmm.current) (hdestroy : step w₂ (.destroy as) = some w₃) :
    (freeSet w₃.vm.pmm = freeSet w.vm.pmm \ heapGrowth w w₁ ↔ NoUserSlot w₂ as) ∧
      w₃.vm.mem = w₂.vm.mem ∧
      ∃ fs : List ℕ, fs.Nodup ∧ w₃.vm.pmm = giveBack w₂.vm.pmm fs ∧
        ∀ f ∈ fs, f ∉ freeSet w₂.vm.pmm ∧ ∀ virt, kernelSlot (pml4Index virt) = true →
          f * frameBytes ∉ tablesAt w₂.vm.mem (rootOf w₂.vmm w₂.vmm.kernelAddr) virt := by
  obtain ⟨g, hs⟩ := hb.run hbefore
  obtain ⟨w₁', g₁, hstep, hs₁, _, _, _, hres⟩ := hs.create hroom
  obtain rfl := Option.some.inj (hstep.symm.trans hcreate)
  obtain ⟨c, hc⟩ : ∃ c, Created w w₁' g₁ as c := by
    rcases hres with hsame | ⟨as', c, hc⟩
    · rw [hnew] at hsame
      exact absurd hsame (List.cons_ne_self _ _)
    · obtain rfl := (List.cons.inj (hnew.symm.trans hc.spaces)).1
      exact ⟨c, hc⟩
  have hin : as ∈ w₁'.spaces := by
    rw [hc.spaces]
    exact List.mem_cons_self
  obtain ⟨g₂, ha⟩ := Accounts.run trivial ⟨hs₁, hc.root, rfl, fun _ => Iff.rfl⟩ hin hduring
  have hin₂ : as ∈ w₂.spaces := by rwa [ha.spaces]
  obtain ⟨_, _, _, hvm, _⟩ := ha.sound.destroy trivial hin₂ hcur ha.root hdestroy
  obtain ⟨hnodup, hfreed⟩ := freedSpace_spec ha.sound trivial (Or.inr hin₂) ha.root
  refine ⟨?_, by rw [hvm], freedSpace w₂ c, hnodup, by rw [hvm], fun f hf => ?_⟩
  · exact ha.restores_iff trivial hc hs₁ (hheld.trans hc.spare.symm) hcur hdestroy
  · obtain ⟨path, hpath, _⟩ := (hfreed f).mp hf
    refine ⟨ha.sound.tables.held f (ne_idle_of_node hpath), fun virt hk hmem => ?_⟩
    obtain ⟨k, hkroot, hroot, _⟩ := ha.sound.root (Or.inl rfl)
    rw [hroot] at hmem
    obtain ⟨f', heq, hcase⟩ := tablesAt_kernel ha.sound.tables hkroot
      (ha.sound.not_lt (Or.inl rfl)) hk hmem
    obtain rfl : f = f' := Nat.eq_of_mul_eq_mul_right (by decide) heq
    have hu := ha.sound.not_lt (Or.inr hin₂)
    rcases hcase with ⟨hkern, _⟩ | ⟨t, q, hlt, ht, _⟩
    · rw [hpath] at hkern
      obtain ⟨d, hd, hdb⟩ := ha.sound.blocks as hin₂
      have hbase := (ha.sound.laid.arranged.bounds
        (List.mem_append_left _ (List.mem_append_right _ hd))).1
      have hlow := ha.sound.kernelAddr.2
      rw [hdb, (Use.node.inj hkern).1] at hbase
      omega
    · rw [hpath] at ht
      exact hu ((Use.node.inj ht).1 ▸ hlt)

/-- A space of the small machine that is destroyed right after its creation. -/
theorem destroy_restores_pool_bootMachine :
    ∃ w w₁ w₃, exec (guarded step Disciplined) bootMachine [.alloc .single] = some w ∧
      step w .create = some w₁ ∧ w₁.spaces = [firstBlock] ∧ step w₁ (.destroy firstBlock) =
        some w₃ ∧
      freeSet w₃.vm.pmm = freeSet w.vm.pmm \ heapGrowth w w₁ := by
  obtain ⟨w, w₁, g, c, halloc, hroom, hcreate, hs, hc, hspare, hcur, _⟩ := bootMachine_create True
  have hrun : exec (guarded step Disciplined) bootMachine [.alloc .single] = some w :=
    (exec_cons_eq_some ..).mpr ⟨w, (guarded_eq_some ..).mpr ⟨trivial, halloc⟩, rfl⟩
  have hnil : w.spaces = [] := by
    cases halloc
    rfl
  have hspaces : w₁.spaces = [firstBlock] := by rw [hc.spaces, hnil]
  have hin : firstBlock ∈ w₁.spaces := by
    rw [hspaces]
    exact List.mem_cons_self
  have hne : firstBlock ≠ w₁.vmm.current := by
    rw [hcur]
    decide
  obtain ⟨w₃, hdestroy⟩ : ∃ w₃, step w₁ (.destroy firstBlock) = some w₃ := ⟨_, if_pos hin⟩
  refine ⟨w, w₁, w₃, hrun, hcreate, hspaces, hdestroy, ?_⟩
  exact (destroy_restores_pool_iff _ bootMachine w w₁ w₁ w₃ firstBlock bootMachine_booted _ []
    hrun hroom hcreate hc.spaces rfl hc.spare hne hdestroy).1.mpr (hc.noUserSlot hs)

/-- One page mapped: the PDPT it needed does not come back. -/
theorem destroy_loses_pdpt :
    ∃ w w₁ w₂ w₃ p, exec step bootMachine [.alloc .single] = some w ∧ step w .create = some w₁ ∧
      w₁.spaces = [firstBlock] ∧
      exec step w₁ [.alloc .low, .map firstBlock userBase p 7] = some w₂ ∧ w₂.spare = w.spare ∧
      firstBlock ≠ w₂.vmm.current ∧ step w₂ (.destroy firstBlock) = some w₃ ∧
      freeSet w₃.vm.pmm ≠ freeSet w.vm.pmm \ heapGrowth w w₁ := by
  obtain ⟨w, w₁, g, c, halloc, _, hcreate, hs, hc, hspare, hcur, _, hsup⟩ := bootMachine_create True
  have hrun : exec step bootMachine [.alloc .single] = some w :=
    (exec_cons_eq_some ..).mpr ⟨w, halloc, rfl⟩
  have hnil : w.spaces = [] := by
    cases halloc
    rfl
  have hspaces : w₁.spaces = [firstBlock] := by rw [hc.spaces, hnil]
  have hin : firstBlock ∈ w₁.spaces := by
    rw [hspaces]
    exact List.mem_cons_self
  have hk : kernelSlot (pml4Index userBase) = false := by decide
  -- the frame for the page
  obtain ⟨q, hq, hfree, _, _⟩ :=
    granted_one hs.tables.valid (tpmmAllocLow_spec hs.tables.valid).1 hsup.1
  have hq40 : q < 2 ^ 40 := by
    have hlt := ((mem_freeSet _ _).mp hfree).1.trans_le hs.tables.valid.total_le
    have hmax : pmmMaxFrames ≤ 2 ^ 40 := by decide
    omega
  have hframe : frameNo (q * frameBytes) = q := frameNo_eq_of_target (target_frame hq40)
  have hne : q ≠ 272 := by
    rintro rfl
    have hsp := (hs.spare trivial 272).mpr (by rw [hspare]; exact Finset.mem_singleton_self _)
    exact Use.noConfusion (hsp.symm.trans (hs.tables.idle_of_free hfree))
  obtain ⟨wa, hstepa, hvma, hsparea, hcura, hspa⟩ : ∃ wa, step w₁ (.alloc .low) = some wa ∧
      wa.vm = ⟨w₁.vm.mem, (tpmmAllocLow w₁.vm.pmm).1⟩ ∧ wa.spare = {272} ∪ {q} ∧
      wa.vmm.current = w₁.vmm.current ∧ wa.spaces = w₁.spaces := by
    refine ⟨_, rfl, rfl, ?_, rfl, rfl⟩
    have hone : grantFrames (q * frameBytes) 1 = {q} := by
      unfold grantFrames pageSize frameBytes
      rw [Nat.mul_div_cancel q (by decide)]
      exact Nat.Ico_succ_singleton q
    change (if (tpmmAllocLow w₁.vm.pmm).2 = 0 then _ else
      w₁.spare ∪ grantFrames (tpmmAllocLow w₁.vm.pmm).2 1) = _
    rw [if_neg hsup.1, hq, hone, hspare]
  have hina : firstBlock ∈ wa.spaces := by rwa [hspa]
  have hda : Tended firstBlock w₁ (.alloc .low) := ⟨trivial, trivial⟩
  have hguarda : guarded step (Tended firstBlock) w₁ (.alloc .low) = some wa :=
    (guarded_eq_some ..).mpr ⟨hda, hstepa⟩
  have ha₁ : Accounts (bootLayout bootMachineFrames True) firstBlock c w₁.spaces
      (Around firstBlock w₁.vm g.use) w₁ g := ⟨hs, hc.root, rfl, fun _ => Iff.rfl⟩
  obtain ⟨ga, haa⟩ := ha₁.step trivial hin hda hstepa
  -- the page is not mapped yet
  have hnone : wa.pageBehind firstBlock userBase = ∅ := by
    have habs := hc.noUserSlot hs (pml4Index userBase) (by decide) hk
    rw [(hs.root_eq (Or.inr hin) hc.root).1] at habs
    have hphys : physOf wa.vm.mem (rootOf wa.vmm firstBlock) userBase = none := by
      rw [(haa.sound.root_eq (Or.inr hina) haa.root).1, hvma]
      unfold physOf
      rw [tableLookup_of_absent habs]
      rfl
    ext f
    rw [mem_pageBehind hk, hphys]
    simp
  obtain ⟨p', hmap, _⟩ := mapPage_supply (p := wa.vm) (k := 4) (rootOf wa.vmm firstBlock) userBase
    (q * frameBytes) 7 (by rw [hvma]; exact hsup.2)
  have hok : vmmAspaceMap wa.vmm firstBlock userBase (q * frameBytes) 7 =
    (setVm wa.vmm p', true) := by
    unfold vmmAspaceMap
    rw [hk, if_neg Bool.false_ne_true, hmap]
  obtain ⟨w₂, hstep₂, hspare₂, hcur₂⟩ : ∃ w₂,
      step wa (.map firstBlock userBase (q * frameBytes) 7) = some w₂ ∧
      w₂.spare = {272} ∧ w₂.vmm.current = wa.vmm.current := by
    refine ⟨_, if_pos ⟨Or.inr hina, by decide⟩, ?_, ?_⟩
    · dsimp only
      rw [hok, if_pos rfl, hnone, hsparea, hframe, Finset.union_empty]
      ext f
      rw [Finset.mem_erase, Finset.mem_union, Finset.mem_singleton, Finset.mem_singleton]
      omega
    · dsimp only
      rw [hok]
      rfl
  have hheldq : frameNo (q * frameBytes) ∈ wa.spare := by
    rw [hframe, hsparea]
    exact Finset.mem_union_right _ (Finset.mem_singleton_self q)
  have hd : Tended firstBlock wa (.map firstBlock userBase (q * frameBytes) 7) :=
    ⟨⟨hheldq, by decide⟩, rfl⟩
  have hduring : exec (guarded step (Tended firstBlock)) w₁
      [.alloc .low, .map firstBlock userBase (q * frameBytes) 7] = some w₂ :=
    (exec_cons_eq_some ..).mpr ⟨wa, hguarda,
      (exec_cons_eq_some ..).mpr ⟨w₂, (guarded_eq_some ..).mpr ⟨hd, hstep₂⟩, rfl⟩⟩
  obtain ⟨g₂, ha₂⟩ := ha₁.run trivial hin hduring
  have hin₂ : firstBlock ∈ w₂.spaces := by rwa [ha₂.spaces]
  have hcurrent : firstBlock ≠ w₂.vmm.current := by
    rw [hcur₂, hcura, hcur]
    decide
  obtain ⟨w₃, hdestroy⟩ : ∃ w₃, step w₂ (.destroy firstBlock) = some w₃ := ⟨_, if_pos hin₂⟩
  refine ⟨w, w₁, w₂, w₃, q * frameBytes, hrun, hcreate, hspaces, exec_of_guarded _ hduring,
    hspare₂.trans (hspare.symm.trans hc.spare), hcurrent, hdestroy, fun heq => ?_⟩
  -- the lookup of the page goes through the PDPT
  have hno := (ha₂.restores_iff trivial hc hs (hspare₂.trans hspare.symm) hcurrent hdestroy).mp heq
  obtain ⟨_, _, _, _, hlaw, _⟩ := haa.sound.map trivial (by decide) hheldq hstep₂
  have hphys := hlaw (by rw [hok])
  unfold vmmAspacePhys at hphys
  rw [hk, if_neg Bool.false_ne_true] at hphys
  obtain ⟨pdpt, hpdpt, _⟩ := Option.bind_eq_some_iff.mp hphys
  rw [tableLookup_of_absent (hno (pml4Index userBase) (by decide) hk)] at hpdpt
  exact nomatch hpdpt

end TraitOS.Tvmm
