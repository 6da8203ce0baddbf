import TraitOS.TvmmSupply

/-!
# Runs that keep the invariant

A run is disciplined if its callers map only frames they hold, pass flags that are
no address bits, keep off the 2 MiB leaves and the window through which the kernel
reaches its tables, and create no space once the heap's window is used up. Every
state of such a run is sound.
-/
namespace TraitOS.Tvmm
open ByteMemory PageTable Tmalloc Runs

lemma tableLookup_eq_some {m : Memory} {table i x : ℕ} (h : tableLookup m table i = some x) :
    present (entry m table i) = true ∧
      x = frameNo (entry m table i) * frameBytes := by
  unfold tableLookup at h
  by_cases hp : present (entry m table i) = true
  · rw [if_pos hp] at h
    exact ⟨hp, (Option.some.inj h).symm.trans (target_eq_frameNo _)⟩
  · rw [if_neg hp] at h
    exact nomatch h

/-- The window of the first 1 GiB: PML4 slot 511, PDPT entry 510. -/
def InPhysmap (virt : ℕ) : Prop := pml4Index virt = 511 ∧ pdptIndex virt = 510

instance (virt : ℕ) : Decidable (InPhysmap virt) := inferInstanceAs (Decidable (_ ∧ _))

def Disciplined (w : World) : Op → Prop
  | .create => HasRoom w.vmm.heap 16
  | .map _ _ phys flags => frameNo phys ∈ w.spare ∧ target flags = 0
  | .mapPage virt _ _ => KernelSafe w virt ∧ ¬ InPhysmap virt
  | .unmapPage virt => KernelSafe w virt ∧ ¬ InPhysmap virt
  | _ => True

instance (w : World) : (op : Op) → Decidable (Disciplined w op)
  | .create => inferInstanceAs (Decidable (HasRoom _ _))
  | .map .. | .mapPage .. | .unmapPage _ => inferInstanceAs (Decidable (_ ∧ _))
  | .destroy _ | .switch _ | .unmap .. | .alloc _ | .free _ => inferInstanceAs (Decidable True)

section Law
variable {lay : Layout} {w w' : World} {g : Ghost}

/-- Other calls than creations and destructions keep the spaces and, of the heap, all but the
tables and the root in use. -/
lemma kept_of_step {op : Op} (hstep : Tvmm.step w op = some w') (hc : op ≠ .create)
    (hd : ∀ as, op ≠ .destroy as) : w'.spaces = w.spaces ∧
      ∃ vm current, w'.vmm.heap = { w.vmm.heap with vm := vm, current := current } := by
  have hkeep : ∀ {cond : Prop} [Decidable cond] {vmm : Vmm} {spare : Finset ℕ},
      (if cond then some { w with vmm := vmm, spare := spare } else none) = some w' →
      (∃ vm current, vmm.heap = { w.vmm.heap with vm := vm, current := current }) →
      w'.spaces = w.spaces ∧ ∃ vm current, w'.vmm.heap =
        { w.vmm.heap with vm := vm, current := current } := by
    intro cond _ vmm spare h hheap
    by_cases hc : cond
    · rw [if_pos hc] at h
      rw [← Option.some.inj h]
      exact ⟨rfl, hheap⟩
    · rw [if_neg hc] at h
      exact nomatch h
  cases op with
  | create => exact absurd rfl hc
  | destroy as => exact absurd rfl (hd as)
  | map as virt =>
    refine hkeep hstep ?_
    unfold vmmAspaceMap
    cases kernelSlot (pml4Index virt) <;> exact ⟨_, _, rfl⟩
  | unmap as virt =>
    refine hkeep hstep ?_
    unfold vmmAspaceUnmap
    cases kernelSlot (pml4Index virt) <;> exact ⟨_, _, rfl⟩
  | switch | free | mapPage => exact hkeep hstep ⟨_, _, rfl⟩
  | unmapPage | alloc => exact hkeep ((if_pos trivial).trans hstep) ⟨_, _, rfl⟩

lemma spaces_of_step {op : Op} (hstep : Tvmm.step w op = some w') (hc : op ≠ .create)
    (hd : ∀ as, op ≠ .destroy as) : w'.spaces = w.spaces := (kept_of_step hstep hc hd).1

theorem Sound.step (hs : Sound lay w g) (hpages : lay.pages) {op : Op} (hd : Disciplined w op)
    (hstep : step w op = some w') : ∃ g', Sound lay w' g' := by
  cases op with
  | create =>
    obtain ⟨w₁, g₁, heq, hs₁, _⟩ := hs.create hd
    cases heq.symm.trans hstep
    exact ⟨g₁, hs₁⟩
  | destroy as =>
    by_cases has : as ∈ w.spaces
    · by_cases hcur : as = w.vmm.current
      · have hsame : vmmAspaceDestroy w.vmm as = w.vmm := if_pos (Or.inr hcur)
        simp only [Tvmm.step, hsame, if_pos has, if_pos hcur, Option.some.injEq] at hstep
        exact ⟨g, hstep ▸ hs⟩
      · obtain ⟨r, hr, _⟩ := hs.root (Or.inr has)
        obtain ⟨use', hs', _⟩ := hs.destroy hpages has hcur hr hstep
        exact ⟨_, hs'⟩
    · simp only [Tvmm.step, if_neg has] at hstep
      cases hstep
  | switch as =>
    by_cases has : w.Has as
    · simp only [Tvmm.step, if_pos has] at hstep
      cases hstep
      exact ⟨g, (hs.switch has).1⟩
    · simp only [Tvmm.step, if_neg has] at hstep
      cases hstep
  | map as virt phys flags =>
    obtain ⟨use', hs', _⟩ := hs.map hpages hd.2 hd.1 hstep
    exact ⟨_, hs'⟩
  | unmap as virt =>
    obtain ⟨use', hs', _⟩ := hs.unmap hpages hstep
    exact ⟨_, hs'⟩
  | mapPage virt phys flags =>
    by_cases hflags : flags < 2 ^ 64
    · simp only [Tvmm.step, if_pos hflags] at hstep
      cases hstep
      obtain ⟨use', hs', _⟩ := hs.mapPage phys hflags hd.1
      exact ⟨_, hs'⟩
    · simp only [Tvmm.step, if_neg hflags] at hstep
      cases hstep
  | unmapPage virt =>
    cases hstep
    exact ⟨g, (hs.unmapPage hd.1).1⟩
  | alloc a =>
    obtain ⟨use', hs', _⟩ := hs.alloc a hstep
    exact ⟨_, hs'⟩
  | free phys =>
    obtain ⟨use', hs', _⟩ := hs.free hpages hstep
    exact ⟨_, hs'⟩

/-- Every state of a disciplined run is sound. -/
theorem Booted.run {b : BootFrames} {w₀ : World} (hb : Booted b w₀) {ops : List Op}
    (hrun : exec (guarded Tvmm.step Disciplined) w₀ ops = some w) :
    ∃ g, Sound (bootLayout b True) w g := by
  refine exec_invariant (I := fun w => ∃ g, Sound (bootLayout b True) w g) ?_ ops ⟨_, hb.sound True⟩
    hrun
  rintro s op t ⟨g, hs⟩ hstep
  obtain ⟨hd, hstep⟩ := (guarded_eq_some ..).mp hstep
  exact hs.step trivial hd hstep

lemma SameView.aspacePhys {moves : ℕ → ℕ → Prop} (h : SameView w w' moves) {as v : ℕ}
    (has : w.Has as) (hoff : ¬ moves as v) :
    vmmAspacePhys w'.vmm as v = vmmAspacePhys w.vmm as v := by
  unfold vmmAspacePhys
  rw [h as v has hoff]

end Law

/-- Mapping and unmapping in any state of a disciplined run: the page that was mapped
leads to its frame, the page that was unmapped nowhere, and no other user page of any
space is seen to change. -/
theorem aspace_mapping_law (b : BootFrames) (w₀ w : World) (hb : Booted b w₀) (ops : List Op)
    (hrun : exec (guarded step Disciplined) w₀ ops = some w) (as : ℕ) (has : w.Has as) :
    (∀ virt phys flags, flags < 2 ^ 64 → target flags = 0 → frameNo phys ∈ w.spare →
      let r := vmmAspaceMap w.vmm as virt phys flags
      (r.2 = true → vmmAspacePhys r.1 as virt = some (target phys) ∧
        ∀ as' v, w.Has as' → as' ≠ as ∨ pageOf v ≠ pageOf virt →
          vmmAspacePhys r.1 as' v = vmmAspacePhys w.vmm as' v) ∧
      (r.2 = false → ∀ as' v, w.Has as' →
        vmmAspacePhys r.1 as' v = vmmAspacePhys w.vmm as' v)) ∧
    ∀ virt, vmmAspacePhys (vmmAspaceUnmap w.vmm as virt) as virt = none ∧
      ∀ as' v, w.Has as' → as' ≠ as ∨ pageOf v ≠ pageOf virt →
        vmmAspacePhys (vmmAspaceUnmap w.vmm as virt) as' v = vmmAspacePhys w.vmm as' v := by
  obtain ⟨g, hs⟩ := hb.run hrun
  constructor
  · intro virt phys flags hflags hpure hheld r
    have hstep : step w (.map as virt phys flags) = some { w with
        vmm := r.1
        spare := if r.2 then (w.spare ∪ w.pageBehind as virt).erase (frameNo phys) else w.spare } :=
      if_pos ⟨has, hflags⟩
    obtain ⟨_, _, _, _, hlaw, hview⟩ := hs.map trivial hpure hheld hstep
    refine ⟨fun hok => ⟨hlaw hok, fun as' v has' hoff => ?_⟩, fun hfail as' v has' => ?_⟩
    · exact hview.aspacePhys has' (fun h => hoff.elim (fun hne => hne h.2.1) (fun hne => hne h.2.2))
    · exact hview.aspacePhys has' (fun h => Bool.false_ne_true (hfail.symm.trans h.1))
  · intro virt
    have hstep : step w (.unmap as virt) = some { w with
        vmm := vmmAspaceUnmap w.vmm as virt
        spare := w.spare ∪ w.pageBehind as virt } := if_pos has
    obtain ⟨_, _, _, _, hnone, hview⟩ := hs.unmap trivial hstep
    refine ⟨hnone, fun as' v has' hoff => ?_⟩
    exact hview.aspacePhys has' (fun h => hoff.elim (fun hne => hne h.1) (fun hne => hne h.2))

/-- A space of the small machine, and a page mapped in it. -/
theorem aspace_mapping_law_bootMachine :
    ∃ w, exec (guarded step Disciplined) bootMachine [.alloc .single, .create] = some w ∧
      w.Has firstBlock ∧
      vmmAspacePhys (vmmAspaceMap w.vmm firstBlock userBase 0x110000 7).1 firstBlock userBase =
        some 0x110000 := by
  obtain ⟨w₁, w, g, c, halloc, hroom, hcreate, hs, hnew, hspare, _, _, hsup⟩ :=
    bootMachine_create True
  have hrun : exec (guarded step Disciplined) bootMachine [.alloc .single, .create] = some w := by
    refine (exec_cons_eq_some ..).mpr ⟨w₁, (guarded_eq_some ..).mpr ⟨trivial, halloc⟩, ?_⟩
    exact (exec_cons_eq_some ..).mpr ⟨w, (guarded_eq_some ..).mpr ⟨hroom, hcreate⟩, rfl⟩
  have has : w.Has firstBlock := Or.inr (hnew.spaces ▸ List.mem_cons_self)
  have hlaw := (aspace_mapping_law _ _ w bootMachine_booted _ hrun firstBlock has).1 userBase
    0x110000 7
    (by decide) (by decide) (by rw [hspare]; decide)
  refine ⟨w, hrun, has, (hlaw.1 ?_).1⟩
  obtain ⟨p', hmap, _⟩ := mapPage_supply (k := 5) (rootOf w.vmm firstBlock) userBase 0x110000 7 hsup
  have hk : kernelSlot (pml4Index userBase) = false := by decide
  unfold vmmAspaceMap
  rw [hk, if_neg Bool.false_ne_true, hmap]

/-- Flags with an address bit: the page leads to another frame than the one given. -/
theorem address_bit_in_flags :
    ∃ w, exec step bootMachine [.alloc .single, .create] = some w ∧ w.Has firstBlock ∧
      frameNo 0x110000 ∈ w.spare ∧ large 0x1003 = false ∧
      (vmmAspaceMap w.vmm firstBlock userBase 0x110000 0x1003).2 = true ∧
      vmmAspacePhys (vmmAspaceMap w.vmm firstBlock userBase 0x110000 0x1003).1 firstBlock userBase ≠
        some (target 0x110000) := by
  obtain ⟨w₁, w, g, c, halloc, _, hcreate, hs, hnew, hspare, _, _, hsup⟩ := bootMachine_create False
  have hrun : exec step bootMachine [.alloc .single, .create] = some w := by
    refine (exec_cons_eq_some ..).mpr ⟨w₁, halloc, ?_⟩
    exact (exec_cons_eq_some ..).mpr ⟨w, hcreate, rfl⟩
  have has : w.Has firstBlock := Or.inr (hnew.spaces ▸ List.mem_cons_self)
  obtain ⟨r, hr, hroot, _⟩ := hs.root has
  have hk : kernelSlot (pml4Index userBase) = false := by decide
  obtain ⟨_, _, _, hphys⟩ := mapUser_loose hs.tables not_false 0x110000 hr (hs.not_lt has) hk
    (show 0x1003 < 2 ^ 64 by decide)
  obtain ⟨p', hmap, _⟩ := mapPage_supply (k := 5) (r * frameBytes) userBase 0x110000 0x1003 hsup
  have hfun : vmmAspaceMap w.vmm firstBlock userBase 0x110000 0x1003 = (setVm w.vmm p', true) := by
    unfold vmmAspaceMap
    rw [hk, if_neg Bool.false_ne_true, hroot, hmap]
  rw [hmap] at hphys
  refine ⟨w, hrun, has, by rw [hspare]; decide, by decide, by rw [hfun], ?_⟩
  rw [hfun]
  unfold vmmAspacePhys
  rw [hk, if_neg Bool.false_ne_true, rootOf_setVm, hroot]
  change physOf p'.mem (r * frameBytes) userBase ≠ _
  rw [hphys rfl]
  decide

end TraitOS.Tvmm
