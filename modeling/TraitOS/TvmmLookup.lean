import TraitOS.TvmmShared

/-!
# Kernel lookups and the hardware walk

`vmm_kernel_phys` walks the tables by hand. It reports the address in the entry it ends at;
under an entry of a 2 MiB page the processor adds the offset inside that page, and it ends at
no entry that is not present.
-/
namespace TraitOS.Tvmm
open ByteMemory PageTable

/-- If the walk for an address meets an entry marked large, the entry is present and names
the 4 KiB frame of the address itself. -/
def LeafNamesFrame (m : Memory) (root virt : ℕ) : Prop :=
  ∀ pdpt pd, tableLookup m root (pml4Index virt) = some pdpt → tableLookup m pdpt (pdptIndex virt) =
    some pd → large (entry m pd (pdIndex virt)) = true →
      present (entry m pd (pdIndex virt)) = true ∧
        target (entry m pd (pdIndex virt)) % 2 ^ 21 = virt % 2 ^ 21 / 4096 * 4096

lemma target_mod (e : ℕ) : target e % 4096 = 0 := by
  rw [target_eq_frameNo, frameBytes, Nat.mul_mod_left]

/-- The end of both walks under a large entry. -/
lemma large_agrees_iff (e virt : ℕ) :
    some (target e) = ((if present e then some (target e) else none).bind fun next =>
        some (next / 2 ^ 21 * 2 ^ 21 + virt % 2 ^ 21)).map (fun a => a / 4096 * 4096) ↔
      present e = true ∧ target e % 2 ^ 21 = virt % 2 ^ 21 / 4096 * 4096 := by
  have hmod := target_mod e
  cases hp : present e with
  | false => simp only [Bool.false_eq_true, if_false, Option.bind_none, Option.map_none,
    reduceCtorEq, false_and]
  | true =>
    simp only [if_true, Option.bind_some, Option.map_some, Option.some.injEq, true_and]
    omega

/-- The end of both walks at a page table. -/
lemma page_agrees (m : Memory) (pt j virt : ℕ) :
    tableLookup m pt j =
      ((tableLookup m pt j).map fun page => page + virt % 4096).map (fun a => a / 4096 * 4096) := by
  unfold tableLookup
  split_ifs
  · have hmod := target_mod (entry m pt j)
    simp only [Option.map_some, Option.some.injEq]
    omega
  · rfl

/-- The end of both walks from a page directory on. -/
lemma leaf_agrees_iff (m : Memory) (pd j i virt : ℕ) :
    (if large (entry m pd j) then some (target (entry m pd j))
      else (tableLookup m pd j).bind fun pt => tableLookup m pt i) =
        ((tableLookup m pd j).bind fun next =>
          if large (entry m pd j) then some (next / 2 ^ 21 * 2 ^ 21 + virt % 2 ^ 21)
          else (tableLookup m next i).map fun page => page + virt % 4096).map (fun a =>
            a / 4096 * 4096) ↔
      (large (entry m pd j) = true →
        present (entry m pd j) = true ∧ target (entry m pd j) % 2 ^ 21 =
          virt % 2 ^ 21 / 4096 * 4096) := by
  cases hl : large (entry m pd j) with
  | true =>
    rw [forall_prop_of_true (Eq.refl true), ← large_agrees_iff, tableLookup]
    simp only [if_true]
  | false =>
    refine iff_of_true ?_ fun h => absurd h Bool.false_ne_true
    obtain ⟨next, hnext⟩ : ∃ next, tableLookup m pd j = next := ⟨_, rfl⟩
    rw [hnext]
    simp only [Bool.false_eq_true, if_false]
    cases next with
    | none => rfl
    | some next =>
      rw [Option.bind_some, Option.bind_some]
      exact page_agrees m next i virt

/-- Two walks that share their first two steps agree when their last steps do. -/
lemma bind_agrees_iff {α β γ : Type*} (g : γ → γ) (first : Option α) (second : α → Option β)
    (last last' : β → Option γ) :
    (first.bind fun a => (second a).bind last) = (first.bind fun a => (second a).bind last').map g ↔
      ∀ a b, first = some a → second a = some b → last b = (last' b).map g := by
  cases first with
  | none => simp
  | some a =>
    have hfirst (P : α → β → Prop) : (∀ a' b, some a = some a' → P a' b) ↔ ∀ b, P a b :=
      ⟨fun h b => h a b rfl, fun h a' b ha => Option.some.inj ha ▸ h b⟩
    rw [hfirst fun a b => second a = some b →
      last b = (last' b).map g, Option.bind_some, Option.bind_some]
    cases second a <;> simp

/-- For an address of a kernel slot the lookup agrees with the processor exactly when the
large page the address lies in, if there is one, is present and begins with its frame. -/
theorem vmmKernelPhys_agrees_iff (m : Memory) (root virt : ℕ)
    (hk : kernelSlot (pml4Index virt) = true) :
    vmmKernelPhys m root virt = (translate m root virt).map (fun a => a / 4096 * 4096) ↔
      LeafNamesFrame m root virt := by
  have hslot : ¬ (0 < pml4Index virt ∧ pml4Index virt < kernelPml4Start) := by
    have := of_decide_eq_true hk
    omega
  rw [vmmKernelPhys, if_neg hslot]
  refine (bind_agrees_iff _ _ _ _ _).trans ?_
  exact forall₄_congr fun _ pd _ _ => leaf_agrees_iff m pd _ _ virt

/-- The higher half as the boot code leaves it, over its first 2 MiB. -/
def highWindow : Memory :=
  setEntry (setEntry (setEntry (fun _ => 0) 0x1000 511 0x2003) 0x2000 510 0x3003) 0x3000 0 0x83

theorem vmmKernelPhys_agrees_at_virtBase :
    vmmKernelPhys highWindow 0x1000 virtBase =
      (translate highWindow 0x1000 virtBase).map (fun a => a / 4096 * 4096) := by
  refine (vmmKernelPhys_agrees_iff highWindow 0x1000 virtBase (by decide)).mpr
    fun pdpt pd h1 h2 _ => ?_
  have hpdpt : tableLookup highWindow 0x1000 (pml4Index virtBase) = some 0x2000 := by decide +kernel
  cases hpdpt.symm.trans h1
  have hpd : tableLookup highWindow 0x2000 (pdptIndex virtBase) = some 0x3000 := by decide +kernel
  cases hpd.symm.trans h2
  exact ⟨by decide +kernel, by decide +kernel⟩

/-- The second page of the window is frame 1; the lookup reports frame 0. -/
theorem lookup_misses_offset :
    vmmKernelPhys highWindow 0x1000 (virtBase + 4096) = some 0 ∧
      translate highWindow 0x1000 (virtBase + 4096) = some 4096 :=
  ⟨by decide +kernel, by decide +kernel⟩

end TraitOS.Tvmm
