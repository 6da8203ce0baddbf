import TraitOS.TvmmShared

/-!
# Validating a user buffer

`page_has` walks the active tables down to the entry of a page and compares its bits;
`vmm_range_user` asks for every page of a buffer. A buffer passes exactly when each of
its bytes is in a page of the user region whose entry carries the bits.
-/
namespace TraitOS.Tvmm
open ByteMemory PageTable

/-- The bits of an entry include the needed ones. -/
def hasBits (e need : ℕ) : Bool := e &&& need = need

def pageHas (m : Memory) (root virt need : ℕ) : Bool :=
  (tableLookup m root (pml4Index virt)).elim false fun pdpt =>
    (tableLookup m pdpt (pdptIndex virt)).elim false fun pd =>
      if large (entry m pd (pdIndex virt)) then hasBits (entry m pd (pdIndex virt)) need
      else (tableLookup m pd (pdIndex virt)).elim false fun pt =>
        hasBits (entry m pt (ptIndex virt)) need

def needBits (write : Bool) : ℕ := if write then pagePresent ||| pageUser ||| pageWrite
    else pagePresent ||| pageUser

/-- The addresses of the pages of a range, from the page of its first byte on. -/
def rangePages (addr len : ℕ) : List ℕ :=
  (List.range ((addr + len - addr / 4096 * 4096 + 4095) / 4096)).map fun i =>
    addr / 4096 * 4096 + i * 4096

def vmmRangeUser (m : Memory) (root addr len : ℕ) (write : Bool) : Bool :=
  if len = 0 then true
  else if addr < userBase then false
  else if userEnd < addr ∨ userEnd - addr < len then false
  else (rangePages addr len).all fun p => pageHas m root p (needBits write)

/-! ## The entry of a page -/

/-- The entry at which the processor's walk for an address ends, of a large page or of a
page table. -/
def walkEntry (m : Memory) (root virt : ℕ) : Option ℕ :=
  (tableLookup m root (pml4Index virt)).bind fun pdpt =>
    (tableLookup m pdpt (pdptIndex virt)).bind fun pd =>
      (tableLookup m pd (pdIndex virt)).bind fun next =>
        some (if large (entry m pd (pdIndex virt)) then entry m pd (pdIndex virt)
          else entry m next (ptIndex virt))

/-- An address of the user region is mapped with the present and the user bit, and with
the write bit if that is asked for. -/
def UserMapped (m : Memory) (root virt : ℕ) (write : Bool) : Prop :=
  userBase ≤ virt ∧ virt < userEnd ∧ ∃ leaf, walkEntry m root virt = some leaf ∧
    hasBits leaf (needBits write) = true

lemma present_of_hasBits {e : ℕ} {write : Bool} (h : hasBits e (needBits write) =
    true) : present e = true := by
  have hbits : e &&& needBits write = needBits write := of_decide_eq_true h
  have hone : needBits write &&& 1 = 1 := by cases write <;> decide
  have hsub : e &&& (needBits write &&& 1) = needBits write &&& 1 := by rw [← Nat.land_assoc, hbits]
  rw [hone] at hsub
  simp [present, hsub]

lemma elim_false_iff {α : Type} (o : Option α) (f : α → Bool) :
    o.elim false f = true ↔ ∃ a, o = some a ∧ f a = true := by
  cases o <;> simp

/-- The entry of a page is reached through a present one, or is large. -/
lemma entry_iff (m : Memory) (pd i j : ℕ) (write : Bool) :
    (if large (entry m pd i) then hasBits (entry m pd i) (needBits write)
      else (tableLookup m pd i).elim false fun pt => hasBits (entry m pt j) (needBits write)) =
        true ↔
    ∃ leaf, ((tableLookup m pd i).bind fun next =>
      some (if large (entry m pd i) then entry m pd i else entry m next j)) = some leaf ∧
        hasBits leaf (needBits write) = true := by
  simp only [Option.bind_eq_some_iff, Option.some.injEq]
  constructor
  · intro h
    by_cases hl : large (entry m pd i) = true
    · rw [if_pos hl] at h
      exact ⟨_, ⟨_, tableLookup_of_present (present_of_hasBits h), if_pos hl⟩, h⟩
    · rw [if_neg hl, elim_false_iff] at h
      obtain ⟨pt, hpt, h⟩ := h
      exact ⟨_, ⟨pt, hpt, if_neg hl⟩, h⟩
  · intro ⟨leaf, ⟨next, hnext, hleaf⟩, h⟩
    by_cases hl : large (entry m pd i) = true
    · rw [if_pos hl] at hleaf ⊢
      exact hleaf ▸ h
    · rw [if_neg hl] at hleaf ⊢
      exact (elim_false_iff _ _).mpr ⟨next, hnext, hleaf ▸ h⟩

lemma pageHas_iff (m : Memory) (root virt : ℕ) (write : Bool) :
    pageHas m root virt (needBits write) = true ↔
      ∃ leaf, walkEntry m root virt = some leaf ∧ hasBits leaf (needBits write) = true := by
  rw [pageHas, walkEntry, elim_false_iff]
  constructor
  · intro ⟨pdpt, h1, h⟩
    obtain ⟨pd, h2, h⟩ := (elim_false_iff _ _).mp h
    obtain ⟨leaf, hleaf, hbits⟩ := (entry_iff _ _ _ _ _).mp h
    exact ⟨leaf, Option.bind_eq_some_iff.mpr ⟨pdpt, h1, Option.bind_eq_some_iff.mpr ⟨pd, h2,
      hleaf⟩⟩, hbits⟩
  · intro ⟨leaf, h, hbits⟩
    obtain ⟨pdpt, h1, h⟩ := Option.bind_eq_some_iff.mp h
    obtain ⟨pd, h2, h⟩ := Option.bind_eq_some_iff.mp h
    exact ⟨pdpt, h1, (elim_false_iff _ _).mpr ⟨pd, h2, (entry_iff _ _ _ _ _).mpr ⟨leaf, h, hbits⟩⟩⟩

lemma walkEntry_page (m : Memory) (root virt : ℕ) : walkEntry m root (virt / 4096 * 4096) =
    walkEntry m root virt := by
  have hindex (shift : ℕ) (h : 12 ≤ shift) : index shift (virt / 4096 * 4096) =
    index shift virt := by
    obtain ⟨k, rfl⟩ := Nat.exists_eq_add_of_le h
    simp only [index, Nat.shiftRight_eq_div_pow, pow_add, ← Nat.div_div_eq_div_mul]
    rw [show (2 : ℕ) ^ 12 = 4096 by decide, Nat.mul_div_cancel _ (by decide)]
  have h4 : pml4Index (virt / 4096 * 4096) = pml4Index virt := hindex 39 (by decide)
  have h3 : pdptIndex (virt / 4096 * 4096) = pdptIndex virt := hindex 30 (by decide)
  have h2 : pdIndex (virt / 4096 * 4096) = pdIndex virt := hindex 21 (by decide)
  have h1 : ptIndex (virt / 4096 * 4096) = ptIndex virt := hindex 12 (by decide)
  rw [walkEntry, walkEntry, h4, h3, h2, h1]

lemma mem_rangePages (addr len p : ℕ) : p ∈ rangePages addr len ↔
    p % 4096 = 0 ∧ addr / 4096 * 4096 ≤ p ∧ p < addr + len := by
  simp only [rangePages, List.mem_map, List.mem_range]
  constructor
  · rintro ⟨i, hi, rfl⟩
    omega
  · rintro ⟨hp, hlo, hhi⟩
    exact ⟨(p - addr / 4096 * 4096) / 4096, by omega, by omega⟩

/-- A buffer passes exactly when each of its bytes is mapped as needed. -/
theorem vmmRangeUser_eq_true (m : Memory) (root addr len : ℕ) (write : Bool) :
    vmmRangeUser m root addr len write = true ↔
      ∀ x, addr ≤ x → x < addr + len → UserMapped m root x write := by
  unfold vmmRangeUser
  by_cases h0 : len = 0
  · rw [if_pos h0]
    exact ⟨fun _ x _ _ => by omega, fun _ => rfl⟩
  rw [if_neg h0]
  constructor
  · intro h
    split_ifs at h with hlo hhi
    intro x hx hxl
    have hpage := List.all_eq_true.mp h (x / 4096 * 4096) ((mem_rangePages _ _ _).mpr (by omega))
    rw [pageHas_iff, walkEntry_page] at hpage
    exact ⟨by omega, by omega, hpage⟩
  · intro h
    have hfirst := (h addr le_rfl (by omega)).1
    have hlast := (h (addr + len - 1) (by omega) (by omega)).2.1
    rw [if_neg (by omega), if_neg (by omega), List.all_eq_true]
    intro p hp
    obtain ⟨hp0, hlo, hhi⟩ := (mem_rangePages _ _ _).mp hp
    -- the first byte of the buffer in this page
    have hx := (h (max addr p) (by omega) (by omega)).2.2
    rw [← walkEntry_page, show max addr p / 4096 * 4096 = p by omega] at hx
    exact (pageHas_iff _ _ _ _).mpr hx

/-! ## Exactness -/

/-- The pages whose entries the loop of `vmm_range_user` looks at. -/
def visitedPages (addr len : ℕ) : List ℕ :=
  if len = 0 ∨ addr < userBase ∨ userEnd < addr ∨ userEnd - addr < len then []
    else rangePages addr len

/-- The validation accepts exactly the buffers that lie in the user region and whose pages
all have the bits, and it looks at pages of the user region only. -/
theorem vmmRangeUser_exact (m : Memory) (root addr len : ℕ) (write : Bool) (hlen : 1 ≤ len) :
    (vmmRangeUser m root addr len write = true ↔
      addr + len ≤ 2 ^ 64 ∧ userBase ≤ addr ∧ addr + len ≤ userEnd ∧
        ∀ x, addr ≤ x → x < addr + len →
          ∃ leaf, walkEntry m root x = some leaf ∧ hasBits leaf (needBits write) = true) ∧
      ∀ p ∈ visitedPages addr len, userBase ≤ p ∧ p + 4096 ≤ userEnd := by
  have hend : userEnd ≤ 2 ^ 64 := by decide
  have hbase : userBase % 4096 = 0 := by decide
  have hlast : userEnd % 4096 = 0 := by decide
  refine ⟨⟨fun h => ?_, fun ⟨_, hlo, hhi, h⟩ => ?_⟩, fun p hp => ?_⟩
  · rw [vmmRangeUser_eq_true] at h
    have hfirst := (h addr le_rfl (by omega)).1
    have hstop := (h (addr + len - 1) (by omega) (by omega)).2.1
    exact ⟨by omega, hfirst, by omega, fun x hx hxl => (h x hx hxl).2.2⟩
  · exact (vmmRangeUser_eq_true _ _ _ _ _).mpr fun x hx hxl => ⟨by omega, by omega, h x hx hxl⟩
  · unfold visitedPages at hp
    split_ifs at hp with hout
    · exact absurd hp List.not_mem_nil
    · obtain ⟨hp0, hlo, hhi⟩ := (mem_rangePages _ _ _).mp hp
      omega

/-- Tables for one page, the lowest of the user region, that may be read. -/
def firstUserPage : Memory :=
  setEntry (setEntry (setEntry (setEntry (fun _ => 0) 0x1000 1 0x2007) 0x2000 0 0x3007)
    0x3000 0 0x4007) 0x4000 0 0x5005

theorem vmmRangeUser_exact_last_byte :
    vmmRangeUser firstUserPage 0x1000 (userBase + 4095) 1 false = true ∧
      ∀ x, userBase + 4095 ≤ x → x < userBase + 4095 + 1 →
        ∃ leaf, walkEntry firstUserPage 0x1000 x = some leaf ∧ hasBits leaf (needBits false) =
          true := by
  have hpass : vmmRangeUser firstUserPage 0x1000 (userBase + 4095) 1 false = true := by
    decide +kernel
  exact ⟨hpass,
    ((vmmRangeUser_exact firstUserPage 0x1000 (userBase + 4095) 1 false le_rfl).1.mp hpass).2.2.2⟩

end TraitOS.Tvmm
