import TraitOS.TmallocTables
import TraitOS.TvmmAspace

/-!
# Starting and ending an address space

A new PML4 takes over the kernel half of the kernel's and starts with no user
tables. The teardown walks the user half and gives back every frame it meets; the
list of these frames is compared here with the nodes of the tree.
-/
namespace TraitOS.Tvmm
open ByteMemory PageTable Tpmm

variable {lay : Layout} {use : ℕ → Use}

/-- Nothing but the entries of the nodes matters. -/
theorem Tables.congr {p p' : Paging} {use use' : ℕ → Use} (ht : Tables lay p use)
    (hmem : ∀ f tree path i, use f = .node tree path → i < entries →
      entry p'.mem (f * frameBytes) i = entry p.mem (f * frameBytes) i)
    (huse : ∀ f tree path, use' f = .node tree path ↔ use f = .node tree path) (hv : Valid p'.pmm)
    (hheld : ∀ f, use' f ≠ .idle → f ∉ freeSet p'.pmm ∧ f ≠ 0 ∧ f < p'.pmm.totalFrames) :
    Tables lay p' use' := by
  have hhangs : ∀ i k, Hangs p'.mem use' i k → Hangs p.mem use i k := by
    rintro i k ⟨r, t, hr, hu, hi, hk, hp, hframe⟩
    rw [huse] at hr
    rw [hmem r t [] i hr hi] at hp hframe
    exact ⟨r, t, hr, hu, hi, hk, hp, hframe⟩
  refine ⟨ht.owned.congr (fun f t q i hf hi _ => hmem f t q i hf hi) huse, hv, ?_, ?_, ?_, ?_, ?_,
    ?_, ?_, ?_⟩
  · exact fun f hf => (hheld f hf).1
  · by_contra h0
    exact (hheld 0 h0).2.1 rfl
  · exact fun f hf => (hheld f hf).2.2
  · exact fun f t q hf => ht.low f t q ((huse f t q).mp hf)
  · exact fun f t hf => ht.named f t ((huse f t []).mp hf)
  · exact fun i k hk => (huse k k []).mpr (ht.shared i k (hhangs i k hk))
  · exact fun i i' k hk hk' => ht.single i i' k (hhangs i k hk) (hhangs i' k hk')
  · intro t b i hcov hi
    obtain ⟨f, hf, hp⟩ := ht.leaves t b i hcov hi
    refine ⟨f, (huse f t [b]).mpr hf, ?_⟩
    rw [hmem f t [b] i hf hi]
    exact hp

/-- The uses once frames were set aside for a holder. -/
def setAside (use : ℕ → Use) (F : Finset ℕ) : ℕ → Use := fun f => if f ∈ F then .spare else use f

lemma setAside_node {F : Finset ℕ} (hF : ∀ f ∈ F, use f = .idle) (f t : ℕ) (path : List ℕ) :
    setAside use F f = .node t path ↔ use f = .node t path := by
  unfold setAside
  by_cases hf : f ∈ F
  · rw [if_pos hf]
    exact iff_of_false Use.noConfusion (fun h => Use.noConfusion ((hF f hf).symm.trans h))
  · rw [if_neg hf]

/-- Frames granted from the pool become their holder's. -/
theorem Tables.setAside {p : Paging} (ht : Tables lay p use) {r : Pmm × ℕ} {n : ℕ}
    (hspec : AllocSpec p.pmm r n) (h0 : r.2 ≠ 0) :
    Tables lay { p with pmm := r.1 } (setAside use (grantFrames r.2 n)) := by
  obtain ⟨_, _, hsub, hset⟩ := hspec.granted ht.valid h0
  refine ht.congr (fun _ _ _ _ _ _ => rfl) (setAside_node fun f hf => ht.idle_of_free (hsub hf))
    (hspec.valid ht.valid) fun f hf => ?_
  dsimp only
  rw [hset, Finset.mem_sdiff]
  by_cases hmem : f ∈ grantFrames r.2 n
  · have hfree := hsub hmem
    exact ⟨fun h => h.2 hmem, fun hz => ht.valid.zero_used (hz ▸ hfree),
      hspec.totalFrames.symm ▸ ((mem_freeSet _ _).mp hfree).1⟩
  · unfold Tvmm.setAside at hf
    rw [if_neg hmem] at hf
    exact ⟨fun h => ht.held f hf h.1, ht.ne_zero hf, hspec.totalFrames.symm ▸ ht.managed f hf⟩

/-- Lookups see only the entries of nodes. -/
theorem physOf_congr {p : Paging} (ht : Tables lay p use) {m' : Memory}
    (hmem : ∀ f tree path i, use f = .node tree path → i < entries → entry m' (f * frameBytes) i =
      entry p.mem (f * frameBytes) i)
    {r tree : ℕ} (virt : ℕ) (hr : use r = .node tree []) (hu : ¬ tree < pmmMaxFrames) :
    physOf m' (r * frameBytes) virt = physOf p.mem (r * frameBytes) virt := by
  have hroot := hmem r tree [] _ hr (pml4Index_lt virt)
  cases hp : present (entry p.mem (r * frameBytes) (pml4Index virt)) with
  | false => rw [physOf_of_absent hp, physOf_of_absent (by rw [hroot, hp])]
  | true =>
    obtain ⟨t, q, hf, hlen⟩ := ht.pdpt hr hu (pml4Index_lt virt) hp
    rw [physOf_of_present hp, physOf_of_present (by rw [hroot, hp]), hroot]
    generalize frameNo (entry p.mem (r * frameBytes) (pml4Index virt)) = f at hf
    have hle := levels_le t
    have hpdpt := hmem f t q _ hf (pdptIndex_lt virt)
    cases hp2 : present (entry p.mem (f * frameBytes) (pdptIndex virt)) with
    | false => rw [physBelow_of_absent hp2, physBelow_of_absent (by rw [hpdpt, hp2])]
    | true =>
      have hg := ht.owned.down f t q _ hf (by omega) (pdptIndex_lt virt) (spaceScope_pdpt hlen) hp2
      rw [physBelow_of_present hp2, physBelow_of_present (by rw [hpdpt, hp2]), hpdpt]
      generalize frameNo (entry p.mem (f * frameBytes) (pdptIndex virt)) = g at hg
      have hpd := hmem g t _ _ hg (pdIndex_lt virt)
      cases hl : large (entry p.mem (g * frameBytes) (pdIndex virt)) with
      | true => rw [physInPd_of_large hl, physInPd_of_large (by rw [hpd, hl]), hpd]
      | false =>
        cases hp3 : present (entry p.mem (g * frameBytes) (pdIndex virt)) with
        | false =>
          rw [physInPd_of_absent hl hp3, physInPd_of_absent (by rw [hpd, hl]) (by rw [hpd, hp3])]
        | true =>
          have hlen' : (q ++ [pdptIndex virt]).length + 2 = levels t := by
            rw [List.length_append, List.length_singleton]
            omega
          have hc := ht.owned.down g t _ _ hg (by omega) (pdIndex_lt virt)
            (spaceScope_of_not_large ht hg hlen' (pdIndex_lt virt) hl) hp3
          rw [physInPd_of_present hl hp3, physInPd_of_present (by rw [hpd, hl]) (by rw [hpd, hp3]),
            hpd]
          exact tableLookup_congr (hmem _ t _ _ hc (ptIndex_lt virt))

/-! ## A new PML4 -/

lemma entry_copyKernelSlots_of_ne (m : Memory) {c f i : ℕ} (kernelPml4 : ℕ) (hi : i < entries)
    (hf : f ≠ c) (n : ℕ) (hn : n ≤ entries) :
    entry (copyKernelSlots m (c * frameBytes) kernelPml4 n) (f * frameBytes) i =
      entry m (f * frameBytes) i := by
  induction n with
  | zero => rfl
  | succ n ih =>
    unfold copyKernelSlots
    dsimp only
    split_ifs
    · rw [entry_setEntry_of_ne _ _ hi (by omega) (Or.inl hf), ih (by omega)]
    · exact ih (by omega)

/-- Entries of the new PML4 once the loop has come to `n`. -/
lemma entry_copyKernelSlots (m : Memory) {c k i : ℕ} (hi : i < entries) (hk : k ≠ c) (n : ℕ)
    (hn : n ≤ entries) :
    entry (copyKernelSlots m (c * frameBytes) (k * frameBytes) n) (c * frameBytes) i =
      if i < n ∧ kernelSlot i = true then entry m (k * frameBytes) i
      else entry m (c * frameBytes) i := by
  induction n with
  | zero => rw [if_neg (by omega)]; rfl
  | succ n ih =>
    unfold copyKernelSlots
    dsimp only
    by_cases hin : i = n
    · subst hin
      by_cases hs : kernelSlot i = true
      · rw [if_pos hs, if_pos ⟨by omega, hs⟩,
          entry_copyKernelSlots_of_ne m _ hi hk i (by omega),
          entry_setEntry_self _ _ _ (entry_lt _ _ _)]
      · rw [if_neg hs, if_neg (fun h => hs h.2), ih (by omega), if_neg (fun h => hs h.2)]
    · have hstep : entry (if kernelSlot n = true then
            setEntry (copyKernelSlots m (c * frameBytes) (k * frameBytes) n) (c * frameBytes) n
              (entry (copyKernelSlots m (c * frameBytes) (k * frameBytes) n) (k * frameBytes) n)
          else copyKernelSlots m (c * frameBytes) (k * frameBytes) n) (c * frameBytes) i =
          entry (copyKernelSlots m (c * frameBytes) (k * frameBytes) n) (c * frameBytes) i := by
        split_ifs
        · exact entry_setEntry_of_ne _ _ hi (by omega) (Or.inr hin)
        · rfl
      rw [hstep, ih (by omega)]
      exact if_congr (and_congr_left fun _ => by omega) rfl rfl

/-- A frame somebody holds becomes the root of a new space, with the kernel half of
another. -/
theorem Tables.plantSpace {p : Paging} (ht : Tables lay p use) {c k as kernel : ℕ}
    (hc : use c = .spare) (hlow : c < lowFrames) (has : ¬ as < pmmMaxFrames)
    (hnew : ∀ f path, use f ≠ .node as path) (hk : use k = .node kernel [])
    (hkernel : ¬ kernel < pmmMaxFrames)
    (huser : ∀ i < entries, kernelSlot i = false → entry p.mem (c * frameBytes) i = 0)
    (hcopy : ∀ i < entries, kernelSlot i = true → entry p.mem (c * frameBytes) i =
      entry p.mem (k * frameBytes) i) :
    Tables lay p (Function.update use c (.node as [])) := by
  have hself : Function.update use c (.node as []) c = .node as [] := Function.update_self c _ use
  have hother : ∀ f, f ≠ c → Function.update use c (.node as []) f = use f :=
    fun f hf => Function.update_of_ne hf _ _
  have hkeep : ∀ f t path, use f = .node t path →
      Function.update use c (.node as []) f = .node t path := by
    intro f t path hf
    rw [hother f, hf]
    rintro rfl
    exact Use.noConfusion (hc.symm.trans hf)
  have hidle : ∀ f, Function.update use c (.node as []) f ≠ .idle → use f ≠ .idle := by
    intro f hf
    by_cases hfc : f = c
    · rw [hfc, hc]
      exact Use.noConfusion
    · rwa [hother f hfc] at hf
  have hhangs : ∀ i j, Hangs p.mem (Function.update use c (.node as [])) i j →
      Hangs p.mem use i j := by
    rintro i j ⟨r, t, hr, hu, hi, hks, hp, hframe⟩
    by_cases hrc : r = c
    · rw [hrc, hcopy i hi hks] at hp hframe
      exact ⟨k, kernel, hk, hkernel, hi, hks, hp, hframe⟩
    · rw [hother r hrc] at hr
      exact ⟨r, t, hr, hu, hi, hks, hp, hframe⟩
  refine ⟨ht.owned.plant hnew (by rw [hc]; exact id) ?_, ht.valid, ?_, ?_, ?_, ?_, ?_, ?_, ?_, ?_⟩
  · exact fun i hi hin => huser i hi (((spaceScope_space has).mp hin).1 rfl)
  · exact fun f hf => ht.held f (hidle f hf)
  · by_contra h0
    exact hidle 0 h0 ht.nonzero
  · exact fun f hf => ht.managed f (hidle f hf)
  · intro f t path hf hlt
    by_cases hfc : f = c
    · rwa [hfc]
    · rw [hother f hfc] at hf
      exact ht.low f t path hf hlt
  · intro f t hf ht'
    by_cases hfc : f = c
    · rw [hfc, hself] at hf
      exact absurd ((Use.node.inj hf).1 ▸ ht') has
    · rw [hother f hfc] at hf
      exact ht.named f t hf ht'
  · exact fun i j hj => hkeep j j [] (ht.shared i j (hhangs i j hj))
  · exact fun i i' j hj hj' => ht.single i i' j (hhangs i j hj) (hhangs i' j hj')
  · intro t b i hcov hi
    obtain ⟨f, hf, hp⟩ := ht.leaves t b i hcov hi
    exact ⟨f, hkeep f t [b] hf, hp⟩

/-- All frames of a space become nobody's; what of them is not in the pool then is
lost. -/
theorem Tables.pruneSpace {p : Paging} {use use' : ℕ → Use} (ht : Tables lay p use) {as : ℕ}
    (has : ¬ as < pmmMaxFrames) (hgone : ∀ f path, use f = .node as path → use' f = .idle)
    (hkeep : ∀ f, (∀ path, use f ≠ .node as path) → use' f = use f) {s : Pmm} (hv : Valid s)
    (htot : s.totalFrames = p.pmm.totalFrames)
    (hpool : ∀ f ∈ freeSet s, f ∈ freeSet p.pmm ∨ ∃ path, use f = .node as path) :
    Tables lay { p with pmm := s } use' := by
  have hback : ∀ f u, u ≠ .idle → use' f = u → (∀ path, use f ≠ .node as path) ∧ use f = u := by
    intro f u hu hf
    have hnot : ∀ path, use f ≠ .node as path :=
      fun path hp => hu (hf.symm.trans (hgone f path hp))
    exact ⟨hnot, (hkeep f hnot).symm.trans hf⟩
  have hforth : ∀ f t path, t ≠ as → use f = .node t path → use' f = .node t path := by
    intro f t path hne hf
    rw [hkeep f, hf]
    intro path' hp
    exact hne (Use.node.inj (hf.symm.trans hp)).1
  have hhangs : ∀ i k, Hangs p.mem use' i k → Hangs p.mem use i k := by
    rintro i k ⟨r, t, hr, hrest⟩
    exact ⟨r, t, (hback r _ Use.noConfusion hr).2, hrest⟩
  refine ⟨ht.owned.prune as ?_ hkeep, hv, ?_, ?_, ?_, ?_, ?_, ?_, ?_, ?_⟩
  · intro f path hf
    rw [hgone f path hf]
    exact id
  · intro f hf hfree
    obtain ⟨hnot, heq⟩ := hback f _ hf rfl
    rcases hpool f hfree with hold | ⟨path, hp⟩
    · exact ht.held f (heq ▸ hf) hold
    · exact hnot path hp
  · by_contra h0
    exact h0 ((hback 0 _ h0 rfl).2.symm.trans ht.nonzero)
  · exact fun f hf => htot.symm ▸ ht.managed f ((hback f _ hf rfl).2 ▸ hf)
  · exact fun f t path hf => ht.low f t path (hback f _ Use.noConfusion hf).2
  · exact fun f t hf => ht.named f t (hback f _ Use.noConfusion hf).2
  · intro i k hk
    have hnode := ht.shared i k (hhangs i k hk)
    exact hforth k k [] (fun heq => has (heq ▸ ht.small k (ne_idle_of_node hnode))) hnode
  · exact fun i i' k hk hk' => ht.single i i' k (hhangs i k hk) (hhangs i' k hk')
  · intro t b i hcov hi
    obtain ⟨f, hf, hp, hl⟩ := ht.leaves t b i hcov hi
    refine ⟨f, hforth f t [b] ?_ hf, hp, hl⟩
    rintro rfl
    have hplain := ht.owned.plain f t [b] i hf (by simp [depth]) hi
      (spaceScope_inner has (by simp) (by simp [depth]))
    exact Bool.false_ne_true (hplain.symm.trans hl)

end TraitOS.Tvmm
