import TraitOS.TvmmUser

/-!
# Leaf entries

The entry at which a walk ends carries the permissions of a page. Tables that are
created on the way of a mapping are empty, so they change no leaf; the store at the end
changes the leaf of one page of one space.
-/
namespace TraitOS.Tvmm
open ByteMemory PageTable Tpmm Tstring

/-- The leaf entry of an address, `0` if a table on its way is missing. -/
def leafOf (m : Memory) (root virt : ℕ) : ℕ := (walkEntry m root virt).getD 0

/-- A leaf from the PD on. -/
def leafInPd (m : Memory) (pd virt : ℕ) : ℕ :=
  if present (entry m pd (pdIndex virt)) then
    if large (entry m pd (pdIndex virt)) then entry m pd (pdIndex virt)
    else entry m (target (entry m pd (pdIndex virt))) (ptIndex virt)
  else 0

/-- A leaf from the PDPT on. -/
def leafBelow (m : Memory) (pdpt virt : ℕ) : ℕ :=
  if present (entry m pdpt (pdptIndex virt)) then leafInPd m
    (target (entry m pdpt (pdptIndex virt))) virt
  else 0

section Levels
variable {m : Memory} {root pdpt pd virt : ℕ}

lemma leafInPd_of_absent (h : present (entry m pd (pdIndex virt)) = false) : leafInPd m pd virt =
    0 := by
  simp only [leafInPd, h, Bool.false_eq_true, if_false]

lemma leafInPd_of_large (h : present (entry m pd (pdIndex virt)) = true)
    (hl : large (entry m pd (pdIndex virt)) = true) :
    leafInPd m pd virt = entry m pd (pdIndex virt) := by
  simp only [leafInPd, h, hl, if_true]

lemma leafInPd_of_present (h : present (entry m pd (pdIndex virt)) = true)
    (hl : large (entry m pd (pdIndex virt)) = false) :
    leafInPd m pd virt = entry m (frameNo (entry m pd (pdIndex virt)) * frameBytes)
      (ptIndex virt) := by
  simp only [leafInPd, h, hl, Bool.false_eq_true, if_true, if_false, target_eq_frameNo]

lemma leafBelow_of_absent (h : present (entry m pdpt (pdptIndex virt)) = false) :
    leafBelow m pdpt virt = 0 := by
  simp only [leafBelow, h, Bool.false_eq_true, if_false]

lemma leafBelow_of_present (h : present (entry m pdpt (pdptIndex virt)) = true) :
    leafBelow m pdpt virt =
      leafInPd m (frameNo (entry m pdpt (pdptIndex virt)) * frameBytes) virt := by
  simp only [leafBelow, h, if_true, target_eq_frameNo]

lemma walkEntry_getD : (((tableLookup m pd (pdIndex virt)).bind fun next =>
      some (if large (entry m pd (pdIndex virt)) then entry m pd (pdIndex virt)
        else entry m next (ptIndex virt))) : Option ℕ).getD 0 = leafInPd m pd virt := by
  cases hp : present (entry m pd (pdIndex virt)) with
  | false => rw [leafInPd_of_absent hp, tableLookup_of_absent hp, Option.bind_none,
    Option.getD_none]
  | true =>
    rw [tableLookup_of_present hp, Option.bind_some, Option.getD_some, target_eq_frameNo]
    cases hl : large (entry m pd (pdIndex virt)) with
    | true => rw [leafInPd_of_large hp hl, if_pos rfl]
    | false => rw [leafInPd_of_present hp hl, if_neg Bool.false_ne_true]

lemma leafOf_of_absent (h : present (entry m root (pml4Index virt)) = false) : leafOf m root virt =
    0 := by
  rw [leafOf, walkEntry, tableLookup_of_absent h, Option.bind_none, Option.getD_none]

lemma leafOf_of_present (h : present (entry m root (pml4Index virt)) = true) :
    leafOf m root virt = leafBelow m (frameNo (entry m root (pml4Index virt)) * frameBytes) virt :=
      by
  rw [leafOf, walkEntry, tableLookup_of_present h, Option.bind_some, target_eq_frameNo]
  generalize frameNo (entry m root (pml4Index virt)) * frameBytes = pdpt
  cases hp : present (entry m pdpt (pdptIndex virt)) with
  | false => rw [tableLookup_of_absent hp, leafBelow_of_absent hp, Option.bind_none,
    Option.getD_none]
  | true =>
    rw [tableLookup_of_present hp, Option.bind_some, leafBelow_of_present hp, target_eq_frameNo]
    exact walkEntry_getD

end Levels

/-! ## Empty tables are not seen -/

section Wired
variable {lay : Layout} {p : Paging} {use : ℕ → Use} {c g j e tree : ℕ} {q : List ℕ}

lemma present_zero : present 0 = false := by decide

lemma leafInPd_wired (ht : Tables lay p use) (hw : Wiring lay p use c g j e tree q) {f t : ℕ}
    (virt : ℕ) {qf : List ℕ} (hf : use f = .node t qf) (hlen : qf.length + 2 = levels t) :
    leafInPd (wired p.mem c g j e) (f * frameBytes) virt =
      leafInPd p.mem (f * frameBytes) virt := by
  have hi := pdIndex_lt virt
  have hcg : c ≠ g := (hw.ne hw.node).symm
  by_cases hhit : f = g ∧ pdIndex virt = j
  · obtain ⟨rfl, rfl⟩ := hhit
    have hself := entry_wired_self p.mem c f (pdIndex virt) hw.lt
    rw [leafInPd_of_absent hw.absent,
      leafInPd_of_present (by rw [hself]; exact hw.present) (by rw [hself]; exact hw.small), hself,
        hw.frame]
    exact entry_wired_new p.mem e (ptIndex_lt virt) hi hcg
  · have hsame := entry_wired_of_ne p.mem e hi hw.index (hw.ne hf) (by tauto)
    cases hp : present (entry p.mem (f * frameBytes) (pdIndex virt)) with
    | false => rw [leafInPd_of_absent hp, leafInPd_of_absent (by rw [hsame, hp])]
    | true =>
      cases hl : large (entry p.mem (f * frameBytes) (pdIndex virt)) with
      | true =>
        rw [leafInPd_of_large hp hl, leafInPd_of_large (by rw [hsame, hp]) (by rw [hsame, hl]),
          hsame]
      | false =>
        have hlt : qf.length < depth := by have := levels_le t; omega
        have hchild := ht.owned.down f t qf _ hf hlt hi (spaceScope_of_not_large ht hf hlen hi hl)
          hp
        rw [leafInPd_of_present hp hl, leafInPd_of_present (by rw [hsame, hp]) (by rw [hsame, hl]),
          hsame]
        apply entry_wired_of_ne p.mem e (ptIndex_lt virt) hw.index (hw.ne hchild)
        left
        intro heq
        rw [heq, hw.node] at hchild
        obtain ⟨rfl, hq⟩ := Use.node.inj hchild
        have hlevel := hw.level
        rw [hq, List.length_append, List.length_singleton] at hlevel
        omega

lemma leafBelow_wired (ht : Tables lay p use) (hw : Wiring lay p use c g j e tree q) {f t : ℕ}
    (virt : ℕ) {qf : List ℕ} (hf : use f = .node t qf) (hlen : qf.length + 3 = levels t) :
    leafBelow (wired p.mem c g j e) (f * frameBytes) virt =
      leafBelow p.mem (f * frameBytes) virt := by
  have hi := pdptIndex_lt virt
  have hcg : c ≠ g := (hw.ne hw.node).symm
  by_cases hhit : f = g ∧ pdptIndex virt = j
  · obtain ⟨rfl, rfl⟩ := hhit
    have hself := entry_wired_self p.mem c f (pdptIndex virt) hw.lt
    have hzero := entry_wired_new p.mem e (pdIndex_lt virt) hi hcg
    rw [leafBelow_of_absent hw.absent, leafBelow_of_present (by rw [hself]; exact hw.present),
      hself, hw.frame, leafInPd_of_absent (by rw [hzero, present_zero])]
  · have hsame := entry_wired_of_ne p.mem e hi hw.index (hw.ne hf) (by tauto)
    cases hp : present (entry p.mem (f * frameBytes) (pdptIndex virt)) with
    | false => rw [leafBelow_of_absent hp, leafBelow_of_absent (by rw [hsame, hp])]
    | true =>
      have hlt : qf.length < depth := by have := levels_le t; omega
      have hchild := ht.owned.down f t qf _ hf hlt hi (spaceScope_pdpt hlen) hp
      rw [leafBelow_of_present hp, leafBelow_of_present (by rw [hsame, hp]), hsame]
      apply leafInPd_wired ht hw virt hchild
      rw [List.length_append, List.length_singleton]
      omega

theorem leafOf_wired (ht : Tables lay p use) (hw : Wiring lay p use c g j e tree q) {r t : ℕ}
    (virt : ℕ) (hr : use r = .node t []) (hu : ¬ t < pmmMaxFrames) :
    leafOf (wired p.mem c g j e) (r * frameBytes) virt = leafOf p.mem (r * frameBytes) virt := by
  have hi := pml4Index_lt virt
  have hcg : c ≠ g := (hw.ne hw.node).symm
  by_cases hhit : r = g ∧ pml4Index virt = j
  · obtain ⟨rfl, rfl⟩ := hhit
    have hself := entry_wired_self p.mem c r (pml4Index virt) hw.lt
    have hzero := entry_wired_new p.mem e (pdptIndex_lt virt) hi hcg
    rw [leafOf_of_absent hw.absent, leafOf_of_present (by rw [hself]; exact hw.present), hself,
      hw.frame, leafBelow_of_absent (by rw [hzero, present_zero])]
  · have hsame := entry_wired_of_ne p.mem e hi hw.index (hw.ne hr) (by tauto)
    cases hp : present (entry p.mem (r * frameBytes) (pml4Index virt)) with
    | false => rw [leafOf_of_absent hp, leafOf_of_absent (by rw [hsame, hp])]
    | true =>
      obtain ⟨t', q', hchild, hlen⟩ := ht.pdpt hr hu hi hp
      rw [leafOf_of_present hp, leafOf_of_present (by rw [hsame, hp]), hsame]
      exact leafBelow_wired ht hw virt hchild hlen

end Wired

/-! ## The store into the last table -/

section Store
variable {lay : Layout} {p : Paging} {use : ℕ → Use} {c d t : ℕ} {q : List ℕ}

lemma leafInPd_leaf (ht : Tables lay p use) (hl : LastTable p use c d t q) (e : ℕ) {f t' virt : ℕ}
    {q' : List ℕ} (hf : use f = .node t' q') (hlen : q'.length + 2 = levels t')
    (hoff : ¬ (t' = t ∧ q' ++ [pdIndex virt] = q ∧ ptIndex virt = d)) :
    leafInPd (setEntry p.mem (c * frameBytes) d e) (f * frameBytes) virt =
      leafInPd p.mem (f * frameBytes) virt := by
  have hi := pdIndex_lt virt
  have hsame := entry_leaf_of_ne hl e hf hi (by
    rintro ⟨rfl, rfl, _⟩
    have := hl.level
    omega)
  cases hp : present (entry p.mem (f * frameBytes) (pdIndex virt)) with
  | false => rw [leafInPd_of_absent hp, leafInPd_of_absent (by rw [hsame, hp])]
  | true =>
    cases hlg : large (entry p.mem (f * frameBytes) (pdIndex virt)) with
    | true =>
      rw [leafInPd_of_large hp hlg, leafInPd_of_large (by rw [hsame, hp]) (by rw [hsame, hlg]),
        hsame]
    | false =>
      have hlt : q'.length < depth := by have := levels_le t'; omega
      have hchild := ht.owned.down f t' q' _ hf hlt hi (spaceScope_of_not_large ht hf hlen hi hlg)
        hp
      rw [leafInPd_of_present hp hlg, leafInPd_of_present (by rw [hsame, hp]) (by rw [hsame, hlg]),
        hsame]
      exact entry_leaf_of_ne hl e hchild (ptIndex_lt virt) hoff

lemma leafBelow_leaf (ht : Tables lay p use) (hl : LastTable p use c d t q) (e : ℕ) {f t' virt : ℕ}
    {q' : List ℕ} (hf : use f = .node t' q') (hlen : q'.length + 3 = levels t')
    (hoff : ¬ (t' = t ∧ q' ++ [pdptIndex virt] ++ [pdIndex virt] = q ∧ ptIndex virt = d)) :
    leafBelow (setEntry p.mem (c * frameBytes) d e) (f * frameBytes) virt =
      leafBelow p.mem (f * frameBytes) virt := by
  have hi := pdptIndex_lt virt
  have hsame := entry_leaf_of_ne hl e hf hi (by
    rintro ⟨rfl, rfl, _⟩
    have := hl.level
    omega)
  cases hp : present (entry p.mem (f * frameBytes) (pdptIndex virt)) with
  | false => rw [leafBelow_of_absent hp, leafBelow_of_absent (by rw [hsame, hp])]
  | true =>
    have hlt : q'.length < depth := by have := levels_le t'; omega
    have hchild := ht.owned.down f t' q' _ hf hlt hi (spaceScope_pdpt hlen) hp
    rw [leafBelow_of_present hp, leafBelow_of_present (by rw [hsame, hp]), hsame]
    apply leafInPd_leaf ht hl e hchild _ hoff
    rw [List.length_append, List.length_singleton]
    omega

end Store

lemma leafOf_page (m : Memory) (root : ℕ) {v virt : ℕ} (h : pageOf v = pageOf virt) :
    leafOf m root v = leafOf m root virt := by
  obtain ⟨hpath, hpt⟩ := (pageOf_eq_iff v virt).mp h
  simp only [List.cons.injEq, and_true] at hpath
  rw [leafOf, leafOf, walkEntry, walkEntry, hpath.1, hpath.2.1, hpath.2.2, hpt]

/-- In the user half the leaf decides where an address leads. -/
theorem translate_user {lay : Layout} {p : Paging} {use : ℕ → Use} (ht : Tables lay p use)
    {r tree virt : ℕ} (hr : use r = .node tree []) (hu : ¬ tree < pmmMaxFrames)
    (hk : kernelSlot (pml4Index virt) = false) :
    translate p.mem (r * frameBytes) virt =
      if present (leafOf p.mem (r * frameBytes) virt) = true then
        some (target (leafOf p.mem (r * frameBytes) virt) + virt % 4096)
      else none := by
  have hin {q : List ℕ} {i : ℕ} (hq : q ≠ []) (hlt : q.length < 3) : spaceScope lay tree q i :=
    spaceScope_inner hu hq (by unfold depth; omega)
  unfold translate
  cases hp : present (entry p.mem (r * frameBytes) (pml4Index virt)) with
  | false => rw [leafOf_of_absent hp, tableLookup_of_absent hp, Option.bind_none, present_zero,
      if_neg Bool.false_ne_true]
  | true =>
    have hf := ht.owned.down r tree [] _ hr (by decide) (pml4Index_lt virt)
      (spaceScope_root hu hk) hp
    rw [leafOf_of_present hp, tableLookup_of_present hp, target_eq_frameNo, Option.bind_some]
    generalize frameNo (entry p.mem (r * frameBytes) (pml4Index virt)) = f at hf
    cases hp2 : present (entry p.mem (f * frameBytes) (pdptIndex virt)) with
    | false => rw [leafBelow_of_absent hp2, tableLookup_of_absent hp2, Option.bind_none,
        present_zero, if_neg Bool.false_ne_true]
    | true =>
      have hg := ht.owned.down f tree _ _ hf (by simp [depth]) (pdptIndex_lt virt)
        (hin (by simp) (by simp)) hp2
      rw [leafBelow_of_present hp2, tableLookup_of_present hp2, target_eq_frameNo, Option.bind_some]
      generalize frameNo (entry p.mem (f * frameBytes) (pdptIndex virt)) = g at hg
      have hl := ht.owned.plain g tree _ _ hg (by simp [depth]) (pdIndex_lt virt)
        (hin (by simp) (by simp))
      cases hp3 : present (entry p.mem (g * frameBytes) (pdIndex virt)) with
      | false => rw [leafInPd_of_absent hp3, tableLookup_of_absent hp3, Option.bind_none,
          present_zero, if_neg Bool.false_ne_true]
      | true =>
        rw [leafInPd_of_present hp3 hl, tableLookup_of_present hp3, target_eq_frameNo,
          Option.bind_some, hl, if_neg Bool.false_ne_true]
        generalize frameNo (entry p.mem (g * frameBytes) (pdIndex virt)) * frameBytes = t
        cases hp4 : present (entry p.mem t (ptIndex virt)) with
        | false => rw [tableLookup_of_absent hp4, Option.map_none, if_neg Bool.false_ne_true]
        | true => rw [tableLookup_of_present hp4, Option.map_some, if_pos rfl]

section User
variable {lay : Layout} {p : Paging} {use : ℕ → Use} {r c tree virt : ℕ}

theorem leafOf_leaf_user (ht : Tables lay p use) (hu : ¬ tree < pmmMaxFrames)
    (hc : use c = .node tree [pml4Index virt, pdptIndex virt, pdIndex virt]) (e : ℕ) {v : ℕ}
    (hr : use r = .node tree []) (hoff : pageOf v ≠ pageOf virt) :
    leafOf (setEntry p.mem (c * frameBytes) (ptIndex virt) e) (r * frameBytes) v =
      leafOf p.mem (r * frameBytes) v := by
  have hl : LastTable p use c (ptIndex virt) tree _ := user_last hu hc
  have hi := pml4Index_lt v
  have hsame := entry_leaf_of_ne hl e hr hi (by
    rintro ⟨_, hnil, _⟩
    exact List.cons_ne_nil _ _ hnil.symm)
  cases hp : present (entry p.mem (r * frameBytes) (pml4Index v)) with
  | false => rw [leafOf_of_absent hp, leafOf_of_absent (by rw [hsame, hp])]
  | true =>
    rw [leafOf_of_present hp, leafOf_of_present (by rw [hsame, hp]), hsame]
    cases hk : kernelSlot (pml4Index v) with
    | true =>
      have hnode := ht.slots r tree _ hr hu hi hk hp
      have hsmall := ht.small _ (ne_idle_of_node hnode)
      apply leafBelow_leaf ht hl e hnode (levels_of_kernel hsmall).symm
      rintro ⟨heq, _⟩
      exact hu (heq ▸ hsmall)
    | false =>
      have hnode := ht.owned.down r tree [] _ hr (by decide) hi (spaceScope_root hu hk) hp
      apply leafBelow_leaf ht hl e hnode (levels_of_space hu).symm
      rintro ⟨_, hpath, hpt⟩
      exact hoff ((pageOf_eq_iff v virt).mpr ⟨hpath, hpt⟩)

/-- The leaf of an address of the user half is in its last table, also once the tables of
the last level have changed. -/
theorem leafOf_at (ht : Tables lay p use) (hr : use r = .node tree [])
    (hc : use c = .node tree [pml4Index virt, pdptIndex virt, pdIndex virt]) {m : Memory}
    (hm : ∀ f q i, use f = .node tree q → q.length < 3 → i < entries → entry m (f * frameBytes) i =
      entry p.mem (f * frameBytes) i) :
    leafOf m (r * frameBytes) virt = entry m (c * frameBytes) (ptIndex virt) := by
  obtain ⟨g, hg, hi, hin, hp₂, hk₂⟩ := ht.owned.up c tree [pml4Index virt, pdptIndex virt] _ hc
  obtain ⟨f, hf, _, _, hp₁, hk₁⟩ := ht.owned.up g tree [pml4Index virt] _ hg
  obtain ⟨r', hr', _, _, hp₀, hk₀⟩ := ht.owned.up f tree [] _ hf
  obtain rfl := ht.owned.root r' r tree hr' hr
  have hplain := ht.owned.plain g tree _ _ hg (by simp [depth]) hi hin
  have h₀ := hm r' [] (pml4Index virt) hr' (by simp) (pml4Index_lt virt)
  have h₁ := hm f [pml4Index virt] (pdptIndex virt) hf (by simp) (pdptIndex_lt virt)
  have h₂ := hm g [pml4Index virt, pdptIndex virt] (pdIndex virt) hg (by simp) (pdIndex_lt virt)
  rw [← h₀] at hp₀ hk₀
  rw [← h₁] at hp₁ hk₁
  rw [← h₂] at hp₂ hk₂ hplain
  rw [leafOf_of_present hp₀, hk₀, leafBelow_of_present hp₁, hk₁, leafInPd_of_present hp₂ hplain,
    hk₂]

end User

/-! ## Mapping a page -/

section Map
variable {lay : Layout} {p : Paging} {use : ℕ → Use} {tree : ℕ}

lemma tableEnsure_of_present {g idx : ℕ} (flags : ℕ)
    (hp : present (entry p.mem (g * frameBytes) idx) = true) :
    tableEnsure p (g * frameBytes) idx flags =
      (p, some (frameNo (entry p.mem (g * frameBytes) idx) * frameBytes)) := by
  unfold tableEnsure
  rw [← target_eq_frameNo]
  exact if_pos hp

lemma tableEnsure_of_refused {g idx : ℕ} (flags : ℕ)
    (hp : present (entry p.mem (g * frameBytes) idx) = false) (h0 : (tpmmAllocLow p.pmm).2 = 0) :
    tableEnsure p (g * frameBytes) idx flags = (⟨p.mem, (tpmmAllocLow p.pmm).1⟩, none) := by
  unfold tableEnsure
  dsimp only
  rw [hp, if_neg Bool.false_ne_true, if_pos h0]

lemma tableEnsure_of_granted {g idx c : ℕ} (flags : ℕ)
    (hp : present (entry p.mem (g * frameBytes) idx) = false)
    (hc : (tpmmAllocLow p.pmm).2 = c * frameBytes) (h0 : (tpmmAllocLow p.pmm).2 ≠ 0)
    (hc40 : c < 2 ^ 40) :
    tableEnsure p (g * frameBytes) idx flags =
      (⟨wired p.mem c g idx (tableEntry (c * frameBytes) flags), (tpmmAllocLow p.pmm).1⟩,
        some (c * frameBytes)) := by
  unfold tableEnsure
  dsimp only
  rw [hp, if_neg Bool.false_ne_true, if_neg h0, hc, target_frame hc40, tmemset_eq_fill]
  rfl

lemma tableEnsure_leaves (ht : Tables lay p use) {g idx : ℕ} {q : List ℕ} (flags : ℕ)
    (hg : use g = .node tree q) (hlen : q.length + 1 < levels tree) (hi : idx < entries)
    (hplain : q.length + 2 = levels tree → present (entry p.mem (g * frameBytes) idx) = false →
      large (entry p.mem (g * frameBytes) idx) = false)
    {p' : Paging} {table : Option ℕ} (heq : tableEnsure p (g * frameBytes) idx flags = (p', table))
    {r t : ℕ} (v : ℕ) (hr : use r = .node t []) (hu : ¬ t < pmmMaxFrames) :
    leafOf p'.mem (r * frameBytes) v = leafOf p.mem (r * frameBytes) v := by
  cases hp : present (entry p.mem (g * frameBytes) idx) with
  | true =>
    rw [tableEnsure_of_present flags hp] at heq
    rw [← (Prod.mk.inj heq).1]
  | false =>
    by_cases h0 : (tpmmAllocLow p.pmm).2 = 0
    · rw [tableEnsure_of_refused flags hp h0] at heq
      rw [← (Prod.mk.inj heq).1]
    · obtain ⟨c, hc, hfree, _, _⟩ := granted_one ht.valid (tpmmAllocLow_spec ht.valid).1 h0
      have hc40 : c < 2 ^ 40 := (free_lt ht.valid hfree).trans (by decide)
      obtain ⟨he, hpr, hlarge, hframe⟩ := tableEntry_spec flags hc40
      have hw : Wiring lay p use c g idx (tableEntry (c * frameBytes) flags) tree q :=
        ⟨hg, hlen, hi, hp, fun h => hplain h hp, ht.idle_of_free hfree, he, hpr, hlarge, hframe⟩
      rw [tableEnsure_of_granted flags hp hc h0 hc40] at heq
      rw [← (Prod.mk.inj heq).1]
      exact leafOf_wired ht hw v hr hu

end Map

/-! ## Memories that agree on the tables

What a mapping does depends on the frame pool and on the tables only: from a memory with
the same tables it takes the same way, and both come to the same tables. -/

/-- A memory that agrees with a state on the frames that hold tables. -/
def Twin (use : ℕ → Use) (p : Paging) (m : Memory) : Prop :=
  ∀ x, IsTable (use (x / frameBytes)) → m x = p.mem x

/-- Only tables were written. -/
def KeepsData (use : ℕ → Use) (m m' : Memory) : Prop :=
  ∀ x, ¬ IsTable (use (x / frameBytes)) → m' x = m x

section Twin
variable {lay : Layout} {p p' : Paging} {use use' : ℕ → Use} {m : Memory} {tree : ℕ}

lemma Twin.entry (h : Twin use p m) {f t i : ℕ} {q : List ℕ} (hf : use f = .node t q)
    (hlen : q.length < depth) (hi : i < entries) :
    entry m (f * frameBytes) i = entry p.mem (f * frameBytes) i :=
  entry_congr_frame hi fun x hx => h x (hx ▸ ⟨t, q, hf, hlen⟩)

/-- Where pages are not described, all nodes are tables. -/
lemma Tables.node_length (ht : Tables lay p use) (hpages : ¬ lay.pages) {f t : ℕ} {q : List ℕ}
    (hf : use f = .node t q) : q.length < depth := by
  rcases q.eq_nil_or_concat' with rfl | ⟨path, i, rfl⟩
  · decide
  · obtain ⟨_, _, _, hin, _⟩ := ht.owned.up f t path i hf
    have hle := ht.owned.bounded f t _ hf
    rw [List.length_append, List.length_singleton] at hle ⊢
    by_cases hk : t < pmmMaxFrames
    · unfold spaceScope at hin
      rw [if_pos hk] at hin
      match path, hin with
      | [], _ => decide
      | [_], _ => simp [depth]
    · exact lt_of_le_of_ne hle fun h => hpages (((spaceScope_space hk).mp hin).2 h)

lemma Twin.entry_eq (h : Twin use p m) (ht : Tables lay p use) (hpages : ¬ lay.pages) (f t : ℕ)
    (q : List ℕ) (i : ℕ) (hf : use f = .node t q) (hi : i < entries) :
    PageTable.entry m (f * frameBytes) i = PageTable.entry p.mem (f * frameBytes) i :=
  h.entry hf (ht.node_length hpages hf) hi

lemma Twin.tables (h : Twin use p m) (ht : Tables lay p use) (hpages : ¬ lay.pages) :
    Tables lay ⟨m, p.pmm⟩ use :=
  ht.congr (h.entry_eq ht hpages) (fun _ _ _ => Iff.rfl) ht.valid
    fun f hf => ⟨ht.held f hf, ht.ne_zero hf, ht.managed f hf⟩

/-- A twin has the same leaves. -/
theorem Twin.leafOf (h : Twin use p m) (ht : Tables lay p use) (hpages : ¬ lay.pages) {r : ℕ}
    (hr : use r = .node tree []) (hu : ¬ tree < pmmMaxFrames) (virt : ℕ) :
    leafOf m (r * frameBytes) virt = leafOf p.mem (r * frameBytes) virt := by
  have hmem := h.entry_eq ht hpages
  have hroot := hmem r tree [] _ hr (pml4Index_lt virt)
  cases hp : present (PageTable.entry p.mem (r * frameBytes) (pml4Index virt)) with
  | false => rw [leafOf_of_absent hp, leafOf_of_absent (by rw [hroot, hp])]
  | true =>
    obtain ⟨t, q, hf, hlen⟩ := ht.pdpt hr hu (pml4Index_lt virt) hp
    rw [leafOf_of_present hp, leafOf_of_present (by rw [hroot, hp]), hroot]
    generalize frameNo (PageTable.entry p.mem (r * frameBytes) (pml4Index virt)) = f at hf
    have hle := levels_le t
    have hpdpt := hmem f t q _ hf (pdptIndex_lt virt)
    cases hp2 : present (PageTable.entry p.mem (f * frameBytes) (pdptIndex virt)) with
    | false => rw [leafBelow_of_absent hp2, leafBelow_of_absent (by rw [hpdpt, hp2])]
    | true =>
      have hg := ht.owned.down f t q _ hf (by omega) (pdptIndex_lt virt) (spaceScope_pdpt hlen) hp2
      rw [leafBelow_of_present hp2, leafBelow_of_present (by rw [hpdpt, hp2]), hpdpt]
      generalize frameNo (PageTable.entry p.mem (f * frameBytes) (pdptIndex virt)) = g at hg
      have hpd := hmem g t _ _ hg (pdIndex_lt virt)
      cases hp3 : present (PageTable.entry p.mem (g * frameBytes) (pdIndex virt)) with
      | false => rw [leafInPd_of_absent hp3, leafInPd_of_absent (by rw [hpd, hp3])]
      | true =>
        cases hl : large (PageTable.entry p.mem (g * frameBytes) (pdIndex virt)) with
        | true => rw [leafInPd_of_large hp3 hl, leafInPd_of_large (by rw [hpd, hp3])
          (by rw [hpd, hl]), hpd]
        | false =>
          have hlen' : (q ++ [pdptIndex virt]).length + 2 = levels t := by
            rw [List.length_append, List.length_singleton]
            omega
          have hc := ht.owned.down g t _ _ hg (by omega) (pdIndex_lt virt)
            (spaceScope_of_not_large ht hg hlen' (pdIndex_lt virt) hl) hp3
          rw [leafInPd_of_present hp3 hl, leafInPd_of_present (by rw [hpd, hp3]) (by rw [hpd, hl]),
            hpd]
          exact hmem _ t _ _ hc (ptIndex_lt virt)

/-- Tables that were added are frames that left the pool, and the other way round. -/
lemma Extends.isTable_iff {fx : Effect} (h : Extends fx p p' use use') (f : ℕ) :
    IsTable (use' f) ↔ IsTable (use f) ∨ (use f = .idle ∧ f ∈ freeSet p.pmm ∧
      f ∉ freeSet p'.pmm) := by
  by_cases hidle : use f = .idle
  · have hnot : ¬ IsTable (use f) := by
      rintro ⟨t, q, hnode, _⟩
      exact ne_idle_of_node hnode hidle
    constructor
    · rintro ⟨t, q, hnode, _⟩
      obtain ⟨hfree, _⟩ := h.fresh f hidle (ne_idle_of_node hnode)
      exact Or.inr ⟨hidle, hfree, fun hin => ne_idle_of_node hnode ((h.pool f).mp hin).2⟩
    · rintro (hf | ⟨_, hfree, hout⟩)
      · exact absurd hf hnot
      · obtain ⟨_, t, q, _, hlen, hnode⟩ := h.fresh f hidle fun hidle' =>
          hout ((h.pool f).mpr ⟨hfree, hidle'⟩)
        exact ⟨t, q, hnode, hlen.trans_le (levels_le t)⟩
  · rw [h.keep f hidle]
    exact ⟨Or.inl, fun hf => hf.resolve_right fun hnew => hidle hnew.1⟩

lemma Extends.isTable_of_same {fx : Effect} (h : Extends fx p p' use use') (hpool : p'.pmm = p.pmm)
    {f : ℕ} (hf : IsTable (use' f)) : IsTable (use f) := by
  refine ((h.isTable_iff f).mp hf).resolve_right fun hnew => hnew.2.2 ?_
  rw [hpool]
  exact hnew.2.1

lemma setEntry_agree {m m' : Memory} (table i e : ℕ) {x : ℕ} (h : m' x = m x) :
    setEntry m' table i e x = setEntry m table i e x := by
  simp only [setEntry, storeLE, h]

lemma fill_agree {m m' : Memory} (a n : ℕ) (c : UInt8) {x : ℕ}
    (h : x < a ∨ a + n ≤ x → m' x = m x) : fill m' a n c x = fill m a n c x := by
  by_cases hx : x < a ∨ a + n ≤ x
  · rw [fill_of_out _ _ hx, fill_of_out _ _ hx, h hx]
  · rw [fill_of_in _ _ (by omega) (by omega), fill_of_in _ _ (by omega) (by omega)]

lemma Twin.ensureChild (h : Twin use p m) (ht : Tables lay p use) {g idx flags : ℕ} {q : List ℕ}
    (hg : use g = .node tree q) (hlen : q.length < depth) (hi : idx < entries) {table : Option ℕ}
    (heq : tableEnsure p (g * frameBytes) idx flags = (p', table)) {fx : Effect}
    (hext : Extends fx p p' use use') :
    ∃ m', tableEnsure ⟨m, p.pmm⟩ (g * frameBytes) idx flags = (⟨m', p'.pmm⟩, table) ∧
      Twin use' p' m' ∧ KeepsData use' m m' := by
  have hv := ht.valid
  have hentry := h.entry hg hlen hi
  have hspec := (tpmmAllocLow_spec hv).1
  cases hp : present (PageTable.entry p.mem (g * frameBytes) idx) with
  | true =>
    rw [tableEnsure_of_present flags hp] at heq
    cases heq
    refine ⟨m, ?_, fun x hx => h x (hext.isTable_of_same rfl hx), fun _ _ => rfl⟩
    rw [tableEnsure_of_present flags (by rw [hentry, hp]), hentry]
  | false =>
    by_cases h0 : (tpmmAllocLow p.pmm).2 = 0
    · rw [tableEnsure_of_refused flags hp h0] at heq
      cases heq
      refine ⟨m, ?_, fun x hx => h x (hext.isTable_of_same (hspec.refused hv h0) hx),
        fun _ _ => rfl⟩
      exact tableEnsure_of_refused (p := ⟨m, p.pmm⟩) flags (by rw [hentry, hp]) h0
    · obtain ⟨c, hc, hfree, _, hpool⟩ := granted_one hv hspec h0
      have hc40 : c < 2 ^ 40 := (free_lt hv hfree).trans (by decide)
      rw [tableEnsure_of_granted flags hp hc h0 hc40] at heq
      cases heq
      have hout : c ∉ freeSet (tpmmAllocLow p.pmm).1 := by
        rw [hpool]
        exact Finset.notMem_erase c _
      have hnew : IsTable (use' c) :=
        (hext.isTable_iff c).mpr (Or.inr ⟨ht.idle_of_free hfree, hfree, hout⟩)
      have hold : IsTable (use' g) := (hext.isTable_iff g).mpr (Or.inl ⟨tree, q, hg, hlen⟩)
      refine ⟨_, tableEnsure_of_granted flags (by rw [hentry, hp]) hc h0 hc40, fun x hx => ?_,
        fun x hx => ?_⟩
      · apply setEntry_agree
        refine fill_agree _ _ _ fun hx' =>
          h x (((hext.isTable_iff _).mp hx).resolve_right fun hnew => hnew.2.2 ?_)
        -- only the frame that is cleared has left the pool
        rw [hpool, Finset.mem_erase]
        refine ⟨?_, hnew.2.1⟩
        unfold frameBytes at *
        omega
      · unfold wired
        rw [setEntry_of_frame _ _ hi (fun hg' => hx (hg' ▸ hold)),
          fill_of_frame _ _ (fun hc' => hx (hc' ▸ hnew))]

lemma KeepsData.trans {fx : Effect} {m' m'' : Memory} {use'' : ℕ → Use} {p'' : Paging}
    (h : KeepsData use' m m') (h' : KeepsData use'' m' m'') (hext : Extends fx p' p'' use' use'') :
    KeepsData use'' m m'' :=
  fun x hx => (h' x hx).trans (h x fun hold => hx ((hext.isTable_iff _).mpr (Or.inl hold)))

end Twin

/-! ## Mapping a page -/

lemma withTable_of_none {β : Type*} {r : Paging × Option ℕ} {p : Paging} {failed : β}
    {next : Paging → ℕ → Paging × β} (h : r = (p, none)) :
    withTable r failed next = (p, failed) := by
  rw [h, withTable_none]

lemma withTable_of_some {β : Type*} {r : Paging × Option ℕ} {p : Paging} {table : ℕ} {failed : β}
    {next : Paging → ℕ → Paging × β} (h : r = (p, some table)) :
    withTable r failed next = next p table := by
  rw [h, withTable_some]

/-- Tables are added to the space `tree`; its lookups may change. -/
def growing (tree : ℕ) : Effect := ⟨fun t => t = tree, fun _ _ => False, fun _ => True⟩

/-- A step of a walk in the user half of a space: it adds tables to the space at most, the
leaves stay as they are, every twin takes the same step, and the table it leads to, if any,
is the one at the given path. -/
def Walks (lay : Layout) (tree r : ℕ) (p : Paging) (use : ℕ → Use) (q : List ℕ)
    (step : Paging → Paging × Option ℕ) : Prop :=
  ∃ p' use' table, step p = (p', table) ∧ Tables lay p' use' ∧
    Extends (growing tree) p p' use use' ∧
    (∀ v, leafOf p'.mem (r * frameBytes) v = leafOf p.mem (r * frameBytes) v) ∧
    (∀ m, Twin use p m →
      ∃ m', step ⟨m, p.pmm⟩ = (⟨m', p'.pmm⟩, table) ∧ Twin use' p' m' ∧ KeepsData use' m m') ∧
    ∀ t, table = some t → ∃ c, t = c * frameBytes ∧ use' c = .node tree q

section Walks
variable {lay : Layout} {tree r : ℕ} {p : Paging} {use : ℕ → Use} {q q' : List ℕ}

/-- One level: the child behind an entry. -/
lemma walks_child (ht : Tables lay p use) (hr : use r = .node tree []) (hu : ¬ tree < pmmMaxFrames)
    {g idx : ℕ} (flags : ℕ) (hg : use g = .node tree q) (hlen : q.length + 1 < levels tree)
    (hi : idx < entries) (hin : spaceScope lay tree q idx) :
    Walks lay tree r p use (q ++ [idx]) fun p => tableEnsure p (g * frameBytes) idx flags := by
  have hlt := lt_of_lt_of_le hlen (levels_le tree)
  have hplain := ht.owned.plain g tree q idx hg hlt hi hin
  have hrefl := Extends.refl ht (growing tree)
  rcases ensureChild_spec ht flags hg hlen hi hin with ⟨heq, _⟩ | ⟨p', c, use', heq, ht', hext, hc,
    _⟩
  · exact ⟨p, use, none, heq, ht, hrefl, fun v => rfl,
      fun m hm => hm.ensureChild ht hg (by omega) hi heq hrefl, nofun⟩
  · have hgrow : Extends (growing tree) p p' use use' :=
      hext.mono (fun _ h => h) (fun _ _ h => h) fun _ => False.elim
    refine ⟨p', use', _, heq, ht', hgrow,
      fun v => tableEnsure_leaves ht flags hg hlen hi (fun _ _ => hplain) heq v hr hu,
      fun m hm => hm.ensureChild ht hg (by omega) hi heq hgrow, fun t h => ?_⟩
    exact ⟨c, (Option.some.inj h).symm, hc⟩

/-- Two steps in a row. -/
lemma Walks.seq {step : Paging → Paging × Option ℕ} {next : Paging → ℕ → Paging × Option ℕ}
    (h : Walks lay tree r p use q step) (hr : use r = .node tree [])
    (hnext : ∀ p use c, Tables lay p use → use r = .node tree [] → use c = .node tree q →
      Walks lay tree r p use q' fun p => next p (c * frameBytes)) :
    Walks lay tree r p use q' fun p => withTable (step p) none next := by
  obtain ⟨p₁, use₁, table, heq, ht₁, hext₁, hleaf₁, htwin₁, hlast⟩ := h
  cases table with
  | none =>
    refine ⟨p₁, use₁, none, withTable_of_none heq, ht₁, hext₁, hleaf₁, fun m hm => ?_, nofun⟩
    obtain ⟨m', heq', hm'⟩ := htwin₁ m hm
    exact ⟨m', withTable_of_none heq', hm'⟩
  | some t =>
    obtain ⟨c, rfl, hc⟩ := hlast t rfl
    have hr₁ := (hext₁.keep r (ne_idle_of_node hr)).trans hr
    obtain ⟨p₂, use₂, table, heq₂, ht₂, hext₂, hleaf₂, htwin₂, hlast₂⟩ := hnext p₁ use₁ c ht₁ hr₁ hc
    refine ⟨p₂, use₂, table, (withTable_of_some heq).trans heq₂, ht₂, hext₁.trans hext₂,
      fun v => (hleaf₂ v).trans (hleaf₁ v), fun m hm => ?_, hlast₂⟩
    obtain ⟨m₁, heq₁', hm₁, hdata₁⟩ := htwin₁ m hm
    obtain ⟨m₂, heq₂', hm₂, hdata₂⟩ := htwin₂ m₁ hm₁
    exact ⟨m₂, (withTable_of_some heq₁').trans heq₂', hm₂, hdata₁.trans hdata₂ hext₂⟩

theorem walks_ensureTables (ht : Tables lay p use) (hr : use r = .node tree [])
    (hu : ¬ tree < pmmMaxFrames) {virt : ℕ} (flags : ℕ) (hk : kernelSlot (pml4Index virt) = false) :
    Walks lay tree r p use [pml4Index virt, pdptIndex virt, pdIndex virt] fun p =>
      ensureTables p (r * frameBytes) virt flags := by
  have hlev : levels tree = 4 := levels_of_space hu
  have hin {q : List ℕ} {i : ℕ} (hq : q ≠ []) (hlt : q.length < 3) : spaceScope lay tree q i :=
    spaceScope_inner hu hq (by unfold depth; omega)
  refine (walks_child ht hr hu flags hr (by rw [hlev]; decide) (pml4Index_lt virt)
    (spaceScope_root hu hk)).seq hr
    fun p₁ use₁ c₁ ht₁ hr₁ hc₁ => ?_
  refine (walks_child ht₁ hr₁ hu flags hc₁ (by rw [hlev]; simp) (pdptIndex_lt virt)
    (hin (by simp) (by simp))).seq hr₁
    fun p₂ use₂ c₂ ht₂ hr₂ hc₂ => ?_
  exact walks_child ht₂ hr₂ hu flags hc₂ (by rw [hlev]; simp) (pdIndex_lt virt)
    (hin (by simp) (by simp))

end Walks

/-- What a step does that maps pages of the user half of a space, the pages being held by
its owner: tables are added to the space, the given leaves are set if all went well, and
every twin does the same. -/
structure Maps (lay : Layout) (tree r : ℕ) (leaf : ℕ → Option ℕ) (step : Paging →
    Paging × Bool) (p p' : Paging)
    (use use' : ℕ → Use) (done : Bool) : Prop where
  eq : step p = (p', done)
  tables : Tables lay p' use'
  grown : Extends (growing tree) p p' use use'
  leaves : done = true → ∀ v, leafOf p'.mem (r * frameBytes) v =
    (leaf v).getD (leafOf p.mem (r * frameBytes) v)
  twin : ∀ m, Twin use p m →
    ∃ m', step ⟨m, p.pmm⟩ = (⟨m', p'.pmm⟩, done) ∧ Twin use' p' m' ∧ KeepsData use' m m'

section Maps
variable {lay : Layout} {tree r : ℕ} {p : Paging} {use : ℕ → Use}

/-- The leaf a mapping sets. -/
def pageLeaf (virt phys flags v : ℕ) : Option ℕ :=
  if pageOf v = pageOf virt then some (leafEntry phys flags) else none

theorem mapPage_maps (ht : Tables lay p use) (hpages : ¬ lay.pages) {virt flags : ℕ} (phys : ℕ)
    (hr : use r = .node tree []) (hu : ¬ tree < pmmMaxFrames)
    (hk : kernelSlot (pml4Index virt) = false) (hflags : flags < 2 ^ 64) :
    ∃ p' use' done, Maps lay tree r (pageLeaf virt phys flags)
      (fun p => mapPage p (r * frameBytes) virt phys flags) p p' use use' done := by
  obtain ⟨p₁, use₁, table, heq, ht₁, hext, hleaf, htwin, hlast⟩ :=
    walks_ensureTables ht hr hu flags hk
  unfold mapPage
  cases table with
  | none =>
    refine ⟨p₁, use₁, false, withTable_of_none heq, ht₁, hext, fun h => absurd h Bool.false_ne_true,
      fun m hm => ?_⟩
    obtain ⟨m', heq', hm'⟩ := htwin m hm
    exact ⟨m', withTable_of_none heq', hm'⟩
  | some t =>
    obtain ⟨c, rfl, hc⟩ := hlast t rfl
    have hr₁ := (hext.keep r (ne_idle_of_node hr)).trans hr
    obtain ⟨ht₂, hext₂⟩ := storeUser_spec ht₁ hpages hu hc (leafEntry phys flags)
    refine ⟨_, use₁, true, withTable_of_some heq, ht₂,
      hext.trans (hext₂.mono (fun _ => False.elim) (fun _ _ h => h) (fun _ _ => trivial)),
        fun _ v => ?_, fun m hm => ?_⟩
    · unfold pageLeaf
      by_cases hv : pageOf v = pageOf virt
      · have hself := entry_setEntry_self p₁.mem (c * frameBytes) (ptIndex virt)
          (leafEntry_spec phys hflags).1
        rw [if_pos hv, Option.getD_some, leafOf_page _ _ hv]
        refine (leafOf_at ht₁ hr₁ hc fun f q i hf hlen hi => ?_).trans hself
        apply entry_leaf_of_ne (user_last hu hc) _ hf hi
        rintro ⟨_, rfl, _⟩
        exact absurd hlen (by simp)
      · rw [if_neg hv, Option.getD_none, leafOf_leaf_user ht₁ hu hc _ hr₁ hv, hleaf]
    · obtain ⟨m', heq', hm', hdata⟩ := htwin m hm
      refine ⟨setEntry m' (c * frameBytes) (ptIndex virt) (leafEntry phys flags),
        (withTable_of_some heq').trans rfl, fun x hx => setEntry_agree _ _ _ (hm' x hx), fun x hx =>
          ?_⟩
      rw [setEntry_of_frame _ _ (ptIndex_lt virt), hdata x hx]
      exact fun hxc => hx (hxc ▸ ⟨_, _, hc, by simp [depth]⟩)

lemma Maps.refl (ht : Tables lay p use) : Maps lay tree r (fun _ => none)
    (fun p => (p, true)) p p use use true where
  eq := rfl
  tables := ht
  grown := Extends.refl ht _
  leaves := fun _ _ => Option.getD_none.symm
  twin := fun m hm => ⟨m, rfl, hm, fun _ _ => rfl⟩

/-- Go on after a mapping that went well. -/
lemma Maps.seq {p₁ : Paging} {use₁ : ℕ → Use} {done : Bool} {leaf leaf' : ℕ → Option ℕ}
    {step next : Paging → Paging × Bool} (h : Maps lay tree r leaf step p p₁ use use₁ done)
    (hnext : done = true → ∃ p₂ use₂ done₂, Maps lay tree r leaf' next p₁ p₂ use₁ use₂ done₂) :
    ∃ p₂ use₂ done₂, Maps lay tree r (fun v => (leaf' v).or (leaf v))
      (fun p => if (step p).2 then next (step p).1 else step p) p p₂ use use₂ done₂ := by
  cases done with
  | false =>
    refine ⟨p₁, use₁, false, by rw [h.eq]; rfl, h.tables, h.grown,
      fun hd => absurd hd Bool.false_ne_true, fun m hm => ?_⟩
    obtain ⟨m', heq', hm'⟩ := h.twin m hm
    exact ⟨m', by rw [heq']; rfl, hm'⟩
  | true =>
    obtain ⟨p₂, use₂, done₂, h₂⟩ := hnext rfl
    refine ⟨p₂, use₂, done₂, by rw [h.eq]; exact h₂.eq, h₂.tables, h.grown.trans h₂.grown,
      fun hd v => ?_, fun m hm => ?_⟩
    · rw [h₂.leaves hd, h.leaves rfl]
      cases leaf' v with
      | none => rw [Option.none_or, Option.getD_none]
      | some e => rw [Option.some_or, Option.getD_some, Option.getD_some]
    · obtain ⟨m₁, heq₁, hm₁, hdata₁⟩ := h.twin m hm
      obtain ⟨m₂, heq₂, hm₂, hdata₂⟩ := h₂.twin m₁ hm₁
      exact ⟨m₂, by rw [heq₁]; exact heq₂, hm₂, hdata₁.trans hdata₂ h₂.grown⟩

end Maps

end TraitOS.Tvmm
