import TraitOS.Tvmm

/-!
# Page tables and the frame pool

The trees of page tables in memory share one physical memory with the frame pool
they are built from. `Tables` is the invariant that keeps them apart: every frame
with a use is out of the pool. An address space is a tree of four levels of which
only the user slots are its own; what hangs below a PML4 entry of the kernel half
is a tree of three levels that several roots may point to. Walks that create
tables on their way only add tables from the pool (`Extends`), and no lookup sees
the difference.
-/
namespace TraitOS.Tvmm
open ByteMemory PageTable Tpmm Tstring

variable {lay : Layout} {m : Memory} {p : Paging} {use : ℕ → Use} {c g j e tree : ℕ} {q : List ℕ}

/-- What the description of the tables leaves out: the 2 MiB regions of kernel trees
that are mapped by one large leaf (tree, PDPT index and PD index), and, unless
`pages`, who holds the pages of the user half. -/
structure Layout where
  leaf : ℕ → ℕ → ℕ → Prop
  pages : Prop

/-- Kernel trees are named by the frame of their PDPT, address spaces by numbers
above all frames. Pages of the kernel half are not owned by their trees. -/
def spaceScope (lay : Layout) : Scope := fun tree path i =>
  if tree < pmmMaxFrames then
    match path with
    | [] => True
    | [b] => ¬ lay.leaf tree b i
    | _ => False
  else (path = [] → kernelSlot i = false) ∧ (path.length + 1 = depth → lay.pages)

lemma spaceScope_space {tree i : ℕ} (hu : ¬ tree < pmmMaxFrames) :
    spaceScope lay tree q i ↔
      (q = [] → kernelSlot i = false) ∧ (q.length + 1 = depth → lay.pages) := by
  unfold spaceScope
  rw [if_neg hu]

lemma spaceScope_root {tree i : ℕ} (hu : ¬ tree < pmmMaxFrames) (hk : kernelSlot i = false) :
    spaceScope lay tree [] i :=
  (spaceScope_space hu).mpr ⟨fun _ => hk, fun h => absurd h (by decide)⟩

lemma spaceScope_inner {tree i : ℕ} (hu : ¬ tree < pmmMaxFrames) (hq : q ≠ [])
    (hlen : q.length + 1 < depth) : spaceScope lay tree q i :=
  (spaceScope_space hu).mpr ⟨fun h => absurd h hq, fun h => absurd h hlen.ne⟩

/-- Number of table levels of a tree. -/
def levels (tree : ℕ) : ℕ := if tree < pmmMaxFrames then 3 else depth

/-- Some address space reaches the kernel tree `k` through its PML4 entry `i`. -/
def Hangs (m : Memory) (use : ℕ → Use) (i k : ℕ) : Prop :=
  ∃ r tree, use r = .node tree [] ∧ ¬ tree < pmmMaxFrames ∧ i < entries ∧ kernelSlot i = true ∧
    present (entry m (r * frameBytes) i) = true ∧ frameNo (entry m (r * frameBytes) i) = k

structure Tables (lay : Layout) (p : Paging) (use : ℕ → Use) : Prop where
  owned : Owned (spaceScope lay) p.mem use
  valid : Valid p.pmm
  held : ∀ f, use f ≠ .idle → f ∉ freeSet p.pmm
  nonzero : use 0 = .idle
  managed : ∀ f, use f ≠ .idle → f < p.pmm.totalFrames
  low : ∀ f tree path, use f = .node tree path → path.length < depth → f < lowFrames
  named : ∀ f tree, use f = .node tree [] → tree < pmmMaxFrames → tree = f
  shared : ∀ i k, Hangs p.mem use i k → use k = .node k []
  single : ∀ i i' k, Hangs p.mem use i k → Hangs p.mem use i' k → i = i'
  leaves : ∀ tree b i, lay.leaf tree b i → i < entries → ∃ f, use f = .node tree [b] ∧
    present (entry p.mem (f * frameBytes) i) = true ∧ large (entry p.mem (f * frameBytes) i) = true

/-- Frames that hold page tables. -/
def IsTable (u : Use) : Prop := ∃ tree path, u = .node tree path ∧ path.length < depth

/-- What a step may do to the tables: the trees it adds to, the PML4 entries it
wires, and the addresses whose translation it may change. -/
structure Effect where
  grows : ℕ → Prop
  wires : ℕ → ℕ → Prop
  moves : ℕ → Prop

/-- Tables were added, from the pool, and nothing else happened beyond the effect:
no frame changed hands, nothing but tables changed its bytes, no lookup its
result. -/
structure Extends (fx : Effect) (p p' : Paging) (use use' : ℕ → Use) : Prop where
  keep : ∀ f, use f ≠ .idle → use' f = use f
  fresh : ∀ f, use f = .idle → use' f ≠ .idle →
    f ∈ freeSet p.pmm ∧ ∃ tree path, fx.grows tree ∧ path.length < levels tree ∧
      use' f = .node tree path
  pool : ∀ f, f ∈ freeSet p'.pmm ↔ f ∈ freeSet p.pmm ∧ use' f = .idle
  total : p'.pmm.totalFrames = p.pmm.totalFrames
  content : ∀ x, ¬ IsTable (use' (x / frameBytes)) → p'.mem x = p.mem x
  roots : ∀ r tree i, use r = .node tree [] → ¬ tree < pmmMaxFrames → i < entries →
    kernelSlot i = true → ¬ fx.wires r i →
    entry p'.mem (r * frameBytes) i = entry p.mem (r * frameBytes) i
  lookups : ∀ r tree virt, use r = .node tree [] → ¬ tree < pmmMaxFrames → ¬ fx.moves virt →
    physOf p'.mem (r * frameBytes) virt = physOf p.mem (r * frameBytes) virt

lemma ne_idle_of_node {u : Use} {tree : ℕ} {path : List ℕ} (h : u = .node tree path) :
    u ≠ .idle := by
  rw [h]
  exact Use.noConfusion

theorem Tables.idle_of_free (ht : Tables lay p use) {f : ℕ} (hf : f ∈ freeSet p.pmm) :
    use f = .idle := by
  by_contra hne
  exact ht.held f hne hf

/-- Only the pool changed, and no frame in use became free. -/
theorem Tables.setPool (ht : Tables lay p use) {s : Pmm} (hv : Valid s)
    (htot : s.totalFrames = p.pmm.totalFrames) (hheld : ∀ f, use f ≠ .idle → f ∉ freeSet s) :
    Tables lay { p with pmm := s } use :=
  { ht with valid := hv, held := hheld, managed := fun f hf => htot.symm ▸ ht.managed f hf }

theorem Tables.small (ht : Tables lay p use) (f : ℕ) (hf : use f ≠ .idle) :
    f < pmmMaxFrames := (ht.managed f hf).trans_le ht.valid.total_le

theorem Tables.ne_zero (ht : Tables lay p use) {f : ℕ} (hf : use f ≠ .idle) : f ≠ 0 := by
  rintro rfl
  exact hf ht.nonzero

/-- The tree behind a kernel slot that is present. -/
theorem Tables.slots (ht : Tables lay p use) (r tree i : ℕ) (hr : use r = .node tree [])
    (hu : ¬ tree < pmmMaxFrames) (hi : i < entries) (hk : kernelSlot i = true)
    (hp : present (entry p.mem (r * frameBytes) i) = true) :
    use (frameNo (entry p.mem (r * frameBytes) i)) =
      .node (frameNo (entry p.mem (r * frameBytes) i)) [] :=
  ht.shared i _ ⟨r, tree, hr, hu, hi, hk, hp, rfl⟩

theorem Extends.refl (ht : Tables lay p use)
    (fx : Effect) : Extends fx p p use use where
  keep := fun _ _ => rfl
  fresh := fun _ h h' => absurd h h'
  pool := fun _ => ⟨fun h => ⟨h, ht.idle_of_free h⟩, fun h => h.1⟩
  total := rfl
  content := fun _ _ => rfl
  roots := fun _ _ _ _ _ _ _ _ => rfl
  lookups := fun _ _ _ _ _ _ => rfl

theorem Extends.trans {fx : Effect} {p p' p'' : Paging} {use use' use'' : ℕ → Use}
    (h : Extends fx p p' use use') (h' : Extends fx p' p'' use' use'') :
    Extends fx p p'' use use'' where
  keep := fun f hf => by
    have hk := h.keep f hf
    rw [h'.keep f (hk ▸ hf), hk]
  fresh := fun f hf hf'' => by
    by_cases hmid : use' f = .idle
    · obtain ⟨hfree, hpath⟩ := h'.fresh f hmid hf''
      exact ⟨((h.pool f).mp hfree).1, hpath⟩
    · obtain ⟨hfree, tree, path, hgrow, hlen, hpath⟩ := h.fresh f hf hmid
      exact ⟨hfree, tree, path, hgrow, hlen, (h'.keep f hmid).trans hpath⟩
  pool := fun f => by
    rw [h'.pool, h.pool]
    constructor
    · rintro ⟨⟨hf, _⟩, hidle⟩
      exact ⟨hf, hidle⟩
    · rintro ⟨hf, hidle⟩
      refine ⟨⟨hf, ?_⟩, hidle⟩
      by_contra hne
      exact hne ((h'.keep f hne).symm.trans hidle)
  total := h'.total.trans h.total
  content := fun x hx => by
    have hmid : ¬ IsTable (use' (x / frameBytes)) := by
      rintro ⟨tree, path, hpath, hlen⟩
      exact hx ⟨tree, path, (h'.keep _ (ne_idle_of_node hpath)).trans hpath, hlen⟩
    rw [h'.content x hx, h.content x hmid]
  roots := fun r tree i hr hu hi hk hw => by
    have hr' := (h.keep r (ne_idle_of_node hr)).trans hr
    rw [h'.roots r tree i hr' hu hi hk hw, h.roots r tree i hr hu hi hk hw]
  lookups := fun r tree virt hr hu hv => by
    have hr' := (h.keep r (ne_idle_of_node hr)).trans hr
    rw [h'.lookups r tree virt hr' hu hv, h.lookups r tree virt hr hu hv]

theorem Extends.mono {fx fx' : Effect} {p p' : Paging} {use use' : ℕ → Use}
    (h : Extends fx p p' use use') (hg : ∀ t, fx.grows t → fx'.grows t)
    (hw : ∀ r i, fx.wires r i → fx'.wires r i) (hm : ∀ v, fx.moves v → fx'.moves v) :
    Extends fx' p p' use use' :=
  { h with
    fresh := fun f hf hf' => by
      obtain ⟨hfree, tree, path, hgrow, hrest⟩ := h.fresh f hf hf'
      exact ⟨hfree, tree, path, hg tree hgrow, hrest⟩
    roots := fun r tree i hr hu hi hk hnw =>
      h.roots r tree i hr hu hi hk (fun hwi => hnw (hw r i hwi))
    lookups := fun r tree virt hr hu hv =>
      h.lookups r tree virt hr hu (fun hmv => hv (hm virt hmv)) }

/-! ## A table entry for a fresh frame -/

/-- The entry that wires a table. -/
def tableEntry (frame flags : ℕ) : ℕ := frame ||| pagePresent ||| pageWrite ||| (flags &&& pageUser)

lemma target_and_four (flags : ℕ) : target (flags &&& pageUser) = 0 := by
  have h4 : pageUser &&& addrMask = 0 := by decide
  unfold target
  rw [Nat.and_assoc, h4, Nat.and_zero]

lemma frameNo_eq_of_target {e f : ℕ} (h : target e = f * frameBytes) : frameNo e = f := by
  rw [target_eq_frameNo] at h
  exact Nat.eq_of_mul_eq_mul_right (by decide) h

theorem tableEntry_spec {f : ℕ} (flags : ℕ) (hf : f < 2 ^ 40) :
    tableEntry (f * frameBytes) flags < 2 ^ 64 ∧ present (tableEntry (f * frameBytes) flags) =
      true ∧ large (tableEntry (f * frameBytes) flags) = false ∧
      frameNo (tableEntry (f * frameBytes) flags) = f := by
  have h4 : flags &&& pageUser ≤ 4 := Nat.and_le_right
  have hfl : f * frameBytes < 2 ^ 64 := by unfold frameBytes; omega
  unfold tableEntry
  refine ⟨?_, ?_, ?_, ?_⟩
  · have h1 := Nat.or_lt_two_pow hfl (show pagePresent < 2 ^ 64 by decide)
    have h2 := Nat.or_lt_two_pow h1 (show pageWrite < 2 ^ 64 by decide)
    exact Nat.or_lt_two_pow h2 (by omega)
  · have hone : present pagePresent = true := by decide
    simp only [present_or, hone, Bool.or_true, Bool.true_or]
  · have hone : large pagePresent = false := by decide
    have htwo : large pageWrite = false := by decide
    have hfour : large (flags &&& pageUser) = false := by
      rw [large_eq_testBit]
      exact Nat.testBit_lt_two_pow (by omega)
    simp only [large_or, large_frame, hone, htwo, hfour, Bool.or_false]
  · apply frameNo_eq_of_target
    have hone : target pagePresent = 0 := by decide
    have htwo : target pageWrite = 0 := by decide
    simp only [target_or, target_frame hf, hone, htwo, target_and_four, Nat.or_zero]

/-! ## Lookups below a PML4 entry -/

lemma pml4Index_lt (virt : ℕ) : pml4Index virt < entries := by
  unfold pml4Index
  exact index_lt _ virt

lemma pdptIndex_lt (virt : ℕ) : pdptIndex virt < entries := by
  unfold pdptIndex
  exact index_lt _ virt

lemma pdIndex_lt (virt : ℕ) : pdIndex virt < entries := by
  unfold pdIndex
  exact index_lt _ virt

lemma ptIndex_lt (virt : ℕ) : ptIndex virt < entries := by
  unfold ptIndex
  exact index_lt _ virt



lemma tableLookup_of_present {table i : ℕ} (h : present (entry m table i) = true) :
    tableLookup m table i = some (target (entry m table i)) := if_pos h

lemma tableLookup_of_absent {table i : ℕ} (h : present (entry m table i) = false) :
    tableLookup m table i = none := if_neg (by rw [h]; exact Bool.false_ne_true)

/-- A lookup from the PD on. -/
def physInPd (m : Memory) (pd virt : ℕ) : Option ℕ :=
  if large (entry m pd (pdIndex virt)) then some (target (entry m pd (pdIndex virt)))
  else (tableLookup m pd (pdIndex virt)).bind fun pt => tableLookup m pt (ptIndex virt)

/-- A lookup from the PDPT on. -/
def physBelow (m : Memory) (pdpt virt : ℕ) : Option ℕ :=
  (tableLookup m pdpt (pdptIndex virt)).bind fun pd => physInPd m pd virt

theorem physOf_eq (m : Memory) (root virt : ℕ) :
    physOf m root virt =
      (tableLookup m root (pml4Index virt)).bind fun pdpt => physBelow m pdpt virt := rfl

lemma tableLookup_congr {m m' : Memory} {table i : ℕ} (h : entry m' table i = entry m table i) :
    tableLookup m' table i = tableLookup m table i := by
  unfold tableLookup
  rw [h]

lemma physOf_of_absent {root virt : ℕ} (h : present (entry m root (pml4Index virt)) = false) :
    physOf m root virt = none := by
  rw [physOf_eq, tableLookup_of_absent h, Option.bind_none]

lemma physOf_of_present {root virt : ℕ} (h : present (entry m root (pml4Index virt)) = true) :
    physOf m root virt =
      physBelow m (frameNo (entry m root (pml4Index virt)) * frameBytes) virt := by
  rw [physOf_eq, tableLookup_of_present h, Option.bind_some, target_eq_frameNo]

lemma physBelow_of_absent {pdpt virt : ℕ} (h : present (entry m pdpt (pdptIndex virt)) = false) :
    physBelow m pdpt virt = none := by
  rw [physBelow, tableLookup_of_absent h, Option.bind_none]

lemma physBelow_of_present {pdpt virt : ℕ} (h : present (entry m pdpt (pdptIndex virt)) = true) :
    physBelow m pdpt virt =
      physInPd m (frameNo (entry m pdpt (pdptIndex virt)) * frameBytes) virt := by
  rw [physBelow, tableLookup_of_present h, Option.bind_some, target_eq_frameNo]

lemma physInPd_of_large {pd virt : ℕ} (h : large (entry m pd (pdIndex virt)) = true) :
    physInPd m pd virt = some (target (entry m pd (pdIndex virt))) := if_pos h

lemma physInPd_of_absent {pd virt : ℕ} (hl : large (entry m pd (pdIndex virt)) = false)
    (h : present (entry m pd (pdIndex virt)) = false) : physInPd m pd virt = none := by
  unfold physInPd
  rw [if_neg (by rw [hl]; exact Bool.false_ne_true), tableLookup_of_absent h, Option.bind_none]

lemma physInPd_of_present {pd virt : ℕ} (hl : large (entry m pd (pdIndex virt)) = false)
    (h : present (entry m pd (pdIndex virt)) = true) :
    physInPd m pd virt =
      tableLookup m (frameNo (entry m pd (pdIndex virt)) * frameBytes) (ptIndex virt) := by
  unfold physInPd
  rw [if_neg (by rw [hl]; exact Bool.false_ne_true), tableLookup_of_present h, Option.bind_some,
    target_eq_frameNo]

/-! ## Creating tables on the way -/

/-- A single frame granted from the pool. -/
lemma granted_one {s : Pmm} {r : Pmm × ℕ} (hv : Valid s) (h : AllocSpec s r 1) (h0 : r.2 ≠ 0) :
    ∃ c, r.2 = c * frameBytes ∧ c ∈ freeSet s ∧ c ≠ 0 ∧ freeSet r.1 = (freeSet s).erase c := by
  obtain ⟨hal, _, hsub, hset⟩ := h.granted hv h0
  have hone : grantFrames r.2 1 = {r.2 / pageSize} := Nat.Ico_succ_singleton _
  rw [hone] at hsub hset
  have hmem := Finset.singleton_subset_iff.mp hsub
  refine ⟨r.2 / pageSize, ?_, hmem, fun hz => hv.zero_used (hz ▸ hmem), ?_⟩
  · exact (Nat.div_mul_cancel (Nat.dvd_of_mod_eq_zero hal)).symm
  · rw [hset, Finset.sdiff_singleton_eq_erase]

lemma free_lt {s : Pmm} (hv : Valid s) {f : ℕ} (hf : f ∈ freeSet s) : f < pmmMaxFrames :=
  ((mem_freeSet s f).mp hf).1.trans_le hv.total_le

@[simp] theorem withTable_none {β : Type*} (p : Paging) (failed : β)
    (next : Paging → ℕ → Paging × β) : withTable (p, none) failed next = (p, failed) := rfl

@[simp] theorem withTable_some {β : Type*} (p : Paging) (table : ℕ) (failed : β)
    (next : Paging → ℕ → Paging × β) :
    withTable (p, some table) failed next = next p table := rfl

/-- A cleared frame wired as the table behind an entry. -/
def wired (m : Memory) (c g j e : ℕ) : Memory :=
  setEntry (fill m (c * frameBytes) frameBytes 0) (g * frameBytes) j e

lemma entry_wired_new (m : Memory) {c g i j : ℕ} (e : ℕ) (hi : i < entries) (hj : j < entries)
    (hcg : c ≠ g) : entry (wired m c g j e) (c * frameBytes) i = 0 := by
  unfold wired
  rw [entry_setEntry_of_ne _ _ hi hj (Or.inl hcg), entry_fill_self m c hi]

lemma entry_wired_self (m : Memory) (c g j : ℕ) {e : ℕ} (he : e < 2 ^ 64) :
    entry (wired m c g j e) (g * frameBytes) j = e := entry_setEntry_self _ _ _ he

lemma entry_wired_of_ne (m : Memory) {c f g i j : ℕ} (e : ℕ) (hi : i < entries) (hj : j < entries)
    (hfc : f ≠ c) (h : f ≠ g ∨ i ≠ j) :
    entry (wired m c g j e) (f * frameBytes) i = entry m (f * frameBytes) i := by
  unfold wired
  rw [entry_setEntry_of_ne _ _ hi hj h, entry_fill_of_ne m hi hfc]

/-- What makes a wiring invisible: the entry belonged to a table above the last
level and was empty, and the frame is nobody's. -/
structure Wiring (lay : Layout) (p : Paging) (use : ℕ → Use) (c g j e tree : ℕ)
    (q : List ℕ) : Prop where
  node : use g = .node tree q
  level : q.length + 1 < levels tree
  index : j < entries
  absent : present (entry p.mem (g * frameBytes) j) = false
  plain : q.length + 2 = levels tree → large (entry p.mem (g * frameBytes) j) = false
  idle : use c = .idle
  lt : e < 2 ^ 64
  present : present e = true
  small : large e = false
  frame : frameNo e = c

theorem Wiring.ne (hw : Wiring lay p use c g j e tree q) {f t : ℕ} {path : List ℕ}
    (hf : use f = .node t path) : f ≠ c := by
  intro heq
  rw [heq, hw.idle] at hf
  exact Use.noConfusion hf

lemma spaceScope_of_not_large (ht : Tables lay p use) {f t i : ℕ} (hf : use f = .node t q)
    (hlen : q.length + 2 = levels t) (hi : i < entries)
    (hl : large (entry p.mem (f * frameBytes) i) = false) : spaceScope lay t q i := by
  unfold levels at hlen
  by_cases hk : t < pmmMaxFrames
  · unfold spaceScope
    rw [if_pos hk] at hlen ⊢
    obtain ⟨b, rfl⟩ := List.length_eq_one_iff.mp (by omega : q.length = 1)
    intro hcov
    obtain ⟨f', hf', _, hlarge⟩ := ht.leaves t b i hcov hi
    rw [ht.owned.unique t [b] f' f hf' hf, hl] at hlarge
    exact Bool.false_ne_true hlarge
  · rw [if_neg hk] at hlen
    apply spaceScope_inner hk _ (by omega)
    rintro rfl
    exact absurd hlen (by decide)

theorem physInPd_wired (ht : Tables lay p use) (hw : Wiring lay p use c g j e tree q) {f t virt : ℕ}
    {qf : List ℕ} (hf : use f = .node t qf) (hlen : qf.length + 2 = levels t) :
    physInPd (wired p.mem c g j e) (f * frameBytes) virt =
      physInPd p.mem (f * frameBytes) virt := by
  have hi := pdIndex_lt virt
  have hcg : c ≠ g := (hw.ne hw.node).symm
  by_cases hhit : f = g ∧ pdIndex virt = j
  · obtain ⟨rfl, rfl⟩ := hhit
    have hself := entry_wired_self p.mem c f (pdIndex virt) hw.lt
    have hlevel : q.length + 2 = levels tree := by
      rw [hw.node] at hf
      cases hf
      exact hlen
    rw [physInPd_of_absent (hw.plain hlevel) hw.absent,
      physInPd_of_present (by rw [hself]; exact hw.small) (by rw [hself]; exact hw.present), hself,
      hw.frame, tableLookup_of_absent]
    rw [entry_wired_new p.mem e (ptIndex_lt virt) hi hcg]
    decide
  · have hsame := entry_wired_of_ne p.mem e hi hw.index (hw.ne hf) (by tauto)
    cases hl : large (entry p.mem (f * frameBytes) (pdIndex virt)) with
    | true => rw [physInPd_of_large hl, physInPd_of_large (by rw [hsame, hl]), hsame]
    | false =>
      cases hp : present (entry p.mem (f * frameBytes) (pdIndex virt)) with
      | false => rw [physInPd_of_absent hl hp, physInPd_of_absent (by rw [hsame, hl])
        (by rw [hsame, hp])]
      | true =>
        have hlt : qf.length < depth := by
          unfold levels at hlen
          split_ifs at hlen <;> simp only [depth] at * <;> omega
        have hchild := ht.owned.down f t qf _ hf hlt hi (spaceScope_of_not_large ht hf hlen hi hl)
          hp
        rw [physInPd_of_present hl hp, physInPd_of_present (by rw [hsame, hl]) (by rw [hsame, hp]),
          hsame]
        apply tableLookup_congr
        apply entry_wired_of_ne p.mem e (ptIndex_lt virt) hw.index (hw.ne hchild)
        left
        intro heq
        rw [heq, hw.node] at hchild
        obtain ⟨rfl, hq⟩ := Use.node.inj hchild
        have hlevel := hw.level
        rw [hq, List.length_append, List.length_singleton] at hlevel
        omega

lemma levels_le (tree : ℕ) : levels tree ≤ depth := by
  unfold levels depth
  split_ifs <;> omega

/-- Entries of a PDPT of either kind of tree are described. -/
lemma spaceScope_pdpt {t i : ℕ} (hlen : q.length + 3 = levels t) : spaceScope lay t q i := by
  unfold levels at hlen
  by_cases hk : t < pmmMaxFrames
  · unfold spaceScope
    rw [if_pos hk] at hlen ⊢
    obtain rfl := List.length_eq_zero_iff.mp (by omega : q.length = 0)
    trivial
  · rw [if_neg hk] at hlen
    apply spaceScope_inner hk _ (by omega)
    rintro rfl
    exact absurd hlen (by decide)

theorem physBelow_wired (ht : Tables lay p use) (hw : Wiring lay p use c g j e tree q)
    {f t virt : ℕ} {qf : List ℕ} (hf : use f = .node t qf) (hlen : qf.length + 3 = levels t) :
    physBelow (wired p.mem c g j e) (f * frameBytes) virt =
      physBelow p.mem (f * frameBytes) virt := by
  have hi := pdptIndex_lt virt
  have hcg : c ≠ g := (hw.ne hw.node).symm
  by_cases hhit : f = g ∧ pdptIndex virt = j
  · obtain ⟨rfl, rfl⟩ := hhit
    have hself := entry_wired_self p.mem c f (pdptIndex virt) hw.lt
    have hzero := entry_wired_new p.mem e (pdIndex_lt virt) hi hcg
    rw [physBelow_of_absent hw.absent, physBelow_of_present (by rw [hself]; exact hw.present),
      hself, hw.frame, physInPd_of_absent (by rw [hzero]; decide) (by rw [hzero]; decide)]
  · have hsame := entry_wired_of_ne p.mem e hi hw.index (hw.ne hf) (by tauto)
    cases hp : present (entry p.mem (f * frameBytes) (pdptIndex virt)) with
    | false => rw [physBelow_of_absent hp, physBelow_of_absent (by rw [hsame, hp])]
    | true =>
      have hlt : qf.length < depth := by have := levels_le t; omega
      have hchild := ht.owned.down f t qf _ hf hlt hi (spaceScope_pdpt hlen) hp
      rw [physBelow_of_present hp, physBelow_of_present (by rw [hsame, hp]), hsame]
      apply physInPd_wired ht hw hchild
      rw [List.length_append, List.length_singleton]
      omega

lemma levels_of_space {t : ℕ} (h : ¬ t < pmmMaxFrames) : levels t = depth := if_neg h
lemma levels_of_kernel {t : ℕ} (h : t < pmmMaxFrames) : levels t = 3 := if_pos h

/-- The PDPT behind a present entry of a root, whichever half it is in. -/
theorem Tables.pdpt (ht : Tables lay p use) {r tree i : ℕ} (hr : use r = .node tree [])
    (hu : ¬ tree < pmmMaxFrames) (hi : i < entries)
    (hp : present (entry p.mem (r * frameBytes) i) = true) :
    ∃ t q, use (frameNo (entry p.mem (r * frameBytes) i)) = .node t q ∧
      q.length + 3 = levels t := by
  cases hk : kernelSlot i with
  | true =>
    have hnode := ht.slots r tree i hr hu hi hk hp
    have hsmall := ht.small _ (ne_idle_of_node hnode)
    exact ⟨_, [], hnode, (levels_of_kernel hsmall).symm⟩
  | false =>
    have hnode := ht.owned.down r tree [] i hr (by decide) hi (spaceScope_root hu hk) hp
    exact ⟨tree, [] ++ [i], hnode, (levels_of_space hu).symm⟩

theorem physOf_wired (ht : Tables lay p use) (hw : Wiring lay p use c g j e tree q) {r t : ℕ}
    (virt : ℕ) (hr : use r = .node t []) (hu : ¬ t < pmmMaxFrames) :
    physOf (wired p.mem c g j e) (r * frameBytes) virt = physOf p.mem (r * frameBytes) virt := by
  have hi := pml4Index_lt virt
  have hcg : c ≠ g := (hw.ne hw.node).symm
  by_cases hhit : r = g ∧ pml4Index virt = j
  · obtain ⟨rfl, rfl⟩ := hhit
    have hself := entry_wired_self p.mem c r (pml4Index virt) hw.lt
    rw [physOf_of_absent hw.absent, physOf_of_present (by rw [hself]; exact hw.present), hself,
      hw.frame, physBelow_of_absent]
    rw [entry_wired_new p.mem e (pdptIndex_lt virt) hi hcg]
    decide
  · have hsame := entry_wired_of_ne p.mem e hi hw.index (hw.ne hr) (by tauto)
    cases hp : present (entry p.mem (r * frameBytes) (pml4Index virt)) with
    | false => rw [physOf_of_absent hp, physOf_of_absent (by rw [hsame, hp])]
    | true =>
      obtain ⟨t', q', hchild, hlen⟩ := ht.pdpt hr hu hi hp
      rw [physOf_of_present hp, physOf_of_present (by rw [hsame, hp]), hsame]
      exact physBelow_wired ht hw hchild hlen

lemma Wiring.not_isNode (hw : Wiring lay p use c g j e tree q) : ¬ IsNode (use c) := by
  rw [hw.idle]
  exact id

lemma Wiring.length_lt (hw : Wiring lay p use c g j e tree q) : q.length + 1 < depth :=
  lt_of_lt_of_le hw.level (levels_le tree)

lemma owned_cleared (ht : Tables lay p use) {c : ℕ} (hc : use c = .idle) :
    Owned (spaceScope lay) (fill p.mem (c * frameBytes) frameBytes 0) use := by
  apply ht.owned.congr
  · intro f t path i hf hi _
    apply entry_fill_of_ne p.mem hi
    intro heq
    rw [heq, hc] at hf
    exact Use.noConfusion hf
  · exact fun _ _ _ => Iff.rfl

/-- A table wired inside a tree becomes its node. -/
lemma owned_wired_tree (ht : Tables lay p use) (hw : Wiring lay p use c g j e tree q)
    (hin : spaceScope lay tree q j) :
    Owned (spaceScope lay) (wired p.mem c g j e)
      (Function.update use c (.node tree (q ++ [j]))) := by
  have hgc := hw.ne hw.node
  apply (owned_cleared ht hw.idle).link hw.node (by have := hw.length_lt; omega) hw.index hin
  · rw [entry_fill_of_ne p.mem hw.index hgc]
    exact hw.absent
  · exact hw.not_isNode
  · exact hw.lt
  · exact hw.present
  · exact hw.frame
  · exact fun _ => ⟨hw.small, fun i hi => entry_fill_self p.mem c hi⟩

/-- A table wired to a PML4 entry of the kernel half starts a tree of its own. -/
lemma owned_wired_root (ht : Tables lay p use) (hw : Wiring lay p use c g j e tree [])
    (hu : ¬ tree < pmmMaxFrames) (hj : kernelSlot j = true) (hc : c < pmmMaxFrames) :
    Owned (spaceScope lay) (wired p.mem c g j e) (Function.update use c (.node c [])) := by
  have hroot : Owned (spaceScope lay) (wired p.mem c g j e) use := by
    apply (owned_cleared ht hw.idle).congr
    · intro f t path i hf hi hin
      apply entry_setEntry_of_ne _ _ hi hw.index
      by_contra hcon
      push Not at hcon
      obtain ⟨rfl, rfl⟩ := hcon
      rw [hw.node] at hf
      cases hf
      rw [((spaceScope_space hu).mp hin).1 rfl] at hj
      exact Bool.false_ne_true hj
    · exact fun _ _ _ => Iff.rfl
  apply hroot.plant
  · intro f path hf
    -- a node of a tree named by an idle frame would have that frame as its root
    have hno : ∀ path f, use f ≠ .node c path := by
      intro path
      induction path using List.reverseRecOn with
      | nil =>
        intro f hf
        have heq := ht.named f c hf hc
        rw [← heq, hw.idle] at hf
        exact Use.noConfusion hf
      | append_singleton path i ih =>
        intro f hf
        obtain ⟨f', hf', _⟩ := ht.owned.up f c path i hf
        exact ih f' hf'
    exact hno path f hf
  · exact hw.not_isNode
  · intro i hi _
    exact entry_wired_new p.mem e hi hw.index (hw.ne hw.node).symm

/-- Where a wired table ends up: one index further in its tree, or at the root of
a new kernel tree. -/
inductive Position (lay : Layout) (c j tree : ℕ) (q : List ℕ) : ℕ → List ℕ → Prop
  | inTree (h : spaceScope lay tree q j) : Position lay c j tree q tree (q ++ [j])
  | ownTree (hq : q = []) (hu : ¬ tree < pmmMaxFrames) (hj : kernelSlot j = true) :
    Position lay c j tree q c []

lemma levels_pos (tree : ℕ) : 0 < levels tree := by
  unfold levels depth
  split_ifs <;> omega

lemma Position.length_lt {c j tree t : ℕ} {q path : List ℕ} (h : Position lay c j tree q t path)
    (hlen : q.length + 1 < levels tree) : path.length < levels t := by
  cases h with
  | inTree _ =>
    rw [List.length_append, List.length_singleton]
    exact hlen
  | ownTree _ _ _ => exact levels_pos c

lemma owned_wired (ht : Tables lay p use) {c g j e tree t : ℕ} {q path : List ℕ}
    (hw : Wiring lay p use c g j e tree q) (hpos : Position lay c j tree q t path)
    (hc : c < pmmMaxFrames) :
    Owned (spaceScope lay) (wired p.mem c g j e) (Function.update use c (.node t path)) := by
  cases hpos with
  | inTree h => exact owned_wired_tree ht hw h
  | ownTree hq hu hj =>
    subst hq
    exact owned_wired_root ht hw hu hj hc

/-- A wiring makes at most the new table a kernel tree. -/
lemma hangs_wired {c g j e tree t : ℕ} {q path : List ℕ} (hw : Wiring lay p use c g j e tree q)
    (hpos : Position lay c j tree q t path) (hc : c < pmmMaxFrames) {i k : ℕ}
    (h : Hangs (wired p.mem c g j e) (Function.update use c (.node t path)) i k) :
    (i = j ∧ k = c ∧ t = c ∧ path = []) ∨ Hangs p.mem use i k := by
  obtain ⟨r, t', hr, hu, hi, hk, hp, hframe⟩ := h
  have hrc : r ≠ c := by
    rintro rfl
    rw [Function.update_self] at hr
    obtain ⟨rfl, hnil⟩ := Use.node.inj hr
    cases hpos with
    | inTree _ => exact absurd hnil (by simp)
    | ownTree _ _ _ => exact hu hc
  rw [Function.update_of_ne hrc] at hr
  by_cases hhit : r = g ∧ i = j
  · obtain ⟨rfl, rfl⟩ := hhit
    rw [hw.node] at hr
    cases hr
    rw [entry_wired_self p.mem c r i hw.lt, hw.frame] at hframe
    cases hpos with
    | inTree h =>
      rw [((spaceScope_space hu).mp h).1 rfl] at hk
      exact absurd hk Bool.false_ne_true
    | ownTree _ _ _ => exact Or.inl ⟨rfl, hframe.symm, rfl, rfl⟩
  · have hfi : r ≠ g ∨ i ≠ j := by tauto
    rw [entry_wired_of_ne p.mem e hi hw.index hrc hfi] at hp hframe
    exact Or.inr ⟨r, t', hr, hu, hi, hk, hp, hframe⟩

theorem Tables.wire (ht : Tables lay p use) {c g j e tree t : ℕ} {q path : List ℕ} {pmm : Pmm}
    (hw : Wiring lay p use c g j e tree q) (hpos : Position lay c j tree q t path)
    (hfree : c ∈ freeSet p.pmm) (hlow : c < lowFrames) (hv : Valid pmm)
    (hpool : freeSet pmm = (freeSet p.pmm).erase c) (htot : pmm.totalFrames = p.pmm.totalFrames) :
    Tables lay ⟨wired p.mem c g j e, pmm⟩ (Function.update use c (.node t path)) := by
  have hcmax := free_lt ht.valid hfree
  have hc0 : c ≠ 0 := fun hz => ht.valid.zero_used (hz ▸ hfree)
  have huse : ∀ f, f ≠ c → Function.update use c (.node t path) f = use f :=
    fun f hf => Function.update_of_ne hf _ _
  have hself : Function.update use c (.node t path) c = .node t path := Function.update_self c _ use
  have hkeep : ∀ f t' path', use f = .node t' path' →
      Function.update use c (.node t path) f = .node t' path' :=
    fun f t' path' hf => (huse f (hw.ne hf)).trans hf
  refine ⟨owned_wired ht hw hpos hcmax, hv, ?_, ?_, ?_, ?_, ?_, ?_, ?_, ?_⟩
  · intro f hf
    rw [hpool]
    by_cases hfc : f = c
    · rw [hfc]
      exact Finset.notMem_erase c _
    · rw [huse f hfc] at hf
      exact fun hmem => ht.held f hf (Finset.mem_of_mem_erase hmem)
  · rw [huse 0 hc0.symm]
    exact ht.nonzero
  · intro f hf
    dsimp only
    rw [htot]
    by_cases hfc : f = c
    · rw [hfc]
      exact ((mem_freeSet _ _).mp hfree).1
    · rw [huse f hfc] at hf
      exact ht.managed f hf
  · intro f t' path' hf hlt
    by_cases hfc : f = c
    · rw [hfc]
      exact hlow
    · rw [huse f hfc] at hf
      exact ht.low f t' path' hf hlt
  · intro f t' hf hk
    by_cases hfc : f = c
    · rw [hfc, hself] at hf
      obtain ⟨rfl, hnil⟩ := Use.node.inj hf
      cases hpos with
      | inTree _ => exact absurd hnil (by simp)
      | ownTree _ _ _ => exact hfc.symm
    · rw [huse f hfc] at hf
      exact ht.named f t' hf hk
  · intro i k hk
    rcases hangs_wired hw hpos hcmax hk with ⟨_, rfl, ht', hnil⟩ | hold
    · rw [hself, ht', hnil]
    · exact hkeep _ _ _ (ht.shared i k hold)
  · intro i i' k hk hk'
    have hne : ∀ i'', Hangs p.mem use i'' k → k ≠ c := fun i'' h => hw.ne (ht.shared i'' k h)
    rcases hangs_wired hw hpos hcmax hk with ⟨hi, hkc, _⟩ | hold <;>
      rcases hangs_wired hw hpos hcmax hk' with ⟨hi', hkc', _⟩ | hold'
    · exact hi.trans hi'.symm
    · exact absurd hkc (hne i' hold')
    · exact absurd hkc' (hne i hold)
    · exact ht.single i i' k hold hold'
  · intro t' b i hcov hi
    obtain ⟨f, hf, hp, hl⟩ := ht.leaves t' b i hcov hi
    have hfi : f ≠ g ∨ i ≠ j := by
      by_contra hcon
      push Not at hcon
      rw [hcon.1, hcon.2, hw.absent] at hp
      exact Bool.false_ne_true hp
    have hsame := entry_wired_of_ne p.mem e hi hw.index (hw.ne hf) hfi
    refine ⟨f, hkeep f _ _ hf, ?_⟩
    change present (entry (wired p.mem c g j e) _ _) = true ∧
      large (entry (wired p.mem c g j e) _ _) = true
    rw [hsame]
    exact ⟨hp, hl⟩

theorem Tables.wire_extends (ht : Tables lay p use) {c g j e tree t : ℕ} {q path : List ℕ}
    {pmm : Pmm} (hw : Wiring lay p use c g j e tree q) (hpos : Position lay c j tree q t path)
    (hfree : c ∈ freeSet p.pmm) (hpool : freeSet pmm = (freeSet p.pmm).erase c)
    (htot : pmm.totalFrames = p.pmm.totalFrames) :
    Extends ⟨fun t' => t' = t, fun r i => r = g ∧ i = j, fun _ => False⟩ p
      ⟨wired p.mem c g j e, pmm⟩ use (Function.update use c (.node t path)) := by
  have huse : ∀ f, f ≠ c → Function.update use c (.node t path) f = use f :=
    fun f hf => Function.update_of_ne hf _ _
  have hself : Function.update use c (.node t path) c = .node t path := Function.update_self c _ use
  have hne : ∀ f, use f ≠ .idle → f ≠ c := fun f hf heq => hf (heq ▸ hw.idle)
  refine ⟨fun f hf => huse f (hne f hf), ?_, ?_, htot, ?_, ?_, ?_⟩
  · intro f hf hf'
    have hfc : f = c := by
      by_contra hfc
      exact hf' ((huse f hfc).trans hf)
    rw [hfc]
    exact ⟨hfree, t, path, rfl, hpos.length_lt hw.level, hself⟩
  · intro f
    change f ∈ freeSet pmm ↔ _
    rw [hpool, Finset.mem_erase]
    constructor
    · rintro ⟨hfc, hf⟩
      exact ⟨hf, (huse f hfc).trans (ht.idle_of_free hf)⟩
    · rintro ⟨hf, hidle⟩
      refine ⟨?_, hf⟩
      rintro rfl
      rw [hself] at hidle
      exact Use.noConfusion hidle
  · intro x hx
    have hxc : x / frameBytes ≠ c := by
      intro heq
      apply hx
      rw [heq, hself]
      exact ⟨t, path, rfl, lt_of_lt_of_le (hpos.length_lt hw.level) (levels_le t)⟩
    have hxg : x / frameBytes ≠ g := by
      intro heq
      apply hx
      rw [heq, huse g (hw.ne hw.node), hw.node]
      exact ⟨tree, q, rfl, by have := hw.length_lt; omega⟩
    change wired p.mem c g j e x = p.mem x
    unfold wired
    rw [setEntry_of_frame _ _ hw.index hxg, fill_of_frame _ _ hxc]
  · intro r t' i hr _ hi _ hnw
    have hfi : r ≠ g ∨ i ≠ j := by
      by_contra hcon
      push Not at hcon
      exact hnw hcon
    exact entry_wired_of_ne p.mem e hi hw.index (hw.ne hr) hfi
  · intro r t' virt hr hu _
    exact physOf_wired ht hw virt hr hu

/-! ## The walks of the source -/

/-- What `tableEnsure` does with an entry that belongs to a table above the last
level: nothing, for want of a frame, or the table behind the entry, old or new. -/
theorem tableEnsure_spec (ht : Tables lay p use) {g tree idx : ℕ} (flags : ℕ)
    (hg : use g = .node tree q) (hlen : q.length + 1 < levels tree) (hi : idx < entries)
    (hplain : q.length + 2 = levels tree → present (entry p.mem (g * frameBytes) idx) = false →
      large (entry p.mem (g * frameBytes) idx) = false)
    {t : ℕ → ℕ} {path : List ℕ} (hpos : ∀ c, Position lay c idx tree q (t c) path) :
    (tableEnsure p (g * frameBytes) idx flags = (p, none) ∧ (tpmmAllocLow p.pmm).2 = 0) ∨
      (present (entry p.mem (g * frameBytes) idx) = true ∧
        tableEnsure p (g * frameBytes) idx flags =
          (p, some (frameNo (entry p.mem (g * frameBytes) idx) * frameBytes))) ∨
      ∃ p' c use', present (entry p.mem (g * frameBytes) idx) = false ∧
        tableEnsure p (g * frameBytes) idx flags = (p', some (c * frameBytes)) ∧
        Tables lay p' use' ∧
        Extends ⟨fun t' => t' = t c, fun r i => r = g ∧ i = idx, fun _ => False⟩ p p' use use' ∧
        use' c = .node (t c) path ∧ present (entry p'.mem (g * frameBytes) idx) = true ∧
        frameNo (entry p'.mem (g * frameBytes) idx) = c ∧ c ∈ freeSet p.pmm ∧
        p'.pmm = (tpmmAllocLow p.pmm).1 := by
  unfold tableEnsure
  dsimp only
  by_cases hp : present (entry p.mem (g * frameBytes) idx) = true
  · rw [if_pos hp, target_eq_frameNo]
    exact Or.inr (Or.inl ⟨hp, rfl⟩)
  · have habs : present (entry p.mem (g * frameBytes) idx) = false := by simpa using hp
    obtain ⟨hspec, hbelow⟩ := tpmmAllocLow_spec ht.valid
    rw [if_neg hp]
    by_cases h0 : (tpmmAllocLow p.pmm).2 = 0
    · rw [if_pos h0, hspec.refused ht.valid h0]
      exact Or.inl ⟨rfl, h0⟩
    · rw [if_neg h0]
      right
      right
      obtain ⟨c, hc, hfree, _, hpool⟩ := granted_one ht.valid hspec h0
      have hlow : c < lowFrames := by
        have := hbelow.resolve_left h0
        rw [hc] at this
        unfold frameBytes pageSize lowFrames at *
        omega
      have hc40 : c < 2 ^ 40 := by unfold lowFrames at hlow; omega
      obtain ⟨he, hpr, hlarge, hframe⟩ := tableEntry_spec flags hc40
      have hw : Wiring lay p use c g idx (tableEntry (c * frameBytes) flags) tree q :=
        ⟨hg, hlen, hi, habs, fun h => hplain h habs, ht.idle_of_free hfree, he, hpr, hlarge, hframe⟩
      have hself := entry_wired_self p.mem c g idx he
      refine ⟨⟨wired p.mem c g idx (tableEntry (c * frameBytes) flags), (tpmmAllocLow p.pmm).1⟩, c,
        _, habs, ?_, ht.wire hw (hpos c) hfree hlow (hspec.valid ht.valid) hpool
          hspec.totalFrames,
        ht.wire_extends hw (hpos c) hfree hpool hspec.totalFrames, Function.update_self c _ use,
        hself.symm ▸ hpr, hself.symm ▸ hframe, hfree, rfl⟩
      rw [hc, target_frame hc40, tmemset_eq_fill]
      rfl

end TraitOS.Tvmm
