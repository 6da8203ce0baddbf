import TraitOS.TvmmSpaces

/-!
# The frames a teardown gives back

The teardown of an address space frees frames one by one while it walks the user
half. The frames it frees, in order, form a list; on a tree that the table
invariant describes, every frame below the PDPTs is in the list exactly once, and
neither the PDPTs nor anything outside the tree is.
-/
namespace TraitOS.Tvmm
open ByteMemory PageTable Tpmm

variable {use : ℕ → Use}

/-- Free a list of frames in order. -/
def giveBack (s : Pmm) (fs : List ℕ) : Pmm := fs.foldl (fun s f => tpmmFree s (f * frameBytes)) s

lemma giveBack_append (s : Pmm) (fs gs : List ℕ) :
    giveBack s (fs ++ gs) = giveBack (giveBack s fs) gs := List.foldl_append

lemma giveBack_flatMap (s : Pmm) (is : List ℕ) (L : ℕ → List ℕ) :
    giveBack s (is.flatMap L) = is.foldl (fun s i => giveBack s (L i)) s := List.foldl_flatMap

theorem giveBack_spec {s : Pmm} (hv : Valid s) (fs : List ℕ)
    (hfs : ∀ f ∈ fs, f < s.totalFrames ∧ f ≠ 0) :
    Valid (giveBack s fs) ∧ freeSet (giveBack s fs) = freeSet s ∪ fs.toFinset ∧
      (giveBack s fs).totalFrames = s.totalFrames := by
  induction fs generalizing s with
  | nil => simpa [giveBack] using hv
  | cons f fs ih =>
    obtain ⟨hlt, hne⟩ := hfs f List.mem_cons_self
    have hmax := hv.total_le
    have hframe : frameOf (f * frameBytes) = f := by
      unfold frameOf pageSize frameBytes
      unfold pmmMaxFrames pmmMaxAddr pageSize at hmax
      omega
    obtain ⟨hv', hset, htot⟩ := tpmmFree_spec hv (hframe.symm ▸ hlt) (hframe.symm ▸ hne)
    rw [hframe] at hset
    obtain ⟨hv'', hset', htot'⟩ := ih hv'
      (fun g hg => htot.symm ▸ hfs g (List.mem_cons_of_mem f hg))
    refine ⟨hv'', ?_, htot'.trans htot⟩
    change freeSet (giveBack (tpmmFree s (f * frameBytes)) fs) = _
    rw [hset', hset, List.toFinset_cons, Finset.insert_union, Finset.union_insert]

def freedEntry (children : ℕ → List ℕ) (e : ℕ) : List ℕ :=
  if present e then children e ++ [frameNo e] else []

/-- The frames `freeTable` frees, in order. -/
def freedBy (m : Memory) : ℕ → ℕ → List ℕ
  | 0, table => (List.range entries).flatMap fun i => freedEntry (fun _ => []) (entry m table i)
  | level + 1, table => (List.range entries).flatMap fun i =>
      freedEntry (fun e => if large e then [] else freedBy m level (target e)) (entry m table i)

/-- The frames of the loop over the user slots. -/
def freedSlots (m : Memory) (pml4 : ℕ) : List ℕ :=
  (List.range' 1 (kernelPml4Start - 1)).flatMap fun i =>
    if present (entry m pml4 i) then freedBy m 2 (target (entry m pml4 i)) else []

lemma freeEntry_eq {children : ℕ → Pmm → Pmm} {lists : ℕ → List ℕ} (e : ℕ) (s : Pmm)
    (h : ∀ s, children e s = giveBack s (lists e)) :
    freeEntry children e s = giveBack s (freedEntry lists e) := by
  unfold freeEntry freedEntry
  split_ifs
  · rw [h, giveBack_append, target_eq_frameNo]
    rfl
  · rfl

theorem freeTable_eq (m : Memory) (level table : ℕ) (s : Pmm) :
    freeTable m level table s = giveBack s (freedBy m level table) := by
  induction level generalizing table s with
  | zero =>
    unfold freeTable freedBy
    rw [giveBack_flatMap]
    congr 1
    funext s i
    exact freeEntry_eq _ s (fun _ => rfl)
  | succ level ih =>
    unfold freeTable freedBy
    rw [giveBack_flatMap]
    congr 1
    funext s i
    apply freeEntry_eq
    intro s
    split_ifs
    · rfl
    · exact ih _ s

theorem freeSlots_eq (m : Memory) (pml4 : ℕ) (s : Pmm) :
    freeSlots m pml4 s = giveBack s (freedSlots m pml4) := by
  unfold freeSlots freedSlots
  rw [giveBack_flatMap]
  congr 1
  funext s i
  split_ifs
  · exact freeTable_eq m 2 _ s
  · rfl

/-! ## The list and the tree -/

/-- A node has ancestors up to every part of its path. -/
lemma ancestor {scope : Scope} {m : Memory} (ho : Owned scope m use) {g tree : ℕ} {q : List ℕ}
    (ext : List ℕ) (hg : use g = .node tree (q ++ ext)) : ∃ f, use f = .node tree q := by
  induction ext using List.reverseRecOn generalizing g with
  | nil => exact ⟨g, by rwa [List.append_nil] at hg⟩
  | append_singleton ext i ih =>
    rw [← List.append_assoc] at hg
    obtain ⟨f, hf, _⟩ := ho.up g tree _ i hg
    exact ih hf

/-- The child of a node on the way to another. -/
lemma child_toward {scope : Scope} {m : Memory} (ho : Owned scope m use) {f g tree i : ℕ}
    {q ext : List ℕ} (hf : use f = .node tree q) (hg : use g = .node tree (q ++ i :: ext)) :
    i < entries ∧ scope tree q i ∧ present (entry m (f * frameBytes) i) = true ∧
      use (frameNo (entry m (f * frameBytes) i)) = .node tree (q ++ [i]) := by
  obtain ⟨h, hh⟩ := ancestor ho (q := q ++ [i]) ext (by rwa [List.append_assoc])
  obtain ⟨f', hf', hi, hin, hp, hk⟩ := ho.up h tree q i hh
  obtain rfl := ho.unique tree q f' f hf' hf
  exact ⟨hi, hin, hp, hk.symm ▸ hh⟩

/-- The list has each node of the tree once whose path goes on from `q` in the given
way, and nothing else. -/
structure Lists (use : ℕ → Use) (tree : ℕ) (q : List ℕ) (P : List ℕ →
    Prop) (fs : List ℕ) : Prop where
  nodup : fs.Nodup
  mem : ∀ g, g ∈ fs ↔ ∃ ext, P ext ∧ use g = .node tree (q ++ ext)

lemma Lists.flatMap {tree : ℕ} {q is : List ℕ} {P : List ℕ → Prop}
    {L : ℕ → List ℕ} (his : is.Nodup) (h : ∀ i ∈ is, Lists use tree (q ++ [i]) P (L i)) :
    Lists use tree q (fun ext => ∃ i ext', ext = i :: ext' ∧ i ∈ is ∧ P ext') (is.flatMap L) where
  nodup := by
    rw [List.nodup_flatMap]
    refine ⟨fun i hi => (h i hi).nodup, his.imp_of_mem ?_⟩
    -- lists of different entries: the paths part at `q`
    intro i j hi hj hij g hgi hgj
    obtain ⟨ext, _, hg⟩ := ((h i hi).mem g).mp hgi
    obtain ⟨ext', _, hg'⟩ := ((h j hj).mem g).mp hgj
    have hpath := (Use.node.inj (hg.symm.trans hg')).2
    rw [List.append_assoc, List.append_assoc, List.append_cancel_left_eq] at hpath
    exact hij (List.cons.inj hpath).1
  mem := by
    intro g
    rw [List.mem_flatMap]
    constructor
    · rintro ⟨i, hi, hg⟩
      obtain ⟨ext, hP, huse⟩ := ((h i hi).mem g).mp hg
      exact ⟨i :: ext, ⟨i, ext, rfl, hi, hP⟩, by rw [huse, List.append_assoc]; rfl⟩
    · rintro ⟨_, ⟨i, ext, rfl, hi, hP⟩, huse⟩
      exact ⟨i, hi, ((h i hi).mem g).mpr ⟨ext, hP, by rw [huse, List.append_assoc]; rfl⟩⟩

/-- The frames of one entry: the child's, then the child itself. -/
lemma lists_freedEntry {scope : Scope} {m : Memory} (ho : Owned scope m use) {f tree i : ℕ}
    {q : List ℕ} {children : ℕ → List ℕ} (hf : use f = .node tree q) (hlen : q.length < depth)
    (hi : i < entries) (hin : scope tree q i)
    (hchildren : present (entry m (f * frameBytes) i) = true →
      Lists use tree (q ++ [i]) (· ≠ []) (children (entry m (f * frameBytes) i))) :
    Lists use tree (q ++ [i]) (fun _ => True) (freedEntry children (entry m (f * frameBytes) i)) :=
      by
  unfold freedEntry
  by_cases hp : present (entry m (f * frameBytes) i) = true
  · have hnode := ho.down f tree q i hf hlen hi hin hp
    have hc := hchildren hp
    rw [if_pos hp]
    refine ⟨?_, fun g => ?_⟩
    · rw [List.nodup_append]
      refine ⟨hc.nodup, List.nodup_singleton _, fun g hg g' hg' heq => ?_⟩
      obtain ⟨ext, hne, huse⟩ := (hc.mem g).mp hg
      rw [heq, List.mem_singleton.mp hg', hnode] at huse
      have hpath := (Use.node.inj huse).2
      exact hne (List.self_eq_append_right.mp hpath)
    · rw [List.mem_append, List.mem_singleton, hc.mem]
      constructor
      · rintro (⟨ext, _, huse⟩ | rfl)
        · exact ⟨ext, trivial, huse⟩
        · exact ⟨[], trivial, by rw [hnode, List.append_nil]⟩
      · rintro ⟨ext, _, huse⟩
        cases ext with
        | nil =>
          rw [List.append_nil] at huse
          exact Or.inr (ho.unique tree _ _ _ huse hnode)
        | cons j ext => exact Or.inl ⟨j :: ext, List.cons_ne_nil _ _, huse⟩
  · rw [if_neg hp]
    refine ⟨List.nodup_nil, fun g => iff_of_false List.not_mem_nil ?_⟩
    rintro ⟨ext, _, huse⟩
    rw [List.append_assoc] at huse
    exact hp (child_toward ho hf huse).2.2.1

/-- What a table's entries lead to, at every depth. -/
theorem lists_freedBy {lay : Layout} {p : Paging} (ht : Tables lay p use) (hpages : lay.pages)
    {tree : ℕ} (hu : ¬ tree < pmmMaxFrames) (level : ℕ) :
    ∀ {f : ℕ} {q : List ℕ}, use f = .node tree q → q ≠ [] → q.length + level + 1 = depth →
      Lists use tree q (· ≠ []) (freedBy p.mem level (f * frameBytes)) := by
  have hscope : ∀ {q : List ℕ} {i : ℕ}, q ≠ [] → spaceScope lay tree q i :=
    fun hq => (spaceScope_space hu).mpr ⟨fun h => absurd h hq, fun _ => hpages⟩
  -- from lists for the entries to the list for the table
  have hall : ∀ {f : ℕ} {q : List ℕ} {children : ℕ → List ℕ}, use f = .node tree q → q ≠ [] →
      q.length < depth →
      (∀ i < entries, present (entry p.mem (f * frameBytes) i) = true →
        Lists use tree (q ++ [i]) (· ≠ []) (children (entry p.mem (f * frameBytes) i))) →
      Lists use tree q (· ≠ []) ((List.range entries).flatMap fun i =>
        freedEntry children (entry p.mem (f * frameBytes) i)) := by
    intro f q children hf hq hlen hchildren
    have hl := Lists.flatMap List.nodup_range (fun i hi =>
      lists_freedEntry ht.owned hf hlen (List.mem_range.mp hi) (hscope hq)
        (hchildren i (List.mem_range.mp hi)))
    refine ⟨hl.nodup, fun g => (hl.mem g).trans ⟨?_, ?_⟩⟩
    · rintro ⟨_, ⟨i, ext, rfl, _⟩, huse⟩
      exact ⟨i :: ext, List.cons_ne_nil _ _, huse⟩
    · rintro ⟨ext, hne, huse⟩
      obtain ⟨i, ext, rfl⟩ := List.exists_cons_of_ne_nil hne
      have hi := (child_toward ht.owned hf huse).1
      exact ⟨i :: ext, ⟨i, ext, rfl, List.mem_range.mpr hi, trivial⟩, huse⟩
  induction level with
  | zero =>
    intro f q hf hq hlen
    refine hall hf hq (by omega) (fun i hi hp => ⟨List.nodup_nil, fun g => ?_⟩)
    -- nothing lies below a page
    refine iff_of_false List.not_mem_nil ?_
    rintro ⟨ext, hne, huse⟩
    have hbound := ht.owned.bounded g tree _ huse
    have hpos := List.length_pos_of_ne_nil hne
    rw [List.length_append, List.length_append, List.length_singleton] at hbound
    omega
  | succ level ih =>
    intro f q hf hq hlen
    refine hall hf hq (by omega) (fun i hi hp => ?_)
    have hplain := ht.owned.plain f tree q i hf (by omega) hi (hscope hq)
    have hnode := ht.owned.down f tree q i hf (by omega) hi (hscope hq) hp
    rw [hplain, target_eq_frameNo]
    apply ih hnode (by simp)
    rw [List.length_append, List.length_singleton]
    omega

/-- The loop over the user slots frees each frame below the PDPTs once. -/
theorem lists_freedSlots {lay : Layout} {p : Paging} (ht : Tables lay p use) (hpages : lay.pages)
    {r tree : ℕ} (hr : use r = .node tree []) (hu : ¬ tree < pmmMaxFrames) :
    Lists use tree [] (fun path => 2 ≤ path.length) (freedSlots p.mem (r * frameBytes)) := by
  have hslot : ∀ i, i ∈ List.range' 1 (kernelPml4Start - 1) ↔ kernelSlot i = false ∧
    i < entries := by
    intro i
    rw [List.mem_range'_1]
    unfold kernelSlot kernelPml4Start entries
    simp only [decide_eq_false_iff_not]
    omega
  have hl : Lists use tree [] (fun ext => ∃ i ext', ext = i :: ext' ∧
      i ∈ List.range' 1 (kernelPml4Start - 1) ∧ ext' ≠ []) (freedSlots p.mem (r * frameBytes)) := by
    refine Lists.flatMap List.nodup_range' ?_
    intro i hi
    obtain ⟨hk, hlt⟩ := (hslot i).mp hi
    by_cases hp : present (entry p.mem (r * frameBytes) i) = true
    · have hnode := ht.owned.down r tree [] i hr (by decide) hlt (spaceScope_root hu hk) hp
      rw [if_pos hp, target_eq_frameNo]
      exact lists_freedBy ht hpages hu 2 hnode (by simp) (by simp [depth])
    · rw [if_neg hp]
      refine ⟨List.nodup_nil, fun g => iff_of_false List.not_mem_nil ?_⟩
      rintro ⟨ext, _, huse⟩
      rw [List.append_assoc] at huse
      exact hp (child_toward ht.owned hr huse).2.2.1
  refine ⟨hl.nodup, fun g => (hl.mem g).trans ⟨?_, ?_⟩⟩
  · rintro ⟨_, ⟨i, ext, rfl, _, hne⟩, huse⟩
    refine ⟨i :: ext, ?_, huse⟩
    have := List.length_pos_of_ne_nil hne
    rw [List.length_cons]
    omega
  · rintro ⟨path, hlen, huse⟩
    cases path with
    | nil => exact absurd hlen (by simp)
    | cons i ext =>
      obtain ⟨hi, hin, _⟩ := child_toward ht.owned hr huse
      refine ⟨i :: ext, ⟨i, ext, rfl, (hslot i).mpr ⟨((spaceScope_space hu).mp hin).1 rfl, hi⟩, ?_⟩,
        huse⟩
      rintro rfl
      exact absurd hlen (by simp)

end TraitOS.Tvmm
