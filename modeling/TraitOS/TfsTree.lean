import TraitOS.Tfs

/-!
# The shape of the tree

Nodes and lists of children agree in both directions, names are proper path segments,
and every node is a bounded number of steps below the root. This holds after every
operation. That siblings have different names is kept apart: it needs more.
-/
namespace TraitOS.Tfs

variable {s : Ramfs} {a : ℕ} {name : Name}

/-- What a path can name. -/
structure NameOk (name : Name) : Prop where
  nonempty : name ≠ []
  plain : slash ∉ name
  notDot : name ≠ dot
  notDotDot : name ≠ dotDot

lemma nameOk_iff : NameOk name ↔ name ≠ [] ∧ slash ∉ name ∧ name ≠ dot ∧ name ≠ dotDot :=
  ⟨fun h => ⟨h.1, h.2, h.3, h.4⟩, fun h => ⟨h.1, h.2.1, h.2.2.1, h.2.2.2⟩⟩

instance (name : Name) : Decidable (NameOk name) := decidable_of_iff _ nameOk_iff.symm

/-- How far below the root a node is. -/
structure Depth (s : Ramfs) (depth : ℕ → ℕ) : Prop where
  zero : depth root = 0
  step : ∀ c k, s.nodes c = some k → c ≠ root → depth c = depth k.parent + 1
  bounded : ∀ c k, s.nodes c = some k → c ≠ root → depth c ≤ s.asked

structure Linked (s : Ramfs) : Prop where
  null : s.nodes 0 = none
  rooted : ∃ n, s.nodes root = some n ∧ n.dir = true ∧ n.parent = root
  child : ∀ d n c, s.nodes d = some n → c ∈ n.children →
    ∃ k, s.nodes c = some k ∧ k.parent = d ∧ c ≠ root
  listed : ∀ c k, s.nodes c = some k → c ≠ root → ∃ n, s.nodes k.parent = some n ∧ c ∈ n.children
  nodup : ∀ d n, s.nodes d = some n → n.children.Nodup
  names : ∀ c k, s.nodes c = some k → c ≠ root → NameOk k.name
  dirs : ∀ d n, s.nodes d = some n → n.children ≠ [] → n.dir = true
  depth : ∃ depth, Depth s depth

/-- No directory has two children of one name. -/
def Distinct (s : Ramfs) : Prop :=
  ∀ d n c c', s.nodes d = some n → c ∈ n.children → c' ∈ n.children → s.nameOf c = s.nameOf c' →
    c = c'

section Tree
variable {s : Ramfs}

lemma Linked.ne_zero (h : Linked s) {n : Node} (ha : s.nodes a = some n) : a ≠ 0 := by
  rintro rfl
  rw [h.null] at ha
  exact nomatch ha

lemma nameOf_of_some {n : Node} (h : s.nodes a = some n) : s.nameOf a = n.name := by
  simp [Ramfs.nameOf, h]

lemma childrenOf_of_some {n : Node} (h : s.nodes a = some n) : s.childrenOf a = n.children := by
  simp [Ramfs.childrenOf, h]

lemma isDir_iff : s.isDir a = true ↔ ∃ n, s.nodes a = some n ∧ n.dir = true := by
  cases h : s.nodes a <;> simp [Ramfs.isDir, h]

/-- Going up stays in the tree. -/
lemma Linked.parentOf (h : Linked s) {n : Node} (ha : s.nodes a = some n) :
    ∃ k, s.nodes (s.parentOf a) = some k := by
  have hne : n.parent ≠ 0 := by
    by_cases hroot : a = root
    · obtain ⟨n', hn', _, hpar⟩ := h.rooted
      rw [hroot, hn'] at ha
      rw [← Option.some.inj ha, hpar]
      decide
    · obtain ⟨k, hk, _⟩ := h.listed a n ha hroot
      exact h.ne_zero hk
  simp only [Ramfs.parentOf, ha, Option.elim_some, if_neg hne]
  by_cases hroot : a = root
  · obtain ⟨n', hn', _, hpar⟩ := h.rooted
    rw [hroot, hn'] at ha
    rw [← Option.some.inj ha, hpar]
    exact ⟨n', hn'⟩
  · obtain ⟨k, hk, _⟩ := h.listed a n ha hroot
    exact ⟨k, hk⟩

lemma findChild_eq_some {d c : ℕ} (h : findChild s d name = some c) :
    c ∈ s.childrenOf d ∧ s.nameOf c = name :=
  ⟨List.mem_of_find?_eq_some h, by simpa using List.find?_some h⟩

lemma findChild_eq_none {d : ℕ} (h : findChild s d name = none) :
    ∀ c ∈ s.childrenOf d, s.nameOf c ≠ name := by
  simpa [findChild] using h

lemma Linked.findChild (h : Linked s) {d c : ℕ} (hc : findChild s d name = some c) :
    ∃ k, s.nodes c = some k := by
  obtain ⟨hmem, _⟩ := findChild_eq_some hc
  cases hd : s.nodes d with
  | none => simp [Ramfs.childrenOf, hd] at hmem
  | some n =>
    rw [childrenOf_of_some hd] at hmem
    exact (h.child d n c hd hmem).imp fun k hk => hk.1

lemma Linked.of_nodes {s' : Ramfs} (h : Linked s) (hn : s'.nodes = s.nodes)
    (ha : s.asked ≤ s'.asked) : Linked s' := by
  obtain ⟨hnull, hroot, hchild, hlisted, hnodup, hnames, hdirs, depth, hzero, hstep, hbound⟩ := h
  rw [← hn] at *
  exact ⟨hnull, hroot, hchild, hlisted, hnodup, hnames, hdirs, depth, hzero, hstep,
    fun c k hc hne => (hbound c k hc hne).trans ha⟩

end Tree

/-! ## The empty tree -/

lemma Linked.init (grants : ℕ → Option ℕ) : Linked (tfsInit grants) := by
  have honly : ∀ x n, (tfsInit grants).nodes x = some n → x = root ∧ n = rootNode := by
    intro x n hx
    by_cases h : x = root
    · simp only [tfsInit, if_pos h, Option.some.injEq] at hx
      exact ⟨h, hx.symm⟩
    · simp [tfsInit, h] at hx
  refine ⟨rfl, ⟨rootNode, rfl, rfl, rfl⟩, ?_, ?_, ?_, ?_, ?_, fun _ => 0, rfl, ?_, ?_⟩
  · intro d n c hd hc
    rw [(honly d n hd).2] at hc
    exact nomatch hc
  · exact fun c k hc hne => absurd (honly c k hc).1 hne
  · intro d n hd
    rw [(honly d n hd).2]
    exact List.nodup_nil
  · exact fun c k hc hne => absurd (honly c k hc).1 hne
  · intro d n hd hch
    rw [(honly d n hd).2] at hch
    exact absurd rfl hch
  · exact fun c k hc hne => absurd (honly c k hc).1 hne
  · exact fun c k hc hne => absurd (honly c k hc).1 hne

lemma Distinct.init (grants : ℕ → Option ℕ) : Distinct (tfsInit grants) := by
  intro d n c c' hd hc
  by_cases h : d = root
  · simp only [tfsInit, if_pos h, Option.some.injEq] at hd
    rw [← hd] at hc
    exact nomatch hc
  · simp [tfsInit, h] at hd

/-! ## A new node -/

/-- A node `k` was put at the free address `a`, in front of the children of `d`. -/
structure Grown (s s' : Ramfs) (d a : ℕ) (k : Node) : Prop where
  fresh : s.nodes a = none
  nonzero : a ≠ 0
  new : s'.nodes a = some k
  dir : ∃ n, s.nodes d = some n ∧ s'.nodes d = some { n with children := a :: n.children }
  other : ∀ x, x ≠ a → x ≠ d → s'.nodes x = s.nodes x
  parent : k.parent = d
  children : k.children = []
  asked : s'.asked = s.asked + 1
  mounts : s'.mounts = s.mounts
  grants : s'.grants = s.grants

/-- The node `alloc_node_len` and the linking make. -/
def newNode (d : ℕ) (name : Name) (dir : Bool) : Node :=
  ⟨name.take (maxName - 1), dir, [], false, d, []⟩

theorem addNode_spec {d : ℕ} {n : Node} (hd : s.nodes d = some n) (name : Name) (dir : Bool) :
    addNode s d name dir = ({ s with asked := s.asked + 1 }, none) ∧
        (∀ a, s.grants s.asked = some a → a = 0 ∨ s.nodes a ≠ none) ∨
      ∃ s' a, addNode s d name dir = (s', some a) ∧ s.grants s.asked = some a ∧
        Grown s s' d a (newNode d name dir) := by
  unfold addNode allocNodeLen
  cases hgrant : Option.filter (fun a => decide (a ≠ 0 ∧ s.nodes a = none)) s.tmalloc.2 with
  | none =>
    simp only [hgrant]
    refine Or.inl ⟨rfl, fun a ha => ?_⟩
    have hno := Option.filter_eq_none_iff.mp hgrant a ha
    by_contra h
    exact hno (decide_eq_true ⟨fun h0 => h (Or.inl h0), by_contra fun hn => h (Or.inr hn)⟩)
  | some a =>
    simp only [hgrant]
    right
    obtain ⟨hsome, hok⟩ := Option.filter_eq_some_iff.mp hgrant
    obtain ⟨hzero, hfree⟩ := of_decide_eq_true hok
    have hne : d ≠ a := by
      rintro rfl
      rw [hd] at hfree
      exact nomatch hfree
    refine ⟨_, a, rfl, hsome, hfree, hzero, ?_, ⟨n, hd, ?_⟩, fun x hxa hxd => ?_, rfl, rfl, ?_, ?_,
      ?_⟩
    all_goals simp [link, Ramfs.set, Ramfs.tmalloc, hd, hne, hne.symm, newNode]
    simp [Function.update_of_ne, hxa, hxd]

section Grow
variable {s s' : Ramfs} {d a : ℕ} {k : Node}

/-- The old nodes after a growth: only the directory's list changed. -/
lemma Grown.old (hg : Grown s s' d a k) {x : ℕ} {m : Node} (hx : s.nodes x = some m) :
    ∃ m', s'.nodes x = some m' ∧ m'.name = m.name ∧ m'.parent = m.parent ∧ m'.dir = m.dir ∧
      m'.data = m.data ∧ (m'.children = m.children ∧ x ≠ d ∨ m'.children = a :: m.children ∧
        x = d) := by
  have hxa : x ≠ a := by
    rintro rfl
    rw [hg.fresh] at hx
    exact nomatch hx
  by_cases hxd : x = d
  · obtain ⟨n, hn, hn'⟩ := hg.dir
    rw [hxd, hn] at hx
    obtain rfl := Option.some.inj hx
    exact ⟨{ n with children := a :: n.children }, hxd ▸ hn', rfl, rfl, rfl, rfl, Or.inr ⟨rfl, hxd⟩⟩
  · exact ⟨m, (hg.other x hxa hxd).trans hx, rfl, rfl, rfl, rfl, Or.inl ⟨rfl, hxd⟩⟩

lemma Grown.cases (hg : Grown s s' d a k) {x : ℕ} {m' : Node} (hx : s'.nodes x = some m') :
    (x = a ∧ m' = k) ∨ ∃ m, s.nodes x = some m ∧ m'.name = m.name ∧ m'.parent = m.parent ∧
      m'.dir = m.dir ∧ (m'.children = m.children ∧ x ≠ d ∨ m'.children = a :: m.children ∧
        x = d) := by
  by_cases hxa : x = a
  · rw [hxa, hg.new] at hx
    exact Or.inl ⟨hxa, (Option.some.inj hx).symm⟩
  · right
    have hold : ∃ m, s.nodes x = some m := by
      by_cases hxd : x = d
      · exact hg.dir.imp fun n hn => hxd ▸ hn.1
      · exact ⟨m', (hg.other x hxa hxd).symm.trans hx⟩
    obtain ⟨m, hm⟩ := hold
    obtain ⟨m'', hm'', hname, hpar, hdir, _, hch⟩ := hg.old hm
    cases hm''.symm.trans hx
    exact ⟨m, hm, hname, hpar, hdir, hch⟩

theorem Linked.grown (h : Linked s) (hg : Grown s s' d a k) (hdir : s.isDir d = true)
    (hname : NameOk k.name) : Linked s' := by
  obtain ⟨nd, hnd, hnd'⟩ := hg.dir
  obtain ⟨r, hr, hrdir, hrpar⟩ := h.rooted
  obtain ⟨depth, hzero, hstep, hbound⟩ := h.depth
  have hra : root ≠ a := fun he => nomatch (he ▸ hr).symm.trans hg.fresh
  have hda : d ≠ a := fun he => nomatch (he ▸ hnd).symm.trans hg.fresh
  have hfresh : ∀ x m, s.nodes x = some m → a ∉ m.children := by
    intro x m hx hmem
    obtain ⟨_, hk, _⟩ := h.child x m a hx hmem
    exact nomatch hk.symm.trans hg.fresh
  refine ⟨?_, ?_, ?_, ?_, ?_, ?_, ?_, Function.update depth a (depth d + 1), ?_, ?_, ?_⟩
  · rw [hg.other 0 hg.nonzero.symm (h.ne_zero hnd).symm]
    exact h.null
  · obtain ⟨r', hr', _, hp', hd', _⟩ := hg.old hr
    exact ⟨r', hr', hd'.trans hrdir, hp'.trans hrpar⟩
  · -- children of the new node there are none; the directory has one more
    intro x m' c hx hc
    rcases hg.cases hx with ⟨rfl, rfl⟩ | ⟨m, hm, _, _, _, ⟨hch, _⟩ | ⟨hch, rfl⟩⟩
    · rw [hg.children] at hc
      exact nomatch hc
    · obtain ⟨kc, hkc, hpar, hne⟩ := h.child x m c hm (hch ▸ hc)
      obtain ⟨kc', hkc', _, hpar', _⟩ := hg.old hkc
      exact ⟨kc', hkc', hpar'.trans hpar, hne⟩
    · rw [hch] at hc
      rcases List.mem_cons.mp hc with rfl | hc
      · exact ⟨k, hg.new, hg.parent, hra.symm⟩
      · obtain ⟨kc, hkc, hpar, hne⟩ := h.child x m c hm hc
        obtain ⟨kc', hkc', _, hpar', _⟩ := hg.old hkc
        exact ⟨kc', hkc', hpar'.trans hpar, hne⟩
  · intro c k' hc hne
    rcases hg.cases hc with ⟨rfl, rfl⟩ | ⟨m, hm, _, hpar, _⟩
    · rw [hg.parent]
      exact ⟨_, hnd', List.mem_cons_self⟩
    · obtain ⟨n, hn, hmem⟩ := h.listed c m hm hne
      obtain ⟨n', hn', _, _, _, _, ⟨hch, _⟩ | ⟨hch, _⟩⟩ := hg.old hn
      · exact ⟨n', hpar ▸ hn', hch ▸ hmem⟩
      · exact ⟨n', hpar ▸ hn', hch ▸ List.mem_cons_of_mem _ hmem⟩
  · intro x m' hx
    rcases hg.cases hx with ⟨rfl, rfl⟩ | ⟨m, hm, _, _, _, ⟨hch, _⟩ | ⟨hch, rfl⟩⟩
    · rw [hg.children]
      exact List.nodup_nil
    · rw [hch]
      exact h.nodup x m hm
    · rw [hch]
      exact List.nodup_cons.mpr ⟨hfresh x m hm, h.nodup x m hm⟩
  · intro c k' hc hne
    rcases hg.cases hc with ⟨rfl, rfl⟩ | ⟨m, hm, hnm, _⟩
    · exact hname
    · exact hnm ▸ h.names c m hm hne
  · intro x m' hx hch'
    rcases hg.cases hx with ⟨rfl, rfl⟩ | ⟨m, hm, _, _, hd', ⟨hch, _⟩ | ⟨hch, rfl⟩⟩
    · exact absurd hg.children hch'
    · exact hd'.trans (h.dirs x m hm (hch ▸ hch'))
    · obtain ⟨n, hn, hndir⟩ := isDir_iff.mp hdir
      cases hn.symm.trans hm
      exact hd'.trans hndir
  · rw [Function.update_of_ne hra, hzero]
  · intro c k' hc hne
    rcases hg.cases hc with ⟨rfl, rfl⟩ | ⟨m, hm, _, hpar, _⟩
    · rw [Function.update_self, hg.parent, Function.update_of_ne hda]
    · have hca : c ≠ a := fun he => nomatch (he ▸ hm).symm.trans hg.fresh
      obtain ⟨n, hn, _⟩ := h.listed c m hm hne
      have hpa : m.parent ≠ a := fun he => nomatch (he ▸ hn).symm.trans hg.fresh
      rw [Function.update_of_ne hca, hpar, Function.update_of_ne hpa]
      exact hstep c m hm hne
  · intro c k' hc hne
    rw [hg.asked]
    rcases hg.cases hc with ⟨rfl, rfl⟩ | ⟨m, hm, _⟩
    · rw [Function.update_self]
      by_cases hdr : d = root
      · rw [hdr, hzero]
        omega
      · exact Nat.succ_le_succ (hbound d nd hnd hdr)
    · have hca : c ≠ a := fun he => nomatch (he ▸ hm).symm.trans hg.fresh
      rw [Function.update_of_ne hca]
      exact (hbound c m hm hne).trans (Nat.le_succ _)

lemma Grown.nameOf (hg : Grown s s' d a k) {x : ℕ} {m : Node} (hx : s.nodes x = some m) :
    s'.nameOf x = s.nameOf x := by
  obtain ⟨m', hm', hname, _⟩ := hg.old hx
  rw [nameOf_of_some hm', nameOf_of_some hx, hname]

/-- Siblings stay distinct when no sibling has the name of the new node. -/
theorem Distinct.grown (hdist : Distinct s) (h : Linked s) (hg : Grown s s' d a k)
    (hnew : ∀ c ∈ s.childrenOf d, s.nameOf c ≠ k.name) : Distinct s' := by
  have hold : ∀ x m c, s.nodes x = some m → c ∈ m.children → s'.nameOf c = s.nameOf c := by
    intro x m c hx hc
    obtain ⟨kc, hkc, _⟩ := h.child x m c hx hc
    exact hg.nameOf hkc
  intro x m' c c' hx hc hc' hsame
  rcases hg.cases hx with ⟨rfl, rfl⟩ | ⟨m, hm, _, _, _, ⟨hch, _⟩ | ⟨hch, rfl⟩⟩
  · rw [hg.children] at hc
    exact nomatch hc
  · rw [hch] at hc hc'
    rw [hold x m c hm hc, hold x m c' hm hc'] at hsame
    exact hdist x m c c' hm hc hc' hsame
  · rw [childrenOf_of_some hm] at hnew
    have hname : s'.nameOf a = k.name := nameOf_of_some hg.new
    rw [hch] at hc hc'
    rcases List.mem_cons.mp hc with hca | hin
    · rcases List.mem_cons.mp hc' with hca' | hin'
      · rw [hca, hca']
      · rw [hca, hname, hold x m c' hm hin'] at hsame
        exact absurd hsame.symm (hnew c' hin')
    · rcases List.mem_cons.mp hc' with hca' | hin'
      · rw [hca', hname, hold x m c hm hin] at hsame
        exact absurd hsame (hnew c hin)
      · rw [hold x m c hm hin, hold x m c' hm hin'] at hsame
        exact hdist x m c c' hm hin hin' hsame

end Grow

/-! ## Segments -/

/-- A name that fits stays as it is, and a longer one is still a name. -/
lemma NameOk.take (h : NameOk name) : NameOk (name.take (maxName - 1)) := by
  have hshort : ∀ t : Name, t.length < maxName - 1 → name.take (maxName - 1) = t → name = t := by
    intro t ht heq
    by_cases hlen : name.length ≤ maxName - 1
    · rwa [List.take_of_length_le hlen] at heq
    · rw [← heq, List.length_take] at ht
      omega
  refine ⟨fun he => h.nonempty (hshort [] (by decide) he),
    fun hmem => h.plain (List.mem_of_mem_take hmem),
    fun he => h.notDot (hshort dot (by decide) he), fun he =>
      h.notDotDot (hshort dotDot (by decide) he)⟩

lemma segmentsFrom_ok {seg : Name} (hseg : slash ∉ seg) (path : List UInt8) :
    ∀ x ∈ segmentsFrom seg path, x.1 ≠ [] ∧ slash ∉ x.1 := by
  induction path generalizing seg with
  | nil =>
    intro x hx
    by_cases h : seg = []
    · simp [segmentsFrom, h] at hx
    · simp only [segmentsFrom, if_neg h, List.mem_singleton] at hx
      exact hx ▸ ⟨h, hseg⟩
  | cons c p ih =>
    intro x hx
    unfold segmentsFrom at hx
    by_cases hc : c = slash
    · rw [if_pos hc] at hx
      by_cases h : seg = []
      · rw [if_pos h] at hx
        exact ih (by simp) x hx
      · rw [if_neg h] at hx
        rcases List.mem_cons.mp hx with rfl | hx
        · exact ⟨h, hseg⟩
        · exact ih (by simp) x hx
    · rw [if_neg hc] at hx
      exact ih (by simp [hseg, Ne.symm hc]) x hx

lemma segments_ok (path : List UInt8) : ∀ x ∈ segments path, x.1 ≠ [] ∧ slash ∉ x.1 :=
  segmentsFrom_ok (by simp) path

/-! ## Walking and creating -/

/-- No segment that is not the last is too long for a node's name. -/
def ShortSegments (segs : List (Name × Bool)) : Prop :=
  ∀ x ∈ segs, x.2 = false → x.1.length < maxName

instance (segs : List (Name × Bool)) : Decidable (ShortSegments segs) :=
  inferInstanceAs (Decidable (∀ x ∈ segs, _))

/-- Nodes live on at their addresses; the mount table and the files are not touched. -/
structure Kept (s s' : Ramfs) : Prop where
  live : ∀ x n, s.nodes x = some n → ∃ n', s'.nodes x = some n' ∧ n'.name = n.name ∧
    n'.parent = n.parent ∧ n'.dir = n.dir ∧ n'.data = n.data
  mounts : s'.mounts = s.mounts

lemma Kept.refl (s : Ramfs) : Kept s s := ⟨fun _ n hn => ⟨n, hn, rfl, rfl, rfl, rfl⟩, rfl⟩

lemma Kept.trans {s s' s'' : Ramfs} (h : Kept s s') (h' : Kept s' s'') : Kept s s'' := by
  refine ⟨fun x n hn => ?_, h'.mounts.trans h.mounts⟩
  obtain ⟨n', hn', h1, h2, h3, h4⟩ := h.live x n hn
  obtain ⟨n'', hn'', h1', h2', h3', h4'⟩ := h'.live x n' hn'
  exact ⟨n'', hn'', h1'.trans h1, h2'.trans h2, h3'.trans h3, h4'.trans h4⟩

lemma Grown.kept {s s' : Ramfs} {d a : ℕ} {k : Node} (hg : Grown s s' d a k) : Kept s s' := by
  refine ⟨fun x n hn => ?_, hg.mounts⟩
  obtain ⟨n', hn', h1, h2, h3, h4, _⟩ := hg.old hn
  exact ⟨n', hn', h1, h2, h3, h4⟩

/-- The name of a node made for a segment. -/
lemma newNode_name {d : ℕ} {seg : Name} {dir : Bool} (h : seg.length < maxName) :
    (newNode d seg dir).name = seg := List.take_of_length_le (by unfold maxName at *; omega)

/-- A new directory entry keeps the shape, and the siblings distinct if its name is short
and new. -/
theorem addNode_linked (h : Linked s) {d : ℕ} (hd : s.isDir d = true) (hname : NameOk name)
    (dir : Bool) :
    Linked (addNode s d name dir).1 ∧ Kept s (addNode s d name dir).1 ∧
      (Distinct s → name.length < maxName → (∀ c ∈ s.childrenOf d, s.nameOf c ≠ name) →
        Distinct (addNode s d name dir).1) ∧
      ∀ a, (addNode s d name dir).2 = some a →
        Grown s (addNode s d name dir).1 d a (newNode d name dir) := by
  obtain ⟨n, hn, _⟩ := isDir_iff.mp hd
  rcases addNode_spec hn name dir with ⟨heq, _⟩ | ⟨s', a, heq, _, hg⟩
  · rw [heq]
    exact ⟨h.of_nodes rfl (Nat.le_succ _), ⟨fun _ n hn => ⟨n, hn, rfl, rfl, rfl, rfl⟩, rfl⟩,
      fun hdist _ _ => hdist, nofun⟩
  · rw [heq]
    refine ⟨h.grown hg hd hname.take, hg.kept, fun hdist hlen hnew => hdist.grown h hg ?_,
      fun a' ha => ?_⟩
    · rwa [newNode_name hlen]
    · cases ha
      exact hg

/-- What a walk that creates leaves: a tree, and a directory in which the last segment is
not yet used. -/
structure Resolved (s : Ramfs) (r : Ramfs × Option (ℕ × Name)) : Prop where
  linked : Linked r.1
  kept : Kept s r.1
  leaf : ∀ d name, r.2 = some (d, name) → r.1.isDir d = true ∧ NameOk name ∧ name.length < maxName ∧
    ∀ c ∈ r.1.childrenOf d, r.1.nameOf c ≠ name

theorem resolveCreate_spec {segs : List (Name × Bool)}
    (hsegs : ∀ x ∈ segs, x.1 ≠ [] ∧ slash ∉ x.1) :
    ∀ {s : Ramfs} {cur : ℕ} {n : Node}, Linked s → s.nodes cur = some n →
      Resolved s (resolveCreate s cur segs) ∧
        (Distinct s → ShortSegments segs → Distinct (resolveCreate s cur segs).1) := by
  induction segs with
  | nil => exact fun h _ => ⟨⟨h, Kept.refl _, nofun⟩, fun hd _ => hd⟩
  | cons x rest ih =>
    intro s cur n h hcur
    obtain ⟨seg, final⟩ := x
    obtain ⟨hne, hplain⟩ := hsegs _ List.mem_cons_self
    have ih := @ih fun x hx => hsegs x (List.mem_cons_of_mem _ hx)
    have hrest : ShortSegments ((seg, final) :: rest) → ShortSegments rest :=
      fun hs x hx => hs x (List.mem_cons_of_mem _ hx)
    unfold resolveCreate
    by_cases hdot : seg = dot
    · rw [if_pos hdot]
      exact (ih h hcur).imp id fun hd hdist hs => hd hdist (hrest hs)
    rw [if_neg hdot]
    by_cases hdd : seg = dotDot
    · rw [if_pos hdd]
      obtain ⟨k, hk⟩ := h.parentOf hcur
      exact (ih h hk).imp id fun hd hdist hs => hd hdist (hrest hs)
    rw [if_neg hdd]
    by_cases hdir : s.isDir cur = false
    · rw [if_pos hdir]
      exact ⟨⟨h, Kept.refl _, nofun⟩, fun hd _ => hd⟩
    rw [if_neg hdir]
    have hdir' : s.isDir cur = true := by simpa using hdir
    have hok : NameOk seg := ⟨hne, hplain, hdot, hdd⟩
    cases hfind : findChild s cur seg with
    | some child =>
      obtain ⟨k, hk⟩ := h.findChild hfind
      exact (ih h hk).imp id fun hd hdist hs => hd hdist (hrest hs)
    | none =>
      have hnew := findChild_eq_none hfind
      dsimp only
      cases final with
      | true =>
        rw [if_pos rfl]
        by_cases hlen : maxName ≤ seg.length
        · rw [if_pos hlen]
          exact ⟨⟨h, Kept.refl _, nofun⟩, fun hd _ => hd⟩
        · rw [if_neg hlen]
          refine ⟨⟨h, Kept.refl _, fun d name heq => ?_⟩, fun hd _ => hd⟩
          cases heq
          exact ⟨hdir', hok, by omega, hnew⟩
      | false =>
        obtain ⟨hl, hkept, hdist, hgrown⟩ := addNode_linked h hdir' hok true
        rw [if_neg (by simp)]
        rcases hres : addNode s cur seg true with ⟨s', _ | child⟩
        · rw [hres] at hl hkept hdist
          exact ⟨⟨hl, hkept, nofun⟩, fun hd hs => hdist hd (hs _ List.mem_cons_self rfl) hnew⟩
        · rw [hres] at hl hkept hdist hgrown
          obtain ⟨hr, hrd⟩ := ih hl (hgrown child rfl).new
          exact ⟨⟨hr.linked, hkept.trans hr.kept, hr.leaf⟩, fun hd hs =>
            hrd (hdist hd (hs _ List.mem_cons_self rfl) hnew) (hrest hs)⟩

/-- What an operation that only creates leaves. -/
structure Created (s s' : Ramfs) : Prop where
  linked : Linked s'
  kept : Kept s s'

theorem makeNode_spec (h : Linked s) (path : List UInt8) (dir : Bool) :
    Created s (makeNode s path dir).1 ∧
      (Distinct s → ShortSegments (segments path) → Distinct (makeNode s path dir).1) ∧
      ∀ a, (makeNode s path dir).2 = some a → ∃ n, (makeNode s path dir).1.nodes a = some n ∧
        n.dir = dir ∧ n.children = [] := by
  obtain ⟨r, hr, _⟩ := h.rooted
  obtain ⟨hres, hdist⟩ := resolveCreate_spec (segments_ok path) h hr
  unfold makeNode
  rcases heq : resolveCreate s root (segments path) with ⟨s₁, _ | ⟨d, leaf⟩⟩
  · rw [heq] at hres hdist
    exact ⟨⟨hres.linked, hres.kept⟩, hdist, nofun⟩
  · rw [heq] at hres hdist
    obtain ⟨hdir, hname, hlen, hnew⟩ := hres.leaf d leaf rfl
    dsimp only
    by_cases hfind : (findChild s₁ d leaf).isSome = true
    · rw [if_pos hfind]
      exact ⟨⟨hres.linked, hres.kept⟩, hdist, nofun⟩
    · rw [if_neg hfind]
      obtain ⟨hl, hkept, hd, hgrown⟩ := addNode_linked hres.linked hdir hname dir
      exact ⟨⟨hl, hres.kept.trans hkept⟩, fun hs hshort => hd (hdist hs hshort) hlen hnew,
        fun a ha => ⟨_, (hgrown a ha).new, rfl, rfl⟩⟩

/-! ## Changing a node in place -/

/-- The node at `a` got new contents; where it hangs and what hangs from it are as before. -/
lemma Linked.set (h : Linked s) {n n' : Node} (ha : s.nodes a = some n) (hname : n'.name = n.name)
    (hdir : n'.dir = n.dir) (hpar : n'.parent = n.parent) (hch : n'.children = n.children) :
    Linked (s.set a n') := by
  have hat : ∀ x, (s.set a n').nodes x = if x = a then some n' else s.nodes x := by
    intro x
    simp [Ramfs.set, Function.update_apply]
  have hnew : ∀ x m, s.nodes x = some m → ∃ m', (s.set a n').nodes x = some m' ∧ m'.name = m.name ∧
      m'.dir = m.dir ∧ m'.parent = m.parent ∧ m'.children = m.children := by
    intro x m hm
    rw [hat]
    by_cases hx : x = a
    · cases (hx ▸ hm).symm.trans ha
      exact ⟨n', if_pos hx, hname, hdir, hpar, hch⟩
    · exact ⟨m, (if_neg hx).trans hm, rfl, rfl, rfl, rfl⟩
  have hold : ∀ x m', (s.set a n').nodes x = some m' → ∃ m, s.nodes x = some m ∧ m'.name = m.name ∧
      m'.dir = m.dir ∧ m'.parent = m.parent ∧ m'.children = m.children := by
    intro x m' hm'
    rw [hat] at hm'
    by_cases hx : x = a
    · rw [if_pos hx] at hm'
      cases hm'
      exact ⟨n, hx ▸ ha, hname, hdir, hpar, hch⟩
    · exact ⟨m', (if_neg hx).symm.trans hm', rfl, rfl, rfl, rfl⟩
  obtain ⟨depth, hzero, hstep, hbound⟩ := h.depth
  refine ⟨?_, ?_, ?_, ?_, ?_, ?_, ?_, depth, hzero, ?_, ?_⟩
  · rw [hat, if_neg (h.ne_zero ha).symm]
    exact h.null
  · obtain ⟨r, hr, hrd, hrp⟩ := h.rooted
    obtain ⟨r', hr', _, hd, hp, _⟩ := hnew root r hr
    exact ⟨r', hr', hd.trans hrd, hp.trans hrp⟩
  · intro d m' c hd hc
    obtain ⟨m, hm, _, _, _, hm4⟩ := hold d m' hd
    obtain ⟨k, hk, hkp, hne⟩ := h.child d m c hm (hm4 ▸ hc)
    obtain ⟨k', hk', _, _, hp, _⟩ := hnew c k hk
    exact ⟨k', hk', hp.trans hkp, hne⟩
  · intro c k' hc hne
    obtain ⟨k, hk, _, _, hp, _⟩ := hold c k' hc
    obtain ⟨m, hm, hmem⟩ := h.listed c k hk hne
    obtain ⟨m', hm', _, _, _, hm4⟩ := hnew _ m hm
    exact ⟨m', hp ▸ hm', hm4 ▸ hmem⟩
  · intro d m' hd
    obtain ⟨m, hm, _, _, _, hm4⟩ := hold d m' hd
    exact hm4 ▸ h.nodup d m hm
  · intro c k' hc hne
    obtain ⟨k, hk, hnm, _⟩ := hold c k' hc
    exact hnm ▸ h.names c k hk hne
  · intro d m' hd hch'
    obtain ⟨m, hm, _, hdr, _, hm4⟩ := hold d m' hd
    exact hdr.trans (h.dirs d m hm (hm4 ▸ hch'))
  · intro c k' hc hne
    obtain ⟨k, hk, _, _, hp, _⟩ := hold c k' hc
    exact hp ▸ hstep c k hk hne
  · intro c k' hc hne
    obtain ⟨k, hk, _⟩ := hold c k' hc
    exact hbound c k hk hne

lemma nameOf_set {n n' : Node} (ha : s.nodes a = some n) (hname : n'.name = n.name) (x : ℕ) :
    (s.set a n').nameOf x = s.nameOf x := by
  by_cases hx : x = a <;> simp [Ramfs.set, Ramfs.nameOf, hx, ha, hname]

lemma Distinct.set (h : Distinct s) {n n' : Node} (ha : s.nodes a = some n)
    (hname : n'.name = n.name) (hch : n'.children = n.children) : Distinct (s.set a n') := by
  intro d m c c' hd hc hc' hsame
  rw [nameOf_set ha hname, nameOf_set ha hname] at hsame
  by_cases hda : d = a
  · have hm : m = n' := by simpa [Ramfs.set, hda] using hd.symm
    rw [hm, hch] at hc hc'
    exact h a n c c' ha hc hc' hsame
  · exact h d m c c' (by simpa [Ramfs.set, hda] using hd) hc hc' hsame

theorem tfsWrite_spec (h : Linked s) (node : ℕ) (data : List UInt8) :
    Linked (tfsWrite s node data).1 ∧ (Distinct s → Distinct (tfsWrite s node data).1) ∧
      (tfsWrite s node data).1.mounts = s.mounts ∧
      ∀ x, (s.nodes x).isSome → ((tfsWrite s node data).1.nodes x).isSome := by
  have hset : ∀ {t : Ramfs} {n n' : Node}, t.nodes node = some n → ∀ x, (t.nodes x).isSome →
      ((t.set node n').nodes x).isSome := by
    intro t n n' _ x hx
    by_cases hxn : x = node <;> simp [Ramfs.set, hxn, hx]
  unfold tfsWrite
  cases hn : s.nodes node with
  | none => exact ⟨h, id, rfl, fun _ => id⟩
  | some n =>
    dsimp only
    by_cases hdir : n.dir = true
    · rw [if_pos hdir]
      exact ⟨h, id, rfl, fun _ => id⟩
    rw [if_neg hdir]
    by_cases hnil : data = []
    · rw [if_pos hnil]
      exact ⟨h.set hn rfl rfl rfl rfl, fun hd => hd.set hn rfl rfl, rfl, hset hn⟩
    · rw [if_neg hnil]
      have hl : Linked { s with asked := s.asked + 1 } := h.of_nodes rfl (Nat.le_succ _)
      cases hg : s.grants s.asked with
      | none =>
        rw [show s.tmalloc = ({ s with asked := s.asked + 1 }, none) from Prod.ext rfl hg]
        exact ⟨hl, id, rfl, fun _ => id⟩
      | some b =>
        rw [show s.tmalloc = ({ s with asked := s.asked + 1 }, some b) from Prod.ext rfl hg]
        exact ⟨hl.set hn rfl rfl rfl rfl, fun hd => Distinct.set (s :=
          { s with asked := s.asked + 1 }) hd hn rfl rfl,
          rfl, hset (t := { s with asked := s.asked + 1 }) hn⟩

theorem tfsAddVirtual_spec (h : Linked s) (d : ℕ) (hname : NameOk name)
    (hlen : name.length < maxName) :
    Linked (tfsAddVirtual s d name).1 ∧ Kept s (tfsAddVirtual s d name).1 ∧
      (Distinct s → (∀ c ∈ s.childrenOf d, s.nameOf c ≠ name) →
        Distinct (tfsAddVirtual s d name).1) ∧
      ∀ c ∈ (tfsAddVirtual s d name).1.childrenOf d, (tfsAddVirtual s d name).1.nameOf c = name ∨
        c ∈ s.childrenOf d ∧ (tfsAddVirtual s d name).1.nameOf c = s.nameOf c := by
  unfold tfsAddVirtual
  by_cases hd : s.isDir d = false
  · rw [if_pos hd]
    exact ⟨h, Kept.refl s, fun hdist _ => hdist, fun c hc => Or.inr ⟨hc, rfl⟩⟩
  · rw [if_neg hd]
    obtain ⟨n, hn, _⟩ := isDir_iff.mp (show s.isDir d = true by simpa using hd)
    obtain ⟨hl, hkept, hdist, _⟩ := addNode_linked h (by simpa using hd) hname false
    rcases addNode_spec hn name false with ⟨hres, _⟩ | ⟨s', a, hres, _, hg⟩
    · rw [hres] at hl hkept hdist ⊢
      exact ⟨hl, hkept, fun hs hnew => hdist hs hlen hnew, fun c hc => Or.inr ⟨hc, rfl⟩⟩
    · rw [hres] at hl hkept hdist ⊢
      dsimp only at hl hkept hdist ⊢
      rw [hg.new, Option.elim_some]
      refine ⟨hl.set hg.new rfl rfl rfl rfl, hkept.trans ⟨fun x m hm => ?_, rfl⟩,
        fun hs hnew => (hdist hs hlen hnew).set hg.new rfl rfl, fun c hc => ?_⟩
      · by_cases hx : x = a
        · cases (hx ▸ hm).symm.trans hg.new
          exact ⟨{ newNode d name false with virtual := true }, by simp [Ramfs.set, hx], rfl, rfl,
            rfl, rfl⟩
        · exact ⟨m, by simpa [Ramfs.set, hx] using hm, rfl, rfl, rfl, rfl⟩
      · have hnm : ∀ x, (s'.set a { newNode d name false with virtual := true }).nameOf x =
          s'.nameOf x :=
          nameOf_set hg.new rfl
        rw [hnm]
        obtain ⟨n', hn', hch'⟩ := hg.dir
        have hda : d ≠ a := fun he => nomatch (he ▸ hn').symm.trans hg.fresh
        have hch : c ∈ a :: n'.children := by
          rwa [childrenOf_of_some (show (s'.set a _).nodes d =
            _ by simpa [Ramfs.set, hda] using hch')] at hc
        rcases List.mem_cons.mp hch with rfl | hc
        · exact Or.inl ((nameOf_of_some hg.new).trans (newNode_name hlen))
        · obtain ⟨k, hk, _⟩ := h.child d n' c hn' hc
          exact Or.inr ⟨by rwa [childrenOf_of_some hn'], hg.nameOf hk⟩

end TraitOS.Tfs
