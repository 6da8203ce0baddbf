import TraitOS.TfsView

/-!
# Creating a node and looking it up

`resolve_create` and `tfs_lookup` walk the same segments. A walk that creates only adds nodes
under names that were not used, so a lookup that succeeded still does, and the created node is
found at its path. The directories made on the way stay when the creation fails in the end.
-/
namespace TraitOS.Tfs

variable {s : Ramfs} {cur : ℕ} {n : Node}

/-! ## Trees that only grow -/

/-- What was found is still found, and an old node that is found was found before. -/
structure Extends (s s' : Ramfs) : Prop where
  live : ∀ x n, s.nodes x = some n → ∃ n', s'.nodes x = some n' ∧ n'.parent = n.parent ∧
    n'.dir = n.dir
  found : ∀ d n x c, s.nodes d = some n → findChild s d x = some c → findChild s' d x = some c
  old : ∀ d n x c m, s.nodes d = some n → findChild s' d x = some c → s.nodes c = some m →
    findChild s d x = some c

lemma Extends.of_nodes {s s' : Ramfs} (h : s'.nodes = s.nodes) : Extends s s' := by
  have hfind (d : ℕ) (x : Name) : findChild s' d x = findChild s d x := by
    simp [findChild, Ramfs.childrenOf, Ramfs.nameOf, h]
  refine ⟨fun x n hn => ⟨n, h ▸ hn, rfl, rfl⟩, fun d n x c _ hc => (hfind d x).trans hc,
    fun d n x c m _ hc _ => (hfind d x).symm.trans hc⟩

lemma Extends.trans {s s' s'' : Ramfs} (h : Extends s s') (h' : Extends s' s'') : Extends s s'' :=
  by
  refine ⟨fun x n hn => ?_, fun d n x c hd hc => ?_, fun d n x c m hd hc hm => ?_⟩
  · obtain ⟨n', hn', hp, hdir⟩ := h.live x n hn
    obtain ⟨n'', hn'', hp', hdir'⟩ := h'.live x n' hn'
    exact ⟨n'', hn'', hp'.trans hp, hdir'.trans hdir⟩
  · obtain ⟨n', hn', _⟩ := h.live d n hd
    exact h'.found d n' x c hn' (h.found d n x c hd hc)
  · obtain ⟨n', hn', _⟩ := h.live d n hd
    obtain ⟨m', hm', _⟩ := h.live c m hm
    exact h.old d n x c m hd (h'.old d n' x c m' hn' hc hm') hm

lemma Grown.extends {s s' : Ramfs} {d a : ℕ} {k : Node} (hg : Grown s s' d a k) (h : Linked s)
    (hnew : findChild s d k.name = none) : Extends s s' := by
  refine ⟨fun x n hn => ?_, fun e n x c he hc => ?_, fun e n x c m he hc hm => ?_⟩
  · obtain ⟨n', hn', _, hp, hdir, _⟩ := hg.old hn
    exact ⟨n', hn', hp, hdir⟩
  · by_cases hed : e = d
    · subst hed
      rw [hg.findChild_dir h, if_neg, hc]
      exact fun hx => nomatch (hx ▸ hc).symm.trans hnew
    · rwa [hg.findChild_old h he hed]
  · by_cases hed : e = d
    · subst hed
      rw [hg.findChild_dir h] at hc
      split_ifs at hc with hx
      · cases hc
        exact nomatch hg.fresh.symm.trans hm
      · exact hc
    · rwa [hg.findChild_old h he hed] at hc

section Extend
variable {s s' : Ramfs}

lemma Extends.isDir (he : Extends s s') {x : ℕ} (hx : s.nodes x = some n) : s'.isDir x =
    s.isDir x := by
  obtain ⟨n', hn', _, hdir⟩ := he.live x n hx
  simp [Ramfs.isDir, hx, hn', hdir]

lemma Extends.parentOf (he : Extends s s') {x : ℕ} (hx : s.nodes x = some n) :
    s'.parentOf x = s.parentOf x := by
  obtain ⟨n', hn', hp, _⟩ := he.live x n hx
  simp [Ramfs.parentOf, hx, hn', hp]

/-- The nodes a walk comes to behind its start. -/
def passed (s : Ramfs) (cur : ℕ) : List (Name × Bool) → List ℕ
  | [] => []
  | (seg, _) :: rest =>
    if seg = dot then passed s cur rest
    else if seg = dotDot then s.parentOf cur :: passed s (s.parentOf cur) rest
    else if s.isDir cur = false then []
    else (findChild s cur seg).elim [] fun child => child :: passed s child rest

lemma lookupFrom_append (cur : ℕ) (p q : List (Name × Bool)) :
    lookupFrom s cur (p ++ q) = (lookupFrom s cur p).bind fun a => lookupFrom s a q := by
  induction p generalizing cur with
  | nil => rfl
  | cons x p ih =>
    obtain ⟨seg, final⟩ := x
    simp only [List.cons_append, lookupFrom, ih]
    split_ifs
    · rfl
    · rfl
    · rfl
    · rw [Option.bind_assoc]

/-- Every node a walk comes to is live. -/
lemma passed_live (h : Linked s) {segs : List (Name × Bool)} :
    ∀ {cur : ℕ} {n : Node}, s.nodes cur = some n → ∀ y ∈ passed s cur segs, ∃ m, s.nodes y =
      some m := by
  induction segs with
  | nil => exact fun _ y hy => nomatch hy
  | cons x rest ih =>
    obtain ⟨seg, final⟩ := x
    intro cur n hcur y hy
    unfold passed at hy
    split_ifs at hy with hdot hdd hdir
    · exact ih hcur y hy
    · obtain ⟨k, hk⟩ := h.parentOf hcur
      rcases List.mem_cons.mp hy with rfl | hy
      · exact ⟨k, hk⟩
      · exact ih hk y hy
    · exact nomatch hy
    · cases hfind : findChild s cur seg with
      | none => simp [hfind] at hy
      | some child =>
        obtain ⟨k, hk⟩ := h.findChild hfind
        rw [hfind, Option.elim_some] at hy
        rcases List.mem_cons.mp hy with rfl | hy
        · exact ⟨k, hk⟩
        · exact ih hk y hy

/-- A lookup in a tree is the same lookup in one that extends it. -/
lemma lookupFrom_of_extends (he : Extends s s') (h : Linked s) {segs : List (Name × Bool)} {a : ℕ} :
    ∀ {cur : ℕ} {n : Node}, s.nodes cur = some n → lookupFrom s cur segs = some a →
      lookupFrom s' cur segs = some a := by
  induction segs with
  | nil => exact fun _ ha => ha
  | cons x rest ih =>
    obtain ⟨seg, final⟩ := x
    intro cur n hcur ha
    unfold lookupFrom at ha ⊢
    rw [he.isDir hcur, he.parentOf hcur]
    split_ifs at ha ⊢ with hdot hdd
    · exact ih hcur ha
    · obtain ⟨k, hk⟩ := h.parentOf hcur
      exact ih hk ha
    · obtain ⟨child, hfind, ha⟩ := Option.bind_eq_some_iff.mp ha
      obtain ⟨k, hk⟩ := h.findChild hfind
      rw [he.found cur n seg child hcur hfind]
      exact ih hk ha

lemma passed_of_extends (he : Extends s s') (h : Linked s) {segs : List (Name × Bool)} {y : ℕ} :
    ∀ {cur : ℕ} {n : Node}, s.nodes cur = some n → y ∈ passed s cur segs →
      y ∈ passed s' cur segs := by
  induction segs with
  | nil => exact fun _ hy => hy
  | cons x rest ih =>
    obtain ⟨seg, final⟩ := x
    intro cur n hcur hy
    unfold passed at hy ⊢
    rw [he.isDir hcur, he.parentOf hcur]
    split_ifs at hy ⊢ with hdot hdd hdir
    · exact ih hcur hy
    · obtain ⟨k, hk⟩ := h.parentOf hcur
      exact List.mem_cons.mpr ((List.mem_cons.mp hy).imp_right (ih hk))
    · exact hy
    · cases hfind : findChild s cur seg with
      | none => simp [hfind] at hy
      | some child =>
        obtain ⟨k, hk⟩ := h.findChild hfind
        rw [hfind, Option.elim_some] at hy
        rw [he.found cur n seg child hcur hfind, Option.elim_some]
        exact List.mem_cons.mpr ((List.mem_cons.mp hy).imp_right (ih hk))

/-- A lookup that comes to old nodes only was there before. -/
lemma lookupFrom_of_old (he : Extends s s') (h : Linked s) {segs : List (Name × Bool)} {a : ℕ} :
    ∀ {cur : ℕ} {n : Node}, s.nodes cur = some n → lookupFrom s' cur segs = some a →
      (∀ y ∈ passed s' cur segs, s.nodes y ≠ none) → lookupFrom s cur segs = some a := by
  induction segs with
  | nil => exact fun _ ha _ => ha
  | cons x rest ih =>
    obtain ⟨seg, final⟩ := x
    intro cur n hcur ha hold
    unfold lookupFrom at ha ⊢
    unfold passed at hold
    rw [he.isDir hcur, he.parentOf hcur] at ha hold
    split_ifs at ha hold ⊢ with hdot hdd
    · exact ih hcur ha hold
    · obtain ⟨k, hk⟩ := h.parentOf hcur
      exact ih hk ha fun y hy => hold y (List.mem_cons_of_mem _ hy)
    · obtain ⟨child, hfind, ha⟩ := Option.bind_eq_some_iff.mp ha
      rw [hfind, Option.elim_some] at hold
      obtain ⟨k, hk⟩ := Option.ne_none_iff_exists'.mp (hold child List.mem_cons_self)
      rw [he.old cur n seg child k hcur hfind hk, Option.bind_some]
      exact ih hk ha fun y hy => hold y (List.mem_cons_of_mem _ hy)

end Extend

/-! ## The walk that creates -/

/-- Only the last segment is the one the path ends with. -/
def EndsLast : List (Name × Bool) → Prop
  | [] => True
  | (_, final) :: rest => (final = true → rest = []) ∧ EndsLast rest

lemma segmentsFrom_endsLast (seg : Name) (path : List UInt8) : EndsLast (segmentsFrom seg path) :=
  by
  induction path generalizing seg with
  | nil =>
    unfold segmentsFrom
    split_ifs
    · trivial
    · exact ⟨fun _ => rfl, trivial⟩
  | cons c path ih =>
    unfold segmentsFrom
    split_ifs
    · exact ih []
    · exact ⟨fun h => (by cases h), ih []⟩
    · exact ih _

/-- What a walk that creates has done: the tree has grown by directories it came to, and a
missing last segment is left over. -/
structure Walks (s : Ramfs) (cur : ℕ) (segs : List (Name × Bool)) (r : Ramfs × Option (ℕ × Name)) :
    Prop where
  ext : Extends s r.1
  made : ∀ y m, r.1.nodes y = some m → s.nodes y = none → m.dir = true ∧ y ∈ passed r.1 cur segs
  leaf : ∀ d x, r.2 = some (d, x) → ∃ front, segs = front ++ [(x, true)] ∧
    lookupFrom r.1 cur front = some d

section Walk
variable {s s₁ : Ramfs} {cur child : ℕ} {x : Name × Bool} {rest : List (Name × Bool)}
  {r : Ramfs × Option (ℕ × Name)}

lemma Walks.stay (s : Ramfs) (cur : ℕ) (segs : List (Name × Bool)) : Walks s cur segs (s, none) :=
  ⟨.of_nodes rfl, fun _ _ hy hno => (nomatch hno.symm.trans hy), fun _ _ h => (nomatch h)⟩

/-- A step of the walk in front of the rest. -/
lemma Walks.cons (hw : Walks s child rest r)
    (hlook : ∀ q, lookupFrom r.1 cur (x :: q) = lookupFrom r.1 child q)
    (hpass : ∀ y ∈ passed r.1 child rest, y ∈ passed r.1 cur (x :: rest)) :
    Walks s cur (x :: rest) r := by
  refine ⟨hw.ext, fun y m hy hno => (hw.made y m hy hno).imp_right (hpass y), fun d leaf hr => ?_⟩
  obtain ⟨front, hfront, hd⟩ := hw.leaf d leaf hr
  exact ⟨x :: front, by rw [hfront, List.cons_append], (hlook front).trans hd⟩

/-- The step into a child. -/
lemma Walks.into (hw : Walks s child rest r) (hok : NameOk x.1) (hdir : r.1.isDir cur = true)
    (hfind : findChild r.1 cur x.1 = some child) : Walks s cur (x :: rest) r := by
  refine hw.cons (fun q => ?_) fun y hy => ?_
  · simp [lookupFrom, hok.notDot, hok.notDotDot, hdir, hfind]
  · simp [passed, hok.notDot, hok.notDotDot, hdir, hfind, hy]

/-- A directory was made in front of the walk, which then came to it. -/
lemma Walks.grown {k : Node} {segs : List (Name × Bool)} {d : ℕ} (hw : Walks s₁ cur segs r)
    (h : Linked s) (hg : Grown s s₁ d child k) (hnew : findChild s d k.name = none)
    (hk : k.dir = true) (hpass : child ∈ passed r.1 cur segs) : Walks s cur segs r := by
  refine ⟨(hg.extends h hnew).trans hw.ext, fun y m hy hno => ?_, hw.leaf⟩
  cases hy₁ : s₁.nodes y with
  | none => exact hw.made y m hy hy₁
  | some m₁ =>
    -- the only node of the first step is the new one
    rcases hg.cases hy₁ with ⟨rfl, rfl⟩ | ⟨m₀, hm₀, _⟩
    · obtain ⟨m', hm', _, hdir⟩ := hw.ext.live y m₁ hy₁
      cases hm'.symm.trans hy
      exact ⟨hdir.trans hk, hpass⟩
    · exact nomatch hno.symm.trans hm₀

end Walk

theorem resolveCreate_walks {segs : List (Name × Bool)} (hsegs : ∀ x ∈ segs, x.1 ≠ [] ∧ slash ∉ x.1)
    (hshort : ∀ x ∈ segs, x.1.length < maxName) (hlast : EndsLast segs) :
    ∀ {s : Ramfs} {cur : ℕ} {n : Node}, Linked s → s.nodes cur = some n →
      Walks s cur segs (resolveCreate s cur segs) := by
  induction segs with
  | nil => exact fun _ _ => Walks.stay _ _ _
  | cons x rest ih =>
    intro s cur n h hcur
    obtain ⟨seg, final⟩ := x
    obtain ⟨hne, hplain⟩ := hsegs _ List.mem_cons_self
    have hlen : seg.length < maxName := hshort _ List.mem_cons_self
    have ih := @ih (fun x hx => hsegs x (List.mem_cons_of_mem _ hx))
      (fun x hx => hshort x (List.mem_cons_of_mem _ hx))
      hlast.2
    unfold resolveCreate
    by_cases hdot : seg = dot
    · rw [if_pos hdot]
      exact (ih h hcur).cons (fun q => by simp [lookupFrom, hdot]) fun y hy => by
        simpa [passed, hdot] using hy
    rw [if_neg hdot]
    by_cases hdd : seg = dotDot
    · rw [if_pos hdd]
      subst hdd
      obtain ⟨k, hk⟩ := h.parentOf hcur
      have hw := ih h hk
      have hpar := hw.ext.parentOf hcur
      exact hw.cons (fun q => by simp [lookupFrom, hdot, hpar]) fun y hy => by
        simp [passed, hdot, hpar, hy]
    rw [if_neg hdd]
    have hok : NameOk seg := ⟨hne, hplain, hdot, hdd⟩
    by_cases hdir : s.isDir cur = false
    · rw [if_pos hdir]
      exact Walks.stay _ _ _
    rw [if_neg hdir]
    have hdir' : s.isDir cur = true := by simpa using hdir
    cases hfind : findChild s cur seg with
    | some child =>
      obtain ⟨k, hk⟩ := h.findChild hfind
      have hw := ih h hk
      exact hw.into hok ((hw.ext.isDir hcur).trans hdir') (hw.ext.found cur n seg child hcur hfind)
    | none =>
      dsimp only
      cases final with
      | true =>
        rw [if_pos rfl, if_neg (not_le.mpr hlen)]
        refine ⟨.of_nodes rfl, fun _ _ hy hno => (by cases hno.symm.trans hy), fun d leaf hr => ?_⟩
        cases hr
        exact ⟨[], by rw [hlast.1 rfl, List.nil_append], rfl⟩
      | false =>
        rw [if_neg (by simp)]
        have hname : (newNode cur seg true).name = seg := newNode_name hlen
        rcases addNode_spec hcur seg true with ⟨heq, _⟩ | ⟨s₁, child, heq, _, hg⟩
        · rw [heq]
          exact ⟨.of_nodes rfl, fun _ _ hy hno => (by cases hno.symm.trans hy),
            fun _ _ hr => (by cases hr)⟩
        · rw [heq]
          have hl₁ := h.grown hg hdir' (by rwa [hname])
          have hw := ih hl₁ hg.new
          obtain ⟨nd, _, hnd'⟩ := hg.dir
          have hfound : findChild s₁ cur seg = some child := by
            rw [hg.findChild_dir h, if_pos hname.symm]
          have hfound' := hw.ext.found cur _ seg child hnd' hfound
          have hdir₁ : (resolveCreate s₁ child rest).1.isDir cur = true := by
            rw [hw.ext.isDir hnd', (hg.extends h (by rwa [hname])).isDir hcur, hdir']
          refine (@Walks.into s₁ cur child (seg, false) rest _ hw hok hdir₁ hfound').grown h hg
            (by rwa [hname]) rfl ?_
          simp [passed, hdot, hdd, hdir₁, hfound']

/-- A lookup that succeeds leaves the walk nothing to create. -/
lemma resolveCreate_of_lookup {segs : List (Name × Bool)} {a : ℕ} :
    ∀ {cur : ℕ}, lookupFrom s cur segs = some a → resolveCreate s cur segs = (s, none) := by
  induction segs with
  | nil => exact fun _ => rfl
  | cons x rest ih =>
    obtain ⟨seg, final⟩ := x
    intro cur ha
    unfold lookupFrom at ha
    unfold resolveCreate
    split_ifs at ha with hdot hdd hdir
    · rw [if_pos hdot]
      exact ih ha
    · rw [if_neg hdot, if_pos hdd]
      exact ih ha
    · obtain ⟨child, hfind, ha⟩ := Option.bind_eq_some_iff.mp ha
      rw [if_neg hdot, if_neg hdd, if_neg hdir, hfind]
      exact ih ha

/-! ## Create, then look up -/

/-- A directory the creation of a path has made on its way. -/
def NewParent (s s' : Ramfs) (path : List UInt8) (y : ℕ) : Prop :=
  s.nodes y = none ∧ s'.isDir y = true ∧ y ∈ passed s' root (segments path)

/-- What the creation of a path is for. -/
structure Creates (s : Ramfs) (path : List UInt8) (dir : Bool) (r : Ramfs × Option ℕ) : Prop where
  found : ∀ n, r.2 = some n → tfsLookup r.1 path = some n
  fresh : ∀ n, r.2 = some n → s.nodes n = none ∧
    ∃ k, r.1.nodes n = some k ∧ k.dir = dir ∧ k.children = [] ∧ k.data = []
  kept : ∀ n, r.2 = some n → ∀ q a, tfsLookup s q = some a → tfsLookup r.1 q = some a
  through : ∀ n, r.2 = some n → ∀ q a, tfsLookup r.1 q = some a → tfsLookup s q = none →
    ∃ y ∈ passed r.1 root (segments q), y = n ∨ NewParent s r.1 path y
  there : ∀ a, tfsLookup s path = some a → r = (s, none)

lemma Creates.of_none {s s' : Ramfs} {path : List UInt8} {dir : Bool}
    (hthere : ∀ a, tfsLookup s path = some a → s' = s) : Creates s path dir (s', none) :=
  ⟨fun _ h => (nomatch h), fun _ h => (nomatch h), fun _ h => (nomatch h), fun _ h => (nomatch h),
    fun a ha => by rw [hthere a ha]⟩

lemma makeNode_creates (h : Linked s) (path : List UInt8)
    (hshort : ∀ x ∈ segments path, x.1.length < maxName) (dir : Bool) :
    Creates s path dir (makeNode s path dir) := by
  obtain ⟨rn, hr, _⟩ := h.rooted
  have hres := (resolveCreate_spec (segments_ok path) h hr).1
  have hw := resolveCreate_walks (segments_ok path) hshort (segmentsFrom_endsLast [] path) h hr
  have hthere : ∀ a, tfsLookup s path = some a → resolveCreate s root (segments path) = (s, none) :=
    fun a ha => resolveCreate_of_lookup ha
  unfold makeNode
  obtain ⟨⟨s₁, _ | ⟨d, leaf⟩⟩, heq⟩ : ∃ r, resolveCreate s root (segments path) = r := ⟨_, rfl⟩
  · rw [heq] at hthere ⊢
    exact .of_none fun a ha => (Prod.mk.inj (hthere a ha)).1
  rw [heq] at hres hw hthere ⊢
  have hmissing : ∀ a, tfsLookup s path ≠ some a := fun a ha => by
    cases (Prod.mk.inj (hthere a ha)).2
  obtain ⟨hdir, hok, hlen, hunused⟩ := hres.leaf d leaf rfl
  have hnew : findChild s₁ d leaf = none := by simpa [findChild] using hunused
  obtain ⟨nd, hnd, _⟩ := isDir_iff.mp hdir
  dsimp only
  rw [if_neg (by simp [hnew])]
  have hname : (newNode d leaf dir).name = leaf := newNode_name hlen
  rcases addNode_spec hnd leaf dir with ⟨hadd, _⟩ | ⟨s₂, n, hadd, _, hg⟩
  · rw [hadd]
    exact .of_none fun a ha => absurd ha (hmissing a)
  rw [hadd]
  have hlast := hg.extends hres.linked (by rwa [hname])
  have hext := hw.ext.trans hlast
  have hl₂ : Linked s₂ := hres.linked.grown hg hdir (by rwa [hname])
  obtain ⟨r₁, hr₁, _⟩ := hres.linked.rooted
  obtain ⟨r₂, hr₂, _⟩ := hl₂.rooted
  refine ⟨fun m hm => ?_, fun m hm => ?_, fun _ _ q a ha => lookupFrom_of_extends hext h hr ha,
    fun m hm q a ha hno => ?_, fun a ha => absurd ha (hmissing a)⟩
  · cases hm
    obtain ⟨front, hfront, hd⟩ := hw.leaf d leaf rfl
    have hd₂ := lookupFrom_of_extends hlast hres.linked hr₁ hd
    have hdir₂ : s₂.isDir d = true := (hlast.isDir hnd).trans hdir
    have hfind : findChild s₂ d leaf = some n := by
      rw [hg.findChild_dir hres.linked, if_pos hname.symm]
    rw [tfsLookup, hfront, lookupFrom_append, hd₂]
    simp [lookupFrom, hok.notDot, hok.notDotDot, hdir₂, hfind]
  · cases hm
    refine ⟨?_, _, hg.new, rfl, rfl, rfl⟩
    cases hold : s.nodes n with
    | none => rfl
    | some k =>
      obtain ⟨k', hk', _⟩ := hw.ext.live n k hold
      cases hg.fresh.symm.trans hk'
  · cases hm
    -- otherwise the walk would come to old nodes only
    by_contra hnone
    refine absurd (lookupFrom_of_old hext h hr ha fun y hy hyno => hnone ⟨y, hy, ?_⟩) (by
      rw [show lookupFrom s root (segments q) = none from hno]
      exact fun h => (by cases h))
    obtain ⟨m₂, hm₂⟩ := passed_live hl₂ hr₂ y hy
    rcases hg.cases hm₂ with ⟨rfl, _⟩ | ⟨m₁, hm₁, _⟩
    · exact Or.inl rfl
    · obtain ⟨hmdir, hpass⟩ := hw.made y m₁ hm₁ hyno
      exact Or.inr ⟨hyno, (hlast.isDir hm₁).trans (isDir_iff.mpr ⟨m₁, hm₁, hmdir⟩),
        passed_of_extends hlast hres.linked hr₁ hpass⟩

/-! ## Creation that fails -/

/-- The first segment that is missing from the tree, with the directory it is missing from and
whether the path ends with it. -/
def firstMissing (s : Ramfs) (cur : ℕ) : List (Name × Bool) → Option (ℕ × Name × Bool)
  | [] => none
  | (seg, final) :: rest =>
    if seg = dot then firstMissing s cur rest
    else if seg = dotDot then firstMissing s (s.parentOf cur) rest
    else if s.isDir cur = false then none
    else match findChild s cur seg with
      | some child => firstMissing s child rest
      | none => some (cur, seg, final)

/-- A segment in front of the last one is missing, and the heap has a node for it. -/
def MakesParent (s : Ramfs) (path : List UInt8) : Prop :=
  ∃ d x a, firstMissing s root (segments path) = some (d, x, false) ∧ s.grants s.asked = some a ∧
    a ≠ 0 ∧ s.nodes a = none

/-- Everything but what the heap was asked is as before. -/
def SameTree (s s' : Ramfs) : Prop := s'.nodes = s.nodes ∧ s'.mounts = s.mounts

lemma addNode_kept {d : ℕ} (hd : s.isDir d = true) (name : Name) (dir : Bool) :
    Kept s (addNode s d name dir).1 := by
  obtain ⟨n, hn, _⟩ := isDir_iff.mp hd
  rcases addNode_spec hn name dir with ⟨heq, _⟩ | ⟨s', a, heq, _, hg⟩
  · rw [heq]
    exact ⟨fun _ n hn => ⟨n, hn, rfl, rfl, rfl, rfl⟩, rfl⟩
  · rw [heq]
    exact hg.kept

/-- Whatever the tree looks like, the walk only adds to it. -/
lemma resolveCreate_kept {segs : List (Name × Bool)} :
    ∀ {s : Ramfs} {cur : ℕ}, Kept s (resolveCreate s cur segs).1 ∧
      ∀ d x, (resolveCreate s cur segs).2 = some (d, x) → (resolveCreate s cur segs).1.isDir d =
        true := by
  induction segs with
  | nil => exact ⟨Kept.refl _, fun _ _ h => (by cases h)⟩
  | cons x rest ih =>
    obtain ⟨seg, final⟩ := x
    intro s cur
    unfold resolveCreate
    by_cases hdot : seg = dot
    · rw [if_pos hdot]
      exact ih
    rw [if_neg hdot]
    by_cases hdd : seg = dotDot
    · rw [if_pos hdd]
      exact ih
    rw [if_neg hdd]
    by_cases hdir : s.isDir cur = false
    · rw [if_pos hdir]
      exact ⟨Kept.refl _, fun _ _ h => (by cases h)⟩
    rw [if_neg hdir]
    have hdir' : s.isDir cur = true := by simpa using hdir
    cases hfind : findChild s cur seg with
    | some child => exact ih
    | none =>
      dsimp only
      cases final with
      | true =>
        rw [if_pos rfl]
        split_ifs
        · exact ⟨Kept.refl _, fun _ _ h => (by cases h)⟩
        · refine ⟨Kept.refl _, fun d leaf h => ?_⟩
          cases h
          exact hdir'
      | false =>
        rw [if_neg (by simp)]
        have hkept := addNode_kept hdir' seg true
        rcases hadd : addNode s cur seg true with ⟨s₁, _ | child⟩
        · rw [hadd] at hkept
          exact ⟨hkept, fun _ _ h => (by cases h)⟩
        · rw [hadd] at hkept
          exact ⟨hkept.trans ih.1, ih.2⟩

/-- What the walk does at the first missing segment; up to there it changes nothing. -/
structure AtMissing (s : Ramfs) (missing : Option (ℕ × Name × Bool))
    (r : Ramfs × Option (ℕ × Name)) : Prop where
  none : missing = none → r = (s, none)
  final : ∀ d x, missing = some (d, x, true) → r.1 = s
  parent : ∀ d x, missing = some (d, x, false) → s.isDir d = true ∧
    (∀ s', addNode s d x true = (s', .none) → r = (s', .none)) ∧
    ∀ s' child, addNode s d x true = (s', some child) → Kept s' r.1

lemma resolveCreate_atMissing {segs : List (Name × Bool)} :
    ∀ {cur : ℕ}, AtMissing s (firstMissing s cur segs) (resolveCreate s cur segs) := by
  induction segs with
  | nil => exact ⟨fun _ => rfl, fun _ _ h => (by cases h), fun _ _ h => (by cases h)⟩
  | cons y rest ih =>
    obtain ⟨seg, final⟩ := y
    intro cur
    unfold firstMissing resolveCreate
    by_cases hdot : seg = dot
    · rw [if_pos hdot, if_pos hdot]
      exact ih
    rw [if_neg hdot, if_neg hdot]
    by_cases hdd : seg = dotDot
    · rw [if_pos hdd, if_pos hdd]
      exact ih
    rw [if_neg hdd, if_neg hdd]
    by_cases hdir : s.isDir cur = false
    · rw [if_pos hdir, if_pos hdir]
      exact ⟨fun _ => rfl, fun _ _ h => (by cases h), fun _ _ h => (by cases h)⟩
    rw [if_neg hdir, if_neg hdir]
    cases hfind : findChild s cur seg with
    | some child => exact ih
    | none =>
      dsimp only
      refine ⟨fun h => (by cases h), fun d x h => ?_, fun d x h => ?_⟩
      · obtain ⟨rfl, rfl, rfl⟩ : cur = d ∧ seg = x ∧ final = true := by simpa using h
        rw [if_pos rfl]
        split_ifs
        · rfl
        · rfl
      · obtain ⟨rfl, rfl, rfl⟩ : cur = d ∧ seg = x ∧ final = false := by simpa using h
        rw [if_neg (by simp)]
        refine ⟨by simpa using hdir, fun s' hadd => ?_, fun s' child hadd => ?_⟩
        · rw [hadd]
        · rw [hadd]
          exact resolveCreate_kept.1

/-- A leaf that cannot be added changes nothing. -/
lemma sameTree_makeNode {path : List UInt8} {dir : Bool} (hfail : (makeNode s path dir).2 = none) :
    SameTree (resolveCreate s root (segments path)).1 (makeNode s path dir).1 := by
  have hleaf := (@resolveCreate_kept (segments path) s root).2
  unfold makeNode at hfail ⊢
  rcases hres : resolveCreate s root (segments path) with ⟨s₁, _ | ⟨d, leaf⟩⟩
  · exact ⟨rfl, rfl⟩
  · rw [hres] at hleaf hfail
    obtain ⟨n, hn, _⟩ := isDir_iff.mp (hleaf d leaf rfl)
    dsimp only at hfail ⊢
    split_ifs at hfail ⊢
    · exact ⟨rfl, rfl⟩
    · rcases addNode_spec hn leaf dir with ⟨heq, _⟩ | ⟨s', a, heq, _⟩
      · rw [heq]
        exact ⟨rfl, rfl⟩
      · rw [heq] at hfail
        exact nomatch hfail

lemma SameTree.trans_iff {s s₁ s₂ : Ramfs} (h : SameTree s₁ s₂) : SameTree s s₂ ↔
    SameTree s s₁ := by
  unfold SameTree
  rw [h.1, h.2]

/-- The walk leaves the tree as it was exactly when it makes no parent. -/
lemma sameTree_resolveCreate (s : Ramfs) (path : List UInt8) :
    SameTree s (resolveCreate s root (segments path)).1 ↔ ¬ MakesParent s path := by
  have hw := @resolveCreate_atMissing s (segments path) root
  unfold MakesParent
  rcases hmiss : firstMissing s root (segments path) with _ | ⟨d, x, _ | _⟩
  · rw [hw.none hmiss]
    exact iff_of_true ⟨rfl, rfl⟩ fun ⟨_, _, _, h, _⟩ => nomatch h
  · obtain ⟨hdir, hrefused, hgranted⟩ := hw.parent d x hmiss
    obtain ⟨n, hn, _⟩ := isDir_iff.mp hdir
    rcases addNode_spec hn x true with ⟨heq, hno⟩ | ⟨s', a, heq, hgrant, hg⟩
    · rw [hrefused _ heq]
      refine iff_of_true ⟨rfl, rfl⟩ fun ⟨_, _, a, _, ha, h0, hfree⟩ => ?_
      exact (hno a ha).elim h0 fun h => h hfree
    · refine iff_of_false (fun hsame => ?_) (not_not.mpr ⟨d, x, a, rfl, hgrant, hg.nonzero,
        hg.fresh⟩)
      obtain ⟨k, hk, _⟩ := (hgranted s' a heq).live a _ hg.new
      exact nomatch hg.fresh.symm.trans ((congrFun hsame.1 a).symm.trans hk)
  · rw [hw.final d x hmiss]
    exact iff_of_true ⟨rfl, rfl⟩ fun ⟨_, _, _, h, _⟩ => by simp at h

/-- A creation that fails leaves the tree as it was exactly when no directory was missing in
front of the last segment, or the heap had no node for the first one. -/
theorem failed_create_sameTree_iff (s : Ramfs) (path : List UInt8) :
    ((tfsMkdir s path).2 = none → (SameTree s (tfsMkdir s path).1 ↔ ¬ MakesParent s path)) ∧
      ((tfsTouch s path).2 = none → (SameTree s (tfsTouch s path).1 ↔ ¬ MakesParent s path)) :=
  ⟨fun hfail => (sameTree_makeNode hfail).trans_iff.trans (sameTree_resolveCreate s path),
    fun hfail => (sameTree_makeNode hfail).trans_iff.trans (sameTree_resolveCreate s path)⟩

/-- `mkdir a/b/` fails and leaves both directories. -/
theorem failed_mkdir_leaves_parents :
    (tfsMkdir (tfsInit fun n => some (n + 2)) [97, 47, 98, 47]).2 = none ∧
      ¬ SameTree (tfsInit fun n => some (n + 2)) (tfsMkdir (tfsInit fun n => some (n + 2))
        [97, 47, 98, 47]).1 :=
  ⟨by decide +kernel, fun h => absurd (congrFun h.1 3) (by decide +kernel)⟩

end TraitOS.Tfs
