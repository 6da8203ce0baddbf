import TraitOS.TfsTree

/-!
# What a tree says about paths

The view of a tree maps every path, as a list of names, to what is found there. It is
the abstract file system: growing the tree by one node is one point update, and making a
node by its path fills in the directories above it.
-/
namespace TraitOS.Tfs

variable {s : Ramfs} {p : List Name}

inductive Kind where
  | dir
  | file (content : List UInt8)
deriving DecidableEq, Repr

def Node.kind (n : Node) : Kind := if n.dir then .dir else .file n.data

/-- The node at the end of a list of names. -/
def nodeAt (s : Ramfs) : ℕ → List Name → Option ℕ
  | cur, [] => some cur
  | cur, name :: rest => (findChild s cur name).bind fun child => nodeAt s child rest

def view (s : Ramfs) (path : List Name) : Option Kind :=
  (nodeAt s root path).bind fun a => (s.nodes a).map Node.kind

section Paths
variable {s : Ramfs}

lemma nodeAt_append (cur : ℕ) (p q : List Name) :
    nodeAt s cur (p ++ q) = (nodeAt s cur p).bind fun a => nodeAt s a q := by
  induction p generalizing cur with
  | nil => rfl
  | cons x p ih =>
    simp only [List.cons_append, nodeAt, Option.bind_assoc]
    exact Option.bind_congr fun child _ => ih child

lemma nodeAt_snoc (p : List Name) (x : Name) :
    nodeAt s root (p ++ [x]) = (nodeAt s root p).bind fun a => findChild s a x := by
  rw [nodeAt_append]
  simp [nodeAt]

/-- Paths lead to live nodes. -/
lemma Linked.nodeAt_live (h : Linked s) {a : ℕ} (ha : nodeAt s root p = some a) :
    ∃ n, s.nodes a = some n := by
  induction p using List.reverseRecOn generalizing a with
  | nil =>
    cases ha
    exact h.rooted.imp fun n hn => hn.1
  | append_singleton p x _ =>
    rw [nodeAt_snoc] at ha
    obtain ⟨d, _, hd⟩ := Option.bind_eq_some_iff.mp ha
    exact h.findChild hd

lemma findChild_child (h : Linked s) {d c : ℕ} {x : Name} (hc : findChild s d x = some c) :
    ∃ k, s.nodes c = some k ∧ k.parent = d ∧ c ≠ root ∧ k.name = x := by
  obtain ⟨hmem, hname⟩ := findChild_eq_some hc
  cases hd : s.nodes d with
  | none => simp [Ramfs.childrenOf, hd] at hmem
  | some n =>
    rw [childrenOf_of_some hd] at hmem
    obtain ⟨k, hk, hkp, hne⟩ := h.child d n c hd hmem
    exact ⟨k, hk, hkp, hne, (nameOf_of_some hk).symm.trans hname⟩

/-- A node has one path. -/
lemma Linked.nodeAt_unique (h : Linked s) {p q : List Name} {a : ℕ} (hp : nodeAt s root p = some a)
    (hq : nodeAt s root q = some a) : p = q := by
  induction p using List.reverseRecOn generalizing q a with
  | nil =>
    cases hp
    induction q using List.reverseRecOn with
    | nil => rfl
    | append_singleton q y _ =>
      rw [nodeAt_snoc] at hq
      obtain ⟨d, _, hd⟩ := Option.bind_eq_some_iff.mp hq
      obtain ⟨_, _, _, hne, _⟩ := findChild_child h hd
      exact absurd rfl hne
  | append_singleton p x ih =>
    rw [nodeAt_snoc] at hp
    obtain ⟨d, hd, hc⟩ := Option.bind_eq_some_iff.mp hp
    obtain ⟨k, hk, hkp, hne, hkx⟩ := findChild_child h hc
    induction q using List.reverseRecOn with
    | nil => exact absurd (Option.some.inj hq).symm hne
    | append_singleton q y _ =>
      rw [nodeAt_snoc] at hq
      obtain ⟨d', hd', hc'⟩ := Option.bind_eq_some_iff.mp hq
      obtain ⟨k', hk', hkp', _, hky⟩ := findChild_child h hc'
      cases hk.symm.trans hk'
      rw [ih hd ((hkp.symm.trans hkp') ▸ hd'), ← hkx, ← hky]

lemma view_of_nodeAt {a : ℕ} {n : Node} (hp : nodeAt s root p = some a) (ha : s.nodes a = some n) :
    view s p = some n.kind := by
  simp [view, hp, ha]

lemma Linked.view_eq_none (h : Linked s) : view s p = none ↔ nodeAt s root p = none := by
  unfold view
  cases hp : nodeAt s root p with
  | none => simp
  | some a =>
    obtain ⟨n, hn⟩ := h.nodeAt_live hp
    simp [hn]

lemma view_root (h : Linked s) : view s [] = some .dir := by
  obtain ⟨n, hn, hd, _⟩ := h.rooted
  rw [view_of_nodeAt rfl hn, Node.kind, if_pos hd]

/-- What is above something that exists is there too. -/
lemma Linked.view_of_append (h : Linked s) {p q : List Name} (hpq : view s (p ++ q) ≠
    none) : view s p ≠ none := by
  intro hp
  apply hpq
  rw [h.view_eq_none] at *
  rw [nodeAt_append, hp]
  rfl

end Paths

/-! ## Growing -/

section Grow
variable {s s' : Ramfs} {d a : ℕ} {k : Node}

lemma Grown.findChild_dir (hg : Grown s s' d a k) (h : Linked s) (x : Name) :
    findChild s' d x = if x = k.name then some a else findChild s d x := by
  obtain ⟨n, hn, hn'⟩ := hg.dir
  have hnames : ∀ c ∈ n.children, s'.nameOf c = s.nameOf c := by
    intro c hc
    obtain ⟨kc, hkc, _⟩ := h.child d n c hn hc
    exact hg.nameOf hkc
  unfold findChild
  rw [childrenOf_of_some hn', childrenOf_of_some hn, List.find?_cons, nameOf_of_some hg.new]
  by_cases hx : x = k.name
  · simp [hx]
  · have : (k.name == x) = false := by simpa using Ne.symm hx
    rw [this, if_neg hx]
    exact List.find?_congr fun c hc => by rw [hnames c hc]

lemma Grown.findChild_old (hg : Grown s s' d a k) (h : Linked s) {e : ℕ} {m : Node}
    (he : s.nodes e = some m) (hed : e ≠ d) (x : Name) : findChild s' e x = findChild s e x := by
  obtain ⟨m', hm', _, _, _, _, ⟨hch, _⟩ | ⟨_, heq⟩⟩ := hg.old he
  · unfold findChild
    rw [childrenOf_of_some hm', childrenOf_of_some he, hch]
    refine List.find?_congr fun c hc => ?_
    obtain ⟨kc, hkc, _⟩ := h.child e m c he hc
    rw [hg.nameOf hkc]
  · exact absurd heq hed

/-- A new node is found at its path, and all other paths lead where they did. -/
theorem Grown.nodeAt (hg : Grown s s' d a k) (h : Linked s) {π : List Name}
    (hd : nodeAt s root π = some d) (hnew : findChild s d k.name = none) (q : List Name) :
    Tfs.nodeAt s' root q = if q = π ++ [k.name] then some a else Tfs.nodeAt s root q := by
  induction q using List.reverseRecOn with
  | nil => simp [Tfs.nodeAt]
  | append_singleton q x ih =>
    rw [nodeAt_snoc, ih, nodeAt_snoc]
    by_cases hq : q = π ++ [k.name]
    · -- below the new node there is nothing, and there was nothing
      have hleaf : findChild s' a x = none := by
        simp [findChild, childrenOf_of_some hg.new, hg.children]
      have hnone : Tfs.nodeAt s root q = none := by
        rw [hq, nodeAt_snoc, hd]
        exact hnew
      rw [if_pos hq, Option.bind_some, hleaf, hnone, if_neg (by simp [hq])]
      rfl
    · rw [if_neg hq]
      cases he : Tfs.nodeAt s root q with
      | none =>
        rw [if_neg]
        · rfl
        · intro heq
          rw [(List.append_inj' heq rfl).1, hd] at he
          cases he
      | some e =>
        obtain ⟨m, hm⟩ := h.nodeAt_live he
        rw [Option.bind_some, Option.bind_some]
        by_cases hed : e = d
        · have hqπ : q = π := h.nodeAt_unique (hed ▸ he) hd
          rw [hed, hg.findChild_dir h, hqπ]
          simp
        · rw [hg.findChild_old h hm hed, if_neg]
          intro heq
          rw [(List.append_inj' heq rfl).1, hd] at he
          exact hed (Option.some.inj he).symm

theorem Grown.view (hg : Grown s s' d a k) (h : Linked s) {π : List Name}
    (hd : Tfs.nodeAt s root π = some d) (hnew : findChild s d k.name = none) (q : List Name) :
    Tfs.view s' q = if q = π ++ [k.name] then some k.kind else Tfs.view s q := by
  unfold Tfs.view
  rw [hg.nodeAt h hd hnew]
  by_cases hq : q = π ++ [k.name]
  · rw [if_pos hq, if_pos hq, Option.bind_some, hg.new]
    rfl
  · rw [if_neg hq, if_neg hq]
    cases he : Tfs.nodeAt s root q with
    | none => rfl
    | some e =>
      obtain ⟨m, hm⟩ := h.nodeAt_live he
      obtain ⟨m', hm', _, _, hdir, hdata, _⟩ := hg.old hm
      simp [hm, hm', Node.kind, hdir, hdata]

end Grow

/-! ## A heap that never refuses -/

/-- Every call of the heap from here on is granted at a new address. -/
structure Fresh (s : Ramfs) : Prop where
  total : ∀ n, ∃ a, s.grants n = some a ∧ a ≠ 0 ∧ a ≠ root
  injective : ∀ m n, s.grants m = s.grants n → m = n
  used : ∀ x k, s.nodes x = some k → x = root ∨ ∃ m < s.asked, s.grants m = some x

lemma Fresh.addNode (hf : Fresh s) {d : ℕ} {n : Node} (hd : s.nodes d = some n) (name : Name)
    (dir : Bool) :
    ∃ s' a, addNode s d name dir = (s', some a) ∧ Grown s s' d a (newNode d name dir) ∧
      Fresh s' := by
  rcases addNode_spec hd name dir with ⟨_, hno⟩ | ⟨s', a, heq, hgrant, hg⟩
  · obtain ⟨a, ha, h0, hr⟩ := hf.total s.asked
    rcases hno a ha with h | h
    · exact absurd h h0
    · obtain ⟨k, hk⟩ := Option.ne_none_iff_exists'.mp h
      rcases hf.used a k hk with h | ⟨m, hm, hma⟩
      · exact absurd h hr
      · exact absurd (hf.injective m s.asked (hma.trans ha.symm)) hm.ne
  · refine ⟨s', a, heq, hg, hg.grants ▸ hf.total, hg.grants ▸ hf.injective, fun x k hx => ?_⟩
    rw [hg.grants, hg.asked]
    rcases hg.cases hx with ⟨rfl, _⟩ | ⟨m, hm, _⟩
    · exact Or.inr ⟨s.asked, Nat.lt_succ_self _, hgrant⟩
    · exact (hf.used x m hm).imp id fun ⟨j, hj, hjx⟩ => ⟨j, hj.trans (Nat.lt_succ_self _), hjx⟩

/-! ## Making a node by its path -/

/-- The segments of a path given by its components. -/
def segsOf : List Name → List (Name × Bool)
  | [] => []
  | [x] => [(x, true)]
  | x :: y :: rest => (x, false) :: segsOf (y :: rest)

/-- A component of a path that can be made. -/
structure Component (x : Name) : Prop extends NameOk x where
  short : x.length < maxName

instance (x : Name) : Decidable (Component x) :=
  decidable_of_iff (NameOk x ∧
    x.length < maxName) ⟨fun h => ⟨h.1, h.2⟩, fun h => ⟨h.toNameOk, h.short⟩⟩

/-- The directories above a path filled in. -/
def fillDirs (v : List Name → Option Kind) (above : List Name) : List Name → Option Kind :=
  fun q => if q <+: above ∧ v q = none then some .dir else v q

/-- What walking to a path that has no file above it leads to. -/
inductive Walked (s : Ramfs) (path : List Name) : Ramfs × Option (ℕ × Name) → Prop where
  | found : view s path ≠ none → Walked s path (s, none)
  | missing {s' : Ramfs} {d : ℕ} {above : List Name} {x : Name} : path = above ++ [x] →
    nodeAt s' root above = some d → findChild s' d x = none → s'.isDir d = true → Linked s' →
      Fresh s' →
    view s path = none → (∀ q, view s' q = fillDirs (view s) above q) →
      Walked s path (s', some (d, x))

lemma fillDirs_self (h : Linked s) (hp : view s p ≠ none) (q : List Name) :
    fillDirs (view s) p q = view s q := by
  unfold fillDirs
  rw [if_neg]
  rintro ⟨⟨rest, rfl⟩, hq⟩
  exact h.view_of_append hp hq

theorem resolveCreate_walk {names : List Name} (hne : names ≠ []) (hok : ∀ x ∈ names, Component x) :
    ∀ {s : Ramfs} {cur : ℕ} {π : List Name}, Linked s → Fresh s → nodeAt s root π = some cur →
      s.isDir cur = true →
      (∀ q r, r ≠ [] → q ++ r = names → view s (π ++ q) = none ∨ view s (π ++ q) = some .dir) →
      Walked s (π ++ names) (resolveCreate s cur (segsOf names)) := by
  induction names with
  | nil => exact absurd rfl hne
  | cons x rest ih =>
    intro s cur π h hf hcur hdir hdirs
    have hx := hok x List.mem_cons_self
    obtain ⟨n, hn, hnd⟩ := isDir_iff.mp hdir
    have hview : view s π ≠ none := by
      rw [view_of_nodeAt hcur hn]
      exact Option.some_ne_none _
    cases rest with
    | nil =>
      simp only [segsOf, resolveCreate, if_neg hx.notDot, if_neg hx.notDotDot, hdir,
        Bool.true_eq_false, if_false]
      cases hfind : findChild s cur x with
      | some child =>
        refine .found ?_
        obtain ⟨k, hk⟩ := h.findChild hfind
        rw [view_of_nodeAt ((nodeAt_snoc π x).trans (by rw [hcur]; exact hfind)) hk]
        exact Option.some_ne_none _
      | none =>
        simp only [if_true, if_neg (not_le.mpr hx.short)]
        refine .missing rfl hcur hfind hdir h hf ?_ (fun q => (fillDirs_self h hview q).symm)
        rw [h.view_eq_none, nodeAt_snoc, hcur]
        exact hfind
    | cons y rest =>
      have hassoc : π ++ x :: y :: rest = (π ++ [x]) ++ y :: rest := by simp
      have hrest : ∀ z ∈ y :: rest, Component z := fun z hz => hok z (List.mem_cons_of_mem _ hz)
      rw [hassoc]
      simp only [segsOf, resolveCreate, if_neg hx.notDot, if_neg hx.notDotDot, hdir,
        Bool.true_eq_false, if_false]
      cases hfind : findChild s cur x with
      | some child =>
        have hchild : nodeAt s root (π ++ [x]) = some child :=
          (nodeAt_snoc π x).trans (by rw [hcur]; exact hfind)
        obtain ⟨k, hk⟩ := h.findChild hfind
        have hkdir : k.dir = true := by
          have hkind := view_of_nodeAt hchild hk
          rcases hdirs [x] (y :: rest) (by simp) rfl with hv | hv
          · cases hv.symm.trans hkind
          · have : k.kind = .dir := Option.some.inj (hkind.symm.trans hv)
            unfold Node.kind at this
            by_contra hfile
            rw [if_neg hfile] at this
            cases this
        refine ih (by simp) hrest h hf hchild (isDir_iff.mpr ⟨k, hk, hkdir⟩) fun q r hr hqr => ?_
        have := hdirs (x :: q) r hr (by simp [hqr])
        simpa using this
      | none =>
        obtain ⟨s₁, a, hadd, hg, hf₁⟩ := hf.addNode hn x true
        have hname : (newNode cur x true).name = x := newNode_name hx.short
        have hl₁ := h.grown hg hdir (by rw [hname]; exact hx.toNameOk)
        have hv₁ := hg.view h hcur (by rw [hname]; exact hfind)
        have hnone : nodeAt s root (π ++ [x]) = none := by
          rw [nodeAt_snoc, hcur]
          exact hfind
        -- nothing was below the missing directory
        have hbelow : ∀ q, view s (π ++ [x] ++ q) = none := by
          intro q
          rw [h.view_eq_none, nodeAt_append, hnone]
          rfl
        have ha₁ : nodeAt s₁ root (π ++ [x]) = some a := by
          rw [hg.nodeAt h hcur (by rw [hname]; exact hfind), hname, if_pos rfl]
        rw [hname] at hv₁
        have hw := ih (by simp) hrest hl₁ hf₁ ha₁ (isDir_iff.mpr ⟨_, hg.new, rfl⟩) fun q r hr hqr =>
          by
          rw [hv₁]
          by_cases hq : q = []
          · right
            simp [hq, Node.kind, newNode]
          · left
            rw [if_neg (by simpa using hq)]
            exact hbelow q
        simp only [hadd]
        have hpath₁ : view s₁ (π ++ [x] ++ y :: rest) = none := by
          rw [hv₁, if_neg (by simp)]
          exact hbelow _
        generalize resolveCreate s₁ a (segsOf (y :: rest)) = res at hw
        cases hw with
        | found hfound => exact absurd hpath₁ hfound
        | @missing s' d above z hpath hd hz hddir hl' hf' _ hv' =>
          refine .missing hpath hd hz hddir hl' hf' (hbelow _) fun q => ?_
          rw [hv']
          unfold fillDirs
          rw [hv₁]
          by_cases hq : q = π ++ [x]
          · have hpre : q <+: above := by
              have hlen : above.length = (π ++ [x]).length + rest.length := by
                have := congrArg List.length hpath
                simp only [List.length_append, List.length_cons, List.length_nil] at this ⊢
                omega
              rw [hq]
              refine List.prefix_of_prefix_length_le ⟨y :: rest, rfl⟩ ⟨[z], hpath.symm⟩ ?_
              omega
            have hqnone : view s q = none := by
              have := hbelow []
              rwa [List.append_nil, ← hq] at this
            rw [if_pos hq, if_neg (by simp), if_pos ⟨hpre, hqnone⟩]
            rfl
          · rw [if_neg hq]

/-- The path as it is written. -/
def joinPath : List Name → List UInt8
  | [] => []
  | [x] => x
  | x :: y :: rest => x ++ slash :: joinPath (y :: rest)

lemma segmentsFrom_append {x : Name} (hx : slash ∉ x) (seg : Name) (tail : List UInt8) :
    segmentsFrom seg (x ++ tail) = segmentsFrom (seg ++ x) tail := by
  induction x generalizing seg with
  | nil => simp
  | cons c x ih =>
    obtain ⟨hc, hx⟩ := not_or.mp (List.mem_cons.not.mp hx)
    rw [List.cons_append, segmentsFrom, if_neg (Ne.symm hc), ih hx]
    simp

lemma segments_joinPath (hok : ∀ x ∈ p, NameOk x) : segments (joinPath p) = segsOf p := by
  induction p with
  | nil => rfl
  | cons x rest ih =>
    obtain ⟨hne, hplain, _⟩ := hok x List.mem_cons_self
    cases rest with
    | nil =>
      have := segmentsFrom_append hplain [] []
      rw [List.append_nil, List.nil_append] at this
      simp [segments, joinPath, segsOf, this, segmentsFrom, hne]
    | cons y rest =>
      have ih := ih fun z hz => hok z (List.mem_cons_of_mem _ hz)
      unfold segments at ih ⊢
      simp only [joinPath, segsOf]
      rw [segmentsFrom_append hplain, List.nil_append, segmentsFrom, if_pos rfl, if_neg hne, ih]

/-- No file stands where a directory of the path has to be. -/
def NoFileAbove (v : List Name → Option Kind) (p : List Name) : Prop :=
  ∀ q r, r ≠ [] → q ++ r = p → v q = none ∨ v q = some .dir

/-- Making a node at a path: an existing one is left alone, otherwise the node and the
missing directories above it are there afterwards, and nothing else has changed. -/
theorem makeNode_view (h : Linked s) (hf : Fresh s) (hne : p ≠ []) (hok : ∀ x ∈ p, Component x)
    (hdirs : NoFileAbove (view s) p) (dir : Bool) :
    (view s p ≠ none ∧ makeNode s (joinPath p) dir = (s, none)) ∨
      view s p = none ∧ ∃ s' a d x, makeNode s (joinPath p) dir = (s', some a) ∧ Linked s' ∧
        Fresh s' ∧ nodeAt s' root p = some a ∧ s'.nodes a = some (newNode d x dir) ∧
        ∀ q, view s' q = if q = p then some (newNode d x dir).kind
          else fillDirs (view s) p.dropLast q := by
  obtain ⟨r, hr, hrdir, _⟩ := h.rooted
  have hw := @resolveCreate_walk p hne hok s root [] h hf rfl (isDir_iff.mpr ⟨r, hr, hrdir⟩) hdirs
  unfold makeNode
  rw [segments_joinPath fun x hx => (hok x hx).toNameOk]
  rw [List.nil_append] at hw
  generalize resolveCreate s root (segsOf p) = res at hw
  cases hw with
  | found hfound => exact Or.inl ⟨hfound, rfl⟩
  | @missing s₁ d above x hpath hd hx hddir hl hf₁ hnone hv =>
    right
    obtain ⟨n, hn, _⟩ := isDir_iff.mp hddir
    obtain ⟨s', a, hadd, hg, hf'⟩ := hf₁.addNode hn x dir
    have hcomp := hok x (hpath ▸ List.mem_append_right _ (List.mem_singleton_self x))
    have hname : (newNode d x dir).name = x := newNode_name hcomp.short
    have hfree : findChild s₁ d (newNode d x dir).name = none := by rw [hname]; exact hx
    refine ⟨hnone, s', a, d, x, ?_, hl.grown hg hddir (by rw [hname]; exact hcomp.toNameOk), hf',
      ?_, hg.new, fun q => ?_⟩
    · dsimp only
      rw [hx, if_neg (by simp), hadd]
    · rw [hg.nodeAt hl hd hfree, hname, ← hpath, if_pos rfl]
    · rw [hg.view hl hd hfree, hname, ← hpath, hv, hpath, List.dropLast_concat]

/-! ## Writing a file -/

lemma nodeAt_set {a : ℕ} {n n' : Node} (ha : s.nodes a = some n) (hname : n'.name = n.name)
    (hch : n'.children = n.children) (cur : ℕ) (p : List Name) :
    nodeAt (s.set a n') cur p = nodeAt s cur p := by
  have hfind : ∀ d x, findChild (s.set a n') d x = findChild s d x := by
    intro d x
    have hch' : (s.set a n').childrenOf d = s.childrenOf d := by
      by_cases hd : d = a <;> simp [Ramfs.set, Ramfs.childrenOf, hd, ha, hch]
    unfold findChild
    rw [hch']
    exact List.find?_congr fun c _ => by rw [nameOf_set ha hname]
  induction p generalizing cur with
  | nil => rfl
  | cons x p ih =>
    simp only [nodeAt, hfind]
    exact Option.bind_congr fun c _ => ih c

/-- Writing a file changes what is found at its path only. -/
theorem tfsWrite_view (h : Linked s) (hf : Fresh s) {a : ℕ} {n : Node}
    (hp : nodeAt s root p = some a) (ha : s.nodes a = some n) (hfile : n.dir = false)
    (data : List UInt8) :
    Linked (tfsWrite s a data).1 ∧ Fresh (tfsWrite s a data).1 ∧
      ∀ q, view (tfsWrite s a data).1 q = if q = p then some (.file data) else view s q := by
  -- both branches store the node with new data, in a state with the same nodes
  have hset : ∀ t : Ramfs, t.nodes = s.nodes → t.grants = s.grants → s.asked ≤ t.asked → Linked t →
      Fresh (t.set a { n with data := data }) ∧
        ∀ q, view (t.set a { n with data := data }) q = if q = p then some (.file data)
          else view s q := by
    intro t hnodes hgrants hasked ht
    have hta : t.nodes a = some n := by rw [hnodes]; exact ha
    have hnode : ∀ q, nodeAt t root q = nodeAt s root q := by
      have hfind : ∀ d x, findChild t d x = findChild s d x := by
        intro d x
        simp only [findChild, Ramfs.childrenOf, Ramfs.nameOf, hnodes]
      have hgen : ∀ q cur, nodeAt t cur q = nodeAt s cur q := by
        intro q
        induction q with
        | nil => exact fun _ => rfl
        | cons x q ih =>
          intro cur
          simp only [nodeAt, hfind]
          exact Option.bind_congr fun c _ => ih c
      exact fun q => hgen q root
    constructor
    · refine ⟨hgrants ▸ hf.total, hgrants ▸ hf.injective, fun x k hx => ?_⟩
      have hold : ∃ k', s.nodes x = some k' := by
        by_cases hxa : x = a
        · exact ⟨n, hxa ▸ ha⟩
        · exact ⟨k, by simpa [Ramfs.set, hxa, hnodes] using hx⟩
      obtain ⟨k', hk'⟩ := hold
      refine (hf.used x k' hk').imp id ?_
      rintro ⟨m, hm, hmx⟩
      refine ⟨m, hm.trans_le hasked, ?_⟩
      rw [← hmx, ← hgrants]
      rfl
    · intro q
      unfold view
      rw [@nodeAt_set _ _ _ { n with data := data } hta rfl rfl, hnode]
      by_cases hq : q = p
      · rw [if_pos hq, hq, hp]
        simp [Ramfs.set, Node.kind, hfile]
      · rw [if_neg hq]
        cases he : nodeAt s root q with
        | none => rfl
        | some e =>
          have hea : e ≠ a := fun heq => hq (h.nodeAt_unique (heq ▸ he) hp)
          simp [Ramfs.set, hea, hnodes]
  refine ⟨(tfsWrite_spec h a data).1, ?_⟩
  unfold tfsWrite
  rw [ha]
  dsimp only
  rw [if_neg (by simp [hfile])]
  by_cases hnil : data = []
  · rw [if_pos hnil, ← hnil]
    exact hset s rfl rfl le_rfl h
  · obtain ⟨b, hb, _⟩ := hf.total s.asked
    rw [if_neg hnil, show s.tmalloc =
      ({ s with asked := s.asked + 1 }, some b) from Prod.ext rfl hb]
    exact hset _ rfl rfl (Nat.le_succ _) (h.of_nodes rfl (Nat.le_succ _))

end TraitOS.Tfs
