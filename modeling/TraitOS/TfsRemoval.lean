import TraitOS.TfsTree

/-!
# Removing a subtree

`tfs_rm` takes a node out of its parent's list and frees everything below it. The depth
of the tree bounds the recursion, so what is freed is the whole subtree, and what stays
is a tree again.
-/
namespace TraitOS.Tfs

variable {a : ℕ} {n : Node}

section Remove
variable {s : Ramfs}

/-- A node below another one has its parent there too. -/
lemma parent_mem_descendants
    (hchild : ∀ d c, c ∈ s.childrenOf d → ∃ k, s.nodes c = some k ∧ k.parent = d) (fuel : ℕ) :
    ∀ {a x : ℕ}, x ∈ descendants s fuel a → ∃ k, s.nodes x = some k ∧
      (k.parent = a ∨ k.parent ∈ descendants s fuel a) := by
  induction fuel with
  | zero => exact fun h => nomatch h
  | succ fuel ih =>
    intro a x hx
    obtain ⟨c, hc, hx⟩ := List.mem_flatMap.mp hx
    have hsub : ∀ y, y ∈ descendants s fuel c ++ [c] → y ∈ descendants s (fuel + 1) a :=
      fun y hy => List.mem_flatMap.mpr ⟨c, hc, hy⟩
    rcases List.mem_append.mp hx with hx | hx
    · obtain ⟨k, hk, hp | hp⟩ := ih hx
      · exact ⟨k, hk, Or.inr (hsub _ (by simp [hp]))⟩
      · exact ⟨k, hk, Or.inr (hsub _ (List.mem_append_left _ hp))⟩
    · obtain rfl := List.mem_singleton.mp hx
      obtain ⟨k, hk, hp⟩ := hchild a x hc
      exact ⟨k, hk, Or.inl hp⟩

lemma child_of_mem_descendants (fuel : ℕ) :
    ∀ {a x : ℕ}, x ∈ descendants s fuel a → ∃ d, x ∈ s.childrenOf d := by
  induction fuel with
  | zero => exact fun h => nomatch h
  | succ fuel ih =>
    intro a x hx
    obtain ⟨c, hc, hx⟩ := List.mem_flatMap.mp hx
    rcases List.mem_append.mp hx with hx | hx
    · exact ih hx
    · exact ⟨a, List.mem_singleton.mp hx ▸ hc⟩

/-- With fuel for its depth, a node below another one has its children there too. -/
lemma children_mem_descendants {depth : ℕ → ℕ}
    (hdepth : ∀ d c, c ∈ s.childrenOf d → depth c = depth d + 1) (fuel : ℕ) :
    ∀ {a x : ℕ}, x ∈ descendants s fuel a → depth x < depth a + fuel →
      ∀ y ∈ s.childrenOf x, y ∈ descendants s fuel a := by
  induction fuel with
  | zero => exact fun h => nomatch h
  | succ fuel ih =>
    intro a x hx hlt y hy
    obtain ⟨c, hc, hx⟩ := List.mem_flatMap.mp hx
    have hcd := hdepth a c hc
    refine List.mem_flatMap.mpr ⟨c, hc, List.mem_append_left _ ?_⟩
    rcases List.mem_append.mp hx with hx | hx
    · exact ih hx (by omega) y hy
    · obtain rfl := List.mem_singleton.mp hx
      obtain ⟨fuel, rfl⟩ : ∃ f, fuel = f + 1 := ⟨fuel - 1, by omega⟩
      exact List.mem_flatMap.mpr ⟨y, hy, by simp⟩

/-- Taking a node out of its parent's list. -/
lemma nodes_unlink (h : Linked s) (ha : s.nodes a = some n) (hne : a ≠ root) (d : ℕ) :
    (unlink s a).nodes d = (s.nodes d).map fun m => { m with children := m.children.erase a } := by
  obtain ⟨p, hp, _⟩ := h.listed a n ha hne
  have hpar : s.parentOf a = n.parent := by
    simp [Ramfs.parentOf, ha, h.ne_zero hp]
  unfold unlink
  dsimp only
  rw [hpar, hp, Option.elim_some]
  by_cases hdp : d = n.parent
  · simp [Ramfs.set, hdp, hp]
  · cases hd : s.nodes d with
    | none => simpa [Ramfs.set, hdp] using hd
    | some m =>
      have hnot : a ∉ m.children := by
        intro hmem
        obtain ⟨k, hk, hkp, _⟩ := h.child d m a hd hmem
        cases hk.symm.trans ha
        exact hdp hkp.symm
      rw [Option.map_some, List.erase_of_not_mem hnot]
      simpa [Ramfs.set, hdp] using hd

lemma childrenOf_unlink (h : Linked s) (ha : s.nodes a = some n) (hne : a ≠ root) (d : ℕ) :
    (unlink s a).childrenOf d = (s.childrenOf d).erase a := by
  unfold Ramfs.childrenOf
  rw [nodes_unlink h ha hne]
  cases s.nodes d <;> simp

lemma asked_unlink (s : Ramfs) (a : ℕ) : (unlink s a).asked = s.asked := by
  unfold unlink
  dsimp only
  cases s.nodes (s.parentOf a) <;> rfl

lemma mounts_unlink (s : Ramfs) (a : ℕ) : (unlink s a).mounts = s.mounts := by
  unfold unlink
  dsimp only
  cases s.nodes (s.parentOf a) <;> rfl

lemma mem_childrenOf_unlink (h : Linked s) (ha : s.nodes a = some n) (hne : a ≠ root) {d c : ℕ}
    (hc : c ∈ (unlink s a).childrenOf d) : ∃ m, s.nodes d = some m ∧ c ∈ m.children ∧ c ≠ a := by
  rw [childrenOf_unlink h ha hne] at hc
  cases hd : s.nodes d with
  | none => simp [Ramfs.childrenOf, hd] at hc
  | some m =>
    rw [childrenOf_of_some hd] at hc
    obtain ⟨hca, hc⟩ := (h.nodup d m hd).mem_erase_iff.mp hc
    exact ⟨m, rfl, hc, hca⟩

lemma parent_of_unlink (h : Linked s) (ha : s.nodes a = some n) (hne : a ≠ root) {d c : ℕ}
    (hc : c ∈ (unlink s a).childrenOf d) : ∃ k, (unlink s a).nodes c = some k ∧ k.parent = d := by
  obtain ⟨m, hm, hmem, _⟩ := mem_childrenOf_unlink h ha hne hc
  obtain ⟨k, hk, hkp, _⟩ := h.child d m c hm hmem
  exact ⟨{ k with children := k.children.erase a },
    (nodes_unlink h ha hne c).trans (by rw [hk, Option.map_some]), hkp⟩

/-- What is freed is a whole subtree: with a node go its children, and but for the top
one a node goes only with its parent. -/
structure Subtree (s : Ramfs) (a : ℕ) (freed : List ℕ) : Prop where
  top : a ∈ freed
  root : root ∉ freed
  down : ∀ d n c, d ∈ freed → s.nodes d = some n → c ∈ n.children → c ∈ freed
  up : ∀ c k, c ∈ freed → c ≠ a → s.nodes c = some k → k.parent ∈ freed

theorem freedBy_subtree (h : Linked s) (ha : s.nodes a = some n) (hne : a ≠ root) :
    Subtree s a (freedBy (unlink s a) a) := by
  obtain ⟨depth, hzero, hstep, hbound⟩ := h.depth
  have hin := fun d c => mem_childrenOf_unlink h ha hne (d := d) (c := c)
  have hchild := fun d c => parent_of_unlink h ha hne (d := d) (c := c)
  have hdepth : ∀ d c, c ∈ (unlink s a).childrenOf d → depth c = depth d + 1 := by
    intro d c hc
    obtain ⟨m, hm, hmem, _⟩ := hin d c hc
    obtain ⟨k, hk, hkp, hcr⟩ := h.child d m c hm hmem
    exact hkp ▸ hstep c k hk hcr
  have hlive : ∀ x ∈ freedBy (unlink s a) a, ∃ k, s.nodes x = some k ∧ depth x ≤ s.asked ∧
      (x = a ∨ k.parent ∈ freedBy (unlink s a) a) := by
    intro x hx
    rcases List.mem_append.mp hx with hx | hx
    · obtain ⟨k, hk, hp⟩ := parent_mem_descendants hchild _ hx
      rw [nodes_unlink h ha hne] at hk
      obtain ⟨m, hm, rfl⟩ := Option.map_eq_some_iff.mp hk
      refine ⟨m, hm, ?_, Or.inr ?_⟩
      · by_cases hxr : x = root
        · rw [hxr, hzero]
          exact Nat.zero_le _
        · exact hbound x m hm hxr
      · exact List.mem_append.mpr (hp.symm.imp id List.mem_singleton.mpr)
    · obtain rfl := List.mem_singleton.mp hx
      exact ⟨n, ha, hbound x n ha hne, Or.inl rfl⟩
  refine ⟨by simp [freedBy], ?_, ?_, ?_⟩
  · intro hr
    rcases List.mem_append.mp hr with hr | hr
    · obtain ⟨d, hd⟩ := child_of_mem_descendants _ hr
      obtain ⟨m, hm, hmem, _⟩ := hin d root hd
      obtain ⟨_, _, _, hcr⟩ := h.child d m root hm hmem
      exact hcr rfl
    · exact hne (List.mem_singleton.mp hr).symm
  · intro d m c hd hm hc
    by_cases hca : c = a
    · simp [freedBy, hca]
    have hc' : c ∈ (unlink s a).childrenOf d := by
      rw [childrenOf_unlink h ha hne, childrenOf_of_some hm]
      exact (List.mem_erase_of_ne hca).mpr hc
    obtain ⟨_, _, hle, _⟩ := hlive d hd
    refine List.mem_append_left _ ?_
    rcases List.mem_append.mp hd with hd | hd
    · refine children_mem_descendants hdepth _ hd ?_ c hc'
      rw [asked_unlink]
      omega
    · obtain rfl := List.mem_singleton.mp hd
      exact List.mem_flatMap.mpr ⟨c, hc', by simp⟩
  · intro c k hc hca hk
    obtain ⟨k', hk', _, hp⟩ := hlive c hc
    cases hk'.symm.trans hk
    exact hp.resolve_left hca

lemma mem_releases {x : ℕ} {e : Freed} :
    e ∈ releases s x ↔ e = .node x ∨ e = .data x ∧ ∃ n, s.nodes x = some n ∧ n.data ≠ [] := by
  unfold releases
  cases hx : s.nodes x with
  | none => simp
  | some n => by_cases hd : n.data = [] <;> simp [hd, or_comm]

lemma tfsRm_of_ne (h0 : a ≠ 0) (hne : a ≠ root) : tfsRm s a =
    ({ unlink s a with
        nodes := fun x => if x ∈ freedBy (unlink s a) a then none else (unlink s a).nodes x },
      true, (freedBy (unlink s a) a).flatMap (releases (unlink s a))) := by
  have hfrees (x : ℕ) : .node x ∈ (freedBy (unlink s a) a).flatMap (releases (unlink s a)) ↔
      x ∈ freedBy (unlink s a) a := by simp [mem_releases]
  rw [tfsRm, if_neg (not_or.mpr ⟨h0, hne⟩)]
  simp only [hfrees]

/-- The nodes after a removal. -/
lemma nodes_tfsRm (h : Linked s) (ha : s.nodes a = some n) (hne : a ≠ root) (x : ℕ) :
    (tfsRm s a).1.nodes x = if x ∈ freedBy (unlink s a) a then none else
      (s.nodes x).map fun m => { m with children := m.children.erase a } := by
  rw [tfsRm_of_ne (h.ne_zero ha) hne, ← nodes_unlink h ha hne]

theorem tfsRm_spec (h : Linked s) (ha : s.nodes a = some n) :
    Linked (tfsRm s a).1 ∧ (Distinct s → Distinct (tfsRm s a).1) ∧ (tfsRm s a).1.mounts = s.mounts ∧
      ∀ x, (s.nodes x).isSome → a = root ∨ x ∉ freedBy (unlink s a) a →
        ((tfsRm s a).1.nodes x).isSome := by
  by_cases hne : a = root
  · rw [hne, tfsRm, if_pos (Or.inr rfl)]
    exact ⟨h, id, rfl, fun _ hx _ => hx⟩
  obtain ⟨htop, hroot, hdown, hup⟩ := freedBy_subtree h ha hne
  have hat := nodes_tfsRm h ha hne
  have hasked : (tfsRm s a).1.asked = s.asked := by
    rw [tfsRm_of_ne (h.ne_zero ha) hne]
    exact asked_unlink s a
  have hmounts : (tfsRm s a).1.mounts = s.mounts := by
    rw [tfsRm_of_ne (h.ne_zero ha) hne]
    exact mounts_unlink s a
  generalize freedBy (unlink s a) a = F at *
  generalize (tfsRm s a).1 = s' at *
  have hold : ∀ x m', s'.nodes x = some m' → ∃ m, s.nodes x = some m ∧ x ∉ F ∧
      m' = { m with children := m.children.erase a } := by
    intro x m' hx
    rw [hat] at hx
    by_cases hxF : x ∈ F
    · rw [if_pos hxF] at hx
      exact nomatch hx
    · rw [if_neg hxF] at hx
      obtain ⟨m, hm, rfl⟩ := Option.map_eq_some_iff.mp hx
      exact ⟨m, hm, hxF, rfl⟩
  have hnew : ∀ x m, s.nodes x = some m → x ∉ F →
      s'.nodes x = some { m with children := m.children.erase a } := by
    intro x m hx hxF
    rw [hat, if_neg hxF, hx, Option.map_some]
  -- what stays in a list that stays is not freed
  have hkept : ∀ d m c, s.nodes d = some m → d ∉ F → c ∈ m.children.erase a →
      ∃ k, s.nodes c = some k ∧ c ∉ F ∧ k.parent = d ∧ c ≠ root ∧ c ∈ m.children := by
    intro d m c hd hdF hc
    obtain ⟨hca, hc⟩ := (h.nodup d m hd).mem_erase_iff.mp hc
    obtain ⟨k, hk, hkp, hcr⟩ := h.child d m c hd hc
    exact ⟨k, hk, fun hcF => hdF (hkp ▸ hup c k hcF hca hk), hkp, hcr, hc⟩
  obtain ⟨depth, hzero, hstep, hbound⟩ := h.depth
  refine ⟨⟨?_, ?_, ?_, ?_, ?_, ?_, ?_, depth, hzero, ?_, ?_⟩, ?_, ?_, ?_⟩
  · rw [hat, h.null]
    simp
  · obtain ⟨r, hr, hrd, hrp⟩ := h.rooted
    exact ⟨_, hnew root r hr hroot, hrd, hrp⟩
  · intro d m' c hd hc
    obtain ⟨m, hm, hdF, rfl⟩ := hold d m' hd
    obtain ⟨k, hk, hcF, hkp, hcr, _⟩ := hkept d m c hm hdF hc
    exact ⟨_, hnew c k hk hcF, hkp, hcr⟩
  · intro c k' hc hcr
    obtain ⟨k, hk, hcF, rfl⟩ := hold c k' hc
    obtain ⟨m, hm, hmem⟩ := h.listed c k hk hcr
    have hpF : k.parent ∉ F := fun hpF => hcF (hdown _ m c hpF hm hmem)
    have hca : c ≠ a := fun he => hcF (he ▸ htop)
    exact ⟨_, hnew _ m hm hpF, (List.mem_erase_of_ne hca).mpr hmem⟩
  · intro d m' hd
    obtain ⟨m, hm, _, rfl⟩ := hold d m' hd
    exact (h.nodup d m hm).erase a
  · intro c k' hc hcr
    obtain ⟨k, hk, _, rfl⟩ := hold c k' hc
    exact h.names c k hk hcr
  · intro d m' hd hch
    obtain ⟨m, hm, _, rfl⟩ := hold d m' hd
    refine h.dirs d m hm fun hnil => hch ?_
    simp [hnil]
  · intro c k' hc hcr
    obtain ⟨k, hk, _, rfl⟩ := hold c k' hc
    exact hstep c k hk hcr
  · intro c k' hc hcr
    obtain ⟨k, hk, _⟩ := hold c k' hc
    rw [hasked]
    exact hbound c k hk hcr
  · intro hdist d m' c c' hd hc hc' hsame
    obtain ⟨m, hm, hdF, rfl⟩ := hold d m' hd
    obtain ⟨k, hk, hcF, _, _, hmem⟩ := hkept d m c hm hdF hc
    obtain ⟨k', hk', hcF', _, _, hmem'⟩ := hkept d m c' hm hdF hc'
    rw [nameOf_of_some (hnew c k hk hcF), nameOf_of_some (hnew c' k' hk' hcF')] at hsame
    refine hdist d m c c' hm hmem hmem' ?_
    rw [nameOf_of_some hk, nameOf_of_some hk']
    exact hsame
  · exact hmounts
  · intro x hx hxF
    obtain ⟨m, hm⟩ := Option.isSome_iff_exists.mp hx
    rw [hnew x m hm (hxF.resolve_left hne)]
    rfl

/-! ## Removal is exact -/

/-- The node that holds a node. -/
def Ramfs.above (s : Ramfs) (x : ℕ) : ℕ := (s.nodes x).elim 0 Node.parent

/-- From a node below another one the way up leads there, in as many steps as it is deeper. -/
lemma above_iterate {depth : ℕ → ℕ}
    (hchild : ∀ d c, c ∈ s.childrenOf d → ∃ k, s.nodes c = some k ∧ k.parent = d)
    (hdepth : ∀ d c, c ∈ s.childrenOf d → depth c = depth d + 1) (fuel : ℕ) :
    ∀ {a x : ℕ}, x ∈ descendants s fuel a → depth a < depth x ∧ s.above^[depth x - depth a] x =
      a := by
  induction fuel with
  | zero => exact fun h => nomatch h
  | succ fuel ih =>
    intro a x hx
    obtain ⟨c, hc, hx⟩ := List.mem_flatMap.mp hx
    have hcd := hdepth a c hc
    have hup : s.above c = a := by
      obtain ⟨k, hk, hp⟩ := hchild a c hc
      simp [Ramfs.above, hk, hp]
    rcases List.mem_append.mp hx with hx | hx
    · obtain ⟨hlt, heq⟩ := ih hx
      refine ⟨by omega, ?_⟩
      rw [show depth x - depth a = (depth x - depth c) + 1 by omega, Function.iterate_succ_apply',
        heq, hup]
    · obtain rfl := List.mem_singleton.mp hx
      refine ⟨by omega, ?_⟩
      rw [show depth x - depth a = 1 by omega]
      exact hup

lemma descendants_nodup {depth : ℕ → ℕ}
    (hchild : ∀ d c, c ∈ s.childrenOf d → ∃ k, s.nodes c = some k ∧ k.parent = d)
    (hdepth : ∀ d c, c ∈ s.childrenOf d → depth c = depth d + 1)
    (hnodup : ∀ d, (s.childrenOf d).Nodup) (fuel a : ℕ) : (descendants s fuel a ++ [a]).Nodup := by
  induction fuel generalizing a with
  | zero => exact List.nodup_singleton a
  | succ fuel ih =>
    have hself : a ∉ descendants s (fuel + 1) a := fun h =>
      (above_iterate hchild hdepth _ h).1.false
    refine List.nodup_append.mpr ⟨List.nodup_flatMap.mpr ⟨fun c _ => ih c, ?_⟩,
      List.nodup_singleton a, ?_⟩
    · -- two children have nothing below them in common: both are the same number of steps up
      refine (hnodup a).imp_of_mem fun {c c'} hc hc' hne x hx hx' => hne ?_
      have hup : ∀ e ∈ s.childrenOf a, x ∈ descendants s fuel e ++ [e] →
        s.above^[depth x - (depth a + 1)] x = e := by
        intro e he hxe
        rw [← hdepth a e he]
        rcases List.mem_append.mp hxe with hxe | hxe
        · exact (above_iterate hchild hdepth _ hxe).2
        · rw [List.mem_singleton.mp hxe, Nat.sub_self]
          rfl
      exact (hup c hc hx).symm.trans (hup c' hc' hx')
    · intro x hx y hy heq
      rw [heq, List.mem_singleton.mp hy] at hx
      exact hself hx

lemma freedBy_nodup (h : Linked s) (ha : s.nodes a = some n) (hne : a ≠ root) :
    (freedBy (unlink s a) a).Nodup := by
  obtain ⟨depth, _, hstep, _⟩ := h.depth
  have hdepth : ∀ d c, c ∈ (unlink s a).childrenOf d → depth c = depth d + 1 := by
    intro d c hc
    obtain ⟨m, hm, hmem, _⟩ := mem_childrenOf_unlink h ha hne hc
    obtain ⟨k, hk, hkp, hcr⟩ := h.child d m c hm hmem
    exact hkp ▸ hstep c k hk hcr
  refine descendants_nodup (fun d c => parent_of_unlink h ha hne) hdepth (fun d => ?_) _ a
  rw [childrenOf_unlink h ha hne]
  cases hd : s.nodes d with
  | none => simp [Ramfs.childrenOf, hd]
  | some m =>
    rw [childrenOf_of_some hd]
    exact (h.nodup d m hd).erase a

/-- The nodes of the subtree of a node. -/
def Below (s : Ramfs) : ℕ → ℕ → Prop := Relation.ReflTransGen fun d c => c ∈ s.childrenOf d

lemma descendants_below (fuel : ℕ) : ∀ {a x : ℕ}, x ∈ descendants s fuel a → Below s a x := by
  induction fuel with
  | zero => exact fun h => nomatch h
  | succ fuel ih =>
    intro a x hx
    obtain ⟨c, hc, hx⟩ := List.mem_flatMap.mp hx
    refine Relation.ReflTransGen.head hc ?_
    rcases List.mem_append.mp hx with hx | hx
    · exact ih hx
    · exact List.mem_singleton.mp hx ▸ Relation.ReflTransGen.refl

/-- What is freed is the subtree. -/
lemma mem_freedBy (h : Linked s) (ha : s.nodes a = some n) (hne : a ≠ root) (x : ℕ) :
    x ∈ freedBy (unlink s a) a ↔ Below s a x := by
  have hsub := freedBy_subtree h ha hne
  refine ⟨fun hx => ?_, fun hx => ?_⟩
  · have hbelow : Below (unlink s a) a x := by
      rcases List.mem_append.mp hx with hx | hx
      · exact descendants_below _ hx
      · exact List.mem_singleton.mp hx ▸ Relation.ReflTransGen.refl
    refine Relation.ReflTransGen.mono (fun d c hc => ?_) _ _ hbelow
    obtain ⟨m, hm, hmem, _⟩ := mem_childrenOf_unlink h ha hne hc
    rwa [childrenOf_of_some hm]
  · induction hx with
    | refl => exact hsub.top
    | tail _ hc ih =>
      rename_i d c _
      cases hd : s.nodes d with
      | none => simp [Ramfs.childrenOf, hd] at hc
      | some m =>
        rw [childrenOf_of_some hd] at hc
        exact hsub.down d m c ih hd hc

lemma frees_nodup (h : Linked s) (ha : s.nodes a = some n) (hne : a ≠ root) :
    ((freedBy (unlink s a) a).flatMap (releases (unlink s a))).Nodup := by
  refine List.nodup_flatMap.mpr
    ⟨fun x _ => ?_, (freedBy_nodup h ha hne).imp fun {x y} hxy e hx hy => hxy ?_⟩
  · unfold releases
    split_ifs
    · simp
    · simp
  · rcases mem_releases.mp hx with rfl | ⟨rfl, _⟩
    · simpa using mem_releases.mp hy
    · simpa using (mem_releases.mp hy).imp_right And.left

/-! ## Lookups after a removal -/

lemma findChild_of_mem (hdist : Distinct s) {d c : ℕ} (hd : s.nodes d = some n)
    (hc : c ∈ n.children) : findChild s d (s.nameOf c) = some c := by
  cases hfind : findChild s d (s.nameOf c) with
  | none => exact absurd rfl (findChild_eq_none hfind c (by rwa [childrenOf_of_some hd]))
  | some c' =>
    obtain ⟨hmem, hname⟩ := findChild_eq_some hfind
    rw [childrenOf_of_some hd] at hmem
    rw [hdist d n c' c hd hmem hc hname]

/-- No segment is `.` or `..`. -/
def PlainSegments (segs : List (Name × Bool)) : Prop := ∀ x ∈ segs, x.1 ≠ dot ∧ x.1 ≠ dotDot

instance (segs : List (Name × Bool)) : Decidable (PlainSegments segs) :=
  inferInstanceAs (Decidable (∀ x ∈ segs, _))

/-- A plain walk goes down. -/
lemma lookupFrom_below {segs : List (Name × Bool)} (hplain : PlainSegments segs) {x : ℕ} :
    ∀ {cur : ℕ}, lookupFrom s cur segs = some x → Below s cur x := by
  induction segs with
  | nil => exact fun hx => Option.some.inj hx ▸ Relation.ReflTransGen.refl
  | cons y rest ih =>
    obtain ⟨seg, final⟩ := y
    intro cur hx
    obtain ⟨hdot, hdd⟩ := hplain _ List.mem_cons_self
    unfold lookupFrom at hx
    rw [if_neg hdot, if_neg hdd] at hx
    split_ifs at hx
    obtain ⟨child, hfind, hx⟩ := Option.bind_eq_some_iff.mp hx
    exact Relation.ReflTransGen.head (findChild_eq_some hfind).1 (ih (fun y hy =>
      hplain y (List.mem_cons_of_mem _ hy)) hx)

/-- Where a plain path leads after a removal. -/
structure After (s s' : Ramfs) (a : ℕ) : Prop where
  isDir : ∀ d n, s.nodes d = some n → ¬ Below s a d → s'.isDir d = s.isDir d
  outside : ∀ d n x c, s.nodes d = some n → ¬ Below s a d → ¬ Below s a c →
    findChild s d x = some c → findChild s' d x = some c
  inside : ∀ d n x c, s.nodes d = some n → ¬ Below s a d → Below s a c → findChild s d x = some c →
    findChild s' d x = none

lemma tfsRm_after (h : Linked s) (hdist : Distinct s) (ha : s.nodes a = some n) (hne : a ≠ root) :
    After s (tfsRm s a).1 a := by
  have hsub := freedBy_subtree h ha hne
  have hmem := mem_freedBy h ha hne
  have hat (x : ℕ) {m : Node} (hx : s.nodes x = some m) (hout : ¬ Below s a x) :
      (tfsRm s a).1.nodes x = some { m with children := m.children.erase a } := by
    rw [nodes_tfsRm h ha hne, if_neg (fun hin => hout ((hmem x).mp hin)), hx, Option.map_some]
  have hdist' := (tfsRm_spec h ha).2.1 hdist
  refine ⟨fun d m hd hout => ?_, fun d m x c hd hout hcout hfind => ?_,
    fun d m x c hd hout hcin hfind => ?_⟩
  · simp [Ramfs.isDir, hat d hd hout, hd]
  · obtain ⟨hc, hname⟩ := findChild_eq_some hfind
    rw [childrenOf_of_some hd] at hc
    obtain ⟨k, hk, _⟩ := h.child d m c hd hc
    have hca : c ≠ a := fun heq => hcout (heq ▸ Relation.ReflTransGen.refl)
    have hname' : (tfsRm s a).1.nameOf c = x := by
      rw [nameOf_of_some (hat c hk hcout), ← hname, nameOf_of_some hk]
    rw [← hname']
    exact findChild_of_mem hdist' (hat d hd hout) ((List.mem_erase_of_ne hca).mpr hc)
  · obtain ⟨hc, hname⟩ := findChild_eq_some hfind
    rw [childrenOf_of_some hd] at hc
    obtain ⟨k, hk, hkp, _⟩ := h.child d m c hd hc
    -- of the children of a node outside only the removed one is inside
    have hca : c = a := by
      by_contra hca
      exact hout ((hmem d).mp (hkp ▸ hsub.up c k ((hmem c).mpr hcin) hca hk))
    cases hfind' : findChild (tfsRm s a).1 d x with
    | none => rfl
    | some c' =>
      obtain ⟨hc', hname'⟩ := findChild_eq_some hfind'
      rw [childrenOf_of_some (hat d hd hout)] at hc'
      obtain ⟨hca', hc'⟩ := (h.nodup d m hd).mem_erase_iff.mp hc'
      obtain ⟨k', hk', hkp', _⟩ := h.child d m c' hd hc'
      have hout' : ¬ Below s a c' := fun hin =>
        hout ((hmem d).mp (hkp' ▸ hsub.up c' k' ((hmem c').mpr hin) hca' hk'))
      rw [nameOf_of_some (hat c' hk' hout')] at hname'
      refine absurd (hdist d m c' c hd hc' hc ?_) (hca ▸ hca')
      rw [nameOf_of_some hk', hname]
      exact hname'

lemma After.lookupFrom {s' : Ramfs} (haft : After s s' a) (h : Linked s) {segs : List (Name × Bool)}
    (hplain : PlainSegments segs) {x : ℕ} :
    ∀ {cur : ℕ} {n : Node}, s.nodes cur = some n → ¬ Below s a cur →
      Tfs.lookupFrom s cur segs = some x →
        (¬ Below s a x → Tfs.lookupFrom s' cur segs = some x) ∧
          (Below s a x → Tfs.lookupFrom s' cur segs = none) := by
  induction segs with
  | nil => exact fun _ hout hx => ⟨fun _ => hx, fun hin => absurd (Option.some.inj hx ▸ hin) hout⟩
  | cons y rest ih =>
    obtain ⟨seg, final⟩ := y
    intro cur n hcur hout hx
    obtain ⟨hdot, hdd⟩ := hplain _ List.mem_cons_self
    have hrest : PlainSegments rest := fun y hy => hplain y (List.mem_cons_of_mem _ hy)
    unfold Tfs.lookupFrom at hx ⊢
    rw [if_neg hdot, if_neg hdd] at hx ⊢
    rw [haft.isDir cur n hcur hout]
    split_ifs at hx ⊢
    obtain ⟨child, hfind, hx⟩ := Option.bind_eq_some_iff.mp hx
    obtain ⟨k, hk⟩ := h.findChild hfind
    by_cases hin : Below s a child
    · rw [haft.inside cur n seg child hcur hout hin hfind]
      exact ⟨fun hxout => absurd (Relation.ReflTransGen.trans hin (lookupFrom_below hrest hx))
        hxout, fun _ => rfl⟩
    · rw [haft.outside cur n seg child hcur hout hin hfind]
      exact ih hrest hk hin hx

/-- The root is below the removed node only if it is that node. -/
lemma not_below_root (h : Linked s) (ha : s.nodes a = some n) (hne : a ≠ root) : ¬ Below s a root :=
  fun hin => (freedBy_subtree h ha hne).root ((mem_freedBy h ha hne root).mpr hin)

/-- What is released is what the nodes of the subtree have. -/
lemma mem_frees (h : Linked s) (ha : s.nodes a = some n) (hne : a ≠ root) (e : Freed) :
    e ∈ (tfsRm s a).2.2 ↔ ∃ x, Below s a x ∧
      (e = .node x ∨ e = .data x ∧ ∃ k, s.nodes x = some k ∧ k.data ≠ []) := by
  rw [tfsRm_of_ne (h.ne_zero ha) hne]
  simp only [List.mem_flatMap, mem_freedBy h ha hne, mem_releases, nodes_unlink h ha hne,
    Option.map_eq_some_iff, exists_exists_and_eq_and]

end Remove

end TraitOS.Tfs
