import TraitOS.Runs
import TraitOS.TfsRemoval
import TraitOS.Ttarfs

/-!
# Runs of the file system

The boot tree with `/proc` and `/sys`, and the calls made from then on: by path, as the
shell makes them, and whole archives. The shape of the tree holds in every state of every
run. Siblings keep different names as long as no directory is made for a segment that has
to be cut, and mounted nodes stay in the tree as long as none of them is removed.
-/
namespace TraitOS.Tfs
open Runs Ttarfs

variable {s : Ramfs}

/-! ## The boot tree -/

/-- A directory of virtual files, mounted under a name. -/
def virtualInit (s : Ramfs) (path : List UInt8) (files : List Name) (mount : Name) : Ramfs :=
  match tfsMkdir s path with
  | (s, none) => s
  | (s, some dir) => tfsMount (files.foldl (fun s file => (tfsAddVirtual s dir file).1) s) mount dir

/-- `/proc` with uptime, version, meminfo and heapinfo. -/
def tfsProcfsInit (s : Ramfs) : Ramfs :=
  virtualInit s [47, 112, 114, 111, 99]
    [[117, 112, 116, 105, 109, 101], [118, 101, 114, 115, 105, 111, 110],
      [109, 101, 109, 105, 110, 102, 111], [104, 101, 97, 112, 105, 110, 102, 111]]
    [112, 114, 111, 99, 102, 115]

/-- `/sys` with memory, frames and kernel. -/
def tfsSysfsInit (s : Ramfs) : Ramfs :=
  virtualInit s [47, 115, 121, 115]
    [[109, 101, 109, 111, 114, 121], [102, 114, 97, 109, 101, 115], [107, 101, 114, 110, 101, 108]]
    [115, 121, 115, 102, 115]

def bootTree (grants : ℕ → Option ℕ) : Ramfs := tfsSysfsInit (tfsProcfsInit (tfsInit grants))

/-- Every mounted node is alive. -/
def Mounted (s : Ramfs) : Prop := ∀ m ∈ s.mounts, (s.nodes m.2).isSome

lemma Mounted.kept {s s' : Ramfs} (h : Mounted s) (hk : Kept s s') : Mounted s' := by
  intro m hm
  rw [hk.mounts] at hm
  obtain ⟨n, hn⟩ := Option.isSome_iff_exists.mp (h m hm)
  obtain ⟨n', hn', _⟩ := hk.live _ n hn
  rw [hn']
  rfl

lemma Mounted.mount (h : Mounted s) (name : Name) {a : ℕ} (ha : (s.nodes a).isSome) :
    Mounted (tfsMount s name a) := by
  unfold tfsMount
  by_cases hfull : maxMounts ≤ s.mounts.length ∨ a = 0
  · rwa [if_pos hfull]
  · rw [if_neg hfull]
    intro m hm
    rcases List.mem_append.mp hm with hm | hm
    · exact h m hm
    · rw [List.mem_singleton.mp hm]
      exact ha

lemma Linked.mount (h : Linked s) (name : Name) (a : ℕ) : Linked (tfsMount s name a) := by
  unfold tfsMount
  by_cases hfull : maxMounts ≤ s.mounts.length ∨ a = 0
  · rwa [if_pos hfull]
  · rw [if_neg hfull]
    exact h.of_nodes rfl le_rfl

lemma Distinct.mount (h : Distinct s) (name : Name) (a : ℕ) : Distinct (tfsMount s name a) := by
  unfold tfsMount
  by_cases hfull : maxMounts ≤ s.mounts.length ∨ a = 0
  · rwa [if_pos hfull]
  · rwa [if_neg hfull]

/-- Virtual files of different names in a directory that has none of them. -/
lemma addVirtuals_spec {dir : ℕ} {files : List Name}
    (hok : ∀ f ∈ files, NameOk f ∧ f.length < maxName) (hnd : files.Nodup) :
    ∀ {s : Ramfs}, Linked s → Distinct s →
      (∀ c ∈ s.childrenOf dir, s.nameOf c ∉ files) →
      let s' := files.foldl (fun s file => (tfsAddVirtual s dir file).1) s
      Linked s' ∧ Distinct s' ∧ Kept s s' := by
  induction files with
  | nil => exact fun h hd _ => ⟨h, hd, Kept.refl _⟩
  | cons f files ih =>
    intro s h hd hfree
    obtain ⟨hf, hlen⟩ := hok f List.mem_cons_self
    obtain ⟨hnotin, hnd⟩ := List.nodup_cons.mp hnd
    obtain ⟨hl, hkept, hdist, hchildren⟩ := tfsAddVirtual_spec h dir hf hlen
    have hd' := hdist hd fun c hc heq => hfree c hc (heq ▸ List.mem_cons_self)
    have hfree' : ∀ c ∈ (tfsAddVirtual s dir f).1.childrenOf dir,
        (tfsAddVirtual s dir f).1.nameOf c ∉ files := by
      intro c hc
      rcases hchildren c hc with heq | ⟨hold, heq⟩
      · rw [heq]
        exact hnotin
      · rw [heq]
        exact fun hin => hfree c hold (List.mem_cons_of_mem _ hin)
    obtain ⟨hl', hdist', hkept'⟩ :=
      ih (fun g hg => hok g (List.mem_cons_of_mem _ hg)) hnd hl hd' hfree'
    exact ⟨hl', hdist', hkept.trans hkept'⟩

/-- The invariant of all runs. -/
structure Sound (s : Ramfs) : Prop where
  linked : Linked s
  distinct : Distinct s
  mounted : Mounted s

lemma Sound.virtualInit (h : Sound s) (path : List UInt8) (files : List Name) (mount : Name)
    (hpath : ShortSegments (segments path)) (hok : ∀ f ∈ files, NameOk f ∧ f.length < maxName)
    (hnd : files.Nodup) : Sound (virtualInit s path files mount) := by
  obtain ⟨hcreated, hdist, hnode⟩ := makeNode_spec h.linked path true
  unfold Tfs.virtualInit
  rcases hres : tfsMkdir s path with ⟨s', _ | dir⟩
  · rw [show makeNode s path true = (s', none) from hres] at hcreated hdist
    exact ⟨hcreated.linked, hdist h.distinct hpath, h.mounted.kept hcreated.kept⟩
  · rw [show makeNode s path true = (s', some dir) from hres] at hcreated hdist hnode
    obtain ⟨n, hn, _, hch⟩ := hnode dir rfl
    have hnone : ∀ c ∈ s'.childrenOf dir, s'.nameOf c ∉ files := by
      simp [childrenOf_of_some hn, hch]
    obtain ⟨hl, hd, hk⟩ := addVirtuals_spec hok hnd hcreated.linked (hdist h.distinct hpath) hnone
    obtain ⟨n', hn', _⟩ := hk.live dir n hn
    have hm := h.mounted.kept (hcreated.kept.trans hk)
    exact ⟨hl.mount mount dir, hd.mount mount dir, hm.mount mount (by rw [hn']; rfl)⟩

theorem bootTree_sound (grants : ℕ → Option ℕ) : Sound (bootTree grants) := by
  have hinit : Sound (tfsInit grants) := ⟨Linked.init grants, Distinct.init grants, nofun⟩
  have hproc := hinit.virtualInit [47, 112, 114, 111, 99] [[117, 112, 116, 105, 109, 101],
    [118, 101, 114, 115, 105, 111, 110], [109, 101, 109, 105, 110, 102, 111],
    [104, 101, 97, 112, 105, 110, 102, 111]] [112, 114, 111, 99, 102, 115] (by decide) (by decide)
      (by decide)
  exact hproc.virtualInit _ _ [115, 121, 115, 102, 115] (by decide) (by decide) (by decide)

/-! ## Calls -/

/-- A call by path. Unpacking an archive may be stopped after any number of members. -/
inductive Op where
  | mkdir (path : List UInt8)
  | touch (path : List UInt8)
  | write (path data : List UInt8)
  | rm (path : List UInt8)
  | mount (name : Name) (path : List UInt8)
  | unpack (tar : Archive) (len : ℕ) (spill : ℕ → List UInt8) (fuel : ℕ)

def step (s : Ramfs) : Op → Option Ramfs
  | .mkdir path => some (tfsMkdir s path).1
  | .touch path => some (tfsTouch s path).1
  | .write path data => some ((tfsLookup s path).elim s fun a => (tfsWrite s a data).1)
  | .rm path => some ((tfsLookup s path).elim s fun a => (tfsRm s a).1)
  | .mount name path => some ((tfsLookup s path).elim s fun a => tfsMount s name a)
  | .unpack tar len spill fuel => some (unpackFrom tar len spill fuel s 0)

/-- The members an archive is unpacked to have no long segment before the last. -/
def ShortMembers (tar : Archive) (len : ℕ) (spill : ℕ → List UInt8) : ℕ → ℕ → Prop
  | 0, _ => True
  | fuel + 1, off => atHeader tar len off = true →
    ShortSegments (segments (memberName tar spill off)) ∧
      ShortMembers tar len spill fuel (tarNext tar off)

instance decidableShortMembers (tar : Archive) (len : ℕ) (spill : ℕ → List UInt8) :
    (fuel off : ℕ) → Decidable (ShortMembers tar len spill fuel off)
  | 0, _ => inferInstanceAs (Decidable True)
  | fuel + 1, off =>
    have := decidableShortMembers tar len spill fuel (tarNext tar off)
    inferInstanceAs (Decidable (_ → _ ∧ _))

/-- Calls that make no directory for a segment of 64 bytes or more. -/
def ShortPaths (_ : Ramfs) : Op → Prop
  | .mkdir path => ShortSegments (segments path)
  | .touch path => ShortSegments (segments path)
  | .unpack tar len spill fuel => ShortMembers tar len spill fuel 0
  | _ => True

instance (s : Ramfs) : (op : Op) → Decidable (ShortPaths s op)
  | .mkdir path | .touch path => inferInstanceAs (Decidable (ShortSegments (segments path)))
  | .unpack tar len spill fuel => inferInstanceAs (Decidable (ShortMembers tar len spill fuel 0))
  | .write .. | .rm _ | .mount .. => inferInstanceAs (Decidable True)

/-- A lookup ends at a live node. -/
lemma lookupFrom_live (h : Linked s) (segs : List (Name × Bool)) :
    ∀ {cur a : ℕ}, (s.nodes cur).isSome → lookupFrom s cur segs = some a → (s.nodes a).isSome := by
  induction segs with
  | nil =>
    intro cur a hcur heq
    exact Option.some.inj heq ▸ hcur
  | cons x rest ih =>
    intro cur a hcur heq
    obtain ⟨seg, final⟩ := x
    unfold lookupFrom at heq
    by_cases hdot : seg = dot
    · rw [if_pos hdot] at heq
      exact ih hcur heq
    rw [if_neg hdot] at heq
    by_cases hdd : seg = dotDot
    · rw [if_pos hdd] at heq
      obtain ⟨n, hn⟩ := Option.isSome_iff_exists.mp hcur
      exact ih (Option.isSome_iff_exists.mpr (h.parentOf hn)) heq
    rw [if_neg hdd] at heq
    by_cases hdir : s.isDir cur = false
    · rw [if_pos hdir] at heq
      cases heq
    rw [if_neg hdir] at heq
    obtain ⟨child, hchild, hrest⟩ := Option.bind_eq_some_iff.mp heq
    exact ih (Option.isSome_iff_exists.mpr (h.findChild hchild)) hrest

lemma tfsLookup_live (h : Linked s) {path : List UInt8} {a : ℕ} (heq : tfsLookup s path = some a) :
    ∃ n, s.nodes a = some n := by
  obtain ⟨r, hr, _⟩ := h.rooted
  exact Option.isSome_iff_exists.mp (lookupFrom_live h _ (by rw [hr]; rfl) heq)

/-- A call that frees and mounts nothing. -/
structure Grows (s s' : Ramfs) : Prop where
  linked : Linked s'
  live : ∀ x, (s.nodes x).isSome → (s'.nodes x).isSome
  mounts : s'.mounts = s.mounts

lemma Grows.refl (h : Linked s) : Grows s s := ⟨h, fun _ => id, rfl⟩

lemma Grows.trans {s s' s'' : Ramfs} (h : Grows s s') (h' : Grows s' s'') : Grows s s'' :=
  ⟨h'.linked, fun x hx => h'.live x (h.live x hx), h'.mounts.trans h.mounts⟩

lemma Created.grows {s s' : Ramfs} (h : Created s s') : Grows s s' := by
  refine ⟨h.linked, fun x hx => ?_, h.kept.mounts⟩
  obtain ⟨n, hn⟩ := Option.isSome_iff_exists.mp hx
  obtain ⟨n', hn', _⟩ := h.kept.live x n hn
  rw [hn']
  rfl

lemma Mounted.grows {s s' : Ramfs} (h : Mounted s) (hg : Grows s s') : Mounted s' := by
  intro m hm
  rw [hg.mounts] at hm
  exact hg.live _ (h m hm)

lemma makeNode_grows (h : Linked s) (path : List UInt8) (dir : Bool) :
    Grows s (makeNode s path dir).1 := (makeNode_spec h path dir).1.grows

lemma tfsWrite_grows (h : Linked s) (a : ℕ) (data : List UInt8) : Grows s (tfsWrite s a data).1 :=
  by
  obtain ⟨hl, _, hm, hlive⟩ := tfsWrite_spec h a data
  exact ⟨hl, hlive, hm⟩

lemma unpackMember_spec (h : Linked s) (tar : Archive) (spill : ℕ → List UInt8) (off : ℕ) :
    Grows s (unpackMember s tar spill off) ∧
      (Distinct s → ShortSegments (segments (memberName tar spill off)) →
        Distinct (unpackMember s tar spill off)) := by
  unfold unpackMember
  dsimp only
  have hmake := fun dir => (makeNode_spec h (memberName tar spill off) dir).2.1
  by_cases h5 : byteAt tar (off + 156) = 53
  · rw [if_pos h5]
    by_cases hnil : memberName tar spill off = []
    · rw [if_pos hnil]
      exact ⟨Grows.refl h, fun hd _ => hd⟩
    · rw [if_neg hnil]
      exact ⟨makeNode_grows h _ _, hmake true⟩
  rw [if_neg h5]
  by_cases h0 : byteAt tar (off + 156) = 48 ∨ byteAt tar (off + 156) = 0
  · rw [if_pos h0]
    by_cases hnil : memberName tar spill off = []
    · rw [if_pos hnil]
      exact ⟨Grows.refl h, fun hd _ => hd⟩
    rw [if_neg hnil]
    have hgrows : Grows s (tfsTouch s (memberName tar spill off)).1 := makeNode_grows h _ _
    have hdist := hmake false
    rw [show makeNode s (memberName tar spill off) false =
      tfsTouch s (memberName tar spill off) from rfl] at hdist
    rcases hres : tfsTouch s (memberName tar spill off) with ⟨s', _ | f⟩
    · rw [hres] at hgrows hdist
      exact ⟨hgrows, hdist⟩
    · rw [hres] at hgrows hdist
      dsimp only at hgrows hdist ⊢
      by_cases hsize : 0 < tarSize tar off
      · rw [if_pos hsize]
        exact ⟨hgrows.trans (tfsWrite_grows hgrows.linked _ _), fun hd hs =>
          (tfsWrite_spec hgrows.linked _ _).2.1 (hdist hd hs)⟩
      · rw [if_neg hsize]
        exact ⟨hgrows, hdist⟩
  · rw [if_neg h0]
    exact ⟨Grows.refl h, fun hd _ => hd⟩

/-- Every member leaves a tree, so the whole archive does, wherever the loop is stopped. -/
theorem unpackFrom_spec (tar : Archive) (len : ℕ) (spill : ℕ → List UInt8) (fuel : ℕ) :
    ∀ {s : Ramfs} {off : ℕ}, Linked s → Grows s (unpackFrom tar len spill fuel s off) ∧
      (Distinct s → ShortMembers tar len spill fuel off →
        Distinct (unpackFrom tar len spill fuel s off)) := by
  induction fuel with
  | zero => exact fun h => ⟨Grows.refl h, fun hd _ => hd⟩
  | succ fuel ih =>
    intro s off h
    unfold unpackFrom
    by_cases hat : atHeader tar len off = true
    · rw [if_pos hat]
      obtain ⟨hg, hd⟩ := unpackMember_spec h tar spill off
      obtain ⟨hg', hd'⟩ := @ih _ (tarNext tar off) hg.linked
      exact ⟨hg.trans hg', fun hs hm => hd' (hd hs (hm hat).1) (hm hat).2⟩
    · rw [if_neg hat]
      exact ⟨Grows.refl h, fun hd _ => hd⟩

/-- No call breaks the shape of the tree. -/
theorem Linked.step {s s' : Ramfs} (h : Linked s) {op : Op} (hstep : step s op =
    some s') : Linked s' := by
  cases op with
  | mkdir path => exact Option.some.inj hstep ▸ (makeNode_grows h path true).linked
  | touch path => exact Option.some.inj hstep ▸ (makeNode_grows h path false).linked
  | unpack tar len spill fuel =>
    exact Option.some.inj hstep ▸ (unpackFrom_spec tar len spill fuel h).1.linked
  | write path data =>
    cases hstep
    cases tfsLookup s path with
    | none => exact h
    | some a => exact (tfsWrite_grows h a data).linked
  | mount name path =>
    cases hstep
    cases tfsLookup s path with
    | none => exact h
    | some a => exact h.mount name a
  | rm path =>
    cases hstep
    cases hl : tfsLookup s path with
    | none => exact h
    | some a =>
      obtain ⟨n, hn⟩ := tfsLookup_live h hl
      exact (tfsRm_spec h hn).1

theorem Distinct.step {s s' : Ramfs} (hd : Distinct s) (h : Linked s) {op : Op}
    (hshort : ShortPaths s op) (hstep : step s op = some s') : Distinct s' := by
  cases op with
  | mkdir path => exact Option.some.inj hstep ▸ (makeNode_spec h path true).2.1 hd hshort
  | touch path => exact Option.some.inj hstep ▸ (makeNode_spec h path false).2.1 hd hshort
  | unpack tar len spill fuel =>
    exact Option.some.inj hstep ▸ (unpackFrom_spec tar len spill fuel h).2 hd hshort
  | write path data =>
    cases hstep
    cases tfsLookup s path with
    | none => exact hd
    | some a => exact (tfsWrite_spec h a data).2.1 hd
  | mount name path =>
    cases hstep
    cases tfsLookup s path with
    | none => exact hd
    | some a => exact hd.mount name a
  | rm path =>
    cases hstep
    cases hl : tfsLookup s path with
    | none => exact hd
    | some a =>
      obtain ⟨n, hn⟩ := tfsLookup_live h hl
      exact (tfsRm_spec h hn).2.1 hd

/-! ## The tree -/

/-- Siblings have different names, names are path segments, parent pointers and lists
agree, and only directories have children. -/
structure TreeOk (s : Ramfs) : Prop where
  siblings : Distinct s
  names : ∀ c k, s.nodes c = some k → c ≠ root → NameOk k.name
  parents : ∀ d n c, s.nodes d = some n → c ∈ n.children → ∃ k, s.nodes c = some k ∧ k.parent = d
  dirs : ∀ d n, s.nodes d = some n → n.children ≠ [] → n.dir = true

/-- The tree in every state of a run that makes no directory for a segment of 64 bytes
or more. -/
theorem treeOk_of_run {grants : ℕ → Option ℕ} {ops : List Op}
    (hrun : exec (guarded step ShortPaths) (bootTree grants) ops = some s) : TreeOk s := by
  have hboot := bootTree_sound grants
  have hinv : Linked s ∧ Distinct s := by
    refine exec_invariant (I := fun s => Linked s ∧
      Distinct s) ?_ ops ⟨hboot.linked, hboot.distinct⟩ hrun
    rintro s op t ⟨hl, hd⟩ hstep
    obtain ⟨hshort, hstep⟩ := (guarded_eq_some ..).mp hstep
    exact ⟨hl.step hstep, hd.step hl hshort hstep⟩
  obtain ⟨hl, hd⟩ := hinv
  refine ⟨hd, hl.names, fun d n c hn hc => ?_, hl.dirs⟩
  obtain ⟨k, hk, hkp, _⟩ := hl.child d n c hn hc
  exact ⟨k, hk, hkp⟩

/-- A heap that answers every call with the next address. -/
def freshGrants : ℕ → Option ℕ := fun n => some (n + 2)

/-- There is a way from the root to the node through lists of children. -/
def Reaches (s : Ramfs) (a : ℕ) : Prop :=
  Relation.ReflTransGen (fun d c => c ∈ s.childrenOf d) root a

/-- Every node that is not freed can be reached. -/
theorem Linked.reaches (h : Linked s) {a : ℕ} {n : Node} (ha : s.nodes a = some n) :
    Reaches s a := by
  obtain ⟨depth, hzero, hstep, _⟩ := h.depth
  induction hd : depth a generalizing a n with
  | zero =>
    by_cases hroot : a = root
    · exact hroot ▸ Relation.ReflTransGen.refl
    · have := hstep a n ha hroot
      omega
  | succ k ih =>
    by_cases hroot : a = root
    · exact hroot ▸ Relation.ReflTransGen.refl
    · obtain ⟨p, hp, hmem⟩ := h.listed a n ha hroot
      have := hstep a n ha hroot
      exact (ih hp (by omega)).tail (by rwa [childrenOf_of_some hp])

lemma Linked.live_of_reaches (h : Linked s) {a : ℕ} (ha : Reaches s a) :
    ∃ n, s.nodes a = some n := by
  induction ha with
  | refl => exact h.rooted.imp fun n hn => hn.1
  | @tail d c _ hc ih =>
    obtain ⟨n, hn⟩ := ih
    rw [childrenOf_of_some hn] at hc
    exact (h.child d n c hn hc).imp fun k hk => hk.1

/-- Calls that remove no mounted node, alone or with a directory above it. -/
def KeepsMounts (s : Ramfs) : Op → Prop
  | .rm path => ∀ a ∈ tfsLookup s path, a = root ∨ ∀ m ∈ s.mounts, m.2 ∉ freedBy (unlink s a) a
  | _ => True

instance (s : Ramfs) : (op : Op) → Decidable (KeepsMounts s op)
  | .rm _ => inferInstanceAs (Decidable (∀ a ∈ _, _))
  | .mkdir _ | .touch _ | .write .. | .mount .. | .unpack .. => inferInstanceAs (Decidable True)

theorem Mounted.step {s s' : Ramfs} (hm : Mounted s) (h : Linked s) {op : Op}
    (hkeep : KeepsMounts s op) (hstep : step s op = some s') : Mounted s' := by
  cases op with
  | mkdir path => exact Option.some.inj hstep ▸ hm.grows (makeNode_grows h path true)
  | touch path => exact Option.some.inj hstep ▸ hm.grows (makeNode_grows h path false)
  | unpack tar len spill fuel =>
    exact Option.some.inj hstep ▸ hm.grows (unpackFrom_spec tar len spill fuel h).1
  | write path data =>
    cases hstep
    cases tfsLookup s path with
    | none => exact hm
    | some a => exact hm.grows (tfsWrite_grows h a data)
  | mount name path =>
    cases hstep
    cases hl : tfsLookup s path with
    | none => exact hm
    | some a =>
      obtain ⟨n, hn⟩ := tfsLookup_live h hl
      exact hm.mount name (by rw [hn]; rfl)
  | rm path =>
    cases hstep
    cases hl : tfsLookup s path with
    | none => exact hm
    | some a =>
      obtain ⟨n, hn⟩ := tfsLookup_live h hl
      obtain ⟨_, _, hmounts, hlive⟩ := tfsRm_spec h hn
      intro m hmem
      rw [Option.elim_some, hmounts] at hmem
      exact hlive m.2 (hm m hmem) ((hkeep a hl).imp id fun hno => hno m hmem)

/-- In every state of a run that removes no mounted node, the mount table leads into the
tree. -/
theorem reaches_of_run {grants : ℕ → Option ℕ} {ops : List Op}
    (hrun : exec (guarded step KeepsMounts) (bootTree grants) ops = some s) :
    ∀ m ∈ s.mounts, Reaches s m.2 := by
  have hboot := bootTree_sound grants
  have hinv : Linked s ∧ Mounted s := by
    refine exec_invariant (I := fun s => Linked s ∧
      Mounted s) ?_ ops ⟨hboot.linked, hboot.mounted⟩ hrun
    rintro s op t ⟨hl, hm⟩ hstep
    obtain ⟨hkeep, hstep⟩ := (guarded_eq_some ..).mp hstep
    exact ⟨hl.step hstep, hm.step hl hkeep hstep⟩
  intro m hmem
  obtain ⟨n, hn⟩ := Option.isSome_iff_exists.mp (hinv.2 m hmem)
  exact hinv.1.reaches hn

end TraitOS.Tfs
