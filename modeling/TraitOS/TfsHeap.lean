import TraitOS.TfsCreate
import TraitOS.TfsRuns
import TraitOS.TmallocIsolation

/-!
# The file system on its heap

`tmalloc` returns the address of a block's header, so names and file contents overwrite headers.
`tfree` then refuses a block, or a later `tmalloc` hands out memory in which a node lives. Here the
operations run on a heap whose calls may change the nodes in any way. As long as no call does, they
are the operations of the tree.
-/
namespace TraitOS.Tfs
open ByteMemory Runs Tmalloc Ttarfs

/-- What each call of the heap, and the filling of the block, does to the nodes, if anything. -/
abbrev Damage := ℕ → Option ((ℕ → Option Node) → ℕ → Option Node)

/-- The file system on such a heap. `intact` says whether no call did anything so far. -/
structure Raw where
  fs : Ramfs
  damage : Damage
  calls : ℕ
  intact : Bool

namespace Raw

def heapCall (s : Raw) : Raw :=
  match s.damage s.calls with
  | none => { s with calls := s.calls + 1 }
  | some f => { s with
      fs := { s.fs with nodes := f s.fs.nodes }
      calls := s.calls + 1
      intact := false }

def tmalloc (s : Raw) : Raw × Option ℕ :=
  ({ s.heapCall with fs := s.heapCall.fs.tmalloc.1 }, s.heapCall.fs.tmalloc.2)

/-- Whatever was at the address is overwritten. -/
def allocNodeLen (s : Raw) (name : Name) (dir : Bool) : Raw × Option ℕ :=
  let r := s.tmalloc
  match r.2.filter fun a => a ≠ 0 with
  | none => (r.1, none)
  | some a =>
    ({ r.1 with
        fs := r.1.fs.set a ⟨name.take (maxName - 1), dir, [], false, 0, []⟩
        intact := r.1.intact && (r.1.fs.nodes a).isNone }, some a)

def addNode (s : Raw) (parent : ℕ) (name : Name) (dir : Bool) : Raw × Option ℕ :=
  match s.allocNodeLen name dir with
  | (s, none) => (s, none)
  | (s, some a) => ({ s with fs := link s.fs parent a }, some a)

def resolveCreate (s : Raw) (cur : ℕ) : List (Name × Bool) → Raw × Option (ℕ × Name)
  | [] => (s, none)
  | (seg, final) :: rest =>
    if seg = dot then resolveCreate s cur rest
    else if seg = dotDot then resolveCreate s (s.fs.parentOf cur) rest
    else if s.fs.isDir cur = false then (s, none)
    else match findChild s.fs cur seg with
      | some child => resolveCreate s child rest
      | none =>
        if final then if maxName ≤ seg.length then (s, none) else (s, some (cur, seg))
        else match s.addNode cur seg true with
          | (s, none) => (s, none)
          | (s, some child) => resolveCreate s child rest

def makeNode (s : Raw) (path : List UInt8) (dir : Bool) : Raw × Option ℕ :=
  match s.resolveCreate root (segments path) with
  | (s, none) => (s, none)
  | (s, some (parent, leaf)) =>
    if (findChild s.fs parent leaf).isSome then (s, none) else s.addNode parent leaf dir

def tfsMkdir (s : Raw) (path : List UInt8) : Raw × Option ℕ := s.makeNode path true

def tfsTouch (s : Raw) (path : List UInt8) : Raw × Option ℕ := s.makeNode path false

/-- `node->data = buf; node->size = len` -/
def setData (s : Raw) (node : ℕ) (data : List UInt8) : Raw :=
  { s with fs := (s.fs.nodes node).elim s.fs fun n => s.fs.set node { n with data := data } }

def tfsWrite (s : Raw) (node : ℕ) (data : List UInt8) : Raw × Bool :=
  match s.fs.nodes node with
  | none => (s, false)
  | some n =>
    if n.dir then (s, false)
    else if data = [] then (s.heapCall.setData node [], true)
    else match s.tmalloc with
      | (s, none) => (s, false)
      | (s, some _) => (s.setData node data, true)

def tfsRm (s : Raw) (a : ℕ) : Raw := { s with fs := (Tfs.tfsRm s.fs a).1 }.heapCall

def unpackMember (s : Raw) (tar : Archive) (spill : ℕ → List UInt8) (off : ℕ) : Raw :=
  let typeflag := byteAt tar (off + 156)
  let size := tarSize tar off
  let full := memberName tar spill off
  if typeflag = 53 then if full = [] then s else (s.tfsMkdir full).1
  else if typeflag = 48 ∨ typeflag = 0 then
    if full = [] then s
    else match s.tfsTouch full with
      | (s, none) => s
      | (s, some f) => if 0 < size then (s.tfsWrite f (bytes tar (off + 512) size)).1 else s
  else s

def unpackFrom (tar : Archive) (len : ℕ) (spill : ℕ → List UInt8) : ℕ → Raw → ℕ → Raw
  | 0, s, _ => s
  | fuel + 1, s, off =>
    if atHeader tar len off then
      unpackFrom tar len spill fuel (s.unpackMember tar spill off) (tarNext tar off)
    else s

def step (s : Raw) : Op → Option Raw
  | .mkdir path => some (s.tfsMkdir path).1
  | .touch path => some (s.tfsTouch path).1
  | .write path data => some ((tfsLookup s.fs path).elim s fun a => (s.tfsWrite a data).1)
  | .rm path => some ((tfsLookup s.fs path).elim s fun a => s.tfsRm a)
  | .mount name path =>
    some { s with fs := (tfsLookup s.fs path).elim s.fs fun a => tfsMount s.fs name a }
  | .unpack tar len spill fuel => some (unpackFrom tar len spill fuel s 0)

end Raw

/-! ## As long as the heap keeps off the nodes -/

/-- If the heap keeps off the nodes until `r`, it did until `s`, and `r` is what the tree's own
operation gives. -/
def Follows {β : Type} (s : Raw) (r : Raw × β) (spec : Ramfs × β) : Prop :=
  r.1.intact = true → s.intact = true ∧ (r.1.fs, r.2) = spec

section Follows
variable {s : Raw}

lemma Follows.refl {β : Type} (b : β) : Follows s (s, b) (s.fs, b) := fun h => ⟨h, rfl⟩

lemma Follows.congr {β γ : Type} {r : Raw × β} {spec : Ramfs × β} {r' : Raw × γ} {spec' : Ramfs × γ}
    (h : Follows s r spec) (hi : r'.1.intact = true → r.1.intact = true)
    (heq : (r.1.fs, r.2) = spec → (r'.1.fs, r'.2) = spec') : Follows s r' spec' := by
  intro hintact
  obtain ⟨hs, hr⟩ := h (hi hintact)
  exact ⟨hs, heq hr⟩

lemma heapCall_intact (h : s.heapCall.intact = true) : s.intact = true ∧ s.heapCall.fs = s.fs := by
  unfold Raw.heapCall at h ⊢
  split at h
  · exact ⟨h, rfl⟩
  · simp at h

lemma tmalloc_follows : Follows s s.tmalloc s.fs.tmalloc := by
  intro h
  obtain ⟨hs, hfs⟩ := heapCall_intact h
  exact ⟨hs, by rw [Raw.tmalloc, hfs]⟩

lemma allocNodeLen_follows (name : Name) (dir : Bool) :
    Follows s (s.allocNodeLen name dir) (allocNodeLen s.fs name dir) := by
  have ht := @tmalloc_follows s
  unfold Raw.allocNodeLen allocNodeLen
  dsimp only
  generalize s.tmalloc = r at ht ⊢
  rcases r with ⟨t, _ | a⟩
  · exact ht.congr id fun heq => by rw [← heq]; rfl
  · by_cases h0 : a = 0
    · subst h0
      exact ht.congr id fun heq => by rw [← heq]; rfl
    · rw [Option.filter_some_pos (by simpa using h0)]
      intro h
      obtain ⟨hkept, hfree⟩ := (Bool.and_eq_true _ _).mp h
      obtain ⟨hs, heq⟩ := ht hkept
      -- the memory was free, so the grant passes the test of the tree's own operation
      have hnodes : s.fs.nodes = t.fs.nodes := congrArg (fun r => r.1.nodes) heq.symm
      refine ⟨hs, ?_⟩
      rw [← heq, Option.filter_some_pos (by simpa [h0, hnodes] using hfree)]

lemma addNode_follows (parent : ℕ) (name : Name) (dir : Bool) :
    Follows s (s.addNode parent name dir) (addNode s.fs parent name dir) := by
  have halloc := @allocNodeLen_follows s name dir
  unfold Raw.addNode addNode
  generalize s.allocNodeLen name dir = r at halloc ⊢
  rcases r with ⟨t, _ | a⟩
  · exact halloc.congr id fun heq => by rw [← heq]
  · exact halloc.congr id fun heq => by rw [← heq]

lemma resolveCreate_follows {segs : List (Name × Bool)} : ∀ {s : Raw} {cur : ℕ},
    Follows s (s.resolveCreate cur segs) (resolveCreate s.fs cur segs) := by
  induction segs with
  | nil => exact .refl _
  | cons x rest ih =>
    obtain ⟨seg, final⟩ := x
    intro s cur
    unfold Raw.resolveCreate resolveCreate
    cases findChild s.fs cur seg with
    | some child =>
      dsimp only
      split_ifs
      · exact ih
      · exact ih
      · exact .refl _
      · exact ih
    | none =>
      dsimp only
      split_ifs
      · exact ih
      · exact ih
      · exact .refl _
      · exact .refl _
      · exact .refl _
      · have hadd := @addNode_follows s cur seg true
        generalize s.addNode cur seg true = r at hadd ⊢
        rcases r with ⟨t, _ | child⟩
        · exact hadd.congr id fun heq => by rw [← heq]
        · intro h
          obtain ⟨ht, hres⟩ := ih h
          obtain ⟨hs, heq⟩ := hadd ht
          exact ⟨hs, by rw [← heq]; exact hres⟩

lemma makeNode_follows (path : List UInt8) (dir : Bool) :
    Follows s (s.makeNode path dir) (makeNode s.fs path dir) := by
  have hwalk := @resolveCreate_follows (segments path) s root
  unfold Raw.makeNode makeNode
  generalize s.resolveCreate root (segments path) = r at hwalk ⊢
  rcases r with ⟨t, _ | ⟨parent, leaf⟩⟩
  · exact hwalk.congr id fun heq => by rw [← heq]
  · dsimp only
    split_ifs with hfound
    · exact hwalk.congr id fun heq => by rw [← heq]; exact (if_pos hfound).symm
    · intro h
      obtain ⟨ht, hadd⟩ := addNode_follows parent leaf dir h
      obtain ⟨hs, heq⟩ := hwalk ht
      exact ⟨hs, by rw [← heq, hadd]; exact (if_neg hfound).symm⟩

lemma tfsWrite_follows (node : ℕ) (data : List UInt8) :
    Follows s (s.tfsWrite node data) (tfsWrite s.fs node data) := by
  unfold Raw.tfsWrite tfsWrite
  cases hn : s.fs.nodes node with
  | none => exact .refl _
  | some n =>
    dsimp only
    split_ifs
    · exact .refl _
    · intro h
      obtain ⟨hs, hfs⟩ := heapCall_intact h
      exact ⟨hs, by rw [Raw.setData, hfs, hn]; rfl⟩
    · have ht := @tmalloc_follows s
      generalize s.tmalloc = r at ht ⊢
      rcases r with ⟨t, _ | a⟩
      · exact ht.congr id fun heq => by rw [← heq]
      · refine ht.congr id fun heq => ?_
        have hnode : t.fs.nodes node = some n := (congrArg (fun r => r.1.nodes node) heq).trans hn
        rw [← heq]
        simp only [Raw.setData, hnode, Option.elim_some]

lemma unpackMember_follows (tar : Archive) (spill : ℕ → List UInt8) (off : ℕ)
    (h : (s.unpackMember tar spill off).intact = true) :
    s.intact = true ∧ (s.unpackMember tar spill off).fs = unpackMember s.fs tar spill off := by
  have htouch := @makeNode_follows s (memberName tar spill off) false
  unfold Raw.unpackMember Raw.tfsTouch at h
  unfold Raw.unpackMember unpackMember Raw.tfsTouch tfsTouch
  dsimp only at h ⊢
  generalize s.makeNode (memberName tar spill off) false = r at htouch h ⊢
  split_ifs at h ⊢
  · exact ⟨h, rfl⟩
  · obtain ⟨hs, heq⟩ := makeNode_follows _ _ h
    exact ⟨hs, congrArg Prod.fst heq⟩
  · exact ⟨h, rfl⟩
  · rcases r with ⟨t, _ | f⟩
    · obtain ⟨hs, heq⟩ := htouch h
      exact ⟨hs, by rw [← heq]⟩
    · obtain ⟨ht, hwrite⟩ := tfsWrite_follows f _ h
      obtain ⟨hs, heq⟩ := htouch ht
      exact ⟨hs, by rw [← heq]; exact congrArg Prod.fst hwrite⟩
  · rcases r with ⟨t, _ | f⟩
    · obtain ⟨hs, heq⟩ := htouch h
      exact ⟨hs, by rw [← heq]⟩
    · obtain ⟨hs, heq⟩ := htouch h
      exact ⟨hs, by rw [← heq]⟩
  · exact ⟨h, rfl⟩

lemma unpackFrom_follows (tar : Archive) (len : ℕ) (spill : ℕ → List UInt8) (fuel : ℕ) :
    ∀ {s : Raw} {off : ℕ}, (Raw.unpackFrom tar len spill fuel s off).intact = true →
      s.intact = true ∧
        (Raw.unpackFrom tar len spill fuel s off).fs = unpackFrom tar len spill fuel s.fs off := by
  induction fuel with
  | zero => exact fun h => ⟨h, rfl⟩
  | succ fuel ih =>
    intro s off h
    unfold Raw.unpackFrom at h
    unfold Raw.unpackFrom unpackFrom
    split_ifs at h ⊢
    · obtain ⟨hmember, hrest⟩ := ih h
      obtain ⟨hs, heq⟩ := unpackMember_follows tar spill off hmember
      exact ⟨hs, by rw [hrest, heq]⟩
    · exact ⟨h, rfl⟩

/-- One call. -/
lemma step_follows {t : Raw} {op : Op} (hstep : s.step op = some t) (h : t.intact = true) :
    s.intact = true ∧ step s.fs op = some t.fs := by
  cases op with
  | mkdir path | touch path =>
    cases hstep
    obtain ⟨hs, heq⟩ := makeNode_follows path _ h
    exact ⟨hs, (congrArg (some ∘ Prod.fst) heq).symm⟩
  | write path data =>
    cases hstep
    simp only [step]
    cases hfound : tfsLookup s.fs path with
    | none =>
      rw [hfound] at h
      exact ⟨h, rfl⟩
    | some a =>
      rw [hfound] at h
      obtain ⟨hs, heq⟩ := tfsWrite_follows a data h
      exact ⟨hs, (congrArg (some ∘ Prod.fst) heq).symm⟩
  | rm path =>
    cases hstep
    simp only [step]
    cases hfound : tfsLookup s.fs path with
    | none =>
      rw [hfound] at h
      exact ⟨h, rfl⟩
    | some a =>
      rw [hfound] at h
      obtain ⟨hs, heq⟩ := heapCall_intact h
      exact ⟨hs, congrArg some heq.symm⟩
  | mount name path =>
    cases hstep
    exact ⟨h, rfl⟩
  | unpack tar len spill fuel =>
    cases hstep
    obtain ⟨hs, heq⟩ := unpackFrom_follows tar len spill fuel h
    exact ⟨hs, congrArg some heq.symm⟩

/-- A run in which the heap keeps off the nodes is a run of the tree. -/
lemma run_follows {C : Ramfs → Op → Prop} [∀ s op, Decidable (C s op)] {ops : List Op} {t : Raw}
    (hrun : exec (guarded Raw.step fun s => C s.fs) s ops = some t) (h : t.intact = true) :
    exec (guarded step C) s.fs ops = some t.fs := by
  refine (@exec_simulates _ _ _ _ (guarded step C) Raw.fs (fun s => s.intact = true)
    (fun s op t hstep ht => ?_) ops s t hrun h).2
  obtain ⟨hcond, hnext⟩ := (guarded_eq_some _ _ s t op).mp hstep
  obtain ⟨hs, hspec⟩ := step_follows hnext ht
  exact ⟨hs, (guarded_eq_some _ _ _ _ op).mpr ⟨hcond, hspec⟩⟩

end Follows

/-! ## Results for the file system on its heap -/

def Raw.boot (grants : ℕ → Option ℕ) (damage : Damage) : Raw := ⟨bootTree grants, damage, 0, true⟩

/-- Stores of a list of bytes. -/
def put (p : ℕ) (content : List UInt8) : List Call := content.mapIdx fun i v => .store (p + i) v

/-- The call of `tmalloc` for a node and the stores that set it up. The type is at offset 64, the
parent at 96 and the sibling at 112. -/
def nodeCalls (p : ℕ) (name : Name) (dir : Bool) (parent next : ℕ) : List Call :=
  let word (v : ℕ) := (List.range 8).map (storeLE (fun _ => 0) 0 8 v)
  .malloc 120 :: put p (List.replicate 120 0) ++ put p name ++ put (p + 64) [if dir then 1
    else 0] ++ put (p + 96) (word parent) ++ put (p + 112) (word next)

/-- A file `a` is written, a directory `b` made and `a` written again. The old content of `a`, whose
length word is now its text, goes on the free list. -/
def rewriteCalls : List Call :=
  nodeCalls 0xFFFFFFFFC0000010 [97] false 0x200000 0 ++
    .malloc 5 :: put 0xFFFFFFFFC00000A0 [104, 101, 108, 108, 111] ++
    nodeCalls 0xFFFFFFFFC00000C0 [98] true 0x200000 0xFFFFFFFFC0000010 ++
    .malloc 5 :: put 0xFFFFFFFFC0000150 [119, 111, 114, 108, 100] ++ [.free 0xFFFFFFFFC00000A0]

/-- The addresses of these calls, and that of the next node. -/
def rewriteGrants (k : ℕ) : Option ℕ :=
  [0xFFFFFFFFC0000010, 0xFFFFFFFFC00000A0, 0xFFFFFFFFC00000C0, 0xFFFFFFFFC0000150,
    0xFFFFFFFFC00000A0][k]?

/-- The node made last lies over the name of `b`. -/
def rewriteDamage : Damage := fun k =>
  if k = 4 then some fun nodes x =>
    if x = 0xFFFFFFFFC00000C0 then (nodes x).map fun n => { n with name := [] } else nodes x
  else none

/-- What is stored at the start of a block leaves the magic word at offset 8, without which `tfree`
refuses the block. -/
def HeaderKept (content : List UInt8) : Prop :=
  (content.drop 8).take 8 <+: [0x41, 0x4C, 0x47, 0x54, 0, 0, 0, 0]

instance (content : List UInt8) : Decidable (HeaderKept content) :=
  inferInstanceAs (Decidable (_ <+: _))

/-- `tfree` takes the block back. A node starts with its name, filled up with zeros. -/
def Freed.Accepted (s : Ramfs) : Freed → Prop
  | .node x => ∀ n ∈ s.nodes x, HeaderKept (n.name ++ List.replicate (maxName - n.name.length) 0)
  | .data x => ∀ n ∈ s.nodes x, HeaderKept n.data

/-- The directory `a` with the file `a/b` in it. -/
def smallTree : Ramfs := (tfsTouch (tfsMkdir (tfsInit freshGrants) [97]).1 [97, 47, 98]).1

lemma smallTree_wellFormed : Linked smallTree ∧ Distinct smallTree := by
  have hmkdir := makeNode_spec (Linked.init freshGrants) [97] true
  have htouch := makeNode_spec hmkdir.1.linked [97, 47, 98] false
  exact ⟨htouch.1.linked, htouch.2.1 (hmkdir.2.1 (Distinct.init _) (by decide)) (by decide)⟩

end TraitOS.Tfs
