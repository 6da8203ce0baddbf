import Mathlib.Data.List.Basic
import Mathlib.Tactic

/-!
# The RAM file system

The tree of `tfs.c`: nodes at heap addresses with a parent pointer and a list of
children, the walk over path segments, and the operations on nodes. What the heap
returns is not computed here: the outcome of each `tmalloc` is read from a sequence
carried by the state, and an address where a node lives is never handed out again.
-/
namespace TraitOS.Tfs

abbrev Name := List UInt8

def slash : UInt8 := 47
def dot : Name := [46]
def dotDot : Name := [46, 46]

def maxName : ℕ := 64
def maxMounts : ℕ := 8

/-- `tfs_node_t`. The sibling links are the order of the parent's list; the data
pointer is null when there is no data. -/
structure Node where
  name : Name
  dir : Bool
  data : List UInt8
  virtual : Bool
  parent : ℕ
  children : List ℕ
deriving DecidableEq, Repr

structure Ramfs where
  nodes : ℕ → Option Node
  mounts : List (Name × ℕ)
  grants : ℕ → Option ℕ
  asked : ℕ

/-- The address of the static root node; 0 is the null pointer. -/
def root : ℕ := 1

def rootNode : Node := ⟨[slash], true, [], false, root, []⟩

/-- The tree before any call, for a heap that answers its calls as given. -/
def tfsInit (grants : ℕ → Option ℕ) : Ramfs where
  nodes := fun a => if a = root then some rootNode else none
  mounts := []
  grants := grants
  asked := 0

def Ramfs.isDir (s : Ramfs) (a : ℕ) : Bool := (s.nodes a).any Node.dir
def Ramfs.childrenOf (s : Ramfs) (a : ℕ) : List ℕ := (s.nodes a).elim [] Node.children
def Ramfs.nameOf (s : Ramfs) (a : ℕ) : Name := (s.nodes a).elim [] Node.name

/-- `if (cur->parent) cur = cur->parent` -/
def Ramfs.parentOf (s : Ramfs) (a : ℕ) : ℕ :=
  (s.nodes a).elim a fun n => if n.parent = 0 then a else n.parent

def Ramfs.set (s : Ramfs) (a : ℕ) (n : Node) : Ramfs :=
  { s with nodes := Function.update s.nodes a (some n) }

/-- One call of `tmalloc`. -/
def Ramfs.tmalloc (s : Ramfs) : Ramfs × Option ℕ :=
  ({ s with asked := s.asked + 1 }, s.grants s.asked)

def findChild (s : Ramfs) (dir : ℕ) (name : Name) : Option ℕ :=
  (s.childrenOf dir).find? fun c => s.nameOf c == name

/-- `alloc_node_len`: the name is cut to what the node has room for. -/
def allocNodeLen (s : Ramfs) (name : Name) (dir : Bool) : Ramfs × Option ℕ :=
  let r := s.tmalloc
  match r.2.filter fun a => a ≠ 0 ∧ s.nodes a = none with
  | none => (r.1, none)
  | some a => (r.1.set a ⟨name.take (maxName - 1), dir, [], false, 0, []⟩, some a)

/-- The new child goes to the front of the list. -/
def link (s : Ramfs) (parent child : ℕ) : Ramfs :=
  let s := (s.nodes child).elim s fun n => s.set child { n with parent := parent }
  (s.nodes parent).elim s fun n => s.set parent { n with children := child :: n.children }

/-- A new node in the list of a directory. -/
def addNode (s : Ramfs) (parent : ℕ) (name : Name) (dir : Bool) : Ramfs × Option ℕ :=
  match allocNodeLen s name dir with
  | (s, none) => (s, none)
  | (s, some a) => (link s parent a, some a)

/-! ## Paths -/

/-- The segments of a path, each with whether the path ends right after it. -/
def segmentsFrom (seg : Name) : List UInt8 → List (Name × Bool)
  | [] => if seg = [] then [] else [(seg, true)]
  | c :: p =>
    if c = slash then if seg = [] then segmentsFrom [] p else (seg, false) :: segmentsFrom [] p
    else segmentsFrom (seg ++ [c]) p

def segments (path : List UInt8) : List (Name × Bool) := segmentsFrom [] path

/-- The walk of `resolve_create`: missing directories are made on the way, and a missing
last segment is returned with its parent. -/
def resolveCreate (s : Ramfs) (cur : ℕ) : List (Name × Bool) → Ramfs × Option (ℕ × Name)
  | [] => (s, none)
  | (seg, final) :: rest =>
    if seg = dot then resolveCreate s cur rest
    else if seg = dotDot then resolveCreate s (s.parentOf cur) rest
    else if s.isDir cur = false then (s, none)
    else match findChild s cur seg with
      | some child => resolveCreate s child rest
      | none =>
        if final then if maxName ≤ seg.length then (s, none) else (s, some (cur, seg))
        else match addNode s cur seg true with
          | (s, none) => (s, none)
          | (s, some child) => resolveCreate s child rest

def lookupFrom (s : Ramfs) (cur : ℕ) : List (Name × Bool) → Option ℕ
  | [] => some cur
  | (seg, _) :: rest =>
    if seg = dot then lookupFrom s cur rest
    else if seg = dotDot then lookupFrom s (s.parentOf cur) rest
    else if s.isDir cur = false then none
    else (findChild s cur seg).bind fun child => lookupFrom s child rest

def tfsLookup (s : Ramfs) (path : List UInt8) : Option ℕ := lookupFrom s root (segments path)

/-! ## Operations -/

def makeNode (s : Ramfs) (path : List UInt8) (dir : Bool) : Ramfs × Option ℕ :=
  match resolveCreate s root (segments path) with
  | (s, none) => (s, none)
  | (s, some (parent, leaf)) =>
    if (findChild s parent leaf).isSome then (s, none) else addNode s parent leaf dir

def tfsMkdir (s : Ramfs) (path : List UInt8) : Ramfs × Option ℕ := makeNode s path true

def tfsTouch (s : Ramfs) (path : List UInt8) : Ramfs × Option ℕ := makeNode s path false

def tfsAddVirtual (s : Ramfs) (dir : ℕ) (name : Name) : Ramfs × Option ℕ :=
  if s.isDir dir = false then (s, none)
  else match addNode s dir name false with
    | (s, none) => (s, none)
    | (s, some a) => ((s.nodes a).elim s fun n => s.set a { n with virtual := true }, some a)

def tfsWrite (s : Ramfs) (node : ℕ) (data : List UInt8) : Ramfs × Bool :=
  match s.nodes node with
  | none => (s, false)
  | some n =>
    if n.dir then (s, false)
    else if data = [] then (s.set node { n with data := [] }, true)
    else match s.tmalloc with
      | (s, none) => (s, false)
      | (s, some _) => (s.set node { n with data := data }, true)

/-- The nodes below one, in the order in which `free_children` frees them. The depth of
the recursion is bounded by the number of nodes there can be. -/
def descendants (s : Ramfs) : ℕ → ℕ → List ℕ
  | 0, _ => []
  | fuel + 1, a => (s.childrenOf a).flatMap fun c => descendants s fuel c ++ [c]

/-- The nodes `tfs_rm` frees. -/
def freedBy (s : Ramfs) (a : ℕ) : List ℕ := descendants s (s.asked + 1) a ++ [a]

/-- A call of `tfree`, on a node or on the data of one. -/
inductive Freed where
  | node (a : ℕ)
  | data (a : ℕ)
deriving DecidableEq, Repr

/-- How a node is released: its data, if it has any, and then itself. -/
def releases (s : Ramfs) (x : ℕ) : List Freed :=
  (if (s.nodes x).any fun n => n.data ≠ [] then [.data x] else []) ++ [.node x]

def unlink (s : Ramfs) (a : ℕ) : Ramfs :=
  let parent := s.parentOf a
  (s.nodes parent).elim s fun n => s.set parent { n with children := n.children.erase a }

/-- The last component are the calls of `tfree`, in their order: a node after all below it. -/
def tfsRm (s : Ramfs) (a : ℕ) : Ramfs × Bool × List Freed :=
  if a = 0 ∨ a = root then (s, false, [])
  else
    let s := unlink s a
    let frees := (freedBy s a).flatMap (releases s)
    ({ s with nodes := fun x => if .node x ∈ frees then none else s.nodes x }, true, frees)

def tfsMount (s : Ramfs) (name : Name) (node : ℕ) : Ramfs :=
  if maxMounts ≤ s.mounts.length ∨ node = 0 then s
  else { s with mounts := s.mounts ++ [(name.take 32, node)] }

end TraitOS.Tfs
