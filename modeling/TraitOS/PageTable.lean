import TraitOS.ByteMemory
import Mathlib.Data.Nat.Bitwise

/-!
# Radix page tables in a byte memory

Tables are 512 eight-byte entries in a 4 KiB frame of the memory that also holds
everything else. An entry carries the physical address of the next frame in bits
12 to 51, bit 0 says that it is present and bit 7 that it is a large leaf. A tree
of tables is described by the use of every frame: which tree it belongs to and
the path of indices that leads to it. Since a frame has one use only, trees that
are described so never share a frame.
-/
namespace TraitOS.PageTable
open ByteMemory

variable {scope : Scope} {m : Memory} {use : ℕ → Use}

def frameBytes : ℕ := 4096
def entries : ℕ := 512
def addrMask : ℕ := 0x000FFFFFFFFFF000

def present (e : ℕ) : Bool := e &&& 1 ≠ 0
def large (e : ℕ) : Bool := e &&& (1 <<< 7) ≠ 0

/-- Physical address an entry points to. -/
def target (e : ℕ) : ℕ := e &&& addrMask

def entry (m : Memory) (table i : ℕ) : ℕ := load64 m (table + 8 * i)

def setEntry (m : Memory) (table i e : ℕ) : Memory := store64 m (table + 8 * i) e

/-- Index of a virtual address in the table of the level with this shift. -/
def index (shift v : ℕ) : ℕ := (v >>> shift) &&& 0x1FF

theorem index_lt (shift v : ℕ) : index shift v < entries :=
  Nat.lt_of_le_of_lt Nat.and_le_right (by decide)

/-! ## Bits of an entry -/

theorem addrMask_eq : addrMask = (2 ^ 40 - 1) <<< 12 := by decide

theorem testBit_addrMask (i : ℕ) : addrMask.testBit i = decide (12 ≤ i ∧ i < 52) := by
  rw [addrMask_eq, Nat.testBit_shiftLeft, Nat.testBit_two_pow_sub_one]
  by_cases h : 12 ≤ i
  · by_cases h' : i < 52
    · have hlt : i - 12 < 40 := by omega
      simp [h, h', hlt]
    · have hge : ¬ i - 12 < 40 := by omega
      simp [h, h', hge]
  · simp [h]

/-- The pointer field keeps the frame number of an address below `2 ^ 52`. -/
theorem target_eq (e : ℕ) : target e = e / frameBytes % 2 ^ 40 * frameBytes := by
  have hshift : e / frameBytes % 2 ^ 40 * frameBytes = (e >>> 12 % 2 ^ 40) <<< 12 := by
    rw [Nat.shiftLeft_eq, Nat.shiftRight_eq_div_pow]
    rfl
  rw [hshift]
  apply Nat.eq_of_testBit_eq
  intro i
  unfold target
  rw [Nat.testBit_and, testBit_addrMask, Nat.testBit_shiftLeft, Nat.testBit_mod_two_pow,
    Nat.testBit_shiftRight]
  by_cases h : 12 ≤ i
  · have hi : 12 + (i - 12) = i := by omega
    have hiff : (i - 12 < 40) ↔ i < 52 := by omega
    simp [h, hi, hiff, Bool.and_comm]
  · simp [h]

/-- Number of the frame an entry points to. -/
def frameNo (e : ℕ) : ℕ := e / frameBytes % 2 ^ 40

theorem target_eq_frameNo (e : ℕ) : target e = frameNo e * frameBytes := target_eq e

theorem target_frame {f : ℕ} (h : f < 2 ^ 40) : target (f * frameBytes) = f * frameBytes := by
  rw [target_eq]
  unfold frameBytes
  rw [Nat.mul_div_cancel f (by decide), Nat.mod_eq_of_lt h]

theorem target_or (a b : ℕ) : target (a ||| b) = target a ||| target b :=
  Nat.and_or_distrib_right a b addrMask

theorem target_target (e : ℕ) : target (target e) = target e := by
  unfold target
  rw [Nat.and_assoc, Nat.and_self]

lemma and_two_pow_ne_zero (e i : ℕ) : decide (e &&& 2 ^ i ≠ 0) = e.testBit i := by
  rw [Nat.and_two_pow]
  cases e.testBit i <;> simp

theorem present_eq_testBit (e : ℕ) : present e = e.testBit 0 := and_two_pow_ne_zero e 0

theorem large_eq_testBit (e : ℕ) : large e = e.testBit 7 := and_two_pow_ne_zero e 7

theorem present_or (a b : ℕ) : present (a ||| b) = (present a || present b) := by
  simp only [present_eq_testBit, Nat.testBit_or]

theorem large_or (a b : ℕ) : large (a ||| b) = (large a || large b) := by
  simp only [large_eq_testBit, Nat.testBit_or]

theorem large_frame (f : ℕ) : large (f * frameBytes) = false := by
  have hpow : f * frameBytes = f <<< 12 := by
    rw [Nat.shiftLeft_eq]
    rfl
  rw [large_eq_testBit, hpow, Nat.testBit_shiftLeft]
  simp

/-! ## Entries under stores -/

theorem entry_lt (m : Memory) (table i : ℕ) : entry m table i < 2 ^ 64 := load64_lt m _

/-- The entries of a table only depend on its frame. -/
theorem entry_congr_frame {m m' : Memory} {f i : ℕ} (hi : i < entries)
    (h : ∀ x, x / frameBytes = f → m' x = m x) :
    entry m' (f * frameBytes) i = entry m (f * frameBytes) i := by
  refine loadLE_congr (fun x hlo hhi => h x ?_)
  unfold entries at hi
  unfold frameBytes at *
  omega

theorem entry_setEntry_self (m : Memory) (table i : ℕ) {e : ℕ} (he : e < 2 ^ 64) :
    entry (setEntry m table i e) table i = e := load64_store64_self m _ he

theorem setEntry_setEntry (m : Memory) (table i e e' : ℕ) :
    setEntry (setEntry m table i e) table i e' = setEntry m table i e' := by
  funext x
  simp only [setEntry, storeLE]
  split_ifs <;> rfl

/-- Entries of page-aligned tables overlap only when they are the same entry. -/
theorem entry_setEntry_of_ne (m : Memory) {f g i j : ℕ} (e : ℕ) (hi : i < entries)
    (hj : j < entries) (h : f ≠ g ∨ i ≠ j) :
    entry (setEntry m (g * frameBytes) j e) (f * frameBytes) i = entry m (f * frameBytes) i := by
  apply load64_store64_of_disjoint
  unfold entries at hi hj
  unfold frameBytes
  omega

theorem setEntry_of_frame (m : Memory) {g j x : ℕ} (e : ℕ) (hj : j < entries)
    (hx : x / frameBytes ≠ g) : setEntry m (g * frameBytes) j e x = m x := by
  apply storeLE_of_out
  unfold entries at hj
  unfold frameBytes at *
  omega

theorem fill_of_frame (m : Memory) {g x : ℕ} (c : UInt8) (hx : x / frameBytes ≠ g) :
    fill m (g * frameBytes) frameBytes c x = m x := by
  apply fill_of_out
  unfold frameBytes at *
  omega

theorem entry_fill_self (m : Memory) (f : ℕ) {i : ℕ} (hi : i < entries) :
    entry (fill m (f * frameBytes) frameBytes 0) (f * frameBytes) i = 0 := by
  unfold entries at hi
  unfold frameBytes
  exact loadLE_fill_zero m (by omega) (by omega)

theorem entry_fill_of_ne (m : Memory) {f g i : ℕ} (hi : i < entries) (h : f ≠ g) :
    entry (fill m (g * frameBytes) frameBytes 0) (f * frameBytes) i =
      entry m (f * frameBytes) i := by
  unfold entries at hi
  unfold frameBytes
  exact loadLE_congr fun _ hx hxk => fill_of_out m 0 (by omega)

/-! ## Trees of tables -/

/-- Use of a frame: none that concerns page tables, set aside for its holder, or
at the end of a path of a tree; paths of full length end in mapped pages. -/
inductive Use where
  | idle
  | spare
  | node (tree : ℕ) (path : List ℕ)
  deriving DecidableEq, Repr

/-- Length of the paths that lead to mapped pages. -/
def depth : ℕ := 4

/-- The part of a tree below given indices; the rest of its tables is not
described. -/
abbrev Scope := ℕ → List ℕ → ℕ → Prop

/-- The uses describe the trees that are in memory: present entries lead to the
node one index further, every node but the roots is reached so, roots are unique,
and no entry above the last level is marked as a large leaf. -/
structure Owned (scope : Scope) (m : Memory) (use : ℕ → Use) : Prop where
  down : ∀ f tree path i, use f = .node tree path → path.length < depth → i < entries →
    scope tree path i → present (entry m (f * frameBytes) i) = true →
    use (frameNo (entry m (f * frameBytes) i)) = .node tree (path ++ [i])
  plain : ∀ f tree path i, use f = .node tree path → path.length + 1 < depth → i < entries →
    scope tree path i → large (entry m (f * frameBytes) i) = false
  up : ∀ k tree path i, use k = .node tree (path ++ [i]) →
    ∃ f, use f = .node tree path ∧ i < entries ∧ scope tree path i ∧
      present (entry m (f * frameBytes) i) = true ∧ frameNo (entry m (f * frameBytes) i) = k
  root : ∀ f g tree, use f = .node tree [] → use g = .node tree [] → f = g
  bounded : ∀ f tree path, use f = .node tree path → path.length ≤ depth

/-- A node is the use of one frame only. -/
theorem Owned.unique (ho : Owned scope m use) (tree : ℕ) (path : List ℕ) :
    ∀ f g, use f = .node tree path → use g = .node tree path → f = g := by
  induction path using List.reverseRecOn with
  | nil => exact fun f g => ho.root f g tree
  | append_singleton path i ih =>
    intro f g hf hg
    obtain ⟨f', hf', _, _, _, hfk⟩ := ho.up f tree path i hf
    obtain ⟨g', hg', _, _, _, hgk⟩ := ho.up g tree path i hg
    rw [← hfk, ← hgk, ih f' g' hf' hg']

/-! ## Changing the trees -/

def IsNode : Use → Prop
  | .node _ _ => True
  | _ => False

lemma ne_node_of_not_isNode {u : Use} (h : ¬ IsNode u) (tree : ℕ) (path : List ℕ) :
    u ≠ .node tree path := fun heq => h (heq ▸ trivial)

/-- Nothing but the described entries of nodes and the nodes among the uses
matters. -/
theorem Owned.congr {m m' : Memory} {use use' : ℕ → Use} (ho : Owned scope m use)
    (hmem : ∀ f tree path i, use f = .node tree path → i < entries → scope tree path i →
      entry m' (f * frameBytes) i = entry m (f * frameBytes) i)
    (huse : ∀ f tree path, use' f = .node tree path ↔ use f = .node tree path) :
    Owned scope m' use' := by
  refine ⟨?_, ?_, ?_, ?_, ?_⟩
  · intro f tree path i hf hlen hi hin hp
    rw [huse] at hf
    rw [hmem f tree path i hf hi hin] at hp ⊢
    rw [huse]
    exact ho.down f tree path i hf hlen hi hin hp
  · intro f tree path i hf hlen hi hin
    rw [huse] at hf
    rw [hmem f tree path i hf hi hin]
    exact ho.plain f tree path i hf hlen hi hin
  · intro k tree path i hk
    rw [huse] at hk
    obtain ⟨f, hf, hi, hin, hp, hfk⟩ := ho.up k tree path i hk
    rw [← hmem f tree path i hf hi hin] at hp hfk
    exact ⟨f, (huse f tree path).mpr hf, hi, hin, hp, hfk⟩
  · intro f g tree hf hg
    exact ho.root f g tree ((huse _ _ _).mp hf) ((huse _ _ _).mp hg)
  · intro f tree path hf
    exact ho.bounded f tree path ((huse _ _ _).mp hf)

/-- Point an absent entry of a node to a frame that was none: an empty table, or
a page at the end of the path. -/
theorem Owned.link (ho : Owned scope m use) {g h tree j e : ℕ} {q : List ℕ}
    (hg : use g = .node tree q) (hlen : q.length < depth) (hj : j < entries) (hin : scope tree q j)
    (habsent : present (entry m (g * frameBytes) j) = false) (hh : ¬ IsNode (use h))
    (he : e < 2 ^ 64) (hp : present e = true) (hframe : frameNo e = h)
    (htable : q.length + 1 < depth → large e = false ∧ ∀ i < entries, entry m (h * frameBytes) i =
      0) :
    Owned scope (setEntry m (g * frameBytes) j e)
      (Function.update use h (.node tree (q ++ [j]))) := by
  have hne : ∀ f t path, use f = .node t path → f ≠ h := by
    intro f t path hf heq
    exact ne_node_of_not_isNode hh t path (heq ▸ hf)
  have hgh := hne g tree q hg
  have hself : entry (setEntry m (g * frameBytes) j e) (g * frameBytes) j = e :=
    entry_setEntry_self m _ _ he
  have hother : ∀ f i, i < entries → f ≠ g ∨ i ≠ j →
      entry (setEntry m (g * frameBytes) j e) (f * frameBytes) i = entry m (f * frameBytes) i :=
    fun f i hi hfi => entry_setEntry_of_ne m e hi hj hfi
  have huse : ∀ f, f ≠ h → Function.update use h (.node tree (q ++ [j])) f = use f :=
    fun f hf => Function.update_of_ne hf _ _
  refine ⟨?_, ?_, ?_, ?_, ?_⟩
  · intro f t path i hf hlen' hi hin' hpr
    by_cases hfh : f = h
    · subst hfh
      rw [Function.update_self] at hf
      cases hf
      simp only [List.length_append, List.length_singleton] at hlen'
      rw [hother f i hi (Or.inl hgh.symm), (htable hlen').2 i hi] at hpr
      exact absurd hpr (by decide)
    · rw [huse f hfh] at hf
      by_cases hfg : f = g ∧ i = j
      · obtain ⟨rfl, rfl⟩ := hfg
        rw [hg] at hf
        cases hf
        rw [hself, hframe, Function.update_self]
      · have hfi : f ≠ g ∨ i ≠ j := by
          by_contra hcon
          push Not at hcon
          exact hfg hcon
        rw [hother f i hi hfi] at hpr ⊢
        have hchild := ho.down f t path i hf hlen' hi hin' hpr
        rw [huse _ (hne _ _ _ hchild)]
        exact hchild
  · intro f t path i hf hlen' hi hin'
    by_cases hfh : f = h
    · subst hfh
      rw [Function.update_self] at hf
      cases hf
      simp only [List.length_append, List.length_singleton] at hlen'
      rw [hother f i hi (Or.inl hgh.symm), (htable (by omega)).2 i hi]
      decide
    · rw [huse f hfh] at hf
      by_cases hfg : f = g ∧ i = j
      · obtain ⟨rfl, rfl⟩ := hfg
        rw [hg] at hf
        cases hf
        rw [hself]
        exact (htable hlen').1
      · rw [hother f i hi (by tauto)]
        exact ho.plain f t path i hf hlen' hi hin'
  · intro k t path i hk
    by_cases hkh : k = h
    · rw [hkh, Function.update_self] at hk
      obtain ⟨rfl, hpath⟩ := Use.node.inj hk
      obtain ⟨rfl, hij⟩ := List.append_inj' hpath rfl
      obtain rfl := List.singleton_inj.mp hij
      refine ⟨g, by rw [huse g hgh, hg], hj, hin, ?_, ?_⟩
      · rw [hself, hp]
      · rw [hself, hframe, hkh]
    · rw [huse k hkh] at hk
      obtain ⟨f, hf, hi, hin', hpr, hfk⟩ := ho.up k t path i hk
      have hfi : f ≠ g ∨ i ≠ j := by
        by_contra hcon
        push Not at hcon
        obtain ⟨rfl, rfl⟩ := hcon
        rw [habsent] at hpr
        exact absurd hpr (by decide)
      rw [← hother f i hi hfi] at hpr hfk
      exact ⟨f, by rw [huse f (hne f _ _ hf), hf], hi, hin', hpr, hfk⟩
  · have hroot : ∀ f t, Function.update use h (.node tree (q ++ [j])) f = .node t [] →
        use f = .node t [] := by
      intro f t hf
      by_cases hfh : f = h
      · rw [hfh, Function.update_self] at hf
        have hnil := (Use.node.inj hf).2
        exact absurd hnil (by simp)
      · rwa [huse f hfh] at hf
    intro f f' t hf hf'
    exact ho.root f f' t (hroot f t hf) (hroot f' t hf')
  · intro f t path hf
    by_cases hfh : f = h
    · rw [hfh, Function.update_self] at hf
      cases hf
      simp only [List.length_append, List.length_singleton]
      omega
    · rw [huse f hfh] at hf
      exact ho.bounded f t path hf

/-- Make an entry that pointed to a page absent; the page becomes its holder's
again. -/
theorem Owned.unlink (ho : Owned scope m use) {g tree j e : ℕ} {q : List ℕ}
    (hg : use g = .node tree q) (hlen : q.length + 1 = depth) (hj : j < entries)
    (hin : scope tree q j) (hold : present (entry m (g * frameBytes) j) = true) (he : e < 2 ^ 64)
    (hp : present e = false) :
    Owned scope (setEntry m (g * frameBytes) j e)
      (Function.update use (frameNo (entry m (g * frameBytes) j)) .spare) := by
  have hpage := ho.down g tree q j hg (by omega) hj hin hold
  have hother : ∀ f i, i < entries → f ≠ g ∨ i ≠ j →
      entry (setEntry m (g * frameBytes) j e) (f * frameBytes) i = entry m (f * frameBytes) i :=
    fun f i hi hfi => entry_setEntry_of_ne m e hi hj hfi
  have hnode : ∀ f t path, use f = .node t path → path.length < depth →
      f ≠ frameNo (entry m (g * frameBytes) j) := by
    intro f t path hf hlt heq
    rw [heq, hpage] at hf
    cases hf
    simp only [List.length_append, List.length_singleton] at hlt
    omega
  have hback : ∀ f t path, Function.update use (frameNo (entry m (g * frameBytes) j)) .spare f =
      .node t path → f ≠ frameNo (entry m (g * frameBytes) j) ∧ use f = .node t path := by
    intro f t path hf
    by_cases hfp : f = frameNo (entry m (g * frameBytes) j)
    · rw [hfp, Function.update_self] at hf
      exact absurd hf (by simp)
    · rw [Function.update_of_ne hfp] at hf
      exact ⟨hfp, hf⟩
  refine ⟨?_, ?_, ?_, ?_, ?_⟩
  · intro f t path i hf hlen' hi hin' hpr
    obtain ⟨_, hfu⟩ := hback f t path hf
    have hfi : f ≠ g ∨ i ≠ j := by
      by_contra hcon
      push Not at hcon
      obtain ⟨rfl, rfl⟩ := hcon
      rw [entry_setEntry_self m _ _ he, hp] at hpr
      exact absurd hpr (by decide)
    rw [hother f i hi hfi] at hpr ⊢
    have hchild := ho.down f t path i hfu hlen' hi hin' hpr
    rw [Function.update_of_ne, hchild]
    -- two entries for one page would be entries of one node
    intro heq
    rw [heq, hpage] at hchild
    obtain ⟨rfl, hpath⟩ := Use.node.inj hchild
    obtain ⟨rfl, hij⟩ := List.append_inj' hpath rfl
    obtain rfl := List.singleton_inj.mp hij
    exact hfi.elim (fun hne => hne (ho.unique _ _ f g hfu hg)) (fun hne => hne rfl)
  · intro f t path i hf hlen' hi hin'
    obtain ⟨_, hfu⟩ := hback f t path hf
    have hfg : f ≠ g := by
      intro heq
      rw [heq, hg] at hfu
      cases hfu
      omega
    rw [hother f i hi (Or.inl hfg)]
    exact ho.plain f t path i hfu hlen' hi hin'
  · intro k t path i hk
    obtain ⟨hkp, hku⟩ := hback k t (path ++ [i]) hk
    obtain ⟨f, hf, hi, hin', hpr, hfk⟩ := ho.up k t path i hku
    have hlen' := ho.bounded k t _ hku
    simp only [List.length_append, List.length_singleton] at hlen'
    have hfp := hnode f t path hf (by omega)
    have hfi : f ≠ g ∨ i ≠ j := by
      by_contra hcon
      push Not at hcon
      obtain ⟨rfl, rfl⟩ := hcon
      exact hkp hfk.symm
    rw [← hother f i hi hfi] at hpr hfk
    exact ⟨f, by rw [Function.update_of_ne hfp, hf], hi, hin', hpr, hfk⟩
  · intro f f' t hf hf'
    exact ho.root f f' t (hback f t [] hf).2 (hback f' t [] hf').2
  · intro f t path hf
    exact ho.bounded f t path (hback f t path hf).2

/-- An absent entry of a last-level table may take any absent value. -/
theorem Owned.absent (ho : Owned scope m use) {g tree j e : ℕ} {q : List ℕ}
    (hg : use g = .node tree q) (hlen : q.length + 1 = depth) (hj : j < entries)
    (hold : present (entry m (g * frameBytes) j) = false) (he : e < 2 ^ 64)
    (hp : present e = false) : Owned scope (setEntry m (g * frameBytes) j e) use := by
  have hself := entry_setEntry_self m (g * frameBytes) j he
  have hother : ∀ f i, i < entries → f ≠ g ∨ i ≠ j →
      entry (setEntry m (g * frameBytes) j e) (f * frameBytes) i = entry m (f * frameBytes) i :=
    fun f i hi hfi => entry_setEntry_of_ne m e hi hj hfi
  refine ⟨?_, ?_, ?_, ho.root, ho.bounded⟩
  · intro f t path i hf hlen' hi hin hpr
    by_cases hfi : f ≠ g ∨ i ≠ j
    · rw [hother f i hi hfi] at hpr ⊢
      exact ho.down f t path i hf hlen' hi hin hpr
    · push Not at hfi
      rw [hfi.1, hfi.2, hself, hp] at hpr
      exact absurd hpr (by decide)
  · intro f t path i hf hlen' hi hin
    have hfg : f ≠ g := by
      intro heq
      rw [heq, hg] at hf
      cases hf
      omega
    rw [hother f i hi (Or.inl hfg)]
    exact ho.plain f t path i hf hlen' hi hin
  · intro k t path i hk
    obtain ⟨f, hf, hi, hin, hpr, hfk⟩ := ho.up k t path i hk
    have hfi : f ≠ g ∨ i ≠ j := by
      by_contra hcon
      push Not at hcon
      rw [hcon.1, hcon.2, hold] at hpr
      exact absurd hpr (by decide)
    rw [← hother f i hi hfi] at hpr hfk
    exact ⟨f, hf, hi, hin, hpr, hfk⟩

/-- The uses once the page behind an entry, if any, is its holder's again. -/
def released (m : Memory) (use : ℕ → Use) (g j : ℕ) : ℕ → Use :=
  if present (entry m (g * frameBytes) j) then
    Function.update use (frameNo (entry m (g * frameBytes) j)) .spare
  else use

theorem Owned.clear (ho : Owned scope m use) {g tree j : ℕ} {q : List ℕ} (hg : use g = .node tree q)
    (hlen : q.length + 1 = depth) (hj : j < entries) (hin : scope tree q j) :
    Owned scope (setEntry m (g * frameBytes) j 0) (released m use g j) := by
  unfold released
  by_cases hold : present (entry m (g * frameBytes) j) = true
  · rw [if_pos hold]
    exact ho.unlink hg hlen hj hin hold (by decide) (by decide)
  · rw [if_neg hold]
    exact ho.absent hg hlen hj (by simpa using hold) (by decide) (by decide)

/-- Forget a whole tree. -/
theorem Owned.prune (ho : Owned scope m use) (tree : ℕ) {use' : ℕ → Use}
    (hgone : ∀ f path, use f = .node tree path → ¬ IsNode (use' f))
    (hkeep : ∀ f, (∀ path, use f ≠ .node tree path) → use' f = use f) : Owned scope m use' := by
  have hback : ∀ f t path, use' f = .node t path → t ≠ tree ∧ use f = .node t path := by
    intro f t path hf
    have hnot : ∀ p, use f ≠ .node tree p := by
      intro p hp
      exact ne_node_of_not_isNode (hgone f p hp) t path hf
    have hsame := hkeep f hnot
    rw [hsame] at hf
    refine ⟨fun heq => hnot path (heq ▸ hf), hf⟩
  have hforth : ∀ f t path, t ≠ tree → use f = .node t path → use' f = .node t path := by
    intro f t path hne hf
    rw [hkeep f, hf]
    intro p hp
    rw [hf] at hp
    exact hne (Use.node.inj hp).1
  refine ⟨?_, ?_, ?_, ?_, ?_⟩
  · intro f t path i hf hlen hi hin hp
    obtain ⟨hne, hfu⟩ := hback f t path hf
    exact hforth _ t _ hne (ho.down f t path i hfu hlen hi hin hp)
  · intro f t path i hf hlen hi hin
    exact ho.plain f t path i (hback f t path hf).2 hlen hi hin
  · intro k t path i hk
    obtain ⟨hne, hku⟩ := hback k t _ hk
    obtain ⟨f, hf, hi, hin, hp, hfk⟩ := ho.up k t path i hku
    exact ⟨f, hforth f t path hne hf, hi, hin, hp, hfk⟩
  · intro f g t hf hg
    exact ho.root f g t (hback f t [] hf).2 (hback g t [] hg).2
  · intro f t path hf
    exact ho.bounded f t path (hback f t path hf).2

/-- Start a tree of a new name at a frame whose described entries are absent. -/
theorem Owned.plant (ho : Owned scope m use) {g tree : ℕ} (hnew : ∀ f path, use f ≠ .node tree path)
    (hg : ¬ IsNode (use g))
    (hempty : ∀ i < entries, scope tree [] i → entry m (g * frameBytes) i = 0) :
    Owned scope m (Function.update use g (.node tree [])) := by
  have hback : ∀ f t path, f ≠ g → Function.update use g (.node tree []) f = .node t path →
      use f = .node t path := by
    intro f t path hne hf
    rwa [Function.update_of_ne hne] at hf
  have hforth : ∀ f t path, use f = .node t path →
      Function.update use g (.node tree []) f = .node t path := by
    intro f t path hf
    rw [Function.update_of_ne, hf]
    exact fun heq => ne_node_of_not_isNode hg t path (heq ▸ hf)
  refine ⟨?_, ?_, ?_, ?_, ?_⟩
  · intro f t path i hf hlen hi hin hp
    by_cases hfg : f = g
    · rw [hfg, Function.update_self] at hf
      cases hf
      rw [hfg, hempty i hi hin] at hp
      exact absurd hp (by decide)
    · exact hforth _ _ _ (ho.down f t path i (hback f t path hfg hf) hlen hi hin hp)
  · intro f t path i hf hlen hi hin
    by_cases hfg : f = g
    · rw [hfg, Function.update_self] at hf
      cases hf
      rw [hfg, hempty i hi hin]
      decide
    · exact ho.plain f t path i (hback f t path hfg hf) hlen hi hin
  · intro k t path i hk
    by_cases hkg : k = g
    · rw [hkg, Function.update_self] at hk
      have hnil := (Use.node.inj hk).2
      exact absurd hnil (by simp)
    · obtain ⟨f, hf, hi, hin, hp, hfk⟩ := ho.up k t path i (hback k t _ hkg hk)
      exact ⟨f, hforth f t path hf, hi, hin, hp, hfk⟩
  · have hroot : ∀ f t, Function.update use g (.node tree []) f = .node t [] →
        (f = g ∧ t = tree) ∨ use f = .node t [] := by
      intro f t hf
      by_cases hfg : f = g
      · rw [hfg, Function.update_self] at hf
        exact Or.inl ⟨hfg, (Use.node.inj hf).1.symm⟩
      · exact Or.inr (hback f t [] hfg hf)
    intro f f' t hf hf'
    obtain ⟨rfl, rfl⟩ | hfu := hroot f t hf
    · obtain ⟨rfl, _⟩ | hfu' := hroot f' t hf'
      · rfl
      · exact absurd hfu' (hnew f' [])
    · obtain ⟨rfl, rfl⟩ | hfu' := hroot f' t hf'
      · exact absurd hfu (hnew f [])
      · exact ho.root f f' t hfu hfu'
  · intro f t path hf
    by_cases hfg : f = g
    · rw [hfg, Function.update_self] at hf
      rw [← (Use.node.inj hf).2]
      exact Nat.zero_le _
    · exact ho.bounded f t path (hback f t path hfg hf)

end TraitOS.PageTable
