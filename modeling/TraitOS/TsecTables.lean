import TraitOS.TsecKaslr

/-!
# Translation under the moved tables

The walk of the processor over page tables, with the flags of every entry it passes. After the
five boot tables were copied and relinked every address has the same translation: an entry
that was relinked leads to a copy of the table it led to, every other one to the table itself.
-/
namespace TraitOS.Tsec
open ByteMemory PageTable Tstring Tpmm Tvmm

variable {rest : List ℕ}

/-! ## The walk of the processor -/

/-- The flags of the entries above the leaf, the entry of the leaf, and where its page offset ends.
-/
structure Mapping where
  flags : List ℕ
  leaf : ℕ
  shift : ℕ
deriving DecidableEq, Repr

def Mapping.under (flags : ℕ) (r : Mapping) : Mapping := { r with flags := flags :: r.flags }

/-- An entry of this level is a leaf: at the last level, and below the first one if its size bit is
set. -/
def isLeaf (shift : ℕ) (rest : List ℕ) (e : ℕ) : Bool :=
  rest.isEmpty || (large e && decide (shift ≤ 30))

/-- What an entry leads to, with the walk below it. -/
def descend (shift : ℕ) (rest : List ℕ) (below : ℕ → Option Mapping) (e : ℕ) : Option Mapping :=
  if present e = false then none
  else if isLeaf shift rest e then some ⟨[], e, shift⟩
  else (below (target e)).map (Mapping.under (e &&& flagMask))

def lookup (m : Memory) (virt : ℕ) : List ℕ → ℕ → Option Mapping
  | [], _ => none
  | shift :: rest, table => descend shift rest (lookup m virt rest)
    (entry m table (index shift virt))

def levelShifts : List ℕ := [39, 30, 21, 12]

def translation (m : Memory) (cr3 virt : ℕ) : Option Mapping :=
  lookup m virt levelShifts (target cr3)

/-- The tables a walk from CR3 can come to, with the levels below them. -/
inductive IsTable (m : Memory) (cr3 : ℕ) : List ℕ → ℕ → Prop where
  | root : IsTable m cr3 levelShifts (target cr3)
  | child {shift : ℕ} {rest : List ℕ} {table i : ℕ} : IsTable m cr3 (shift :: rest) table →
      i < entries →
      present (entry m table i) = true → isLeaf shift rest (entry m table i) = false →
      IsTable m cr3 rest (target (entry m table i))

/-- The two paths of the boot tree that are copied. -/
structure BootTree (m : Memory) (cr3 : ℕ) : Prop where
  low : present (entry m (target cr3) 0) = true ∧ target (entry m (target cr3) 0) < 2 ^ 30
  lowPd : present (entry m (target (entry m (target cr3) 0)) 0) = true ∧
    large (entry m (target (entry m (target cr3) 0)) 0) = false ∧
    target (entry m (target (entry m (target cr3) 0)) 0) < 2 ^ 30
  high : present (entry m (target cr3) 511) = true ∧ target (entry m (target cr3) 511) < 2 ^ 30
  highPd : present (entry m (target (entry m (target cr3) 511)) 510) = true ∧
    large (entry m (target (entry m (target cr3) 511)) 510) = false ∧
    target (entry m (target (entry m (target cr3) 511)) 510) < 2 ^ 30

/-! ## Entries of copied and relinked tables -/

/-- A relinked entry keeps its flags. -/
lemma relinked_spec {next : ℕ} (hal : next % 4096 = 0) (hlt : next < 2 ^ 30) (e : ℕ) :
    next ||| (e &&& flagMask) < 2 ^ 64 ∧ present (next ||| (e &&& flagMask)) = present e ∧
      large (next ||| (e &&& flagMask)) = large e ∧ (next ||| (e &&& flagMask)) &&& flagMask =
        e &&& flagMask ∧
      target (next ||| (e &&& flagMask)) = next := by
  obtain ⟨f, rfl⟩ : ∃ f, next = f * frameBytes := ⟨next / 4096, by unfold frameBytes; omega⟩
  have htarget : target (f * frameBytes) = f * frameBytes :=
    target_frame (by unfold frameBytes at hlt; omega)
  have hmask (k : ℕ) (hk : flagMask &&& k = k) : (e &&& flagMask) &&& k = e &&& k := by
    rw [Nat.and_assoc, hk]
  refine ⟨?_, ?_, ?_, ?_, ?_⟩
  · exact Nat.or_lt_two_pow (hlt.trans (by decide))
      (Nat.lt_of_le_of_lt Nat.and_le_right (by decide))
  · have hframe : present (f * frameBytes) = false := by
      unfold present frameBytes
      rw [Nat.and_one_is_mod]
      exact decide_eq_false (by omega)
    rw [present_or, hframe, Bool.false_or]
    unfold present
    rw [hmask 1 (by decide)]
  · rw [large_or, large_frame, Bool.false_or]
    unfold large
    rw [hmask (1 <<< 7) (by decide)]
  · have hzero : f * frameBytes &&& flagMask = 0 := by
      rw [← htarget, target, Nat.and_assoc, show addrMask &&& flagMask = 0 by decide, Nat.and_zero]
    rw [Nat.and_or_distrib_right, hzero, Nat.zero_or, hmask flagMask (by decide)]
  · have hzero : target (e &&& flagMask) = 0 := by
      rw [target, Nat.and_assoc, show flagMask &&& addrMask = 0 by decide, Nat.and_zero]
    rw [target_or, htarget, hzero, Nat.or_zero]

lemma descend_congr {shift e : ℕ} {below below' : ℕ → Option Mapping}
    (h : present e = true → isLeaf shift rest e = false → below (target e) = below' (target e)) :
    descend shift rest below e = descend shift rest below' e := by
  unfold descend
  cases hp : present e with
  | false => rfl
  | true =>
    cases hleaf : isLeaf shift rest e with
    | true => rfl
    | false => rw [h hp hleaf]

lemma descend_relinked {shift next e : ℕ} {below below' : ℕ → Option Mapping}
    (hal : next % 4096 = 0) (hlt : next < 2 ^ 30) (hleaf : isLeaf shift rest e = false)
    (h : below next = below' (target e)) :
    descend shift rest below (next ||| (e &&& flagMask)) = descend shift rest below' e := by
  obtain ⟨-, hp, hl, hflags, htarget⟩ := relinked_spec hal hlt e
  have hleaf' : isLeaf shift rest (next ||| (e &&& flagMask)) = false := by
    unfold isLeaf
    rw [hl]
    exact hleaf
  unfold descend
  rw [hp, hleaf, hleaf', hflags, htarget, h]
  rfl

lemma entry_tmemmove (m : Memory) (f g s : ℕ) {i : ℕ} (hi : i < entries) :
    entry (tmemmove m (g * frameBytes) (s * frameBytes) 4096) (f * frameBytes) i =
      if f = g then entry m (s * frameBytes) i else entry m (f * frameBytes) i := by
  rw [tmemmove_eq_copy]
  unfold entries at hi
  split_ifs with h
  · subst h
    -- the bytes of the entry, one by one
    have hload : ∀ n ≤ 8, loadLE (copy m (f * frameBytes) (s * frameBytes) 4096)
        (f * frameBytes + 8 * i) n = loadLE m (s * frameBytes + 8 * i) n := by
      intro n hn
      induction n with
      | zero => rfl
      | succ n ih =>
        have hbyte : s * frameBytes + (f * frameBytes + 8 * i + n - f * frameBytes) =
          s * frameBytes + 8 * i + n := by
          omega
        rw [loadLE, loadLE, ih (by omega), copy_of_in m (by omega) (by omega), hbyte]
    exact hload 8 le_rfl
  · refine loadLE_congr fun x hlo hhi => copy_of_out m ?_
    unfold frameBytes at *
    omega

lemma entry_relink (m : Memory) {f g next i j : ℕ} (hal : next % 4096 = 0) (hlt : next < 2 ^ 30)
    (hi : i < entries) (hj : j < entries) :
    entry (relink m (g * frameBytes) j next) (f * frameBytes) i =
      if f = g ∧ i = j then next ||| (entry m (g * frameBytes) j &&& flagMask)
        else entry m (f * frameBytes) i := by
  unfold relink
  split_ifs with h
  · obtain ⟨rfl, rfl⟩ := h
    exact entry_setEntry_self _ _ _ (relinked_spec hal hlt _).1
  · exact entry_setEntry_of_ne _ _ hi hj (by tauto)

/-- The five new tables: frames of their own, and none of the old tables. -/
structure NewTables (old : ℕ → Prop) (f4 f3 f2 f3h f2h : ℕ) : Prop where
  distinct : [f4, f3, f2, f3h, f2h].Nodup
  low : ∀ f ∈ [f4, f3, f2, f3h, f2h], f * frameBytes < 2 ^ 30
  fresh : ∀ f ∈ [f4, f3, f2, f3h, f2h], ¬ old f

section Copies
variable {m : Memory} {old : ℕ → Prop} {f4 f3 f2 f3h f2h t4 t3 t2 t3h t2h : ℕ}

/-- The five copies, before they are linked. -/
def copyFive (m : Memory) (f4 f3 f2 f3h f2h t4 t3 t2 t3h t2h : ℕ) : Memory :=
  let m := tmemmove m (f4 * frameBytes) (t4 * frameBytes) 4096
  let m := tmemmove m (f3 * frameBytes) (t3 * frameBytes) 4096
  let m := tmemmove m (f2 * frameBytes) (t2 * frameBytes) 4096
  let m := tmemmove m (f3h * frameBytes) (t3h * frameBytes) 4096
  tmemmove m (f2h * frameBytes) (t2h * frameBytes) 4096

lemma NewTables.ne_of_old (hn : NewTables old f4 f3 f2 f3h f2h) {t : ℕ} (ht : old t) :
    t ≠ f4 ∧ t ≠ f3 ∧ t ≠ f2 ∧ t ≠ f3h ∧ t ≠ f2h := by
  have hne (f : ℕ) (hf : f ∈ [f4, f3, f2, f3h, f2h]) : t ≠ f := fun h => hn.fresh f hf (h ▸ ht)
  exact ⟨hne _ (by simp), hne _ (by simp), hne _ (by simp), hne _ (by simp), hne _ (by simp)⟩

lemma entry_copyFive_of_ne {f i : ℕ} (hi : i < entries)
    (h : f ≠ f4 ∧ f ≠ f3 ∧ f ≠ f2 ∧ f ≠ f3h ∧ f ≠ f2h) :
    entry (copyFive m f4 f3 f2 f3h f2h t4 t3 t2 t3h t2h) (f * frameBytes) i =
      entry m (f * frameBytes) i := by
  obtain ⟨h4, h3, h2, h3h, h2h⟩ := h
  unfold copyFive
  simp only [entry_tmemmove _ _ _ _ hi, h4, h3, h2, h3h, h2h, if_false]

lemma entry_copyFive (hn : NewTables old f4 f3 f2 f3h f2h) (h3 : old t3) (h2 : old t2)
    (h3h : old t3h) (h2h : old t2h) {i : ℕ} (hi : i < entries) :
    entry (copyFive m f4 f3 f2 f3h f2h t4 t3 t2 t3h t2h) (f4 * frameBytes) i =
      entry m (t4 * frameBytes) i ∧
    entry (copyFive m f4 f3 f2 f3h f2h t4 t3 t2 t3h t2h) (f3 * frameBytes) i =
      entry m (t3 * frameBytes) i ∧
    entry (copyFive m f4 f3 f2 f3h f2h t4 t3 t2 t3h t2h) (f2 * frameBytes) i =
      entry m (t2 * frameBytes) i ∧
    entry (copyFive m f4 f3 f2 f3h f2h t4 t3 t2 t3h t2h) (f3h * frameBytes) i =
      entry m (t3h * frameBytes) i ∧
    entry (copyFive m f4 f3 f2 f3h f2h t4 t3 t2 t3h t2h) (f2h * frameBytes) i =
      entry m (t2h * frameBytes) i := by
  have hd := hn.distinct
  simp only [List.nodup_cons, List.mem_cons, List.not_mem_nil, not_or, or_false, not_false_eq_true,
    List.nodup_nil, and_true] at hd
  obtain ⟨⟨h43, h42, h43h, h42h⟩, ⟨h32, h33h, h32h⟩, ⟨h23h, h22h⟩, hhh⟩ := hd
  have o3 := hn.ne_of_old h3
  have o2 := hn.ne_of_old h2
  have o3h := hn.ne_of_old h3h
  have o2h := hn.ne_of_old h2h
  unfold copyFive
  simp only [entry_tmemmove _ _ _ _ hi, h43, h42, h43h, h42h, h32, h33h, h32h, h23h, h22h, hhh, o3,
    o2, o3h, o2h, if_false, if_true, and_self]

lemma ne_zero_of_present {e : ℕ} (h : present e = true) : e ≠ 0 := by
  rintro rfl
  exact Bool.false_ne_true h

/-- The copies as the source makes them, each with the table its walk finds. -/
lemma copyTables_eq {cr3 : ℕ} (hboot : BootTree m cr3) (hn : NewTables old f4 f3 f2 f3h f2h)
    (ht4 : target cr3 = t4 * frameBytes)
    (ht3 : target (entry m (t4 * frameBytes) 0) = t3 * frameBytes)
    (ht2 : target (entry m (t3 * frameBytes) 0) = t2 * frameBytes)
    (ht3h : target (entry m (t4 * frameBytes) 511) = t3h * frameBytes)
    (ht2h : target (entry m (t3h * frameBytes) 510) = t2h * frameBytes) (h4 : old t4) (h3 : old t3)
    (h3h : old t3h) :
    copyTables m (target cr3) (f4 * frameBytes) (f3 * frameBytes) (f2 * frameBytes)
      (f3h * frameBytes) (f2h * frameBytes) =
      relink (relink (relink (relink (copyFive m f4 f3 f2 f3h f2h t4 t3 t2 t3h t2h)
        (f4 * frameBytes) 0 (f3 * frameBytes)) (f4 * frameBytes) 511 (f3h * frameBytes))
        (f3 * frameBytes) 0 (f2 * frameBytes)) (f3h * frameBytes) 510 (f2h * frameBytes) := by
  have o4 := hn.ne_of_old h4
  have o3 := hn.ne_of_old h3
  have o3h := hn.ne_of_old h3h
  have hlow := hboot.low.1
  have hhigh := hboot.high.1
  rw [ht4] at hlow hhigh
  have hi0 : 0 < entries := by decide
  have hi510 : 510 < entries := by decide
  have hi511 : 511 < entries := by decide
  unfold copyTables copyFive
  simp only [ht4, entry_tmemmove _ _ _ _ hi0, entry_tmemmove _ _ _ _ hi510,
    entry_tmemmove _ _ _ _ hi511, o4, o3, o3h,
    if_false, ht3, ht3h, ne_zero_of_present hlow, ne_zero_of_present hhigh, ne_eq,
      not_false_eq_true, if_true, ht2, ht2h]

/-- The new tables in terms of the old ones. -/
structure Moved (m m' : Memory) (old : ℕ → Prop) (f4 f3 f2 f3h f2h t4 t3 t2 t3h t2h : ℕ) :
    Prop where
  kept : ∀ t, old t → ∀ i < entries, entry m' (t * frameBytes) i = entry m (t * frameBytes) i
  pml4 : ∀ i < entries, entry m' (f4 * frameBytes) i =
    if i = 0 then f3 * frameBytes ||| (entry m (t4 * frameBytes) 0 &&& flagMask)
    else if i = 511 then f3h * frameBytes ||| (entry m (t4 * frameBytes) 511 &&& flagMask)
    else entry m (t4 * frameBytes) i
  pdpt : ∀ i < entries, entry m' (f3 * frameBytes) i =
    if i = 0 then f2 * frameBytes ||| (entry m (t3 * frameBytes) 0 &&& flagMask)
      else entry m (t3 * frameBytes) i
  pd : ∀ i < entries, entry m' (f2 * frameBytes) i = entry m (t2 * frameBytes) i
  highPdpt : ∀ i < entries, entry m' (f3h * frameBytes) i =
    if i = 510 then f2h * frameBytes ||| (entry m (t3h * frameBytes) 510 &&& flagMask)
    else entry m (t3h * frameBytes) i
  highPd : ∀ i < entries, entry m' (f2h * frameBytes) i = entry m (t2h * frameBytes) i

lemma moved_relinked (hn : NewTables old f4 f3 f2 f3h f2h) (h3 : old t3) (h2 : old t2)
    (h3h : old t3h) (h2h : old t2h) :
    Moved m (relink (relink (relink (relink (copyFive m f4 f3 f2 f3h f2h t4 t3 t2 t3h t2h)
        (f4 * frameBytes) 0 (f3 * frameBytes)) (f4 * frameBytes) 511 (f3h * frameBytes))
        (f3 * frameBytes) 0 (f2 * frameBytes)) (f3h * frameBytes) 510 (f2h * frameBytes))
      old f4 f3 f2 f3h f2h t4 t3 t2 t3h t2h := by
  have hd := hn.distinct
  simp only [List.nodup_cons, List.mem_cons, List.not_mem_nil, not_or, or_false, not_false_eq_true,
    List.nodup_nil, and_true] at hd
  obtain ⟨⟨h43, h42, h43h, h42h⟩, ⟨h32, h33h, h32h⟩, ⟨h23h, h22h⟩, hhh⟩ := hd
  have hal (f : ℕ) : f * frameBytes % 4096 = 0 := Nat.mul_mod_left f 4096
  have l3 := hn.low f3 (by simp)
  have l2 := hn.low f2 (by simp)
  have l3h := hn.low f3h (by simp)
  have l2h := hn.low f2h (by simp)
  have hi0 : 0 < entries := by decide
  have hi510 : 510 < entries := by decide
  have hi511 : 511 < entries := by decide
  have hcopy {i : ℕ} (hi : i < entries) :=
    @entry_copyFive m old f4 f3 f2 f3h f2h t4 t3 t2 t3h t2h hn h3 h2 h3h h2h i hi
  refine ⟨fun t ht i hi => ?_, fun i hi => ?_, fun i hi => ?_, fun i hi => ?_, fun i hi => ?_,
    fun i hi => ?_⟩
  · have o := hn.ne_of_old ht
    simp only [entry_relink _ (hal _) l2h hi hi510, entry_relink _ (hal _) l2 hi hi0,
      entry_relink _ (hal _) l3h hi hi511,
      entry_relink _ (hal _) l3 hi hi0, o, false_and, if_false]
    exact entry_copyFive_of_ne hi o
  · simp only [entry_relink _ (hal _) l2h hi hi510, entry_relink _ (hal _) l2 hi hi0,
      entry_relink _ (hal _) l3h hi hi511,
      entry_relink _ (hal _) l3 hi hi0, entry_relink _ (hal _) l3 hi511 hi0, h43h, h43, false_and,
        if_false, true_and,
      (hcopy hi).1, (hcopy hi0).1, (hcopy hi511).1]
    by_cases h0 : i = 0
    · subst h0
      simp
    · by_cases h511 : i = 511
      · subst h511
        simp
      · simp [h0, h511]
  · simp only [entry_relink _ (hal _) l2h hi hi510, entry_relink _ (hal _) l2 hi hi0,
      entry_relink _ (hal _) l3h hi hi511,
      entry_relink _ (hal _) l3 hi hi0, entry_relink _ (hal _) l3h hi0 hi511,
        entry_relink _ (hal _) l3 hi0 hi0, h33h,
      Ne.symm h43, false_and, if_false, true_and, (hcopy hi).2.1, (hcopy hi0).2.1]
  · simp only [entry_relink _ (hal _) l2h hi hi510, entry_relink _ (hal _) l2 hi hi0,
      entry_relink _ (hal _) l3h hi hi511,
      entry_relink _ (hal _) l3 hi hi0, h23h, Ne.symm h32, Ne.symm h42, false_and, if_false,
        (hcopy hi).2.2.1]
  · simp only [entry_relink _ (hal _) l2h hi hi510, entry_relink _ (hal _) l2 hi hi0,
      entry_relink _ (hal _) l3h hi hi511,
      entry_relink _ (hal _) l3 hi hi0, entry_relink _ (hal _) l2 hi510 hi0,
        entry_relink _ (hal _) l3h hi510 hi511,
      entry_relink _ (hal _) l3 hi510 hi0, Ne.symm h33h, Ne.symm h43h, false_and, if_false,
        true_and,
      (hcopy hi).2.2.2.1, (hcopy hi510).2.2.2.1]
  · simp only [entry_relink _ (hal _) l2h hi hi510, entry_relink _ (hal _) l2 hi hi0,
      entry_relink _ (hal _) l3h hi hi511,
      entry_relink _ (hal _) l3 hi hi0, Ne.symm hhh, Ne.symm h32h, Ne.symm h42h, false_and,
        if_false, (hcopy hi).2.2.2.2]

end Copies

/-! ## Walks -/

/-- A frame that holds a table of the tree. -/
def IsTableFrame (m : Memory) (cr3 t : ℕ) : Prop := ∃ levels, IsTable m cr3 levels (t * frameBytes)

section Walks
variable {m m' : Memory} {cr3 virt : ℕ}

lemma IsTable.next {shift : ℕ} {t i : ℕ} (h : IsTable m cr3 (shift :: rest) (t * frameBytes))
    (hi : i < entries) (hp : present (entry m (t * frameBytes) i) = true)
    (hleaf : isLeaf shift rest (entry m (t * frameBytes) i) = false) :
    IsTable m cr3 rest (frameNo (entry m (t * frameBytes) i) * frameBytes) := by
  rw [← target_eq_frameNo]
  exact h.child hi hp hleaf

/-- A table with the entry of another one leads to the same place. -/
lemma lookup_same {shift : ℕ} {f t : ℕ}
    (he : entry m' (f * frameBytes) (index shift virt) =
      entry m (t * frameBytes) (index shift virt))
    (hrec : present (entry m (t * frameBytes) (index shift virt)) = true →
      isLeaf shift rest (entry m (t * frameBytes) (index shift virt)) = false →
        lookup m' virt rest (target (entry m (t * frameBytes) (index shift virt))) =
          lookup m virt rest (target (entry m (t * frameBytes) (index shift virt)))) :
    lookup m' virt (shift :: rest) (f * frameBytes) =
      lookup m virt (shift :: rest) (t * frameBytes) := by
  rw [lookup, lookup, he]
  exact descend_congr hrec

/-- So does one whose entry was relinked to a table that leads there. -/
lemma lookup_relinked {shift : ℕ} {f t next : ℕ} (hlow : next * frameBytes < 2 ^ 30)
    (he : entry m' (f * frameBytes) (index shift virt) =
      next * frameBytes ||| (entry m (t * frameBytes) (index shift virt) &&& flagMask))
    (hleaf : isLeaf shift rest (entry m (t * frameBytes) (index shift virt)) = false)
    (hrec : lookup m' virt rest (next * frameBytes) =
      lookup m virt rest (target (entry m (t * frameBytes) (index shift virt)))) :
    lookup m' virt (shift :: rest) (f * frameBytes) =
      lookup m virt (shift :: rest) (t * frameBytes) := by
  rw [lookup, lookup, he]
  exact descend_relinked (Nat.mul_mod_left next 4096) hlow hleaf hrec

/-- Walks through old tables only. -/
lemma lookup_old
    (hkept : ∀ t, IsTableFrame m cr3 t → ∀ i < entries, entry m' (t * frameBytes) i =
      entry m (t * frameBytes) i)
    (levels : List ℕ) {t : ℕ} (ht : IsTable m cr3 levels (t * frameBytes)) :
    lookup m' virt levels (t * frameBytes) = lookup m virt levels (t * frameBytes) := by
  induction levels generalizing t with
  | nil => rfl
  | cons shift rest ih =>
    refine lookup_same (hkept t ⟨_, ht⟩ _ (index_lt _ _)) fun hp hleaf => ?_
    rw [target_eq_frameNo]
    exact ih (ht.next (index_lt _ _) hp hleaf)

lemma lookup_copied
    (hkept : ∀ t, IsTableFrame m cr3 t → ∀ i < entries, entry m' (t * frameBytes) i =
      entry m (t * frameBytes) i)
    {shift : ℕ} {f t : ℕ} (ht : IsTable m cr3 (shift :: rest) (t * frameBytes))
    (he : entry m' (f * frameBytes) (index shift virt) =
      entry m (t * frameBytes) (index shift virt)) :
    lookup m' virt (shift :: rest) (f * frameBytes) =
      lookup m virt (shift :: rest) (t * frameBytes) := by
  refine lookup_same he fun hp hleaf => ?_
  rw [target_eq_frameNo]
  exact lookup_old hkept rest (ht.next (index_lt _ _) hp hleaf)

/-- The walk from a copied directory pointer table whose entry `j` leads to a copied directory. -/
lemma lookup_pdpt
    (hkept : ∀ t, IsTableFrame m cr3 t → ∀ i < entries, entry m' (t * frameBytes) i =
      entry m (t * frameBytes) i)
    {f3 f2 t3 t2 j : ℕ} (hlow : f2 * frameBytes < 2 ^ 30)
    (hpdpt : ∀ i < entries, entry m' (f3 * frameBytes) i =
      if i = j then f2 * frameBytes ||| (entry m (t3 * frameBytes) j &&& flagMask)
        else entry m (t3 * frameBytes) i)
    (hpd : ∀ i < entries, entry m' (f2 * frameBytes) i = entry m (t2 * frameBytes) i)
    (ht3 : IsTable m cr3 [30, 21, 12] (t3 * frameBytes))
    (ht2 : IsTable m cr3 [21, 12] (t2 * frameBytes))
    (hlarge : large (entry m (t3 * frameBytes) j) = false)
    (htarget : target (entry m (t3 * frameBytes) j) = t2 * frameBytes) :
    lookup m' virt [30, 21, 12] (f3 * frameBytes) = lookup m virt [30, 21, 12] (t3 * frameBytes) :=
      by
  have he := hpdpt (index 30 virt) (index_lt _ _)
  by_cases hj : index 30 virt = j
  · rw [if_pos hj, ← hj] at he
    rw [← hj] at hlarge htarget
    refine lookup_relinked hlow he ?_ ?_
    · simp [isLeaf, hlarge]
    · rw [htarget]
      exact lookup_copied hkept ht2 (hpd _ (index_lt _ _))
  · rw [if_neg hj] at he
    exact lookup_copied hkept ht3 he

end Walks

/-- Every address has the same translation under the moved tables. -/
lemma translation_moved {m m' : Memory} {cr3 f4 f3 f2 f3h f2h t4 t3 t2 t3h t2h : ℕ}
    (hboot : BootTree m cr3) (hn : NewTables (IsTableFrame m cr3) f4 f3 f2 f3h f2h)
    (hm : Moved m m' (IsTableFrame m cr3) f4 f3 f2 f3h f2h t4 t3 t2 t3h t2h)
    (ht4 : target cr3 = t4 * frameBytes)
    (ht3 : target (entry m (t4 * frameBytes) 0) = t3 * frameBytes)
    (ht2 : target (entry m (t3 * frameBytes) 0) = t2 * frameBytes)
    (ht3h : target (entry m (t4 * frameBytes) 511) = t3h * frameBytes)
    (ht2h : target (entry m (t3h * frameBytes) 510) = t2h * frameBytes)
    (h3 : IsTable m cr3 [30, 21, 12] (t3 * frameBytes))
    (h2 : IsTable m cr3 [21, 12] (t2 * frameBytes))
    (h3h : IsTable m cr3 [30, 21, 12] (t3h * frameBytes))
    (h2h : IsTable m cr3 [21, 12] (t2h * frameBytes)) (virt : ℕ) :
    translation m' (f4 * frameBytes) virt = translation m cr3 virt := by
  have h4 : IsTable m cr3 levelShifts (t4 * frameBytes) := ht4 ▸ .root
  have htop (e : ℕ) : isLeaf 39 [30, 21, 12] e = false := by simp [isLeaf]
  have hlow := hboot.lowPd.2.1
  have hhigh := hboot.highPd.2.1
  rw [ht4, ht3] at hlow
  rw [ht4, ht3h] at hhigh
  have l4 := hn.low f4 (by simp)
  have he := hm.pml4 (index 39 virt) (index_lt _ _)
  unfold translation
  rw [ht4, target_frame (by unfold frameBytes at l4; omega)]
  by_cases h0 : index 39 virt = 0
  · rw [if_pos h0, ← h0] at he
    rw [← h0] at ht3
    refine lookup_relinked (hn.low f3 (by simp)) he (htop _) ?_
    rw [ht3]
    exact lookup_pdpt hm.kept (hn.low f2 (by simp)) hm.pdpt hm.pd h3 h2 hlow ht2
  · rw [if_neg h0] at he
    by_cases h511 : index 39 virt = 511
    · rw [if_pos h511, ← h511] at he
      rw [← h511] at ht3h
      refine lookup_relinked (hn.low f3h (by simp)) he (htop _) ?_
      rw [ht3h]
      exact lookup_pdpt hm.kept (hn.low f2h (by simp)) hm.highPdpt hm.highPd h3h h2h hhigh ht2h
    · rw [if_neg h511] at he
      exact lookup_copied hm.kept h4 he

/-- The five tables of the two copied paths: the PML4, the low half's two and the high half's two.
-/
def pathTables (m : Memory) (cr3 : ℕ) : List ℕ :=
  let pml4 := target cr3
  let pdpt := target (entry m pml4 0)
  let highPdpt := target (entry m pml4 511)
  [pml4, pdpt, target (entry m pdpt 0), highPdpt, target (entry m highPdpt 510)]

lemma pathTables_moved {m m' : Memory} {f4 f3 f2 f3h f2h t4 t3 t2 t3h t2h : ℕ} {old : ℕ → Prop}
    (hn : NewTables old f4 f3 f2 f3h f2h) (hm : Moved m m' old f4 f3 f2 f3h f2h t4 t3 t2 t3h t2h) :
    pathTables m' (f4 * frameBytes) = [f4, f3, f2, f3h, f2h].map (· * frameBytes) := by
  have htarget (f : ℕ) (hf : f ∈ [f4, f3, f2, f3h, f2h]) (e : ℕ) :
      target (f * frameBytes ||| (e &&& flagMask)) = f * frameBytes :=
    (relinked_spec (Nat.mul_mod_left f 4096) (hn.low f hf) e).2.2.2.2
  have l4 := hn.low f4 (by simp)
  have hroot : target (f4 * frameBytes) = f4 * frameBytes :=
    target_frame (by unfold frameBytes at l4; omega)
  have h0 : (0 : ℕ) < entries := by decide
  have h510 : 510 < entries := by decide
  have h511 : 511 < entries := by decide
  have h0' : (511 : ℕ) ≠ 0 := by decide
  simp only [pathTables, hroot, hm.pml4 0 h0, hm.pml4 511 h511, if_true, h0', if_false,
    htarget f3 (by simp),
    htarget f3h (by simp), hm.pdpt 0 h0, hm.highPdpt 510 h510, htarget f2 (by simp),
      htarget f2h (by simp), List.map]

/-- Five granted frames are new tables when none of the old ones is free. -/
lemma Granted.newTables {s s' : Pmm} {a4 a3 a2 a3h a2h : ℕ} {old : ℕ → Prop}
    (hg : Granted s (s', [a4, a3, a2, a3h, a2h])) (h0 : 0 ∉ [a4, a3, a2, a3h, a2h])
    (hold : ∀ t, old t → t ∉ freeSet s) :
    NewTables old (a4 / pageSize) (a3 / pageSize) (a2 / pageSize) (a3h / pageSize)
      (a2h / pageSize) := by
  have hne : ∀ a ∈ [a4, a3, a2, a3h, a2h], a ≠ 0 := fun a ha h => h0 (h ▸ ha)
  have hfilter : [a4, a3, a2, a3h, a2h].filter (· ≠ 0) = [a4, a3, a2, a3h, a2h] :=
    List.filter_eq_self.mpr fun a ha => decide_eq_true (hne a ha)
  have hmem : ∀ f ∈ [a4, a3, a2, a3h, a2h].map (· / pageSize), ∃ a ∈ [a4, a3, a2, a3h, a2h],
    a / pageSize = f :=
    fun f hf => List.mem_map.mp hf
  have hdistinct := hg.distinct
  dsimp only at hdistinct
  rw [hfilter] at hdistinct
  refine ⟨hdistinct, fun f hf => ?_, fun f hf hof => ?_⟩
  · obtain ⟨a, ha, rfl⟩ := hmem f hf
    have hlt := (hg.whole a ha).2
    exact (Nat.div_mul_le_self a 4096).trans_lt hlt
  · obtain ⟨a, ha, rfl⟩ := hmem f hf
    exact hold _ hof (hg.free (mem_tableFrames.mpr ⟨a, ha, hne a ha, rfl⟩))

/-- Moving the tables keeps every translation, and the moved paths run through no table of the old
tree. -/
theorem relocatePageTables_preserves (p p' : Paging) (cr3 cr3' : ℕ) (hv : Valid p.pmm)
    (hboot : BootTree p.mem cr3)
    (hreserved : ∀ levels table, IsTable p.mem cr3 levels table → table / pageSize ∉ freeSet p.pmm)
    (h : relocatePageTables p cr3 = (p', some cr3')) :
    (∀ virt, translation p'.mem cr3' virt = translation p.mem cr3 virt) ∧
      ∀ table ∈ pathTables p'.mem cr3', ∀ levels, ¬ IsTable p.mem cr3 levels table := by
  obtain ⟨tables, hlength, h0, hg, hcr3, hmem⟩ := relocatePageTables_moved hv h
  obtain ⟨a4, a3, a2, a3h, a2h, rfl⟩ : ∃ a4 a3 a2 a3h a2h, tables = [a4, a3, a2, a3h, a2h] := by
    match tables, hlength with
    | [a4, a3, a2, a3h, a2h], _ => exact ⟨a4, a3, a2, a3h, a2h, rfl⟩
  have hold : ∀ t, IsTableFrame p.mem cr3 t → t ∉ freeSet p.pmm := fun t ⟨levels, ht⟩ hfree => by
    have hused := hreserved _ _ ht
    rw [show t * frameBytes / pageSize = t from Nat.mul_div_cancel _ (by decide)] at hused
    exact hused hfree
  have hn := hg.newTables h0 hold
  have hwhole (a : ℕ) (ha : a ∈ [a4, a3, a2, a3h, a2h]) : a = a / pageSize * frameBytes :=
    (Nat.div_mul_cancel (Nat.dvd_of_mod_eq_zero (hg.whole a ha).1)).symm
  simp only [List.getD_cons_zero, List.getD_cons_succ] at hcr3 hmem
  rw [hwhole a4 (by simp), hwhole a3 (by simp), hwhole a2 (by simp), hwhole a3h (by simp),
    hwhole a2h (by simp)] at hmem
  rw [hwhole a4 (by simp)] at hcr3
  generalize a4 / pageSize = f4, a3 / pageSize = f3, a2 / pageSize = f2, a3h / pageSize =
    f3h, a2h / pageSize = f2h
    at hn hmem hcr3
  -- the five old tables, each a frame of the tree
  obtain ⟨t4, ht4⟩ : ∃ t, target cr3 = t * frameBytes := ⟨_, target_eq_frameNo _⟩
  obtain ⟨t3, ht3⟩ : ∃ t, target (entry p.mem (t4 * frameBytes) 0) = t * frameBytes :=
    ⟨_, target_eq_frameNo _⟩
  obtain ⟨t2, ht2⟩ : ∃ t, target (entry p.mem (t3 * frameBytes) 0) = t * frameBytes :=
    ⟨_, target_eq_frameNo _⟩
  obtain ⟨t3h, ht3h⟩ : ∃ t, target (entry p.mem (t4 * frameBytes) 511) = t * frameBytes :=
    ⟨_, target_eq_frameNo _⟩
  obtain ⟨t2h, ht2h⟩ : ∃ t, target (entry p.mem (t3h * frameBytes) 510) = t * frameBytes :=
    ⟨_, target_eq_frameNo _⟩
  have h4 : IsTable p.mem cr3 levelShifts (t4 * frameBytes) := ht4 ▸ .root
  have ⟨hlow, hlowPd, hhigh, hhighPd⟩ := hboot
  rw [ht4] at hlow hlowPd hhigh hhighPd
  rw [ht3] at hlowPd
  rw [ht3h] at hhighPd
  have h3 : IsTable p.mem cr3 [30, 21, 12] (t3 * frameBytes) :=
    ht3 ▸ h4.child (by decide) hlow.1 (by simp [isLeaf])
  have h2 : IsTable p.mem cr3 [21, 12] (t2 * frameBytes) :=
    ht2 ▸ h3.child (by decide) hlowPd.1 (by simp [isLeaf, hlowPd.2.1])
  have h3h : IsTable p.mem cr3 [30, 21, 12] (t3h * frameBytes) :=
    ht3h ▸ h4.child (by decide) hhigh.1 (by simp [isLeaf])
  have h2h : IsTable p.mem cr3 [21, 12] (t2h * frameBytes) :=
    ht2h ▸ h3h.child (by decide) hhighPd.1 (by simp [isLeaf, hhighPd.2.1])
  rw [copyTables_eq hboot hn ht4 ht3 ht2 ht3h ht2h ⟨_, h4⟩ ⟨_, h3⟩ ⟨_, h3h⟩] at hmem
  have hm := @moved_relinked p.mem _ _ _ _ _ _ t4 _ _ _ _ hn ⟨_, h3⟩ ⟨_, h2⟩ ⟨_, h3h⟩ ⟨_, h2h⟩
  rw [← hmem] at hm
  subst hcr3
  refine ⟨translation_moved hboot hn hm ht4 ht3 ht2 ht3h ht2h h3 h2 h3h h2h,
    fun table htable levels hold => ?_⟩
  rw [pathTables_moved hn hm] at htable
  obtain ⟨f, hf, rfl⟩ := List.mem_map.mp htable
  exact hn.fresh f hf ⟨levels, hold⟩

/-- A tree of four tables in frames 3 to 6, where every entry of a table leads to the next frame. -/
def chainTree : Memory :=
  fun a => if a % 8 = 0 then 3 else if a % 8 = 1 then .ofNat ((a / 4096 + 1) % 16 * 16) else 0

lemma entry_chainTree {k i : ℕ} (hk : k < 15) (hi : i < entries) :
    entry chainTree (k * frameBytes) i = (k + 1) * 4096 + 3 := by
  have hmod : (k * frameBytes + 8 * i) % 8 = 0 := by unfold frameBytes; omega
  have hframe : (k * frameBytes + 8 * i + 1) / 4096 = k := by unfold frameBytes entries at *; omega
  unfold entry load64
  generalize k * frameBytes + 8 * i = a at hmod hframe
  have h0 : chainTree a = 3 := if_pos hmod
  have h1 : chainTree (a + 1) = .ofNat ((k + 1) * 16) := by
    unfold chainTree
    rw [if_neg (by omega), if_pos (by omega), hframe, Nat.mod_eq_of_lt (by omega)]
  have hrest (j : ℕ) (hj : 2 ≤ j) (hj8 : j < 8) : chainTree (a + j) = 0 := by
    unfold chainTree
    rw [if_neg (by omega), if_neg (by omega)]
  have hbyte : (UInt8.ofNat ((k + 1) * 16)).toNat = (k + 1) * 16 := by
    rw [UInt8.toNat_ofNat']
    omega
  simp only [loadLE, Nat.add_zero, h0, h1, hrest 2 (by decide) (by decide), hrest 3 (by decide)
    (by decide),
    hrest 4 (by decide) (by decide), hrest 5 (by decide) (by decide), hrest 6 (by decide)
      (by decide),
    hrest 7 (by decide) (by decide), hbyte, UInt8.toNat_zero, Nat.zero_mul, UInt8.reduceToNat]
  omega

lemma entry_chainTree_spec {k i : ℕ} (hk : k < 15) (hi : i < entries) :
    present (entry chainTree (k * frameBytes) i) = true ∧
      large (entry chainTree (k * frameBytes) i) = false ∧
      target (entry chainTree (k * frameBytes) i) = (k + 1) * frameBytes := by
  rw [entry_chainTree hk hi]
  interval_cases k <;> decide

/-- Its tables are the frames 3 to 6. -/
lemma isTable_chainTree {levels : List ℕ} {table : ℕ} (h : IsTable chainTree 0x3000 levels table) :
    levels.length ≤ 4 ∧ table = (7 - levels.length) * frameBytes := by
  induction h with
  | root => decide
  | @child shift rest table i _ hi _ _ ih =>
    obtain ⟨hlen, rfl⟩ := ih
    rw [List.length_cons] at hlen ⊢
    rw [(entry_chainTree_spec (by omega) hi).2.2]
    refine ⟨by omega, ?_⟩
    congr 1
    omega

lemma bootTree_chainTree : BootTree chainTree 0x3000 := by
  have hroot : target 0x3000 = 3 * frameBytes := by decide
  have h3 {i : ℕ} (hi : i < entries) := entry_chainTree_spec (k := 3) (by decide) hi
  have h4 {i : ℕ} (hi : i < entries) := entry_chainTree_spec (k := 4) (by decide) hi
  have h0 : 0 < entries := by decide
  have h510 : 510 < entries := by decide
  have h511 : 511 < entries := by decide
  refine ⟨?_, ?_, ?_, ?_⟩ <;>
    simp only [hroot, h3 h0, h3 h511, h4 h0, h4 h510, true_and] <;> decide

/-- The machine with this tree. -/
def chainMachine : Paging := ⟨chainTree, slotMachine.pmm⟩

theorem relocatePageTables_chainMachine :
    ∃ p' cr3', relocatePageTables chainMachine 0x3000 = (p', some cr3') ∧
      ∀ virt, translation p'.mem cr3' virt = translation chainTree 0x3000 virt := by
  have hsome : (relocatePageTables chainMachine 0x3000).2 = some 0x100000 := by decide +kernel
  refine ⟨_, _, Prod.ext rfl hsome,
    (relocatePageTables_preserves chainMachine _ 0x3000 _ slotMachine_valid
    bootTree_chainTree (fun levels table htable => ?_) (Prod.ext rfl hsome)).1⟩
  obtain ⟨-, rfl⟩ := isTable_chainTree htable
  change _ ∉ freeSet slotMachine.pmm
  rw [slotMachine_freeSet, Finset.mem_union, Finset.mem_Ico, Finset.mem_Ico]
  unfold frameBytes pageSize
  omega

end TraitOS.Tsec
