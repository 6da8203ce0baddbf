import TraitOS.Tstring
import Mathlib.Data.Finset.Card
import Mathlib.Data.List.Nodup

/-!
# The environment of the shell

A table of 16 rows for keys and 16 rows for values in two arrays. A key that fills its row has
no terminator: comparing with it runs on into the next row. While every key is shorter than a
row the table is a list of pairs with distinct keys.
-/
namespace TraitOS.Tsh
open ByteMemory CString Tstring

def envMax : ℕ := 16
def envKeyLen : ℕ := 32
def envValLen : ℕ := 128

/-- Where the two arrays are. -/
structure Layout where
  keys : ℕ
  vals : ℕ
  apart : keys + envMax * envKeyLen ≤ vals ∨ vals + envMax * envValLen ≤ keys

/-- The address of `env_keys[i]`. -/
def Layout.key (L : Layout) (i : ℕ) : ℕ := L.keys + i * envKeyLen

/-- The address of `env_vals[i]`. -/
def Layout.val (L : Layout) (i : ℕ) : ℕ := L.vals + i * envValLen

structure Env where
  mem : Memory
  /-- `env_count` -/
  count : ℕ

section Model
variable (L : Layout)

/-- The loop over the keys. -/
def findKey (e : Env) (key : Str) : Option ℕ :=
  (List.range e.count).find? fun i => tstrcmp e.mem (L.key i) key.1 = 0

/-- The new table and the result. -/
def tshEnvSet (e : Env) (key val : Str) : Env × ℤ :=
  match findKey L e key with
  | some i => ({ e with mem := tstrncpy e.mem (L.val i) val.1 envValLen }, 0)
  | none =>
    if envMax ≤ e.count then (e, -1)
    else
      let m := tstrncpy e.mem (L.key e.count) key.1 envKeyLen
      (⟨tstrncpy m (L.val e.count) val.1 envValLen, e.count + 1⟩, 0)

/-- The address of the value. -/
def tshEnvGet (e : Env) (key : Str) : Option ℕ := (findKey L e key).map L.val

/-- The string at that address. -/
def envValue (e : Env) (key : Str) : Option (List UInt8) :=
  (tshEnvGet L e key).map fun p => readStr e.mem p envValLen

/-- Calls of `tsh_env_set` one after the other. -/
def setAll (e : Env) (calls : List (Str × Str)) : Env :=
  calls.foldl (fun e c => (tshEnvSet L e c.1 c.2).1) e

end Model

/-! ## The table as a list of pairs -/

/-- The rows hold these pairs. -/
structure Represents (L : Layout) (e : Env) (l : List (Str × Str)) : Prop where
  count : e.count = l.length
  bound : l.length ≤ envMax
  distinct : (l.map Prod.fst).Nodup
  key : ∀ (i : ℕ) (hi : i < l.length), HoldsStr e.mem (L.key i) l[i].1 ∧ l[i].1.length < envKeyLen
  val : ∀ (i : ℕ) (hi : i < l.length), HoldsStr e.mem (L.val i) l[i].2 ∧ l[i].2.length < envValLen

section Rows
variable {L : Layout} {e : Env} {l : List (Str × Str)}

lemma represents_nil (h : e.count = 0) : Represents L e [] :=
  ⟨h, Nat.zero_le _, List.nodup_nil, fun _ hi => absurd hi (Nat.not_lt_zero _),
    fun _ hi => absurd hi (Nat.not_lt_zero _)⟩

lemma Represents.cmp (h : Represents L e l) {i : ℕ} (hi : i < l.length) (key : Str) :
    tstrcmp e.mem (L.key i) key.1 = 0 ↔ l[i].1 = key := by
  rw [tstrcmp_eq_zero_iff]
  exact ⟨fun hk => (h.key i hi).1.unique hk, fun hk => hk ▸ (h.key i hi).1⟩

/-- The loop finds the row of a key. -/
lemma Represents.findKey_some (h : Represents L e l) {i : ℕ} {key : Str}
    (hf : findKey L e key = some i) : ∃ hi : i < l.length, l[i].1 = key := by
  have hi : i < l.length := h.count ▸ List.mem_range.mp (List.mem_of_find?_eq_some hf)
  have hcmp := List.find?_some hf
  exact ⟨hi, (h.cmp hi key).mp (of_decide_eq_true hcmp)⟩

lemma Represents.findKey_none (h : Represents L e l) {key : Str} (hf : findKey L e key = none) :
    key ∉ l.map Prod.fst := by
  intro hmem
  obtain ⟨i, hi, hkey⟩ := List.getElem_of_mem hmem
  rw [List.length_map] at hi
  rw [List.getElem_map] at hkey
  have hnot := List.find?_eq_none.mp hf i (List.mem_range.mpr (h.count ▸ hi))
  exact hnot (decide_eq_true ((h.cmp hi key).mpr hkey))

/-- A lookup finds exactly the pairs of the list. -/
lemma Represents.envValue_eq_some_iff (h : Represents L e l) {key : Str} {v : List UInt8} :
    envValue L e key = some v ↔ ∃ val : Str, val.1 = v ∧ (key, val) ∈ l := by
  unfold envValue tshEnvGet
  constructor
  · intro hv
    cases hf : findKey L e key with
    | none => rw [hf] at hv; exact nomatch hv
    | some i =>
      obtain ⟨hi, rfl⟩ := h.findKey_some hf
      rw [hf, Option.map_some, Option.map_some, readStr_eq (h.val i hi).1 (h.val i hi).2.le] at hv
      exact ⟨l[i].2, Option.some.inj hv, List.getElem_mem hi⟩
  · rintro ⟨val, rfl, hmem⟩
    cases hf : findKey L e key with
    | none => exact absurd (List.mem_map.mpr ⟨_, hmem, rfl⟩) (h.findKey_none hf)
    | some i =>
      obtain ⟨hi, hkey⟩ := h.findKey_some hf
      have hpair : l[i] = (key, val) :=
        List.inj_on_of_nodup_map h.distinct (List.getElem_mem hi) hmem hkey
      rw [Option.map_some, Option.map_some, readStr_eq (h.val i hi).1 (h.val i hi).2.le, hpair]

lemma Represents.envValue_eq_none_iff (h : Represents L e l) {key : Str} :
    envValue L e key = none ↔ key ∉ l.map Prod.fst := by
  constructor
  · intro hnone hmem
    obtain ⟨⟨k, val⟩, hpair, rfl⟩ := List.mem_map.mp hmem
    rw [h.envValue_eq_some_iff.mpr ⟨val, rfl, hpair⟩] at hnone
    exact nomatch hnone
  · intro hout
    cases hv : envValue L e key with
    | none => rfl
    | some v =>
      obtain ⟨val, -, hpair⟩ := h.envValue_eq_some_iff.mp hv
      exact absurd (List.mem_map.mpr ⟨_, hpair, rfl⟩) hout

/-- A write into one row of values leaves the strings of all other rows. -/
lemma holdsStr_of_val_row {m : Memory} {i : ℕ} {src : List UInt8} {p : ℕ} {s : Str}
    (hs : HoldsStr m p s) (hout : p + s.length < L.val i ∨ L.val i + envValLen ≤ p) :
    HoldsStr (tstrncpy m (L.val i) src envValLen) p s :=
  hs.congr fun j hj => tstrncpy_of_out (by omega)

lemma holdsStr_of_key_row {m : Memory} {i : ℕ} {src : List UInt8} {p : ℕ} {s : Str}
    (hs : HoldsStr m p s) (hout : p + s.length < L.key i ∨ L.key i + envKeyLen ≤ p) :
    HoldsStr (tstrncpy m (L.key i) src envKeyLen) p s :=
  hs.congr fun j hj => tstrncpy_of_out (by omega)

/-- Rows of the two arrays do not meet. -/
lemma Layout.key_val (L : Layout) {i j : ℕ} (hi : i < envMax) (hj : j < envMax) :
    L.key i + envKeyLen ≤ L.val j ∨ L.val j + envValLen ≤ L.key i := by
  have hapart := L.apart
  unfold Layout.key Layout.val envMax envKeyLen envValLen at *
  omega

lemma Layout.val_val (L : Layout) {i j : ℕ} (h : i ≠ j) :
    L.val i + envValLen ≤ L.val j ∨ L.val j + envValLen ≤ L.val i := by
  unfold Layout.val envValLen
  omega

lemma Layout.key_key (L : Layout) {i j : ℕ} (h : i ≠ j) :
    L.key i + envKeyLen ≤ L.key j ∨ L.key j + envKeyLen ≤ L.key i := by
  unfold Layout.key envKeyLen
  omega

/-- A new value for a stored key. -/
lemma Represents.setVal (h : Represents L e l) {i : ℕ} (hi : i < l.length) {val : Str}
    (hval : val.length < envValLen) :
    Represents L { e with mem := tstrncpy e.mem (L.val i) val.1 envValLen }
      (l.set i (l[i].1, val)) := by
  have hfst (j : ℕ) (hj : j < (l.set i (l[i].1, val)).length) (hj' : j < l.length) :
      (l.set i (l[i].1, val))[j].1 = l[j].1 := by
    rw [List.getElem_set]
    split_ifs with hij
    · subst hij; rfl
    · rfl
  have hkeys : (l.set i (l[i].1, val)).map Prod.fst = l.map Prod.fst :=
    List.ext_getElem (by simp) fun j _ _ => by
      rw [List.getElem_map, List.getElem_map]
      exact hfst j _ _
  have hbound := h.bound
  refine ⟨?_, ?_, hkeys ▸ h.distinct, fun j hj => ?_, fun j hj => ?_⟩
  · rw [List.length_set]
    exact h.count
  · rw [List.length_set]
    exact hbound
  · rw [List.length_set] at hj
    rw [hfst j _ hj]
    have hrow := L.key_val (show j < envMax by omega) (show i < envMax by omega)
    obtain ⟨hs, hlen⟩ := h.key j hj
    exact ⟨holdsStr_of_val_row hs (by omega), hlen⟩
  · rw [List.length_set] at hj
    rw [List.getElem_set]
    split_ifs with hij
    · subst hij
      exact ⟨tstrncpy_holdsStr _ _ hval, hval⟩
    · have hrow := L.val_val hij
      obtain ⟨hs, hlen⟩ := h.val j hj
      exact ⟨holdsStr_of_val_row hs (by omega), hlen⟩

lemma Represents.mem_setVal (h : Represents L e l) {i : ℕ} (hi : i < l.length) {k v val : Str} :
    (k, v) ∈ l.set i (l[i].1, val) ↔ if k = l[i].1 then v = val else (k, v) ∈ l := by
  rw [List.mem_iff_getElem]
  simp only [List.getElem_set, List.length_set]
  constructor
  · rintro ⟨j, hj, hpair⟩
    by_cases hij : i = j
    · rw [if_pos hij] at hpair
      rw [if_pos (congrArg Prod.fst hpair).symm]
      exact (congrArg Prod.snd hpair).symm
    · rw [if_neg hij] at hpair
      -- two rows never have one key
      have hk : k ≠ l[i].1 := fun hk => by
        have hfst : l[i].1 = l[j].1 := hk.symm.trans (congrArg Prod.fst hpair).symm
        have hkeys : (l.map Prod.fst).get ⟨i, by simpa using hi⟩ =
          (l.map Prod.fst).get ⟨j, by simpa using hj⟩ := by
          simpa using hfst
        exact hij (Fin.mk.inj (List.nodup_iff_injective_get.mp h.distinct hkeys))
      rw [if_neg hk, ← hpair]
      exact List.getElem_mem hj
  · split_ifs with hk
    · rintro rfl
      exact ⟨i, hi, by rw [if_pos rfl, hk]⟩
    · intro hmem
      obtain ⟨j, hj, hpair⟩ := List.getElem_of_mem hmem
      refine ⟨j, hj, ?_⟩
      rw [if_neg, hpair]
      rintro rfl
      exact hk (congrArg Prod.fst hpair).symm

/-- A key of its own row. -/
lemma Represents.append (h : Represents L e l) (hlt : l.length < envMax) {key val : Str}
    (hnew : key ∉ l.map Prod.fst) (hkey : key.length < envKeyLen) (hval : val.length < envValLen) :
    Represents L ⟨tstrncpy (tstrncpy e.mem (L.key e.count) key.1 envKeyLen)
      (L.val e.count) val.1 envValLen, e.count + 1⟩
      (l ++ [(key, val)]) := by
  have hcount := h.count
  refine ⟨?_, ?_, ?_, fun j hj => ?_, fun j hj => ?_⟩
  · rw [List.length_append, hcount]
    rfl
  · rw [List.length_append]
    exact hlt
  · rw [List.map_append]
    refine List.nodup_append.mpr ⟨h.distinct, List.nodup_singleton _, fun a ha b hb hab => hnew ?_⟩
    obtain rfl := List.mem_singleton.mp hb
    exact hab ▸ ha
  · rw [List.length_append, List.length_singleton] at hj
    have hrow := L.key_val (show j < envMax by omega) (show e.count < envMax by omega)
    by_cases hlast : j < l.length
    · rw [List.getElem_append_left hlast]
      obtain ⟨hs, hlen⟩ := h.key j hlast
      have hother := L.key_key (show j ≠ e.count by omega)
      exact ⟨holdsStr_of_val_row (holdsStr_of_key_row hs (by omega)) (by omega), hlen⟩
    · obtain rfl : j = l.length := by omega
      rw [← hcount] at hrow
      rw [List.getElem_concat_length rfl, ← hcount]
      dsimp only
      exact ⟨holdsStr_of_val_row (tstrncpy_holdsStr _ _ hkey) (by omega), hkey⟩
  · rw [List.length_append, List.length_singleton] at hj
    by_cases hlast : j < l.length
    · rw [List.getElem_append_left hlast]
      obtain ⟨hs, hlen⟩ := h.val j hlast
      have hrow := L.key_val (show e.count < envMax by omega) (show j < envMax by omega)
      have hother := L.val_val (show j ≠ e.count by omega)
      exact ⟨holdsStr_of_val_row (holdsStr_of_key_row hs (by omega)) (by omega), hlen⟩
    · obtain rfl : j = l.length := by omega
      rw [List.getElem_concat_length rfl, ← hcount]
      exact ⟨tstrncpy_holdsStr _ _ hval, hval⟩

end Rows

/-! ## Calls one after the other -/

/-- One call, with a key shorter than its row: the pair is stored, or 16 other keys are and
nothing happens. -/
lemma tshEnvSet_step {L : Layout} {e : Env} {l : List (Str × Str)} (h : Represents L e l)
    {key val : Str} (hkey : key.length < envKeyLen) (hval : val.length < envValLen) :
    ((tshEnvSet L e key val).2 = 0 ∧ ∃ l', Represents L (tshEnvSet L e key val).1 l' ∧
      ∀ k v, (k, v) ∈ l' ↔ if k = key then v = val else (k, v) ∈ l) ∨
    (tshEnvSet L e key val = (e, -1) ∧ l.length = envMax ∧ key ∉ l.map Prod.fst) := by
  cases hf : findKey L e key with
  | some i =>
    obtain ⟨hi, rfl⟩ := h.findKey_some hf
    have hset : tshEnvSet L e l[i].1 val =
      ({ e with mem := tstrncpy e.mem (L.val i) val.1 envValLen }, 0) := by
      rw [tshEnvSet, hf]
    rw [hset]
    exact Or.inl ⟨rfl, _, h.setVal hi hval, fun k v => h.mem_setVal hi⟩
  | none =>
    have hnew := h.findKey_none hf
    have hcount := h.count
    by_cases hfull : envMax ≤ e.count
    · refine Or.inr ⟨?_, le_antisymm h.bound (hcount ▸ hfull), hnew⟩
      rw [tshEnvSet, hf]
      exact if_pos hfull
    · have hset : tshEnvSet L e key val =
          (⟨tstrncpy (tstrncpy e.mem (L.key e.count) key.1 envKeyLen)
            (L.val e.count) val.1 envValLen, e.count + 1⟩, 0) := by
        rw [tshEnvSet, hf]
        exact if_neg hfull
      rw [hset]
      refine Or.inl ⟨rfl, _, h.append (by omega) hnew hkey hval, fun k v => ?_⟩
      rw [List.mem_append, List.mem_singleton, Prod.mk.injEq]
      split_ifs with hk
      · subst hk
        exact ⟨fun hor => hor.elim (fun hmem => absurd (List.mem_map.mpr ⟨_, hmem, rfl⟩) hnew)
          And.right, fun hv => Or.inr ⟨rfl, hv⟩⟩
      · exact ⟨fun hor => hor.elim id fun heq => absurd heq.1 hk, Or.inl⟩

/-- What the `set` command can pass. -/
def Passable (c : Str × Str) : Prop := c.1.length + c.2.length ≤ 126

lemma Passable.val_lt {key val : Str} (h : Passable (key, val)) : val.length < envValLen := by
  have hsum : key.length + val.length ≤ 126 := h
  unfold envValLen
  omega

lemma setAll_represents {L : Layout} (calls : List (Str × Str)) {e : Env} {l : List (Str × Str)}
    (h : Represents L e l) (hcalls : ∀ c ∈ calls, Passable c ∧ c.1.length < envKeyLen) :
    ∃ l', Represents L (setAll L e calls) l' := by
  induction calls generalizing e l with
  | nil => exact ⟨l, h⟩
  | cons c calls ih =>
    obtain ⟨hpass, hkey⟩ := hcalls c List.mem_cons_self
    have hrest := fun d hd => hcalls d (List.mem_cons_of_mem c hd)
    rcases tshEnvSet_step h hkey hpass.val_lt with ⟨-, l', hl', -⟩ | ⟨hfull, -, -⟩
    · exact ih hl' hrest
    · have hsame : Represents L (tshEnvSet L e c.1 c.2).1 l := by
        rw [hfull]
        exact h
      exact ih hsame hrest

/-- While every key is shorter than its row the environment is a finite map of at most 16 keys. -/
theorem tshEnvSet_finite_map (L : Layout) (e₀ : Env) (h0 : e₀.count = 0) (calls : List (Str × Str))
    (key val : Str) (hcalls : ∀ c ∈ (key, val) :: calls, Passable c ∧ c.1.length < envKeyLen) :
    ((tshEnvSet L (setAll L e₀ calls) key val).2 = 0 ∧
      envValue L (tshEnvSet L (setAll L e₀ calls) key val).1 key = some val.1 ∧
      ∀ k ≠ key, envValue L (tshEnvSet L (setAll L e₀ calls) key val).1 k =
        envValue L (setAll L e₀ calls) k) ∨
    (tshEnvSet L (setAll L e₀ calls) key val = (setAll L e₀ calls, -1) ∧
      envValue L (setAll L e₀ calls) key = none ∧
      ∃ stored : Finset Str, stored.card = envMax ∧ ∀ k, k ∈ stored ↔
        envValue L (setAll L e₀ calls) k ≠ none) := by
  obtain ⟨hpass, hkey⟩ := hcalls (key, val) List.mem_cons_self
  obtain ⟨l, hl⟩ := setAll_represents calls (represents_nil (L := L) h0) fun c hc =>
    hcalls c (List.mem_cons_of_mem _ hc)
  generalize setAll L e₀ calls = e at hl
  rcases tshEnvSet_step hl hkey hpass.val_lt with ⟨hret, l', hl', hmem⟩ | ⟨hret, hfull, hnew⟩
  · refine Or.inl ⟨hret, hl'.envValue_eq_some_iff.mpr ⟨val, rfl,
      (hmem key val).mpr (by rw [if_pos rfl])⟩, ?_⟩
    intro k hk
    refine Option.ext fun v => ?_
    simp only [hl'.envValue_eq_some_iff, hl.envValue_eq_some_iff, hmem, if_neg hk]
  · refine Or.inr ⟨hret, hl.envValue_eq_none_iff.mpr hnew, (l.map Prod.fst).toFinset, ?_,
      fun k => ?_⟩
    · rw [List.toFinset_card_of_nodup hl.distinct, List.length_map, hfull]
    · rw [List.mem_toFinset, ne_eq, hl.envValue_eq_none_iff, not_not]

/-- The arrays next to each other. -/
def tableLayout : Layout := ⟨0, 512, Or.inl (by decide)⟩

def emptyEnv : Env := ⟨fun _ => 0, 0⟩

/-- A string of `n` letters. -/
def letters (n : ℕ) : Str :=
  ⟨List.replicate n 65, fun h => absurd (List.eq_of_mem_replicate h) (by decide)⟩

theorem tshEnvSet_first_call :
    Passable (letters 31, letters 2) ∧
      envValue tableLayout (tshEnvSet tableLayout emptyEnv (letters 31)
        (letters 2)).1 (letters 31) = some [65, 65] := by
  have hcalls : ∀ c ∈ [(letters 31, letters 2)], Passable c ∧ c.1.length < envKeyLen :=
    fun c hc => by
    rw [List.mem_singleton.mp hc]
    exact ⟨by unfold Passable; decide, by decide⟩
  refine ⟨(hcalls _ (List.mem_singleton_self _)).1, ?_⟩
  rcases tshEnvSet_finite_map tableLayout emptyEnv rfl [] (letters 31) (letters 2) hcalls with h | h
  · exact h.2.1
  · exact absurd (congrArg Prod.snd h.1) (by decide)

/-- Of a key with 40 bytes 32 are stored, and no lookup finds it. -/
theorem long_key_is_lost :
    Passable (letters 40, letters 1) ∧ (tshEnvSet tableLayout emptyEnv (letters 40) (letters 1)).2 =
      0 ∧
      envValue tableLayout (tshEnvSet tableLayout emptyEnv (letters 40)
        (letters 1)).1 (letters 40) = none := by
  refine ⟨?_, by decide, by decide⟩
  unfold Passable
  decide

end TraitOS.Tsh
