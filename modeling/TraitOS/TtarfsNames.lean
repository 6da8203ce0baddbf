import TraitOS.TtarfsRoundTrip

/-!
# Names of a header

A header has a name of up to 100 bytes and a prefix of up to 155, each with a terminator only
if it does not fill its field. The path is built as if both had one, in a buffer of 128 bytes:
a name of 100 bytes goes on with the bytes of the next field, and a long path is cut.
-/
namespace TraitOS.Ttarfs
open Tfs

/-! ## Trailing slashes -/

lemma rdropWhile_append_all {s t : List UInt8} (h : ∀ c ∈ t, c = slash) :
    (s ++ t).rdropWhile (· == slash) = s.rdropWhile (· == slash) := by
  induction t generalizing s with
  | nil => rw [List.append_nil]
  | cons c t ih =>
    rw [List.append_cons, ih fun d hd => h d (List.mem_cons_of_mem c hd)]
    exact List.rdropWhile_concat_pos _ _ _ (beq_iff_eq.mpr (h c List.mem_cons_self))

lemma length_rdropWhile_append {s t : List UInt8} (h : ¬ ∀ c ∈ t, c = slash) :
    s.length < ((s ++ t).rdropWhile (· == slash)).length := by
  induction t generalizing s with
  | nil => exact absurd (fun c hc => absurd hc List.not_mem_nil) h
  | cons c t ih =>
    rw [List.append_cons]
    by_cases htail : ∀ d ∈ t, d = slash
    · have hc : c ≠ slash := fun hc => h fun d hd =>
        (List.mem_cons.mp hd).elim (fun hd => hd.trans hc) (htail d)
      rw [rdropWhile_append_all htail, List.rdropWhile_concat_neg _ _ _ (by simpa using hc),
        List.length_append]
      exact Nat.lt_succ_self _
    · have hlt := ih (s := s ++ [c]) htail
      rw [List.length_append, List.length_singleton] at hlt
      omega

lemma length_rdropWhile_le (s : List UInt8) : (s.rdropWhile (· == slash)).length ≤ s.length := by
  have hpre := List.rdropWhile_prefix (· == slash) s
  exact hpre.length_le

lemma length_strip_le (s : List UInt8) : (stripTrailingSlash s).length ≤ s.length := by
  cases s with
  | nil => exact le_rfl
  | cons c s => exact Nat.succ_le_succ (length_rdropWhile_le s)

/-- What is appended disappears exactly if it is slashes. -/
theorem strip_append_iff {s t : List UInt8} (hs : s ≠ []) :
    stripTrailingSlash (s ++ t) = stripTrailingSlash s ↔ ∀ c ∈ t, c = slash := by
  obtain ⟨c, s, rfl⟩ := List.exists_cons_of_ne_nil hs
  rw [List.cons_append, stripTrailingSlash, stripTrailingSlash, List.cons_inj_right]
  refine ⟨fun h => ?_, rdropWhile_append_all⟩
  by_contra hno
  have hlt := length_rdropWhile_append (s := s) hno
  rw [h] at hlt
  exact absurd hlt (not_lt.mpr (length_rdropWhile_le s))

/-- A path is its stripped form and slashes. -/
lemma exists_strip_append (s : List UInt8) : ∃ t, s = stripTrailingSlash s ++ t ∧
    ∀ c ∈ t, c = slash := by
  cases s with
  | nil => exact ⟨[], rfl, fun c hc => absurd hc List.not_mem_nil⟩
  | cons c s =>
    refine ⟨s.rtakeWhile (· == slash), ?_, fun d hd => ?_⟩
    · rw [stripTrailingSlash, List.cons_append, List.rdropWhile_append_rtakeWhile]
    · have hslash := List.mem_rtakeWhile_imp hd
      exact beq_iff_eq.mp hslash

/-- A path that is cut: it has to fit without its slashes, and what follows it up to the cut has
to be slashes. -/
theorem strip_take_iff {s t : List UInt8} {n : ℕ} (hs : s ≠ []) :
    stripTrailingSlash ((s ++ t).take n) = stripTrailingSlash s ↔
      (stripTrailingSlash s).length ≤ n ∧ ∀ c ∈ t.take (n - s.length), c = slash := by
  rw [List.take_append]
  by_cases hle : s.length ≤ n
  · have hshort := (length_strip_le s).trans hle
    rw [List.take_of_length_le hle, strip_append_iff hs]
    exact ⟨fun h => ⟨hshort, h⟩, And.right⟩
  · have hzero : n - s.length = 0 := by omega
    rw [hzero, List.take_zero, List.append_nil]
    refine ⟨fun h => ⟨?_, fun c hc => absurd hc List.not_mem_nil⟩, fun h => ?_⟩
    · rw [← h]
      exact (length_strip_le _).trans (List.length_take_le _ _)
    · obtain ⟨slashes, hsplit, hall⟩ := exists_strip_append s
      have hne : stripTrailingSlash s ≠ [] := by
        obtain ⟨c, s, rfl⟩ := List.exists_cons_of_ne_nil hs
        exact List.cons_ne_nil _ _
      have hcut : s.take n =
        stripTrailingSlash s ++ slashes.take (n - (stripTrailingSlash s).length) := by
        conv_lhs => rw [hsplit]
        rw [List.take_append, List.take_of_length_le h.1]
      rw [hcut, (strip_append_iff hne).mpr fun c hc => hall c (List.mem_of_mem_take hc)]
      exact ((strip_append_iff hne).mpr hall).symm.trans (by rw [← hsplit])

/-! ## The fields of a header -/

/-- A field of `size` bytes holds a text, with a terminator if there is room for one. -/
structure FieldHolds (tar : Archive) (off size : ℕ) (s : List UInt8) : Prop where
  fits : s.length ≤ size
  nonzero : 0 ∉ s
  bytes : ∀ (i : ℕ) (hi : i < s.length), byteAt tar (off + i) = s[i]
  terminated : s.length < size → byteAt tar (off + s.length) = 0

/-- The name and the prefix of the header at an offset. -/
structure UstarName (tar : Archive) (off : ℕ) (pre name : List UInt8) : Prop where
  nameField : FieldHolds tar off 100 name
  preField : FieldHolds tar (off + 345) 155 pre
  ne_nil : name ≠ []

/-- The path a header names. -/
def ustarPath (pre name : List UInt8) : List UInt8 :=
  stripTrailingSlash (if pre = [] then name else pre ++ slash :: name)

lemma cstr_of_zero {tar : Archive} {off : ℕ} (h : byteAt tar off = 0) (n : ℕ) : cstr tar off n =
    [] := by
  cases n with
  | zero => rfl
  | succ n => rw [cstr, if_pos h]

/-- A string read from a text goes on behind it. -/
lemma cstr_split {tar : Archive} {s : List UInt8} (h0 : 0 ∉ s) : ∀ {off n : ℕ},
    (∀ (i : ℕ) (hi : i < s.length), byteAt tar (off + i) = s[i]) →
      cstr tar off n = s.take n ++ cstr tar (off + s.length) (n - s.length) := by
  induction s with
  | nil =>
    intro off n _
    rw [List.take_nil, List.nil_append]
    rfl
  | cons c s ih =>
    intro off n hb
    obtain ⟨hc, h0⟩ := not_or.mp (List.mem_cons.not.mp h0)
    cases n with
    | zero => simp [cstr]
    | succ n =>
      have hfirst : byteAt tar off = c := hb 0 (Nat.zero_lt_succ _)
      have hrest := @ih h0 (off + 1) n fun i hi => by
        rw [Nat.add_assoc, Nat.add_comm 1 i]
        exact hb (i + 1) (Nat.succ_lt_succ hi)
      rw [cstr, hfirst, if_neg (Ne.symm hc), hrest, List.take_succ_cons, List.cons_append,
        List.length_cons, Nat.add_sub_add_right, Nat.add_assoc off, Nat.add_comm 1]

lemma FieldHolds.cstr_eq {tar : Archive} {off size n : ℕ} {s : List UInt8}
    (h : FieldHolds tar off size s) :
    cstr tar off n = s.take n ++ cstr tar (off + s.length) (n - s.length) :=
      cstr_split h.nonzero h.bytes

lemma cstr_take (tar : Archive) (off : ℕ) {k n : ℕ} (h : k ≤ n) : (cstr tar off n).take k =
    cstr tar off k := by
  induction n generalizing off k with
  | zero =>
    obtain rfl := Nat.le_zero.mp h
    rfl
  | succ n ih =>
    cases k with
    | zero => rw [List.take_zero, cstr]
    | succ k =>
      rw [cstr, cstr]
      split_ifs with h0
      · rfl
      · rw [List.take_succ_cons, ih _ (Nat.le_of_succ_le_succ h)]

/-- What the buffer holds behind a name without prefix. -/
def overrun (tar : Archive) (spill : ℕ → List UInt8) (off : ℕ) (name : List UInt8) : List UInt8 :=
  let rest := cstr tar (off + name.length) (128 - name.length)
  if rest.length = 128 - name.length then rest ++ spill off else rest

/-- The bytes read behind the name are slashes, and with a prefix the path fits the buffer. -/
def NameHonoured (tar : Archive) (spill : ℕ → List UInt8) (off : ℕ) (pre name : List UInt8) :
    Prop :=
  if pre = [] then ∀ c ∈ overrun tar spill off name, c = slash
  else (ustarPath pre name).length ≤ 127 ∧
    ∀ c ∈ cstr tar (off + name.length) (127 - (pre ++ slash :: name).length), c = slash

section Names
variable {tar : Archive} {spill : ℕ → List UInt8} {off : ℕ} {pre name : List UInt8}

lemma memberName_of_ne_nil (h : UstarName tar off pre name) (hpre : pre ≠ []) :
    memberName tar spill off = stripTrailingSlash
      ((pre ++ slash :: name ++ cstr tar (off + name.length) (127 - name.length)).take 127) := by
  have hpos : 0 < pre.length := List.length_pos_iff.mpr hpre
  have hfits := h.nameField.fits
  have hfirst : byteAt tar (off + 345) ≠ 0 := by
    have hbyte := h.preField.bytes 0 hpos
    rw [Nat.add_zero] at hbyte
    rw [hbyte]
    exact fun h0 => h.preField.nonzero (h0 ▸ List.getElem_mem hpos)
  -- a prefix that fills its field is longer than the buffer
  have hread : cstr tar (off + 345) 127 = pre.take 127 := by
    rw [h.preField.cstr_eq]
    by_cases hshort : pre.length < 155
    · rw [cstr_of_zero (h.preField.terminated hshort), List.append_nil]
    · rw [show 127 - pre.length = 0 by omega, cstr, List.append_nil]
  have hname : cstr tar off 127 = name ++ cstr tar (off + name.length) (127 - name.length) := by
    rw [h.nameField.cstr_eq, List.take_of_length_le (by omega)]
  have hcut (t : List UInt8) : (pre.take 127 ++ t).take 127 = (pre ++ t).take 127 := by
    rw [List.take_append, List.take_append, List.take_take, List.length_take, Nat.min_self]
    congr 2
    omega
  unfold memberName
  rw [if_pos hfirst, hread, hname, hcut, List.append_assoc, List.cons_append]

lemma memberName_of_nil (h : UstarName tar off [] name) :
    memberName tar spill off = stripTrailingSlash (name ++ overrun tar spill off name) := by
  have hzero : byteAt tar (off + 345) = 0 := h.preField.terminated (by decide)
  have hfits := h.nameField.fits
  have hread : cstr tar off 128 = name ++ cstr tar (off + name.length) (128 - name.length) := by
    rw [h.nameField.cstr_eq, List.take_of_length_le (by omega)]
  unfold memberName overrun
  rw [if_neg (not_not.mpr hzero), hread, List.length_append]
  dsimp only
  have hiff : name.length + (cstr tar (off + name.length) (128 - name.length)).length = 128 ↔
      (cstr tar (off + name.length) (128 - name.length)).length = 128 - name.length := by omega
  simp only [hiff]
  split_ifs
  · rw [List.append_assoc]
  · rfl

end Names

/-- What the loop does with the member at an offset, under a path. -/
def createMember (s : Ramfs) (tar : Archive) (off : ℕ) (full : List UInt8) : Ramfs :=
  let typeflag := byteAt tar (off + 156)
  let size := tarSize tar off
  if typeflag = 53 then if full = [] then s else (tfsMkdir s full).1
  else if typeflag = 48 ∨ typeflag = 0 then
    if full = [] then s
    else match tfsTouch s full with
      | (s, none) => s
      | (s, some f) => if 0 < size then (tfsWrite s f (bytes tar (off + 512) size)).1 else s
  else s

/-- The path of a member is the one its header names if and only if the bytes read behind the
name are slashes and, with a prefix, the path fits the buffer; the entry is created under it. -/
theorem memberName_eq_ustarPath_iff (tar : Archive) (spill : ℕ → List UInt8) (off : ℕ)
    (pre name : List UInt8) (h : UstarName tar off pre name) :
    (memberName tar spill off = ustarPath pre name ↔ NameHonoured tar spill off pre name) ∧
      ∀ s, unpackMember s tar spill off = createMember s tar off (memberName tar spill off) := by
  refine ⟨?_, fun s => rfl⟩
  unfold NameHonoured
  by_cases hpre : pre = []
  · subst hpre
    rw [if_pos rfl, memberName_of_nil h, ustarPath, if_pos rfl, strip_append_iff h.ne_nil]
  · have hfits := h.nameField.fits
    have hlen : (pre ++ slash :: name).length = pre.length + (name.length + 1) := List.length_append
    rw [if_neg hpre, memberName_of_ne_nil h hpre, ustarPath, if_neg hpre, strip_take_iff (by simp),
      cstr_take tar _ (by omega)]

/-- A header with a name of `n` letters, a mode field that starts with a digit, and no prefix. -/
def plainHeader (n : ℕ) : Archive := fun i => if i < n then 97 else if i = 100 then 48 else 0

lemma plainHeader_ustarName {n : ℕ} (hpos : 0 < n) (hn : n ≤ 100) :
    UstarName (plainHeader n) 0 [] (List.replicate n 97) := by
  have hlen : (List.replicate n (97 : UInt8)).length = n := List.length_replicate
  have hat (i : ℕ) (hi : i < 512) : byteAt (plainHeader n) (0 + i) = if i < n then 97
    else if i = 100 then 48 else 0 := by
    rw [Nat.zero_add, byteAt, Nat.mod_eq_of_lt (by omega), plainHeader]
  refine ⟨⟨by omega, fun h => absurd (List.eq_of_mem_replicate h) (by decide), fun i hi => ?_,
    fun hlt => ?_⟩,
    ⟨Nat.zero_le _, List.not_mem_nil, fun i hi => absurd hi (Nat.not_lt_zero i), fun _ => ?_⟩,
      fun h => ?_⟩
  · rw [hat i (by omega), if_pos (by omega), List.getElem_replicate]
  · rw [hat _ (by omega), if_neg (by omega), if_neg (by omega)]
  · have hpre := hat 345 (by omega)
    rw [if_neg (by omega), if_neg (by omega)] at hpre
    exact hpre
  · rw [h] at hlen
    exact absurd hlen hpos.ne

theorem short_name_honoured :
    memberName (plainHeader 5) (fun _ => []) 0 = ustarPath [] (List.replicate 5 97) :=
  (memberName_eq_ustarPath_iff (plainHeader 5) (fun _ => []) 0 [] (List.replicate 5 97)
    (plainHeader_ustarName (by decide) (by decide))).1.mpr (by unfold NameHonoured; decide +kernel)

/-- A name of 100 letters goes on with the mode field. -/
theorem full_name_runs_on :
    UstarName (plainHeader 100) 0 [] (List.replicate 100 97) ∧
      memberName (plainHeader 100) (fun _ => []) 0 ≠ ustarPath [] (List.replicate 100 97) :=
  ⟨plainHeader_ustarName (by decide) (by decide), by decide +kernel⟩

end TraitOS.Ttarfs
