import TraitOS.TfsView
import TraitOS.Ttarfs
import Mathlib.Data.List.GetD

/-!
# Unpacking what was packed

A list of entries, its encoding as a ustar archive, and the tree that unpacking the
archive leaves. The archive is read member by member; each member adds its path and the
directories above it to the view of the tree.
-/
namespace TraitOS.Ttarfs
open Tfs

/-! ## Archives -/

/-- A directory, or a file with its content. -/
structure Entry where
  path : List Name
  content : Option (List UInt8)
deriving DecidableEq, Repr

def Entry.kind (e : Entry) : Kind := e.content.elim .dir .file
def Entry.data (e : Entry) : List UInt8 := e.content.getD []

/-- A number as a fixed count of octal digits. -/
def octalDigits : ℕ → ℕ → List UInt8
  | 0, _ => []
  | n + 1, v => octalDigits n (v / 8) ++ [UInt8.ofNat (48 + v % 8)]

/-- The header of a member. The fields that `tfs_unpack_tar` does not read are arbitrary. -/
def headerByte (other : ℕ → UInt8) (e : Entry) (i : ℕ) : UInt8 :=
  if i < 100 then (joinPath e.path).getD i 0
  else if 124 ≤ i ∧ i < 136 then (octalDigits 11 e.data.length ++ [0]).getD (i - 124) 0
  else if i = 156 then if e.content.isSome then 48 else 53
  else if 345 ≤ i ∧ i < 500 then 0
  else other i

def padding (n : ℕ) : ℕ := (512 - n % 512) % 512

def encodeMember (other : ℕ → UInt8) (e : Entry) : List UInt8 :=
  (List.range 512).map (headerByte other e) ++ (e.data ++ List.replicate (padding e.data.length) 0)

def encodeMembers (other : Entry → ℕ → UInt8) (es : List Entry) : List UInt8 :=
  es.flatMap fun e => encodeMember (other e) e

def encodeTar (other : Entry → ℕ → UInt8) (es : List Entry) : List UInt8 :=
  encodeMembers other es ++ List.replicate 512 0

/-- An entry that fits a header. -/
structure Packable (e : Entry) : Prop where
  nonempty : e.path ≠ []
  components : ∀ x ∈ e.path, Component x ∧ 0 ∉ x
  short : (joinPath e.path).length ≤ 99
  size : e.data.length < 8 ^ 11

/-- The entries that can be packed: their paths are different, and what is above another
path is a directory. -/
structure Archivable (es : List Entry) : Prop where
  packable : ∀ e ∈ es, Packable e
  distinct : (es.map Entry.path).Nodup
  above : ∀ e ∈ es, ∀ e' ∈ es, e.path <+: e'.path → e.path ≠ e'.path → e.content = none

def archiveOf (l : List UInt8) : Archive := fun i => l.getD i 0

/-! ## Reading a member -/

lemma octalDigits_length (n v : ℕ) : (octalDigits n v).length = n := by
  induction n generalizing v with
  | zero => rfl
  | succ n ih => simp [octalDigits, ih]

lemma octalValue_append (n : ℕ) :
    ∀ {acc v : ℕ} {rest : List UInt8}, v < 8 ^ n → acc * 8 ^ n + v < 2 ^ 64 →
    octalValue acc (octalDigits n v ++ rest) = octalValue (acc * 8 ^ n + v) rest := by
  induction n with
  | zero =>
    intro acc v rest hv _
    simp only [pow_zero, Nat.lt_one_iff] at hv
    simp [octalDigits, hv]
  | succ n ih =>
    intro acc v rest hv hlt
    have hdiv : v / 8 < 8 ^ n := by
      rw [pow_succ] at hv
      omega
    have hsplit : acc * 8 ^ (n + 1) + v = (acc * 8 ^ n + v / 8) * 8 + v % 8 := by
      rw [pow_succ]
      have := Nat.div_add_mod v 8
      ring_nf
      omega
    have hdigit : (UInt8.ofNat (48 + v % 8)).toNat = 48 + v % 8 := by
      rw [UInt8.toNat_ofNat']
      omega
    have hnot : ¬ (UInt8.ofNat (48 + v % 8) < 48 ∨ 55 < UInt8.ofNat (48 + v % 8)) := by
      rw [UInt8.lt_iff_toNat_lt, UInt8.lt_iff_toNat_lt, hdigit]
      simp
      omega
    rw [octalDigits, List.append_assoc, ih hdiv (by omega), List.singleton_append, octalValue,
      if_neg hnot, hdigit, Nat.shiftLeft_eq, hsplit]
    congr 1
    rw [Nat.mod_eq_of_lt (by omega)]
    omega

lemma cstr_eq {tar : Archive} {l : List UInt8} (h0 : 0 ∉ l) : ∀ {off n : ℕ},
    (∀ i (hi : i < l.length), byteAt tar (off + i) = l[i]) → byteAt tar (off + l.length) = 0 →
      l.length < n → cstr tar off n = l := by
  induction l with
  | nil =>
    intro off n _ hend hn
    obtain ⟨n, rfl⟩ : ∃ k, n = k + 1 := ⟨n - 1, by simp at hn; omega⟩
    simp only [List.length_nil, Nat.add_zero] at hend
    simp [cstr, hend]
  | cons c l ih =>
    intro off n hb hend hn
    obtain ⟨n, rfl⟩ : ∃ k, n = k + 1 := ⟨n - 1, by simp at hn; omega⟩
    obtain ⟨hc, h0⟩ := not_or.mp (List.mem_cons.not.mp h0)
    have hfirst : byteAt tar off = c := hb 0 (by simp)
    have hrest := @ih h0 (off + 1) n (fun i hi => by
      have := hb (i + 1) (by simpa using hi)
      rw [show off + 1 + i = off + (i + 1) by omega, this]
      rfl) (by rw [show off + 1 + l.length = off + (l.length + 1) by omega]; simpa using hend)
      (by simp at hn; omega)
    rw [cstr, hfirst, if_neg (Ne.symm hc), hrest]

/-- A path ends in the last byte of its last component. -/
lemma joinPath_spec {p : List Name} (hne : p ≠ []) (hok : ∀ x ∈ p, NameOk x) :
    ∃ front last, joinPath p = front ++ [last] ∧ last ≠ slash := by
  induction p with
  | nil => exact absurd rfl hne
  | cons x rest ih =>
    cases rest with
    | nil =>
      obtain ⟨hx, hplain, _⟩ := hok x List.mem_cons_self
      refine ⟨x.dropLast, x.getLast hx, (List.dropLast_append_getLast hx).symm,
        fun heq => hplain ?_⟩
      exact heq ▸ List.getLast_mem hx
    | cons y rest =>
      obtain ⟨front, last, heq, hlast⟩ := ih (by simp) fun z hz => hok z (List.mem_cons_of_mem _ hz)
      exact ⟨x ++ slash :: front, last, by simp [joinPath, heq], hlast⟩

lemma zero_notMem_joinPath {p : List Name} (h : ∀ x ∈ p, 0 ∉ x) : 0 ∉ joinPath p := by
  induction p with
  | nil => simp [joinPath]
  | cons x rest ih =>
    have hx := h x List.mem_cons_self
    cases rest with
    | nil => simpa [joinPath] using hx
    | cons y rest =>
      have := ih fun z hz => h z (List.mem_cons_of_mem _ hz)
      simp [joinPath, hx, this, slash]

/-- A path has no slash to strip. -/
lemma stripTrailingSlash_eq {l front : List UInt8} {last : UInt8} (hl : l = front ++ [last])
    (hlast : last ≠ slash) : stripTrailingSlash l = l := by
  subst hl
  cases front with
  | nil => simp [stripTrailingSlash]
  | cons c front =>
    have : (last == slash) = false := by simpa using hlast
    simp [stripTrailingSlash, this]

section Member
variable {other : ℕ → UInt8} {e : Entry} {pre post : List UInt8}

/-- The bytes of a member inside an archive. -/
lemma byteAt_member (hlen : (pre ++ encodeMember other e ++ post).length < 2 ^ 64) {i : ℕ}
    (hi : i < (encodeMember other e).length) :
    byteAt (archiveOf (pre ++ encodeMember other e ++ post)) (pre.length + i) =
      (encodeMember other e).getD i 0 := by
  have hsum : pre.length + i < 2 ^ 64 := by
    simp only [List.length_append] at hlen
    omega
  unfold byteAt archiveOf
  rw [Nat.mod_eq_of_lt hsum, List.append_assoc, List.getD_append_right _ _ _ _ (by omega),
    Nat.add_sub_cancel_left, List.getD_append _ _ _ _ hi]

lemma encodeMember_length : (encodeMember other e).length =
    512 + e.data.length + padding e.data.length := by
  simp [encodeMember]
  omega

lemma byteAt_header (hlen : (pre ++ encodeMember other e ++ post).length < 2 ^ 64) {i : ℕ}
    (hi : i < 512) :
    byteAt (archiveOf (pre ++ encodeMember other e ++ post)) (pre.length + i) =
      headerByte other e i := by
  rw [byteAt_member hlen (by rw [encodeMember_length]; omega)]
  unfold encodeMember
  rw [List.getD_append _ _ _ _ (by simpa using hi)]
  simp [List.getD_eq_getElem?_getD, hi]

lemma byteAt_data (hlen : (pre ++ encodeMember other e ++ post).length < 2 ^ 64) {i : ℕ}
    (hi : i < e.data.length) :
    byteAt (archiveOf (pre ++ encodeMember other e ++ post)) (pre.length + 512 + i) =
      e.data.getD i 0 := by
  rw [Nat.add_assoc, byteAt_member hlen (by rw [encodeMember_length]; omega)]
  unfold encodeMember
  rw [List.getD_append_right _ _ _ _ (by simp), List.getD_append]
  · simp
  · simpa using hi

lemma bytes_data (hlen : (pre ++ encodeMember other e ++ post).length < 2 ^ 64) :
    bytes (archiveOf (pre ++ encodeMember other e ++ post)) (pre.length + 512) e.data.length =
      e.data := by
  refine List.ext_getElem (by simp [bytes]) fun i hi hi' => ?_
  simp only [bytes, List.getElem_map, List.getElem_range]
  rw [byteAt_data hlen hi', List.getD_eq_getElem _ _ hi']

lemma Packable.names (h : Packable e) : ∀ x ∈ e.path, NameOk x :=
  fun x hx => (h.components x hx).1.toNameOk

lemma memberName_eq (h : Packable e) (spill : ℕ → List UInt8)
    (hlen : (pre ++ encodeMember other e ++ post).length < 2 ^ 64) :
    memberName (archiveOf (pre ++ encodeMember other e ++ post)) spill pre.length =
      joinPath e.path := by
  have hshort := h.short
  have hname : cstr (archiveOf (pre ++ encodeMember other e ++ post)) pre.length 128 =
    joinPath e.path := by
    refine cstr_eq (zero_notMem_joinPath fun x hx => (h.components x hx).2)
      (fun i hi => ?_) ?_ (by omega)
    · rw [byteAt_header hlen (by omega), headerByte, if_pos (by omega), List.getD_eq_getElem _ _ hi]
    · rw [byteAt_header hlen (by omega), headerByte, if_pos (by omega),
        List.getD_eq_default _ _ le_rfl]
  have hprefix : byteAt (archiveOf (pre ++ encodeMember other e ++ post)) (pre.length + 345) =
    0 := by
    rw [byteAt_header hlen (by omega)]
    simp [headerByte]
  obtain ⟨front, last, heq, hlast⟩ := joinPath_spec h.nonempty h.names
  unfold memberName
  rw [if_neg (not_not.mpr hprefix), hname, if_neg (by omega)]
  exact stripTrailingSlash_eq heq hlast

lemma bytes_size (hlen : (pre ++ encodeMember other e ++ post).length < 2 ^ 64) :
    bytes (archiveOf (pre ++ encodeMember other e ++ post)) (pre.length + 124) 12 =
      octalDigits 11 e.data.length ++ [0] := by
  refine List.ext_getElem (by simp [bytes, octalDigits_length]) fun i hi hi' => ?_
  have hi12 : i < 12 := by simpa [bytes] using hi
  simp only [bytes, List.getElem_map, List.getElem_range]
  rw [Nat.add_assoc, byteAt_header hlen (by omega), headerByte, if_neg (by omega),
    if_pos (by omega), Nat.add_sub_cancel_left, List.getD_eq_getElem _ _ hi']

lemma tarSize_eq (h : Packable e) (hlen : (pre ++ encodeMember other e ++ post).length < 2 ^ 64) :
    tarSize (archiveOf (pre ++ encodeMember other e ++ post)) pre.length = e.data.length := by
  have hsize := h.size
  unfold tarSize
  rw [bytes_size hlen]
  obtain ⟨c, cs, hcs⟩ : ∃ c cs, octalDigits 11 e.data.length ++ [0] = c :: cs :=
    List.exists_cons_of_ne_nil (by simp)
  have hdigit : c &&& 0x80 = 0 := by
    have hmem : ∀ n v, ∀ d ∈ octalDigits n v, d &&& 0x80 = 0 := by
      intro n
      induction n with
      | zero => exact fun v d hd => nomatch hd
      | succ n ih =>
        intro v d hd
        rcases List.mem_append.mp hd with hd | hd
        · exact ih _ d hd
        · rw [List.mem_singleton.mp hd]
          have hlt : v % 8 < 8 := Nat.mod_lt _ (by decide)
          generalize v % 8 = r at hlt
          interval_cases r <;> decide
    have hc : c ∈ octalDigits 11 e.data.length ++ [0] := hcs ▸ List.mem_cons_self
    rcases List.mem_append.mp hc with hc | hc
    · exact hmem _ _ c hc
    · rw [List.mem_singleton.mp hc]
      decide
  rw [hcs, tarField, if_neg (by simp [hdigit]), ← hcs, octalValue_append 11 (by simpa using hsize)
    (by omega)]
  simp [octalValue]

lemma tarNext_eq (h : Packable e) (hlen : (pre ++ encodeMember other e ++ post).length < 2 ^ 64) :
    tarNext (archiveOf (pre ++ encodeMember other e ++ post)) pre.length =
      (pre ++ encodeMember other e).length := by
  have hsize := h.size
  unfold tarNext records
  rw [tarSize_eq h hlen, List.length_append, encodeMember_length]
  rw [List.length_append, List.length_append, encodeMember_length] at hlen
  unfold padding at *
  omega

lemma atHeader_member (h : Packable e)
    (hlen : (pre ++ encodeMember other e ++ post).length < 2 ^ 64) :
    atHeader (archiveOf (pre ++ encodeMember other e ++ post)) (pre ++ encodeMember other e ++
      post).length
      pre.length = true := by
  obtain ⟨front, last, heq, _⟩ := joinPath_spec h.nonempty h.names
  have hpos : 0 < (joinPath e.path).length := by simp [heq]
  have hfirst : byteAt (archiveOf (pre ++ encodeMember other e ++ post)) pre.length ≠ 0 := by
    have := byteAt_header hlen (show 0 < 512 by decide)
    rw [Nat.add_zero, headerByte, if_pos (by decide), List.getD_eq_getElem _ _ hpos] at this
    rw [this]
    exact fun h0 => zero_notMem_joinPath (fun x hx => (h.components x hx).2)
      (h0 ▸ List.getElem_mem hpos)
  have hroom : (pre.length + 512) % 2 ^ 64 ≤ (pre ++ encodeMember other e ++ post).length := by
    simp only [List.length_append, encodeMember_length] at hlen ⊢
    omega
  exact decide_eq_true ⟨hroom, hfirst⟩

end Member

/-! ## The tree of a list of entries -/

/-- A view that has the entries and the directories above them, and nothing else. -/
structure Describes (es : List Entry) (v : List Name → Option Kind) : Prop where
  listed : ∀ e ∈ es, v e.path = some e.kind
  implied : ∀ q, (∀ e ∈ es, e.path ≠ q) → (q = [] ∨ ∃ e ∈ es, q <+: e.path) → v q = some .dir
  nothing : ∀ q, q ≠ [] → (∀ e ∈ es, ¬ q <+: e.path) → v q = none

/-- One more entry, with the directories above it filled in. -/
lemma Describes.add {es : List Entry} {v v' : List Name → Option Kind} (h : Describes es v)
    {e : Entry} (hnew : ∀ e' ∈ es, e'.path ≠ e.path) (hne : e.path ≠ [])
    (hv' : ∀ q, v' q = if q = e.path then some e.kind else fillDirs v e.path.dropLast q) :
    Describes (es ++ [e]) v' := by
  have hold : ∀ q, q ≠ e.path → v q ≠ none → v' q = v q := by
    intro q hq hsome
    rw [hv', if_neg hq, fillDirs, if_neg fun hc => hsome hc.2]
  refine ⟨fun e' he' => ?_, fun q hq hor => ?_, fun q hq hno => ?_⟩
  · rcases List.mem_append.mp he' with he' | he'
    · have hl := h.listed e' he'
      rw [hold _ (hnew e' he') (by rw [hl]; exact Option.some_ne_none _), hl]
    · rw [List.mem_singleton.mp he', hv', if_pos rfl]
  · have hqe : q ≠ e.path := fun heq => hq e (by simp) heq.symm
    have hqold : ∀ e' ∈ es, e'.path ≠ q := fun e' he' => hq e' (List.mem_append_left _ he')
    by_cases hprev : q = [] ∨ ∃ e' ∈ es, q <+: e'.path
    · have hd := h.implied q hqold hprev
      rw [hold q hqe (by rw [hd]; exact Option.some_ne_none _), hd]
    · -- a directory that only the new entry needs
      obtain ⟨hnil, hnone⟩ := not_or.mp hprev
      have hv : v q = none := h.nothing q hnil fun e' he' hp => hnone ⟨e', he', hp⟩
      obtain ⟨e', he', hp⟩ := hor.resolve_left hnil
      rcases List.mem_append.mp he' with he' | he'
      · exact absurd ⟨e', he', hp⟩ hnone
      · rw [List.mem_singleton.mp he'] at hp
        have hdrop : q <+: e.path.dropLast := by
          rw [← List.dropLast_append_getLast hne] at hp hqe
          exact (List.prefix_concat_iff.mp hp).resolve_left hqe
        rw [hv', if_neg hqe, fillDirs, if_pos ⟨hdrop, hv⟩]
  · have hqe : ¬ q <+: e.path := hno e (by simp)
    have hdrop : ¬ q <+: e.path.dropLast := fun hp => hqe (hp.trans (List.dropLast_prefix _))
    have hne' : q ≠ e.path := fun heq => hqe (heq ▸ List.prefix_rfl)
    rw [hv', if_neg hne', fillDirs, if_neg fun hc => hdrop hc.1]
    exact h.nothing q hq fun e' he' => hno e' (List.mem_append_left _ he')

/-- Above the path of the next entry there are directories at most. -/
lemma Describes.noFileAbove {es : List Entry} {v : List Name → Option Kind} (h : Describes es v)
    {e : Entry} (habove : ∀ e' ∈ es, e'.path <+: e.path → e'.path ≠ e.path → e'.content = none) :
    NoFileAbove v e.path := by
  intro q r hr hqr
  have hpre : q <+: e.path := ⟨r, hqr⟩
  have hqe : q ≠ e.path := by
    intro heq
    rw [← heq] at hqr
    exact hr (List.append_right_eq_self.mp hqr)
  by_cases hlisted : ∃ e' ∈ es, e'.path = q
  · obtain ⟨e', he', rfl⟩ := hlisted
    rw [h.listed e' he', Entry.kind, habove e' he' hpre hqe]
    exact Or.inr rfl
  · have hno : ∀ e' ∈ es, e'.path ≠ q := fun e' he' heq => hlisted ⟨e', he', heq⟩
    by_cases hor : q = [] ∨ ∃ e' ∈ es, q <+: e'.path
    · exact Or.inr (h.implied q hno hor)
    · obtain ⟨hnil, hnone⟩ := not_or.mp hor
      exact Or.inl (h.nothing q hnil fun e' he' hp => hnone ⟨e', he', hp⟩)

/-- Unpacking one member adds its entry to the tree. -/
theorem unpackMember_describes {s : Ramfs} (hl : Linked s) (hf : Fresh s) {es : List Entry}
    {e : Entry} (hdesc : Describes es (view s)) (he : Packable e)
    (hnew : ∀ e' ∈ es, e'.path ≠ e.path)
    (habove : ∀ e' ∈ es, e'.path <+: e.path → e'.path ≠ e.path → e'.content = none)
    (hbelow : ∀ e' ∈ es, e.path <+: e'.path → e.path ≠ e'.path → e.content = none)
    {other : ℕ → UInt8} {pre post : List UInt8} (spill : ℕ → List UInt8)
    (hlen : (pre ++ encodeMember other e ++ post).length < 2 ^ 64) :
    let s' := unpackMember s (archiveOf (pre ++ encodeMember other e ++ post)) spill pre.length
    Linked s' ∧ Fresh s' ∧ Describes (es ++ [e]) (view s') := by
  intro s'
  have hok : ∀ x ∈ e.path, Component x := fun x hx => (he.components x hx).1
  have hpath : joinPath e.path ≠ [] := by
    obtain ⟨front, last, heq, _⟩ := joinPath_spec he.nonempty he.names
    simp [heq]
  have hflag : byteAt (archiveOf (pre ++ encodeMember other e ++ post)) (pre.length + 156) =
      if e.content.isSome then 48 else 53 := by
    rw [byteAt_header hlen (by omega)]
    simp [headerByte]
  have hmake := fun dir => makeNode_view hl hf he.nonempty hok (hdesc.noFileAbove habove) dir
  have hs' : s' =
    unpackMember s (archiveOf (pre ++ encodeMember other e ++ post)) spill pre.length := rfl
  clear_value s'
  unfold unpackMember at hs'
  dsimp only at hs'
  rw [hflag, memberName_eq he spill hlen, tarSize_eq he hlen] at hs'
  cases hcontent : e.content with
  | none =>
    have hkind : e.kind = .dir := by simp [Entry.kind, hcontent]
    simp only [hcontent, Option.isSome_none, Bool.false_eq_true, if_false, if_true,
      if_neg hpath] at hs'
    rcases hmake true with ⟨hsome, heq⟩ | ⟨_, t, a, d, x, heq, hlt, hft, _, _, hv⟩
    · rw [tfsMkdir, heq] at hs'
      subst hs'
      refine ⟨hl, hf, hdesc.add hnew he.nonempty fun q => ?_⟩
      by_cases hq : q = e.path
      · have hor : e.path = [] ∨ ∃ e' ∈ es, e.path <+: e'.path := by
          by_contra hno
          obtain ⟨hnil, hnone⟩ := not_or.mp hno
          exact hsome (hdesc.nothing _ hnil fun e' he' hp => hnone ⟨e', he', hp⟩)
        rw [if_pos hq, hq, hkind]
        exact hdesc.implied _ hnew hor
      · rw [if_neg hq]
        refine (fillDirs_self hl ?_ q).symm
        rw [← List.dropLast_append_getLast he.nonempty] at hsome
        exact hl.view_of_append hsome
    · rw [tfsMkdir, heq] at hs'
      subst hs'
      refine ⟨hlt, hft, hdesc.add hnew he.nonempty fun q => ?_⟩
      rw [hv, hkind]
      rfl
  | some content =>
    have hdata : e.data = content := by simp [Entry.data, hcontent]
    have hkind : e.kind = .file content := by simp [Entry.kind, hcontent]
    simp only [hcontent, Option.isSome_some, if_true, if_neg hpath, hdata] at hs'
    -- a file is nowhere yet: not listed, and not above another entry
    have hnone : view s e.path = none := by
      refine hdesc.nothing _ he.nonempty fun e' he' hp => ?_
      have := hbelow e' he' hp (hnew e' he').symm
      exact nomatch hcontent.symm.trans this
    rcases hmake false with ⟨hsome, _⟩ | ⟨_, t, a, d, x, heq, hlt, hft, ha, hna, hv⟩
    · exact absurd hnone hsome
    · rw [tfsTouch, heq] at hs'
      simp only [show ¬ ((48 : UInt8) = 53) by decide, if_false, true_or, if_true] at hs'
      obtain ⟨hlw, hfw, hvw⟩ := tfsWrite_view hlt hft ha hna rfl content
      by_cases hsize : 0 < content.length
      · rw [if_pos hsize, show bytes _ (pre.length + 512) content.length =
          content from hdata ▸ bytes_data hlen] at hs'
        subst hs'
        refine ⟨hlw, hfw, hdesc.add hnew he.nonempty fun q => ?_⟩
        rw [hvw, hv, hkind]
        by_cases hq : q = e.path
        · rw [if_pos hq, if_pos hq]
        · rw [if_neg hq, if_neg hq, if_neg hq]
      · rw [if_neg hsize] at hs'
        subst hs'
        obtain rfl : content = [] := List.length_eq_zero_iff.mp (by omega)
        refine ⟨hlt, hft, hdesc.add hnew he.nonempty fun q => ?_⟩
        rw [hv, hkind]
        rfl

/-- The heap grants every call, each time at another address. -/
structure Generous (grants : ℕ → Option ℕ) : Prop where
  total : ∀ n, ∃ a, grants n = some a ∧ a ≠ 0 ∧ a ≠ root
  injective : ∀ m n, grants m = grants n → m = n

/-- The loop from the first member that is not yet unpacked. -/
lemma unpackFrom_describes {es : List Entry} (hes : Archivable es) (other : Entry → ℕ → UInt8)
    (spill : ℕ → List UInt8) (hlen : (encodeTar other es).length < 2 ^ 64) (rest : List Entry) :
    ∀ {fuel : ℕ} {s : Ramfs} {done : List Entry}, done ++ rest = es → rest.length < fuel →
      Linked s → Fresh s → Describes done (view s) →
      Describes es (view (unpackFrom (archiveOf (encodeTar other es))
        (encodeTar other es).length spill fuel s (encodeMembers other done).length)) := by
  induction rest with
  | nil =>
    intro fuel s done hdone hfuel hl hf hdesc
    obtain ⟨fuel, rfl⟩ : ∃ k, fuel = k + 1 := ⟨fuel - 1, by simp at hfuel; omega⟩
    rw [List.append_nil] at hdone
    subst hdone
    -- the block after the last member starts with a zero
    have hend : atHeader (archiveOf (encodeTar other done)) (encodeTar other done).length
        (encodeMembers other done).length = false := by
      have hlt : (encodeMembers other done).length < 2 ^ 64 := by
        unfold encodeTar at hlen
        rw [List.length_append] at hlen
        omega
      have hzero : byteAt (archiveOf (encodeTar other done)) (encodeMembers other done).length =
        0 := by
        unfold byteAt archiveOf encodeTar
        rw [Nat.mod_eq_of_lt hlt, List.getD_append_right _ _ _ _ le_rfl, Nat.sub_self]
        rfl
      simp [atHeader, hzero]
    rw [unpackFrom, if_neg (by rw [hend]; exact Bool.false_ne_true)]
    exact hdesc
  | cons e rest ih =>
    intro fuel s done hdone hfuel hl hf hdesc
    obtain ⟨fuel, rfl⟩ : ∃ k, fuel = k + 1 := ⟨fuel - 1, by simp at hfuel; omega⟩
    have hmem : e ∈ es := hdone ▸ List.mem_append_right _ List.mem_cons_self
    have hsub : ∀ e' ∈ done, e' ∈ es := fun e' he' => hdone ▸ List.mem_append_left _ he'
    have hnew : ∀ e' ∈ done, e'.path ≠ e.path := by
      intro e' he' heq
      have hnd := hes.distinct
      rw [← hdone, List.map_append, List.map_cons] at hnd
      exact (List.nodup_append.mp hnd).2.2 _ (List.mem_map_of_mem he') _ List.mem_cons_self heq
    have htar : encodeTar other es = encodeMembers other done ++ encodeMember (other e) e ++
        (encodeMembers other rest ++ List.replicate 512 0) := by
      rw [← hdone]
      simp only [encodeTar, encodeMembers, List.flatMap_append, List.flatMap_cons,
        List.append_assoc]
    have he := hes.packable e hmem
    obtain ⟨hl', hf', hdesc'⟩ := unpackMember_describes hl hf hdesc he hnew
      (fun e' he' hp hne => hes.above e' (hsub e' he') e hmem hp hne)
      (fun e' he' hp hne => hes.above e hmem e' (hsub e' he') hp hne) spill (htar ▸ hlen)
    have hnext : (encodeMembers other done ++ encodeMember (other e) e).length =
        (encodeMembers other (done ++ [e])).length := by
      simp [encodeMembers]
    rw [unpackFrom, htar, if_pos (atHeader_member he (htar ▸ hlen)), tarNext_eq he (htar ▸ hlen),
      hnext, ← htar]
    rw [← htar] at hl' hf' hdesc'
    exact ih (by simpa using hdone) (by simp at hfuel; omega) hl' hf' hdesc'

/-- The file `a/b` and, after it, the directory `a`. -/
def smallEntries : List Entry := [⟨[[97], [98]], some [1, 2, 3]⟩, ⟨[[97]], none⟩]

end TraitOS.Ttarfs
