import TraitOS.ReadLog
import TraitOS.TtarfsNames

/-!
# The bytes the unpacker reads

The loop of `tfs_unpack_tar` again, with the index of every byte of the archive it reads. It
checks that a header lies in the archive; that the strings of a header end there and that the
data behind it does it does not check.
-/
namespace TraitOS.Ttarfs
open Tfs ReadLog

/-! ## The loop with its reads -/

abbrev Reading (α : Type) := Logged Empty α

def readByte (tar : Archive) (off : ℕ) : Reading UInt8 := Logged.read tar (off % 2 ^ 64)

def readBytes (tar : Archive) (off : ℕ) : ℕ → Reading (List UInt8)
  | 0 => pure []
  | n + 1 => do
    let c ← readByte tar off
    let cs ← readBytes tar (off + 1) n
    return c :: cs

def readOctal (tar : Archive) (off v : ℕ) : ℕ → Reading ℕ
  | 0 => pure v
  | n + 1 => do
    let c ← readByte tar off
    if c < 48 ∨ 55 < c then return v
    else readOctal tar (off + 1) (((v <<< 3) + (c.toNat - 48)) % 2 ^ 64) n

/-- `tar_field` on a field of `n + 1` bytes. -/
def readField (tar : Archive) (off n : ℕ) : Reading ℕ := do
  let c ← readByte tar off
  if c &&& 0x80 ≠ 0 then
    let cs ← readBytes tar (off + 1) n
    return base256Value (c &&& 0x7F).toNat cs
  else readOctal tar off 0 (n + 1)

/-- A string, read up to its terminator or to `n` bytes. -/
def readString (tar : Archive) (off : ℕ) : ℕ → Reading (List UInt8)
  | 0 => pure []
  | n + 1 => do
    let c ← readByte tar off
    if c = 0 then return []
    else
      let cs ← readString tar (off + 1) n
      return c :: cs

/-- The path of a member. Printing reads both strings to their ends, copying reads 128 bytes. -/
def readName (tar : Archive) (spill : ℕ → List UInt8) (off : ℕ) : Reading (List UInt8) := do
  let first ← readByte tar (off + 345)
  if first ≠ 0 then
    let pre ← readString tar (off + 345) (2 ^ 64)
    let name ← readString tar off (2 ^ 64)
    return stripTrailingSlash ((pre ++ slash :: name).take 127)
  else
    let name ← readString tar off 128
    return stripTrailingSlash (if name.length = 128 then name ++ spill off else name)

/-- `tfs_write` of at least one byte: the data is read once there is memory for it. -/
def readData (s : Ramfs) (node : ℕ) (tar : Archive) (off size : ℕ) : Reading Ramfs :=
  match s.nodes node with
  | none => pure s
  | some n =>
    if n.dir then pure s
    else match s.tmalloc with
      | (s, none) => pure s
      | (s, some _) => do
        let data ← readBytes tar off size
        return s.set node { n with data := data }

def readMember (s : Ramfs) (tar : Archive) (spill : ℕ → List UInt8) (off : ℕ) : Reading Ramfs := do
  let typeflag ← readByte tar (off + 156)
  let size ← readField tar (off + 124) 11
  let full ← readName tar spill off
  if typeflag = 53 then return if full = [] then s else (tfsMkdir s full).1
  else if typeflag = 48 ∨ typeflag = 0 then
    if full = [] then return s
    else match tfsTouch s full with
      | (s, none) => return s
      | (s, some f) => if 0 < size then readData s f tar (off + 512) size else return s
  else return s

def readFrom (tar : Archive) (len : ℕ) (spill : ℕ → List UInt8) : ℕ → Ramfs → ℕ → Reading Ramfs
  | 0, s, _ => pure s
  | fuel + 1, s, off =>
    if (off + 512) % 2 ^ 64 ≤ len then do
      let c ← readByte tar off
      if c = 0 then return s
      else
        let s ← readMember s tar spill off
        readFrom tar len spill fuel s (tarNext tar off)
    else pure s

/-! ## Without the reads it is the loop -/

lemma bytes_succ (tar : Archive) (off n : ℕ) : bytes tar off (n + 1) =
    byteAt tar off :: bytes tar (off + 1) n := by
  unfold bytes
  rw [List.range_succ_eq_map, List.map_cons, List.map_map]
  refine congrArg _ (List.map_congr_left fun i _ => ?_)
  rw [Function.comp_apply, Nat.succ_eq_add_one, Nat.add_assoc, Nat.add_comm 1 i]

@[simp] lemma result_readByte (tar : Archive) (off : ℕ) : (readByte tar off).result =
    .ok (byteAt tar off) := rfl

lemma result_readBytes (tar : Archive) (off n : ℕ) : (readBytes tar off n).result =
    .ok (bytes tar off n) := by
  induction n generalizing off with
  | zero => rfl
  | succ n ih =>
    rw [readBytes, Logged.result_bind_ok (result_readByte tar off),
      Logged.result_bind_ok (ih (off + 1)), bytes_succ]
    rfl

lemma result_readOctal (tar : Archive) (off v n : ℕ) :
    (readOctal tar off v n).result = .ok (octalValue v (bytes tar off n)) := by
  induction n generalizing off v with
  | zero => rfl
  | succ n ih =>
    rw [readOctal, Logged.result_bind_ok (result_readByte tar off), bytes_succ, octalValue]
    split_ifs
    · rfl
    · exact ih _ _

lemma result_readField (tar : Archive) (off n : ℕ) :
    (readField tar off n).result = .ok (tarField (bytes tar off (n + 1))) := by
  rw [readField, Logged.result_bind_ok (result_readByte tar off), bytes_succ, tarField]
  split_ifs
  · rw [Logged.result_bind_ok (result_readBytes tar _ n)]
    rfl
  · rw [← bytes_succ]
    exact result_readOctal _ _ _ _

lemma result_readString (tar : Archive) (off n : ℕ) : (readString tar off n).result =
    .ok (cstr tar off n) := by
  induction n generalizing off with
  | zero => rfl
  | succ n ih =>
    rw [readString, Logged.result_bind_ok (result_readByte tar off), cstr]
    split_ifs
    · rfl
    · rw [Logged.result_bind_ok (ih (off + 1))]
      rfl

/-- Of two printed strings the buffer holds the first bytes. -/
lemma take_printed (n : ℕ) (s t : List UInt8) (c : UInt8) :
    (s.take n ++ c :: t.take n).take n = (s ++ c :: t).take n := by
  rw [List.take_append, List.take_append, List.take_take, Nat.min_self, List.length_take]
  congr 1
  rw [show n - min n s.length = n - s.length by omega]
  cases hleft : n - s.length with
  | zero => rfl
  | succ k => rw [List.take_succ_cons, List.take_succ_cons, List.take_take,
    Nat.min_eq_left (by omega)]

lemma result_readName (tar : Archive) (spill : ℕ → List UInt8) (off : ℕ) :
    (readName tar spill off).result = .ok (memberName tar spill off) := by
  rw [readName, Logged.result_bind_ok (result_readByte tar _), memberName]
  split_ifs with hfirst hlen
  · rw [Logged.result_bind_ok (result_readString tar _ _),
      Logged.result_bind_ok (result_readString tar _ _),
      ← cstr_take tar _ (by decide : 127 ≤ 2 ^ 64), ← cstr_take tar _ (by decide : 127 ≤ 2 ^ 64),
        take_printed]
    rfl
  · rw [Logged.result_bind_ok (result_readString tar _ _), if_pos hlen]
    rfl
  · rw [Logged.result_bind_ok (result_readString tar _ _), if_neg hlen]
    rfl

lemma result_readData (s : Ramfs) (node : ℕ) (tar : Archive) (off : ℕ) {size : ℕ}
    (hsize : 0 < size) :
    (readData s node tar off size).result = .ok (tfsWrite s node (bytes tar off size)).1 := by
  have hne : bytes tar off size ≠ [] := by
    rw [← List.length_pos_iff]
    unfold bytes
    rwa [List.length_map, List.length_range]
  unfold readData tfsWrite
  cases s.nodes node with
  | none => rfl
  | some n =>
    dsimp only
    rw [if_neg hne]
    split_ifs
    · rfl
    · rcases s.tmalloc with ⟨s', _ | a⟩
      · rfl
      · dsimp only
        rw [Logged.result_bind_ok (result_readBytes tar off size)]
        rfl

lemma result_readSize (tar : Archive) (off : ℕ) : (readField tar (off + 124) 11).result =
    .ok (tarSize tar off) :=
  result_readField tar _ 11

lemma result_readMember (s : Ramfs) (tar : Archive) (spill : ℕ → List UInt8) (off : ℕ) :
    (readMember s tar spill off).result = .ok (unpackMember s tar spill off) := by
  rw [readMember, Logged.result_bind_ok (result_readByte tar _),
    Logged.result_bind_ok (result_readSize tar off),
    Logged.result_bind_ok (result_readName tar spill off), unpackMember]
  change _ = Except.ok (if _ then _ else if _ then if _ then _ else _ else _)
  split_ifs with hdir hempty hfile hempty hsize
  · rfl
  · rfl
  · rfl
  · rcases tfsTouch s (memberName tar spill off) with ⟨s', _ | f⟩
    · rfl
    · exact result_readData s' f tar (off + 512) hsize
  · rcases tfsTouch s (memberName tar spill off) with ⟨s', _ | f⟩
    · rfl
    · rfl
  · rfl

lemma atHeader_iff (tar : Archive) (len off : ℕ) :
    atHeader tar len off = true ↔ (off + 512) % 2 ^ 64 ≤ len ∧ byteAt tar off ≠ 0 :=
      decide_eq_true_iff

/-- The loop with its reads computes what the loop does. -/
lemma result_readFrom (tar : Archive) (len : ℕ) (spill : ℕ → List UInt8) (fuel : ℕ) (s : Ramfs)
    (off : ℕ) :
    (readFrom tar len spill fuel s off).result = .ok (unpackFrom tar len spill fuel s off) := by
  induction fuel generalizing s off with
  | zero => rfl
  | succ fuel ih =>
    rw [readFrom, unpackFrom]
    by_cases henter : (off + 512) % 2 ^ 64 ≤ len
    · rw [if_pos henter, Logged.result_bind_ok (result_readByte tar off)]
      by_cases hend : byteAt tar off = 0
      · rw [if_pos hend, if_neg (fun h => ((atHeader_iff ..).mp h).2 hend)]
        rfl
      · rw [if_neg hend, if_pos ((atHeader_iff ..).mpr ⟨henter, hend⟩),
          Logged.result_bind_ok (result_readMember s tar spill off)]
        exact ih _ _
    · rw [if_neg henter, if_neg (fun h => henter ((atHeader_iff ..).mp h).1)]
      rfl

/-! ## Where it reads -/

/-- The cells of a range lie in the archive. -/
def Within (len off n : ℕ) : Prop := ∀ i < n, (off + i) % 2 ^ 64 < len

/-- How many bytes of a field of `n` bytes are looked at for an octal number. -/
def octalSpan (tar : Archive) (off n : ℕ) : ℕ :=
  min n (((bytes tar off n).takeWhile fun c => 48 ≤ c ∧ c ≤ 55).length + 1)

/-- How many bytes of a string, with its terminator, are looked at. -/
def stringSpan (tar : Archive) (off n : ℕ) : ℕ := min n ((cstr tar off n).length + 1)

lemma within_zero (len off : ℕ) : Within len off 0 := fun _ hi => absurd hi (Nat.not_lt_zero _)

lemma within_succ (len off n : ℕ) : Within len off (n + 1) ↔ off % 2 ^ 64 < len ∧
    Within len (off + 1) n := by
  refine ⟨fun h => ⟨h 0 (by omega), fun i hi => ?_⟩, fun h i hi => ?_⟩
  · rw [Nat.add_assoc, Nat.add_comm 1 i]
    exact h (i + 1) (by omega)
  · cases i with
    | zero => exact h.1
    | succ i =>
      rw [Nat.add_comm i 1, ← Nat.add_assoc]
      exact h.2 i (by omega)

lemma within_one (len off : ℕ) : Within len off 1 ↔ off % 2 ^ 64 < len := by
  rw [within_succ, and_iff_left (within_zero _ _)]

lemma Within.mono {len off n : ℕ} (h : Within len off n) {k : ℕ} (hk : k ≤ n) : Within len off k :=
  fun i hi => h i (Nat.lt_of_lt_of_le hi hk)

lemma all_readByte (tar : Archive) (len off : ℕ) : (readByte tar off).All (· < len) ↔
    off % 2 ^ 64 < len :=
  Logged.all_read tar _

lemma all_readBytes (tar : Archive) (len off n : ℕ) : (readBytes tar off n).All (· < len) ↔
    Within len off n := by
  induction n generalizing off with
  | zero => exact iff_of_true (Logged.all_pure _) (within_zero _ _)
  | succ n ih =>
    rw [readBytes, Logged.all_bind_ok (result_readByte tar off),
      Logged.all_bind_ok (result_readBytes tar _ n),
      all_readByte, ih, within_succ, and_iff_left (Logged.all_pure _)]

lemma all_readOctal (tar : Archive) (len off v n : ℕ) :
    (readOctal tar off v n).All (· < len) ↔ Within len off (octalSpan tar off n) := by
  induction n generalizing off v with
  | zero => exact iff_of_true (Logged.all_pure _) ((within_zero _ _).mono (Nat.min_le_left _ _))
  | succ n ih =>
    rw [readOctal, Logged.all_bind_ok (result_readByte tar off), all_readByte, octalSpan,
      bytes_succ]
    by_cases hdigit : byteAt tar off < 48 ∨ 55 < byteAt tar off
    · rw [if_pos hdigit, List.takeWhile_cons_of_neg (by simpa [imp_iff_not_or] using hdigit),
        List.length_nil, Nat.zero_add,
        Nat.min_eq_right (by omega), within_one, and_iff_left (Logged.all_pure _)]
    · rw [if_neg hdigit, ih, List.takeWhile_cons_of_pos (by simpa using hdigit), List.length_cons,
        Nat.add_min_add_right, within_succ, octalSpan]

lemma all_readString (tar : Archive) (len off n : ℕ) :
    (readString tar off n).All (· < len) ↔ Within len off (stringSpan tar off n) := by
  induction n generalizing off with
  | zero => exact iff_of_true (Logged.all_pure _) ((within_zero _ _).mono (Nat.min_le_left _ _))
  | succ n ih =>
    rw [readString, Logged.all_bind_ok (result_readByte tar off), all_readByte, stringSpan, cstr]
    by_cases hend : byteAt tar off = 0
    · rw [if_pos hend, if_pos hend, List.length_nil, Nat.zero_add, Nat.min_eq_right (by omega),
        within_one, and_iff_left (Logged.all_pure _)]
    · rw [if_neg hend, if_neg hend, Logged.all_bind_ok (result_readString tar _ n), ih,
        and_iff_left (Logged.all_pure _), List.length_cons, Nat.add_min_add_right, within_succ,
          stringSpan]

/-- How many bytes of a field of `n + 1` bytes are looked at for its number. -/
def fieldSpan (tar : Archive) (off n : ℕ) : ℕ :=
  if byteAt tar off &&& 0x80 ≠ 0 then n + 1 else octalSpan tar off (n + 1)

lemma all_readField (tar : Archive) (len off n : ℕ) :
    (readField tar off n).All (· < len) ↔ Within len off (fieldSpan tar off n) := by
  rw [readField, Logged.all_bind_ok (result_readByte tar off), all_readByte, fieldSpan]
  split_ifs with hbase
  · rw [Logged.all_bind_ok (result_readBytes tar _ n), all_readBytes,
      and_iff_left (Logged.all_pure _), within_succ]
  · rw [all_readOctal]
    refine and_iff_right_of_imp fun h => (within_one _ _).mp (h.mono ?_)
    unfold octalSpan
    omega

/-- The typeflag, the size and, without a prefix, the name are read inside. -/
def HeaderInside (tar : Archive) (len off : ℕ) : Prop :=
  (off + 156) % 2 ^ 64 < len ∧ Within len (off + 124) (fieldSpan tar (off + 124) 11) ∧
    (off + 345) % 2 ^ 64 < len ∧ (byteAt tar (off + 345) = 0 →
      Within len off (stringSpan tar off 128))

/-- With a prefix, the prefix and the name end inside. -/
def StringsInside (tar : Archive) (len off : ℕ) : Prop :=
  byteAt tar (off + 345) ≠ 0 →
    Within len (off + 345) (stringSpan tar (off + 345) (2 ^ 64)) ∧
      Within len off (stringSpan tar off (2 ^ 64))

/-- The path is that of a file, old or new, and there is memory for its data. -/
def takesData (s : Ramfs) (path : List UInt8) : Bool :=
  match tfsTouch s path with
  | (_, none) => false
  | (s, some f) => (s.nodes f).any fun n => !n.dir && (s.grants s.asked).isSome

/-- The data of a regular file that is written ends inside. -/
def DataInside (tar : Archive) (len : ℕ) (spill : ℕ → List UInt8) (s : Ramfs) (off : ℕ) : Prop :=
  byteAt tar (off + 156) = 48 ∨ byteAt tar (off + 156) = 0 → memberName tar spill off ≠ [] →
    takesData s (memberName tar spill off) = true → Within len (off + 512) (tarSize tar off)

/-- A round of the loop reads inside. -/
def RoundInside (tar : Archive) (len : ℕ) (spill : ℕ → List UInt8) (s : Ramfs) (off : ℕ) : Prop :=
  off % 2 ^ 64 < len ∧
    (byteAt tar off ≠ 0 → HeaderInside tar len off ∧ StringsInside tar len off ∧
      DataInside tar len spill s off)

lemma headerInside_of_le {len off : ℕ} (tar : Archive) (hlen : len < 2 ^ 64)
    (hoff : off + 512 ≤ len) : HeaderInside tar len off := by
  have hin (a n : ℕ) (h : a + n ≤ 512) : Within len (off + a) n := by
    intro i hi
    rw [Nat.mod_eq_of_lt (by omega)]
    omega
  refine ⟨hin 156 1 (by omega) 0 (by omega), (hin 124 12 (by omega)).mono ?_,
    hin 345 1 (by omega) 0 (by omega), fun _ => (hin 0 128 (by omega)).mono (Nat.min_le_left _ _)⟩
  unfold fieldSpan octalSpan
  split_ifs
  · exact le_rfl
  · exact Nat.min_le_left _ _

lemma all_readName (tar : Archive) (len : ℕ) (spill : ℕ → List UInt8) (off : ℕ) :
    (readName tar spill off).All (· < len) ↔ (off + 345) % 2 ^ 64 < len ∧
      (byteAt tar (off + 345) = 0 → Within len off (stringSpan tar off 128)) ∧
        StringsInside tar len off := by
  rw [readName, Logged.all_bind_ok (result_readByte tar _), all_readByte, StringsInside]
  refine and_congr_right fun _ => ?_
  by_cases hfirst : byteAt tar (off + 345) = 0
  · rw [if_neg (not_not.mpr hfirst), Logged.all_bind_ok (result_readString tar _ _), all_readString,
      and_iff_left (Logged.all_pure _), and_iff_left fun h =>
        absurd hfirst h, forall_prop_of_true hfirst]
  · rw [if_pos hfirst, Logged.all_bind_ok (result_readString tar _ _),
      Logged.all_bind_ok (result_readString tar _ _),
      all_readString, all_readString, and_iff_left (Logged.all_pure _), and_iff_right fun h =>
        absurd h hfirst,
      forall_prop_of_true hfirst]

lemma all_readData (s : Ramfs) (node : ℕ) (tar : Archive) (len off size : ℕ) :
    (readData s node tar off size).All (· < len) ↔
      (((s.nodes node).any fun n => !n.dir && (s.grants s.asked).isSome) = true →
        Within len off size) := by
  unfold readData
  cases s.nodes node with
  | none => exact iff_of_true (Logged.all_pure _) fun h => (by cases h)
  | some n =>
    rw [Option.any_some, Bool.and_eq_true, Bool.not_eq_true']
    dsimp only
    by_cases hdir : n.dir = true
    · rw [if_pos hdir]
      exact iff_of_true (Logged.all_pure _) fun h => absurd hdir (by simp [h.1])
    · rw [if_neg hdir, Ramfs.tmalloc]
      cases hgrant : s.grants s.asked with
      | none => exact iff_of_true (Logged.all_pure _) fun h => (by cases h.2)
      | some a =>
        dsimp only
        rw [Logged.all_bind_ok (result_readBytes tar off size), all_readBytes,
          and_iff_left (Logged.all_pure _), forall_prop_of_true ⟨Bool.not_eq_true _ ▸ hdir, rfl⟩]

lemma all_readMember (tar : Archive) (len : ℕ) (spill : ℕ → List UInt8) (s : Ramfs) (off : ℕ) :
    (readMember s tar spill off).All (· < len) ↔
      HeaderInside tar len off ∧ StringsInside tar len off ∧ DataInside tar len spill s off := by
  rw [readMember, Logged.all_bind_ok (result_readByte tar _),
    Logged.all_bind_ok (result_readSize tar off),
    Logged.all_bind_ok (result_readName tar spill off), all_readByte, all_readField, all_readName,
      HeaderInside]
  simp only [and_assoc]
  -- what is left is the data
  iterate 5 refine and_congr_right fun _ => ?_
  unfold DataInside takesData
  split_ifs with hdir hempty hfile hempty hsize
  · exact iff_of_true (Logged.all_pure _) fun h => absurd h (by rw [hdir]; decide)
  · exact iff_of_true (Logged.all_pure _) fun h => absurd h (by rw [hdir]; decide)
  · exact iff_of_true (Logged.all_pure _) fun _ h => absurd hempty h
  · rw [forall_prop_of_true hfile, forall_prop_of_true hempty]
    rcases tfsTouch s (memberName tar spill off) with ⟨s', _ | f⟩
    · exact iff_of_true (Logged.all_pure _) fun h => nomatch h
    · exact all_readData s' f tar len (off + 512) _
  · refine iff_of_true ?_ fun _ _ _ i hi => absurd (Nat.zero_lt_of_lt hi) hsize
    rcases tfsTouch s (memberName tar spill off) with ⟨s', _ | f⟩
    · exact Logged.all_pure _
    · exact Logged.all_pure _
  · exact iff_of_true (Logged.all_pure _) fun h => absurd h hfile

/-- One round, and the rest after it. -/
lemma all_readFrom_succ (tar : Archive) (len : ℕ) (spill : ℕ → List UInt8) (fuel : ℕ) (s : Ramfs)
    (off : ℕ) :
    (readFrom tar len spill (fuel + 1) s off).All (· < len) ↔
      ((off + 512) % 2 ^ 64 ≤ len → RoundInside tar len spill s off) ∧
        (atHeader tar len off = true →
          (readFrom tar len spill fuel (unpackMember s tar spill off) (tarNext tar off)).All (· <
            len)) := by
  rw [readFrom, atHeader_iff, RoundInside]
  by_cases henter : (off + 512) % 2 ^ 64 ≤ len
  · rw [if_pos henter, Logged.all_bind_ok (result_readByte tar off), all_readByte,
      forall_prop_of_true henter, and_assoc]
    refine and_congr_right fun _ => ?_
    by_cases hend : byteAt tar off = 0
    · rw [if_pos hend]
      exact iff_of_true (Logged.all_pure _) ⟨fun h => absurd hend h, fun h => absurd hend h.2⟩
    · rw [if_neg hend, Logged.all_bind_ok (result_readMember s tar spill off), all_readMember,
        forall_prop_of_true hend, forall_prop_of_true ⟨henter, hend⟩]
  · rw [if_neg henter]
    exact iff_of_true (Logged.all_pure _) ⟨fun h => absurd h henter, fun h => absurd h.1 henter⟩

/-- The rounds one after the other: each is met in the state the rounds before it leave. -/
lemma all_readFrom_iff (tar : Archive) (len : ℕ) (spill : ℕ → List UInt8) (fuel : ℕ) (s : Ramfs)
    (off : ℕ) :
    (readFrom tar len spill fuel s off).All (· < len) ↔
      ∀ k < fuel, (∀ j < k, atHeader tar len ((tarNext tar)^[j] off) = true) →
        ((tarNext tar)^[k] off + 512) % 2 ^ 64 ≤ len →
          RoundInside tar len spill (unpackFrom tar len spill k s off) ((tarNext tar)^[k] off) := by
  induction fuel generalizing s off with
  | zero => exact iff_of_true (Logged.all_pure _) fun k hk => absurd hk (Nat.not_lt_zero k)
  | succ fuel ih =>
    rw [all_readFrom_succ, Nat.forall_lt_succ_left]
    refine and_congr ⟨fun h _ => h, fun h => h fun j hj => absurd hj (Nat.not_lt_zero j)⟩ ?_
    by_cases hat : atHeader tar len off = true
    · rw [forall_prop_of_true hat, ih]
      refine forall₂_congr fun k _ => ?_
      rw [Nat.forall_lt_succ_left, Function.iterate_succ_apply, unpackFrom, if_pos hat]
      exact ⟨fun h hj => h hj.2, fun h hj => h ⟨hat, hj⟩⟩
    · exact iff_of_true (fun h => absurd h hat) fun k _ hj => absurd (hj 0 (Nat.succ_pos k)) hat

lemma tarOffset_eq_iterate (tar : Archive) (n : ℕ) : tarOffset tar n = (tarNext tar)^[n] 0 := by
  induction n with
  | zero => rfl
  | succ n ih => rw [tarOffset, ih, Function.iterate_succ_apply']

/-- The loop reads inside the archive exactly when every round does that it comes to: then the
strings it prints and the data it writes end inside. The header itself lies inside unless the
offset wraps. -/
theorem readFrom_inside_iff (tar : Archive) (len : ℕ) (spill : ℕ → List UInt8) (s : Ramfs) :
    (∀ fuel, (readFrom tar len spill fuel s 0).result = .ok (unpackFrom tar len spill fuel s 0)) ∧
    ((∀ fuel, (readFrom tar len spill fuel s 0).All (· < len)) ↔
      ∀ k, (∀ j < k, atHeader tar len (tarOffset tar j) = true) →
        (tarOffset tar k + 512) % 2 ^ 64 ≤ len →
        RoundInside tar len spill (unpackFrom tar len spill k s 0) (tarOffset tar k)) ∧
    (len < 2 ^ 64 → ∀ off, off + 512 ≤ len → HeaderInside tar len off) := by
  refine ⟨fun fuel => result_readFrom tar len spill fuel s 0, ?_,
    fun hlen off => headerInside_of_le tar hlen⟩
  simp only [all_readFrom_iff, tarOffset_eq_iterate]
  exact ⟨fun h k => h (k + 1) k (Nat.lt_succ_self k), fun h _ k _ => h k⟩

/-- The header of a file `a` with one byte of data. -/
def cutArchive : Archive := fun i => if i = 0 then 97 else if i = 124 then 49 else 0

/-- An archive that ends with the header: its data is read behind the end. -/
theorem data_read_behind_end :
    ∃ i ∈ (readFrom cutArchive 512 (fun _ => []) 1 (tfsInit fun n => some (n + 2)) 0).reads, ¬i <
      512 :=
  ⟨512, by decide +kernel, by decide⟩

end TraitOS.Ttarfs
