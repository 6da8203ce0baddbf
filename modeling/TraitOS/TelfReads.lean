import TraitOS.ReadLog
import TraitOS.Telf

/-!
# The bytes the parser reads

`telf_parse` again, with the index of every byte it reads. The bound of a program header is
checked after the sum of its offset and its size has wrapped, so a header just below 2^64
passes the check and is read outside the file.
-/
namespace TraitOS.Telf
open ByteMemory ReadLog

/-! ## The parser with its reads -/

def telfRdLogged (blob : Memory) (off : ℕ) : ℕ → Logged TelfError ℕ
  | 0 => pure 0
  | n + 1 => do
    let low ← telfRdLogged blob off n
    let b ← Logged.read blob ((off + n) % 2 ^ 64)
    return low + b.toNat * 256 ^ n

def reject (bad : Prop) [Decidable bad] (e : TelfError) : Logged TelfError Unit :=
  .lift (rejectIf bad e)

def expectByte (blob : Memory) (i : ℕ) (v : UInt8) (e : TelfError) : Logged TelfError Unit := do
  let b ← Logged.read blob i
  reject (b ≠ v) e

def expectField (blob : Memory) (off n v : ℕ) (e : TelfError) : Logged TelfError Unit := do
  let x ← telfRdLogged blob off n
  reject (x ≠ v) e

/-- The checks of the file header up to its version. -/
def identify (blob : Memory) (size : ℕ) : Logged TelfError Unit := do
  reject (size < 64) .trunc
  expectByte blob 0 0x7F .badMagic
  expectByte blob 1 0x45 .badMagic
  expectByte blob 2 0x4C .badMagic
  expectByte blob 3 0x46 .badMagic
  expectByte blob 4 2 .badClass
  expectByte blob 5 1 .badData
  expectByte blob 6 1 .badVersion
  expectField blob 16 2 2 .badType
  expectField blob 18 2 62 .badMachine
  expectField blob 20 4 1 .badVersion

/-- The fields of a program header after its type. -/
def readFields (blob : Memory) (off type : ℕ) : Logged TelfError ProgramHeader := do
  let flags ← telfRdLogged blob (off + 4) 4
  let offset ← telfRdLogged blob (off + 8) 8
  let vaddr ← telfRdLogged blob (off + 16) 8
  let filesz ← telfRdLogged blob (off + 32) 8
  let memsz ← telfRdLogged blob (off + 40) 8
  let align ← telfRdLogged blob (off + 48) 8
  return ⟨type, flags, offset, vaddr, filesz, memsz, align⟩

/-- One turn of the loop over the program headers. -/
def readSegment (blob : Memory) (size off : ℕ) (segs : List TelfSegment) :
    Logged TelfError (List TelfSegment) := do
  reject (size < (off + 56) % 2 ^ 64) .trunc
  let type ← telfRdLogged blob off 4
  if type ≠ 1 then return segs
  else
    reject (segs.length = telfMaxSegments) .tooMany
    let h ← readFields blob off type
    Logged.lift (checkHeader size h)
    return segs ++ [segmentOf h]

def readSegments (blob : Memory) (size phoff phentsz : ℕ) :
    ℕ → ℕ → List TelfSegment → Logged TelfError (List TelfSegment)
  | 0, _, segs => pure segs
  | left + 1, i, segs => do
    let segs ← readSegment blob size ((phoff + i * phentsz) % 2 ^ 64) segs
    readSegments blob size phoff phentsz left (i + 1) segs

/-- The rest of the parser, once it has read the four fields of the file header. -/
def readPlan (blob : Memory) (size entry phoff phentsz phnum : ℕ) : Logged TelfError TelfPlan := do
  reject (phentsz < 56) .phdr
  reject (phnum = 0) .noLoad
  reject (telfMaxSegments < phnum) .tooMany
  let segs ← readSegments blob size phoff phentsz phnum 0 []
  reject (segs = []) .noLoad
  reject (¬ segs.Pairwise fun s t => ¬ Overlap s t) .range
  return ⟨entry, segs⟩

def telfParseLogged (blob : Memory) (size : ℕ) : Logged TelfError TelfPlan := do
  identify blob size
  let entry ← telfRdLogged blob 24 8
  let phoff ← telfRdLogged blob 32 8
  let phentsz ← telfRdLogged blob 54 2
  let phnum ← telfRdLogged blob 56 2
  readPlan blob size entry phoff phentsz phnum

/-! ## Without the reads it is the parser -/

@[simp] lemma result_telfRdLogged (blob : Memory) (off n : ℕ) :
    (telfRdLogged blob off n).result = .ok (telfRd blob off n) := by
  induction n with
  | zero => rfl
  | succ n ih =>
    unfold telfRdLogged
    rw [Logged.result_bind, ih]
    rfl

@[simp] lemma result_reject (bad : Prop) [Decidable bad] (e : TelfError) :
    (reject bad e).result = rejectIf bad e := rfl

@[simp] lemma result_expectByte (blob : Memory) (i : ℕ) (v : UInt8) (e : TelfError) :
    (expectByte blob i v e).result = rejectIf (blob i ≠ v) e := by
  unfold expectByte
  rw [Logged.result_bind]
  rfl

@[simp] lemma result_expectField (blob : Memory) (off n v : ℕ) (e : TelfError) :
    (expectField blob off n v e).result = rejectIf (telfRd blob off n ≠ v) e := by
  unfold expectField
  rw [Logged.result_bind, result_telfRdLogged]
  rfl

lemma result_readFields (blob : Memory) (off : ℕ) :
    (readFields blob off (telfRd blob off 4)).result = .ok (programHeader blob off) := by
  unfold readFields
  simp only [Logged.result_bind_ok (result_telfRdLogged _ _ _), Logged.result_pure, programHeader]

/-- The turn over unknown reads: with the reads of a file in their place the kernel would evaluate
them. -/
lemma result_turn {α β : Type} (x : Logged TelfError ℕ) (y : ℕ → Logged TelfError α)
    (check : α → Except TelfError Unit) (skip : β) (take : α → β) (full : Prop) [Decidable full]
    {type : ℕ} {h : α} (hx : x.result = .ok type) (hy : (y type).result = .ok h) :
    (do
      let type ← x
      if type ≠ 1 then return skip
      else
        reject full .tooMany
        let h ← y type
        Logged.lift (check h)
        return take h : Logged TelfError β).result =
    if type ≠ 1 then .ok skip
    else do
      rejectIf full .tooMany
      check h
      return take h := by
  rw [Logged.result_bind_ok hx]
  by_cases hne : type ≠ 1
  · rw [if_pos hne, if_pos hne]
    rfl
  · rw [if_neg hne, if_neg hne, Logged.result_bind, result_reject]
    refine bind_congr fun _ => ?_
    rw [Logged.result_bind_ok hy, Logged.result_bind]
    rfl

lemma result_readSegment (blob : Memory) (size off : ℕ) (segs : List TelfSegment) :
    (readSegment blob size off segs).result = do
      rejectIf (size < (off + 56) % 2 ^ 64) .trunc
      if (programHeader blob off).type ≠ 1 then .ok segs
      else
        rejectIf (segs.length = telfMaxSegments) .tooMany
        checkHeader size (programHeader blob off)
        return segs ++ [segmentOf (programHeader blob off)] := by
  unfold readSegment
  rw [Logged.result_bind, result_reject]
  refine bind_congr fun _ => ?_
  exact result_turn (telfRdLogged blob off 4) (readFields blob off) (checkHeader size) segs
    (fun h => segs ++ [segmentOf h]) _ (result_telfRdLogged blob off 4) (result_readFields blob off)

lemma parseSegments_succ (blob : Memory) (size left i : ℕ) (segs : List TelfSegment) :
    parseSegments blob size (left + 1) i segs =
      (readSegment blob size (headerOffset blob i) segs).result >>= parseSegments blob size left
        (i + 1) := by
  rw [result_readSegment, bind_assoc]
  unfold parseSegments
  refine bind_congr fun _ => ?_
  dsimp only
  generalize programHeader blob (headerOffset blob i) = h
  by_cases hne : h.type ≠ 1
  · rw [if_pos hne, if_pos hne]
    rfl
  · rw [if_neg hne, if_neg hne, bind_assoc]
    refine bind_congr fun _ => ?_
    rw [bind_assoc]
    rfl

lemma result_readSegments (blob : Memory) (size left i : ℕ) (segs : List TelfSegment) :
    (readSegments blob size (ehdrPhoff blob) (ehdrPhentsz blob) left i segs).result =
      parseSegments blob size left i segs := by
  induction left generalizing i segs with
  | zero => rfl
  | succ left ih =>
    unfold readSegments
    rw [Logged.result_bind, parseSegments_succ]
    exact bind_congr fun segs => ih (i + 1) segs

lemma result_readPlan (blob : Memory) (size entry phnum : ℕ) :
    (readPlan blob size entry (ehdrPhoff blob) (ehdrPhentsz blob) phnum).result = do
      rejectIf (ehdrPhentsz blob < 56) .phdr
      rejectIf (phnum = 0) .noLoad
      rejectIf (telfMaxSegments < phnum) .tooMany
      let segs ← parseSegments blob size phnum 0 []
      rejectIf (segs = []) .noLoad
      rejectIf (¬ segs.Pairwise fun s t => ¬ Overlap s t) .range
      return ⟨entry, segs⟩ := by
  unfold readPlan
  simp only [Logged.result_bind, result_reject, result_readSegments, Logged.result_pure]
  rfl

lemma rejectIf_or (a b : Prop) [Decidable a] [Decidable b] (e : TelfError) :
    rejectIf (a ∨ b) e = (rejectIf a e >>= fun _ => rejectIf b e) := by
  unfold rejectIf
  by_cases h : a
  · rw [if_pos h, if_pos (Or.inl h)]
    rfl
  · rw [if_neg h]
    by_cases h' : b
    · rw [if_pos (Or.inr h'), if_pos h']
      rfl
    · rw [if_neg (not_or.mpr ⟨h, h'⟩), if_neg h']
      rfl

/-- The result is that of the parser. -/
theorem result_telfParseLogged (blob : Memory) (size : ℕ) : (telfParseLogged blob size).result =
    telfParse blob size := by
  have hplan : (do
      let entry ← telfRdLogged blob 24 8
      let phoff ← telfRdLogged blob 32 8
      let phentsz ← telfRdLogged blob 54 2
      let phnum ← telfRdLogged blob 56 2
      readPlan blob size entry phoff phentsz phnum).result =
      (readPlan blob size (ehdrEntry blob) (ehdrPhoff blob) (ehdrPhentsz blob)
        (ehdrPhnum blob)).result := by
    rw [Logged.result_bind_ok (result_telfRdLogged blob 24 8),
      Logged.result_bind_ok (result_telfRdLogged blob 32 8),
      Logged.result_bind_ok (result_telfRdLogged blob 54 2),
        Logged.result_bind_ok (result_telfRdLogged blob 56 2)]
    rfl
  unfold telfParseLogged
  rw [Logged.result_bind, hplan, result_readPlan]
  unfold identify telfParse
  simp only [Logged.result_bind, result_reject, result_expectByte, result_expectField, rejectIf_or,
    bind_assoc]

/-! ## The reads -/

section Reads
variable {P : ℕ → Prop} {blob : Memory} {size off : ℕ}

@[simp] lemma all_telfRdLogged (n : ℕ) : (telfRdLogged blob off n).All P ↔
    ∀ k < n, P ((off + k) % 2 ^ 64) := by
  induction n with
  | zero => exact iff_of_true (Logged.all_pure 0) fun _ h => absurd h (Nat.not_lt_zero _)
  | succ n ih =>
    unfold telfRdLogged
    rw [Logged.all_bind_ok (result_telfRdLogged blob off n), ih, Logged.all_bind_ok rfl,
      Logged.all_read, Nat.forall_lt_succ_right]
    exact and_congr_right fun _ => and_iff_left (Logged.all_pure _)

lemma all_reject_bind {α : Type} {bad : Prop} [Decidable bad] {e : TelfError}
    {f : Unit → Logged TelfError α} : (reject bad e >>= f).All P ↔ (¬ bad → (f ()).All P) := by
  rw [Logged.all_bind, result_reject]
  simp only [rejectIf_eq_ok]
  exact ⟨fun h hbad => h.2 () hbad, fun h => ⟨Logged.all_lift _, fun _ hbad => h hbad⟩⟩

lemma all_expectByte {i : ℕ} {v : UInt8} {e : TelfError}
    (h : P i) : (expectByte blob i v e).All P :=
  Logged.all_bind.mpr ⟨(Logged.all_read _ _).mpr h, fun _ _ => Logged.all_lift _⟩

lemma all_expectField {n v : ℕ} {e : TelfError} (h : ∀ k < n, P ((off + k) % 2 ^ 64)) :
    (expectField blob off n v e).All P :=
  Logged.all_bind.mpr ⟨(all_telfRdLogged n).mpr h, fun _ _ => Logged.all_lift _⟩

/-- A field that lies inside a part of the file. -/
lemma field_reads {d n m : ℕ} (hP : ∀ k < m, P ((off + k) % 2 ^ 64)) (hle : d + n ≤ m) :
    ∀ k < n, P ((off + d + k) % 2 ^ 64) := by
  intro k hk
  rw [Nat.add_assoc]
  exact hP _ (by omega)

lemma all_readFields (type : ℕ) (hP : ∀ k < 56, P ((off + k) % 2 ^ 64)) :
    (readFields blob off type).All P := by
  unfold readFields
  simp only [Logged.all_bind, all_telfRdLogged, Logged.all_pure, implies_true, and_true]
  exact ⟨field_reads hP (by decide), fun _ _ => ⟨field_reads hP (by decide),
    fun _ _ => ⟨field_reads hP (by decide),
    fun _ _ => ⟨field_reads hP (by decide), fun _ _ => ⟨field_reads hP (by decide),
      fun _ _ => field_reads hP (by decide)⟩⟩⟩⟩⟩

lemma all_readSegment (segs : List TelfSegment)
    (hP : (off + 56) % 2 ^ 64 ≤ size → ∀ k < 56, P ((off + k) % 2 ^ 64)) :
    (readSegment blob size off segs).All P := by
  unfold readSegment
  rw [all_reject_bind]
  intro hinside
  have hall := hP (not_lt.mp hinside)
  rw [Logged.all_bind, all_telfRdLogged]
  refine ⟨fun k hk => hall k (by omega), fun type _ => ?_⟩
  by_cases hne : type ≠ 1
  · rw [if_pos hne]
    exact Logged.all_pure _
  · rw [if_neg hne, all_reject_bind]
    intro _
    rw [Logged.all_bind]
    refine ⟨all_readFields type hall, fun h _ => ?_⟩
    exact Logged.all_bind.mpr ⟨Logged.all_lift _, fun _ _ => Logged.all_pure _⟩

/-- The first byte of a header that passes the check of its bound is read. -/
lemma readSegment_reads {segs : List TelfSegment} (h : (readSegment blob size off segs).All P)
    (hinside : (off + 56) % 2 ^ 64 ≤ size) : P (off % 2 ^ 64) := by
  unfold readSegment at h
  rw [all_reject_bind] at h
  have htype := (Logged.all_bind.mp (h (not_lt.mpr hinside))).1
  exact (all_telfRdLogged 4).mp htype 0 (by decide)

end Reads

/-! ## The headers the parser reaches -/

/-- The parser goes on after the header. -/
def HeaderPasses (blob : Memory) (size off : ℕ) : Prop :=
  (off + 56) % 2 ^ 64 ≤ size ∧
    ((programHeader blob off).type = 1 → checkHeader size (programHeader blob off) = .ok ())

/-- The parser comes to the loop over the program headers. -/
def EhdrAccepted (blob : Memory) (size : ℕ) : Prop :=
  (identify blob size).result = .ok () ∧ 56 ≤ ehdrPhentsz blob ∧ ehdrPhnum blob ≠ 0 ∧
    ehdrPhnum blob ≤ telfMaxSegments

def Reached (blob : Memory) (size i : ℕ) : Prop :=
  EhdrAccepted blob size ∧ i < ehdrPhnum blob ∧
    ∀ j < i, HeaderPasses blob size (headerOffset blob j)

/-- The end of the header wraps around, to a number that passes the check. -/
def HeaderWraps (blob : Memory) (size i : ℕ) : Prop :=
  2 ^ 64 ≤ headerOffset blob i + 56 ∧ (headerOffset blob i + 56) % 2 ^ 64 ≤ size

section Loop
variable {P : ℕ → Prop} {blob : Memory} {size : ℕ}

lemma readSegment_passes {off : ℕ} {segs out : List TelfSegment}
    (h : (readSegment blob size off segs).result = .ok out) : HeaderPasses blob size off := by
  rw [result_readSegment, rejectIf_bind_eq_ok] at h
  refine ⟨not_lt.mp h.1, fun htype => ?_⟩
  rw [if_neg (not_not.mpr htype), rejectIf_bind_eq_ok, bind_eq_ok] at h
  obtain ⟨-, -, _, hcheck, -⟩ := h
  exact hcheck

lemma readSegment_ok {off : ℕ} {segs : List TelfSegment} (h : HeaderPasses blob size off)
    (hlen : segs.length < telfMaxSegments) :
    ∃ out, (readSegment blob size off segs).result = .ok out ∧ out.length ≤ segs.length + 1 := by
  simp only [result_readSegment, rejectIf_bind_eq_ok]
  by_cases htype : (programHeader blob off).type = 1
  · simp only [if_neg (not_not.mpr htype), rejectIf_bind_eq_ok, h.2 htype]
    exact ⟨_, ⟨not_lt.mpr h.1, hlen.ne, rfl⟩, (List.length_append).le⟩
  · simp only [if_pos (show (programHeader blob off).type ≠ 1 from htype)]
    exact ⟨segs, ⟨not_lt.mpr h.1, rfl⟩, Nat.le_succ _⟩

/-- The reads of the loop, from those of the headers it reaches. -/
lemma all_readSegments (left i : ℕ) (segs : List TelfSegment)
    (h : ∀ j, i ≤ j → j < i + left →
      (∀ k, i ≤ k → k < j → HeaderPasses blob size (headerOffset blob k)) →
        (headerOffset blob j + 56) % 2 ^ 64 ≤ size →
          ∀ d < 56, P ((headerOffset blob j + d) % 2 ^ 64)) :
    (readSegments blob size (ehdrPhoff blob) (ehdrPhentsz blob) left i segs).All P := by
  induction left generalizing i segs with
  | zero => exact Logged.all_pure _
  | succ left ih =>
    unfold readSegments
    rw [Logged.all_bind]
    refine ⟨all_readSegment segs (h i le_rfl (by omega) fun k hk hk' => absurd hk' (not_lt.mpr hk)),
      fun out hout => ?_⟩
    refine ih (i + 1) out fun j hj hj' hpass => h j (by omega) (by omega) fun k hk hk' => ?_
    rcases Nat.eq_or_lt_of_le hk with rfl | hlt
    · exact readSegment_passes hout
    · exact hpass k hlt hk'

lemma readSegments_reads (left i : ℕ) (segs : List TelfSegment) (hlen : segs.length ≤ i)
    (hmax : i + left ≤ telfMaxSegments)
    (h : (readSegments blob size (ehdrPhoff blob) (ehdrPhentsz blob) left i segs).All P) (j : ℕ)
    (hj : i ≤ j) (hj' : j < i + left)
    (hpass : ∀ k, i ≤ k → k < j → HeaderPasses blob size (headerOffset blob k))
    (hinside : (headerOffset blob j + 56) % 2 ^ 64 ≤ size) : P (headerOffset blob j % 2 ^ 64) := by
  induction left generalizing i segs with
  | zero => omega
  | succ left ih =>
    unfold readSegments at h
    rw [Logged.all_bind] at h
    rcases Nat.eq_or_lt_of_le hj with rfl | hlt
    · exact readSegment_reads h.1 hinside
    · obtain ⟨out, hout, hle⟩ := readSegment_ok (hpass i le_rfl hlt) (by omega : segs.length <
        telfMaxSegments)
      exact ih (i + 1) out (by omega) (by omega) (h.2 out hout) hlt (by omega) fun k hk =>
        hpass k (by omega)

lemma identify_size (h : (identify blob size).result = .ok ()) : 64 ≤ size := by
  unfold identify at h
  rw [Logged.result_bind, result_reject, rejectIf_bind_eq_ok] at h
  exact not_lt.mp h.1

lemma all_identify (hP : 64 ≤ size → ∀ k < 64, P k) : (identify blob size).All P := by
  unfold identify
  rw [all_reject_bind]
  intro hsize
  have hall := hP (not_lt.mp hsize)
  have hbyte {i : ℕ} {v : UInt8} {e : TelfError} (hi : i < 64) : (expectByte blob i v e).All P :=
    all_expectByte (hall i hi)
  have hfield {off n v : ℕ} {e : TelfError} (hoff : off + n ≤
    64) : (expectField blob off n v e).All P :=
    all_expectField fun k hk => by
      rw [Nat.mod_eq_of_lt (by omega)]
      exact hall _ (by omega)
  simp only [Logged.all_bind]
  exact ⟨hbyte (by decide), fun _ _ => ⟨hbyte (by decide), fun _ _ => ⟨hbyte (by decide),
    fun _ _ => ⟨hbyte (by decide),
    fun _ _ => ⟨hbyte (by decide), fun _ _ => ⟨hbyte (by decide), fun _ _ => ⟨hbyte (by decide),
      fun _ _ =>
      ⟨hfield (by decide), fun _ _ => ⟨hfield (by decide), fun _ _ => hfield (by decide)⟩⟩⟩⟩⟩⟩⟩⟩⟩

lemma all_readPlan (entry phoff phentsz phnum : ℕ) :
    (readPlan blob size entry phoff phentsz phnum).All P ↔
    (¬ phentsz < 56 → phnum ≠ 0 → ¬ telfMaxSegments < phnum →
      (readSegments blob size phoff phentsz phnum 0 []).All P) := by
  unfold readPlan
  rw [all_reject_bind]
  refine forall_congr' fun _ => ?_
  rw [all_reject_bind]
  refine forall_congr' fun _ => ?_
  rw [all_reject_bind]
  refine forall_congr' fun _ => ?_
  rw [Logged.all_bind, and_iff_left]
  intro segs _
  simp only [all_reject_bind, Logged.all_pure, implies_true]

/-- Beyond the file header the reads are those of the loop. -/
lemma all_telfParseLogged (hP : 64 ≤ size → ∀ k < 64, P k) : (telfParseLogged blob size).All P ↔
    (EhdrAccepted blob size →
      (readSegments blob size (ehdrPhoff blob) (ehdrPhentsz blob) (ehdrPhnum blob) 0 []).All P) :=
        by
  unfold telfParseLogged
  rw [Logged.all_bind, and_iff_right (all_identify hP)]
  have hfield {off n : ℕ} (hsize : 64 ≤ size) (hoff : off + n ≤
    64) : (telfRdLogged blob off n).All P :=
    (all_telfRdLogged n).mpr fun k hk => by
      rw [Nat.mod_eq_of_lt (by omega)]
      exact hP hsize _ (by omega)
  have hrest (hsize : 64 ≤ size) : (do
      let entry ← telfRdLogged blob 24 8
      let phoff ← telfRdLogged blob 32 8
      let phentsz ← telfRdLogged blob 54 2
      let phnum ← telfRdLogged blob 56 2
      readPlan blob size entry phoff phentsz phnum).All P ↔
      (readPlan blob size (ehdrEntry blob) (ehdrPhoff blob) (ehdrPhentsz blob)
        (ehdrPhnum blob)).All P := by
    rw [Logged.all_bind_ok (result_telfRdLogged blob 24 8),
      and_iff_right (hfield hsize (by decide)),
      Logged.all_bind_ok (result_telfRdLogged blob 32 8), and_iff_right (hfield hsize (by decide)),
      Logged.all_bind_ok (result_telfRdLogged blob 54 2), and_iff_right (hfield hsize (by decide)),
      Logged.all_bind_ok (result_telfRdLogged blob 56 2), and_iff_right (hfield hsize (by decide))]
    rfl
  constructor
  · intro h hacc
    have hplan := (hrest (identify_size hacc.1)).mp (h () hacc.1)
    exact (all_readPlan _ _ _ _).mp hplan (not_lt.mpr hacc.2.1) hacc.2.2.1 (not_lt.mpr hacc.2.2.2)
  · intro h _ hident
    refine (hrest (identify_size hident)).mpr ((all_readPlan _ _ _ _).mpr fun hent hnum hmax => ?_)
    exact h ⟨hident, not_lt.mp hent, hnum, not_lt.mp hmax⟩

end Loop

/-- The parser reads only the file if no header it reaches wraps around. Of a file that ends
more than a header before 2^64 it reads only the file if and only if that is so. -/
theorem telfParse_reads_iff (blob : Memory) (size : ℕ) :
    (telfParseLogged blob size).result = telfParse blob size ∧
    ((∀ i, Reached blob size i → ¬ HeaderWraps blob size i) →
      ∀ x ∈ (telfParseLogged blob size).reads, x < size) ∧
    (size + 56 ≤ 2 ^ 64 →
      ((∀ x ∈ (telfParseLogged blob size).reads, x < size) ↔ ∀ i, Reached blob size i →
        ¬ HeaderWraps blob size i)) := by
  have hiff : (telfParseLogged blob size).All (· < size) ↔ _ := all_telfParseLogged fun h k hk => by
    omega
  have hsound (h : ∀ i, Reached blob size i → ¬ HeaderWraps blob size i) :
      ∀ x ∈ (telfParseLogged blob size).reads, x < size := by
    refine hiff.mpr fun hacc => all_readSegments _ _ _ fun j _ hj hpass hinside d hd => ?_
    have hwraps := h j ⟨hacc, by omega, fun k hk => hpass k (Nat.zero_le k) hk⟩
    unfold HeaderWraps at hwraps
    omega
  refine ⟨result_telfParseLogged blob size, hsound, fun hsize => ⟨fun h i hreach hwraps => ?_,
    hsound⟩⟩
  obtain ⟨hacc, hi, hpass⟩ := hreach
  have hread :=
    readSegments_reads (ehdrPhnum blob) 0 [] le_rfl (by rw [Nat.zero_add]; exact hacc.2.2.2)
    (hiff.mp h hacc) i (Nat.zero_le i) (by omega) (fun k _ hk => hpass k hk) hwraps.2
  have hlt : headerOffset blob i < 2 ^ 64 := Nat.mod_lt _ (by decide)
  rw [Nat.mod_eq_of_lt hlt] at hread
  have hwrap := hwraps.1
  omega

/-- A file header whose only program header ends exactly at 2^64. -/
def wrappingFile : Memory := storeLE (oneSegment 0x8000000000 16 32) 32 8 (2 ^ 64 - 56)

/-- The end of the header is 0 after wrapping, and the parser reads 56 bytes before the file. -/
theorem wrapped_header_is_read :
    2 ^ 64 - 56 ∈ (telfParseLogged wrappingFile 136).reads ∧ ¬ 2 ^ 64 - 56 < 136 := by
  refine ⟨?_, by decide⟩
  decide +kernel

end TraitOS.Telf
