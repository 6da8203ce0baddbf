import TraitOS.ByteMemory
import TraitOS.Runs
import TraitOS.TernelEditor

/-!
# Reading a line in user space

`readline` of the user shell calls `sys_read` for one character at a time. The kernel answers a
special key with zero bytes, and `readline` takes every answer that is not positive for the end of
the input: it returns the characters it has, without a terminator.
-/
namespace TraitOS.Kush
open ByteMemory Runs

/-- What `sys_read` of one byte gives: the byte, zero bytes, or a negative result. -/
inductive Outcome
  | key (ch : UInt8)
  | special
  | error
deriving DecidableEq, Repr

/-- `TSYS_READ` with the key for which it has waited; `writable` is the test of the user's range. -/
def tsysRead (fd len : ℤ) (writable : Bool) (ch : Int8) : Outcome :=
  if fd ≠ 0 ∨ len ≤ 0 ∨ writable = false then .error
  else if ch < 0 then .special
  else .key ch.toUInt8

/-- The arguments of `readline`. -/
structure LineBuffer where
  addr : ℕ
  maxlen : ℕ
  maxlen_pos : 1 ≤ maxlen

structure Reader where
  mem : Memory
  i : ℕ
  echo : List UInt8

/-- In `sys_read`, or back from `readline`. -/
inductive Reading
  | waiting (s : Reader)
  | returned (s : Reader) (r : ℤ)

section Model
variable (B : LineBuffer)

/-- The two statements behind the loop. -/
def finish (s : Reader) : Reading :=
  .returned { s with mem := Function.update s.mem (B.addr + s.i) 0 } s.i

/-- The test of the loop. -/
def loop (s : Reader) : Reading := if s.i < B.maxlen - 1 then .waiting s else finish B s

def readlineStart (m : Memory) : Reading := loop B ⟨m, 0, []⟩

/-- The body of the loop behind `sys_read`. -/
def readlineStep (s : Reader) : Outcome → Reading
  | .key ch =>
    if ch = 10 ∨ ch = 13 then finish B { s with echo := s.echo ++ [10] }
    else if ch = 8 ∨ ch = 127 then
      loop B (if 0 < s.i then { s with i := s.i - 1, echo := s.echo ++ [32, 8] } else s)
    else loop B ⟨Function.update s.mem (B.addr + s.i) ch, s.i + 1, s.echo ++ [ch]⟩
  | .special => .returned s (if 0 < s.i then s.i else -1)
  | .error => .returned s (if 0 < s.i then s.i else -1)

end Model

/-! ## What was typed -/

/-- The line so far: its text, whether a character came at all, whether the line is over. -/
structure Typed where
  text : List UInt8
  started : Bool
  ended : Bool
deriving DecidableEq, Repr

/-- Characters and backspaces are applied up to the first newline or until the line is full; nothing
else counts. -/
def Typed.apply (maxlen : ℕ) (t : Typed) : Outcome → Typed
  | .key ch =>
    if t.ended then t
    else if ch = 10 ∨ ch = 13 then ⟨t.text, true, true⟩
    else
      let text := if ch = 8 ∨ ch = 127 then t.text.dropLast else t.text ++ [ch]
      ⟨text, true, decide (maxlen - 1 ≤ text.length)⟩
  | _ => t

structure Session where
  reading : Reading
  typed : Typed

section Session
variable (B : LineBuffer)

def newSession (m : Memory) : Session := ⟨readlineStart B m, ⟨[], false, decide (B.maxlen - 1 ≤ 0)⟩⟩

/-- The next outcome, while `readline` has not returned. -/
def read (k : Session) (o : Outcome) : Option Session :=
  match k.reading with
  | .waiting s => some ⟨readlineStep B s o, k.typed.apply B.maxlen o⟩
  | .returned .. => none

/-- If a length is returned, it is below `maxlen`, and the buffer has the text that was typed and a
terminator. -/
def Delivers (k : Session) : Prop :=
  ∀ s r, k.reading = .returned s r → 0 ≤ r →
    r < B.maxlen ∧ s.mem (B.addr + r.toNat) = 0 ∧ r.toNat = k.typed.text.length ∧
      ∀ j < r.toNat, s.mem (B.addr + j) = k.typed.text.getD j 0

/-- A special key after the first character does not end the line. -/
def KeepsLine (k : Session) (o : Outcome) (t : Session) : Prop :=
  o = .special → k.typed.started = true → ∃ s, t.reading = .waiting s

/-- No special key comes after the first character, and no error while characters are held and no
terminator is behind them. -/
def Undisturbed (k : Session) (o : Outcome) : Prop :=
  match k.reading, o with
  | .waiting _, .special => k.typed.started = false
  | .waiting s, .error => s.i = 0 ∨ s.mem (B.addr + s.i) = 0
  | _, _ => True

instance (k : Session) (o : Outcome) : Decidable (Undisturbed B k o) := by
  unfold Undisturbed
  split <;> infer_instance

end Session

/-! ## One outcome -/

section Step
variable {B : LineBuffer} {s : Reader} {t : Typed}

/-- The buffer holds what was typed. -/
structure Holds (B : LineBuffer) (s : Reader) (t : Typed) : Prop where
  length : s.i = t.text.length
  bytes : ∀ j < s.i, s.mem (B.addr + j) = t.text.getD j 0
  started : t.started = false → s.i = 0

/-- While `readline` waits, the buffer holds the line and has room for a character. -/
def Ready (B : LineBuffer) (k : Session) : Prop :=
  ∀ s, k.reading = .waiting s → Holds B s k.typed ∧ s.i < B.maxlen - 1 ∧ k.typed.ended = false

lemma Holds.finish (h : Holds B s t) (hlt : s.i < B.maxlen) : Delivers B ⟨finish B s, t⟩ := by
  rintro _ _ ⟨⟩ -
  refine ⟨Int.ofNat_lt.mpr hlt, Function.update_self .., h.length, fun j hj => ?_⟩
  rw [Int.toNat_natCast] at hj
  exact (Function.update_of_ne (by omega) _ _).trans (h.bytes j hj)

lemma Holds.loop (h : Holds B s t) (hlt : s.i < B.maxlen)
    (hended : t.ended = decide (B.maxlen - 1 ≤ s.i)) :
    Delivers B ⟨loop B s, t⟩ ∧ Ready B ⟨loop B s, t⟩ := by
  unfold Kush.loop
  by_cases hroom : s.i < B.maxlen - 1
  · rw [if_pos hroom]
    refine ⟨nofun, ?_⟩
    rintro _ ⟨⟩
    exact ⟨h, hroom, hended.trans (decide_eq_false (by omega))⟩
  · rw [if_neg hroom]
    exact ⟨h.finish hlt, nofun⟩

lemma getD_dropLast (text : List UInt8) {j : ℕ} (h : j < text.length - 1) : text.dropLast.getD j 0 =
    text.getD j 0 := by
  rw [List.getD_eq_getElem?_getD, List.getD_eq_getElem?_getD, List.getElem?_dropLast, if_pos h]

lemma Holds.erase (h : Holds B s t) (echo : List UInt8) (ended : Bool) :
    Holds B (if 0 < s.i then { s with i := s.i - 1, echo := echo }
      else s) ⟨t.text.dropLast, true, ended⟩ := by
  have hlen := h.length
  by_cases hpos : 0 < s.i
  · rw [if_pos hpos]
    refine ⟨?_, fun j hj => ?_, nofun⟩
    · rw [List.length_dropLast, ← hlen]
    · dsimp only at hj ⊢
      rw [getD_dropLast t.text (by omega)]
      exact h.bytes j (by omega)
  · rw [if_neg hpos]
    refine ⟨?_, fun j hj => absurd hj (by omega), nofun⟩
    rw [List.length_dropLast]
    omega

lemma Holds.store (h : Holds B s t) (ch : UInt8) (echo : List UInt8) (ended : Bool) :
    Holds B ⟨Function.update s.mem (B.addr + s.i) ch, s.i + 1, echo⟩ ⟨t.text ++ [ch], true,
      ended⟩ := by
  have hlen := h.length
  refine ⟨?_, fun j hj => ?_, nofun⟩
  · rw [List.length_append, List.length_singleton, hlen]
  · rcases Nat.lt_succ_iff_lt_or_eq.mp hj with hold | rfl
    · rw [List.getD_append _ _ _ _ (hlen ▸ hold)]
      exact (Function.update_of_ne (by omega) _ _).trans (h.bytes j hold)
    · rw [List.getD_append_right _ _ _ _ hlen.ge, ← hlen, Nat.sub_self]
      exact Function.update_self ..

/-- A character is applied as the reference does. -/
lemma Holds.key (h : Holds B s t) (hroom : s.i < B.maxlen - 1) (hended : t.ended = false)
    (ch : UInt8) :
    Delivers B ⟨readlineStep B s (.key ch), t.apply B.maxlen (.key ch)⟩ ∧
      Ready B ⟨readlineStep B s (.key ch), t.apply B.maxlen (.key ch)⟩ := by
  have hlen := h.length
  rw [readlineStep, Typed.apply, hended, if_neg Bool.false_ne_true]
  by_cases hnl : ch = 10 ∨ ch = 13
  · rw [if_pos hnl, if_pos hnl]
    have hsame : Holds B { s with echo := s.echo ++ [10] } ⟨t.text, true, true⟩ :=
      ⟨hlen, h.bytes, nofun⟩
    exact ⟨hsame.finish (by dsimp only; omega), nofun⟩
  rw [if_neg hnl, if_neg hnl]
  by_cases hbs : ch = 8 ∨ ch = 127
  · simp only [if_pos hbs]
    have hnext := h.erase (s.echo ++ [32, 8]) (decide (B.maxlen - 1 ≤ t.text.dropLast.length))
    have hlength := hnext.length
    dsimp only at hlength
    rw [List.length_dropLast] at hlength
    exact hnext.loop (by omega) (by rw [hnext.length])
  · simp only [if_neg hbs]
    have hnext := h.store ch (s.echo ++ [ch]) (decide (B.maxlen - 1 ≤ (t.text ++ [ch]).length))
    exact hnext.loop (by dsimp only; omega) (by rw [hnext.length])

/-- An outcome without a character returns what is held, or -1. -/
lemma Holds.returned (h : Holds B s t) (hroom : s.i < B.maxlen - 1) :
    Delivers B ⟨.returned s (if 0 < s.i then s.i else -1), t⟩ ↔ s.i = 0 ∨ s.mem (B.addr + s.i) =
      0 := by
  by_cases hpos : 0 < s.i
  · rw [if_pos hpos]
    constructor
    · intro hdelivers
      exact Or.inr (hdelivers s s.i rfl (Int.natCast_nonneg _)).2.1
    · rintro (hzero | hterminated)
      · omega
      · rintro _ _ ⟨⟩ -
        exact ⟨by omega, hterminated, h.length, h.bytes⟩
  · rw [if_neg hpos]
    refine iff_of_true ?_ (Or.inl (by omega))
    rintro _ _ ⟨⟩ hneg
    exact absurd hneg (by decide)

lemma Ready.step {k k' : Session} {o : Outcome} (h : Ready B k) (hstep : read B k o = some k') :
    (Delivers B k' ∧ KeepsLine k o k' ↔ Undisturbed B k o) ∧ (Undisturbed B k o → Ready B k') := by
  obtain ⟨reading, t⟩ := k
  cases reading with
  | returned s r => exact nomatch hstep
  | waiting s =>
    obtain ⟨hholds, hroom, hended⟩ := h s rfl
    cases hstep
    cases o with
    | key ch =>
      obtain ⟨hdelivers, hready⟩ := hholds.key hroom hended ch
      exact ⟨iff_of_true ⟨hdelivers, nofun⟩ trivial, fun _ => hready⟩
    | special =>
      refine ⟨?_, fun _ => nofun⟩
      constructor
      · intro hboth
        by_contra hstarted
        obtain ⟨_, hwaiting⟩ := hboth.2 rfl (Bool.eq_true_of_not_eq_false hstarted)
        exact nomatch hwaiting
      · intro hstarted
        have hzero := hholds.started hstarted
        exact ⟨(hholds.returned hroom).mpr (Or.inl hzero),
          fun _ htrue => absurd (hstarted.symm.trans htrue) nofun⟩
    | error => exact ⟨(and_iff_left nofun).trans (hholds.returned hroom), fun _ => nofun⟩

end Step

/-! ## Whole lines -/

lemma newSession_spec (B : LineBuffer) (m : Memory) : Delivers B (newSession B m) ∧
    Ready B (newSession B m) := by
  have hholds : Holds B ⟨m, 0, []⟩ ⟨[], false, decide (B.maxlen - 1 ≤ 0)⟩ :=
    ⟨rfl, nofun, fun _ => rfl⟩
  exact hholds.loop B.maxlen_pos rfl

/-- With any outcomes, `readline` keeps its contract at every point exactly if it is not disturbed
by a special key or an error inside the line. -/
theorem readline_iff (B : LineBuffer) (m : Memory) (outcomes : List Outcome) (u : Session)
    (hrun : exec (read B) (newSession B m) outcomes = some u) :
    Delivers B (newSession B m) ∧
        Along (read B) (fun k o k' => Delivers B k' ∧ KeepsLine k o k') (newSession B m) outcomes ↔
      exec (guarded (read B) (Undisturbed B)) (newSession B m) outcomes = some u := by
  rw [and_iff_right (newSession_spec B m).1]
  exact along_iff_guarded (fun _ _ _ h hstep => h.step hstep) outcomes (newSession_spec B m).2 hrun

/-- The buffer of `kush_main`. -/
def kushLine : LineBuffer := ⟨0, 128, by decide⟩

/-- Two letters, a backspace and Enter. -/
theorem readline_typing :
    ∃ u, exec (read kushLine) (newSession kushLine fun _ => 255) [.key 97, .key 98, .key 8,
      .key 10] = some u ∧
      Along (read kushLine) (fun k o k' => Delivers kushLine k' ∧
        KeepsLine k o k') (newSession kushLine fun _ => 255)
        [.key 97, .key 98, .key 8, .key 10] := by
  have hsome : (exec (guarded (read kushLine) (Undisturbed kushLine))
      (newSession kushLine fun _ => 255)
      [.key 97, .key 98, .key 8, .key 10]).isSome = true := by decide +kernel
  obtain ⟨u, hu⟩ := Option.isSome_iff_exists.mp hsome
  exact ⟨u, exec_of_guarded _ hu, ((readline_iff kushLine _ _ u (exec_of_guarded _ hu)).mpr hu).2⟩

/-- A letter and an arrow key: the line ends with one character and no terminator. -/
theorem special_key_ends_line :
    ∃ s, (exec (read kushLine) (newSession kushLine fun _ => 255)
      ([97, Ternel.keyUp].map (tsysRead 0 1 true))).map
        Session.reading = some (.returned s 1) ∧ s.mem (kushLine.addr + 1) = 255 :=
  ⟨⟨Function.update (fun _ => 255) 0 97, 1, [97]⟩, rfl, by decide⟩

end TraitOS.Kush
