import TraitOS.Runs
import TraitOS.TernelEditor

/-!
# The scancode decoder

The keyboard interrupt decodes scancodes of set 1 with three flags: a prefix was seen, Shift is
pressed, Caps Lock is on. One flag stands for both Shift keys. Beside the flags we record which of
the two keys is held, by their own make and break codes: the flag is right until one Shift key is
released while the other is held.
-/
namespace TraitOS.Keyboard
open Runs Ternel

/-- Scancode set 1, unshifted. -/
def scancodeLower : List Int8 :=
  [0, 27, 49, 50, 51, 52, 53, 54, 55, 56, 57, 48, 45, 61, 8, 9,
    113, 119, 101, 114, 116, 121, 117, 105, 111, 112, 91, 93, 10, 0, 97, 115,
    100, 102, 103, 104, 106, 107, 108, 59, 39, 96, 0, 92, 122, 120, 99, 118,
    98, 110, 109, 44, 46, 47, 0, 42, 0, 32, 0, 0, 0, 0, 0, 0] ++ List.replicate 64 0

/-- Scancode set 1, shifted. -/
def scancodeShifted : List Int8 :=
  [0, 27, 33, 64, 35, 36, 37, 94, 38, 42, 40, 41, 95, 43, 8, 9,
    81, 87, 69, 82, 84, 89, 85, 73, 79, 80, 123, 125, 10, 0, 65, 83,
    68, 70, 71, 72, 74, 75, 76, 58, 34, 126, 0, 124, 90, 88, 67, 86,
    66, 78, 77, 60, 62, 63, 0, 42, 0, 32, 0, 0, 0, 0, 0, 0] ++ List.replicate 64 0

abbrev scanLshift : UInt8 := 0x2A
abbrev scanRshift : UInt8 := 0x36
abbrev scanCaps : UInt8 := 0x3A
abbrev scanE0 : UInt8 := 0xE0
def keyIns : Int8 := -9

structure Decoder where
  e0Pending : Bool
  shiftPressed : Bool
  capsOn : Bool
deriving DecidableEq, Repr

/-- The key code of an extended make code; other extended keys are dropped. -/
def extendedKey (scancode : UInt8) : Option Int8 :=
  if scancode = 0x48 then some keyUp
  else if scancode = 0x50 then some keyDown
  else if scancode = 0x4B then some keyLeft
  else if scancode = 0x4D then some keyRight
  else if scancode = 0x47 then some keyHome
  else if scancode = 0x4F then some keyEnd
  else if scancode = 0x52 then some keyIns
  else if scancode = 0x53 then some keyDel
  else none

/-- The character of a key, if the table has one. -/
def lookup (table : List Int8) (capsOn : Bool) (scancode : UInt8) : Option Int8 :=
  let c := table.getD scancode.toNat 0
  let c := if 97 ≤ c ∧ c ≤ 122 ∧ capsOn then c - 97 + 65 else c
  if c = 0 then none else some c

/-- One interrupt: the flags after it, and the argument of `key_buffer_push` if it is called. -/
def keyboardCallback (d : Decoder) (scancode : UInt8) : Decoder × Option Int8 :=
  if scancode = scanE0 then ({ d with e0Pending := true }, none)
  else if scancode &&& 0x80 ≠ 0 then
    if d.e0Pending then ({ d with e0Pending := false }, none)
    else if scancode &&& 0x7F = scanLshift ∨ scancode &&& 0x7F = scanRshift then
      ({ d with shiftPressed := false }, none)
    else (d, none)
  else if d.e0Pending then ({ d with e0Pending := false }, extendedKey scancode)
  else if scancode = scanLshift ∨ scancode = scanRshift then ({ d with shiftPressed := true }, none)
  else if scancode = scanCaps then ({ d with capsOn := !d.capsOn }, none)
  else if 128 ≤ scancode then (d, none)
  else (d, lookup (if d.shiftPressed then scancodeShifted else scancodeLower) d.capsOn scancode)

/-! ## The keys that are held -/

/-- What the codes so far say: whether the next one is extended, and which Shift keys are held. -/
structure Held where
  extended : Bool
  left : Bool
  right : Bool
deriving DecidableEq, Repr

/-- Only a key's own codes, without the extension, press and release it. -/
def Held.track (h : Held) (scancode : UInt8) : Held :=
  if scancode = 0xE0 then { h with extended := true }
  else if h.extended then { h with extended := false }
  else if scancode = 0x2A then { h with left := true }
  else if scancode = 0xAA then { h with left := false }
  else if scancode = 0x36 then { h with right := true }
  else if scancode = 0xB6 then { h with right := false }
  else h

def Held.shift (h : Held) : Bool := h.left || h.right

structure Keys where
  decoder : Decoder
  held : Held
deriving DecidableEq, Repr

/-- The flags after boot, with no key held. -/
def noKeys : Keys := ⟨⟨false, false, false⟩, ⟨false, false, false⟩⟩

def interrupt (k : Keys) (scancode : UInt8) : Option Keys :=
  some ⟨(keyboardCallback k.decoder scancode).1, k.held.track scancode⟩

/-- The make codes of the keys that are no modifiers. -/
def IsPlain (scancode : UInt8) : Prop :=
  scancode < 128 ∧ scancode ≠ 0x2A ∧ scancode ≠ 0x36 ∧ scancode ≠ 0x3A

/-- If the next code is not extended, every plain key is looked up in the shifted table exactly if a
Shift key is held. -/
def Translates (k : Keys) : Prop :=
  k.held.extended = false → ∀ scancode, IsPlain scancode →
    (keyboardCallback k.decoder scancode).2 =
      lookup (if k.held.shift then scancodeShifted else scancodeLower) k.decoder.capsOn scancode

/-- A prefix and the code after it change no Shift state and give no plain character. -/
def ExtendedInert (k : Keys) (scancode : UInt8) (t : Keys) : Prop :=
  scancode = 0xE0 ∨ k.held.extended = true →
    t.decoder.shiftPressed = k.decoder.shiftPressed ∧ ∀ c, (keyboardCallback k.decoder scancode).2 =
      some c → c < 0

/-- A Shift key is released only while the other one is not held. -/
def ReleasedAlone (k : Keys) (scancode : UInt8) : Prop :=
  k.held.extended = false → (scancode = 0xAA → k.held.right = false) ∧
    (scancode = 0xB6 → k.held.left = false)

instance (k : Keys) (scancode : UInt8) : Decidable (ReleasedAlone k scancode) :=
  inferInstanceAs (Decidable (_ → _))

/-! ## One interrupt -/

section Callback
variable (d : Decoder) (scancode : UInt8)

/-- The break codes of the Shift keys. -/
lemma shift_break :
    (scancode &&& 0x80 ≠ 0 ∧ (scancode &&& 0x7F = scanLshift ∨ scancode &&& 0x7F = scanRshift)) ↔
    scancode = 0xAA ∨ scancode = 0xB6 := by
  have hall : ∀ n : Fin 256, (UInt8.ofNat n &&& 0x80 ≠ 0 ∧
      (UInt8.ofNat n &&& 0x7F = scanLshift ∨ UInt8.ofNat n &&& 0x7F = scanRshift)) ↔
        UInt8.ofNat n = 0xAA ∨ UInt8.ofNat n = 0xB6 := by decide +kernel
  simpa using hall ⟨scancode.toNat, scancode.toNat_lt⟩

lemma make_lt : scancode &&& 0x80 = 0 ↔ scancode < 128 := by
  have hall : ∀ n : Fin 256, UInt8.ofNat n &&& 0x80 = 0 ↔ UInt8.ofNat n < 128 := by decide +kernel
  simpa using hall ⟨scancode.toNat, scancode.toNat_lt⟩

lemma callback_e0Pending : (keyboardCallback d scancode).1.e0Pending =
    decide (scancode = 0xE0) := by
  unfold keyboardCallback scanE0
  split_ifs <;> simp_all

lemma callback_shiftPressed : (keyboardCallback d scancode).1.shiftPressed =
    if scancode = 0xE0 ∨ d.e0Pending = true then d.shiftPressed
    else if scancode = 0xAA ∨ scancode = 0xB6 then false
    else if scancode = 0x2A ∨ scancode = 0x36 then true
    else d.shiftPressed := by
  have hbreak := shift_break scancode
  by_cases hext : scancode = 0xE0 ∨ d.e0Pending = true
  · rw [if_pos hext]
    unfold keyboardCallback scanE0
    split_ifs <;> simp_all
  · obtain ⟨hE0, hpending⟩ := not_or.mp hext
    rw [if_neg hext, keyboardCallback, if_neg hE0, if_neg hpending, if_neg hpending]
    by_cases hrelease : scancode = 0xAA ∨ scancode = 0xB6
    · obtain ⟨hbit, hkey⟩ := hbreak.mpr hrelease
      rw [if_pos hrelease, if_pos hbit, if_pos hkey]
    · rw [if_neg hrelease]
      by_cases hbit : scancode &&& 0x80 ≠ 0
      · have hmake : ¬ (scancode = 0x2A ∨ scancode = 0x36) := by
          rintro (rfl | rfl) <;> exact hbit rfl
        rw [if_pos hbit, if_neg fun hkey => hrelease (hbreak.mp ⟨hbit, hkey⟩), if_neg hmake]
      · rw [if_neg hbit]
        unfold scanLshift scanRshift
        split_ifs <;> rfl

lemma callback_plain (hpending : d.e0Pending = false) (h : IsPlain scancode) :
    keyboardCallback d scancode =
      (d, lookup (if d.shiftPressed then scancodeShifted else scancodeLower) d.capsOn scancode) :=
        by
  obtain ⟨hlt, hleft, hright, hcaps⟩ := h
  have hE0 : scancode ≠ scanE0 := by
    rintro rfl
    exact absurd hlt (by decide)
  have hshift : ¬ (scancode = scanLshift ∨ scancode = scanRshift) := not_or.mpr ⟨hleft, hright⟩
  rw [keyboardCallback, if_neg hE0, if_neg (not_not.mpr ((make_lt scancode).mpr hlt)), hpending,
    if_neg nofun, if_neg hshift, if_neg hcaps, if_neg (UInt8.not_le.mpr hlt)]

/-- The codes of the extended keys are negative. -/
lemma extendedKey_neg {c : Int8} (h : extendedKey scancode = some c) : c < 0 := by
  unfold extendedKey at h
  split_ifs at h <;> obtain rfl := Option.some.inj h <;> decide

lemma callback_extended (hext : scancode = 0xE0 ∨ d.e0Pending = true) {c : Int8}
    (h : (keyboardCallback d scancode).2 = some c) : c < 0 := by
  unfold keyboardCallback scanE0 at h
  split_ifs at h with hE0 hbit hpending hpending
  all_goals simp_all
  exact extendedKey_neg scancode h

end Callback

section Step
variable {k : Keys}

lemma track_extended (h : Held) (scancode : UInt8) : (h.track scancode).extended =
    decide (scancode = 0xE0) := by
  unfold Held.track
  split_ifs <;> simp_all

/-- The decoder's flags agree with the keys that are held. -/
structure InStep (k : Keys) : Prop where
  pending : k.decoder.e0Pending = k.held.extended
  shift : k.decoder.shiftPressed = k.held.shift

/-- The key of the digit 1 tells the tables apart. -/
lemma eq_of_lookup_digit : ∀ capsOn shift shift' : Bool,
    lookup (if shift then scancodeShifted else scancodeLower) capsOn 0x02 =
      lookup (if shift' then scancodeShifted else scancodeLower) capsOn 0x02 → shift = shift' := by
        decide

lemma translates_iff (hpending : k.decoder.e0Pending = k.held.extended) :
    Translates k ↔ (k.held.extended = false → k.decoder.shiftPressed = k.held.shift) := by
  refine forall_congr' fun hext => ?_
  rw [hext] at hpending
  constructor
  · intro h
    have hplain : IsPlain 0x02 := by
      unfold IsPlain
      decide
    have hdigit := h 0x02 hplain
    rw [callback_plain _ _ hpending hplain] at hdigit
    exact eq_of_lookup_digit _ _ _ hdigit
  · intro h scancode hplain
    rw [callback_plain _ _ hpending hplain, h]

/-- After a code the flag is right exactly if no Shift key was released beside the other. -/
lemma InStep.shift_iff (h : InStep k) (scancode : UInt8) :
    (keyboardCallback k.decoder scancode).1.shiftPressed = (k.held.track scancode).shift ↔
      ReleasedAlone k scancode := by
  rw [callback_shiftPressed, h.pending, h.shift]
  unfold ReleasedAlone Held.track Held.shift
  by_cases hE0 : scancode = 0xE0
  · simp [hE0]
  by_cases hext : k.held.extended = true
  · simp [hE0, hext]
  by_cases hmake : scancode = 0x2A ∨ scancode = 0x36
  · rcases hmake with rfl | rfl <;> simp [hext]
  by_cases hbreak : scancode = 0xAA ∨ scancode = 0xB6
  · rcases hbreak with rfl | rfl <;> simp [hext]
  · obtain ⟨hleft, hright⟩ := not_or.mp hmake
    obtain ⟨hleft', hright'⟩ := not_or.mp hbreak
    simp [hE0, hext, hleft, hright, hleft', hright']

lemma InStep.next (h : InStep k) {scancode : UInt8} {t : Keys}
    (hstep : interrupt k scancode = some t) :
    (Translates t ∧ ExtendedInert k scancode t ↔ ReleasedAlone k scancode) ∧
      (ReleasedAlone k scancode → InStep t) := by
  cases hstep
  have hpending :=
    (callback_e0Pending k.decoder scancode).trans (track_extended k.held scancode).symm
  have hinert : ExtendedInert k scancode ⟨(keyboardCallback k.decoder scancode).1,
    k.held.track scancode⟩ := by
    intro hext
    rw [← h.pending] at hext
    exact ⟨by rw [callback_shiftPressed, if_pos hext], fun c hc => callback_extended _ _ hext hc⟩
  have hshift := h.shift_iff scancode
  refine ⟨?_, fun halone => ⟨hpending, hshift.mpr halone⟩⟩
  rw [and_iff_left hinert, translates_iff hpending]
  constructor
  · intro htranslates
    by_cases hE0 : scancode = 0xE0
    · rw [hE0]
      exact fun _ => ⟨nofun, nofun⟩
    · refine hshift.mp (htranslates ?_)
      rw [track_extended, decide_eq_false hE0]
  · exact fun halone _ => hshift.mpr halone

end Step

/-! ## Whole sequences -/

lemma noKeys_inStep : InStep noKeys := ⟨rfl, rfl⟩

/-- After every sequence of scancodes the plain keys are translated by the Shift keys that are held,
and the extended codes change nothing, exactly if each Shift key is released only while the other is
not held. -/
theorem shift_tracking_iff (scancodes : List UInt8) (u : Keys)
    (hrun : exec interrupt noKeys scancodes = some u) :
    Along interrupt (fun k scancode t => Translates t ∧
      ExtendedInert k scancode t) noKeys scancodes ↔
      exec (guarded interrupt ReleasedAlone) noKeys scancodes = some u :=
  along_iff_guarded (fun _ _ _ h hstep => h.next hstep) scancodes noKeys_inStep hrun

/-- Both Shift keys one after the other, and the extended Left Shift code inside. -/
theorem shift_tracking_sample :
    Along interrupt (fun k scancode t => Translates t ∧ ExtendedInert k scancode t) noKeys
      [0x2A, 0x1E, 0xE0, 0xAA, 0xAA, 0x36, 0xB6] :=
  (shift_tracking_iff [0x2A, 0x1E, 0xE0, 0xAA, 0xAA, 0x36, 0xB6] noKeys (by decide)).mpr (by decide)

/-- Left Shift is released while Right Shift is held: the key of the letter a gives a small letter.
-/
theorem released_shift_hides_other :
    ∃ u, exec interrupt noKeys [0x2A, 0x36, 0xAA] = some u ∧ u.held.right = true ∧
      u.decoder.capsOn = false ∧ (keyboardCallback u.decoder 0x1E).2 = some 97 ∧
      lookup scancodeShifted false 0x1E = some 65 :=
  ⟨⟨⟨false, false, false⟩, ⟨false, false, true⟩⟩, by decide, by decide, by decide, by decide,
    by decide⟩

end TraitOS.Keyboard
