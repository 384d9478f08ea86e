import Mathlib.Algebra.Group.Nat.Defs
import Mathlib.Data.List.DropRight

/-!
# Text as lists of characters

What Rust's `str` gives to a parser of decimal numbers: `trim` takes the whitespace from both ends,
and `parseUsize` reads a 64-bit number. `Padded n s` says that the text `s` spells `n` in decimal,
with any whitespace around the digits; such text is trimmed and read back as `n`
(`Padded.parseUsize_trim`).
-/

namespace Text

/-- `char::is_whitespace`: the characters with the property `White_Space`. -/
def isWhitespace (c : Char) : Bool :=
  (0x9 ≤ c.toNat && c.toNat ≤ 0xD) || c.toNat == 0x20 || c.toNat == 0x85 || c.toNat == 0xA0 ||
    c.toNat == 0x1680 || (0x2000 ≤ c.toNat && c.toNat ≤ 0x200A) || c.toNat == 0x2028 ||
    c.toNat == 0x2029 || c.toNat == 0x202F || c.toNat == 0x205F || c.toNat == 0x3000

/-- `str::trim`. -/
def trim (s : List Char) : List Char := (s.dropWhile isWhitespace).rdropWhile isWhitespace

/-- The digits that are left, after those that have the value `acc`. A value past 64 bits is an
error. -/
def parseDigits : ℕ → List Char → Option ℕ
  | acc, [] => some acc
  | acc, c :: s =>
    if c.isDigit ∧ 10 * acc + (c.toNat - '0'.toNat) < 2^64 then
      parseDigits (10 * acc + (c.toNat - '0'.toNat)) s
    else none

/-- `str::parse::<usize>`, without the kind of its error. One sign `+` may come first. -/
def parseUsize : List Char → Option ℕ
  | [] => none
  | c :: s => if c = '+' then if s = [] then none else parseDigits 0 s else parseDigits 0 (c :: s)

/-- The text is a number in decimal, possibly with leading zeros. -/
structure Numeral (n : ℕ) (s : List Char) : Prop where
  /-- There is a digit. -/
  ne_nil : s ≠ []
  /-- There is nothing else. -/
  digits : ∀ c ∈ s, c.isDigit = true
  /-- The digits have the value. -/
  value : Nat.ofDigitChars 10 s 0 = n

/-- The text is a number in decimal with whitespace around it. -/
def Padded (n : ℕ) (s : List Char) : Prop :=
  ∃ left digits right, (∀ c ∈ left, isWhitespace c = true) ∧ Numeral n digits ∧
    (∀ c ∈ right, isWhitespace c = true) ∧ s = left ++ digits ++ right

/-- The printed number. -/
theorem numeral_toDigits (n : ℕ) : Numeral n (Nat.toDigits 10 n) where
  ne_nil := Nat.toDigits_ne_nil
  digits _ hc := Nat.isDigit_of_mem_toDigits (by decide) (by decide) hc
  value := Nat.ofDigitChars_ten_toDigits

/-- A number with nothing around it. -/
theorem Numeral.padded {n : ℕ} {s : List Char} (h : Numeral n s) : Padded n s :=
  ⟨[], s, [], by simp, h, by simp, by simp⟩

/-- More whitespace may follow. -/
theorem Padded.append {n : ℕ} {s ws : List Char} (h : Padded n s)
    (hws : ∀ c ∈ ws, isWhitespace c = true) : Padded n (s ++ ws) := by
  obtain ⟨left, digits, right, hleft, hdigits, hright, rfl⟩ := h
  refine ⟨left, digits, right ++ ws, hleft, hdigits, ?_, by rw [List.append_assoc]⟩
  intro c hc
  exact (List.mem_append.mp hc).elim (hright c) (hws c)

/-- A digit is no whitespace. -/
theorem isWhitespace_of_isDigit {c : Char} (h : c.isDigit = true) : isWhitespace c = false := by
  have hc : 48 ≤ c.toNat ∧ c.toNat ≤ 57 := by
    simpa [Char.isDigit, UInt32.le_iff_toNat_le] using h
  simp only [isWhitespace, Bool.or_eq_false_iff, Bool.and_eq_false_iff, decide_eq_false_iff_not,
    beq_eq_false_iff_ne]
  omega

/-- Every character of a padded number is a digit or whitespace. -/
theorem Padded.mem {n : ℕ} {s : List Char} (h : Padded n s) {c : Char} (hc : c ∈ s) :
    c.isDigit = true ∨ isWhitespace c = true := by
  obtain ⟨left, digits, right, hleft, hdigits, hright, rfl⟩ := h
  rcases List.mem_append.mp hc with hc | hc
  · exact (List.mem_append.mp hc).elim (fun h => Or.inr (hleft c h))
      fun h => Or.inl (hdigits.digits c h)
  · exact Or.inr (hright c hc)

/-- `trim` takes the whitespace around a text without whitespace at its ends. -/
theorem trim_padding {left s right : List Char} (hleft : ∀ c ∈ left, isWhitespace c = true)
    (hs : ∀ c ∈ s, isWhitespace c = false) (hne : s ≠ [])
    (hright : ∀ c ∈ right, isWhitespace c = true) : trim (left ++ s ++ right) = s := by
  have hfront : (left ++ s ++ right).dropWhile isWhitespace = s ++ right := by
    rw [List.append_assoc, List.dropWhile_append_of_pos hleft]
    obtain ⟨c, s, rfl⟩ := List.exists_cons_of_ne_nil hne
    rw [List.cons_append, List.dropWhile_cons_of_neg]
    simp [hs c List.mem_cons_self]
  -- From the back the text is read in reverse.
  have hback : (s ++ right).reverse.dropWhile isWhitespace = s.reverse := by
    rw [List.reverse_append,
      List.dropWhile_append_of_pos fun c hc => hright c (List.mem_reverse.mp hc)]
    obtain ⟨s, c, rfl⟩ := (List.eq_nil_or_concat' s).resolve_left hne
    rw [List.reverse_concat, List.dropWhile_cons_of_neg]
    simp [hs c (by simp)]
  rw [trim, hfront, List.rdropWhile, hback, List.reverse_reverse]

/-- The value of digits only grows with each further digit. -/
theorem le_ofDigitChars (s : List Char) (acc : ℕ) : acc ≤ Nat.ofDigitChars 10 s acc := by
  induction s generalizing acc with
  | nil => exact le_rfl
  | cons c s ih =>
    rw [Nat.ofDigitChars_cons]
    have hle := ih (10 * acc + (c.toNat - '0'.toNat))
    omega

/-- Digits whose value is a 64-bit number are read. -/
theorem parseDigits_eq {s : List Char} (hdigits : ∀ c ∈ s, c.isDigit = true) {acc : ℕ}
    (hlt : Nat.ofDigitChars 10 s acc < 2^64) :
    parseDigits acc s = some (Nat.ofDigitChars 10 s acc) := by
  induction s generalizing acc with
  | nil => rfl
  | cons c s ih =>
    rw [Nat.ofDigitChars_cons] at hlt ⊢
    have hle := le_ofDigitChars s (10 * acc + (c.toNat - '0'.toNat))
    rw [parseDigits, if_pos ⟨hdigits c List.mem_cons_self, Nat.lt_of_le_of_lt hle hlt⟩]
    exact ih (fun c hc => hdigits c (List.mem_cons_of_mem _ hc)) hlt

/-- A numeral of a 64-bit number is read. -/
theorem Numeral.parseUsize_eq {n : ℕ} {s : List Char} (h : Numeral n s) (hlt : n < 2^64) :
    parseUsize s = some n := by
  obtain ⟨hne, hdigits, hvalue⟩ := h
  obtain ⟨c, s, rfl⟩ := List.exists_cons_of_ne_nil hne
  have hsign : c ≠ '+' := by
    rintro rfl
    exact absurd (hdigits '+' List.mem_cons_self) (by decide)
  rw [parseUsize, if_neg hsign, parseDigits_eq hdigits (by rw [hvalue]; exact hlt), hvalue]

/-- A padded number is read once it is trimmed. -/
theorem Padded.parseUsize_trim {n : ℕ} {s : List Char} (h : Padded n s) (hlt : n < 2^64) :
    parseUsize (trim s) = some n := by
  obtain ⟨left, digits, right, hleft, hdigits, hright, rfl⟩ := h
  rw [trim_padding hleft (fun c hc => isWhitespace_of_isDigit (hdigits.digits c hc))
    hdigits.ne_nil hright]
  exact hdigits.parseUsize_eq hlt

/-- Whitespace alone is no number. -/
theorem parseUsize_trim_whitespace {s : List Char} (h : ∀ c ∈ s, isWhitespace c = true) :
    parseUsize (trim s) = none := by
  rw [trim, List.dropWhile_eq_nil_iff.mpr h]
  rfl

end Text
