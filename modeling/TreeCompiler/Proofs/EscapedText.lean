import Mathlib
import TreeCompiler.Text.Escape

/-!
# Reading escaped text

A quoted text is read from its opening quote to the quote that closes it. No other quote closes it,
since every quote inside stands behind an odd number of backslashes.
-/

namespace TreeCompiler.Text

/-- Where a reader stands inside a quoted text. -/
inductive Reading where
  | plain
  | escaped
  /-- Among the digits of a code point, with the number read so far. -/
  | codePoint (number : Nat)

/-- The number so far, with one more hexadecimal digit. -/
def addDigit (number : Nat) (digit : Char) : Nat :=
  16 * number + if digit.isDigit then digit.toNat - '0'.toNat else digit.toNat - 'a'.toNat + 10

/-- Reads up to the closing quote: what the text stands for, and what follows the quote. -/
def readOn : Reading → List Char → Option (List Char × List Char)
  | _, [] => none
  | .plain, c :: rest =>
    if c = '"' then some ([], rest)
    else if c = '\\' then readOn .escaped rest
    else (readOn .plain rest).map (Prod.map (c :: ·) id)
  | .escaped, c :: rest =>
    if c = 'u' then readOn (.codePoint 0) rest
    else
      let meant := if c = 'n' then '\n' else if c = 'r' then '\r' else if c = 't' then '\t' else c
      (readOn .plain rest).map (Prod.map (meant :: ·) id)
  | .codePoint number, c :: rest =>
    if c = '\x7b' then readOn (.codePoint number) rest
    else if c = '\x7d' then (readOn .plain rest).map (Prod.map (Char.ofNat number :: ·) id)
    else readOn (.codePoint (addDigit number c)) rest

/-- Reads a quoted text that stands at the front, and gives it with what follows. -/
def unquote (text : String) : Option (String × String) :=
  match text.toList with
  | '"' :: rest => (readOn .plain rest).map (Prod.map String.ofList String.ofList)
  | _ => none

/-- The ways a character is written: after a backslash, by its code point, or as it is. -/
inductive Written : Char → List Char → Prop
  | marked {c mark : Char} (known : (c, mark) ∈
      [('"', '"'), ('\\', '\\'), ('\n', 'n'), ('\r', 'r'), ('\t', 't')]) : Written c ['\\', mark]
  | coded {c : Char} (control : isControl c = true) : Written c (codePointForm c)
  | itself {c : Char} (quote : c ≠ '"') (backslash : c ≠ '\\') (visible : isControl c = false) : Written c [c]

theorem written_stringCharForm (c : Char) : Written c (stringCharForm c) := by
  unfold stringCharForm charForm
  split_ifs with quote apostrophe backslash newline ret tab control
  · exact .marked (by simp [quote])
  · subst apostrophe
    exact .itself (by decide) (by decide) (by decide)
  · exact .marked (by simp [backslash])
  · exact .marked (by simp [newline])
  · exact .marked (by simp [ret])
  · exact .marked (by simp [tab])
  · exact .coded control
  · exact .itself quote backslash (by simpa using control)

/-- The code point of a control character is read back from its digits, which mean nothing else. -/
theorem digits_of_isControl {c : Char} (control : isControl c = true) :
    (Nat.toDigits 16 c.toNat).foldl addDigit 0 = c.toNat ∧ ∀ digit ∈ Nat.toDigits 16 c.toNat,
      (digit ≠ '\x7b' ∧ digit ≠ '\x7d') ∧ (digit ≠ '"' ∧ digit ≠ '\\') ∧ isControl digit = false := by
  have small : c.toNat < 160 := by
    simp [isControl] at control
    omega
  have each : ∀ number < 160, (Nat.toDigits 16 number).foldl addDigit 0 = number ∧
      (Nat.toDigits 16 number).all (fun digit => (digit ≠ '\x7b' ∧ digit ≠ '\x7d') ∧
        (digit ≠ '"' ∧ digit ≠ '\\') ∧ isControl digit = false) = true := by
    decide +kernel
  obtain ⟨number, all⟩ := each c.toNat small
  exact ⟨number, fun digit mem => of_decide_eq_true (List.all_eq_true.mp all digit mem)⟩

theorem readOn_codePoint {digits : List Char}
    (plain : ∀ digit ∈ digits, digit ≠ '\x7b' ∧ digit ≠ '\x7d')
    (number : Nat) (rest : List Char) : readOn (.codePoint number) (digits ++ '\x7d' :: rest) =
      (readOn .plain rest).map (Prod.map (Char.ofNat (digits.foldl addDigit number) :: ·) id) := by
  induction digits generalizing number with
  | nil => rfl
  | cons digit digits ih =>
    obtain ⟨⟨opening, closing⟩, others⟩ := List.forall_mem_cons.mp plain
    simp only [List.cons_append, readOn, if_neg opening, if_neg closing, ih others, List.foldl_cons]

theorem Written.readOn {c : Char} {form : List Char} (written : Written c form) (rest : List Char) :
    readOn .plain (form ++ rest) = (readOn .plain rest).map (Prod.map (c :: ·) id) := by
  cases written with
  | marked known =>
    simp only [List.mem_cons, Prod.mk.injEq, List.not_mem_nil, or_false] at known
    rcases known with ⟨rfl, rfl⟩ | ⟨rfl, rfl⟩ | ⟨rfl, rfl⟩ | ⟨rfl, rfl⟩ | ⟨rfl, rfl⟩ <;> rfl
  | coded control =>
    obtain ⟨number, plain⟩ := digits_of_isControl control
    have read := readOn_codePoint (fun digit mem => (plain digit mem).1) 0 rest
    rw [number, Char.ofNat_toNat] at read
    simpa [codePointForm, Text.readOn] using read
  | itself quote backslash => simp [Text.readOn, quote, backslash]

theorem readOn_forms (text rest : List Char) :
    readOn .plain (text.flatMap stringCharForm ++ '"' :: rest) = some (text, rest) := by
  induction text with
  | nil => rfl
  | cons c text ih =>
    rw [List.flatMap_cons, List.append_assoc, (written_stringCharForm c).readOn, ih]
    rfl

theorem unquote_quote (text rest : String) : unquote (quote text ++ rest) = some (text, rest) := by
  have front : (quote text ++ rest).toList = '"' :: (text.toList.flatMap stringCharForm ++ '"' :: rest.toList) := by
    simp [quote, escape]
  simp [unquote, front, readOn_forms]

/-- The number of backslashes at the end of a text. -/
def backslashes (text : List Char) : Nat := (text.reverse.takeWhile (· = '\\')).length

/-- Whether a character is escaped by what stands before it, from what is so of the one before. -/
def isEscape (escaped : Bool) (c : Char) : Bool := !escaped && c == '\\'

theorem foldl_isEscape (text : List Char) :
    text.foldl isEscape false = true ↔ backslashes text % 2 = 1 := by
  induction text using List.reverseRecOn with
  | nil => decide
  | append_singleton text c ih =>
    rw [List.foldl_append, List.foldl_cons, List.foldl_nil, isEscape]
    by_cases mark : c = '\\'
    · have longer : backslashes (text ++ [c]) = backslashes text + 1 := by simp [backslashes, mark]
      have parity : (backslashes text + 1) % 2 = 1 ↔ ¬backslashes text % 2 = 1 := by omega
      rw [longer, parity, ← ih]
      simp [mark]
    · simp [backslashes, mark]

/-- Whether every quote is escaped, where `escaped` says so of the first character. -/
def quotesEscaped : Bool → List Char → Bool
  | _, [] => true
  | escaped, c :: rest => (c != '"' || escaped) && quotesEscaped (isEscape escaped c) rest

theorem foldl_of_quotesEscaped {escaped : Bool} {before after : List Char}
    (all : quotesEscaped escaped (before ++ '"' :: after) = true) : before.foldl isEscape escaped = true := by
  induction before generalizing escaped with
  | nil => simpa [quotesEscaped] using (Bool.and_eq_true_iff.mp all).1
  | cons c before ih => exact ih (Bool.and_eq_true_iff.mp all).2

theorem quotesEscaped_append {letters : List Char} (plain : ∀ c ∈ letters, c ≠ '"' ∧ c ≠ '\\')
    (rest : List Char) : quotesEscaped false (letters ++ rest) = quotesEscaped false rest := by
  induction letters with
  | nil => rfl
  | cons c letters ih =>
    obtain ⟨⟨quote, backslash⟩, others⟩ := List.forall_mem_cons.mp plain
    simp [quotesEscaped, isEscape, bne_iff_ne.mpr quote, beq_false_of_ne backslash, ih others]

namespace Written

variable {c : Char} {form : List Char} (written : Written c form)

include written

theorem quotesEscaped (rest : List Char) :
    quotesEscaped false (form ++ rest) = quotesEscaped false rest := by
  cases written with
  | marked => simp [Text.quotesEscaped, isEscape]
  | coded control =>
    have plain : ∀ x ∈ Nat.toDigits 16 c.toNat ++ ['\x7d'], x ≠ '"' ∧ x ≠ '\\' := by
      have digits := (digits_of_isControl control).2
      simp only [List.mem_append, List.mem_singleton]
      rintro x (mem | rfl)
      · exact (digits x mem).2.1
      · decide
    simpa [codePointForm, Text.quotesEscaped, isEscape] using quotesEscaped_append plain rest
  | itself quote backslash => exact quotesEscaped_append (by simp [quote, backslash]) rest

theorem visible : ∀ x ∈ form, isControl x = false := by
  cases written with
  | @marked mark known =>
    have visible : isControl mark = false := by
      simp only [List.mem_cons, Prod.mk.injEq, List.not_mem_nil, or_false] at known
      rcases known with ⟨-, rfl⟩ | ⟨-, rfl⟩ | ⟨-, rfl⟩ | ⟨-, rfl⟩ | ⟨-, rfl⟩ <;> decide
    exact List.forall_mem_cons.mpr ⟨by decide, by simpa using visible⟩
  | coded control =>
    have digits := (digits_of_isControl control).2
    simp only [codePointForm, List.mem_append, List.mem_cons, List.not_mem_nil, or_false]
    rintro x (((rfl | rfl | rfl) | mem) | rfl)
    case inl.inr => exact (digits x mem).2.2
    all_goals decide
  | itself _ _ visible => simpa using visible

end Written

theorem quotesEscaped_forms (text : List Char) :
    quotesEscaped false (text.flatMap stringCharForm) = true := by
  induction text with
  | nil => rfl
  | cons c text ih => rw [List.flatMap_cons, (written_stringCharForm c).quotesEscaped, ih]

/-- Escaped text can be read back: a quoted text ends exactly where it should, whatever follows. It
holds no control characters, and a quote in it stands behind an odd number of backslashes. -/
theorem escape_is_unambiguous : Function.Injective escape ∧
    (∀ text rest, unquote (quote text ++ rest) = some (text, rest)) ∧
    ∀ text, (∀ c ∈ (escape text).toList, isControl c = false) ∧
      ∀ before after, (escape text).toList = before ++ '"' :: after → backslashes before % 2 = 1 := by
  refine ⟨fun first second same => ?_, unquote_quote, fun text => ⟨?_, fun before after split => ?_⟩⟩
  · have read := unquote_quote first ""
    rw [quote, same, ← quote, unquote_quote] at read
    simpa using read.symm
  · rw [escape, String.toList_ofList]
    intro c mem
    obtain ⟨x, -, inside⟩ := List.mem_flatMap.mp mem
    exact (written_stringCharForm x).visible c inside
  · rw [escape, String.toList_ofList] at split
    exact (foldl_isEscape before).mp (foldl_of_quotesEscaped (split ▸ quotesEscaped_forms text.toList))

/-- A quote, a backslash and a bell in a row: the one quote stands behind the one backslash before
it. -/
theorem bell_is_unambiguous : escape "\"\\\x07" = "\\\"\\\\\\u\x7b7\x7d" ∧
    unquote "\"\\\"\\\\\\u\x7b7\x7d\"," = some ("\"\\\x07", ",") ∧ backslashes ['\\'] % 2 = 1 :=
  have escaped : escape "\"\\\x07" = "\\\"\\\\\\u\x7b7\x7d" := by decide
  ⟨escaped, escape_is_unambiguous.2.1 "\"\\\x07" ",",
    (escape_is_unambiguous.2.2 "\"\\\x07").2 ['\\'] ['\\', '\\', '\\', 'u', '\x7b', '7', '\x7d'] (by decide)⟩

end TreeCompiler.Text
