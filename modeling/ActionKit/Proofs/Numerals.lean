import ActionKit.Proofs.Continuation
import ActionKit.Proofs.RoundTrip

/-!
# Numerals in spec text

A numeral is a run of decimal digits, with a sign or without. Wherever one stands, it is read as the
integer that it writes, if that fits into sixty-four bits. If it does not fit, what the numeral is
depends on its sign: without one it is refused, since no word starts with a digit, and with one it
is a word.

* `Integer.Writes`: a numeral and the number that it writes, of any size.
* `NumeralRead`: what a numeral does to the reading of a text.

Results:
* `Writes.ofNumeral?_eq`: a numeral is the word of the number that it writes, if it fits.
* `runValue_numeral`: what a numeral is read as.
* `read_numeral`: what is read if a numeral is part of a text.
-/

namespace ActionKit

namespace Integer

/-- **How a number is written**: with at least one decimal digit, and a sign or none. -/
inductive Writes : List Char → Int → Prop
  | unsigned {digits : List Char} (nonempty : digits ≠ [])
      (decimal : ∀ d ∈ digits, d.isDigit = true) : Writes digits (Nat.ofDigitChars 10 digits 0)
  | positive {digits : List Char} (nonempty : digits ≠ [])
      (decimal : ∀ d ∈ digits, d.isDigit = true) :
      Writes ('+' :: digits) (Nat.ofDigitChars 10 digits 0)
  | negative {digits : List Char} (nonempty : digits ≠ [])
      (decimal : ∀ d ∈ digits, d.isDigit = true) :
      Writes ('-' :: digits) (-(Nat.ofDigitChars 10 digits 0 : Int))

variable {token : List Char} {n : Int}

/-- A numeral is a digit or a sign, and digits after that. -/
theorem Writes.exists_cons (h : Writes token n) : ∃ first digits, token = first :: digits ∧
    (first.isDigit = true ∨ first = '+' ∨ first = '-') ∧ ∀ d ∈ digits, d.isDigit = true := by
  cases h with
  | unsigned nonempty decimal =>
    obtain ⟨d, digits, rfl⟩ := List.exists_cons_of_ne_nil nonempty
    exact ⟨d, digits, rfl, .inl (decimal d List.mem_cons_self),
      fun e he => decimal e (List.mem_cons_of_mem _ he)⟩
  | positive _ decimal => exact ⟨_, _, rfl, .inr (.inl rfl), decimal⟩
  | negative _ decimal => exact ⟨_, _, rfl, .inr (.inr rfl), decimal⟩

/-- A numeral is the word of the number that it writes, if that fits. -/
theorem Writes.ofNumeral?_eq (h : Writes token n) : ofNumeral? token = ofInt? n := by
  have hdigits : ∀ {digits : List Char}, digits ≠ [] → (∀ d ∈ digits, d.isDigit = true) →
      ¬(digits.isEmpty || !digits.all Char.isDigit) = true :=
    fun nonempty decimal => by simpa using ⟨nonempty, decimal⟩
  unfold ofNumeral?
  cases h with
  | unsigned nonempty decimal =>
    obtain ⟨d, digits, rfl⟩ := List.exists_cons_of_ne_nil nonempty
    -- A digit is neither of the two signs.
    have hd := decimal d List.mem_cons_self
    split
    next negative rest hsign =>
    split at hsign
    · next heq =>
      obtain rfl := (List.cons.inj heq).1
      cases hd
    · next heq =>
      obtain rfl := (List.cons.inj heq).1
      cases hd
    · obtain ⟨rfl, rfl⟩ := Prod.mk.inj hsign
      rw [if_neg (hdigits nonempty decimal), magnitude_eq]
      rfl
  | positive nonempty decimal =>
    simp only [if_neg (hdigits nonempty decimal), magnitude_eq, Bool.false_eq_true, if_false]
  | negative nonempty decimal =>
    simp only [if_neg (hdigits nonempty decimal), magnitude_eq, if_true]

end Integer

namespace SpecText

variable {types : TypeRegistry} {names : Names} {token : List Char} {n : Int}

/-- A numeral is a run, and has no mark. -/
theorem chars_of_writes (h : Integer.Writes token n) :
    token ≠ [] ∧ (∀ c ∈ token, isRunChar c = true) ∧ '/' ∉ token ∧ ':' ∉ token ∧ '!' ∉ token := by
  obtain ⟨first, digits, rfl, hfirst, hdigits⟩ := h.exists_cons
  have hchars : ∀ c ∈ first :: digits, c.isDigit = true ∨ c = '+' ∨ c = '-' :=
    List.forall_mem_cons.mpr ⟨hfirst, fun d hd => .inl (hdigits d hd)⟩
  refine ⟨List.cons_ne_nil _ _, fun c hc => ?_, ?_, ?_, ?_⟩
  · rcases hchars c hc with hdigit | rfl | rfl
    · exact isRunChar_of_isDigit hdigit
    · decide
    · decide
  all_goals
    intro hmark
    rcases hchars _ hmark with hdigit | hsign | hsign
    · cases hdigit
    · cases hsign
    · cases hsign

/-- **What a numeral is read as.** If its number does not fit, its first character decides. -/
theorem runValue_numeral (h : Integer.Writes token n) :
    runValue types names token =
      match Integer.ofInt? n with
      | some number => .ok (.integer number, names)
      | none =>
        if token.head?.any Char.isDigit then .error .invalidWord
        else .ok (Token.interned .word token names) := by
  obtain ⟨-, -, hmarks⟩ := chars_of_writes h
  obtain ⟨first, digits, rfl, hfirst, -⟩ := h.exists_cons
  have hliteral : Token.literal? (first :: digits) = none := by
    -- The first character of a literal is a letter.
    refine Token.literal?_eq_none_iff.mpr fun value spelled => ?_
    cases spelled <;> revert hfirst <;> decide
  have hvalid : validName (first :: digits) = !first.isDigit := by
    have hplain : (first :: digits).all (fun c => c ≠ '/' && c ≠ ':' && c ≠ '!') = true := by
      refine List.all_eq_true.mpr fun c hc => ?_
      have hne : c ≠ '/' ∧ c ≠ ':' ∧ c ≠ '!' :=
        ⟨fun h => hmarks.1 (h ▸ hc), fun h => hmarks.2.1 (h ▸ hc), fun h => hmarks.2.2 (h ▸ hc)⟩
      simp [hne]
    rw [validName, hplain, Bool.and_true]
  unfold runValue
  rw [Token.ofRun?_of_unmarked (.of_not_mem hmarks), h.ofNumeral?_eq, hliteral, Token.named, hvalid]
  cases Integer.ofInt? n with
  | some number => rfl
  | none => cases hdigit : first.isDigit <;> simp [hdigit, Token.value]

/-! ## Numerals among other items -/

/-- **What a numeral does to the reading of a text**, if the text before it leaves the blocks of
`nest` open and the names of `known` known. -/
structure NumeralRead (types : TypeRegistry) (names : Names) (before token after : List Char)
    (n : Int) (nest : Nest) (known : Names) : Prop where
  /-- If its number fits, it is added as an integer, and no name is interned. -/
  integer : ∀ number : Int64, number.toInt = n → read types names (before ++ (token ++ after)) =
    report (resume types (nest.push (.integer number)) known
      (byteLength before + byteLength token) after)
  /-- The integer is found in that place, if all of the text is read. -/
  place : ∀ number : Int64, number.toInt = n → ∀ values,
    (read types names (before ++ (token ++ after))).1 = .ok values →
      (itemsAt values nest.path)[nest.items.length]? = some (.integer number)
  /-- If its number does not fit, it is refused where it starts, without a sign, -/
  unsigned : (∀ number : Int64, number.toInt ≠ n) → token.head?.any Char.isDigit = true →
    read types names (before ++ (token ++ after)) =
      (.error (.specText (byteLength before) .invalidWord), known)
  /-- and added as a word, with a sign. -/
  signed : (∀ number : Int64, number.toInt ≠ n) → token.head?.any Char.isDigit = false →
    read types names (before ++ (token ++ after)) =
      report (resume types (nest.push (.word (known.intern (.ofChars token)).1))
        (known.intern (.ofChars token)).2 (byteLength before + byteLength token) after)

/-- **How numerals are read.** A text that is refused before a numeral is refused for the same
reason with it. Otherwise a numeral is an integer wherever it stands, if its number fits. If it does
not fit, the numeral is refused at its offset, unless it has a sign: then it is a word. -/
theorem read_numeral (types : TypeRegistry) (names : Names) {before token after : List Char}
    {shapes : List Shape} (outside : Cut before shapes)
    (left : ∀ c ∈ before.getLast?, isRunChar c = false)
    (right : ∀ c ∈ after.head?, isRunChar c = false) (h : Integer.Writes token n) :
    (∀ complaint, reach types names before = .error complaint →
      (read types names (before ++ (token ++ after))).1 = .error complaint.toError) ∧
    ∀ nest known, reach types names before = .ok (nest, known) →
      NumeralRead types names before token after n nest known := by
  have apart : Apart before (token ++ after) := .inl left
  refine ⟨fun complaint => read_append_error outside apart, fun nest known hreach => ?_⟩
  obtain ⟨nonempty, chars, -⟩ := chars_of_writes h
  have hread := read_append outside apart hreach
  rw [resume_run nonempty chars right, runValue_numeral h] at hread
  have hinteger : ∀ number : Int64, number.toInt = n →
      read types names (before ++ (token ++ after)) =
        report (resume types (nest.push (.integer number)) known
          (byteLength before + byteLength token) after) := by
    intro number hnumber
    rwa [Integer.ofInt?_eq_some_iff.mpr hnumber.symm] at hread
  have hnone : (∀ number : Int64, number.toInt ≠ n) → Integer.ofInt? n = none := by
    intro hlarge
    exact Option.eq_none_iff_forall_ne_some.mpr fun number hnumber =>
      hlarge number (Integer.ofInt?_eq_some_iff.mp hnumber).symm
  refine ⟨hinteger, fun number hnumber values hvalues => ?_, fun hlarge hdigit => ?_,
    fun hlarge hdigit => ?_⟩
  · rw [hinteger number hnumber] at hvalues
    exact resume_push (report_eq_ok_iff.mp hvalues)
  · rw [hread, hnone hlarge, hdigit]
    rfl
  · rw [hread, hnone hlarge, hdigit]
    rfl

/-- The least integer in a block, after a word and a quoted bracket. -/
theorem read_numeral_least : ∃ nest known,
    reach {} .initial "a \"]\" [".toList = .ok (nest, known) ∧ nest.path = [2] ∧
      NumeralRead {} .initial "a \"]\" [".toList "-9223372036854775808".toList "] b".toList
        Int64.minValue.toInt nest known := by
  have hcut : (Lexeme.scan 0 "a \"]\" [".toList).2 = none := by decide +kernel
  have hreach : reach {} .initial "a \"]\" [".toList =
      .ok (⟨[], [(6, [.text (.ofString "]"), .word ⟨3⟩])]⟩,
        (Names.initial.intern (.ofString "a")).2) := by
    decide +kernel
  have hwrites : Integer.Writes "-9223372036854775808".toList Int64.minValue.toInt :=
    .negative (by decide) (List.all_eq_true.mp rfl)
  exact ⟨_, _, hreach, rfl, (read_numeral {} .initial (Lexeme.scan_sound hcut)
    (by rintro _ ⟨⟩; rfl) (by rintro _ ⟨⟩; rfl) hwrites).2 _ _ hreach⟩

/-- One more than the greatest integer, with a sign. -/
theorem read_numeral_signed :
    Integer.Writes "+9223372036854775808".toList 9223372036854775808 ∧
      (∀ number : Int64, number.toInt ≠ 9223372036854775808) ∧
      (read {} .initial "+9223372036854775808".toList).1 = .ok [.word ⟨3⟩] := by
  refine ⟨.positive (by decide) (List.all_eq_true.mp rfl), fun number hnumber => ?_,
    by decide +kernel⟩
  have hlt := number.toInt_lt
  omega

end SpecText

end ActionKit
