import ActionKit.Proofs.Construction
import ActionKit.Proofs.Lexing

/-!
# What a run of characters means

The spelling of a run decides what it is: a leading `/`, a trailing `:` and a trailing `!` come
first, then integers that fit, the three literals, and words last. Words, set-words and
refinements stand for the symbols of their names, and type names for what they were registered as.

* `Integer.Denotes`: the integers that fit, and how they are written.
* `Token.Literal`: the three literals.
* `Token.Classified`: what a run is, by the first of the six forms that it has.
* `Token.Denotes`: the value of a token, once its name has been interned.
* `ValidRun`, `RunDenotes`: the runs that can be read, and their values.
* `Names.SameTypes`: names that are added without a `!` at the end change no type name.

Results:
* `ofNumeral?_eq_some_iff`, `literal?_eq_some_iff`, `ofRun?_eq_some_iff`: all three are computed as
  they are described.
* `runValue_spec`: reading a run interns at most the name of a word, and gives the value that the
  run denotes.
* `exists_runValue_iff`: the valid runs are those that can be read.
* `ValidRun.congr`, `RunDenotes.mono`: what is interned later changes neither.
-/

namespace ActionKit

/-! ## Names are found again -/

namespace Names

theorem find?_append (names : Names) (added : List Bytes) (name : Bytes) :
    (Names.mk (names.spellings ++ added)).find? name =
      (names.find? name).or
        ((added.idxOf? name).map fun i => ⟨i + names.spellings.length⟩) := by
  show ((names.spellings ++ added).findIdx? (· == name)).map Symbol.mk = _
  rw [List.findIdx?_append, Option.map_or, Option.map_map]
  rfl

/-- A name that was found is found again, whatever is added. -/
theorem Grows.find? {names more : Names} (h : names.Grows more) {name : Bytes} {symbol : Symbol}
    (hs : names.find? name = some symbol) : more.find? name = some symbol := by
  obtain ⟨added, hadded⟩ := h
  rw [show more = ⟨names.spellings ++ added⟩ by rw [hadded], find?_append, hs, Option.some_or]

theorem find?_intern (names : Names) (name : Bytes) :
    (names.intern name).2.find? name = some (names.intern name).1 := by
  unfold intern
  cases h : names.find? name with
  | some symbol => exact h
  | none =>
    show (Names.mk (names.spellings ++ [name])).find? name = _
    rw [find?_append, h]
    simp

theorem find?_intern_of_ne (names : Names) {name other : Bytes} (hne : name ≠ other) :
    (names.intern name).2.find? other = names.find? other := by
  unfold intern
  cases h : names.find? name with
  | some symbol => rfl
  | none =>
    show (Names.mk (names.spellings ++ [name])).find? other = _
    rw [find?_append]
    simp [hne]

/-- Of the names that end in `!`, the same are known. -/
def SameTypes (names more : Names) : Prop :=
  ∀ run : List Char, run.getLast? = some '!' →
    more.find? (.ofChars run) = names.find? (.ofChars run)

theorem SameTypes.refl (names : Names) : names.SameTypes names := fun _ _ => rfl

theorem SameTypes.trans {a b c : Names} (hab : a.SameTypes b) (hbc : b.SameTypes c) :
    a.SameTypes c := fun run h => (hbc run h).trans (hab run h)

theorem SameTypes.lookup? {names more : Names} (h : names.SameTypes more) (types : TypeRegistry)
    {run : List Char} (hrun : run.getLast? = some '!') :
    types.lookup? more (.ofChars run) = types.lookup? names (.ofChars run) := by
  unfold TypeRegistry.lookup?
  rw [h run hrun]

end Names

/-! ## Integers -/

namespace Integer

/-- **How an integer that fits is written**: with at least one decimal digit, and a sign or none. -/
inductive Denotes : List Char → Int64 → Prop
  | unsigned {digits : List Char} {number : Int64} (nonempty : digits ≠ [])
      (decimal : ∀ d ∈ digits, d.isDigit = true)
      (value : number.toInt = Nat.ofDigitChars 10 digits 0) : Denotes digits number
  | positive {digits : List Char} {number : Int64} (nonempty : digits ≠ [])
      (decimal : ∀ d ∈ digits, d.isDigit = true)
      (value : number.toInt = Nat.ofDigitChars 10 digits 0) : Denotes ('+' :: digits) number
  | negative {digits : List Char} {number : Int64} (nonempty : digits ≠ [])
      (decimal : ∀ d ∈ digits, d.isDigit = true)
      (value : number.toInt = -(Nat.ofDigitChars 10 digits 0 : Int)) :
      Denotes ('-' :: digits) number

theorem magnitude_eq (digits : List Char) : magnitude digits = Nat.ofDigitChars 10 digits 0 :=
  Nat.ofDigitChars_eq_foldl.symm

/-- The word of some digits, once the sign has been taken off. -/
theorem ofDigits_eq_some_iff {digits : List Char} {n : Int} {number : Int64} :
    (if (digits.isEmpty || !digits.all Char.isDigit) = true then none else ofInt? n) =
        some number ↔
      digits ≠ [] ∧ (∀ d ∈ digits, d.isDigit = true) ∧ number.toInt = n := by
  by_cases hdigits : digits ≠ [] ∧ ∀ d ∈ digits, d.isDigit = true
  · rw [if_neg (by simpa using hdigits), ofInt?_eq_some_iff]
    exact ⟨fun h => ⟨hdigits.1, hdigits.2, h.symm⟩, fun h => h.2.2.symm⟩
  · rw [if_pos (by simpa [or_iff_not_imp_left] using hdigits)]
    constructor
    · intro h
      cases h
    · exact fun h => absurd ⟨h.1, h.2.1⟩ hdigits

theorem ofNumeral?_eq_some_iff {run : List Char} {number : Int64} :
    ofNumeral? run = some number ↔ Denotes run number := by
  constructor
  · intro h
    unfold ofNumeral? at h
    split at h
    next negative digits hsign =>
    obtain ⟨hnonempty, hdecimal, hvalue⟩ := ofDigits_eq_some_iff.mp h
    rw [magnitude_eq] at hvalue
    split at hsign <;> obtain ⟨rfl, rfl⟩ := Prod.mk.inj hsign
    · exact .negative hnonempty hdecimal hvalue
    · exact .positive hnonempty hdecimal hvalue
    · exact .unsigned hnonempty hdecimal hvalue
  · intro h
    unfold ofNumeral?
    cases h with
    | unsigned nonempty decimal value =>
      obtain ⟨d, digits, rfl⟩ := List.exists_cons_of_ne_nil nonempty
      -- A digit is neither of the two signs.
      have hd := decimal d List.mem_cons_self
      split
      next negative rest hsign =>
      split at hsign
      · next heq =>
        obtain rfl := (List.cons.inj heq).1
        cases hd
      · next heq =>
        obtain rfl := (List.cons.inj heq).1
        cases hd
      · obtain ⟨rfl, rfl⟩ := Prod.mk.inj hsign
        exact ofDigits_eq_some_iff.mpr ⟨nonempty, decimal, by rw [magnitude_eq]; exact value⟩
    | positive nonempty decimal value =>
      exact ofDigits_eq_some_iff.mpr ⟨nonempty, decimal, by rw [magnitude_eq]; exact value⟩
    | negative nonempty decimal value =>
      exact ofDigits_eq_some_iff.mpr ⟨nonempty, decimal, by rw [magnitude_eq]; exact value⟩

end Integer

namespace SpecText

/-! ## Tokens -/

/-- A run without a mark that decides what it is. -/
structure Unmarked (run : List Char) : Prop where
  slash : run.head? ≠ some '/'
  colon : run.getLast? ≠ some ':'
  bang : run.getLast? ≠ some '!'

namespace Token

/-- **The literals** that are spelled as words. -/
inductive Literal : List Char → Value → Prop
  | none : Literal ['n', 'o', 'n', 'e'] .none
  | true : Literal ['t', 'r', 'u', 'e'] (.logic true)
  | false : Literal ['f', 'a', 'l', 's', 'e'] (.logic false)

/-- **What a run is**, by the first of six forms that it has: a refinement, a set-word, the name of
a type, an integer, one of the three literals, or a word. -/
inductive Classified : List Char → Token → Prop
  | refinement {name : List Char} (valid : validName name = true) :
      Classified ('/' :: name) (.refinement name)
  | setWord {run name : List Char} (slash : run.head? ≠ some '/') (colon : run = name ++ [':'])
      (valid : validName name = true) : Classified run (.setWord name)
  | typeName {run : List Char} (slash : run.head? ≠ some '/') (bang : run.getLast? = some '!') :
      Classified run (.typeName run)
  | integer {run : List Char} {number : Int64} (unmarked : Unmarked run)
      (denotes : Integer.Denotes run number) : Classified run (.literal (.integer number))
  | literal {run : List Char} {value : Value} (unmarked : Unmarked run)
      (nonnumeral : ∀ number, ¬Integer.Denotes run number) (spelled : Literal run value) :
      Classified run (.literal value)
  | word {run : List Char} (unmarked : Unmarked run)
      (nonnumeral : ∀ number, ¬Integer.Denotes run number)
      (nonliteral : ∀ value, ¬Literal run value) (valid : validName run = true) :
      Classified run (.word run)

theorem literal?_eq_some_iff {run : List Char} {value : Value} :
    literal? run = some value ↔ Literal run value := by
  constructor
  · intro h
    unfold literal? at h
    split_ifs at h with hnone htrue hfalse
    · exact hnone ▸ Option.some.inj h ▸ .none
    · exact htrue ▸ Option.some.inj h ▸ .true
    · exact hfalse ▸ Option.some.inj h ▸ .false
  · intro h
    cases h <;> rfl

theorem literal?_eq_none_iff {run : List Char} :
    literal? run = none ↔ ∀ value, ¬Literal run value := by
  simp only [Option.eq_none_iff_forall_ne_some, ne_eq, literal?_eq_some_iff]

theorem named_eq_some_iff {make : List Char → Token} {name : List Char} {token : Token} :
    named make name = some token ↔ validName name = true ∧ token = make name := by
  unfold named
  split
  · next h => simp [h, eq_comm]
  · next h => simp [h]

theorem ofNumeral?_eq_none_iff {run : List Char} :
    Integer.ofNumeral? run = none ↔ ∀ number, ¬Integer.Denotes run number := by
  simp only [Option.eq_none_iff_forall_ne_some, ne_eq, Integer.ofNumeral?_eq_some_iff]

/-- What a run is if neither its first nor its last character is a `/` or a `:`. -/
theorem ofPlain?_sound {run : List Char} {token : Token} (slash : run.head? ≠ some '/')
    (colon : run.getLast? ≠ some ':') (h : ofPlain? run = some token) : Classified run token := by
  unfold ofPlain? at h
  split at h
  · next bang =>
    obtain rfl := Option.some.inj h
    exact .typeName slash bang
  · next bang =>
    split at h
    · next number hnumber =>
      obtain rfl := Option.some.inj h
      exact .integer ⟨slash, colon, bang⟩ (Integer.ofNumeral?_eq_some_iff.mp hnumber)
    · next hnumber =>
      have nonnumeral := ofNumeral?_eq_none_iff.mp hnumber
      split at h
      · next value hvalue =>
        obtain rfl := Option.some.inj h
        exact .literal ⟨slash, colon, bang⟩ nonnumeral (literal?_eq_some_iff.mp hvalue)
      · next hvalue =>
        obtain ⟨valid, rfl⟩ := named_eq_some_iff.mp h
        exact .word ⟨slash, colon, bang⟩ nonnumeral (literal?_eq_none_iff.mp hvalue) valid

theorem ofRun?_sound {run : List Char} {token : Token} (h : ofRun? run = some token) :
    Classified run token := by
  unfold ofRun? at h
  split at h
  · obtain ⟨valid, rfl⟩ := named_eq_some_iff.mp h
    exact .refinement valid
  · next hslash =>
    have slash : run.head? ≠ some '/' := by
      intro hhead
      obtain ⟨name, rfl⟩ := List.head?_eq_some_iff.mp hhead
      exact hslash name rfl
    split at h
    · next colon =>
      obtain ⟨valid, rfl⟩ := named_eq_some_iff.mp h
      obtain ⟨name, rfl⟩ := List.getLast?_eq_some_iff.mp colon
      rw [List.dropLast_concat] at valid ⊢
      exact .setWord slash rfl valid
    · next colon => exact ofPlain?_sound slash colon h

/-- Without a leading `/`, the end of a run decides. -/
theorem ofRun?_of_slash {run : List Char} (slash : run.head? ≠ some '/') :
    ofRun? run =
      if run.getLast? = some ':' then named .setWord run.dropLast else ofPlain? run := by
  unfold ofRun?
  split
  · exact absurd rfl slash
  · rfl

theorem ofRun?_of_unmarked {run : List Char} (unmarked : Unmarked run) :
    ofRun? run =
      match Integer.ofNumeral? run with
      | some number => some (.literal (.integer number))
      | none =>
        match literal? run with
        | some value => some (.literal value)
        | none => named .word run := by
  have hplain := ofRun?_of_slash unmarked.slash
  rw [if_neg unmarked.colon, ofPlain?, if_neg unmarked.bang] at hplain
  exact hplain

theorem ofRun?_complete {run : List Char} {token : Token} (h : Classified run token) :
    ofRun? run = some token := by
  cases h with
  | refinement valid => exact named_eq_some_iff.mpr ⟨valid, rfl⟩
  | setWord slash colon valid =>
    rw [ofRun?_of_slash slash, if_pos (by rw [colon, List.getLast?_concat]), colon,
      List.dropLast_concat]
    exact named_eq_some_iff.mpr ⟨valid, rfl⟩
  | typeName slash bang =>
    rw [ofRun?_of_slash slash, if_neg (by rw [bang]; decide), ofPlain?, if_pos bang]
  | integer unmarked denotes =>
    rw [ofRun?_of_unmarked unmarked, Integer.ofNumeral?_eq_some_iff.mpr denotes]
  | literal unmarked nonnumeral spelled =>
    rw [ofRun?_of_unmarked unmarked, ofNumeral?_eq_none_iff.mpr nonnumeral,
      literal?_eq_some_iff.mpr spelled]
  | word unmarked nonnumeral nonliteral valid =>
    rw [ofRun?_of_unmarked unmarked, ofNumeral?_eq_none_iff.mpr nonnumeral,
      literal?_eq_none_iff.mpr nonliteral]
    exact named_eq_some_iff.mpr ⟨valid, rfl⟩

/-- **Runs are classified as described.** -/
theorem ofRun?_eq_some_iff {run : List Char} {token : Token} :
    ofRun? run = some token ↔ Classified run token :=
  ⟨ofRun?_sound, ofRun?_complete⟩

/-- **The value of a token**, once its name has been interned. -/
inductive Denotes (types : TypeRegistry) (names : Names) : Token → Value → Prop
  | refinement {name : List Char} {symbol : Symbol}
      (interned : names.find? (.ofChars name) = some symbol) :
      Denotes types names (.refinement name) (.refinement symbol)
  | setWord {name : List Char} {symbol : Symbol}
      (interned : names.find? (.ofChars name) = some symbol) :
      Denotes types names (.setWord name) (.setWord symbol)
  | word {name : List Char} {symbol : Symbol}
      (interned : names.find? (.ofChars name) = some symbol) :
      Denotes types names (.word name) (.word symbol)
  | literal (value : Value) : Denotes types names (.literal value) value
  | typeName {name : List Char} {term : TypeTerm}
      (known : types.lookup? names (.ofChars name) = some term) :
      Denotes types names (.typeName name) term.toValue

end Token

/-- **The runs that can be read**: those that are tokens, and known if they are type names. -/
def ValidRun (types : TypeRegistry) (names : Names) (run : List Char) : Prop :=
  ∃ token, Token.Classified run token ∧
    ∀ name, token = .typeName name → (types.lookup? names (.ofChars name)).isSome = true

/-- The value of a run. -/
def RunDenotes (types : TypeRegistry) (names : Names) (run : List Char) (value : Value) : Prop :=
  ∃ token, Token.Classified run token ∧ token.Denotes types names value

variable {types : TypeRegistry} {names more : Names} {run : List Char} {value : Value}

/-- No name of a word is the name of a type. -/
theorem ofChars_ne_of_validName {name : List Char} (valid : validName name = true)
    (bang : run.getLast? = some '!') : Bytes.ofChars name ≠ .ofChars run := by
  intro h
  obtain rfl := Bytes.ofChars_injective h
  have hmem := List.mem_of_getLast? bang
  cases name with
  | nil => cases hmem
  | cons c rest =>
    have hall := (Bool.and_eq_true_iff.mp valid).2
    simpa using List.all_eq_true.mp hall '!' hmem

/-- Tokens with names, and the names that words may have. -/
theorem Token.Classified.valid {token : Token} (h : Token.Classified run token)
    {name : List Char}
    (hname : token = .refinement name ∨ token = .setWord name ∨ token = .word name) :
    validName name = true := by
  cases h <;> simp_all

/-- **What reading a run does**: it interns the name of a word, if the run has one, and nothing
else; and it gives the value that the run denotes from then on. -/
theorem Token.value_spec {token : Token} (hclass : Token.Classified run token)
    (h : token.value types names = .ok (value, more)) :
    names.SameTypes more ∧ token.Denotes types more value := by
  have interned : ∀ {make : Symbol → Value} {name : List Char}, validName name = true →
      Token.interned make name names = (value, more) → names.SameTypes more ∧
        ∃ symbol, more.find? (.ofChars name) = some symbol ∧ value = make symbol := by
    intro make name hvalid hinterned
    obtain ⟨rfl, rfl⟩ := Prod.mk.inj hinterned
    exact ⟨fun other hbang => names.find?_intern_of_ne (ofChars_ne_of_validName hvalid hbang),
      _, names.find?_intern _, rfl⟩
  cases token with
  | refinement name =>
    obtain ⟨hsame, symbol, hfind, rfl⟩ := interned (hclass.valid (.inl rfl)) (Except.ok.inj h)
    exact ⟨hsame, .refinement hfind⟩
  | setWord name =>
    obtain ⟨hsame, symbol, hfind, rfl⟩ :=
      interned (hclass.valid (.inr (.inl rfl))) (Except.ok.inj h)
    exact ⟨hsame, .setWord hfind⟩
  | word name =>
    obtain ⟨hsame, symbol, hfind, rfl⟩ :=
      interned (hclass.valid (.inr (.inr rfl))) (Except.ok.inj h)
    exact ⟨hsame, .word hfind⟩
  | literal literal =>
    obtain ⟨rfl, rfl⟩ := Prod.mk.inj (Except.ok.inj h)
    exact ⟨.refl names, .literal literal⟩
  | typeName name =>
    cases hlookup : types.lookup? names (.ofChars name) with
    | none =>
      simp only [Token.value, hlookup] at h
      cases h
    | some term =>
      simp only [Token.value, hlookup] at h
      obtain ⟨rfl, rfl⟩ := Prod.mk.inj (Except.ok.inj h)
      exact ⟨.refl names, .typeName hlookup⟩

/-! ## Runs -/

/-- A type name is spelled as the run that it is. -/
theorem Token.Classified.typeName_eq {name : List Char}
    (h : Token.Classified run (.typeName name)) : name = run ∧ run.getLast? = some '!' := by
  cases h with
  | typeName _ bang => exact ⟨rfl, bang⟩

theorem runValue_spec (h : runValue types names run = .ok (value, more)) :
    names.SameTypes more ∧ RunDenotes types more run value := by
  unfold runValue at h
  split at h
  · next token htoken =>
    have hclass := Token.ofRun?_sound htoken
    obtain ⟨hsame, hdenotes⟩ := Token.value_spec hclass h
    exact ⟨hsame, token, hclass, hdenotes⟩
  · cases h

/-- Only type names can be tokens without a value. -/
theorem Token.exists_value_iff {token : Token} :
    (∃ read, token.value types names = .ok read) ↔
      ∀ name, token = .typeName name → (types.lookup? names (.ofChars name)).isSome = true := by
  cases token with
  | typeName name =>
    cases h : types.lookup? names (.ofChars name) <;> simp [Token.value, h]
  | _ => exact iff_of_true ⟨_, rfl⟩ (fun _ h => Token.noConfusion h)

/-- **The valid runs are those that can be read.** -/
theorem exists_runValue_iff :
    (∃ read, runValue types names run = .ok read) ↔ ValidRun types names run := by
  unfold runValue ValidRun
  simp only [← Token.ofRun?_eq_some_iff]
  cases Token.ofRun? run with
  | none => simp
  | some token => simpa using Token.exists_value_iff

/-- Names of words do not make a run valid. -/
theorem ValidRun.congr (hsame : names.SameTypes more) :
    ValidRun types more run ↔ ValidRun types names run := by
  refine exists_congr fun token => and_congr_right fun hclass => forall_congr' fun name => ?_
  refine imp_congr_right fun htoken => ?_
  subst htoken
  obtain ⟨rfl, bang⟩ := hclass.typeName_eq
  rw [hsame.lookup? types bang]

/-- A run keeps its value when names of words are added. -/
theorem RunDenotes.mono (hgrows : names.Grows more) (hsame : names.SameTypes more)
    (h : RunDenotes types names run value) : RunDenotes types more run value := by
  obtain ⟨token, hclass, hdenotes⟩ := h
  refine ⟨token, hclass, ?_⟩
  cases hdenotes with
  | refinement interned => exact .refinement (hgrows.find? interned)
  | setWord interned => exact .setWord (hgrows.find? interned)
  | word interned => exact .word (hgrows.find? interned)
  | literal value => exact .literal value
  | typeName known =>
    obtain ⟨rfl, bang⟩ := hclass.typeName_eq
    exact .typeName ((hsame.lookup? types bang).trans known)

end SpecText

end ActionKit
