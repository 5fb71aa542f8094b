import ActionKit.Proofs.Catalogue
import ActionKit.Show.Message

/-!
# Reading undoes showing

Values that are made of what spec text can say are read again from the text they are shown as, once
quotes and backslashes in texts have been escaped.

* `Value.escaped`, `Value.texts`: a value with its texts escaped, and the texts in a value.
* `Workshop.Writable`: the values that spec text can say.
* `Joined`: texts with blanks between each two.
* `Spells`: what is read as some values, whatever follows it.

Results:
* `Spells.run`, `Spells.quotation`, `Spells.block`, `Spells.joined`: spellings are put together from
  runs, quoted texts, brackets and blanks.
* `Writable.spells`: a value is spelled by what it is shown as.
* `readSpec_shown`: **reading undoes showing**.
-/

namespace ActionKit

/-! ## Texts in values -/

/-- Put a backslash before every quote and every backslash. -/
def escape (content : List Char) : List Char :=
  content.flatMap fun c => if c = '"' ∨ c = '\\' then ['\\', c] else [c]

namespace Value

mutual

/-- A value whose texts are escaped. -/
def escaped : Value → Value
  | .text bytes => .text (.ofChars (escape bytes.lossy))
  | .block items => .block (escapedItems items)
  | value => value

/-- Values whose texts are escaped. -/
def escapedItems : List Value → List Value
  | [] => []
  | item :: rest => item.escaped :: escapedItems rest

end

mutual

/-- The texts in a value. -/
def texts : Value → List Bytes
  | .text bytes => [bytes]
  | .block items => textsOfItems items
  | _ => []

/-- The texts in some values. -/
def textsOfItems : List Value → List Bytes
  | [] => []
  | item :: rest => item.texts ++ textsOfItems rest

end

theorem escapedItems_eq (items : List Value) : escapedItems items = items.map escaped := by
  induction items with
  | nil => rfl
  | cons item rest ih => rw [escapedItems, ih, List.map_cons]

theorem textsOfItems_eq (items : List Value) : textsOfItems items = items.flatMap texts := by
  induction items with
  | nil => rfl
  | cons item rest ih => rw [textsOfItems, ih, List.flatMap_cons]

end Value

/-- Nothing is escaped where there is neither a quote nor a backslash. -/
theorem escape_eq_self {content : List Char} (hquote : '"' ∉ content)
    (hbackslash : '\\' ∉ content) : escape content = content := by
  unfold escape
  induction content with
  | nil => rfl
  | cons c rest ih =>
    rw [List.mem_cons, not_or] at hquote hbackslash
    have hplain : ¬(c = '"' ∨ c = '\\') := by
      rintro (rfl | rfl)
      · exact hquote.1 rfl
      · exact hbackslash.1 rfl
    rw [List.flatMap_cons, if_neg hplain, ih hquote.2 hbackslash.2, List.singleton_append]

/-! ## Spellings -/

namespace SpecText

/-- Texts with blanks between each two. -/
inductive Joined : List (List Char) → List Char → Prop
  | nil : Joined [] []
  | single (text : List Char) : Joined [text] text
  | cons (text : List Char) {gap next joined : List Char} {rest : List (List Char)}
      (nonempty : gap ≠ []) (blank : ∀ c ∈ gap, isBlank c = true)
      (more : Joined (next :: rest) joined) : Joined (text :: next :: rest) (text ++ gap ++ joined)

/-- **What is read as some values**, whatever follows it, as long as no run goes on there. All its
names are known. -/
def Spells (types : TypeRegistry) (names : Names) (written : List Char) (values : List Value) :
    Prop :=
  ∃ trees shapes, Derives trees shapes ∧ Evaluates types names trees values names ∧
    ∀ (rest : List Char) (others : List Shape), (∀ c ∈ rest.head?, isRunChar c = false) →
      Cut rest others → Cut (written ++ rest) (shapes ++ others)

variable {types : TypeRegistry} {names more last : Names}

theorem Derives.append {trees others : List Tree} {shapes behind : List Shape}
    (h : Derives trees shapes) (ho : Derives others behind) :
    Derives (trees ++ others) (shapes ++ behind) := by
  induction h with
  | nil => exact ho
  | token run _ ih => exact .token run ih
  | text content _ ih => exact .text content ih
  | block inner _ _ ih =>
    have hblock := Derives.block inner ih
    simpa using hblock

theorem Evaluates.append {trees others : List Tree} {values behind : List Value}
    (h : Evaluates types names trees values more) (ho : Evaluates types more others behind last) :
    Evaluates types names (trees ++ others) (values ++ behind) last := by
  induction h with
  | nil => exact ho
  | token first _ ih => exact .token first (ih ho)
  | text content _ ih => exact .text content (ih ho)
  | block inner _ _ ih => exact .block inner (ih ho)

theorem Cut.blanks {gap rest : List Char} {shapes : List Shape}
    (blank : ∀ c ∈ gap, isBlank c = true) (h : Cut rest shapes) : Cut (gap ++ rest) shapes := by
  induction gap with
  | nil => exact h
  | cons c gap ih =>
    exact .blank (blank c List.mem_cons_self) (ih fun d hd => blank d (List.mem_cons_of_mem _ hd))

namespace Spells

/-- What spells some values is read as them. -/
theorem read {text : List Char} {values : List Value} (h : Spells types names text values) :
    SpecText.read types names text = (.ok values, names) := by
  obtain ⟨trees, shapes, hderives, hvalues, hcut⟩ := h
  have htext := hcut [] [] (by simp) .nil
  rw [List.append_nil, List.append_nil] at htext
  exact read_of_derives htext hderives hvalues

theorem nil : Spells types names [] [] :=
  ⟨[], [], .nil, .nil names, fun _ _ _ h => h⟩

theorem run {run : List Char} {value : Value} (nonempty : run ≠ [])
    (chars : ∀ c ∈ run, isRunChar c = true)
    (hvalue : runValue types names run = .ok (value, names)) : Spells types names run [value] :=
  ⟨[.token run], [.run run], .token run .nil, .token hvalue (.nil names),
    fun _ _ hrest hcut => .run nonempty chars hrest hcut⟩

theorem quotation {body content : List Char} (h : QuotedBody body content) :
    Spells types names ('"' :: body ++ ['"']) [.text (.ofChars content)] := by
  refine ⟨[.text content], [.text content], .text content .nil, .text content (.nil names), ?_⟩
  intro rest others _ hcut
  rw [List.append_assoc]
  exact .text h hcut

theorem block {inner : List Char} {values : List Value} (h : Spells types names inner values) :
    Spells types names ('[' :: inner ++ [']']) [.block values] := by
  obtain ⟨trees, shapes, hderives, hvalues, hcut⟩ := h
  refine ⟨[.block trees], .opening :: shapes ++ [.closing], .block hderives .nil,
    .block hvalues (.nil names), ?_⟩
  intro rest others _ hrest
  rw [List.append_assoc, List.append_assoc]
  -- The closing bracket ends a run that the inside may end with.
  exact .opening (hcut _ _ (fun c hc => Option.some.inj hc ▸ by decide) (.closing hrest))

/-- Two spellings with blanks between them. -/
theorem append {first second gap : List Char} {values others : List Value}
    (h : Spells types names first values) (nonempty : gap ≠ [])
    (blank : ∀ c ∈ gap, isBlank c = true) (ho : Spells types names second others) :
    Spells types names (first ++ gap ++ second) (values ++ others) := by
  obtain ⟨trees, shapes, hderives, hvalues, hcut⟩ := h
  obtain ⟨trees', shapes', hderives', hvalues', hcut'⟩ := ho
  refine ⟨trees ++ trees', shapes ++ shapes', hderives.append hderives',
    hvalues.append hvalues', ?_⟩
  intro rest behind hrest hbehind
  obtain ⟨c, tail, rfl⟩ := List.exists_cons_of_ne_nil nonempty
  have hstop : ∀ d ∈ ((c :: tail) ++ (second ++ rest)).head?, isRunChar d = false := by
    intro d hd
    obtain rfl := Option.some.inj hd
    simp [isRunChar, blank c List.mem_cons_self]
  rw [List.append_assoc, List.append_assoc, List.append_assoc]
  exact hcut _ _ hstop (.blanks blank (hcut' _ _ hrest hbehind))

/-- **Spellings are joined by blanks.** -/
theorem joined {spell : Value → List Char} {values : List Value} {text : List Char}
    (hjoined : Joined (values.map spell) text)
    (h : ∀ value ∈ values, Spells types names (spell value) [value]) :
    Spells types names text values := by
  induction values generalizing text with
  | nil =>
    cases hjoined
    exact nil
  | cons value rest ih =>
    have hvalue := h value List.mem_cons_self
    have hrest := fun other hother => h other (List.mem_cons_of_mem _ hother)
    cases rest with
    | nil =>
      cases hjoined
      exact hvalue
    | cons next rest =>
      cases hjoined with
      | cons _ nonempty blank more => exact hvalue.append nonempty blank (ih more hrest)

end Spells

theorem quotedBody_escape (content : List Char) : QuotedBody (escape content) content := by
  unfold escape
  induction content with
  | nil => exact .nil
  | cons c rest ih =>
    rw [List.flatMap_cons]
    split
    · next hmark =>
      rcases hmark with rfl | rfl
      · exact .escape .quote ih
      · exact .escape .backslash ih
    · next hmark =>
      rw [not_or] at hmark
      exact .plain hmark.1 hmark.2 ih

theorem joined_spaced (texts : List String) :
    Joined (texts.map String.toList) (spaced texts).toList := by
  fun_induction spaced texts with
  | case1 => exact .nil
  | case2 text => exact .single text.toList
  | case3 text rest hrest ih =>
    obtain ⟨next, rest, rfl⟩ := List.exists_cons_of_ne_nil hrest
    have hjoined : Joined ((text :: next :: rest).map String.toList)
        (text.toList ++ [' '] ++ (spaced (next :: rest)).toList) :=
      .cons text.toList (by simp) (List.all_eq_true.mp rfl) ih
    simpa using hjoined

/-! ## Runs -/

theorem runValue_of_classified {run : List Char} {token : Token} {read : Value × Names}
    (hclass : Token.Classified run token) (h : token.value types names = .ok read) :
    runValue types names run = .ok read := by
  unfold runValue
  rw [Token.ofRun?_complete hclass]
  exact h

/-- A run has no mark at its ends if it has none at all. -/
theorem Unmarked.of_not_mem {run : List Char} (h : '/' ∉ run ∧ ':' ∉ run ∧ '!' ∉ run) :
    Unmarked run where
  slash hhead := h.1 (List.mem_of_mem_head? hhead)
  colon hlast := h.2.1 (List.mem_of_getLast? hlast)
  bang hlast := h.2.2 (List.mem_of_getLast? hlast)

/-- A name that words can have: not empty, without blanks, brackets, quotes and marks, and not
starting with a digit. -/
structure Nameable (name : List Char) : Prop where
  nonempty : name ≠ []
  chars : ∀ c ∈ name, isRunChar c = true
  unmarked : '/' ∉ name ∧ ':' ∉ name ∧ '!' ∉ name
  start : ∀ c ∈ name.head?, c.isDigit = false

theorem Nameable.valid {name : List Char} (h : Nameable name) : validName name = true := by
  obtain ⟨c, rest, rfl⟩ := List.exists_cons_of_ne_nil h.nonempty
  refine Bool.and_eq_true_iff.mpr ⟨?_, List.all_eq_true.mpr fun d hd => ?_⟩
  · rw [h.start c rfl]
    rfl
  · have hslash := ne_of_mem_of_not_mem hd h.unmarked.1
    have hcolon := ne_of_mem_of_not_mem hd h.unmarked.2.1
    have hbang := ne_of_mem_of_not_mem hd h.unmarked.2.2
    simp [hslash, hcolon, hbang]

theorem isRunChar_of_isDigit {c : Char} (h : c.isDigit = true) : isRunChar c = true := by
  have hrange : 48 ≤ c.toNat ∧ c.toNat ≤ 57 := by
    simpa [Char.isDigit, UInt32.le_iff_toNat_le] using h
  have hblank : isBlank c = false := by
    simp [isBlank]
    omega
  have hmarks : c ≠ '[' ∧ c ≠ ']' ∧ c ≠ '"' := by
    refine ⟨?_, ?_, ?_⟩ <;>
    · rintro rfl
      cases h
  simp [isRunChar, hblank, hmarks]

end SpecText

/-! ## Integers -/

namespace Integer

/-- The numeral of a word denotes it. -/
theorem numeral_denotes (number : Int64) : Denotes (numeral number).toList number := by
  have hdecimal : ∀ d ∈ Nat.toDigits 10 number.toInt.natAbs, d.isDigit = true :=
    fun d hd => Nat.isDigit_of_mem_toDigits (by decide) (by decide) hd
  unfold numeral
  rw [String.toList_ofList]
  split
  · next hneg =>
    exact .negative Nat.toDigits_ne_nil hdecimal (by rw [Nat.ofDigitChars_ten_toDigits]; omega)
  · next hneg =>
    exact .unsigned Nat.toDigits_ne_nil hdecimal (by rw [Nat.ofDigitChars_ten_toDigits]; omega)

theorem Denotes.chars {run : List Char} {number : Int64} (h : Denotes run number) :
    run ≠ [] ∧ ∀ c ∈ run, c.isDigit = true ∨ c = '+' ∨ c = '-' := by
  cases h with
  | unsigned nonempty decimal => exact ⟨nonempty, fun c hc => .inl (decimal c hc)⟩
  | positive _ decimal =>
    refine ⟨List.cons_ne_nil _ _, fun c hc => ?_⟩
    rcases List.mem_cons.mp hc with rfl | hc
    · exact .inr (.inl rfl)
    · exact .inl (decimal c hc)
  | negative _ decimal =>
    refine ⟨List.cons_ne_nil _ _, fun c hc => ?_⟩
    rcases List.mem_cons.mp hc with rfl | hc
    · exact .inr (.inr rfl)
    · exact .inl (decimal c hc)

end Integer

namespace SpecText

variable {types : TypeRegistry} {names : Names}

/-- What denotes an integer spells it. -/
theorem Spells.integer {run : List Char} {number : Int64} (h : Integer.Denotes run number) :
    Spells types names run [.integer number] := by
  obtain ⟨nonempty, hchars⟩ := h.chars
  refine .run nonempty (fun c hc => ?_) ?_
  · rcases hchars c hc with hdigit | rfl | rfl
    · exact isRunChar_of_isDigit hdigit
    · decide
    · decide
  · refine runValue_of_classified (.integer (.of_not_mem ?_) h) rfl
    refine ⟨?_, ?_, ?_⟩ <;>
    · intro hmark
      rcases hchars _ hmark with hdigit | hsign | hsign
      · cases hdigit
      · cases hsign
      · cases hsign

/-! ## Literals and words -/

theorem Token.exists_literal_iff {run : List Char} :
    (∃ value, Token.Literal run value) ↔
      run ∈ ["none".toList, "true".toList, "false".toList] := by
  constructor
  · rintro ⟨value, spelled⟩
    cases spelled <;> decide
  · intro h
    simp only [List.mem_cons, List.not_mem_nil, or_false] at h
    rcases h with rfl | rfl | rfl
    · exact ⟨_, .none⟩
    · exact ⟨_, .true⟩
    · exact ⟨_, .false⟩

/-- The literals spell themselves. -/
theorem Spells.literal {run : List Char} {value : Value} (h : Token.Literal run value) :
    Spells types names run [value] := by
  have hplain : run ≠ [] ∧ run.all isRunChar = true ∧ ('/' ∉ run ∧ ':' ∉ run ∧ '!' ∉ run) ∧
      Integer.ofNumeral? run = none := by
    cases h <;> decide
  obtain ⟨nonempty, chars, unmarked, hnumeral⟩ := hplain
  have hclass := Token.Classified.literal (.of_not_mem unmarked)
    (Token.ofNumeral?_eq_none_iff.mp hnumeral) h
  exact .run nonempty (List.all_eq_true.mp chars) (runValue_of_classified hclass rfl)

/-- A token whose name is known reads as its symbol. -/
theorem interned_of_find? {name : List Char} {symbol : Symbol}
    (hfind : names.find? (.ofChars name) = some symbol) (make : Symbol → Value) :
    Token.interned make name names = (make symbol, names) := by
  unfold Token.interned
  rw [Names.intern_of_find? hfind]

section Names

variable {name : List Char} {symbol : Symbol} (hname : Nameable name)
  (hfind : names.find? (.ofChars name) = some symbol)
include hname hfind

theorem Spells.word (nonnumeral : ∀ number, ¬Integer.Denotes name number)
    (nonliteral : name ∉ ["none".toList, "true".toList, "false".toList]) :
    Spells types names name [.word symbol] := by
  have hclass := Token.Classified.word (.of_not_mem hname.unmarked) nonnumeral
    (fun value h => nonliteral (Token.exists_literal_iff.mp ⟨value, h⟩)) hname.valid
  exact .run hname.nonempty hname.chars
    (runValue_of_classified hclass (congrArg Except.ok (interned_of_find? hfind .word)))

theorem Spells.setWord : Spells types names (name ++ [':']) [.setWord symbol] := by
  have hslash : (name ++ [':']).head? ≠ some '/' := by
    rw [List.head?_append_of_ne_nil _ hname.nonempty]
    exact (Unmarked.of_not_mem hname.unmarked).slash
  have hclass := Token.Classified.setWord hslash rfl hname.valid
  refine .run (by simp) (fun c hc => ?_)
    (runValue_of_classified hclass (congrArg Except.ok (interned_of_find? hfind .setWord)))
  rcases List.mem_append.mp hc with hc | hc
  · exact hname.chars c hc
  · obtain rfl := List.mem_singleton.mp hc
    decide

theorem Spells.refinement : Spells types names ('/' :: name) [.refinement symbol] := by
  have hclass := Token.Classified.refinement hname.valid
  refine .run (by simp) (fun c hc => ?_)
    (runValue_of_classified hclass (congrArg Except.ok (interned_of_find? hfind .refinement)))
  rcases List.mem_cons.mp hc with rfl | hc
  · decide
  · exact hname.chars c hc

end Names

/-! ## Type names -/

/-- A known type name spells what it stands for. -/
theorem Spells.typeName {name : List Char} (term : TypeTerm)
    (chars : ∀ c ∈ name, isRunChar c = true) (slash : name.head? ≠ some '/')
    (bang : name.getLast? = some '!') (known : types.lookup? names (.ofChars name) = some term) :
    Spells types names name [term.toValue] := by
  have nonempty : name ≠ [] := by
    rintro rfl
    cases bang
  refine .run nonempty chars (runValue_of_classified (.typeName slash bang) ?_)
  simp only [Token.value, known]

theorem Spells.kind (kind : Kind) :
    Spells types names kind.name.toList [.datatype (.builtin kind)] := by
  have hknown : Kind.ofName? (.ofChars kind.name.toList) = some kind := by
    cases kind <;> decide
  refine Spells.typeName (.datatype (.builtin kind)) (List.all_eq_true.mp ?_) ?_ ?_ ?_
  · cases kind <;> decide
  · cases kind <;> decide
  · cases kind <;> decide
  · unfold TypeRegistry.lookup?
    rw [hknown]

end SpecText

/-! ## What is shown -/

theorem toList_quotation (bytes : Bytes) :
    (quotation bytes).toList = '"' :: bytes.lossy ++ ['"'] := by
  simp [quotation, Bytes.shown]

theorem toList_bracketed (text : String) :
    (bracketed text).toList = '[' :: text.toList ++ [']'] := by
  simp [bracketed]

theorem View.values_eq (view : View) (items : List Value) :
    view.values items = items.map view.value := by
  induction items with
  | nil => rfl
  | cons item rest ih => rw [View.values, ih, List.map_cons]

/-! ## Values that can be written -/

open SpecText

namespace Workshop

variable {w : Workshop}

/-- **The values that spec text can say**, by the names and types of a workshop: no typesets, no
actions, no values of open categories, and words only if what they are shown as is a word. -/
inductive Writable (w : Workshop) : Value → Prop
  | none : Writable w .none
  | logic (truth : Bool) : Writable w (.logic truth)
  | integer (number : Int64) : Writable w (.integer number)
  | text (content : List Char) : Writable w (.text (.ofChars content))
  | builtin (kind : Kind) : Writable w (.datatype (.builtin kind))
  | category {category : Category} {name : List Char} (registered : category ∈ w.types.categories)
      (spelled : w.names.resolve? category.name = some (.ofChars name))
      (chars : ∀ c ∈ name, isRunChar c = true) (slash : name.head? ≠ some '/')
      (bang : name.getLast? = some '!') (noKind : ∀ kind : Kind, name ≠ kind.name.toList)
      (noTypeset : name ∉ ["any-value!".toList, "any-type!".toList, "any-word!".toList]) :
      Writable w (.datatype (.category category))
  | word {symbol : Symbol} {name : List Char}
      (spelled : w.names.resolve? symbol = some (.ofChars name)) (nameable : Nameable name)
      (nonliteral : name ∉ ["none".toList, "true".toList, "false".toList])
      (nonnumeral : ∀ number, ¬Integer.Denotes name number) : Writable w (.word symbol)
  | setWord {symbol : Symbol} {name : List Char}
      (spelled : w.names.resolve? symbol = some (.ofChars name)) (nameable : Nameable name) :
      Writable w (.setWord symbol)
  | refinement {symbol : Symbol} {name : List Char}
      (spelled : w.names.resolve? symbol = some (.ofChars name)) (nameable : Nameable name) :
      Writable w (.refinement symbol)
  | block {items : List Value} (all : ∀ item ∈ items, Writable w item) : Writable w (.block items)

/-- A symbol whose name could be a run is shown as that name. -/
theorem Catalogued.symbol_toList (hw : w.Catalogued) {symbol : Symbol} {name : List Char}
    (hspelled : w.names.resolve? symbol = some (.ofChars name))
    (chars : ∀ c ∈ name, isRunChar c = true) : ((w.view false).symbol symbol).toList = name := by
  have hvalid : symbol ≠ .invalid := by
    rintro rfl
    -- There is a blank in the spelling of the placeholder.
    have hplaceholder : w.names.resolve? .invalid = some (.ofString Symbol.illFormed) :=
      hw.initial.resolve? rfl
    rw [hspelled] at hplaceholder
    obtain rfl := Bytes.ofChars_injective (Option.some.inj hplaceholder)
    exact absurd (chars ' ' (by decide)) (by decide)
  unfold View.symbol
  rw [if_neg hvalid]
  simp [Workshop.view, hspelled, View.paint, Bytes.shown, Bytes.lossy_ofChars]

/-- The name of a registered category stands for it, if it is no built-in name. -/
theorem Catalogued.lookup?_category (hw : w.Catalogued) {category : Category} {name : List Char}
    (registered : category ∈ w.types.categories)
    (spelled : w.names.resolve? category.name = some (.ofChars name))
    (noKind : ∀ kind : Kind, name ≠ kind.name.toList)
    (noTypeset : name ∉ ["any-value!".toList, "any-type!".toList, "any-word!".toList]) :
    w.types.lookup? w.names (.ofChars name) = some (.datatype (.category category)) := by
  rw [hw.lookup?_of_mem registered spelled,
    TypeTerm.builtIn?_eq_none_iff.mpr ⟨noKind, noTypeset⟩]
  rfl

theorem paint_view (w : Workshop) (ink : Ink) (text : String) :
    (w.view false).paint ink text = text := rfl

/-- **A value is spelled by what it is shown as**, once its texts are escaped. -/
theorem Writable.spells (hw : w.Catalogued) {value : Value} (h : w.Writable value) :
    Spells w.types w.names ((w.view false).value value.escaped).toList [value] := by
  induction h with
  | none => exact .literal (show Token.Literal "none".toList .none from .none)
  | logic truth =>
    cases truth with
    | true => exact .literal (show Token.Literal "true".toList _ from .true)
    | false => exact .literal (show Token.Literal "false".toList _ from .false)
  | integer number => exact .integer (Integer.numeral_denotes number)
  | text content =>
    simp only [Value.escaped, View.value, paint_view, toList_quotation, Bytes.lossy_ofChars]
    exact .quotation (quotedBody_escape content)
  | builtin kind => exact .kind kind
  | category registered spelled chars slash bang noKind noTypeset =>
    show Spells _ _ ((w.view false).symbol _).toList _
    rw [hw.symbol_toList spelled chars]
    exact .typeName _ chars slash bang (hw.lookup?_category registered spelled noKind noTypeset)
  | word spelled nameable nonliteral nonnumeral =>
    show Spells _ _ ((w.view false).symbol _).toList _
    rw [hw.symbol_toList spelled nameable.chars]
    exact .word nameable (hw.find?_of_resolve? spelled) nonnumeral nonliteral
  | setWord spelled nameable =>
    show Spells _ _ ((w.view false).symbol _ ++ ":").toList _
    rw [String.toList_append, hw.symbol_toList spelled nameable.chars]
    exact .setWord nameable (hw.find?_of_resolve? spelled)
  | refinement spelled nameable =>
    show Spells _ _ ("/" ++ (w.view false).symbol _).toList _
    rw [String.toList_append, hw.symbol_toList spelled nameable.chars]
    exact .refinement nameable (hw.find?_of_resolve? spelled)
  | @block items _ ih =>
    have hjoined := joined_spaced (items.map fun item => (w.view false).value item.escaped)
    rw [List.map_map] at hjoined
    have hspells := (Spells.joined hjoined ih).block
    simp only [Value.escaped, View.value, toList_bracketed, View.values_eq, Value.escapedItems_eq,
      List.map_map]
    exact hspells

/-- Nothing changes where no text holds a quote or a backslash. -/
theorem Writable.escaped_eq {value : Value} (h : w.Writable value)
    (plain : ∀ bytes ∈ value.texts, '"' ∉ bytes.lossy ∧ '\\' ∉ bytes.lossy) :
    value.escaped = value := by
  induction h with
  | text content =>
    obtain ⟨hquote, hbackslash⟩ := plain _ (List.mem_singleton_self _)
    rw [Bytes.lossy_ofChars] at hquote hbackslash
    rw [Value.escaped, Bytes.lossy_ofChars, escape_eq_self hquote hbackslash]
  | @block items _ ih =>
    rw [Value.texts, Value.textsOfItems_eq] at plain
    rw [Value.escaped, Value.escapedItems_eq]
    have hitems : items.map Value.escaped = items.map id :=
      List.map_congr_left fun item hitem => ih item hitem fun bytes hbytes =>
        plain bytes (List.mem_flatMap.mpr ⟨item, hitem, hbytes⟩)
    rw [hitems, List.map_id]
  | _ => rfl

/-- **Reading undoes showing.** Values that can be written are shown without colours, quotes and
backslashes in texts are escaped, and what is shown is joined by blanks: reading that gives the same
values, and adds no names. Where no text holds a quote or a backslash, nothing needs to be
escaped. -/
theorem readSpec_shown (hw : w.Reachable) {values : List Value}
    (hvalues : ∀ value ∈ values, w.Writable value) (text : String) :
    (Joined (values.map fun value => ((w.view false).value value.escaped).toList) text.toList →
      w.readSpec text = (.ok values, w)) ∧
    ((∀ bytes ∈ values.flatMap Value.texts, '"' ∉ bytes.lossy ∧ '\\' ∉ bytes.lossy) →
      Joined (values.map fun value => ((w.view false).value value).toList) text.toList →
      w.readSpec text = (.ok values, w)) := by
  have escaped : Joined (values.map fun value => ((w.view false).value value.escaped).toList)
      text.toList → w.readSpec text = (.ok values, w) := by
    intro hjoined
    have hspells := Spells.joined hjoined fun value hvalue =>
      (hvalues value hvalue).spells hw.catalogued
    unfold readSpec
    rw [hspells.read]
  refine ⟨escaped, fun plain hjoined => escaped ?_⟩
  have hshown : (values.map fun value => ((w.view false).value value.escaped).toList) =
      values.map fun value => ((w.view false).value value).toList :=
    List.map_congr_left fun value hvalue => by
      rw [(hvalues value hvalue).escaped_eq fun bytes hbytes =>
        plain bytes (List.mem_flatMap.mpr ⟨value, hvalue, hbytes⟩)]
  rw [hshown]
  exact hjoined

/-- Two escapes, the least integer, a block in a block and a registered type. -/
theorem readSpec_shown_nested : ∃ (w : Workshop) (category : Category), w.Reachable ∧
    w.readSpec "\"\\\"\\\\\"\t[-9223372036854775808 return: [/value \"\"]]\n point!" =
      (.ok [.text (.ofString "\"\\"),
        .block [.integer Int64.minValue, .setWord .output, .block [.refinement .value, .text []]],
        .datatype (.category category)], w) := by
  have hw : (fresh.register (.ofString "point!")).2.Reachable := .single (.register fresh _)
  obtain ⟨hmem, hspelled⟩ := fresh.register_spec (.ofString "point!")
  generalize fresh.register (.ofString "point!") = registered at hw hmem hspelled
  obtain ⟨category, w⟩ := registered
  have hvalue : w.names.resolve? .value = some (.ofChars "value".toList) :=
    hw.catalogued.initial.resolve? rfl
  have houtput : w.names.resolve? .output = some (.ofChars "return".toList) :=
    hw.catalogued.initial.resolve? rfl
  have hshownValue : (w.view false).symbol .value = "value" :=
    String.toList_inj.mp (hw.catalogued.symbol_toList hvalue (List.all_eq_true.mp rfl))
  have hshownOutput : (w.view false).symbol .output = "return" :=
    String.toList_inj.mp (hw.catalogued.symbol_toList houtput (List.all_eq_true.mp rfl))
  have hshownPoint : (w.view false).symbol category.name = "point!" :=
    String.toList_inj.mp (hw.catalogued.symbol_toList hspelled (List.all_eq_true.mp rfl))
  have hnameable : Nameable "value".toList ∧ Nameable "return".toList :=
    ⟨⟨by decide, List.all_eq_true.mp rfl, by decide, by rintro _ ⟨⟩; rfl⟩,
      ⟨by decide, List.all_eq_true.mp rfl, by decide, by rintro _ ⟨⟩; rfl⟩⟩
  refine ⟨w, category, hw, (readSpec_shown hw ?_ _).1 ?_⟩
  · have hinner : ∀ item ∈ [Value.refinement .value, .text []], w.Writable item :=
      List.forall_mem_cons.mpr ⟨.refinement hvalue hnameable.1,
        List.forall_mem_singleton.mpr (.text [])⟩
    have hitems : ∀ item ∈ [.integer Int64.minValue, .setWord .output,
        .block [.refinement .value, .text []]], w.Writable item :=
      List.forall_mem_cons.mpr ⟨.integer _, List.forall_mem_cons.mpr
        ⟨.setWord houtput hnameable.2, List.forall_mem_singleton.mpr (.block hinner)⟩⟩
    have hpoint : w.Writable (.datatype (.category category)) :=
      .category hmem hspelled (List.all_eq_true.mp rfl) (by decide) (by decide)
        (fun kind => by cases kind <;> decide) (by decide)
    exact List.forall_mem_cons.mpr ⟨.text "\"\\".toList,
      List.forall_mem_cons.mpr ⟨.block hitems, List.forall_mem_singleton.mpr hpoint⟩⟩
  · have hblock : (w.view false).value (Value.escaped (.block [.integer Int64.minValue,
        .setWord .output, .block [.refinement .value, .text []]])) =
        "[-9223372036854775808 return: [/value \"\"]]" := by
      simp only [Value.escaped, Value.escapedItems, View.value, View.values, paint_view,
        hshownValue, hshownOutput]
      decide +kernel
    have htext : (w.view false).value (Value.escaped (.text (.ofString "\"\\"))) =
        "\"\\\"\\\\\"" := by
      simp only [Value.escaped, View.value, paint_view]
      decide +kernel
    have hjoined : Joined ["\"\\\"\\\\\"".toList,
        "[-9223372036854775808 return: [/value \"\"]]".toList, "point!".toList]
        ("\"\\\"\\\\\"".toList ++ "\t".toList ++
          ("[-9223372036854775808 return: [/value \"\"]]".toList ++ "\n ".toList ++
            "point!".toList)) :=
      .cons _ (by decide) (List.all_eq_true.mp rfl)
        (.cons _ (by decide) (List.all_eq_true.mp rfl) (.single _))
    have hpoint : (w.view false).value (Value.escaped (.datatype (.category category))) =
        "point!" := hshownPoint
    simpa [htext, hblock, hpoint] using hjoined

end Workshop

end ActionKit
