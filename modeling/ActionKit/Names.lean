import ActionKit.Bytes

/-!
# Names and symbols

A symbol is a number that stands for an interned name. Parameter names, labels and words are all
symbols, so that comparing two of them is comparing numbers.

* `Symbol.invalid` is a placeholder that no lookup of a name is meant to yield; it is spelled
  `<invalid symbol>` and heads every parameter table.
* `Symbol.output` and `Symbol.value` are the two names the library itself refers to.
* `Names` holds the spellings, numbered in order of first appearance. `Names.intern` adds a name
  if needed, `Names.find?` only looks, `Names.resolve?` goes back from a symbol to its spelling.

Results:
* `resolve?_intern`: an interned name resolves to itself.
* `resolve?_intern_of_resolve?`: interning never changes what an older symbol resolves to.
* `find?_eq_some_resolve?`: a found symbol resolves to the name it was found by.
-/

namespace ActionKit

/-- An interned name, by its number. -/
structure Symbol where
  id : Nat
deriving DecidableEq, Repr

namespace Symbol

/-- The placeholder symbol. -/
def invalid : Symbol := ⟨0⟩

/-- The name of the output parameter of an action, `return`. -/
def output : Symbol := ⟨1⟩

/-- The name of the argument of a typechecker, `value`. -/
def value : Symbol := ⟨2⟩

/-- How the placeholder, or a symbol that nothing resolves, is spelled. -/
def illFormed : String := "<invalid symbol>"

end Symbol

/-- The interned names. The name at index `i` is the spelling of symbol `i`. -/
structure Names where
  spellings : List Bytes
deriving DecidableEq, Repr

namespace Names

/-- The names every table of names starts with: the placeholder and the two well-known ones. -/
def initial : Names := ⟨[.ofString Symbol.illFormed, .ofString "return", .ofString "value"]⟩

/-- The spelling of a symbol. -/
def resolve? (names : Names) (symbol : Symbol) : Option Bytes := names.spellings[symbol.id]?

/-- The symbol of a name that has been interned. -/
def find? (names : Names) (name : Bytes) : Option Symbol :=
  (names.spellings.idxOf? name).map Symbol.mk

/-- The symbol of a name, interned under the next number if it is new. -/
def intern (names : Names) (name : Bytes) : Symbol × Names :=
  match names.find? name with
  | some symbol => (symbol, names)
  | none => (⟨names.spellings.length⟩, ⟨names.spellings ++ [name]⟩)

/-- The number of interned names, the placeholder not counted. -/
def size (names : Names) : Nat := names.spellings.length - 1

/-- Whether only the placeholder has been interned. -/
def isEmpty (names : Names) : Bool := names.size == 0

/-! ## Looking up and interning -/

theorem find?_eq_some_resolve? {names : Names} {name : Bytes} {symbol : Symbol}
    (h : names.find? name = some symbol) : names.resolve? symbol = some name := by
  obtain ⟨i, hi, rfl⟩ := Option.map_eq_some_iff.1 h
  obtain ⟨hlt, heq, -⟩ := List.idxOf?_eq_some_iff.1 hi
  simp [resolve?, List.getElem?_eq_getElem hlt, heq]

theorem resolve?_intern (names : Names) (name : Bytes) :
    (names.intern name).2.resolve? (names.intern name).1 = some name := by
  unfold intern
  cases h : names.find? name with
  | some symbol => exact find?_eq_some_resolve? h
  | none => simp [resolve?]

theorem resolve?_intern_of_resolve? {names : Names} {symbol : Symbol} {spelling : Bytes}
    (name : Bytes) (h : names.resolve? symbol = some spelling) :
    (names.intern name).2.resolve? symbol = some spelling := by
  unfold intern
  cases names.find? name with
  | some _ => exact h
  | none =>
    have hlt : symbol.id < names.spellings.length := (List.getElem?_eq_some_iff.1 h).1
    simpa [resolve?, List.getElem?_append_left hlt] using h

/-- Interning a known name changes nothing. -/
theorem intern_of_find? {names : Names} {name : Bytes} {symbol : Symbol}
    (h : names.find? name = some symbol) : names.intern name = (symbol, names) := by
  simp [intern, h]

end Names

end ActionKit
