import ActionKit.SpecText.Token

/-!
# Reading spec text

Specs, argument lists and type descriptors are written as text: words, refinements `/name`,
set-words `name:`, type names `name!`, integers, the literals `none`, `true` and `false`, quoted
texts, and blocks of all these in brackets.

* `Nest`: the blocks that are open while lexemes are taken in order.
* `Nest.take` takes one lexeme.
* `readLexemes` takes all of them; `read` reads a text.

Reading interns names as it meets them, and keeps them if it fails later.
-/

namespace ActionKit.SpecText

/-- The blocks that are open, from the inside out. -/
structure Nest where
  /-- The values of the innermost block so far, the last one first. -/
  items : List Value := []
  /-- The enclosing blocks: the values before the block that is open in them, the last one first,
  and the offset of the bracket that opened that block. -/
  outer : List (Nat × List Value) := []
deriving DecidableEq, Repr

namespace Nest

/-- One more value in the innermost block. -/
def push (nest : Nest) (value : Value) : Nest := { nest with items := value :: nest.items }

/-- Open a block. -/
def enter (nest : Nest) (offset : Nat) : Nest :=
  { items := [], outer := (offset, nest.items) :: nest.outer }

/-- Close the innermost block, if there is one. -/
def leave? (nest : Nest) : Option Nest :=
  match nest.outer with
  | [] => none
  | (_, items) :: outer => some { items := .block nest.items.reverse :: items, outer }

/-- Take one lexeme. A rejected one interns nothing. -/
def take (nest : Nest) (types : TypeRegistry) (names : Names) (lexeme : Lexeme) :
    Except Complaint (Nest × Names) :=
  match lexeme.shape with
  | .opening => .ok (nest.enter lexeme.offset, names)
  | .closing =>
    match nest.leave? with
    | some nest => .ok (nest, names)
    | none => .error ⟨lexeme.offset, .unbalanced⟩
  | .text content => .ok (nest.push (.text (.ofChars content)), names)
  | .run chars =>
    match runValue types names chars with
    | .ok (value, names) => .ok (nest.push value, names)
    | .error fault => .error ⟨lexeme.offset, fault⟩

/-- The values read, if all blocks are closed. -/
def close (nest : Nest) : Except Complaint (List Value) :=
  match nest.outer with
  | [] => .ok nest.items.reverse
  | (offset, _) :: _ => .error ⟨offset, .unterminatedBlock⟩

end Nest

/-- Take lexemes in order. At their end, what stopped the scan is reported first, and open blocks
after that. -/
def readLexemes (types : TypeRegistry) (stopped : Option Complaint) (nest : Nest) (names : Names) :
    List Lexeme → Except Complaint (List Value) × Names
  | [] =>
    match stopped with
    | some complaint => (.error complaint, names)
    | none => (nest.close, names)
  | lexeme :: rest =>
    match nest.take types names lexeme with
    | .error complaint => (.error complaint, names)
    | .ok (nest, names) => readLexemes types stopped nest names rest

/-- Read a text into values. -/
def read (types : TypeRegistry) (names : Names) (text : List Char) :
    Except BuildError (List Value) × Names :=
  let (lexemes, stopped) := Lexeme.scan 0 text
  match readLexemes types stopped {} names lexemes with
  | (.ok values, names) => (.ok values, names)
  | (.error complaint, names) => (.error (.specText complaint.offset complaint.fault), names)

end ActionKit.SpecText
