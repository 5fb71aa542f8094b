import ActionKit.Integer
import ActionKit.SpecText.Lexeme
import ActionKit.TypeRegistry

/-!
# Tokens of spec text

A run of characters is a refinement, a set-word, the name of a type, a literal or a word; the
first of these that fits its spelling decides.

* `validName`: the names that words, set-words and refinements may have.
* `Token.ofRun?`: what a run is, by its spelling alone.
* `Token.value`: the value a token means. Names are interned, type names are looked up.
-/

namespace ActionKit.SpecText

/-- Whether a name may be that of a word: it is not empty, does not start with a digit, and holds
none of the marks `/`, `:` and `!`. -/
def validName (name : List Char) : Bool :=
  match name with
  | [] => false
  | c :: _ => !c.isDigit && name.all fun c => c ≠ '/' && c ≠ ':' && c ≠ '!'

/-- What a run of characters is. -/
inductive Token where
  | refinement (name : List Char)
  | setWord (name : List Char)
  | typeName (name : List Char)
  | literal (value : Value)
  | word (name : List Char)
deriving DecidableEq, Repr

namespace Token

/-- The literals that are spelled as words. -/
def literal? (run : List Char) : Option Value :=
  if run = ['n', 'o', 'n', 'e'] then some .none
  else if run = ['t', 'r', 'u', 'e'] then some (.logic true)
  else if run = ['f', 'a', 'l', 's', 'e'] then some (.logic false)
  else none

/-- A token with a name, if the name may be one. -/
def named (token : List Char → Token) (name : List Char) : Option Token :=
  if validName name then some (token name) else none

/-- What a run without a leading `/` or a trailing `:` is. -/
def ofPlain? (run : List Char) : Option Token :=
  if run.getLast? = some '!' then some (.typeName run)
  else
    match Integer.ofNumeral? run with
    | some number => some (.literal (.integer number))
    | none =>
      match literal? run with
      | some value => some (.literal value)
      | none => named .word run

/-- What a run is, by its spelling. A leading `/` decides before a trailing `:`, and that before
all else. -/
def ofRun? (run : List Char) : Option Token :=
  match run with
  | '/' :: name => named .refinement name
  | _ => if run.getLast? = some ':' then named .setWord run.dropLast else ofPlain? run

/-- Intern a name and make a value of its symbol. -/
def interned (value : Symbol → Value) (name : List Char) (names : Names) : Value × Names :=
  let (symbol, names) := names.intern (.ofChars name)
  (value symbol, names)

/-- The value a token means. -/
def value (token : Token) (types : TypeRegistry) (names : Names) :
    Except ReadFault (Value × Names) :=
  match token with
  | .refinement name => .ok (interned .refinement name names)
  | .setWord name => .ok (interned .setWord name names)
  | .word name => .ok (interned .word name names)
  | .literal value => .ok (value, names)
  | .typeName name =>
    match types.lookup? names (.ofChars name) with
    | some term => .ok (term.toValue, names)
    | none => .error .unknownDatatype

end Token

/-- The value a run means. -/
def runValue (types : TypeRegistry) (names : Names) (run : List Char) :
    Except ReadFault (Value × Names) :=
  match Token.ofRun? run with
  | some token => token.value types names
  | none => .error .invalidWord

end ActionKit.SpecText
