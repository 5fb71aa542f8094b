import ActionKit.Entry

/-!
# Errors, by cause

Two things can go wrong: an action cannot be constructed, or a call cannot be carried out. Both
are told apart by cause; how they are worded is a matter of showing them.

* `ReadFault`, `SpecFault`: what is wrong with the text of a spec, or with an item of it.
* `BuildError`: why an action could not be constructed.
* `CallError`: why a frame could not be fulfilled or run.
-/

namespace ActionKit

/-- What is wrong with the text of a spec. -/
inductive ReadFault where
  | unbalanced
  | unterminatedBlock
  | unterminatedText
  | invalidEscape
  | unknownDatatype
  | invalidWord
deriving DecidableEq, Repr

/-- The wording of a fault in the text of a spec. -/
def ReadFault.reason : ReadFault → String
  | .unbalanced => "unbalanced ]"
  | .unterminatedBlock => "unterminated block"
  | .unterminatedText => "unterminated text"
  | .invalidEscape => "invalid escape sequence"
  | .unknownDatatype => "unknown datatype"
  | .invalidWord => "invalid word"

/-- What is wrong with an item of a spec. -/
inductive SpecFault where
  | duplicateDescription
  | duplicateNotes
  | strayTypeBlock
  | notAType
  | duplicateTypeBlock
  | strayItem
  | straySetWord
deriving DecidableEq, Repr

/-- The wording of a fault in an item of a spec. -/
def SpecFault.reason : SpecFault → String
  | .duplicateDescription => "duplicate description"
  | .duplicateNotes => "duplicate parameter notes"
  | .strayTypeBlock => "type block before any parameter"
  | .notAType => "type blocks may only hold datatypes and typesets"
  | .duplicateTypeBlock => "duplicate type block"
  | .strayItem => "invalid spec item"
  | .straySetWord => "only return: may be declared as a set-word"

/-- Why an action could not be constructed. -/
inductive BuildError where
  /-- The text of a spec is malformed at a byte offset. -/
  | specText (offset : Nat) (fault : ReadFault)
  /-- The item of a spec at a position is not allowed there. -/
  | specItem (position : Nat) (found : Value) (fault : SpecFault)
  /-- A name occurs twice in a parameter table. -/
  | duplicateParameter (name : Symbol)
  /-- A typechecker was asked for something that is neither a datatype nor a typeset. -/
  | invalidDescriptor (value : Value)
  /-- A value was given for a parameter that does not exist. -/
  | unknownParameter (name : Symbol)
  /-- A value was given for a parameter that is already fixed or sealed. -/
  | hiddenParameter (name : Symbol)
  /-- A value was given for the output. -/
  | outputParameter (name : Symbol)
  /-- A value is outside the constraint of its parameter. -/
  | typeMismatch (name : Symbol) (value : Value) (expected : Constraint)
deriving DecidableEq, Repr

/-- Why a frame could not be fulfilled or run. -/
inductive CallError where
  /-- The action has no parameter of this name. -/
  | unknownArgument (name : Symbol)
  /-- The parameter exists, but it is fixed or sealed. -/
  | hiddenParameter (name : Symbol)
  /-- The output cannot be supplied. -/
  | outputParameter (name : Symbol)
  /-- A required parameter was left empty. -/
  | missingArgument (name : Symbol)
  /-- There are more positional arguments than parameters for them. -/
  | tooManyArguments (expected given : Nat)
  /-- An argument is outside the constraint of its parameter. -/
  | typeMismatch (name : Symbol) (value : Value) (expected : Constraint)
  /-- A result is outside the constraint of the output. -/
  | resultMismatch (value : Value) (expected : Constraint)
  /-- A frame was run through an action that is unrelated to the one it was made for. -/
  | incompatibleFrame (label : Option Symbol)
  /-- A native reports a failure of its own. -/
  | native (name description : String)
deriving DecidableEq, Repr

end ActionKit
