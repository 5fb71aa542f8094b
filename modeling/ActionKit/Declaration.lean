import ActionKit.Error

/-!
# Declaring parameters

A spec is a list of values that declares parameters. A leading text describes the action. Then
follow groups: a word, a refinement or the set-word `return:` declares a parameter, and a text or
a block after it gives its notes or its types, each at most once.

* `Declaring`: the entries so far, and which of them the next notes belong to.
* `Declaring.item` takes one item of a spec. A rejected item changes nothing.
* `Declaring.items` takes items in order and stops at the first rejected one, keeping what the
  items before it declared.
* `Declaring.run` takes a whole spec and can add an output if none was declared.
-/

namespace ActionKit

/-- The state of declaring parameters. -/
structure Declaring where
  /-- The entries so far, the header first. -/
  entries : List Entry
  /-- The slot of the output, if there is one. -/
  outputSlot : Option Nat
  /-- The leading text. -/
  description : Option Bytes := none
  /-- The slot of the parameter declared last, which notes and type blocks belong to. -/
  current : Option Nat := none
deriving DecidableEq, Repr

namespace Declaring

/-- The constraint a type block means. -/
def typeBlock (position : Nat) (items : List Value) : Except BuildError Constraint :=
  items.foldlM
    (fun types item =>
      match item.typeTerm? with
      | some term => .ok (types.add term)
      | none => .error (.specItem position item .notAType))
    .empty

/-- Give an entry the type block it is declared with. -/
def typed (items : List Value) (types : Constraint) (entry : Entry) : Entry :=
  { entry with
    typeNotes := some items
    content :=
      match entry.content with
      | .unbound role _ => .unbound role types
      | content => content }

/-- Declare one more parameter. -/
def declare (state : Declaring) (name : Symbol) (role : Role) : Declaring :=
  { state with
    entries := state.entries ++ [.declared name role]
    current := some state.entries.length }

/-- Take a text: the description before any parameter, and the notes of the current one after. -/
def text (state : Declaring) (position : Nat) (bytes : Bytes) : Except BuildError Declaring :=
  match state.current with
  | none =>
    if state.description.isSome then
      .error (.specItem position (.text bytes) .duplicateDescription)
    else .ok { state with description := some bytes }
  | some slot =>
    if (state.entries[slot]?.bind (·.docNotes)).isSome then
      .error (.specItem position (.text bytes) .duplicateNotes)
    else
      .ok { state with entries := state.entries.modify slot ({ · with docNotes := some bytes }) }

/-- Take a block: the types of the current parameter. -/
def block (state : Declaring) (position : Nat) (items : List Value) :
    Except BuildError Declaring :=
  match state.current with
  | none => .error (.specItem position (.block items) .strayTypeBlock)
  | some slot =>
    match typeBlock position items with
    | .error error => .error error
    | .ok types =>
      if (state.entries[slot]?.bind (·.typeNotes)).isSome then
        .error (.specItem position (.block items) .duplicateTypeBlock)
      else .ok { state with entries := state.entries.modify slot (typed items types) }

/-- Take a set-word: only the output is declared as one, and only once. -/
def setWord (state : Declaring) (position : Nat) (name : Symbol) : Except BuildError Declaring :=
  if name = .output then
    if state.outputSlot.isSome then .error (.duplicateParameter name)
    else .ok { state.declare name .output with outputSlot := some state.entries.length }
  else .error (.specItem position (.setWord name) .straySetWord)

/-- Take one item of a spec. -/
def item (state : Declaring) (position : Nat) (value : Value) : Except BuildError Declaring :=
  match value with
  | .text bytes => state.text position bytes
  | .block items => state.block position items
  | .word name => .ok (state.declare name .normal)
  | .refinement name => .ok (state.declare name .refinement)
  | .setWord name => state.setWord position name
  | _ => .error (.specItem position value .strayItem)

/-- Take items in order, up to the first that is rejected. -/
def items (state : Declaring) (position : Nat) : List Value → Except BuildError Unit × Declaring
  | [] => (.ok (), state)
  | value :: rest =>
    match state.item position value with
    | .error error => (.error error, state)
    | .ok next => next.items (position + 1) rest

/-- Put an output that may be anything in front of all parameters. -/
def addOutput (state : Declaring) : Declaring :=
  { state with
    entries := state.entries.insertIdx 1 (.declared .output .output)
    outputSlot := some 1 }

/-- Take a whole spec. With `withOutput`, an output is added if there is none. -/
def run (state : Declaring) (spec : List Value) (withOutput : Bool) :
    Except BuildError Unit × Declaring :=
  match state.items 0 spec with
  | (.error error, state) => (.error error, state)
  | (.ok (), state) =>
    (.ok (), if withOutput && state.outputSlot.isNone then state.addOutput else state)

end Declaring

end ActionKit
