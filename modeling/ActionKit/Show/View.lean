import ActionKit.Integer
import ActionKit.Action
import ActionKit.Show.Ink

/-!
# Showing values, parameters and actions

What is shown depends on a view: the names that symbols resolve to, the actions that values may
refer to, and whether colours are used.

* `View.symbol`, `View.value`, `View.constraint`: names, values and types.
* `View.entry`, `View.table`: parameters, as they would be declared, and tables, line by line.
* `View.action`: an action by its label and public surface.
-/

namespace ActionKit

/-- What symbols and references are shown by. -/
structure View where
  names : Names
  actions : List Action := []
  colored : Bool := false

/-- Texts with a blank between each two. -/
def spaced : List String → String
  | [] => ""
  | [text] => text
  | text :: rest => text ++ " " ++ spaced rest

/-- A text in brackets. -/
def bracketed (text : String) : String := "[" ++ text ++ "]"

/-- A byte string in quotes. What is inside is not escaped. -/
def quotation (bytes : Bytes) : String := "\"" ++ bytes.shown ++ "\""

namespace View

/-- A text in a colour, if colours are used. -/
def paint (view : View) (ink : Ink) (text : String) : String :=
  if view.colored then ink.paint text else text

/-! ## Names and types -/

/-- The name of a symbol. The placeholder, and symbols without a name, are never coloured. -/
def symbol (view : View) (symbol : Symbol) : String :=
  if symbol = .invalid then Symbol.illFormed
  else
    match view.names.resolve? symbol with
    | some name => view.paint .green name.shown
    | none => Symbol.illFormed

/-- A kind, by its name as a datatype. -/
def kind (view : View) (kind : Kind) : String := view.paint .cyan kind.name

/-- A datatype, by its name. -/
def datatype (view : View) : Datatype → String
  | .builtin kind => view.kind kind
  | .category category => view.symbol category.name

/-- The kinds of a typeset, in brackets. -/
def typeset (view : View) (typeset : Typeset) : String :=
  bracketed (spaced (typeset.kinds.map view.kind))

/-- A constraint as a type block: the kinds first, then the open categories. -/
def constraint (view : View) (types : Constraint) : String :=
  bracketed (spaced (types.datatypes.map view.datatype))

/-! ## Parameters and actions -/

/-- A parameter as it would be declared. -/
def entry (view : View) (entry : Entry) : String :=
  match entry.role? with
  | some .refinement => "/" ++ view.symbol entry.name
  | some .output => view.symbol entry.name ++ ":"
  | _ => view.symbol entry.name

/-- An action, by its label and the parameters on its public surface. -/
def action (view : View) (action : Action) : String :=
  let label :=
    match action.label with
    | some label => view.symbol label ++ " "
    | none => ""
  "#[" ++ view.paint .cyan "action!" ++ " " ++ label ++
    bracketed (spaced (action.table.exposed.map fun (entry, _) => view.entry entry)) ++ "]"

/-- The action that a value refers to. -/
def reference (view : View) (id : ActionId) : String :=
  match view.actions[id.serial]? with
  | some action => view.action action
  | none => "#[" ++ view.paint .cyan "action!" ++ " []]"

/-! ## Values -/

mutual

/-- A value. -/
def value (view : View) : Value → String
  | .none => view.paint .blue "none"
  | .logic true => view.paint .blue "true"
  | .logic false => view.paint .blue "false"
  | .integer number => view.paint .yellow (Integer.numeral number)
  | .text bytes => view.paint .yellow (quotation bytes)
  | .block items => bracketed (spaced (view.values items))
  | .word name => view.symbol name
  | .setWord name => view.symbol name ++ ":"
  | .refinement name => "/" ++ view.symbol name
  | .datatype d => view.datatype d
  | .typeset t => view.typeset t
  | .action id => view.reference id
  | .custom category payload => "#[" ++ view.symbol category.name ++ " " ++ view.value payload ++ "]"

/-- Values, one by one. -/
def values (view : View) : List Value → List String
  | [] => []
  | item :: rest => view.value item :: view.values rest

end

/-! ## Tables -/

/-- A slot number, right-aligned in three columns. -/
def slot (view : View) (slot : Nat) : String :=
  let digits := toString slot
  view.paint .yellow ("".pushn ' ' (3 - digits.length) ++ digits)

/-- What a line of a table says after the name: that the parameter is sealed, its value, or its
types. -/
def holding (view : View) (entry : Entry) : String :=
  if entry.visibility = .hidden then " " ++ view.paint .magenta "(sealed)"
  else
    match entry.content with
    | .fixed value => " " ++ view.paint .magenta "=" ++ " " ++ view.value value
    | .unbound _ types => " " ++ view.constraint types
    | .header => ""

/-- A line of a table. -/
def row (view : View) (entry : Entry) (slot : Nat) : String :=
  let notes :=
    match entry.docNotes with
    | some notes => " " ++ quotation notes
    | none => ""
  view.slot slot ++ " " ++ view.entry entry ++ view.holding entry ++ notes ++ "\n"

/-- A table, one parameter a line. -/
def table (view : View) (table : Table) : String :=
  String.join (table.params.map fun (entry, slot) => view.row entry slot)

end View

end ActionKit
