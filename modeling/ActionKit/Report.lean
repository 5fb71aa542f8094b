import ActionKit.Action
import ActionKit.Json

/-!
# Reports

A report describes the public interface of an action as a document: its visible parameters and the
specializations that may be inspected. What is sealed is not reported.

* `Reporter.value`: a value as a document.
* `Reporter.parameter`, `Reporter.action`: a parameter and an action.
-/

namespace ActionKit

/-- What symbols and references are reported by. -/
structure Reporter where
  names : Names
  actions : List Action

namespace Reporter

/-- The name of a symbol. -/
def name (reporter : Reporter) (symbol : Symbol) : String :=
  match reporter.names.resolve? symbol with
  | some name => name.shown
  | none => Symbol.illFormed

/-- A datatype, by its name. -/
def datatype (reporter : Reporter) : Datatype → String
  | .builtin kind => kind.name
  | .category category => reporter.name category.name

/-- The action that a value refers to, by its label. -/
def reference (reporter : Reporter) (id : ActionId) : String :=
  match (reporter.actions[id.serial]?).bind (·.label) with
  | some label => reporter.name label
  | none => "action!"

mutual

/-- A value. A value of an open category is reported as its payload. -/
def value (reporter : Reporter) : Value → Json
  | .none => .null
  | .logic truth => .bool truth
  | .integer number => .integer number.toInt
  | .text bytes => .string bytes.shown
  | .block items => .array (reporter.values items)
  | .word name => .string (reporter.name name)
  | .setWord name => .string (reporter.name name ++ ":")
  | .refinement name => .string ("/" ++ reporter.name name)
  | .datatype d => .string (reporter.datatype d)
  | .typeset t => .array (t.kinds.map fun kind => .string kind.name)
  | .action id => .string (reporter.reference id)
  | .custom _ payload => reporter.value payload

/-- Values, one by one. -/
def values (reporter : Reporter) : List Value → List Json
  | [] => []
  | item :: rest => reporter.value item :: reporter.values rest

end

/-- A constraint, as the list of the datatypes it names. -/
def constraint (reporter : Reporter) (types : Constraint) : Json :=
  .array (types.datatypes.map fun d => .string (reporter.datatype d))

/-- A parameter. -/
def parameter (reporter : Reporter) (entry : Entry) : Json :=
  .object [
    ("name", .string (reporter.name entry.name)),
    ("class", .option (entry.role?.map fun role => .string role.name)),
    ("types", .option (entry.types?.map reporter.constraint)),
    ("notes", .option (entry.docNotes.map fun notes => .string notes.shown))]

/-- An action. -/
def action (reporter : Reporter) (action : Action) : Json :=
  .object [
    ("label", .option (action.label.map fun label => .string (reporter.name label))),
    ("description", .option (action.description.map fun text => .string text.shown)),
    ("dispatcher", .string action.dispatcher),
    ("derivation", .option (action.derivation?.map fun derivation => .string derivation.name)),
    ("parameters", .array (action.table.exposed.map fun (entry, _) => reporter.parameter entry)),
    ("specializations", .object (action.table.specializations.map fun (entry, value) =>
      (reporter.name entry.name, reporter.value value)))]

end Reporter

end ActionKit
