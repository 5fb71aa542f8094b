import ActionKit.Draft
import ActionKit.Invoke
import ActionKit.SpecText.Read

/-!
# Workshops

A workshop is where actions are made and called. It holds the interned names, the registered
types, the scratch area, the lineage of tables, and all actions made so far. A journal records
what went on.

Every operation that can fail answers with its result and the workshop it leaves, also when it
fails: names that were interned on the way stay.

* `Workshop.intern`, `Workshop.register`, `Workshop.readSpec`: names, types and specs.
* `Workshop.draft`: drafting a parameter table on the scratch area, from start to end.
* `Workshop.addAction`: a new action under the next identity.
-/

namespace ActionKit

/-- What the journal of a workshop records. -/
inductive Event where
  | region (event : RegionEvent)
  /-- An action was specialized into a new table. -/
  | specialized (source : ActionId) (table : TableId)
  /-- An action was augmented into a new table of some size. -/
  | augmented (source : ActionId) (table : TableId) (slots : Nat)
  /-- A workshop was set up with some natives. -/
  | created (natives : Nat)
deriving DecidableEq, Repr

/-- The place where actions are made and called. -/
structure Workshop where
  names : Names := .initial
  types : TypeRegistry := {}
  scratch : Scratch := {}
  lineage : Lineage := {}
  /-- All actions made so far, each at the number that is its identity. -/
  actions : List Action := []
  /-- The native library, sorted by name. -/
  natives : List Action := []
  /-- The table that all typecheckers share. -/
  checkerTable : Table := { id := ⟨0⟩, entries := [.header], outputSlot := none }
  journal : List Event := []

namespace Workshop

/-- Record an event. -/
def note (w : Workshop) (event : Event) : Workshop := { w with journal := w.journal ++ [event] }

/-- The symbol of a name. -/
def intern (w : Workshop) (name : Bytes) : Symbol × Workshop :=
  let (symbol, names) := w.names.intern name
  (symbol, { w with names })

/-- The datatype of an open category, registered if it is new. -/
def register (w : Workshop) (name : Bytes) : Category × Workshop :=
  let (symbol, w) := w.intern name
  let (category, types) := w.types.register symbol
  (category, { w with types })

/-- Read a spec or an argument list. -/
def readSpec (w : Workshop) (text : String) : Except BuildError (List Value) × Workshop :=
  let (result, names) := SpecText.read w.types w.names text.toList
  (result, { w with names })

/-- The action with an identity. -/
def action? (w : Workshop) (id : ActionId) : Option Action := w.actions[id.serial]?

/-- The native of the library with a name. -/
def native? (w : Workshop) (name : Bytes) : Option Action := do
  let label ← w.names.find? name
  w.natives.find? (·.label = some label)

/-- Take the scratch area back from a draft, moving its trace to the journal. -/
def reclaim (w : Workshop) (scratch : Scratch) : Workshop :=
  { w with
    scratch := { scratch with trace := [] }
    journal := w.journal ++ scratch.trace.map .region }

/-- Draft a parameter table: start a draft, fill it, and finish it, or discard it if filling it
failed. -/
def draft (w : Workshop) (fill : Draft → Except BuildError Unit × Draft) :
    Except BuildError Finished × Workshop :=
  match fill (.start w.scratch) with
  | (.error error, draft) => (.error error, w.reclaim draft.discard)
  | (.ok (), draft) =>
    let (result, scratch) := draft.finish
    (result, w.reclaim scratch)

/-- The table of a finished draft, under a new identity. -/
def addTable (w : Workshop) (finished : Finished) : Table × Workshop :=
  let (id, lineage) := w.lineage.allocate
  (finished.toTable id, { w with lineage })

/-- The identity that the next action gets. -/
def nextId (w : Workshop) : ActionId := ⟨w.actions.length⟩

/-- Keep an action that was made under the next identity. -/
def addAction (w : Workshop) (action : Action) : Workshop :=
  { w with actions := w.actions ++ [action] }

end Workshop

end ActionKit
