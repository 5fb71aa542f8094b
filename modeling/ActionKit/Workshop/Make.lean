import ActionKit.Workshop.Basic

/-!
# Making actions

* `Workshop.makeNative`: an action for a native function, from the spec the function declares.
* `Workshop.specialize`: an action with some parameters of another one fixed to values.
* `Workshop.augment`: an action with more parameters than another one, which the other one never
  reads.
* `Workshop.makeChecker`: a predicate for a datatype or a typeset.
* `Workshop.call`, `Workshop.invoke`, `Workshop.invokeAs`: running what was made.
-/

namespace ActionKit.Workshop

/-- Read the text of a spec and draft the table it declares. -/
def draftSpec (w : Workshop) (text : String) (withOutput : Bool) :
    Except BuildError Finished × Workshop :=
  match w.readSpec text with
  | (.error error, w) => (.error error, w)
  | (.ok spec, w) => w.draft (·.declare spec withOutput)

/-- Make an action for a native function. Every native has an output. If words are given, the
native runs in an environment of its own that holds them. -/
def makeNative (w : Workshop) (function : Native) (words : Option (List (Symbol × Value))) :
    Except BuildError Action × Workshop :=
  match w.draftSpec function.spec true with
  | (.error error, w) => (.error error, w)
  | (.ok finished, w) =>
    let (table, w) := w.addTable finished
    let (label, w) := w.intern (.ofString function.name)
    let face : Face :=
      { id := w.nextId, table, label := some label, description := finished.description }
    let binding : Binding :=
      match words with
      | none => .unbound
      | some words => .bound { owner := table.id, words }
    let action : Action := .native face function binding
    (.ok action, w.addAction action)

/-- Make an action that fixes some parameters of its source to values. Fixed parameters leave the
public surface and can still be inspected. -/
def specialize (w : Workshop) (source : Action) (bindings : List (Symbol × Value)) :
    Except BuildError Action × Workshop :=
  let fill (draft : Draft) : Except BuildError Unit × Draft :=
    match (draft.copy source.table .preserve).fixAll bindings with
    | (.error error, draft) => (.error error, draft)
    | (.ok (), draft) => (.ok (), draft.inherit source.description)
  match w.draft fill with
  | (.error error, w) => (.error error, w)
  | (.ok finished, w) =>
    let (table, w) := w.addTable finished
    let face : Face :=
      { id := w.nextId, table, label := source.label, description := finished.description }
    let action : Action := .derived face .specialized source
    let w := { w with lineage := w.lineage.link table.id source.table.id }
    (.ok action, (w.addAction action).note (.specialized source.id table.id))

/-- Make an action that takes the parameters of its source and those a spec declares. What the
source has fixed is sealed. Without a label of its own, the action has that of its source. -/
def augment (w : Workshop) (source : Action) (spec : List Value) (label : Option Symbol) :
    Except BuildError Action × Workshop :=
  let fill (draft : Draft) : Except BuildError Unit × Draft :=
    match (draft.copy source.table .sealFixed).declare spec false with
    | (.error error, draft) => (.error error, draft)
    | (.ok (), draft) => (.ok (), draft.inherit source.description)
  match w.draft fill with
  | (.error error, w) => (.error error, w)
  | (.ok finished, w) =>
    let (table, w) := w.addTable finished
    let face : Face :=
      { id := w.nextId, table, label := label <|> source.label,
        description := finished.description }
    let action : Action := .derived face .augmented source
    let w := { w with lineage := w.lineage.link table.id source.table.id }
    (.ok action, (w.addAction action).note (.augmented source.id table.id table.size))

/-- Make a predicate for a datatype or a typeset. All predicates share one table. -/
def makeChecker (w : Workshop) (descriptor : Value) : Except BuildError Action × Workshop :=
  match descriptor.typeTerm? with
  | none => (.error (.invalidDescriptor descriptor), w)
  | some test =>
    let action : Action := .checker { id := w.nextId, table := w.checkerTable } test
    (.ok action, w.addAction action)

/-- Call an action. -/
def call (w : Workshop) (action : Action) (positional : List Value)
    (named : List (Symbol × Value)) : Except CallError Value :=
  ActionKit.call w.lineage action positional named

/-- Run a frame. -/
def invoke (w : Workshop) (frame : Frame) : Except CallError Value :=
  ActionKit.invoke w.lineage frame

/-- Run a frame through another action. -/
def invokeAs (w : Workshop) (frame : Frame) (action : Action) : Except CallError Value :=
  ActionKit.invokeAs w.lineage frame action

end ActionKit.Workshop
