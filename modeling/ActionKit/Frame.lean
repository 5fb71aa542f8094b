import ActionKit.Action

/-!
# Frames

A frame is the record of a call being prepared and run: one cell for every slot of the table it
was made for. Callers fill it through the public surface of the table only.

* `Frame.new`: a frame with fixed parameters filled in and all else empty.
* `Frame.get`, `Frame.set`: reading and filling a cell by name, checked.
* `Frame.setAll`: filling several cells, up to the first that is refused.
-/

namespace ActionKit

/-- The record of a call. -/
structure Frame where
  /-- The table the frame was made for. -/
  table : Table
  /-- The label of the action the frame was made for. -/
  label : Option Symbol
  /-- What runs next, and where. -/
  root : Root
  /-- One cell for every slot. -/
  cells : List Value

namespace Frame

/-- A new frame of an action. -/
def new (action : Action) : Frame :=
  { table := action.table
    label := action.label
    root := action.root
    cells := action.table.entries.map (·.initialCell) }

/-- The cell at a slot. Slots past the end read as `none`, as the header does. -/
def cell (frame : Frame) (slot : Nat) : Value := frame.cells[slot]?.getD .none

/-- The frame about to run something else. -/
def redirect (frame : Frame) (root : Root) : Frame := { frame with root }

/-- The entry and the slot of a name that is on the public surface. -/
def exposedEntry (frame : Frame) (name : Symbol) : Except CallError (Entry × Nat) :=
  match frame.table.findEntry? name with
  | none => .error (.unknownArgument name)
  | some (entry, slot) =>
    if entry.isExposed then .ok (entry, slot) else .error (.hiddenParameter name)

/-- Read an argument through the public surface. -/
def get (frame : Frame) (name : Symbol) : Except CallError Value :=
  match frame.exposedEntry name with
  | .error error => .error error
  | .ok (_, slot) => .ok (frame.cell slot)

/-- Whether a parameter may be given a value. A refinement may always be reset to `none`. -/
def permit (entry : Entry) (name : Symbol) (value : Value) : Except CallError Unit :=
  match entry.content with
  | .unbound .output _ => .error (.outputParameter name)
  | .unbound .refinement types =>
    if value.isNone || types.accepts value then .ok () else .error (.typeMismatch name value types)
  | .unbound .normal types =>
    if types.accepts value then .ok () else .error (.typeMismatch name value types)
  | .fixed _ | .header => .ok ()

/-- Fill a cell through the public surface. -/
def set (frame : Frame) (name : Symbol) (value : Value) : Except CallError Frame :=
  match frame.exposedEntry name with
  | .error error => .error error
  | .ok (entry, slot) =>
    match permit entry name value with
    | .error error => .error error
    | .ok () => .ok { frame with cells := frame.cells.set slot value }

/-- Fill cells in order, up to the first that is refused. -/
def setAll (frame : Frame) : List (Symbol × Value) → Except CallError Frame
  | [] => .ok frame
  | (name, value) :: rest =>
    match frame.set name value with
    | .error error => .error error
    | .ok next => next.setAll rest

end Frame

end ActionKit
