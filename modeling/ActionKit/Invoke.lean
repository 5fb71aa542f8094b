import ActionKit.Frame

/-!
# Running frames

A frame runs phase by phase. A derived action hands the frame on to the root of its source, if the
lineage confirms that this is its source; a native or a typechecker ends the run with a result.

* `Frame.dispatch`: one phase.
* `invoke`: phase after phase, to the end.
* `invokeAs`: running a frame as if it had been made for another, related action.
* `fulfil`, `call`: a frame from arguments, and running it.

Results:
* `dispatch_depth`: every phase is less derived than the one before, so that every run ends.
-/

namespace ActionKit

/-- The first required parameter of a table whose cell is empty. Parameters whose constraint
admits `none` are not required. -/
def missing? (table : Table) (cell : Nat → Value) : Option Symbol :=
  table.params.findSome? fun (entry, slot) =>
    match entry.content with
    | .unbound .normal types =>
      if (cell slot).isNone && !types.contains .none then some entry.name else none
    | _ => none

/-- Check a result against the constraint of the output of a table. -/
def checkResult (table : Table) (value : Value) : Except CallError Value :=
  match table.output?.bind (·.types?) with
  | some types => if types.accepts value then .ok value else .error (.resultMismatch value types)
  | none => .ok value

/-- What one phase leads to. -/
inductive Phase where
  | done (result : Except CallError Value)
  | redirected (frame : Frame)

namespace Frame

/-- What a native function sees of the frame. -/
def toCall (frame : Frame) (lineage : Lineage) (face : Face) : Call :=
  { lineage
    label := frame.label
    phase := face.id
    table := face.table
    cells := frame.cells
    binding := frame.root.binding }

/-- Run a native function on the frame: all required parameters must be there, and the result must
be of the declared type. -/
def runNative (frame : Frame) (lineage : Lineage) (face : Face) (function : Native) :
    Except CallError Value :=
  match missing? face.table frame.cell with
  | some name => .error (.missingArgument name)
  | none =>
    match function.run (frame.toCall lineage face) with
    | .error error => .error error
    | .ok value => checkResult face.table value

/-- The cell a typechecker looks at: that of the parameter `value` of its table. -/
def checkedCell (frame : Frame) (table : Table) : Value :=
  match table.find? .value with
  | some slot => frame.cell slot
  | none => .none

/-- Run one phase. -/
def dispatch (frame : Frame) (lineage : Lineage) : Phase :=
  match frame.root.phase with
  | .native face function _ => .done (frame.runNative lineage face function)
  | .derived face _ source =>
    if lineage.source? face.table.id = some source.table.id then
      .redirected (frame.redirect source.root)
    else .done (.error (.incompatibleFrame source.label))
  | .checker face test => .done (.ok (.logic (test.admits (frame.checkedCell face.table))))

theorem dispatch_depth {frame next : Frame} {lineage : Lineage}
    (h : frame.dispatch lineage = .redirected next) :
    next.root.phase.depth < frame.root.phase.depth := by
  unfold dispatch at h
  split at h
  · simp at h
  · next face derivation source hphase =>
    split at h
    · obtain rfl := Phase.redirected.inj h
      rw [hphase]
      exact Nat.lt_succ_of_le source.root_depth_le
    · simp at h
  · simp at h

end Frame

/-- Run a frame to its result. -/
def invoke (lineage : Lineage) (frame : Frame) : Except CallError Value :=
  match h : frame.dispatch lineage with
  | .done result => result
  | .redirected next =>
    have := Frame.dispatch_depth h
    invoke lineage next
termination_by frame.root.phase.depth

/-- Run a frame through another action. One of the two actions must derive from the other. -/
def invokeAs (lineage : Lineage) (frame : Frame) (action : Action) : Except CallError Value :=
  if lineage.compatible frame.table.id action.table.id then
    invoke lineage (frame.redirect action.root)
  else .error (.incompatibleFrame action.label)

/-- A frame of an action, filled with positional arguments and then with named ones. -/
def fulfil (action : Action) (positional : List Value) (named : List (Symbol × Value)) :
    Except CallError Frame :=
  let names := action.table.positional
  if names.length < positional.length then
    .error (.tooManyArguments names.length positional.length)
  else (Frame.new action).setAll (names.zip positional ++ named)

/-- Call an action. -/
def call (lineage : Lineage) (action : Action) (positional : List Value)
    (named : List (Symbol × Value)) : Except CallError Value :=
  match fulfil action positional named with
  | .error error => .error error
  | .ok frame => invoke lineage frame

end ActionKit
