import ActionKit.Invoke

/-!
# Stock behaviours for natives

Ready-made bodies for natives: they hand out what a native can see of its call, answer a constant,
fail, or pass their arguments on to another action.
-/

namespace ActionKit.Stock

/-- A body of a native. -/
abbrev Body := Call → Except CallError Value

/-- All arguments, as a block. -/
def args : Body := fun call => .ok (.block call.args)

/-- The argument of a parameter, or the text `absent` if the native has no such parameter. -/
def arg (name : Symbol) : Body := fun call =>
  .ok ((call.arg? name).getD (.text (.ofString "absent")))

/-- The cell at a slot. -/
def slot (index : Nat) : Body := fun call => .ok (call.cell index)

/-- The value that the environment has for the word given as first argument, or `none`. -/
def lookup (name : String) : Body := fun call =>
  match call.args with
  | .word word :: _ => .ok ((call.binding.get? word).getD .none)
  | _ => .error (.native name "not a word")

/-- Whether the native runs in an environment. -/
def bound : Body := fun call => .ok (.logic call.binding.isBound)

/-- Always the same value. -/
def const (value : Value) : Body := fun _ => .ok value

/-- Always a failure. -/
def fail (name description : String) : Body := fun _ => .error (.native name description)

/-- The action that runs. -/
def phase : Body := fun call => .ok (.action call.phase)

/-- The label of the action the frame was made for, as a word, or `none`. -/
def label : Body := fun call =>
  match call.label with
  | some label => .ok (.word label)
  | none => .ok .none

/-- The result of another action on the same arguments. -/
def forward (target : Action) : Body := fun call => ActionKit.call call.lineage target call.args []

end ActionKit.Stock
