import ActionKit.Error
import ActionKit.Lineage

/-!
# Native functions and what they see of a call

A native function computes a result from the cells of a frame. It sees the frame through a `Call`,
which is plain data: the table of the phase that runs, the cells, the environment, and the lineage
that further calls need.

* `Environment`, `Binding`: the words a native may be bound to. Two bindings are the same if they
  were made for the same action, whatever words they hold.
* `Call.args`, `Call.arg?`, `Call.cell`: the arguments, in order, by name, and by slot.
* `Native`: a function with its name and the text of its spec.
-/

namespace ActionKit

/-- The words a native is bound to, and the table of the native they were bound for. -/
structure Environment where
  owner : TableId
  words : List (Symbol × Value)
deriving DecidableEq, Repr

/-- The value of a word. The last value given for it counts. -/
def Environment.get? (environment : Environment) (word : Symbol) : Option Value :=
  environment.words.reverse.lookup word

/-- The environment a phase runs in. -/
inductive Binding where
  | unbound
  | bound (environment : Environment)
deriving DecidableEq, Repr

namespace Binding

/-- Whether there is an environment. -/
def isBound : Binding → Bool
  | .unbound => false
  | .bound _ => true

/-- The value of a word, if there is an environment that has it. -/
def get? (binding : Binding) (word : Symbol) : Option Value :=
  match binding with
  | .unbound => none
  | .bound environment => environment.get? word

/-- Whether two bindings share their environment, or both have none. -/
def same : Binding → Binding → Bool
  | .unbound, .unbound => true
  | .bound a, .bound b => a.owner = b.owner
  | _, _ => false

end Binding

/-- What a native function sees of the call it carries out. -/
structure Call where
  /-- The derivations that further calls are checked against. -/
  lineage : Lineage
  /-- The label of the action the frame was made for. -/
  label : Option Symbol
  /-- The action that runs. -/
  phase : ActionId
  /-- The parameter table of the action that runs. -/
  table : Table
  /-- The cells of the frame. -/
  cells : List Value
  binding : Binding
deriving DecidableEq, Repr

namespace Call

/-- The cell at a slot. Slots past the end read as `none`. -/
def cell (call : Call) (slot : Nat) : Value := call.cells[slot]?.getD .none

/-- The slots of the parameters of the phase, its output left out. -/
def argSlots (call : Call) : List Nat :=
  ((List.range call.table.size).drop 1).filter fun slot => some slot ≠ call.table.outputSlot

/-- The arguments of the phase in slot order. What derived actions added is not among them. -/
def args (call : Call) : List Value := call.argSlots.map call.cell

/-- The argument of a parameter of the phase, whatever its visibility. -/
def arg? (call : Call) (name : Symbol) : Option Value := (call.table.find? name).map call.cell

end Call

/-- A native function, with the name it is known by and the text of its spec. -/
structure Native where
  name : String
  spec : String
  run : Call → Except CallError Value

end ActionKit
