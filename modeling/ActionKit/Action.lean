import ActionKit.Native

/-!
# Actions

An action is a callable with a parameter table. Natives and typecheckers compute results; derived
actions specialize or augment another action and leave the work to it.

* `Face`: what every action has: its identity, table, label and description.
* `Action`: a native, a derived action with its source, or a typechecker.
* `Action.root`: the action that frames of an action start to run, and in which environment. An
  augmented action starts where its source does, every other action with itself.

Results:
* `root_depth_le`: a root is no further derived than the action it is the root of.
-/

namespace ActionKit

/-- What every action has. -/
structure Face where
  id : ActionId
  table : Table
  label : Option Symbol := none
  description : Option Bytes := none
deriving DecidableEq, Repr

/-- How an action was derived from another one. -/
inductive Derivation where
  | specialized
  | augmented
deriving DecidableEq, Repr

/-- The name of a derivation. -/
def Derivation.name : Derivation → String
  | .specialized => "specialized"
  | .augmented => "augmented"

/-- A callable. -/
inductive Action where
  /-- A native function in an environment. -/
  | native (face : Face) (function : Native) (binding : Binding)
  /-- A derivation of another action. -/
  | derived (face : Face) (derivation : Derivation) (source : Action)
  /-- A predicate for a datatype or a typeset. -/
  | checker (face : Face) (test : TypeTerm)

/-- Where a frame starts to run. -/
structure Root where
  phase : Action
  binding : Binding

namespace Action

/-- What every action has. -/
def face : Action → Face
  | .native face _ _ => face
  | .derived face _ _ => face
  | .checker face _ => face

/-- The identity of an action. -/
def id (action : Action) : ActionId := action.face.id

/-- The parameter table of an action. -/
def table (action : Action) : Table := action.face.table

/-- The label of an action. -/
def label (action : Action) : Option Symbol := action.face.label

/-- The description of an action. -/
def description (action : Action) : Option Bytes := action.face.description

/-- How an action produces its results. -/
def dispatcher : Action → String
  | .native _ _ _ => "native"
  | .derived _ _ _ => "adapter"
  | .checker _ (.datatype _) => "datatype checker"
  | .checker _ (.typeset _) => "typeset checker"

/-- How an action was derived, if it was. -/
def derivation? : Action → Option Derivation
  | .derived _ derivation _ => some derivation
  | _ => none

/-- The action that an action was derived from. -/
def source? : Action → Option Action
  | .derived _ _ source => some source
  | _ => none

/-- Whether an action has room for a description. Typecheckers have none. -/
def isDescribable : Action → Bool
  | .checker _ _ => false
  | _ => true

/-- How many derivations lie between an action and the native or typechecker at its end. -/
def depth : Action → Nat
  | .derived _ _ source => source.depth + 1
  | _ => 0

/-- Where frames of an action start to run. -/
def root (action : Action) : Root :=
  match action with
  | .native _ _ binding => ⟨action, binding⟩
  | .derived _ .augmented source => source.root
  | .derived _ .specialized _ => ⟨action, .unbound⟩
  | .checker _ _ => ⟨action, .unbound⟩

/-- The root that is laid down in the table of an action. Other actions start with themselves in
no environment. -/
def archetype? (action : Action) : Option Root :=
  match action with
  | .native _ _ (.bound _) => some action.root
  | .derived _ .augmented _ => some action.root
  | _ => none

theorem root_depth_le (action : Action) : action.root.phase.depth ≤ action.depth := by
  induction action with
  | native => exact Nat.le_refl _
  | checker => exact Nat.le_refl _
  | derived face derivation source ih =>
    cases derivation with
    | specialized => exact Nat.le_refl _
    | augmented => exact Nat.le_succ_of_le ih

end Action

end ActionKit
