import ActionKit.Constraint

/-!
# Parameter entries

One slot of a parameter table: a name, what the slot holds, and the notes it was declared with.

* `Role`: how an unbound parameter is supplied.
* `Content`: a slot is the reserved header, an unbound parameter, or a parameter fixed to a value.
* `Entry.visibility`: how the entry shows through the public surface of an action.

Results:
* `visibility_eq_exposed_iff`: the exposed entries are the unbound ones that are not sealed.
-/

namespace ActionKit

/-- How an unbound parameter is supplied. -/
inductive Role where
  /-- Required, and supplied by position. -/
  | normal
  /-- Optional, and supplied by name. -/
  | refinement
  /-- The output. Callers never supply it. -/
  | output
deriving DecidableEq, Repr

namespace Role

/-- The name of a role. -/
def name : Role → String
  | .normal => "normal"
  | .refinement => "refinement"
  | .output => "return"

/-- The constraint of a parameter declared without a type block: the output may be anything, all
other parameters anything but `none`. -/
def defaultTypes : Role → Constraint
  | .normal | .refinement => .ofTypeset .anyValue
  | .output => .ofTypeset .anyType

end Role

/-- What a slot holds. -/
inductive Content where
  /-- The reserved slot 0. -/
  | header
  /-- A parameter that callers may fill, constrained to some types. -/
  | unbound (role : Role) (types : Constraint)
  /-- A parameter fixed to a value. -/
  | fixed (value : Value)
deriving DecidableEq, Repr

/-- How an entry shows through the public surface of an action. -/
inductive Visibility where
  /-- Listed, and settable unless it is the output. -/
  | exposed
  /-- Hidden from callers, with a value that can still be inspected. -/
  | specialized
  /-- Hidden altogether. -/
  | hidden
deriving DecidableEq, Repr

/-- The name of a visibility. -/
def Visibility.name : Visibility → String
  | .exposed => "public"
  | .specialized => "specialized"
  | .hidden => "sealed"

/-- An entry of a parameter table. -/
structure Entry where
  name : Symbol
  content : Content
  /-- The type block the parameter was declared with. -/
  typeNotes : Option (List Value) := none
  /-- The text the parameter was declared with. -/
  docNotes : Option Bytes := none
  isSealed : Bool := false
deriving DecidableEq, Repr

namespace Entry

/-- The entry at slot 0. -/
def header : Entry := { name := .invalid, content := .header, isSealed := true }

/-- A new unbound parameter, with the constraint its role has by default. -/
def declared (name : Symbol) (role : Role) : Entry :=
  { name, content := .unbound role role.defaultTypes }

/-- Whether the entry is fixed to a value. -/
def isFixed (entry : Entry) : Bool :=
  match entry.content with
  | .fixed _ => true
  | _ => false

/-- The role of an unbound parameter. -/
def role? (entry : Entry) : Option Role :=
  match entry.content with
  | .unbound role _ => some role
  | _ => none

/-- The constraint of an unbound parameter. -/
def types? (entry : Entry) : Option Constraint :=
  match entry.content with
  | .unbound _ types => some types
  | _ => none

/-- The value a fixed parameter holds. -/
def fixedValue? (entry : Entry) : Option Value :=
  match entry.content with
  | .fixed value => some value
  | _ => none

/-- How the entry shows through the public surface. -/
def visibility (entry : Entry) : Visibility :=
  if entry.isSealed then .hidden
  else
    match entry.content with
    | .header => .hidden
    | .fixed _ => .specialized
    | .unbound _ _ => .exposed

/-- Whether the entry is listed on the public surface. -/
def isExposed (entry : Entry) : Bool := entry.visibility = .exposed

/-- Seal the entry if it is fixed to a value. -/
def sealFixed (entry : Entry) : Entry :=
  if entry.isFixed then { entry with isSealed := true } else entry

/-- The value a new frame holds in the slot of the entry. -/
def initialCell (entry : Entry) : Value :=
  match entry.content with
  | .fixed value => value
  | _ => .none

theorem visibility_eq_exposed_iff {entry : Entry} :
    entry.visibility = .exposed ↔
      entry.isSealed = false ∧ ∃ role types, entry.content = .unbound role types := by
  unfold visibility
  cases entry.isSealed <;> cases entry.content <;> simp

@[simp] theorem name_sealFixed (entry : Entry) : entry.sealFixed.name = entry.name := by
  unfold sealFixed
  split <;> rfl

@[simp] theorem content_sealFixed (entry : Entry) : entry.sealFixed.content = entry.content := by
  unfold sealFixed
  split <;> rfl

end Entry

end ActionKit
