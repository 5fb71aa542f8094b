import ActionKit.Value

/-!
# Constraints

A constraint says which values a parameter takes: all values of some kinds, and all values of
some open categories. A category admits only its own values, so a constraint that names
categories need not admit the kind `custom!`.

* `Constraint.add`: one more item of a type block.
* `Constraint.accepts`: whether a value satisfies the constraint.
* `TypeTerm.admits`: whether a value is of a datatype or in a typeset.

Results:
* `accepts_add`: a constraint with one more item accepts what it did and what the item admits.
-/

namespace ActionKit

/-- Whether a value is of a datatype, or of a kind in a typeset. -/
def TypeTerm.admits : TypeTerm → Value → Bool
  | .datatype d, value => value.isType d
  | .typeset t, value => t.contains value.kind

/-- The values a parameter takes: those of some kinds, and those of some open categories in the
order in which they were added. -/
structure Constraint where
  kinds : Typeset := .empty
  categories : List Category := []
deriving DecidableEq, Repr

namespace Constraint

/-- The constraint that accepts nothing. -/
def empty : Constraint := {}

/-- The constraint that accepts the kinds of a typeset. -/
def ofTypeset (kinds : Typeset) : Constraint := { kinds }

/-- Accept one more datatype or typeset. A category that is already accepted is not added
again. -/
def add (c : Constraint) : TypeTerm → Constraint
  | .typeset t => { c with kinds := c.kinds.union t }
  | .datatype (.builtin kind) => { c with kinds := c.kinds.insert kind }
  | .datatype (.category category) =>
    if c.categories.any (·.serial = category.serial) then c
    else { c with categories := c.categories ++ [category] }

/-- Whether all values of a kind are accepted. -/
def contains (c : Constraint) (kind : Kind) : Bool := c.kinds.contains kind

/-- Whether a value is accepted. -/
def accepts (c : Constraint) (value : Value) : Bool :=
  c.kinds.contains value.kind || c.categories.any fun category => value.isType (.category category)

/-- The datatypes a constraint names: the kinds in order, then the categories. -/
def datatypes (c : Constraint) : List Datatype :=
  c.kinds.kinds.map .builtin ++ c.categories.map .category

@[simp] theorem accepts_empty (value : Value) : empty.accepts value = false := by
  simp [empty, accepts]

@[simp] theorem accepts_ofTypeset (kinds : Typeset) (value : Value) :
    (ofTypeset kinds).accepts value = kinds.contains value.kind := by
  simp [ofTypeset, accepts]

theorem accepts_add (c : Constraint) (term : TypeTerm) (value : Value) :
    (c.add term).accepts value = (c.accepts value || term.admits value) := by
  match term with
  | .typeset t => simp [add, accepts, TypeTerm.admits, Bool.or_right_comm]
  | .datatype (.builtin kind) =>
    simp [add, accepts, TypeTerm.admits, Value.isType, Bool.or_right_comm, eq_comm]
  | .datatype (.category category) =>
    by_cases h : c.categories.any (·.serial = category.serial) = true
    · have hadd : c.add (.datatype (.category category)) = c := by simp only [add, h, if_true]
      rw [hadd, TypeTerm.admits]
      cases hv : value.isType (.category category) with
      | false => simp
      | true =>
        obtain ⟨other, hmem, hserial⟩ := List.any_eq_true.1 h
        have hother : value.isType (.category other) = true := by
          cases value <;> simp_all [Value.isType]
        have : c.accepts value = true := by
          simp only [accepts, Bool.or_eq_true, List.any_eq_true]
          exact .inr ⟨other, hmem, hother⟩
        simp [this]
    · simp [add, h, accepts, TypeTerm.admits, Bool.or_assoc]

end Constraint

end ActionKit
