import ActionKit.Table

/-!
# Lineage of parameter tables

Every derived table is linked to the table it was derived from. Walks along the links are bounded,
so that they end whatever the links are.

* `Lineage.allocate`, `Lineage.link`: new identities and new links.
* `Lineage.ancestors`: the sources of a table, nearest first.
* `Lineage.derivesFrom`, `Lineage.compatible`: whether one table is reached from the other.

Results:
* `compatible_self`, `compatible_comm`: compatibility is reflexive and symmetric.
-/

namespace ActionKit

/-- The identities given out so far, and the derivation links. A later link of a table replaces an
earlier one. -/
structure Lineage where
  next : Nat := 0
  links : List (TableId × TableId) := []
deriving DecidableEq, Repr

namespace Lineage

/-- How many links a walk follows at most. -/
def maxDepth : Nat := 64

/-- A new identity. -/
def allocate (lineage : Lineage) : TableId × Lineage :=
  (⟨lineage.next⟩, { lineage with next := lineage.next + 1 })

/-- Record that a table was derived from another one. -/
def link (lineage : Lineage) (derived source : TableId) : Lineage :=
  { lineage with links := (derived, source) :: lineage.links }

/-- The table that a table was derived from. -/
def source? (lineage : Lineage) (table : TableId) : Option TableId := lineage.links.lookup table

/-- The first sources of a table, nearest first, at most `depth` of them. -/
def walk (lineage : Lineage) : (depth : Nat) → TableId → List TableId
  | 0, _ => []
  | depth + 1, table =>
    match lineage.source? table with
    | none => []
    | some source => source :: lineage.walk depth source

/-- The sources of a table, nearest first and the table itself left out. -/
def ancestors (lineage : Lineage) (table : TableId) : List TableId := lineage.walk maxDepth table

/-- Whether `ancestor` is the table itself or one of its sources. -/
def derivesFrom (lineage : Lineage) (table ancestor : TableId) : Bool :=
  table == ancestor || (lineage.ancestors table).contains ancestor

/-- Whether one of two tables derives from the other. -/
def compatible (lineage : Lineage) (a b : TableId) : Bool :=
  lineage.derivesFrom a b || lineage.derivesFrom b a

theorem compatible_self (lineage : Lineage) (table : TableId) :
    lineage.compatible table table = true := by
  simp [compatible, derivesFrom]

theorem compatible_comm (lineage : Lineage) (a b : TableId) :
    lineage.compatible a b = lineage.compatible b a :=
  Bool.or_comm _ _

end Lineage

end ActionKit
