import ActionKit.Entry

/-!
# Parameter tables

A parameter table is a sequence of entries, the header at slot 0 and parameters from slot 1 on.
It has an identity, which derivations are traced by, and knows the slot of its output.

* `Table.params`: the parameters with their slots.
* `Table.find?`: the slot of a name, whatever its visibility.
* `Table.exposed`, `Table.specializations`: the public surface, and what of the fixed parameters
  may be inspected.
-/

namespace ActionKit

/-- The identity of a parameter table. -/
structure TableId where
  number : Nat
deriving DecidableEq, Repr

/-- A parameter table. -/
structure Table where
  id : TableId
  /-- All slots, the header first. -/
  entries : List Entry
  /-- The slot of the output. -/
  outputSlot : Option Nat
deriving DecidableEq, Repr

namespace Table

/-- The number of slots, the header counted. -/
def size (table : Table) : Nat := table.entries.length

/-- Whether there are no parameters besides the header. -/
def isEmpty (table : Table) : Bool := table.size ≤ 1

/-- The parameters with their slots, the header skipped. -/
def params (table : Table) : List (Entry × Nat) := table.entries.zipIdx.drop 1

/-- The parameter at a slot. The header is none. -/
def get? (table : Table) (slot : Nat) : Option Entry :=
  if slot = 0 then none else table.entries[slot]?

/-- The first parameter of a name and its slot, whatever its visibility. -/
def findEntry? (table : Table) (name : Symbol) : Option (Entry × Nat) :=
  table.params.find? (·.1.name = name)

/-- The slot of the first parameter of a name, whatever its visibility. -/
def find? (table : Table) (name : Symbol) : Option Nat := (table.findEntry? name).map (·.2)

/-- The output parameter. -/
def output? (table : Table) : Option Entry := table.outputSlot.bind table.get?

/-- The parameters on the public surface, with their slots. The output is among them. -/
def exposed (table : Table) : List (Entry × Nat) := table.params.filter (·.1.isExposed)

/-- The names of the parameters that positional arguments fill, in order. -/
def positional (table : Table) : List Symbol :=
  (table.exposed.filter (·.1.role? = some .normal)).map (·.1.name)

/-- The fixed parameters that are not sealed, with their values. -/
def specializations (table : Table) : List (Entry × Value) :=
  table.params.filterMap fun (entry, _) =>
    if entry.isSealed then none else entry.fixedValue?.map (entry, ·)

/-- Slots start at 1 for parameters. -/
theorem mem_params {table : Table} {entry : Entry} {slot : Nat} :
    (entry, slot) ∈ table.params ↔ slot ≠ 0 ∧ table.entries[slot]? = some entry := by
  unfold params
  cases h : table.entries with
  | nil => simp
  | cons head tail =>
    cases slot with
    | zero => simp [List.zipIdx_cons, List.mem_zipIdx_iff_le_and_getElem?_sub]
    | succ n => simp [List.zipIdx_cons, List.mem_zipIdx_iff_le_and_getElem?_sub]

end Table

end ActionKit
