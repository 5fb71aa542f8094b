import ActionKit.Value

/-!
# The registry of type names

A spec refers to types by name. The names of the twelve kinds and of three typesets are built in;
open categories are registered and numbered in order of first registration.

* `TypeRegistry.register`: the category of a name, new or known.
* `TypeRegistry.lookup?`: the datatype or typeset a name stands for. Built-in names win over
  registered ones.
* `CategoryStore`: the registered categories in two containers, the categories by number and the
  numbers by name.

Results:
* `register_of_find?`: registering a known name changes nothing.
* `find?_register`: a registered name is found.
-/

namespace ActionKit

/-- The registered open categories, in order of registration. -/
structure TypeRegistry where
  categories : List Category := []
deriving DecidableEq, Repr

namespace TypeRegistry

/-- The category registered under a name. -/
def find? (types : TypeRegistry) (name : Symbol) : Option Category :=
  types.categories.find? (·.name = name)

/-- The category of a name. A new name gets the next serial number. -/
def register (types : TypeRegistry) (name : Symbol) : Category × TypeRegistry :=
  match types.find? name with
  | some category => (category, types)
  | none =>
    let category : Category := ⟨types.categories.length, name⟩
    (category, ⟨types.categories ++ [category]⟩)

/-- What a type name stands for. Only names that have been interned can be registered ones. -/
def lookup? (types : TypeRegistry) (names : Names) (name : Bytes) : Option TypeTerm :=
  match Kind.ofName? name with
  | some kind => some (.datatype (.builtin kind))
  | none =>
    match Typeset.ofName? name with
    | some typeset => some (.typeset typeset)
    | none => do
      let symbol ← names.find? name
      let category ← types.find? symbol
      return .datatype (.category category)

theorem register_of_find? {types : TypeRegistry} {name : Symbol} {category : Category}
    (h : types.find? name = some category) : types.register name = (category, types) := by
  simp [register, h]

theorem find?_register (types : TypeRegistry) (name : Symbol) :
    (types.register name).2.find? name = some (types.register name).1 := by
  unfold register
  cases h : types.find? name with
  | some category => exact h
  | none =>
    rw [find?] at h
    simp [find?, List.find?_append, h]

end TypeRegistry

/-! ## Two containers -/

/-- **The categories by number, and the numbers by name**, each in a container of its own. A number
has 32 bits. -/
structure CategoryStore where
  categories : List Category := []
  serials : List (Symbol × UInt32) := []

namespace CategoryStore

/-- The category that has the number on record for a name. -/
def find? (store : CategoryStore) (name : Symbol) : Option Category :=
  (store.serials.lookup name).bind fun serial => store.categories[serial.toNat]?

/-- The category of a name. A new name gets the next number. There is no answer where the number on
record for a name is not that of a category. -/
def register (store : CategoryStore) (name : Symbol) : Option (Category × CategoryStore) :=
  match store.serials.lookup name with
  | some serial => store.categories[serial.toNat]?.map (·, store)
  | none =>
    let serial := UInt32.ofNat store.categories.length
    let category : Category := ⟨serial.toNat, name⟩
    some (category, {
      categories := store.categories ++ [category]
      serials := (name, serial) :: store.serials })

end CategoryStore

end ActionKit
