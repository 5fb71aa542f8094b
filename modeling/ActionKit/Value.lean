import ActionKit.Kind

/-!
# Values

Arguments, results, specs and type descriptors are all values. A value is plain data: an action
appears in it by its identity only, so that two values are equal exactly when they have the same
content, and two actions exactly when they are the same one.

* `Value`: the twelve forms, one for each kind.
* `Value.kind`, `Value.typeOf`, `Value.isType`: what a value is, coarsely and precisely.
* `Value.typeTerm?`: the values that may stand in a type block.

Results:
* `same_iff`: the content test decides equality.
* `isType_typeOf`: every value is of its own datatype.
* `kind_typeOf`: the precise datatype has the coarse kind.
* `typeTerm?_eq_some_iff`: exactly the datatypes and typesets are type terms.
-/

namespace ActionKit

/-- The identity of an action: its number in the order of making. -/
structure ActionId where
  serial : Nat
deriving DecidableEq, Repr

/-- A value. -/
inductive Value where
  | none
  | logic (truth : Bool)
  | integer (number : Int64)
  | text (bytes : Bytes)
  | block (items : List Value)
  | word (name : Symbol)
  | setWord (name : Symbol)
  | refinement (name : Symbol)
  | datatype (datatype : Datatype)
  | typeset (typeset : Typeset)
  | action (id : ActionId)
  | custom (category : Category) (payload : Value)
deriving Repr

namespace Value

/-! ## Equality -/

mutual

/-- Whether two values have the same content. -/
def same : Value → Value → Bool
  | .none, .none => true
  | .logic a, .logic b => a == b
  | .integer a, .integer b => a == b
  | .text a, .text b => a == b
  | .block a, .block b => sameItems a b
  | .word a, .word b => a == b
  | .setWord a, .setWord b => a == b
  | .refinement a, .refinement b => a == b
  | .datatype a, .datatype b => a == b
  | .typeset a, .typeset b => a == b
  | .action a, .action b => a == b
  | .custom c a, .custom d b => c == d && same a b
  | _, _ => false

/-- Whether two lists of values have the same content, item by item. -/
def sameItems : List Value → List Value → Bool
  | [], [] => true
  | a :: as, b :: bs => same a b && sameItems as bs
  | _, _ => false

end

mutual

theorem same_iff : (a b : Value) → (same a b = true ↔ a = b)
  | .none, b => by cases b <;> simp [same]
  | .logic _, b => by cases b <;> simp [same]
  | .integer _, b => by cases b <;> simp [same]
  | .text _, b => by cases b <;> simp [same]
  | .block items, b => by
    cases b with
    | block others => simp [same, sameItems_iff items others]
    | _ => simp [same]
  | .word _, b => by cases b <;> simp [same]
  | .setWord _, b => by cases b <;> simp [same]
  | .refinement _, b => by cases b <;> simp [same]
  | .datatype _, b => by cases b <;> simp [same]
  | .typeset _, b => by cases b <;> simp [same]
  | .action _, b => by cases b <;> simp [same]
  | .custom _ payload, b => by
    cases b with
    | custom _ other => simp [same, same_iff payload other]
    | _ => simp [same]

theorem sameItems_iff : (as bs : List Value) → (sameItems as bs = true ↔ as = bs)
  | [], bs => by cases bs <;> simp [sameItems]
  | a :: as, bs => by
    cases bs with
    | nil => simp [sameItems]
    | cons b bs => simp [sameItems, same_iff a b, sameItems_iff as bs]

end

instance : DecidableEq Value := fun a b => decidable_of_iff _ (same_iff a b)

/-! ## Types of values -/

/-- The coarse type of a value. -/
def kind : Value → Kind
  | .none => .none
  | .logic _ => .logic
  | .integer _ => .integer
  | .text _ => .text
  | .block _ => .block
  | .word _ => .word
  | .setWord _ => .setWord
  | .refinement _ => .refinement
  | .datatype _ => .datatype
  | .typeset _ => .typeset
  | .action _ => .action
  | .custom _ _ => .custom

/-- The precise type of a value. -/
def typeOf : Value → Datatype
  | .custom category _ => .category category
  | value => .builtin value.kind

/-- Whether a value is of a datatype. Open categories are compared by their serial number, all
else by kind. -/
def isType (value : Value) : Datatype → Bool
  | .builtin kind => value.kind = kind
  | .category category =>
    match value with
    | .custom own _ => own.serial = category.serial
    | _ => false

/-- Whether a value is `none`. -/
def isNone : Value → Bool
  | .none => true
  | _ => false

/-- A value read as an item of a type block. -/
def typeTerm? : Value → Option TypeTerm
  | .datatype d => some (.datatype d)
  | .typeset t => some (.typeset t)
  | _ => Option.none

end Value

/-- A datatype or typeset as a value. -/
def TypeTerm.toValue : TypeTerm → Value
  | .datatype d => .datatype d
  | .typeset t => .typeset t

namespace Value

@[simp] theorem isType_typeOf (value : Value) : value.isType value.typeOf = true := by
  cases value <;> simp [typeOf, isType, kind]

@[simp] theorem kind_typeOf (value : Value) : value.typeOf.kind = value.kind := by
  cases value <;> simp [typeOf, Datatype.kind, kind]

theorem typeTerm?_eq_some_iff {value : Value} {term : TypeTerm} :
    value.typeTerm? = some term ↔ value = term.toValue := by
  cases term <;> cases value <;> simp [typeTerm?, TypeTerm.toValue]

@[simp] theorem isNone_iff {value : Value} : value.isNone = true ↔ value = .none := by
  cases value <;> simp [isNone]

end Value

end ActionKit
