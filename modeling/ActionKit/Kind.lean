import ActionKit.Names

/-!
# Kinds, typesets and datatypes

Every value has one of twelve kinds. The last, `custom!`, is shared by all values of open
categories, which are registered by name and told apart by a serial number.

* `Kind`: the twelve kinds, with their names and their fixed order `Kind.all`.
* `Typeset`: a set of kinds, one bit per kind.
* `Category`: an open category.
* `Datatype`: what a value is precisely, a built-in kind or an open category.
* `TypeTerm`: what may stand in a type block, a datatype or a typeset.

Results:
* `mem_all`: `Kind.all` misses no kind.
* `contains_insert`, `contains_union`, `mem_kinds`: typesets behave as sets.
-/

namespace ActionKit

/-- The coarse type of a value. -/
inductive Kind where
  | none | logic | integer | text | block | word | setWord | refinement | datatype | typeset
  | action | custom
deriving DecidableEq, Repr

namespace Kind

/-- All kinds, in the order in which they are listed. -/
def all : List Kind :=
  [.none, .logic, .integer, .text, .block, .word, .setWord, .refinement, .datatype, .typeset,
    .action, .custom]

/-- The name of a kind as a datatype. -/
def name : Kind → String
  | .none => "none!"
  | .logic => "logic!"
  | .integer => "integer!"
  | .text => "text!"
  | .block => "block!"
  | .word => "word!"
  | .setWord => "set-word!"
  | .refinement => "refinement!"
  | .datatype => "datatype!"
  | .typeset => "typeset!"
  | .action => "action!"
  | .custom => "custom!"

/-- The position of a kind in `Kind.all`. -/
def index : Kind → Nat
  | .none => 0
  | .logic => 1
  | .integer => 2
  | .text => 3
  | .block => 4
  | .word => 5
  | .setWord => 6
  | .refinement => 7
  | .datatype => 8
  | .typeset => 9
  | .action => 10
  | .custom => 11

/-- The kind with a given name. -/
def ofName? (name : Bytes) : Option Kind := all.find? fun kind => .ofString kind.name == name

theorem mem_all (kind : Kind) : kind ∈ all := by cases kind <;> decide

end Kind

/-! ## Sets of kinds -/

/-- A set of kinds, one bit for each. -/
structure Typeset where
  bits : BitVec 12
deriving DecidableEq, Repr

namespace Typeset

/-- The set with no kinds. -/
def empty : Typeset := ⟨0⟩

/-- The set of one kind. -/
def single (kind : Kind) : Typeset := ⟨BitVec.twoPow 12 kind.index⟩

/-- The kinds of either set. -/
def union (s t : Typeset) : Typeset := ⟨s.bits ||| t.bits⟩

/-- The set with one more kind. -/
def insert (s : Typeset) (kind : Kind) : Typeset := s.union (.single kind)

/-- Whether a kind is in the set. -/
def contains (s : Typeset) (kind : Kind) : Bool := s.bits.getLsbD kind.index

/-- Whether the set has no kinds. -/
def isEmpty (s : Typeset) : Bool := s == .empty

/-- The kinds of the set, in order. -/
def kinds (s : Typeset) : List Kind := Kind.all.filter s.contains

/-- The set of some kinds. -/
def ofKinds (kinds : List Kind) : Typeset := kinds.foldl .insert .empty

/-- Every kind. -/
def anyType : Typeset := ofKinds Kind.all

/-- Every kind but `none!`. -/
def anyValue : Typeset := ofKinds (Kind.all.filter (· ≠ .none))

/-- The three kinds of words. -/
def anyWord : Typeset := ofKinds [.word, .setWord, .refinement]

/-- The typeset with a given name. -/
def ofName? (name : Bytes) : Option Typeset :=
  [("any-value!", anyValue), ("any-type!", anyType), ("any-word!", anyWord)].findSome?
    fun entry => if .ofString entry.1 == name then some entry.2 else none

@[simp] theorem contains_empty (kind : Kind) : empty.contains kind = false := by
  simp [contains, empty]

@[simp] theorem contains_single (k l : Kind) : (single k).contains l = decide (k = l) := by
  cases k <;> cases l <;> decide

@[simp] theorem contains_union (s t : Typeset) (kind : Kind) :
    (s.union t).contains kind = (s.contains kind || t.contains kind) := by
  simp [contains, union]

@[simp] theorem contains_insert (s : Typeset) (k l : Kind) :
    (s.insert k).contains l = (s.contains l || decide (k = l)) := by
  simp [insert]

@[simp] theorem mem_kinds {s : Typeset} {kind : Kind} : kind ∈ s.kinds ↔ s.contains kind := by
  simp [kinds, Kind.mem_all]

theorem contains_ofKinds {kinds : List Kind} {kind : Kind} :
    (ofKinds kinds).contains kind = true ↔ kind ∈ kinds := by
  have hfold : ∀ start : Typeset, (kinds.foldl .insert start).contains kind = true ↔
      start.contains kind = true ∨ kind ∈ kinds := by
    induction kinds with
    | nil => simp
    | cons first rest ih =>
      intro start
      rw [List.foldl_cons, ih, contains_insert, Bool.or_eq_true_iff, decide_eq_true_eq,
        List.mem_cons, or_assoc, eq_comm (a := first)]
  unfold ofKinds
  rw [hfold, contains_empty]
  simp

end Typeset

/-! ## Open categories and datatypes -/

/-- A registered open category. Its serial number is its identity. -/
structure Category where
  serial : Nat
  name : Symbol
deriving DecidableEq, Repr

/-- What a value is precisely. -/
inductive Datatype where
  | builtin (kind : Kind)
  | category (category : Category)
deriving DecidableEq, Repr

/-- The kind that all values of a datatype share. -/
def Datatype.kind : Datatype → Kind
  | .builtin kind => kind
  | .category _ => .custom

/-- An item of a type block: a datatype or a typeset. -/
inductive TypeTerm where
  | datatype (datatype : Datatype)
  | typeset (typeset : Typeset)
deriving DecidableEq, Repr

end ActionKit
