import ActionKit.Declaration
import ActionKit.Scratch
import ActionKit.Table

/-!
# Drafts of parameter tables

A draft collects the entries of a new parameter table in a region of the scratch area, which it
holds until it ends. Entries are copied from another table, declared by a spec, or fixed to a
value. A draft ends by being finished, which takes its entries if all names differ, or by being
discarded; both ways its region is given back.

* `Draft.start`, `Draft.finish`, `Draft.discard`: the life of a draft.
* `Draft.copy`, `Draft.declare`, `Draft.fix`, `Draft.inherit`: what is put into it.
* `firstRepeated`: the name whose repetition comes first in a list.

Results:
* `firstRepeated_eq_none_iff`: nothing is repeated exactly when all names differ.
* `finish_entries`, `discard_entries`: a draft that ends leaves the scratch area below its region.
-/

namespace ActionKit

/-- What happens to fixed entries that are copied into a draft. -/
inductive Sealing where
  /-- They are copied as they are. -/
  | preserve
  /-- They are sealed, so that the new table does not expose them. -/
  | sealFixed
deriving DecidableEq, Repr

/-- What a finished draft leaves: all that a parameter table needs but its identity. -/
structure Finished where
  entries : List Entry
  outputSlot : Option Nat
  description : Option Bytes
deriving DecidableEq, Repr

/-- The table of a finished draft, under an identity. -/
def Finished.toTable (finished : Finished) (id : TableId) : Table :=
  { id, entries := finished.entries, outputSlot := finished.outputSlot }

/-- The first name that already stands earlier in the list, or in `seen`. -/
def firstRepeatedAfter (seen : List Symbol) : List Symbol → Option Symbol
  | [] => none
  | name :: rest =>
    if name ∈ seen then some name else firstRepeatedAfter (name :: seen) rest

/-- The first name that already stands earlier in the list. -/
def firstRepeated (names : List Symbol) : Option Symbol := firstRepeatedAfter [] names

/-- A parameter table being drafted. -/
structure Draft where
  /-- The scratch area, which the draft holds until it ends. -/
  scratch : Scratch
  /-- Where the entries of the draft are. -/
  region : Region
  outputSlot : Option Nat := none
  description : Option Bytes := none
deriving DecidableEq, Repr

namespace Draft

/-- Open a region for a draft and put the header in it. -/
def start (scratch : Scratch) : Draft :=
  let (region, scratch) := scratch.enter
  { scratch := scratch.push .header, region }

/-- The entries so far. -/
def entries (draft : Draft) : List Entry := draft.scratch.view draft.region

/-- The draft with other entries. -/
def withEntries (draft : Draft) (entries : List Entry) : Draft :=
  { draft with scratch := draft.scratch.update draft.region fun _ => entries }

/-- Put in a copy of every parameter of a table, in order. If the table has an output, its slot
becomes that of the draft. -/
def copy (draft : Draft) (table : Table) (sealing : Sealing) : Draft :=
  let copies :=
    match sealing with
    | .preserve => table.entries.drop 1
    | .sealFixed => (table.entries.drop 1).map .sealFixed
  { draft.withEntries (draft.entries ++ copies) with
    outputSlot := table.outputSlot <|> draft.outputSlot }

/-- Put in the parameters a spec declares. A leading text replaces the description. If the spec
is rejected, the parameters declared before the rejected item stay. -/
def declare (draft : Draft) (spec : List Value) (withOutput : Bool) :
    Except BuildError Unit × Draft :=
  let start : Declaring := { entries := draft.entries, outputSlot := draft.outputSlot }
  match start.run spec withOutput with
  | (result, state) =>
    let declared := { draft.withEntries state.entries with outputSlot := state.outputSlot }
    match result with
    | .error error => (.error error, declared)
    | .ok () =>
      (.ok (), { declared with description := state.description <|> draft.description })

/-- Describe the draft, unless it has a description already. -/
def inherit (draft : Draft) (description : Option Bytes) : Draft :=
  { draft with description := draft.description <|> description }

/-- An entry fixed to a value, if it may be. -/
def fixEntry (entry : Entry) (value : Value) : Except BuildError Entry :=
  if entry.isSealed then .error (.hiddenParameter entry.name)
  else
    match entry.content with
    | .unbound .output _ => .error (.outputParameter entry.name)
    | .unbound _ types =>
      if types.accepts value then .ok { entry with content := .fixed value }
      else .error (.typeMismatch entry.name value types)
    | .fixed _ | .header => .error (.hiddenParameter entry.name)

/-- The slot of the first parameter of a name. -/
def find? (draft : Draft) (name : Symbol) : Option (Entry × Nat) :=
  (draft.entries.zipIdx.drop 1).find? (·.1.name = name)

/-- Fix a parameter of the draft to a value. -/
def fix (draft : Draft) (name : Symbol) (value : Value) : Except BuildError Draft :=
  match draft.find? name with
  | none => .error (.unknownParameter name)
  | some (entry, slot) =>
    match fixEntry entry value with
    | .error error => .error error
    | .ok fixed => .ok (draft.withEntries (draft.entries.set slot fixed))

/-- Fix parameters in order, up to the first that may not be. -/
def fixAll (draft : Draft) : List (Symbol × Value) → Except BuildError Unit × Draft
  | [] => (.ok (), draft)
  | (name, value) :: rest =>
    match draft.fix name value with
    | .error error => (.error error, draft)
    | .ok next => next.fixAll rest

/-- End the draft without a table. -/
def discard (draft : Draft) : Scratch := draft.scratch.release draft.region

/-- End the draft, taking its entries if no parameter name is repeated. -/
def finish (draft : Draft) : Except BuildError Finished × Scratch :=
  match firstRepeated ((draft.entries.drop 1).map (·.name)) with
  | some name => (.error (.duplicateParameter name), draft.discard)
  | none =>
    let (entries, scratch) := draft.scratch.pop draft.region
    (.ok { entries, outputSlot := draft.outputSlot, description := draft.description }, scratch)

end Draft

/-! ## Repeated names -/

theorem firstRepeatedAfter_eq_none_iff {seen names : List Symbol} :
    firstRepeatedAfter seen names = none ↔ names.Nodup ∧ ∀ name ∈ names, name ∉ seen := by
  induction names generalizing seen with
  | nil => simp [firstRepeatedAfter]
  | cons name rest ih =>
    by_cases h : name ∈ seen
    · simp [firstRepeatedAfter, h]
    · simp only [firstRepeatedAfter, h, if_false, ih, List.nodup_cons, List.mem_cons]
      constructor
      · rintro ⟨hnodup, hrest⟩
        refine ⟨⟨fun hmem => hrest name hmem (.inl rfl), hnodup⟩, ?_⟩
        rintro n (rfl | hn)
        · exact h
        · exact fun hs => hrest n hn (.inr hs)
      · rintro ⟨⟨hname, hnodup⟩, hseen⟩
        refine ⟨hnodup, fun n hn => ?_⟩
        rintro (rfl | hs)
        · exact hname hn
        · exact hseen n (.inr hn) hs

theorem firstRepeated_eq_none_iff {names : List Symbol} :
    firstRepeated names = none ↔ names.Nodup := by
  simp [firstRepeated, firstRepeatedAfter_eq_none_iff]

/-! ## Drafts give their region back -/

namespace Draft

theorem discard_entries (draft : Draft) :
    draft.discard.entries = draft.scratch.entries.take draft.region.base :=
  Scratch.release_entries _ _

theorem finish_entries (draft : Draft) :
    draft.finish.2.entries = draft.scratch.entries.take draft.region.base := by
  unfold finish
  split
  · exact draft.discard_entries
  · rfl

end Draft

end ActionKit
