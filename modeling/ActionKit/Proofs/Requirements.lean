import ActionKit.Invoke
import ActionKit.Proofs.Layout

/-!
# What a table requires

Before a native is run, its own table is searched for parameters that have to be given and whose
cells are empty: those that are filled by position and whose types do not accept `none`. The first
of them is reported.

* `Entry.Required`: a parameter that has to be given an argument.
* `Table.Lacks`: a required parameter of some name, with an empty cell.
* `Table.Furnished`: cells that leave no required parameter empty.

Results:
* `missing?_some`: what is missing is the first required parameter whose cell is empty.
* `missing?_eq_none_iff`: nothing is missing exactly if no required parameter is empty.
* `exists_missing?`: otherwise one of those that are empty is reported.
* `furnished_of_empty`: a table that misses nothing where all cells are empty requires nothing.
-/

namespace ActionKit

/-- A constraint accepts `none` by its kind alone. -/
theorem Constraint.accepts_none (types : Constraint) :
    types.accepts .none = types.contains .none := by
  simp [accepts, contains, Value.isType, Value.kind]

/-- A parameter that has to be given an argument: it is filled by position, and its types do not
accept `none`. -/
def Entry.Required (entry : Entry) : Prop :=
  ∃ types, entry.content = .unbound .normal types ∧ types.accepts .none = false

/-- The name of a required parameter whose cell is empty. -/
def lacking? (cell : Nat → Value) (param : Entry × Nat) : Option Symbol :=
  match param.1.content with
  | .unbound .normal types =>
    if (cell param.2).isNone && !types.contains .none then some param.1.name else none
  | _ => none

theorem missing?_eq (table : Table) (cell : Nat → Value) :
    missing? table cell = table.params.findSome? (lacking? cell) := rfl

theorem lacking?_eq_some_iff {cell : Nat → Value} {entry : Entry} {slot : Nat} {name : Symbol} :
    lacking? cell (entry, slot) = some name ↔
      entry.Required ∧ cell slot = .none ∧ entry.name = name := by
  unfold lacking? Entry.Required
  cases hcontent : entry.content with
  | header => simp
  | fixed value => simp
  | unbound role types =>
    cases role with
    | output => simp
    | refinement => simp
    | normal => simp [Constraint.accepts_none, and_assoc, and_left_comm]

variable {table : Table} {cell : Nat → Value}

/-- **What is missing is the first required parameter whose cell is empty.** -/
theorem missing?_some {name : Symbol} (h : missing? table cell = some name) : ∃ slot entry,
    slot ≠ 0 ∧ table.entries[slot]? = some entry ∧ entry.Required ∧ cell slot = .none ∧
      entry.name = name ∧ ∀ (i : Nat) (e : Entry), i ≠ 0 → i < slot →
        table.entries[i]? = some e → e.Required → cell i ≠ .none := by
  rw [missing?_eq] at h
  obtain ⟨before, ⟨entry, slot⟩, after, hsplit, hlacking, hbefore⟩ :=
    List.findSome?_eq_some_iff.mp h
  have hparam : (entry, slot) ∈ table.params := hsplit ▸ by simp
  obtain ⟨h0, hentry⟩ := Table.mem_params.mp hparam
  obtain ⟨hrequired, hempty, hname⟩ := lacking?_eq_some_iff.mp hlacking
  refine ⟨slot, entry, h0, hentry, hrequired, hempty, hname, fun i e hi hlt he hreq hnone => ?_⟩
  -- Parameters are listed by slot, so that those of smaller slots come before.
  have hearlier : (e, i) ∈ before := by
    have hmem : (e, i) ∈ table.params := Table.mem_params.mpr ⟨hi, he⟩
    have hascending := table.params_ascending
    rw [hsplit] at hmem hascending
    obtain ⟨hafter, -⟩ := List.pairwise_cons.mp (List.pairwise_append.mp hascending).2.1
    rcases List.mem_append.mp hmem with hmem | hmem
    · exact hmem
    · rcases List.mem_cons.mp hmem with heq | hmem
      · have hslot : i = slot := congrArg Prod.snd heq
        omega
      · have hslot : slot < i := hafter _ hmem
        omega
  have hlacks := lacking?_eq_some_iff.mpr ⟨hreq, hnone, rfl⟩
  rw [hbefore _ hearlier] at hlacks
  cases hlacks

/-- There is a required parameter of some name, and its cell is empty. -/
def Table.Lacks (table : Table) (cell : Nat → Value) (name : Symbol) : Prop :=
  ∃ slot entry, slot ≠ 0 ∧ table.entries[slot]? = some entry ∧ entry.Required ∧
    cell slot = .none ∧ entry.name = name

/-- **Cells that leave no required parameter of a table empty.** A parameter that takes `none` is
not required, and neither is a refinement. -/
def Table.Furnished (table : Table) (cell : Nat → Value) : Prop :=
  ∀ (slot : Nat) (entry : Entry), slot ≠ 0 → table.entries[slot]? = some entry →
    entry.Required → cell slot ≠ .none

/-- Nothing is missing exactly if no required parameter is empty. -/
theorem missing?_eq_none_iff : missing? table cell = none ↔ table.Furnished cell := by
  constructor
  · intro h slot entry h0 he hrequired hempty
    have hslot := List.findSome?_eq_none_iff.mp h (entry, slot) (Table.mem_params.mpr ⟨h0, he⟩)
    have hlacks := lacking?_eq_some_iff.mpr ⟨hrequired, hempty, rfl⟩
    cases hslot.symm.trans hlacks
  · intro h
    refine Option.eq_none_iff_forall_ne_some.mpr fun name hmissing => ?_
    obtain ⟨slot, entry, h0, he, hrequired, hempty, -⟩ := missing?_some hmissing
    exact h slot entry h0 he hrequired hempty

/-- Where a required parameter is empty, one that is empty is reported. -/
theorem exists_missing? (h : ¬ table.Furnished cell) :
    ∃ name, table.Lacks cell name ∧ missing? table cell = some name := by
  cases hmissing : missing? table cell with
  | none => exact absurd (missing?_eq_none_iff.mp hmissing) h
  | some name =>
    obtain ⟨slot, entry, h0, he, hrequired, hempty, hname, -⟩ := missing?_some hmissing
    exact ⟨name, ⟨slot, entry, h0, he, hrequired, hempty, hname⟩, rfl⟩

/-- A table that misses nothing where all cells are empty requires nothing. -/
theorem Table.furnished_of_empty (h : missing? table (fun _ => .none) = none)
    (cell : Nat → Value) : table.Furnished cell := by
  intro slot entry h0 he hrequired
  exact absurd rfl (missing?_eq_none_iff.mp h slot entry h0 he hrequired)

end ActionKit
