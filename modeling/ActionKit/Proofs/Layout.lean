import ActionKit.Table
import Mathlib.Data.List.Nodup

/-!
# The layout of parameter tables

A table starts with the header, which stands nowhere else. Its names differ, it has exactly one
output, at the slot it says, and only fixed parameters are sealed.

* `Entry.Proper`: what may stand after the header.
* `Layout`: entries with the slot of their output, while a table is being put together.
* `Table.WellFormed`: the layout of a finished table.

Results:
* `findEntry_eq_some_iff`: with names that differ, looking up a name finds its one slot.
* `found_of_map`: a change that leaves names alone leaves the slots that they lead to alone.
* `positional_eq`: the parameters that positional arguments fill.
* `Layout.append`, `Layout.appendOutput`, `Layout.modify`, `Layout.insertOutput`, `Layout.mapBody`:
  what is done to the entries of a table keeps their layout.
-/

namespace ActionKit

/-! ## Entries after the header -/

namespace Entry

/-- What may stand after the header: a parameter that is sealed only if it is fixed, and has the
name of the output if it is one. -/
structure Proper (entry : Entry) : Prop where
  param : entry.content ≠ .header
  fixed_of_sealed : entry.isSealed = true → entry.isFixed = true
  name_of_output : entry.role? = some .output → entry.name = .output

/-- A parameter that callers may still fill, with its role and its types. -/
structure Open (entry : Entry) (role : Role) (types : Constraint) : Prop where
  content : entry.content = .unbound role types
  unsealed : entry.isSealed = false

theorem Open.role? {entry : Entry} {role : Role} {types : Constraint}
    (h : entry.Open role types) : entry.role? = some role := by
  unfold Entry.role?
  rw [h.content]

theorem role?_eq_some_iff {entry : Entry} {role : Role} :
    entry.role? = some role ↔ ∃ types, entry.content = .unbound role types := by
  unfold role?
  cases entry.content <;> simp

theorem isFixed_iff {entry : Entry} :
    entry.isFixed = true ↔ ∃ value, entry.content = .fixed value := by
  unfold isFixed
  cases entry.content <;> simp

/-- A proper entry that is on no fixed value is not sealed. -/
theorem Proper.unsealed {entry : Entry} (h : entry.Proper) {role : Role} {types : Constraint}
    (hc : entry.content = .unbound role types) : entry.isSealed = false := by
  cases hs : entry.isSealed with
  | false => rfl
  | true =>
    obtain ⟨value, hv⟩ := isFixed_iff.mp (h.fixed_of_sealed hs)
    rw [hc] at hv
    cases hv

theorem Open.isExposed {entry : Entry} {role : Role} {types : Constraint}
    (h : entry.Open role types) : entry.isExposed = true := by
  unfold Entry.isExposed
  rw [decide_eq_true_eq, visibility_eq_exposed_iff]
  exact ⟨h.unsealed, role, types, h.content⟩

theorem isExposed_iff {entry : Entry} :
    entry.isExposed = true ↔ ∃ role types, entry.Open role types := by
  unfold isExposed
  rw [decide_eq_true_eq, visibility_eq_exposed_iff]
  constructor
  · rintro ⟨hs, role, types, hc⟩
    exact ⟨role, types, hc, hs⟩
  · rintro ⟨role, types, h⟩
    exact ⟨h.unsealed, role, types, h.content⟩

@[simp] theorem role?_sealFixed (entry : Entry) : entry.sealFixed.role? = entry.role? := by
  unfold role?
  rw [content_sealFixed]

/-- Sealing what is fixed hides nothing that callers can see. -/
@[simp] theorem isExposed_sealFixed (entry : Entry) :
    entry.sealFixed.isExposed = entry.isExposed := by
  obtain ⟨name, content, typeNotes, docNotes, isSealed⟩ := entry
  cases content <;> cases isSealed <;> rfl

/-- There is nothing to seal in an open parameter. -/
theorem Open.sealFixed {entry : Entry} {role : Role} {types : Constraint}
    (h : entry.Open role types) : entry.sealFixed = entry := by
  have hfree : entry.isFixed = false := by
    unfold isFixed
    rw [h.content]
  unfold Entry.sealFixed
  rw [hfree]
  rfl

theorem Proper.sealFixed {entry : Entry} (h : entry.Proper) : entry.sealFixed.Proper where
  param := by
    rw [content_sealFixed]
    exact h.param
  fixed_of_sealed := by
    unfold Entry.sealFixed
    split
    · next hf => exact fun _ => hf
    · exact h.fixed_of_sealed
  name_of_output := by
    rw [role?_sealFixed, name_sealFixed]
    exact h.name_of_output

end Entry

/-! ## Looking up names -/

namespace Table

/-- The parameters without their slots. -/
def body (table : Table) : List Entry := table.entries.drop 1

theorem mem_body_iff {table : Table} {entry : Entry} :
    entry ∈ table.body ↔ ∃ slot, slot ≠ 0 ∧ table.entries[slot]? = some entry := by
  unfold body
  rw [List.mem_iff_getElem?]
  constructor
  · rintro ⟨i, hi⟩
    rw [List.getElem?_drop] at hi
    exact ⟨1 + i, by omega, hi⟩
  · rintro ⟨slot, h0, hs⟩
    refine ⟨slot - 1, ?_⟩
    rw [List.getElem?_drop, show 1 + (slot - 1) = slot by omega]
    exact hs

theorem findEntry_some {table : Table} {name : Symbol} {entry : Entry} {slot : Nat}
    (h : table.findEntry? name = some (entry, slot)) :
    slot ≠ 0 ∧ table.entries[slot]? = some entry ∧ entry.name = name := by
  unfold findEntry? at h
  obtain ⟨h0, hs⟩ := mem_params.mp (List.mem_of_find?_eq_some h)
  exact ⟨h0, hs, by simpa using List.find?_some h⟩

theorem findEntry_eq_none_iff {table : Table} {name : Symbol} :
    table.findEntry? name = none ↔ ∀ entry ∈ table.body, entry.name ≠ name := by
  unfold findEntry?
  rw [List.find?_eq_none]
  constructor
  · intro h entry he
    obtain ⟨slot, h0, hs⟩ := mem_body_iff.mp he
    simpa using h (entry, slot) (mem_params.mpr ⟨h0, hs⟩)
  · rintro h ⟨entry, slot⟩ hm
    simpa using h entry (mem_body_iff.mpr ⟨slot, mem_params.mp hm⟩)

/-- Two parameters of one name are at one slot. -/
theorem slot_unique {table : Table} (hd : (table.body.map (·.name)).Nodup) {i j : Nat}
    {e f : Entry} (hi0 : i ≠ 0) (hj0 : j ≠ 0) (hi : table.entries[i]? = some e)
    (hj : table.entries[j]? = some f) (hn : e.name = f.name) : i = j := by
  have named : ∀ {k : Nat} {g : Entry}, k ≠ 0 → table.entries[k]? = some g →
      (table.body.map (·.name))[k - 1]? = some g.name := by
    intro k g hk hg
    unfold body
    rw [List.getElem?_map, List.getElem?_drop, show 1 + (k - 1) = k by omega, hg]
    rfl
  have hlt : i - 1 < (table.body.map (·.name)).length :=
    (List.getElem?_eq_some_iff.mp (named hi0 hi)).1
  have := (List.getElem?_inj hlt hd).mp ((named hi0 hi).trans (by rw [named hj0 hj, hn]))
  omega

/-- **With names that differ, a name has one slot**, and looking it up finds it. -/
theorem findEntry_eq_some_iff {table : Table} (hd : (table.body.map (·.name)).Nodup)
    {name : Symbol} {entry : Entry} {slot : Nat} :
    table.findEntry? name = some (entry, slot) ↔
      slot ≠ 0 ∧ table.entries[slot]? = some entry ∧ entry.name = name := by
  constructor
  · exact findEntry_some
  · rintro ⟨h0, hs, rfl⟩
    cases hf : table.findEntry? entry.name with
    | none =>
      exact absurd rfl (findEntry_eq_none_iff.mp hf entry (mem_body_iff.mpr ⟨slot, h0, hs⟩))
    | some found =>
      obtain ⟨other, otherSlot⟩ := found
      obtain ⟨h0', hs', hn⟩ := findEntry_some hf
      obtain rfl := slot_unique hd h0' h0 hs' hs hn
      rw [hs] at hs'
      obtain rfl := Option.some.inj hs'
      rfl

/-- A parameter at its slot, with its entry changed. -/
def atSlot (change : Entry → Entry) (param : Entry × Nat) : Entry × Nat := (change param.1, param.2)

theorem params_map (table : Table) (change : Entry → Entry) :
    table.params.map (atSlot change) = (table.entries.map change).zipIdx.drop 1 := by
  unfold params
  rw [List.map_drop, List.zipIdx_map]
  rfl

/-- **Tables that are the same after a change of their entries** have a name at the same slot, or
nowhere, if the change leaves names alone. -/
theorem found_of_map {a b : Table} {change : Entry → Entry}
    (hname : ∀ entry : Entry, (change entry).name = entry.name)
    (h : a.entries.map change = b.entries.map change) (name : Symbol) :
    a.findEntry? name = none ∧ b.findEntry? name = none ∨
      ∃ e f slot, a.findEntry? name = some (e, slot) ∧ b.findEntry? name = some (f, slot) ∧
        change e = change f := by
  have hfind : ∀ table : Table, (table.findEntry? name).map (atSlot change) =
      ((table.entries.map change).zipIdx.drop 1).find? (·.1.name = name) := by
    intro table
    rw [← params_map, List.find?_map]
    refine congrArg (Option.map (atSlot change)) (congrArg (table.params.find? ·) ?_)
    funext param
    simp [atSlot, hname]
  have hboth := hfind a
  rw [h, ← hfind b] at hboth
  cases ha : a.findEntry? name with
  | none =>
    rw [ha] at hboth
    exact .inl ⟨rfl, Option.map_eq_none_iff.mp hboth.symm⟩
  | some found =>
    rw [ha] at hboth
    obtain ⟨⟨f, slot⟩, hb, hfound⟩ := Option.map_eq_some_iff.mp hboth.symm
    obtain ⟨e, other⟩ := found
    obtain ⟨hentry, rfl⟩ := Prod.mk.inj hfound
    exact .inr ⟨e, f, slot, rfl, hb, hentry.symm⟩

/-- Parameters are listed by slot. -/
theorem params_ascending (table : Table) : table.params.Pairwise (·.2 < ·.2) := by
  have hslots : (table.params.map (·.2)).Pairwise (· < ·) := by
    unfold params
    rw [List.map_drop, List.zipIdx_map_snd]
    exact (List.pairwise_lt_range' 1).drop
  exact List.pairwise_map.mp hslots

/-! ## Parameters filled by position -/

theorem body_eq (table : Table) : table.body = table.params.map (·.1) := by
  unfold body params
  rw [List.map_drop, List.zipIdx_map_fst]

/-- Positional arguments fill the exposed parameters of the role `normal`, in order. -/
theorem positional_eq (table : Table) : table.positional =
    (table.body.filter fun entry => decide (entry.role? = some .normal) && entry.isExposed).map
      (·.name) := by
  unfold positional exposed
  rw [body_eq, List.filter_filter, List.filter_map, List.map_map]
  rfl

theorem mem_positional {table : Table} {name : Symbol} :
    name ∈ table.positional ↔ ∃ entry ∈ table.body, entry.isExposed = true ∧
      entry.role? = some .normal ∧ entry.name = name := by
  rw [positional_eq, List.mem_map]
  constructor
  · rintro ⟨entry, hmem, hname⟩
    obtain ⟨hentry, hboth⟩ := List.mem_filter.mp hmem
    obtain ⟨hrole, hexposed⟩ := Bool.and_eq_true_iff.mp hboth
    exact ⟨entry, hentry, hexposed, of_decide_eq_true hrole, hname⟩
  · rintro ⟨entry, hentry, hexposed, hrole, hname⟩
    refine ⟨entry, List.mem_filter.mpr ⟨hentry, ?_⟩, hname⟩
    exact Bool.and_eq_true_iff.mpr ⟨decide_eq_true hrole, hexposed⟩

end Table

/-! ## Layouts -/

/-- Entries with the slot of their output: the header comes first, what follows is proper, and the
output is at its slot and nowhere else. -/
structure Layout (entries : List Entry) (outputSlot : Option Nat) : Prop where
  header : entries = .header :: entries.drop 1
  proper : ∀ entry ∈ entries.drop 1, entry.Proper
  output : ∀ slot, entries[slot]?.bind (·.role?) = some .output ↔ outputSlot = some slot

/-- The layout of a finished table: names differ, and there is an output. -/
structure Table.WellFormed (table : Table) : Prop where
  layout : Layout table.entries table.outputSlot
  distinct : (table.body.map (·.name)).Nodup
  hasOutput : table.outputSlot.isSome = true

namespace Layout

variable {entries : List Entry} {outputSlot : Option Nat}

/-- The layout every table starts from. -/
theorem start : Layout [.header] none where
  header := rfl
  proper := by simp
  output slot := by cases slot <;> simp [Entry.header, Entry.role?]

theorem pos (h : Layout entries outputSlot) : 0 < entries.length := by
  rw [h.header]
  simp

theorem getElem?_zero (h : Layout entries outputSlot) : entries[0]? = some .header := by
  rw [h.header]
  rfl

/-- The slot of the output is a slot of a parameter. -/
theorem output_slot (h : Layout entries outputSlot) {slot : Nat} (hs : outputSlot = some slot) :
    slot ≠ 0 ∧ ∃ entry types, entries[slot]? = some entry ∧
      entry.content = .unbound .output types := by
  have ho := (h.output slot).mpr hs
  obtain ⟨entry, he, hr⟩ := Option.bind_eq_some_iff.mp ho
  refine ⟨?_, entry, ?_⟩
  · rintro rfl
    rw [h.getElem?_zero] at he
    obtain rfl := Option.some.inj he
    cases hr
  · obtain ⟨types, hc⟩ := Entry.role?_eq_some_iff.mp hr
    exact ⟨types, he, hc⟩

theorem drop_append (h : Layout entries outputSlot) (added : List Entry) :
    (entries ++ added).drop 1 = entries.drop 1 ++ added := by
  rw [List.drop_append_of_le_length h.pos]

/-- Parameters that are no outputs may be put behind all others. -/
theorem append (h : Layout entries outputSlot) {added : List Entry}
    (hp : ∀ entry ∈ added, entry.Proper) (ho : ∀ entry ∈ added, entry.role? ≠ some .output) :
    Layout (entries ++ added) outputSlot where
  header := by
    rw [h.drop_append, ← List.cons_append, ← h.header]
  proper entry he := by
    rw [h.drop_append] at he
    rcases List.mem_append.mp he with he | he
    · exact h.proper entry he
    · exact hp entry he
  output slot := by
    rw [← h.output slot]
    by_cases hlt : slot < entries.length
    · rw [List.getElem?_append_left hlt]
    · rw [List.getElem?_append_right (by omega), List.getElem?_eq_none (l := entries) (by omega)]
      constructor
      · intro hs
        obtain ⟨entry, he, hr⟩ := Option.bind_eq_some_iff.mp hs
        exact absurd hr (ho entry (List.mem_of_getElem? he))
      · intro hs
        cases hs

/-- The output may be put behind all others if there is none yet. -/
theorem appendOutput (h : Layout entries none) {entry : Entry} (hp : entry.Proper)
    (ho : entry.role? = some .output) : Layout (entries ++ [entry]) (some entries.length) where
  header := by
    rw [h.drop_append, ← List.cons_append, ← h.header]
  proper e he := by
    rw [h.drop_append] at he
    rcases List.mem_append.mp he with he | he
    · exact h.proper e he
    · obtain rfl := List.mem_singleton.mp he
      exact hp
  output slot := by
    rcases Nat.lt_trichotomy slot entries.length with hlt | rfl | hgt
    · rw [List.getElem?_append_left hlt, h.output slot]
      simp
      omega
    · simp [ho]
    · rw [List.getElem?_append_right (by omega), List.getElem?_eq_none (by simp; omega)]
      simp
      omega

/-- One parameter may be changed if it stays proper and its role stays the same. -/
theorem modify (h : Layout entries outputSlot) {slot : Nat} (h0 : slot ≠ 0) {f : Entry → Entry}
    (hp : ∀ entry, entry.Proper → (f entry).Proper) (hr : ∀ entry, (f entry).role? = entry.role?) :
    Layout (entries.modify slot f) outputSlot where
  header := by
    obtain ⟨slot, rfl⟩ := Nat.exists_eq_succ_of_ne_zero h0
    rw [h.header]
    simp
  proper entry he := by
    obtain ⟨slot, rfl⟩ := Nat.exists_eq_succ_of_ne_zero h0
    rw [h.header, List.modify_succ_cons, List.drop_one, List.tail_cons] at he
    obtain ⟨i, hi⟩ := List.mem_iff_getElem?.mp he
    rw [List.getElem?_modify] at hi
    obtain ⟨old, hold, rfl⟩ := Option.map_eq_some_iff.mp hi
    have hproper := h.proper old (List.mem_of_getElem? hold)
    split
    · exact hp old hproper
    · exact hproper
  output i := by
    rw [← h.output i, List.getElem?_modify]
    cases entries[i]? with
    | none => rfl
    | some entry =>
      by_cases hi : slot = i
      · simp [hi, hr]
      · simp [hi]

/-- An output may be put in front of all parameters if there is none yet. -/
theorem insertOutput (h : Layout entries none) {entry : Entry} (hp : entry.Proper)
    (ho : entry.role? = some .output) : Layout (entries.insertIdx 1 entry) (some 1) := by
  have hi : entries.insertIdx 1 entry = .header :: entry :: entries.drop 1 := by
    rw [h.header]
    rfl
  rw [hi]
  refine ⟨rfl, fun e he => ?_, fun slot => ?_⟩
  · rcases List.mem_cons.mp he with rfl | he
    · exact hp
    · exact h.proper e he
  · match slot with
    | 0 => simp [Entry.header, Entry.role?]
    | 1 => simp [ho]
    | slot + 2 =>
      have hs := h.output (slot + 1)
      rw [h.header] at hs
      simpa using hs

/-- All parameters may be changed if they stay proper and outputs stay the same. -/
theorem mapBody (h : Layout entries outputSlot) {f : Entry → Entry}
    (hp : ∀ entry ∈ entries.drop 1, (f entry).Proper)
    (hr : ∀ entry ∈ entries.drop 1, (f entry).role? = some .output ↔ entry.role? = some .output) :
    Layout (.header :: (entries.drop 1).map f) outputSlot where
  header := rfl
  proper entry he := by
    obtain ⟨old, hold, rfl⟩ := List.mem_map.mp he
    exact hp old hold
  output slot := by
    rw [← h.output slot, h.header]
    cases slot with
    | zero => rfl
    | succ slot =>
      rw [List.getElem?_cons_succ, List.getElem?_cons_succ, List.drop_succ_cons, List.drop_zero,
        List.getElem?_map]
      cases hs : (entries.drop 1)[slot]? with
      | none => rfl
      | some entry => exact hr entry (List.mem_of_getElem? hs)

end Layout

namespace Table

/-- Open parameters are never sealed. -/
theorem WellFormed.unsealed {table : Table} (h : table.WellFormed) {slot : Nat}
    {entry : Entry} (he : table.entries[slot]? = some entry) {role : Role} {types : Constraint}
    (hc : entry.content = .unbound role types) : entry.isSealed = false := by
  by_cases h0 : slot = 0
  · subst h0
    rw [h.layout.getElem?_zero] at he
    obtain rfl := Option.some.inj he
    cases hc
  · exact (h.layout.proper entry (mem_body_iff.mpr ⟨slot, h0, he⟩)).unsealed hc

/-- Looking up a name finds the one slot that has it. -/
theorem WellFormed.find_iff {table : Table} (h : table.WellFormed) {name : Symbol} {slot : Nat} :
    table.find? name = some slot ↔
      1 ≤ slot ∧ ∃ entry, table.entries[slot]? = some entry ∧ entry.name = name := by
  unfold find?
  rw [Option.map_eq_some_iff]
  constructor
  · rintro ⟨⟨entry, other⟩, hfind, rfl⟩
    obtain ⟨h0, hentry, hname⟩ := findEntry_some hfind
    exact ⟨Nat.one_le_iff_ne_zero.mpr h0, entry, hentry, hname⟩
  · rintro ⟨h1, entry, hentry, hname⟩
    have h0 : slot ≠ 0 := Nat.one_le_iff_ne_zero.mp h1
    exact ⟨(entry, slot), (findEntry_eq_some_iff h.distinct).mpr ⟨h0, hentry, hname⟩, rfl⟩

end Table

end ActionKit
