import ActionKit.Proofs.Reach

/-!
# The tables of a workshop

A workshop creates a table for the typecheckers, one for every native and one for every derivation.
All of them have the header in front and nowhere else, names that differ, one output where the
table says it is, and seals on fixed parameters only; so every name that is there leads to its one
slot.

* `Table.Regular`: what can be relied on of a table.
* `Workshop.tables`: all tables that a workshop has created.

Results:
* `WellFormed.regular`: the layout that drafts keep makes a table regular.
* `Reachable.numbered`: every identity that was given out is that of a table.
* `tables_regular`: every table of a workshop is regular.
-/

namespace ActionKit

namespace Table

/-- **What can be relied on of a table.** -/
structure Regular (table : Table) : Prop where
  header : table.entries[0]? = some .header
  /-- The header stands at no other slot. -/
  params : ∀ (slot : Nat) (entry : Entry), slot ≠ 0 → table.entries[slot]? = some entry →
    entry.content ≠ .header
  /-- The names of parameters differ, whatever the header is called. -/
  distinct : ∀ (i j : Nat) (a b : Entry), i ≠ 0 → j ≠ 0 → table.entries[i]? = some a →
    table.entries[j]? = some b → a.name = b.name → i = j
  output : ∃ slot entry types, table.outputSlot = some slot ∧ table.entries[slot]? = some entry ∧
    entry.content = .unbound .output types ∧ entry.name = .output ∧ entry.isSealed = false
  /-- There is no output but the one at its slot. -/
  output_slot : ∀ (slot : Nat) (entry : Entry), table.entries[slot]? = some entry →
    entry.role? = some .output → table.outputSlot = some slot
  fixed_of_sealed : ∀ (slot : Nat) (entry : Entry), slot ≠ 0 →
    table.entries[slot]? = some entry → entry.isSealed = true → entry.isFixed = true
  find : ∀ (name : Symbol) (slot : Nat), table.find? name = some slot ↔
    1 ≤ slot ∧ ∃ entry, table.entries[slot]? = some entry ∧ entry.name = name

/-- **A well-formed table is regular.** -/
theorem WellFormed.regular {table : Table} (h : table.WellFormed) : table.Regular where
  header := h.layout.getElem?_zero
  params slot entry h0 hentry := (h.layout.proper entry (mem_body_iff.mpr ⟨slot, h0, hentry⟩)).param
  distinct _ _ _ _ hi hj ha hb hname := slot_unique h.distinct hi hj ha hb hname
  output := by
    obtain ⟨slot, hslot⟩ := Option.isSome_iff_exists.mp h.hasOutput
    obtain ⟨h0, entry, types, hentry, hcontent⟩ := h.layout.output_slot hslot
    have hproper := h.layout.proper entry (mem_body_iff.mpr ⟨slot, h0, hentry⟩)
    have hrole : entry.role? = some .output := Entry.role?_eq_some_iff.mpr ⟨types, hcontent⟩
    exact ⟨slot, entry, types, hslot, hentry, hcontent, hproper.name_of_output hrole,
      hproper.unsealed hcontent⟩
  output_slot slot entry hentry hrole := by
    rw [← h.layout.output slot, hentry]
    exact hrole
  fixed_of_sealed slot entry h0 hentry :=
    (h.layout.proper entry (mem_body_iff.mpr ⟨slot, h0, hentry⟩)).fixed_of_sealed
  find _ _ := h.find_iff

end Table

namespace Workshop

variable {w w' : Workshop}

/-- All tables that a workshop has created: that of the typecheckers, and those of its actions. -/
def tables (w : Workshop) : List Table := w.checkerTable :: w.actions.map (·.table)

theorem Sound.tables_wellFormed (hw : w.Sound) {table : Table} (h : table ∈ w.tables) :
    table.WellFormed := by
  rcases List.mem_cons.mp h with rfl | hmem
  · exact hw.checker.wellFormed
  · obtain ⟨action, haction, rfl⟩ := List.mem_map.mp hmem
    exact hw.wellFormed haction

/-! ## Identities -/

/-- Every identity that was given out is that of a table. -/
def Numbered (w : Workshop) : Prop :=
  ∀ number < w.lineage.next, ∃ table ∈ w.tables, table.id = ⟨number⟩

theorem SameStock.numbered (h : w.SameStock w') (hw : w.Numbered) : w'.Numbered := by
  unfold Numbered tables
  rw [h.lineage, h.checkerTable, h.actions]
  exact hw

/-- A new action brings its table, and at most the next identity. -/
theorem Gains.numbered {action : Action} (h : w.Gains w' action) (hw : w.Numbered)
    (hnext : ∀ number < w'.lineage.next,
      number < w.lineage.next ∨ action.table.id = ⟨number⟩) : w'.Numbered := by
  have htables : w'.tables = w.tables ++ [action.table] := by
    unfold tables
    rw [h.checkerTable, h.actions, List.map_append]
    rfl
  intro number hlt
  rw [htables]
  rcases hnext number hlt with hold | hnew
  · obtain ⟨table, hmem, hid⟩ := hw number hold
    exact ⟨table, List.mem_append_left _ hmem, hid⟩
  · exact ⟨action.table, List.mem_append_right _ (List.mem_singleton.mpr rfl), hnew⟩

theorem Change.numbered (hc : Change w w') (hw : w.Numbered) : w'.Numbered := by
  -- One more identity is given out only together with the table that has it.
  have next : ∀ {number : Nat} {id : TableId}, id = ⟨w.lineage.next⟩ →
      number < w.lineage.next + 1 → number < w.lineage.next ∨ id = ⟨number⟩ := by
    rintro number id rfl hlt
    rcases Nat.lt_succ_iff_lt_or_eq.mp hlt with hold | rfl
    · exact .inl hold
    · exact .inr rfl
  cases hc with
  | kept hk => exact hk.stock.numbered hw
  | native face function words made original hid hl hadd =>
    exact hadd.numbered hw fun number hlt => next hid (by rw [hl] at hlt; exact hlt)
  | derived face derivation source own table hid hl hadd =>
    exact hadd.numbered hw fun number hlt => next hid (by rw [hl] at hlt; exact hlt)
  | checker face test table hl hadd =>
    exact hadd.numbered hw fun number hlt => .inl (hl ▸ hlt)

theorem bare_checkerId : bare.checkerTable.id = ⟨0⟩ := by decide +kernel

theorem bare_numbered : bare.Numbered := by
  intro number hlt
  rw [bare_next, Nat.lt_one_iff] at hlt
  subst hlt
  exact ⟨bare.checkerTable, List.mem_cons_self, bare_checkerId⟩

/-- **Every identity that was given out is that of a table.** -/
theorem Reachable.numbered (hw : w.Reachable) : w.Numbered :=
  hw.induction bare_numbered (fun hc => hc.numbered) fun hs => hs.numbered

/-- **Every table that a workshop creates is regular**, and no identity is given out to anything
else. -/
theorem tables_regular (hw : w.Reachable) :
    (∀ table ∈ w.tables, table.Regular) ∧
      ∀ number < w.lineage.next, ∃ table ∈ w.tables, table.id = ⟨number⟩ :=
  ⟨fun _ h => (hw.sound.tables_wellFormed h).regular, hw.numbered⟩

theorem add_placeholder_made : (fresh.trial 0 fun made add =>
    match made.augment add [.word .invalid] none with
    | (.ok action, _) => action.table.find? .invalid
    | (.error _, _) => none) = some 4 := by
  decide +kernel

/-- Addition with one more parameter that has the name of the header. -/
theorem tables_regular_placeholder : ∃ (w : Workshop) (action : Action), w.Reachable ∧
    action.table ∈ w.tables ∧ action.table.find? .invalid = some 4 ∧ action.table.Regular := by
  obtain ⟨made, -, hfresh, add, hmem, hmatch⟩ := exists_of_trial add_placeholder_made
  split at hmatch
  · next action w haugment =>
    have hw := hfresh.leads (.augment hmem haugment)
    rcases augment_cases (hfresh.sound.wellFormed hmem) haugment with
      ⟨_, herror, -⟩ | ⟨face, hok, -, -, -, hgains⟩
    · cases herror
    · obtain rfl := Except.ok.inj hok
      have htable : (Action.derived face .augmented add).table ∈ w.tables :=
        List.mem_cons_of_mem _ (List.mem_map_of_mem hgains.mem)
      exact ⟨w, _, hw, htable, hmatch, (tables_regular hw).1 _ htable⟩
  · cases hmatch

end Workshop

end ActionKit
