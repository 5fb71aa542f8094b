import ActionKit.Workshop.Make
import ActionKit.Proofs.Drafted

/-!
# What making an action does

Each operation of a workshop either fails, and leaves all actions and tables as they were, or adds
one action. What the new action and its table look like is said here once; all else about runs of
a workshop follows from it.

* `Workshop.SameStock`, `Workshop.Keeps`: no action, no table and no link is added.
* `Workshop.Gains`: one action is added.
* `Table.Original`: the tables of natives.
* `Binding.given`: the binding that a native made with some words has.

Results:
* `makeNative_cases`, `specialize_cases`, `augment_cases`, `makeChecker_cases`: the two outcomes
  of each operation.
* `specialize_nil`: an action can always be specialized by no bindings.
-/

namespace ActionKit

/-- The table of an action that was not derived: all parameters are open. -/
structure Table.Original (table : Table) : Prop where
  wellFormed : table.WellFormed
  isOpen : ∀ entry ∈ table.body, ∃ role types, entry.Open role types

/-- The binding of a native that was made with some words, or with none. The environment belongs
to the table of the native. -/
def Binding.given (table : TableId) : Option (List (Symbol × Value)) → Binding
  | none => .unbound
  | some words => .bound { owner := table, words }

namespace Workshop

/-- Two workshops with the same actions and tables. -/
structure SameStock (w w' : Workshop) : Prop where
  lineage : w'.lineage = w.lineage
  actions : w'.actions = w.actions
  checkerTable : w'.checkerTable = w.checkerTable

/-- What operations leave alone that make no action. -/
structure Keeps (w w' : Workshop) : Prop where
  stock : w.SameStock w'
  natives : w'.natives = w.natives

theorem Keeps.trans {a b c : Workshop} (hab : a.Keeps b) (hbc : b.Keeps c) : a.Keeps c where
  stock :=
    ⟨hbc.stock.lineage.trans hab.stock.lineage, hbc.stock.actions.trans hab.stock.actions,
      hbc.stock.checkerTable.trans hab.stock.checkerTable⟩
  natives := hbc.natives.trans hab.natives

/-- What making an action does, its table and its links apart. -/
structure Gains (w w' : Workshop) (action : Action) : Prop where
  actions : w'.actions = w.actions ++ [action]
  natives : w'.natives = w.natives
  checkerTable : w'.checkerTable = w.checkerTable

variable {w w' : Workshop}

/-- Adding an action after operations that make none is adding it to the first workshop. -/
theorem Keeps.gains {drafted : Workshop} (h : w.Keeps drafted) {action : Action}
    (hadd : drafted.Gains w' action) : w.Gains w' action where
  actions := by rw [hadd.actions, h.stock.actions]
  natives := hadd.natives.trans h.natives
  checkerTable := hadd.checkerTable.trans h.stock.checkerTable

theorem Gains.mem {action : Action} (h : w.Gains w' action) : action ∈ w'.actions := by
  rw [h.actions]
  exact List.mem_append_right _ (List.mem_singleton.mpr rfl)

/-! ## Operations that make no action -/

theorem intern_keeps (w : Workshop) (name : Bytes) : w.Keeps (w.intern name).2 :=
  ⟨⟨rfl, rfl, rfl⟩, rfl⟩

theorem register_keeps (w : Workshop) (name : Bytes) : w.Keeps (w.register name).2 :=
  ⟨⟨rfl, rfl, rfl⟩, rfl⟩

theorem readSpec_keeps (w : Workshop) (text : String) : w.Keeps (w.readSpec text).2 :=
  ⟨⟨rfl, rfl, rfl⟩, rfl⟩

theorem draft_keeps {fill : Draft → Except BuildError Unit × Draft}
    {result : Except BuildError Finished} (h : w.draft fill = (result, w')) : w.Keeps w' := by
  unfold draft at h
  split at h <;>
  · obtain ⟨-, rfl⟩ := Prod.mk.inj h
    exact ⟨⟨rfl, rfl, rfl⟩, rfl⟩

theorem draftSpec_keeps {text : String} {withOutput : Bool} {result : Except BuildError Finished}
    (h : w.draftSpec text withOutput = (result, w')) : w.Keeps w' := by
  have hread := w.readSpec_keeps text
  unfold draftSpec at h
  split at h
  · next error read hr =>
    obtain ⟨-, rfl⟩ := Prod.mk.inj h
    rw [hr] at hread
    exact hread
  · next spec read hr =>
    rw [hr] at hread
    exact hread.trans (draft_keeps h)

/-! ## Drafts of whole tables -/

theorem draft_ok {fill : Draft → Except BuildError Unit × Draft} {finished : Finished}
    (h : w.draft fill = (.ok finished, w')) :
    ∃ draft scratch, fill (.start w.scratch) = (.ok (), draft) ∧
      draft.finish = (.ok finished, scratch) := by
  unfold Workshop.draft at h
  split at h
  · cases (Prod.mk.inj h).1
  · next draft hfill =>
    exact ⟨draft, draft.finish.2, hfill, Prod.ext (Prod.mk.inj h).1 rfl⟩

/-- A declared table with an output is an original one. -/
theorem draftSpec_original {text : String} {withOutput : Bool} {finished : Finished}
    (h : w.draftSpec text withOutput = (.ok finished, w'))
    (hout : withOutput = true ∨ finished.outputSlot.isSome = true) (id : TableId) :
    (finished.toTable id).Original := by
  unfold draftSpec at h
  split at h
  · cases (Prod.mk.inj h).1
  · next spec read hread =>
    obtain ⟨draft, scratch, hfill, hfinish⟩ := draft_ok h
    obtain ⟨state, hrun, hshows⟩ := (Draft.start_shows read.scratch).declare hfill
    obtain ⟨rfl, hdistinct⟩ := hshows.finish hfinish
    obtain ⟨hlayout, hopen⟩ := Declaring.run_alone hrun
    refine ⟨⟨hlayout, hdistinct, ?_⟩, hopen⟩
    rcases hout with rfl | hout
    · exact Declaring.run_hasOutput hrun
    · exact hout

/-! ## Operations that make an action -/

/-- **Making a native** fails or adds a native with an original table of a new identity. -/
theorem makeNative_cases {function : Native} {words : Option (List (Symbol × Value))}
    {result : Except BuildError Action} (h : w.makeNative function words = (result, w')) :
    (∃ error, result = .error error ∧ w.Keeps w') ∨
      ∃ face, result = .ok (.native face function (.given face.table.id words)) ∧
        face.table.Original ∧ face.table.id = ⟨w.lineage.next⟩ ∧
        w'.lineage = w.lineage.allocate.2 ∧
        w.Gains w' (.native face function (.given face.table.id words)) := by
  unfold makeNative at h
  split at h
  · next error drafted hd =>
    obtain ⟨rfl, rfl⟩ := Prod.mk.inj h
    exact .inl ⟨error, rfl, draftSpec_keeps hd⟩
  · next finished drafted hd =>
    have hkeeps := draftSpec_keeps hd
    obtain ⟨rfl, rfl⟩ := Prod.mk.inj h
    refine .inr ⟨_, by cases words <;> rfl, draftSpec_original hd (.inl rfl) _, ?_, ?_, ?_⟩
    · show TableId.mk drafted.lineage.next = _
      rw [hkeeps.stock.lineage]
    · show drafted.lineage.allocate.2 = _
      rw [hkeeps.stock.lineage]
    · exact hkeeps.gains (by cases words <;> exact ⟨rfl, rfl, rfl⟩)

/-- **Specializing an action** fails or adds an action with some parameters fixed. -/
theorem specialize_cases {source : Action} (hs : source.table.WellFormed)
    {bindings : List (Symbol × Value)} {result : Except BuildError Action}
    (h : w.specialize source bindings = (result, w')) :
    (∃ error, result = .error error ∧ w.Keeps w') ∨
      ∃ face, result = .ok (.derived face .specialized source) ∧
        Table.Binds bindings source.table face.table ∧ face.label = source.label ∧
        face.table.id = ⟨w.lineage.next⟩ ∧
        w'.lineage = w.lineage.allocate.2.link face.table.id source.table.id ∧
        w.Gains w' (.derived face .specialized source) := by
  unfold specialize at h
  simp only at h
  split at h
  · next error drafted hd =>
    obtain ⟨rfl, rfl⟩ := Prod.mk.inj h
    exact .inl ⟨error, rfl, draft_keeps hd⟩
  · next finished drafted hd =>
    have hkeeps := draft_keeps hd
    obtain ⟨rfl, rfl⟩ := Prod.mk.inj h
    obtain ⟨draft, scratch, hfill, hfinish⟩ := draft_ok hd
    split at hfill
    · cases (Prod.mk.inj hfill).1
    · next fixed hfix =>
      obtain ⟨-, rfl⟩ := Prod.mk.inj hfill
      have hcopy := (Draft.start_shows w.scratch).copy source.table .preserve
      obtain ⟨hfixed, hnodup, hadmitted⟩ := hcopy.fixAll hs.distinct hfix
      obtain ⟨rfl, hdistinct⟩ := (hfixed.inherit source.description).finish hfinish
      refine .inr ⟨_, rfl, ⟨rfl, ?_, hnodup, hadmitted⟩, rfl, ?_, ?_, ?_⟩
      · show (source.table.outputSlot <|> none) = source.table.outputSlot
        cases source.table.outputSlot <;> rfl
      · show TableId.mk drafted.lineage.next = _
        rw [hkeeps.stock.lineage]
      · show drafted.lineage.allocate.2.link _ _ = _
        rw [hkeeps.stock.lineage]
      · exact hkeeps.gains ⟨rfl, rfl, rfl⟩

/-- Nothing stands in the way of fixing no parameters at all. -/
theorem specialize_nil (w : Workshop) {source : Action} (hs : source.table.WellFormed) :
    ∃ action w', w.specialize source [] = (.ok action, w') := by
  have hcopy := ((Draft.start_shows w.scratch).copy source.table .preserve).inherit
    source.description
  obtain ⟨finished, hfinish⟩ := hcopy.exists_finish hs.distinct
  unfold specialize Workshop.draft
  simp only [Draft.fixAll, hfinish]
  exact ⟨_, _, rfl⟩

/-- **Augmenting an action** fails or adds an action with the parameters that a spec declares. -/
theorem augment_cases {source : Action} (hs : source.table.WellFormed) {spec : List Value}
    {label : Option Symbol} {result : Except BuildError Action}
    (h : w.augment source spec label = (result, w')) :
    (∃ error, result = .error error ∧ w.Keeps w') ∨
      ∃ face, result = .ok (.derived face .augmented source) ∧
        Table.Extends (heads spec) source.table face.table ∧
        face.table.id = ⟨w.lineage.next⟩ ∧
        w'.lineage = w.lineage.allocate.2.link face.table.id source.table.id ∧
        w.Gains w' (.derived face .augmented source) := by
  unfold augment at h
  simp only at h
  split at h
  · next error drafted hd =>
    obtain ⟨rfl, rfl⟩ := Prod.mk.inj h
    exact .inl ⟨error, rfl, draft_keeps hd⟩
  · next finished drafted hd =>
    have hkeeps := draft_keeps hd
    obtain ⟨rfl, rfl⟩ := Prod.mk.inj h
    obtain ⟨draft, scratch, hfill, hfinish⟩ := draft_ok hd
    split at hfill
    · cases (Prod.mk.inj hfill).1
    · next declared hdeclare =>
      obtain ⟨-, rfl⟩ := Prod.mk.inj hfill
      have hcopy := (Draft.start_shows w.scratch).copy source.table .sealFixed
      obtain ⟨state, hrun, hshows⟩ := hcopy.declare hdeclare
      obtain ⟨rfl, hdistinct⟩ := (hshows.inherit source.description).finish hfinish
      obtain ⟨slot, hslot⟩ := Option.isSome_iff_exists.mp hs.hasOutput
      rw [hslot] at hrun
      obtain ⟨⟨more, hentries, hmore⟩, hout, hinputs⟩ := Declaring.run_behind hrun
      refine .inr ⟨_, rfl, ⟨⟨more, hentries, hmore⟩, hout.trans hslot.symm, hinputs, hdistinct⟩,
        ?_, ?_, ?_⟩
      · show TableId.mk drafted.lineage.next = _
        rw [hkeeps.stock.lineage]
      · show drafted.lineage.allocate.2.link _ _ = _
        rw [hkeeps.stock.lineage]
      · exact hkeeps.gains ⟨rfl, rfl, rfl⟩

/-- **Making a typechecker** fails or adds an action with the table that all typecheckers share. -/
theorem makeChecker_cases {descriptor : Value} {result : Except BuildError Action}
    (h : w.makeChecker descriptor = (result, w')) :
    (∃ error, result = .error error ∧ w.Keeps w') ∨
      ∃ face test, result = .ok (.checker face test) ∧ face.table = w.checkerTable ∧
        w'.lineage = w.lineage ∧ w.Gains w' (.checker face test) := by
  unfold makeChecker at h
  split at h
  · obtain ⟨rfl, rfl⟩ := Prod.mk.inj h
    exact .inl ⟨_, rfl, ⟨rfl, rfl, rfl⟩, rfl⟩
  · next test ht =>
    obtain ⟨rfl, rfl⟩ := Prod.mk.inj h
    exact .inr ⟨_, test, rfl, rfl, rfl, rfl, rfl, rfl⟩

end Workshop

end ActionKit
