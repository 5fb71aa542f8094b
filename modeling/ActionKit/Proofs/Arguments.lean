import ActionKit.Proofs.Dispatch

/-!
# What natives are run on

The cells that a native function sees come from three places: what callers gave, what
specializations fixed, and what the check for missing arguments let pass. Each is checked against
another table, and together they give the native what its own table declares.

* `Table.Supplied`: cells as a table declares them.
* `Workshop.Launches`: the ways to run a frame, with the frame that the run starts from.
* `Workshop.Concludes`: what a run comes to.

Results:
* `compatible_origin`: actions that frames may be run through are derived from the same native.
* `Original.supplied`: cells that fit, with none missing, are as the table declares them.
* `Sound.concludes`: the function of a native is run on cells as its table declares them, and on no
  others.
-/

namespace ActionKit

/-! ## Cells that are supplied -/

/-- A value as a parameter declares it: of its types, or `none` where it is optional. -/
def Content.Takes (content : Content) (value : Value) : Prop :=
  ∃ role types, content = .unbound role types ∧
    (types.accepts value = true ∨ role = .refinement ∧ value = .none)

/-- **Cells as a table declares them**: the output is empty, and all else is as declared. -/
structure Table.Supplied (table : Table) (cell : Nat → Value) : Prop where
  header : cell 0 = .none
  output : ∀ slot, table.outputSlot = some slot → cell slot = .none
  inputs : ∀ (slot : Nat) (entry : Entry), slot ≠ 0 → table.outputSlot ≠ some slot →
    table.entries[slot]? = some entry → entry.content.Takes (cell slot)

/-- Cells as a table declares them leave no required parameter empty. -/
theorem Table.Supplied.furnished {table : Table} {cell : Nat → Value} (h : table.Supplied cell)
    (hlayout : Layout table.entries table.outputSlot) : table.Furnished cell := by
  intro slot entry h0 he ⟨types, hcontent, hrefuses⟩ hempty
  have hout : table.outputSlot ≠ some slot := by
    intro hslot
    obtain ⟨-, output, others, houtput, ho⟩ := hlayout.output_slot hslot
    obtain rfl := Option.some.inj (he.symm.trans houtput)
    cases hcontent.symm.trans ho
  obtain ⟨role, others, ho, htakes⟩ := h.inputs slot entry h0 hout he
  obtain ⟨rfl, rfl⟩ := Content.unbound.inj (hcontent.symm.trans ho)
  rcases htakes with haccepts | ⟨hrole, -⟩
  · rw [hempty, hrefuses] at haccepts
    cases haccepts
  · cases hrole

/-- **Cells that fit an original table, with none missing**, are as the table declares them. -/
theorem Table.Original.supplied {table : Table} (h : table.Original) {cell : Nat → Value}
    (hfits : ∀ (slot : Nat) (entry : Entry), table.entries[slot]? = some entry →
      entry.Fits (cell slot))
    (hfull : table.Furnished cell) : table.Supplied cell where
  header := hfits 0 .header h.wellFormed.layout.getElem?_zero
  output slot hslot := by
    obtain ⟨-, entry, types, he, hc⟩ := h.wellFormed.layout.output_slot hslot
    have hfit := hfits slot entry he
    unfold Entry.Fits at hfit
    rw [hc] at hfit
    exact hfit
  inputs slot entry h0 hout he := by
    obtain ⟨role, types, ho⟩ := h.isOpen entry (mem_body_iff.mpr ⟨slot, h0, he⟩)
    refine ⟨role, types, ho.content, ?_⟩
    have hfit := hfits slot entry he
    unfold Entry.Fits at hfit
    rw [ho.content] at hfit
    cases role with
    | output =>
      refine absurd ((h.wellFormed.layout.output slot).mp ?_) hout
      rw [he]
      exact ho.role?
    | normal =>
      rcases hfit with hnone | hacc
      · -- An empty cell is only left where the types accept `none`.
        by_contra hleft
        have hrefuses := Bool.eq_false_iff.mpr fun haccepts => hleft (.inl haccepts)
        rw [hnone] at hrefuses
        exact hfull slot entry h0 he ⟨types, ho.content, hrefuses⟩ hnone
      · exact .inl hacc
    | refinement =>
      rcases hfit with hnone | hacc
      · exact .inr ⟨rfl, hnone⟩
      · exact .inl hacc

/-- A root runs what its action comes from. -/
theorem Action.origin_root (action : Action) : action.root.phase.origin = action.origin := by
  induction action with
  | native => rfl
  | checker => rfl
  | derived face derivation source ih =>
    cases derivation with
    | specialized => rfl
    | augmented => exact ih

namespace Workshop

variable {w : Workshop}

/-! ## Related actions -/

/-- A walk along the links follows the derivations of an action. -/
theorem Sound.walk_origin (hw : w.Sound) (depth : Nat) : ∀ {action : Action}, action ∈ w.actions →
    ∀ id ∈ w.lineage.walk depth action.table.id,
      ∃ other ∈ w.actions, other.table.id = id ∧ other.origin = action.origin := by
  induction depth with
  | zero => exact fun _ _ hid => absurd hid List.not_mem_nil
  | succ depth ih =>
    intro action ha id hid
    have hacc := hw.accounts action ha
    unfold Lineage.walk at hid
    rw [hw.source?_eq ha] at hid
    cases action with
    | native => cases hid
    | checker => cases hid
    | derived face derivation source =>
      rcases List.mem_cons.mp hid with rfl | hid
      · exact ⟨source, hacc.2.1, rfl, rfl⟩
      · exact ih hacc.2.1 id hid

theorem Sound.derivesFrom_origin (hw : w.Sound) {action : Action} (ha : action ∈ w.actions)
    {id : TableId} (h : w.lineage.derivesFrom action.table.id id = true) :
    ∃ other ∈ w.actions, other.table.id = id ∧ other.origin = action.origin := by
  unfold Lineage.derivesFrom at h
  rcases Bool.or_eq_true_iff.mp h with heq | hmem
  · exact ⟨action, ha, eq_of_beq heq, rfl⟩
  · exact hw.walk_origin _ ha id (List.contains_iff_mem.mp hmem)

/-- What comes from a native has an identity that nothing else has. -/
theorem Sound.issued_of_origin (hw : w.Sound) {action : Action} (ha : action ∈ w.actions)
    {face : Face} {function : Native} {binding : Binding}
    (ho : action.origin = .native face function binding) : w.Issued action.table.id := by
  have hacc := hw.accounts action ha
  cases action with
  | native => exact hacc.1
  | checker => cases ho
  | derived => exact hacc.1

/-- **Frames are only run through relatives.** If the action that a frame is run through comes
from a native, the action that it was made for comes from the same one. -/
theorem Sound.compatible_origin (hw : w.Sound) {action through : Action} (ha : action ∈ w.actions)
    (ht : through ∈ w.actions) {face : Face} {function : Native} {binding : Binding}
    (ho : through.origin = .native face function binding)
    (h : w.lineage.compatible action.table.id through.table.id = true) :
    action.origin = through.origin := by
  rcases Bool.or_eq_true_iff.mp h with hup | hdown
  · obtain ⟨other, hmem, hid, horigin⟩ := hw.derivesFrom_origin ha hup
    have hissued := hw.issued_of_origin ht ho
    rw [hw.unique through ht other hmem hissued hid.symm]
    exact horigin.symm
  · obtain ⟨other, hmem, hid, horigin⟩ := hw.derivesFrom_origin ht hdown
    have hissued := hw.issued_of_origin hmem (horigin.trans ho)
    rw [← hw.unique other hmem action ha hissued hid]
    exact horigin

/-! ## Ways to run a frame -/

/-- **The ways to run a frame**, with the result and the frame that the run starts from. -/
inductive Launches (w : Workshop) : Except CallError Value → Frame → Prop
  | invoke {action : Action} {frame : Frame} (own : action ∈ w.actions)
      (built : frame.Built action) : Launches w (w.invoke frame) frame
  | invokeAs {action through : Action} {frame : Frame} (own : action ∈ w.actions)
      (built : frame.Built action) (known : through ∈ w.actions)
      (related : w.lineage.compatible frame.table.id through.table.id = true) :
      Launches w (w.invokeAs frame through) (frame.redirect through.root)
  | call {action : Action} {positional : List Value} {named : List (Symbol × Value)}
      {frame : Frame} (own : action ∈ w.actions)
      (fulfilled : fulfil action positional named = .ok frame) :
      Launches w (w.call action positional named) frame

variable {result : Except CallError Value} {frame : Frame}

theorem Launches.result_eq (h : w.Launches result frame) : result = w.invoke frame := by
  cases h with
  | invoke => rfl
  | invokeAs _ _ _ related =>
    unfold Workshop.invokeAs ActionKit.invokeAs
    rw [if_pos related]
    rfl
  | call _ fulfilled =>
    unfold Workshop.call ActionKit.call
    rw [fulfilled]
    rfl

/-- A run starts from a frame of one action at the root of a related one. -/
theorem Launches.related (h : w.Launches result frame) :
    ∃ action ∈ w.actions, ∃ through ∈ w.actions, ∃ start : Frame, start.Built action ∧
      frame = start.redirect through.root ∧
      w.lineage.compatible action.table.id through.table.id = true := by
  have self : ∀ {action : Action} {frame : Frame}, action ∈ w.actions → frame.Built action →
      ∃ action ∈ w.actions, ∃ through ∈ w.actions, ∃ start : Frame, start.Built action ∧
        frame = start.redirect through.root ∧
        w.lineage.compatible action.table.id through.table.id = true := by
    intro action frame own built
    exact ⟨action, own, action, own, frame, built, by rw [← built.root]; rfl,
      Lineage.compatible_self _ _⟩
  cases h with
  | invoke own built => exact self own built
  | invokeAs own built known related =>
    exact ⟨_, own, _, known, _, built, rfl, by rw [← built.table]; exact related⟩
  | call own fulfilled => exact self own (fulfil_built fulfilled)

/-- **What the native behind a launch finds in the cells** is what its own table declares, if no
parameter that it requires is empty. -/
theorem Sound.supplied (hw : w.Sound) {action through : Action} (ha : action ∈ w.actions)
    (ht : through ∈ w.actions) {start : Frame} (hbuilt : start.Built action)
    (hrelated : w.lineage.compatible action.table.id through.table.id = true) {face : Face}
    {function : Native} {binding : Binding}
    (horigin : through.origin = .native face function binding)
    (hfull : face.table.Furnished start.cell) : face.table.Supplied start.cell := by
  have hnarrows := hw.origin_narrows ha
  have hown := hw.origin_mem ha
  rw [hw.compatible_origin ha ht horigin hrelated, horigin] at hnarrows hown
  have horiginal : face.table.Original := (hw.accounts _ hown).2.1
  -- What fits the table that the frame was made for fits that of the native.
  refine horiginal.supplied (fun slot entry he => ?_) hfull
  obtain ⟨other, hother, hentry⟩ := hnarrows.slots slot entry he
  exact hentry.fits (hbuilt.fits hother)

/-- **What a run comes to**, by what is behind the action that it starts with. -/
structure Concludes (w : Workshop) (frame : Frame) (result : Except CallError Value) : Prop where
  /-- What is behind the action is one of the workshop. -/
  own : frame.root.phase.origin ∈ w.actions
  /-- On cells as its table declares them, the function of a native is run, and what it returns is
  checked. -/
  called : ∀ face function binding, frame.root.phase.origin = .native face function binding →
    face.table.Supplied frame.cell →
      result = function.run (frame.handed w.lineage face binding) >>= checkResult face.table
  /-- On any other cells it is not run. Whatever it would do, a required parameter that is empty is
  reported. -/
  reported : ∀ face function binding, frame.root.phase.origin = .native face function binding →
    ¬ face.table.Supplied frame.cell →
      ∃ name, face.table.Lacks frame.cell name ∧ result = .error (.missingArgument name)
  /-- Where there is a typechecker, no function is run. -/
  checked : ∀ face test, frame.root.phase.origin = .checker face test →
    result = .ok (.logic (test.admits (frame.checkedCell face.table)))

/-- **The function of a native is run on cells as its table declares them**, and on no others. -/
theorem Sound.concludes (hw : w.Sound) (hl : w.Launches result frame) :
    w.Concludes frame result := by
  obtain ⟨action, ha, through, ht, start, hbuilt, rfl, hrelated⟩ := hl.related
  have hbehind : (start.redirect through.root).root.phase.origin = through.origin :=
    through.origin_root
  have hresult : result = through.origin.answer w.lineage start := by
    rw [hl.result_eq, hw.invoke_eq_answer ht rfl, Action.answer_redirect, Action.answer_origin]
  rw [hresult]
  refine ⟨hbehind ▸ hw.origin_mem ht, ?_, ?_, ?_⟩
  · intro face function binding horigin hsupplied
    rw [hbehind] at horigin
    have hmem := hw.origin_mem ht
    rw [horigin] at hmem ⊢
    have hfull : face.table.Furnished start.cell := hsupplied.furnished (hw.wellFormed hmem).layout
    exact Native.answer_of_furnished hfull
  · intro face function binding horigin hunsupplied
    rw [hbehind] at horigin
    rw [horigin]
    have hlacking : ¬ face.table.Furnished start.cell :=
      fun hfull => hunsupplied (hw.supplied ha ht hbuilt hrelated horigin hfull)
    exact Native.answer_of_not_furnished hlacking
  · intro face test horigin
    rw [hbehind] at horigin
    rw [horigin]
    rfl

end Workshop

end ActionKit
