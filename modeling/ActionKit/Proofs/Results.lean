import ActionKit.Native.Stock
import ActionKit.Proofs.Kinship

/-!
# What calls return

The result of a native is checked against the output of the native's own table, and that of a
typechecker is not checked at all. Callers see the output of the action that they call, and this is
the same parameter: derivations leave it alone.

* `Table.Returns`: a value that the output of a table accepts.

Results:
* `Narrows.returns`: what a table returns, the tables derived from it return.
* `Reachable.checker_returns`: typecheckers may return logic values.
* `Reachable.answer_returns`: what is behind an action answers as the output of the action
  declares.
* `results_returned`: calls, runs and runs through another action return what the output of the
  action accepts.
-/

namespace ActionKit

namespace Table

/-- **A value that the output of a table accepts.** There is an output. -/
def Returns (table : Table) (value : Value) : Prop :=
  ∃ entry types, table.output? = some entry ∧ entry.content = .unbound .output types ∧
    types.accepts value = true

theorem output?_eq {table : Table} {slot : Nat} (hslot : table.outputSlot = some slot)
    (h0 : slot ≠ 0) : table.output? = table.entries[slot]? := by
  unfold output?
  rw [hslot, Option.bind_some, get?, if_neg h0]

/-- A well-formed table has an output. -/
theorem WellFormed.exists_output {table : Table} (h : table.WellFormed) :
    ∃ slot entry types, slot ≠ 0 ∧ table.outputSlot = some slot ∧
      table.entries[slot]? = some entry ∧ entry.content = .unbound .output types ∧
      table.output? = some entry := by
  obtain ⟨slot, hslot⟩ := Option.isSome_iff_exists.mp h.hasOutput
  obtain ⟨h0, entry, types, hentry, hcontent⟩ := h.layout.output_slot hslot
  exact ⟨slot, entry, types, h0, hslot, hentry, hcontent, (output?_eq hslot h0).trans hentry⟩

/-- A derivation cannot fix the output, so it leaves it as it is. -/
theorem Narrows.returns {table narrower : Table} (h : table.Narrows narrower)
    (hwf : table.WellFormed) {value : Value} (hr : table.Returns value) :
    narrower.Returns value := by
  obtain ⟨slot, entry, types, h0, hslot, hentry, hcontent, houtput⟩ := hwf.exists_output
  obtain ⟨other, types', hother, hcontent', haccepts⟩ := hr
  obtain rfl := Option.some.inj (houtput.symm.trans hother)
  obtain ⟨-, rfl⟩ := Content.unbound.inj (hcontent.symm.trans hcontent')
  obtain ⟨later, hlater, hnarrows⟩ := h.slots slot entry hentry
  refine ⟨later, types, (output?_eq (h.output.trans hslot) h0).trans hlater, ?_, haccepts⟩
  rcases hnarrows.content with hsame | ⟨role, _, _, hunbound, hrole, _, _⟩
  · exact hsame.trans hcontent
  · obtain ⟨rfl, -⟩ := Content.unbound.inj (hcontent.symm.trans hunbound)
    exact absurd rfl hrole

end Table

/-- What passes the check of results is a value that the output accepts. -/
theorem checkResult_returns {table : Table} (hwf : table.WellFormed) {value result : Value}
    (h : checkResult table value = .ok result) : table.Returns result := by
  obtain ⟨_, entry, types, _, _, _, hcontent, houtput⟩ := hwf.exists_output
  have htypes : table.output?.bind (·.types?) = some types := by
    rw [houtput, Option.bind_some, Entry.types?, hcontent]
  simp only [checkResult, htypes] at h
  split at h
  · next haccepts =>
    obtain rfl := Except.ok.inj h
    exact ⟨entry, types, houtput, hcontent, haccepts⟩
  · cases h

/-- Natives return nothing that was not checked. -/
theorem Native.answer_returns {function : Native} {lineage : Lineage} {face : Face}
    {binding : Binding} {frame : Frame} (hwf : face.table.WellFormed) {value : Value}
    (h : function.answer lineage face binding frame = .ok value) : face.table.Returns value := by
  unfold answer at h
  split at h
  · cases h
  · cases hrun : function.run (frame.handed lineage face binding) with
    | error error =>
      rw [hrun] at h
      cases h
    | ok result =>
      rw [hrun] at h
      exact checkResult_returns hwf h

/-- A native that returns its argument, and declares that this is an integer. -/
def Native.echo : Native :=
  { name := "echo", spec := "return: [integer!] value", run := Stock.arg .value }

namespace Workshop

variable {w : Workshop}

theorem bare_checker_types : (bare.checkerTable.output?.bind (·.types?)).any (fun types =>
    types.accepts (.logic true) && types.accepts (.logic false)) = true := by
  decide +kernel

theorem bare_checker_returns (truth : Bool) : bare.checkerTable.Returns (.logic truth) := by
  obtain ⟨_, entry, types, _, _, _, hcontent, houtput⟩ :=
    bare_sound.checker.wellFormed.exists_output
  have hboth := bare_checker_types
  rw [houtput, Option.bind_some, Entry.types?, hcontent, Option.any_some,
    Bool.and_eq_true] at hboth
  refine ⟨entry, types, houtput, hcontent, ?_⟩
  cases truth with
  | true => exact hboth.1
  | false => exact hboth.2

/-- **Typecheckers may return logic values**, and these are all they ever return. -/
theorem Reachable.checker_returns (hw : w.Reachable) (truth : Bool) :
    w.checkerTable.Returns (.logic truth) := by
  refine hw.induction (motive := fun w => w.checkerTable.Returns (.logic truth))
    (bare_checker_returns truth) (fun hc h => ?_) fun hs h => ?_
  · rw [hc.grows.checkerTable]
    exact h
  · rw [hs.checkerTable]
    exact h

/-- **What is behind an action answers as the output of the action declares**, whatever the frame
holds. -/
theorem Reachable.answer_returns (hw : w.Reachable) {action : Action} (ha : action ∈ w.actions)
    {frame : Frame} {value : Value} (h : action.answer w.lineage frame = .ok value) :
    action.table.Returns value := by
  refine hw.sound.induction (motive := fun action => action.answer w.lineage frame = .ok value →
    action.table.Returns value) ?_ ?_ ?_ action ha h
  · intro face function binding _ hacc hanswer
    exact Native.answer_returns hacc.2.1.wellFormed hanswer
  · intro face test _ htable hanswer
    obtain rfl := Except.ok.inj hanswer
    show face.table.Returns _
    rw [htable]
    exact hw.checker_returns _
  · intro face derivation source _ hacc ih hanswer
    have hwf := hw.sound.wellFormed hacc.2.1
    exact (hacc.2.2.1.narrows hwf).returns hwf (ih hanswer)

/-- **Results honour the output of the action that gives them**: that of the action that is called,
that of the action a frame was made for, and that of the action a frame is run through, whatever
frame it is. -/
theorem results_returned (hw : w.Reachable) {action : Action} (ha : action ∈ w.actions)
    {value : Value} :
    (∀ positional named, w.call action positional named = .ok value →
      action.table.Returns value) ∧
    (∀ frame : Frame, frame.Built action → w.invoke frame = .ok value →
      action.table.Returns value) ∧
    ∀ frame : Frame, w.invokeAs frame action = .ok value → action.table.Returns value := by
  have hrun : ∀ frame : Frame, frame.root = action.root → w.invoke frame = .ok value →
      action.table.Returns value := by
    intro frame hroot h
    rw [hw.sound.invoke_eq_answer ha hroot] at h
    exact hw.answer_returns ha h
  refine ⟨fun positional named h => ?_, fun frame hf => hrun frame hf.root, fun frame h => ?_⟩
  · unfold Workshop.call ActionKit.call at h
    split at h
    · cases h
    · next frame hfulfil => exact hrun frame (fulfil_built hfulfil).root h
  · unfold Workshop.invokeAs ActionKit.invokeAs at h
    split at h
    · exact hrun (frame.redirect action.root) rfl h
    · cases h

theorem echo_made :
    (match fresh.makeNative .echo none with
    | (.ok native, w) =>
      match w.augment native [.word ⟨99⟩] none with
      | (.ok action, w) => some
          (decide (w.call action [.integer 7, .logic true] [] = .ok (.integer 7)),
            (w.call action [.logic true] []).toOption)
      | (.error _, _) => none
    | (.error _, _) => none) = some (true, none) := by
  decide +kernel

/-- An augmentation of such a native returns an integer, and refuses to return anything else. -/
theorem results_returned_echo : ∃ (w : Workshop) (action : Action), w.Reachable ∧
    action ∈ w.actions ∧ action.derivation? = some .augmented ∧
      w.call action [.integer 7, .logic true] [] = .ok (.integer 7) ∧
      action.table.Returns (.integer 7) ∧ (w.call action [.logic true] []).toOption = none := by
  obtain ⟨made, hmade, hfresh⟩ := exists_fresh
  have hmatch := echo_made
  rw [← hmade] at hmatch
  split at hmatch
  · next native w₁ hnative =>
    split at hmatch
    · next action w haugment =>
      obtain ⟨hresult, hrefused⟩ := Prod.mk.inj (Option.some.inj hmatch)
      have hstep := Step.makeNative made .echo none
      rw [hnative] at hstep
      have hw₁ : w₁.Reachable := hfresh.leads (.single hstep)
      rcases makeNative_cases hnative with ⟨_, herror, -⟩ | ⟨_, hok, -, -, -, hgains⟩
      · cases herror
      obtain rfl := Except.ok.inj hok
      have hw := hw₁.leads (.augment hgains.mem haugment)
      rcases augment_cases (hw₁.sound.wellFormed hgains.mem) haugment with
        ⟨_, herror, -⟩ | ⟨face, hok, -, -, -, hadded⟩
      · cases herror
      obtain rfl := Except.ok.inj hok
      have hcall := of_decide_eq_true hresult
      exact ⟨w, _, hw, hadded.mem, rfl, hcall, (results_returned hw hadded.mem).1 _ _ hcall,
        hrefused⟩
    · cases hmatch
  · cases hmatch

end Workshop

end ActionKit
