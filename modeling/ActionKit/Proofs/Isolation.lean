import ActionKit.Scratch.Script

/-!
# Regions do not see each other

All regions of the scratch area share one list, which they index from their base marks. A region
can be thought of as a list of its own all the same: what its steps do to the shared list is what
they would do to an empty one, and once it has ended nothing is left of it.

* `ScriptStep.act`: what a step does to a list of its own.
* `Script.alone`: what a region shows if its steps are taken on a list of its own.
* `Script.During`: the states that the scratch area passes through while a region is open.
* `Scratch.Splits`: the area is what lies below a region, followed by the entries of the region.

Results:
* `Splits.push`, `Splits.insert`, `Splits.modify`, `Splits.leave`: single changes of the shared
  list are changes of the region.
* `run_alone`: a region shows what it would show alone, and leaves the area as it was.
* `run_isolated`: this, and that nothing below a region changes while the region is open.
-/

namespace ActionKit

/-! ## A list of its own -/

/-- What a step does to the entries of its region. A nested region does nothing to them. -/
def ScriptStep.act (own : List Entry) : ScriptStep → List Entry
  | .push entry => own ++ [entry]
  | .insert index entry => own.insertIdx index entry
  | .sealAt index => own.modify index ({ · with isSealed := true })
  | .nested _ => own

/-- The entries of a region after some steps. -/
def ownEntries (own : List Entry) (steps : List ScriptStep) : List Entry :=
  steps.foldl ScriptStep.act own

/-- The entries that ending a region hands out. -/
def Ending.handsOut (own : List Entry) : Ending → Option (List Entry)
  | .pop => some own
  | .release => none

mutual

/-- What a region shows if its steps are taken on a list of its own. -/
def Script.alone : Script → Observed
  | .mk steps ending => .mk (stepsAlone [] steps) (ending.handsOut (ownEntries [] steps))

/-- What the region that is nested in a step shows, on a list of its own. -/
def ScriptStep.innerAlone : ScriptStep → Option Observed
  | .nested script => some script.alone
  | .push _ | .insert _ _ | .sealAt _ => none

/-- What is seen after each step. -/
def stepsAlone (own : List Entry) : List ScriptStep → List Observation
  | [] => []
  | step :: rest => .mk step.innerAlone (step.act own) :: stepsAlone (step.act own) rest

end

/-! ## The shared list -/

/-- The area is what lies below a region, followed by the entries of the region. -/
structure Scratch.Splits (scratch : Scratch) (region : Region) (below own : List Entry) :
    Prop where
  base : region.base = below.length
  entries : scratch.entries = below ++ own

theorem insertIdx_length_add {α : Type} (below own : List α) (index : Nat) (x : α) :
    (below ++ own).insertIdx (below.length + index) x = below ++ own.insertIdx index x := by
  induction below with
  | nil => rw [List.nil_append, List.length_nil, Nat.zero_add, List.nil_append]
  | cons b below ih =>
    rw [List.cons_append, List.length_cons, Nat.add_right_comm, List.insertIdx_succ_cons, ih,
      List.cons_append]

theorem modify_length_add {α : Type} (below own : List α) (index : Nat) (f : α → α) :
    (below ++ own).modify (below.length + index) f = below ++ own.modify index f := by
  induction below with
  | nil => rw [List.nil_append, List.length_nil, Nat.zero_add, List.nil_append]
  | cons b below ih =>
    rw [List.cons_append, List.length_cons, Nat.add_right_comm, List.modify_succ_cons, ih,
      List.cons_append]

namespace Scratch.Splits

variable {scratch : Scratch} {region : Region} {below own : List Entry}

/-- A new region is empty, and everything lies below it. -/
theorem enter (scratch : Scratch) :
    scratch.enter.2.Splits scratch.enter.1 scratch.entries [] where
  base := rfl
  entries := (List.append_nil _).symm

theorem view (h : scratch.Splits region below own) : scratch.view region = own := by
  unfold Scratch.view
  rw [h.entries, h.base, List.drop_left]

theorem take (h : scratch.Splits region below own) :
    scratch.entries.take region.base = below := by
  rw [h.entries, h.base, List.take_left]

theorem push (h : scratch.Splits region below own) (entry : Entry) :
    (scratch.push entry).Splits region below (own ++ [entry]) where
  base := h.base
  entries := by
    show scratch.entries ++ [entry] = _
    rw [h.entries, List.append_assoc]

theorem insert (h : scratch.Splits region below own) (index : Nat) (entry : Entry) :
    (scratch.insert region index entry).Splits region below (own.insertIdx index entry) where
  base := h.base
  entries := by
    show scratch.entries.insertIdx (region.base + index) entry = _
    rw [h.entries, h.base, insertIdx_length_add]

theorem modify (h : scratch.Splits region below own) (index : Nat) (f : Entry → Entry) :
    (scratch.modify region index f).Splits region below (own.modify index f) where
  base := h.base
  entries := by
    show scratch.entries.modify (region.base + index) f = _
    rw [h.entries, h.base, modify_length_add]

/-- **A region that ends hands out its own entries**, and what lay below is all that is left. -/
theorem leave (h : scratch.Splits region below own) (ending : Ending) :
    (scratch.leave region ending).1 = ending.handsOut own ∧
      (scratch.leave region ending).2.entries = below := by
  cases ending with
  | pop => exact ⟨congrArg some h.view, h.take⟩
  | release => exact ⟨rfl, (scratch.release_entries region).trans h.take⟩

/-- A region is only seen through the entries of the area. -/
theorem congr (h : scratch.Splits region below own) {other : Scratch}
    (he : other.entries = scratch.entries) : other.Splits region below own :=
  ⟨h.base, he.trans h.entries⟩

end Scratch.Splits

/-! ## Running scripts -/

-- The induction is on scripts, steps and lists of steps at once. A nested region starts from the
-- area with the entries of its own region still on it, so the steps are followed for any entries.
mutual

theorem Script.run_alone : (script : Script) → (scratch : Scratch) →
    (script.run scratch).1 = script.alone ∧ (script.run scratch).2.entries = scratch.entries
  | .mk steps ending, scratch => by
    obtain ⟨hseen, hsteps⟩ := runSteps_alone steps (.enter scratch)
    obtain ⟨hpopped, hleft⟩ := hsteps.leave ending
    simp only [Script.run, Script.alone]
    exact ⟨by rw [hseen, hpopped], hleft⟩

theorem ScriptStep.run_alone : (step : ScriptStep) → {scratch : Scratch} → {region : Region} →
    {below own : List Entry} → scratch.Splits region below own →
    (step.run scratch region).1 = step.innerAlone ∧
      (step.run scratch region).2.Splits region below (step.act own)
  | .push entry, _, _, _, _, h => ⟨rfl, h.push entry⟩
  | .insert index entry, _, _, _, _, h => ⟨rfl, h.insert index entry⟩
  | .sealAt index, _, _, _, _, h => ⟨rfl, h.modify index _⟩
  | .nested script, scratch, _, _, _, h => by
    obtain ⟨hshown, hleft⟩ := script.run_alone scratch
    simp only [ScriptStep.run, ScriptStep.innerAlone]
    exact ⟨congrArg some hshown, h.congr hleft⟩

theorem runSteps_alone : (steps : List ScriptStep) → {scratch : Scratch} → {region : Region} →
    {below own : List Entry} → scratch.Splits region below own →
    (runSteps scratch region steps).1 = stepsAlone own steps ∧
      (runSteps scratch region steps).2.Splits region below (ownEntries own steps)
  | [], _, _, _, _, h => ⟨rfl, h⟩
  | step :: rest, _, _, _, _, h => by
    obtain ⟨hinner, hstep⟩ := step.run_alone h
    obtain ⟨hseen, hrest⟩ := runSteps_alone rest hstep
    simp only [runSteps, stepsAlone]
    exact ⟨by rw [hinner, hstep.view, hseen], hrest⟩

end

/-! ## While a region is open -/

/-- **The states that the area passes through while the region of a script is open**: those after
each of its own steps, and those that it passes through while a nested region is open. -/
inductive Script.During : Script → Scratch → Scratch → Prop
  | own (scratch : Scratch) (taken rest : List ScriptStep) (ending : Ending) :
      During (.mk (taken ++ rest) ending) scratch
        (runSteps scratch.enter.2 scratch.enter.1 taken).2
  | nested (scratch : Scratch) (taken : List ScriptStep) (inner : Script)
      (rest : List ScriptStep) (ending : Ending) (moment : Scratch)
      (h : inner.During (runSteps scratch.enter.2 scratch.enter.1 taken).2 moment) :
      During (.mk (taken ++ .nested inner :: rest) ending) scratch moment

theorem Script.During.keeps_below {script : Script} {scratch moment : Scratch}
    (h : script.During scratch moment) : scratch.entries <+: moment.entries := by
  have own : ∀ (scratch : Scratch) (taken : List ScriptStep),
      scratch.entries <+: (runSteps scratch.enter.2 scratch.enter.1 taken).2.entries := by
    intro scratch taken
    obtain ⟨-, hsplits⟩ := runSteps_alone taken (.enter scratch)
    rw [hsplits.entries]
    exact List.prefix_append _ _
  induction h with
  | own scratch taken rest ending => exact own scratch taken
  | nested scratch taken inner rest ending moment _ ih => exact (own scratch taken).trans ih

/-- **Regions are isolated.** Whatever is on the area, a script shows what it would show alone, and
after its end the area is as it was before. At every moment, its region has the entries that its
own steps so far make of an empty list; and as long as the region is open, also while regions are
nested in it, all that lies below stays. A nested region is a script that is run on the area as
it finds it, so that all this holds of it too. -/
theorem run_isolated (steps : List ScriptStep) (ending : Ending) (scratch : Scratch) :
    ((Script.mk steps ending).run scratch).1 = (Script.mk steps ending).alone ∧
      ((Script.mk steps ending).run scratch).2.entries = scratch.entries ∧
      (∀ taken, taken <+: steps →
        (runSteps scratch.enter.2 scratch.enter.1 taken).2.view scratch.enter.1 =
          ownEntries [] taken) ∧
      ∀ moment, (Script.mk steps ending).During scratch moment →
        scratch.entries <+: moment.entries := by
  obtain ⟨hshown, hleft⟩ := (Script.mk steps ending).run_alone scratch
  refine ⟨hshown, hleft, fun taken _ => ?_, fun moment hmoment => hmoment.keeps_below⟩
  exact (runSteps_alone taken (.enter scratch)).2.view

/-- An output is put into a region nested above a parameter and dropped with it: in between, the
parameter and what lies below it stay, and in the end the parameter alone is popped. -/
theorem run_isolated_dropped :
    let parameter := Entry.declared .value .normal
    let output := Entry.declared .output .output
    let steps := [.push parameter, .nested (.mk [.insert 0 output] .release)]
    let area : Scratch := { entries := [.header] }
    [.push parameter] <+: steps ∧
      (runSteps area.enter.2 area.enter.1 [.push parameter]).2.view area.enter.1 = [parameter] ∧
      ((Script.mk steps .pop).run area).1 = (Script.mk steps .pop).alone ∧
      ((Script.mk steps .pop).run area).2.entries = [.header] ∧
      ∃ moment, (Script.mk steps .pop).During area moment ∧
        moment.entries = [.header, parameter, output] ∧ [.header] <+: moment.entries := by
  intro parameter output steps area
  obtain ⟨hshown, hleft, hown, hbelow⟩ := run_isolated steps .pop area
  have hfront : [.push parameter] <+: steps := List.prefix_append _ _
  have hduring := Script.During.nested area [.push parameter] (.mk [.insert 0 output] .release) []
    .pop _ (.own _ [.insert 0 output] [] .release)
  exact ⟨hfront, hown _ hfront, hshown, hleft, _, hduring, rfl, hbelow _ hduring⟩

end ActionKit
