import ActionKit.Proofs.Transparency

/-!
# Actions that differ in seals only

Sealing a parameter that is fixed takes nothing from callers: they could not fill it before. Two
actions whose tables are the same once everything that is fixed is sealed have the same cells in
their frames, and answer every call alike, whatever derivations they were made by.

* `Action.Twins`: two actions with the same parameters, but for seals, and the same origin.
* `Action.Twins.Abreast`: frames of the two actions with the same cells.

Results:
* `Twins.exposed`, `Twins.positional`: callers see the same parameters.
* `Twins.set`: an argument does the same to both frames.
* `Twins.call_eq`: both actions give the same value or the same error.
-/

namespace ActionKit.Action

/-- **Two actions that differ in seals only**: the same parameters are at the same slots, and what
is fixed in one of them is fixed to the same value in the other. Both have the same label and come
from the same native or typechecker. -/
structure Twins (a b : Action) : Prop where
  entries : a.table.entries.map (·.sealFixed) = b.table.entries.map (·.sealFixed)
  label : a.label = b.label
  origin : a.origin = b.origin

namespace Twins

variable {a b : Action}

/-- **Callers see the same parameters** at the same slots. -/
theorem exposed (h : a.Twins b) : a.table.exposed = b.table.exposed := by
  -- What is exposed is open, so sealing what is fixed leaves it as it is.
  have hsealed : ∀ table : Table, table.exposed =
      ((table.entries.map (·.sealFixed)).zipIdx.drop 1).filter (·.1.isExposed) := by
    intro table
    have hsame : (fun param : Entry × Nat => param.1.isExposed) ∘ Table.atSlot (·.sealFixed) =
        fun param => param.1.isExposed := by
      funext param
      exact param.1.isExposed_sealFixed
    rw [← table.params_map, List.filter_map, hsame]
    refine ((List.map_congr_left fun param hparam => ?_).trans (List.map_id' _)).symm
    obtain ⟨_, _, ho⟩ := Entry.isExposed_iff.mp (List.mem_filter.mp hparam).2
    exact Prod.ext ho.sealFixed rfl
  rw [hsealed, hsealed, h.entries]

theorem positional (h : a.Twins b) : a.table.positional = b.table.positional := by
  unfold Table.positional
  rw [h.exposed]

/-- Frames of the two actions with the same cells. -/
structure Abreast (a b : Action) (f g : Frame) : Prop where
  first : f.Built a
  second : g.Built b
  cells : f.cells = g.cells

theorem new (h : a.Twins b) : Abreast a b (.new a) (.new b) where
  first := .new
  second := .new
  cells := by
    have hcells : ∀ action : Action, (Frame.new action).cells =
        (action.table.entries.map (·.sealFixed)).map (·.initialCell) := by
      intro action
      simp [Frame.new]
    rw [hcells, hcells, h.entries]

/-- **An argument is refused by both frames or taken by both.** -/
theorem set (h : a.Twins b) {f g : Frame} (habreast : Abreast a b f g) (name : Symbol)
    (value : Value) : Paired (Abreast a b) (f.set name value) (g.set name value) := by
  have hf := habreast.first.table
  have hg := habreast.second.table
  rcases Table.found_of_map Entry.name_sealFixed h.entries name with
    ⟨ha, hb⟩ | ⟨e, e', slot, ha, hb, hsealed⟩
  · rw [Frame.set_of_none (hf ▸ ha), Frame.set_of_none (hg ▸ hb)]
    exact .refused _
  · refine Frame.set_paired (hf ▸ ha) (hg ▸ hb) ?_ fun hleft hright =>
      ⟨habreast.first.set hleft, habreast.second.set hright, ?_⟩
    · rw [← e.allow_sealFixed, hsealed, e'.allow_sealFixed]
    · simp [Frame.put, habreast.cells]

/-- **Actions that differ in seals only give the same results.** -/
theorem call_eq (h : a.Twins b) {w : Workshop} (hw : w.Sound) (ha : a ∈ w.actions)
    (hb : b ∈ w.actions) (positional : List Value) (named : List (Symbol × Value)) :
    w.call a positional named = w.call b positional named := by
  have hfilled : Paired (Abreast a b) (fulfil a positional named) (fulfil b positional named) :=
    fulfil_paired h.positional h.new (fun name value f g habreast => h.set habreast name value) _ _
  refine call_paired hfilled fun f g habreast => ?_
  refine hw.invoke_eq_of_cells ha hb h.origin habreast.first.root habreast.second.root
    habreast.cells ?_
  rw [habreast.first.label, habreast.second.label, h.label]

end Twins

end ActionKit.Action
