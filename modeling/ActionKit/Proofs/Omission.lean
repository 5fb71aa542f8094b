import ActionKit.Proofs.Arguments
import ActionKit.Proofs.Filling

/-!
# What calls leave out

Before a native is run, its own table is searched for required parameters whose cells are empty.
That table knows nothing of what derivations have fixed, sealed or added. Still it only ever misses
what callers of the derived action could have given: what is fixed is not empty, since it is of the
types of its parameter, and what was added is at slots that the table of the native does not have.

* `Table.Gives`: a call gives an argument for the parameter of a name.
* `Action.Requires`: a parameter of an action that the native behind it requires.
* `Action.Misses`: the check of the native finds an argument of a call missing.
* `Action.Added`: the slots that augmentations have added.
* `RunsNative`: a run comes to a native function, and calls it.
* `Workshop.ReportsOmissions`: what calls are told that leave arguments out.

Results:
* `cell_eq_none_iff`: the cell of a required parameter is empty if no argument is given for it.
* `Misses.suppliable`: what is missing could have been given.
* `omissions_reported`: **a missing argument is always one that the caller could have supplied**.
-/

namespace ActionKit

/-! ## Arguments that are given -/

/-- A call gives an argument for the parameter of a name, by position or by name. -/
def Table.Gives (table : Table) (positional : List Value) (named : List (Symbol × Value))
    (name : Symbol) : Prop :=
  name ∈ table.positional.take positional.length ∨ name ∈ named.map (·.1)

/-- **The cell of a required parameter is empty exactly if no argument is given for it.** -/
theorem cell_eq_none_iff {action : Action} (hwf : action.table.WellFormed)
    {positional : List Value} {named : List (Symbol × Value)} {frame : Frame}
    (h : fulfil action positional named = .ok frame) {slot : Nat} {entry : Entry} (h0 : slot ≠ 0)
    (hentry : action.table.entries[slot]? = some entry) (hrequired : entry.Required) :
    frame.cell slot = .none ↔ ¬ action.table.Gives positional named entry.name := by
  obtain ⟨types, hcontent, hrefuses⟩ := hrequired
  have hgives : action.table.Gives positional named entry.name ↔
      entry.name ∈ (action.table.pairing positional named).map (·.1) := by
    rw [Table.pairing_names (fulfil_ok h).1, List.mem_append]
    rfl
  have hcell := cell_fulfil hwf h h0 hentry
  rw [hgives]
  cases hlookup : (action.table.pairing positional named).reverse.lookup entry.name with
  | none =>
    have hinitial : entry.initialCell = .none := by
      unfold Entry.initialCell
      rw [hcontent]
    rw [hlookup, hinitial] at hcell
    refine iff_of_true hcell fun hmem => ?_
    obtain ⟨pair, hpair, hname⟩ := List.mem_map.mp hmem
    have hne := List.lookup_eq_none_iff.mp hlookup pair (List.mem_reverse.mpr hpair)
    simp [hname] at hne
  | some value =>
    rw [hlookup] at hcell
    have hpair := List.mem_reverse.mp (mem_of_lookup hlookup)
    refine iff_of_false (fun hnone => ?_) (not_not_intro (List.mem_map_of_mem hpair))
    -- An argument that was taken is of the types of its parameter, and these refuse `none`.
    obtain ⟨role, others, ho, hrole, hvalue⟩ :=
      fulfil_permits hwf h (Table.mem_body_iff.mpr ⟨slot, h0, hentry⟩) hpair
    obtain ⟨rfl, rfl⟩ := Content.unbound.inj (ho.content.symm.trans hcontent)
    rw [hcell] at hnone
    obtain rfl : value = .none := hnone
    rcases hvalue with haccepts | ⟨hrefinement, -⟩
    · rw [hrefuses] at haccepts
      cases haccepts
    · cases hrefinement

/-! ## What the native requires -/

namespace Action

/-- **A parameter of an action that the native behind it requires**: callers see it, it is filled by
position and does not take `none`, and the table of the native has its slot. -/
structure Requires (action : Action) (native : Table) (slot : Nat) (entry : Entry) : Prop where
  found : action.table.entries[slot]? = some entry
  exposed : entry.isExposed = true
  required : entry.Required
  own : slot < native.size

/-- The check of the native finds an argument of a call missing: the arguments that are there were
all taken. -/
def Misses (action : Action) (native : Table) (positional : List Value)
    (named : List (Symbol × Value)) (name : Symbol) : Prop :=
  ∃ frame, fulfil action positional named = .ok frame ∧ missing? native frame.cell = some name

/-- The slots that the augmentations among the derivations of an action have added. -/
def Added : Action → Nat → Prop
  | .derived face .augmented source, slot =>
    source.table.size ≤ slot ∧ slot < face.table.size ∨ source.Added slot
  | .derived _ .specialized source, slot => source.Added slot
  | _, _ => False

variable {action : Action} {native : Table} {positional : List Value}
  {named : List (Symbol × Value)}

theorem Requires.slot_ne_zero {slot : Nat} {entry : Entry} (h : action.Requires native slot entry)
    (hwf : action.table.WellFormed) : slot ≠ 0 := by
  rintro rfl
  obtain ⟨types, hcontent, -⟩ := h.required
  have hentry := h.found
  rw [hwf.layout.getElem?_zero] at hentry
  obtain rfl := Option.some.inj hentry
  cases hcontent

/-- What an action leaves open of what the native requires is required by the native. -/
theorem Requires.native_required {slot : Nat} {entry : Entry}
    (h : action.Requires native slot entry) (hnarrows : native.Narrows action.table) :
    ∃ own, native.entries[slot]? = some own ∧ own.Required := by
  have hown : native.entries[slot]? = some _ := List.getElem?_eq_getElem h.own
  obtain ⟨other, hother, hentry⟩ := hnarrows.slots slot _ hown
  obtain rfl := Option.some.inj (hother.symm.trans h.found)
  obtain ⟨types, hcontent, hrefuses⟩ := h.required
  refine ⟨_, hown, types, ?_, hrefuses⟩
  rcases hentry.content with hsame | ⟨_, _, _, -, -, -, hfixed⟩
  · exact hsame.symm.trans hcontent
  · rw [hcontent] at hfixed
    cases hfixed

/-- **What is missing could have been given**, and all that is required before it was given. -/
theorem Misses.suppliable {name : Symbol} (h : action.Misses native positional named name)
    (hwf : action.table.WellFormed) (hnarrows : native.Narrows action.table) :
    ∃ slot entry, action.Requires native slot entry ∧ entry.name = name ∧
      ¬ action.table.Gives positional named name ∧
      ∀ (i : Nat) (e : Entry), i < slot → action.Requires native i e →
        action.table.Gives positional named e.name := by
  obtain ⟨frame, hfulfil, hmissing⟩ := h
  obtain ⟨slot, own, h0, hown, ⟨types, hcontent, hrefuses⟩, hempty, rfl, hearlier⟩ :=
    missing?_some hmissing
  obtain ⟨entry, hentry, hnarrow⟩ := hnarrows.slots slot own hown
  -- A value that the parameter was fixed to would be of its types, and so not `none`.
  have hopen : entry.content = .unbound .normal types := by
    rcases hnarrow.content with hsame | ⟨role, others, value, hbefore, -, haccepts, hfixed⟩
    · exact hsame.trans hcontent
    · obtain ⟨-, rfl⟩ := Content.unbound.inj (hbefore.symm.trans hcontent)
      have hfits := (fulfil_built hfulfil).fits hentry
      unfold Entry.Fits at hfits
      rw [hfixed, hempty] at hfits
      rw [← hfits, hrefuses] at haccepts
      cases haccepts
  have hrequires : action.Requires native slot entry :=
    ⟨hentry, Entry.Open.isExposed ⟨hopen, hwf.unsealed hentry hopen⟩, ⟨types, hopen, hrefuses⟩,
      (List.getElem?_eq_some_iff.mp hown).1⟩
  refine ⟨slot, entry, hrequires, hnarrow.name, ?_, fun i e hlt he => ?_⟩
  · rw [← hnarrow.name]
    exact (cell_eq_none_iff hwf hfulfil h0 hentry hrequires.required).mp hempty
  · have hi := he.slot_ne_zero hwf
    obtain ⟨before, hbefore, hrequired⟩ := he.native_required hnarrows
    by_contra hleft
    exact hearlier i before hi hlt hbefore hrequired
      ((cell_eq_none_iff hwf hfulfil hi he.found he.required).mpr hleft)

/-- Callers see what is missing, and the native has it. -/
theorem Misses.entry {slot : Nat} {entry : Entry} (h0 : slot ≠ 0)
    (hentry : action.table.entries[slot]? = some entry)
    (h : action.Misses native positional named entry.name) (hwf : action.table.WellFormed)
    (hnarrows : native.Narrows action.table) : entry.isExposed = true ∧ slot < native.size := by
  obtain ⟨own, other, hrequires, hname, -⟩ := h.suppliable hwf hnarrows
  obtain rfl := Table.slot_unique hwf.distinct (hrequires.slot_ne_zero hwf) h0 hrequires.found
    hentry hname
  obtain rfl := Option.some.inj (hrequires.found.symm.trans hentry)
  exact ⟨hrequires.exposed, hrequires.own⟩

end Action

/-! ## Where reports come from -/

theorem Frame.allow_ne_missing (entry : Entry) (name : Symbol) (value : Value) (other : Symbol) :
    Frame.allow entry name value ≠ .error (.missingArgument other) := by
  have hchecked : ∀ (test : Bool) (types : Constraint),
      (if test then .ok () else .error (.typeMismatch name value types) : Except CallError Unit) ≠
        .error (.missingArgument other) := by
    intro test types
    cases test <;> simp
  unfold Frame.allow Frame.permit
  by_cases hexposed : entry.isExposed = true
  · rw [if_pos hexposed]
    cases entry.content with
    | header => simp
    | fixed fixed => simp
    | unbound role types =>
      cases role with
      | output => simp
      | normal => exact hchecked _ types
      | refinement => exact hchecked _ types
  · rw [if_neg hexposed]
    simp

/-- Arguments that are there are never refused for being missing. -/
theorem fulfil_ne_missing (action : Action) (positional : List Value)
    (named : List (Symbol × Value)) (name : Symbol) :
    fulfil action positional named ≠ .error (.missingArgument name) := by
  intro h
  rcases Nat.lt_or_ge action.table.positional.length positional.length with hlt | hle
  · rw [fulfil_of_lt hlt] at h
    cases h
  · rw [fulfil_of_le hle] at h
    obtain ⟨pair, -, hplace⟩ := Frame.setAll_error h
    unfold Table.place at hplace
    split at hplace
    · cases hplace
    · next entry slot hfind =>
      cases hallow : Frame.allow entry pair.1 pair.2 with
      | error error =>
        rw [hallow] at hplace
        obtain rfl := Except.error.inj hplace
        exact Frame.allow_ne_missing entry pair.1 pair.2 name hallow
      | ok _ =>
        rw [hallow] at hplace
        cases hplace

/-- **A run calls a native function**: one of its phases is the native, and nothing that the
native requires is missing. -/
def RunsNative (lineage : Lineage) (frame : Frame) (face : Face) (function : Native)
    (binding : Binding) (call : Call) : Prop :=
  ∃ phase ∈ trail lineage frame, phase.root.phase = .native face function binding ∧
    missing? face.table phase.cell = none ∧ call = phase.toCall lineage face

namespace Workshop

variable {w : Workshop} {action : Action} {face : Face} {function : Native} {binding : Binding}
  {frame : Frame}

theorem Sound.invoke_of_missing (hw : w.Sound) (ha : action ∈ w.actions)
    (horigin : action.origin = .native face function binding) (hroot : frame.root = action.root)
    {name : Symbol} (hmissing : missing? face.table frame.cell = some name) :
    w.invoke frame = .error (.missingArgument name) := by
  rw [hw.invoke_eq_native ha horigin hroot]
  unfold Native.answer
  rw [hmissing]

/-- **A run calls the native that its action comes from**, if nothing is missing. -/
theorem Sound.runs_of_none_missing (hw : w.Sound) (ha : action ∈ w.actions)
    (horigin : action.origin = .native face function binding) (hroot : frame.root = action.root)
    (hmissing : missing? face.table frame.cell = none) :
    RunsNative w.lineage frame face function binding (frame.handed w.lineage face binding) := by
  have hlast := List.mem_of_getLast? (hw.dispatch_origin ha hroot).1
  rw [horigin] at hlast
  exact ⟨_, hlast, rfl, hmissing, rfl⟩

/-- What augmentations add, the native does not have. -/
theorem Sound.size_le_of_added (hw : w.Sound) (ha : action ∈ w.actions) {slot : Nat}
    (hadded : action.Added slot) : action.origin.table.size ≤ slot := by
  refine hw.induction
    (motive := fun action => action.Added slot → action.origin.table.size ≤ slot) ?_ ?_ ?_ action
    ha hadded
  · exact fun _ _ _ _ _ hnone => hnone.elim
  · exact fun _ _ _ _ hnone => hnone.elim
  · intro face derivation source _ hacc ih hslot
    cases derivation with
    | specialized => exact ih hslot
    | augmented =>
      rcases hslot with ⟨hle, -⟩ | hslot
      · exact Nat.le_trans (hw.origin_narrows hacc.2.1).size_le hle
      · exact ih hslot

/-- **What calls are told that leave arguments out**, of an action with a native behind it. -/
structure ReportsOmissions (w : Workshop) (action : Action) (face : Face) (function : Native)
    (binding : Binding) (positional : List Value) (named : List (Symbol × Value)) : Prop where
  /-- What the check finds missing is what the caller is told. -/
  reported : ∀ name, action.Misses face.table positional named name →
    w.call action positional named = .error (.missingArgument name)
  /-- A report comes from the check, unless the native itself makes it. -/
  sources : ∀ name, w.call action positional named = .error (.missingArgument name) →
    action.Misses face.table positional named name ∨
      ∃ frame call, fulfil action positional named = .ok frame ∧
        RunsNative w.lineage frame face function binding call ∧
        function.run call = .error (.missingArgument name)
  /-- What is missing could have been given and was not, and all that is required before it was. -/
  suppliable : ∀ name, action.Misses face.table positional named name →
    ∃ slot entry, action.Requires face.table slot entry ∧ entry.name = name ∧
      ¬ action.table.Gives positional named name ∧
      ∀ (i : Nat) (e : Entry), i < slot → action.Requires face.table i e →
        action.table.Gives positional named e.name
  /-- What callers do not see is never missing. -/
  hidden : ∀ entry ∈ action.table.body, entry.isExposed = false →
    ¬ action.Misses face.table positional named entry.name
  /-- What augmentations have added is never missing. -/
  added : ∀ (slot : Nat) (entry : Entry), action.table.entries[slot]? = some entry →
    action.Added slot → ¬ action.Misses face.table positional named entry.name
  /-- If all that is required is given, nothing is missing, and the native is run. -/
  complete : ∀ frame, fulfil action positional named = .ok frame →
    (∀ (slot : Nat) (entry : Entry), action.Requires face.table slot entry →
      action.table.Gives positional named entry.name) →
    (∀ name, ¬ action.Misses face.table positional named name) ∧
      ∃ call, RunsNative w.lineage frame face function binding call

/-- **A missing argument is always one that the caller could have supplied.** -/
theorem omissions_reported (hw : w.Reachable) (ha : action ∈ w.actions)
    (horigin : action.origin = .native face function binding) (positional : List Value)
    (named : List (Symbol × Value)) :
    w.ReportsOmissions action face function binding positional named := by
  have hwf := hw.sound.wellFormed ha
  have hnarrows := hw.sound.origin_narrows ha
  have horiginal := hw.sound.wellFormed (hw.sound.origin_mem ha)
  rw [horigin] at hnarrows horiginal
  have hreported : ∀ name, action.Misses face.table positional named name →
      w.call action positional named = .error (.missingArgument name) := by
    rintro name ⟨frame, hfulfil, hmissing⟩
    rw [call_eq_fulfil, hfulfil]
    exact hw.sound.invoke_of_missing ha horigin (fulfil_built hfulfil).root hmissing
  refine ⟨hreported, ?_, fun name h => h.suppliable hwf hnarrows, ?_, ?_, ?_⟩
  · intro name hreport
    rw [call_eq_fulfil] at hreport
    cases hfulfil : fulfil action positional named with
    | error error =>
      rw [hfulfil] at hreport
      obtain rfl := Except.error.inj hreport
      exact absurd hfulfil (fulfil_ne_missing action positional named name)
    | ok frame =>
      rw [hfulfil] at hreport
      cases hmissing : missing? face.table frame.cell with
      | some other =>
        have hother := hw.sound.invoke_of_missing ha horigin (fulfil_built hfulfil).root hmissing
        obtain rfl := CallError.missingArgument.inj (Except.error.inj (hreport.symm.trans hother))
        exact .inl ⟨frame, hfulfil, hmissing⟩
      | none =>
        have hroot := (fulfil_built hfulfil).root
        have hruns := hw.sound.runs_of_none_missing ha horigin hroot hmissing
        replace hreport := (hw.sound.invoke_eq_native ha horigin hroot).symm.trans hreport
        rcases Native.answer_error hreport with ⟨_, hother, -⟩ | ⟨_, _, hmismatch⟩ | ⟨-, hown⟩
        · cases hmissing.symm.trans hother
        · cases hmismatch
        · exact .inr ⟨frame, _, rfl, hruns, hown⟩
  · intro entry hentry hhidden hmisses
    obtain ⟨slot, h0, hslot⟩ := Table.mem_body_iff.mp hentry
    rw [(hmisses.entry h0 hslot hwf hnarrows).1] at hhidden
    cases hhidden
  · intro slot entry hentry hadded hmisses
    have hle := hw.sound.size_le_of_added ha hadded
    rw [horigin] at hle
    have h0 : slot ≠ 0 := Nat.ne_of_gt (Nat.lt_of_lt_of_le horiginal.layout.pos hle)
    exact absurd (hmisses.entry h0 hentry hwf hnarrows).2 (Nat.not_lt.mpr hle)
  · intro frame hfulfil hgiven
    have hnone : ∀ name, ¬ action.Misses face.table positional named name := by
      intro name hmisses
      obtain ⟨slot, entry, hrequires, rfl, hleft, -⟩ := hmisses.suppliable hwf hnarrows
      exact hleft (hgiven slot entry hrequires)
    refine ⟨hnone, _, hw.sound.runs_of_none_missing ha horigin (fulfil_built hfulfil).root ?_⟩
    exact Option.eq_none_iff_forall_ne_some.mpr fun name hmissing =>
      hnone name ⟨frame, hfulfil, hmissing⟩

theorem add_omits : (fresh.trial 0 fun made add =>
    match made.specialize add [(⟨3⟩, .integer 1)] with
    | (.ok narrow, w₁) =>
      match w₁.augment narrow [.word ⟨98⟩] none with
      | (.ok action, w₂) =>
        match action.origin with
        | .native face _ _ =>
          match fulfil action [] [(⟨98⟩, .logic true)] with
          | .ok frame => some (missing? face.table frame.cell,
              (w₂.call action [.integer 2] []).toOption)
          | .error _ => none
        | _ => none
      | (.error _, _) => none
    | (.error _, _) => none) = some (some ⟨4⟩, some (.integer 3)) := by
  decide +kernel

/-- Addition with its first summand fixed and a parameter more. The second summand is missing where
only the new parameter is given; where it is given, the new one is not missing. -/
theorem omissions_reported_add : ∃ (w : Workshop) (action : Action) (face : Face)
    (function : Native) (binding : Binding), w.Reachable ∧ action ∈ w.actions ∧
      action.origin = .native face function binding ∧
      action.Misses face.table [] [(⟨98⟩, .logic true)] ⟨4⟩ ∧
      w.ReportsOmissions action face function binding [] [(⟨98⟩, .logic true)] ∧
      w.ReportsOmissions action face function binding [.integer 2] [] ∧
      (w.call action [.integer 2] []).toOption = some (.integer 3) := by
  obtain ⟨made, -, hfresh, add, hmem, hmatch⟩ := exists_of_trial add_omits
  split at hmatch
  · next narrow w₁ hnarrow =>
    obtain ⟨hw₁, own₁⟩ := hfresh.specialize hmem hnarrow
    split at hmatch
    · next action w₂ haction =>
      obtain ⟨hw₂, own₂⟩ := hw₁.augment own₁ haction
      split at hmatch
      · next face function binding horigin =>
        split at hmatch
        · next frame hfulfil =>
          obtain ⟨hmissing, hresult⟩ := Prod.mk.inj (Option.some.inj hmatch)
          exact ⟨w₂, action, face, function, binding, hw₂, own₂, horigin,
            ⟨frame, hfulfil, hmissing⟩, omissions_reported hw₂ own₂ horigin _ _,
            omissions_reported hw₂ own₂ horigin _ _, hresult⟩
        · cases hmatch
      · cases hmatch
    · cases hmatch
  · cases hmatch

end Workshop

end ActionKit
