import ActionKit.Proofs.Reach
import ActionKit.Proofs.Refusal

/-!
# Merging a spec into a table

An augmentation has the parameters of its source and those that a spec declares. The spec is read
first and the names are compared last, so a spec that is out of order is refused for that, whatever
names it declares. Names that are fixed or sealed in the source are taken all the same.

* `DeclaresInputs`: a spec in the grammar that does not declare the output.
* `FirstRepeat`: the name whose repetition comes first in a list.
* `Table.merge`: what augmenting a table by a spec comes to.
* `Workshop.Merges`: what augmenting an action by a spec comes to.

Results:
* `augment_fst`: augmenting an action is merging the spec into its table.
* `merge_of_declaresInputs`: the merged table, or the first name that is repeated in it.
* `merge_of_not_declarable`: any other spec is refused for its first offence.
* `augment_merges`: exactly the specs that fit are merged, and all others are refused for the first
  thing that is wrong with them.
-/

namespace ActionKit

/-- A spec in the grammar that does not declare the output. -/
def DeclaresInputs (description : Option Bytes) (groups : List Group) (spec : List Value) : Prop :=
  Specifies description groups spec ∧ ∀ group ∈ groups, group.head ≠ .output

/-- Where no output is declared, none is forbidden. -/
theorem OutputsAllowed.of_absent {outputSlot : Option Nat} {groups : List Group}
    (h : ∀ group ∈ groups, group.head ≠ .output) : OutputsAllowed outputSlot groups := by
  refine ⟨?_, fun _ => h⟩
  rw [List.countP_eq_zero.mpr fun group hgroup => by simpa using h group hgroup]
  exact Nat.zero_le 1

/-- Behind an output, a spec may declare inputs only. -/
theorem declarable_iff {outputSlot : Option Nat} (hslot : outputSlot.isSome = true)
    {spec : List Value} :
    Declarable outputSlot spec ↔ ∃ text groups, DeclaresInputs text groups spec := by
  constructor
  · rintro ⟨text, groups, hspec, hallowed⟩
    exact ⟨text, groups, hspec, hallowed.absent hslot⟩
  · rintro ⟨text, groups, hspec, habsent⟩
    exact ⟨text, groups, hspec, .of_absent habsent⟩

/-! ## Repeated names -/

/-- **The name whose repetition comes first** in a list: all before it differ, and it is one of
them. -/
def FirstRepeat (names : List Symbol) (name : Symbol) : Prop :=
  ∃ before after, names = before ++ name :: after ∧ before.Nodup ∧ name ∈ before

theorem firstRepeatedAfter_eq_some {seen names : List Symbol} {name : Symbol}
    (h : firstRepeatedAfter seen names = some name) :
    ∃ before after, names = before ++ name :: after ∧ before.Nodup ∧
      (∀ other ∈ before, other ∉ seen) ∧ (name ∈ before ∨ name ∈ seen) := by
  induction names generalizing seen with
  | nil => cases h
  | cons first rest ih =>
    unfold firstRepeatedAfter at h
    split at h
    · next hseen =>
      obtain rfl := Option.some.inj h
      exact ⟨[], rest, rfl, List.nodup_nil, fun _ hmem => absurd hmem List.not_mem_nil, .inr hseen⟩
    · next hseen =>
      obtain ⟨before, after, rfl, hnodup, hnew, hname⟩ := ih h
      refine ⟨first :: before, after, rfl, ?_, ?_, ?_⟩
      · exact List.nodup_cons.mpr ⟨fun hmem => hnew first hmem List.mem_cons_self, hnodup⟩
      · intro other hother
        rcases List.mem_cons.mp hother with rfl | hmem
        · exact hseen
        · exact fun hold => hnew other hmem (List.mem_cons_of_mem _ hold)
      · rcases hname with hmem | hmem
        · exact .inl (List.mem_cons_of_mem _ hmem)
        · rcases List.mem_cons.mp hmem with rfl | hold
          · exact .inl List.mem_cons_self
          · exact .inr hold

theorem firstRepeated_eq_some {names : List Symbol} {name : Symbol}
    (h : firstRepeated names = some name) : FirstRepeat names name := by
  obtain ⟨before, after, hnames, hnodup, -, hname⟩ := firstRepeatedAfter_eq_some h
  exact ⟨before, after, hnames, hnodup, hname.resolve_right List.not_mem_nil⟩

/-! ## Merging -/

namespace Table

/-- What a spec is declared behind: the parameters of a table, with those that are fixed sealed. -/
def sealing (table : Table) : Declaring :=
  { entries := .header :: table.body.map (·.sealFixed), outputSlot := table.outputSlot }

/-- **What augmenting a table by a spec comes to.** The description is that of the spec, or the one
that there was. -/
def merge (table : Table) (description : Option Bytes) (spec : List Value) :
    Except BuildError Finished :=
  match table.sealing.items 0 spec with
  | (.error error, _) => .error error
  | (.ok (), state) =>
    match firstRepeated ((state.entries.drop 1).map (·.name)) with
    | some name => .error (.duplicateParameter name)
    | none => .ok ⟨state.entries, state.outputSlot, state.description <|> description⟩

/-- What there is to a table with groups behind its parameters, and those that are fixed sealed. -/
def merged (table : Table) (groups : List Group) (description : Option Bytes) : Finished :=
  ⟨.header :: (table.body.map (·.sealFixed) ++ groups.map (·.entry)), table.outputSlot, description⟩

/-- The names of a table and of groups behind its parameters, in order. -/
def namesWith (table : Table) (groups : List Group) : List Symbol :=
  table.body.map (·.name) ++ groups.map (·.head.name)

/-- **Groups that a table takes in**: no name is declared twice, and none is that of a parameter
already, be it exposed, fixed or sealed. The header is no parameter. -/
structure TakesIn (table : Table) (groups : List Group) : Prop where
  distinct : (groups.map (·.head.name)).Nodup
  new : ∀ group ∈ groups, ∀ entry ∈ table.body, group.head.name ≠ entry.name

variable {table : Table} {text : Option Bytes} {groups : List Group} {spec : List Value}

theorem takesIn_iff (hwf : table.WellFormed) :
    table.TakesIn groups ↔ (table.namesWith groups).Nodup := by
  unfold namesWith
  rw [List.nodup_append]
  constructor
  · rintro ⟨hdistinct, hnew⟩
    refine ⟨hwf.distinct, hdistinct, fun name hname other hother => ?_⟩
    obtain ⟨entry, hentry, rfl⟩ := List.mem_map.mp hname
    obtain ⟨group, hgroup, rfl⟩ := List.mem_map.mp hother
    exact (hnew group hgroup entry hentry).symm
  · rintro ⟨-, hdistinct, hnew⟩
    exact ⟨hdistinct, fun group hgroup entry hentry =>
      (hnew _ (List.mem_map_of_mem hentry) _ (List.mem_map_of_mem hgroup)).symm⟩

/-- **The merged table**, or the first name that is repeated in it. -/
theorem merge_of_declaresInputs (h : DeclaresInputs text groups spec)
    (description : Option Bytes) : table.merge description spec =
      match firstRepeated (table.namesWith groups) with
      | some name => .error (.duplicateParameter name)
      | none => .ok (table.merged groups (text <|> description)) := by
  obtain ⟨hspec, habsent⟩ := h
  have hitems : table.sealing.items 0 spec =
      (.ok (), groups.foldl Declaring.group (table.sealing.describe text)) :=
    Declaring.items_specifies rfl rfl hspec (.of_absent habsent)
  have hnames : (table.body.map (·.sealFixed) ++ groups.map (·.entry)).map (·.name) =
      table.namesWith groups := by
    rw [List.map_append, List.map_map, List.map_map]
    refine congrArg (· ++ groups.map (·.head.name)) ?_
    exact List.map_congr_left fun entry _ => entry.name_sealFixed
  unfold merge
  simp only [hitems, Declaring.entries_groups, Declaring.description_groups,
    Declaring.outputSlot_groups_of_absent habsent]
  rw [← hnames]
  rfl

/-- **Any other spec is refused for its first offence**, and there is one error for that. -/
theorem merge_of_not_declarable (h : ¬ Declarable table.outputSlot spec)
    (description : Option Bytes) :
    ∃ error, table.merge description spec = .error error ∧
      ∀ other, FirstOffence table.outputSlot spec other ↔ other = error := by
  have hok : (table.sealing.items 0 spec).1 = .ok () ↔ Declarable table.outputSlot spec :=
    Declaring.items_ok_iff rfl rfl
  have herror : ∀ {error}, (table.sealing.items 0 spec).1 = .error error ↔
      FirstOffence table.outputSlot spec error := Declaring.items_error_iff rfl rfl
  unfold merge
  cases hitems : table.sealing.items 0 spec with
  | mk result state =>
    rw [hitems] at hok herror
    cases result with
    | ok _ => exact absurd (hok.mp rfl) h
    | error error =>
      refine ⟨error, rfl, fun other => herror.symm.trans ?_⟩
      rw [Except.error.injEq, eq_comm]

end Table

namespace Workshop

/-! ## Augmenting -/

/-- The action that a finished draft augments another one to. -/
def augmentation (w : Workshop) (source : Action) (label : Option Symbol) (finished : Finished) :
    Action :=
  .derived
    { id := w.nextId, table := finished.toTable ⟨w.lineage.next⟩, label := label <|> source.label,
      description := finished.description } .augmented source

/-- **Augmenting an action is merging the spec into its table.** -/
theorem augment_fst (w : Workshop) (source : Action) (spec : List Value) (label : Option Symbol) :
    (w.augment source spec label).1 =
      (source.table.merge source.description spec).map (w.augmentation source label) := by
  have hcopy := (Draft.start_shows w.scratch).copy source.table .sealFixed
  have hslot : (source.table.outputSlot <|> none) = source.table.outputSlot := by
    cases source.table.outputSlot <;> rfl
  rw [hslot] at hcopy
  have hrun : source.table.sealing.run spec false = source.table.sealing.items 0 spec :=
    Declaring.run_false _ _
  have hfst : (((Draft.start w.scratch).copy source.table .sealFixed).declare spec false).1 =
      (source.table.sealing.items 0 spec).1 :=
    (hcopy.declare_fst spec false).trans (congrArg Prod.fst hrun)
  unfold augment Workshop.draft Table.merge
  cases hdeclare : ((Draft.start w.scratch).copy source.table .sealFixed).declare spec false with
  | mk result declared =>
    cases result with
    | error error =>
      cases hitems : source.table.sealing.items 0 spec with
      | mk refused state =>
        rw [hdeclare, hitems] at hfst
        obtain rfl : Except.error error = refused := hfst
        simp only [hdeclare]
        rfl
    | ok _ =>
      obtain ⟨state, hstate, hshows⟩ := hcopy.declare hdeclare
      have hitems : source.table.sealing.items 0 spec = (.ok (), state) := hrun.symm.trans hstate
      have hfinish := (hshows.inherit source.description).finish_fst
      simp only [hdeclare, hitems]
      cases hf : (declared.inherit source.description).finish with
      | mk result scratch =>
        rw [hf] at hfinish
        obtain rfl : result = _ := hfinish
        cases firstRepeated ((state.entries.drop 1).map (·.name)) with
        | some name => rfl
        | none => cases state.description <;> rfl

/-- **What augmenting an action by a spec comes to.** -/
structure Merges (w : Workshop) (source : Action) (spec : List Value) (label : Option Symbol) :
    Prop where
  /-- The spec has to be in the grammar without an output, and its names have to be new. -/
  accepted_iff : (∃ action, (w.augment source spec label).1 = .ok action) ↔
    ∃ text groups, DeclaresInputs text groups spec ∧ source.table.TakesIn groups
  /-- All parameters of the source come first, those that are fixed are sealed, and what the spec
  declares comes behind them. The description is that of the spec, or else that of the source. -/
  merged : ∀ action, (w.augment source spec label).1 = .ok action →
    ∀ text groups, DeclaresInputs text groups spec →
      action.table =
        { id := ⟨w.lineage.next⟩
          entries := .header :: (source.table.body.map (·.sealFixed) ++ groups.map (·.entry))
          outputSlot := source.table.outputSlot } ∧
      action.description = (text <|> source.description)
  /-- A spec that is out of order is refused for the first item that is, whatever its names. -/
  offending : (¬ ∃ text groups, DeclaresInputs text groups spec) →
    ∃ error, (w.augment source spec label).1 = .error error ∧
      ∀ other, FirstOffence source.table.outputSlot spec other ↔ other = error
  /-- Any other spec is refused for the first name that is repeated in the merged table. -/
  repeated : ∀ text groups, DeclaresInputs text groups spec → ¬ source.table.TakesIn groups →
    ∃ name, FirstRepeat (source.table.namesWith groups) name ∧
      (w.augment source spec label).1 = .error (.duplicateParameter name)

variable {w : Workshop} {source : Action} {spec : List Value} {text : Option Bytes}
  {groups : List Group}

/-- Names that all differ make an action with the merged table. -/
theorem augment_of_takesIn (hwf : source.table.WellFormed) (h : DeclaresInputs text groups spec)
    (hnew : source.table.TakesIn groups) (label : Option Symbol) :
    (w.augment source spec label).1 = .ok (w.augmentation source label
      (source.table.merged groups (text <|> source.description))) := by
  rw [augment_fst, Table.merge_of_declaresInputs h,
    firstRepeated_eq_none_iff.mpr ((Table.takesIn_iff hwf).mp hnew)]
  rfl

/-- Names that do not are refused for the first that is repeated. -/
theorem augment_of_not_takesIn (hwf : source.table.WellFormed)
    (h : DeclaresInputs text groups spec) (hold : ¬ source.table.TakesIn groups)
    (label : Option Symbol) : ∃ name, FirstRepeat (source.table.namesWith groups) name ∧
      (w.augment source spec label).1 = .error (.duplicateParameter name) := by
  cases hrepeated : firstRepeated (source.table.namesWith groups) with
  | none =>
    exact absurd ((Table.takesIn_iff hwf).mpr (firstRepeated_eq_none_iff.mp hrepeated)) hold
  | some name =>
    refine ⟨name, firstRepeated_eq_some hrepeated, ?_⟩
    rw [augment_fst, Table.merge_of_declaresInputs h, hrepeated]
    rfl

/-- A spec that is out of order is refused for its first offence. -/
theorem augment_of_not_declaresInputs (hwf : source.table.WellFormed)
    (h : ¬ ∃ text groups, DeclaresInputs text groups spec) (label : Option Symbol) :
    ∃ error, (w.augment source spec label).1 = .error error ∧
      ∀ other, FirstOffence source.table.outputSlot spec other ↔ other = error := by
  rw [← declarable_iff hwf.hasOutput] at h
  obtain ⟨error, hmerge, hoffence⟩ := Table.merge_of_not_declarable h source.description
  refine ⟨error, ?_, hoffence⟩
  rw [augment_fst, hmerge]
  rfl

/-- An action that is made has the merged table. -/
theorem augment_eq_ok (hwf : source.table.WellFormed) (h : DeclaresInputs text groups spec)
    {label : Option Symbol} {action : Action}
    (hok : (w.augment source spec label).1 = .ok action) :
    source.table.TakesIn groups ∧ action = w.augmentation source label
      (source.table.merged groups (text <|> source.description)) := by
  by_cases hnew : source.table.TakesIn groups
  · exact ⟨hnew, Except.ok.inj (hok.symm.trans (augment_of_takesIn hwf h hnew label))⟩
  · obtain ⟨name, -, herror⟩ := augment_of_not_takesIn (w := w) hwf h hnew label
    cases hok.symm.trans herror

/-- **Exactly the specs that fit are merged**, and all others are refused for the first thing that
is wrong with them. -/
theorem augment_merges (hw : w.Reachable) (own : source ∈ w.actions) (spec : List Value)
    (label : Option Symbol) : w.Merges source spec label := by
  have hwf := hw.sound.wellFormed own
  refine ⟨⟨?_, ?_⟩, ?_, ?_, ?_⟩
  · rintro ⟨action, hok⟩
    by_cases hspec : ∃ text groups, DeclaresInputs text groups spec
    · obtain ⟨text, groups, hspec⟩ := hspec
      exact ⟨text, groups, hspec, (augment_eq_ok hwf hspec hok).1⟩
    · obtain ⟨error, herror, -⟩ := augment_of_not_declaresInputs (w := w) hwf hspec label
      cases hok.symm.trans herror
  · rintro ⟨text, groups, hspec, hnew⟩
    exact ⟨_, augment_of_takesIn hwf hspec hnew label⟩
  · intro action hok text groups hspec
    obtain ⟨-, rfl⟩ := augment_eq_ok hwf hspec hok
    exact ⟨rfl, rfl⟩
  · exact fun hspec => augment_of_not_declaresInputs hwf hspec label
  · exact fun text groups hspec hold => augment_of_not_takesIn hwf hspec hold label

theorem add_sealed_made : (fresh.trial 0 fun made add =>
    match made.specialize add ((add.table.positional.drop 1).map (·, .integer 2)) with
    | (.ok specialized, w) =>
      match w.augment specialized [.word ⟨99⟩] none with
      | (.ok action, w) => (action.table.body.find? (·.isSealed)).map fun hidden =>
          let outcome (spec : List Value) : Except BuildError Unit :=
            (w.augment action spec none).1.map fun _ => ()
          decide (outcome [.refinement ⟨98⟩] = .ok () ∧
            outcome [.word ⟨98⟩, .word hidden.name] = .error (.duplicateParameter hidden.name) ∧
            outcome [.word hidden.name, .integer 5] =
              .error (.specItem 1 (.integer 5) .strayItem))
      | (.error _, _) => none
    | (.error _, _) => none) = some true := by
  decide +kernel

/-- Addition with its second number fixed and then sealed: the name of that number is still taken,
but an item that is out of place is found first. -/
theorem augment_merges_sealed : ∃ (w : Workshop) (source : Action) (hidden : Entry), w.Reachable ∧
    source ∈ w.actions ∧ hidden ∈ source.table.body ∧ hidden.isSealed = true ∧
      (∀ spec, w.Merges source spec none) ∧
      (w.augment source [.refinement ⟨98⟩] none).1.map (fun _ => ()) = .ok () ∧
      (w.augment source [.word ⟨98⟩, .word hidden.name] none).1.map (fun _ => ()) =
        .error (.duplicateParameter hidden.name) ∧
      (w.augment source [.word hidden.name, .integer 5] none).1.map (fun _ => ()) =
        .error (.specItem 1 (.integer 5) .strayItem) := by
  obtain ⟨made, -, hfresh, add, hmem, hmatch⟩ := exists_of_trial add_sealed_made
  split at hmatch
  · next specialized w₁ hspecialize =>
    have hw₁ := hfresh.leads (.specialize hmem hspecialize)
    rcases specialize_cases (hfresh.sound.wellFormed hmem) hspecialize with
      ⟨_, herror, -⟩ | ⟨face, hok, -, -, -, -, hgains⟩
    · cases herror
    obtain rfl := Except.ok.inj hok
    split at hmatch
    · next action w haugment =>
      have hw := hw₁.leads (.augment hgains.mem haugment)
      rcases augment_cases (hw₁.sound.wellFormed hgains.mem) haugment with
        ⟨_, herror, -⟩ | ⟨_, hok, -, -, -, hadded⟩
      · cases herror
      obtain rfl := Except.ok.inj hok
      obtain ⟨hidden, hfind, houtcomes⟩ := Option.map_eq_some_iff.mp hmatch
      exact ⟨w, _, hidden, hw, hadded.mem, List.mem_of_find?_eq_some hfind, List.find?_some hfind,
        fun spec => augment_merges hw hadded.mem spec none, of_decide_eq_true houtcomes⟩
    · cases hmatch
  · cases hmatch

end Workshop

end ActionKit
