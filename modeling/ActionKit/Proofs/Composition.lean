import ActionKit.Proofs.Merging
import ActionKit.Proofs.Paired

/-!
# Augmenting twice is augmenting once

An augmentation seals what is fixed in its source, declares what its spec says behind that, and
compares names in the end. Where the second of two specs starts a group of its own, doing so twice
comes to the same as doing so once, by the first spec and the second behind it.

* `StartsGroup`: a spec that is empty or starts with a word or a refinement.
* `Action.Coincides`: two actions with the same parameters, label and root.
* `Workshop.AugmentedTo`: an action was augmented to another one, at any time.
* `Workshop.Composes`: what augmenting by two specs has to do with augmenting by both.

Results:
* `Grouped.split`, `declaresInputs_append`: a spec can be cut where a group starts.
* `takesIn_append`, `merged_merged`: merging twice takes in the same names and makes the same
  table.
* `Coincides.call_eq`: actions that coincide give the same results.
* `augment_composes`: **augmentations compose**.
-/

namespace ActionKit

/-! ## Where a spec can be cut -/

/-- A spec that is empty or starts with a word or a refinement. -/
def StartsGroup (spec : List Value) : Prop :=
  ∀ value ∈ spec.head?, (∃ name, value = .word name) ∨ ∃ name, value = .refinement name

/-- What stands behind the head of a group starts no group. -/
theorem Group.Written.not_startsGroup {group : Group} {items : List Value} {value : Value}
    (h : group.Written items) (hvalue : value ∈ items.tail) (rest : List Value) :
    ¬StartsGroup (value :: rest) := by
  intro hstarts
  have hmem : value ∈ group.notesItems ++ group.typesItems := by
    rcases h with rfl | rfl
    · exact hvalue
    · exact List.mem_append.mpr (List.mem_append.mp hvalue).symm
  rcases List.mem_append.mp hmem with hmem | hmem <;> obtain ⟨_, -, rfl⟩ := List.mem_map.mp hmem <;>
    rcases hstarts _ rfl with ⟨_, hname⟩ | ⟨_, hname⟩ <;> cases hname

/-- **Groups can be cut where one starts.** -/
theorem Grouped.split {groups : List Group} {first second : List Value}
    (h : Grouped groups (first ++ second)) (hstarts : StartsGroup second) :
    ∃ before after, groups = before ++ after ∧ Grouped before first ∧ Grouped after second := by
  generalize hitems : first ++ second = items at h
  induction h generalizing first with
  | nil =>
    obtain ⟨rfl, rfl⟩ := List.append_eq_nil_iff.mp hitems
    exact ⟨[], [], rfl, .nil, .nil⟩
  | @cons group own groups rest written others ih =>
    cases first with
    | nil =>
      rw [List.nil_append] at hitems
      exact ⟨[], group :: groups, rfl, .nil, hitems ▸ .cons written others⟩
    | cons value first =>
      rcases List.append_eq_append_iff.mp hitems with ⟨more, hown, hsecond⟩ | ⟨more, hfirst, hrest⟩
      · -- The cut lies in the first group, which is possible only at its end.
        cases more with
        | nil =>
          rw [List.append_nil] at hown
          exact ⟨[group], groups, rfl, by simpa [hown] using Grouped.cons written .nil,
            hsecond ▸ others⟩
        | cons item more =>
          rw [hsecond] at hstarts
          exact absurd hstarts (written.not_startsGroup (by simp [hown]) _)
      · obtain ⟨before, after, rfl, hbefore, hafter⟩ := ih hrest.symm
        exact ⟨group :: before, after, rfl, hfirst ▸ .cons written hbefore, hafter⟩

/-- A spec that starts a group has no text in front. -/
theorem StartsGroup.description_eq {spec : List Value} (hstarts : StartsGroup spec)
    {description : Option Bytes} {groups : List Group} (h : Specifies description groups spec) :
    description = none := by
  obtain ⟨items, -, rfl⟩ := h
  cases description with
  | none => rfl
  | some text => rcases hstarts _ rfl with ⟨_, hname⟩ | ⟨_, hname⟩ <;> cases hname

/-- **A spec can be cut where a group starts**, and put together from its parts. -/
theorem declaresInputs_append {first second : List Value} (hstarts : StartsGroup second)
    {description : Option Bytes} {groups : List Group} :
    DeclaresInputs description groups (first ++ second) ↔
      ∃ before after, groups = before ++ after ∧ DeclaresInputs description before first ∧
        DeclaresInputs none after second := by
  constructor
  · rintro ⟨⟨items, hgrouped, hitems⟩, habsent⟩
    -- The text, if there is one, belongs to the first part.
    have hcut : ∃ others, items = others ++ second ∧
        first = description.toList.map .text ++ others := by
      rcases List.append_eq_append_iff.mp hitems with ⟨more, htext, hsecond⟩ | ⟨more, hfirst, hrest⟩
      · cases more with
        | nil => exact ⟨[], hsecond.symm, by rw [htext, List.append_nil, List.append_nil]⟩
        | cons item more =>
          have hmem : item ∈ description.toList.map Value.text := by simp [htext]
          obtain ⟨text, -, rfl⟩ := List.mem_map.mp hmem
          rcases hstarts (.text text) (by simp [hsecond]) with ⟨_, hname⟩ | ⟨_, hname⟩ <;>
            cases hname
      · exact ⟨more, hrest, hfirst⟩
    obtain ⟨others, rfl, rfl⟩ := hcut
    obtain ⟨before, after, rfl, hbefore, hafter⟩ := hgrouped.split hstarts
    refine ⟨before, after, rfl, ⟨⟨others, hbefore, rfl⟩, ?_⟩, ⟨⟨second, hafter, rfl⟩, ?_⟩⟩
    · exact fun group hgroup => habsent group (List.mem_append_left _ hgroup)
    · exact fun group hgroup => habsent group (List.mem_append_right _ hgroup)
  · rintro ⟨before, after, rfl, ⟨⟨items, hbefore, rfl⟩, habsent⟩, ⟨_, hafter, rfl⟩, habsent'⟩
    refine ⟨⟨items ++ second, hbefore.append hafter, ?_⟩, fun group hgroup => ?_⟩
    · rw [List.append_assoc]
    · rcases List.mem_append.mp hgroup with hgroup | hgroup
      · exact habsent group hgroup
      · exact habsent' group hgroup

/-! ## Merging twice -/

theorem Entry.sealFixed_sealFixed (entry : Entry) :
    entry.sealFixed.sealFixed = entry.sealFixed := by
  obtain ⟨name, content, typeNotes, docNotes, isSealed⟩ := entry
  cases content <;> rfl

/-- What a spec declares is open, so there is nothing to seal. -/
theorem Group.sealFixed_entry (group : Group) : group.entry.sealFixed = group.entry := rfl

namespace Table

variable {table : Table} {before after : List Group} {description : Option Bytes} {id : TableId}

/-- The parameters of a merged table. -/
theorem body_merged : ((table.merged before description).toTable id).body =
    table.body.map (·.sealFixed) ++ before.map (·.entry) := rfl

/-- **Merging twice takes in the same names** as merging once. -/
theorem takesIn_append : table.TakesIn (before ++ after) ↔ table.TakesIn before ∧
    ((table.merged before description).toTable id).TakesIn after := by
  constructor
  · rintro ⟨hdistinct, hnew⟩
    rw [List.map_append, List.nodup_append] at hdistinct
    refine ⟨⟨hdistinct.1, fun group hgroup => hnew group (List.mem_append_left _ hgroup)⟩,
      hdistinct.2.1, fun group hgroup entry hentry => ?_⟩
    rw [body_merged] at hentry
    rcases List.mem_append.mp hentry with hentry | hentry
    · obtain ⟨old, hold, rfl⟩ := List.mem_map.mp hentry
      rw [Entry.name_sealFixed]
      exact hnew group (List.mem_append_right _ hgroup) old hold
    · obtain ⟨declared, hdeclared, rfl⟩ := List.mem_map.mp hentry
      exact (hdistinct.2.2 _ (List.mem_map_of_mem hdeclared) _ (List.mem_map_of_mem hgroup)).symm
  · rintro ⟨⟨hdistinct, hnew⟩, hdistinct', hnew'⟩
    rw [body_merged] at hnew'
    refine ⟨?_, fun group hgroup entry hentry => ?_⟩
    · rw [List.map_append, List.nodup_append]
      refine ⟨hdistinct, hdistinct', fun name hname name' hname' => ?_⟩
      obtain ⟨declared, hdeclared, rfl⟩ := List.mem_map.mp hname
      obtain ⟨group, hgroup, rfl⟩ := List.mem_map.mp hname'
      exact (hnew' group hgroup declared.entry
        (List.mem_append_right _ (List.mem_map_of_mem hdeclared))).symm
    · rcases List.mem_append.mp hgroup with hgroup | hgroup
      · exact hnew group hgroup entry hentry
      · rw [← entry.name_sealFixed]
        exact hnew' group hgroup _ (List.mem_append_left _ (List.mem_map_of_mem hentry))

/-- **Merging twice makes the same table** as merging once. -/
theorem merged_merged (other : Option Bytes) :
    ((table.merged before description).toTable id).merged after other =
      table.merged (before ++ after) other := by
  have hsealed : (table.body.map (·.sealFixed)).map (·.sealFixed) =
      table.body.map (·.sealFixed) := by
    rw [List.map_map]
    exact List.map_congr_left fun entry _ => entry.sealFixed_sealFixed
  have hdeclared : (before.map (·.entry)).map (·.sealFixed) = before.map (·.entry) := by
    rw [List.map_map]
    exact List.map_congr_left fun group _ => group.sealFixed_entry
  rw [merged, body_merged, List.map_append, hsealed, hdeclared, List.append_assoc,
    ← List.map_append]
  rfl

end Table

/-! ## Actions that coincide -/

/-- No phase looks at the table that a frame was made for. -/
theorem Frame.dispatch_withTable (frame : Frame) (lineage : Lineage) (table : Table) :
    dispatch { frame with table } lineage =
      match frame.dispatch lineage with
      | .done result => .done result
      | .redirected next => .redirected { next with table } := by
  unfold dispatch
  cases frame.root.phase with
  | native face function binding => rfl
  | checker face test => rfl
  | derived face derivation source =>
    simp only
    split <;> rfl

/-- Frames that differ in their tables only run alike. -/
theorem invoke_withTable (lineage : Lineage) (frame : Frame) (table : Table) :
    invoke lineage { frame with table } = invoke lineage frame := by
  fun_induction invoke lineage frame with
  | case1 frame result hdone =>
    refine invoke_of_done ?_
    rw [Frame.dispatch_withTable, hdone]
  | case2 frame next hnext _ ih =>
    rw [← ih]
    refine invoke_of_redirected ?_
    rw [Frame.dispatch_withTable, hnext]

/-- **Two actions that coincide**: they have the same parameters at the same slots, the same label
and description, and the same root. Only their tables have identities of their own. -/
structure Action.Coincides (a b : Action) : Prop where
  entries : a.table.entries = b.table.entries
  outputSlot : a.table.outputSlot = b.table.outputSlot
  label : a.label = b.label
  description : a.description = b.description
  root : a.root = b.root

namespace Action.Coincides

variable {a b : Action}

theorem findEntry?_eq (h : a.Coincides b) (name : Symbol) :
    a.table.findEntry? name = b.table.findEntry? name := by
  unfold Table.findEntry? Table.params
  rw [h.entries]

theorem positional_eq (h : a.Coincides b) : a.table.positional = b.table.positional := by
  rw [Table.positional_eq, Table.positional_eq]
  unfold Table.body
  rw [h.entries]

/-- Frames of the two actions with the same cells. -/
structure Aligned (a b : Action) (f g : Frame) : Prop where
  first : f.table = a.table
  second : g.table = b.table
  frame : f = { g with table := f.table }

theorem new (h : a.Coincides b) : Aligned a b (.new a) (.new b) where
  first := rfl
  second := rfl
  frame := by
    unfold Frame.new
    rw [h.label, h.root, h.entries]

theorem set (h : a.Coincides b) {f g : Frame} (haligned : Aligned a b f g) (name : Symbol)
    (value : Value) : Paired (Aligned a b) (f.set name value) (g.set name value) := by
  have hfind : f.table.findEntry? name = g.table.findEntry? name := by
    rw [haligned.first, haligned.second, h.findEntry?_eq]
  cases hg : g.table.findEntry? name with
  | none =>
    rw [Frame.set_of_none hg, Frame.set_of_none (hfind.trans hg)]
    exact .refused _
  | some found =>
    refine Frame.set_paired (hfind.trans hg) hg rfl fun _ _ =>
      ⟨haligned.first, haligned.second, ?_⟩
    rw [haligned.frame]
    rfl

/-- **Actions that coincide give the same results.** -/
theorem call_eq (h : a.Coincides b) (lineage : Lineage) (positional : List Value)
    (named : List (Symbol × Value)) :
    call lineage a positional named = call lineage b positional named := by
  have hfilled : Paired (Aligned a b) (fulfil a positional named) (fulfil b positional named) :=
    fulfil_paired h.positional_eq h.new
      (fun name value f g haligned => h.set haligned name value) _ _
  refine call_paired hfilled fun f g haligned => ?_
  rw [haligned.frame]
  exact invoke_withTable lineage g f.table

end Action.Coincides

namespace Workshop

/-! ## Augmenting twice -/

variable {w v : Workshop} {source mid last once : Action} {first second spec : List Value}

/-- **What a spec that an action was augmented by says**, and what the action was augmented to. -/
theorem exists_of_augment_ok (hwf : source.table.WellFormed) {label : Option Symbol}
    {action : Action} (hok : (w.augment source spec label).1 = .ok action) :
    ∃ text groups, DeclaresInputs text groups spec ∧ source.table.TakesIn groups ∧
      action = w.augmentation source label
        (source.table.merged groups (text <|> source.description)) := by
  by_cases hspec : ∃ text groups, DeclaresInputs text groups spec
  · obtain ⟨text, groups, hspec⟩ := hspec
    obtain ⟨hnew, haction⟩ := augment_eq_ok hwf hspec hok
    exact ⟨text, groups, hspec, hnew, haction⟩
  · obtain ⟨error, herror, -⟩ := augment_of_not_declaresInputs (w := w) hwf hspec label
    cases hok.symm.trans herror

/-- An action was augmented to another one by a spec, in the same workshop and at any time. -/
def AugmentedTo (w : Workshop) (source : Action) (spec : List Value) (action : Action) : Prop :=
  ∃ before after : Workshop, before.Reachable ∧ source ∈ before.actions ∧
    before.augment source spec none = (.ok action, after) ∧ after.Leads w

/-- **What augmenting by two specs has to do with augmenting by both at once.** -/
structure Composes (w : Workshop) (source : Action) (first second : List Value) : Prop where
  /-- The specs fit one after the other exactly if they fit together. -/
  succeeds_iff : (∃ mid w₁ last w₂, w.augment source first none = (.ok mid, w₁) ∧
      w₁.augment mid second none = (.ok last, w₂)) ↔
    ∃ once w', w.augment source (first ++ second) none = (.ok once, w')
  /-- What is made in two steps has the parameters, the output, the label and the description of
  what is made in one, and answers every call alike. -/
  agree : ∀ (v : Workshop) (mid last once : Action), v.AugmentedTo source first mid →
    v.AugmentedTo mid second last → v.AugmentedTo source (first ++ second) once →
    last.table.entries = once.table.entries ∧ last.table.outputSlot = once.table.outputSlot ∧
      last.label = once.label ∧ last.description = once.description ∧
      ∀ positional named, v.call last positional named = v.call once positional named

/-- **Two steps succeed exactly where one does.** -/
theorem augment_twice_iff (hw : w.Reachable) (own : source ∈ w.actions)
    (hstarts : StartsGroup second) :
    (∃ mid w₁ last w₂, w.augment source first none = (.ok mid, w₁) ∧
      w₁.augment mid second none = (.ok last, w₂)) ↔
    ∃ once w', w.augment source (first ++ second) none = (.ok once, w') := by
  have hwf := hw.sound.wellFormed own
  constructor
  · rintro ⟨mid, w₁, last, w₂, hmid, hlast⟩
    obtain ⟨hw₁, own₁⟩ := hw.augment own hmid
    obtain ⟨text, before, hbefore, hnew, rfl⟩ := exists_of_augment_ok hwf (congrArg Prod.fst hmid)
    obtain ⟨text', after, hafter, hnew', -⟩ :=
      exists_of_augment_ok (hw₁.sound.wellFormed own₁) (congrArg Prod.fst hlast)
    obtain rfl := hstarts.description_eq hafter.1
    have hboth := (declaresInputs_append hstarts).mpr ⟨before, after, rfl, hbefore, hafter⟩
    have honce := augment_of_takesIn (w := w) hwf hboth (Table.takesIn_append.mpr ⟨hnew, hnew'⟩)
      none
    exact ⟨_, _, Prod.ext honce rfl⟩
  · rintro ⟨once, w', honce⟩
    obtain ⟨text, groups, hboth, hnew, -⟩ := exists_of_augment_ok hwf (congrArg Prod.fst honce)
    obtain ⟨before, after, rfl, hbefore, hafter⟩ := (declaresInputs_append hstarts).mp hboth
    obtain ⟨hfirst, hsecond⟩ := Table.takesIn_append.mp hnew
    have hmid : w.augment source first none = (.ok _, _) :=
      Prod.ext (augment_of_takesIn hwf hbefore hfirst none) rfl
    obtain ⟨hw₁, own₁⟩ := hw.augment own hmid
    have hlast := augment_of_takesIn (w := (w.augment source first none).2)
      (hw₁.sound.wellFormed own₁) hafter hsecond none
    exact ⟨_, _, _, _, hmid, Prod.ext hlast rfl⟩

/-- **What is made in two steps coincides with what is made in one.** -/
theorem AugmentedTo.coincides (hstarts : StartsGroup second) (hmid : v.AugmentedTo source first mid)
    (hlast : v.AugmentedTo mid second last) (honce : v.AugmentedTo source (first ++ second) once) :
    last.Coincides once := by
  obtain ⟨w₁, _, hw₁, own₁, hfirst, -⟩ := hmid
  obtain ⟨w₂, _, hw₂, own₂, hsecond, -⟩ := hlast
  obtain ⟨w₃, _, hw₃, own₃, hboth, -⟩ := honce
  have hwf := hw₁.sound.wellFormed own₁
  obtain ⟨text, before, hbefore, -, rfl⟩ := exists_of_augment_ok hwf (congrArg Prod.fst hfirst)
  obtain ⟨text', after, hafter, -, rfl⟩ :=
    exists_of_augment_ok (hw₂.sound.wellFormed own₂) (congrArg Prod.fst hsecond)
  obtain rfl := hstarts.description_eq hafter.1
  obtain ⟨-, rfl⟩ := augment_eq_ok hwf
    ((declaresInputs_append hstarts).mpr ⟨before, after, rfl, hbefore, hafter⟩)
    (congrArg Prod.fst hboth)
  exact ⟨congrArg Finished.entries (Table.merged_merged _), rfl, rfl, rfl, rfl⟩

/-- **Augmentations compose.** -/
theorem augment_composes (hw : w.Reachable) (own : source ∈ w.actions) (first : List Value)
    (hstarts : StartsGroup second) : w.Composes source first second := by
  refine ⟨augment_twice_iff hw own hstarts, fun v mid last once hmid hlast honce => ?_⟩
  have hsame := AugmentedTo.coincides hstarts hmid hlast honce
  exact ⟨hsame.entries, hsame.outputSlot, hsame.label, hsame.description,
    fun positional named => hsame.call_eq v.lineage positional named⟩

theorem add_twice_made : (fresh.trial 0 fun made add =>
    match made.augment add [.text [65], .word ⟨98⟩] none with
    | (.ok mid, w₁) =>
      match w₁.augment mid [.refinement ⟨99⟩] none with
      | (.ok last, w₂) =>
        match w₂.augment add [.text [65], .word ⟨98⟩, .refinement ⟨99⟩] none with
        | (.ok _, w₃) =>
          (w₃.call last [.integer 1, .integer 2, .logic true] [(⟨99⟩, .none)]).toOption
        | (.error _, _) => none
      | (.error _, _) => none
    | (.error _, _) => none) = some (.integer 3) := by
  decide +kernel

/-- Addition with a description and a parameter, and then with a refinement behind them. -/
theorem augment_composes_add : ∃ (w : Workshop) (add last once : Action), add ∈ fresh.actions ∧
    StartsGroup [.refinement ⟨99⟩] ∧
    fresh.Composes add [.text [65], .word ⟨98⟩] [.refinement ⟨99⟩] ∧
    last.table.entries = once.table.entries ∧
    (w.call last [.integer 1, .integer 2, .logic true] [(⟨99⟩, .none)]).toOption =
      some (.integer 3) ∧
    (w.call once [.integer 1, .integer 2, .logic true] [(⟨99⟩, .none)]).toOption =
      some (.integer 3) := by
  obtain ⟨made, hmade, hfresh, add, hmem, hmatch⟩ := exists_of_trial add_twice_made
  have hstarts : StartsGroup [.refinement ⟨99⟩] := by
    rintro value ⟨⟩
    exact .inr ⟨_, rfl⟩
  have hcomposes := augment_composes hfresh hmem [.text [65], .word ⟨98⟩] hstarts
  rw [← hmade]
  split at hmatch
  · next mid w₁ hmid =>
    obtain ⟨hw₁, own₁⟩ := hfresh.augment hmem hmid
    split at hmatch
    · next last w₂ hlast =>
      have hrest := Leads.augment own₁ hlast
      obtain ⟨hw₂, -⟩ := hw₁.augment own₁ hlast
      have hmem₂ := (hrest.sound hw₁.sound).1.actions _
        (((Leads.augment hmem hmid).sound hfresh.sound).1.actions _ hmem)
      split at hmatch
      · next once w₃ honce =>
        have hend := Leads.augment hmem₂ honce
        obtain ⟨hentries, -, -, -, hcall⟩ := hcomposes.agree w₃ mid last once
          ⟨made, w₁, hfresh, hmem, hmid, hrest.trans hend⟩ ⟨w₁, w₂, hw₁, own₁, hlast, hend⟩
          ⟨w₂, w₃, hw₂, hmem₂, honce, .refl⟩
        exact ⟨w₃, add, last, once, hmem, hstarts, hcomposes, hentries, hmatch,
          hcall _ _ ▸ hmatch⟩
      · cases hmatch
    · cases hmatch
  · cases hmatch

end Workshop

end ActionKit
