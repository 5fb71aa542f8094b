import ActionKit.Proofs.Drafted
import ActionKit.Proofs.Filling

/-!
# One surface for callers and makers

What callers may fill and what a specialization may fix is decided apart: a frame asks how an entry
shows, a draft looks at the seal and at the content, and the lists of what an action exposes and of
what it has fixed are filters of their own. All of them draw the same line. They differ in one
thing: a refinement may be reset to `none`, but it is not fixed to `none` unless its types say so.

* `Corresponds`: errors that say the same of an argument and of a parameter to fix.
* `Concur`: filling a cell and fixing a parameter come to the same.
* `Entry.Resets`, `Table.Resets`: where they do not.
* `CallError.conceals`, `BuildError.conceals`: errors that are about what callers cannot see.
* `Action.SharesSurface`: the four ways to draw the line agree.

Results:
* `allow_concurs`, `set_concurs`: what one takes the other takes, and what is refused is refused for
  the same reason.
* `mem_exposed_names`, `mem_specializations`: what the lists hold.
* `set_conceals_iff`, `fix_conceals_iff`: what is listed is what is not concealed.
* `surface_shared`: **setting and specializing enforce the same surface**.
-/

namespace ActionKit

/-! ## Agreement -/

/-- **Errors that say the same** of the argument for a name and of the parameter to fix. -/
inductive Corresponds (name : Symbol) (value : Value) : CallError → BuildError → Prop
  | unknown : Corresponds name value (.unknownArgument name) (.unknownParameter name)
  | hidden : Corresponds name value (.hiddenParameter name) (.hiddenParameter name)
  | output : Corresponds name value (.outputParameter name) (.outputParameter name)
  | mismatch (types : Constraint) :
      Corresponds name value (.typeMismatch name value types) (.typeMismatch name value types)

/-- **Filling a cell and fixing a parameter come to the same**: both succeed, with results that
agree, or both fail with errors that say the same. -/
inductive Concur {α β : Type} (agree : α → β → Prop) (name : Symbol) (value : Value) :
    Except CallError α → Except BuildError β → Prop
  | taken {a : α} {b : β} (results : agree a b) : Concur agree name value (.ok a) (.ok b)
  | refused {e : CallError} {b : BuildError} (errors : Corresponds name value e b) :
      Concur agree name value (.error e) (.error b)

theorem Concur.map {α β γ δ : Type} {agree : α → β → Prop} {agree' : γ → δ → Prop}
    {name : Symbol} {value : Value} {x : Except CallError α} {y : Except BuildError β}
    (h : Concur agree name value x y) {f : α → γ} {g : β → δ}
    (hresults : ∀ a b, agree a b → agree' (f a) (g b)) :
    Concur agree' name value (x.map f) (y.map g) := by
  cases h with
  | taken results => exact .taken (hresults _ _ results)
  | refused errors => exact .refused errors

namespace Entry

/-- A refinement that is reset to `none`, although its types do not accept that. -/
def Resets (entry : Entry) (value : Value) : Prop :=
  value = .none ∧ ∃ types, entry.Open .refinement types ∧ types.accepts .none = false

theorem fixEntry_of_hidden {entry : Entry} (h : entry.isExposed ≠ true) (value : Value) :
    Draft.fixEntry entry value = .error (.hiddenParameter entry.name) := by
  unfold Draft.fixEntry
  cases hsealed : entry.isSealed with
  | true => rfl
  | false =>
    cases hcontent : entry.content with
    | header => rfl
    | fixed fixed => rfl
    | unbound role types => exact absurd (Open.isExposed ⟨hcontent, hsealed⟩) h

/-- **An entry takes from callers what it can be fixed to**, unless it is reset. -/
theorem allow_concurs {entry : Entry} {value : Value} (h : ¬ entry.Resets value) :
    Concur (fun _ fixed => fixed = { entry with content := .fixed value }) entry.name value
      (Frame.allow entry entry.name value) (Draft.fixEntry entry value) := by
  by_cases hexposed : entry.isExposed = true
  · obtain ⟨role, types, ho⟩ := isExposed_iff.mp hexposed
    unfold Frame.allow Frame.permit Draft.fixEntry
    rw [if_pos hexposed, ho.unsealed, ho.content]
    cases role with
    | output => exact .refused .output
    | normal =>
      cases haccepts : types.accepts value with
      | true =>
        simp only [haccepts]
        exact .taken rfl
      | false =>
        simp only [haccepts]
        exact .refused (.mismatch types)
    | refinement =>
      cases haccepts : types.accepts value with
      | true =>
        simp only [haccepts, Bool.or_true]
        exact .taken rfl
      | false =>
        have hsome : value.isNone = false := by
          refine Bool.eq_false_iff.mpr fun hnone => h ?_
          obtain rfl := Value.isNone_iff.mp hnone
          exact ⟨rfl, types, ho, haccepts⟩
        simp only [haccepts, hsome]
        exact .refused (.mismatch types)
  · unfold Frame.allow
    rw [if_neg hexposed, fixEntry_of_hidden hexposed]
    exact .refused .hidden

/-- A refinement is reset to what it cannot be fixed to. -/
theorem Resets.split {entry : Entry} {value : Value} (h : entry.Resets value) :
    Frame.allow entry entry.name value = .ok () ∧
      ∃ types, Draft.fixEntry entry value = .error (.typeMismatch entry.name .none types) := by
  obtain ⟨rfl, types, ho, hrefuses⟩ := h
  refine ⟨Frame.allow_eq_ok_iff.mpr ⟨.refinement, types, ho, nofun, .inr ⟨rfl, rfl⟩⟩, types, ?_⟩
  unfold Draft.fixEntry
  rw [ho.unsealed, ho.content]
  simp only [hrefuses]
  rfl

end Entry

/-! ## Filling and fixing by name -/

/-- A name leads to a refinement that is reset to `none`, although its types do not accept that. -/
def Table.Resets (table : Table) (name : Symbol) (value : Value) : Prop :=
  ∃ entry ∈ table.body, entry.name = name ∧ entry.Resets value

/-- The frame holds what a frame of the drafted table would start with. -/
def Prefills (frame : Frame) (draft : Draft) : Prop :=
  frame.cells = draft.entries.map (·.initialCell)

variable {action : Action}

theorem fix_of_none (hwf : action.table.WellFormed) {name : Symbol}
    (h : action.table.findEntry? name = none) (scratch : Scratch) (value : Value) :
    ((Draft.start scratch).copy action.table .preserve).fix name value =
      .error (.unknownParameter name) := by
  rw [(Draft.copy_shows hwf scratch).fix_eq]
  unfold Draft.fixAmong
  rw [show (action.table.entries.zipIdx.drop 1).find? (·.1.name = name) = none from h]
  rfl

/-- **Fixing a parameter that is there** is up to its entry. -/
theorem fix_of_some (hwf : action.table.WellFormed) {name : Symbol} {entry : Entry} {slot : Nat}
    (h : action.table.findEntry? name = some (entry, slot)) (scratch : Scratch) (value : Value) :
    ((Draft.start scratch).copy action.table .preserve).fix name value =
      (Draft.fixEntry entry value).map fun fixed =>
        ((Draft.start scratch).copy action.table .preserve).withEntries
          (action.table.entries.set slot fixed) := by
  rw [(Draft.copy_shows hwf scratch).fix_eq]
  unfold Draft.fixAmong
  rw [show (action.table.entries.zipIdx.drop 1).find? (·.1.name = name) = some (entry, slot) from h]
  cases hfixed : Draft.fixEntry entry value <;> simp only [hfixed] <;> rfl

/-- **What callers may fill is what can be fixed**, and what is refused is refused alike. -/
theorem set_concurs (hwf : action.table.WellFormed) (scratch : Scratch) {name : Symbol}
    {value : Value} (h : ¬ action.table.Resets name value) :
    Concur Prefills name value ((Frame.new action).set name value)
      (((Draft.start scratch).copy action.table .preserve).fix name value) := by
  cases hfind : action.table.findEntry? name with
  | none =>
    rw [fix_of_none hwf hfind, Frame.set_of_none hfind]
    exact .refused .unknown
  | some found =>
    obtain ⟨entry, slot⟩ := found
    obtain ⟨h0, hentry, rfl⟩ := Table.findEntry_some hfind
    have hkeeps : ¬ entry.Resets value := fun hresets =>
      h ⟨entry, Table.mem_body_iff.mpr ⟨slot, h0, hentry⟩, rfl, hresets⟩
    rw [fix_of_some hwf hfind, Frame.set_of_some hfind]
    refine (Entry.allow_concurs hkeeps).map ?_
    rintro ⟨⟩ fixed rfl
    have hentries := ((Draft.copy_shows hwf scratch).withEntries
      (action.table.entries.set slot { entry with content := .fixed value })).entries
    unfold Prefills
    rw [hentries, List.map_set]
    rfl

theorem set_resets (hwf : action.table.WellFormed) (scratch : Scratch) {name : Symbol}
    {value : Value} (h : action.table.Resets name value) :
    (∃ frame, (Frame.new action).set name value = .ok frame) ∧
      ∃ types, ((Draft.start scratch).copy action.table .preserve).fix name value =
        .error (.typeMismatch name .none types) := by
  obtain ⟨entry, hmem, rfl, hresets⟩ := h
  obtain ⟨slot, h0, hentry⟩ := Table.mem_body_iff.mp hmem
  have hfind := (Table.findEntry_eq_some_iff hwf.distinct).mpr ⟨h0, hentry, rfl⟩
  obtain ⟨hallow, types, hfix⟩ := hresets.split
  rw [fix_of_some hwf hfind, Frame.set_of_some hfind, hallow, hfix]
  exact ⟨⟨_, rfl⟩, types, rfl⟩

/-! ## What is listed -/

/-- The error is that callers can see no parameter of that name. -/
def CallError.conceals : CallError → Bool
  | .unknownArgument _ | .hiddenParameter _ => true
  | _ => false

/-- The error is that there is no parameter of that name left to fix. -/
def BuildError.conceals : BuildError → Bool
  | .unknownParameter _ | .hiddenParameter _ => true
  | _ => false

theorem Corresponds.conceals {name : Symbol} {value : Value} {e : CallError} {b : BuildError}
    (h : Corresponds name value e b) : e.conceals = b.conceals := by
  cases h <;> rfl

/-- Where filling and fixing come to the same, both find the name concealed or none does. -/
theorem Concur.conceals_iff {α β : Type} {agree : α → β → Prop} {name : Symbol} {value : Value}
    {x : Except CallError α} {y : Except BuildError β} (h : Concur agree name value x y) :
    (∃ e, x = .error e ∧ e.conceals = true) ↔ ∃ b, y = .error b ∧ b.conceals = true := by
  cases h with
  | taken results => simp
  | refused errors => simp [errors.conceals]

theorem Frame.permit_reveals {entry : Entry} {name : Symbol} {value : Value} {error : CallError}
    (h : Frame.permit entry name value = .error error) : error.conceals = false := by
  unfold Frame.permit at h
  split at h
  · obtain rfl := Except.error.inj h
    rfl
  · split at h
    · cases h
    · obtain rfl := Except.error.inj h
      rfl
  · split at h
    · cases h
    · obtain rfl := Except.error.inj h
      rfl
  · cases h
  · cases h

/-- An entry is concealed exactly if it is not exposed. -/
theorem Frame.allow_conceals_iff {entry : Entry} {name : Symbol} {value : Value} :
    (∃ error, Frame.allow entry name value = .error error ∧ error.conceals = true) ↔
      entry.isExposed ≠ true := by
  unfold Frame.allow
  by_cases hexposed : entry.isExposed = true
  · rw [if_pos hexposed]
    refine iff_of_false ?_ (not_not_intro hexposed)
    rintro ⟨error, herror, hconceals⟩
    rw [Frame.permit_reveals herror] at hconceals
    cases hconceals
  · rw [if_neg hexposed]
    exact iff_of_true ⟨_, rfl, rfl⟩ hexposed

namespace Entry

/-- The value of an entry that may be inspected. -/
def inspected? (entry : Entry) : Option (Entry × Value) :=
  if entry.isSealed then none else entry.fixedValue?.map (entry, ·)

theorem inspected?_eq_some_iff {entry other : Entry} {value : Value} :
    entry.inspected? = some (other, value) ↔
      entry = other ∧ entry.isSealed = false ∧ entry.content = .fixed value := by
  unfold inspected? fixedValue?
  cases entry.isSealed with
  | true => simp
  | false => cases entry.content <;> simp

end Entry

namespace Table

theorem mem_exposed_names {table : Table} {name : Symbol} :
    name ∈ table.exposed.map (·.1.name) ↔
      ∃ entry ∈ table.body, entry.isExposed = true ∧ entry.name = name := by
  unfold exposed
  rw [body_eq]
  simp only [List.mem_map, List.mem_filter]
  constructor
  · rintro ⟨param, ⟨hmem, hexposed⟩, hname⟩
    exact ⟨param.1, ⟨param, hmem, rfl⟩, hexposed, hname⟩
  · rintro ⟨_, ⟨param, hmem, rfl⟩, hexposed, hname⟩
    exact ⟨param, ⟨hmem, hexposed⟩, hname⟩

theorem specializations_eq (table : Table) :
    table.specializations = table.body.filterMap (·.inspected?) := by
  rw [body_eq, List.filterMap_map]
  rfl

theorem mem_specializations {table : Table} {entry : Entry} {value : Value} :
    (entry, value) ∈ table.specializations ↔
      entry ∈ table.body ∧ entry.isSealed = false ∧ entry.content = .fixed value := by
  rw [specializations_eq, List.mem_filterMap]
  constructor
  · rintro ⟨other, hmem, hvalue⟩
    obtain ⟨rfl, hfixed⟩ := Entry.inspected?_eq_some_iff.mp hvalue
    exact ⟨hmem, hfixed⟩
  · rintro ⟨hmem, hfixed⟩
    exact ⟨entry, hmem, Entry.inspected?_eq_some_iff.mpr ⟨rfl, hfixed⟩⟩

/-- Where names differ, no name is listed twice. -/
theorem WellFormed.listed_once {table : Table} (h : table.WellFormed) :
    (table.exposed.map (·.1.name)).Nodup ∧ (table.specializations.map (·.1.name)).Nodup := by
  have hdistinct := List.pairwise_map.mp h.distinct
  refine ⟨List.pairwise_map.mpr ?_, List.pairwise_map.mpr ?_⟩
  · rw [body_eq] at hdistinct
    exact (List.pairwise_map.mp hdistinct).filter _
  · rw [specializations_eq, List.pairwise_filterMap]
    refine hdistinct.imp fun {first second} hne one hone two htwo => ?_
    obtain ⟨rfl, -⟩ := Entry.inspected?_eq_some_iff.mp hone
    obtain ⟨rfl, -⟩ := Entry.inspected?_eq_some_iff.mp htwo
    exact hne

end Table

/-- **Callers are told that a name is concealed exactly if it is not listed.** -/
theorem set_conceals_iff (hwf : action.table.WellFormed) (name : Symbol) (value : Value) :
    (∃ error, (Frame.new action).set name value = .error error ∧ error.conceals = true) ↔
      name ∉ action.table.exposed.map (·.1.name) := by
  rw [Table.mem_exposed_names]
  cases hfind : action.table.findEntry? name with
  | none =>
    rw [Frame.set_of_none hfind]
    refine iff_of_true ⟨_, rfl, rfl⟩ ?_
    rintro ⟨entry, hmem, -, hname⟩
    exact Table.findEntry_eq_none_iff.mp hfind entry hmem hname
  | some found =>
    obtain ⟨entry, slot⟩ := found
    obtain ⟨h0, hentry, rfl⟩ := Table.findEntry_some hfind
    have hmem := Table.mem_body_iff.mpr ⟨slot, h0, hentry⟩
    have hset : (∃ error, (Frame.new action).set entry.name value = .error error ∧
        error.conceals = true) ↔ entry.isExposed ≠ true := by
      rw [Frame.set_of_some hfind, ← Frame.allow_conceals_iff]
      cases Frame.allow entry entry.name value <;> simp [Except.map]
    rw [hset]
    refine not_congr ⟨fun hexposed => ⟨entry, hmem, hexposed, rfl⟩, ?_⟩
    rintro ⟨other, hother, hexposed, hname⟩
    obtain rfl := hwf.entry_unique hother hmem hname
    exact hexposed

/-- **What is left to fix is what is listed**, too. -/
theorem fix_conceals_iff (hwf : action.table.WellFormed) (scratch : Scratch) (name : Symbol)
    (value : Value) :
    (∃ error, ((Draft.start scratch).copy action.table .preserve).fix name value = .error error ∧
      error.conceals = true) ↔ name ∉ action.table.exposed.map (·.1.name) := by
  rw [← set_conceals_iff hwf name value]
  by_cases hresets : action.table.Resets name value
  · obtain ⟨⟨frame, hset⟩, types, hfix⟩ := set_resets hwf scratch hresets
    rw [hset, hfix]
    simp [BuildError.conceals]
  · exact (set_concurs hwf scratch hresets).conceals_iff.symm

/-! ## The surface of an action -/

theorem Entry.visibility_eq_specialized_iff {entry : Entry} :
    entry.visibility = .specialized ↔
      entry.isSealed = false ∧ ∃ value, entry.content = .fixed value := by
  unfold visibility
  cases entry.isSealed <;> cases entry.content <;> simp

theorem Table.mem_specialization_names {table : Table} {name : Symbol} :
    name ∈ table.specializations.map (·.1.name) ↔
      ∃ entry ∈ table.body, entry.name = name ∧ entry.visibility = .specialized := by
  rw [List.mem_map]
  constructor
  · rintro ⟨⟨entry, value⟩, hmem, hname⟩
    obtain ⟨hentry, hunsealed, hcontent⟩ := mem_specializations.mp hmem
    exact ⟨entry, hentry, hname,
      Entry.visibility_eq_specialized_iff.mpr ⟨hunsealed, value, hcontent⟩⟩
  · rintro ⟨entry, hentry, hname, hvisibility⟩
    obtain ⟨hunsealed, value, hcontent⟩ := Entry.visibility_eq_specialized_iff.mp hvisibility
    exact ⟨(entry, value), mem_specializations.mpr ⟨hentry, hunsealed, hcontent⟩, hname⟩

/-- **Filling and fixing draw the same line**, and it is the one that the lists draw. -/
structure Action.SharesSurface (action : Action) : Prop where
  /-- A new frame takes what a copy of the table can be fixed to, and refuses the rest for the same
  reasons. -/
  concur : ∀ scratch name value, ¬ action.table.Resets name value →
    Concur Prefills name value ((Frame.new action).set name value)
      (((Draft.start scratch).copy action.table .preserve).fix name value)
  /-- Refinements are reset to `none` in frames, whatever their types, and nowhere else. -/
  reset : ∀ scratch name value, action.table.Resets name value →
    (∃ frame, (Frame.new action).set name value = .ok frame) ∧
      ∃ types, ((Draft.start scratch).copy action.table .preserve).fix name value =
        .error (.typeMismatch name .none types)
  /-- The names that callers are not told to be unknown or hidden are those that are listed. -/
  filled : ∀ name value, name ∈ action.table.exposed.map (·.1.name) ↔
    ¬ ∃ error, (Frame.new action).set name value = .error error ∧ error.conceals = true
  /-- So are the names that makers are not told to be unknown or hidden. -/
  fixed : ∀ scratch name value, name ∈ action.table.exposed.map (·.1.name) ↔
    ¬ ∃ error, ((Draft.start scratch).copy action.table .preserve).fix name value = .error error ∧
      error.conceals = true
  /-- What is fixed and not sealed is listed as such, with its value. -/
  inspected : ∀ entry value, (entry, value) ∈ action.table.specializations ↔
    entry ∈ action.table.body ∧ entry.isSealed = false ∧ entry.content = .fixed value
  /-- By name, that is what shows as specialized. -/
  shown : ∀ name, name ∈ action.table.specializations.map (·.1.name) ↔
    ∃ entry ∈ action.table.body, entry.name = name ∧ entry.visibility = .specialized
  /-- No name is listed twice. -/
  once : (action.table.exposed.map (·.1.name)).Nodup ∧
    (action.table.specializations.map (·.1.name)).Nodup

namespace Workshop

variable {w : Workshop}

/-- **Setting and specializing enforce the same surface.** -/
theorem surface_shared (hw : w.Reachable) (ha : action ∈ w.actions) : action.SharesSurface := by
  have hwf := hw.sound.wellFormed ha
  refine ⟨fun scratch _ _ => set_concurs hwf scratch, fun scratch _ _ => set_resets hwf scratch,
    ?_, ?_, fun _ _ => Table.mem_specializations, fun _ => Table.mem_specialization_names,
    hwf.listed_once⟩
  · intro name value
    rw [set_conceals_iff hwf, not_not]
  · intro scratch name value
    rw [fix_conceals_iff hwf, not_not]

theorem join_surface : (fresh.trial 1 fun made join =>
    match made.specialize join [(⟨6⟩, .text [97])] with
    | (.ok action, _) =>
      (action.table.findEntry? ⟨8⟩).bind fun found =>
        match found.1.content with
        | .unbound .refinement types => some (action.table.exposed.map (·.1.name),
            action.table.specializations.map (·.1.name), found.1.isSealed, types.accepts .none)
        | _ => none
    | (.error _, _) => none) = some ([.output, ⟨7⟩, ⟨8⟩], [⟨6⟩], false, false) := by
  decide +kernel

/-- Joining with its head fixed: the tail and the delimiter are left, and the delimiter is where
setting and specializing differ. -/
theorem surface_shared_join : ∃ (w : Workshop) (action : Action), w.Reachable ∧
    action ∈ w.actions ∧ action.SharesSurface ∧
    action.table.exposed.map (·.1.name) = [.output, ⟨7⟩, ⟨8⟩] ∧
    action.table.specializations.map (·.1.name) = [⟨6⟩] ∧ action.table.Resets ⟨8⟩ .none := by
  obtain ⟨made, -, hfresh, join, hmem, hmatch⟩ := exists_of_trial join_surface
  split at hmatch
  · next action w haction =>
    obtain ⟨hw, hown⟩ := hfresh.specialize hmem haction
    obtain ⟨⟨entry, slot⟩, hfind, hcontents⟩ := Option.bind_eq_some_iff.mp hmatch
    obtain ⟨h0, hentry, hname⟩ := Table.findEntry_some hfind
    split at hcontents
    · next types hcontent =>
      obtain ⟨hexposed, hrest⟩ := Prod.mk.inj (Option.some.inj hcontents)
      obtain ⟨hfixed, hdelimiter⟩ := Prod.mk.inj hrest
      obtain ⟨hunsealed, hrefuses⟩ := Prod.mk.inj hdelimiter
      exact ⟨w, action, hw, hown, surface_shared hw hown, hexposed, hfixed, entry,
        Table.mem_body_iff.mpr ⟨slot, h0, hentry⟩, hname, rfl, types, ⟨hcontent, hunsealed⟩,
        hrefuses⟩
    · cases hcontents
  · cases hmatch

end Workshop

end ActionKit
