import ActionKit.Report
import ActionKit.Show.View
import ActionKit.Proofs.Paired

/-!
# What is sealed cannot be seen

Two actions may differ in the values that are sealed in their tables. Whatever lists, shows or
reports an action, and whatever fills a frame of it or fixes parameters of its table, looks at
entries one at a time, and finds nothing in a sealed entry that depends on its value.

* `Entry.conceal`: an entry without its value, if that is sealed.
* `Table.Alike`, `Action.Alike`: tables and actions that are the same but for sealed values.
* `Frame.Alike`, `Draft.Alike`: frames that agree on all exposed cells, and drafts of such tables.
* `Action.Indistinct`: actions that inspection cannot tell apart.

Results:
* `eq_of_conceal`: what is drawn from an entry is the same if it does not depend on sealed values.
* `Table.Alike.drawn`, `Table.Alike.found`: the same for what is drawn from all parameters, and for
  what a name leads to.
* `Frame.Alike.set`, `Draft.Alike.fix`: filling a cell and fixing a parameter are refused alike, or
  keep frames and drafts alike.
* `alike_indistinct`: actions that differ in sealed values only cannot be told apart.
-/

namespace ActionKit

/-! ## Entries -/

namespace Entry

/-- The entry without its value, if it is fixed and sealed. -/
def conceal (entry : Entry) : Entry :=
  if entry.isSealed && entry.isFixed then { entry with content := .fixed .none } else entry

/-- **What does not depend on sealed values** is the same for entries that differ in nothing
else. -/
theorem eq_of_conceal {α : Type} (draw : Entry → α)
    (hdraw : ∀ (entry : Entry) (value other : Value),
      draw { entry with content := .fixed value, isSealed := true } =
        draw { entry with content := .fixed other, isSealed := true })
    {a b : Entry} (h : a.conceal = b.conceal) : draw a = draw b := by
  have hconceal : ∀ entry : Entry, draw entry.conceal = draw entry := by
    intro entry
    unfold conceal
    split
    · next hboth =>
      obtain ⟨hsealed, hfixed⟩ := Bool.and_eq_true_iff.mp hboth
      obtain ⟨value, hvalue⟩ := isFixed_iff.mp hfixed
      have hdrawn := hdraw entry .none value
      rwa [← hsealed, ← hvalue] at hdrawn
    · rfl
  rw [← hconceal a, h, hconceal b]

/-- Exposed entries hold nothing back. -/
theorem eq_of_conceal_of_isExposed {a b : Entry} (h : a.conceal = b.conceal)
    (hexposed : a.isExposed = true) : b = a := by
  have visible : ∀ {entry : Entry}, entry.isExposed = true → entry.conceal = entry := by
    intro entry hentry
    obtain ⟨_, _, ho⟩ := isExposed_iff.mp hentry
    unfold conceal
    rw [ho.unsealed]
    rfl
  have hboth : a.isExposed = b.isExposed := eq_of_conceal isExposed (fun _ _ _ => rfl) h
  rw [visible hexposed, visible (hboth ▸ hexposed)] at h
  exact h.symm

@[simp] theorem name_conceal (entry : Entry) : entry.conceal.name = entry.name := by
  unfold conceal
  split <;> rfl

/-- A parameter at its slot, without its value if that is sealed. -/
def concealAt (param : Entry × Nat) : Entry × Nat := (param.1.conceal, param.2)

theorem zipIdx_conceal (entries : List Entry) :
    (entries.map conceal).zipIdx = entries.zipIdx.map concealAt :=
  List.zipIdx_map

theorem conceal_conceal (entry : Entry) : entry.conceal.conceal = entry.conceal := by
  obtain ⟨name, content, typeNotes, docNotes, isSealed⟩ := entry
  cases content <;> cases isSealed <;> rfl

/-- Sealing what is fixed gives nothing away. -/
theorem conceal_sealFixed {a b : Entry} (h : a.conceal = b.conceal) :
    a.sealFixed.conceal = b.sealFixed.conceal :=
  eq_of_conceal (fun entry => entry.sealFixed.conceal) (fun _ _ _ => rfl) h

end Entry

/-! ## Tables -/

namespace Table

/-- **Tables that are the same, slot by slot, but for sealed values.** Identities and output slots
do not matter. -/
def Alike (a b : Table) : Prop := a.entries.map (·.conceal) = b.entries.map (·.conceal)

variable {a b : Table}

theorem Alike.params (h : a.Alike b) :
    a.params.map Entry.concealAt = b.params.map Entry.concealAt := by
  unfold Table.params
  rw [List.map_drop, List.map_drop, ← Entry.zipIdx_conceal, ← Entry.zipIdx_conceal, h]

/-- **What is drawn from every parameter by itself** is the same for both tables. -/
theorem Alike.drawn {α : Type} (h : a.Alike b) (draw : Entry × Nat → Option α)
    (hdraw : ∀ (entry : Entry) (value other : Value) (slot : Nat),
      draw ({ entry with content := .fixed value, isSealed := true }, slot) =
        draw ({ entry with content := .fixed other, isSealed := true }, slot)) :
    a.params.filterMap draw = b.params.filterMap draw := by
  have hconceal : draw ∘ Entry.concealAt = draw := by
    funext ⟨entry, slot⟩
    exact Entry.eq_of_conceal (fun entry => draw (entry, slot)) (fun e v o => hdraw e v o slot)
      entry.conceal_conceal
  have hmapped : ∀ table : Table, table.params.filterMap draw =
      (table.params.map Entry.concealAt).filterMap draw := by
    intro table
    rw [List.filterMap_map, hconceal]
  rw [hmapped a, hmapped b, h.params]

theorem Alike.exposed (h : a.Alike b) : a.exposed = b.exposed := by
  unfold Table.exposed
  rw [← List.filterMap_eq_filter]
  exact h.drawn _ fun _ _ _ _ => rfl

theorem Alike.specializations (h : a.Alike b) : a.specializations = b.specializations :=
  h.drawn _ fun _ _ _ _ => rfl

theorem Alike.rows (h : a.Alike b) (view : View) : view.table a = view.table b := by
  unfold View.table
  rw [← List.filterMap_eq_map]
  exact congrArg String.join (h.drawn _ fun _ _ _ _ => rfl)

/-- **A name leads to the same slot** in both tables, or nowhere. -/
theorem Alike.found (h : a.Alike b) (name : Symbol) :
    a.findEntry? name = none ∧ b.findEntry? name = none ∨
      ∃ e f slot, a.findEntry? name = some (e, slot) ∧ b.findEntry? name = some (f, slot) ∧
        e.conceal = f.conceal :=
  found_of_map Entry.name_conceal h name

/-- What is exposed in one of the tables is in the other. -/
theorem Alike.getElem? (h : a.Alike b) {slot : Nat} {entry : Entry}
    (he : a.entries[slot]? = some entry) (hexposed : entry.isExposed = true) :
    b.entries[slot]? = some entry := by
  have hslot := congrArg (·[slot]?) h
  simp only [List.getElem?_map, he, Option.map_some] at hslot
  obtain ⟨other, hother, hconceal⟩ := Option.map_eq_some_iff.mp hslot.symm
  rw [hother, Entry.eq_of_conceal_of_isExposed hconceal.symm hexposed]

end Table

/-! ## Frames -/

namespace Frame

/-- **Frames that agree on all that callers can see**: tables that are the same but for sealed
values, and the same values in all exposed cells. -/
structure Alike (f g : Frame) : Prop where
  table : f.table.Alike g.table
  length : f.cells.length = g.cells.length
  cells : ∀ (slot : Nat) (entry : Entry), f.table.entries[slot]? = some entry →
    entry.isExposed = true → f.cell slot = g.cell slot

theorem new_alike {a b : Action} (h : a.table.Alike b.table) : (new a).Alike (new b) where
  table := h
  length := by
    have hlength := congrArg List.length h
    simp only [List.length_map] at hlength
    simp only [new, List.length_map, hlength]
  cells slot entry he hexposed := by
    rw [Built.cell_new he, Built.cell_new (h.getElem? he hexposed)]

variable {f g : Frame}

/-- Entries that differ in sealed values only take the same values from callers. -/
theorem allow_conceal {a b : Entry} (h : a.conceal = b.conceal) (name : Symbol) (value : Value) :
    allow a name value = allow b name value :=
  Entry.eq_of_conceal (allow · name value) (fun _ _ _ => rfl) h

theorem Alike.put (h : f.Alike g) (slot : Nat) (value : Value) :
    (f.put slot value).Alike (g.put slot value) where
  table := h.table
  length := by
    rw [length_put, length_put]
    exact h.length
  cells i entry he hexposed := by
    have hcell := h.cells i entry he hexposed
    unfold cell at hcell
    unfold cell Frame.put
    simp only [List.getElem?_set, h.length]
    split
    · rfl
    · exact hcell

/-- **Filling a cell is refused alike, or keeps frames alike.** -/
theorem Alike.set (h : f.Alike g) (name : Symbol) (value : Value) :
    Paired Alike (f.set name value) (g.set name value) := by
  rcases h.table.found name with ⟨hf, hg⟩ | ⟨e, e', slot, hf, hg, hconceal⟩
  · rw [set_of_none hf, set_of_none hg]
    exact .refused _
  · exact set_paired hf hg (allow_conceal hconceal name value) fun _ _ => h.put slot value

theorem Alike.setAll (h : f.Alike g) (pairs : List (Symbol × Value)) :
    Paired Alike (f.setAll pairs) (g.setAll pairs) :=
  setAll_paired_all (fun pair _ _ _ h => Alike.set h pair.1 pair.2) h

/-- Frames filled alike were both filled, or both refused for the same reason. -/
theorem outcome_of_paired {x y : Except CallError Frame} (h : Paired Alike x y) :
    x.map (fun _ => ()) = y.map (fun _ => ()) := by
  cases h with
  | refused error => rfl
  | filled _ => rfl

/-- Callers read the same from both frames. -/
theorem Alike.get (h : f.Alike g) (name : Symbol) : f.get name = g.get name := by
  unfold Frame.get exposedEntry
  rcases h.table.found name with ⟨hf, hg⟩ | ⟨e, e', slot, hf, hg, hconceal⟩
  · rw [hf, hg]
  · have hexposed : e.isExposed = e'.isExposed :=
      Entry.eq_of_conceal Entry.isExposed (fun _ _ _ => rfl) hconceal
    rw [hf, hg]
    cases hvisible : e.isExposed with
    | false => simp [hvisible, ← hexposed]
    | true =>
      have hcell := h.cells slot e (Table.findEntry_some hf).2.1 hvisible
      simp [hvisible, ← hexposed, hcell]

end Frame

/-! ## Drafts -/

namespace Draft

/-- **Drafts whose entries are the same but for sealed values.** -/
structure Alike (d e : Draft) : Prop where
  left : d.scratch.Holds d.region
  right : e.scratch.Holds e.region
  entries : d.entries.map (·.conceal) = e.entries.map (·.conceal)

variable {d e : Draft}

theorem Alike.withEntries (h : d.Alike e) {xs ys : List Entry}
    (hentries : xs.map (·.conceal) = ys.map (·.conceal)) :
    (d.withEntries xs).Alike (e.withEntries ys) where
  left := Scratch.holds_update h.left _
  right := Scratch.holds_update h.right _
  entries := by
    have hd : (d.withEntries xs).entries = xs := Scratch.view_update h.left _
    have he : (e.withEntries ys).entries = ys := Scratch.view_update h.right _
    rw [hd, he]
    exact hentries

/-- Copies of two tables that are the same but for sealed values. -/
theorem copy_alike {draft : Draft} (holds : draft.scratch.Holds draft.region) {a b : Table}
    (h : a.Alike b) (sealing : Sealing) :
    (draft.copy a sealing).Alike (draft.copy b sealing) := by
  have hshows : draft.Shows draft.entries draft.outputSlot draft.description :=
    ⟨holds, rfl, rfl, rfl⟩
  have hcopies : (sealing.copies a).map (·.conceal) = (sealing.copies b).map (·.conceal) := by
    have hbody : a.body.map (·.conceal) = b.body.map (·.conceal) := by
      unfold Table.body
      rw [List.map_drop, List.map_drop, h]
    cases sealing with
    | preserve => exact hbody
    | sealFixed =>
      have hsealed : ∀ entries : List Entry, (entries.map (·.sealFixed)).map (·.conceal) =
          (entries.map (·.conceal)).map fun entry => entry.sealFixed.conceal := by
        intro entries
        rw [List.map_map, List.map_map]
        exact List.map_congr_left fun entry _ =>
          (Entry.conceal_sealFixed entry.conceal_conceal).symm
      show (a.body.map (·.sealFixed)).map (·.conceal) = (b.body.map (·.sealFixed)).map (·.conceal)
      rw [hsealed, hsealed, hbody]
  have ha := hshows.copy a sealing
  have hb := hshows.copy b sealing
  refine ⟨ha.holds, hb.holds, ?_⟩
  rw [ha.entries, hb.entries, List.map_append, List.map_append, hcopies]

/-- **Fixing a parameter is refused alike, or keeps drafts alike.** -/
theorem Alike.fix (h : d.Alike e) (name : Symbol) (value : Value) :
    (∃ error, d.fix name value = .error error ∧ e.fix name value = .error error) ∨
      ∃ d' e', d.fix name value = .ok d' ∧ e.fix name value = .ok e' ∧ d'.Alike e' := by
  -- A draft is searched as the table it would become.
  have hfound := Table.Alike.found (a := ⟨⟨0⟩, d.entries, none⟩) (b := ⟨⟨0⟩, e.entries, none⟩)
    h.entries name
  have hfind : ∀ draft : Draft,
      draft.find? name = Table.findEntry? ⟨⟨0⟩, draft.entries, none⟩ name := fun _ => rfl
  rw [← hfind, ← hfind] at hfound
  unfold Draft.fix
  rcases hfound with ⟨hd, he⟩ | ⟨entry, other, slot, hd, he, hconceal⟩
  · rw [hd, he]
    exact .inl ⟨_, rfl, rfl⟩
  · have hsame : fixEntry entry value = fixEntry other value :=
      Entry.eq_of_conceal (fixEntry · value) (fun _ _ _ => rfl) hconceal
    rw [hd, he]
    simp only [hsame]
    cases fixEntry other value with
    | error error => exact .inl ⟨error, rfl, rfl⟩
    | ok fixed =>
      refine .inr ⟨_, _, rfl, rfl, h.withEntries ?_⟩
      rw [List.map_set, List.map_set, h.entries]

/-- Any number of parameters is fixed with the same outcome. -/
theorem Alike.fixAll (bindings : List (Symbol × Value)) : ∀ {d e : Draft}, d.Alike e →
    (d.fixAll bindings).1 = (e.fixAll bindings).1 ∧
      (d.fixAll bindings).2.Alike (e.fixAll bindings).2 := by
  induction bindings with
  | nil => exact fun h => ⟨rfl, h⟩
  | cons pair rest ih =>
    intro d e h
    obtain ⟨name, value⟩ := pair
    unfold Draft.fixAll
    rcases h.fix name value with ⟨error, hd, he⟩ | ⟨d', e', hd, he, hnext⟩
    · rw [hd, he]
      exact ⟨rfl, h⟩
    · rw [hd, he]
      exact ih hnext

end Draft

/-! ## Actions -/

namespace Action

/-- **Actions that are the same but for sealed values**, as far as they say anything about
themselves. -/
structure Alike (a b : Action) : Prop where
  label : a.label = b.label
  description : a.description = b.description
  dispatcher : a.dispatcher = b.dispatcher
  derivation : a.derivation? = b.derivation?
  table : a.table.Alike b.table

/-- **Actions that inspection cannot tell apart.** -/
structure Indistinct (a b : Action) : Prop where
  parameters : a.table.exposed = b.table.exposed
  specializations : a.table.specializations = b.table.specializations
  shown : ∀ view : View, view.action a = view.action b
  tableShown : ∀ view : View, view.table a.table = view.table b.table
  reported : ∀ reporter : Reporter, reporter.action a = reporter.action b
  /-- After any arguments have been given, every name reads the same, or is refused alike, -/
  get : ∀ (given : List (Symbol × Value)) (name : Symbol),
    ((Frame.new a).setAll given >>= (·.get name)) = ((Frame.new b).setAll given >>= (·.get name))
  /-- and every further argument is taken, or refused alike. -/
  set : ∀ (given : List (Symbol × Value)) (name : Symbol) (value : Value),
    ((Frame.new a).setAll given >>= (·.set name value)).map (fun _ => ()) =
      ((Frame.new b).setAll given >>= (·.set name value)).map (fun _ => ())
  /-- In any draft that holds a copy of the table, whatever has been fixed before, every parameter
  is fixed, or refused alike. -/
  fix : ∀ (draft : Draft), draft.scratch.Holds draft.region → ∀ (sealing : Sealing)
    (fixed : List (Symbol × Value)) (name : Symbol) (value : Value),
    (((draft.copy a.table sealing).fixAll fixed).2.fix name value).map (fun _ => ()) =
      (((draft.copy b.table sealing).fixAll fixed).2.fix name value).map (fun _ => ())

variable {a b : Action}

theorem Alike.shown (h : a.Alike b) (view : View) : view.action a = view.action b := by
  unfold View.action
  rw [h.label, h.table.exposed]

theorem Alike.reported (h : a.Alike b) (reporter : Reporter) :
    reporter.action a = reporter.action b := by
  unfold Reporter.action
  rw [h.label, h.description, h.dispatcher, h.derivation, h.table.exposed,
    h.table.specializations]

end Action

/-- **Sealed values do not leak.** Actions that differ in nothing else are listed, shown and
reported alike, and take the same arguments and bindings. -/
theorem alike_indistinct {a b : Action} (h : a.Alike b) : a.Indistinct b where
  parameters := h.table.exposed
  specializations := h.table.specializations
  shown := h.shown
  tableShown := h.table.rows
  reported := h.reported
  get given name := by
    have hfilled := (Frame.new_alike h.table).setAll given
    generalize (Frame.new a).setAll given = left at hfilled ⊢
    generalize (Frame.new b).setAll given = right at hfilled ⊢
    cases hfilled with
    | refused error => rfl
    | filled hframes => exact hframes.get name
  set given name value := by
    have hfilled := (Frame.new_alike h.table).setAll given
    generalize (Frame.new a).setAll given = left at hfilled ⊢
    generalize (Frame.new b).setAll given = right at hfilled ⊢
    cases hfilled with
    | refused error => rfl
    | filled hframes => exact Frame.outcome_of_paired (hframes.set name value)
  fix draft holds sealing fixed name value := by
    have hdrafts := (Draft.Alike.fixAll fixed (Draft.copy_alike holds h.table sealing)).2
    rcases hdrafts.fix name value with ⟨error, ha, hb⟩ | ⟨_, _, ha, hb, -⟩
    · rw [ha, hb]
    · rw [ha, hb]
      rfl

namespace Workshop

/-- Addition with its second number fixed, and sealed by one more parameter. -/
def sealedAdd (w : Workshop) (add : Action) (number : Int64) : Option Action :=
  match w.specialize add ((add.table.positional.drop 1).map (·, .integer number)) with
  | (.ok specialized, w) => (w.augment specialized [.word ⟨99⟩] none).1.toOption
  | (.error _, _) => none

theorem sealedAdd_made : (fresh.trial 0 fun made add => (made.sealedAdd add 2).bind fun a =>
    (made.sealedAdd add 3).map fun b =>
      decide (a.table.entries ≠ b.table.entries ∧ a.label = b.label ∧
        a.description = b.description ∧ a.dispatcher = b.dispatcher ∧
        a.derivation? = b.derivation? ∧
        a.table.entries.map (·.conceal) = b.table.entries.map (·.conceal))) = some true := by
  decide +kernel

/-- Nobody can tell whether 2 or 3 is sealed in an addition. -/
theorem alike_indistinct_add : ∃ a b : Action, a.table.entries ≠ b.table.entries ∧ a.Alike b ∧
    a.Indistinct b := by
  obtain ⟨add, -, hrest⟩ := mem_of_trial sealedAdd_made
  obtain ⟨a, -, hrest⟩ := Option.bind_eq_some_iff.mp hrest
  obtain ⟨b, -, hdecide⟩ := Option.map_eq_some_iff.mp hrest
  obtain ⟨hdiffer, hlabel, hdescription, hdispatcher, hderivation, htable⟩ :=
    of_decide_eq_true hdecide
  have halike : a.Alike b := ⟨hlabel, hdescription, hdispatcher, hderivation, htable⟩
  exact ⟨a, b, hdiffer, halike, alike_indistinct halike⟩

end Workshop

end ActionKit
