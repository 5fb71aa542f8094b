import ActionKit.Proofs.Reach

/-!
# Where a draft says its output is

A draft keeps the slot of its output beside its entries. Copying a table takes over the slot that
the output has in the table, without regard to the parameters that the draft holds already, so that
the slot is right only if there are none. All else that is done to a draft keeps the slot as right,
or as wrong, as it was.

* `Draft.Edit`, `Draft.edits`: anything that is done to a draft, step after step.
* `Draft.Edited`: all that one edit can do.
* `Draft.Standing`: a draft whose output is a number of slots behind the one it says.
* `Finished.MarksOutput`: the slot of the output is where the output is.

Results:
* `items_preserves`: what taking an item keeps, taking items keeps.
* `Edited.names`, `Shows.edits`: no edit takes a name away, and no script does.
* `Standing.copy`, `Standing.edit`: by how much the output is behind after copying a table, and
  after any other edit.
* `Standing.edits`: by how much it is behind after a whole script, if all names differ.
* `finish_marksOutput`: the slot of a finished draft is right if and only if every table was copied
  into an empty draft.
-/

namespace ActionKit

/-! ## Names -/

/-- The names of the parameters among some entries. -/
def paramNames (entries : List Entry) : List Symbol := (entries.drop 1).map (·.name)

theorem paramNames_append (entries added : List Entry) :
    (paramNames entries).Sublist (paramNames (entries ++ added)) :=
  ((List.sublist_append_left entries added).drop 1).map _

theorem paramNames_modify (entries : List Entry) (slot : Nat) {f : Entry → Entry}
    (hf : ∀ entry, (f entry).name = entry.name) :
    paramNames (entries.modify slot f) = paramNames entries := by
  unfold paramNames
  apply List.ext_getElem?
  intro i
  rw [List.getElem?_map, List.getElem?_map, List.getElem?_drop, List.getElem?_drop,
    List.getElem?_modify]
  cases entries[1 + i]? with
  | none => rfl
  | some entry =>
    by_cases hi : slot = 1 + i
    · simp [hi, hf]
    · simp [hi]

/-! ## Declaring -/

namespace Declaring

/-- What taking an item keeps, taking items keeps, also where one is rejected. -/
theorem items_preserves (kept : Declaring → Prop)
    (step : ∀ {position state value next}, Taken position state value next → kept state → kept next)
    (spec : List Value) (position : Nat) {state : Declaring} (h : kept state) :
    kept (state.items position spec).2 := by
  induction spec generalizing position state with
  | nil => exact h
  | cons value rest ih =>
    unfold items
    cases hitem : state.item position value with
    | error error => exact h
    | ok next => exact ih _ (step (item_taken hitem) h)

/-- Taking an item takes no name away. -/
theorem Taken.names {position : Nat} {state next : Declaring} {value : Value}
    (h : Taken position state value next) :
    (paramNames state.entries).Sublist (paramNames next.entries) := by
  cases h with
  | description => exact .refl _
  | notes bytes slot =>
    show (paramNames _).Sublist (paramNames (state.entries.modify slot _))
    rw [paramNames_modify]
    exact fun _ => rfl
  | types items slot types =>
    show (paramNames _).Sublist (paramNames (state.entries.modify slot _))
    rw [paramNames_modify]
    exact fun _ => rfl
  | parameter value name role => exact paramNames_append _ _
  | output => exact paramNames_append _ _

/-- A spec takes no name away, also where it is rejected. -/
theorem run_names (state : Declaring) (spec : List Value) (withOutput : Bool) :
    (paramNames state.entries).Sublist
      (paramNames (state.run spec withOutput).2.entries) := by
  have hitems := items_preserves
    (fun next => (paramNames state.entries).Sublist (paramNames next.entries))
    (fun taken h => h.trans taken.names) spec 0 (.refl _)
  unfold run
  split
  · next h =>
    rw [h] at hitems
    exact hitems
  · next next h =>
    rw [h] at hitems
    split
    · refine hitems.trans ?_
      show (paramNames next.entries).Sublist (paramNames (next.entries.insertIdx 1 _))
      cases next.entries with
      | nil => exact .slnil
      | cons header params => exact .cons _ (.refl _)
    · exact hitems

/-- Taking an item leaves an output alone, whatever slot is recorded for it. -/
theorem Taken.lagging {position : Nat} {state next : Declaring} {value : Value}
    (h : Taken position state value next) (hs : state.Settled) {slot place : Nat}
    (hslot : state.outputSlot = some slot) (hl : Layout state.entries (some place)) :
    next.Settled ∧ next.outputSlot = some slot ∧ Layout next.entries (some place) := by
  -- The item does the same to a state that has the right slot.
  have right (hnext : next.outputSlot = some slot) (taken : Taken position
      { state with outputSlot := some place } value { next with outputSlot := some place }) :
      next.Settled ∧ next.outputSlot = some slot ∧ Layout next.entries (some place) :=
    ⟨(taken.layout hs hl).2, hnext, (taken.layout hs hl).1⟩
  cases h with
  | description bytes hcurrent hnone => exact right hslot (.description bytes hcurrent hnone)
  | notes bytes slot hcurrent hnone => exact right hslot (.notes bytes slot hcurrent hnone)
  | types items slot types hcurrent htypes hnone =>
    exact right hslot (.types items slot types hcurrent htypes hnone)
  | parameter value name role hhead hrole =>
    exact right hslot (.parameter value name role hhead hrole)
  | output hnone =>
    rw [hslot] at hnone
    cases hnone

/-- Where there is an output already, a spec leaves it where it is, whatever slot is recorded for
it. -/
theorem run_lagging {entries : List Entry} (slot : Nat) {place : Nat}
    (h : Layout entries (some place)) (spec : List Value) (withOutput : Bool) :
    (run { entries, outputSlot := some slot } spec withOutput).2.outputSlot = some slot ∧
      Layout (run { entries, outputSlot := some slot } spec withOutput).2.entries (some place) := by
  have hsettled : Settled { entries, outputSlot := some slot } := nofun
  have hitems := items_preserves
    (fun state => state.Settled ∧ state.outputSlot = some slot ∧ Layout state.entries (some place))
    (fun taken h => taken.lagging h.1 h.2.1 h.2.2) spec 0 ⟨hsettled, rfl, h⟩
  unfold run
  split
  · next h =>
    rw [h] at hitems
    exact hitems.2
  · next next h =>
    rw [h] at hitems
    rw [hitems.2.1]
    simp only [Option.isNone_some, Bool.and_false]
    exact hitems.2

end Declaring

/-! ## Layouts -/

namespace Layout

variable {entries : List Entry} {outputSlot : Option Nat}

/-- The output is among the parameters, by its name. -/
theorem output_mem (h : Layout entries outputSlot) {slot : Nat} (hs : outputSlot = some slot) :
    .output ∈ paramNames entries := by
  obtain ⟨h0, entry, types, he, hc⟩ := h.output_slot hs
  have hmem : entry ∈ (Table.mk ⟨0⟩ entries none).body := Table.mem_body_iff.mpr ⟨slot, h0, he⟩
  exact List.mem_map.mpr ⟨entry, hmem,
    (h.proper entry hmem).name_of_output (Entry.role?_eq_some_iff.mpr ⟨types, hc⟩)⟩

/-- An open parameter other than the output may be fixed. -/
theorem fix (h : Layout entries outputSlot) {slot : Nat} (h0 : slot ≠ 0) {entry : Entry}
    (he : entries[slot]? = some entry) {value : Value} (ha : entry.Admits value) :
    Layout (entries.set slot { entry with content := .fixed value }) outputSlot where
  header := by
    obtain ⟨slot, rfl⟩ := Nat.exists_eq_succ_of_ne_zero h0
    rw [h.header]
    rfl
  proper other ho := by
    obtain ⟨slot, rfl⟩ := Nat.exists_eq_succ_of_ne_zero h0
    rw [h.header, List.set_cons_succ, List.drop_one, List.tail_cons] at ho
    rcases List.mem_or_eq_of_mem_set ho with ho | rfl
    · exact h.proper other ho
    · exact ⟨by simp, fun _ => rfl, nofun⟩
  output i := by
    obtain ⟨role, types, hopen, hrole, -⟩ := ha
    rw [← h.output i]
    by_cases hi : slot = i
    · subst hi
      rw [List.getElem?_set_self (List.getElem?_eq_some_iff.mp he).1, he, Option.bind_some,
        Option.bind_some, hopen.role?]
      simp [Entry.role?, hrole]
    · rw [List.getElem?_set_ne hi]

/-- The parameters of a table may be put behind others that are no outputs. Its output is then as
many slots behind as there were parameters. -/
theorem appendTable (h : Layout entries none) {table : Table} (ht : table.WellFormed)
    (sealing : Sealing) : Layout (entries ++ sealing.copies table)
      (table.outputSlot.map (· + (entries.length - 1))) := by
  obtain ⟨own, hown⟩ := Option.isSome_iff_exists.mp ht.hasOutput
  have hparam : own ≠ 0 := (ht.layout.output_slot hown).1
  have hpos := h.pos
  have hcopies : ∀ entry ∈ sealing.copies table, entry.Proper := by
    intro entry he
    cases sealing with
    | preserve => exact ht.layout.proper entry he
    | sealFixed =>
      obtain ⟨old, hold, rfl⟩ := List.mem_map.mp he
      exact (ht.layout.proper old hold).sealFixed
  have hroles : ∀ i, (sealing.copies table)[i]?.bind (·.role?) =
      table.entries[1 + i]?.bind (·.role?) := by
    intro i
    cases sealing with
    | preserve =>
      show (table.entries.drop 1)[i]?.bind _ = _
      rw [List.getElem?_drop]
    | sealFixed =>
      show ((table.entries.drop 1).map _)[i]?.bind _ = _
      rw [List.getElem?_map, List.getElem?_drop]
      cases table.entries[1 + i]? <;> simp
  refine ⟨?_, fun entry he => ?_, fun slot => ?_⟩
  · rw [h.drop_append, ← List.cons_append, ← h.header]
  · rw [h.drop_append] at he
    rcases List.mem_append.mp he with he | he
    · exact h.proper entry he
    · exact hcopies entry he
  · by_cases hlt : slot < entries.length
    · rw [List.getElem?_append_left hlt, h.output slot, hown]
      simp
      omega
    · rw [List.getElem?_append_right (by omega), hroles, ht.layout.output, hown]
      simp
      omega

end Layout

/-! ## Edits -/

namespace Draft

/-- Anything that is done to a draft before it ends. -/
inductive Edit where
  | copy (table : Table) (sealing : Sealing)
  | declare (spec : List Value) (withOutput : Bool)
  | fix (name : Symbol) (value : Value)
  | inherit (description : Option Bytes)

/-- Edit a draft. What a spec declares before it is rejected stays, and a parameter that may not be
fixed leaves the draft as it is. -/
def edit (draft : Draft) : Edit → Draft
  | .copy table sealing => draft.copy table sealing
  | .declare spec withOutput => (draft.declare spec withOutput).2
  | .fix name value =>
    match draft.fix name value with
    | .ok next => next
    | .error _ => draft
  | .inherit description => draft.inherit description

/-- Edit a draft step after step. -/
def edits (draft : Draft) (script : List Edit) : Draft := script.foldl edit draft

/-- **All that an edit can do** to the entries and the output slot of a draft. -/
inductive Edited (entries : List Entry) (outputSlot : Option Nat) :
    Edit → List Entry → Option Nat → Prop
  | copy (table : Table) (sealing : Sealing) : Edited entries outputSlot (.copy table sealing)
      (entries ++ sealing.copies table) (table.outputSlot <|> outputSlot)
  | declare (spec : List Value) (withOutput : Bool) :
      Edited entries outputSlot (.declare spec withOutput)
        (Declaring.run { entries, outputSlot } spec withOutput).2.entries
        (Declaring.run { entries, outputSlot } spec withOutput).2.outputSlot
  | fix (value : Value) (slot : Nat) (entry : Entry) (param : slot ≠ 0)
      (found : entries[slot]? = some entry) (admits : entry.Admits value) :
      Edited entries outputSlot (.fix entry.name value)
        (entries.set slot { entry with content := .fixed value }) outputSlot
  | refused (name : Symbol) (value : Value) :
      Edited entries outputSlot (.fix name value) entries outputSlot
  | inherit (description : Option Bytes) :
      Edited entries outputSlot (.inherit description) entries outputSlot

variable {draft : Draft} {entries next : List Entry} {outputSlot nextSlot : Option Nat}
  {description : Option Bytes}

/-- **One edit**, by what the draft shows before and after it. -/
theorem Shows.edit (h : draft.Shows entries outputSlot description) (edit : Edit) :
    ∃ next nextSlot described, Edited entries outputSlot edit next nextSlot ∧
      (draft.edit edit).Shows next nextSlot described := by
  cases edit with
  | copy table sealing => exact ⟨_, _, _, .copy table sealing, h.copy table sealing⟩
  | declare spec withOutput =>
    obtain ⟨described, hshows⟩ := h.declare_snd spec withOutput
    exact ⟨_, _, described, .declare spec withOutput, hshows⟩
  | fix name value =>
    cases hfix : draft.fix name value with
    | error error =>
      refine ⟨_, _, description, .refused name value, ?_⟩
      simpa only [Draft.edit, hfix] using h
    | ok fixed =>
      obtain ⟨slot, entry, h0, hs, rfl, ha, hshows⟩ := h.fix_set hfix
      refine ⟨_, _, description, .fix value slot entry h0 hs ha, ?_⟩
      simpa only [Draft.edit, hfix] using hshows
  | inherit described => exact ⟨_, _, _, .inherit described, h.inherit described⟩

/-! ## What edits keep -/

/-- No edit takes a name away. -/
theorem Edited.names {edit : Edit} (h : Edited entries outputSlot edit next nextSlot) :
    (paramNames entries).Sublist (paramNames next) := by
  cases h with
  | copy table sealing => exact paramNames_append _ _
  | declare spec withOutput => exact Declaring.run_names { entries, outputSlot } spec withOutput
  | fix value slot entry param found admits =>
    have hset : entries.set slot { entry with content := .fixed value } =
        entries.modify slot ({ · with content := .fixed value }) := by
      rw [List.modify_eq_set_getElem?, found]
      rfl
    rw [hset, paramNames_modify]
    exact fun _ => rfl
  | refused => exact .refl _
  | inherit => exact .refl _

/-- The output is a number of slots behind the one that is recorded, if one is. -/
structure Lags (entries : List Entry) (outputSlot : Option Nat) (lag : Nat) : Prop where
  layout : Layout entries (outputSlot.map (· + lag))
  unlagged : outputSlot = none → lag = 0

/-- The recorded slot is right if and only if the output is not behind it. -/
theorem Lags.marks_iff {lag : Nat} (h : Lags entries outputSlot lag) :
    (∀ slot, entries[slot]?.bind (·.role?) = some .output ↔ outputSlot = some slot) ↔ lag = 0 := by
  constructor
  · intro hmarks
    cases outputSlot with
    | none => exact h.unlagged rfl
    | some slot =>
      have hat := (hmarks (slot + lag)).mp ((h.layout.output (slot + lag)).mpr rfl)
      have := Option.some.inj hat
      omega
  · rintro rfl slot
    rw [h.layout.output slot]
    simp

/-- **One edit** other than copying leaves the output as far behind as it was. -/
theorem Edited.lags {edit : Edit} (h : Edited entries outputSlot edit next nextSlot)
    (plain : ∀ table sealing, edit ≠ .copy table sealing) {lag : Nat}
    (hl : Lags entries outputSlot lag) : Lags next nextSlot lag := by
  cases h with
  | copy table sealing => exact absurd rfl (plain table sealing)
  | declare spec withOutput =>
    cases outputSlot with
    | none =>
      obtain rfl := hl.unlagged rfl
      have hrun := (Prod.eta (Declaring.run { entries, outputSlot := none } spec withOutput)).symm
      have hlayout := Declaring.run_layout hrun rfl hl.layout
      exact ⟨by simpa using hlayout, fun _ => rfl⟩
    | some slot =>
      obtain ⟨hslot, hlayout⟩ := Declaring.run_lagging slot hl.layout spec withOutput
      rw [hslot]
      exact ⟨hlayout, nofun⟩
  | fix value slot entry param found admits =>
    exact ⟨hl.layout.fix param found admits, hl.unlagged⟩
  | refused => exact hl
  | inherit => exact hl

/-- **A draft whose output is a number of slots behind the one that it says.** -/
structure Standing (draft : Draft) (lag : Nat) : Prop where
  holds : draft.scratch.Holds draft.region
  lags : Lags draft.entries draft.outputSlot lag

theorem start_standing (scratch : Scratch) : (start scratch).Standing 0 := by
  have h := start_shows scratch
  refine ⟨h.holds, ?_⟩
  rw [h.entries, h.outputSlot]
  exact ⟨.start, fun _ => rfl⟩

theorem Standing.shows {lag : Nat} (h : draft.Standing lag) :
    draft.Shows draft.entries draft.outputSlot draft.description :=
  ⟨h.holds, rfl, rfl, rfl⟩

theorem Standing.edit {lag : Nat} (h : draft.Standing lag) {edit : Edit}
    (plain : ∀ table sealing, edit ≠ .copy table sealing) : (draft.edit edit).Standing lag := by
  obtain ⟨next, nextSlot, described, hedited, hshows⟩ := h.shows.edit edit
  refine ⟨hshows.holds, ?_⟩
  rw [hshows.entries, hshows.outputSlot]
  exact hedited.lags plain h.lags

/-- A draft without the name of the output has no output. -/
theorem Standing.without_output {lag : Nat} (h : draft.Standing lag)
    (hnew : .output ∉ paramNames draft.entries) : Layout draft.entries none := by
  have hlayout := h.lags.layout
  cases hslot : draft.outputSlot with
  | none => rwa [hslot] at hlayout
  | some slot =>
    rw [hslot] at hlayout
    exact absurd (hlayout.output_mem rfl) hnew

/-- **Copying a table** into a draft without an output leaves the output as many slots behind as
the draft had parameters. -/
theorem Standing.copy {lag : Nat} (h : draft.Standing lag) (hnone : Layout draft.entries none)
    {table : Table} (ht : table.WellFormed) (sealing : Sealing) :
    (draft.copy table sealing).Standing (draft.entries.length - 1) := by
  have hshows := h.shows.copy table sealing
  obtain ⟨slot, hslot⟩ := Option.isSome_iff_exists.mp ht.hasOutput
  have hcopied := hnone.appendTable ht sealing
  refine ⟨hshows.holds, ?_⟩
  rw [hshows.entries, hshows.outputSlot, hslot]
  rw [hslot] at hcopied
  exact ⟨hcopied, nofun⟩

/-- What copying a table puts into a draft, by name. -/
theorem Standing.names_copy {lag : Nat} (h : draft.Standing lag) (table : Table)
    (sealing : Sealing) : paramNames (draft.copy table sealing).entries =
      paramNames draft.entries ++ paramNames table.entries := by
  have hcopies : (sealing.copies table).map (·.name) = paramNames table.entries := by
    cases sealing with
    | preserve => rfl
    | sealFixed => simp [Sealing.copies, paramNames, Table.body, Function.comp_def]
  rw [(h.shows.copy table sealing).entries, paramNames, h.lags.layout.drop_append, List.map_append,
    hcopies]
  rfl

/-- **Edits show something and take no name away**, whatever they are. -/
theorem Shows.edits (script : List Edit) {draft : Draft} {entries : List Entry}
    {outputSlot : Option Nat} {description : Option Bytes}
    (h : draft.Shows entries outputSlot description) :
    ∃ next nextSlot described, (draft.edits script).Shows next nextSlot described ∧
      (paramNames entries).Sublist (paramNames next) := by
  induction script generalizing draft entries outputSlot description with
  | nil => exact ⟨_, _, _, h, .refl _⟩
  | cons edit rest ih =>
    obtain ⟨middle, middleSlot, _, hedited, hmiddle⟩ := h.edit edit
    obtain ⟨next, nextSlot, described, hshows, hnames⟩ := ih hmiddle
    exact ⟨next, nextSlot, described, hshows, hedited.names.trans hnames⟩

/-- **Where the output is after a script** whose names differ in the end. -/
structure Outcome (draft : Draft) (lag : Nat) (script : List Edit) (final : Nat) : Prop where
  standing : (draft.edits script).Standing final
  /-- Without copying, the output is as far behind as it was. -/
  plain : (∀ table sealing, .copy table sealing ∉ script) → final = lag
  /-- There is none when a table is copied, and then it is as far behind as there were
  parameters. -/
  copied : ∀ before table sealing after, script = before ++ .copy table sealing :: after →
    Layout (draft.edits before).entries none ∧ final = (draft.edits before).entries.length - 1
  /-- Nothing is copied if there is an output already. -/
  once : .output ∈ paramNames draft.entries → ∀ table sealing, .copy table sealing ∉ script

/-- **A whole script**, by induction on its edits. -/
theorem Standing.edits {script : List Edit}
    (tables : ∀ table sealing, .copy table sealing ∈ script → table.WellFormed) {draft : Draft}
    {lag : Nat} (h : draft.Standing lag)
    (distinct : (paramNames (draft.edits script).entries).Nodup) :
    ∃ final, draft.Outcome lag script final := by
  induction script generalizing draft lag with
  | nil => exact ⟨lag, h, fun _ => rfl, by simp, by simp⟩
  | cons edit rest ih =>
    have htables : ∀ table sealing, .copy table sealing ∈ rest → table.WellFormed :=
      fun table sealing hmem => tables table sealing (List.mem_cons_of_mem _ hmem)
    by_cases hplain : ∀ table sealing, edit ≠ .copy table sealing
    · have hnext := h.edit hplain
      obtain ⟨final, hrest⟩ := ih htables hnext distinct
      obtain ⟨next, nextSlot, described, hedited, hshows⟩ := h.shows.edit edit
      have hnames : (paramNames draft.entries).Sublist (paramNames (draft.edit edit).entries) :=
        hshows.entries ▸ hedited.names
      refine ⟨final, hrest.standing, fun hno => ?_, ?_, ?_⟩
      · exact hrest.plain fun table sealing hmem =>
          hno table sealing (List.mem_cons_of_mem _ hmem)
      · rintro (_ | ⟨first, before⟩) table sealing after heq
        · exact absurd (List.cons.inj heq).1 (hplain table sealing)
        · obtain ⟨rfl, hafter⟩ := List.cons.inj heq
          exact hrest.copied before table sealing after hafter
      · intro houtput table sealing hmem
        rcases List.mem_cons.mp hmem with heq | hmem
        · exact hplain table sealing heq.symm
        · exact hrest.once (hnames.subset houtput) table sealing hmem
    · obtain ⟨table, sealing, rfl⟩ : ∃ table sealing, edit = .copy table sealing := by
        simpa using hplain
      have ht := tables table sealing List.mem_cons_self
      obtain ⟨slot, hslot⟩ := Option.isSome_iff_exists.mp ht.hasOutput
      have hcopied := ht.layout.output_mem hslot
      -- The names after copying are among the last ones, so that they differ as well.
      have hnodup : (paramNames draft.entries ++ paramNames table.entries).Nodup := by
        have hshows := h.shows.copy table sealing
        obtain ⟨_, _, _, hlast, hnames⟩ := hshows.edits rest
        rw [← hshows.entries, h.names_copy, ← hlast.entries] at hnames
        exact distinct.sublist hnames
      have hnew : .output ∉ paramNames draft.entries :=
        fun hmem => List.disjoint_of_nodup_append hnodup hmem hcopied
      have hnone := h.without_output hnew
      obtain ⟨final, hrest⟩ := ih htables (h.copy hnone ht sealing) distinct
      have hno := hrest.once (by rw [h.names_copy]; exact List.mem_append_right _ hcopied)
      refine ⟨final, hrest.standing, fun hno => ?_, ?_, fun hmem => absurd hmem hnew⟩
      · exact absurd List.mem_cons_self (hno table sealing)
      · rintro (_ | ⟨first, before⟩) other otherSealing after heq
        · exact ⟨hnone, hrest.plain hno⟩
        · obtain ⟨-, rfl⟩ := List.cons.inj heq
          exact absurd (by simp) (hno other otherSealing)

end Draft

/-! ## Finished drafts -/

/-- **The slot of the output is where the output is**, and there is no other output. -/
def Finished.MarksOutput (finished : Finished) : Prop :=
  ∀ slot, finished.entries[slot]?.bind (·.role?) = some .output ↔ finished.outputSlot = some slot

namespace Draft

/-- **The slot of a finished draft is right if and only if every table was copied into an empty
draft.** Otherwise the output is as many slots behind as there were parameters when the table was
copied. -/
theorem finish_marksOutput {script : List Edit}
    (tables : ∀ table sealing, .copy table sealing ∈ script →
      ∃ w : Workshop, w.Reachable ∧ ∃ action ∈ w.actions, action.table = table)
    {scratch rest : Scratch} {finished : Finished}
    (h : ((start scratch).edits script).finish = (.ok finished, rest)) :
    (finished.MarksOutput ↔ ∀ before table sealing after,
      script = before ++ .copy table sealing :: after →
        ((start scratch).edits before).entries = [.header]) ∧
    ∀ before table sealing after, script = before ++ .copy table sealing :: after → ∀ slot,
      finished.entries[slot]?.bind (·.role?) = some .output ↔
        finished.outputSlot.map (· + (((start scratch).edits before).entries.length - 1)) =
          some slot := by
  have hwell : ∀ table sealing, .copy table sealing ∈ script → table.WellFormed := by
    intro table sealing hmem
    obtain ⟨w, hw, action, haction, rfl⟩ := tables table sealing hmem
    exact hw.sound.wellFormed haction
  have hstart := start_standing scratch
  obtain ⟨entries, outputSlot, description, hshows, -⟩ := hstart.shows.edits script
  obtain ⟨rfl, hdistinct⟩ := hshows.finish h
  obtain ⟨final, hout⟩ := hstart.edits hwell (hshows.entries ▸ hdistinct)
  have hlags := hout.standing.lags
  rw [hshows.entries, hshows.outputSlot] at hlags
  refine ⟨hlags.marks_iff.trans ⟨fun hright before table sealing after heq => ?_,
    fun hempty => ?_⟩, fun before table sealing after heq slot => ?_⟩
  · obtain ⟨hlayout, hlag⟩ := hout.copied before table sealing after heq
    rw [hlayout.header, List.drop_eq_nil_of_le (by omega)]
  · by_cases hno : ∀ table sealing, .copy table sealing ∉ script
    · exact hout.plain hno
    · obtain ⟨table, sealing, hmem⟩ : ∃ table sealing, .copy table sealing ∈ script := by
        simpa using hno
      obtain ⟨before, after, heq⟩ := List.append_of_mem hmem
      rw [(hout.copied before table sealing after heq).2, hempty before table sealing after heq]
      rfl
  · rw [← (hout.copied before table sealing after heq).2]
    exact hlags.layout.output slot

theorem add_copied_finished : (Workshop.fresh.trial 0 fun _ add =>
    match ((start {}).edits [.declare [.setWord ⟨99⟩] true, .copy add.table .sealFixed,
      .declare [.word ⟨99⟩] true]).finish,
      ((start {}).edits [.declare [.word ⟨99⟩] false, .copy add.table .preserve]).finish with
    | (.ok _, _), (.ok behind, _) => some (behind.outputSlot, behind.entries[2]?.bind (·.role?))
    | _, _ => none) = some (some 1, some .output) := by
  decide +kernel

/-- A spec is rejected before it declares anything, then addition is copied and given one more
parameter. -/
theorem finish_marksOutput_add : ∃ add ∈ Workshop.fresh.actions, ∃ finished rest,
    ((start {}).edits [.declare [.setWord ⟨99⟩] true, .copy add.table .sealFixed,
      .declare [.word ⟨99⟩] true]).finish = (.ok finished, rest) ∧ finished.MarksOutput := by
  obtain ⟨add, hmem, hmatch⟩ := Workshop.mem_of_trial add_copied_finished
  split at hmatch
  · next finished rest _ _ hfinish _ =>
    refine ⟨add, hmem, finished, rest, hfinish, (finish_marksOutput ?_ hfinish).1.mpr ?_⟩
    · intro table sealing hcopy
      simp only [List.mem_cons, List.not_mem_nil, reduceCtorEq, Edit.copy.injEq, or_false,
        false_or] at hcopy
      exact ⟨_, .refl, add, hmem, hcopy.1.symm⟩
    · rintro (_ | ⟨_, _ | ⟨_, _ | ⟨_, before⟩⟩⟩) table sealing after heq
      · simp at heq
      · obtain ⟨rfl, -⟩ := List.cons.inj heq
        decide
      · simp at heq
      · simp at heq
  · cases hmatch

/-- Addition is copied behind a parameter, which is then taken for the output. -/
theorem finish_misses_output : ∃ add ∈ Workshop.fresh.actions, ∃ finished rest,
    ((start {}).edits [.declare [.word ⟨99⟩] false, .copy add.table .preserve]).finish =
      (.ok finished, rest) ∧ finished.outputSlot = some 1 ∧
      finished.entries[2]?.bind (·.role?) = some .output ∧ ¬finished.MarksOutput := by
  obtain ⟨add, hmem, hmatch⟩ := Workshop.mem_of_trial add_copied_finished
  split at hmatch
  · next finished rest _ hfinish =>
    obtain ⟨hslot, houtput⟩ := Prod.mk.inj (Option.some.inj hmatch)
    refine ⟨add, hmem, finished, rest, hfinish, hslot, houtput, ?_⟩
    intro hmarks
    have htwo := (hmarks 2).mp houtput
    rw [hslot] at htwo
    cases htwo
  · cases hmatch

end Draft

end ActionKit
