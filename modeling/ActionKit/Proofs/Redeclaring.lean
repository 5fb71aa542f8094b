import ActionKit.Proofs.Constraints
import ActionKit.Proofs.Registration
import ActionKit.Proofs.RoundTrip

/-!
# Declaring a parameter again

A parameter is shown as it would be declared: by its name with the mark of its role, and by a block
of the datatypes that its constraint names. Reading that and declaring it gives the parameter again,
if its name is one that can be read.

* `Within`: a value stands among some values, or in a block among them.
* `Workshop.HasRead`: a value was read at some time on the way to a workshop.
* `Head.of`: what declares a parameter of a name and a role.

Results:
* `Means.run_of_within`: what is read, texts and blocks apart, is the value of a run.
* `HasRead.writable`: a name that was read as a word, a set-word or a refinement can be read again.
* `view_entry`, `view_constraint`: parameters and constraints are shown as values.
* `declare_group`: a group that is declared alone gives its parameter.
* `entry_redeclared`: **a parameter is declared again by what it is shown as**.
-/

namespace ActionKit

/-! ## What has been read -/

/-- A value stands among some values, or in a block among them. -/
inductive Within (value : Value) : List Value → Prop
  | head {rest : List Value} : Within value (value :: rest)
  | inside {items rest : List Value} (inner : Within value items) :
      Within value (.block items :: rest)
  | tail {first : Value} {rest : List Value} (later : Within value rest) :
      Within value (first :: rest)

namespace SpecText

variable {types : TypeRegistry} {names : Names} {run : List Char} {value : Value}

/-- The literals are integers, truth values and `none`. -/
theorem Token.Classified.literal_cases (h : Token.Classified run (.literal value)) :
    value = .none ∨ (∃ truth, value = .logic truth) ∨ ∃ number, value = .integer number := by
  cases h with
  | integer _ _ => exact .inr (.inr ⟨_, rfl⟩)
  | literal _ _ spelled =>
    cases spelled with
    | none => exact .inl rfl
    | true => exact .inr (.inl ⟨true, rfl⟩)
    | false => exact .inr (.inl ⟨false, rfl⟩)

/-- No run is a block. -/
theorem RunDenotes.ne_block (h : RunDenotes types names run value) (items : List Value) :
    value ≠ .block items := by
  obtain ⟨token, hclass, hdenotes⟩ := h
  rintro rfl
  generalize hvalue : Value.block items = value at hdenotes
  cases hdenotes with
  | literal =>
    subst hvalue
    simpa using hclass.literal_cases
  | @typeName _ term _ => cases term <;> cases hvalue
  | _ => cases hvalue

/-- **What is read, texts and blocks apart, is the value of a run.** -/
theorem Means.run_of_within {trees : List Tree} {shapes : List Shape} (hd : Derives trees shapes)
    {values : List Value} (h : Means types names trees values) (hin : Within value values) :
    (∃ items, value = .block items) ∨ (∃ bytes, value = .text bytes) ∨
      ∃ run, .run run ∈ shapes ∧ RunDenotes types names run value := by
  induction hd generalizing values with
  | nil =>
    cases h
    cases hin
  | token run _ ih =>
    cases h with
    | token first rest =>
      cases hin with
      | head => exact .inr (.inr ⟨run, List.mem_cons_self, first⟩)
      | inside => exact absurd rfl (first.ne_block _)
      | tail later =>
        exact (ih rest later).imp_right (.imp_right fun ⟨other, hmem, hdenotes⟩ =>
          ⟨other, List.mem_cons_of_mem _ hmem, hdenotes⟩)
  | text content _ ih =>
    cases h with
    | text _ rest =>
      cases hin with
      | head => exact .inr (.inl ⟨_, rfl⟩)
      | tail later =>
        exact (ih rest later).imp_right (.imp_right fun ⟨other, hmem, hdenotes⟩ =>
          ⟨other, List.mem_cons_of_mem _ hmem, hdenotes⟩)
  | block _ _ ihInner ih =>
    cases h with
    | block inner rest =>
      cases hin with
      | head => exact .inl ⟨_, rfl⟩
      | inside inside =>
        exact (ihInner inner inside).imp_right (.imp_right fun ⟨other, hmem, hdenotes⟩ =>
          ⟨other, by simp [hmem], hdenotes⟩)
      | tail later =>
        exact (ih rest later).imp_right (.imp_right fun ⟨other, hmem, hdenotes⟩ =>
          ⟨other, by simp [hmem], hdenotes⟩)

/-- A run is made of the characters that runs are made of. -/
theorem Cut.run_chars {text : List Char} {shapes : List Shape} (h : Cut text shapes)
    (hmem : .run run ∈ shapes) : ∀ c ∈ run, isRunChar c = true := by
  induction h with
  | nil => exact absurd hmem List.not_mem_nil
  | blank _ _ ih => exact ih hmem
  | opening _ ih => exact ih (by simpa using hmem)
  | closing _ ih => exact ih (by simpa using hmem)
  | text _ _ ih => exact ih (by simpa using hmem)
  | run _ chars _ _ ih =>
    rcases List.mem_cons.mp hmem with heq | hrest
    · obtain rfl := Shape.run.inj heq
      exact chars
    · exact ih hrest

theorem Nameable.of_valid {name : List Char} (valid : validName name = true)
    (chars : ∀ c ∈ name, isRunChar c = true) : Nameable name := by
  cases name with
  | nil => cases valid
  | cons c rest =>
    obtain ⟨hstart, hall⟩ := Bool.and_eq_true_iff.mp valid
    have hmarks : ∀ d ∈ c :: rest, d ≠ '/' ∧ d ≠ ':' ∧ d ≠ '!' := fun d hd => by
      simpa [and_assoc] using List.all_eq_true.mp hall d hd
    refine ⟨List.cons_ne_nil _ _, chars, ⟨?_, ?_, ?_⟩, ?_⟩
    · exact fun hmem => (hmarks _ hmem).1 rfl
    · exact fun hmem => (hmarks _ hmem).2.1 rfl
    · exact fun hmem => (hmarks _ hmem).2.2 rfl
    · rintro _ ⟨⟩
      simpa using hstart

end SpecText

/-! ## Names that have been read -/

/-- What declares a parameter of a name and a role. -/
def Head.of (name : Symbol) : Role → Head
  | .normal => .word name
  | .refinement => .refinement name
  | .output => .output

theorem Head.role_of (name : Symbol) (role : Role) : (Head.of name role).role = role := by
  cases role <;> rfl

namespace Workshop

open SpecText

variable {w w' : Workshop}

theorem Leads.readSpec {text : String} {result : Except BuildError (List Value)}
    (h : w.readSpec text = (result, w')) : w.Leads w' := by
  have hstep := Step.readSpec w text
  rw [h] at hstep
  exact .single hstep

/-- **A value was read on the way to a workshop**: it stands in what some text was read as. -/
def HasRead (w : Workshop) (value : Value) : Prop :=
  ∃ (before after : Workshop) (text : String) (values : List Value), before.Reachable ∧
    before.readSpec text = (.ok values, after) ∧ Within value values ∧ after.Leads w

/-- The output can be written as it is declared. -/
theorem Catalogued.writable_output (hw : w.Catalogued) : w.Writable Head.output.item := by
  have hspelled : w.names.resolve? .output = some (.ofChars "return".toList) :=
    hw.initial.resolve? rfl
  exact .setWord hspelled ⟨by decide, List.all_eq_true.mp rfl, by decide, by rintro _ ⟨⟩; rfl⟩

/-- A head that is the value of a run can be written, wherever the names of the run are known. -/
theorem writable_of_run {types : TypeRegistry} {names : Names}
    {run : List Char} {head : Head} (chars : ∀ c ∈ run, isRunChar c = true)
    (h : RunDenotes types names run head.item) (hgrows : names.Grows w.names) :
    w.Writable head.item := by
  obtain ⟨token, hclass, hdenotes⟩ := h
  have hspelled : ∀ {name : List Char} {symbol : Symbol},
      names.find? (.ofChars name) = some symbol →
        w.names.resolve? symbol = some (.ofChars name) :=
    fun hfind => hgrows.resolve? (Names.find?_eq_some_resolve? hfind)
  generalize hvalue : head.item = value at hdenotes
  cases hdenotes with
  | literal value =>
    rcases hclass.literal_cases with rfl | ⟨_, rfl⟩ | ⟨_, rfl⟩ <;> cases head <;> cases hvalue
  | @typeName _ term _ => cases term <;> cases head <;> cases hvalue
  | word interned =>
    cases hclass with
    | word unmarked nonnumeral nonliteral valid =>
      refine .word (hspelled interned) (.of_valid valid chars) (fun hmem => ?_) nonnumeral
      obtain ⟨value, spelled⟩ := Token.exists_literal_iff.mpr hmem
      exact nonliteral value spelled
  | setWord interned =>
    cases hclass with
    | setWord slash colon valid =>
      subst colon
      exact .setWord (hspelled interned)
        (.of_valid valid fun c hc => chars c (List.mem_append_left _ hc))
  | refinement interned =>
    cases hclass with
    | refinement valid =>
      exact .refinement (hspelled interned)
        (.of_valid valid fun c hc => chars c (List.mem_cons_of_mem _ hc))

/-- **A name that was read can be read again**, as the same kind of item. -/
theorem HasRead.writable {head : Head} (h : w.HasRead head.item) :
    w.Writable head.item := by
  obtain ⟨before, after, text, values, hbefore, hread, hin, hleads⟩ := h
  have hafter := hbefore.leads (.readSpec hread)
  have hvalues : (read before.types before.names text.toList).1 = .ok values :=
    congrArg Prod.fst hread
  have hnames : (read before.types before.names text.toList).2 = after.names :=
    congrArg (·.2.names) hread
  obtain ⟨shapes, trees, hcut, hderives, hevaluates⟩ :=
    read_eq_ok_iff.mp (Prod.ext hvalues hnames)
  rcases hevaluates.means.run_of_within hderives hin with ⟨_, hblock⟩ | ⟨_, htext⟩ |
    ⟨run, hmem, hdenotes⟩
  · cases head <;> cases hblock
  · cases head <;> cases htext
  · exact writable_of_run (hcut.run_chars hmem) hdenotes (hleads.retains hafter).names

/-! ## What is shown -/

section Entries

variable {table : Table} {entry : Entry} {role : Role} {types : Constraint}

/-- The name of an unbound parameter is the one that declares it: that of the output is given. -/
theorem head_name (hw : w.Reachable) (htable : table ∈ w.tables) (hentry : entry ∈ table.entries)
    (hcontent : entry.content = .unbound role types) :
    (Head.of entry.name role).name = entry.name := by
  cases role with
  | normal => rfl
  | refinement => rfl
  | output =>
    have hwf := hw.sound.tables_wellFormed htable
    rw [hwf.entries_eq] at hentry
    rcases List.mem_cons.mp hentry with rfl | hbody
    · cases hcontent
    · exact ((hwf.layout.proper entry hbody).name_of_output
        (Entry.role?_eq_some_iff.mpr ⟨types, hcontent⟩)).symm

/-- A parameter is shown as what declares it. -/
theorem view_entry (hcontent : entry.content = .unbound role types)
    (hname : (Head.of entry.name role).name = entry.name) (view : View) :
    view.entry entry = view.value (Head.of entry.name role).item := by
  unfold View.entry
  rw [Entry.role?_eq_some_iff.mpr ⟨types, hcontent⟩]
  cases role with
  | normal => rfl
  | refinement => rfl
  | output =>
    rw [← hname]
    rfl

end Entries

/-- A constraint is shown as a block of the datatypes that it names. -/
theorem view_constraint (view : View) (types : Constraint) :
    view.constraint types = view.value (.block (types.datatypes.map .datatype)) := by
  rw [View.value, View.values_eq, List.map_map]
  rfl

theorem escaped_datatypes (datatypes : List Datatype) :
    Value.escaped (.block (datatypes.map .datatype)) = .block (datatypes.map .datatype) := by
  rw [Value.escaped, Value.escapedItems_eq, List.map_map]
  rfl

/-- What a constraint is shown as spells the datatypes that it names, if its categories can be
written. -/
theorem Catalogued.spells_datatypes (hw : w.Catalogued) {types : Constraint}
    (hnamed : ∀ category ∈ types.categories, w.Writable (.datatype (.category category))) :
    Spells w.types w.names ((w.view false).constraint types).toList
      [.block (types.datatypes.map .datatype)] := by
  have hwritable : w.Writable (.block (types.datatypes.map .datatype)) := by
    refine .block fun item hitem => ?_
    obtain ⟨d, hd, rfl⟩ := List.mem_map.mp hitem
    rcases List.mem_append.mp hd with hkind | hcategory
    · obtain ⟨kind, -, rfl⟩ := List.mem_map.mp hkind
      exact .builtin kind
    · obtain ⟨category, hmem, rfl⟩ := List.mem_map.mp hcategory
      exact hnamed category hmem
  have hspells := hwritable.spells hw
  rw [escaped_datatypes] at hspells
  rwa [view_constraint]

/-- A head and a constraint are read again from what they are shown as. -/
theorem readSpec_head_constraint (hw : w.Catalogued) {head : Head} (hhead : w.Writable head.item)
    {types : Constraint}
    (hnamed : ∀ category ∈ types.categories, w.Writable (.datatype (.category category))) :
    w.readSpec ((w.view false).value head.item ++ " " ++ (w.view false).constraint types) =
      (.ok [head.item, .block (types.datatypes.map .datatype)], w) := by
  have hitem := hhead.spells hw
  rw [show head.item.escaped = head.item by cases head <;> rfl] at hitem
  have hgap : ∀ c ∈ [' '], isBlank c = true := List.all_eq_true.mp rfl
  have hspells := hitem.append (List.cons_ne_nil _ _) hgap (hw.spells_datatypes hnamed)
  unfold readSpec
  rw [String.toList_append, String.toList_append, show " ".toList = [' '] from rfl, hspells.read]
  rfl

end Workshop

/-! ## Declaring it again -/

/-- **A group that is declared alone gives its parameter**, wherever the draft lies. -/
theorem Draft.declare_group (scratch : Scratch) (group : Group) {spec : List Value}
    (hwritten : group.Written spec) :
    ∃ draft, (start scratch).declare spec false = (.ok (), draft) ∧
      draft.entries = [.header, group.entry] := by
  have hspecifies : Specifies none [group] spec :=
    ⟨spec, by simpa using Grouped.cons hwritten .nil, rfl⟩
  have hallowed : OutputsAllowed none [group] :=
    ⟨List.countP_le_length, fun h => by cases h⟩
  have hcurrent : ({ entries := [.header], outputSlot := none } : Declaring).current = none := rfl
  have hitems := Declaring.items_specifies hcurrent rfl hspecifies hallowed
  rw [← Declaring.run_false] at hitems
  have hshows := start_shows scratch
  have hfst := hshows.declare_fst spec false
  rw [hitems] at hfst
  obtain ⟨described, hsnd⟩ := hshows.declare_snd spec false
  rw [hitems] at hsnd
  refine ⟨_, Prod.ext hfst rfl, ?_⟩
  rw [hsnd.entries, Declaring.entries_groups]
  rfl

namespace Workshop

variable {w : Workshop}

/-- **A parameter is declared again by what it is shown as.** The name of a parameter of some table
has been read as what declares it, or it is that of the output, which is always known; and the
categories that the constraint names are registered, by names that are one token, end in `!`, do not
start with `/` and are not built in. Then what the parameter and its constraint are shown as,
without colours and with a blank between them, is read, and what is read declares one parameter in a
new table, of the same name and role and with the same constraint. -/
theorem entry_redeclared (hw : w.Reachable) {table : Table} (htable : table ∈ w.tables)
    {entry : Entry} (hentry : entry ∈ table.entries) {role : Role} {types : Constraint}
    (hcontent : entry.content = .unbound role types)
    (hread : role = .output ∨ w.HasRead (Head.of entry.name role).item)
    (hnamed : ∀ category ∈ types.categories, w.Writable (.datatype (.category category))) :
    ∃ spec, w.readSpec ((w.view false).entry entry ++ " " ++ (w.view false).constraint types) =
        (.ok spec, w) ∧
      ∀ scratch, ∃ draft made, (Draft.start scratch).declare spec false = (.ok (), draft) ∧
        draft.entries = [.header, made] ∧ made.name = entry.name ∧
        made.content = .unbound role types := by
  have hname := head_name hw htable hentry hcontent
  have hhead : w.Writable (Head.of entry.name role).item := by
    rcases hread with rfl | hread
    · exact hw.catalogued.writable_output
    · exact hread.writable
  have hread' := readSpec_head_constraint hw.catalogued hhead hnamed
  rw [← view_entry hcontent hname] at hread'
  refine ⟨_, hread', fun scratch => ?_⟩
  let group : Group :=
    { head := .of entry.name role, types := some (types.datatypes.map .datatype) }
  have hwritten : group.Written
      [(Head.of entry.name role).item, .block (types.datatypes.map .datatype)] := by
    refine .inl ?_
    simp [group, Group.notesItems, Group.typesItems, TypeTerm.toValue]
  obtain ⟨draft, hdeclare, hentries⟩ := Draft.declare_group scratch group hwritten
  refine ⟨draft, group.entry, hdeclare, hentries, hname, ?_⟩
  -- The constraint is the union of the datatypes that it names.
  show Content.unbound (Head.of entry.name role).role (.ofTerms (types.datatypes.map .datatype)) = _
  rw [Head.role_of, (hw.tidy table htable entry hentry role types hcontent).ofTerms_datatypes]

theorem add_at_declared :
    let point := fresh.register (.ofString "point!")
    let read := point.2.readSpec "/at [point! integer!]"
    (match read.1 with
      | .ok spec => read.2.trial 0 fun before add =>
        match before.augment add spec none with
        | (.ok action, w) => action.table.entries[4]?.map fun entry =>
            decide (spec.head? = some (.refinement entry.name) ∧
              entry.content = .unbound .refinement ⟨.single .integer, [point.1]⟩ ∧
              (w.view false).entry entry ++ " " ++
                (w.view false).constraint ⟨.single .integer, [point.1]⟩ = "/at [integer! point!]")
        | (.error _, _) => none
      | .error _ => none) = some true := by
  decide +kernel

/-- Addition with one more parameter, which takes integers and the values of a category: it is shown
with the kinds in front. -/
theorem entry_redeclared_at : ∃ (w : Workshop) (table : Table) (entry : Entry) (point : Category),
    w.Reachable ∧ table ∈ w.tables ∧ entry ∈ table.entries ∧
      w.HasRead (.refinement entry.name) ∧ w.Writable (.datatype (.category point)) ∧
      entry.content = .unbound .refinement ⟨.single .integer, [point]⟩ ∧
      ∃ spec, w.readSpec "/at [integer! point!]" = (.ok spec, w) ∧
        ∀ scratch, ∃ draft made, (Draft.start scratch).declare spec false = (.ok (), draft) ∧
          draft.entries = [.header, made] ∧ made.name = entry.name ∧
          made.content = .unbound .refinement ⟨.single .integer, [point]⟩ := by
  have hmatch := add_at_declared
  have hpoint : (fresh.register (.ofString "point!")).2.Reachable := .single (.register fresh _)
  obtain ⟨hregistered, hspelled⟩ := fresh.register_spec (.ofString "point!")
  generalize fresh.register (.ofString "point!") = registered at hmatch hpoint hregistered hspelled
  obtain ⟨point, before⟩ := registered
  dsimp only at hmatch hpoint hregistered hspelled
  cases hread : before.readSpec "/at [point! integer!]" with
  | mk result after =>
    have hafter := hpoint.leads (.readSpec hread)
    rw [hread] at hmatch
    cases result with
    | error _ => cases hmatch
    | ok spec =>
      obtain ⟨add, hmem, hmatch⟩ := mem_of_trial hmatch
      cases haugment : after.augment add spec none with
      | mk result w =>
        rw [haugment] at hmatch
        cases result with
        | error _ => cases hmatch
        | ok action =>
          obtain ⟨entry, hentry, hdecided⟩ := Option.map_eq_some_iff.mp hmatch
          obtain ⟨hhead, hcontent, hshown⟩ := of_decide_eq_true hdecided
          have hleads : after.Leads w := .augment hmem haugment
          have hretains := Leads.retains hpoint ((Leads.readSpec hread).trans hleads)
          have hw := hafter.leads hleads
          have htable : action.table ∈ w.tables := by
            rcases augment_cases (hafter.sound.wellFormed hmem) haugment with
              ⟨_, herror, -⟩ | ⟨_, hok, -, -, -, hgains⟩
            · cases herror
            · obtain rfl := Except.ok.inj hok
              exact List.mem_cons_of_mem _ (List.mem_map_of_mem hgains.mem)
          have hin : Within (.refinement entry.name) spec := by
            obtain ⟨rest, rfl⟩ := List.head?_eq_some_iff.mp hhead
            exact .head
          have hnamed : w.Writable (.datatype (.category point)) :=
            .category (hretains.types.subset hregistered) (hretains.names.resolve? hspelled)
              (List.all_eq_true.mp rfl) (by decide) (by decide)
              (fun kind => by cases kind <;> decide) (by decide)
          have hname : w.HasRead (.refinement entry.name) :=
            ⟨before, after, _, spec, hpoint, hread, hin, hleads⟩
          have hmade := entry_redeclared hw htable (List.mem_of_getElem? hentry) hcontent
            (.inr hname) fun category hcategory => by
              rwa [List.mem_singleton.mp hcategory]
          rw [hshown] at hmade
          exact ⟨w, action.table, entry, point, hw, htable, List.mem_of_getElem? hentry, hname,
            hnamed, hcontent, hmade⟩

end Workshop

end ActionKit
