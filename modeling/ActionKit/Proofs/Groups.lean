import ActionKit.Proofs.Declared

/-!
# The grammar of specs

A spec is an optional text and groups behind it. A group is a head, which declares a parameter,
with at most one text and at most one block of types after it, in either order.

* `Head`, `Group`: what a group says, whatever the order in which it says it.
* `Group.Written`, `Grouped`, `Specifies`: the items of a group, of groups, and of a whole spec.
* `Group.entry`, `Group.Admits`: the parameter that a group declares, and the values that it takes.
* `OutputsAllowed`: the output is declared at most once, and only if there is none yet.
* `Declaring.group`: declaring a whole group at once.

Results:
* `typeBlock_eq_ok_iff`: a block of types holds datatypes and typesets only, and means all of them.
* `items_group`, `items_grouped`: the items of a group declare it.
* `Taken.specified`, `items_specified`: what is accepted is written in groups.
* `run_specifies`: exactly the specs of the grammar are accepted, and each of them adds what its
  groups say.
-/

namespace ActionKit

/-! ## What a spec says -/

/-- What declares a parameter. -/
inductive Head where
  | word (name : Symbol)
  | refinement (name : Symbol)
  /-- The set-word `return:`. -/
  | output
deriving DecidableEq, Repr

namespace Head

/-- A head as an item of a spec. -/
def item : Head → Value
  | .word name => .word name
  | .refinement name => .refinement name
  | .output => .setWord .output

/-- The name of the parameter. -/
def name : Head → Symbol
  | .word name | .refinement name => name
  | .output => .output

/-- The role of the parameter. -/
def role : Head → Role
  | .word _ => .normal
  | .refinement _ => .refinement
  | .output => .output

/-- The kinds of values that the parameter takes if nothing is said about its types: any for the
output, and any but `none` for all others. -/
def kinds : Head → List Kind
  | .word _ | .refinement _ =>
    [.logic, .integer, .text, .block, .word, .setWord, .refinement, .datatype, .typeset, .action,
      .custom]
  | .output =>
    [.none, .logic, .integer, .text, .block, .word, .setWord, .refinement, .datatype, .typeset,
      .action, .custom]

/-- The constraint of the parameter if nothing is said about its types. -/
def types (head : Head) : Constraint := .ofTypeset (.ofKinds head.kinds)

theorem types_eq (head : Head) : head.types = head.role.defaultTypes := by
  cases head <;> rfl

theorem accepts_types {head : Head} {value : Value} :
    head.types.accepts value = true ↔ head = .output ∨ value ≠ .none := by
  rw [types, Constraint.accepts_ofTypeset, Typeset.contains_ofKinds]
  cases head <;> cases value <;> simp [kinds, Value.kind]

end Head

namespace Constraint

/-- The constraint that accepts what some datatypes and typesets admit. -/
def ofTerms (terms : List TypeTerm) : Constraint := terms.foldl .add .empty

/-- More items accept what was accepted, and what one of them admits. -/
theorem accepts_foldl (terms : List TypeTerm) (types : Constraint) (value : Value) :
    (terms.foldl add types).accepts value =
      (types.accepts value || terms.any (·.admits value)) := by
  induction terms generalizing types with
  | nil => simp
  | cons term terms ih => rw [List.foldl_cons, ih, accepts_add, List.any_cons, Bool.or_assoc]

/-- Some datatypes and typesets accept what one of them admits. -/
theorem accepts_ofTerms (terms : List TypeTerm) (value : Value) :
    (ofTerms terms).accepts value = terms.any (·.admits value) := by
  rw [ofTerms, accepts_foldl, accepts_empty, Bool.false_or]

end Constraint

/-- A head, and what is said about its parameter. -/
structure Group where
  head : Head
  notes : Option Bytes := none
  types : Option (List TypeTerm) := none
deriving DecidableEq, Repr

namespace Group

/-- The text of a group, if it has one. -/
def notesItems (group : Group) : List Value := group.notes.toList.map .text

/-- The block of types of a group, if it has one. -/
def typesItems (group : Group) : List Value :=
  group.types.toList.map fun terms => .block (terms.map (·.toValue))

/-- The items of a group: the head first, then the text and the types in either order. -/
def Written (group : Group) (items : List Value) : Prop :=
  items = group.head.item :: (group.notesItems ++ group.typesItems) ∨
    items = group.head.item :: (group.typesItems ++ group.notesItems)

/-- The parameter that a group declares. -/
def entry (group : Group) : Entry :=
  { name := group.head.name
    content := .unbound group.head.role (group.types.elim group.head.types .ofTerms)
    typeNotes := group.types.map (·.map (·.toValue))
    docNotes := group.notes }

/-- **The values that the parameter of a group takes**: what its block of types admits. Without a
block, the output takes any value, and all others take any but `none`. -/
def Admits (group : Group) (value : Value) : Prop :=
  match group.types with
  | some terms => ∃ term ∈ terms, term.admits value = true
  | none => group.head = .output ∨ value ≠ .none

/-- A head alone declares a parameter with the constraint of its role. -/
theorem entry_head (head : Head) : entry { head } = .declared head.name head.role := by
  show Entry.mk head.name (.unbound head.role head.types) none none false = _
  rw [head.types_eq]
  rfl

/-- **The constraint of a parameter accepts the values that its group admits.** -/
theorem exists_types_entry (group : Group) :
    ∃ types, group.entry.content = .unbound group.head.role types ∧
      ∀ value, types.accepts value = true ↔ group.Admits value := by
  refine ⟨_, rfl, fun value => ?_⟩
  unfold Admits
  cases group.types with
  | none => exact Head.accepts_types
  | some terms =>
    show (Constraint.ofTerms terms).accepts value = true ↔ _
    rw [Constraint.accepts_ofTerms, List.any_eq_true]

end Group

/-- Groups, one after the other. -/
inductive Grouped : List Group → List Value → Prop
  | nil : Grouped [] []
  | cons {group : Group} {items : List Value} {groups : List Group} {rest : List Value}
      (first : group.Written items) (others : Grouped groups rest) :
      Grouped (group :: groups) (items ++ rest)

/-- **A spec in the grammar**: an optional text, and groups behind it. -/
def Specifies (description : Option Bytes) (groups : List Group) (spec : List Value) : Prop :=
  ∃ items, Grouped groups items ∧ spec = description.toList.map .text ++ items

/-- The output is declared at most once, and only if there is none yet. -/
structure OutputsAllowed (outputSlot : Option Nat) (groups : List Group) : Prop where
  once : groups.countP (·.head = .output) ≤ 1
  absent : outputSlot.isSome = true → ∀ group ∈ groups, group.head ≠ .output

/-- The slot at which groups declare the output, if they stand behind some entries. -/
def declaredOutput (entries : List Entry) (groups : List Group) : Option Nat :=
  (groups.findIdx? (·.head = .output)).map (entries.length + ·)

namespace Grouped

variable {groups : List Group} {items : List Value}

theorem append {others : List Group} {rest : List Value} (h : Grouped groups items)
    (hrest : Grouped others rest) : Grouped (groups ++ others) (items ++ rest) := by
  induction h with
  | nil => exact hrest
  | cons first _ ih =>
    rw [List.cons_append, List.append_assoc]
    exact .cons first ih

theorem concat {group : Group} {more : List Value} (h : Grouped groups items)
    (hg : group.Written more) : Grouped (groups ++ [group]) (items ++ more) := by
  have hlast : Grouped [group] (more ++ []) := .cons hg .nil
  rw [List.append_nil] at hlast
  exact h.append hlast

theorem of_concat {group : Group} (h : Grouped (groups ++ [group]) items) :
    ∃ before more, items = before ++ more ∧ Grouped groups before ∧ group.Written more := by
  induction groups generalizing items with
  | nil =>
    cases h with
    | cons first others =>
      cases others
      exact ⟨[], _, List.append_nil _, .nil, first⟩
  | cons g groups ih =>
    cases h with
    | @cons _ own _ _ first others =>
      obtain ⟨before, more, rfl, hbefore, hmore⟩ := ih others
      exact ⟨own ++ before, more, (List.append_assoc _ _ _).symm, .cons first hbefore, hmore⟩

end Grouped

namespace OutputsAllowed

variable {outputSlot : Option Nat} {groups : List Group} {group : Group}

theorem nil (outputSlot : Option Nat) : OutputsAllowed outputSlot [] :=
  ⟨Nat.zero_le _, fun _ _ h => absurd h List.not_mem_nil⟩

/-- Notes and types do not matter. -/
theorem congr_last {other : Group} (h : OutputsAllowed outputSlot (groups ++ [group]))
    (hhead : other.head = group.head) : OutputsAllowed outputSlot (groups ++ [other]) := by
  refine ⟨?_, fun hs g hg => ?_⟩
  · have := h.once
    simpa [List.countP_append, List.countP_singleton, hhead] using this
  · rcases List.mem_append.mp hg with hg | hg
    · exact h.absent hs g (List.mem_append_left _ hg)
    · obtain rfl := List.mem_singleton.mp hg
      rw [hhead]
      exact h.absent hs group (List.mem_append_right _ List.mem_cons_self)

/-- One more parameter is allowed. -/
theorem concat (h : OutputsAllowed outputSlot groups) (hg : group.head ≠ .output) :
    OutputsAllowed outputSlot (groups ++ [group]) := by
  refine ⟨?_, fun hs g hmem => ?_⟩
  · simpa [List.countP_append, List.countP_singleton, hg] using h.once
  · rcases List.mem_append.mp hmem with hmem | hmem
    · exact h.absent hs g hmem
    · obtain rfl := List.mem_singleton.mp hmem
      exact hg

/-- The output is allowed where there is none so far. -/
theorem concat_output (hslot : outputSlot = none) (hg : ∀ g ∈ groups, g.head ≠ .output) :
    OutputsAllowed outputSlot (groups ++ [group]) := by
  refine ⟨?_, fun hs => ?_⟩
  · have hzero : groups.countP (·.head = .output) = 0 := by
      rw [List.countP_eq_zero]
      exact fun g hmem => by simpa using hg g hmem
    rw [List.countP_append, hzero, Nat.zero_add]
    exact List.countP_le_length
  · rw [hslot] at hs
    cases hs

theorem tail (h : OutputsAllowed outputSlot (group :: groups)) (hg : group.head ≠ .output) :
    OutputsAllowed outputSlot groups := by
  refine ⟨?_, fun hs g hmem => h.absent hs g (List.mem_cons_of_mem _ hmem)⟩
  have := h.once
  rwa [List.countP_cons_of_neg (by simpa using hg)] at this

/-- Behind the output there is no other. -/
theorem not_mem_tail (h : OutputsAllowed outputSlot (group :: groups))
    (hg : group.head = .output) : ∀ g ∈ groups, g.head ≠ .output := by
  have hone := h.once
  rw [List.countP_cons_of_pos (by simpa using hg)] at hone
  have hzero : groups.countP (·.head = .output) = 0 := by omega
  rw [List.countP_eq_zero] at hzero
  exact fun g hmem => by simpa using hzero g hmem

theorem slot_eq_none (h : OutputsAllowed outputSlot (group :: groups))
    (hg : group.head = .output) : outputSlot = none := by
  cases outputSlot with
  | none => rfl
  | some slot => exact absurd hg (h.absent rfl group List.mem_cons_self)

end OutputsAllowed

namespace Declaring

/-! ## Blocks of types -/

/-- One more item of a block of types. -/
theorem foldlM_types (position : Nat) (items : List Value) (start types : Constraint) :
    items.foldlM
        (fun types item =>
          match item.typeTerm? with
          | some term => .ok (types.add term)
          | none => .error (.specItem position item .notAType))
        start = (.ok types : Except BuildError Constraint) ↔
      ∃ terms : List TypeTerm, items = terms.map (·.toValue) ∧ types = terms.foldl .add start := by
  induction items generalizing start with
  | nil =>
    rw [List.foldlM_nil]
    constructor
    · intro h
      exact ⟨[], rfl, (Except.ok.inj h).symm⟩
    · rintro ⟨terms, hitems, rfl⟩
      obtain rfl := List.map_eq_nil_iff.mp hitems.symm
      rfl
  | cons item rest ih =>
    rw [List.foldlM_cons]
    cases hterm : item.typeTerm? with
    | none =>
      constructor
      · intro h
        cases h
      · rintro ⟨_ | ⟨term, terms⟩, hitems, -⟩
        · cases hitems
        · obtain ⟨rfl, -⟩ := List.cons.inj hitems
          rw [Value.typeTerm?_eq_some_iff.mpr rfl] at hterm
          cases hterm
    | some term =>
      refine (ih (start.add term)).trans ⟨?_, ?_⟩
      · rintro ⟨terms, rfl, rfl⟩
        rw [Value.typeTerm?_eq_some_iff.mp hterm]
        exact ⟨term :: terms, rfl, rfl⟩
      · rintro ⟨_ | ⟨first, terms⟩, hitems, rfl⟩
        · cases hitems
        · obtain ⟨rfl, rfl⟩ := List.cons.inj hitems
          rw [Value.typeTerm?_eq_some_iff.mpr rfl] at hterm
          obtain rfl := Option.some.inj hterm
          exact ⟨terms, rfl, rfl⟩

/-- **A block of types holds datatypes and typesets only**, and means all of them. -/
theorem typeBlock_eq_ok_iff {position : Nat} {items : List Value} {types : Constraint} :
    typeBlock position items = .ok types ↔
      ∃ terms : List TypeTerm, items = terms.map (·.toValue) ∧ types = .ofTerms terms :=
  foldlM_types position items .empty types

/-! ## Declaring groups -/

/-- Declare a whole group. -/
def group (state : Declaring) (g : Group) : Declaring :=
  { state with
    entries := state.entries ++ [g.entry]
    outputSlot := if g.head = .output then some state.entries.length else state.outputSlot
    current := some state.entries.length }

variable {state next : Declaring} {position : Nat}

/-- The head of a group declares its parameter. -/
theorem item_head (state : Declaring) (position : Nat) (head : Head)
    (hout : head = .output → state.outputSlot = none) :
    state.item position head.item = .ok (state.group { head }) := by
  unfold group
  rw [Group.entry_head]
  cases head with
  | word name => rfl
  | refinement name => rfl
  | output =>
    have hnone := hout rfl
    simp only [item, Head.item, setWord, hnone, Option.isSome_none, if_true, Bool.false_eq_true,
      if_false]
    rfl

/-- A change of the parameter declared last. -/
theorem modify_group (state : Declaring) (g : Group) (f : Entry → Entry) :
    (state.group g).entries.modify state.entries.length f = state.entries ++ [f g.entry] := by
  show (state.entries ++ [g.entry]).modify state.entries.length f = _
  rw [List.modify_eq_take_drop, List.take_left, List.drop_left]
  rfl

theorem getElem?_group (state : Declaring) (g : Group) :
    (state.group g).entries[state.entries.length]? = some g.entry :=
  List.getElem?_concat_length

theorem group_notes (state : Declaring) (g : Group) (bytes : Bytes) :
    { state.group g with
      entries := (state.group g).entries.modify state.entries.length
        ({ · with docNotes := some bytes }) } = state.group { g with notes := some bytes } := by
  rw [modify_group]
  rfl

theorem group_types (state : Declaring) (g : Group) (terms : List TypeTerm) :
    { state.group g with
      entries := (state.group g).entries.modify state.entries.length
        (typed (terms.map (·.toValue)) (.ofTerms terms)) } =
      state.group { g with types := some terms } := by
  rw [modify_group]
  rfl

/-- The text of a group gives its notes. -/
theorem item_notes (g : Group) (hnone : g.notes = none) (bytes : Bytes) :
    (state.group g).item position (.text bytes) =
      .ok (state.group { g with notes := some bytes }) := by
  have hnotes : ((state.group g).entries[state.entries.length]?.bind (·.docNotes)).isSome =
      false := by
    rw [getElem?_group]
    exact congrArg Option.isSome hnone
  show (state.group g).text position bytes = _
  unfold text
  rw [show (state.group g).current = some state.entries.length from rfl]
  simp only [hnotes, Bool.false_eq_true, if_false]
  exact congrArg Except.ok (state.group_notes g bytes)

/-- The block of a group gives its types. -/
theorem item_types (g : Group) (hnone : g.types = none) (terms : List TypeTerm) :
    (state.group g).item position (.block (terms.map (·.toValue))) =
      .ok (state.group { g with types := some terms }) := by
  have htypes : ((state.group g).entries[state.entries.length]?.bind (·.typeNotes)).isSome =
      false := by
    rw [getElem?_group]
    show (g.types.map _).isSome = false
    rw [hnone]
    rfl
  show (state.group g).block position _ = _
  unfold block
  rw [show (state.group g).current = some state.entries.length from rfl,
    typeBlock_eq_ok_iff.mpr ⟨terms, rfl, rfl⟩]
  simp only [htypes, Bool.false_eq_true, if_false]
  exact congrArg Except.ok (state.group_types g terms)

theorem items_cons {value : Value} (h : state.item position value = .ok next)
    (rest : List Value) :
    state.items position (value :: rest) = next.items (position + 1) rest := by
  rw [items, h]

/-- **The items of a group declare it**, in whichever order they stand. -/
theorem items_group {g : Group} {own : List Value} (hw : g.Written own)
    (hout : g.head = .output → state.outputSlot = none) (rest : List Value) :
    state.items position (own ++ rest) =
      (state.group g).items (position + own.length) rest := by
  obtain ⟨head, notes, types⟩ := g
  have hhead := items_cons (item_head state position head hout)
  rcases hw with rfl | rfl
  all_goals
    rw [List.cons_append, hhead]
    cases notes <;> cases types
  · rfl
  · exact items_cons (item_types _ rfl _) rest
  · exact items_cons (item_notes _ rfl _) rest
  · exact (items_cons (item_notes _ rfl _) _).trans (items_cons (item_types _ rfl _) rest)
  · rfl
  · exact items_cons (item_types _ rfl _) rest
  · exact items_cons (item_notes _ rfl _) rest
  · exact (items_cons (item_types _ rfl _) _).trans (items_cons (item_notes _ rfl _) rest)

/-! ## Groups, one after the other -/

variable {groups : List Group}

theorem entries_groups (groups : List Group) (state : Declaring) :
    (groups.foldl group state).entries = state.entries ++ groups.map (·.entry) := by
  induction groups generalizing state with
  | nil => exact (List.append_nil _).symm
  | cons g groups ih =>
    rw [List.foldl_cons, ih, List.map_cons]
    exact List.append_assoc _ _ _

theorem description_groups (groups : List Group) (state : Declaring) :
    (groups.foldl group state).description = state.description := by
  induction groups generalizing state with
  | nil => rfl
  | cons g groups ih => exact ih (state.group g)

theorem outputSlot_groups_of_absent (habsent : ∀ g ∈ groups, g.head ≠ .output)
    (state : Declaring) : (groups.foldl group state).outputSlot = state.outputSlot := by
  induction groups generalizing state with
  | nil => rfl
  | cons g groups ih =>
    rw [List.foldl_cons, ih fun g hg => habsent g (List.mem_cons_of_mem _ hg)]
    exact if_neg (habsent g List.mem_cons_self)

/-- **The output is where it was, or where the groups declare it.** -/
theorem outputSlot_groups (state : Declaring) (hallowed : OutputsAllowed state.outputSlot groups) :
    (groups.foldl group state).outputSlot =
      state.outputSlot.or (declaredOutput state.entries groups) := by
  induction groups generalizing state with
  | nil =>
    exact Option.or_none.symm
  | cons g groups ih =>
    rw [List.foldl_cons]
    by_cases hg : g.head = .output
    · have hfirst : declaredOutput state.entries (g :: groups) = some state.entries.length := by
        simp [declaredOutput, List.findIdx?_cons, hg]
      rw [outputSlot_groups_of_absent (hallowed.not_mem_tail hg), hallowed.slot_eq_none hg, hfirst]
      exact if_pos hg
    · have hslot : (state.group g).outputSlot = state.outputSlot := if_neg hg
      have hrest : declaredOutput (state.group g).entries groups =
          declaredOutput state.entries (g :: groups) := by
        unfold declaredOutput
        rw [List.findIdx?_cons, if_neg (by simpa using hg), Option.map_map]
        congr 1
        funext i
        simp only [group, List.length_append, List.length_singleton, Function.comp_apply]
        omega
      rw [ih _ (by rw [hslot]; exact hallowed.tail hg), hslot, hrest]

/-- **Groups are declared one by one.** -/
theorem items_grouped {items : List Value} (hg : Grouped groups items) :
    ∀ {state : Declaring} {position : Nat}, OutputsAllowed state.outputSlot groups →
      state.items position items = (.ok (), groups.foldl group state) := by
  induction hg with
  | nil => exact fun _ => rfl
  | @cons g own groups rest first others ih =>
    intro state position hallowed
    rw [items_group first fun hout => hallowed.slot_eq_none hout]
    refine ih ?_
    by_cases hout : g.head = .output
    · have habsent := hallowed.not_mem_tail hout
      refine ⟨?_, fun _ => habsent⟩
      rw [List.countP_eq_zero.mpr fun g hmem => by simpa using habsent g hmem]
      exact Nat.zero_le _
    · rw [show (state.group g).outputSlot = state.outputSlot from if_neg hout]
      exact hallowed.tail hout

/-! ## What is accepted is written in groups -/

/-- The state with a description. -/
def describe (state : Declaring) (description : Option Bytes) : Declaring :=
  { state with description }

/-- **What has been taken so far is an optional text and groups**, and they have been declared. -/
def Specified (start : Declaring) (taken : List Value) (state : Declaring) : Prop :=
  ∃ description groups, Specifies description groups taken ∧
    OutputsAllowed start.outputSlot groups ∧
    state = groups.foldl group (start.describe description)

/-- The group declared last, where notes or types may follow. -/
theorem exists_last (start : Declaring) (hstart : start.current = none) {slot : Nat}
    (hcurrent : (groups.foldl group start).current = some slot) :
    ∃ before g, groups = before ++ [g] ∧
      slot = (before.foldl group start).entries.length ∧
      groups.foldl group start = (before.foldl group start).group g := by
  rcases List.eq_nil_or_concat' groups with rfl | ⟨before, g, rfl⟩
  · rw [List.foldl_nil, hstart] at hcurrent
    cases hcurrent
  · rw [List.foldl_append] at hcurrent ⊢
    exact ⟨before, g, rfl, (Option.some.inj hcurrent).symm, rfl⟩

/-- Something is said about the last group. -/
theorem Specifies.change_last {description : Option Bytes} {before : List Group} {g g' : Group}
    {taken : List Value} {value : Value} (h : Specifies description (before ++ [g]) taken)
    (hchange : ∀ own, g.Written own → g'.Written (own ++ [value])) :
    Specifies description (before ++ [g']) (taken ++ [value]) := by
  obtain ⟨items, hgrouped, rfl⟩ := h
  obtain ⟨others, own, rfl, hothers, hown⟩ := hgrouped.of_concat
  refine ⟨others ++ (own ++ [value]), hothers.concat (hchange own hown), ?_⟩
  simp only [List.append_assoc]

theorem Specifies.concat {description : Option Bytes} {taken : List Value}
    (h : Specifies description groups taken) (head : Head) :
    Specifies description (groups ++ [⟨head, none, none⟩]) (taken ++ [head.item]) := by
  obtain ⟨items, hgrouped, rfl⟩ := h
  exact ⟨items ++ [head.item], hgrouped.concat (.inl rfl), List.append_assoc _ _ _⟩

/-- What declares a parameter other than the output is a head. -/
theorem exists_head {value : Value} {name : Symbol} {role : Role}
    (h : head? value = some (name, role)) (hrole : role ≠ .output) :
    ∃ head : Head, value = head.item ∧ name = head.name ∧ role = head.role ∧ head ≠ .output := by
  cases value with
  | word symbol =>
    obtain ⟨rfl, rfl⟩ := Prod.mk.inj (Option.some.inj h)
    exact ⟨.word symbol, rfl, rfl, rfl, by simp⟩
  | refinement symbol =>
    obtain ⟨rfl, rfl⟩ := Prod.mk.inj (Option.some.inj h)
    exact ⟨.refinement symbol, rfl, rfl, rfl, by simp⟩
  | setWord symbol =>
    obtain ⟨-, rfl⟩ := Prod.mk.inj (Option.some.inj h)
    exact absurd rfl hrole
  | _ => cases h

/-- **Taking an item keeps to the grammar.** -/
theorem Taken.specified {value : Value} (h : Taken position state value next) {start : Declaring}
    (hstart : start.current = none) {taken : List Value} (hs : Specified start taken state) :
    Specified start (taken ++ [value]) next := by
  obtain ⟨description, groups, hspec, hallowed, rfl⟩ := hs
  cases h with
  | description bytes hcurrent hnone =>
    rw [description_groups] at hnone
    cases hnone
    rcases List.eq_nil_or_concat' groups with rfl | ⟨before, g, rfl⟩
    · obtain ⟨items, hgrouped, rfl⟩ := hspec
      cases hgrouped
      exact ⟨some bytes, [], ⟨[], .nil, rfl⟩, hallowed, rfl⟩
    · rw [List.foldl_append] at hcurrent
      cases hcurrent
  | notes bytes slot hcurrent hnone =>
    obtain ⟨before, g, rfl, rfl, hlast⟩ :=
      exists_last (start.describe description) hstart hcurrent
    rw [hlast, getElem?_group] at hnone
    have hnotes : g.notes = none := hnone
    refine ⟨description, before ++ [{ g with notes := some bytes }],
      Specifies.change_last hspec fun own hown => ?_, hallowed.congr_last rfl, ?_⟩
    · refine .inr ?_
      rcases hown with rfl | rfl <;> simp [Group.notesItems, Group.typesItems, hnotes]
    · rw [hlast, group_notes, List.foldl_append]
      rfl
  | types items slot types hcurrent htypes hnone =>
    obtain ⟨before, g, rfl, rfl, hlast⟩ :=
      exists_last (start.describe description) hstart hcurrent
    obtain ⟨terms, rfl, rfl⟩ := typeBlock_eq_ok_iff.mp htypes
    rw [hlast, getElem?_group] at hnone
    have hnotypes : g.types = none := Option.map_eq_none_iff.mp hnone
    refine ⟨description, before ++ [{ g with types := some terms }],
      Specifies.change_last hspec fun own hown => ?_, hallowed.congr_last rfl, ?_⟩
    · refine .inl ?_
      rcases hown with rfl | rfl <;> simp [Group.notesItems, Group.typesItems, hnotypes]
    · rw [hlast, group_types, List.foldl_append]
      rfl
  | parameter value name role hhead hrole =>
    obtain ⟨head, rfl, rfl, rfl, hout⟩ := exists_head hhead hrole
    refine ⟨description, groups ++ [⟨head, none, none⟩], Specifies.concat hspec head,
      hallowed.concat hout, ?_⟩
    rw [List.foldl_append]
    simp only [List.foldl_cons, List.foldl_nil, group, declare, hout, if_false, Group.entry_head]
  | output hnone =>
    rw [outputSlot_groups (start.describe description) hallowed] at hnone
    obtain ⟨hslot, hdeclared⟩ := Option.or_eq_none_iff.mp hnone
    have habsent : ∀ g ∈ groups, g.head ≠ .output := by
      intro g hg
      simpa using List.findIdx?_eq_none_iff.mp (Option.map_eq_none_iff.mp hdeclared) g hg
    refine ⟨description, groups ++ [⟨.output, none, none⟩], Specifies.concat hspec .output,
      .concat_output hslot habsent, ?_⟩
    simp only [List.foldl_append, List.foldl_cons, List.foldl_nil, group, declare, if_true,
      Group.entry_head]
    rfl

/-- **What is accepted is written in groups.** -/
theorem items_specified (start : Declaring) (hstart : start.current = none) {spec : List Value} :
    ∀ {position : Nat} {state next : Declaring} {taken : List Value},
      state.items position spec = (.ok (), next) → Specified start taken state →
      Specified start (taken ++ spec) next := by
  induction spec with
  | nil =>
    intro position state next taken h hs
    obtain ⟨-, rfl⟩ := Prod.mk.inj h
    rw [List.append_nil]
    exact hs
  | cons value rest ih =>
    intro position state next taken h hs
    unfold items at h
    cases hi : state.item position value with
    | error error =>
      simp only [hi] at h
      cases (Prod.mk.inj h).1
    | ok mid =>
      simp only [hi] at h
      have hmid := (item_taken hi).specified hstart hs
      rw [show taken ++ value :: rest = taken ++ [value] ++ rest by simp]
      exact ih h hmid

/-- **A spec of the grammar is accepted**, and its text and groups are declared. -/
theorem items_specifies {start : Declaring} (hcurrent : start.current = none)
    (hdescription : start.description = none) {description : Option Bytes} {spec : List Value}
    (hspec : Specifies description groups spec)
    (hallowed : OutputsAllowed start.outputSlot groups) :
    start.items 0 spec = (.ok (), groups.foldl group (start.describe description)) := by
  obtain ⟨items, hgrouped, rfl⟩ := hspec
  cases description with
  | none =>
    rw [show start.describe none = start by rw [describe, ← hdescription]]
    exact items_grouped hgrouped hallowed
  | some bytes =>
    have htext : start.item 0 (.text bytes) = .ok (start.describe (some bytes)) := by
      simp [item, text, hcurrent, hdescription, describe]
    exact (items_cons htext items).trans (items_grouped hgrouped hallowed)

/-- **Exactly the specs of the grammar are accepted.** Behind the header and whatever else is
there, a spec adds one parameter for each of its groups, in order, and its text becomes the
description. The output stays where it was, or is where a group declares it; if it is asked for
and there is none, it is put in front of all parameters, as a group of its own would declare it. The
parameter of a group takes what the group admits. -/
theorem run_specifies (before : List Entry) (outputSlot : Option Nat) (spec : List Value)
    (withOutput : Bool) :
    let start : Declaring := { entries := .header :: before, outputSlot }
    ((∃ state, start.run spec withOutput = (.ok (), state)) ↔
      ∃ description groups, Specifies description groups spec ∧
        OutputsAllowed outputSlot groups) ∧
    (∀ description groups, Specifies description groups spec → OutputsAllowed outputSlot groups →
      ∃ state, start.run spec withOutput = (.ok (), state) ∧
        state.description = description ∧
        let slot := outputSlot.or (declaredOutput (.header :: before) groups)
        let entries := before ++ groups.map (·.entry)
        if slot = none ∧ withOutput = true then
          state.outputSlot = some 1 ∧
            state.entries = .header :: Group.entry { head := .output } :: entries
        else state.outputSlot = slot ∧ state.entries = .header :: entries) ∧
    ∀ group : Group, ∃ types, group.entry.content = .unbound group.head.role types ∧
      ∀ value, types.accepts value = true ↔ group.Admits value := by
  intro start
  have accepted : ∀ {description groups}, Specifies description groups spec →
      OutputsAllowed outputSlot groups →
      start.items 0 spec = (.ok (), groups.foldl group (start.describe description)) :=
    fun hspec hallowed => items_specifies rfl rfl hspec hallowed
  refine ⟨⟨?_, ?_⟩, fun description groups hspec hallowed => ?_, Group.exists_types_entry⟩
  · rintro ⟨state, hrun⟩
    unfold run at hrun
    split at hrun
    · cases (Prod.mk.inj hrun).1
    · next mid hitems =>
      obtain ⟨description, groups, hspec, hallowed, -⟩ :=
        items_specified start rfl hitems ⟨none, [], ⟨[], .nil, rfl⟩, .nil _, rfl⟩
      exact ⟨description, groups, hspec, hallowed⟩
  · rintro ⟨description, groups, hspec, hallowed⟩
    rw [run, accepted hspec hallowed]
    exact ⟨_, rfl⟩
  · have hslot : (groups.foldl group (start.describe description)).outputSlot =
        outputSlot.or (declaredOutput (.header :: before) groups) :=
      outputSlot_groups (start.describe description) hallowed
    have hentries := entries_groups groups (start.describe description)
    have hdescription := description_groups groups (start.describe description)
    rw [run, accepted hspec hallowed]
    refine ⟨_, rfl, ?_⟩
    generalize groups.foldl group (start.describe description) = mid at hslot hentries hdescription
    refine ⟨by split <;> exact hdescription, ?_⟩
    by_cases hadd : outputSlot.or (declaredOutput (.header :: before) groups) = none ∧
        withOutput = true
    · have hbool : (withOutput && mid.outputSlot.isNone) = true := by
        rw [hslot, hadd.1, hadd.2]
        rfl
      simp only [if_pos hadd, if_pos hbool]
      refine ⟨rfl, ?_⟩
      show mid.entries.insertIdx 1 _ = _
      rw [hentries, Group.entry_head]
      rfl
    · have hbool : ¬(withOutput && mid.outputSlot.isNone) = true := by
        rw [hslot, Bool.and_eq_true, Option.isNone_iff_eq_none, and_comm]
        exact hadd
      simp only [if_neg hadd, if_neg hbool]
      exact ⟨hslot, hentries⟩

/-- Behind the header, a text, a parameter with types and notes, a refinement with neither, and the
output: the refinement takes anything but `none`, and the output, at slot 3, takes anything. -/
theorem run_specifies_declared :
    let spec : List Value := [.text [65], .word .value, .block [.datatype (.builtin .integer)],
      .text [66], .refinement ⟨5⟩, .setWord .output]
    let groups : List Group :=
      [{ head := .word .value, notes := some [66], types := some [.datatype (.builtin .integer)] },
        { head := .refinement ⟨5⟩ }, { head := .output }]
    Specifies (some [65]) groups spec ∧ OutputsAllowed none groups ∧
      ∃ state, run { entries := [.header], outputSlot := none } spec true = (.ok (), state) ∧
        state.description = some [65] ∧ state.outputSlot = some 3 ∧
        state.entries = [.header,
          { name := .value
            content := .unbound .normal ⟨.single .integer, []⟩
            typeNotes := some [.datatype (.builtin .integer)]
            docNotes := some [66] },
          { name := ⟨5⟩, content := .unbound .refinement ⟨.anyValue, []⟩ },
          { name := .output, content := .unbound .output ⟨.anyType, []⟩ }] := by
  intro spec groups
  have hspec : Specifies (some [65]) groups spec :=
    ⟨_, .cons (.inr rfl) (.cons (.inl rfl) (.cons (.inl rfl) .nil)), rfl⟩
  have hallowed : OutputsAllowed none groups := ⟨by decide, fun h => by cases h⟩
  obtain ⟨state, hrun, hdescription, hslot, hentries⟩ :=
    (run_specifies [] none spec true).2.1 _ _ hspec hallowed
  exact ⟨hspec, hallowed, state, hrun, hdescription, hslot, hentries.trans (by decide)⟩

end Declaring

end ActionKit
