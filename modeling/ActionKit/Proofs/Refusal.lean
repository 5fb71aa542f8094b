import ActionKit.Proofs.Groups

/-!
# Specs that are refused

Items are taken in order, and a spec is refused for the first item that does not fit in behind
those before it. What is wrong with that item can be told from the text and the groups before it.

* `Declarable`: specs in the grammar that declare no output but where it is allowed.
* `Offends`: what is wrong with an item, and the error that says so.
* `FirstOffence`: the error for the first item of a spec that is out of place.

Results:
* `typeBlock_eq_error_iff`: a block is refused for the first item that is not a type.
* `item_offends`, `refused_of_offends`: an item is refused for what is wrong with it.
* `items_rejected`: items are refused for one of them, with all before it taken.
* `items_ok_iff`, `items_error_iff`: a spec is taken if it is declarable, and otherwise refused
  for its first offence.
-/

namespace ActionKit

/-- A spec in the grammar, with no output but where it is allowed. -/
def Declarable (outputSlot : Option Nat) (spec : List Value) : Prop :=
  ∃ description groups, Specifies description groups spec ∧ OutputsAllowed outputSlot groups

/-- **What is wrong with an item** at some position, behind a text and groups that are in order,
and the error that says so. -/
inductive Offends (outputSlot : Option Nat) (description : Option Bytes) (groups : List Group)
    (position : Nat) : Value → BuildError → Prop
  | description (bytes : Bytes) (hgroups : groups = []) (hsome : description.isSome = true) :
      Offends outputSlot description groups position (.text bytes)
        (.specItem position (.text bytes) .duplicateDescription)
  | notes (bytes : Bytes) (group : Group) (hlast : groups.getLast? = some group)
      (hsome : group.notes.isSome = true) :
      Offends outputSlot description groups position (.text bytes)
        (.specItem position (.text bytes) .duplicateNotes)
  | strayTypes (items : List Value) (hgroups : groups = []) :
      Offends outputSlot description groups position (.block items)
        (.specItem position (.block items) .strayTypeBlock)
  /-- The error names the first item of the block that is not a type. -/
  | notAType (terms : List TypeTerm) (found : Value) (rest : List Value) (hgroups : groups ≠ [])
      (hfound : found.typeTerm? = none) :
      Offends outputSlot description groups position
        (.block (terms.map (·.toValue) ++ found :: rest)) (.specItem position found .notAType)
  | types (terms : List TypeTerm) (group : Group) (hlast : groups.getLast? = some group)
      (hsome : group.types.isSome = true) :
      Offends outputSlot description groups position (.block (terms.map (·.toValue)))
        (.specItem position (.block (terms.map (·.toValue))) .duplicateTypeBlock)
  | setWord (name : Symbol) (hname : name ≠ .output) :
      Offends outputSlot description groups position (.setWord name)
        (.specItem position (.setWord name) .straySetWord)
  | output (hsome : outputSlot.isSome = true ∨ ∃ group ∈ groups, group.head = .output) :
      Offends outputSlot description groups position (.setWord .output)
        (.duplicateParameter .output)
  /-- No other items may stand in a spec. -/
  | stray (value : Value)
      (hkind : value.kind ∉ [Kind.text, .block, .word, .refinement, .setWord]) :
      Offends outputSlot description groups position value (.specItem position value .strayItem)

/-- **The error for the first item of a spec that is out of place.** All items before it are in
order, and with it they are not. -/
def FirstOffence (outputSlot : Option Nat) (spec : List Value) (error : BuildError) : Prop :=
  ∃ taken item rest description groups, spec = taken ++ item :: rest ∧
    Specifies description groups taken ∧ OutputsAllowed outputSlot groups ∧
    ¬ Declarable outputSlot (taken ++ [item]) ∧
    Offends outputSlot description groups taken.length item error

namespace Declaring

/-! ## One item -/

/-- A block is refused for the first item that is not a type, whatever was taken before. -/
theorem foldlM_types_error (position : Nat) (items : List Value) (start : Constraint)
    (error : BuildError) :
    items.foldlM
        (fun types item =>
          match item.typeTerm? with
          | some term => .ok (types.add term)
          | none => .error (.specItem position item .notAType))
        start = (.error error : Except BuildError Constraint) ↔
      ∃ (terms : List TypeTerm) (found : Value) (rest : List Value),
        items = terms.map (·.toValue) ++ found :: rest ∧ found.typeTerm? = none ∧
          error = .specItem position found .notAType := by
  induction items generalizing start with
  | nil =>
    constructor
    · intro h
      cases h
    · rintro ⟨terms, found, rest, hitems, -⟩
      cases terms <;> cases hitems
  | cons item items ih =>
    rw [List.foldlM_cons]
    cases hterm : item.typeTerm? with
    | none =>
      constructor
      · intro h
        obtain rfl := Except.error.inj h
        exact ⟨[], item, items, rfl, hterm, rfl⟩
      · rintro ⟨_ | ⟨term, terms⟩, found, rest, hitems, -, rfl⟩
        · obtain ⟨rfl, -⟩ := List.cons.inj hitems
          rfl
        · obtain ⟨rfl, -⟩ := List.cons.inj hitems
          rw [Value.typeTerm?_eq_some_iff.mpr rfl] at hterm
          cases hterm
    | some term =>
      refine (ih (start.add term)).trans ⟨?_, ?_⟩
      · rintro ⟨terms, found, rest, rfl, hfound, rfl⟩
        rw [Value.typeTerm?_eq_some_iff.mp hterm]
        exact ⟨term :: terms, found, rest, rfl, hfound, rfl⟩
      · rintro ⟨_ | ⟨first, terms⟩, found, rest, hitems, hfound, rfl⟩
        · obtain ⟨rfl, -⟩ := List.cons.inj hitems
          cases hterm.symm.trans hfound
        · obtain ⟨-, rfl⟩ := List.cons.inj hitems
          exact ⟨terms, found, rest, rfl, hfound, rfl⟩

/-- **A block is refused for the first item that is not a type.** -/
theorem typeBlock_eq_error_iff {position : Nat} {items : List Value} {error : BuildError} :
    typeBlock position items = .error error ↔
      ∃ (terms : List TypeTerm) (found : Value) (rest : List Value),
        items = terms.map (·.toValue) ++ found :: rest ∧ found.typeTerm? = none ∧
          error = .specItem position found .notAType :=
  foldlM_types_error position items .empty error

section Item

variable {start : Declaring} {description : Option Bytes} {groups : List Group} {position : Nat}
  {error : BuildError}

/-- As long as nothing may follow a parameter, none has been declared. -/
theorem groups_eq_nil (hcurrent : (groups.foldl group start).current = none) : groups = [] := by
  rcases List.eq_nil_or_concat' groups with rfl | ⟨before, g, rfl⟩
  · rfl
  · rw [List.foldl_append] at hcurrent
    cases hcurrent

theorem text_offends (hstart : start.current = none) {bytes : Bytes}
    (h : (groups.foldl group (start.describe description)).text position bytes = .error error) :
    Offends start.outputSlot description groups position (.text bytes) error := by
  unfold text at h
  split at h
  · next hcurrent =>
    obtain rfl := groups_eq_nil hcurrent
    split at h
    · next hsome =>
      obtain rfl := Except.error.inj h
      exact .description bytes rfl hsome
    · cases h
  · next slot hcurrent =>
    obtain ⟨before, g, rfl, rfl, hlast⟩ := exists_last (start.describe description) hstart hcurrent
    rw [hlast, getElem?_group] at h
    split at h
    · next hsome =>
      obtain rfl := Except.error.inj h
      exact .notes bytes g List.getLast?_concat hsome
    · cases h

theorem block_offends (hstart : start.current = none) {items : List Value}
    (h : (groups.foldl group (start.describe description)).block position items = .error error) :
    Offends start.outputSlot description groups position (.block items) error := by
  unfold block at h
  split at h
  · next hcurrent =>
    obtain rfl := Except.error.inj h
    exact .strayTypes items (groups_eq_nil hcurrent)
  · next slot hcurrent =>
    obtain ⟨before, g, rfl, rfl, hlast⟩ := exists_last (start.describe description) hstart hcurrent
    split at h
    · next other hblock =>
      obtain rfl := Except.error.inj h
      obtain ⟨terms, found, rest, rfl, hfound, rfl⟩ := typeBlock_eq_error_iff.mp hblock
      exact .notAType terms found rest (by simp) hfound
    · next types hblock =>
      obtain ⟨terms, rfl, -⟩ := typeBlock_eq_ok_iff.mp hblock
      rw [hlast, getElem?_group] at h
      split at h
      · next hsome =>
        obtain rfl := Except.error.inj h
        exact .types terms g List.getLast?_concat (by simpa [Group.entry] using hsome)
      · cases h

theorem isSome_declaredOutput {entries : List Entry} :
    (declaredOutput entries groups).isSome = true ↔ ∃ g ∈ groups, g.head = .output := by
  unfold declaredOutput
  rw [Option.isSome_map, List.findIdx?_isSome]
  simp

theorem setWord_offends (hallowed : OutputsAllowed start.outputSlot groups) {name : Symbol}
    (h : (groups.foldl group (start.describe description)).setWord position name = .error error) :
    Offends start.outputSlot description groups position (.setWord name) error := by
  unfold setWord at h
  split at h
  · next hname =>
    subst hname
    split at h
    · next hsome =>
      obtain rfl := Except.error.inj h
      rw [outputSlot_groups (start.describe description) hallowed, Option.isSome_or,
        Bool.or_eq_true, isSome_declaredOutput] at hsome
      exact .output hsome
    · cases h
  · next hname =>
    obtain rfl := Except.error.inj h
    exact .setWord name hname

/-- **An item is refused for what is wrong with it.** -/
theorem item_offends (hstart : start.current = none)
    (hallowed : OutputsAllowed start.outputSlot groups) {value : Value}
    (h : (groups.foldl group (start.describe description)).item position value = .error error) :
    Offends start.outputSlot description groups position value error := by
  unfold item at h
  split at h
  · exact text_offends hstart h
  · exact block_offends hstart h
  · cases h
  · cases h
  · exact setWord_offends hallowed h
  · obtain rfl := Except.error.inj h
    refine .stray value ?_
    cases value <;> simp_all [Value.kind]

/-- The state behind groups, as their last one leaves it. -/
theorem foldl_getLast (state : Declaring) {g : Group} (hlast : groups.getLast? = some g) :
    ∃ before : Declaring, groups.foldl group state = before.group g := by
  obtain ⟨others, rfl⟩ := List.getLast?_eq_some_iff.mp hlast
  exact ⟨others.foldl group state, List.foldl_append⟩

theorem current_group (state : Declaring) (g : Group) :
    (state.group g).current = some state.entries.length := rfl

/-- **What is wrong with an item is what it is refused for.** -/
theorem refused_of_offends (hstart : start.current = none)
    (hallowed : OutputsAllowed start.outputSlot groups) {value : Value}
    (h : Offends start.outputSlot description groups position value error) :
    (groups.foldl group (start.describe description)).item position value = .error error := by
  cases h with
  | description bytes hgroups hsome =>
    subst hgroups
    show (start.describe description).text position bytes = _
    unfold text
    rw [show (start.describe description).current = none from hstart]
    exact if_pos hsome
  | notes bytes g hlast hsome =>
    obtain ⟨before, hstate⟩ := foldl_getLast (start.describe description) hlast
    rw [hstate]
    show (before.group g).text position bytes = _
    unfold text
    simp only [current_group, getElem?_group]
    exact if_pos hsome
  | strayTypes items hgroups =>
    subst hgroups
    show (start.describe description).block position items = _
    unfold block
    rw [show (start.describe description).current = none from hstart]
  | notAType terms found rest hgroups hfound =>
    obtain ⟨before, hstate⟩ :=
      foldl_getLast (start.describe description) (List.getLast?_eq_some_getLast hgroups)
    rw [hstate]
    show (before.group _).block position _ = _
    unfold block
    simp only [current_group, typeBlock_eq_error_iff.mpr ⟨terms, found, rest, rfl, hfound, rfl⟩]
  | types terms g hlast hsome =>
    obtain ⟨before, hstate⟩ := foldl_getLast (start.describe description) hlast
    rw [hstate]
    show (before.group g).block position _ = _
    unfold block
    simp only [current_group, typeBlock_eq_ok_iff.mpr ⟨terms, rfl, rfl⟩, getElem?_group]
    exact if_pos (Option.isSome_map.trans hsome)
  | setWord name hname => exact if_neg hname
  | output hsome =>
    have hslot : (groups.foldl group (start.describe description)).outputSlot.isSome = true := by
      rw [outputSlot_groups (start.describe description) hallowed, Option.isSome_or,
        Bool.or_eq_true, isSome_declaredOutput]
      exact hsome
    show (groups.foldl group (start.describe description)).setWord position .output = _
    unfold setWord
    rw [if_pos rfl, if_pos hslot]
  | stray value hkind => cases value <;> simp_all [Value.kind, item]

end Item

/-! ## Items in order -/

theorem items_append {first : List Value} :
    ∀ {state next : Declaring} {position : Nat}, state.items position first = (.ok (), next) →
      ∀ rest, state.items position (first ++ rest) = next.items (position + first.length) rest := by
  induction first with
  | nil =>
    intro state next position h rest
    obtain ⟨-, rfl⟩ := Prod.mk.inj h
    rfl
  | cons value first ih =>
    intro state next position h rest
    unfold items at h
    split at h
    · cases (Prod.mk.inj h).1
    · next mid hitem =>
      rw [List.cons_append, items_cons hitem, ih h rest, List.length_cons, Nat.add_right_comm]
      rfl

/-- **Items are refused for one of them**, and all before it are taken. -/
theorem items_rejected {spec : List Value} {error : BuildError} {last : Declaring} :
    ∀ {state : Declaring} {position : Nat}, state.items position spec = (.error error, last) →
      ∃ taken value rest mid, spec = taken ++ value :: rest ∧
        state.items position taken = (.ok (), mid) ∧
        mid.item (position + taken.length) value = .error error := by
  induction spec with
  | nil =>
    intro state position h
    cases (Prod.mk.inj h).1
  | cons value spec ih =>
    intro state position h
    unfold items at h
    split at h
    · next other hitem =>
      obtain ⟨herror, rfl⟩ := Prod.mk.inj h
      obtain rfl := Except.error.inj herror
      exact ⟨[], value, spec, state, rfl, rfl, hitem⟩
    · next next hitem =>
      obtain ⟨taken, refused, rest, mid, rfl, htaken, hrefused⟩ := ih h
      refine ⟨value :: taken, refused, rest, mid, rfl, ?_, ?_⟩
      · rw [items_cons hitem, htaken]
      · rw [List.length_cons, Nat.add_comm taken.length, ← Nat.add_assoc]
        exact hrefused

/-- Where no output is asked for, a spec is its items. -/
theorem run_false (state : Declaring) (spec : List Value) :
    state.run spec false = state.items 0 spec := by
  unfold run
  cases state.items 0 spec with
  | mk result next => cases result <;> rfl

variable {start : Declaring}

theorem specified_nil (hdescription : start.description = none) : Specified start [] start :=
  ⟨none, [], ⟨[], .nil, rfl⟩, .nil _, by rw [describe, ← hdescription]; rfl⟩

/-- **A spec is taken if it is declarable.** -/
theorem items_ok_iff (hcurrent : start.current = none) (hdescription : start.description = none)
    {spec : List Value} : (start.items 0 spec).1 = .ok () ↔ Declarable start.outputSlot spec := by
  constructor
  · intro hok
    obtain ⟨description, groups, hspec, hallowed, -⟩ :=
      items_specified start hcurrent (Prod.ext hok rfl) (specified_nil hdescription)
    exact ⟨description, groups, hspec, hallowed⟩
  · rintro ⟨description, groups, hspec, hallowed⟩
    rw [items_specifies hcurrent hdescription hspec hallowed]

/-- **A spec is refused for its first offence.** -/
theorem items_error_iff (hcurrent : start.current = none) (hdescription : start.description = none)
    {spec : List Value} {error : BuildError} :
    (start.items 0 spec).1 = .error error ↔ FirstOffence start.outputSlot spec error := by
  constructor
  · intro herror
    obtain ⟨taken, value, rest, mid, rfl, htaken, hrefused⟩ :=
      items_rejected (Prod.ext herror rfl)
    rw [Nat.zero_add] at hrefused
    obtain ⟨description, groups, hspec, hallowed, rfl⟩ :=
      items_specified start hcurrent htaken (specified_nil hdescription)
    refine ⟨taken, value, rest, description, groups, rfl, hspec, hallowed, fun hdeclarable => ?_,
      item_offends hcurrent hallowed hrefused⟩
    have hok := (items_ok_iff hcurrent hdescription).mpr hdeclarable
    rw [items_append htaken, items, Nat.zero_add, hrefused] at hok
    cases hok
  · rintro ⟨taken, value, rest, description, groups, rfl, hspec, hallowed, -, hoffends⟩
    rw [items_append (items_specifies hcurrent hdescription hspec hallowed), items, Nat.zero_add,
      refused_of_offends hcurrent hallowed hoffends]

end Declaring

end ActionKit
