import ActionKit.Proofs.Groups

/-!
# The meaning of type blocks

A block of types means the union of its items: a value is accepted if it is of one of the
datatypes, or of a kind in one of the typesets. How often the items stand in the block, and in
which order, does not matter for that. It only shows in the list of the open categories, which
holds each category once, where it stands first.

* `openCategories`: the open categories that a block names, in order.
* `Constraint.Distinct`: no category is listed twice.
* `Constraint.UnionOf`: a constraint is the union of the items of a block.

Results:
* `accepts_ofTerms`, `contains_ofTerms`: what some datatypes and typesets let in.
* `categories_ofTerms`, `distinct_ofTerms`: the categories among them, each once.
* `Distinct.ofTerms_datatypes`: a constraint is the union of what it names.
* `accepts_of_kinds_eq_empty`: without a kind, only the categories let values in.
* `typeBlock_unites`: a block of types means the union of its items.
-/

namespace ActionKit

/-- The open categories among some items, in order. -/
def openCategories (items : List Value) : List Category :=
  items.filterMap fun
    | .datatype (.category category) => some category
    | _ => none

/-- A typeset is known by the kinds in it. -/
theorem Typeset.ext_contains {s t : Typeset} (h : ∀ kind, s.contains kind = t.contains kind) :
    s = t := by
  obtain ⟨s⟩ := s
  obtain ⟨t⟩ := t
  congr 1
  refine BitVec.eq_of_getLsbD_eq fun i hi => ?_
  have hkinds : ∀ i < 12, ∃ kind ∈ Kind.all, kind.index = i := by decide
  obtain ⟨kind, -, rfl⟩ := hkinds i hi
  exact h kind

namespace TypeTerm

/-- Whether all values of a kind are of a datatype or in a typeset. -/
def contains : TypeTerm → Kind → Bool
  | .datatype (.builtin own), kind => own = kind
  | .datatype (.category _), _ => false
  | .typeset t, kind => t.contains kind

theorem toValue_injective : Function.Injective toValue := by
  intro a b h
  exact Option.some.inj ((Value.typeTerm?_eq_some_iff.mpr rfl).symm.trans
    (Value.typeTerm?_eq_some_iff.mpr h))

variable {terms : List TypeTerm}

theorem datatype_mem_iff {d : Datatype} :
    Value.datatype d ∈ terms.map toValue ↔ .datatype d ∈ terms :=
  List.mem_map_of_injective toValue_injective (a := .datatype d)

theorem typeset_mem_iff {t : Typeset} :
    Value.typeset t ∈ terms.map toValue ↔ .typeset t ∈ terms :=
  List.mem_map_of_injective toValue_injective (a := .typeset t)

/-- Some type terms admit a value exactly if a datatype or a typeset among them does. -/
theorem any_admits_iff {value : Value} :
    terms.any (·.admits value) = true ↔
      (∃ d, .datatype d ∈ terms ∧ value.isType d = true) ∨
        ∃ t, .typeset t ∈ terms ∧ t.contains value.kind = true := by
  rw [List.any_eq_true]
  constructor
  · rintro ⟨term, hmem, hadmits⟩
    cases term with
    | datatype d => exact .inl ⟨d, hmem, hadmits⟩
    | typeset t => exact .inr ⟨t, hmem, hadmits⟩
  · rintro (⟨d, hmem, hadmits⟩ | ⟨t, hmem, hadmits⟩)
    · exact ⟨.datatype d, hmem, hadmits⟩
    · exact ⟨.typeset t, hmem, hadmits⟩

/-- Some type terms let in a kind exactly if it is named, or in a typeset among them. -/
theorem any_contains_iff {kind : Kind} :
    terms.any (·.contains kind) = true ↔
      .datatype (.builtin kind) ∈ terms ∨ ∃ t, .typeset t ∈ terms ∧ t.contains kind = true := by
  rw [List.any_eq_true]
  constructor
  · rintro ⟨term, hmem, hkind⟩
    match term with
    | .datatype (.builtin own) =>
      obtain rfl : own = kind := of_decide_eq_true hkind
      exact .inl hmem
    | .typeset t => exact .inr ⟨t, hmem, hkind⟩
  · rintro (hmem | ⟨t, hmem, hkind⟩)
    · exact ⟨_, hmem, decide_eq_true rfl⟩
    · exact ⟨_, hmem, hkind⟩

end TypeTerm

namespace Constraint

variable {types : Constraint} {terms : List TypeTerm} {items : List Value}

/-! ## Adding items -/

/-- Whether two categories are the same one. -/
def sameCategory (a b : Category) : Bool := a.serial == b.serial

/-- No category is listed twice. -/
def Distinct (types : Constraint) : Prop := (types.categories.map (·.serial)).Nodup

/-- Adding an item lists no category twice. -/
theorem Distinct.add (h : types.Distinct) (term : TypeTerm) : (types.add term).Distinct := by
  unfold Constraint.add
  match term with
  | .typeset _ | .datatype (.builtin _) => exact h
  | .datatype (.category category) =>
    dsimp only
    split
    · exact h
    · next hnew =>
      have hnotMem : category.serial ∉ types.categories.map (·.serial) := by
        simpa [List.any_eq_true] using hnew
      show ((types.categories ++ [category]).map (·.serial)).Nodup
      rw [List.map_append]
      exact h.append (List.nodup_singleton _) (by simpa using hnotMem)

theorem distinct_ofTerms (terms : List TypeTerm) : (ofTerms terms).Distinct := by
  have hfold : ∀ types : Constraint, types.Distinct →
      (terms.foldl Constraint.add types).Distinct := by
    induction terms with
    | nil => exact fun _ h => h
    | cons term terms ih => exact fun types h => ih _ (h.add term)
  exact hfold .empty List.nodup_nil

/-- More items list the categories that are new after those that were there, each once. -/
theorem categories_foldl (terms : List TypeTerm) (types : Constraint) :
    (terms.foldl add types).categories =
      List.eraseDupsBy.loop sameCategory (openCategories (terms.map (·.toValue)))
        types.categories.reverse := by
  induction terms generalizing types with
  | nil => exact (List.reverse_reverse _).symm
  | cons term terms ih =>
    rw [List.foldl_cons, ih]
    match term with
    | .typeset _ | .datatype (.builtin _) => rfl
    | .datatype (.category category) =>
      have hknown : types.categories.reverse.any (sameCategory category) =
          types.categories.any (·.serial = category.serial) := by
        rw [List.any_reverse]
        congr 1
        funext other
        exact decide_eq_decide.mpr eq_comm
      show _ = List.eraseDupsBy.loop sameCategory (category :: openCategories (terms.map _)) _
      rw [List.eraseDupsBy.loop, hknown, add]
      split
      · next h => simp only [h]
      · next h => simp [h]

/-- The categories among some datatypes and typesets, each where it stands first. -/
theorem categories_ofTerms (terms : List TypeTerm) :
    (ofTerms terms).categories =
      (openCategories (terms.map (·.toValue))).eraseDupsBy sameCategory :=
  categories_foldl terms .empty

theorem contains_add (types : Constraint) (term : TypeTerm) (kind : Kind) :
    (types.add term).contains kind = (types.contains kind || term.contains kind) := by
  unfold add
  match term with
  | .typeset t => simp [contains, TypeTerm.contains]
  | .datatype (.builtin own) => simp [contains, TypeTerm.contains]
  | .datatype (.category category) =>
    dsimp only
    split <;> simp [contains, TypeTerm.contains]

/-- Some datatypes and typesets let in the kinds that one of them lets in. -/
theorem contains_ofTerms (terms : List TypeTerm) (kind : Kind) :
    (ofTerms terms).contains kind = terms.any (·.contains kind) := by
  have hfold : ∀ types : Constraint, (terms.foldl add types).contains kind =
      (types.contains kind || terms.any (·.contains kind)) := by
    induction terms with
    | nil => simp
    | cons term terms ih =>
      exact fun types => by
        rw [List.foldl_cons, ih, contains_add, List.any_cons, Bool.or_assoc]
  rw [ofTerms, hfold]
  simp [contains, empty]

/-! ## What a constraint names -/

/-- Categories that are all new are all kept. -/
theorem loop_distinct (categories known : List Category)
    (h : ((known.reverse ++ categories).map (·.serial)).Nodup) :
    List.eraseDupsBy.loop sameCategory categories known = known.reverse ++ categories := by
  induction categories generalizing known with
  | nil => exact (List.append_nil _).symm
  | cons category rest ih =>
    have hnew : known.any (sameCategory category) = false := by
      rw [List.map_append, List.map_cons] at h
      obtain ⟨-, -, hapart⟩ := List.nodup_append.mp h
      rw [List.any_eq_false]
      intro other hother hsame
      exact hapart other.serial (List.mem_map_of_mem (List.mem_reverse.mpr hother)) category.serial
        List.mem_cons_self (beq_iff_eq.mp hsame).symm
    have hrest := ih (category :: known) (by simpa using h)
    rw [List.eraseDupsBy.loop, hnew]
    simpa using hrest

theorem openCategories_datatypes (types : Constraint) :
    openCategories ((types.datatypes.map TypeTerm.datatype).map (·.toValue)) =
      types.categories := by
  have hkinds : openCategories (((types.kinds.kinds.map Datatype.builtin).map
      TypeTerm.datatype).map (·.toValue)) = [] := by
    simp [openCategories, TypeTerm.toValue]
  have hcategories : openCategories (((types.categories.map Datatype.category).map
      TypeTerm.datatype).map (·.toValue)) = types.categories := by
    simp [openCategories, TypeTerm.toValue, List.filterMap_map, Function.comp_def]
  rw [datatypes, List.map_append, List.map_append, openCategories, List.filterMap_append]
  exact (congrArg₂ _ hkinds hcategories).trans (List.nil_append _)

/-- **A constraint is the union of what it names.** -/
theorem Distinct.ofTerms_datatypes (h : types.Distinct) :
    ofTerms (types.datatypes.map .datatype) = types := by
  have hkinds : (ofTerms (types.datatypes.map .datatype)).kinds = types.kinds := by
    refine Typeset.ext_contains fun kind => ?_
    show (ofTerms _).contains kind = _
    rw [contains_ofTerms, Bool.eq_iff_iff, TypeTerm.any_contains_iff]
    simp [datatypes]
  have hcategories : (ofTerms (types.datatypes.map .datatype)).categories = types.categories := by
    rw [categories_ofTerms, openCategories_datatypes]
    exact loop_distinct types.categories [] h
  cases hnamed : ofTerms (types.datatypes.map .datatype) with
  | mk kinds categories =>
    rw [hnamed] at hkinds hcategories
    obtain rfl : kinds = types.kinds := hkinds
    obtain rfl : categories = types.categories := hcategories
    rfl

/-! ## Blocks of types -/

/-- **A constraint is the union of the items of a block.** -/
structure UnionOf (types : Constraint) (items : List Value) : Prop where
  /-- A value is accepted if one of the items admits it. -/
  accepts (value : Value) : types.accepts value = true ↔
    (∃ d, .datatype d ∈ items ∧ value.isType d = true) ∨
      ∃ t, .typeset t ∈ items ∧ t.contains value.kind = true
  /-- The kinds are those that are named, and those of the typesets. -/
  kinds (kind : Kind) : types.contains kind = true ↔
    .datatype (.builtin kind) ∈ items ∨ ∃ t, .typeset t ∈ items ∧ t.contains kind = true
  /-- The categories are listed where they stand first. -/
  categories : types.categories = (openCategories items).eraseDupsBy sameCategory
  /-- No category is listed twice. -/
  distinct : types.Distinct

theorem unionOf_ofTerms (terms : List TypeTerm) :
    (ofTerms terms).UnionOf (terms.map (·.toValue)) where
  accepts value := by
    simp only [TypeTerm.datatype_mem_iff, TypeTerm.typeset_mem_iff]
    rw [accepts_ofTerms, TypeTerm.any_admits_iff]
  kinds kind := by
    simp only [TypeTerm.datatype_mem_iff, TypeTerm.typeset_mem_iff]
    rw [contains_ofTerms, TypeTerm.any_contains_iff]
  categories := categories_ofTerms terms
  distinct := distinct_ofTerms terms

/-- Without a kind, only the categories let values in, and only their own. -/
theorem accepts_of_kinds_eq_empty (h : types.kinds = .empty) {value : Value} :
    types.accepts value = true ↔
      ∃ own payload, value = .custom own payload ∧
        ∃ category ∈ types.categories, own.serial = category.serial := by
  rw [Constraint.accepts, h, Typeset.contains_empty, Bool.false_or, List.any_eq_true]
  constructor
  · rintro ⟨category, hmem, htype⟩
    cases value with
    | custom own payload => exact ⟨own, payload, rfl, category, hmem, of_decide_eq_true htype⟩
    | _ => cases htype
  · rintro ⟨own, payload, rfl, category, hmem, hserial⟩
    exact ⟨category, hmem, decide_eq_true hserial⟩

end Constraint

namespace Declaring

variable {position : Nat} {items : List Value} {types : Constraint}

/-- Exactly the datatypes and typesets may stand in a block of types. -/
theorem typeBlock_accepted_iff :
    (∃ types, typeBlock position items = .ok types) ↔
      ∀ item ∈ items, ∃ term : TypeTerm, item = term.toValue := by
  constructor
  · rintro ⟨types, h⟩ item hmem
    obtain ⟨terms, rfl, -⟩ := typeBlock_eq_ok_iff.mp h
    obtain ⟨term, -, rfl⟩ := List.mem_map.mp hmem
    exact ⟨term, rfl⟩
  · intro h
    obtain ⟨terms, rfl⟩ : ∃ terms : List TypeTerm, items = terms.map (·.toValue) := by
      induction items with
      | nil => exact ⟨[], rfl⟩
      | cons item rest ih =>
        obtain ⟨term, rfl⟩ := h item List.mem_cons_self
        obtain ⟨terms, rfl⟩ := ih fun other hmem => h other (List.mem_cons_of_mem _ hmem)
        exact ⟨term :: terms, rfl⟩
    exact ⟨_, typeBlock_eq_ok_iff.mpr ⟨terms, rfl, rfl⟩⟩

theorem unionOf_of_typeBlock (h : typeBlock position items = .ok types) : types.UnionOf items := by
  obtain ⟨terms, rfl, rfl⟩ := typeBlock_eq_ok_iff.mp h
  exact Constraint.unionOf_ofTerms terms

/-- **A block of types means the union of its items.** Blocks with the same items accept the same
values, whatever their order and number, and more items never make a block reject what it
accepted. Where the items name categories only, the values accepted are those of one of the
categories listed. -/
theorem typeBlock_unites (h : typeBlock position items = .ok types) :
    types.UnionOf items ∧
    (∀ place others, (∀ item, item ∈ others ↔ item ∈ items) →
      ∃ same, typeBlock place others = .ok same ∧
        ∀ value, same.accepts value = types.accepts value) ∧
    (∀ place more wider, typeBlock place (items ++ more) = .ok wider →
      ∀ value, types.accepts value = true → wider.accepts value = true) ∧
    (types.kinds = .empty → ∀ value, types.accepts value = true ↔
      ∃ own payload, value = .custom own payload ∧
        ∃ category ∈ types.categories, own.serial = category.serial) := by
  have hunion := unionOf_of_typeBlock h
  refine ⟨hunion, fun place others hsame => ?_, fun place more wider hwider value haccepts => ?_,
    fun hkinds value => Constraint.accepts_of_kinds_eq_empty hkinds⟩
  · obtain ⟨same, hothers⟩ := typeBlock_accepted_iff.mpr fun item hmem =>
      typeBlock_accepted_iff.mp ⟨types, h⟩ item ((hsame item).mp hmem)
    refine ⟨same, hothers, fun value => ?_⟩
    rw [Bool.eq_iff_iff, (unionOf_of_typeBlock hothers).accepts, hunion.accepts]
    simp only [hsame]
  · rw [(unionOf_of_typeBlock hwider).accepts]
    refine ((hunion.accepts value).mp haccepts).imp ?_ ?_
    · exact fun ⟨d, hmem, hadmits⟩ => ⟨d, List.mem_append_left _ hmem, hadmits⟩
    · exact fun ⟨t, hmem, hadmits⟩ => ⟨t, List.mem_append_left _ hmem, hadmits⟩

/-- Two categories, the first of them named twice. Each is listed once, and a third one is not
let in. The other order lists them differently and accepts the same; a typeset behind them lets in
words as well. -/
theorem typeBlock_unites_categories :
    let point : Category := ⟨0, ⟨5⟩⟩
    let size : Category := ⟨1, ⟨6⟩⟩
    let items : List Value :=
      [.datatype (.category point), .datatype (.category size), .datatype (.category point)]
    ∃ types same wider : Constraint, typeBlock 1 items = .ok types ∧
      types.categories = [point, size] ∧ types.UnionOf items ∧
      typeBlock 1 [.datatype (.category size), .datatype (.category point)] = .ok same ∧
      same.categories = [size, point] ∧
      (∀ value, same.accepts value = types.accepts value) ∧
      typeBlock 1 (items ++ [.typeset .anyWord]) = .ok wider ∧
      (∀ value, types.accepts value = true → wider.accepts value = true) ∧
      types.accepts (.custom ⟨2, ⟨7⟩⟩ .none) = false ∧ types.accepts (.custom size .none) = true ∧
      types.accepts (.word .value) = false ∧ wider.accepts (.word .value) = true := by
  intro point size items
  have h : typeBlock 1 items = .ok { categories := [point, size] } := rfl
  obtain ⟨hunion, hsame, hwider, honly⟩ := typeBlock_unites h
  obtain ⟨same, hothers, haccepts⟩ :=
    hsame 1 [.datatype (.category size), .datatype (.category point)] fun item => by
      simp only [items, List.mem_cons, List.not_mem_nil, or_false]
      grind
  obtain rfl : { categories := [size, point] } = same := Except.ok.inj hothers
  refine ⟨_, _, { kinds := .union .empty .anyWord, categories := [point, size] }, h, rfl, hunion,
    hothers, rfl, haccepts, rfl, hwider 1 [.typeset .anyWord] _ rfl, ?_, (honly rfl _).mpr ?_,
    by decide, by decide⟩
  · rw [← Bool.not_eq_true, honly rfl]
    rintro ⟨own, payload, hvalue, category, hmem, hserial⟩
    obtain ⟨rfl, -⟩ := Value.custom.inj hvalue
    rcases List.mem_pair.mp hmem with rfl | rfl <;> cases hserial
  · exact ⟨size, .none, rfl, size, by simp, rfl⟩

end Declaring

end ActionKit
