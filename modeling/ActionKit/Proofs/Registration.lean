import ActionKit.Proofs.RoundTrip

/-!
# Registered types in specs

A name that is registered stands for its category in specs from then on, whatever is done in the
workshop later: names and categories are only ever added behind those that are there. Registering
refuses no name, but a built-in type name goes on to mean what it is built in for.

* `Workshop.Retains`: the names and the categories of a workshop are still there in another one.

Results:
* `Leads.retains`: no operations lose or renumber a name or a category.
* `readSpec_registered`: what a registered name is read as, and when that is its category.
-/

namespace ActionKit

theorem TypeRegistry.register_grows (types : TypeRegistry) (name : Symbol) :
    types.categories <+: (types.register name).2.categories := by
  unfold register
  cases types.find? name with
  | some category => exact List.prefix_rfl
  | none => exact List.prefix_append _ _

namespace Workshop

variable {w w' w'' : Workshop}

/-! ## Names and categories stay -/

/-- The names and the categories of a workshop are the first ones of another. -/
structure Retains (w w' : Workshop) : Prop where
  names : w.names.Grows w'.names
  types : w.types.categories <+: w'.types.categories

theorem Retains.refl (w : Workshop) : w.Retains w := ⟨.refl _, List.prefix_rfl⟩

theorem Retains.trans (h : w.Retains w') (h' : w'.Retains w'') : w.Retains w'' :=
  ⟨h.names.trans h'.names, h.types.trans h'.types⟩

/-- Carried out or not, a request registers nothing. -/
theorem Settles.retains {request : Request} {answer : Except BuildError (Option Action)}
    (h : w.Settles request answer w') : w.Retains w' := by
  refine ⟨h.names, ?_⟩
  cases answer with
  | error error =>
    obtain ⟨names, journal, rfl⟩ := h.failed error rfl
    exact List.prefix_rfl
  | ok made =>
    obtain ⟨names, journal, lineage, actions, rfl⟩ := h.succeeded made rfl
    exact List.prefix_rfl

theorem Step.retains (hw : w.Reachable) (hs : Step w w') : w.Retains w' := by
  have settles (request : Request) :=
    (settles_of_trace (congrArg Scratch.trace hw.scratch_eq) request).retains
  cases hs with
  | intern name => exact ⟨w.names.intern_grows name, List.prefix_rfl⟩
  | register name => exact ⟨w.names.intern_grows name, w.types.register_grows _⟩
  | readSpec text => exact settles (.readSpec text)
  | makeNative function words => exact settles (.makeNative function words)
  | specialize source own bindings => exact settles (.specialize source bindings)
  | augment source own spec label => exact settles (.augment source spec label)
  | makeChecker descriptor => exact settles (.makeChecker descriptor)

/-- **No operations lose or renumber a name or a category.** -/
theorem Leads.retains (hw : w.Reachable) (h : w.Leads w') : w.Retains w' := by
  induction h with
  | refl => exact .refl w
  | tail hl hs ih => exact ih.trans (Step.retains (hw.leads hl) hs)

/-! ## Reading a registered name -/

/-- **A registered name is read as its category, now and later, if and only if it is not built
in.** A name that is built in is read as what it is built in for. Either way reading it changes
nothing. -/
theorem readSpec_registered (hw : w.Reachable) {name : String}
    (chars : ∀ c ∈ name.toList, SpecText.isRunChar c = true)
    (bang : name.toList.getLast? = some '!') (slash : name.toList.head? ≠ some '/')
    {category : Category} (h : w.register (.ofString name) = (category, w'))
    (later : w'.Leads w'') :
    w''.readSpec name = (.ok [((TypeTerm.builtIn? (.ofString name)).getD
      (.datatype (.category category))).toValue], w'') ∧
    ((w''.readSpec name).1 = .ok [.datatype (.category category)] ↔
      (∀ kind : Kind, name ≠ kind.name) ∧ name ∉ ["any-value!", "any-type!", "any-word!"]) := by
  have hw' : w'.Reachable := by
    have hstep := Relation.ReflTransGen.tail hw (.register w (.ofString name))
    rwa [h] at hstep
  -- The category and its spelling are there when it has been registered, so they are there later.
  obtain ⟨hmem, hspelled⟩ := w.register_spec (.ofString name)
  rw [h] at hmem hspelled
  have hretains := later.retains hw'
  have hknown := (hw'.leads later).catalogued.lookup?_of_mem (hretains.types.subset hmem)
    (hretains.names.resolve? hspelled)
  have hread : w''.readSpec name = (.ok [((TypeTerm.builtIn? (.ofString name)).getD
      (.datatype (.category category))).toValue], w'') := by
    unfold readSpec
    rw [(SpecText.Spells.typeName _ chars slash bang hknown).read]
  have hnames : (∀ kind : Kind, name ≠ kind.name) ∧
      name ∉ ["any-value!", "any-type!", "any-word!"] ↔
        TypeTerm.builtIn? (.ofString name) = none := by
    simp only [Bytes.ofString, TypeTerm.builtIn?_eq_none_iff, ne_eq, List.mem_cons,
      List.not_mem_nil, String.toList_inj]
  refine ⟨hread, ?_⟩
  rw [hread, hnames]
  cases hbuiltIn : TypeTerm.builtIn? (.ofString name) with
  | none => simp [TypeTerm.toValue]
  | some term =>
    -- What is built in is never an open category.
    obtain hkind | ⟨-, htypeset⟩ := Option.or_eq_some_iff.mp hbuiltIn
    · obtain ⟨kind, -, rfl⟩ := Option.map_eq_some_iff.mp hkind
      simp [TypeTerm.toValue]
    · obtain ⟨typeset, -, rfl⟩ := Option.map_eq_some_iff.mp htypeset
      simp [TypeTerm.toValue]

/-- A type is registered, then another one, and a text is refused that names them both. -/
theorem readSpec_registered_point : ∃ (category : Category) (w : Workshop),
    fresh.register (.ofString "point!") = (category, w) ∧
      (((w.register (.ofString "line!")).2.readSpec "[line! point!").2.readSpec "point!").1 =
        .ok [.datatype (.category category)] := by
  obtain ⟨made, hmade, hfresh⟩ := exists_fresh
  rw [← hmade]
  cases hregister : made.register (.ofString "point!") with
  | mk category w =>
    have hline := Relation.ReflTransGen.single (Step.register w (.ofString "line!"))
    exact ⟨category, w, rfl, (readSpec_registered hfresh (List.all_eq_true.mp rfl) (by decide)
      (by decide) hregister (hline.tail (.readSpec _ "[line! point!"))).2.mpr
        ⟨fun kind => by cases kind <;> decide, by decide⟩⟩

/-- Registering `integer!` gives a category that its own name does not stand for. -/
theorem readSpec_registered_integer :
    (∀ c ∈ "integer!".toList, SpecText.isRunChar c = true) ∧
      "integer!".toList.getLast? = some '!' ∧ "integer!".toList.head? ≠ some '/' ∧
      ((fresh.register (.ofString "integer!")).2.readSpec "integer!").1 =
        .ok [.datatype (.builtin .integer)] ∧
      ((fresh.register (.ofString "integer!")).2.readSpec "integer!").1 ≠
        .ok [.datatype (.category (fresh.register (.ofString "integer!")).1)] := by
  have hread : ((fresh.register (.ofString "integer!")).2.readSpec "integer!").1 =
      .ok [.datatype (.builtin .integer)] :=
    congrArg Prod.fst (SpecText.Spells.kind .integer).read
  refine ⟨List.all_eq_true.mp rfl, by decide, by decide, hread, ?_⟩
  rw [hread]
  simp

end Workshop

end ActionKit
