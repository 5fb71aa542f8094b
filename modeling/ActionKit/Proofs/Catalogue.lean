import ActionKit.Proofs.Reading
import Mathlib.Data.List.Nodup

/-!
# Names and types of a workshop

Whatever is done in a workshop, names are only ever interned, and types only ever registered. So no
name has two symbols, the placeholder keeps its spelling, and no name is registered twice.

* `TypeTerm.builtIn?`: what a built-in type name stands for.
* `Workshop.Catalogued`: this, as an invariant.

Results:
* `lookup?_eq`: a type name is looked up among the built-in ones, then among the registered ones.
* `Catalogued.find?_of_resolve?`: a name is found by the symbol that it is the spelling of.
* `Catalogued.find?_of_mem`: a registered category is found by its name.
* `Catalogued.lookup?_of_mem`: what the name of a registered category stands for.
* `read_preserves`: what interning keeps is kept by reading.
* `Reachable.catalogued`: every workshop that is reached is catalogued.
-/

namespace ActionKit

namespace Names

theorem nodup_intern {names : Names} (h : names.spellings.Nodup) (name : Bytes) :
    (names.intern name).2.spellings.Nodup := by
  unfold intern
  cases hfind : names.find? name with
  | some symbol => exact h
  | none =>
    have hnew : name ∉ names.spellings :=
      List.idxOf?_eq_none_iff.mp (Option.map_eq_none_iff.mp hfind)
    have hconcat := h.concat hnew
    rwa [List.concat_eq_append] at hconcat

end Names

theorem TypeRegistry.nodup_register {types : TypeRegistry}
    (h : (types.categories.map (·.name)).Nodup) (name : Symbol) :
    ((types.register name).2.categories.map (·.name)).Nodup := by
  unfold register
  cases hfind : types.find? name with
  | some category => exact h
  | none =>
    have hnew : name ∉ types.categories.map (·.name) := by
      simpa [find?] using hfind
    have hconcat := h.concat hnew
    rw [List.concat_eq_append] at hconcat
    simpa using hconcat

/-- What a built-in type name stands for. -/
def TypeTerm.builtIn? (name : Bytes) : Option TypeTerm :=
  ((Kind.ofName? name).map fun kind => .datatype (.builtin kind)).or
    ((Typeset.ofName? name).map .typeset)

theorem TypeTerm.builtIn?_eq_none_iff {name : List Char} : builtIn? (.ofChars name) = none ↔
    (∀ kind : Kind, name ≠ kind.name.toList) ∧
      name ∉ ["any-value!".toList, "any-type!".toList, "any-word!".toList] := by
  have hsame : ∀ s : String, Bytes.ofString s = .ofChars name ↔ name = s.toList :=
    fun s => ⟨fun h => (Bytes.ofChars_injective h).symm, fun h => congrArg Bytes.ofChars h.symm⟩
  have hkind : Kind.ofName? (.ofChars name) = none ↔ ∀ kind : Kind, name ≠ kind.name.toList := by
    simp only [Kind.ofName?, List.find?_eq_none, beq_iff_eq, hsame]
    exact ⟨fun h kind => h kind kind.mem_all, fun h kind _ => h kind⟩
  have htypeset : Typeset.ofName? (.ofChars name) = none ↔
      name ∉ ["any-value!".toList, "any-type!".toList, "any-word!".toList] := by
    simp only [Typeset.ofName?, List.findSome?_eq_none_iff, beq_iff_eq, hsame, ite_eq_right_iff,
      reduceCtorEq, imp_false, List.mem_cons, List.not_mem_nil, or_false, forall_eq_or_imp,
      forall_eq, not_or]
  simp only [builtIn?, Option.or_eq_none_iff, Option.map_eq_none_iff, hkind, htypeset]

/-- A type name is looked up among the built-in names first. -/
theorem TypeRegistry.lookup?_eq (types : TypeRegistry) (names : Names) (name : Bytes) :
    types.lookup? names name = (TypeTerm.builtIn? name).or
      ((names.find? name).bind fun symbol =>
        (types.find? symbol).map fun category => .datatype (.category category)) := by
  unfold lookup? TypeTerm.builtIn?
  cases Kind.ofName? name with
  | some kind => rfl
  | none =>
    cases Typeset.ofName? name with
    | some typeset => rfl
    | none =>
      cases names.find? name with
      | none => rfl
      | some symbol => cases hfind : types.find? symbol <;> simp [hfind]

/-- A category has the name that it is registered under. -/
theorem TypeRegistry.name_register (types : TypeRegistry) (name : Symbol) :
    (types.register name).1.name = name := by
  simpa using List.find?_some (types.find?_register name)

/-- What is registered is there from then on, and spelled as it was registered. -/
theorem Workshop.register_spec (w : Workshop) (name : Bytes) :
    (w.register name).1 ∈ (w.register name).2.types.categories ∧
      (w.register name).2.names.resolve? (w.register name).1.name = some name := by
  refine ⟨List.mem_of_find?_eq_some (TypeRegistry.find?_register _ _), ?_⟩
  show (w.names.intern name).2.resolve? (TypeRegistry.register _ _).1.name = some name
  rw [TypeRegistry.name_register]
  exact w.names.resolve?_intern name

/-! ## Reading interns names -/

namespace SpecText

variable {types : TypeRegistry} {names more : Names} (kept : Names → Prop)

/-- A token interns one name at most. -/
theorem Token.value_names {token : Token} {value : Value}
    (h : token.value types names = .ok (value, more)) :
    more = names ∨ ∃ name, more = (names.intern name).2 := by
  cases token with
  | refinement name => exact .inr ⟨_, (Prod.mk.inj (Except.ok.inj h)).2.symm⟩
  | setWord name => exact .inr ⟨_, (Prod.mk.inj (Except.ok.inj h)).2.symm⟩
  | word name => exact .inr ⟨_, (Prod.mk.inj (Except.ok.inj h)).2.symm⟩
  | literal literal => exact .inl (Prod.mk.inj (Except.ok.inj h)).2.symm
  | typeName name =>
    cases hlookup : types.lookup? names (.ofChars name) <;> simp only [Token.value, hlookup] at h
    · cases h
    · exact .inl (Prod.mk.inj (Except.ok.inj h)).2.symm

theorem runValue_preserves (intern : ∀ {names : Names} (name : Bytes), kept names →
    kept (names.intern name).2) {run : List Char} {value : Value}
    (h : runValue types names run = .ok (value, more)) (hkept : kept names) : kept more := by
  unfold runValue at h
  split at h
  · obtain rfl | ⟨name, rfl⟩ := Token.value_names h
    · exact hkept
    · exact intern name hkept
  · cases h

theorem readLexemes_preserves (intern : ∀ {names : Names} (name : Bytes), kept names →
    kept (names.intern name).2) (types : TypeRegistry) (stopped : Option Complaint)
    (lexemes : List Lexeme) (nest : Nest) (hkept : kept names) :
    kept (readLexemes types stopped nest names lexemes).2 := by
  induction lexemes generalizing nest names with
  | nil =>
    unfold readLexemes
    cases stopped <;> exact hkept
  | cons lexeme rest ih =>
    unfold readLexemes
    cases htake : nest.take types names lexeme with
    | error complaint => exact hkept
    | ok taken =>
      refine ih taken.1 ?_
      obtain ⟨-, -, hmore⟩ | ⟨-, -, hmore⟩ | ⟨-, -, -, hmore⟩ | ⟨_, _, -, hrun, -⟩ :=
        Nest.take_cases htake
      · exact hmore ▸ hkept
      · exact hmore ▸ hkept
      · exact hmore ▸ hkept
      · exact runValue_preserves kept intern hrun hkept

/-- **What interning keeps is kept by reading**, also where it fails. -/
theorem read_preserves (intern : ∀ {names : Names} (name : Bytes), kept names →
    kept (names.intern name).2) (types : TypeRegistry) (text : List Char) (hkept : kept names) :
    kept (read types names text).2 := by
  have hlexemes := readLexemes_preserves kept intern types (Lexeme.scan 0 text).2
    (Lexeme.scan 0 text).1 {} hkept
  unfold read
  simp only
  split <;> next hread => rwa [hread] at hlexemes

end SpecText

/-! ## The invariant -/

namespace Workshop

variable {w w' : Workshop}

/-- **What a workshop knows of names and types.** -/
structure Catalogued (w : Workshop) : Prop where
  /-- No name has two symbols. -/
  names : w.names.spellings.Nodup
  /-- The placeholder and the two well-known names come first. -/
  initial : Names.initial.Grows w.names
  /-- No name is registered twice. -/
  types : (w.types.categories.map (·.name)).Nodup

/-- A name is found by the symbol that it is the spelling of. -/
theorem Catalogued.find?_of_resolve? (hw : w.Catalogued) {symbol : Symbol} {name : Bytes}
    (h : w.names.resolve? symbol = some name) : w.names.find? name = some symbol := by
  obtain ⟨hlt, heq⟩ := List.getElem?_eq_some_iff.mp h
  refine Option.map_eq_some_iff.mpr ⟨symbol.id, ?_, rfl⟩
  refine List.idxOf?_eq_some_iff.mpr ⟨hlt, heq, fun j hj hsame => ?_⟩
  exact absurd (hw.names.getElem_inj_iff.mp (hsame.trans heq.symm)) (Nat.ne_of_lt hj)

/-- A registered category is found by its name. -/
theorem Catalogued.find?_of_mem (hw : w.Catalogued) {category : Category}
    (h : category ∈ w.types.categories) : w.types.find? category.name = some category := by
  unfold TypeRegistry.find?
  cases hfind : w.types.categories.find? (·.name = category.name) with
  | none => simpa using List.find?_eq_none.mp hfind category h
  | some found =>
    have hname : found.name = category.name := by simpa using List.find?_some hfind
    rw [List.inj_on_of_nodup_map hw.types (List.mem_of_find?_eq_some hfind) h hname]

/-- What the name of a registered category stands for, built-in or not. -/
theorem Catalogued.lookup?_of_mem (hw : w.Catalogued) {category : Category} {name : Bytes}
    (registered : category ∈ w.types.categories)
    (spelled : w.names.resolve? category.name = some name) :
    w.types.lookup? w.names name =
      some ((TypeTerm.builtIn? name).getD (.datatype (.category category))) := by
  rw [w.types.lookup?_eq, hw.find?_of_resolve? spelled, Option.bind_some,
    hw.find?_of_mem registered, Option.map_some]
  cases TypeTerm.builtIn? name <;> rfl

theorem Catalogued.intern (hw : w.Catalogued) (name : Bytes) : (w.intern name).2.Catalogued where
  names := Names.nodup_intern hw.names name
  initial := hw.initial.trans (w.names.intern_grows name)
  types := hw.types

theorem Catalogued.register (hw : w.Catalogued) (name : Bytes) :
    (w.register name).2.Catalogued where
  names := (hw.intern name).names
  initial := (hw.intern name).initial
  types := TypeRegistry.nodup_register hw.types _

theorem Catalogued.readSpec (hw : w.Catalogued) (text : String) :
    (w.readSpec text).2.Catalogued where
  names := SpecText.read_preserves (fun names => names.spellings.Nodup)
    (fun name h => Names.nodup_intern h name) w.types text.toList hw.names
  initial := hw.initial.trans (SpecText.read_grows w.types w.names text.toList)
  types := hw.types

/-- Names and types alone matter. -/
theorem Catalogued.congr (hw : w.Catalogued) (hnames : w'.names = w.names)
    (htypes : w'.types = w.types) : w'.Catalogued where
  names := hnames ▸ hw.names
  initial := hnames ▸ hw.initial
  types := htypes ▸ hw.types

theorem Catalogued.draft (hw : w.Catalogued) {fill : Draft → Except BuildError Unit × Draft}
    {result : Except BuildError Finished} (h : w.draft fill = (result, w')) : w'.Catalogued := by
  unfold Workshop.draft at h
  split at h <;>
  · obtain ⟨-, rfl⟩ := Prod.mk.inj h
    exact hw.congr rfl rfl

theorem Catalogued.draftSpec (hw : w.Catalogued) (text : String) (withOutput : Bool) :
    (w.draftSpec text withOutput).2.Catalogued := by
  have hread := hw.readSpec text
  unfold Workshop.draftSpec
  split
  · next h => rwa [h] at hread
  · next h =>
    rw [h] at hread
    exact hread.draft (Prod.eta _).symm

theorem Catalogued.makeNative (hw : w.Catalogued) (function : Native)
    (words : Option (List (Symbol × Value))) : (w.makeNative function words).2.Catalogued := by
  have hdraft := hw.draftSpec function.spec true
  unfold Workshop.makeNative
  split
  · next h => rwa [h] at hdraft
  · next finished drafted h =>
    rw [h] at hdraft
    exact (hdraft.intern (.ofString function.name)).congr rfl rfl

/-- **One step** keeps the invariant. -/
theorem Catalogued.step (hw : w.Catalogued) (hs : Step w w') : w'.Catalogued := by
  cases hs with
  | intern name => exact hw.intern name
  | register name => exact hw.register name
  | readSpec text => exact hw.readSpec text
  | makeNative function words => exact hw.makeNative function words
  | specialize source _ bindings =>
    unfold Workshop.specialize
    simp only
    split
    · next hdraft => exact hw.draft hdraft
    · next hdraft => exact (hw.draft hdraft).congr rfl rfl
  | augment source _ spec label =>
    unfold Workshop.augment
    simp only
    split
    · next hdraft => exact hw.draft hdraft
    · next hdraft => exact (hw.draft hdraft).congr rfl rfl
  | makeChecker descriptor =>
    unfold Workshop.makeChecker
    split <;> exact hw.congr rfl rfl

theorem bare_catalogued : bare.Catalogued := by
  have hempty : Catalogued {} := ⟨by decide, .refl _, List.nodup_nil⟩
  have hdraft := hempty.draftSpec checkerSpec false
  unfold bare
  simp only
  split
  · next h => rwa [h] at hdraft
  · next h =>
    rw [h] at hdraft
    exact hdraft.congr rfl rfl

theorem Catalogued.install (hw : w.Catalogued) (function : Native) :
    (w.install function).Catalogued := by
  have hmake := hw.makeNative function none
  unfold Workshop.install
  split
  · next h => rwa [h] at hmake
  · next h =>
    rw [h] at hmake
    exact hmake.congr rfl rfl

theorem Catalogued.note (hw : w.Catalogued) (event : Event) : (w.note event).Catalogued :=
  hw.congr rfl rfl

theorem fresh_catalogued : fresh.Catalogued := by
  have library : ∀ (functions : List Native) {w : Workshop}, w.Catalogued →
      (functions.foldl Workshop.install w).Catalogued := by
    intro functions
    induction functions with
    | nil => exact fun hw => hw
    | cons function rest ih => exact fun hw => ih (hw.install function)
  exact (library Library.all bare_catalogued).note _

/-- **Every workshop that is reached is catalogued.** -/
theorem Reachable.catalogued (hw : w.Reachable) : w.Catalogued := by
  induction hw with
  | refl => exact fresh_catalogued
  | tail _ hstep ih => exact ih.step hstep

end Workshop

end ActionKit
