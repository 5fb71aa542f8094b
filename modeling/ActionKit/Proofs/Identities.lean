import ActionKit.Proofs.Interning
import ActionKit.Proofs.Registration

/-!
# Identities of categories

Names are registered one after the other, known ones and new ones. A category is known by its number
from then on: by that number it is found among the categories, and by no other name is it ever given
out again.

A registry may as well keep two containers, the categories by number and the numbers by name, and
trust that every number it has on record is that of a category. As long as numbers of 32 bits
suffice, such a registry answers in the same way and never looks in vain.

* `TypeRegistry.registerAll`: some names, registered one after the other.
* `TypeRegistry.numbered`: the registry that names lead to, each at its place.
* `TypeRegistry.Identifies`: what registering names leads to.
* `CategoryStore.InStep`: what the two containers have in common with a registry.

Results:
* `registerAll_numbered`: the answers to registrations, and the registry after them.
* `lookup?_registerAll`: what a type name stands for stays.
* `InStep.registerAll`: the two containers are kept in step.
* `registerAll_identifies`: every name has one category, and keeps it.
-/

namespace ActionKit

namespace TypeRegistry

/-- Register some names, one after the other. -/
def registerAll (types : TypeRegistry) : List Symbol → List Category × TypeRegistry
  | [] => ([], types)
  | name :: rest =>
    let (category, types) := types.register name
    let (categories, types) := types.registerAll rest
    (category :: categories, types)

theorem registerAll_cons (types : TypeRegistry) (name : Symbol) (rest : List Symbol) :
    types.registerAll (name :: rest) =
      ((types.register name).1 :: ((types.register name).2.registerAll rest).1,
        ((types.register name).2.registerAll rest).2) := rfl

/-- The registry that has given every name its place as its number. -/
def numbered (names : List Symbol) : TypeRegistry := ⟨names.mapIdx Category.mk⟩

variable {known : List Symbol} {name : Symbol}

theorem find?_register_of_ne (types : TypeRegistry) {name other : Symbol} (h : other ≠ name) :
    (types.register name).2.find? other = types.find? other := by
  unfold register
  cases types.find? name with
  | some category => rfl
  | none => simp [find?, List.find?_append, h.symm]

/-! ## Numbers in order of first registration -/

theorem length_numbered (known : List Symbol) :
    (numbered known).categories.length = known.length := List.length_mapIdx

theorem getElem?_numbered (known : List Symbol) (number : Nat) :
    (numbered known).categories[number]? = known[number]?.map (⟨number, ·⟩) :=
  List.getElem?_mapIdx

theorem map_name_numbered (known : List Symbol) :
    (numbered known).categories.map (·.name) = known := by
  refine List.ext_getElem? fun number => ?_
  rw [List.getElem?_map, getElem?_numbered, Option.map_map]
  exact Option.map_id'

theorem find?_numbered (known : List Symbol) (name : Symbol) :
    (numbered known).find? name =
      if name ∈ known then some ⟨known.idxOf name, name⟩ else none := by
  -- Further down the list the numbers are those of later places.
  have hplaces : ∀ place : Nat → Nat,
      (known.mapIdx fun i => Category.mk (place i)).find? (·.name = name) =
        if name ∈ known then some ⟨place (known.idxOf name), name⟩ else none := by
    induction known with
    | nil => exact fun _ => rfl
    | cons first rest ih =>
      intro place
      rw [List.mapIdx_cons, List.find?_cons]
      by_cases hfirst : first = name
      · simp [hfirst]
      · have hne : name ≠ first := fun h => hfirst h.symm
        simp [hfirst, hne, ih fun i => place (i + 1)]
  exact hplaces id

theorem register_known (h : name ∈ known) :
    (numbered known).register name = (⟨known.idxOf name, name⟩, numbered known) := by
  refine register_of_find? ?_
  rw [find?_numbered, if_pos h]

theorem register_new (h : name ∉ known) :
    (numbered known).register name = (⟨known.length, name⟩, numbered (known ++ [name])) := by
  have hconcat : numbered (known ++ [name]) =
      ⟨(numbered known).categories ++ [⟨known.length, name⟩]⟩ :=
    congrArg TypeRegistry.mk List.mapIdx_concat
  unfold register
  rw [find?_numbered, if_neg h, length_numbered, hconcat]

/-- In a registry no number is that of two names. -/
theorem getElem?_numbered_eq_some_iff (nodup : known.Nodup) {number : Nat} :
    (numbered known).categories[number]? = some ⟨number, name⟩ ↔
      name ∈ known ∧ number = known.idxOf name := by
  rw [getElem?_numbered, Option.map_eq_some_iff]
  constructor
  · rintro ⟨found, hfound, hname⟩
    obtain rfl : found = name := congrArg Category.name hname
    obtain ⟨hlt, rfl⟩ := List.getElem?_eq_some_iff.mp hfound
    exact ⟨List.getElem_mem hlt, (nodup.idxOf_getElem number hlt).symm⟩
  · rintro ⟨hknown, rfl⟩
    exact ⟨name, List.getElem?_idxOf hknown, rfl⟩

/-- Registering a name adds it behind the others, unless it is there. -/
theorem exists_numbered (known : List Symbol) (name : Symbol) :
    ∃ more, ((numbered known).register name).2 = numbered more := by
  by_cases h : name ∈ known
  · exact ⟨known, congrArg Prod.snd (register_known h)⟩
  · exact ⟨known ++ [name], congrArg Prod.snd (register_new h)⟩

/-- **The answers to registrations, and the registry after them.** Names that are new are added
behind all others, each once, and every answer has the place of its name as its number. -/
theorem registerAll_numbered (known names : List Symbol) :
    (numbered known).registerAll names =
      (names.map fun name =>
        ⟨(known ++ (names.filter (· ∉ known)).eraseDups).idxOf name, name⟩,
        numbered (known ++ (names.filter (· ∉ known)).eraseDups)) := by
  induction names generalizing known with
  | nil => simp [registerAll]
  | cons name rest ih =>
    by_cases hknown : name ∈ known
    · rw [registerAll_cons, register_known hknown, List.filter_cons_of_neg (by simpa using hknown),
        ih, List.map_cons, List.idxOf_append_of_mem hknown]
    · have hall : known ++ [name] ++ (rest.filter (· ∉ known ++ [name])).eraseDups =
          known ++ ((name :: rest).filter (· ∉ known)).eraseDups := by
        rw [filter_notMem_concat, List.filter_cons_of_pos (by simpa using hknown),
          List.eraseDups_cons, List.append_assoc]
        rfl
      rw [registerAll_cons, register_new hknown, ih, hall, List.map_cons,
        List.idxOf_append_of_notMem hknown, List.filter_cons_of_pos (by simpa using hknown),
        List.eraseDups_cons, List.idxOf_cons_self, Nat.add_zero]

theorem registerAll_empty (names : List Symbol) :
    registerAll {} names =
      (names.map fun name => ⟨names.eraseDups.idxOf name, name⟩, numbered names.eraseDups) := by
  have hall : names.filter (· ∉ ([] : List Symbol)) = names := List.filter_eq_self.mpr (by simp)
  have hempty := registerAll_numbered [] names
  rwa [hall] at hempty

theorem nodup_registerAll (types : TypeRegistry) (h : (types.categories.map (·.name)).Nodup)
    (names : List Symbol) : ((types.registerAll names).2.categories.map (·.name)).Nodup := by
  induction names generalizing types with
  | nil => exact h
  | cons name rest ih => exact ih _ (nodup_register h name)

/-! ## Type names keep what they stand for -/

theorem registerAll_grows (types : TypeRegistry) (names : List Symbol) :
    types.categories <+: (types.registerAll names).2.categories := by
  induction names generalizing types with
  | nil => exact List.prefix_rfl
  | cons name rest ih => exact (types.register_grows name).trans (ih (types.register name).2)

/-- **What a type name stands for stays**, whatever is interned or registered later. -/
theorem lookup?_registerAll {types : TypeRegistry} {names more : Names} (hgrows : names.Grows more)
    {name : Bytes} {term : TypeTerm} (h : types.lookup? names name = some term)
    (later : List Symbol) : (types.registerAll later).2.lookup? more name = some term := by
  rw [lookup?_eq] at h ⊢
  obtain hbuiltIn | ⟨hbuiltIn, hopen⟩ := Option.or_eq_some_iff.mp h
  · rw [hbuiltIn, Option.some_or]
  · obtain ⟨symbol, hsymbol, hterm⟩ := Option.bind_eq_some_iff.mp hopen
    obtain ⟨category, hfind, rfl⟩ := Option.map_eq_some_iff.mp hterm
    obtain ⟨added, hadded⟩ := types.registerAll_grows later
    have hfind' : (types.registerAll later).2.find? symbol = some category := by
      unfold find? at hfind ⊢
      rw [← hadded, List.find?_append, hfind, Option.some_or]
    rw [hbuiltIn, Option.none_or, hgrows.find? hsymbol, Option.bind_some, hfind', Option.map_some]

end TypeRegistry

/-! ## Two containers in step -/

namespace CategoryStore

/-- Register some names, one after the other. -/
def registerAll (store : CategoryStore) : List Symbol → Option (List Category × CategoryStore)
  | [] => some ([], store)
  | name :: rest => do
    let (category, store) ← store.register name
    let (categories, store) ← store.registerAll rest
    return (category :: categories, store)

/-- **A store and a registry in step**: they have the same categories, and a name has a number on
record if and only if its category is registered, and then the number of that. -/
structure InStep (store : CategoryStore) (types : TypeRegistry) : Prop where
  categories : store.categories = types.categories
  serials : ∀ name, store.serials.lookup name =
    (types.find? name).map fun category => UInt32.ofNat category.serial

variable {store : CategoryStore} {known : List Symbol} {name : Symbol}

theorem inStep_empty : InStep {} (.numbered []) := ⟨rfl, fun _ => rfl⟩

theorem register_of_find? {category : Category} (h : store.find? name = some category) :
    store.register name = some (category, store) := by
  obtain ⟨serial, hserial, hcategory⟩ := Option.bind_eq_some_iff.mp h
  unfold CategoryStore.register
  rw [hserial]
  simp only
  rw [hcategory, Option.map_some]

/-- The number on record for a name is its place, as long as 32 bits suffice. -/
theorem InStep.lookup_known (h : store.InStep (.numbered known)) (few : known.length ≤ UInt32.size)
    (hknown : name ∈ known) :
    ∃ serial, store.serials.lookup name = some serial ∧ serial.toNat = known.idxOf name := by
  refine ⟨UInt32.ofNat (known.idxOf name), ?_, ?_⟩
  · rw [h.serials, TypeRegistry.find?_numbered, if_pos hknown, Option.map_some]
  · exact UInt32.toNat_ofNat_of_lt'
      (Nat.lt_of_lt_of_le (List.idxOf_lt_length_of_mem hknown) few)

theorem InStep.lookup_new (h : store.InStep (.numbered known)) (hknown : name ∉ known) :
    store.serials.lookup name = none := by
  rw [h.serials, TypeRegistry.find?_numbered, if_neg hknown, Option.map_none]

/-- A store finds what the registry finds. -/
theorem InStep.find? (h : store.InStep (.numbered known)) (few : known.length ≤ UInt32.size)
    (name : Symbol) : store.find? name = (TypeRegistry.numbered known).find? name := by
  rw [TypeRegistry.find?_numbered]
  unfold CategoryStore.find?
  by_cases hknown : name ∈ known
  · obtain ⟨serial, hlookup, hserial⟩ := h.lookup_known few hknown
    rw [hlookup, Option.bind_some, hserial, h.categories, TypeRegistry.getElem?_numbered,
      List.getElem?_idxOf hknown, if_pos hknown, Option.map_some]
  · rw [h.lookup_new hknown, if_neg hknown, Option.bind_none]

/-- A name that is known is answered at once. -/
theorem InStep.register_known (h : store.InStep (.numbered known)) (few : known.length ≤ UInt32.size)
    (hknown : name ∈ known) :
    store.register name = some (⟨known.idxOf name, name⟩, store) := by
  refine register_of_find? ?_
  rw [h.find? few, TypeRegistry.find?_numbered, if_pos hknown]

/-- **One registration keeps both in step**, as long as 32 bits suffice for the numbers. -/
theorem InStep.register (h : store.InStep (.numbered known))
    (few : ((TypeRegistry.numbered known).register name).2.categories.length ≤ UInt32.size) :
    ∃ more, store.register name = some (((TypeRegistry.numbered known).register name).1, more) ∧
      more.InStep ((TypeRegistry.numbered known).register name).2 := by
  by_cases hknown : name ∈ known
  · rw [TypeRegistry.register_known hknown] at few ⊢
    rw [TypeRegistry.length_numbered] at few
    exact ⟨store, h.register_known few hknown, h⟩
  · have hnew := TypeRegistry.register_new hknown
    have hsmall : known.length < UInt32.size := by
      rwa [hnew, TypeRegistry.length_numbered, List.length_append, List.length_singleton] at few
    unfold CategoryStore.register
    rw [h.lookup_new hknown]
    simp only
    rw [h.categories, TypeRegistry.length_numbered, UInt32.toNat_ofNat_of_lt' hsmall]
    refine ⟨_, by rw [hnew], ?_, fun other => ?_⟩
    · rw [hnew]
      exact List.mapIdx_concat.symm
    · by_cases hsame : other = name
      · subst hsame
        rw [List.lookup_cons_self, TypeRegistry.find?_register, hnew]
        rfl
      · rw [List.lookup_cons, beq_eq_false_iff_ne.mpr hsame,
          TypeRegistry.find?_register_of_ne _ hsame]
        exact h.serials other

/-- **Both are kept in step by any registrations.** -/
theorem InStep.registerAll (names : List Symbol) (h : store.InStep (.numbered known))
    (few : ((TypeRegistry.numbered known).registerAll names).2.categories.length ≤ UInt32.size) :
    ∃ more, store.registerAll names =
        some (((TypeRegistry.numbered known).registerAll names).1, more) ∧
      more.InStep ((TypeRegistry.numbered known).registerAll names).2 := by
  induction names generalizing store known with
  | nil => exact ⟨store, rfl, h⟩
  | cons name rest ih =>
    have hgrows := ((TypeRegistry.numbered known).register name).2.registerAll_grows rest
    obtain ⟨next, hregister, hnext⟩ := h.register (Nat.le_trans hgrows.length_le few)
    rw [TypeRegistry.registerAll_cons] at few ⊢
    obtain ⟨more, hmore⟩ := TypeRegistry.exists_numbered known name
    rw [hmore] at few hnext ⊢
    obtain ⟨last, hall, hlast⟩ := ih hnext few
    refine ⟨last, ?_, hlast⟩
    unfold CategoryStore.registerAll
    rw [hregister, Option.bind_eq_bind, Option.bind_some]
    simp only
    rw [hall]
    rfl

/-- **The numbers that a store has on record**, for some names and for nothing else. -/
structure Indexes (store : CategoryStore) (names : List Symbol) : Prop where
  /-- A name has a number exactly if the category of that number has the name. -/
  serials : ∀ name serial, store.serials.lookup name = some serial ↔
    store.categories[serial.toNat]? = some ⟨serial.toNat, name⟩
  named : ∀ name, (store.serials.lookup name).isSome = true ↔ name ∈ names
  /-- Registering one of the names again finds its category and leaves everything as it was. -/
  known : ∀ name ∈ names, ∃ category, store.register name = some (category, store)

theorem InStep.indexes {names : List Symbol} (h : store.InStep (.numbered known))
    (few : known.length ≤ UInt32.size) (nodup : known.Nodup)
    (hnames : ∀ name, name ∈ known ↔ name ∈ names) : store.Indexes names where
  serials name serial := by
    rw [h.categories, TypeRegistry.getElem?_numbered_eq_some_iff nodup]
    by_cases hknown : name ∈ known
    · obtain ⟨stored, hlookup, hstored⟩ := h.lookup_known few hknown
      rw [hlookup, Option.some_inj, ← UInt32.toNat_inj, hstored, eq_comm]
      exact (and_iff_right hknown).symm
    · rw [h.lookup_new hknown]
      exact ⟨fun h => absurd h (by simp), fun h => absurd h.1 hknown⟩
  named name := by
    rw [← hnames]
    by_cases hknown : name ∈ known
    · obtain ⟨serial, hlookup, -⟩ := h.lookup_known few hknown
      simp [hlookup, hknown]
    · simp [h.lookup_new hknown, hknown]
  known name hname := ⟨_, h.register_known few ((hnames name).mpr hname)⟩

end CategoryStore

/-! ## One category for every name -/

namespace TypeRegistry

/-- **What registering some names leads to**, starting without any. -/
structure Identifies (types : TypeRegistry) (names : List Symbol) (answers : List Category) :
    Prop where
  /-- Categories are numbered in order of first registration. -/
  numbered : types.categories = names.eraseDups.mapIdx Category.mk
  /-- The answer to every registration is the category of that name. It is found by its number, and
  registering the name again gives the same answer and changes nothing. -/
  answered : List.Forall₂ (fun name category => category.name = name ∧
    types.categories[category.serial]? = some category ∧
      types.register name = (category, types)) names answers
  /-- Two answers are the same exactly if the names are. -/
  same : ∀ i j : Nat, answers[i]? = answers[j]? ↔ names[i]? = names[j]?
  /-- What a type name stands for stays, whatever is interned or registered later. -/
  lookup : ∀ {known more : Names}, known.Grows more → ∀ name term,
    types.lookup? known name = some term → ∀ later,
      (types.registerAll later).2.lookup? more name = some term

theorem registerAll_empty_identifies (names : List Symbol) :
    (registerAll {} names).2.Identifies names (registerAll {} names).1 := by
  rw [registerAll_empty]
  refine ⟨rfl, ?_, fun i j => ?_, fun hgrows _ _ h later => lookup?_registerAll hgrows h later⟩
  · refine List.forall₂_map_right_iff.mpr (List.forall₂_same.mpr fun name hname => ?_)
    have hmem : name ∈ names.eraseDups := List.mem_eraseDups.mpr hname
    refine ⟨rfl, ?_, register_known hmem⟩
    rw [getElem?_numbered, List.getElem?_idxOf hmem]
    rfl
  · rw [List.getElem?_map, List.getElem?_map]
    exact (Option.map_injective fun _ _ h => congrArg Category.name h).eq_iff

/-- **Every name has one category, and keeps it.** The categories are numbered in order of first
registration, the same name always gets the same one, and no number on record is that of none. -/
theorem registerAll_identifies (names : List Symbol) (few : names.eraseDups.length < UInt32.size) :
    ∃ answers types store, registerAll {} names = (answers, types) ∧
      types.Identifies names answers ∧
      CategoryStore.registerAll {} names = some (answers, store) ∧
      store.categories = types.categories ∧ (∀ name, store.find? name = types.find? name) ∧
      store.Indexes names := by
  have hall : (registerAll {} names).2 = numbered names.eraseDups :=
    congrArg Prod.snd (registerAll_empty names)
  have hfew : (registerAll {} names).2.categories.length ≤ UInt32.size := by
    rw [hall, length_numbered]
    exact Nat.le_of_lt few
  obtain ⟨store, hstore, hstep⟩ := CategoryStore.inStep_empty.registerAll names hfew
  have hnodup := nodup_registerAll {} List.nodup_nil names
  rw [hall, map_name_numbered] at hnodup
  refine ⟨_, _, store, rfl, registerAll_empty_identifies names, hstore, hstep.categories, ?_⟩
  change store.InStep (registerAll {} names).2 at hstep
  rw [hall] at hstep ⊢
  exact ⟨hstep.find? (Nat.le_of_lt few),
    hstep.indexes (Nat.le_of_lt few) hnodup fun _ => List.mem_eraseDups⟩

/-- Three registrations of two names. -/
theorem registerAll_identifies_again : ∃ (types : TypeRegistry) (store : CategoryStore),
    registerAll {} [⟨7⟩, ⟨4⟩, ⟨7⟩] = ([⟨0, ⟨7⟩⟩, ⟨1, ⟨4⟩⟩, ⟨0, ⟨7⟩⟩], types) ∧
      ([⟨7⟩, ⟨4⟩, ⟨7⟩] : List Symbol).eraseDups.length < UInt32.size ∧
      types.Identifies [⟨7⟩, ⟨4⟩, ⟨7⟩] [⟨0, ⟨7⟩⟩, ⟨1, ⟨4⟩⟩, ⟨0, ⟨7⟩⟩] ∧
      store.serials = [(⟨4⟩, 1), (⟨7⟩, 0)] ∧ store.Indexes [⟨7⟩, ⟨4⟩, ⟨7⟩] := by
  have hfew : ([⟨7⟩, ⟨4⟩, ⟨7⟩] : List Symbol).eraseDups.length < UInt32.size := by decide
  obtain ⟨answers, types, store, hall, hidentifies, hstore, -, -, hindexes⟩ :=
    registerAll_identifies [⟨7⟩, ⟨4⟩, ⟨7⟩] hfew
  obtain ⟨rfl, rfl⟩ := Prod.mk.inj hall
  obtain ⟨-, rfl⟩ := Prod.mk.inj (Option.some.inj hstore)
  exact ⟨_, _, rfl, hfew, hidentifies, rfl, hindexes⟩

end TypeRegistry

end ActionKit
