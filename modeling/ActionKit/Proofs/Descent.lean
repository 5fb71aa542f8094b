import ActionKit.Proofs.Reach

/-!
# What derivations pass on

Actions descend from others by any specializations and augmentations, in any order. A parameter
keeps its slot, its name and its notes all the way. It may be fixed once, and is sealed by the
first augmentation after that; nothing of this is ever undone.

* `Entry.Altered`: what one derivation makes of a parameter.
* `Entry.Becomes`: what any number of derivations make of it.
* `Workshop.Derives`, `Workshop.Descends`: one derivation, and any number of them with other
  operations in between.
* `SealedAlong`: an augmentation comes after a parameter has been fixed.
* `Action.Retains`: what an action has of the one that it descends from.

Results:
* `DerivedFrom.altered`: a derivation keeps every slot, and fixes parameters or seals them.
* `Descends.sealed_iff`: a parameter is sealed if it was, or if an augmentation came after it had
  been fixed.
* `descends_retains`: derivations only extend tables and hide parameters.
-/

namespace ActionKit

/-! ## One derivation -/

namespace Entry

@[simp] theorem typeNotes_sealFixed (entry : Entry) :
    entry.sealFixed.typeNotes = entry.typeNotes := by
  unfold sealFixed
  split <;> rfl

@[simp] theorem docNotes_sealFixed (entry : Entry) :
    entry.sealFixed.docNotes = entry.docNotes := by
  unfold sealFixed
  split <;> rfl

@[simp] theorem isSealed_sealFixed (entry : Entry) :
    entry.sealFixed.isSealed = (entry.isSealed || entry.isFixed) := by
  unfold sealFixed
  split
  · next hfixed => simp [hfixed]
  · next hfixed => simp [hfixed]

section FixedBy

variable (bindings : List (Symbol × Value)) (entry : Entry)

@[simp] theorem typeNotes_fixedBy : (entry.fixedBy bindings).typeNotes = entry.typeNotes := by
  unfold fixedBy
  split <;> rfl

@[simp] theorem docNotes_fixedBy : (entry.fixedBy bindings).docNotes = entry.docNotes := by
  unfold fixedBy
  split <;> rfl

@[simp] theorem isSealed_fixedBy : (entry.fixedBy bindings).isSealed = entry.isSealed := by
  unfold fixedBy
  split <;> rfl

end FixedBy

/-- What one derivation makes of a parameter. An augmentation seals what is fixed. -/
structure Altered (derivation : Derivation) (entry later : Entry) : Prop where
  narrows : entry.Narrows later
  typeNotes : later.typeNotes = entry.typeNotes
  docNotes : later.docNotes = entry.docNotes
  isSealed : later.isSealed = true ↔
    entry.isSealed = true ∨ derivation = .augmented ∧ entry.isFixed = true

end Entry

namespace Table

/-- A parameter that is bound is fixed, and any other is left alone. -/
theorem Binds.altered {bindings : List (Symbol × Value)} {source derived : Table}
    (h : Binds bindings source derived) (hs : source.WellFormed) {slot : Nat} {entry : Entry}
    (he : source.entries[slot]? = some entry) :
    ∃ later, derived.entries[slot]? = some later ∧ entry.Altered .specialized later := by
  obtain ⟨later, hlater, hnarrows⟩ := (h.narrows hs).slots slot entry he
  have hkept : later.typeNotes = entry.typeNotes ∧ later.docNotes = entry.docNotes ∧
      later.isSealed = entry.isSealed := by
    cases slot with
    | zero =>
      rw [hs.layout.getElem?_zero] at he
      rw [h.entries, List.getElem?_cons_zero] at hlater
      obtain rfl := Option.some.inj he
      obtain rfl := Option.some.inj hlater
      exact ⟨rfl, rfl, rfl⟩
    | succ slot =>
      rw [h.getElem?_succ, he, Option.map_some] at hlater
      obtain rfl := Option.some.inj hlater
      simp
  obtain ⟨htypes, hdoc, hsealed⟩ := hkept
  exact ⟨later, hlater, hnarrows, htypes, hdoc, by simp [hsealed]⟩

/-- A parameter that is fixed is sealed, and any other is left alone. -/
theorem Extends.altered {added : List (Symbol × Role)} {source derived : Table}
    (h : Extends added source derived) (hs : source.WellFormed) {slot : Nat} {entry : Entry}
    (he : source.entries[slot]? = some entry) :
    ∃ later, derived.entries[slot]? = some later ∧ entry.Altered .augmented later := by
  refine ⟨entry.sealFixed, ?_, entry.narrows_sealFixed, ?_, ?_, ?_⟩
  · rw [h.getElem?_lt hs (List.getElem?_eq_some_iff.mp he).1, he]
    rfl
  · exact entry.typeNotes_sealFixed
  · exact entry.docNotes_sealFixed
  · simp

/-- **A derivation keeps every slot**, and fixes parameters or seals them. -/
theorem DerivedFrom.altered {derivation : Derivation} {source derived : Table}
    (h : source.DerivedFrom derivation derived) (hs : source.WellFormed) {slot : Nat}
    {entry : Entry} (he : source.entries[slot]? = some entry) :
    ∃ later, derived.entries[slot]? = some later ∧ entry.Altered derivation later := by
  cases derivation with
  | specialized =>
    obtain ⟨bindings, hbinds⟩ := h
    exact hbinds.altered hs he
  | augmented =>
    obtain ⟨added, hextends⟩ := h
    exact hextends.altered hs he

end Table

/-! ## Any number of derivations -/

/-- **A parameter and what derivations have made of it.** It keeps its name and notes. What is
fixed stays fixed to the same value, and what is open stays open as it is or is fixed to a value
that its types accept. -/
structure Entry.Becomes (entry later : Entry) : Prop where
  name : later.name = entry.name
  typeNotes : later.typeNotes = entry.typeNotes
  docNotes : later.docNotes = entry.docNotes
  header : entry.content = .header → later.content = .header
  fixed : ∀ value, entry.content = .fixed value → later.content = .fixed value
  unbound : ∀ role types, entry.content = .unbound role types →
    later.content = .unbound role types ∧ later.isSealed = false ∨
      role ≠ .output ∧ ∃ value, types.accepts value = true ∧ later.content = .fixed value
  /-- What callers cannot see, they never see again. -/
  hidden : entry.isExposed = false → later.isExposed = false

theorem Entry.Narrows.isFixed {entry later : Entry} (h : entry.Narrows later)
    (hfixed : entry.isFixed = true) : later.isFixed = true := by
  obtain ⟨value, hvalue⟩ := isFixed_iff.mp hfixed
  rcases h.content with hsame | ⟨_, _, other, _, _, _, hother⟩
  · exact isFixed_iff.mpr ⟨value, hsame.trans hvalue⟩
  · exact isFixed_iff.mpr ⟨other, hother⟩

/-- A parameter that is narrowed, with its notes kept and its seal never broken, becomes what
derivations make of it. -/
theorem Entry.Narrows.becomes {entry later : Entry} (h : entry.Narrows later)
    (htypes : later.typeNotes = entry.typeNotes) (hdoc : later.docNotes = entry.docNotes)
    (hsealed : entry.isSealed = true → later.isSealed = true)
    (hopen : ∀ role types, later.content = .unbound role types → later.isSealed = false) :
    entry.Becomes later where
  name := h.name
  typeNotes := htypes
  docNotes := hdoc
  header hheader := by
    rcases h.content with hsame | ⟨_, _, _, hunbound, _, _, _⟩
    · exact hsame.trans hheader
    · cases hheader.symm.trans hunbound
  fixed value hvalue := by
    rcases h.content with hsame | ⟨_, _, _, hunbound, _, _, _⟩
    · exact hsame.trans hvalue
    · cases hvalue.symm.trans hunbound
  unbound role types hc := by
    rcases h.content with hsame | ⟨role', types', value, hunbound, hrole, haccepts, hfixed⟩
    · have hlater := hsame.trans hc
      exact .inl ⟨hlater, hopen role types hlater⟩
    · obtain ⟨rfl, rfl⟩ := Content.unbound.inj (hc.symm.trans hunbound)
      exact .inr ⟨hrole, value, haccepts, hfixed⟩
  hidden hentry := by
    -- What is exposed now has never been fixed, and so has never been sealed.
    cases hlater : later.isExposed with
    | false => rfl
    | true =>
      obtain ⟨role, types, ho⟩ := isExposed_iff.mp hlater
      have hunsealed : entry.isSealed = false := by
        cases hs : entry.isSealed with
        | false => rfl
        | true => exact absurd (hsealed hs) (by simp [ho.unsealed])
      rcases h.content with hsame | ⟨_, _, _, _, _, _, hfixed⟩
      · have hexposed : entry.Open role types := ⟨hsame.symm.trans ho.content, hunsealed⟩
        exact absurd hexposed.isExposed (by simp [hentry])
      · cases hfixed.symm.trans ho.content

/-- Whether an action has a parameter fixed to a value. -/
def Action.FixesAt (action : Action) (slot : Nat) : Prop :=
  ∃ entry, action.table.entries[slot]? = some entry ∧ entry.isFixed = true

/-- **An augmentation comes after a parameter has been fixed**, in a list of actions each of which
is derived from the one before. -/
def SealedAlong (made : List Action) (slot : Nat) : Prop :=
  ∃ earlier later, [earlier, later].Sublist made ∧ earlier.FixesAt slot ∧
    later.derivation? = some .augmented

/-- One more action seals what is fixed, if it is an augmentation. -/
theorem sealedAlong_concat {made : List Action} {action : Action} {slot : Nat} :
    SealedAlong (made ++ [action]) slot ↔ SealedAlong made slot ∨
      action.derivation? = some .augmented ∧ ∃ earlier ∈ made, earlier.FixesAt slot := by
  constructor
  · rintro ⟨earlier, later, hsub, hfixes, haugmented⟩
    obtain ⟨first, last, hsplit, hfirst, hlast⟩ := List.sublist_append_iff.mp hsub
    rcases List.sublist_singleton.mp hlast with rfl | rfl
    · rw [List.append_nil] at hsplit
      exact .inl ⟨earlier, later, hsplit ▸ hfirst, hfixes, haugmented⟩
    · have hpair : [earlier] ++ [later] = first ++ [action] := hsplit
      obtain ⟨rfl, hends⟩ := List.append_inj' hpair rfl
      obtain rfl := List.singleton_inj.mp hends
      exact .inr ⟨haugmented, earlier, List.singleton_sublist.mp hfirst, hfixes⟩
  · rintro (⟨earlier, later, hsub, hfixes, haugmented⟩ | ⟨haugmented, earlier, hmem, hfixes⟩)
    · exact ⟨earlier, later, hsub.trans (List.sublist_append_left _ _), hfixes, haugmented⟩
    · exact ⟨earlier, action, (List.singleton_sublist.mpr hmem).append (.refl [action]), hfixes,
        haugmented⟩

/-- **What an action has of the one that it descends from**: all slots and the output, and every
parameter, sealed only if it was or if an augmentation came after it had been fixed. -/
structure Action.Retains (source descendant : Action) (made : List Action) : Prop where
  size : source.table.size ≤ descendant.table.size
  output : descendant.table.outputSlot = source.table.outputSlot
  slots : ∀ (slot : Nat) (entry : Entry), source.table.entries[slot]? = some entry →
    ∃ later, descendant.table.entries[slot]? = some later ∧ entry.Becomes later ∧
      (later.isSealed = true ↔ entry.isSealed = true ∨ SealedAlong made slot)

namespace Workshop

variable {w w' w'' : Workshop}

/-- **One derivation**: an action is made from another one. -/
inductive Derives (w : Workshop) (source : Action) :
    Derivation → Action → Workshop → Prop
  | specialize {derived : Action} {w' : Workshop} (bindings : List (Symbol × Value))
      (made : w.specialize source bindings = (.ok derived, w')) :
      Derives w source .specialized derived w'
  | augment {derived : Action} {w' : Workshop} (spec : List Value) (label : Option Symbol)
      (made : w.augment source spec label = (.ok derived, w')) :
      Derives w source .augmented derived w'

/-- **Any number of derivations**, with any other operations before, between and after them. The
actions on the way are listed from the first to the last. -/
inductive Descends (w : Workshop) (source : Action) :
    List Action → Action → Workshop → Prop
  | self {w' : Workshop} (leads : w.Leads w') : Descends w source [source] source w'
  | step {made : List Action} {middle derived : Action} {derivation : Derivation}
      {w₁ w₂ w₃ : Workshop} (descends : Descends w source made middle w₁)
      (derives : w₁.Derives middle derivation derived w₂) (leads : w₂.Leads w₃) :
      Descends w source (made ++ [derived]) derived w₃

theorem Derives.leads {source derived : Action} {derivation : Derivation}
    (h : w.Derives source derivation derived w') (own : source ∈ w.actions) : w.Leads w' := by
  cases h with
  | specialize bindings made => exact .specialize own made
  | augment spec label made => exact .augment own made

/-- The table of a derived action is derived from that of its source. -/
theorem Derives.derivedFrom {source derived : Action} {derivation : Derivation}
    (h : w.Derives source derivation derived w') (hs : source.table.WellFormed) :
    source.table.DerivedFrom derivation derived.table ∧
      derived.derivation? = some derivation ∧ w.Gains w' derived := by
  cases h with
  | specialize bindings made =>
    rcases specialize_cases hs made with ⟨_, herror, -⟩ | ⟨face, hok, hbinds, -, -, -, hadd⟩
    · cases herror
    · obtain rfl := Except.ok.inj hok
      exact ⟨⟨bindings, hbinds⟩, rfl, hadd⟩
  | augment spec label made =>
    rcases augment_cases hs made with ⟨_, herror, -⟩ | ⟨face, hok, hextends, -, -, hadd⟩
    · cases herror
    · obtain rfl := Except.ok.inj hok
      exact ⟨⟨heads spec, hextends⟩, rfl, hadd⟩

/-- Descendants of an action of a workshop are actions of the workshop. -/
theorem Descends.mem (hw : w.Sound) {source descendant : Action} {made : List Action}
    (own : source ∈ w.actions) (h : w.Descends source made descendant w') :
    w'.Sound ∧ descendant ∈ w'.actions ∧ descendant ∈ made := by
  induction h with
  | self leads =>
    obtain ⟨hgrows, hsound⟩ := leads.sound hw
    exact ⟨hsound, hgrows.actions _ own, List.mem_singleton.mpr rfl⟩
  | step descends derives leads ih =>
    obtain ⟨hmiddle, hmem, -⟩ := ih
    obtain ⟨-, -, hgains⟩ := derives.derivedFrom (hmiddle.wellFormed hmem)
    obtain ⟨hsound, hderived, -⟩ := (derives.leads hmem).derived_mem hmiddle leads hmem hgains
    exact ⟨hsound, hderived, List.mem_append_right _ (List.mem_singleton.mpr rfl)⟩

/-- An action has the parameters of all actions on its way at the same slots. -/
theorem Descends.narrows (hw : w.Sound) {source descendant : Action} {made : List Action}
    (own : source ∈ w.actions) (h : w.Descends source made descendant w') :
    source ∈ made ∧ ∀ action ∈ made, action.table.Narrows descendant.table := by
  induction h with
  | self leads =>
    refine ⟨List.mem_singleton.mpr rfl, fun action hmem => ?_⟩
    obtain rfl := List.mem_singleton.mp hmem
    exact .refl _
  | step descends derives leads ih =>
    obtain ⟨hsound, hmem, -⟩ := descends.mem hw own
    have hwf := hsound.wellFormed hmem
    have hstep := (derives.derivedFrom hwf).1.narrows hwf
    refine ⟨List.mem_append_left _ ih.1, fun action haction => ?_⟩
    rcases List.mem_append.mp haction with hold | hnew
    · exact (ih.2 action hold).trans hstep
    · obtain rfl := List.mem_singleton.mp hnew
      exact .refl _

/-- **A parameter is sealed if it was, or if an augmentation came after it had been fixed.** Its
notes stay as they are. -/
theorem Descends.sealed_iff (hw : w.Sound) {source descendant : Action} {made : List Action}
    (own : source ∈ w.actions) (h : w.Descends source made descendant w') {slot : Nat}
    {entry : Entry} (he : source.table.entries[slot]? = some entry) :
    ∃ later, descendant.table.entries[slot]? = some later ∧
      later.typeNotes = entry.typeNotes ∧ later.docNotes = entry.docNotes ∧
      (later.isSealed = true ↔ entry.isSealed = true ∨ SealedAlong made slot) := by
  induction h with
  | self leads =>
    refine ⟨entry, he, rfl, rfl, .inl, ?_⟩
    rintro (hsealed | ⟨earlier, later, hsub, -, -⟩)
    · exact hsealed
    · exact absurd hsub.length_le (by simp)
  | @step made middle derived derivation w₁ w₂ w₃ descends derives leads ih =>
    obtain ⟨mid, hmid, htypes, hdoc, hsealed⟩ := ih
    obtain ⟨hsound, hmem, hlast⟩ := descends.mem hw own
    have hwf := hsound.wellFormed hmem
    obtain ⟨hfrom, hderivation, -⟩ := derives.derivedFrom hwf
    obtain ⟨later, hlater, haltered⟩ := hfrom.altered hwf hmid
    refine ⟨later, hlater, haltered.typeNotes.trans htypes, haltered.docNotes.trans hdoc, ?_⟩
    -- What is fixed on the way is still fixed where the derivation starts.
    have hfixes : (∃ earlier ∈ made, earlier.FixesAt slot) ↔ mid.isFixed = true := by
      constructor
      · rintro ⟨earlier, hearlier, old, hold, hfixed⟩
        obtain ⟨other, hother, hnarrows⟩ :=
          ((descends.narrows hw own).2 earlier hearlier).slots slot old hold
        obtain rfl := Option.some.inj (hmid.symm.trans hother)
        exact hnarrows.isFixed hfixed
      · intro hfixed
        exact ⟨middle, hlast, mid, hmid, hfixed⟩
    rw [haltered.isSealed, hsealed, sealedAlong_concat, hderivation, hfixes, Option.some_inj,
      or_assoc]

/-- **Derivations only extend tables and hide parameters**, in whatever order they are made. -/
theorem descends_retains (hw : w.Reachable) {source descendant : Action} {made : List Action}
    (own : source ∈ w.actions) (h : w.Descends source made descendant w') :
    source.Retains descendant made := by
  obtain ⟨hfirst, hall⟩ := h.narrows hw.sound own
  have hnarrows := hall source hfirst
  obtain ⟨hsound, hmem, -⟩ := h.mem hw.sound own
  refine ⟨hnarrows.size_le, hnarrows.output, fun slot entry he => ?_⟩
  obtain ⟨later, hlater, htypes, hdoc, hsealed⟩ := h.sealed_iff hw.sound own he
  obtain ⟨other, hother, hentry⟩ := hnarrows.slots slot entry he
  obtain rfl := Option.some.inj (hlater.symm.trans hother)
  refine ⟨later, hlater, ?_, hsealed⟩
  exact hentry.becomes htypes hdoc (fun hs => hsealed.mpr (.inl hs)) fun _ _ hc =>
    (hsound.wellFormed hmem).unsealed hlater hc

theorem add_hidden_made : (fresh.trial 0 fun made add =>
    match made.specialize add ((add.table.positional.drop 1).map (·, .integer 2)) with
    | (.ok specialized, w) =>
      match w.augment specialized [.word ⟨99⟩] none with
      | (.ok augmented, w) =>
        match w.specialize augmented [(⟨99⟩, .logic true)] with
        | (.ok action, _) => some (action.table.entries.map (·.isSealed))
        | (.error _, _) => none
      | (.error _, _) => none
    | (.error _, _) => none) = some [true, false, false, true, false] := by
  decide +kernel

/-- Addition with its second number fixed, then with a third parameter, which is fixed in turn:
the augmentation seals the second number, and nothing seals the third parameter. -/
theorem descends_retains_add : ∃ (S P D A : Action) (w : Workshop), S ∈ fresh.actions ∧
    fresh.Descends S [S, P, D, A] A w ∧
      A.table.entries.map (·.isSealed) = [true, false, false, true, false] ∧
      S.Retains A [S, P, D, A] := by
  obtain ⟨made, hmade, hfresh, S, hmem, hmatch⟩ := exists_of_trial add_hidden_made
  rw [← hmade]
  split at hmatch
  · next P w₁ hP =>
    split at hmatch
    · next D w₂ hD =>
      split at hmatch
      · next A w₃ hA =>
        have hself : made.Descends S [S] S made := .self .refl
        have hdescends := ((hself.step (.specialize _ hP) .refl).step
          (.augment _ _ hD) .refl).step (.specialize _ hA) .refl
        exact ⟨S, P, D, A, w₃, hmem, hdescends, Option.some.inj hmatch,
          descends_retains hfresh hmem hdescends⟩
      · cases hmatch
    · cases hmatch
  · cases hmatch

end Workshop

end ActionKit
