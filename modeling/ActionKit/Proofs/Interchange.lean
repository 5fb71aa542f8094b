import ActionKit.Proofs.Bindings
import ActionKit.Proofs.Composition

/-!
# Augmenting and specializing in either order

An action can be augmented by a spec and then specialized, or specialized first. As long as the
bindings are for parameters of the action itself, both ways accept the same, and what they make
differs in seals only: what was fixed before the augmentation is sealed by it.

* `Entry.sealedBy`: the entry, sealed if it is bound.
* `Workshop.Commutes`: what the two ways have to do with each other.

Results:
* `bindable_merged_iff`, `takesIn_bound_iff`: an augmentation takes the same bindings, and a
  specialization the same specs.
* `entries_merged_bound`: the parameters that the two ways make, side by side.
* `augment_commutes`: **augmenting and specializing commute**.
-/

namespace ActionKit

namespace Entry

/-- The entry, sealed if some bindings have a value for its name. -/
def sealedBy (bindings : List (Symbol × Value)) (entry : Entry) : Entry :=
  if entry.name ∈ bindings.map (·.1) then { entry with isSealed := true } else entry

/-- Sealing what is fixed leaves an entry as open as it was. -/
theorem admits_sealFixed_iff {entry : Entry} {value : Value} :
    entry.sealFixed.Admits value ↔ entry.Admits value := by
  constructor
  · rintro ⟨role, types, ho, hrole, hacc⟩
    obtain ⟨_, _, hopen⟩ := isExposed_iff.mp (entry.isExposed_sealFixed ▸ ho.isExposed)
    exact ⟨role, types, hopen.sealFixed ▸ ho, hrole, hacc⟩
  · rintro ⟨role, types, ho, hrole, hacc⟩
    exact ⟨role, types, ho.sealFixed.symm ▸ ho, hrole, hacc⟩

end Entry

namespace Table

variable {source : Table} {groups : List Group} {bindings : List (Symbol × Value)}

/-- The name of a parameter that a table takes in is not that of a binding for another one. -/
theorem TakesIn.unbound (hnew : source.TakesIn groups)
    (hnames : ∀ pair ∈ bindings, ∃ entry ∈ source.body, entry.name = pair.1) {group : Group}
    (hgroup : group ∈ groups) : group.entry.name ∉ bindings.map (·.1) := by
  intro hmem
  obtain ⟨pair, hpair, hname⟩ := List.mem_map.mp hmem
  obtain ⟨entry, hentry, hsame⟩ := hnames pair hpair
  exact hnew.new group hgroup entry hentry (hname.symm.trans hsame.symm)

/-- **An augmentation takes the bindings that its source takes.** -/
theorem bindable_merged_iff (hnew : source.TakesIn groups)
    (hnames : ∀ pair ∈ bindings, ∃ entry ∈ source.body, entry.name = pair.1)
    {description : Option Bytes} {id : TableId} :
    ((source.merged groups description).toTable id).Bindable bindings ↔
      source.Bindable bindings := by
  constructor
  · rintro ⟨hdistinct, hadmitted⟩
    refine ⟨hdistinct, fun pair hpair => ?_⟩
    obtain ⟨entry, hentry, hname, hadmits⟩ := hadmitted pair hpair
    rw [body_merged] at hentry
    rcases List.mem_append.mp hentry with hentry | hentry
    · obtain ⟨old, hold, rfl⟩ := List.mem_map.mp hentry
      exact ⟨old, hold, old.name_sealFixed ▸ hname, Entry.admits_sealFixed_iff.mp hadmits⟩
    · obtain ⟨group, hgroup, rfl⟩ := List.mem_map.mp hentry
      exact absurd (hname ▸ List.mem_map_of_mem hpair) (hnew.unbound hnames hgroup)
  · rintro ⟨hdistinct, hadmitted⟩
    refine ⟨hdistinct, fun pair hpair => ?_⟩
    obtain ⟨entry, hentry, hname, hadmits⟩ := hadmitted pair hpair
    refine ⟨entry.sealFixed, ?_, entry.name_sealFixed.trans hname,
      Entry.admits_sealFixed_iff.mpr hadmits⟩
    rw [body_merged]
    exact List.mem_append_left _ (List.mem_map_of_mem hentry)

/-- **A specialization takes the specs that its source takes**: no name changes. -/
theorem takesIn_bound_iff {bound : Table}
    (hbound : bound.body = source.body.map (·.fixedBy bindings)) :
    bound.TakesIn groups ↔ source.TakesIn groups := by
  constructor
  · rintro ⟨hdistinct, hnew⟩
    refine ⟨hdistinct, fun group hgroup entry hentry => ?_⟩
    have hmem : entry.fixedBy bindings ∈ bound.body := hbound ▸ List.mem_map_of_mem hentry
    exact entry.name_fixedBy bindings ▸ hnew group hgroup _ hmem
  · rintro ⟨hdistinct, hnew⟩
    refine ⟨hdistinct, fun group hgroup entry hentry => ?_⟩
    rw [hbound] at hentry
    obtain ⟨old, hold, rfl⟩ := List.mem_map.mp hentry
    rw [Entry.name_fixedBy]
    exact hnew group hgroup old hold

/-- Bindings that fit are for parameters of the table. -/
theorem Bindable.named (hfit : source.Bindable bindings) :
    ∀ pair ∈ bindings, ∃ entry ∈ source.body, entry.name = pair.1 := by
  intro pair hpair
  obtain ⟨entry, hentry, hname, -⟩ := hfit.admitted pair hpair
  exact ⟨entry, hentry, hname⟩

/-- A bound parameter takes the value that it is bound to. -/
theorem Bindable.exists_admits (hfit : source.Bindable bindings) (hs : source.WellFormed)
    {entry : Entry} (hentry : entry ∈ source.body) (hbound : entry.name ∈ bindings.map (·.1)) :
    ∃ value, bindings.lookup entry.name = some value ∧ entry.Admits value := by
  obtain ⟨⟨name, value⟩, hpair, rfl : name = entry.name⟩ := List.mem_map.mp hbound
  obtain ⟨other, hother, hname, hadmits⟩ := hfit.admitted _ hpair
  obtain rfl := hs.entry_unique hother hentry hname
  exact ⟨value, lookup_of_mem hfit.distinct hpair, hadmits⟩

/-- A bound parameter is fixed either way; it is sealed if it was fixed first. -/
theorem Bindable.sealFixed_fixedBy (hfit : source.Bindable bindings) (hs : source.WellFormed)
    {entry : Entry} (hentry : entry ∈ source.body) :
    (entry.fixedBy bindings).sealFixed = (entry.sealFixed.fixedBy bindings).sealedBy bindings ∧
      (entry.fixedBy bindings).sealFixed = (entry.sealFixed.fixedBy bindings).sealFixed := by
  by_cases hbound : entry.name ∈ bindings.map (·.1)
  · obtain ⟨value, hlookup, role, types, ho, -, -⟩ := hfit.exists_admits hs hentry hbound
    rw [ho.sealFixed, Entry.fixedBy_some hlookup]
    refine ⟨?_, rfl⟩
    unfold Entry.sealedBy
    rw [if_pos hbound]
    rfl
  · have hnone := lookup_eq_none_of_notMem hbound
    have hnone' : bindings.lookup entry.sealFixed.name = none := entry.name_sealFixed ▸ hnone
    rw [Entry.fixedBy_none hnone, Entry.fixedBy_none hnone', Entry.sealFixed_sealFixed]
    refine ⟨?_, rfl⟩
    unfold Entry.sealedBy
    rw [if_neg (entry.name_sealFixed.symm ▸ hbound)]

/-- Fixing a parameter does not seal it. -/
theorem Bindable.unsealed (hfit : source.Bindable bindings) (hs : source.WellFormed)
    {entry : Entry} (hentry : entry ∈ source.body.map (·.fixedBy bindings))
    (hbound : entry.name ∈ bindings.map (·.1)) : entry.isSealed = false := by
  obtain ⟨old, hold, rfl⟩ := List.mem_map.mp hentry
  rw [Entry.name_fixedBy] at hbound
  obtain ⟨value, hlookup, role, types, ho, -, -⟩ := hfit.exists_admits hs hold hbound
  rw [Entry.fixedBy_some hlookup]
  exact ho.unsealed

/-- **The parameters that the two ways make**, side by side: those that were bound first are sealed
by the augmentation, and that is what sealing all that is fixed comes to. -/
theorem entries_merged_bound (hs : source.WellFormed) (hnew : source.TakesIn groups)
    (hfit : source.Bindable bindings) {first second : List Entry}
    (hfirst : first = .header ::
      (source.body.map (·.sealFixed) ++ groups.map (·.entry)).map (·.fixedBy bindings))
    (hsecond : second = .header ::
      ((source.body.map (·.fixedBy bindings)).map (·.sealFixed) ++ groups.map (·.entry))) :
    second = first.map (·.sealedBy bindings) ∧ second = first.map (·.sealFixed) := by
  have hdeclared : ∀ group ∈ groups, group.entry.fixedBy bindings = group.entry ∧
      group.entry.sealedBy bindings = group.entry := by
    intro group hgroup
    have hunbound := hnew.unbound hfit.named hgroup
    exact ⟨Entry.fixedBy_none (lookup_eq_none_of_notMem hunbound), if_neg hunbound⟩
  have hheader : Entry.header.sealedBy bindings = .header := by
    unfold Entry.sealedBy
    split <;> rfl
  subst hfirst hsecond
  simp only [List.map_cons, List.map_append, List.map_map, hheader]
  refine ⟨congrArg (Entry.header :: ·) ?_, congrArg (Entry.header :: ·) ?_⟩
  · refine congrArg₂ (· ++ ·) (List.map_congr_left fun entry hentry => ?_)
      (List.map_congr_left fun group hgroup => ?_)
    · exact (hfit.sealFixed_fixedBy hs hentry).1
    · obtain ⟨hfixed, hsealed⟩ := hdeclared group hgroup
      simp only [Function.comp_apply, hfixed, hsealed]
  · refine congrArg₂ (· ++ ·) (List.map_congr_left fun entry hentry => ?_)
      (List.map_congr_left fun group hgroup => ?_)
    · exact (hfit.sealFixed_fixedBy hs hentry).2
    · simp only [Function.comp_apply, (hdeclared group hgroup).1, group.sealFixed_entry]

end Table

namespace Workshop

variable {w v : Workshop} {source wide first narrow second : Action} {spec : List Value}
  {bindings : List (Symbol × Value)}

/-- **What augmenting first has to do with specializing first.** -/
structure Commutes (w : Workshop) (source : Action) (spec : List Value)
    (bindings : List (Symbol × Value)) : Prop where
  /-- The spec and the bindings fit in one order exactly if they fit in the other. -/
  succeeds_iff :
    (∃ wide w₁ first w₂, w.augment source spec none = (.ok wide, w₁) ∧
      w₁.specialize wide bindings = (.ok first, w₂)) ↔
    ∃ narrow w₁ second w₂, w.specialize source bindings = (.ok narrow, w₁) ∧
      w₁.augment narrow spec none = (.ok second, w₂)
  /-- Both actions have the same parameters, but for the seals of those that are bound: only what
  was specialized first has them. Both have the same output, show callers the same parameters, and
  answer every call alike. -/
  agree : ∀ (v : Workshop) (wide first narrow second : Action),
    v.AugmentedTo source spec wide → v.SpecializedTo wide bindings first →
    v.SpecializedTo source bindings narrow → v.AugmentedTo narrow spec second →
    second.table.entries = first.table.entries.map (·.sealedBy bindings) ∧
      (∀ entry ∈ first.table.body, entry.name ∈ bindings.map (·.1) → entry.isSealed = false) ∧
      second.table.outputSlot = first.table.outputSlot ∧
      second.table.exposed = first.table.exposed ∧
      ∀ positional named, v.call second positional named = v.call first positional named

/-- **Either order succeeds where the other does.** -/
theorem augment_specialize_iff (hw : w.Reachable) (own : source ∈ w.actions)
    (hnames : ∀ pair ∈ bindings, ∃ entry ∈ source.table.body, entry.name = pair.1) :
    (∃ wide w₁ first w₂, w.augment source spec none = (.ok wide, w₁) ∧
      w₁.specialize wide bindings = (.ok first, w₂)) ↔
    ∃ narrow w₁ second w₂, w.specialize source bindings = (.ok narrow, w₁) ∧
      w₁.augment narrow spec none = (.ok second, w₂) := by
  have hwf := hw.sound.wellFormed own
  constructor
  · rintro ⟨wide, w₁, first, w₂, hwide, hfirst⟩
    obtain ⟨hw₁, own₁⟩ := hw.augment own hwide
    obtain ⟨text, groups, hspec, hnew, rfl⟩ := exists_of_augment_ok hwf (congrArg Prod.fst hwide)
    obtain ⟨hfit, -⟩ := (specialize_eq_ok_iff (hw₁.sound.wellFormed own₁)).mp
      (congrArg Prod.fst hfirst)
    have hfit' := (Table.bindable_merged_iff hnew hnames).mp hfit
    have hnarrow : w.specialize source bindings = (.ok _, _) :=
      Prod.ext ((specialize_eq_ok_iff hwf).mpr ⟨hfit', rfl⟩) rfl
    obtain ⟨hw₁, own₁⟩ := hw.specialize own hnarrow
    have hsecond := augment_of_takesIn (w := (w.specialize source bindings).2)
      (hw₁.sound.wellFormed own₁) hspec ((Table.takesIn_bound_iff rfl).mpr hnew) none
    exact ⟨_, _, _, _, hnarrow, Prod.ext hsecond rfl⟩
  · rintro ⟨narrow, w₁, second, w₂, hnarrow, hsecond⟩
    obtain ⟨hw₁, own₁⟩ := hw.specialize own hnarrow
    obtain ⟨hfit, rfl⟩ := (specialize_eq_ok_iff hwf).mp (congrArg Prod.fst hnarrow)
    obtain ⟨text, groups, hspec, hnew, -⟩ :=
      exists_of_augment_ok (hw₁.sound.wellFormed own₁) (congrArg Prod.fst hsecond)
    have hnew' := (Table.takesIn_bound_iff rfl).mp hnew
    have hwide : w.augment source spec none = (.ok _, _) :=
      Prod.ext (augment_of_takesIn hwf hspec hnew' none) rfl
    obtain ⟨hw₁, own₁⟩ := hw.augment own hwide
    have hfirst := (specialize_eq_ok_iff (w := (w.augment source spec none).2)
      (hw₁.sound.wellFormed own₁)).mpr ⟨(Table.bindable_merged_iff hnew' hnames).mpr hfit, rfl⟩
    exact ⟨_, _, _, _, hwide, Prod.ext hfirst rfl⟩

namespace AugmentedTo

theorem sound (h : v.AugmentedTo source spec wide) : v.Sound ∧ wide ∈ v.actions := by
  obtain ⟨before, after, hbefore, own, hmade, hrest⟩ := h
  obtain ⟨hafter, hmem⟩ := hbefore.augment own hmade
  obtain ⟨hgrows, hsound⟩ := hrest.sound hafter.sound
  exact ⟨hsound, hgrows.actions wide hmem⟩

/-- An action that was augmented takes in what the spec declares. -/
theorem exists_groups (h : v.AugmentedTo source spec wide) :
    ∃ text groups, DeclaresInputs text groups spec ∧ source.table.TakesIn groups := by
  obtain ⟨before, after, hbefore, own, hmade, -⟩ := h
  obtain ⟨text, groups, hspec, hnew, -⟩ :=
    exists_of_augment_ok (hbefore.sound.wellFormed own) (congrArg Prod.fst hmade)
  exact ⟨text, groups, hspec, hnew⟩

/-- **What an action was augmented to**, the identity of its table apart. -/
theorem shape (h : v.AugmentedTo source spec wide) {text : Option Bytes} {groups : List Group}
    (hspec : DeclaresInputs text groups spec) :
    wide.table.entries =
        .header :: (source.table.body.map (·.sealFixed) ++ groups.map (·.entry)) ∧
      wide.table.outputSlot = source.table.outputSlot ∧ wide.label = source.label ∧
      wide.origin = source.origin := by
  obtain ⟨before, after, hbefore, own, hmade, -⟩ := h
  obtain ⟨-, rfl⟩ := augment_eq_ok (hbefore.sound.wellFormed own) hspec (congrArg Prod.fst hmade)
  exact ⟨rfl, rfl, rfl, rfl⟩

end AugmentedTo

/-- **Augmenting and specializing commute.** -/
theorem augment_commutes (hw : w.Reachable) (own : source ∈ w.actions) (spec : List Value)
    (hnames : ∀ pair ∈ bindings, ∃ entry ∈ source.table.body, entry.name = pair.1) :
    w.Commutes source spec bindings := by
  refine ⟨augment_specialize_iff hw own hnames,
    fun v wide first narrow second hwide hfirst hnarrow hsecond => ?_⟩
  have hwf := hw.sound.wellFormed own
  obtain ⟨hsound, ownWide⟩ := hwide.sound
  obtain ⟨text, groups, hspec, hnew⟩ := hwide.exists_groups
  obtain ⟨hentries₁, hslot₁, hlabel₁, horigin₁⟩ := hwide.shape hspec
  obtain ⟨hfixed₂, hslot₂, hlabel₂, -, horigin₂⟩ := hfirst.shape
  obtain ⟨hfixed₃, hslot₃, hlabel₃, -, horigin₃⟩ := hnarrow.shape
  obtain ⟨hentries₄, hslot₄, hlabel₄, horigin₄⟩ := hsecond.shape hspec
  have hwfWide := hsound.wellFormed ownWide
  obtain ⟨hfitWide, hentries₂⟩ := (Table.fixAllAmong_eq_ok_iff hwfWide).mp hfixed₂
  obtain ⟨hfit, hentries₃⟩ := (Table.fixAllAmong_eq_ok_iff hwf).mp hfixed₃
  have hbodyFirst : first.table.body = wide.table.body.map (·.fixedBy bindings) :=
    congrArg (List.drop 1) hentries₂
  have hbodyWide : wide.table.body =
      source.table.body.map (·.sealFixed) ++ groups.map (·.entry) :=
    congrArg (List.drop 1) hentries₁
  have hbodyNarrow : narrow.table.body = source.table.body.map (·.fixedBy bindings) :=
    congrArg (List.drop 1) hentries₃
  rw [hbodyWide] at hentries₂
  rw [hbodyNarrow] at hentries₄
  obtain ⟨hsealed, hseals⟩ := Table.entries_merged_bound hwf hnew hfit hentries₂ hentries₄
  have htwins : second.Twins first := by
    refine ⟨?_, ?_, ?_⟩
    · rw [hseals, List.map_map]
      exact List.map_congr_left fun entry _ => entry.sealFixed_sealFixed
    · rw [hlabel₄, hlabel₃, hlabel₂, hlabel₁]
    · rw [horigin₄, horigin₃, horigin₂, horigin₁]
  refine ⟨hsealed, fun entry hentry => ?_, ?_, htwins.exposed,
    htwins.call_eq hsound hsecond.sound.2 hfirst.sound.2⟩
  · exact hfitWide.unsealed hwfWide (hbodyFirst ▸ hentry)
  · rw [hslot₄, hslot₃, hslot₂, hslot₁]

theorem add_both_ways : (fresh.trial 0 fun made add =>
    match made.augment add [.word ⟨98⟩] none with
    | (.ok wide, w₁) =>
      match w₁.specialize wide [(⟨3⟩, .integer 1)] with
      | (.ok _, w₂) =>
        match w₂.specialize add [(⟨3⟩, .integer 1)] with
        | (.ok narrow, w₃) =>
          match w₃.augment narrow [.word ⟨98⟩] none with
          | (.ok second, w₄) => (w₄.call second [.integer 2, .logic true] []).toOption.map
              (·, decide (∃ entry ∈ add.table.body, entry.name = ⟨3⟩))
          | (.error _, _) => none
        | (.error _, _) => none
      | (.error _, _) => none
    | (.error _, _) => none) = some (.integer 3, true) := by
  decide +kernel

/-- Addition with a parameter more and its first summand bound. -/
theorem augment_commutes_add : ∃ (w : Workshop) (add first second : Action),
    add ∈ fresh.actions ∧ (∃ entry ∈ add.table.body, entry.name = ⟨3⟩) ∧
    fresh.Commutes add [.word ⟨98⟩] [(⟨3⟩, .integer 1)] ∧
    second.table.entries = first.table.entries.map (·.sealedBy [(⟨3⟩, .integer 1)]) ∧
    (w.call first [.integer 2, .logic true] []).toOption = some (.integer 3) ∧
    (w.call second [.integer 2, .logic true] []).toOption = some (.integer 3) := by
  obtain ⟨made, hmade, hfresh, add, hmem, hmatch⟩ := exists_of_trial add_both_ways
  have hcommutes : (∃ entry ∈ add.table.body, entry.name = ⟨3⟩) →
      made.Commutes add [.word ⟨98⟩] [(⟨3⟩, .integer 1)] := fun hname =>
    augment_commutes hfresh hmem _ (by simpa using hname)
  rw [← hmade]
  split at hmatch
  · next wide w₁ hwide =>
    obtain ⟨hw₁, own₁⟩ := hfresh.augment hmem hwide
    have hlead₁ := Leads.augment hmem hwide
    split at hmatch
    · next first w₂ hfirst =>
      have hlead₂ := Leads.specialize own₁ hfirst
      have hmem₂ := (hlead₂.sound hw₁.sound).1.actions _
        ((hlead₁.sound hfresh.sound).1.actions _ hmem)
      have hw₂ := hw₁.leads hlead₂
      split at hmatch
      · next narrow w₃ hnarrow =>
        obtain ⟨hw₃, own₃⟩ := hw₂.specialize hmem₂ hnarrow
        have hlead₃ := Leads.specialize hmem₂ hnarrow
        split at hmatch
        · next second w₄ hsecond =>
          have hlead₄ := Leads.augment own₃ hsecond
          obtain ⟨result, hresult, hpair⟩ := Option.map_eq_some_iff.mp hmatch
          obtain ⟨rfl, hname⟩ := Prod.mk.inj hpair
          have hname := of_decide_eq_true hname
          obtain ⟨hentries, -, -, -, hcall⟩ := (hcommutes hname).agree w₄ wide first narrow second
            ⟨made, w₁, hfresh, hmem, hwide, (hlead₂.trans hlead₃).trans hlead₄⟩
            ⟨w₁, w₂, hw₁, own₁, hfirst, hlead₃.trans hlead₄⟩
            ⟨w₂, w₃, hw₂, hmem₂, hnarrow, hlead₄⟩ ⟨w₃, w₄, hw₃, own₃, hsecond, .refl⟩
          exact ⟨w₄, add, first, second, hmem, hname, hcommutes hname, hentries,
            hcall _ _ ▸ hresult, hresult⟩
        · cases hmatch
      · cases hmatch
    · cases hmatch
  · cases hmatch

end Workshop

end ActionKit
