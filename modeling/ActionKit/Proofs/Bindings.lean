import ActionKit.Proofs.Twins
import Mathlib.Data.List.Perm.Basic

/-!
# Specializing in steps and in any order

A specialization fixes one parameter after the other, and each binding is checked against what the
ones before it have left. Where the list of bindings is cut makes no difference, neither to what is
made nor to what is refused. Bindings that all fit do so in any order.

* `Table.Bindable`: bindings that fit a table: each is for a parameter of its own, which takes it.
* `Workshop.SpecializedTo`: an action was specialized to another one, at any time.
* `Workshop.specializeTwice`: specializing by some bindings, and what was made by others.
* `Workshop.Accumulates`: what specializing twice has to do with specializing once.
* `Workshop.Reorders`: what specializing by bindings has to do with specializing by the same ones in
  another order.

Results:
* `specialize_fst`: specializing an action is fixing parameters among the entries of its table.
* `specialize_eq_ok_iff`: exactly the bindings that fit can be given.
* `specializeTwice_error_iff`: the two steps are refused for what the one is refused for.
* `specialize_accumulates`: **specializations compose, and their order is irrelevant**.
-/

namespace ActionKit

/-! ## Bindings that fit -/

namespace Table

variable {table : Table} {bindings others : List (Symbol × Value)}

/-- **Bindings that fit a table**: each is for a parameter of its own, which is open to callers, is
not the output and takes the value. -/
structure Bindable (table : Table) (bindings : List (Symbol × Value)) : Prop where
  distinct : (bindings.map (·.1)).Nodup
  admitted : ∀ pair ∈ bindings, ∃ entry ∈ table.body, entry.name = pair.1 ∧ entry.Admits pair.2

theorem Bindable.perm (h : table.Bindable bindings) (hperm : bindings.Perm others) :
    table.Bindable others where
  distinct := (hperm.map _).nodup_iff.mp h.distinct
  admitted pair hpair := h.admitted pair (hperm.mem_iff.mpr hpair)

/-- Bindings that fit fix the same values in any order. -/
theorem Bindable.fixedBy_perm (h : table.Bindable bindings) (hperm : bindings.Perm others)
    (entry : Entry) : entry.fixedBy bindings = entry.fixedBy others := by
  unfold Entry.fixedBy
  rw [lookup_perm h.distinct hperm]

theorem fixAllAmong_eq_ok_iff (hwf : table.WellFormed) {fixed : List Entry} :
    Draft.fixAllAmong table.entries bindings = .ok fixed ↔
      table.Bindable bindings ∧ fixed = .header :: table.body.map (·.fixedBy bindings) := by
  rw [hwf.entries_eq, Draft.fixAllAmong_eq_ok_iff hwf.distinct]
  constructor
  · rintro ⟨hdistinct, hadmitted, hfixed⟩
    exact ⟨⟨hdistinct, hadmitted⟩, hfixed⟩
  · rintro ⟨⟨hdistinct, hadmitted⟩, hfixed⟩
    exact ⟨hdistinct, hadmitted, hfixed⟩

end Table

namespace Workshop

variable {w v : Workshop} {source mid last once made other : Action}
  {bindings others first second : List (Symbol × Value)}

/-! ## Specializing -/

/-- The action with some entries that another one is specialized to. -/
def specialization (w : Workshop) (source : Action) (entries : List Entry) : Action :=
  .derived
    { id := w.nextId, table := ⟨⟨w.lineage.next⟩, entries, source.table.outputSlot⟩,
      label := source.label, description := source.description } .specialized source

/-- **Specializing an action is fixing parameters among the entries of its table.** -/
theorem specialize_fst (hwf : source.table.WellFormed) (bindings : List (Symbol × Value)) :
    (w.specialize source bindings).1 =
      (Draft.fixAllAmong source.table.entries bindings).map (w.specialization source) := by
  have hcopy := Draft.copy_shows hwf w.scratch
  have hfst : (((Draft.start w.scratch).copy source.table .preserve).fixAll bindings).1 = _ :=
    hcopy.fixAll_fst
  unfold specialize Workshop.draft
  obtain ⟨result, draft, hfill⟩ : ∃ result draft,
      ((Draft.start w.scratch).copy source.table .preserve).fixAll bindings = (result, draft) :=
    ⟨_, _, rfl⟩
  rw [hfill] at hfst
  cases hfixed : Draft.fixAllAmong source.table.entries bindings with
  | error error =>
    rw [hfixed] at hfst
    obtain rfl : result = .error error := hfst
    simp only [hfill]
    rfl
  | ok fixed =>
    rw [hfixed] at hfst
    obtain rfl : result = .ok () := hfst
    have hshows := hcopy.fixAll_snd hfixed
    rw [hfill] at hshows
    -- No name changes, so nothing stands in the way of finishing the draft.
    obtain ⟨-, hentries⟩ := (Table.fixAllAmong_eq_ok_iff hwf).mp hfixed
    have hnames : firstRepeated ((fixed.drop 1).map (·.name)) = none := by
      rw [firstRepeated_eq_none_iff, hentries, List.drop_succ_cons, List.drop_zero,
        Entry.names_fixedBy]
      exact hwf.distinct
    have hfinish := (hshows.inherit source.description).finish_fst
    rw [hnames] at hfinish
    simp only [hfill]
    cases hf : (draft.inherit source.description).finish with
    | mk result scratch =>
      rw [hf] at hfinish
      obtain rfl : result = _ := hfinish
      rfl

/-- **Exactly the bindings that fit can be given.** -/
theorem specialize_eq_ok_iff (hwf : source.table.WellFormed) :
    (w.specialize source bindings).1 = .ok made ↔ source.table.Bindable bindings ∧
      made = w.specialization source (.header :: source.table.body.map (·.fixedBy bindings)) := by
  rw [specialize_fst hwf]
  constructor
  · intro h
    cases hfixed : Draft.fixAllAmong source.table.entries bindings with
    | error error =>
      rw [hfixed] at h
      cases h
    | ok fixed =>
      rw [hfixed] at h
      obtain ⟨hfit, rfl⟩ := (Table.fixAllAmong_eq_ok_iff hwf).mp hfixed
      exact ⟨hfit, (Except.ok.inj h).symm⟩
  · rintro ⟨hfit, rfl⟩
    rw [(Table.fixAllAmong_eq_ok_iff hwf).mpr ⟨hfit, rfl⟩]
    rfl

/-- An action was specialized to another one by bindings, in the same workshop and at any time. -/
def SpecializedTo (w : Workshop) (source : Action) (bindings : List (Symbol × Value))
    (made : Action) : Prop :=
  ∃ before after : Workshop, before.Reachable ∧ source ∈ before.actions ∧
    before.specialize source bindings = (.ok made, after) ∧ after.Leads w

namespace SpecializedTo

theorem sound (h : v.SpecializedTo source bindings made) : v.Sound ∧ made ∈ v.actions := by
  obtain ⟨before, after, hbefore, own, hmade, hrest⟩ := h
  obtain ⟨hafter, hmem⟩ := hbefore.specialize own hmade
  obtain ⟨hgrows, hsound⟩ := hrest.sound hafter.sound
  exact ⟨hsound, hgrows.actions made hmem⟩

/-- **What an action was specialized to**, the identity of its table apart. -/
theorem shape (h : v.SpecializedTo source bindings made) :
    Draft.fixAllAmong source.table.entries bindings = .ok made.table.entries ∧
      made.table.outputSlot = source.table.outputSlot ∧ made.label = source.label ∧
      made.description = source.description ∧ made.origin = source.origin := by
  obtain ⟨before, after, hbefore, own, hmade, -⟩ := h
  have hwf := hbefore.sound.wellFormed own
  obtain ⟨hfit, rfl⟩ := (specialize_eq_ok_iff hwf).mp (congrArg Prod.fst hmade)
  exact ⟨(Table.fixAllAmong_eq_ok_iff hwf).mpr ⟨hfit, rfl⟩, rfl, rfl, rfl, rfl⟩

end SpecializedTo

/-! ## Specializing twice -/

/-- Specialize an action by some bindings, and what was made by others. -/
def specializeTwice (w : Workshop) (source : Action) (first second : List (Symbol × Value)) :
    Except BuildError Action × Workshop :=
  match w.specialize source first with
  | (.error error, w) => (.error error, w)
  | (.ok mid, w) => w.specialize mid second

/-- **The two steps are refused for what the one is refused for.** -/
theorem specializeTwice_error_iff (hw : w.Reachable) (own : source ∈ w.actions)
    {error : BuildError} : (w.specializeTwice source first second).1 = .error error ↔
      (w.specialize source (first ++ second)).1 = .error error := by
  have hwf := hw.sound.wellFormed own
  have hfirst := specialize_fst (w := w) hwf first
  unfold specializeTwice
  rw [specialize_fst hwf, Draft.fixAllAmong_append]
  cases hmade : w.specialize source first with
  | mk result w₁ =>
    rw [hmade] at hfirst
    cases hfixed : Draft.fixAllAmong source.table.entries first with
    | error refused =>
      rw [hfixed] at hfirst
      obtain rfl : result = .error refused := hfirst
      exact Iff.rfl
    | ok entries =>
      rw [hfixed] at hfirst
      obtain rfl : result = .ok (w.specialization source entries) := hfirst
      obtain ⟨hw₁, own₁⟩ := hw.specialize own hmade
      have hsecond : (w₁.specialize (w.specialization source entries) second).1 =
          (Draft.fixAllAmong entries second).map (w₁.specialization _) :=
        specialize_fst (hw₁.sound.wellFormed own₁) second
      simp only [hsecond]
      show _ ↔ (Draft.fixAllAmong entries second).map _ = _
      cases Draft.fixAllAmong entries second with
      | error refused => exact Iff.rfl
      | ok fixed => exact ⟨nofun, nofun⟩

/-- **What specializing by two lists of bindings has to do with specializing by both at once.** -/
structure Accumulates (w : Workshop) (source : Action) (first second : List (Symbol × Value)) :
    Prop where
  /-- Both ways are refused for the same, be it a name that is unknown, bound before, sealed or that
  of the output, or a value of a wrong type. -/
  refused_iff : ∀ error, (w.specializeTwice source first second).1 = .error error ↔
    (w.specialize source (first ++ second)).1 = .error error
  succeeds_iff : (∃ last, (w.specializeTwice source first second).1 = .ok last) ↔
    ∃ once, (w.specialize source (first ++ second)).1 = .ok once
  /-- What is made in two steps has the parameters, the output, the label and the description of
  what is made in one, and answers every call alike. -/
  agree : ∀ (v : Workshop) (mid last once : Action), v.SpecializedTo source first mid →
    v.SpecializedTo mid second last → v.SpecializedTo source (first ++ second) once →
    last.table.entries = once.table.entries ∧ last.table.outputSlot = once.table.outputSlot ∧
      last.label = once.label ∧ last.description = once.description ∧
      ∀ positional named, v.call last positional named = v.call once positional named

/-- **What specializing by bindings has to do with specializing by the same in another order.** -/
structure Reorders (w : Workshop) (source : Action) (bindings others : List (Symbol × Value)) :
    Prop where
  succeeds_iff : (∃ made, (w.specialize source bindings).1 = .ok made) ↔
    ∃ made, (w.specialize source others).1 = .ok made
  agree : ∀ (v : Workshop) (made other : Action), v.SpecializedTo source bindings made →
    v.SpecializedTo source others other →
    made.table.entries = other.table.entries ∧
      ∀ positional named, v.call made positional named = v.call other positional named

theorem accumulates_of_reachable (hw : w.Reachable) (own : source ∈ w.actions)
    (first second : List (Symbol × Value)) : w.Accumulates source first second where
  refused_iff _ := specializeTwice_error_iff hw own
  succeeds_iff := by
    have hrefused : ∀ error, (w.specializeTwice source first second).1 = .error error ↔
        (w.specialize source (first ++ second)).1 = .error error :=
      fun _ => specializeTwice_error_iff hw own
    cases hlast : (w.specializeTwice source first second).1 with
    | error error => simp [(hrefused error).mp hlast]
    | ok last =>
      cases honce : (w.specialize source (first ++ second)).1 with
      | error error => cases hlast.symm.trans ((hrefused error).mpr honce)
      | ok once => simp
  agree v mid last once hmid hlast honce := by
    obtain ⟨hsound, ownLast⟩ := hlast.sound
    obtain ⟨-, ownOnce⟩ := honce.sound
    obtain ⟨hfirst, hslot₁, hlabel₁, hdescription₁, horigin₁⟩ := hmid.shape
    obtain ⟨hsecond, hslot₂, hlabel₂, hdescription₂, horigin₂⟩ := hlast.shape
    obtain ⟨hboth, hslot, hlabel, hdescription, horigin⟩ := honce.shape
    have hentries : last.table.entries = once.table.entries := by
      have hsteps : Draft.fixAllAmong source.table.entries (first ++ second) =
          .ok last.table.entries := by
        rw [Draft.fixAllAmong_append, hfirst]
        exact hsecond
      exact Except.ok.inj (hsteps.symm.trans hboth)
    have hlabels : last.label = once.label := (hlabel₂.trans hlabel₁).trans hlabel.symm
    have htwins : last.Twins once :=
      ⟨congrArg _ hentries, hlabels, (horigin₂.trans horigin₁).trans horigin.symm⟩
    exact ⟨hentries, (hslot₂.trans hslot₁).trans hslot.symm, hlabels,
      (hdescription₂.trans hdescription₁).trans hdescription.symm,
      htwins.call_eq hsound ownLast ownOnce⟩

theorem reorders_of_reachable (hw : w.Reachable) (own : source ∈ w.actions)
    (hperm : bindings.Perm others) : w.Reorders source bindings others where
  succeeds_iff := by
    have hwf := hw.sound.wellFormed own
    constructor
    · rintro ⟨made, hmade⟩
      obtain ⟨hfit, -⟩ := (specialize_eq_ok_iff hwf).mp hmade
      exact ⟨_, (specialize_eq_ok_iff hwf).mpr ⟨hfit.perm hperm, rfl⟩⟩
    · rintro ⟨made, hmade⟩
      obtain ⟨hfit, -⟩ := (specialize_eq_ok_iff hwf).mp hmade
      exact ⟨_, (specialize_eq_ok_iff hwf).mpr ⟨hfit.perm hperm.symm, rfl⟩⟩
  agree v made other hmade hother := by
    obtain ⟨hsound, ownMade⟩ := hmade.sound
    obtain ⟨-, ownOther⟩ := hother.sound
    obtain ⟨hfixed, -, hlabel, -, horigin⟩ := hmade.shape
    obtain ⟨hfixed', -, hlabel', -, horigin'⟩ := hother.shape
    have hwf := hw.sound.wellFormed own
    obtain ⟨hfit, hentries⟩ := (Table.fixAllAmong_eq_ok_iff hwf).mp hfixed
    obtain ⟨-, hentries'⟩ := (Table.fixAllAmong_eq_ok_iff hwf).mp hfixed'
    have hsame : made.table.entries = other.table.entries := by
      rw [hentries, hentries']
      exact congrArg _ (List.map_congr_left fun entry _ => hfit.fixedBy_perm hperm entry)
    have htwins : made.Twins other :=
      ⟨congrArg _ hsame, hlabel.trans hlabel'.symm, horigin.trans horigin'.symm⟩
    exact ⟨hsame, htwins.call_eq hsound ownMade ownOther⟩

/-- **Specializations compose, and their order is irrelevant.** -/
theorem specialize_accumulates (hw : w.Reachable) (own : source ∈ w.actions) :
    (∀ first second, w.Accumulates source first second) ∧
      ∀ bindings others, bindings.Perm others → w.Reorders source bindings others :=
  ⟨accumulates_of_reachable hw own, fun _ _ => reorders_of_reachable hw own⟩

theorem add_bound_twice : (fresh.trial 0 fun made add =>
    match made.specialize add [(⟨4⟩, .integer 2)] with
    | (.ok mid, w₁) =>
      match w₁.specialize mid [(⟨3⟩, .integer 1)] with
      | (.ok last, w₂) =>
        match w₂.specialize add [(⟨4⟩, .integer 2), (⟨3⟩, .integer 1)] with
        | (.ok _, w₃) =>
          match w₃.specialize add [(⟨3⟩, .integer 1), (⟨4⟩, .integer 2)] with
          | (.ok _, w₄) => (w₄.call last [] []).toOption
          | (.error _, _) => none
        | (.error _, _) => none
      | (.error _, _) => none
    | (.error _, _) => none) = some (.integer 3) := by
  decide +kernel

/-- Addition with its second summand bound, then its first, then both at once in either order. -/
theorem specialize_accumulates_add : ∃ (w : Workshop) (add last once other : Action),
    add ∈ fresh.actions ∧
    fresh.Accumulates add [(⟨4⟩, .integer 2)] [(⟨3⟩, .integer 1)] ∧
    fresh.Reorders add [(⟨4⟩, .integer 2), (⟨3⟩, .integer 1)]
      [(⟨3⟩, .integer 1), (⟨4⟩, .integer 2)] ∧
    last.table.entries = once.table.entries ∧ once.table.entries = other.table.entries ∧
    (w.call last [] []).toOption = some (.integer 3) ∧
    (w.call once [] []).toOption = some (.integer 3) ∧
    (w.call other [] []).toOption = some (.integer 3) := by
  obtain ⟨made, hmade, hfresh, add, hmem, hmatch⟩ := exists_of_trial add_bound_twice
  obtain ⟨haccumulates, hreorders⟩ := specialize_accumulates hfresh hmem
  have hsteps := haccumulates [(⟨4⟩, .integer 2)] [(⟨3⟩, .integer 1)]
  have horders := hreorders [(⟨4⟩, .integer 2), (⟨3⟩, .integer 1)] _ (.swap _ _ _)
  rw [← hmade]
  split at hmatch
  · next mid w₁ hmid =>
    obtain ⟨hw₁, own₁⟩ := hfresh.specialize hmem hmid
    have hlead₁ := Leads.specialize hmem hmid
    split at hmatch
    · next last w₂ hlast =>
      have hlead₂ := Leads.specialize own₁ hlast
      have hmem₂ := (hlead₂.sound hw₁.sound).1.actions _
        ((hlead₁.sound hfresh.sound).1.actions _ hmem)
      have hw₂ := hw₁.leads hlead₂
      split at hmatch
      · next once w₃ honce =>
        have hlead₃ := Leads.specialize hmem₂ honce
        have hmem₃ := (hlead₃.sound hw₂.sound).1.actions _ hmem₂
        have hw₃ := hw₂.leads hlead₃
        split at hmatch
        · next other w₄ hother =>
          have hlead₄ := Leads.specialize hmem₃ hother
          have hmadeOnce : w₄.SpecializedTo add [(⟨4⟩, .integer 2), (⟨3⟩, .integer 1)] once :=
            ⟨w₂, w₃, hw₂, hmem₂, honce, hlead₄⟩
          obtain ⟨hentries, -, -, -, hcall⟩ := hsteps.agree w₄ mid last once
            ⟨made, w₁, hfresh, hmem, hmid, (hlead₂.trans hlead₃).trans hlead₄⟩
            ⟨w₁, w₂, hw₁, own₁, hlast, hlead₃.trans hlead₄⟩ hmadeOnce
          obtain ⟨hentries', hcall'⟩ := horders.agree w₄ once other hmadeOnce
            ⟨w₃, w₄, hw₃, hmem₃, hother, .refl⟩
          exact ⟨w₄, add, last, once, other, hmem, hsteps, horders, hentries, hentries', hmatch,
            hcall [] [] ▸ hmatch, hcall' [] [] ▸ hcall [] [] ▸ hmatch⟩
        · cases hmatch
      · cases hmatch
    · cases hmatch
  · cases hmatch

end Workshop

end ActionKit
