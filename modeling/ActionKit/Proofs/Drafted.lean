import ActionKit.Draft
import ActionKit.Proofs.Derived

/-!
# What drafts come to

A draft holds its entries in a region of the scratch area. Nothing that is done to a draft depends
on what lies below that region, so that a draft is known by the entries it shows.

* `Draft.Shows`: the entries, the output slot and the description of a draft.
* `Sealing.copies`: the entries that copying a table puts into a draft.
* `Draft.fixAllAmong`: parameters fixed one after the other, among the entries of a table.

Results:
* `start_shows`, `Shows.copy`, `Shows.declare`, `Shows.fixAll`, `Shows.inherit`: what each
  operation shows, from what was shown before.
* `copy_shows`: a draft that holds a copy of a table shows its entries.
* `fixAllAmong_eq_ok_iff`, `Shows.fixAll_fst`, `Shows.fixAll_snd`: when parameters can be fixed and
  what is fixed then, and that the same is done to a draft.
* `Shows.finish`: a draft that is finished leaves what it shows, and all its names differ.
-/

namespace ActionKit

/-- The entries that copying a table puts into a draft. -/
def Sealing.copies (sealing : Sealing) (table : Table) : List Entry :=
  match sealing with
  | .preserve => table.body
  | .sealFixed => table.body.map (·.sealFixed)

namespace Draft

/-- What a draft shows, wherever its region lies. -/
structure Shows (draft : Draft) (entries : List Entry) (outputSlot : Option Nat)
    (description : Option Bytes) : Prop where
  holds : draft.scratch.Holds draft.region
  entries : draft.entries = entries
  outputSlot : draft.outputSlot = outputSlot
  description : draft.description = description

theorem start_shows (scratch : Scratch) : (start scratch).Shows [.header] none none where
  holds := by
    show (scratch.enter.2.push .header).Holds scratch.enter.1
    rw [Scratch.push_eq_update scratch.enter.1]
    exact Scratch.holds_update (Scratch.holds_enter scratch) _
  entries := by
    show (scratch.enter.2.push .header).view scratch.enter.1 = _
    rw [Scratch.push_eq_update scratch.enter.1, Scratch.view_update (Scratch.holds_enter scratch),
      Scratch.view_enter]
    rfl
  outputSlot := rfl
  description := rfl

variable {draft : Draft} {entries : List Entry} {outputSlot : Option Nat}
  {description : Option Bytes}

theorem Shows.withEntries (h : draft.Shows entries outputSlot description) (others : List Entry) :
    (draft.withEntries others).Shows others outputSlot description where
  holds := Scratch.holds_update h.holds _
  entries := Scratch.view_update h.holds _
  outputSlot := h.outputSlot
  description := h.description

theorem Shows.copy (h : draft.Shows entries outputSlot description) (table : Table)
    (sealing : Sealing) :
    (draft.copy table sealing).Shows (entries ++ sealing.copies table)
      (table.outputSlot <|> outputSlot) description := by
  have hw := h.withEntries (entries ++ sealing.copies table)
  have hcopy : draft.copy table sealing =
      { draft.withEntries (entries ++ sealing.copies table) with
        outputSlot := table.outputSlot <|> outputSlot } := by
    unfold Draft.copy Sealing.copies
    rw [h.entries, h.outputSlot]
    cases sealing <;> rfl
  rw [hcopy]
  exact ⟨hw.holds, hw.entries, rfl, hw.description⟩

/-- **A draft that holds a copy of a table** shows the entries of the table. -/
theorem copy_shows {table : Table} (hwf : table.WellFormed) (scratch : Scratch) :
    ((start scratch).copy table .preserve).Shows table.entries table.outputSlot none := by
  have hshows := (start_shows scratch).copy table .preserve
  have hslot : (table.outputSlot <|> none) = table.outputSlot := by
    cases table.outputSlot <;> rfl
  rw [hslot] at hshows
  rw [hwf.entries_eq]
  exact hshows

theorem Shows.declare (h : draft.Shows entries outputSlot description) {spec : List Value}
    {withOutput : Bool} {next : Draft} (hd : draft.declare spec withOutput = (.ok (), next)) :
    ∃ state, Declaring.run { entries, outputSlot } spec withOutput = (.ok (), state) ∧
      next.Shows state.entries state.outputSlot (state.description <|> description) := by
  unfold Draft.declare at hd
  simp only [h.entries, h.outputSlot, h.description] at hd
  cases hr : Declaring.run { entries, outputSlot } spec withOutput with
  | mk result state =>
    rw [hr] at hd
    cases result with
    | error error => cases (Prod.mk.inj hd).1
    | ok _ =>
      obtain ⟨-, rfl⟩ := Prod.mk.inj hd
      have hw := h.withEntries state.entries
      exact ⟨state, rfl, hw.holds, hw.entries, rfl, rfl⟩

/-- What a spec is refused for does not depend on where the draft lies. -/
theorem Shows.declare_fst (h : draft.Shows entries outputSlot description) (spec : List Value)
    (withOutput : Bool) : (draft.declare spec withOutput).1 =
      (Declaring.run { entries, outputSlot } spec withOutput).1 := by
  unfold Draft.declare
  simp only [h.entries, h.outputSlot]
  cases Declaring.run { entries, outputSlot } spec withOutput with
  | mk result state => cases result <;> rfl

/-- What a draft shows after a spec, whether it was rejected or not. -/
theorem Shows.declare_snd (h : draft.Shows entries outputSlot description) (spec : List Value)
    (withOutput : Bool) : ∃ described, (draft.declare spec withOutput).2.Shows
      (Declaring.run { entries, outputSlot } spec withOutput).2.entries
      (Declaring.run { entries, outputSlot } spec withOutput).2.outputSlot described := by
  unfold Draft.declare
  simp only [h.entries, h.outputSlot]
  cases Declaring.run { entries, outputSlot } spec withOutput with
  | mk result state =>
    have hw := h.withEntries state.entries
    cases result with
    | error error => exact ⟨_, hw.holds, hw.entries, rfl, rfl⟩
    | ok _ => exact ⟨_, hw.holds, hw.entries, rfl, rfl⟩

theorem Shows.inherit (h : draft.Shows entries outputSlot description) (other : Option Bytes) :
    (draft.inherit other).Shows entries outputSlot (description <|> other) where
  holds := h.holds
  entries := h.entries
  outputSlot := h.outputSlot
  description := by
    unfold Draft.inherit
    rw [h.description]

/-! ## Fixing parameters -/

theorem fixEntry_eq_ok_iff {entry fixed : Entry} {value : Value} :
    fixEntry entry value = .ok fixed ↔
      entry.Admits value ∧ fixed = { entry with content := .fixed value } := by
  constructor
  · intro h
    unfold fixEntry at h
    split at h
    · cases h
    · next hsealed =>
      have hunsealed : entry.isSealed = false := by simpa using hsealed
      split at h
      · cases h
      · next role types hrole hc =>
        split at h
        · next hacc =>
          obtain rfl := Except.ok.inj h
          exact ⟨⟨role, types, ⟨hc, hunsealed⟩, hrole, hacc⟩, rfl⟩
        · cases h
      · cases h
      · cases h
  · rintro ⟨⟨role, types, ho, hrole, hacc⟩, rfl⟩
    unfold fixEntry
    rw [ho.unsealed, ho.content]
    cases role with
    | output => exact absurd rfl hrole
    | normal => exact if_pos hacc
    | refinement => exact if_pos hacc

/-- Fixing the one parameter of a name is fixing by the one binding of that name. -/
theorem set_eq_map_fixedBy {params : List Entry} (hd : (params.map (·.name)).Nodup) {i : Nat}
    {entry : Entry} (he : params[i]? = some entry) (value : Value) :
    params.set i { entry with content := .fixed value } =
      params.map (·.fixedBy [(entry.name, value)]) := by
  apply List.ext_getElem?
  intro j
  rw [List.getElem?_map]
  by_cases hij : i = j
  · subst hij
    have hlt := (List.getElem?_eq_some_iff.mp he).1
    rw [List.getElem?_set_self hlt, he, Option.map_some,
      Entry.fixedBy_some (List.lookup_cons_self)]
  · rw [List.getElem?_set_ne hij]
    cases hj : params[j]? with
    | none => rfl
    | some other =>
      have hne : other.name ≠ entry.name := by
        intro hn
        have hlt : i < (params.map (·.name)).length := by
          rw [List.length_map]
          exact (List.getElem?_eq_some_iff.mp he).1
        refine hij ((List.getElem?_inj hlt hd).mp ?_)
        rw [List.getElem?_map, List.getElem?_map, he, hj, Option.map_some, Option.map_some, hn]
      rw [Option.map_some, Entry.fixedBy_none]
      rw [List.lookup_cons, beq_eq_false_iff_ne.mpr hne]
      rfl

/-- Fix the first parameter of a name among the entries of a table. -/
def fixAmong (entries : List Entry) (name : Symbol) (value : Value) :
    Except BuildError (List Entry) :=
  match (entries.zipIdx.drop 1).find? (·.1.name = name) with
  | none => .error (.unknownParameter name)
  | some (entry, slot) => (fixEntry entry value).map (entries.set slot ·)

/-- Fix parameters among the entries of a table in order, up to the first that may not be. -/
def fixAllAmong (entries : List Entry) (bindings : List (Symbol × Value)) :
    Except BuildError (List Entry) :=
  bindings.foldlM (fun entries pair => fixAmong entries pair.1 pair.2) entries

theorem fixAllAmong_cons (entries : List Entry) (name : Symbol) (value : Value)
    (rest : List (Symbol × Value)) : fixAllAmong entries ((name, value) :: rest) =
      fixAmong entries name value >>= (fixAllAmong · rest) :=
  List.foldlM_cons

/-- **Parameters can be fixed in two steps.** -/
theorem fixAllAmong_append (entries : List Entry) (first second : List (Symbol × Value)) :
    fixAllAmong entries (first ++ second) =
      fixAllAmong entries first >>= (fixAllAmong · second) :=
  List.foldlM_append

/-- Fixing a parameter changes one entry, which takes the value. -/
theorem fixAmong_ok {fixed : List Entry} {name : Symbol} {value : Value}
    (h : fixAmong entries name value = .ok fixed) :
    ∃ slot entry, slot ≠ 0 ∧ entries[slot]? = some entry ∧ entry.name = name ∧
      entry.Admits value ∧ fixed = entries.set slot { entry with content := .fixed value } := by
  unfold fixAmong at h
  split at h
  · cases h
  · next entry slot hfind =>
    -- Entries are searched as the table they would become.
    obtain ⟨h0, hs, hn⟩ := Table.findEntry_some
      (show Table.findEntry? ⟨⟨0⟩, entries, none⟩ name = some (entry, slot) from hfind)
    cases hentry : fixEntry entry value with
    | error error =>
      rw [hentry] at h
      cases h
    | ok other =>
      rw [hentry] at h
      obtain ⟨hadmits, rfl⟩ := fixEntry_eq_ok_iff.mp hentry
      exact ⟨slot, entry, h0, hs, hn, hadmits, (Except.ok.inj h).symm⟩

/-- **A parameter is fixed exactly if it is there and takes the value.** -/
theorem fixAmong_eq_ok_iff {params fixed : List Entry} (hd : (params.map (·.name)).Nodup)
    {name : Symbol} {value : Value} :
    fixAmong (.header :: params) name value = .ok fixed ↔
      (∃ entry ∈ params, entry.name = name ∧ entry.Admits value) ∧
        fixed = .header :: params.map (·.fixedBy [(name, value)]) := by
  constructor
  · intro h
    obtain ⟨slot, entry, h0, hs, rfl, hadmits, rfl⟩ := fixAmong_ok h
    obtain ⟨i, rfl⟩ := Nat.exists_eq_succ_of_ne_zero h0
    rw [List.getElem?_cons_succ] at hs
    exact ⟨⟨entry, List.mem_of_getElem? hs, rfl, hadmits⟩,
      by rw [List.set_cons_succ, set_eq_map_fixedBy hd hs value]⟩
  · rintro ⟨⟨entry, hmem, rfl, hadmits⟩, rfl⟩
    obtain ⟨i, hi⟩ := List.mem_iff_getElem?.mp hmem
    have hfind : ((Entry.header :: params).zipIdx.drop 1).find? (·.1.name = entry.name) =
        some (entry, i + 1) :=
      (Table.findEntry_eq_some_iff
        (show ((Table.body ⟨⟨0⟩, .header :: params, none⟩).map (·.name)).Nodup from hd)).mpr
        ⟨Nat.succ_ne_zero i, hi, rfl⟩
    unfold fixAmong
    rw [hfind]
    simp only [fixEntry_eq_ok_iff.mpr ⟨hadmits, rfl⟩]
    rw [← set_eq_map_fixedBy hd hi value]
    rfl

/-- Fixing by one binding and then by others is fixing by all of them. -/
theorem fixedBy_cons {name : Symbol} {value : Value} {rest : List (Symbol × Value)}
    (hn : name ∉ rest.map (·.1)) (entry : Entry) :
    (entry.fixedBy [(name, value)]).fixedBy rest = entry.fixedBy ((name, value) :: rest) := by
  by_cases he : entry.name = name
  · subst he
    rw [Entry.fixedBy_none, Entry.fixedBy_some List.lookup_cons_self,
      Entry.fixedBy_some List.lookup_cons_self]
    rw [Entry.name_fixedBy]
    exact lookup_eq_none_of_notMem hn
  · have hone : entry.fixedBy [(name, value)] = entry := by
      apply Entry.fixedBy_none
      rw [List.lookup_cons, beq_eq_false_iff_ne.mpr he]
      rfl
    rw [hone]
    unfold Entry.fixedBy
    rw [List.lookup_cons, beq_eq_false_iff_ne.mpr he]

/-- What is fixed already cannot be fixed again, and all else takes what it took before. -/
theorem admits_fixedBy_iff {entry : Entry} {name : Symbol} {value other : Value} :
    (entry.fixedBy [(name, value)]).Admits other ↔ entry.name ≠ name ∧ entry.Admits other := by
  by_cases hname : entry.name = name
  · subst hname
    rw [Entry.fixedBy_some List.lookup_cons_self]
    constructor
    · rintro ⟨role, types, ho, -, -⟩
      cases ho.content
    · rintro ⟨hne, -⟩
      exact absurd rfl hne
  · have hlookup : List.lookup entry.name [(name, value)] = none := by
      rw [List.lookup_cons, beq_eq_false_iff_ne.mpr hname]
      rfl
    rw [Entry.fixedBy_none hlookup]
    simp [hname]

theorem map_fixedBy_cons {params : List Entry} {name : Symbol} {value : Value}
    {rest : List (Symbol × Value)} (hn : name ∉ rest.map (·.1)) :
    (params.map (·.fixedBy [(name, value)])).map (·.fixedBy rest) =
      params.map (·.fixedBy ((name, value) :: rest)) := by
  rw [List.map_map]
  exact List.map_congr_left fun entry _ => fixedBy_cons hn entry

/-- Behind a parameter that was fixed, bindings are taken that are for others. -/
theorem admitted_map_fixedBy_iff (params : List Entry) (rest : List (Symbol × Value))
    (first : Symbol × Value) :
    (∀ pair ∈ rest, ∃ entry ∈ params.map (·.fixedBy [first]),
        entry.name = pair.1 ∧ entry.Admits pair.2) ↔
      first.1 ∉ rest.map (·.1) ∧
        ∀ pair ∈ rest, ∃ entry ∈ params, entry.name = pair.1 ∧ entry.Admits pair.2 := by
  constructor
  · intro h
    have hothers : ∀ pair ∈ rest, pair.1 ≠ first.1 ∧
        ∃ entry ∈ params, entry.name = pair.1 ∧ entry.Admits pair.2 := by
      intro pair hp
      obtain ⟨entry, he, hn, ha⟩ := h pair hp
      obtain ⟨old, hold, rfl⟩ := List.mem_map.mp he
      rw [Entry.name_fixedBy] at hn
      obtain ⟨hne, hadmits⟩ := admits_fixedBy_iff.mp ha
      exact ⟨hn ▸ hne, old, hold, hn, hadmits⟩
    refine ⟨fun hmem => ?_, fun pair hp => (hothers pair hp).2⟩
    obtain ⟨pair, hp, hname⟩ := List.mem_map.mp hmem
    exact (hothers pair hp).1 hname
  · rintro ⟨hnew, h⟩ pair hp
    obtain ⟨entry, he, hn, ha⟩ := h pair hp
    refine ⟨entry.fixedBy [first], List.mem_map_of_mem he, by simpa using hn, ?_⟩
    refine admits_fixedBy_iff.mpr ⟨fun hname => ?_, ha⟩
    exact hnew (hname ▸ hn ▸ List.mem_map_of_mem hp)

/-- **Parameters are fixed one after the other exactly if** each binding is for a parameter of its
own, which takes the value. -/
theorem fixAllAmong_eq_ok_iff {bindings : List (Symbol × Value)} : ∀ {params fixed : List Entry},
    (params.map (·.name)).Nodup →
    (fixAllAmong (.header :: params) bindings = .ok fixed ↔
      (bindings.map (·.1)).Nodup ∧
        (∀ pair ∈ bindings, ∃ entry ∈ params, entry.name = pair.1 ∧ entry.Admits pair.2) ∧
        fixed = .header :: params.map (·.fixedBy bindings)) := by
  induction bindings with
  | nil =>
    intro params fixed hd
    have hmap : params.map (·.fixedBy []) = params :=
      (List.map_congr_left fun entry _ => Entry.fixedBy_none List.lookup_nil).trans
        (List.map_id' params)
    rw [hmap]
    constructor
    · intro h
      exact ⟨List.nodup_nil, by simp, (Except.ok.inj h).symm⟩
    · rintro ⟨-, -, rfl⟩
      rfl
  | cons pair rest ih =>
    intro params fixed hd
    obtain ⟨name, value⟩ := pair
    have hnames := Entry.names_fixedBy [(name, value)] params
    have hrest := admitted_map_fixedBy_iff params rest (name, value)
    rw [fixAllAmong_cons]
    constructor
    · intro h
      cases hfirst : fixAmong (.header :: params) name value with
      | error error =>
        rw [hfirst] at h
        cases h
      | ok mid =>
        rw [hfirst] at h
        obtain ⟨hone, rfl⟩ := (fixAmong_eq_ok_iff hd).mp hfirst
        obtain ⟨hnodup, hadmitted, rfl⟩ := (ih (hnames ▸ hd)).mp h
        obtain ⟨hnew, hall⟩ := hrest.mp hadmitted
        exact ⟨List.nodup_cons.mpr ⟨hnew, hnodup⟩, List.forall_mem_cons.mpr ⟨hone, hall⟩,
          by rw [map_fixedBy_cons hnew]⟩
    · rintro ⟨hnodup, hadmitted, rfl⟩
      obtain ⟨hnew, hnodup⟩ := List.nodup_cons.mp hnodup
      obtain ⟨hone, hall⟩ := List.forall_mem_cons.mp hadmitted
      rw [(fixAmong_eq_ok_iff hd).mpr ⟨hone, rfl⟩, ← map_fixedBy_cons hnew]
      exact (ih (hnames ▸ hd)).mpr ⟨hnodup, hrest.mpr ⟨hnew, hall⟩, rfl⟩

/-! ## Fixing parameters of a draft -/

/-- Fixing a parameter of a draft is fixing it among the entries that the draft shows. -/
theorem Shows.fix_eq (h : draft.Shows entries outputSlot description) (name : Symbol)
    (value : Value) :
    draft.fix name value = (fixAmong entries name value).map draft.withEntries := by
  unfold Draft.fix Draft.find? fixAmong
  rw [h.entries]
  cases (entries.zipIdx.drop 1).find? (·.1.name = name) with
  | none => rfl
  | some found => cases hentry : fixEntry found.1 value <;> simp only [hentry] <;> rfl

/-- What a draft shows after a parameter was fixed. -/
theorem Shows.fix_set (h : draft.Shows entries outputSlot description) {name : Symbol}
    {value : Value} {next : Draft} (hf : draft.fix name value = .ok next) :
    ∃ slot entry, slot ≠ 0 ∧ entries[slot]? = some entry ∧ entry.name = name ∧
      entry.Admits value ∧
      next.Shows (entries.set slot { entry with content := .fixed value }) outputSlot
        description := by
  rw [h.fix_eq] at hf
  cases hfixed : fixAmong entries name value with
  | error error =>
    rw [hfixed] at hf
    cases hf
  | ok fixed =>
    rw [hfixed] at hf
    obtain rfl := Except.ok.inj hf
    obtain ⟨slot, entry, h0, hs, hn, hadmits, rfl⟩ := fixAmong_ok hfixed
    exact ⟨slot, entry, h0, hs, hn, hadmits, h.withEntries _⟩

/-- **Whether the parameters of a draft can be fixed** depends on the entries it shows alone. -/
theorem Shows.fixAll_fst {bindings : List (Symbol × Value)} : ∀ {draft : Draft}
    {entries : List Entry}, draft.Shows entries outputSlot description →
    (draft.fixAll bindings).1 = (fixAllAmong entries bindings).map fun _ => () := by
  induction bindings with
  | nil => exact fun _ => rfl
  | cons pair rest ih =>
    intro draft entries h
    obtain ⟨name, value⟩ := pair
    rw [fixAllAmong_cons, Draft.fixAll, h.fix_eq]
    cases fixAmong entries name value with
    | error error => rfl
    | ok next => exact ih (h.withEntries next)

/-- What a draft shows after parameters were fixed. -/
theorem Shows.fixAll_snd {bindings : List (Symbol × Value)} {fixed : List Entry} :
    ∀ {draft : Draft} {entries : List Entry}, draft.Shows entries outputSlot description →
    fixAllAmong entries bindings = .ok fixed →
    (draft.fixAll bindings).2.Shows fixed outputSlot description := by
  induction bindings with
  | nil =>
    intro draft entries h hfixed
    obtain rfl := Except.ok.inj hfixed
    exact h
  | cons pair rest ih =>
    intro draft entries h hfixed
    obtain ⟨name, value⟩ := pair
    rw [fixAllAmong_cons] at hfixed
    rw [Draft.fixAll, h.fix_eq]
    cases hfirst : fixAmong entries name value with
    | error error =>
      rw [hfirst] at hfixed
      cases hfixed
    | ok next =>
      rw [hfirst] at hfixed
      exact ih (h.withEntries next) hfixed

/-- **Fixing parameters one after the other** fixes each of them once, to a value it takes. -/
theorem Shows.fixAll {bindings : List (Symbol × Value)} {params : List Entry} {next : Draft}
    (h : draft.Shows (.header :: params) outputSlot description)
    (hd : (params.map (·.name)).Nodup) (hf : draft.fixAll bindings = (.ok (), next)) :
    next.Shows (.header :: params.map (·.fixedBy bindings)) outputSlot description ∧
      (bindings.map (·.1)).Nodup ∧
      ∀ pair ∈ bindings, ∃ entry ∈ params, entry.name = pair.1 ∧ entry.Admits pair.2 := by
  have hfst : (draft.fixAll bindings).1 = _ := h.fixAll_fst
  cases hfixed : fixAllAmong (.header :: params) bindings with
  | error error =>
    rw [hfixed, hf] at hfst
    cases hfst
  | ok fixed =>
    have hshows := h.fixAll_snd hfixed
    rw [hf] at hshows
    obtain ⟨hnodup, hadmitted, rfl⟩ := (fixAllAmong_eq_ok_iff hd).mp hfixed
    exact ⟨hshows, hnodup, hadmitted⟩

/-! ## The end of a draft -/

/-- **A draft that is finished leaves what it shows**, and all names differ. -/
theorem Shows.finish (h : draft.Shows entries outputSlot description) {finished : Finished}
    {scratch : Scratch} (hf : draft.finish = (.ok finished, scratch)) :
    finished = ⟨entries, outputSlot, description⟩ ∧ ((entries.drop 1).map (·.name)).Nodup := by
  unfold Draft.finish at hf
  split at hf
  · cases (Prod.mk.inj hf).1
  · next hnone =>
    rw [h.entries, firstRepeated_eq_none_iff] at hnone
    obtain ⟨hok, -⟩ := Prod.mk.inj hf
    have hview : draft.scratch.view draft.region = entries := h.entries
    obtain rfl := Except.ok.inj hok
    refine ⟨?_, hnone⟩
    show Finished.mk (draft.scratch.view draft.region) _ _ = _
    rw [hview, h.outputSlot, h.description]

theorem Shows.exists_finish (h : draft.Shows entries outputSlot description)
    (hd : ((entries.drop 1).map (·.name)).Nodup) : ∃ finished, draft.finish.1 = .ok finished := by
  rw [← h.entries, ← firstRepeated_eq_none_iff] at hd
  unfold Draft.finish
  rw [hd]
  exact ⟨_, rfl⟩

/-- What finishing a draft comes to depends on what it shows alone. -/
theorem Shows.finish_fst (h : draft.Shows entries outputSlot description) :
    draft.finish.1 =
      match firstRepeated ((entries.drop 1).map (·.name)) with
      | some name => .error (.duplicateParameter name)
      | none => .ok ⟨entries, outputSlot, description⟩ := by
  have hview : draft.scratch.view draft.region = entries := h.entries
  unfold Draft.finish
  rw [h.entries]
  cases firstRepeated ((entries.drop 1).map (·.name)) with
  | some name => rfl
  | none =>
    show Except.ok (Finished.mk (draft.scratch.view draft.region) _ _) = _
    rw [hview, h.outputSlot, h.description]

end Draft

end ActionKit
