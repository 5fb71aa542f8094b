import ActionKit.Proofs.Paired

/-!
# Specialization is partial application

Calling a specialization is calling its source with the bindings given by name, after all other
arguments.

* `Overlays`: a frame of a specialization beside one of its source, which has still to be given
  some of the bindings.

Results:
* `Overlays.set`: an argument that is not bound does the same to both frames.
* `Overlays.bind`, `Overlays.bindAll`: the source takes the bindings.
* `call_specialized`: both calls give the same value or the same error.
-/

namespace ActionKit

namespace Table

namespace Binds

variable {bindings : List (Symbol × Value)} {source derived : Table}

theorem find_none (h : Binds bindings source derived) {name : Symbol}
    (hf : source.findEntry? name = none) : derived.findEntry? name = none := by
  rw [findEntry_eq_none_iff] at hf ⊢
  intro entry he
  rw [h.body_eq] at he
  obtain ⟨old, hold, rfl⟩ := List.mem_map.mp he
  rw [Entry.name_fixedBy]
  exact hf old hold

/-- A parameter keeps its slot. -/
theorem find_some (h : Binds bindings source derived) (hs : source.WellFormed)
    {name : Symbol} {entry : Entry} {slot : Nat}
    (hf : source.findEntry? name = some (entry, slot)) :
    derived.findEntry? name = some (entry.fixedBy bindings, slot) := by
  obtain ⟨h0, he, hname⟩ := findEntry_some hf
  obtain ⟨i, rfl⟩ := Nat.exists_eq_succ_of_ne_zero h0
  rw [findEntry_eq_some_iff (h.wellFormed hs).distinct]
  refine ⟨h0, ?_, by rw [Entry.name_fixedBy, hname]⟩
  rw [h.getElem?_succ, he]
  rfl

/-- Parameters that are filled by position are not bound. -/
theorem positional_not_bound (h : Binds bindings source derived) {name : Symbol}
    (hn : name ∈ derived.positional) : name ∉ bindings.map (·.1) := by
  obtain ⟨entry, he, -, hrole, rfl⟩ := mem_positional.mp hn
  rw [h.body_eq] at he
  obtain ⟨old, -, rfl⟩ := List.mem_map.mp he
  intro hmem
  obtain ⟨⟨_, value⟩, hpair, hname⟩ := List.mem_map.mp hmem
  rw [Entry.name_fixedBy] at hname
  subst hname
  rw [Entry.fixedBy_some (lookup_of_mem h.distinct hpair)] at hrole
  cases hrole

end Binds

end Table

/-! ## A specialization beside its source -/

/-- **A frame of a specialization beside one of its source.** The cells are the same, but for
bindings that the source has still to be given. -/
structure Overlays (P S : Action) (rest : List (Symbol × Value)) (f g : Frame) : Prop where
  derived : f.Built P
  source : g.Built S
  cells : ∀ (slot : Nat) (entry : Entry), slot ≠ 0 → S.table.entries[slot]? = some entry →
    f.cell slot = (rest.lookup entry.name).getD (g.cell slot)

namespace Overlays

variable {P S : Action} {bindings rest : List (Symbol × Value)} {f g : Frame}

theorem new (hb : Table.Binds bindings S.table P.table) :
    Overlays P S bindings (.new P) (.new S) where
  derived := .new
  source := .new
  cells slot entry h0 he := by
    obtain ⟨i, rfl⟩ := Nat.exists_eq_succ_of_ne_zero h0
    have hfixed : P.table.entries[i + 1]? = some (entry.fixedBy bindings) := by
      rw [hb.getElem?_succ, he]
      rfl
    rw [Frame.Built.cell_new he, Frame.Built.cell_new hfixed]
    cases hl : bindings.lookup entry.name with
    | none =>
      rw [Entry.fixedBy_none hl]
      rfl
    | some value =>
      rw [Entry.fixedBy_some hl]
      rfl

/-- **An argument that is not bound** is refused by both frames or taken by both. -/
theorem set (hb : Table.Binds bindings S.table P.table) (hs : S.table.WellFormed)
    (h : Overlays P S bindings f g) {name : Symbol} (hname : name ∉ bindings.map (·.1))
    (value : Value) : Paired (Overlays P S bindings) (f.set name value) (g.set name value) := by
  cases hfind : S.table.findEntry? name with
  | none =>
    rw [Frame.set_of_none (h.derived.table ▸ hb.find_none hfind),
      Frame.set_of_none (h.source.table ▸ hfind)]
    exact .refused _
  | some found =>
    obtain ⟨entry, slot⟩ := found
    obtain ⟨h0, he, rfl⟩ := Table.findEntry_some hfind
    have hunbound := lookup_eq_none_of_notMem hname
    have hderived := hb.find_some hs hfind
    rw [Entry.fixedBy_none hunbound] at hderived
    obtain ⟨-, hderivedEntry, -⟩ := Table.findEntry_some hderived
    refine Frame.set_paired (h.derived.table ▸ hderived) (h.source.table ▸ hfind) rfl
      fun hleft hright => ⟨h.derived.set hleft, h.source.set hright, fun i other hi hother => ?_⟩
    rw [h.derived.cell_put hderivedEntry, h.source.cell_put he]
    by_cases hslot : i = slot
    · rw [hslot, he] at hother
      obtain rfl := Option.some.inj hother
      rw [if_pos hslot, if_pos hslot, hunbound]
      rfl
    · rw [if_neg hslot, if_neg hslot]
      exact h.cells i other hi hother

/-- **The source takes a binding**, and the frames have one difference less. -/
theorem bind (hs : S.table.WellFormed) {name : Symbol} {value : Value}
    (h : Overlays P S ((name, value) :: rest) f g) (hn : name ∉ rest.map (·.1))
    (ha : ∃ entry ∈ S.table.body, entry.name = name ∧ entry.Admits value) :
    ∃ next, g.set name value = .ok next ∧ Overlays P S rest f next := by
  obtain ⟨entry, hentry, rfl, hadmits⟩ := ha
  obtain ⟨slot, h0, he⟩ := Table.mem_body_iff.mp hentry
  have hfind := (Table.findEntry_eq_some_iff hs.distinct).mpr ⟨h0, he, rfl⟩
  have hset := Frame.set_of_some (h.source.table ▸ hfind) value
  rw [Frame.allow_eq_ok_iff.mpr hadmits.permits] at hset
  refine ⟨g.put slot value, hset, h.derived, h.source.set hset, fun i other hi hother => ?_⟩
  have hcell := h.cells i other hi hother
  rw [List.lookup_cons] at hcell
  rw [h.source.cell_put he, hcell]
  by_cases hslot : i = slot
  · rw [hslot, he] at hother
    obtain rfl := Option.some.inj hother
    rw [if_pos hslot, beq_self_eq_true, lookup_eq_none_of_notMem hn]
    rfl
  · have hne : other.name ≠ entry.name := fun heq =>
      hslot (Table.slot_unique hs.distinct hi h0 hother he heq)
    rw [if_neg hslot, beq_eq_false_iff_ne.mpr hne]

theorem bindAll (hs : S.table.WellFormed) (h : Overlays P S rest f g)
    (hd : (rest.map (·.1)).Nodup)
    (ha : ∀ pair ∈ rest, ∃ entry ∈ S.table.body, entry.name = pair.1 ∧ entry.Admits pair.2) :
    ∃ next, g.setAll rest = .ok next ∧ Overlays P S [] f next := by
  induction rest generalizing g with
  | nil => exact ⟨g, rfl, h⟩
  | cons pair rest ih =>
    obtain ⟨name, value⟩ := pair
    obtain ⟨hn, hd⟩ := List.nodup_cons.mp hd
    obtain ⟨mid, hset, hmid⟩ := h.bind hs hn (ha _ List.mem_cons_self)
    obtain ⟨next, hnext, hdone⟩ := ih hmid hd fun p hp => ha p (List.mem_cons_of_mem _ hp)
    refine ⟨next, ?_, hdone⟩
    rw [Frame.setAll_cons, hset]
    exact hnext

/-- Once the source has all bindings, the frames are the same. -/
theorem cells_eq (hb : Table.Binds bindings S.table P.table) (hs : S.table.WellFormed)
    (h : Overlays P S [] f g) : f.cells = g.cells := by
  have hsize : P.table.size = S.table.size := by
    unfold Table.size
    rw [hb.entries, hs.entries_eq, List.length_cons, List.length_cons, List.length_map]
  refine Frame.cells_ext ?_ fun i hi => ?_
  · rw [h.derived.length, h.source.length, hsize]
  · by_cases h0 : i = 0
    · rw [h0, h.derived.cell_zero (hb.wellFormed hs), h.source.cell_zero hs]
    · rw [h.source.length] at hi
      exact h.cells i _ h0 (List.getElem?_eq_getElem hi)

end Overlays

/-- **Filling a frame of a specialization** is filling one of its source, and then giving it the
bindings. -/
theorem fulfil_specialized {P S : Action} {bindings : List (Symbol × Value)}
    (hb : Table.Binds bindings S.table P.table) (hs : S.table.WellFormed)
    {positional : List Value} (hlength : positional.length ≤ P.table.positional.length)
    {named : List (Symbol × Value)} (hnamed : ∀ pair ∈ named, pair.1 ∉ bindings.map (·.1)) :
    Paired (Overlays P S []) (fulfil P positional named)
      (fulfil S [] (P.table.positional.zip positional ++ named ++ bindings)) := by
  have hpairs : ∀ pair ∈ P.table.positional.zip positional ++ named,
      pair.1 ∉ bindings.map (·.1) := by
    intro pair hmem
    rcases List.mem_append.mp hmem with hzip | hmem
    · exact hb.positional_not_bound (List.of_mem_zip hzip).1
    · exact hnamed pair hmem
  have hfilled : Paired (Overlays P S bindings)
      ((Frame.new P).setAll (P.table.positional.zip positional ++ named))
      ((Frame.new S).setAll (P.table.positional.zip positional ++ named)) :=
    Frame.setAll_paired_all (fun pair hmem f g h => h.set hb hs (hpairs pair hmem) pair.2)
      (Overlays.new hb)
  rw [fulfil_of_le hlength, fulfil_of_le (Nat.zero_le _), List.zip_nil_right, List.nil_append,
    Frame.setAll_append _ _ bindings]
  generalize (Frame.new P).setAll _ = left at hfilled ⊢
  generalize (Frame.new S).setAll _ = right at hfilled ⊢
  cases hfilled with
  | refused error => exact .refused error
  | filled h =>
    obtain ⟨next, hnext, hdone⟩ := h.bindAll hs hb.distinct hb.admitted
    show Paired _ _ (Frame.setAll _ bindings)
    rw [hnext]
    exact .filled hdone

namespace Workshop

variable {w w' w'' : Workshop}

/-- **Specialization is partial application.** A call of a specialization gives what a call of its
source gives, with the same arguments by name and then the bindings. -/
theorem call_specialized (hw : w.Reachable) {S P : Action} (hS : S ∈ w.actions)
    {bindings : List (Symbol × Value)} (hP : w.specialize S bindings = (.ok P, w'))
    (hl : w'.Leads w'') {positional : List Value}
    (hlength : positional.length ≤ P.table.positional.length) {named : List (Symbol × Value)}
    (hnamed : ∀ pair ∈ named, pair.1 ∉ bindings.map (·.1)) :
    w''.call P positional named =
      w''.call S [] (P.table.positional.zip positional ++ named ++ bindings) := by
  have hwf := hw.sound.wellFormed hS
  rcases specialize_cases hwf hP with ⟨_, herror, -⟩ | ⟨face, hok, hbinds, hlabel, -, -, hadd⟩
  · cases herror
  obtain rfl := Except.ok.inj hok
  obtain ⟨hw'', hP'', hS''⟩ := (Leads.specialize hS hP).derived_mem hw.sound hl hS hadd
  refine call_paired (fulfil_specialized hbinds hwf hlength hnamed) fun f g h => ?_
  have hcells := h.cells_eq hbinds hwf
  have hlabels : f.label = g.label := by
    rw [h.derived.label, h.source.label]
    exact hlabel
  -- The native sees the label, the cells and the binding, and all are the same.
  refine hw''.invoke_congr hP'' hS'' rfl h.derived.root h.source.root ?_ ?_
  · intro face function binding _
    refine Frame.runNative_congr ?_ ?_
    · unfold Frame.cell Frame.redirect
      rw [hcells]
    · unfold Frame.toCall Frame.redirect
      rw [hcells, hlabels]
  · intro face test _
    unfold Frame.checkedCell Frame.cell
    rw [hcells]

theorem add_two_made : (fresh.trial 0 fun made add =>
    match made.specialize add ((add.table.positional.drop 1).map (·, .integer 2)) with
    | (.ok action, w) =>
      some (action.table.positional.length, (w.call action [.integer 1] []).toOption)
    | (.error _, _) => none) = some (1, some (.integer 3)) := by
  decide +kernel

/-- Addition with its second number fixed to 2, called with 1. -/
theorem call_specialized_add : ∃ (S P : Action) (w : Workshop) (bindings : List (Symbol × Value)),
    S ∈ fresh.actions ∧ fresh.specialize S bindings = (.ok P, w) ∧
      P.table.positional.length = 1 ∧ (w.call P [.integer 1] []).toOption = some (.integer 3) ∧
      w.call P [.integer 1] [] =
        w.call S [] (P.table.positional.zip [.integer 1] ++ [] ++ bindings) := by
  obtain ⟨made, hmade, hfresh, S, hmem, hmatch⟩ := exists_of_trial add_two_made
  rw [← hmade]
  split at hmatch
  · next P w hP =>
    obtain ⟨hlength, hresult⟩ := Prod.mk.inj (Option.some.inj hmatch)
    have hone : [Value.integer 1].length ≤ P.table.positional.length := Nat.le_of_eq hlength.symm
    exact ⟨S, P, w, _, hmem, hP, hlength, hresult,
      call_specialized hfresh hmem hP .refl hone (by simp)⟩
  · cases hmatch

end Workshop

end ActionKit
