import ActionKit.Proofs.Filling

/-!
# The order and style of arguments

Arguments by position are arguments by name: the names are those of the parameters that callers see
and that are filled by position, in the order of their slots, whatever stands between them. Since a
cell holds the last value that was given for its parameter, arguments for different parameters can
be given in any order.

* `Table.normals`: the parameters that positional arguments fill, with their slots.
* `Workshop.Flexible`: an action takes arguments in any order and style.

Results:
* `mem_normals_iff`, `normals_ascending`: these are the exposed ones of the role `normal`, by slot.
* `Built.eq_of_cells`: a frame of an action is determined by its cells.
* `fulfil_perm`: named arguments of different names make the same frame in any order.
* `fulfil_split`: positional arguments can be given by name from any place on.
* `cell_of_position`: an argument by position is in the cell of its parameter.
* `arguments_flexible`: **the order and style of arguments does not matter**.
-/

namespace ActionKit

/-! ## Parameters by position -/

namespace Table

/-- The parameters that positional arguments fill, with their slots. -/
def normals (table : Table) : List (Entry × Nat) :=
  table.exposed.filter (·.1.role? = some .normal)

theorem positional_eq_names (table : Table) :
    table.positional = table.normals.map (·.1.name) := rfl

theorem mem_normals_iff {table : Table} {entry : Entry} {slot : Nat} :
    (entry, slot) ∈ table.normals ↔ slot ≠ 0 ∧ table.entries[slot]? = some entry ∧
      entry.isExposed = true ∧ entry.role? = some .normal := by
  unfold normals exposed
  rw [List.mem_filter, List.mem_filter, mem_params, decide_eq_true_eq, and_assoc, and_assoc]

theorem normals_ascending (table : Table) : table.normals.Pairwise (·.2 < ·.2) :=
  (table.params_ascending.filter _).filter _

/-- Giving arguments by name from some place on gives them under the same names. -/
theorem pairing_split (table : Table) {first second : List Value}
    (h : first.length ≤ table.positional.length) (named : List (Symbol × Value)) :
    table.pairing (first ++ second) named =
      table.pairing first ((table.positional.drop first.length).zip second ++ named) := by
  have htake : (table.positional.take first.length).length = first.length :=
    List.length_take_of_le h
  have hsplit : table.positional.zip (first ++ second) =
      table.positional.zip first ++ (table.positional.drop first.length).zip second := by
    calc table.positional.zip (first ++ second)
        = (table.positional.take first.length ++ table.positional.drop first.length).zip
            (first ++ second) := by rw [List.take_append_drop]
      _ = (table.positional.take first.length).zip first ++
            (table.positional.drop first.length).zip second := List.zip_append htake
      _ = table.positional.zip first ++ (table.positional.drop first.length).zip second := by
          rw [zip_positional h]
  unfold pairing
  rw [hsplit, List.append_assoc]

end Table

/-! ## Frames from arguments in any order -/

/-- **A frame of an action is determined by the cells of its parameters.** -/
theorem Frame.Built.eq_of_cells {action : Action} (hwf : action.table.WellFormed) {f g : Frame}
    (hf : f.Built action) (hg : g.Built action)
    (h : ∀ (slot : Nat) (entry : Entry), slot ≠ 0 → action.table.entries[slot]? = some entry →
      f.cell slot = g.cell slot) : f = g := by
  have hcells : f.cells = g.cells := by
    refine Frame.cells_ext (hf.length.trans hg.length.symm) fun slot hlt => ?_
    by_cases h0 : slot = 0
    · rw [h0, hf.cell_zero hwf, hg.cell_zero hwf]
    · rw [hg.length] at hlt
      exact h slot _ h0 (List.getElem?_eq_getElem hlt)
  have htable := hf.table.trans hg.table.symm
  have hlabel := hf.label.trans hg.label.symm
  have hroot := hf.root.trans hg.root.symm
  cases f
  cases g
  subst hcells htable hlabel hroot
  rfl

variable {action : Action} {positional : List Value} {named others : List (Symbol × Value)}

/-- **Named arguments of different names make the same frame in any order**, or none in any. -/
theorem fulfil_perm (hwf : action.table.WellFormed) (hd : (named.map (·.1)).Nodup)
    (hperm : named.Perm others) {frame : Frame}
    (h : fulfil action positional named = .ok frame) :
    fulfil action positional others = .ok frame := by
  obtain ⟨hle, hset⟩ := fulfil_ok h
  have hpairs : (action.table.pairing positional others).Perm
      (action.table.pairing positional named) := hperm.symm.append_left _
  obtain ⟨other, hother⟩ : ∃ other, fulfil action positional others = .ok other := by
    rw [fulfil_of_le hle]
    refine Frame.exists_setAll_iff.mpr fun pair hpair => ?_
    exact Frame.exists_setAll_iff.mp ⟨frame, hset⟩ pair (hpairs.mem_iff.mp hpair)
  -- The last named argument for a parameter is the only one, wherever it stands.
  have hlookup : ∀ name, (action.table.pairing positional others).reverse.lookup name =
      (action.table.pairing positional named).reverse.lookup name := by
    intro name
    have hnamed : named.reverse.lookup name = others.reverse.lookup name := by
      refine lookup_perm ?_ (named.reverse_perm.trans (hperm.trans others.reverse_perm.symm)) name
      rw [List.map_reverse, List.nodup_reverse]
      exact hd
    unfold Table.pairing
    rw [List.reverse_append, List.reverse_append, List.lookup_append, List.lookup_append, hnamed]
  have hsame : other = frame := by
    refine (fulfil_built hother).eq_of_cells hwf (fulfil_built h) fun slot entry h0 hentry => ?_
    rw [cell_fulfil hwf hother h0 hentry, cell_fulfil hwf h h0 hentry, hlookup]
  rw [hother, hsame]

/-- **Positional arguments can be given by name from any place on.** -/
theorem fulfil_split {first second : List Value}
    (h : (first ++ second).length ≤ action.table.positional.length) :
    fulfil action (first ++ second) named =
      fulfil action first ((action.table.positional.drop first.length).zip second ++ named) := by
  have hfirst : first.length ≤ action.table.positional.length := by
    rw [List.length_append] at h
    omega
  rw [fulfil_of_le h, fulfil_of_le hfirst]
  exact congrArg _ (action.table.pairing_split hfirst named)

/-- **An argument by position is in the cell of its parameter**, if nothing is given twice. -/
theorem cell_of_position (hwf : action.table.WellFormed) {frame : Frame}
    (h : fulfil action positional named = .ok frame)
    (hd : (action.table.positional.take positional.length ++ named.map (·.1)).Nodup) {k : Nat}
    {value : Value} (hvalue : positional[k]? = some value) :
    ∃ entry slot, action.table.normals[k]? = some (entry, slot) ∧ frame.cell slot = value := by
  obtain ⟨hle, -⟩ := fulfil_ok h
  have hlt : k < action.table.normals.length := by
    have hk := (List.getElem?_eq_some_iff.mp hvalue).1
    rw [Table.positional_eq_names, List.length_map] at hle
    omega
  obtain ⟨⟨entry, slot⟩, hnormal⟩ : ∃ param, action.table.normals[k]? = some param :=
    ⟨_, List.getElem?_eq_getElem hlt⟩
  refine ⟨entry, slot, hnormal, ?_⟩
  obtain ⟨h0, hentry, -, -⟩ := Table.mem_normals_iff.mp (List.mem_of_getElem? hnormal)
  have hgiven : (entry.name, value) ∈ action.table.pairing positional named := by
    refine List.mem_append_left _ (List.mem_of_getElem? (i := k) ?_)
    rw [List.getElem?_zip_eq_some, Table.positional_eq_names, List.getElem?_map, hnormal]
    exact ⟨rfl, hvalue⟩
  have hnodup : ((action.table.pairing positional named).reverse.map (·.1)).Nodup := by
    rw [List.map_reverse, List.nodup_reverse, Table.pairing_names hle]
    exact hd
  rw [cell_fulfil hwf h h0 hentry, lookup_of_mem hnodup (List.mem_reverse.mpr hgiven)]
  rfl

namespace Workshop

variable {w : Workshop}

/-- **An action takes arguments in any order and style.** -/
structure Flexible (w : Workshop) (action : Action) : Prop where
  /-- Named arguments for different names are refused in any order, or make the same frame and give
  the same result in any order. -/
  order : ∀ positional named others, (named.map (·.1)).Nodup → named.Perm others →
    (∃ e f, fulfil action positional named = .error e ∧
      fulfil action positional others = .error f ∧
      w.call action positional named = .error e ∧ w.call action positional others = .error f) ∨
    ∃ frame, fulfil action positional named = .ok frame ∧
      fulfil action positional others = .ok frame ∧
      w.call action positional named = w.call action positional others
  /-- Arguments by position can be given by name from any place on. -/
  style : ∀ first second named, (first ++ second).length ≤ action.table.normals.length →
    w.call action (first ++ second) named =
      w.call action first
        (((action.table.normals.drop first.length).map (·.1.name)).zip second ++ named)
  /-- Positions count the parameters that callers see and that are not refinements or the output. -/
  counted : ∀ entry slot, (entry, slot) ∈ action.table.normals ↔
    slot ≠ 0 ∧ action.table.entries[slot]? = some entry ∧ entry.isExposed = true ∧
      entry.role? = some .normal
  /-- They count them by slot. -/
  ascending : action.table.normals.Pairwise (·.2 < ·.2)
  /-- If nothing is given twice, an argument by position is in the cell of the parameter at that
  position. -/
  placed : ∀ positional named frame, fulfil action positional named = .ok frame →
    ((action.table.normals.map (·.1.name)).take positional.length ++ named.map (·.1)).Nodup →
    ∀ (k : Nat) (value : Value), positional[k]? = some value →
      ∃ entry slot, action.table.normals[k]? = some (entry, slot) ∧ frame.cell slot = value

/-- **The order and style of arguments does not matter.** -/
theorem arguments_flexible (hw : w.Reachable) {action : Action} (ha : action ∈ w.actions) :
    w.Flexible action := by
  have hwf := hw.sound.wellFormed ha
  refine ⟨?_, ?_, fun _ _ => Table.mem_normals_iff, action.table.normals_ascending, ?_⟩
  · intro positional named others hd hperm
    have hd' : (others.map (·.1)).Nodup := (hperm.map _).nodup_iff.mp hd
    rw [call_eq_fulfil, call_eq_fulfil]
    cases hnamed : fulfil action positional named with
    | ok frame =>
      have hothers := fulfil_perm hwf hd hperm hnamed
      rw [hothers]
      exact .inr ⟨frame, rfl, rfl, rfl⟩
    | error e =>
      cases hothers : fulfil action positional others with
      | ok frame =>
        rw [fulfil_perm hwf hd' hperm.symm hothers] at hnamed
        cases hnamed
      | error f => exact .inl ⟨e, f, rfl, rfl, rfl, rfl⟩
  · intro first second named hle
    have hle' : (first ++ second).length ≤ action.table.positional.length := by
      rw [Table.positional_eq_names, List.length_map]
      exact hle
    rw [call_eq_fulfil, call_eq_fulfil, fulfil_split hle', Table.positional_eq_names, List.map_drop]
  · intro positional named frame h hd k value hvalue
    exact cell_of_position hwf h hd hvalue

theorem join_any_style : (fresh.trial 1 fun made join =>
    match made.augment join [.word ⟨98⟩] none with
    | (.ok wide, w₁) =>
      match w₁.specialize wide [(⟨7⟩, .text [98])] with
      | (.ok action, w₂) =>
        some (action.table.normals.map (fun param => (param.1.name, param.2)),
          (w₂.call action [.text [97], .logic true] [(⟨8⟩, .text [45])]).toOption)
      | (.error _, _) => none
    | (.error _, _) => none) =
      some ([(⟨6⟩, 2), (⟨98⟩, 5)], some (.text [97, 45, 98])) := by
  decide +kernel

/-- Joining with a parameter more and its tail fixed: positions count the head and the new
parameter, with the fixed tail and the delimiter between them. -/
theorem arguments_flexible_join : ∃ (w : Workshop) (action : Action), w.Reachable ∧
    action ∈ w.actions ∧ w.Flexible action ∧
    action.table.normals.map (fun param => (param.1.name, param.2)) = [(⟨6⟩, 2), (⟨98⟩, 5)] ∧
    (w.call action [.text [97], .logic true] [(⟨8⟩, .text [45])]).toOption =
      some (.text [97, 45, 98]) ∧
    w.call action [.text [97]] [(⟨98⟩, .logic true), (⟨8⟩, .text [45])] =
      w.call action [.text [97], .logic true] [(⟨8⟩, .text [45])] ∧
    w.call action [.text [97]] [(⟨8⟩, .text [45]), (⟨98⟩, .logic true)] =
      w.call action [.text [97], .logic true] [(⟨8⟩, .text [45])] := by
  obtain ⟨made, -, hfresh, join, hmem, hmatch⟩ := exists_of_trial join_any_style
  split at hmatch
  · next wide w₁ hwide =>
    obtain ⟨hw₁, own₁⟩ := hfresh.augment hmem hwide
    split at hmatch
    · next action w₂ haction =>
      obtain ⟨hw₂, own₂⟩ := hw₁.specialize own₁ haction
      obtain ⟨hnormals, hresult⟩ := Prod.mk.inj (Option.some.inj hmatch)
      have hflexible := arguments_flexible hw₂ own₂
      have hnames : action.table.normals.map (·.1.name) = [⟨6⟩, ⟨98⟩] := by
        have hfirst := congrArg (List.map Prod.fst) hnormals
        rwa [List.map_map] at hfirst
      have hlength : action.table.normals.length = 2 := by
        have htwo := congrArg List.length hnames
        rwa [List.length_map] at htwo
      have hstyle := hflexible.style [.text [97]] [.logic true] [(⟨8⟩, .text [45])]
        (Nat.le_of_eq hlength.symm)
      rw [List.map_drop, hnames] at hstyle
      have horder := hflexible.order [.text [97]] [(⟨98⟩, .logic true), (⟨8⟩, .text [45])]
        [(⟨8⟩, .text [45]), (⟨98⟩, .logic true)] (by decide) (.swap _ _ [])
      refine ⟨w₂, action, hw₂, own₂, hflexible, hnormals, hresult, hstyle.symm, ?_⟩
      rcases horder with ⟨e, -, -, -, hrefused, -⟩ | ⟨-, -, -, hsame⟩
      · have herror := hstyle.trans hrefused
        rw [List.singleton_append] at herror
        rw [herror] at hresult
        cases hresult
      · exact hsame.symm.trans hstyle.symm
    · cases hmatch
  · cases hmatch

end Workshop

end ActionKit
