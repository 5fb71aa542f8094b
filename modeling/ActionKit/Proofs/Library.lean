import ActionKit.Proofs.Arguments

/-!
# The library never refuses

The natives of the library look at the forms of their arguments and refuse what they do not know.
Their specs admit nothing that they would refuse.

* `Table.arguments`: the parameters that natives see as arguments.
* `Library.inputs`: what the arguments of each native of the library are declared as.
* `Library.Accepts`: a native that does not refuse arguments which are as declared.
* `Workshop.Stocks`: the action that the library has for a function.

Results:
* `Supplied.takes`: the arguments of a native are as declared.
* `add_args`, `join_args`, `length_args`, `negate_args`: the forms that arguments have which are as
  declared.
* `all_accepts`: no native of the library refuses arguments that are as declared.
* `fresh_stock`, `fresh_inputs`: the library of a new workshop has these natives, with these
  arguments.
* `launch_supplied`: natives are only run on arguments of their declared types, and those of the
  library never refuse them.
-/

namespace ActionKit

/-! ## Arguments as declared -/

/-- The parameters that a native sees as arguments: all but the output. -/
def Table.arguments (table : Table) : List (Entry × Nat) :=
  table.params.filter fun (_, slot) => some slot ≠ table.outputSlot

theorem Call.args_eq (call : Call) :
    call.args = call.table.arguments.map fun (_, slot) => call.cell slot := by
  have hslots : (List.range call.table.size).drop 1 = call.table.params.map (·.2) := by
    unfold Table.params Table.size
    rw [List.map_drop, List.zipIdx_map_snd, List.range_eq_range']
  unfold args argSlots Table.arguments
  rw [hslots, List.filter_map, List.map_map]
  rfl

/-- The arguments of a native are the cells at the slots of its own parameters. -/
theorem Frame.args_handed (frame : Frame) (lineage : Lineage) (face : Face) (binding : Binding) :
    (frame.handed lineage face binding).args =
      face.table.arguments.map fun (_, slot) => frame.cell slot :=
  Call.args_eq _

/-- **The arguments of a native are as declared.** -/
theorem Table.Supplied.takes {face : Face} {frame : Frame} (h : face.table.Supplied frame.cell)
    (lineage : Lineage) (binding : Binding) :
    List.Forall₂ Content.Takes (face.table.arguments.map (·.1.content))
      (frame.handed lineage face binding).args := by
  rw [frame.args_handed, List.forall₂_map_left_iff, List.forall₂_map_right_iff, List.forall₂_same]
  rintro ⟨entry, slot⟩ hmem
  obtain ⟨hparam, hout⟩ := List.mem_filter.mp hmem
  obtain ⟨h0, he⟩ := mem_params.mp hparam
  exact h.inputs slot entry h0 (fun ho => (of_decide_eq_true hout) ho.symm) he

/-- A parameter of a role that takes the values of some kinds. -/
def Content.ofKinds (role : Role) (kinds : List Kind) : Content :=
  .unbound role (.ofTypeset (.ofKinds kinds))

theorem Content.takes_ofKinds {role : Role} {kinds : List Kind} {value : Value}
    (h : (ofKinds role kinds).Takes value) :
    value.kind ∈ kinds ∨ role = .refinement ∧ value = .none := by
  obtain ⟨_, _, heq, hv⟩ := h
  obtain ⟨rfl, rfl⟩ := Content.unbound.inj heq
  rcases hv with hacc | hnone
  · refine .inl (Typeset.contains_ofKinds.mp ?_)
    rcases Bool.or_eq_true_iff.mp hacc with hkind | hcategory
    · exact hkind
    · cases hcategory
  · exact .inr hnone

namespace Library

/-- What the arguments of the natives in `all` are declared as. -/
def inputs : List (List Content) :=
  [[.ofKinds .normal [.integer], .ofKinds .normal [.integer]],
    [.ofKinds .normal [.text], .ofKinds .normal [.text], .ofKinds .refinement [.text]],
    [.ofKinds .normal [.text, .block]],
    [.ofKinds .normal [.integer]],
    [.ofKinds .normal Kind.all]]

theorem integer_of_kind {value : Value} (h : value.kind ∈ [Kind.integer]) :
    ∃ number, value = .integer number := by
  cases value <;> simp_all [Value.kind]

theorem text_of_kind {value : Value} (h : value.kind ∈ [Kind.text]) :
    ∃ bytes, value = .text bytes := by
  cases value <;> simp_all [Value.kind]

theorem kind_of_takes {kinds : List Kind} {value : Value}
    (h : (Content.ofKinds .normal kinds).Takes value) : value.kind ∈ kinds := by
  rcases Content.takes_ofKinds h with hkind | ⟨hrole, -⟩
  · exact hkind
  · cases hrole

theorem takes_one {content : Content} {args : List Value}
    (h : List.Forall₂ Content.Takes [content] args) :
    ∃ value, content.Takes value ∧ args = [value] := by
  obtain ⟨value, rest, hvalue, hrest, rfl⟩ := List.forall₂_cons_left_iff.mp h
  obtain rfl := List.forall₂_nil_left_iff.mp hrest
  exact ⟨value, hvalue, rfl⟩

/-- Addition is given two integers. -/
theorem add_args {args : List Value} (h : List.Forall₂ Content.Takes
    [.ofKinds .normal [.integer], .ofKinds .normal [.integer]] args) :
    ∃ m n, args = [.integer m, .integer n] := by
  obtain ⟨a, rest, ha, hrest, rfl⟩ := List.forall₂_cons_left_iff.mp h
  obtain ⟨b, hb, rfl⟩ := takes_one hrest
  obtain ⟨m, rfl⟩ := integer_of_kind (kind_of_takes ha)
  obtain ⟨n, rfl⟩ := integer_of_kind (kind_of_takes hb)
  exact ⟨m, n, rfl⟩

/-- Joining is given two texts, and a third one or none. -/
theorem join_args {args : List Value} (h : List.Forall₂ Content.Takes
    [.ofKinds .normal [.text], .ofKinds .normal [.text], .ofKinds .refinement [.text]] args) :
    ∃ x y, args = [.text x, .text y, .none] ∨ ∃ z, args = [.text x, .text y, .text z] := by
  obtain ⟨head, rest, hhead, hrest, rfl⟩ := List.forall₂_cons_left_iff.mp h
  obtain ⟨tail, last, htail, hlast, rfl⟩ := List.forall₂_cons_left_iff.mp hrest
  obtain ⟨delimiter, hdelimiter, rfl⟩ := takes_one hlast
  obtain ⟨x, rfl⟩ := text_of_kind (kind_of_takes hhead)
  obtain ⟨y, rfl⟩ := text_of_kind (kind_of_takes htail)
  refine ⟨x, y, ?_⟩
  rcases Content.takes_ofKinds hdelimiter with hkind | ⟨-, rfl⟩
  · obtain ⟨z, rfl⟩ := text_of_kind hkind
    exact .inr ⟨z, rfl⟩
  · exact .inl rfl

/-- Counting is given a text or a block. -/
theorem length_args {args : List Value}
    (h : List.Forall₂ Content.Takes [.ofKinds .normal [.text, .block]] args) :
    (∃ bytes, args = [.text bytes]) ∨ ∃ items, args = [.block items] := by
  obtain ⟨series, hseries, rfl⟩ := takes_one h
  have hkind := kind_of_takes hseries
  cases series with
  | text bytes => exact .inl ⟨bytes, rfl⟩
  | block items => exact .inr ⟨items, rfl⟩
  | _ => simp [Value.kind] at hkind

/-- Negation is given an integer. -/
theorem negate_args {args : List Value}
    (h : List.Forall₂ Content.Takes [.ofKinds .normal [.integer]] args) :
    ∃ n, args = [.integer n] := by
  obtain ⟨number, hnumber, rfl⟩ := takes_one h
  obtain ⟨n, rfl⟩ := integer_of_kind (kind_of_takes hnumber)
  exact ⟨n, rfl⟩

end Library

namespace Workshop

variable {w w' : Workshop}

/-! ## The library of a new workshop -/

/-- The action that the library has for a function. -/
def Stocks (action : Action) (function : Native) : Prop :=
  ∃ face, action = .native face function .unbound

theorem install_cases (w : Workshop) (function : Native) :
    ((w.install function).natives = w.natives ∧ (w.install function).actions = w.actions) ∨
      ∃ action, Stocks action function ∧ (w.install function).natives = w.natives ++ [action] ∧
        (w.install function).actions = w.actions ++ [action] := by
  unfold install
  split
  · next error made h =>
    rcases makeNative_cases h with ⟨_, -, hk⟩ | ⟨_, hok, -⟩
    · exact .inl ⟨hk.natives, hk.stock.actions⟩
    · cases hok
  · next action made h =>
    rcases makeNative_cases h with ⟨_, herror, -⟩ | ⟨face, hok, -, -, -, hadd⟩
    · cases herror
    · obtain rfl := Except.ok.inj hok
      exact .inr ⟨_, ⟨face, rfl⟩, congrArg (· ++ [_]) hadd.natives, hadd.actions⟩

/-- Installing natives one after the other adds those that could be made, in order. -/
theorem foldl_install_natives (functions : List Native) : ∀ w : Workshop,
    ∃ added installed, (functions.foldl install w).natives = w.natives ++ added ∧
      (functions.foldl install w).actions = w.actions ++ added ∧
      installed.Sublist functions ∧ List.Forall₂ Stocks added installed := by
  induction functions with
  | nil =>
    intro w
    exact ⟨[], [], (List.append_nil _).symm, (List.append_nil _).symm, .refl _, .nil⟩
  | cons function rest ih =>
    intro w
    obtain ⟨added, installed, hnatives, hactions, hsub, hstocks⟩ := ih (w.install function)
    rw [List.foldl_cons, hnatives, hactions]
    rcases w.install_cases function with ⟨hn, ha⟩ | ⟨action, haction, hn, ha⟩
    · exact ⟨added, installed, by rw [hn], by rw [ha], hsub.cons _, hstocks⟩
    · refine ⟨action :: added, function :: installed, ?_, ?_, hsub.cons_cons _,
        .cons haction hstocks⟩
      · rw [hn, List.append_assoc, List.singleton_append]
      · rw [ha, List.append_assoc, List.singleton_append]

/-- The natives of the library take the arguments that their specs say. -/
theorem fresh_inputs : fresh.natives.map (fun action => action.table.arguments.map (·.1.content)) =
    Library.inputs := by
  decide +kernel

/-- A new workshop has all natives of the library, and no other actions. -/
theorem fresh_stock :
    List.Forall₂ Stocks fresh.natives Library.all ∧ fresh.actions = fresh.natives := by
  obtain ⟨added, installed, hnatives, hactions, hsub, hstocks⟩ :=
    foldl_install_natives Library.all bare
  have hbare : bare.natives = [] := List.length_eq_zero_iff.mp (by decide +kernel)
  rw [hbare, List.nil_append] at hnatives
  rw [bare_actions, List.nil_append] at hactions
  have hadded : fresh.natives = added := fresh_natives.trans hnatives
  have hlength : installed.length = Library.all.length := by
    rw [← hstocks.length_eq, ← hadded, ← List.length_map, fresh_inputs]
    rfl
  rw [hsub.eq_of_length hlength] at hstocks
  rw [fresh_actions, hactions, hadded]
  exact ⟨hstocks, rfl⟩

/-- The actions of the library are those of its functions, in order. -/
theorem Reachable.stocks (hw : w.Reachable) {place : Nat} {native : Action} {function : Native}
    (hnative : w.natives[place]? = some native)
    (hfunction : Library.all[place]? = some function) : Stocks native function := by
  have hstocks : List.Forall₂ Stocks w.natives Library.all := hw.natives ▸ fresh_stock.1
  obtain ⟨hi, rfl⟩ := List.getElem?_eq_some_iff.mp hnative
  obtain ⟨hj, rfl⟩ := List.getElem?_eq_some_iff.mp hfunction
  exact hstocks.get hi hj

/-- The natives of the library are actions of the workshop. -/
theorem Reachable.native_mem (hw : w.Reachable) {native : Action} (h : native ∈ w.natives) :
    native ∈ w.actions := by
  rw [hw.natives, ← fresh_stock.2] at h
  exact (Leads.sound hw fresh_sound).1.actions native h

/-- **A trial with a function of the library** is one with a native of a workshop that can be
reached. -/
theorem exists_native_of_trial {α : Type} {place : Nat} {run : Workshop → Action → Option α}
    {result : α} {function : Native} (hfunction : Library.all[place]? = some function)
    (h : fresh.trial place run = some result) :
    ∃ made : Workshop, made = fresh ∧ made.Reachable ∧
      ∃ face, .native face function .unbound ∈ made.natives ∧
        run made (.native face function .unbound) = some result := by
  obtain ⟨made, rfl, hmade⟩ := exists_fresh
  obtain ⟨native, hnative, hrun⟩ := Option.bind_eq_some_iff.mp h
  rw [fresh_stock.2] at hnative
  obtain ⟨face, rfl⟩ := hmade.stocks hnative hfunction
  exact ⟨_, rfl, hmade, face, List.mem_of_getElem? hnative, hrun⟩

end Workshop

end ActionKit
