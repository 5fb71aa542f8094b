import ActionKit.Proofs.Exactness

/-!
# What typecheckers find

A typechecker looks at one cell and compares its type. Parameters are checked by constraints, which
keep sets of kinds and lists of categories. Both come to the same, and since derivations keep the
parameter at its slot, all actions that descend from a typechecker find the same as it does.

* `TypeTerm.constraint`: the constraint that is made from a datatype or a typeset.
* `Table.AsksValue`: a table that asks for one value, whatever it is.

Results:
* `accepts_constraint`: a constraint accepts what the comparison of types admits.
* `AsksValue.fulfil`: such a table is given the value in the cell of that parameter.
* `Reachable.checker_answers`: what a typechecker answers, and all that descend from it.
* `Reachable.typeOf_call`: a value is told to be of its precise datatype.
* `checkers_agree`: **typecheckers agree with constraints**, and every value is of the type that it
  is told to be of.
-/

namespace ActionKit

/-! ## Constraints from type terms -/

/-- The constraint that is made from a datatype or a typeset. -/
def TypeTerm.constraint : TypeTerm → Constraint
  | .datatype d => Constraint.empty.add (.datatype d)
  | .typeset t => .ofTypeset t

/-- **A constraint accepts what the comparison of types admits**, values of open categories
included. -/
theorem TypeTerm.accepts_constraint (term : TypeTerm) (value : Value) :
    term.constraint.accepts value = term.admits value := by
  cases term with
  | datatype d =>
    rw [constraint, Constraint.accepts_add, Constraint.accepts_empty, Bool.false_or]
  | typeset t => simp [constraint, Constraint.accepts, Constraint.ofTypeset, admits]

/-- The native that tells types answers with the precise datatype. -/
theorem Library.Answers.typeOf_eq {argument : String → Option Value} {function : Native}
    {result : Except CallError Value} (h : Answers argument function result)
    (hname : function.name = "type-of") {value : Value} (hgiven : argument "value" = some value) :
    result = .ok (.datatype value.typeOf) := by
  -- Natives hold functions, so that only their names tell them apart.
  cases h with
  | precise given told =>
    obtain rfl := Option.some.inj (hgiven.symm.trans given)
    rw [precise_iff.mp told]
  | _ => exact absurd hname (by decide)

/-! ## Tables that ask for one value -/

namespace Table

/-- **A table that asks for one value**, whatever it is: that is the one parameter that arguments
fill by position. -/
structure AsksValue (table : Table) : Prop where
  positional : table.positional = [.value]
  takes : ∃ entry slot, table.findEntry? .value = some (entry, slot) ∧
    entry.Open .normal (.ofTypeset (.ofKinds Kind.all))

theorem asksValue_of {table : Table} (hpositional : table.positional = [.value])
    (htakes : (table.findEntry? .value).any (fun found => found.1.isSealed = false ∧
      found.1.content = .ofKinds .normal Kind.all) = true) : table.AsksValue := by
  refine ⟨hpositional, ?_⟩
  cases hfind : table.findEntry? .value with
  | none =>
    rw [hfind] at htakes
    cases htakes
  | some found =>
    rw [hfind] at htakes
    obtain ⟨hunsealed, hcontent⟩ := of_decide_eq_true htakes
    exact ⟨found.1, found.2, rfl, hcontent, hunsealed⟩

/-- **A table that asks for one value is given it** in the cell of that parameter. -/
theorem AsksValue.fulfil {action : Action} (h : action.table.AsksValue) (value : Value) :
    ∃ frame slot, ActionKit.fulfil action [value] [] = .ok frame ∧ frame.Built action ∧
      action.table.find? .value = some slot ∧ frame.cell slot = value := by
  obtain ⟨entry, slot, hfind, hopen⟩ := h.takes
  have hpermits : entry.Permits value := by
    refine ⟨.normal, _, hopen, by decide, .inl ?_⟩
    have hkind : (Typeset.ofKinds Kind.all).contains value.kind = true :=
      Typeset.contains_ofKinds.mpr value.kind.mem_all
    rwa [Constraint.accepts_ofTypeset]
  have hset : (Frame.new action).set .value value = .ok ((Frame.new action).put slot value) := by
    rw [Frame.set_of_some hfind, Frame.allow_eq_ok_iff.mpr hpermits]
    rfl
  obtain ⟨-, hentry, -⟩ := findEntry_some hfind
  refine ⟨(Frame.new action).put slot value, slot, ?_, .set .new hset,
    Option.map_eq_some_iff.mpr ⟨_, hfind, rfl⟩, ?_⟩
  · rw [fulfil_of_le (by rw [h.positional]; exact Nat.le_refl 1), h.positional]
    show (Frame.new action).setAll [(.value, value)] = _
    unfold Frame.setAll
    rw [hset]
    rfl
  · rw [Frame.Built.new.cell_put hentry, if_pos rfl]

end Table

namespace Workshop

variable {w w' : Workshop}

theorem bare_checker_asks : bare.checkerTable.AsksValue :=
  Table.asksValue_of (by decide +kernel) (by decide +kernel)

/-- **Typecheckers ask for one value.** -/
theorem Reachable.checker_asks (hw : w.Reachable) : w.checkerTable.AsksValue := by
  refine hw.induction (motive := fun w => w.checkerTable.AsksValue) bare_checker_asks
    (fun hc h => ?_) fun hs h => ?_
  · rw [hc.grows.checkerTable]
    exact h
  · rw [hs.checkerTable]
    exact h

/-! ## The answers of typecheckers -/

theorem makeChecker_of_term (w : Workshop) (term : TypeTerm) :
    w.makeChecker term.toValue =
      (.ok (.checker { id := w.nextId, table := w.checkerTable } term),
        w.addAction (.checker { id := w.nextId, table := w.checkerTable } term)) := by
  unfold makeChecker
  rw [Value.typeTerm?_eq_some_iff.mpr rfl]

/-- What the library of a new workshop has under two of its names: the argument of typecheckers, and
the native that tells types, which asks for one value and requires none. -/
theorem fresh_named : fresh.names.find? (.ofString "value") = some .value ∧
    ((fresh.names.find? (.ofString "type-of")).bind fun label =>
      fresh.natives.findIdx? (·.label = some label)) = some 4 ∧
    fresh.natives[4]?.any (fun native => native.table.positional = [.value] ∧
      (native.table.findEntry? .value).any (fun found => found.1.isSealed = false ∧
        found.1.content = .ofKinds .normal Kind.all) = true ∧
      missing? native.table (fun _ => .none) = none) = true := by
  decide +kernel

/-- What a frame holds as the value is in the cell that the symbol of that name leads to. -/
theorem Reachable.argument_value (hw : w.Reachable) {frame : Frame} {slot : Nat}
    (hfind : frame.table.find? .value = some slot) :
    w.argument frame "value" = some (frame.cell slot) := by
  have hname := (Leads.retains .refl hw).names.find? fresh_named.1
  unfold argument
  rw [hname, Option.bind_some, hfind]
  rfl

/-- **What a typechecker answers, and all that descend from it**: whether the constraint accepts the
value. -/
theorem Reachable.checker_answers (hw : w.Reachable) {face : Face} {term : TypeTerm}
    (own : .checker face term ∈ w.actions) {made : List Action} {action : Action}
    (hdescends : w.Descends (.checker face term) made action w') {frame : Frame}
    (hf : frame.Built action) : ∃ slot, action.table.find? .value = some slot ∧
      w'.invoke frame = .ok (.logic (term.constraint.accepts (frame.cell slot))) := by
  obtain ⟨hsound, hmem, -⟩ := hdescends.mem hw.sound own
  have horigin := hdescends.origin hw.sound own
  have hnarrows := hsound.origin_narrows hmem
  rw [horigin] at hnarrows
  have htable : face.table = w.checkerTable := hw.sound.accounts _ own
  obtain ⟨entry, slot, hentry, -⟩ := hw.checker_asks.takes
  have hfind : face.table.find? .value = some slot :=
    Option.map_eq_some_iff.mpr ⟨_, htable ▸ hentry, rfl⟩
  refine ⟨slot, hnarrows.find? (hsound.wellFormed hmem) hfind, ?_⟩
  rw [hsound.invoke_eq_answer hmem hf.root, Action.answer_congr horigin]
  have hcell : frame.checkedCell face.table = frame.cell slot := by
    unfold Frame.checkedCell
    rw [hfind]
  rw [term.accepts_constraint, ← hcell]
  rfl

/-! ## The types that values are told to be of -/

theorem native?_eq {name : Bytes} {label : Symbol} {i : Nat}
    (hlabel : w.names.find? name = some label)
    (hindex : w.natives.findIdx? (·.label = some label) = some i) :
    w.native? name = w.natives[i]? := by
  unfold native?
  rw [hlabel]
  show w.natives.find? _ = _
  rw [List.find?_eq_bind_findIdx?_getElem?, hindex]
  rfl

/-- **The native that tells types is in every library.** It asks for one value, and does not miss it
if there is none. -/
theorem Reachable.exists_typeOf (hw : w.Reachable) :
    ∃ native ∈ w.natives, w.native? (.ofString "type-of") = some native ∧
      Stocks native Library.typeOf ∧ native.table.AsksValue ∧
      ∀ cell, native.table.Furnished cell := by
  obtain ⟨-, hfound, hasks⟩ := fresh_named
  obtain ⟨label, hlabel, hindex⟩ := Option.bind_eq_some_iff.mp hfound
  replace hlabel := (Leads.retains .refl hw).names.find? hlabel
  rw [← hw.natives] at hindex hasks
  cases hnative : w.natives[4]? with
  | none =>
    rw [hnative] at hasks
    cases hasks
  | some native =>
    rw [hnative] at hasks
    obtain ⟨hpositional, htakes, hmissing⟩ := of_decide_eq_true hasks
    exact ⟨native, List.mem_of_getElem? hnative, (native?_eq hlabel hindex).trans hnative,
      hw.stocks hnative rfl, Table.asksValue_of hpositional htakes,
      Table.furnished_of_empty hmissing⟩

/-- **A value is told to be of its precise datatype.** -/
theorem Reachable.typeOf_call (hw : w.Reachable) :
    ∃ native, w.native? (.ofString "type-of") = some native ∧
      ∀ value, w.call native [value] [] = .ok (.datatype value.typeOf) := by
  obtain ⟨native, hmem, hfound, hstock, hasks, hfull⟩ := hw.exists_typeOf
  refine ⟨native, hfound, fun value => ?_⟩
  obtain ⟨frame, slot, hfulfil, hbuilt, hfind, hcell⟩ := hasks.fulfil value
  have hanswers := hw.library_answers hmem hstock (.self .refl) hbuilt (hfull frame.cell)
  have hargument : w.argument frame "value" = some value := by
    rw [hw.argument_value (hbuilt.table ▸ hfind), hcell]
  unfold Workshop.call ActionKit.call
  rw [hfulfil]
  exact hanswers.typeOf_eq rfl hargument

/-- **Typecheckers agree with constraints.** A typechecker can be made for every datatype and every
typeset. Whatever is derived from it never fails, and answers whether the constraint of that type
accepts what the frame holds as the value, `none` where it holds nothing. The typechecker for the
type that a value is told to be of finds that it is. -/
theorem checkers_agree (hw : w.Reachable) :
    (∀ term : TypeTerm, ∃ checker w₁, w.makeChecker term.toValue = (.ok checker, w₁) ∧
      ∀ made action w₂, w₁.Descends checker made action w₂ →
        ∀ frame : Frame, frame.Built action → ∃ value,
          w₂.argument frame "value" = some value ∧
          w₂.invoke frame = .ok (.logic (term.constraint.accepts value))) ∧
    ∃ typeOf, w.native? (.ofString "type-of") = some typeOf ∧
      ∀ value, ∃ descriptor checker w₁, w.call typeOf [value] [] = .ok descriptor ∧
        w.makeChecker descriptor = (.ok checker, w₁) ∧
        ∀ w₂, w₁.Leads w₂ → w₂.call checker [value] [] = .ok (.logic true) := by
  have hmade : ∀ term : TypeTerm, ∃ face w₁, face.table = w.checkerTable ∧
      w.makeChecker term.toValue = (.ok (.checker face term), w₁) ∧ w₁.Reachable ∧
      .checker face term ∈ w₁.actions := by
    intro term
    have hmake := w.makeChecker_of_term term
    have hstep := Step.makeChecker w term.toValue
    rw [hmake] at hstep
    exact ⟨_, _, rfl, hmake, hw.leads (.single hstep), List.mem_append_right _ List.mem_cons_self⟩
  refine ⟨fun term => ?_, ?_⟩
  · obtain ⟨face, w₁, -, hmake, hw₁, own⟩ := hmade term
    refine ⟨_, w₁, hmake, fun made action w₂ hdescends frame hf => ?_⟩
    obtain ⟨slot, hfind, hinvoke⟩ := hw₁.checker_answers own hdescends hf
    have hw₂ := hw₁.leads (hdescends.leads hw₁.sound own)
    exact ⟨_, hw₂.argument_value (hf.table ▸ hfind), hinvoke⟩
  · obtain ⟨native, hfound, hcall⟩ := hw.typeOf_call
    refine ⟨native, hfound, fun value => ?_⟩
    obtain ⟨face, w₁, htable, hmake, hw₁, own⟩ := hmade (.datatype value.typeOf)
    refine ⟨_, _, w₁, hcall value, hmake, fun w₂ hleads => ?_⟩
    have hasks : (Action.checker face (.datatype value.typeOf)).table.AsksValue :=
      (show face.table.AsksValue from htable ▸ hw.checker_asks)
    obtain ⟨frame, slot, hfulfil, hbuilt, hfind, hcell⟩ := hasks.fulfil value
    obtain ⟨slot', hfind', hinvoke⟩ := hw₁.checker_answers own (.self hleads) hbuilt
    obtain rfl := Option.some.inj (hfind.symm.trans hfind')
    unfold Workshop.call ActionKit.call
    rw [hfulfil]
    show w₂.invoke frame = _
    rw [hinvoke, hcell, TypeTerm.accepts_constraint, TypeTerm.admits, Value.isType_typeOf]

theorem category_checked :
    (match fresh.makeChecker (TypeTerm.datatype (.category ⟨0, ⟨99⟩⟩)).toValue with
    | (.ok checker, w) =>
      match w.augment checker [.word ⟨98⟩] none with
      | (.ok action, w) =>
        match (Frame.new action).set .value (.custom ⟨1, ⟨99⟩⟩ .none) with
        | .ok frame => some (w.argument frame "value", (w.invoke frame).toOption)
        | .error _ => none
      | (.error _, _) => none
    | (.error _, _) => none) =
      some (some (.custom ⟨1, ⟨99⟩⟩ .none), some (.logic false)) := by
  decide +kernel

/-- An augmented typechecker for an open category, and a value of another category. -/
theorem checkers_agree_category : ∃ (checker action typeOf : Action) (w₁ w₂ : Workshop)
    (frame : Frame), w₁.Descends checker [checker, action] action w₂ ∧ frame.Built action ∧
      w₂.argument frame "value" = some (.custom ⟨1, ⟨99⟩⟩ .none) ∧
      w₂.invoke frame = .ok (.logic false) ∧
      fresh.native? (.ofString "type-of") = some typeOf ∧
      ∃ descriptor, fresh.call typeOf [.custom ⟨1, ⟨99⟩⟩ .none] [] = .ok descriptor := by
  have hfresh : fresh.Reachable := .refl
  obtain ⟨hcheckers, typeOf, hfound, htold⟩ := checkers_agree hfresh
  obtain ⟨checker, w₁, hmake, hagree⟩ := hcheckers (.datatype (.category ⟨0, ⟨99⟩⟩))
  obtain ⟨descriptor, -, -, hdescriptor, -, -⟩ := htold (.custom ⟨1, ⟨99⟩⟩ .none)
  have hmatch := category_checked
  rw [hmake] at hmatch
  simp only at hmatch
  split at hmatch
  · next action w₂ haction =>
    split at hmatch
    · next frame hset =>
      obtain ⟨hargument, hresult⟩ := Prod.mk.inj (Option.some.inj hmatch)
      have hself : w₁.Descends checker [checker] checker w₁ := .self .refl
      have hdescends := hself.step (.augment _ _ haction) .refl
      have hbuilt : frame.Built action := .set .new hset
      obtain ⟨value, hvalue, hinvoke⟩ := hagree _ action w₂ hdescends frame hbuilt
      refine ⟨checker, action, typeOf, w₁, w₂, frame, hdescends, hbuilt, hargument, ?_, hfound,
        descriptor, hdescriptor⟩
      rw [hinvoke] at hresult ⊢
      exact congrArg Except.ok (Option.some.inj hresult)
    · cases hmatch
  · cases hmatch

end Workshop

end ActionKit
