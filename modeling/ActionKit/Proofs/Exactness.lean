import ActionKit.Proofs.Forest
import ActionKit.Proofs.Registration
import Mathlib.Algebra.Group.Int.Defs
import Mathlib.Algebra.Group.Nat.Defs

/-!
# What the library answers

The natives of the library answer exactly: integers that do not fit are reported and never wrapped,
texts are joined byte by byte, and lengths and datatypes are those of the arguments. This is said of
the arguments by name, as the frame of any action that descends from a native holds them, so that it
rests on every derivation keeping the parameters at their slots.

* `Workshop.argument`: the value that a frame holds for the parameter of a name.
* `Library.Precise`: the precise datatype of each form of value.
* `Library.Answers`: what a native of the library has to answer to its arguments.
* `Library.outlines`: the names of the parameters of each native, and the kind of its results.
* `Library.Exact`: a native that answers as it has to.

Results:
* `Descends.origin`: an action comes from what the action that it descends from comes from.
* `all_exact`: the natives of the library answer as they have to, with results of their kind.
* `Reachable.outlined`: the library has the parameters that the outlines say, wherever operations
  lead.
* `library_exact`: **the results of the library are exact through every derivation**.
-/

namespace ActionKit

/-! ## Arguments and results -/

/-- A result of the kind that an output declares passes the check. -/
theorem checkResult_of_kind {table : Table} {kind : Kind}
    (houtput : table.output?.bind (·.types?) = some (.ofTypeset (.ofKinds [kind])))
    {value : Value} (hkind : value.kind = kind) : checkResult table value = .ok value := by
  have haccepts : (Constraint.ofTypeset (.ofKinds [kind])).accepts value = true := by
    have hcontains : (Typeset.ofKinds [kind]).contains value.kind = true :=
      Typeset.contains_ofKinds.mpr (List.mem_singleton.mpr hkind)
    rwa [Constraint.accepts_ofTypeset]
  unfold checkResult
  rw [houtput]
  exact if_pos haccepts

theorem Table.find?_of_mem_arguments {table : Table} (hwf : table.WellFormed)
    {param : Entry × Nat} (h : param ∈ table.arguments) :
    table.find? param.1.name = some param.2 := by
  obtain ⟨h0, he⟩ := Table.mem_params.mp (List.mem_filter.mp h).1
  exact hwf.find_iff.mpr ⟨Nat.one_le_iff_ne_zero.mpr h0, param.1, he, rfl⟩

/-! ## What the library has to answer -/

namespace Library

/-- Whether an integer is one of the values that sixty-four bits can hold. -/
def Representable (n : Int) : Prop := -2 ^ 63 ≤ n ∧ n < 2 ^ 63

/-- **The precise datatype of a value**: its own category, if it is of an open one, and otherwise
the kind of its form. -/
inductive Precise : Value → Datatype → Prop
  | none : Precise .none (.builtin .none)
  | logic (truth : Bool) : Precise (.logic truth) (.builtin .logic)
  | integer (number : Int64) : Precise (.integer number) (.builtin .integer)
  | text (bytes : Bytes) : Precise (.text bytes) (.builtin .text)
  | block (items : List Value) : Precise (.block items) (.builtin .block)
  | word (name : Symbol) : Precise (.word name) (.builtin .word)
  | setWord (name : Symbol) : Precise (.setWord name) (.builtin .setWord)
  | refinement (name : Symbol) : Precise (.refinement name) (.builtin .refinement)
  | datatype (datatype : Datatype) : Precise (.datatype datatype) (.builtin .datatype)
  | typeset (typeset : Typeset) : Precise (.typeset typeset) (.builtin .typeset)
  | action (id : ActionId) : Precise (.action id) (.builtin .action)
  | custom (category : Category) (payload : Value) :
      Precise (.custom category payload) (.category category)

/-- **Every value is told to be of its precise datatype**, and of no other. -/
theorem precise_iff {value : Value} {datatype : Datatype} :
    Precise value datatype ↔ value.typeOf = datatype := by
  constructor
  · intro h
    cases h <;> rfl
  · rintro rfl
    cases value <;> constructor

/-- **What a native of the library has to answer to its arguments.** Sums and negations are those of
integers, and reported where they are not representable. A delimiter that is not given is none. The
length of what is too long to be counted is left open. -/
inductive Answers (argument : String → Option Value) : Native → Except CallError Value → Prop
  | sum {a b n : Int64} (left : argument "a" = some (.integer a))
      (right : argument "b" = some (.integer b)) (result : n.toInt = a.toInt + b.toInt) :
      Answers argument add (.ok (.integer n))
  | sumOverflow {a b : Int64} (left : argument "a" = some (.integer a))
      (right : argument "b" = some (.integer b))
      (overflow : ¬ Representable (a.toInt + b.toInt)) :
      Answers argument add (.error (.native "add" "integer overflow"))
  | negation {m n : Int64} (number : argument "number" = some (.integer m))
      (result : n.toInt = -m.toInt) : Answers argument negate (.ok (.integer n))
  | negationOverflow {m : Int64} (number : argument "number" = some (.integer m))
      (overflow : ¬ Representable (-m.toInt)) :
      Answers argument negate (.error (.native "negate" "integer overflow"))
  | joined {head tail : Bytes} (first : argument "head" = some (.text head))
      (last : argument "tail" = some (.text tail)) (plain : argument "with" = some .none) :
      Answers argument join (.ok (.text (head ++ tail)))
  | joinedWith {head delimiter tail : Bytes} (first : argument "head" = some (.text head))
      (last : argument "tail" = some (.text tail))
      (between : argument "with" = some (.text delimiter)) :
      Answers argument join (.ok (.text (head ++ delimiter ++ tail)))
  | byteCount {bytes : Bytes} {n : Int64} (series : argument "series" = some (.text bytes))
      (count : bytes.length < 2 ^ 63 → n.toInt = bytes.length) :
      Answers argument length (.ok (.integer n))
  | itemCount {items : List Value} {n : Int64} (series : argument "series" = some (.block items))
      (count : items.length < 2 ^ 63 → n.toInt = items.length) :
      Answers argument length (.ok (.integer n))
  | precise {value : Value} {datatype : Datatype} (given : argument "value" = some value)
      (told : Precise value datatype) : Answers argument typeOf (.ok (.datatype datatype))

/-- The only failures are integers that are not representable. -/
theorem Answers.overflow {argument : String → Option Value} {function : Native} {error : CallError}
    (h : Answers argument function (.error error)) :
    ∃ name, error = .native name "integer overflow" := by
  cases h with
  | sumOverflow => exact ⟨"add", rfl⟩
  | negationOverflow => exact ⟨"negate", rfl⟩

/-- The names of the parameters of the natives in `all`, and the kinds of their results. -/
def outlines : List (List String × Kind) :=
  [(["a", "b"], .integer), (["head", "tail", "with"], .text), (["series"], .integer),
    (["number"], .integer), (["value"], .datatype)]

/-- **A native that answers as it has to** if its arguments are as declared. Its results are of one
kind. -/
def Exact (function : Native) (contents : List Content) (outline : List String × Kind) : Prop :=
  ∀ (call : Call) (argument : String → Option Value),
    List.Forall₂ Content.Takes contents call.args →
    outline.1.map argument = call.args.map some →
    Answers argument function (function.run call) ∧
      ∀ value, function.run call = .ok value → value.kind = outline.2

/-- An integer is a result exactly if it is representable. -/
theorem exact_cases (name : String) (n : Int) :
    (∃ word : Int64, word.toInt = n ∧ exact name n = .ok (.integer word)) ∨
      ¬ Representable n ∧ exact name n = .error (.native name "integer overflow") := by
  unfold exact
  cases hword : Integer.ofInt? n with
  | some word => exact .inl ⟨word, (Integer.ofInt?_eq_some_iff.mp hword).symm, rfl⟩
  | none =>
    refine .inr ⟨fun hrange => ?_, rfl⟩
    have hfits : Integer.fits n = true := by
      rw [Integer.fits_iff, Int64.toInt_minValue, Int64.toInt_maxValue]
      obtain ⟨hlow, hhigh⟩ := hrange
      omega
    unfold Integer.ofInt? at hword
    rw [if_pos hfits] at hword
    cases hword

theorem add_exact : Exact add [.ofKinds .normal [.integer], .ofKinds .normal [.integer]]
    (["a", "b"], .integer) := by
  intro call argument htakes hnames
  obtain ⟨a, b, hargs⟩ := add_args htakes
  have hrun : add.run call = exact "add" (a.toInt + b.toInt) := by
    unfold add
    simp only [hargs]
  obtain ⟨hleft, hright⟩ : argument "a" = some (.integer a) ∧ argument "b" = some (.integer b) := by
    simpa [hargs] using hnames
  rcases exact_cases "add" (a.toInt + b.toInt) with ⟨n, hn, heq⟩ | ⟨hover, heq⟩
  · rw [hrun, heq]
    exact ⟨.sum hleft hright hn, by rintro _ ⟨⟩; rfl⟩
  · rw [hrun, heq]
    exact ⟨.sumOverflow hleft hright hover, nofun⟩

theorem negate_exact : Exact negate [.ofKinds .normal [.integer]] (["number"], .integer) := by
  intro call argument htakes hnames
  obtain ⟨m, hargs⟩ := negate_args htakes
  have hrun : negate.run call = exact "negate" (-m.toInt) := by
    unfold negate
    simp only [hargs]
  have hnumber : argument "number" = some (.integer m) := by simpa [hargs] using hnames
  rcases exact_cases "negate" (-m.toInt) with ⟨n, hn, heq⟩ | ⟨hover, heq⟩
  · rw [hrun, heq]
    exact ⟨.negation hnumber hn, by rintro _ ⟨⟩; rfl⟩
  · rw [hrun, heq]
    exact ⟨.negationOverflow hnumber hover, nofun⟩

theorem join_exact : Exact join
    [.ofKinds .normal [.text], .ofKinds .normal [.text], .ofKinds .refinement [.text]]
    (["head", "tail", "with"], .text) := by
  intro call argument htakes hnames
  obtain ⟨head, tail, hargs | ⟨delimiter, hargs⟩⟩ := join_args htakes
  · have hrun : join.run call = .ok (.text (head ++ tail)) := by
      unfold join
      simp only [hargs]
    obtain ⟨hhead, htail, hplain⟩ : argument "head" = some (.text head) ∧
        argument "tail" = some (.text tail) ∧ argument "with" = some .none := by
      simpa [hargs] using hnames
    rw [hrun]
    exact ⟨.joined hhead htail hplain, by rintro _ ⟨⟩; rfl⟩
  · have hrun : join.run call = .ok (.text (head ++ delimiter ++ tail)) := by
      unfold join
      simp only [hargs]
    obtain ⟨hhead, htail, hbetween⟩ : argument "head" = some (.text head) ∧
        argument "tail" = some (.text tail) ∧ argument "with" = some (.text delimiter) := by
      simpa [hargs] using hnames
    rw [hrun]
    exact ⟨.joinedWith hhead htail hbetween, by rintro _ ⟨⟩; rfl⟩

theorem length_exact : Exact length [.ofKinds .normal [.text, .block]] (["series"], .integer) := by
  intro call argument htakes hnames
  have hcount : ∀ n : Nat, n < 2 ^ 63 → (Int64.ofNat n).toInt = n :=
    fun n hlt => Int64.toInt_ofNat_of_lt hlt
  rcases length_args htakes with ⟨bytes, hargs⟩ | ⟨items, hargs⟩
  · have hrun : length.run call = .ok (.integer (Int64.ofNat bytes.length)) := by
      unfold length
      simp only [hargs]
    have hseries : argument "series" = some (.text bytes) := by simpa [hargs] using hnames
    rw [hrun]
    exact ⟨.byteCount hseries (hcount _), by rintro _ ⟨⟩; rfl⟩
  · have hrun : length.run call = .ok (.integer (Int64.ofNat items.length)) := by
      unfold length
      simp only [hargs]
    have hseries : argument "series" = some (.block items) := by simpa [hargs] using hnames
    rw [hrun]
    exact ⟨.itemCount hseries (hcount _), by rintro _ ⟨⟩; rfl⟩

theorem typeOf_exact : Exact typeOf [.ofKinds .normal Kind.all] (["value"], .datatype) := by
  intro call argument htakes hnames
  obtain ⟨value, -, hargs⟩ := takes_one htakes
  have hrun : typeOf.run call = .ok (.datatype value.typeOf) := by
    unfold typeOf
    simp only [hargs]
  have hgiven : argument "value" = some value := by simpa [hargs] using hnames
  rw [hrun]
  exact ⟨.precise hgiven (precise_iff.mpr rfl), by rintro _ ⟨⟩; rfl⟩

/-- **The natives of the library answer as they have to.** -/
theorem all_exact :
    List.Forall₂ (fun function declared => Exact function declared.1 declared.2) all
      (inputs.zip outlines) :=
  .cons add_exact (.cons join_exact (.cons length_exact
    (.cons negate_exact (.cons typeOf_exact .nil))))

end Library

theorem Action.origin_of_source? {action source : Action} (h : action.source? = some source) :
    action.origin = source.origin := by
  cases action with
  | native => cases h
  | checker => cases h
  | derived =>
    obtain rfl := Option.some.inj h
    rfl

/-- Three lists that go together, item by item. -/
theorem exists_of_forall₂₃ {α β γ : Type} {R : α → β → Prop} {S : β → γ → Prop} {T : α → γ → Prop}
    {as : List α} {bs : List β} {cs : List γ} (hR : List.Forall₂ R as bs)
    (hS : List.Forall₂ S bs cs) (hT : List.Forall₂ T as cs) {a : α} (ha : a ∈ as) :
    ∃ b c, R a b ∧ S b c ∧ T a c := by
  induction hR generalizing cs with
  | nil => exact absurd ha List.not_mem_nil
  | cons hfirst _ ih =>
    obtain ⟨c, rest, hc, hrest, rfl⟩ := List.forall₂_cons_left_iff.mp hS
    obtain ⟨hhead, htail⟩ := List.forall₂_cons.mp hT
    rcases List.mem_cons.mp ha with rfl | ha
    · exact ⟨_, c, hfirst, hc, hhead⟩
    · exact ih hrest htail ha

namespace Workshop

variable {w w' : Workshop}

/-! ## Descendants of the library -/

/-- **An action comes from what the action that it descends from comes from.** -/
theorem Descends.origin {source descendant : Action} {made : List Action} (hw : w.Sound)
    (own : source ∈ w.actions) (h : w.Descends source made descendant w') :
    descendant.origin = source.origin := by
  induction h with
  | self leads => rfl
  | step descends derives leads ih =>
    obtain ⟨hsound, hmem, -⟩ := descends.mem hw own
    obtain ⟨hsource, -, -⟩ := derives.links (hsound.wellFormed hmem)
    exact (Action.origin_of_source? hsource).trans ih

theorem Descends.leads {source descendant : Action} {made : List Action} (hw : w.Sound)
    (own : source ∈ w.actions) (h : w.Descends source made descendant w') : w.Leads w' := by
  induction h with
  | self leads => exact leads
  | step descends derives leads ih =>
    obtain ⟨-, hmem, -⟩ := descends.mem hw own
    exact (ih.trans (derives.leads hmem)).trans leads

/-- The value that a frame holds for the parameter of a name, if there is one. -/
def argument (w : Workshop) (frame : Frame) (name : String) : Option Value :=
  (w.names.find? (.ofString name)).bind fun symbol =>
    (frame.table.find? symbol).map frame.cell

/-- A table has the parameters and the output that an outline says. -/
structure Outlined (w : Workshop) (table : Table) (contents : List Content)
    (outline : List String × Kind) : Prop where
  contents : table.arguments.map (·.1.content) = contents
  names : outline.1.map (fun name => w.names.find? (.ofString name)) =
    table.arguments.map fun param => some param.1.name
  output : table.output?.bind (·.types?) = some (.ofTypeset (.ofKinds [outline.2]))

theorem Outlined.retained {table : Table} {contents : List Content} {outline : List String × Kind}
    (h : w.Outlined table contents outline) (hnames : w.names.Grows w'.names) :
    w'.Outlined table contents outline where
  contents := h.contents
  names := by
    rw [← h.names]
    refine List.map_congr_left fun name hname => ?_
    have hmem := List.mem_map_of_mem (f := fun name => w.names.find? (.ofString name)) hname
    rw [h.names] at hmem
    obtain ⟨param, -, hparam⟩ := List.mem_map.mp hmem
    exact (hnames.find? hparam.symm).trans hparam
  output := h.output

theorem fresh_outlines :
    fresh.natives.map (fun native => (native.table.arguments.map (·.1.content),
        native.table.arguments.map (fun param => some param.1.name),
        native.table.output?.bind (·.types?))) =
      (Library.inputs.zip Library.outlines).map fun declared => (declared.1,
        declared.2.1.map (fun name => fresh.names.find? (.ofString name)),
        some (.ofTypeset (.ofKinds [declared.2.2]))) := by
  decide +kernel

/-- **The library has the parameters that the outlines say**, wherever operations lead. -/
theorem Reachable.outlined (hw : w.Reachable) :
    List.Forall₂ (fun native declared => w.Outlined native.table declared.1 declared.2) w.natives
      (Library.inputs.zip Library.outlines) := by
  have hnames : fresh.names.Grows w.names := (Leads.retains .refl hw).names
  have hfresh := fresh_outlines
  rw [hw.natives]
  rw [← List.forall₂_eq_eq_eq, List.forall₂_map_left_iff, List.forall₂_map_right_iff] at hfresh
  refine hfresh.imp fun native declared h => Outlined.retained ?_ hnames
  obtain ⟨hcontents, hrest⟩ := Prod.mk.inj h
  obtain ⟨hparams, houtput⟩ := Prod.mk.inj hrest
  exact ⟨hcontents, hparams.symm, houtput⟩

/-- **The arguments of a native are those that a frame has by name**, if the parameters of the
native are at the same slots in the table of the frame. -/
theorem Outlined.arguments_eq {table : Table} {contents : List Content}
    {outline : List String × Kind} (h : w.Outlined table contents outline)
    (hwf : table.WellFormed) {action : Action} (hnarrows : table.Narrows action.table)
    (hwf' : action.table.WellFormed) {frame : Frame} (hf : frame.Built action) :
    outline.1.map (w.argument frame) =
      table.arguments.map fun param => some (frame.cell param.2) := by
  have hsymbols : outline.1.map (w.argument frame) =
      (outline.1.map fun name => w.names.find? (.ofString name)).map
        (·.bind fun symbol => (frame.table.find? symbol).map frame.cell) := by
    rw [List.map_map]
    rfl
  rw [hsymbols, h.names, List.map_map]
  refine List.map_congr_left fun param hparam => ?_
  have hfind := hnarrows.find? hwf' (Table.find?_of_mem_arguments hwf hparam)
  rw [Function.comp_apply, Option.bind_some, hf.table, hfind]
  rfl

/-- **A run comes to the native that an action comes from**, which is given the cells of the frame
as its own table declares them. -/
theorem Sound.invoke_native (hw : w.Sound) {action : Action} (ha : action ∈ w.actions)
    {face : Face} {function : Native} {binding : Binding}
    (horigin : action.origin = .native face function binding) {frame : Frame}
    (hf : frame.Built action) (hfull : face.table.Furnished frame.cell) :
    face.table.Supplied frame.cell ∧
      w.invoke frame =
        function.run (frame.handed w.lineage face binding) >>= checkResult face.table := by
  have hbehind : frame.root.phase.origin = .native face function binding := by
    rw [hf.root, action.origin_root, horigin]
  have hsupplied := hw.supplied ha ha hf (Lineage.compatible_self _ _) horigin hfull
  exact ⟨hsupplied, (hw.concludes (.invoke ha hf)).called face function binding hbehind hsupplied⟩

/-- **A native of the library answers the frames of its descendants as it has to**, if nothing that
it requires is missing. -/
theorem Reachable.library_answers (hw : w.Reachable) {native action : Action} {function : Native}
    (hnative : native ∈ w.natives) (hstock : Stocks native function) {made : List Action}
    (hdescends : w.Descends native made action w') {frame : Frame} (hf : frame.Built action)
    (hfull : native.table.Furnished frame.cell) :
    Library.Answers (w'.argument frame) function (w'.invoke frame) := by
  have own := hw.native_mem hnative
  have hw' : w'.Reachable := hw.leads (hdescends.leads hw.sound own)
  have hstocks : List.Forall₂ Stocks w'.natives Library.all := hw'.natives ▸ fresh_stock.1
  rw [hw.natives, ← hw'.natives] at hnative
  obtain ⟨other, declared, ⟨_, hother⟩, hexact, houtlined⟩ :=
    exists_of_forall₂₃ hstocks Library.all_exact hw'.outlined hnative
  obtain ⟨face, rfl⟩ := hstock
  obtain ⟨-, rfl, -⟩ := Action.native.inj hother
  replace houtlined : w'.Outlined face.table declared.1 declared.2 := houtlined
  obtain ⟨-, hmem, -⟩ := hdescends.mem hw.sound own
  have horigin : action.origin = .native face function .unbound := hdescends.origin hw.sound own
  have hnarrows := hw'.sound.origin_narrows hmem
  rw [horigin] at hnarrows
  obtain ⟨hsupplied, hinvoke⟩ := hw'.sound.invoke_native hmem horigin hf hfull
  have htakes := hsupplied.takes w'.lineage .unbound
  rw [houtlined.contents] at htakes
  have hnames : declared.2.1.map (w'.argument frame) =
      (frame.handed w'.lineage face .unbound).args.map some := by
    rw [houtlined.arguments_eq (hw'.sound.wellFormed (hw'.native_mem hnative)) hnarrows
      (hw'.sound.wellFormed hmem) hf, frame.args_handed, List.map_map]
    rfl
  obtain ⟨hanswers, hkind⟩ := hexact _ (w'.argument frame) htakes hnames
  -- What the native answers is of the kind that its output declares.
  have hresult :
      w'.invoke frame = function.run (frame.handed w'.lineage face .unbound) := by
    rw [hinvoke]
    cases hrun : function.run (frame.handed w'.lineage face .unbound) with
    | error error => rfl
    | ok value => exact checkResult_of_kind houtlined.output (hkind value hrun)
  rw [hresult]
  exact hanswers

/-- **The results of the library are exact through every derivation.** Nothing is missing, no result
is of a wrong type, and no frame is out of place. -/
theorem library_exact (hw : w.Reachable) {native action : Action} {function : Native}
    (hnative : native ∈ w.natives) (hstock : Stocks native function) {made : List Action}
    (hdescends : w.Descends native made action w') {frame : Frame} (hf : frame.Built action)
    (hfull : native.table.Furnished frame.cell) :
    Library.Answers (w'.argument frame) function (w'.invoke frame) ∧
      (∀ name, w'.invoke frame ≠ .error (.missingArgument name)) ∧
      (∀ value types, w'.invoke frame ≠ .error (.resultMismatch value types)) ∧
      ∀ label, w'.invoke frame ≠ .error (.incompatibleFrame label) := by
  have hanswers := hw.library_answers hnative hstock hdescends hf hfull
  have hfailure : ∀ error, w'.invoke frame = .error error →
      ∃ name, error = .native name "integer overflow" := by
    intro error herror
    rw [herror] at hanswers
    exact hanswers.overflow
  refine ⟨hanswers, fun name h => ?_, fun value types h => ?_, fun label h => ?_⟩
  · obtain ⟨_, heq⟩ := hfailure _ h
    cases heq
  · obtain ⟨_, heq⟩ := hfailure _ h
    cases heq
  · obtain ⟨_, heq⟩ := hfailure _ h
    cases heq

theorem add_chain_made : (fresh.trial 0 fun made add =>
    match made.specialize add [(⟨4⟩, .integer Int64.maxValue)] with
    | (.ok fixed, w) =>
      match w.augment fixed [.word ⟨98⟩] none with
      | (.ok action, w) =>
        match (Frame.new action).set ⟨3⟩ (.integer 1) with
        | .ok frame => some (missing? add.table frame.cell,
            decide (w.invoke frame = .error (.native "add" "integer overflow")))
        | .error _ => none
      | (.error _, _) => none
    | (.error _, _) => none) = some (none, true) := by
  decide +kernel

/-- Addition with its second number fixed to the largest one there is, and one parameter more. -/
theorem library_exact_add : ∃ (w : Workshop) (add fixed action : Action) (frame : Frame),
    add ∈ fresh.natives ∧ fresh.Descends add [add, fixed, action] action w ∧ frame.Built action ∧
      Library.Answers (w.argument frame) Library.add (w.invoke frame) ∧
      w.invoke frame = .error (.native "add" "integer overflow") := by
  obtain ⟨made, hmade, hfresh, face, hmem, hmatch⟩ :=
    exists_native_of_trial (show Library.all[0]? = some Library.add from rfl) add_chain_made
  rw [← hmade]
  split at hmatch
  · next fixed w₁ hfixed =>
    split at hmatch
    · next action w₂ haction =>
      split at hmatch
      · next frame hset =>
        obtain ⟨hmissing, hoverflow⟩ := Prod.mk.inj (Option.some.inj hmatch)
        have hself : made.Descends _ [.native face Library.add .unbound] _ made := .self .refl
        have hdescends :=
          (hself.step (.specialize _ hfixed) .refl).step (.augment _ _ haction) .refl
        have hbuilt : frame.Built action := .set .new hset
        exact ⟨w₂, _, fixed, action, frame, hmem, hdescends, hbuilt,
          (library_exact hfresh hmem ⟨face, rfl⟩ hdescends hbuilt
            (missing?_eq_none_iff.mp hmissing)).1, of_decide_eq_true hoverflow⟩
      · cases hmatch
    · cases hmatch
  · cases hmatch

end Workshop

end ActionKit
