import ActionKit.CommandLine.Run
import Mathlib.Algebra.Ring.Parity
import Mathlib.Data.List.DropRight

/-!
# Splitting the arguments of a call

Positional and named arguments are written in one list, a named one as a refinement followed by its
value. The value may be a refinement itself, so whether a refinement is a name shows only from the
left. Splitting loses nothing all the same: a list is written in one way at most, and what is not
written so ends in a refinement that still waits for its value.

* `Interleaves`, `Arguments.WrittenAs`: two lists of arguments, written as one.
* `leftover`: the refinement that is left waiting when arguments are taken from left to right.

Results:
* `splitArguments_eq_some_iff`: splitting undoes writing, and answers with nothing else.
* `splitArguments_eq_none_iff`: there is no answer where a refinement is left waiting.
* `isSome_leftover_iff`: for that only the refinements at the end count, and only how many they are.
* `splitArguments_lossless`: **arguments are split without loss**.
-/

namespace ActionKit

theorem Value.kind_eq_refinement_iff {value : Value} :
    value.kind = .refinement ↔ ∃ name, value = .refinement name := by
  cases value <;> simp [kind]

namespace CommandLine

/-- **Positional and named arguments, written as one list.** Both keep their order, and a named one
is written as the refinement followed by the value. -/
inductive Interleaves : List Value → List (Symbol × Value) → List Value → Prop
  | nil : Interleaves [] [] []
  | positional {positional : List Value} {named : List (Symbol × Value)} {arguments : List Value}
      (value : Value) (rest : Interleaves positional named arguments) :
      Interleaves (value :: positional) named (value :: arguments)
  | named {positional : List Value} {named : List (Symbol × Value)} {arguments : List Value}
      (name : Symbol) (value : Value) (rest : Interleaves positional named arguments) :
      Interleaves positional ((name, value) :: named) (.refinement name :: value :: arguments)

/-- **Arguments that a list can be read as.** No positional one is a refinement, since that would be
taken for a name. -/
structure Arguments.WrittenAs (split : Arguments) (arguments : List Value) : Prop where
  plain : ∀ value ∈ split.positional, value.kind ≠ .refinement
  interleaved : Interleaves split.positional split.named arguments

/-- The refinement that waits for its value, after one more argument. -/
def await : Option Symbol → Value → Option Symbol
  | none, .refinement name => some name
  | _, _ => none

/-- **The refinement that is left without a value** when arguments are taken from left to right. -/
def leftover (arguments : List Value) : Option Symbol := arguments.foldl await none

variable {arguments : List Value}

/-- Induction along arguments as they are taken from the left. -/
theorem arguments_induction {motive : List Value → Prop} (nil : motive [])
    (lone : ∀ name, motive [.refinement name])
    (named : ∀ name value rest, motive rest → motive (.refinement name :: value :: rest))
    (positional : ∀ value rest, value.kind ≠ .refinement → motive rest → motive (value :: rest))
    (arguments : List Value) : motive arguments := by
  fun_induction splitArguments arguments with
  | case1 => exact nil
  | case2 name => exact lone name
  | case3 name value rest ih => exact named name value rest ih
  | case4 value rest hlone hpair ih =>
    refine positional value rest (fun hkind => ?_) ih
    obtain ⟨name, rfl⟩ := Value.kind_eq_refinement_iff.mp hkind
    cases rest with
    | nil => exact hlone name rfl rfl
    | cons next rest => exact hpair name next rest rfl rfl

/-! ## Splitting undoes writing -/

theorem splitArguments_named (name : Symbol) (value : Value) (rest : List Value) :
    splitArguments (.refinement name :: value :: rest) =
      (splitArguments rest).map fun split =>
        { split with named := (name, value) :: split.named } := by
  rw [splitArguments]

theorem splitArguments_positional {value : Value} (h : value.kind ≠ .refinement)
    (rest : List Value) : splitArguments (value :: rest) =
      (splitArguments rest).map fun split =>
        { split with positional := value :: split.positional } := by
  cases value <;> first | rfl | exact absurd rfl h

/-- What was written is what splitting answers. -/
theorem splitArguments_of_interleaves {positional : List Value} {named : List (Symbol × Value)}
    (h : Interleaves positional named arguments)
    (plain : ∀ value ∈ positional, value.kind ≠ .refinement) :
    splitArguments arguments = some ⟨positional, named⟩ := by
  induction h with
  | nil => rfl
  | positional value rest ih =>
    obtain ⟨hvalue, hrest⟩ := List.forall_mem_cons.mp plain
    rw [splitArguments_positional hvalue, ih hrest, Option.map_some]
  | named name value rest ih => rw [splitArguments_named, ih plain, Option.map_some]

/-- What splitting answers was written. -/
theorem writtenAs_of_splitArguments {split : Arguments}
    (h : splitArguments arguments = some split) : split.WrittenAs arguments := by
  induction arguments using arguments_induction generalizing split with
  | nil =>
    obtain rfl := Option.some.inj h
    exact ⟨fun _ hvalue => absurd hvalue List.not_mem_nil, .nil⟩
  | lone name => cases h
  | named name value rest ih =>
    rw [splitArguments_named] at h
    obtain ⟨others, hrest, rfl⟩ := Option.map_eq_some_iff.mp h
    exact ⟨(ih hrest).plain, .named name value (ih hrest).interleaved⟩
  | positional value rest hvalue ih =>
    rw [splitArguments_positional hvalue] at h
    obtain ⟨others, hrest, rfl⟩ := Option.map_eq_some_iff.mp h
    exact ⟨List.forall_mem_cons.mpr ⟨hvalue, (ih hrest).plain⟩,
      .positional value (ih hrest).interleaved⟩

/-- **Splitting undoes writing**, and answers with nothing else. -/
theorem splitArguments_eq_some_iff {split : Arguments} :
    splitArguments arguments = some split ↔ split.WrittenAs arguments :=
  ⟨writtenAs_of_splitArguments, fun h => splitArguments_of_interleaves h.interleaved h.plain⟩

/-! ## Refinements without a value -/

theorem await_of_ne {value : Value} (h : value.kind ≠ .refinement) (waiting : Option Symbol) :
    await waiting value = none := by
  cases waiting <;> cases value <;> first | rfl | exact absurd rfl h

theorem await_eq_some_iff {waiting : Option Symbol} {value : Value} {name : Symbol} :
    await waiting value = some name ↔ waiting = none ∧ value = .refinement name := by
  cases waiting <;> cases value <;> simp [await]

theorem leftover_concat (arguments : List Value) (value : Value) :
    leftover (arguments ++ [value]) = await (leftover arguments) value :=
  List.foldl_concat _ _ _ _

/-- There is no answer exactly if a refinement is left without a value. -/
theorem splitArguments_eq_none_iff :
    splitArguments arguments = none ↔ (leftover arguments).isSome = true := by
  induction arguments using arguments_induction with
  | nil => simp [splitArguments, leftover]
  | lone name => simp [splitArguments, leftover, await]
  | named name value rest ih =>
    have hrest : leftover (.refinement name :: value :: rest) = leftover rest := rfl
    rw [splitArguments_named, Option.map_eq_none_iff, ih, hrest]
  | positional value rest hvalue ih =>
    have hrest : leftover (value :: rest) = leftover rest :=
      congrArg (rest.foldl await) (await_of_ne hvalue none)
    rw [splitArguments_positional hvalue, Option.map_eq_none_iff, ih, hrest]

/-- The refinement that is left without a value is the last argument. -/
theorem getLast?_of_leftover {name : Symbol} (h : leftover arguments = some name) :
    arguments.getLast? = some (.refinement name) := by
  cases arguments using List.reverseRecOn with
  | nil => cases h
  | append_singleton front value =>
    rw [leftover_concat] at h
    rw [List.getLast?_concat, (await_eq_some_iff.mp h).2]

/-- **Only the refinements at the end count**: one is left without a value if their number is odd,
whatever stands before them. -/
theorem isSome_leftover_iff : (leftover arguments).isSome = true ↔
    Odd (arguments.rtakeWhile (·.kind = .refinement)).length := by
  induction arguments using List.reverseRecOn with
  | nil => simp [leftover]
  | append_singleton front value ih =>
    rw [leftover_concat]
    by_cases hvalue : value.kind = .refinement
    · obtain ⟨name, rfl⟩ := Value.kind_eq_refinement_iff.mp hvalue
      rw [List.rtakeWhile_concat, if_pos (decide_eq_true hvalue), List.length_append,
        List.length_singleton, Nat.odd_add_one, ← ih]
      cases leftover front <;> simp [await]
    · rw [List.rtakeWhile_concat, if_neg (mt of_decide_eq_true hvalue), await_of_ne hvalue]
      simp

/-- **Arguments are split without loss.** Splitting answers with what was written, and a list is
either written in exactly one way or not split. It is not split exactly if its last argument is a
refinement that is left without a value, that is, if it ends in an odd number of refinements. -/
theorem splitArguments_lossless (arguments : List Value) :
    (∀ split : Arguments, split.WrittenAs arguments ↔ splitArguments arguments = some split) ∧
      ((∃! split : Arguments, split.WrittenAs arguments) ↔ splitArguments arguments ≠ none) ∧
      (splitArguments arguments = none ↔
        ∃ name, leftover arguments = some name ∧ arguments.getLast? = some (.refinement name)) ∧
      (splitArguments arguments = none ↔
        Odd (arguments.rtakeWhile (·.kind = .refinement)).length) := by
  refine ⟨fun _ => splitArguments_eq_some_iff.symm, ⟨?_, fun h => ?_⟩, ?_, ?_⟩
  · rintro ⟨split, hwritten, -⟩ hnone
    rw [splitArguments_eq_some_iff.mpr hwritten] at hnone
    cases hnone
  · obtain ⟨split, hsplit⟩ := Option.ne_none_iff_exists'.mp h
    refine ⟨split, splitArguments_eq_some_iff.mp hsplit, fun other hother => ?_⟩
    exact Option.some.inj ((splitArguments_eq_some_iff.mpr hother).symm.trans hsplit)
  · rw [splitArguments_eq_none_iff, Option.isSome_iff_exists]
    exact exists_congr fun name => (and_iff_left_of_imp getLast?_of_leftover).symm
  · rw [splitArguments_eq_none_iff, isSome_leftover_iff]

/-- A refinement that follows a name is a value. -/
example : splitArguments [.refinement ⟨3⟩, .refinement ⟨4⟩, .logic true] =
    some ⟨[.logic true], [(⟨3⟩, .refinement ⟨4⟩)]⟩ := rfl

end CommandLine

end ActionKit
