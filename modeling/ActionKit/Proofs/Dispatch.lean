import ActionKit.Proofs.Cells
import ActionKit.Proofs.Reach
import ActionKit.Proofs.Requirements
import Mathlib.Data.List.Chain

/-!
# Where dispatch leads

A run of a frame goes from phase to phase until a native or a typechecker ends it. The phases are
the specializations among the derivations of the action, from the last one back to the first, and
then the native or typechecker that all was derived from. What this answers to the cells of the
frame is the result.

* `Action.origin`: the native or typechecker at the end of the derivations.
* `Action.specializationCount`: how many of the derivations are specializations.
* `Action.phases`: the roots that a run goes through, read off the derivations.
* `trail`: the frame at every phase of a run.
* `Frame.handed`: the call that a native is given to carry out.
* `Native.answer`, `Action.answer`: what a native answers to a frame, and what the native or
  typechecker behind an action does.
* `Workshop.Resolves`: what a run looks like, from start to end.

Results:
* `invoke_eq_last`: the last phase of a run gives its result.
* `Sound.trail_eq`: a run goes through the phases of its action.
* `Sound.invoke_eq_answer`: running a frame is asking the native or typechecker behind it.
* `Reachable.nativesMade`: every native was made by an operation, with the binding it runs in.
* `invoke_resolves`: every run ends at the origin of its action, however long the derivation is.
-/

namespace ActionKit

namespace Action

/-- The native or typechecker that an action is derived from in the end. -/
def origin : Action → Action
  | .derived _ _ source => source.origin
  | .native face function binding => .native face function binding
  | .checker face test => .checker face test

/-- How many specializations there are among the derivations of an action. -/
def specializationCount : Action → Nat
  | .derived _ .specialized source => source.specializationCount + 1
  | .derived _ .augmented source => source.specializationCount
  | .native _ _ _ => 0
  | .checker _ _ => 0

theorem source?_origin (action : Action) : action.origin.source? = none := by
  induction action with
  | native => rfl
  | checker => rfl
  | derived face derivation source ih => exact ih

/-- The roots that a run goes through. Augmentations have none of their own. -/
def phases : Action → List Root
  | .derived face .specialized source =>
    (Action.derived face .specialized source).root :: source.phases
  | .derived _ .augmented source => source.phases
  | .native face function binding => [(Action.native face function binding).root]
  | .checker face test => [(Action.checker face test).root]

theorem length_phases (action : Action) :
    action.phases.length = action.specializationCount + 1 := by
  induction action with
  | native => rfl
  | checker => rfl
  | derived face derivation source ih =>
    cases derivation with
    | specialized => exact congrArg (· + 1) ih
    | augmented => exact ih

/-- A run starts at the root of its action. -/
theorem head?_phases (action : Action) : action.phases.head? = some action.root := by
  induction action with
  | native => rfl
  | checker => rfl
  | derived face derivation source ih =>
    cases derivation with
    | specialized => rfl
    | augmented => exact ih

/-- A run ends at the origin of its action. -/
theorem getLast?_phases (action : Action) : action.phases.getLast? = some action.origin.root := by
  induction action with
  | native => rfl
  | checker => rfl
  | derived face derivation source ih =>
    cases derivation with
    | specialized =>
      unfold phases
      rw [List.getLast?_cons, ih]
      rfl
    | augmented => exact ih

/-- No phase is an augmentation. -/
theorem derivation?_of_mem_phases {action : Action} {root : Root} (h : root ∈ action.phases) :
    root.phase.derivation? ≠ some .augmented := by
  induction action with
  | native =>
    obtain rfl := List.mem_singleton.mp h
    exact fun hd => by cases hd
  | checker =>
    obtain rfl := List.mem_singleton.mp h
    exact fun hd => by cases hd
  | derived face derivation source ih =>
    cases derivation with
    | specialized =>
      rcases List.mem_cons.mp h with rfl | h
      · exact fun hd => by cases hd
      · exact ih h
    | augmented => exact ih h

end Action

/-! ## Phases -/

theorem invoke_of_done {lineage : Lineage} {frame : Frame} {result : Except CallError Value}
    (h : frame.dispatch lineage = .done result) : invoke lineage frame = result := by
  rw [invoke]
  split
  · next other hother =>
    rw [h] at hother
    exact (Phase.done.inj hother).symm
  · next next hnext =>
    rw [h] at hnext
    cases hnext

theorem invoke_of_redirected {lineage : Lineage} {frame next : Frame}
    (h : frame.dispatch lineage = .redirected next) :
    invoke lineage frame = invoke lineage next := by
  rw [invoke]
  split
  · next other hother =>
    rw [h] at hother
    cases hother
  · next other hother =>
    rw [h] at hother
    rw [Phase.redirected.inj hother]

/-- The frame at every phase of a run, from the first to the one that ends the run. -/
def trail (lineage : Lineage) (frame : Frame) : List Frame :=
  match h : frame.dispatch lineage with
  | .done _ => [frame]
  | .redirected next =>
    have := Frame.dispatch_depth h
    frame :: trail lineage next
termination_by frame.root.phase.depth

theorem trail_of_done {lineage : Lineage} {frame : Frame} {result : Except CallError Value}
    (h : frame.dispatch lineage = .done result) : trail lineage frame = [frame] := by
  rw [trail]
  split
  · rfl
  · next next hnext =>
    rw [h] at hnext
    cases hnext

theorem trail_of_redirected {lineage : Lineage} {frame next : Frame}
    (h : frame.dispatch lineage = .redirected next) :
    trail lineage frame = frame :: trail lineage next := by
  rw [trail]
  split
  · next other hother =>
    rw [h] at hother
    cases hother
  · next other hother =>
    rw [h] at hother
    rw [Phase.redirected.inj hother]

/-- **The last phase of a run gives its result**, and every other phase leads to the next. -/
theorem invoke_eq_last (lineage : Lineage) (frame : Frame) :
    (∃ last, (trail lineage frame).getLast? = some last ∧
      last.dispatch lineage = .done (invoke lineage frame)) ∧
    (trail lineage frame).head? = some frame ∧
    (trail lineage frame).IsChain fun f g => f.dispatch lineage = .redirected g := by
  -- The phases get less and less derived.
  induction hdepth : frame.root.phase.depth using Nat.strongRecOn generalizing frame with
  | ind depth ih =>
    cases h : frame.dispatch lineage with
    | done result =>
      rw [trail_of_done h, invoke_of_done h]
      exact ⟨⟨frame, rfl, h⟩, rfl, .singleton frame⟩
    | redirected next =>
      obtain ⟨⟨last, hlast, hdone⟩, hhead, hchain⟩ :=
        ih _ (hdepth ▸ Frame.dispatch_depth h) next rfl
      rw [trail_of_redirected h, invoke_of_redirected h]
      refine ⟨⟨last, ?_, hdone⟩, rfl, ?_⟩
      · rw [List.getLast?_cons, hlast]
        rfl
      · rw [List.isChain_cons]
        refine ⟨fun g hg => ?_, hchain⟩
        rw [hhead] at hg
        obtain rfl := Option.some.inj hg
        exact h

/-! ## Answers -/

/-- The call that a native is given to carry out: its own table and binding, and the cells of the
frame as they are. -/
def Frame.handed (frame : Frame) (lineage : Lineage) (face : Face) (binding : Binding) : Call :=
  { lineage
    label := frame.label
    phase := face.id
    table := face.table
    cells := frame.cells
    binding }

/-- **What a native answers to a frame.** If a required parameter is empty, that is all it reports.
Otherwise its function is run, and what this returns is checked against the output of its table. -/
def Native.answer (function : Native) (lineage : Lineage) (face : Face) (binding : Binding)
    (frame : Frame) : Except CallError Value :=
  match missing? face.table frame.cell with
  | some name => .error (.missingArgument name)
  | none => function.run (frame.handed lineage face binding) >>= checkResult face.table

namespace Native

variable {function : Native} {lineage : Lineage} {face : Face} {binding : Binding} {frame : Frame}

/-- With all that it requires, the function of a native is run, and its result is checked. -/
theorem answer_of_furnished (h : face.table.Furnished frame.cell) :
    function.answer lineage face binding frame =
      function.run (frame.handed lineage face binding) >>= checkResult face.table := by
  rw [answer, missing?_eq_none_iff.mpr h]

/-- Without all that it requires, a native reports what it lacks, whatever its function would do. -/
theorem answer_of_not_furnished (h : ¬ face.table.Furnished frame.cell) :
    ∃ name, face.table.Lacks frame.cell name ∧
      function.answer lineage face binding frame = .error (.missingArgument name) := by
  obtain ⟨name, hlacks, hmissing⟩ := exists_missing? h
  exact ⟨name, hlacks, by rw [answer, hmissing]⟩

end Native

/-- **What the native or typechecker behind an action answers to a frame.** -/
def Action.answer (lineage : Lineage) (frame : Frame) : Action → Except CallError Value
  | .native face function binding => function.answer lineage face binding frame
  | .derived _ _ source => source.answer lineage frame
  | .checker face test => .ok (.logic (test.admits (frame.checkedCell face.table)))

theorem Frame.runNative_eq (frame : Frame) (lineage : Lineage) (face : Face) (function : Native) :
    frame.runNative lineage face function =
      function.answer lineage face frame.root.binding frame := by
  unfold runNative Native.answer
  cases missing? face.table frame.cell with
  | some name => rfl
  | none =>
    show _ = function.run (frame.toCall lineage face) >>= checkResult face.table
    cases function.run (frame.toCall lineage face) <;> rfl

namespace Action

variable {lineage : Lineage} {frame : Frame}

theorem dispatch_origin_eq (action : Action) (lineage : Lineage) (frame : Frame) :
    (frame.redirect action.origin.root).dispatch lineage = .done (action.answer lineage frame) := by
  induction action with
  | native face function binding =>
    exact congrArg Phase.done ((frame.redirect ⟨_, binding⟩).runNative_eq lineage face function)
  | checker => rfl
  | derived face derivation source ih => exact ih

theorem answer_origin (action : Action) : action.origin.answer lineage frame =
    action.answer lineage frame := by
  induction action with
  | native => rfl
  | checker => rfl
  | derived face derivation source ih => exact ih

/-- The answer of an action does not depend on where the frame was about to run. -/
theorem answer_redirect (action : Action) (root : Root) :
    action.answer lineage (frame.redirect root) = action.answer lineage frame := by
  induction action with
  | native => rfl
  | checker => rfl
  | derived face derivation source ih => exact ih

/-- Actions that come from the same native or typechecker answer alike. -/
theorem answer_congr {a b : Action} (h : a.origin = b.origin) :
    a.answer lineage frame = b.answer lineage frame := by
  rw [← a.answer_origin, h, b.answer_origin]

end Action

/-- What a check refuses is of the wrong type; all other failures were there before it. -/
theorem error_of_checked {table : Table} {answer : Except CallError Value} {error : CallError}
    (h : answer >>= checkResult table = .error error) :
    (∃ value types, error = .resultMismatch value types) ∨ answer = .error error := by
  cases answer with
  | error own => exact .inr h
  | ok value =>
    replace h : checkResult table value = .error error := h
    unfold checkResult at h
    split at h
    · next types htypes =>
      split at h
      · cases h
      · exact .inl ⟨value, types, (Except.error.inj h).symm⟩
    · cases h

/-- **Where the failures of a native come from**: a parameter that it requires is empty, its result
is of the wrong type, or its function fails. -/
theorem Native.answer_error {function : Native} {lineage : Lineage} {face : Face}
    {binding : Binding} {frame : Frame} {error : CallError}
    (h : function.answer lineage face binding frame = .error error) :
    (∃ name, missing? face.table frame.cell = some name ∧ error = .missingArgument name) ∨
      (∃ value types, error = .resultMismatch value types) ∨
      missing? face.table frame.cell = none ∧
        function.run (frame.handed lineage face binding) = .error error := by
  unfold answer at h
  split at h
  · next name hmissing => exact .inl ⟨name, hmissing, (Except.error.inj h).symm⟩
  · next hnone => exact .inr ((error_of_checked h).imp_right fun hrun => ⟨hnone, hrun⟩)

/-- A native that takes no arguments, and returns what its environment has for the word `value`. -/
def Native.recall : Native :=
  { name := "recall", spec := "", run := fun call => .ok ((call.binding.get? .value).getD .none) }

namespace Workshop

variable {w w' : Workshop}

/-! ## Origins -/

theorem Sound.origin_mem (hw : w.Sound) {action : Action} (ha : action ∈ w.actions) :
    action.origin ∈ w.actions := by
  refine hw.induction (motive := fun action => action.origin ∈ w.actions) ?_ ?_ ?_ action ha
  · exact fun _ _ _ hmem _ => hmem
  · exact fun _ _ hmem _ => hmem
  · exact fun _ _ _ _ _ ih => ih

/-- **An action has the parameters of its origin at the same slots.** -/
theorem Sound.origin_narrows (hw : w.Sound) {action : Action} (ha : action ∈ w.actions) :
    action.origin.table.Narrows action.table := by
  refine hw.induction (motive := fun action => action.origin.table.Narrows action.table)
    ?_ ?_ ?_ action ha
  · exact fun _ _ _ _ _ => .refl _
  · exact fun _ _ _ _ => .refl _
  · intro face derivation source _ hacc ih
    exact ih.trans (hacc.2.2.1.narrows (hw.wellFormed hacc.2.1))

/-- Where frames of an action start has no larger identity than the action. -/
theorem Sound.root_id_le (hw : w.Sound) {action : Action} (ha : action ∈ w.actions) :
    action.root.phase.table.id.number ≤ action.table.id.number := by
  refine hw.induction
    (motive := fun action => action.root.phase.table.id.number ≤ action.table.id.number)
    ?_ ?_ ?_ action ha
  · exact fun _ _ _ _ _ => Nat.le_refl _
  · exact fun _ _ _ _ => Nat.le_refl _
  · intro face derivation source _ hacc ih
    cases derivation with
    | specialized => exact Nat.le_refl _
    | augmented => exact Nat.le_trans ih (Nat.le_of_lt hacc.2.2.2.1)

/-- Every native was made by an operation, and nothing that was made before or after it was lost. -/
def MadeNative (w : Workshop) (action : Action) (function : Native)
    (words : Option (List (Symbol × Value))) : Prop :=
  ∃ before after : Workshop, before.makeNative function words = (.ok action, after) ∧
    after.actions <+: w.actions

/-- All natives were made by operations. -/
def NativesMade (w : Workshop) : Prop :=
  ∀ face function binding, Action.native face function binding ∈ w.actions →
    ∃ words, w.MadeNative (.native face function binding) function words

theorem NativesMade.mono (h : w.NativesMade) (hs : w.actions <+: w'.actions)
    (hnew : ∀ face function binding, Action.native face function binding ∈ w'.actions →
      Action.native face function binding ∈ w.actions ∨
        ∃ words, w'.MadeNative (.native face function binding) function words) :
    w'.NativesMade := by
  intro face function binding hmem
  rcases hnew face function binding hmem with hold | hmade
  · obtain ⟨words, before, after, hmake, hprefix⟩ := h face function binding hold
    exact ⟨words, before, after, hmake, hprefix.trans hs⟩
  · exact hmade

theorem NativesMade.keep (h : w.NativesMade) (hs : w'.actions = w.actions) : w'.NativesMade :=
  h.mono (hs ▸ List.prefix_rfl) fun _ _ _ hmem => .inl (hs ▸ hmem)

theorem NativesMade.gain (h : w.NativesMade) {action : Action}
    (hs : w'.actions = w.actions ++ [action])
    (hnew : ∀ face function binding, action = .native face function binding →
      ∃ words, w'.MadeNative action function words) : w'.NativesMade := by
  refine h.mono (hs ▸ List.prefix_append _ _) fun face function binding hmem => ?_
  rw [hs] at hmem
  rcases List.mem_append.mp hmem with hold | hlast
  · exact .inl hold
  · obtain rfl := List.mem_singleton.mp hlast
    exact .inr (hnew face function binding rfl)

theorem Change.nativesMade (hc : Change w w') (h : w.NativesMade) : w'.NativesMade := by
  cases hc with
  | kept hk => exact h.keep hk.stock.actions
  | native face function words made _ _ _ hadd =>
    refine h.gain hadd.actions fun face' function' binding' heq =>
      ⟨words, w, w', ?_, List.prefix_rfl⟩
    obtain ⟨-, rfl, -⟩ := Action.native.inj heq
    exact made
  | derived _ _ _ _ _ _ _ hadd => exact h.gain hadd.actions fun _ _ _ heq => by cases heq
  | checker _ _ _ _ hadd => exact h.gain hadd.actions fun _ _ _ heq => by cases heq

theorem bare_actions : bare.actions = [] :=
  List.length_eq_zero_iff.mp (by decide +kernel)

theorem install_nativesMade (h : w.NativesMade) (function : Native) :
    (w.install function).NativesMade := by
  unfold install
  split
  · next error made hmake => exact (makeNative_change hmake).nativesMade h
  · next action made hmake =>
    exact NativesMade.keep (w := made) ((makeNative_change hmake).nativesMade h) rfl

theorem foldl_install_nativesMade (functions : List Native) (h : w.NativesMade) :
    (functions.foldl install w).NativesMade := by
  induction functions generalizing w with
  | nil => exact h
  | cons function rest ih => exact ih (install_nativesMade h function)

theorem fresh_nativesMade : fresh.NativesMade := by
  have hbare : bare.NativesMade := by
    intro face function binding hmem
    rw [bare_actions] at hmem
    exact absurd hmem List.not_mem_nil
  exact (foldl_install_nativesMade Library.all hbare).keep fresh_actions

/-- **Every native was made by an operation**, with the words that its binding holds. -/
theorem Reachable.nativesMade (h : w.Reachable) : w.NativesMade := by
  induction h with
  | refl => exact fresh_nativesMade
  | tail hreach hstep ih => exact (step_change (Reachable.sound hreach) hstep).nativesMade ih

theorem MadeNative.binding {face : Face} {function : Native} {binding : Binding}
    {words : Option (List (Symbol × Value))}
    (h : w.MadeNative (.native face function binding) function words) :
    binding = .given face.table.id words := by
  obtain ⟨before, after, hmake, -⟩ := h
  rcases makeNative_cases hmake with ⟨_, herror, -⟩ | ⟨_, hok, -⟩
  · cases herror
  · obtain ⟨rfl, -, rfl⟩ := Action.native.inj (Except.ok.inj hok)
    rfl

/-! ## Runs -/

/-- The identities of phases go down, and each phase but the last is a specialization. -/
theorem Sound.phases_descend (hw : w.Sound) {action : Action} (ha : action ∈ w.actions) :
    action.phases.IsChain fun r s =>
      r.phase.derivation? = some .specialized ∧
        s.phase.table.id.number < r.phase.table.id.number := by
  refine hw.induction (motive := fun action => action.phases.IsChain fun r s =>
    r.phase.derivation? = some .specialized ∧
      s.phase.table.id.number < r.phase.table.id.number) ?_ ?_ ?_ action ha
  · exact fun _ _ _ _ _ => .singleton _
  · exact fun _ _ _ _ => .singleton _
  · intro face derivation source _ hacc ih
    cases derivation with
    | augmented => exact ih
    | specialized =>
      refine List.isChain_cons.mpr ⟨fun next hnext => ?_, ih⟩
      rw [source.head?_phases] at hnext
      obtain rfl := Option.some.inj hnext
      exact ⟨rfl, Nat.lt_of_le_of_lt (hw.root_id_le hacc.2.1) hacc.2.2.2.1⟩

/-- **A run goes through the phases of its action**, whatever the cells of the frame. -/
theorem Sound.trail_eq (hw : w.Sound) {action : Action} (ha : action ∈ w.actions) :
    ∀ {frame : Frame}, frame.root = action.root →
      trail w.lineage frame = action.phases.map frame.redirect := by
  refine hw.induction (motive := fun action => ∀ {frame : Frame}, frame.root = action.root →
    trail w.lineage frame = action.phases.map frame.redirect) ?_ ?_ ?_ action ha
  · intro face function binding _ _ frame hroot
    have hdone : frame.dispatch w.lineage = .done (frame.runNative w.lineage face function) := by
      unfold Frame.dispatch
      rw [hroot]
      rfl
    rw [trail_of_done hdone]
    exact congrArg (fun root => [frame.redirect root]) hroot
  · intro face test _ _ frame hroot
    have hdone : frame.dispatch w.lineage =
        .done (.ok (.logic (test.admits (frame.checkedCell face.table)))) := by
      unfold Frame.dispatch
      rw [hroot]
      rfl
    rw [trail_of_done hdone]
    exact congrArg (fun root => [frame.redirect root]) hroot
  · intro face derivation source _ hacc ih frame hroot
    cases derivation with
    | augmented => exact ih hroot
    | specialized =>
      -- The link to the source is the one thing that dispatch checks.
      have hnext : frame.dispatch w.lineage = .redirected (frame.redirect source.root) := by
        unfold Frame.dispatch
        rw [hroot]
        exact if_pos hacc.2.2.2.2
      rw [trail_of_redirected hnext, @ih (frame.redirect source.root) rfl]
      refine congrArg (· :: source.phases.map frame.redirect) ?_
      rw [← hroot]
      rfl

/-- **The origin of an action gives the result** of running its frames. -/
theorem Sound.dispatch_origin (hw : w.Sound) {action : Action} (ha : action ∈ w.actions)
    {frame : Frame} (hroot : frame.root = action.root) :
    (trail w.lineage frame).getLast? = some (frame.redirect action.origin.root) ∧
      (frame.redirect action.origin.root).dispatch w.lineage = .done (w.invoke frame) := by
  obtain ⟨⟨last, hlast, hdone⟩, -, -⟩ := invoke_eq_last w.lineage frame
  have hends : (trail w.lineage frame).getLast? = some (frame.redirect action.origin.root) := by
    rw [hw.trail_eq ha hroot, List.getLast?_map, action.getLast?_phases]
    rfl
  obtain rfl := Option.some.inj (hlast.symm.trans hends)
  exact ⟨hends, hdone⟩

/-- **Running a frame is asking the native or typechecker behind it.** -/
theorem Sound.invoke_eq_answer (hw : w.Sound) {action : Action} (ha : action ∈ w.actions)
    {frame : Frame} (hroot : frame.root = action.root) :
    w.invoke frame = action.answer w.lineage frame := by
  have hdone := (hw.dispatch_origin ha hroot).2
  rw [action.dispatch_origin_eq] at hdone
  exact (Phase.done.inj hdone).symm

/-- **What a native answers is the result**, for all that comes from it. -/
theorem Sound.invoke_eq_native (hw : w.Sound) {action : Action} (ha : action ∈ w.actions)
    {face : Face} {function : Native} {binding : Binding}
    (horigin : action.origin = .native face function binding) {frame : Frame}
    (hroot : frame.root = action.root) :
    w.invoke frame = function.answer w.lineage face binding frame := by
  rw [hw.invoke_eq_answer ha hroot, ← action.answer_origin, horigin]
  rfl

/-- **What a run of a frame of an action looks like**, from its first phase to its last. -/
structure Resolves (w : Workshop) (action : Action) (frame : Frame) : Prop where
  starts : (trail w.lineage frame).head? = some frame
  /-- There is one redirect for every specialization. -/
  redirects : (trail w.lineage frame).length = action.specializationCount + 1
  redirected : (trail w.lineage frame).IsChain fun f g => f.dispatch w.lineage = .redirected g
  /-- Every redirect leads from a specialization to a phase of a smaller identity. -/
  descends : (trail w.lineage frame).IsChain fun f g =>
    f.root.phase.derivation? = some .specialized ∧
      g.root.phase.table.id.number < f.root.phase.table.id.number
  /-- No augmentation ever runs. -/
  unaugmented : ∀ f ∈ trail w.lineage frame, f.root.phase.derivation? ≠ some .augmented
  ends : (trail w.lineage frame).getLast? = some (frame.redirect action.origin.root)
  /-- The origin is a native or a typechecker. -/
  underived : action.origin.source? = none
  /-- The last phase ends with the result. -/
  result : (frame.redirect action.origin.root).dispatch w.lineage = .done (w.invoke frame)
  /-- A native was made by an operation, with some words or with none. -/
  made : ∀ face function binding, action.origin = .native face function binding →
    ∃ words, w.MadeNative action.origin function words
  /-- Its function is run on the cells of the frame, in the binding of the words that the native
  was made with, and what it returns is checked. -/
  native : ∀ face function binding words, action.origin = .native face function binding →
    w.MadeNative action.origin function words → face.table.Furnished frame.cell →
      w.invoke frame = function.run (frame.handed w.lineage face (.given face.table.id words)) >>=
        checkResult face.table
  /-- If a parameter that a native requires is empty, that is all it reports. -/
  lacking : ∀ face function binding, action.origin = .native face function binding →
    ¬ face.table.Furnished frame.cell →
      ∃ name, face.table.Lacks frame.cell name ∧ w.invoke frame = .error (.missingArgument name)
  /-- A typechecker answers to the cell that it looks at. -/
  checker : ∀ face test, action.origin = .checker face test →
    w.invoke frame = .ok (.logic (test.admits (frame.checkedCell face.table)))
  /-- Only the native itself may report an incompatible frame. -/
  compatible : ∀ label, w.invoke frame = .error (.incompatibleFrame label) →
    ∃ face function binding, action.origin = .native face function binding ∧
      function.run (frame.handed w.lineage face binding) = .error (.incompatibleFrame label)

/-- A report of an incompatible frame comes from a native. -/
theorem answer_incompatible {action : Action} {lineage : Lineage} {frame : Frame}
    {label : Option Symbol}
    (h : action.answer lineage frame = .error (.incompatibleFrame label)) :
    ∃ face function binding, action.origin = .native face function binding ∧
      function.run (frame.handed lineage face binding) = .error (.incompatibleFrame label) := by
  induction action with
  | native face function binding =>
    rcases Native.answer_error h with ⟨_, -, hmissing⟩ | ⟨_, _, hmismatch⟩ | ⟨-, hrun⟩
    · cases hmissing
    · cases hmismatch
    · exact ⟨face, function, binding, rfl, hrun⟩
  | checker => cases h
  | derived face derivation source ih => exact ih h

/-- **Dispatch ends at the origin**, after one redirect for every specialization, however many
derivations there are. -/
theorem invoke_resolves (hw : w.Reachable) {action : Action} (ha : action ∈ w.actions)
    {frame : Frame} (hf : frame.Built action) : w.Resolves action frame := by
  have htrail := hw.sound.trail_eq ha hf.root
  obtain ⟨hends, hdone⟩ := hw.sound.dispatch_origin ha hf.root
  obtain ⟨-, hhead, hchain⟩ := invoke_eq_last w.lineage frame
  refine ⟨hhead, ?_, hchain, ?_, ?_, hends, action.source?_origin, hdone, ?_, ?_, ?_, ?_, ?_⟩
  · rw [htrail, List.length_map, action.length_phases]
  · rw [htrail, List.isChain_map]
    exact hw.sound.phases_descend ha
  · intro f hmem
    rw [htrail] at hmem
    obtain ⟨root, hroot, rfl⟩ := List.mem_map.mp hmem
    exact Action.derivation?_of_mem_phases hroot
  · intro face function binding ho
    have hmem := hw.sound.origin_mem ha
    rw [ho] at hmem ⊢
    exact hw.nativesMade face function binding hmem
  · intro face function binding words ho hmade hfull
    rw [ho] at hmade
    rw [hw.sound.invoke_eq_native ha ho hf.root, ← hmade.binding]
    exact Native.answer_of_furnished hfull
  · intro face function binding ho hlacking
    rw [hw.sound.invoke_eq_native ha ho hf.root]
    exact Native.answer_of_not_furnished hlacking
  · intro face test ho
    rw [hw.sound.invoke_eq_answer ha hf.root, ← action.answer_origin, ho]
    rfl
  · intro label herror
    rw [hw.sound.invoke_eq_answer ha hf.root] at herror
    exact answer_incompatible herror

/-- An action can be specialized any number of times. -/
theorem exists_specialized (hw : w.Reachable) {source : Action} (own : source ∈ w.actions)
    (n : Nat) : ∃ w' : Workshop, w'.Reachable ∧ ∃ action ∈ w'.actions,
      action.origin = source.origin ∧
        action.specializationCount = source.specializationCount + n := by
  induction n with
  | zero => exact ⟨w, hw, source, own, rfl, rfl⟩
  | succ n ih =>
    obtain ⟨w', hw', action, ha, horigin, hcount⟩ := ih
    have hwf := hw'.sound.wellFormed ha
    obtain ⟨derived, w'', h⟩ := w'.specialize_nil hwf
    rcases specialize_cases hwf h with ⟨_, herror, -⟩ | ⟨face, hok, -, -, -, -, hadd⟩
    · cases herror
    · exact ⟨w'', hw'.leads (.specialize ha h), .derived face .specialized action, hadd.mem,
        horigin, congrArg (· + 1) hcount⟩

theorem recall_made :
    (match fresh.makeNative .recall (some [(.value, .integer 7)]) with
    | (.ok native, _) => some (missing? native.table fun _ => .none,
        decide (checkResult native.table (.integer 7) = .ok (.integer 7)))
    | (.error _, _) => none) = some (none, true) := by
  decide +kernel

/-- More specializations than a walk along the links follows are no obstacle: the native that was
made with some words still finds them. -/
theorem invoke_resolves_past_maxDepth : ∃ w : Workshop, w.Reachable ∧ ∃ action ∈ w.actions,
    Lineage.maxDepth < action.specializationCount ∧ w.Resolves action (.new action) ∧
      w.invoke (.new action) = .ok (.integer 7) := by
  obtain ⟨made, hmade, hfresh⟩ := exists_fresh
  have hmatch := recall_made
  rw [← hmade] at hmatch
  split at hmatch
  · next native w₁ hnative =>
    obtain ⟨hmissing, hreturns⟩ := Prod.mk.inj (Option.some.inj hmatch)
    have hstep := Step.makeNative made .recall (some [(.value, .integer 7)])
    rw [hnative] at hstep
    have hw₁ : w₁.Reachable := hfresh.leads (.single hstep)
    rcases makeNative_cases hnative with ⟨_, herror, -⟩ | ⟨face, hok, -, -, -, hgains⟩
    · cases herror
    obtain rfl := Except.ok.inj hok
    obtain ⟨w, hw, action, ha, horigin, hcount⟩ :=
      exists_specialized hw₁ hgains.mem (Lineage.maxDepth + 1)
    have hresolves := invoke_resolves hw ha .new
    refine ⟨w, hw, action, ha, ?_, hresolves, ?_⟩
    · rw [hcount]
      exact Nat.lt_of_lt_of_le (Nat.lt_succ_self _) (Nat.le_add_left _ _)
    · obtain ⟨words, hwords⟩ := hresolves.made _ _ _ horigin
      have hruns := hresolves.native _ _ _ _ horigin hwords (Table.furnished_of_empty hmissing _)
      rw [horigin] at hwords
      rw [hruns, ← hwords.binding]
      exact of_decide_eq_true hreturns
  · cases hmatch

end Workshop

end ActionKit
