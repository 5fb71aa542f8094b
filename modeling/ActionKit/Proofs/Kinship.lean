import ActionKit.Proofs.Arguments

/-!
# Running a frame through a relative

A frame may be run through any action that its own action is derived from, or that is derived from
it, as long as no more links lie between their tables than a walk follows. What the other action
has fixed plays no part: the native or typechecker that it comes from answers to the cells that the
frame holds.

* `Lineage.climb`: the table that a number of links leads to.
* `Workshop.Related`: the actions that frames may be run through.
* `Workshop.RunsThrough`: what running a frame through an action comes to.

Results:
* `mem_walk_iff`, `derivesFrom_iff`, `compatible_iff`: walks find exactly what is within reach.
* `invokeAs_runsThrough`: a frame is answered by what is behind a relative, and refused by all
  others.
-/

namespace ActionKit

/-! ## Links -/

namespace Lineage

/-- The table that a number of links leads to, if there are so many. -/
def climb (lineage : Lineage) : (links : Nat) → TableId → Option TableId
  | 0, table => some table
  | links + 1, table => (lineage.source? table).bind (lineage.climb links)

variable {lineage : Lineage}

/-- A walk passes the tables that one link and more lead to, up to its depth. -/
theorem mem_walk_iff {depth : Nat} {table id : TableId} :
    id ∈ lineage.walk depth table ↔ ∃ links < depth, lineage.climb (links + 1) table = some id := by
  induction depth generalizing table with
  | zero => simp [walk]
  | succ depth ih =>
    unfold walk
    cases hsource : lineage.source? table with
    | none => simp [climb, hsource]
    | some source =>
      have hclimb : ∀ links, lineage.climb (links + 1) table = lineage.climb links source := by
        intro links
        simp [climb, hsource]
      simp only [List.mem_cons, ih, hclimb]
      constructor
      · rintro (rfl | ⟨links, hlt, hid⟩)
        · exact ⟨0, Nat.succ_pos depth, rfl⟩
        · exact ⟨links + 1, Nat.succ_lt_succ hlt, hid⟩
      · rintro ⟨links, hlt, hid⟩
        cases links with
        | zero => exact .inl (Option.some.inj hid).symm
        | succ links => exact .inr ⟨links, Nat.lt_of_succ_lt_succ hlt, hid⟩

/-- **One table derives from another if few enough links lead to it**, none included. -/
theorem derivesFrom_iff {table ancestor : TableId} :
    lineage.derivesFrom table ancestor = true ↔
      ∃ links ≤ maxDepth, lineage.climb links table = some ancestor := by
  unfold derivesFrom ancestors
  rw [Bool.or_eq_true_iff, beq_iff_eq, List.contains_iff_mem, mem_walk_iff]
  constructor
  · rintro (rfl | ⟨links, hlt, hid⟩)
    · exact ⟨0, Nat.zero_le _, rfl⟩
    · exact ⟨links + 1, hlt, hid⟩
  · rintro ⟨links, hle, hid⟩
    cases links with
    | zero => exact .inl (Option.some.inj hid)
    | succ links => exact .inr ⟨links, hle, hid⟩

theorem compatible_iff {a b : TableId} :
    lineage.compatible a b = true ↔
      ∃ links ≤ maxDepth, lineage.climb links a = some b ∨ lineage.climb links b = some a := by
  unfold compatible
  rw [Bool.or_eq_true_iff, derivesFrom_iff, derivesFrom_iff, ← exists_or]
  refine exists_congr fun links => ?_
  rw [← and_or_left]

end Lineage

/-! ## Relatives -/

namespace Workshop

variable {w : Workshop}

/-- **Actions that frames of each other may be run through**: at most 64 links lead from the table
of one to that of the other, or none where both have the same table. -/
def Related (w : Workshop) (a b : Action) : Prop :=
  ∃ links ≤ 64, w.lineage.climb links a.table.id = some b.table.id ∨
    w.lineage.climb links b.table.id = some a.table.id

/-- **What running a frame of one action through another comes to.** -/
structure RunsThrough (w : Workshop) (action through : Action) (frame : Frame) : Prop where
  /-- What is behind a relative answers to the cells of the frame. -/
  related : w.Related action through →
    w.invokeAs frame through = through.answer w.lineage frame
  /-- If that is a native, the frame could as well have been run as it is. -/
  native : w.Related action through → ∀ face function binding,
    through.origin = .native face function binding → w.invokeAs frame through = w.invoke frame
  /-- Any other action refuses the frame. The refusal rests on the table of the frame and on what
  the action shows, whatever the functions behind them: none of these is run. -/
  unrelated : ¬ w.Related action through → ∀ (other : Frame) (stranger : Action),
    other.table = frame.table → stranger.face = through.face →
      w.invokeAs other stranger = .error (.incompatibleFrame through.label)

theorem related_iff {action through : Action} {frame : Frame} (hf : frame.Built action) :
    w.lineage.compatible frame.table.id through.table.id = true ↔ w.Related action through := by
  rw [Lineage.compatible_iff, hf.table]
  rfl

/-- **A frame is answered by what is behind a relative**, whatever the relative has fixed, and
refused by every other action. -/
theorem invokeAs_runsThrough (hw : w.Reachable) {action through : Action}
    (ha : action ∈ w.actions) (ht : through ∈ w.actions) {frame : Frame}
    (hf : frame.Built action) : w.RunsThrough action through frame := by
  have hrun : w.Related action through →
      w.invokeAs frame through = through.answer w.lineage frame := by
    intro hrelated
    unfold Workshop.invokeAs ActionKit.invokeAs
    rw [if_pos ((related_iff hf).mpr hrelated)]
    exact (hw.sound.invoke_eq_answer ht rfl).trans (through.answer_redirect _)
  refine ⟨hrun, fun hrelated face function binding ho => ?_, ?_⟩
  · have hcompatible := (related_iff hf).mpr hrelated
    rw [hf.table] at hcompatible
    have horigin := hw.sound.compatible_origin ha ht ho hcompatible
    rw [hrun hrelated, hw.sound.invoke_eq_answer ha hf.root]
    exact Action.answer_congr horigin.symm
  · intro hunrelated other stranger htable hface
    have hrefused : ¬ w.lineage.compatible other.table.id stranger.table.id = true := by
      rw [htable, show stranger.table = through.table from congrArg Face.table hface,
        related_iff hf]
      exact hunrelated
    unfold Workshop.invokeAs ActionKit.invokeAs
    rw [if_neg hrefused, show stranger.label = through.label from congrArg Face.label hface]

theorem negate_through_made :
    (fresh.trial 3 fun made negate => made.trial 0 fun _ add =>
    match made.specialize negate (negate.table.positional.map (·, .integer 5)) with
    | (.ok fixed, w) =>
      match (Frame.new negate).setAll (negate.table.positional.map (·, .integer 3)) with
      | .ok frame => some ((w.invokeAs frame fixed).toOption,
          decide (w.lineage.climb 1 fixed.table.id = some negate.table.id),
          w.lineage.compatible frame.table.id add.table.id)
      | .error _ => none
    | (.error _, _) => none) = some (some (.integer (-3)), true, false) := by
  decide +kernel

/-- A frame of negation that holds 3, run through the negation of 5, and through addition. -/
theorem invokeAs_runsThrough_negate : ∃ (w : Workshop) (action through stranger : Action)
    (frame : Frame), w.Reachable ∧ frame.Built action ∧ stranger ∈ w.actions ∧
      through.derivation? = some .specialized ∧ w.Related action through ∧
      (w.invokeAs frame through).toOption = some (.integer (-3)) ∧
      w.RunsThrough action through frame ∧ ¬ w.Related action stranger ∧
      w.invokeAs frame stranger = .error (.incompatibleFrame stranger.label) := by
  obtain ⟨made, -, hfresh, negate, hown, hrest⟩ := exists_of_trial negate_through_made
  obtain ⟨add, hstranger, hmatch⟩ := mem_of_trial hrest
  split at hmatch
  · next fixed w hspecialize =>
    split at hmatch
    · next frame hset =>
      obtain ⟨hresult, hmore⟩ := Prod.mk.inj (Option.some.inj hmatch)
      obtain ⟨hclimb, hrefused⟩ := Prod.mk.inj hmore
      have hbuilt : frame.Built negate := Frame.Built.new.setAll hset
      have hleads : made.Leads w := .specialize hown hspecialize
      have hw := hfresh.leads hleads
      have hgrows := (hleads.sound hfresh.sound).1
      have hrelated : w.Related negate fixed := ⟨1, by decide, .inr (of_decide_eq_true hclimb)⟩
      have hunrelated : ¬ w.Related negate add := by
        rw [← related_iff hbuilt, hrefused]
        decide
      rcases specialize_cases (hfresh.sound.wellFormed hown) hspecialize with
        ⟨_, herror, -⟩ | ⟨face, hok, -, -, -, -, hgains⟩
      · cases herror
      · obtain rfl := Except.ok.inj hok
        have hnegate := hgrows.actions _ hown
        have hadd := hgrows.actions _ hstranger
        refine ⟨w, negate, _, add, frame, hw, hbuilt, hadd, rfl, hrelated, hresult,
          invokeAs_runsThrough hw hnegate hgains.mem hbuilt, hunrelated, ?_⟩
        exact (invokeAs_runsThrough hw hnegate hadd hbuilt).unrelated hunrelated frame add rfl rfl
    · cases hmatch
  · cases hmatch

end Workshop

end ActionKit
