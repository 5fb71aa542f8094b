import ActionKit.Proofs.Dispatch

/-!
# Two frames side by side

A derived action and its source are compared by filling a frame of each with the same arguments
and running both. What has to be shown is what filling one cell does to a relation between the two
frames, and what of the frames a run looks at.

* `Paired`: two ways of filling frames that are refused alike, or come to related frames.

Results:
* `setAll_paired`: filling cells one after the other, where some arguments are for the first frame
  only.
* `fulfil_paired`: filling frames of two actions with the arguments of a call.
* `call_paired`: calls that fill their frames alike give the same result.
* `Sound.invoke_congr`: frames of relatives give the same result if the native or typechecker at
  the end cannot tell them apart.
* `Sound.invoke_eq_of_cells`: that is the case if they have the same cells and the same label.
-/

namespace ActionKit

/-! ## Filling frames alike -/

/-- **Two frames filled alike**: refused for the same reason, or related. -/
inductive Paired (related : Frame → Frame → Prop) :
    Except CallError Frame → Except CallError Frame → Prop
  | refused (error : CallError) : Paired related (.error error) (.error error)
  | filled {f g : Frame} (h : related f g) : Paired related (.ok f) (.ok g)

namespace Frame

/-- An argument that both frames take at the same slot, or refuse alike. -/
theorem set_paired {related : Frame → Frame → Prop} {f g : Frame} {name : Symbol} {value : Value}
    {a b : Entry} {slot : Nat} (hf : f.table.findEntry? name = some (a, slot))
    (hg : g.table.findEntry? name = some (b, slot)) (hab : allow a name value = allow b name value)
    (h : f.set name value = .ok (f.put slot value) → g.set name value = .ok (g.put slot value) →
      related (f.put slot value) (g.put slot value)) :
    Paired related (f.set name value) (g.set name value) := by
  rw [set_of_some hf, set_of_some hg, hab] at h ⊢
  cases hallow : allow b name value with
  | error error => exact .refused error
  | ok _ =>
    rw [hallow] at h
    exact .filled (h rfl rfl)

theorem setAll_cons (frame : Frame) (name : Symbol) (value : Value)
    (rest : List (Symbol × Value)) :
    frame.setAll ((name, value) :: rest) = frame.set name value >>= (·.setAll rest) := by
  rw [setAll]
  cases frame.set name value <;> rfl

theorem setAll_append (frame : Frame) (first second : List (Symbol × Value)) :
    frame.setAll (first ++ second) = frame.setAll first >>= (·.setAll second) := by
  induction first generalizing frame with
  | nil => rfl
  | cons pair rest ih =>
    obtain ⟨name, value⟩ := pair
    rw [List.cons_append, setAll_cons, setAll_cons]
    cases frame.set name value with
    | error error => rfl
    | ok next => exact ih next

/-- **Filling two frames side by side.** Arguments that are not kept are for the first frame only,
and are never refused. -/
theorem setAll_paired {related : Frame → Frame → Prop} {keep : Symbol × Value → Bool}
    {pairs : List (Symbol × Value)}
    (kept : ∀ pair ∈ pairs, keep pair = true → ∀ f g : Frame, related f g →
      Paired related (f.set pair.1 pair.2) (g.set pair.1 pair.2))
    (dropped : ∀ pair ∈ pairs, keep pair = false → ∀ f g : Frame, related f g →
      ∃ next, f.set pair.1 pair.2 = .ok next ∧ related next g)
    {f g : Frame} (h : related f g) :
    Paired related (f.setAll pairs) (g.setAll (pairs.filter keep)) := by
  induction pairs generalizing f g with
  | nil => exact .filled h
  | cons pair rest ih =>
    have ih := fun {f g : Frame} (h : related f g) =>
      ih (fun p hp => kept p (List.mem_cons_of_mem _ hp))
        (fun p hp => dropped p (List.mem_cons_of_mem _ hp)) h
    rw [setAll_cons]
    cases hkeep : keep pair with
    | true =>
      rw [List.filter_cons_of_pos hkeep, setAll_cons]
      have hset := kept pair List.mem_cons_self hkeep f g h
      generalize f.set pair.1 pair.2 = left at hset ⊢
      generalize g.set pair.1 pair.2 = right at hset ⊢
      cases hset with
      | refused error => exact .refused error
      | filled hnext => exact ih hnext
    | false =>
      rw [List.filter_cons_of_neg (by simp [hkeep])]
      obtain ⟨next, hset, hnext⟩ := dropped pair List.mem_cons_self hkeep f g h
      rw [hset]
      exact ih hnext

/-- Filling two frames side by side with the same arguments. -/
theorem setAll_paired_all {related : Frame → Frame → Prop} {pairs : List (Symbol × Value)}
    (kept : ∀ pair ∈ pairs, ∀ f g : Frame, related f g →
      Paired related (f.set pair.1 pair.2) (g.set pair.1 pair.2))
    {f g : Frame} (h : related f g) : Paired related (f.setAll pairs) (g.setAll pairs) := by
  have hall : Paired related (f.setAll pairs) (g.setAll (pairs.filter fun _ => true)) :=
    setAll_paired (fun pair hpair _ => kept pair hpair) (fun _ _ hkeep => by cases hkeep) h
  rwa [List.filter_true] at hall

end Frame

/-- **Frames of two actions that positional arguments fill alike** are filled alike by all
arguments, if every single one does the same to both. -/
theorem fulfil_paired {related : Frame → Frame → Prop} {a b : Action}
    (hpositional : a.table.positional = b.table.positional) (hnew : related (.new a) (.new b))
    (hset : ∀ (name : Symbol) (value : Value) (f g : Frame), related f g →
      Paired related (f.set name value) (g.set name value))
    (positional : List Value) (named : List (Symbol × Value)) :
    Paired related (fulfil a positional named) (fulfil b positional named) := by
  by_cases hlength : positional.length ≤ b.table.positional.length
  · rw [fulfil_of_le hlength, fulfil_of_le (hpositional ▸ hlength), hpositional]
    exact Frame.setAll_paired_all (fun pair _ => hset pair.1 pair.2) hnew
  · have hlt := Nat.lt_of_not_le hlength
    rw [fulfil_of_lt hlt, fulfil_of_lt (hpositional ▸ hlt), hpositional]
    exact .refused _

/-- Calls that fill their frames alike give the same result. -/
theorem call_paired {related : Frame → Frame → Prop} {lineage : Lineage} {a b : Action}
    {positional positional' : List Value} {named named' : List (Symbol × Value)}
    (h : Paired related (fulfil a positional named) (fulfil b positional' named'))
    (hinvoke : ∀ f g, related f g → invoke lineage f = invoke lineage g) :
    call lineage a positional named = call lineage b positional' named' := by
  unfold call
  generalize fulfil a positional named = left at h ⊢
  generalize fulfil b positional' named' = right at h ⊢
  cases h with
  | refused error => rfl
  | filled hrelated => exact hinvoke _ _ hrelated

/-! ## Running frames alike -/

/-- A native gives the same result on two frames if the same argument is missing, or none, and its
function answers both calls alike. -/
theorem Frame.runNative_congr {f g : Frame} {lineage : Lineage} {face : Face} {function : Native}
    (hmissing : missing? face.table f.cell = missing? face.table g.cell)
    (hrun : function.run (f.toCall lineage face) = function.run (g.toCall lineage face)) :
    f.runNative lineage face function = g.runNative lineage face function := by
  unfold runNative
  rw [hmissing, hrun]

/-- **Frames of relatives give the same result** if the native or typechecker that both actions
come from cannot tell them apart. -/
theorem Workshop.Sound.invoke_congr {w : Workshop} (hw : w.Sound) {a b : Action}
    (ha : a ∈ w.actions) (hb : b ∈ w.actions) (horigin : a.origin = b.origin) {f g : Frame}
    (hf : f.root = a.root) (hg : g.root = b.root)
    (hnative : ∀ face function binding, b.origin = .native face function binding →
      (f.redirect b.origin.root).runNative w.lineage face function =
        (g.redirect b.origin.root).runNative w.lineage face function)
    (hchecker : ∀ face test, b.origin = .checker face test →
      f.checkedCell face.table = g.checkedCell face.table) :
    w.invoke f = w.invoke g := by
  have hleft := (hw.dispatch_origin ha hf).2
  have hright := (hw.dispatch_origin hb hg).2
  have hunderived := b.source?_origin
  rw [horigin] at hleft
  refine Phase.done.inj (hleft.symm.trans (Eq.trans ?_ hright))
  cases ho : b.origin with
  | native face function binding =>
    have hsame := hnative face function binding ho
    rw [ho] at hsame
    exact congrArg Phase.done hsame
  | checker face test =>
    have hsame := hchecker face test ho
    exact congrArg (fun value => Phase.done (.ok (.logic (test.admits value)))) hsame
  | derived face derivation source =>
    rw [ho] at hunderived
    cases hunderived

/-- **Frames of relatives with the same cells and the same label give the same result**, since
natives see no more of a frame. -/
theorem Workshop.Sound.invoke_eq_of_cells {w : Workshop} (hw : w.Sound) {a b : Action}
    (ha : a ∈ w.actions) (hb : b ∈ w.actions) (horigin : a.origin = b.origin) {f g : Frame}
    (hf : f.root = a.root) (hg : g.root = b.root) (hcells : f.cells = g.cells)
    (hlabel : f.label = g.label) : w.invoke f = w.invoke g := by
  refine hw.invoke_congr ha hb horigin hf hg ?_ ?_
  · intro face function binding _
    refine Frame.runNative_congr ?_ ?_
    · unfold Frame.cell Frame.redirect
      rw [hcells]
    · unfold Frame.toCall Frame.redirect
      rw [hcells, hlabel]
  · intro face test _
    unfold Frame.checkedCell Frame.cell
    rw [hcells]

end ActionKit
