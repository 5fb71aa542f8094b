import ActionKit.Workshop.Fresh
import ActionKit.Proofs.Made
import Mathlib.Logic.Relation

/-!
# What holds of every workshop

A workshop is reached from a new one by any operations, whether they succeed or fail; actions are
derived only from actions of the same workshop.

* `Workshop.Step`, `Workshop.Leads`, `Workshop.Reachable`: one operation, several, and the
  workshops they lead to from a new one.
* `Workshop.Change`: all that an operation can do to actions, tables and links.
* `Workshop.Accounts`: what a workshop has on record about one of its actions.
* `Workshop.Sound`: the invariant. Every action is accounted for, and tables have identities of
  their own, typecheckers apart, which share one table.

Results:
* `step_change`: the four things an operation can do.
* `Change.sound`, `Reachable.sound`: every workshop that is reached is sound.
* `Sound.induction`: what holds of natives and typecheckers and is passed on by derivations holds
  of all actions.
* `Sound.wellFormed`, `Sound.source?_eq`: every table is well formed, and linked to that of the
  source of its action.
* `Leads.sound`: actions, links and the library stay, whatever is done.
* `exists_of_trial`: what is tried out with an action of a new workshop.
-/

namespace ActionKit

/-! ## Links -/

namespace Lineage

@[simp] theorem source?_allocate (lineage : Lineage) (id : TableId) :
    lineage.allocate.2.source? id = lineage.source? id := rfl

theorem source?_link_self (lineage : Lineage) (derived source : TableId) :
    (lineage.link derived source).source? derived = some source :=
  List.lookup_cons_self

theorem source?_link_ne (lineage : Lineage) {derived source id : TableId} (h : id ≠ derived) :
    (lineage.link derived source).source? id = lineage.source? id := by
  unfold source? link
  rw [List.lookup_cons, beq_eq_false_iff_ne.mpr h]

end Lineage

/-- How the table of a derived action comes from that of its source. -/
def Table.DerivedFrom (derivation : Derivation) (source derived : Table) : Prop :=
  match derivation with
  | .specialized => ∃ bindings, Binds bindings source derived
  | .augmented => ∃ added, Extends added source derived

theorem Table.DerivedFrom.wellFormed {derivation : Derivation} {source derived : Table}
    (h : DerivedFrom derivation source derived) (hs : source.WellFormed) : derived.WellFormed := by
  cases derivation with
  | specialized =>
    obtain ⟨bindings, hb⟩ := h
    exact hb.wellFormed hs
  | augmented =>
    obtain ⟨added, he⟩ := h
    exact he.wellFormed hs

theorem Table.DerivedFrom.narrows {derivation : Derivation} {source derived : Table}
    (h : DerivedFrom derivation source derived) (hs : source.WellFormed) :
    source.Narrows derived := by
  cases derivation with
  | specialized =>
    obtain ⟨bindings, hb⟩ := h
    exact hb.narrows hs
  | augmented =>
    obtain ⟨added, he⟩ := h
    exact he.narrows hs

namespace Workshop

/-! ## Steps -/

/-- One operation of a workshop, whether it succeeds or fails. -/
inductive Step : Workshop → Workshop → Prop
  | intern (w : Workshop) (name : Bytes) : Step w (w.intern name).2
  | register (w : Workshop) (name : Bytes) : Step w (w.register name).2
  | readSpec (w : Workshop) (text : String) : Step w (w.readSpec text).2
  | makeNative (w : Workshop) (function : Native) (words : Option (List (Symbol × Value))) :
      Step w (w.makeNative function words).2
  | specialize (w : Workshop) (source : Action) (own : source ∈ w.actions)
      (bindings : List (Symbol × Value)) : Step w (w.specialize source bindings).2
  | augment (w : Workshop) (source : Action) (own : source ∈ w.actions) (spec : List Value)
      (label : Option Symbol) : Step w (w.augment source spec label).2
  | makeChecker (w : Workshop) (descriptor : Value) : Step w (w.makeChecker descriptor).2

/-- Any operations, one after the other. -/
def Leads : Workshop → Workshop → Prop := Relation.ReflTransGen Step

/-- The workshops that any operations lead to from a new one. -/
def Reachable (w : Workshop) : Prop := fresh.Leads w

/-! ## The invariant -/

/-- An identity given to a table after that of the typecheckers. -/
structure Issued (w : Workshop) (id : TableId) : Prop where
  after : w.checkerTable.id.number < id.number
  before : id.number < w.lineage.next

/-- **What a workshop has on record about an action**: that the table of a native is original and
has no link, that a typechecker has the table of typecheckers, and that a derived action has the
table of its derivation, with a link to that of its source, which is an older action. -/
def Accounts (w : Workshop) : Action → Prop
  | .native face _ _ =>
    w.Issued face.table.id ∧ face.table.Original ∧ w.lineage.source? face.table.id = none
  | .checker face _ => face.table = w.checkerTable
  | .derived face derivation source =>
    w.Issued face.table.id ∧ source ∈ w.actions ∧ source.table.DerivedFrom derivation face.table ∧
      source.table.id.number < face.table.id.number ∧
      w.lineage.source? face.table.id = some source.table.id

/-- **The invariant of workshops.** -/
structure Sound (w : Workshop) : Prop where
  checker : w.checkerTable.Original
  checkerIssued : w.checkerTable.id.number < w.lineage.next
  checkerUnlinked : w.lineage.source? w.checkerTable.id = none
  accounts : ∀ action ∈ w.actions, w.Accounts action
  /-- No two tables share an identity that was issued. -/
  unique : ∀ a ∈ w.actions, ∀ b ∈ w.actions, w.Issued a.table.id → a.table.id = b.table.id → a = b
  /-- Identities still to be issued have no links. -/
  unlinked : ∀ id : TableId, w.lineage.next ≤ id.number → w.lineage.source? id = none

variable {w w' : Workshop}

theorem Sound.id_lt (h : w.Sound) {action : Action} (ha : action ∈ w.actions) :
    action.table.id.number < w.lineage.next := by
  have hacc := h.accounts action ha
  match action with
  | .native face _ _ => exact hacc.1.before
  | .checker face _ =>
    show face.table.id.number < _
    rw [show face.table = w.checkerTable from hacc]
    exact h.checkerIssued
  | .derived face _ _ => exact hacc.1.before

/-- **Induction along derivations.** -/
theorem Sound.induction (h : w.Sound) {motive : Action → Prop}
    (native : ∀ face function binding, .native face function binding ∈ w.actions →
      w.Accounts (.native face function binding) → motive (.native face function binding))
    (checker : ∀ face test, .checker face test ∈ w.actions → face.table = w.checkerTable →
      motive (.checker face test))
    (derived : ∀ face derivation source, .derived face derivation source ∈ w.actions →
      w.Accounts (.derived face derivation source) → motive source →
      motive (.derived face derivation source)) :
    ∀ action ∈ w.actions, motive action := by
  intro action ha
  induction action with
  | native face function binding => exact native face function binding ha (h.accounts _ ha)
  | checker face test => exact checker face test ha (h.accounts _ ha)
  | derived face derivation source ih =>
    have hacc := h.accounts _ ha
    exact derived face derivation source ha hacc (ih hacc.2.1)

/-- **Every table of a sound workshop is well formed.** -/
theorem Sound.wellFormed (h : w.Sound) {action : Action} (ha : action ∈ w.actions) :
    action.table.WellFormed := by
  refine h.induction (motive := fun action => action.table.WellFormed) ?_ ?_ ?_ action ha
  · intro face function binding _ hacc
    exact hacc.2.1.wellFormed
  · intro face test _ htable
    show face.table.WellFormed
    rw [htable]
    exact h.checker.wellFormed
  · intro face derivation source _ hacc ih
    exact hacc.2.2.1.wellFormed ih

/-- **The links are the derivations.** -/
theorem Sound.source?_eq (h : w.Sound) {action : Action} (ha : action ∈ w.actions) :
    w.lineage.source? action.table.id = action.source?.map (·.table.id) := by
  have hacc := h.accounts action ha
  match action with
  | .native _ _ _ => exact hacc.2.2
  | .checker face _ =>
    show w.lineage.source? face.table.id = none
    rw [show face.table = w.checkerTable from hacc]
    exact h.checkerUnlinked
  | .derived _ _ _ => exact hacc.2.2.2.2

/-! ## Steps keep the invariant -/

/-- What all operations do: actions stay, identities go up, and old links stay. -/
structure Grows (w w' : Workshop) : Prop where
  checkerTable : w'.checkerTable = w.checkerTable
  actions : ∀ action ∈ w.actions, action ∈ w'.actions
  next : w.lineage.next ≤ w'.lineage.next
  links : ∀ id : TableId, id.number < w.lineage.next →
    w'.lineage.source? id = w.lineage.source? id

theorem SameStock.grows (h : w.SameStock w') : w.Grows w' where
  checkerTable := h.checkerTable
  actions := by
    rw [h.actions]
    exact fun _ ha => ha
  next := Nat.le_of_eq (by rw [h.lineage])
  links := by
    rw [h.lineage]
    exact fun _ _ => rfl

theorem Gains.grows {action : Action} (h : w.Gains w' action)
    (hnext : w.lineage.next ≤ w'.lineage.next)
    (hlinks : ∀ id : TableId, id.number < w.lineage.next →
      w'.lineage.source? id = w.lineage.source? id) : w.Grows w' where
  checkerTable := h.checkerTable
  actions := by
    rw [h.actions]
    exact fun _ => List.mem_append_left _
  next := hnext
  links := hlinks

theorem Issued.mono (hg : w.Grows w') {id : TableId} (h : w.Issued id) : w'.Issued id :=
  ⟨by rw [hg.checkerTable]; exact h.after, Nat.lt_of_lt_of_le h.before hg.next⟩

/-- What is on record stays on record. -/
theorem Accounts.mono (hg : w.Grows w') {action : Action} (h : w.Accounts action) :
    w'.Accounts action := by
  match action with
  | .native face _ _ =>
    obtain ⟨hi, ho, hl⟩ := h
    exact ⟨hi.mono hg, ho, by rw [hg.links _ hi.before]; exact hl⟩
  | .checker face _ => exact Eq.trans h hg.checkerTable.symm
  | .derived face _ source =>
    obtain ⟨hi, hs, hd, hlt, hl⟩ := h
    exact ⟨hi.mono hg, hg.actions source hs, hd, hlt, by rw [hg.links _ hi.before]; exact hl⟩

theorem SameStock.sound (hk : w.SameStock w') (h : w.Sound) : w'.Sound where
  checker := by
    rw [hk.checkerTable]
    exact h.checker
  checkerIssued := by
    rw [hk.checkerTable, hk.lineage]
    exact h.checkerIssued
  checkerUnlinked := by
    rw [hk.checkerTable, hk.lineage]
    exact h.checkerUnlinked
  accounts action ha := by
    rw [hk.actions] at ha
    exact (h.accounts action ha).mono hk.grows
  unique a ha b hb hi hab := by
    rw [hk.actions] at ha hb
    refine h.unique a ha b hb ⟨?_, h.id_lt ha⟩ hab
    have := hi.after
    rw [hk.checkerTable] at this
    exact this
  unlinked := by
    rw [hk.lineage]
    exact h.unlinked

/-- One more action keeps the invariant if it is accounted for and its identity, if issued, is the
next one. -/
theorem Sound.gain (h : w.Sound) (hg : w.Grows w') {action : Action} (hadd : w.Gains w' action)
    (hacc : w'.Accounts action)
    (hnew : w'.Issued action.table.id → action.table.id.number = w.lineage.next)
    (hunlinked : ∀ id : TableId, w'.lineage.next ≤ id.number → w'.lineage.source? id = none) :
    w'.Sound where
  checker := by
    rw [hg.checkerTable]
    exact h.checker
  checkerIssued := by
    rw [hg.checkerTable]
    exact Nat.lt_of_lt_of_le h.checkerIssued hg.next
  checkerUnlinked := by
    rw [hg.checkerTable, hg.links _ h.checkerIssued]
    exact h.checkerUnlinked
  accounts a ha := by
    rw [hadd.actions] at ha
    rcases List.mem_append.mp ha with ha | ha
    · exact (h.accounts a ha).mono hg
    · obtain rfl := List.mem_singleton.mp ha
      exact hacc
  unique a ha b hb hi hab := by
    rw [hadd.actions] at ha hb
    -- An old action has a smaller identity than the new one.
    have hold : ∀ old ∈ w.actions, w'.Issued action.table.id → old.table.id ≠ action.table.id := by
      intro old hold hi heq
      have hlt := h.id_lt hold
      rw [heq, hnew hi] at hlt
      exact Nat.lt_irrefl _ hlt
    rcases List.mem_append.mp ha with ha | ha <;> rcases List.mem_append.mp hb with hb | hb
    · refine h.unique a ha b hb ⟨?_, h.id_lt ha⟩ hab
      have := hi.after
      rw [hg.checkerTable] at this
      exact this
    · rw [List.mem_singleton.mp hb] at hab
      exact absurd hab (hold a ha (hab ▸ hi))
    · rw [List.mem_singleton.mp ha] at hab hi
      exact absurd hab.symm (hold b hb hi)
    · rw [List.mem_singleton.mp ha, List.mem_singleton.mp hb]
  unlinked := hunlinked

/-- **All that an operation can do** to actions, tables and links. -/
inductive Change (w w' : Workshop) : Prop
  | kept (keeps : w.Keeps w')
  | native (face : Face) (function : Native) (words : Option (List (Symbol × Value)))
      (made : w.makeNative function words =
        (.ok (.native face function (.given face.table.id words)), w'))
      (original : face.table.Original) (id : face.table.id = ⟨w.lineage.next⟩)
      (lineage : w'.lineage = w.lineage.allocate.2)
      (gains : w.Gains w' (.native face function (.given face.table.id words)))
  | derived (face : Face) (derivation : Derivation) (source : Action) (own : source ∈ w.actions)
      (table : source.table.DerivedFrom derivation face.table)
      (id : face.table.id = ⟨w.lineage.next⟩)
      (lineage : w'.lineage = w.lineage.allocate.2.link face.table.id source.table.id)
      (gains : w.Gains w' (.derived face derivation source))
  | checker (face : Face) (test : TypeTerm) (table : face.table = w.checkerTable)
      (lineage : w'.lineage = w.lineage) (gains : w.Gains w' (.checker face test))

theorem makeNative_change {function : Native} {words : Option (List (Symbol × Value))}
    {result : Except BuildError Action} (h : w.makeNative function words = (result, w')) :
    Change w w' := by
  rcases makeNative_cases h with ⟨_, -, hk⟩ | ⟨face, rfl, horiginal, hid, hl, hadd⟩
  · exact .kept hk
  · exact .native face function words h horiginal hid hl hadd

theorem step_change (hw : w.Sound) (hs : Step w w') : Change w w' := by
  cases hs with
  | intern name => exact .kept (w.intern_keeps name)
  | register name => exact .kept (w.register_keeps name)
  | readSpec text => exact .kept (w.readSpec_keeps text)
  | makeNative function words => exact makeNative_change (Prod.eta _).symm
  | specialize source own bindings =>
    rcases specialize_cases (hw.wellFormed own) (Prod.eta (w.specialize source bindings)).symm with
      ⟨_, -, hk⟩ | ⟨face, -, hbinds, -, hid, hl, hadd⟩
    · exact .kept hk
    · exact .derived face .specialized source own ⟨bindings, hbinds⟩ hid hl hadd
  | augment source own spec label =>
    rcases augment_cases (hw.wellFormed own) (Prod.eta (w.augment source spec label)).symm with
      ⟨_, -, hk⟩ | ⟨face, -, hextends, hid, hl, hadd⟩
    · exact .kept hk
    · exact .derived face .augmented source own ⟨heads spec, hextends⟩ hid hl hadd
  | makeChecker descriptor =>
    rcases makeChecker_cases (Prod.eta (w.makeChecker descriptor)).symm with
      ⟨_, -, hk⟩ | ⟨face, test, -, htable, hl, hadd⟩
    · exact .kept hk
    · exact .checker face test htable hl hadd

theorem Change.grows (hc : Change w w') : w.Grows w' := by
  cases hc with
  | kept hk => exact hk.stock.grows
  | native face function words made original id hl hadd =>
    exact hadd.grows (hl ▸ Nat.le_succ _) (hl ▸ fun _ _ => rfl)
  | derived face derivation source own table hid hl hadd =>
    refine hadd.grows (hl ▸ Nat.le_succ _) fun id hlt => ?_
    rw [hl, Lineage.source?_link_ne, Lineage.source?_allocate]
    rintro rfl
    rw [hid] at hlt
    exact Nat.lt_irrefl _ hlt
  | checker face test table hl hadd => exact hadd.grows (hl ▸ Nat.le_refl _) (hl ▸ fun _ _ => rfl)

/-- **Every change keeps the invariant.** -/
theorem Change.sound (hc : Change w w') (hw : w.Sound) : w'.Sound := by
  have hg := hc.grows
  cases hc with
  | kept hk => exact hk.stock.sound hw
  | native face function words made original hid hl hadd =>
    have hnumber : face.table.id.number = w.lineage.next := by rw [hid]
    refine hw.gain hg hadd ⟨⟨?_, ?_⟩, original, ?_⟩ (fun _ => hnumber) ?_
    · rw [hg.checkerTable, hnumber]
      exact hw.checkerIssued
    · rw [hl, hnumber]
      exact Nat.lt_succ_self _
    · rw [hl, Lineage.source?_allocate]
      exact hw.unlinked _ (Nat.le_of_eq hnumber.symm)
    · intro id hle
      rw [hl] at hle ⊢
      exact hw.unlinked id (Nat.le_of_succ_le hle)
  | derived face derivation source own table hid hl hadd =>
    have hnumber : face.table.id.number = w.lineage.next := by rw [hid]
    refine hw.gain hg hadd ⟨⟨?_, ?_⟩, hg.actions source own, table, ?_, ?_⟩ (fun _ => hnumber) ?_
    · rw [hg.checkerTable, hnumber]
      exact hw.checkerIssued
    · rw [hl, hnumber]
      exact Nat.lt_succ_self _
    · rw [hnumber]
      exact hw.id_lt own
    · rw [hl]
      exact Lineage.source?_link_self _ _ _
    · intro id hle
      rw [hl] at hle ⊢
      rw [Lineage.source?_link_ne, Lineage.source?_allocate]
      · exact hw.unlinked id (Nat.le_of_succ_le hle)
      · rintro rfl
        rw [hid] at hle
        exact Nat.lt_irrefl _ hle
  | checker face test htable hl hadd =>
    refine hw.gain hg hadd (htable.trans hg.checkerTable.symm) (fun hi => ?_) ?_
    · have hafter := hi.after
      rw [hg.checkerTable, show (Action.checker face test).table = w.checkerTable from htable]
        at hafter
      exact absurd hafter (Nat.lt_irrefl _)
    · rw [hl]
      exact hw.unlinked

/-! ## New workshops -/

/-- A workshop with nothing but the table of typecheckers has given out one identity. -/
theorem bare_next : bare.lineage.next = 1 := by decide +kernel

theorem bare_hasOutput : bare.checkerTable.outputSlot.isSome = true := by decide +kernel

theorem bare_sound : bare.Sound := by
  have hnext := bare_next
  have hout := bare_hasOutput
  unfold bare at hnext hout ⊢
  cases hd : ({} : Workshop).draftSpec checkerSpec false with
  | mk result drafted =>
    have hk := draftSpec_keeps hd
    cases result with
    | error error =>
      simp only [hd, hk.stock.lineage] at hnext
      cases hnext
    | ok finished =>
      simp only [hd] at hout ⊢
      have hnone : drafted.actions = [] := hk.stock.actions
      refine ⟨draftSpec_original hd (.inr hout) _, Nat.lt_succ_self _, ?_, ?_, ?_, ?_⟩
      · show drafted.lineage.source? _ = none
        rw [hk.stock.lineage]
        rfl
      · show ∀ action ∈ drafted.actions, _
        rw [hnone]
        exact fun _ ha => absurd ha List.not_mem_nil
      · show ∀ a ∈ drafted.actions, _
        rw [hnone]
        exact fun _ ha => absurd ha List.not_mem_nil
      · intro id _
        show drafted.lineage.source? id = none
        rw [hk.stock.lineage]
        rfl

theorem install_sound (hw : w.Sound) (function : Native) : (w.install function).Sound := by
  unfold install
  split
  · next error made h => exact (makeNative_change h).sound hw
  · next action made h =>
    exact SameStock.sound (w := made) ⟨rfl, rfl, rfl⟩ ((makeNative_change h).sound hw)

theorem foldl_install_sound (functions : List Native) (hw : w.Sound) :
    (functions.foldl install w).Sound := by
  induction functions generalizing w with
  | nil => exact hw
  | cons function rest ih => exact ih (install_sound hw function)

theorem actions_note (w : Workshop) (event : Event) : (w.note event).actions = w.actions := rfl

theorem natives_note (w : Workshop) (event : Event) : (w.note event).natives = w.natives := rfl

theorem note_sameStock (w : Workshop) (event : Event) : w.SameStock (w.note event) :=
  ⟨rfl, rfl, rfl⟩

theorem note_sound (hw : w.Sound) (event : Event) : (w.note event).Sound :=
  (w.note_sameStock event).sound hw

-- The two lemmas keep the definition of a new workshop from being evaluated where only its last
-- step matters.
theorem fresh_actions : fresh.actions = (Library.all.foldl install bare).actions :=
  actions_note _ _

theorem fresh_natives : fresh.natives = (Library.all.foldl install bare).natives :=
  natives_note _ _

theorem fresh_sound : fresh.Sound :=
  note_sound (foldl_install_sound Library.all bare_sound) _

/-! ## Runs of a workshop -/

theorem Grows.refl (w : Workshop) : w.Grows w :=
  ⟨rfl, fun _ ha => ha, Nat.le_refl _, fun _ _ => rfl⟩

theorem Grows.trans {a b c : Workshop} (hab : a.Grows b) (hbc : b.Grows c) : a.Grows c where
  checkerTable := hbc.checkerTable.trans hab.checkerTable
  actions action ha := hbc.actions action (hab.actions action ha)
  next := Nat.le_trans hab.next hbc.next
  links id hlt := (hbc.links id (Nat.lt_of_lt_of_le hlt hab.next)).trans (hab.links id hlt)

/-- Any operations grow a workshop and keep the invariant. -/
theorem Leads.sound (h : w.Leads w') (hw : w.Sound) : w.Grows w' ∧ w'.Sound := by
  induction h with
  | refl => exact ⟨.refl w, hw⟩
  | tail _ hstep ih =>
    have hc := step_change ih.2 hstep
    exact ⟨ih.1.trans hc.grows, hc.sound ih.2⟩

/-- **Every workshop that is reached is sound.** -/
theorem Reachable.sound (h : w.Reachable) : w.Sound := (Leads.sound h fresh_sound).2

/-- **Induction over all operations**, those that set up a new workshop included. What holds of a
bare workshop, is kept by every change and depends on the stock alone holds wherever operations
lead. -/
theorem Reachable.induction {motive : Workshop → Prop} (bare : motive bare)
    (change : ∀ {w w' : Workshop}, Change w w' → motive w → motive w')
    (same : ∀ {w w' : Workshop}, w.SameStock w' → motive w → motive w') (h : w.Reachable) :
    motive w := by
  have installed : ∀ {w : Workshop} (function : Native), motive w →
      motive (w.install function) := by
    intro w function hw
    unfold install
    split
    · next error made hmake => exact change (makeNative_change hmake) hw
    · next action made hmake =>
      exact same (w := made) ⟨rfl, rfl, rfl⟩ (change (makeNative_change hmake) hw)
  have library : ∀ (functions : List Native) {w : Workshop}, motive w →
      motive (functions.foldl install w) := by
    intro functions
    induction functions with
    | nil => exact fun hw => hw
    | cons function rest ih => exact fun hw => ih (installed function hw)
  induction h with
  | refl => exact same (note_sameStock _ _) (library Library.all bare)
  | tail hreach hstep ih => exact change (step_change (Reachable.sound hreach) hstep) ih

theorem Reachable.leads (h : w.Reachable) (hl : w.Leads w') : w'.Reachable :=
  Relation.ReflTransGen.trans h hl

/-- An action and one derived from it are there, whatever is done afterwards. -/
theorem Leads.derived_mem {w'' : Workshop} (hw : w.Sound) (hfirst : w.Leads w')
    (hrest : w'.Leads w'') {source derived : Action} (own : source ∈ w.actions)
    (made : w.Gains w' derived) :
    w''.Sound ∧ derived ∈ w''.actions ∧ source ∈ w''.actions := by
  obtain ⟨hgrow', hw'⟩ := hfirst.sound hw
  obtain ⟨hgrow'', hw''⟩ := hrest.sound hw'
  exact ⟨hw'', hgrow''.actions _ made.mem, hgrow''.actions _ (hgrow'.actions _ own)⟩

theorem Leads.specialize {source : Action} (own : source ∈ w.actions)
    {bindings : List (Symbol × Value)} {result : Except BuildError Action}
    (h : w.specialize source bindings = (result, w')) : w.Leads w' := by
  have hstep := Step.specialize w source own bindings
  rw [h] at hstep
  exact .single hstep

theorem Leads.augment {source : Action} (own : source ∈ w.actions) {spec : List Value}
    {label : Option Symbol} {result : Except BuildError Action}
    (h : w.augment source spec label = (result, w')) : w.Leads w' := by
  have hstep := Step.augment w source own spec label
  rw [h] at hstep
  exact .single hstep

/-- What is specialized is there, and the workshop is still one that is reached. -/
theorem Reachable.specialize (hw : w.Reachable) {source made : Action} (own : source ∈ w.actions)
    {bindings : List (Symbol × Value)} (h : w.specialize source bindings = (.ok made, w')) :
    w'.Reachable ∧ made ∈ w'.actions := by
  refine ⟨hw.leads (.specialize own h), ?_⟩
  rcases specialize_cases (hw.sound.wellFormed own) h with
    ⟨_, herror, -⟩ | ⟨_, hok, -, -, -, -, hadded⟩
  · cases herror
  · obtain rfl := Except.ok.inj hok
    exact hadded.mem

/-- What is augmented is there, and the workshop is still one that is reached. -/
theorem Reachable.augment (hw : w.Reachable) {source made : Action} (own : source ∈ w.actions)
    {spec : List Value} {label : Option Symbol}
    (h : w.augment source spec label = (.ok made, w')) :
    w'.Reachable ∧ made ∈ w'.actions := by
  refine ⟨hw.leads (.augment own h), ?_⟩
  rcases augment_cases (hw.sound.wellFormed own) h with ⟨_, herror, -⟩ | ⟨_, hok, -, -, -, hadded⟩
  · cases herror
  · obtain rfl := Except.ok.inj hok
    exact hadded.mem

/-! ## Trials with the library -/

/-- What is done with the action at a place, if there is one. -/
def trial {α : Type} (w : Workshop) (place : Nat) (run : Workshop → Action → Option α) : Option α :=
  w.actions[place]?.bind (run w)

variable {α : Type} {place : Nat} {run : Workshop → Action → Option α} {result : α}

theorem mem_of_trial (h : w.trial place run = some result) :
    ∃ action ∈ w.actions, run w action = some result := by
  obtain ⟨action, haction, hrun⟩ := Option.bind_eq_some_iff.mp h
  exact ⟨action, List.mem_of_getElem? haction, hrun⟩

/-- A new workshop is reached. Under a name of its own it is not evaluated: nothing that is shown of
it depends on what it holds. -/
theorem exists_fresh : ∃ made : Workshop, made = fresh ∧ made.Reachable := ⟨fresh, rfl, .refl⟩

/-- **A trial with the library of a new workshop** is one with an action of a workshop that is
reached. -/
theorem exists_of_trial (h : fresh.trial place run = some result) :
    ∃ made : Workshop, made = fresh ∧ made.Reachable ∧
      ∃ action ∈ made.actions, run made action = some result := by
  obtain ⟨made, rfl, hmade⟩ := exists_fresh
  exact ⟨_, rfl, hmade, mem_of_trial h⟩

theorem Change.natives (hc : Change w w') : w'.natives = w.natives := by
  cases hc with
  | kept hk => exact hk.natives
  | native _ _ _ _ _ _ _ hadd => exact hadd.natives
  | derived _ _ _ _ _ _ _ hadd => exact hadd.natives
  | checker _ _ _ _ hadd => exact hadd.natives

/-- **The library of a workshop is that of a new one.** -/
theorem Reachable.natives (h : w.Reachable) : w.natives = fresh.natives := by
  induction h with
  | refl => rfl
  | tail hreach hstep ih => exact (step_change (Reachable.sound hreach) hstep).natives.trans ih

end Workshop

end ActionKit
