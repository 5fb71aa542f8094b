import ActionKit.Proofs.Descent
import ActionKit.Proofs.Kinship
import ActionKit.Proofs.Library
import ActionKit.Proofs.Tables

/-!
# The forest of tables

Links are recorded by the two derivations, apart from the actions that they make. All the same they
lead from every table that was derived to the one that it was derived from, and from no other table:
along the links the tables of a workshop form a forest, with the natives and the table of the
typecheckers as its roots.

* `Lineage.Ordered`: links lead to older tables, and no table has two of them.
* `Workshop.created`: the tables that a workshop has created, one for each time.
* `Workshop.MadeFrom`: an action was made from another one on the way to a workshop.
* `Workshop.Forest`: what the links are.

Results:
* `Ordered.climb_le`: every link leads further down, so walks end and never come back.
* `Reachable.ordered`: the links of a workshop are ordered.
* `Reachable.created_ids`: every identity is given out to one table, in the order of making.
* `Reachable.exists_madeFrom`: what has a source was made from it.
* `lineage_forest`: the links of a workshop are a forest.
-/

namespace ActionKit

/-! ## Ordered links -/

namespace Lineage

/-- **Links lead to older tables**, and no table has two of them. -/
structure Ordered (lineage : Lineage) : Prop where
  descends : ∀ link ∈ lineage.links,
    link.2.number < link.1.number ∧ link.1.number < lineage.next
  once : (lineage.links.map (·.1)).Nodup

variable {lineage : Lineage}

theorem Ordered.allocate (h : lineage.Ordered) : lineage.allocate.2.Ordered where
  descends link hlink := ⟨(h.descends link hlink).1, Nat.lt_succ_of_lt (h.descends link hlink).2⟩
  once := h.once

theorem Ordered.link (h : lineage.Ordered) {derived source : TableId}
    (hsource : source.number < derived.number) (hderived : derived.number < lineage.next)
    (hnew : lineage.source? derived = none) : (lineage.link derived source).Ordered where
  descends link hlink := by
    rcases List.mem_cons.mp hlink with rfl | hold
    · exact ⟨hsource, hderived⟩
    · exact h.descends link hold
  once := by
    refine List.nodup_cons.mpr ⟨fun hmem => ?_, h.once⟩
    obtain ⟨link, hlink, rfl⟩ := List.mem_map.mp hmem
    cases hnew.symm.trans (lookup_of_mem h.once hlink)

/-- **Every link leads further down.** -/
theorem Ordered.climb_le (h : lineage.Ordered) {links : Nat} {table ancestor : TableId}
    (hclimb : lineage.climb links table = some ancestor) :
    ancestor.number + links ≤ table.number := by
  induction links generalizing table with
  | zero =>
    obtain rfl := Option.some.inj hclimb
    exact Nat.le_refl _
  | succ links ih =>
    obtain ⟨source, hsource, hrest⟩ := Option.bind_eq_some_iff.mp hclimb
    have hlt : source.number < table.number := (h.descends _ (mem_of_lookup hsource)).1
    have hle := ih hrest
    omega

/-- A table has fewer ancestors than there are smaller identities. -/
theorem Ordered.climb_eq_none (h : lineage.Ordered) {links : Nat} {table : TableId}
    (hlt : table.number < links) : lineage.climb links table = none := by
  cases hclimb : lineage.climb links table with
  | none => rfl
  | some ancestor =>
    have hle := h.climb_le hclimb
    omega

theorem Ordered.derivesFrom_antisymm (h : lineage.Ordered) {a b : TableId}
    (hab : lineage.derivesFrom a b = true) (hba : lineage.derivesFrom b a = true) : a = b := by
  obtain ⟨up, -, hup⟩ := derivesFrom_iff.mp hab
  obtain ⟨down, -, hdown⟩ := derivesFrom_iff.mp hba
  have hle := h.climb_le hup
  have hge := h.climb_le hdown
  -- No link leads from one to the other, since none would lead back.
  obtain rfl : up = 0 := by omega
  exact Option.some.inj hup

end Lineage

namespace Workshop

variable {w w' : Workshop}

theorem Change.ordered (hc : Change w w') (hw : w.Sound) (h : w.lineage.Ordered) :
    w'.lineage.Ordered := by
  cases hc with
  | kept hk =>
    rw [hk.stock.lineage]
    exact h
  | native face function words made original hid hl hadd =>
    rw [hl]
    exact h.allocate
  | derived face derivation source own table hid hl hadd =>
    have hnumber : face.table.id.number = w.lineage.next := by rw [hid]
    rw [hl]
    refine h.allocate.link ?_ ?_ ?_
    · rw [hnumber]
      exact hw.id_lt own
    · rw [hnumber]
      exact Nat.lt_succ_self _
    · exact hw.unlinked _ (Nat.le_of_eq hnumber.symm)
  | checker face test table hl hadd =>
    rw [hl]
    exact h

theorem bare_links : bare.lineage.links = [] := by decide +kernel

theorem bare_ordered : bare.lineage.Ordered where
  descends := by
    rw [bare_links]
    exact fun _ hlink => absurd hlink List.not_mem_nil
  once := by
    rw [bare_links]
    exact List.nodup_nil

/-- **The links of a workshop are ordered.** -/
theorem Reachable.ordered (hw : w.Reachable) : w.lineage.Ordered := by
  -- That a new table has no link yet is part of the invariant of workshops.
  have both : w.Sound ∧ w.lineage.Ordered := by
    refine hw.induction (motive := fun w => w.Sound ∧ w.lineage.Ordered)
      ⟨bare_sound, bare_ordered⟩ ?_ ?_
    · exact fun hc h => ⟨hc.sound h.1, hc.ordered h.1 h.2⟩
    · exact fun hs h => ⟨hs.sound h.1, hs.lineage ▸ h.2⟩
  exact both.2

end Workshop

/-! ## The tables that were created -/

namespace Lineage

/-- The identities given out so far, in order. -/
def issued (lineage : Lineage) : List TableId := (List.range lineage.next).map TableId.mk

theorem issued_allocate (lineage : Lineage) :
    lineage.allocate.2.issued = lineage.issued ++ [⟨lineage.next⟩] := by
  show (List.range (lineage.next + 1)).map TableId.mk = _
  rw [List.range_succ, List.map_append, List.map_singleton]
  rfl

theorem issued_link (lineage : Lineage) (derived source : TableId) :
    (lineage.link derived source).issued = lineage.issued := rfl

theorem nodup_issued (lineage : Lineage) : lineage.issued.Nodup :=
  List.nodup_range.map fun _ _ h => TableId.mk.inj h

end Lineage

/-- Whether an action came with a table of its own. Typecheckers have the one that they share. -/
def Action.ownsTable : Action → Bool
  | .checker _ _ => false
  | _ => true

namespace Workshop

variable {w w' : Workshop}

/-- **The tables that a workshop has created**, in the order of making: that of the typecheckers,
and one for every action that came with its own. -/
def created (w : Workshop) : List Table :=
  w.checkerTable :: (w.actions.filter (·.ownsTable)).map (·.table)

theorem SameStock.created_eq (h : w.SameStock w') : w'.created = w.created := by
  unfold created
  rw [h.checkerTable, h.actions]

theorem Gains.created_eq {action : Action} (h : w.Gains w' action) :
    w'.created = w.created ++ ([action].filter (·.ownsTable)).map (·.table) := by
  unfold created
  rw [h.checkerTable, h.actions, List.filter_append, List.map_append, List.cons_append]

theorem Change.created_ids (hc : Change w w') (h : w.created.map (·.id) = w.lineage.issued) :
    w'.created.map (·.id) = w'.lineage.issued := by
  cases hc with
  | kept hk => rw [hk.stock.created_eq, hk.stock.lineage, h]
  | native face function words made original hid hl hadd =>
    rw [hadd.created_eq, List.map_append, h, hl, Lineage.issued_allocate, ← hid]
    rfl
  | derived face derivation source own table hid hl hadd =>
    rw [hadd.created_eq, List.map_append, h, hl, Lineage.issued_link, Lineage.issued_allocate,
      ← hid]
    rfl
  | checker face test table hl hadd =>
    rw [hadd.created_eq, List.map_append, h, hl]
    exact List.append_nil _

theorem bare_created_ids : bare.created.map (·.id) = bare.lineage.issued := by
  unfold created Lineage.issued
  rw [bare_actions, bare_next, List.map_cons, bare_checkerId]
  rfl

/-- **Every identity is given out to one table**, in the order of making. -/
theorem Reachable.created_ids (hw : w.Reachable) : w.created.map (·.id) = w.lineage.issued := by
  refine hw.induction (motive := fun w => w.created.map (·.id) = w.lineage.issued)
    bare_created_ids (fun hc => hc.created_ids) fun hs h => ?_
  rw [hs.created_eq, hs.lineage, h]

/-- The table of every action was created once, by the action or for all typecheckers. -/
theorem Sound.table_mem_created (hw : w.Sound) {action : Action} (ha : action ∈ w.actions) :
    action.table ∈ w.created := by
  have hown : action.ownsTable = true → action.table ∈ w.created := fun h =>
    List.mem_cons_of_mem _ (List.mem_map_of_mem (List.mem_filter.mpr ⟨ha, h⟩))
  match action with
  | .native _ _ _ => exact hown rfl
  | .derived _ _ _ => exact hown rfl
  | .checker face test =>
    have htable : face.table = w.checkerTable := hw.accounts _ ha
    exact List.mem_cons.mpr (.inl htable)

/-! ## What was made from what -/

/-- **An action was made from another one** on the way to a workshop. -/
def MadeFrom (w : Workshop) (source : Action) (derivation : Derivation) (action : Action) : Prop :=
  ∃ before after : Workshop, before.Reachable ∧ source ∈ before.actions ∧
    before.Derives source derivation action after ∧ after.Leads w

/-- What has a source and was not there before an operation was derived by it. -/
theorem Step.derives (hw : w.Sound) (hs : Step w w') {action source : Action}
    (ha : action ∈ w'.actions) (hnew : action ∉ w.actions)
    (hsource : action.source? = some source) :
    source ∈ w.actions ∧ ∃ derivation, w.Derives source derivation action w' := by
  have kept : w.Keeps w' → False := fun hk => hnew (hk.stock.actions ▸ ha)
  have gained : ∀ {made : Action}, w.Gains w' made → action = made := by
    intro made hadd
    rw [hadd.actions] at ha
    rcases List.mem_append.mp ha with hold | hlast
    · exact absurd hold hnew
    · exact List.mem_singleton.mp hlast
  cases hs with
  | intern name => exact (kept (w.intern_keeps name)).elim
  | register name => exact (kept (w.register_keeps name)).elim
  | readSpec text => exact (kept (w.readSpec_keeps text)).elim
  | makeNative function words =>
    rcases makeNative_cases (Prod.eta (w.makeNative function words)).symm with
      ⟨_, -, hk⟩ | ⟨face, -, -, -, -, hadd⟩
    · exact (kept hk).elim
    · obtain rfl := gained hadd
      cases hsource
  | specialize source' own bindings =>
    rcases specialize_cases (hw.wellFormed own) (Prod.eta (w.specialize source' bindings)).symm with
      ⟨_, -, hk⟩ | ⟨face, hok, -, -, -, -, hadd⟩
    · exact (kept hk).elim
    · obtain rfl := gained hadd
      obtain rfl := Option.some.inj hsource
      exact ⟨own, .specialized, .specialize bindings (Prod.ext hok rfl)⟩
  | augment source' own spec label =>
    rcases augment_cases (hw.wellFormed own) (Prod.eta (w.augment source' spec label)).symm with
      ⟨_, -, hk⟩ | ⟨face, hok, -, -, -, hadd⟩
    · exact (kept hk).elim
    · obtain rfl := gained hadd
      obtain rfl := Option.some.inj hsource
      exact ⟨own, .augmented, .augment spec label (Prod.ext hok rfl)⟩
  | makeChecker descriptor =>
    rcases makeChecker_cases (Prod.eta (w.makeChecker descriptor)).symm with
      ⟨_, -, hk⟩ | ⟨face, test, -, -, -, hadd⟩
    · exact (kept hk).elim
    · obtain rfl := gained hadd
      cases hsource

/-- A new workshop has natives only. -/
theorem fresh_underived {action : Action} (ha : action ∈ fresh.actions) :
    action.source? = none := by
  obtain ⟨hstocks, hactions⟩ := fresh_stock
  rw [hactions] at ha
  obtain ⟨function, -, face, rfl⟩ := exists_of_forall₂ hstocks ha
  rfl

/-- **What has a source was made from it.** -/
theorem Reachable.exists_madeFrom (hw : w.Reachable) {action source : Action}
    (ha : action ∈ w.actions) (hsource : action.source? = some source) :
    ∃ derivation, w.MadeFrom source derivation action := by
  induction hw with
  | refl => cases (fresh_underived ha).symm.trans hsource
  | @tail w w' hreach hstep ih =>
    by_cases hold : action ∈ w.actions
    · obtain ⟨derivation, before, after, hbefore, hown, hderives, hleads⟩ := ih hold
      exact ⟨derivation, before, after, hbefore, hown, hderives, hleads.tail hstep⟩
    · obtain ⟨hown, derivation, hderives⟩ :=
        hstep.derives (Reachable.sound hreach) ha hold hsource
      exact ⟨derivation, w, w', hreach, hown, hderives, .refl⟩

/-- A derived action knows its source, and its table is a new one that is linked to that of the
source. -/
theorem Derives.links {source derived : Action} {derivation : Derivation}
    (h : w.Derives source derivation derived w') (hs : source.table.WellFormed) :
    derived.source? = some source ∧ derived.table.id = ⟨w.lineage.next⟩ ∧
      w'.lineage = w.lineage.allocate.2.link derived.table.id source.table.id := by
  cases h with
  | specialize bindings made =>
    rcases specialize_cases hs made with ⟨_, herror, -⟩ | ⟨face, hok, -, -, hid, hl, -⟩
    · cases herror
    · obtain rfl := Except.ok.inj hok
      exact ⟨rfl, hid, hl⟩
  | augment spec label made =>
    rcases augment_cases hs made with ⟨_, herror, -⟩ | ⟨face, hok, -, hid, hl, -⟩
    · cases herror
    · obtain rfl := Except.ok.inj hok
      exact ⟨rfl, hid, hl⟩

theorem MadeFrom.mem {source action : Action} {derivation : Derivation}
    (h : w.MadeFrom source derivation action) :
    action ∈ w.actions ∧ action.source? = some source ∧ action.derivation? = some derivation := by
  obtain ⟨before, after, hbefore, hown, hderives, hleads⟩ := h
  have hwf := hbefore.sound.wellFormed hown
  obtain ⟨-, hderivation, hadd⟩ := hderives.derivedFrom hwf
  have hafter := (hbefore.leads (hderives.leads hown)).sound
  exact ⟨(hleads.sound hafter).1.actions _ hadd.mem, (hderives.links hwf).1, hderivation⟩

/-- The link of a derived action is what dispatch looks for when it passes a frame on. -/
theorem Sound.dispatch_source (hw : w.Sound) {action source : Action} (ha : action ∈ w.actions)
    (hsource : action.source? = some source) {frame : Frame} (hphase : frame.root.phase = action) :
    frame.dispatch w.lineage = .redirected (frame.redirect source.root) := by
  have hlink := hw.source?_eq ha
  match action with
  | .derived face derivation source' =>
    obtain rfl := Option.some.inj hsource
    unfold Frame.dispatch
    rw [hphase]
    exact if_pos hlink

/-! ## The forest -/

/-- **What the links of a workshop are.** -/
structure Forest (w : Workshop) : Prop where
  /-- Every link leads to a smaller identity, all are below the next one, and no table has two. -/
  ordered : w.lineage.Ordered
  /-- A derivation links a table that has no link yet, and not to itself. -/
  linkable : ∀ (source derived : Action) (derivation : Derivation) (w' : Workshop),
    source ∈ w.actions → w.Derives source derivation derived w' →
      w'.lineage = w.lineage.allocate.2.link derived.table.id source.table.id ∧
        derived.table.id ≠ source.table.id ∧
        w.lineage.allocate.2.source? derived.table.id = none
  /-- No two tables share an identity. -/
  distinct : (w.created.map (·.id)).Nodup
  tables : ∀ action ∈ w.actions, action.table ∈ w.created
  /-- There are no links but those of derivations. -/
  links : ∀ link ∈ w.lineage.links, ∃ source action derivation,
    w.MadeFrom source derivation action ∧ link = (action.table.id, source.table.id)
  /-- The tables that have links are those of the actions made by derivations. -/
  linked_iff : ∀ action ∈ w.actions, (w.lineage.source? action.table.id).isSome = true ↔
    ∃ source derivation, w.MadeFrom source derivation action
  /-- The link of such a table leads to that of the source, which is where the action says that it
  comes from and where it passes frames on to. -/
  source : ∀ (source action : Action) (derivation : Derivation),
    w.MadeFrom source derivation action →
      w.lineage.source? action.table.id = some source.table.id ∧
        action.source? = some source ∧ action.derivation? = some derivation ∧
        ∀ frame : Frame, frame.root.phase = action →
          frame.dispatch w.lineage = .redirected (frame.redirect source.root)
  /-- A chain of links ends before it is longer than the identity that it starts with. -/
  finite : ∀ (table : TableId) (links : Nat), table.number < links →
    w.lineage.climb links table = none
  antisymm : ∀ a b : TableId, w.lineage.derivesFrom a b = true →
    w.lineage.derivesFrom b a = true → a = b

/-- Every link was recorded by a derivation. -/
theorem Reachable.link_madeFrom (hw : w.Reachable) {link : TableId × TableId}
    (hlink : link ∈ w.lineage.links) : ∃ source action derivation,
      w.MadeFrom source derivation action ∧ link = (action.table.id, source.table.id) := by
  have hsource : w.lineage.source? link.1 = some link.2 := lookup_of_mem hw.ordered.once hlink
  obtain ⟨table, hmem, hid⟩ := hw.numbered link.1.number (hw.ordered.descends link hlink).2
  rw [← show table.id = link.1 from hid] at hsource
  rcases List.mem_cons.mp hmem with rfl | haction
  · cases hw.sound.checkerUnlinked.symm.trans hsource
  · obtain ⟨action, ha, rfl⟩ := List.mem_map.mp haction
    rw [hw.sound.source?_eq ha] at hsource
    obtain ⟨source, hs, htarget⟩ := Option.map_eq_some_iff.mp hsource
    obtain ⟨derivation, hmade⟩ := hw.exists_madeFrom ha hs
    exact ⟨source, action, derivation, hmade, Prod.ext hid.symm htarget.symm⟩

/-- **The links of a workshop are a forest**, whatever operations were made and failed. -/
theorem lineage_forest (hw : w.Reachable) : w.Forest where
  ordered := hw.ordered
  linkable source derived derivation w' own hderives := by
    obtain ⟨-, hid, hl⟩ := hderives.links (hw.sound.wellFormed own)
    refine ⟨hl, fun heq => ?_, ?_⟩
    · have hlt := hw.sound.id_lt own
      rw [← heq, hid] at hlt
      exact Nat.lt_irrefl _ hlt
    · rw [Lineage.source?_allocate, hid]
      exact hw.sound.unlinked _ (Nat.le_refl _)
  distinct := by
    rw [hw.created_ids]
    exact w.lineage.nodup_issued
  tables _ ha := hw.sound.table_mem_created ha
  links _ hlink := hw.link_madeFrom hlink
  linked_iff action ha := by
    rw [hw.sound.source?_eq ha, Option.isSome_map, Option.isSome_iff_exists]
    constructor
    · rintro ⟨source, hsource⟩
      exact ⟨source, hw.exists_madeFrom ha hsource⟩
    · rintro ⟨source, derivation, hmade⟩
      exact ⟨source, hmade.mem.2.1⟩
  source source action derivation hmade := by
    obtain ⟨ha, hsource, hderivation⟩ := hmade.mem
    refine ⟨?_, hsource, hderivation, fun _ hphase => hw.sound.dispatch_source ha hsource hphase⟩
    rw [hw.sound.source?_eq ha, hsource]
    rfl
  finite _ _ hlt := hw.ordered.climb_eq_none hlt
  antisymm _ _ := hw.ordered.derivesFrom_antisymm

theorem checker_chain_made :
    (match fresh.makeChecker (.datatype (.builtin .logic)) with
    | (.ok checker, w) =>
      match w.augment checker [.word ⟨99⟩] none with
      | (.ok augmented, w) =>
        match w.augment augmented [.word ⟨99⟩] none with
        | (.error _, w) =>
          match w.specialize augmented [(⟨99⟩, .logic true)] with
          | (.ok _, w) => w.lineage.links
          | (.error _, _) => []
        | (.ok _, _) => []
      | (.error _, _) => []
    | (.error _, _) => []) = [(⟨7⟩, ⟨6⟩), (⟨6⟩, ⟨0⟩)] := by
  decide +kernel

/-- A typechecker is augmented, and the augmentation is specialized, with a failed attempt to
augment it again in between. -/
theorem lineage_forest_checker : ∃ w : Workshop, w.Reachable ∧
    w.lineage.links = [(⟨7⟩, ⟨6⟩), (⟨6⟩, ⟨0⟩)] ∧ w.Forest := by
  obtain ⟨made, hmade, hfresh⟩ := exists_fresh
  have hmatch := checker_chain_made
  rw [← hmade] at hmatch
  split at hmatch
  · next checker w₁ hchecker =>
    have hstep := Step.makeChecker made (.datatype (.builtin .logic))
    rw [hchecker] at hstep
    have hw₁ : w₁.Reachable := hfresh.leads (.single hstep)
    rcases makeChecker_cases hchecker with ⟨_, herror, -⟩ | ⟨face, test, hok, -, -, hgains⟩
    · cases herror
    obtain rfl := Except.ok.inj hok
    split at hmatch
    · next augmented w₂ haugment =>
      have hderives : w₁.Derives _ .augmented augmented w₂ := .augment _ _ haugment
      have hw₂ := hw₁.leads (hderives.leads hgains.mem)
      have hmem := (hderives.derivedFrom (hw₁.sound.wellFormed hgains.mem)).2.2.mem
      split at hmatch
      · next error w₃ hfailed =>
        have hleads : w₂.Leads w₃ := .augment hmem hfailed
        have hkept := (hleads.sound hw₂.sound).1.actions _ hmem
        split at hmatch
        · next specialized w₄ hspecialize =>
          have hw₄ := (hw₂.leads hleads).leads (.specialize hkept hspecialize)
          exact ⟨w₄, hw₄, hmatch, lineage_forest hw₄⟩
        · cases hmatch
      · cases hmatch
    · cases hmatch
  · cases hmatch

end Workshop

end ActionKit
