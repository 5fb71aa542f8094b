import ActionKit.Proofs.Forest
import ActionKit.Proofs.Merging
import ActionKit.Proofs.OutputSlot
import ActionKit.Proofs.TypeBlocks
import Mathlib.Data.List.InsertIdx

/-!
# The constraints of tables

Constraints come from the blocks of specs or are those that a role has by default, and neither
lists a category twice. Derivations keep the constraints of the parameters they start from.

* `Entry.Tidy`: an entry whose constraint lists no category twice.
* `Table.Tidy`, `Workshop.Tidy`: a table with such entries only, and a workshop with such tables.

Results:
* `run_tidy`: a spec declares tidy entries.
* `Derives.tidy`: derivations keep the constraints of their source.
* `Reachable.tidy`: every constraint of a workshop lists each category once.
-/

namespace ActionKit

/-! ## Entries -/

namespace Entry

/-- An entry whose constraint, if it has one, lists no category twice. -/
def Tidy (entry : Entry) : Prop :=
  ∀ role types, entry.content = .unbound role types → types.Distinct

theorem header_tidy : header.Tidy := fun _ _ h => by cases h

/-- The constraints that roles have by default list no categories. -/
theorem declared_tidy (name : Symbol) (role : Role) : (declared name role).Tidy := by
  intro own types h
  obtain ⟨-, rfl⟩ := Content.unbound.inj h
  cases role <;> exact List.nodup_nil

variable {entry : Entry}

theorem Tidy.congr (h : entry.Tidy) {other : Entry} (heq : other.content = entry.content) :
    other.Tidy := fun role types hcontent => h role types (heq ▸ hcontent)

theorem Tidy.sealFixed (h : entry.Tidy) : entry.sealFixed.Tidy := h.congr entry.content_sealFixed

theorem Tidy.fixedBy (h : entry.Tidy) (bindings : List (Symbol × Value)) :
    (entry.fixedBy bindings).Tidy := by
  unfold Entry.fixedBy
  split
  · exact fun _ _ hcontent => by cases hcontent
  · exact h

end Entry

/-- A table whose constraints list no category twice. -/
def Table.Tidy (table : Table) : Prop := ∀ entry ∈ table.entries, entry.Tidy

/-! ## Declaring -/

namespace Declaring

/-- The entries that have been declared so far are tidy. -/
def Tidy (state : Declaring) : Prop := ∀ entry ∈ state.entries, entry.Tidy

theorem tidy_modify {entries : List Entry} (h : ∀ entry ∈ entries, entry.Tidy) (slot : Nat)
    {f : Entry → Entry} (hf : ∀ entry, entry.Tidy → (f entry).Tidy) :
    ∀ entry ∈ entries.modify slot f, entry.Tidy := by
  intro entry hentry
  obtain ⟨i, hi⟩ := List.mem_iff_getElem?.mp hentry
  rw [List.getElem?_modify] at hi
  obtain ⟨old, hold, rfl⟩ := Option.map_eq_some_iff.mp hi
  have htidy := h old (List.mem_of_getElem? hold)
  split
  · exact hf old htidy
  · exact htidy

/-- What is declared in the end is tidy. -/
theorem Tidy.declare {state : Declaring} (h : state.Tidy) (name : Symbol) (role : Role) :
    ∀ entry ∈ state.entries ++ [.declared name role], entry.Tidy := by
  intro entry hentry
  rcases List.mem_append.mp hentry with hold | hnew
  · exact h entry hold
  · rw [List.mem_singleton.mp hnew]
    exact Entry.declared_tidy name role

/-- **Taking an item keeps entries tidy**: the constraint of a block is the union of its items. -/
theorem Taken.tidy {position : Nat} {state next : Declaring} {value : Value}
    (taken : Taken position state value next) (h : state.Tidy) : next.Tidy := by
  cases taken with
  | description => exact h
  | notes bytes slot => exact tidy_modify h slot fun entry hentry => hentry.congr rfl
  | types items slot types _ htypes _ =>
    refine tidy_modify h slot fun entry hentry role own hcontent => ?_
    unfold typed at hcontent
    split at hcontent
    · obtain ⟨-, rfl⟩ := Content.unbound.inj hcontent
      exact (unionOf_of_typeBlock htypes).distinct
    · exact hentry role own hcontent
  | parameter value name role => exact h.declare name role
  | output => exact h.declare .output .output

/-- **A spec declares tidy entries**, also where it is rejected. -/
theorem run_tidy {state : Declaring} (h : state.Tidy) (spec : List Value) (withOutput : Bool) :
    (state.run spec withOutput).2.Tidy := by
  have hitems := items_preserves Tidy (fun taken => taken.tidy) spec 0 h
  unfold run
  split
  · next hrun =>
    rw [hrun] at hitems
    exact hitems
  · next next hrun =>
    rw [hrun] at hitems
    split
    · intro entry hentry
      rcases List.eq_or_mem_of_mem_insertIdx hentry with rfl | hold
      · exact Entry.declared_tidy .output .output
      · exact hitems entry hold
    · exact hitems

end Declaring

/-! ## Workshops -/

namespace Workshop

variable {w w' : Workshop}

/-- A workshop whose constraints list no category twice. -/
def Tidy (w : Workshop) : Prop := ∀ table ∈ w.tables, table.Tidy

theorem draftSpec_tidy {text : String} {withOutput : Bool} {finished : Finished}
    (h : w.draftSpec text withOutput = (.ok finished, w')) :
    ∀ entry ∈ finished.entries, entry.Tidy := by
  unfold draftSpec at h
  split at h
  · cases (Prod.mk.inj h).1
  · next spec read hread =>
    obtain ⟨draft, scratch, hfill, hfinish⟩ := draft_ok h
    obtain ⟨state, hrun, hshows⟩ := (Draft.start_shows read.scratch).declare hfill
    obtain ⟨rfl, -⟩ := hshows.finish hfinish
    have hbare : Declaring.Tidy { entries := [.header], outputSlot := none } :=
      fun entry hentry => List.mem_singleton.mp hentry ▸ Entry.header_tidy
    have htidy := Declaring.run_tidy hbare spec withOutput
    rw [hrun] at htidy
    exact htidy

/-- The table of a native comes from the spec that it declares. -/
theorem makeNative_tidy {function : Native} {words : Option (List (Symbol × Value))}
    {action : Action} (h : w.makeNative function words = (.ok action, w')) :
    action.table.Tidy := by
  unfold makeNative at h
  split at h
  · cases (Prod.mk.inj h).1
  · next finished drafted hd =>
    obtain rfl := Except.ok.inj (Prod.mk.inj h).1
    exact draftSpec_tidy hd

/-- **A derivation keeps the constraints of its source**, and those of a spec are tidy. -/
theorem Derives.tidy {source derived : Action} {derivation : Derivation}
    (h : w.Derives source derivation derived w') (hs : source.table.WellFormed)
    (htidy : source.table.Tidy) : derived.table.Tidy := by
  have hbody : ∀ entry ∈ source.table.body, entry.Tidy := fun entry hentry =>
    htidy entry (List.mem_of_mem_drop hentry)
  cases h with
  | specialize bindings made =>
    rcases specialize_cases hs made with ⟨_, herror, -⟩ | ⟨face, hok, hbinds, -⟩
    · cases herror
    · obtain rfl := Except.ok.inj hok
      intro entry hentry
      rw [show (Action.derived face .specialized source).table.entries = _ from hbinds.entries]
        at hentry
      rcases List.mem_cons.mp hentry with rfl | hentry
      · exact Entry.header_tidy
      · obtain ⟨old, hold, rfl⟩ := List.mem_map.mp hentry
        exact (hbody old hold).fixedBy bindings
  | augment spec label made =>
    have hmade := augment_fst w source spec label
    rw [made] at hmade
    have hstart : source.table.sealing.Tidy := by
      intro entry hentry
      rcases List.mem_cons.mp hentry with rfl | hentry
      · exact Entry.header_tidy
      · obtain ⟨old, hold, rfl⟩ := List.mem_map.mp hentry
        exact (hbody old hold).sealFixed
    have hitems := Declaring.items_preserves Declaring.Tidy (fun taken => taken.tidy) spec 0 hstart
    unfold Table.merge at hmade
    split at hmade
    · cases hmade
    · next state hstate =>
      rw [hstate] at hitems
      split at hmade
      · cases hmade
      · obtain rfl := Except.ok.inj hmade
        exact hitems

theorem bare_checker_tidy : bare.checkerTable.Tidy := by
  have hentries : ∀ entry ∈ bare.checkerTable.entries,
      ∀ types ∈ entry.types?, types.categories = [] := by
    decide +kernel
  intro entry hentry role types hcontent
  have htypes : types ∈ entry.types? := by
    unfold Entry.types?
    rw [hcontent]
    rfl
  unfold Constraint.Distinct
  rw [hentries entry hentry types htypes]
  exact List.nodup_nil

/-- **Every constraint of a workshop lists each category once.** -/
theorem Reachable.tidy (hw : w.Reachable) : w.Tidy := by
  have hchecker : w.checkerTable.Tidy := by
    refine hw.induction (motive := fun w => w.checkerTable.Tidy) bare_checker_tidy
      (fun hc h => ?_) fun hs h => ?_
    · rw [hc.grows.checkerTable]
      exact h
    · rw [hs.checkerTable]
      exact h
  have hactions : ∀ action ∈ w.actions, action.table.Tidy := by
    refine hw.sound.induction ?_ ?_ ?_
    · intro face function binding hmem _
      obtain ⟨words, before, after, hmake, -⟩ := hw.nativesMade face function binding hmem
      exact makeNative_tidy hmake
    · intro face test _ htable
      show face.table.Tidy
      rw [htable]
      exact hchecker
    · intro face derivation source hmem _ htidy
      have hsource : (Action.derived face derivation source).source? = some source := rfl
      obtain ⟨derived, before, after, hbefore, own, hderives, -⟩ :=
        hw.exists_madeFrom hmem hsource
      exact hderives.tidy (hbefore.sound.wellFormed own) htidy
  intro table htable
  rcases List.mem_cons.mp htable with rfl | hmem
  · exact hchecker
  · obtain ⟨action, haction, rfl⟩ := List.mem_map.mp hmem
    exact hactions action haction

end Workshop

end ActionKit
