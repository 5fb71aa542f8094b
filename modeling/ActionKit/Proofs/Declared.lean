import ActionKit.Declaration
import ActionKit.Proofs.Layout
import Mathlib.Data.List.Forall2

/-!
# What a spec declares

A word, a refinement or a set-word at the top of a spec is a head: it declares one parameter of
its name. The texts and blocks between heads only change what the last head declared.

* `head?`, `heads`, `declaredNames`: the heads of a spec, read off the spec alone.
* `Entry.DeclaredAs`: a parameter as a head declares it.
* `Declaring.Taken`: all that taking one item can do.
* `Declaring.Progress`: what the items taken so far have added.

Results:
* `items_progress`: a spec that is accepted adds one open parameter for every head, in order, and
  leaves the entries before them alone.
* `items_layout`, `run_layout`: declaring keeps the layout of a table.
* `items_output`: where there is an output already, a spec declares none.
-/

namespace ActionKit

/-- The name and the role that an item of a spec declares, if it declares a parameter. -/
def head? : Value → Option (Symbol × Role)
  | .word name => some (name, .normal)
  | .refinement name => some (name, .refinement)
  | .setWord name => some (name, .output)
  | _ => none

/-- The parameters a spec declares, in order. -/
def heads (spec : List Value) : List (Symbol × Role) := spec.filterMap head?

/-- The names of the parameters a spec declares, in order. -/
def declaredNames (spec : List Value) : List Symbol := (heads spec).map (·.1)

theorem heads_cons (value : Value) (spec : List Value) :
    heads (value :: spec) = (head? value).toList ++ heads spec := by
  unfold heads
  cases h : head? value <;> simp [h]

/-- A parameter as a head of a spec declares it, whatever types it was given. -/
structure Entry.DeclaredAs (entry : Entry) (head : Symbol × Role) : Prop where
  name : entry.name = head.1
  isOpen : ∃ types, entry.Open head.2 types

theorem Entry.declared_declaredAs (name : Symbol) (role : Role) :
    (Entry.declared name role).DeclaredAs (name, role) where
  name := rfl
  isOpen := ⟨_, rfl, rfl⟩

/-- A declared parameter is proper, if an output has the name of one. -/
theorem Entry.DeclaredAs.proper {entry : Entry} {head : Symbol × Role}
    (h : entry.DeclaredAs head) (hn : head.2 = .output → head.1 = .output) : entry.Proper := by
  obtain ⟨types, ho⟩ := h.isOpen
  refine ⟨?_, fun hs => ?_, fun hr => ?_⟩
  · rw [ho.content]
    simp
  · rw [ho.unsealed] at hs
    cases hs
  · rw [ho.role?] at hr
    rw [h.name]
    exact hn (Option.some.inj hr)

/-- What one of two related lists has, the other has something related to. -/
theorem exists_of_forall₂ {α β : Type} {related : α → β → Prop} {xs : List α} {ys : List β}
    (h : List.Forall₂ related xs ys) {x : α} (hx : x ∈ xs) : ∃ y ∈ ys, related x y := by
  obtain ⟨i, hlt, rfl⟩ := List.mem_iff_getElem.mp hx
  have hlt' : i < ys.length := by
    rw [← h.length_eq]
    exact hlt
  exact ⟨ys[i], List.getElem_mem hlt', h.get hlt hlt'⟩

theorem Entry.names_eq {added : List Entry} {taken : List (Symbol × Role)}
    (h : List.Forall₂ Entry.DeclaredAs added taken) : added.map (·.name) = taken.map (·.1) := by
  induction h with
  | nil => rfl
  | cons hfirst _ ih => rw [List.map_cons, List.map_cons, hfirst.name, ih]

namespace Declaring

/-! ## Taking one item -/

/-- **All that taking an item can do** to the state of declaring. -/
inductive Taken (position : Nat) (state : Declaring) : Value → Declaring → Prop
  | description (bytes : Bytes) (hcurrent : state.current = none)
      (hnone : state.description = none) :
      Taken position state (.text bytes) { state with description := some bytes }
  | notes (bytes : Bytes) (slot : Nat) (hcurrent : state.current = some slot)
      (hnone : state.entries[slot]?.bind (·.docNotes) = none) :
      Taken position state (.text bytes)
        { state with entries := state.entries.modify slot ({ · with docNotes := some bytes }) }
  | types (items : List Value) (slot : Nat) (types : Constraint)
      (hcurrent : state.current = some slot) (htypes : typeBlock position items = .ok types)
      (hnone : state.entries[slot]?.bind (·.typeNotes) = none) :
      Taken position state (.block items)
        { state with entries := state.entries.modify slot (typed items types) }
  | parameter (value : Value) (name : Symbol) (role : Role)
      (hhead : head? value = some (name, role)) (hrole : role ≠ .output) :
      Taken position state value (state.declare name role)
  | output (hnone : state.outputSlot = none) :
      Taken position state (.setWord .output)
        { state.declare .output .output with outputSlot := some state.entries.length }

theorem text_taken {position : Nat} {state next : Declaring} {bytes : Bytes}
    (h : state.text position bytes = .ok next) : Taken position state (.text bytes) next := by
  unfold text at h
  split at h
  · next hc =>
    split at h
    · cases h
    · next hd =>
      obtain rfl := Except.ok.inj h
      exact .description bytes hc (by simpa using hd)
  · next slot hc =>
    split at h
    · cases h
    · next hd =>
      obtain rfl := Except.ok.inj h
      exact .notes bytes slot hc (by simpa using hd)

theorem block_taken {position : Nat} {state next : Declaring} {items : List Value}
    (h : state.block position items = .ok next) : Taken position state (.block items) next := by
  unfold block at h
  split at h
  · cases h
  · next slot hc =>
    split at h
    · cases h
    · next types ht =>
      split at h
      · cases h
      · next hd =>
        obtain rfl := Except.ok.inj h
        exact .types items slot types hc ht (by simpa using hd)

theorem setWord_taken {position : Nat} {state next : Declaring} {name : Symbol}
    (h : state.setWord position name = .ok next) : Taken position state (.setWord name) next := by
  unfold setWord at h
  split at h
  · next hn =>
    subst hn
    split at h
    · cases h
    · next ho =>
      obtain rfl := Except.ok.inj h
      exact .output (by simpa using ho)
  · cases h

theorem item_taken {position : Nat} {state next : Declaring} {value : Value}
    (h : state.item position value = .ok next) : Taken position state value next := by
  unfold item at h
  split at h
  · exact text_taken h
  · exact block_taken h
  · next name =>
    obtain rfl := Except.ok.inj h
    exact .parameter _ name .normal rfl (by decide)
  · next name =>
    obtain rfl := Except.ok.inj h
    exact .parameter _ name .refinement rfl (by decide)
  · exact setWord_taken h
  · cases h

/-! ## Notes and types leave name, role and seal alone -/

theorem role?_typed (items : List Value) (types : Constraint) (entry : Entry) :
    (typed items types entry).role? = entry.role? := by
  unfold typed Entry.role?
  cases entry.content <;> rfl

theorem isFixed_typed (items : List Value) (types : Constraint) (entry : Entry) :
    (typed items types entry).isFixed = entry.isFixed := by
  unfold typed Entry.isFixed
  cases entry.content <;> rfl

theorem proper_typed (items : List Value) (types : Constraint) {entry : Entry}
    (h : entry.Proper) : (typed items types entry).Proper where
  param := by
    have := h.param
    unfold typed
    cases hc : entry.content <;> simp_all
  fixed_of_sealed hs := by
    rw [isFixed_typed]
    exact h.fixed_of_sealed hs
  name_of_output hr := by
    rw [role?_typed] at hr
    exact h.name_of_output hr

theorem declaredAs_typed (items : List Value) (types : Constraint) {entry : Entry}
    {head : Symbol × Role} (h : entry.DeclaredAs head) :
    (typed items types entry).DeclaredAs head := by
  obtain ⟨old, ho⟩ := h.isOpen
  refine ⟨h.name, types, ?_, ho.unsealed⟩
  unfold typed
  rw [ho.content]

/-! ## Layout -/

/-- The parameter declared last is not the header. -/
def Settled (state : Declaring) : Prop := ∀ slot, state.current = some slot → slot ≠ 0

/-- Taking an item keeps the layout. -/
theorem Taken.layout {position : Nat} {state next : Declaring} {value : Value}
    (h : Taken position state value next) (hs : state.Settled)
    (hl : Layout state.entries state.outputSlot) :
    Layout next.entries next.outputSlot ∧ next.Settled := by
  have declared : ∀ name role, (role = .output → name = .output) →
      (Entry.declared name role).Proper := fun name role hn =>
    (Entry.declared_declaredAs name role).proper hn
  cases h with
  | description bytes hcurrent hnone => exact ⟨hl, hs⟩
  | notes bytes slot hcurrent hnone =>
    refine ⟨hl.modify (hs slot hcurrent) (fun entry hp => ?_) (fun _ => rfl), hs⟩
    exact ⟨hp.param, hp.fixed_of_sealed, hp.name_of_output⟩
  | types items slot types hcurrent htypes hnone =>
    exact ⟨hl.modify (hs slot hcurrent) (fun _ => proper_typed items types)
      (role?_typed items types), hs⟩
  | parameter value name role hhead hrole =>
    refine ⟨?_, ?_⟩
    · show Layout (state.entries ++ [.declared name role]) state.outputSlot
      refine hl.append (fun entry he => ?_) fun entry he => ?_
      · obtain rfl := List.mem_singleton.mp he
        exact declared name role fun h => absurd h hrole
      · obtain rfl := List.mem_singleton.mp he
        exact fun h => hrole (Option.some.inj h)
    · intro slot hslot
      obtain rfl := Option.some.inj hslot
      exact Nat.ne_of_gt hl.pos
  | output hnone =>
    rw [hnone] at hl
    refine ⟨hl.appendOutput (declared .output .output fun _ => rfl) rfl, ?_⟩
    intro slot hslot
    obtain rfl := Option.some.inj hslot
    exact Nat.ne_of_gt hl.pos

theorem items_layout {spec : List Value} : ∀ {position : Nat} {state next : Declaring}
    {result : Except BuildError Unit}, state.items position spec = (result, next) →
    state.Settled → Layout state.entries state.outputSlot →
    Layout next.entries next.outputSlot := by
  induction spec with
  | nil =>
    intro position state next result h hs hl
    obtain ⟨-, rfl⟩ := Prod.mk.inj h
    exact hl
  | cons value rest ih =>
    intro position state next result h hs hl
    unfold items at h
    cases hi : state.item position value with
    | error error =>
      simp only [hi] at h
      obtain ⟨-, rfl⟩ := Prod.mk.inj h
      exact hl
    | ok mid =>
      simp only [hi] at h
      obtain ⟨hl', hs'⟩ := (item_taken hi).layout hs hl
      exact ih h hs' hl'

/-- **Declaring keeps the layout**, also where it fails, and also where it adds an output. -/
theorem run_layout {state next : Declaring} {spec : List Value} {withOutput : Bool}
    {result : Except BuildError Unit} (h : state.run spec withOutput = (result, next))
    (hc : state.current = none) (hl : Layout state.entries state.outputSlot) :
    Layout next.entries next.outputSlot := by
  have hs : state.Settled := fun slot h => by rw [hc] at h; cases h
  unfold run at h
  cases hi : state.items 0 spec with
  | mk itemsResult mid =>
    have hmid := items_layout hi hs hl
    cases itemsResult with
    | error error =>
      simp only [hi] at h
      obtain ⟨-, rfl⟩ := Prod.mk.inj h
      exact hmid
    | ok _ =>
      simp only [hi] at h
      obtain ⟨-, rfl⟩ := Prod.mk.inj h
      split
      · next hadd =>
        have hnone : mid.outputSlot = none := by simpa using (Bool.and_eq_true_iff.mp hadd).2
        rw [hnone] at hmid
        exact hmid.insertOutput ((Entry.declared_declaredAs _ _).proper fun _ => rfl) rfl
      · exact hmid

/-! ## What is added -/

/-- What has been declared so far: behind the `initial` entries, one parameter for each head. -/
structure Progress (initial : List Entry) (taken : List (Symbol × Role)) (state : Declaring) :
    Prop where
  added : ∃ added, state.entries = initial ++ added ∧ List.Forall₂ Entry.DeclaredAs added taken
  current : ∀ slot, state.current = some slot → initial.length ≤ slot

theorem forall₂_modify {f : Entry → Entry}
    (hf : ∀ entry head, entry.DeclaredAs head → (f entry).DeclaredAs head) {added : List Entry}
    {taken : List (Symbol × Role)} (h : List.Forall₂ Entry.DeclaredAs added taken) (i : Nat) :
    List.Forall₂ Entry.DeclaredAs (added.modify i f) taken := by
  induction h generalizing i with
  | nil => simp
  | @cons entry head added taken hd hrest ih =>
    cases i with
    | zero => exact .cons (hf entry head hd) hrest
    | succ i => exact .cons hd (ih i)

/-- A change of a declared parameter leaves what was there before alone. -/
theorem Progress.modify {initial : List Entry} {taken : List (Symbol × Role)} {state : Declaring}
    (h : state.Progress initial taken) {slot : Nat} (hslot : state.current = some slot)
    {f : Entry → Entry} (hf : ∀ entry head, entry.DeclaredAs head → (f entry).DeclaredAs head) :
    Progress initial taken { state with entries := state.entries.modify slot f } := by
  obtain ⟨added, he, hd⟩ := h.added
  refine ⟨⟨added.modify (slot - initial.length) f, ?_, forall₂_modify hf hd _⟩, h.current⟩
  have hle := h.current slot hslot
  show state.entries.modify slot f = _
  rw [he]
  apply List.ext_getElem?
  intro i
  rw [List.getElem?_modify]
  by_cases hi : i < initial.length
  · have hne : slot ≠ i := by omega
    rw [List.getElem?_append_left hi, List.getElem?_append_left hi]
    simp [hne]
  · rw [List.getElem?_append_right (by omega), List.getElem?_append_right (by omega),
      List.getElem?_modify]
    have hiff : slot = i ↔ slot - initial.length = i - initial.length := by omega
    simp only [hiff]

/-- One more parameter is declared behind all others. -/
theorem Progress.declare {initial : List Entry} {taken : List (Symbol × Role)} {state : Declaring}
    (h : state.Progress initial taken) (name : Symbol) (role : Role) :
    Progress initial (taken ++ [(name, role)]) (state.declare name role) := by
  obtain ⟨added, he, hd⟩ := h.added
  refine ⟨⟨added ++ [.declared name role], ?_, ?_⟩, fun slot hslot => ?_⟩
  · show state.entries ++ [.declared name role] = _
    rw [he, List.append_assoc]
  · exact List.rel_append hd (.cons (Entry.declared_declaredAs name role) .nil)
  · obtain rfl := Option.some.inj hslot
    rw [he, List.length_append]
    omega

theorem Taken.progress {position : Nat} {state next : Declaring} {value : Value}
    (h : Taken position state value next) {initial : List Entry} {taken : List (Symbol × Role)}
    (hp : state.Progress initial taken) :
    next.Progress initial (taken ++ (head? value).toList) := by
  cases h with
  | description bytes hcurrent hnone =>
    rw [show head? (.text bytes) = none from rfl, Option.toList_none, List.append_nil]
    exact ⟨hp.added, hp.current⟩
  | notes bytes slot hcurrent hnone =>
    rw [show head? (.text bytes) = none from rfl, Option.toList_none, List.append_nil]
    refine hp.modify hcurrent fun entry head hd => ⟨hd.name, ?_⟩
    obtain ⟨types, ho⟩ := hd.isOpen
    exact ⟨types, ho.content, ho.unsealed⟩
  | types items slot types hcurrent htypes hnone =>
    rw [show head? (.block items) = none from rfl, Option.toList_none, List.append_nil]
    exact hp.modify hcurrent fun _ _ => declaredAs_typed items types
  | parameter value name role hhead hrole =>
    rw [hhead]
    exact hp.declare name role
  | output hnone =>
    have hd := hp.declare .output .output
    exact ⟨hd.added, hd.current⟩

/-- **A spec that is accepted adds one open parameter for every head**, in order, behind what was
there, which it leaves alone. -/
theorem items_progress {spec : List Value} : ∀ {position : Nat} {state next : Declaring}
    {initial : List Entry} {taken : List (Symbol × Role)},
    state.items position spec = (.ok (), next) → state.Progress initial taken →
    next.Progress initial (taken ++ heads spec) := by
  induction spec with
  | nil =>
    intro position state next initial taken h hp
    obtain ⟨-, rfl⟩ := Prod.mk.inj h
    simpa [heads] using hp
  | cons value rest ih =>
    intro position state next initial taken h hp
    unfold items at h
    cases hi : state.item position value with
    | error error =>
      simp only [hi] at h
      cases (Prod.mk.inj h).1
    | ok mid =>
      simp only [hi] at h
      rw [heads_cons, ← List.append_assoc]
      exact ih h ((item_taken hi).progress hp)

/-! ## Outputs -/

/-- **Where there is an output already, a spec that is accepted declares none**, and the output
stays where it is. -/
theorem items_output {spec : List Value} : ∀ {position : Nat} {state next : Declaring} {slot : Nat},
    state.items position spec = (.ok (), next) → state.outputSlot = some slot →
    next.outputSlot = some slot ∧ ∀ head ∈ heads spec, head.2 ≠ .output := by
  induction spec with
  | nil =>
    intro position state next slot h hs
    obtain ⟨-, rfl⟩ := Prod.mk.inj h
    exact ⟨hs, by simp [heads]⟩
  | cons value rest ih =>
    intro position state next slot h hs
    unfold items at h
    cases hi : state.item position value with
    | error error =>
      simp only [hi] at h
      cases (Prod.mk.inj h).1
    | ok mid =>
      simp only [hi] at h
      have hmid : mid.outputSlot = some slot ∧ ∀ head ∈ head? value, head.2 ≠ .output := by
        cases item_taken hi with
        | description bytes hcurrent hnone => exact ⟨hs, fun _ h => by cases h⟩
        | notes bytes slot hcurrent hnone => exact ⟨hs, fun _ h => by cases h⟩
        | types items slot types hcurrent htypes hnone => exact ⟨hs, fun _ h => by cases h⟩
        | parameter value name role hhead hrole =>
          refine ⟨hs, fun head h => ?_⟩
          rw [hhead] at h
          obtain rfl := Option.some.inj h
          exact hrole
        | output hnone =>
          rw [hnone] at hs
          cases hs
      obtain ⟨hout, hrest⟩ := ih h hmid.1
      refine ⟨hout, fun head hh => ?_⟩
      rw [heads_cons] at hh
      rcases List.mem_append.mp hh with hh | hh
      · exact hmid.2 head (Option.mem_toList.mp hh)
      · exact hrest head hh

/-! ## Whole specs -/

/-- What is there before a spec is declared. -/
theorem Progress.start (entries : List Entry) (outputSlot : Option Nat) :
    Progress entries [] { entries, outputSlot } :=
  ⟨⟨[], (List.append_nil _).symm, .nil⟩, fun _ h => by cases h⟩

/-- **Declaring behind a table that has an output** adds the heads of the spec and nothing else. -/
theorem run_behind {entries : List Entry} {slot : Nat} {spec : List Value} {state : Declaring}
    (h : run { entries, outputSlot := some slot } spec false = (.ok (), state)) :
    (∃ more, state.entries = entries ++ more ∧ List.Forall₂ Entry.DeclaredAs more (heads spec)) ∧
      state.outputSlot = some slot ∧ ∀ head ∈ heads spec, head.2 ≠ .output := by
  unfold run at h
  split at h
  · cases (Prod.mk.inj h).1
  · next mid hi =>
    obtain ⟨-, rfl⟩ := Prod.mk.inj h
    exact ⟨(items_progress hi (.start entries _)).added, items_output hi rfl⟩

/-- **Declaring a table from nothing** leaves open parameters only. -/
theorem run_alone {spec : List Value} {withOutput : Bool} {state : Declaring}
    (h : run { entries := [.header], outputSlot := none } spec withOutput = (.ok (), state)) :
    Layout state.entries state.outputSlot ∧
      ∀ entry ∈ state.entries.drop 1, ∃ role types, entry.Open role types := by
  refine ⟨run_layout h rfl .start, ?_⟩
  unfold run at h
  split at h
  · cases (Prod.mk.inj h).1
  · next mid hi =>
    obtain ⟨-, rfl⟩ := Prod.mk.inj h
    obtain ⟨added, he, hd⟩ := (items_progress hi (.start [.header] none)).added
    have hopen : ∀ entry ∈ added, ∃ role types, entry.Open role types := by
      intro entry hentry
      obtain ⟨head, -, hh⟩ := exists_of_forall₂ hd hentry
      exact ⟨head.2, hh.isOpen⟩
    intro entry hentry
    split at hentry
    · have hbody : (addOutput mid).entries.drop 1 = .declared .output .output :: added := by
        show (mid.entries.insertIdx 1 _).drop 1 = _
        rw [he]
        rfl
      rw [hbody] at hentry
      rcases List.mem_cons.mp hentry with rfl | hentry
      · exact ⟨.output, (Entry.declared_declaredAs .output .output).isOpen⟩
      · exact hopen entry hentry
    · rw [he] at hentry
      exact hopen entry hentry

/-- Where an output is asked for, there is one. -/
theorem run_hasOutput {start state : Declaring} {spec : List Value}
    (h : start.run spec true = (.ok (), state)) : state.outputSlot.isSome = true := by
  unfold run at h
  split at h
  · cases (Prod.mk.inj h).1
  · next mid hi =>
    obtain ⟨-, rfl⟩ := Prod.mk.inj h
    rw [Bool.true_and]
    split
    · rfl
    · next hsome => simpa [Option.isSome_iff_ne_none] using hsome

end Declaring

end ActionKit
