import ActionKit.Invoke
import ActionKit.Proofs.Derived

/-!
# What frames hold

A frame of an action is a new one, filled through the public surface in any way. Every cell fits
its parameter: what is fixed holds its value, what is not supplied is `none`, and what was supplied
is a value that the types of its parameter accept.

* `Frame.put`, `Frame.allow`: filling a cell, and whether callers may.
* `Frame.Built`: the frames of an action.
* `Entry.Fits`: what the cell of a parameter may hold.

Results:
* `set_of_some`, `set_of_none`: filling by name, from what looking up the name finds.
* `Built.fits`: every cell of a frame fits its parameter.
* `fulfil_built`: calls run frames of their action.
* `Narrows.fits`: a cell that fits a parameter fits it in all tables that its table was derived
  from.
-/

namespace ActionKit

namespace Entry

/-- A value that callers may give an open parameter. A refinement may be reset to `none`. -/
def Permits (entry : Entry) (value : Value) : Prop :=
  ∃ role types, entry.Open role types ∧ role ≠ .output ∧
    (types.accepts value = true ∨ role = .refinement ∧ value = .none)

/-- What a parameter may be fixed to, callers may give it. -/
theorem Admits.permits {entry : Entry} {value : Value} (h : entry.Admits value) :
    entry.Permits value := by
  obtain ⟨role, types, ho, hrole, hacc⟩ := h
  exact ⟨role, types, ho, hrole, .inl hacc⟩

/-- What the cell of a parameter may hold. -/
def Fits (entry : Entry) (value : Value) : Prop :=
  match entry.content with
  | .header => value = .none
  | .fixed fixed => value = fixed
  | .unbound .output _ => value = .none
  | .unbound _ types => value = .none ∨ types.accepts value = true

theorem fits_initialCell (entry : Entry) : entry.Fits entry.initialCell := by
  unfold Fits initialCell
  cases entry.content with
  | header => rfl
  | fixed value => rfl
  | unbound role types =>
    cases role with
    | output => rfl
    | normal => exact .inl rfl
    | refinement => exact .inl rfl

theorem Permits.fits {entry : Entry} {value : Value} (h : entry.Permits value) :
    entry.Fits value := by
  obtain ⟨role, types, ho, hrole, hv⟩ := h
  unfold Fits
  rw [ho.content]
  have hor : value = .none ∨ types.accepts value = true := by
    rcases hv with hacc | ⟨-, hnone⟩
    · exact .inr hacc
    · exact .inl hnone
  cases role with
  | output => exact absurd rfl hrole
  | normal => exact hor
  | refinement => exact hor

/-- **What fits a parameter fits it before it was fixed**, too. -/
theorem Narrows.fits {entry narrower : Entry} (h : entry.Narrows narrower) {value : Value}
    (hf : narrower.Fits value) : entry.Fits value := by
  rcases h.content with hc | ⟨role, types, fixed, hc, hrole, hacc, hn⟩
  · unfold Fits at hf ⊢
    rw [hc] at hf
    exact hf
  · have hvalue : value = fixed := by
      unfold Fits at hf
      rw [hn] at hf
      exact hf
    unfold Fits
    rw [hc, hvalue]
    cases role with
    | output => exact absurd rfl hrole
    | normal => exact .inr hacc
    | refinement => exact .inr hacc

end Entry

namespace Frame

/-! ## Filling a cell -/

/-- The frame with another value in a cell. -/
def put (frame : Frame) (slot : Nat) (value : Value) : Frame :=
  { frame with cells := frame.cells.set slot value }

theorem cell_put {frame : Frame} {slot : Nat} (h : slot < frame.cells.length) (value : Value)
    (i : Nat) : (frame.put slot value).cell i = if i = slot then value else frame.cell i := by
  unfold cell put
  by_cases hi : i = slot
  · subst hi
    rw [List.getElem?_set_self h, if_pos rfl]
    rfl
  · rw [List.getElem?_set_ne fun he => hi he.symm, if_neg hi]

@[simp] theorem length_put (frame : Frame) (slot : Nat) (value : Value) :
    (frame.put slot value).cells.length = frame.cells.length :=
  List.length_set

theorem cells_ext {f g : Frame} (hlength : f.cells.length = g.cells.length)
    (h : ∀ i, i < g.cells.length → f.cell i = g.cell i) : f.cells = g.cells := by
  refine List.ext_getElem hlength fun i hi hi' => ?_
  have hcell := h i hi'
  unfold cell at hcell
  rw [List.getElem?_eq_getElem hi, List.getElem?_eq_getElem hi'] at hcell
  exact hcell

/-- Whether callers may give a parameter a value. -/
def allow (entry : Entry) (name : Symbol) (value : Value) : Except CallError Unit :=
  if entry.isExposed then permit entry name value else .error (.hiddenParameter name)

theorem allow_eq_ok_iff {entry : Entry} {name : Symbol} {value : Value} :
    allow entry name value = .ok () ↔ entry.Permits value := by
  unfold allow
  by_cases hexposed : entry.isExposed = true
  · rw [if_pos hexposed]
    obtain ⟨role, types, ho⟩ := Entry.isExposed_iff.mp hexposed
    have hiff : entry.Permits value ↔
        role ≠ .output ∧ (types.accepts value = true ∨ role = .refinement ∧ value = .none) := by
      constructor
      · rintro ⟨role', types', ho', hrole, hv⟩
        obtain ⟨rfl, rfl⟩ := Content.unbound.inj (ho.content.symm.trans ho'.content)
        exact ⟨hrole, hv⟩
      · rintro ⟨hrole, hv⟩
        exact ⟨role, types, ho, hrole, hv⟩
    rw [hiff]
    unfold permit
    rw [ho.content]
    cases role with
    | output => simp
    | normal =>
      by_cases hacc : types.accepts value = true
      · simp [hacc]
      · simp [hacc]
    | refinement =>
      by_cases hacc : types.accepts value = true
      · simp [hacc]
      · simp [hacc]
  · rw [if_neg hexposed]
    constructor
    · intro h
      cases h
    · rintro ⟨role, types, ho, -, -⟩
      exact absurd ho.isExposed hexposed

theorem set_of_none {frame : Frame} {name : Symbol} (h : frame.table.findEntry? name = none)
    (value : Value) : frame.set name value = .error (.unknownArgument name) := by
  unfold set exposedEntry
  rw [h]

/-- **Filling a parameter that is there** is up to its entry. -/
theorem set_of_some {frame : Frame} {name : Symbol} {entry : Entry} {slot : Nat}
    (h : frame.table.findEntry? name = some (entry, slot)) (value : Value) :
    frame.set name value = (allow entry name value).map fun _ => frame.put slot value := by
  unfold set exposedEntry allow
  rw [h]
  by_cases hexposed : entry.isExposed = true
  · simp only [if_pos hexposed]
    cases permit entry name value <;> rfl
  · simp only [if_neg hexposed]
    rfl

theorem set_ok {frame next : Frame} {name : Symbol} {value : Value}
    (h : frame.set name value = .ok next) :
    ∃ entry slot, frame.table.findEntry? name = some (entry, slot) ∧ entry.Permits value ∧
      next = frame.put slot value := by
  cases hfind : frame.table.findEntry? name with
  | none =>
    rw [set_of_none hfind] at h
    cases h
  | some found =>
    obtain ⟨entry, slot⟩ := found
    rw [set_of_some hfind] at h
    cases hallow : allow entry name value with
    | error error =>
      rw [hallow] at h
      cases h
    | ok _ =>
      rw [hallow] at h
      obtain rfl := Except.ok.inj h
      exact ⟨entry, slot, rfl, allow_eq_ok_iff.mp hallow, rfl⟩

/-! ## Frames of an action -/

/-- The frames of an action: a new one, filled in any way. What is refused changes nothing. -/
inductive Built (action : Action) : Frame → Prop
  | new : Built action (.new action)
  | set {frame next : Frame} {name : Symbol} {value : Value} (built : Built action frame)
      (accepted : frame.set name value = .ok next) : Built action next

namespace Built

variable {action : Action} {frame : Frame}

theorem table (h : Built action frame) : frame.table = action.table := by
  induction h with
  | new => rfl
  | set _ hset ih =>
    obtain ⟨_, _, -, -, rfl⟩ := set_ok hset
    exact ih

theorem label (h : Built action frame) : frame.label = action.label := by
  induction h with
  | new => rfl
  | set _ hset ih =>
    obtain ⟨_, _, -, -, rfl⟩ := set_ok hset
    exact ih

theorem root (h : Built action frame) : frame.root = action.root := by
  induction h with
  | new => rfl
  | set _ hset ih =>
    obtain ⟨_, _, -, -, rfl⟩ := set_ok hset
    exact ih

theorem length (h : Built action frame) : frame.cells.length = action.table.size := by
  induction h with
  | new => exact List.length_map _
  | set _ hset ih =>
    obtain ⟨_, _, -, -, rfl⟩ := set_ok hset
    rw [length_put]
    exact ih

theorem cell_new {slot : Nat} {entry : Entry} (he : action.table.entries[slot]? = some entry) :
    (Frame.new action).cell slot = entry.initialCell := by
  unfold Frame.cell Frame.new
  rw [List.getElem?_map, he]
  rfl

theorem cell_put (h : Built action frame) {slot : Nat} {entry : Entry}
    (he : action.table.entries[slot]? = some entry) (value : Value) (i : Nat) :
    (frame.put slot value).cell i = if i = slot then value else frame.cell i := by
  refine Frame.cell_put ?_ value i
  rw [h.length]
  exact (List.getElem?_eq_some_iff.mp he).1

/-- **Every cell of a frame fits its parameter.** -/
theorem fits (h : Built action frame) {slot : Nat} {entry : Entry}
    (he : action.table.entries[slot]? = some entry) : entry.Fits (frame.cell slot) := by
  induction h with
  | new =>
    rw [cell_new he]
    exact entry.fits_initialCell
  | set built hset ih =>
    obtain ⟨other, target, hfind, hpermits, rfl⟩ := set_ok hset
    rw [built.table] at hfind
    obtain ⟨-, htarget, -⟩ := Table.findEntry_some hfind
    rw [built.cell_put htarget]
    split
    · next hslot =>
      rw [hslot, htarget] at he
      obtain rfl := Option.some.inj he
      exact hpermits.fits
    · exact ih

/-- The cell of the header is empty. -/
theorem cell_zero (h : Built action frame) (hw : action.table.WellFormed) :
    frame.cell 0 = .none :=
  h.fits hw.layout.getElem?_zero

theorem setAll {pairs : List (Symbol × Value)} : ∀ {frame next : Frame}, Built action frame →
    frame.setAll pairs = .ok next → Built action next := by
  induction pairs with
  | nil =>
    intro frame next hbuilt h
    obtain rfl := Except.ok.inj h
    exact hbuilt
  | cons pair rest ih =>
    intro frame next hbuilt h
    obtain ⟨name, value⟩ := pair
    unfold Frame.setAll at h
    split at h
    · cases h
    · next mid hset => exact ih (hbuilt.set hset) h

end Built

end Frame

/-! ## Frames from arguments -/

theorem fulfil_of_le {action : Action} {positional : List Value}
    (h : positional.length ≤ action.table.positional.length) (named : List (Symbol × Value)) :
    fulfil action positional named =
      (Frame.new action).setAll (action.table.positional.zip positional ++ named) :=
  if_neg (Nat.not_lt.mpr h)

theorem fulfil_of_lt {action : Action} {positional : List Value}
    (h : action.table.positional.length < positional.length) (named : List (Symbol × Value)) :
    fulfil action positional named =
      .error (.tooManyArguments action.table.positional.length positional.length) :=
  if_pos h

theorem fulfil_built {action : Action} {positional : List Value} {named : List (Symbol × Value)}
    {frame : Frame} (h : fulfil action positional named = .ok frame) : frame.Built action := by
  rcases Nat.lt_or_ge action.table.positional.length positional.length with hlt | hle
  · rw [fulfil_of_lt hlt] at h
    cases h
  · rw [fulfil_of_le hle] at h
    exact Frame.Built.new.setAll h

end ActionKit
