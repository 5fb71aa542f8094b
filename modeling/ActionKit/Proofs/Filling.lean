import ActionKit.Proofs.Paired

/-!
# Filling frames

Callers change a frame in one way only: they give a parameter a value by name. Where the value goes,
or why it is refused, is up to the table of the frame, whatever the cells hold. So a frame that was
filled in any way still holds what its table says, and what one argument does can be told from what
the others do.

* `Table.place`: the slot that a value goes to, or why it is refused.
* `Frame.attempt`, `Frame.attempts`: filling cells without stopping at what is refused.
* `Frame.read?`: reading by slot, where the cell of the header stands in for slots past the end.
* `Frame.Orderly`: what the cells of a frame of an action hold.
* `Frame.Responsive`: what an attempt does to a frame, and what later attempts leave of it.
* `Table.pairing`: the arguments of a call under the names of their parameters.

Results:
* `set_eq`: filling a cell is putting the value where the table says.
* `Built.orderly`: however a frame was filled, its cells hold what its table says.
* `attempt_comm`: attempts for different names commute.
* `get_attempts`: a value stays until its parameter is given another one.
* `exists_setAll_iff`, `Built.cell_setAll`: arguments are taken if each of them is, and the last one
  that is given for a parameter counts.
* `cell_fulfil`: what a call puts into a cell.
* `frames_orderly`: **frames keep their invariant under any use of the public surface**.
-/

namespace ActionKit

/-! ## Where values go -/

namespace Table

/-- The slot that callers may put a value in under a name, or why they may not. -/
def place (table : Table) (name : Symbol) (value : Value) : Except CallError Nat :=
  match table.findEntry? name with
  | none => .error (.unknownArgument name)
  | some (entry, slot) => (Frame.allow entry name value).map fun _ => slot

theorem place_eq_ok_iff {table : Table} {name : Symbol} {value : Value} {slot : Nat} :
    table.place name value = .ok slot ↔
      ∃ entry, table.findEntry? name = some (entry, slot) ∧ entry.Permits value := by
  unfold place
  cases hfind : table.findEntry? name with
  | none => simp
  | some found =>
    obtain ⟨entry, other⟩ := found
    cases hallow : Frame.allow entry name value with
    | error error =>
      have hrefuses : ¬ entry.Permits value := fun hpermits => by
        rw [Frame.allow_eq_ok_iff.mpr hpermits] at hallow
        cases hallow
      simp only [hallow, Except.map, reduceCtorEq, Option.some.injEq, Prod.mk.injEq, false_iff]
      rintro ⟨_, ⟨rfl, -⟩, hpermits⟩
      exact hrefuses hpermits
    | ok _ =>
      have hpermits := Frame.allow_eq_ok_iff.mp hallow
      simp only [hallow, Except.map, Except.ok.injEq, Option.some.injEq, Prod.mk.injEq]
      constructor
      · rintro rfl
        exact ⟨entry, ⟨rfl, rfl⟩, hpermits⟩
      · rintro ⟨_, ⟨-, rfl⟩, -⟩
        rfl

/-- A value goes to a slot that has the name it was given under. -/
theorem place_named {table : Table} {name : Symbol} {value : Value} {slot : Nat}
    (h : table.place name value = .ok slot) : slot ≠ 0 ∧
      ∃ entry, table.entries[slot]? = some entry ∧ entry.name = name ∧ entry.Permits value := by
  obtain ⟨entry, hfind, hpermits⟩ := place_eq_ok_iff.mp h
  obtain ⟨h0, hentry, hname⟩ := findEntry_some hfind
  exact ⟨h0, entry, hentry, hname, hpermits⟩

/-- Values that are given under different names go to different slots. -/
theorem place_ne {table : Table} {m n : Symbol} {u v : Value} {i j : Nat} (hne : m ≠ n)
    (hi : table.place m u = .ok i) (hj : table.place n v = .ok j) : i ≠ j := by
  rintro rfl
  obtain ⟨-, e, he, rfl, -⟩ := place_named hi
  obtain ⟨-, f, hf, rfl, -⟩ := place_named hj
  rw [he] at hf
  exact hne (congrArg Entry.name (Option.some.inj hf))

end Table

namespace Frame

/-- **Filling a cell is putting the value where the table says.** -/
theorem set_eq (frame : Frame) (name : Symbol) (value : Value) :
    frame.set name value = (frame.table.place name value).map (frame.put · value) := by
  unfold Table.place
  cases hfind : frame.table.findEntry? name with
  | none =>
    rw [set_of_none hfind]
    rfl
  | some found =>
    obtain ⟨entry, slot⟩ := found
    rw [set_of_some hfind]
    cases hallow : allow entry name value <;> simp only [hallow] <;> rfl

theorem put_comm (frame : Frame) {i j : Nat} (hne : i ≠ j) (u v : Value) :
    (frame.put i u).put j v = (frame.put j v).put i u := by
  unfold put
  rw [List.set_comm u v hne]

/-! ## Attempts -/

/-- Try to fill a cell: what callers are told, and the frame that they are left with. -/
def attempt (frame : Frame) (name : Symbol) (value : Value) : Except CallError Unit × Frame :=
  match frame.set name value with
  | .error error => (.error error, frame)
  | .ok next => (.ok (), next)

/-- Try to fill cells one after the other, whether they are refused or not. -/
def attempts (frame : Frame) (pairs : List (Symbol × Value)) : Frame :=
  pairs.foldl (fun frame pair => (frame.attempt pair.1 pair.2).2) frame

theorem attempt_of_ok {frame : Frame} {name : Symbol} {value : Value} {slot : Nat}
    (h : frame.table.place name value = .ok slot) :
    frame.attempt name value = (.ok (), frame.put slot value) := by
  unfold attempt
  rw [set_eq, h]
  rfl

theorem attempt_of_error {frame : Frame} {name : Symbol} {value : Value} {error : CallError}
    (h : frame.table.place name value = .error error) :
    frame.attempt name value = (.error error, frame) := by
  unfold attempt
  rw [set_eq, h]
  rfl

/-- What callers are told rests on the table alone. -/
theorem attempt_fst (frame : Frame) (name : Symbol) (value : Value) :
    (frame.attempt name value).1 = (frame.table.place name value).map fun _ => () := by
  cases h : frame.table.place name value with
  | error error =>
    rw [attempt_of_error h]
    rfl
  | ok slot =>
    rw [attempt_of_ok h]
    rfl

@[simp] theorem table_attempt (frame : Frame) (name : Symbol) (value : Value) :
    (frame.attempt name value).2.table = frame.table := by
  cases h : frame.table.place name value with
  | error error => rw [attempt_of_error h]
  | ok slot =>
    rw [attempt_of_ok h]
    rfl

/-- **Attempts for different names commute.** -/
theorem attempt_comm (frame : Frame) {m n : Symbol} (hne : m ≠ n) (u v : Value) :
    ((frame.attempt m u).2.attempt n v).2 = ((frame.attempt n v).2.attempt m u).2 := by
  cases hm : frame.table.place m u with
  | error error =>
    have hlate : (frame.attempt n v).2.table.place m u = .error error := by
      rw [table_attempt, hm]
    rw [attempt_of_error hm, attempt_of_error hlate]
  | ok i =>
    cases hn : frame.table.place n v with
    | error error =>
      have hlate : (frame.attempt m u).2.table.place n v = .error error := by
        rw [table_attempt, hn]
      rw [attempt_of_error hn, attempt_of_error hlate]
    | ok j =>
      have hput : ∀ (slot : Nat) (value : Value), (frame.put slot value).table = frame.table :=
        fun _ _ => rfl
      rw [attempt_of_ok hm, attempt_of_ok hn]
      simp only
      rw [attempt_of_ok ((hput i u).symm ▸ hn), attempt_of_ok ((hput j v).symm ▸ hm)]
      exact frame.put_comm (Table.place_ne hne hm hn) u v

namespace Built

variable {action : Action} {frame next : Frame}

theorem attempt (h : Built action frame) (name : Symbol) (value : Value) :
    Built action (frame.attempt name value).2 := by
  unfold Frame.attempt
  cases hset : frame.set name value with
  | error error => exact h
  | ok next => exact h.set hset

/-- A frame that was filled in any way is a frame of its action. -/
theorem attempts (h : Built action frame) (pairs : List (Symbol × Value)) :
    Built action (frame.attempts pairs) := by
  induction pairs generalizing frame with
  | nil => exact h
  | cons pair rest ih => exact ih (h.attempt pair.1 pair.2)

theorem place_lt (h : Built action frame) {name : Symbol} {value : Value} {slot : Nat}
    (hplace : action.table.place name value = .ok slot) : slot < frame.cells.length := by
  obtain ⟨-, entry, hentry, -, -⟩ := Table.place_named hplace
  rw [h.length]
  exact (List.getElem?_eq_some_iff.mp hentry).1

/-- An attempt for another parameter leaves a cell as it is, and so does one that is refused. -/
theorem cell_attempt (h : Built action frame) {slot : Nat} {name : Symbol} {value : Value}
    (hother : action.table.place name value ≠ .ok slot) :
    (frame.attempt name value).2.cell slot = frame.cell slot := by
  cases hplace : frame.table.place name value with
  | error error => rw [attempt_of_error hplace]
  | ok target =>
    rw [attempt_of_ok hplace]
    rw [h.table] at hplace
    rw [Frame.cell_put (h.place_lt hplace), if_neg]
    rintro rfl
    exact hother hplace

/-- **A value stays until its parameter is given another one.** -/
theorem cell_attempts (h : Built action frame) {slot : Nat} {pairs : List (Symbol × Value)}
    (hothers : ∀ pair ∈ pairs, action.table.place pair.1 pair.2 ≠ .ok slot) :
    (frame.attempts pairs).cell slot = frame.cell slot := by
  induction pairs generalizing frame with
  | nil => rfl
  | cons pair rest ih =>
    have hrest := ih (h.attempt pair.1 pair.2) fun p hp => hothers p (List.mem_cons_of_mem _ hp)
    exact hrest.trans (h.cell_attempt (hothers pair List.mem_cons_self))

end Built

/-- Reading by name finds what is in the slot that values of that name go to. -/
theorem get_of_place {frame : Frame} {name : Symbol} {value : Value} {slot : Nat}
    (h : frame.table.place name value = .ok slot) : frame.get name = .ok (frame.cell slot) := by
  obtain ⟨entry, hfind, role, types, ho, -, -⟩ := Table.place_eq_ok_iff.mp h
  unfold get exposedEntry
  simp only [hfind, ho.isExposed, if_true]

/-! ## What cells hold -/

/-- Reading by slot. The cell of the header stands in for slots past the end. -/
def read? (frame : Frame) (slot : Nat) : Option Value := frame.cells[slot]? <|> frame.cells[0]?

/-- **What the cells of a frame of an action hold.** -/
structure Orderly (action : Action) (frame : Frame) : Prop where
  /-- There is one cell for every slot. -/
  length : frame.cells.length = action.table.size
  header : frame.cells[0]? = some .none
  /-- Reading by slot never fails. -/
  reads : ∀ slot, frame.read? slot = some (frame.cell slot)
  /-- Past the end there is nothing to be read, as at the header. -/
  beyond : ∀ slot, slot = 0 ∨ action.table.size ≤ slot → frame.read? slot = some .none
  /-- What is fixed or sealed holds the value that it is fixed to. -/
  hidden : ∀ (slot : Nat) (entry : Entry), slot ≠ 0 → action.table.entries[slot]? = some entry →
    entry.isFixed = true ∨ entry.isSealed = true → entry.content = .fixed (frame.cell slot)
  output : ∀ slot, action.table.outputSlot = some slot → frame.cells[slot]? = some .none
  /-- All else is empty, or of the types that the parameter declares. -/
  inputs : ∀ (slot : Nat) (entry : Entry) (role : Role) (types : Constraint),
    action.table.entries[slot]? = some entry → entry.content = .unbound role types →
    role ≠ .output → frame.cell slot = .none ∨ types.accepts (frame.cell slot) = true

theorem cells_getElem? {frame : Frame} {slot : Nat} (h : slot < frame.cells.length) :
    frame.cells[slot]? = some (frame.cell slot) := by
  unfold cell
  rw [List.getElem?_eq_getElem h]
  rfl

theorem cell_of_le {frame : Frame} {slot : Nat} (h : frame.cells.length ≤ slot) :
    frame.cell slot = .none := by
  unfold cell
  rw [List.getElem?_eq_none h]
  rfl

/-- **However a frame was filled, its cells hold what its table says.** -/
theorem Built.orderly {action : Action} {frame : Frame} (h : Built action frame)
    (hwf : action.table.WellFormed) : frame.Orderly action := by
  have hpos : 0 < frame.cells.length := h.length.symm ▸ hwf.layout.pos
  have hheader : frame.cells[0]? = some .none := by
    rw [cells_getElem? hpos, h.cell_zero hwf]
  have hreads : ∀ slot, frame.read? slot = some (frame.cell slot) := by
    intro slot
    unfold read?
    by_cases hlt : slot < frame.cells.length
    · rw [cells_getElem? hlt]
      rfl
    · have hle := Nat.le_of_not_lt hlt
      rw [List.getElem?_eq_none hle, hheader, cell_of_le hle]
      rfl
  refine ⟨h.length, hheader, hreads, ?_, ?_, ?_, ?_⟩
  · rintro slot (rfl | hle)
    · rw [hreads, h.cell_zero hwf]
    · rw [hreads, cell_of_le (h.length.symm ▸ hle)]
  · intro slot entry h0 hentry hhidden
    have hproper := hwf.layout.proper entry (Table.mem_body_iff.mpr ⟨slot, h0, hentry⟩)
    have hfixed : entry.isFixed = true := hhidden.elim id hproper.fixed_of_sealed
    obtain ⟨value, hcontent⟩ := Entry.isFixed_iff.mp hfixed
    have hfits := h.fits hentry
    unfold Entry.Fits at hfits
    rw [hcontent] at hfits
    rw [hcontent, hfits]
  · intro slot hslot
    obtain ⟨-, entry, types, hentry, hcontent⟩ := hwf.layout.output_slot hslot
    have hfits := h.fits hentry
    unfold Entry.Fits at hfits
    rw [hcontent] at hfits
    rw [cells_getElem? (h.length.symm ▸ (List.getElem?_eq_some_iff.mp hentry).1), hfits]
  · intro slot entry role types hentry hcontent hrole
    have hfits := h.fits hentry
    unfold Entry.Fits at hfits
    rw [hcontent] at hfits
    cases role with
    | output => exact absurd rfl hrole
    | normal => exact hfits
    | refinement => exact hfits

/-! ## What an attempt does -/

/-- **What an attempt does to a frame of an action**, whatever was filled before. -/
structure Responsive (action : Action) (frame : Frame) : Prop where
  /-- What callers are told does not depend on what the cells hold. -/
  steady : ∀ name value, (frame.attempt name value).1 = ((new action).attempt name value).1
  /-- What is refused changes nothing. -/
  refused : ∀ name value error, (frame.attempt name value).1 = .error error →
    (frame.attempt name value).2 = frame
  /-- What is taken changes the cell of the parameter, and nothing else. -/
  taken : ∀ name value, (frame.attempt name value).1 = .ok () → ∃ slot,
    action.table.find? name = some slot ∧
      (frame.attempt name value).2 = { frame with cells := frame.cells.set slot value }
  /-- It is read under its name, as long as no other value is taken for that name. -/
  lasting : ∀ name value later, (frame.attempt name value).1 = .ok () →
    (∀ pair ∈ later, pair.1 = name → ∃ error, (frame.attempt pair.1 pair.2).1 = .error error) →
    ((frame.attempt name value).2.attempts later).get name = .ok value
  /-- Attempts for different names commute: each is told the same first as last, and both orders
  leave the same frame. -/
  commute : ∀ m n u v, m ≠ n →
    ((frame.attempt n v).2.attempt m u).1 = (frame.attempt m u).1 ∧
    ((frame.attempt m u).2.attempt n v).1 = (frame.attempt n v).1 ∧
    ((frame.attempt m u).2.attempt n v).2 = ((frame.attempt n v).2.attempt m u).2

theorem place_of_attempt_ok {frame : Frame} {name : Symbol} {value : Value}
    (h : (frame.attempt name value).1 = .ok ()) :
    ∃ slot, frame.table.place name value = .ok slot := by
  rw [attempt_fst] at h
  cases hplace : frame.table.place name value with
  | error error =>
    rw [hplace] at h
    cases h
  | ok slot => exact ⟨slot, rfl⟩

/-- **A value is read under its name until another one is taken for it.** -/
theorem Built.get_attempts {action : Action} {frame : Frame} (h : Built action frame)
    {name : Symbol} {value : Value} {slot : Nat}
    (hplace : action.table.place name value = .ok slot) {later : List (Symbol × Value)}
    (hlater : ∀ pair ∈ later, pair.1 = name →
      ∃ error, action.table.place pair.1 pair.2 = .error error) :
    ((frame.put slot value).attempts later).get name = .ok value := by
  have hset : frame.set name value = .ok (frame.put slot value) := by
    rw [set_eq, h.table, hplace]
    rfl
  have hnext := h.set hset
  have hothers : ∀ pair ∈ later, action.table.place pair.1 pair.2 ≠ .ok slot := by
    intro pair hpair htaken
    by_cases hname : pair.1 = name
    · obtain ⟨error, herror⟩ := hlater pair hpair hname
      rw [herror] at htaken
      cases htaken
    · exact Table.place_ne hname htaken hplace rfl
  have hlast := hnext.attempts later
  rw [get_of_place (hlast.table.symm ▸ hplace), hnext.cell_attempts hothers,
    Frame.cell_put (h.place_lt hplace), if_pos rfl]

theorem Built.responsive {action : Action} {frame : Frame} (h : Built action frame) :
    frame.Responsive action where
  steady name value := by
    rw [attempt_fst, attempt_fst, h.table]
    rfl
  refused name value error herror := by
    rw [attempt_fst] at herror
    cases hplace : frame.table.place name value with
    | error other => rw [attempt_of_error hplace]
    | ok slot =>
      rw [hplace] at herror
      cases herror
  taken name value hok := by
    obtain ⟨slot, hplace⟩ := place_of_attempt_ok hok
    rw [attempt_of_ok hplace]
    rw [h.table] at hplace
    obtain ⟨entry, hfind, -⟩ := Table.place_eq_ok_iff.mp hplace
    exact ⟨slot, Option.map_eq_some_iff.mpr ⟨_, hfind, rfl⟩, rfl⟩
  lasting name value later hok hlater := by
    obtain ⟨slot, hplace⟩ := place_of_attempt_ok hok
    rw [attempt_of_ok hplace]
    rw [h.table] at hplace
    refine h.get_attempts hplace fun pair hpair hname => ?_
    obtain ⟨error, herror⟩ := hlater pair hpair hname
    rw [attempt_fst, h.table] at herror
    cases hrefused : action.table.place pair.1 pair.2 with
    | error other => exact ⟨other, rfl⟩
    | ok target =>
      rw [hrefused] at herror
      cases herror
  commute m n u v hne := by
    refine ⟨?_, ?_, frame.attempt_comm hne u v⟩
    · rw [attempt_fst, attempt_fst, table_attempt]
    · rw [attempt_fst, attempt_fst, table_attempt]

/-! ## Several arguments -/

/-- **Arguments are taken if each of them is.** -/
theorem exists_setAll_iff {frame : Frame} {pairs : List (Symbol × Value)} :
    (∃ next, frame.setAll pairs = .ok next) ↔
      ∀ pair ∈ pairs, ∃ slot, frame.table.place pair.1 pair.2 = .ok slot := by
  induction pairs generalizing frame with
  | nil => simp [setAll]
  | cons pair rest ih =>
    rw [setAll_cons, set_eq, List.forall_mem_cons]
    cases hplace : frame.table.place pair.1 pair.2 with
    | error error =>
      constructor
      · rintro ⟨next, hnext⟩
        cases hnext
      · rintro ⟨⟨slot, hslot⟩, -⟩
        cases hslot
    | ok slot =>
      refine Iff.trans (@ih (frame.put slot pair.2)) ?_
      exact ⟨fun hrest => ⟨⟨slot, rfl⟩, hrest⟩, fun hboth => hboth.2⟩

/-- **The last value that is given for a parameter counts.** -/
theorem Built.cell_setAll {action : Action} (hwf : action.table.WellFormed)
    {pairs : List (Symbol × Value)} {slot : Nat} {entry : Entry} (h0 : slot ≠ 0)
    (hentry : action.table.entries[slot]? = some entry) : ∀ {frame next : Frame},
    Built action frame → frame.setAll pairs = .ok next →
      next.cell slot = (pairs.reverse.lookup entry.name).getD (frame.cell slot) := by
  induction pairs with
  | nil =>
    intro frame next _ hset
    obtain rfl := Except.ok.inj hset
    rfl
  | cons pair rest ih =>
    intro frame next h hset
    obtain ⟨name, value⟩ := pair
    rw [setAll_cons, set_eq] at hset
    cases hplace : frame.table.place name value with
    | error error =>
      rw [hplace] at hset
      cases hset
    | ok target =>
      rw [hplace] at hset
      have hfirst : frame.set name value = .ok (frame.put target value) := by
        rw [set_eq, hplace]
        rfl
      rw [h.table] at hplace
      obtain ⟨htarget, other, hother, rfl, -⟩ := Table.place_named hplace
      rw [ih (h.set hfirst) hset, Frame.cell_put (h.place_lt hplace), List.reverse_cons,
        List.lookup_append]
      cases rest.reverse.lookup entry.name with
      | some last => rfl
      | none =>
        by_cases hslot : slot = target
        · subst hslot
          rw [hentry] at hother
          obtain rfl := Option.some.inj hother
          simp
        · have hname : entry.name ≠ other.name := fun heq =>
            hslot (Table.slot_unique hwf.distinct h0 htarget hentry hother heq)
          simp [hslot, List.lookup_cons, beq_eq_false_iff_ne.mpr hname]

/-- What stops a list of arguments is one of them that is refused. -/
theorem setAll_error {frame : Frame} {pairs : List (Symbol × Value)} {error : CallError}
    (h : frame.setAll pairs = .error error) :
    ∃ pair ∈ pairs, frame.table.place pair.1 pair.2 = .error error := by
  induction pairs generalizing frame with
  | nil => cases h
  | cons pair rest ih =>
    rw [setAll_cons, set_eq] at h
    cases hplace : frame.table.place pair.1 pair.2 with
    | error other =>
      rw [hplace] at h
      obtain rfl := Except.error.inj h
      exact ⟨pair, List.mem_cons_self, hplace⟩
    | ok slot =>
      rw [hplace] at h
      obtain ⟨refused, hmem, herror⟩ := @ih (frame.put slot pair.2) h
      exact ⟨refused, List.mem_cons_of_mem _ hmem, herror⟩

end Frame

/-! ## The arguments of a call -/

/-- The arguments of a call under the names of their parameters: those that are given by position,
and then those that are given by name. -/
def Table.pairing (table : Table) (positional : List Value) (named : List (Symbol × Value)) :
    List (Symbol × Value) :=
  table.positional.zip positional ++ named

theorem Table.zip_positional {table : Table} {positional : List Value}
    (h : positional.length ≤ table.positional.length) :
    table.positional.zip positional =
      (table.positional.take positional.length).zip positional := by
  rw [List.zip_eq_zip_take_min, Nat.min_eq_right h, List.take_length]

theorem Table.pairing_names {table : Table} {positional : List Value}
    (h : positional.length ≤ table.positional.length) (named : List (Symbol × Value)) :
    (table.pairing positional named).map (·.1) =
      table.positional.take positional.length ++ named.map (·.1) := by
  unfold pairing
  rw [List.map_append, zip_positional h, List.map_fst_zip (List.length_take_le _ _)]

theorem fulfil_ok {action : Action} {positional : List Value} {named : List (Symbol × Value)}
    {frame : Frame} (h : fulfil action positional named = .ok frame) :
    positional.length ≤ action.table.positional.length ∧
      (Frame.new action).setAll (action.table.pairing positional named) = .ok frame := by
  rcases Nat.lt_or_ge action.table.positional.length positional.length with hlt | hle
  · rw [fulfil_of_lt hlt] at h
    cases h
  · rw [fulfil_of_le hle] at h
    exact ⟨hle, h⟩

/-- **What a call puts into a cell**: the last argument for the parameter, or what it is fixed
to. -/
theorem cell_fulfil {action : Action} (hwf : action.table.WellFormed) {positional : List Value}
    {named : List (Symbol × Value)} {frame : Frame}
    (h : fulfil action positional named = .ok frame) {slot : Nat} {entry : Entry} (h0 : slot ≠ 0)
    (hentry : action.table.entries[slot]? = some entry) :
    frame.cell slot = ((action.table.pairing positional named).reverse.lookup entry.name).getD
      entry.initialCell := by
  rw [Frame.Built.cell_setAll hwf h0 hentry .new (fulfil_ok h).2, Frame.Built.cell_new hentry]

/-- Every argument of a call that was fulfilled was taken. -/
theorem fulfil_permits {action : Action} (hwf : action.table.WellFormed) {positional : List Value}
    {named : List (Symbol × Value)} {frame : Frame}
    (h : fulfil action positional named = .ok frame) {entry : Entry}
    (hentry : entry ∈ action.table.body) {value : Value}
    (hmem : (entry.name, value) ∈ action.table.pairing positional named) :
    entry.Permits value := by
  obtain ⟨slot, hplace⟩ := Frame.exists_setAll_iff.mp ⟨frame, (fulfil_ok h).2⟩ _ hmem
  obtain ⟨h0, other, hother, hname, hpermits⟩ := Table.place_named hplace
  obtain rfl := hwf.entry_unique (Table.mem_body_iff.mpr ⟨slot, h0, hother⟩) hentry hname
  exact hpermits

namespace Workshop

variable {w : Workshop}

/-- A call runs the frame that its arguments make. -/
theorem call_eq_fulfil (w : Workshop) (action : Action) (positional : List Value)
    (named : List (Symbol × Value)) :
    w.call action positional named = fulfil action positional named >>= w.invoke := by
  unfold Workshop.call ActionKit.call
  cases fulfil action positional named <;> rfl

/-- **Frames keep their invariant under any use of the public surface.** Whatever values are given
for whatever names, be they taken or refused, the cells hold what the table says, and every attempt
does what it says and no more. -/
theorem frames_orderly (hw : w.Reachable) {action : Action} (ha : action ∈ w.actions)
    (pairs : List (Symbol × Value)) :
    ((Frame.new action).attempts pairs).Orderly action ∧
      ((Frame.new action).attempts pairs).Responsive action := by
  have hbuilt : ((Frame.new action).attempts pairs).Built action := Frame.Built.new.attempts pairs
  exact ⟨hbuilt.orderly (hw.sound.wellFormed ha), hbuilt.responsive⟩

theorem join_attempted : (fresh.trial 1 fun made join =>
    match made.specialize join [(⟨6⟩, .text [97])] with
    | (.ok action, _) => some ((Frame.new action).attempts
        [(⟨7⟩, .text [98]), (⟨8⟩, .text [45]), (⟨6⟩, .text [99]), (.output, .text [99]),
          (⟨99⟩, .text [99]), (⟨7⟩, .integer 1), (⟨8⟩, .none)]).cells
    | (.error _, _) => none) = some [.none, .none, .text [97], .text [98], .none] := by
  decide +kernel

/-- Joining with its head fixed. A delimiter is given and taken back; values for the head, for the
output and for a parameter that is not there are refused, and so is a number for the tail. -/
theorem frames_orderly_join : ∃ (w : Workshop) (join action : Action) (frame : Frame),
    join ∈ fresh.actions ∧ fresh.specialize join [(⟨6⟩, .text [97])] = (.ok action, w) ∧
      frame = (Frame.new action).attempts
        [(⟨7⟩, .text [98]), (⟨8⟩, .text [45]), (⟨6⟩, .text [99]), (.output, .text [99]),
          (⟨99⟩, .text [99]), (⟨7⟩, .integer 1), (⟨8⟩, .none)] ∧
      frame.cells = [.none, .none, .text [97], .text [98], .none] ∧ frame.Orderly action ∧
      frame.Responsive action := by
  obtain ⟨made, hmade, hfresh, join, hmem, hmatch⟩ := exists_of_trial join_attempted
  rw [← hmade]
  split at hmatch
  · next action w hspecialize =>
    obtain ⟨hw, hown⟩ := hfresh.specialize hmem hspecialize
    obtain ⟨horderly, hresponsive⟩ := frames_orderly hw hown
      [(⟨7⟩, .text [98]), (⟨8⟩, .text [45]), (⟨6⟩, .text [99]), (.output, .text [99]),
        (⟨99⟩, .text [99]), (⟨7⟩, .integer 1), (⟨8⟩, .none)]
    exact ⟨w, join, action, _, hmem, hspecialize, rfl, Option.some.inj hmatch, horderly,
      hresponsive⟩
  · cases hmatch

end Workshop

end ActionKit
