import ActionKit.Entry

/-!
# The scratch area

Entries pile up on one shared scratch area while parameter tables are being drafted. A region of
it starts at a base mark, is only changed above that mark, and is given back as a whole: popped,
when its entries are wanted, or released.

* `Scratch.enter` opens a region at the current depth.
* `Scratch.view`, `Scratch.update`: the entries of a region, and changing them.
* `Scratch.push`, `Scratch.insert`, `Scratch.modify`: single changes of the one list that all
  regions share.
* `Scratch.pop`, `Scratch.release` end a region.

The area keeps a trace of regions being opened and ended.

Results:
* `view_update`, `take_update`: a change to a region is seen there, and nowhere below.
* `pop_entries`, `release_entries`: ending a region leaves what lay below its base mark.
-/

namespace ActionKit

/-- What happened to a region of the scratch area. -/
inductive RegionEvent where
  | opened (depth : Nat)
  | popped (depth count : Nat)
  | unwound (depth count : Nat)
deriving DecidableEq, Repr

/-- The shared area where entries pile up. -/
structure Scratch where
  entries : List Entry := []
  /-- The regions opened and ended so far. -/
  trace : List RegionEvent := []
deriving DecidableEq, Repr

/-- A region of the scratch area, from its base mark upwards. -/
structure Region where
  base : Nat
deriving DecidableEq, Repr

namespace Scratch

/-- The number of entries of all open regions. -/
def depth (scratch : Scratch) : Nat := scratch.entries.length

/-- Open a region on top of all others. -/
def enter (scratch : Scratch) : Region × Scratch :=
  (⟨scratch.depth⟩, { scratch with trace := scratch.trace ++ [.opened scratch.depth] })

/-- The entries of a region. -/
def view (scratch : Scratch) (region : Region) : List Entry := scratch.entries.drop region.base

/-- Change the entries of a region. -/
def update (scratch : Scratch) (region : Region) (f : List Entry → List Entry) : Scratch :=
  { scratch with
    entries := scratch.entries.take region.base ++ f (scratch.view region) }

/-- Put an entry on top of the area. -/
def push (scratch : Scratch) (entry : Entry) : Scratch :=
  { scratch with entries := scratch.entries ++ [entry] }

/-- Put an entry into a region at an index, moving up those that follow. Indices count from the
base mark. -/
def insert (scratch : Scratch) (region : Region) (index : Nat) (entry : Entry) : Scratch :=
  { scratch with entries := scratch.entries.insertIdx (region.base + index) entry }

/-- Change one entry of a region. -/
def modify (scratch : Scratch) (region : Region) (index : Nat) (f : Entry → Entry) : Scratch :=
  { scratch with entries := scratch.entries.modify (region.base + index) f }

/-- End a region, taking its entries. -/
def pop (scratch : Scratch) (region : Region) : List Entry × Scratch :=
  let taken := scratch.view region
  (taken, {
    entries := scratch.entries.take region.base
    trace := scratch.trace ++ [.popped region.base taken.length] })

/-- End a region, dropping its entries. An empty region leaves no trace of its end. -/
def release (scratch : Scratch) (region : Region) : Scratch :=
  let dropped := scratch.view region
  if dropped.isEmpty then scratch
  else {
    entries := scratch.entries.take region.base
    trace := scratch.trace ++ [.unwound region.base dropped.length] }

/-! ## Regions see their own entries only -/

/-- A base mark that lies within the area. -/
def Holds (scratch : Scratch) (region : Region) : Prop := region.base ≤ scratch.depth

@[simp] theorem view_update {scratch : Scratch} {region : Region} (h : scratch.Holds region)
    (f : List Entry → List Entry) :
    (scratch.update region f).view region = f (scratch.view region) := by
  have hb : (scratch.entries.take region.base).length = region.base := by
    rw [List.length_take]
    exact Nat.min_eq_left h
  simp only [view, update]
  rw [List.drop_append_of_le_length (by omega), List.drop_eq_nil_of_le (by omega), List.nil_append]

theorem take_update {scratch : Scratch} {region : Region} (h : scratch.Holds region)
    (f : List Entry → List Entry) :
    (scratch.update region f).entries.take region.base = scratch.entries.take region.base := by
  have hb : (scratch.entries.take region.base).length = region.base := by
    rw [List.length_take]
    exact Nat.min_eq_left h
  simp only [update]
  rw [List.take_append_of_le_length (by omega), List.take_take, Nat.min_self]

/-- What is put on top of the area belongs to every region of it. -/
theorem push_eq_update {scratch : Scratch} (region : Region) (entry : Entry) :
    scratch.push entry = scratch.update region (· ++ [entry]) := by
  simp only [push, update, view]
  rw [← List.append_assoc, List.take_append_drop]

theorem holds_enter (scratch : Scratch) : scratch.enter.2.Holds scratch.enter.1 :=
  Nat.le_refl _

theorem holds_update {scratch : Scratch} {region : Region} (h : scratch.Holds region)
    (f : List Entry → List Entry) : (scratch.update region f).Holds region := by
  have h' : region.base ≤ scratch.entries.length := h
  simp only [Holds, depth, update, List.length_append, List.length_take]
  omega

theorem view_enter (scratch : Scratch) : scratch.enter.2.view scratch.enter.1 = [] := by
  simp [enter, view, depth]

@[simp] theorem pop_entries (scratch : Scratch) (region : Region) :
    (scratch.pop region).2.entries = scratch.entries.take region.base := rfl

theorem release_entries (scratch : Scratch) (region : Region) :
    (scratch.release region).entries = scratch.entries.take region.base := by
  unfold release
  simp only
  split
  · next h =>
    have : scratch.entries.length ≤ region.base := by
      simpa [view] using h
    rw [List.take_of_length_le this]
  · rfl

end Scratch

end ActionKit
