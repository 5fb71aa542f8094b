import ActionKit.Proofs.Kinship
import Mathlib.Data.ENat.Lattice
import Mathlib.Order.CompletePartialOrder

/-!
# Walks along the links

A walk follows the links of a table until there is none, or until it has followed 64 of them. It
ends whatever the links are, also where they lead around in a circle, and what it finds are the
tables within reach and no others.

* `Lineage.chainLength`: how many links follow one another from a table on.
* `Lineage.WalksExactly`: what walks find.

Results:
* `le_chainLength_iff`, `chainLength_of_circle`: what the length of a chain says, and when it is
  endless.
* `le_length_walk_iff`, `getElem?_walk`: how far a walk goes, and what it finds at every step.
* `walk_link_of_ne`: a link from a table that no link leads to changes no other walk.
* `walks_exactly`: walks are exact, whatever the links are.
-/

namespace ActionKit.Lineage

variable {lineage : Lineage} {table : TableId}

/-- A table that links lead to is reached past all the tables before it. -/
theorem isSome_climb_of_le {fewer links : Nat} (hle : fewer ≤ links)
    (h : (lineage.climb links table).isSome = true) :
    (lineage.climb fewer table).isSome = true := by
  induction links generalizing fewer table with
  | zero =>
    obtain rfl := Nat.le_zero.mp hle
    exact h
  | succ links ih =>
    cases fewer with
    | zero => rfl
    | succ fewer =>
      unfold climb at h ⊢
      cases hsource : lineage.source? table with
      | none => simp [hsource] at h
      | some source =>
        rw [hsource] at h
        exact ih (Nat.le_of_succ_le_succ hle) h

/-- **How many links follow one another from a table on**: none if it has no link, and endlessly
many if the links come back to where they have been. -/
noncomputable def chainLength (lineage : Lineage) (table : TableId) : ℕ∞ :=
  ⨆ links ∈ {links : Nat | (lineage.climb links table).isSome = true}, (links : ℕ∞)

theorem le_chainLength_iff {links : Nat} :
    (links : ℕ∞) ≤ lineage.chainLength table ↔ (lineage.climb links table).isSome = true := by
  constructor
  · intro hle
    cases links with
    | zero => rfl
    | succ links =>
      -- Some chain is longer than its first `links` links, and passes the table after them.
      have hlt : (links : ℕ∞) < lineage.chainLength table :=
        (Nat.cast_lt.mpr links.lt_succ_self).trans_le hle
      unfold chainLength at hlt
      obtain ⟨more, hmore, hlt⟩ := lt_biSup_iff.mp hlt
      exact isSome_climb_of_le (Nat.succ_le_of_lt (Nat.cast_lt.mp hlt)) hmore
  · intro h
    exact le_biSup (fun links : Nat => (links : ℕ∞)) (show links ∈ {links | _} from h)

theorem climb_add (lineage : Lineage) (first rest : Nat) (table : TableId) :
    lineage.climb (first + rest) table =
      (lineage.climb first table).bind (lineage.climb rest) := by
  induction first generalizing table with
  | zero => rw [Nat.zero_add]; rfl
  | succ first ih =>
    rw [Nat.succ_add]
    show (lineage.source? table).bind _ = ((lineage.source? table).bind _).bind _
    rw [Option.bind_assoc]
    exact congrArg _ (funext ih)

/-- Links that lead back to where they started go on without an end. -/
theorem chainLength_of_circle (links : Nat)
    (circle : lineage.climb (links + 1) table = some table) :
    lineage.chainLength table = ⊤ := by
  have hround : ∀ rounds, lineage.climb (rounds * (links + 1)) table = some table := by
    intro rounds
    induction rounds with
    | zero => rw [Nat.zero_mul]; rfl
    | succ rounds ih => rw [Nat.succ_mul, climb_add, ih, Option.bind_some, circle]
  refine ENat.eq_top_iff_forall_ge.mpr fun more => le_chainLength_iff.mpr ?_
  refine isSome_climb_of_le (Nat.le_mul_of_pos_right more links.succ_pos) ?_
  rw [hround more]
  rfl

/-! ## What a walk finds -/

/-- A walk stops at its depth, or where there is no link to follow. -/
theorem le_length_walk_iff {depth links : Nat} :
    links ≤ (lineage.walk depth table).length ↔
      links ≤ depth ∧ (lineage.climb links table).isSome = true := by
  induction depth generalizing links table with
  | zero =>
    refine ⟨fun h => ⟨h, ?_⟩, fun h => h.1⟩
    obtain rfl := Nat.le_zero.mp h
    rfl
  | succ depth ih =>
    cases links with
    | zero => simp [climb]
    | succ links =>
      unfold walk climb
      cases lineage.source? table with
      | none => simp
      | some source =>
        rw [List.length_cons, Nat.succ_le_succ_iff, Nat.succ_le_succ_iff]
        exact ih

theorem length_walk (depth : Nat) :
    ((lineage.walk depth table).length : ℕ∞) = min (depth : ℕ∞) (lineage.chainLength table) := by
  refine ENat.eq_of_forall_natCast_le_iff fun links => ?_
  rw [le_min_iff, le_chainLength_iff, Nat.cast_le, Nat.cast_le]
  exact le_length_walk_iff

/-- Every step of a walk finds the table that as many links lead to. -/
theorem getElem?_walk {depth links : Nat} (h : links < depth) :
    (lineage.walk depth table)[links]? = lineage.climb (links + 1) table := by
  induction depth generalizing links table with
  | zero => exact absurd h (Nat.not_lt_zero _)
  | succ depth ih =>
    unfold walk climb
    cases lineage.source? table with
    | none => rfl
    | some source =>
      cases links with
      | zero => rfl
      | succ links => exact ih (Nat.lt_of_succ_lt_succ h)

/-- The ancestors of a table are its sources, one after the other, the first 64 if there are
more. -/
theorem map_ancestors (lineage : Lineage) (table : TableId) :
    (lineage.ancestors table).map some =
      (List.range (min 64 (lineage.chainLength table)).toNat).map fun links =>
        lineage.climb (links + 1) table := by
  have hlength : (min 64 (lineage.chainLength table)).toNat =
      (lineage.ancestors table).length :=
    (congrArg ENat.toNat (length_walk maxDepth).symm).trans (ENat.toNat_natCast _)
  rw [hlength]
  refine List.ext_getElem? fun links => ?_
  rw [List.getElem?_map, List.getElem?_map]
  by_cases hlt : links < (lineage.ancestors table).length
  · have hdepth : links < maxDepth := (le_length_walk_iff.mp (Nat.succ_le_of_lt hlt)).1
    have hstep : (lineage.ancestors table)[links]? = lineage.climb (links + 1) table :=
      getElem?_walk hdepth
    rw [List.getElem?_range hlt, Option.map_some, ← hstep, List.getElem?_eq_getElem hlt,
      Option.map_some]
  · rw [List.getElem?_eq_none (Nat.le_of_not_lt hlt),
      List.getElem?_eq_none (by simpa using Nat.le_of_not_lt hlt)]
    rfl

/-! ## One more link -/

/-- **A link from a table that no other table has as its source** changes the walk of no other
table. -/
theorem walk_link_of_ne {new source : TableId}
    (fresh : ∀ other ≠ new, lineage.source? other ≠ some new) (depth : Nat) (hne : table ≠ new) :
    (lineage.link new source).walk depth table = lineage.walk depth table := by
  induction depth generalizing table with
  | zero => rfl
  | succ depth ih =>
    unfold walk
    rw [source?_link_ne lineage hne]
    cases hnext : lineage.source? table with
    | none => rfl
    | some next =>
      -- The walk goes on from another table, since no link leads to the new one.
      have hnext' : next ≠ new := fun heq => fresh table hne (heq ▸ hnext)
      exact congrArg _ (ih hnext')

/-- **What walks along the links find.** -/
structure WalksExactly (lineage : Lineage) : Prop where
  /-- The ancestors of a table are its sources, one after the other: all of them, or the first 64
  if there are more. -/
  ancestors : ∀ table, (lineage.ancestors table).map some =
    (List.range (min 64 (lineage.chainLength table)).toNat).map fun links =>
      lineage.climb (links + 1) table
  /-- A table derives from those that at most 64 links lead to, itself included. -/
  derivesFrom : ∀ table ancestor, lineage.derivesFrom table ancestor = true ↔
    ∃ links ≤ 64, lineage.climb links table = some ancestor
  /-- Two tables are compatible if at most 64 links lead from one to the other. -/
  compatible : ∀ a b, lineage.compatible a b = true ↔
    ∃ links ≤ 64, lineage.climb links a = some b ∨ lineage.climb links b = some a
  refl : ∀ table, lineage.compatible table table = true
  symm : ∀ a b, lineage.compatible a b = lineage.compatible b a
  /-- A new link from a table that is no source of another one concerns no other table. -/
  link : ∀ new source, (∀ table ≠ new, lineage.source? table ≠ some new) →
    ∀ table ≠ new, (lineage.link new source).ancestors table = lineage.ancestors table ∧
      (∀ ancestor, (lineage.link new source).derivesFrom table ancestor =
        lineage.derivesFrom table ancestor) ∧
      ∀ other ≠ new, (lineage.link new source).compatible table other =
        lineage.compatible table other

/-- **Walks are exact**, whatever the links are. -/
theorem walks_exactly (lineage : Lineage) : lineage.WalksExactly where
  ancestors := lineage.map_ancestors
  derivesFrom _ _ := derivesFrom_iff
  compatible _ _ := compatible_iff
  refl := lineage.compatible_self
  symm := lineage.compatible_comm
  link new source fresh := by
    have hancestors : ∀ table ≠ new,
        (lineage.link new source).ancestors table = lineage.ancestors table :=
      fun table hne => walk_link_of_ne fresh maxDepth hne
    have hderives : ∀ table ≠ new, ∀ ancestor,
        (lineage.link new source).derivesFrom table ancestor =
          lineage.derivesFrom table ancestor := by
      intro table hne ancestor
      unfold Lineage.derivesFrom
      rw [hancestors table hne]
    intro table hne
    refine ⟨hancestors table hne, hderives table hne, fun other hother => ?_⟩
    unfold Lineage.compatible
    rw [hderives table hne, hderives other hother]

/-- A chain of 65 links, and two tables that are each other's source. The far end of the chain is
one link out of reach, the walk around the circle stops after 64 links, and another link to the near
end of the chain concerns neither. -/
theorem walks_exactly_circle : ∃ lineage : Lineage,
    lineage.links = (⟨66⟩, ⟨67⟩) :: (⟨67⟩, ⟨66⟩) ::
      (List.range 65).map (fun number => (⟨number + 1⟩, ⟨number⟩)) ∧
    lineage.WalksExactly ∧
    lineage.derivesFrom ⟨64⟩ ⟨0⟩ = true ∧ lineage.derivesFrom ⟨65⟩ ⟨0⟩ = false ∧
    lineage.chainLength ⟨66⟩ = ⊤ ∧ (lineage.ancestors ⟨66⟩).length = 64 ∧
    (∀ table ≠ (⟨68⟩ : TableId), lineage.source? table ≠ some ⟨68⟩) ∧
    (lineage.link ⟨68⟩ ⟨65⟩).ancestors ⟨66⟩ = lineage.ancestors ⟨66⟩ := by
  have hfresh : ∀ table : TableId, ((⟨66⟩, ⟨67⟩) :: (⟨67⟩, ⟨66⟩) ::
      (List.range 65).map (fun number => (⟨number + 1⟩, ⟨number⟩))).lookup table ≠
        some (⟨68⟩ : TableId) := by
    intro table hsource
    have hnone : ∀ link ∈ (⟨66⟩, ⟨67⟩) :: (⟨67⟩, ⟨66⟩) :: (List.range 65).map
        (fun number => ((⟨number + 1⟩ : TableId), (⟨number⟩ : TableId))), link.2 ≠ ⟨68⟩ := by
      decide
    exact hnone _ (mem_of_lookup hsource) rfl
  refine ⟨{ next := 69, links := _ }, rfl, walks_exactly _, by decide, by decide,
    chainLength_of_circle 1 (by decide), by decide, fun table _ => hfresh table, ?_⟩
  refine ((walks_exactly _).link ⟨68⟩ ⟨65⟩ ?_ ⟨66⟩ (by decide)).1
  exact fun table _ => hfresh table

end ActionKit.Lineage
