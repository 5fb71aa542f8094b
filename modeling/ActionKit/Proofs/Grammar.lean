import ActionKit.SpecText.Lexeme

/-!
# The grammar of spec text

An item is a token, a quoted text, or any number of items in brackets. The lexemes of a text can be
derived in this grammar exactly if their brackets balance, and then in one way only.

* `Tree`: an item, by what it is made of.
* `Derives`: some items and the lexemes they are written with.
* `Balanced`: brackets that balance, counted from a number of blocks that are open.

Results:
* `Derives.unique`: lexemes come from one list of items only.
* `Balanced.exists_derives`: lexemes whose brackets balance come from some items.
-/

namespace ActionKit.SpecText

/-- An item of spec text. -/
inductive Tree where
  | token (run : List Char)
  | text (content : List Char)
  | block (items : List Tree)

/-- **The grammar**: items, and the lexemes they are written with. -/
inductive Derives : List Tree → List Shape → Prop
  | nil : Derives [] []
  | token (run : List Char) {rest : List Tree} {shapes : List Shape} (more : Derives rest shapes) :
      Derives (.token run :: rest) (.run run :: shapes)
  | text (content : List Char) {rest : List Tree} {shapes : List Shape}
      (more : Derives rest shapes) : Derives (.text content :: rest) (.text content :: shapes)
  | block {items rest : List Tree} {inside shapes : List Shape} (inner : Derives items inside)
      (more : Derives rest shapes) :
      Derives (.block items :: rest) (.opening :: inside ++ .closing :: shapes)

/-! ## Items are written in one way -/

/-- Lexemes at which items end: the end of all, or of a block. -/
def Ends (shapes : List Shape) : Prop := shapes = [] ∨ shapes.head? = some .closing

/-- No item starts where items end. -/
theorem Derives.not_ends {tree : Tree} {trees : List Tree} {shapes : List Shape}
    (h : Derives (tree :: trees) shapes) (rest : List Shape) : ¬Ends (shapes ++ rest) := by
  cases h <;> simp [Ends]

/-- Items that are followed by an end are told apart from what follows them. -/
theorem Derives.split {trees others : List Tree} {shapes written after behind : List Shape}
    (h : Derives trees shapes) (ho : Derives others written) (hafter : Ends after)
    (hbehind : Ends behind) (heq : shapes ++ after = written ++ behind) :
    trees = others ∧ after = behind := by
  -- What follows is part of the induction, since the inside of a block is followed by its bracket.
  induction h generalizing others written after behind with
  | nil =>
    cases others with
    | nil =>
      cases ho
      exact ⟨rfl, heq⟩
    | cons other others => exact absurd (heq ▸ hafter) (ho.not_ends behind)
  | token run more ih =>
    cases ho with
    | nil => exact absurd (heq.symm ▸ hbehind) ((Derives.token run more).not_ends after)
    | token other others =>
      obtain ⟨hrun, hrest⟩ := List.cons.inj heq
      obtain ⟨rfl, hend⟩ := ih others hafter hbehind hrest
      exact ⟨by rw [Shape.run.inj hrun], hend⟩
    | _ => simp at heq
  | text content more ih =>
    cases ho with
    | nil => exact absurd (heq.symm ▸ hbehind) ((Derives.text content more).not_ends after)
    | text other others =>
      obtain ⟨hcontent, hrest⟩ := List.cons.inj heq
      obtain ⟨rfl, hend⟩ := ih others hafter hbehind hrest
      exact ⟨by rw [Shape.text.inj hcontent], hend⟩
    | _ => simp at heq
  | block inner more ihInner ihMore =>
    cases ho with
    | nil => exact absurd (heq.symm ▸ hbehind) ((Derives.block inner more).not_ends after)
    | block otherInner others =>
      simp only [List.cons_append, List.append_assoc, List.cons.injEq, true_and] at heq
      obtain ⟨rfl, hrest⟩ := ihInner otherInner (.inr rfl) (.inr rfl) heq
      obtain ⟨rfl, hend⟩ := ihMore others hafter hbehind (List.cons.inj hrest).2
      exact ⟨rfl, hend⟩
    | _ => simp at heq

/-- **Lexemes come from one list of items only.** -/
theorem Derives.unique {trees others : List Tree} {shapes : List Shape} (h : Derives trees shapes)
    (ho : Derives others shapes) : trees = others :=
  (h.split ho (.inl rfl) (.inl rfl) rfl).1

/-! ## Balanced brackets -/

/-- **Brackets balance**, if `depth` blocks are open before them: no beginning closes more blocks
than were open or have been opened, and in the end all are closed. -/
structure Balanced (depth : Nat) (shapes : List Shape) : Prop where
  beginnings : ∀ front, front <+: shapes → front.count .closing ≤ depth + front.count .opening
  whole : shapes.count .closing = depth + shapes.count .opening

/-- The first lexeme opens a block, closes one, or does neither. -/
theorem balanced_cons {depth : Nat} {shape : Shape} {shapes : List Shape} :
    Balanced depth (shape :: shapes) ↔ ∃ next, [shape].count .closing + next =
      depth + [shape].count .opening ∧ Balanced next shapes := by
  have hcount : ∀ (mark : Shape) (front : List Shape),
      (shape :: front).count mark = [shape].count mark + front.count mark := by
    intro mark front
    rw [← List.singleton_append, List.count_append]
  constructor
  · intro h
    have hfirst := h.beginnings [shape] (by simp)
    refine ⟨depth + [shape].count .opening - [shape].count .closing, by omega, ?_, ?_⟩
    · intro front hfront
      have := h.beginnings (shape :: front) (List.cons_prefix_cons.mpr ⟨rfl, hfront⟩)
      rw [hcount .closing front, hcount .opening front] at this
      omega
    · have := h.whole
      rw [hcount .closing shapes, hcount .opening shapes] at this
      omega
  · rintro ⟨next, hnext, h⟩
    refine ⟨fun front hfront => ?_, ?_⟩
    · rcases List.prefix_cons_iff.mp hfront with rfl | ⟨rest, rfl, hrest⟩
      · simp
      · have := h.beginnings rest hrest
        rw [hcount .closing rest, hcount .opening rest]
        omega
    · have := h.whole
      rw [hcount .closing shapes, hcount .opening shapes]
      omega

@[simp] theorem balanced_nil {depth : Nat} : Balanced depth [] ↔ depth = 0 :=
  ⟨fun h => by simpa using h.whole.symm, fun h => ⟨by simp, by simp [h]⟩⟩

@[simp] theorem balanced_opening {depth : Nat} {shapes : List Shape} :
    Balanced depth (.opening :: shapes) ↔ Balanced (depth + 1) shapes := by
  simp [balanced_cons]

@[simp] theorem balanced_closing {depth : Nat} {shapes : List Shape} :
    Balanced depth (.closing :: shapes) ↔ ∃ next, next + 1 = depth ∧ Balanced next shapes := by
  simp [balanced_cons, Nat.add_comm]

@[simp] theorem balanced_text {depth : Nat} {content : List Char} {shapes : List Shape} :
    Balanced depth (.text content :: shapes) ↔ Balanced depth shapes := by
  simp [balanced_cons]

@[simp] theorem balanced_run {depth : Nat} {run : List Char} {shapes : List Shape} :
    Balanced depth (.run run :: shapes) ↔ Balanced depth shapes := by
  simp [balanced_cons]

/-- Items for every block that is open, each but the last with its closing bracket. -/
inductive Layers : Nat → List Shape → Prop
  | last {trees : List Tree} {shapes : List Shape} (own : Derives trees shapes) : Layers 0 shapes
  | layer {depth : Nat} {trees : List Tree} {shapes rest : List Shape} (own : Derives trees shapes)
      (more : Layers depth rest) : Layers (depth + 1) (shapes ++ .closing :: rest)

/-- One more item in the innermost block. -/
theorem Layers.cons {depth : Nat} {shape : Shape} {shapes : List Shape} {tree : Tree}
    (h : Layers depth shapes)
    (item : ∀ {trees own}, Derives trees own → Derives (tree :: trees) (shape :: own)) :
    Layers depth (shape :: shapes) := by
  cases h with
  | last own => exact .last (item own)
  | layer own more => exact .layer (item own) more

/-- The innermost block becomes an item of the next one. -/
theorem Layers.opening {depth : Nat} {shapes : List Shape} (h : Layers (depth + 1) shapes) :
    Layers depth (.opening :: shapes) := by
  cases h with
  | layer own more =>
    cases more with
    | last outer => exact .last (.block own outer)
    | @layer depth trees written rest outer more =>
      have hlayer := Layers.layer (.block own outer) more
      rwa [List.cons_append, List.cons_append, List.append_assoc, List.cons_append] at hlayer

theorem Balanced.layers {depth : Nat} {shapes : List Shape} (h : Balanced depth shapes) :
    Layers depth shapes := by
  induction shapes generalizing depth with
  | nil =>
    obtain rfl := balanced_nil.mp h
    exact .last .nil
  | cons shape rest ih =>
    cases shape with
    | opening => exact (ih (balanced_opening.mp h)).opening
    | closing =>
      obtain ⟨next, rfl, hrest⟩ := balanced_closing.mp h
      exact .layer .nil (ih hrest)
    | text content => exact (ih (balanced_text.mp h)).cons (.text content)
    | run run => exact (ih (balanced_run.mp h)).cons (.token run)

/-- **Lexemes whose brackets balance come from some items.** -/
theorem Balanced.exists_derives {shapes : List Shape} (h : Balanced 0 shapes) :
    ∃ trees, Derives trees shapes := by
  cases h.layers with
  | last own => exact ⟨_, own⟩

end ActionKit.SpecText
