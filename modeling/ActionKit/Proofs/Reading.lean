import ActionKit.Proofs.Grammar
import ActionKit.Proofs.Tokens

/-!
# Reading accepts the grammar

A text is read exactly if it can be cut into lexemes whose brackets balance and whose runs are
valid, and what is read is the value of the items that the lexemes come from.

* `Evaluates`: the values of items, read one after the other.
* `Means`: the values of items, by the names that are known in the end.
* `Blocks`: the blocks that are open as one stack, which could run empty; `readBlocks` reads with
  it.

Results:
* `readLexemes_derives`: items are read as a whole, whatever blocks are open around them.
* `readLexemes_accepts`: what is read is balanced, and its runs are valid.
* `read_eq_ok_iff`: which texts are read, and what is read.
* `readBlocks_eq`, `Blocks.Visits.ne_nil`: the stack never runs empty.
* `read_accepts`: **reading accepts exactly the grammar**.
-/

namespace ActionKit.SpecText

variable {types : TypeRegistry} {names more last : Names}

/-! ## The values of items -/

/-- The values of items, read one after the other: names are interned as they are met. -/
inductive Evaluates (types : TypeRegistry) : Names → List Tree → List Value → Names → Prop
  | nil (names : Names) : Evaluates types names [] [] names
  | token {names more last : Names} {run : List Char} {value : Value} {trees : List Tree}
      {values : List Value} (first : runValue types names run = .ok (value, more))
      (rest : Evaluates types more trees values last) :
      Evaluates types names (.token run :: trees) (value :: values) last
  | text {names last : Names} {trees : List Tree} {values : List Value} (content : List Char)
      (rest : Evaluates types names trees values last) :
      Evaluates types names (.text content :: trees) (.text (.ofChars content) :: values) last
  | block {names more last : Names} {items trees : List Tree} {inside values : List Value}
      (inner : Evaluates types names items inside more)
      (rest : Evaluates types more trees values last) :
      Evaluates types names (.block items :: trees) (.block inside :: values) last

/-- **The values of items**, by the names that are known in the end. -/
inductive Means (types : TypeRegistry) (names : Names) : List Tree → List Value → Prop
  | nil : Means types names [] []
  | token {run : List Char} {value : Value} {trees : List Tree} {values : List Value}
      (first : RunDenotes types names run value) (rest : Means types names trees values) :
      Means types names (.token run :: trees) (value :: values)
  | text (content : List Char) {trees : List Tree} {values : List Value}
      (rest : Means types names trees values) :
      Means types names (.text content :: trees) (.text (.ofChars content) :: values)
  | block {items trees : List Tree} {inside values : List Value}
      (inner : Means types names items inside) (rest : Means types names trees values) :
      Means types names (.block items :: trees) (.block inside :: values)

/-- Reading items adds names behind all others, and no names of types. -/
theorem Evaluates.grows {trees : List Tree} {values : List Value}
    (h : Evaluates types names trees values last) : names.Grows last ∧ names.SameTypes last := by
  induction h with
  | nil names => exact ⟨.refl names, .refl names⟩
  | token first _ ih =>
    exact ⟨(runValue_grows first).trans ih.1, (runValue_spec first).1.trans ih.2⟩
  | text _ _ ih => exact ih
  | block _ _ ihInner ih => exact ⟨ihInner.1.trans ih.1, ihInner.2.trans ih.2⟩

theorem Means.mono {trees : List Tree} {values : List Value} (hgrows : names.Grows more)
    (hsame : names.SameTypes more) (h : Means types names trees values) :
    Means types more trees values := by
  induction h with
  | nil => exact .nil
  | token first _ ih => exact .token (first.mono hgrows hsame) ih
  | text content _ ih => exact .text content ih
  | block _ _ ihInner ih => exact .block ihInner ih

theorem Evaluates.means {trees : List Tree} {values : List Value}
    (h : Evaluates types names trees values last) : Means types last trees values := by
  induction h with
  | nil => exact .nil
  | token first rest ih =>
    exact .token ((runValue_spec first).2.mono rest.grows.1 rest.grows.2) ih
  | text content _ ih => exact .text content ih
  | block _ rest ihInner ih => exact .block (ihInner.mono rest.grows.1 rest.grows.2) ih

/-- Every run among some lexemes is valid. -/
def RunsValid (types : TypeRegistry) (names : Names) (shapes : List Shape) : Prop :=
  ∀ run, .run run ∈ shapes → ValidRun types names run

/-- Items with valid runs have values. -/
theorem Derives.exists_evaluates {trees : List Tree} {shapes : List Shape}
    (h : Derives trees shapes) (valid : RunsValid types names shapes) :
    ∃ values last, Evaluates types names trees values last := by
  induction h generalizing names with
  | nil => exact ⟨[], names, .nil names⟩
  | token run _ ih =>
    obtain ⟨⟨value, more⟩, first⟩ := exists_runValue_iff.mpr (valid run List.mem_cons_self)
    have hrest : RunsValid types more _ := fun other hother =>
      (ValidRun.congr (runValue_spec first).1).mpr (valid other (List.mem_cons_of_mem _ hother))
    obtain ⟨values, last, rest⟩ := ih hrest
    exact ⟨_, last, .token first rest⟩
  | text content _ ih =>
    obtain ⟨values, last, rest⟩ := ih fun run hrun => valid run (List.mem_cons_of_mem _ hrun)
    exact ⟨_, last, .text content rest⟩
  | block _ _ ihInner ih =>
    obtain ⟨inside, more, inner⟩ := ihInner fun run hrun => valid run (by simp [hrun])
    obtain ⟨values, last, rest⟩ := ih fun run hrun =>
      (ValidRun.congr inner.grows.2).mpr (valid run (by simp [hrun]))
    exact ⟨_, last, .block inner rest⟩

/-! ## Taking lexemes -/

/-- What taking a lexeme does. -/
theorem Nest.take_cases {nest next : Nest} {lexeme : Lexeme}
    (h : nest.take types names lexeme = .ok (next, more)) :
    (lexeme.shape = .opening ∧ next = nest.enter lexeme.offset ∧ more = names) ∨
    (lexeme.shape = .closing ∧ nest.leave? = some next ∧ more = names) ∨
    (∃ content, lexeme.shape = .text content ∧ next = nest.push (.text (.ofChars content)) ∧
      more = names) ∨
    ∃ run value, lexeme.shape = .run run ∧ runValue types names run = .ok (value, more) ∧
      next = nest.push value := by
  unfold Nest.take at h
  split at h
  · next hshape =>
    obtain ⟨rfl, rfl⟩ := Prod.mk.inj (Except.ok.inj h)
    exact .inl ⟨hshape, rfl, rfl⟩
  · next hshape =>
    split at h
    · next left hleave =>
      obtain ⟨rfl, rfl⟩ := Prod.mk.inj (Except.ok.inj h)
      exact .inr (.inl ⟨hshape, hleave, rfl⟩)
    · cases h
  · next content hshape =>
    obtain ⟨rfl, rfl⟩ := Prod.mk.inj (Except.ok.inj h)
    exact .inr (.inr (.inl ⟨content, hshape, rfl, rfl⟩))
  · next run hshape =>
    split at h
    · next value read hrun =>
      obtain ⟨rfl, rfl⟩ := Prod.mk.inj (Except.ok.inj h)
      exact .inr (.inr (.inr ⟨run, value, hshape, hrun, rfl⟩))
    · cases h

theorem readLexemes_cons {nest next : Nest} {lexeme : Lexeme} {stopped : Option Complaint}
    (h : nest.take types names lexeme = .ok (next, more)) (rest : List Lexeme) :
    readLexemes types stopped nest names (lexeme :: rest) =
      readLexemes types stopped next more rest := by
  rw [readLexemes, h]

/-- **Items are read as a whole**, whatever blocks are open around them. -/
theorem readLexemes_derives {trees : List Tree} {shapes : List Shape} (h : Derives trees shapes)
    {values : List Value} (hvalues : Evaluates types names trees values last)
    {own : List Lexeme} (hown : own.map (·.shape) = shapes) (stopped : Option Complaint)
    (nest : Nest) (rest : List Lexeme) :
    readLexemes types stopped nest names (own ++ rest) =
      readLexemes types stopped { nest with items := values.reverse ++ nest.items } last rest := by
  induction h generalizing names last values own nest rest with
  | nil =>
    cases hvalues
    obtain rfl := List.map_eq_nil_iff.mp hown
    rfl
  | token run _ ih =>
    cases hvalues with
    | @token _ middle _ _ value _ _ first hrest =>
      obtain ⟨lexeme, own, rfl, hshape, hown⟩ := List.map_eq_cons_iff.mp hown
      have htake : nest.take types names lexeme = .ok (nest.push value, middle) := by
        simp only [Nest.take, hshape, first]
      rw [List.cons_append, readLexemes_cons htake, ih hrest hown]
      simp [Nest.push]
  | text content _ ih =>
    cases hvalues with
    | text _ hrest =>
      obtain ⟨lexeme, own, rfl, hshape, hown⟩ := List.map_eq_cons_iff.mp hown
      have htake : nest.take types names lexeme =
          .ok (nest.push (.text (.ofChars content)), names) := by
        simp only [Nest.take, hshape]
      rw [List.cons_append, readLexemes_cons htake, ih hrest hown]
      simp [Nest.push]
  | block _ _ ihInner ih =>
    cases hvalues with
    | @block _ middle _ _ _ inside _ hinner hrest =>
      obtain ⟨lexeme, own, rfl, hshape, hown⟩ := List.map_eq_cons_iff.mp hown
      obtain ⟨inner, own, rfl, hinside, hown⟩ := List.map_eq_append_iff.mp hown
      obtain ⟨closing, own, rfl, hclosing, hown⟩ := List.map_eq_cons_iff.mp hown
      -- The inside is read with the block open, and the closing bracket makes it a value.
      have hopen : nest.take types names lexeme = .ok (nest.enter lexeme.offset, names) := by
        simp only [Nest.take, hshape]
      have hclose : Nest.take ⟨inside.reverse, (lexeme.offset, nest.items) :: nest.outer⟩ types
          middle closing = .ok (nest.push (.block inside), middle) := by
        simp [Nest.take, hclosing, Nest.leave?, Nest.push]
      rw [List.cons_append, readLexemes_cons hopen, List.append_assoc, ihInner hinner hinside]
      simp only [Nest.enter, List.append_nil, List.cons_append]
      rw [readLexemes_cons hclose, ih hrest hown]
      simp [Nest.push]

/-- **What is read is balanced, and its runs are valid.** -/
theorem readLexemes_accepts {stopped : Option Complaint} {lexemes : List Lexeme} {nest : Nest}
    {values : List Value}
    (h : readLexemes types stopped nest names lexemes = (.ok values, last)) :
    stopped = none ∧ Balanced nest.outer.length (lexemes.map (·.shape)) ∧
      RunsValid types names (lexemes.map (·.shape)) := by
  induction lexemes generalizing nest names with
  | nil =>
    unfold readLexemes at h
    split at h
    · cases (Prod.mk.inj h).1
    · refine ⟨rfl, ?_, fun run hrun => absurd hrun List.not_mem_nil⟩
      have hclose := (Prod.mk.inj h).1
      unfold Nest.close at hclose
      split at hclose
      · next houter => simp [houter]
      · cases hclose
  | cons lexeme rest ih =>
    unfold readLexemes at h
    split at h
    · cases (Prod.mk.inj h).1
    · next next more htake =>
      obtain ⟨hstopped, hbalanced, hvalid⟩ := ih h
      -- The names interned so far are those of words, so they make no run valid.
      have hrest : names.SameTypes more → ∀ run, .run run ∈ rest.map (·.shape) →
          ValidRun types names run :=
        fun hsame run hrun => (ValidRun.congr hsame).mp (hvalid run hrun)
      refine ⟨hstopped, ?_⟩
      rw [List.map_cons]
      obtain ⟨hshape, rfl, rfl⟩ | ⟨hshape, hleave, rfl⟩ | ⟨content, hshape, rfl, rfl⟩ |
        ⟨run, value, hshape, hrun, rfl⟩ := Nest.take_cases htake
      · exact ⟨hshape ▸ balanced_opening.mpr hbalanced,
          by simpa [RunsValid, hshape] using hrest (.refl _)⟩
      · unfold Nest.leave? at hleave
        split at hleave
        · cases hleave
        · next houter =>
          obtain rfl := Option.some.inj hleave
          exact ⟨hshape ▸ balanced_closing.mpr ⟨_, by rw [houter]; rfl, hbalanced⟩,
            by simpa [RunsValid, hshape] using hrest (.refl _)⟩
      · exact ⟨hshape ▸ balanced_text.mpr hbalanced,
          by simpa [RunsValid, hshape] using hrest (.refl _)⟩
      · refine ⟨hshape ▸ balanced_run.mpr hbalanced, fun other hother => ?_⟩
        rw [hshape] at hother
        rcases List.mem_cons.mp hother with heq | hother
        · obtain rfl := Shape.run.inj heq
          exact exists_runValue_iff.mp ⟨_, hrun⟩
        · exact hrest (runValue_spec hrun).1 other hother

/-! ## Reading a text -/

/-- Reading fails where reading the lexemes does. -/
theorem read_eq_ok_iff_readLexemes {text : List Char} {values : List Value} :
    read types names text = (.ok values, last) ↔
      readLexemes types (Lexeme.scan 0 text).2 {} names (Lexeme.scan 0 text).1 =
        (.ok values, last) := by
  unfold read
  simp only
  split
  · next hread => rw [hread]; simp
  · next hread => rw [hread]; simp

/-- The items of a text are read. -/
theorem read_of_derives {text : List Char} {shapes : List Shape} {trees : List Tree}
    {values : List Value} (hcut : Cut text shapes) (hderives : Derives trees shapes)
    (hvalues : Evaluates types names trees values last) :
    read types names text = (.ok values, last) := by
  obtain ⟨hshapes, hstopped⟩ := Lexeme.scan_complete hcut 0
  have hread := readLexemes_derives hderives hvalues hshapes none {} []
  rw [read_eq_ok_iff_readLexemes, hstopped]
  rw [List.append_nil] at hread
  rw [hread]
  simp [readLexemes, Nest.close]

/-- **Which texts are read, and what is read**: the items that can be derived from a text, with
their names interned in order. -/
theorem read_eq_ok_iff {text : List Char} {values : List Value} :
    read types names text = (.ok values, last) ↔ ∃ shapes trees, Cut text shapes ∧
      Derives trees shapes ∧ Evaluates types names trees values last := by
  constructor
  · intro h
    obtain ⟨hstopped, hbalanced, hvalid⟩ :=
      readLexemes_accepts (read_eq_ok_iff_readLexemes.mp h)
    have hcut := Lexeme.scan_sound hstopped
    obtain ⟨trees, hderives⟩ := hbalanced.exists_derives
    obtain ⟨values', last', hvalues⟩ := hderives.exists_evaluates hvalid
    have hread := read_of_derives hcut hderives hvalues
    rw [h] at hread
    obtain ⟨hok, rfl⟩ := Prod.mk.inj hread
    obtain rfl := Except.ok.inj hok
    exact ⟨_, trees, hcut, hderives, hvalues⟩
  · rintro ⟨shapes, trees, hcut, hderives, hvalues⟩
    exact read_of_derives hcut hderives hvalues

/-- The texts that are read are those that can be cut into lexemes whose brackets balance and
whose runs are valid. -/
theorem exists_read_iff {text : List Char} :
    (∃ values last, read types names text = (.ok values, last)) ↔
      ∃ shapes, Cut text shapes ∧ Balanced 0 shapes ∧ RunsValid types names shapes := by
  constructor
  · rintro ⟨values, last, h⟩
    obtain ⟨hstopped, hbalanced, hvalid⟩ :=
      readLexemes_accepts (read_eq_ok_iff_readLexemes.mp h)
    exact ⟨_, Lexeme.scan_sound hstopped, hbalanced, hvalid⟩
  · rintro ⟨shapes, hcut, hbalanced, hvalid⟩
    obtain ⟨trees, hderives⟩ := hbalanced.exists_derives
    obtain ⟨values, last, hvalues⟩ := hderives.exists_evaluates hvalid
    exact ⟨values, last, read_of_derives hcut hderives hvalues⟩

/-! ## The stack of blocks -/

/-- Why reading with a stack stops: the text is refused, or a block is needed and none is there. -/
inductive Halt where
  | refused (error : BuildError)
  | emptyStack

/-- A text is refused for a complaint. -/
def Halt.ofComplaint (complaint : Complaint) : Halt :=
  .refused (.specText complaint.offset complaint.fault)

/-- The blocks that are open as one stack, the innermost first: the offset of the opening bracket
and the values so far. The lowest one stands for the whole text. -/
abbrev Blocks := List (Nat × List Value)

namespace Blocks

/-- One more value in the block on top. -/
def push (stack : Blocks) (value : Value) : Except Halt Blocks :=
  match stack with
  | [] => .error .emptyStack
  | (offset, values) :: rest => .ok ((offset, values ++ [value]) :: rest)

/-- Close the block on top, if it is not the only one. -/
def close (stack : Blocks) (offset : Nat) : Except Halt Blocks :=
  if stack.length = 1 then .error (.ofComplaint ⟨offset, .unbalanced⟩)
  else
    match stack with
    | [] => .error .emptyStack
    | (_, values) :: rest => push rest (.block values)

/-- Take one lexeme. -/
def take (stack : Blocks) (types : TypeRegistry) (names : Names) (lexeme : Lexeme) :
    Except Halt (Blocks × Names) :=
  match lexeme.shape with
  | .opening => .ok ((lexeme.offset, []) :: stack, names)
  | .closing => (stack.close lexeme.offset).map (·, names)
  | .text content => (stack.push (.text (.ofChars content))).map (·, names)
  | .run chars =>
    match runValue types names chars with
    | .ok (value, names) => (stack.push value).map (·, names)
    | .error fault => .error (.ofComplaint ⟨lexeme.offset, fault⟩)

/-- The values read, if only the block of the whole text is left. -/
def finish (stack : Blocks) : Except Halt (List Value) :=
  if 1 < stack.length then
    match stack with
    | [] => .error .emptyStack
    | (offset, _) :: _ => .error (.ofComplaint ⟨offset, .unterminatedBlock⟩)
  else
    match stack with
    | [] => .ok []
    | (_, values) :: _ => .ok values

/-- Take lexemes in order. -/
def loop (types : TypeRegistry) (stopped : Option Complaint) (stack : Blocks) (names : Names) :
    List Lexeme → Except Halt (List Value) × Names
  | [] =>
    match stopped with
    | some complaint => (.error (.ofComplaint complaint), names)
    | none => (stack.finish, names)
  | lexeme :: rest =>
    match stack.take types names lexeme with
    | .error halt => (.error halt, names)
    | .ok (stack, names) => loop types stopped stack names rest

/-- The stacks between two lexemes. -/
inductive Visits (types : TypeRegistry) : Blocks → Names → List Lexeme → Blocks → Prop
  | here (stack : Blocks) (names : Names) (lexemes : List Lexeme) :
      Visits types stack names lexemes stack
  | later {stack next visited : Blocks} {names more : Names} {lexeme : Lexeme}
      {rest : List Lexeme} (taken : stack.take types names lexeme = .ok (next, more))
      (visits : Visits types next more rest visited) :
      Visits types stack names (lexeme :: rest) visited

end Blocks

/-- Read a text with a stack of blocks. -/
def readBlocks (types : TypeRegistry) (names : Names) (text : List Char) :
    Except Halt (List Value) × Names :=
  Blocks.loop types (Lexeme.scan 0 text).2 [(0, [])] names (Lexeme.scan 0 text).1

namespace Nest

/-- The open blocks as a stack. -/
def stackOf (items : List Value) : List (Nat × List Value) → Blocks
  | [] => [(0, items.reverse)]
  | (offset, before) :: outer => (offset, items.reverse) :: stackOf before outer

/-- The open blocks of a nest as a stack. -/
def stack (nest : Nest) : Blocks := stackOf nest.items nest.outer

/-- There is always a block on top. -/
theorem exists_stack (nest : Nest) :
    ∃ offset rest, ∀ items, stack { nest with items } = (offset, items.reverse) :: rest := by
  obtain ⟨items, outer⟩ := nest
  cases outer with
  | nil => exact ⟨0, [], fun _ => rfl⟩
  | cons block outer => exact ⟨block.1, stackOf block.2 outer, fun _ => rfl⟩

theorem stack_ne_nil (nest : Nest) : nest.stack ≠ [] := by
  obtain ⟨offset, rest, h⟩ := nest.exists_stack
  rw [h nest.items]
  exact List.cons_ne_nil _ _

theorem push_stack (nest : Nest) (value : Value) :
    nest.stack.push value = .ok (nest.push value).stack := by
  obtain ⟨offset, rest, h⟩ := nest.exists_stack
  rw [push, h nest.items, h (value :: nest.items)]
  simp [Blocks.push]

theorem close_stack (nest : Nest) (offset : Nat) :
    nest.stack.close offset = match nest.leave? with
      | some left => .ok left.stack
      | none => .error (.ofComplaint ⟨offset, .unbalanced⟩) := by
  obtain ⟨items, outer⟩ := nest
  cases outer with
  | nil => rfl
  | cons block outer =>
    have hpush := push_stack ⟨block.2, outer⟩ (.block items.reverse)
    have hlength : (stack ⟨items, block :: outer⟩).length ≠ 1 := by
      have := stack_ne_nil ⟨block.2, outer⟩
      simpa [stack, stackOf] using this
    unfold Blocks.close
    rw [if_neg hlength]
    exact hpush

/-- **One step**: a stack takes a lexeme as the nest does, and is not found empty. -/
theorem take_stack (nest : Nest) (names : Names) (lexeme : Lexeme) :
    nest.stack.take types names lexeme =
      ((nest.take types names lexeme).map fun taken => (taken.1.stack, taken.2)).mapError
        .ofComplaint := by
  obtain ⟨offset, shape⟩ := lexeme
  unfold Blocks.take Nest.take
  cases shape with
  | opening => rfl
  | closing =>
    simp only [close_stack]
    cases nest.leave? <;> rfl
  | text content =>
    simp only [push_stack]
    rfl
  | run chars =>
    simp only [push_stack]
    cases runValue types names chars <;> rfl

theorem finish_stack (nest : Nest) : nest.stack.finish = nest.close.mapError .ofComplaint := by
  obtain ⟨items, outer⟩ := nest
  cases outer with
  | nil => rfl
  | cons block outer =>
    have hlength : 1 < (stack ⟨items, block :: outer⟩).length := by
      have := List.length_pos_iff.mpr (stack_ne_nil ⟨block.2, outer⟩)
      simpa [stack, stackOf] using this
    unfold Blocks.finish
    rw [if_pos hlength]
    rfl

/-- **The whole loop**: reading with a stack is reading with a nest. -/
theorem loop_stack (types : TypeRegistry) (stopped : Option Complaint) (lexemes : List Lexeme)
    (nest : Nest) (names : Names) :
    Blocks.loop types stopped nest.stack names lexemes =
      ((readLexemes types stopped nest names lexemes).1.mapError .ofComplaint,
        (readLexemes types stopped nest names lexemes).2) := by
  induction lexemes generalizing nest names with
  | nil =>
    unfold Blocks.loop readLexemes
    cases stopped with
    | some complaint => rfl
    | none => rw [finish_stack]
  | cons lexeme rest ih =>
    unfold Blocks.loop readLexemes
    rw [take_stack]
    cases nest.take types names lexeme with
    | error complaint => rfl
    | ok taken => exact ih taken.1 taken.2

end Nest

/-- Reading with a stack refuses what reading refuses, and never finds the stack empty. -/
theorem readBlocks_eq (types : TypeRegistry) (names : Names) (text : List Char) :
    readBlocks types names text =
      ((read types names text).1.mapError .refused, (read types names text).2) := by
  have hloop := Nest.loop_stack types (Lexeme.scan 0 text).2 (Lexeme.scan 0 text).1 {} names
  unfold readBlocks read
  rw [show ([(0, [])] : Blocks) = ({} : Nest).stack from rfl, hloop]
  simp only
  split <;> next hread => rw [hread]; rfl

/-- The stack is never empty between two lexemes. -/
theorem Blocks.Visits.ne_nil (nest : Nest) {lexemes : List Lexeme} {stack visited : Blocks}
    (h : Visits types stack names lexemes visited) (hstack : stack = nest.stack) :
    visited ≠ [] := by
  induction h generalizing nest with
  | here => exact hstack ▸ nest.stack_ne_nil
  | @later _ _ _ names _ lexeme _ taken _ ih =>
    rw [hstack, Nest.take_stack] at taken
    cases htake : nest.take types names lexeme with
    | error complaint =>
      rw [htake] at taken
      cases taken
    | ok next =>
      rw [htake] at taken
      exact ih next.1 (Prod.mk.inj (Except.ok.inj taken)).1.symm

/-! ## The main result -/

/-- **Reading accepts exactly the grammar.** A text is read if and only if it can be cut into
blanks, brackets, quoted texts and maximal runs, such that the brackets balance and every run is
valid. What is read are the values of the items of the text, of which there is one list only. Where
the open blocks are kept as a stack, the same is read, and the stack is never found empty. -/
theorem read_accepts (types : TypeRegistry) (names : Names) (text : List Char) :
    ((∃ values last, read types names text = (.ok values, last)) ↔
      ∃ shapes, Cut text shapes ∧ Balanced 0 shapes ∧ RunsValid types names shapes) ∧
    (∀ values last, read types names text = (.ok values, last) → names.Grows last ∧
      ∃ shapes trees, Cut text shapes ∧ Derives trees shapes ∧ Means types last trees values ∧
        ∀ shapes' trees', Cut text shapes' → Derives trees' shapes' → trees' = trees) ∧
    readBlocks types names text =
      ((read types names text).1.mapError .refused, (read types names text).2) ∧
    ∀ stack, Blocks.Visits types [(0, [])] names (Lexeme.scan 0 text).1 stack → stack ≠ [] := by
  refine ⟨exists_read_iff, fun values last h => ?_, readBlocks_eq types names text,
    fun stack h => h.ne_nil {} rfl⟩
  obtain ⟨shapes, trees, hcut, hderives, hvalues⟩ := read_eq_ok_iff.mp h
  refine ⟨hvalues.grows.1, shapes, trees, hcut, hderives, hvalues.means, ?_⟩
  intro shapes' trees' hcut' hderives'
  obtain rfl := hcut'.unique hcut
  exact hderives'.unique hderives

/-- No blanks are needed next to brackets and quotes, and a quoted bracket does not count. -/
theorem read_accepts_glued : ∃ values last,
    read {} .initial "a[b\"]\\n\"/c]-5".toList = (.ok values, last) := by
  have hcut : Cut (['a'] ++ '[' :: (['b'] ++ '"' :: ([']', '\\', 'n'] ++ '"' :: (['/', 'c'] ++
      ']' :: (['-', '5'] ++ [])))))
      [.run ['a'], .opening, .run ['b'], .text [']', '\n'], .run ['/', 'c'], .closing,
        .run ['-', '5']] :=
    .run (by decide) (List.all_eq_true.mp rfl) (by rintro _ ⟨⟩; rfl) (.opening
      (.run (by decide) (List.all_eq_true.mp rfl) (by rintro _ ⟨⟩; rfl)
        (.text (.plain (by decide) (by decide) (.escape .newline .nil))
          (.run (by decide) (List.all_eq_true.mp rfl) (by rintro _ ⟨⟩; rfl)
            (.closing (.run (by decide) (List.all_eq_true.mp rfl) (by simp) .nil))))))
  have hvalid : RunsValid {} .initial [.run ['a'], .opening, .run ['b'], .text [']', '\n'],
      .run ['/', 'c'], .closing, .run ['-', '5']] := by
    intro run hrun
    simp only [List.mem_cons, Shape.run.injEq, reduceCtorEq, false_or, List.not_mem_nil,
      or_false] at hrun
    rcases hrun with rfl | rfl | rfl | rfl <;>
      exact ⟨_, Token.ofRun?_sound rfl, by simp⟩
  exact (read_accepts {} .initial _).1.mpr ⟨_, hcut, by simp, hvalid⟩

end ActionKit.SpecText
