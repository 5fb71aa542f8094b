import ActionKit.Proofs.Reading

/-!
# Reading goes on from where it is

A text that is followed by another is read first, and reading then goes on with the other: all that
counts of the first are the blocks that are open after it, the names that are known, and its length.
What has been read by then keeps its place in all that is read.

* `Apart`: no run goes across from one text to the next.
* `reach`: the open blocks and the names after a text, or the complaint that stops it.
* `resume`: reading from there on.
* `itemsAt`, `Nest.path`: the items of a block, and where the innermost open block is.

Results:
* `Lexeme.scan_append`: the lexemes of two texts are those of the first, then those of the second.
* `read_append`: reading two texts is reading the first and going on with the second.
* `readLexemes_begins`: what has been read stays where it is.
* `resume_run`: what a run does where reading goes on with it.
* `resume_push`: a value is in the place where it was added, once all is read.
-/

namespace ActionKit.SpecText

/-! ## Lengths -/

theorem byteLength_cons (c : Char) (cs : List Char) :
    byteLength (c :: cs) = c.utf8Size + byteLength cs := by
  have shift : ∀ (cs : List Char) (n : Nat),
      cs.foldl (fun length c => length + c.utf8Size) n = n + byteLength cs := by
    intro cs
    induction cs with
    | nil => exact fun n => rfl
    | cons d cs ih =>
      intro n
      rw [byteLength, List.foldl_cons, List.foldl_cons, ih, ih, Nat.zero_add, Nat.add_assoc]
  rw [byteLength, List.foldl_cons, shift, Nat.zero_add]

theorem byteLength_append (cs ds : List Char) :
    byteLength (cs ++ ds) = byteLength cs + byteLength ds := by
  induction cs with
  | nil => simp [byteLength]
  | cons c cs ih => rw [List.cons_append, byteLength_cons, byteLength_cons, ih, Nat.add_assoc]

/-! ## Scanning two texts -/

namespace Lexeme

/-- Both characters of an escape take up one byte. -/
theorem utf8Size_of_escape {c meant : Char} (h : Escape c meant) : c.utf8Size = 1 := by
  cases h <;> rfl

/-- A quoted text is read up to its closing quote, and its length is counted. -/
theorem quoted_eq {body content : List Char} (h : QuotedBody body content) (start offset : Nat)
    (rest : List Char) : quoted start offset (body ++ '"' :: rest) =
      .ok ⟨content, offset + (byteLength body + 1), rest⟩ := by
  induction h generalizing offset with
  | nil => rfl
  | plain noQuote noBackslash _ ih =>
    rw [List.cons_append, quoted_plain noQuote noBackslash, ih, byteLength_cons, Nat.add_assoc,
      Nat.add_assoc]
    rfl
  | escape known _ ih =>
    have hlength := utf8Size_of_escape known
    rw [List.cons_append, List.cons_append, quoted_escape known, ih, byteLength_cons,
      byteLength_cons, hlength, Nat.add_assoc]
    simp only [Except.map, Quoted.cons, show '\\'.utf8Size = 1 from rfl]
    congr 3
    omega

end Lexeme

/-- No run goes across from one text to the next. -/
def Apart (before after : List Char) : Prop :=
  (∀ c ∈ before.getLast?, isRunChar c = false) ∨ ∀ c ∈ after.head?, isRunChar c = false

/-- The end of a text is as far from the next text as the whole. -/
theorem Apart.of_append (front : List Char) {before after : List Char}
    (h : Apart (front ++ before) after) : Apart before after := by
  refine h.imp_left fun hlast c hc => hlast c ?_
  rw [List.getLast?_append, Option.mem_def.mp hc]
  rfl

/-- A run at the end of a text ends there. -/
theorem Apart.head_append {run rest after : List Char} (h : Apart (run ++ rest) after)
    (nonempty : run ≠ []) (chars : ∀ c ∈ run, isRunChar c = true)
    (maximal : ∀ c ∈ rest.head?, isRunChar c = false) :
    ∀ c ∈ (rest ++ after).head?, isRunChar c = false := by
  cases rest with
  | cons d rest => exact maximal
  | nil =>
    refine h.resolve_left fun hlast => ?_
    rw [List.append_nil, List.getLast?_eq_some_getLast nonempty] at hlast
    have hrun := chars _ (List.getLast_mem nonempty)
    rw [hlast _ rfl] at hrun
    cases hrun

/-- **The lexemes of two texts** are those of the first and those of the second, if no run goes
across. -/
theorem Lexeme.scan_append {before after : List Char} {shapes : List Shape} (h : Cut before shapes)
    (apart : Apart before after) (offset : Nat) :
    scan offset (before ++ after) =
      ((scan offset before).1 ++ (scan (offset + byteLength before) after).1,
        (scan (offset + byteLength before) after).2) := by
  induction h generalizing offset with
  | nil =>
    rw [scan]
    rfl
  | @blank c rest _ blank _ ih =>
    rw [List.cons_append, scan_blank blank, scan_blank blank, byteLength_cons, ← Nat.add_assoc]
    exact ih (.of_append [c] apart) _
  | opening _ ih =>
    rw [List.cons_append, scan_opening, scan_opening, byteLength_cons, ← Nat.add_assoc,
      ih (.of_append ['['] apart)]
    rfl
  | closing _ ih =>
    rw [List.cons_append, scan_closing, scan_closing, byteLength_cons, ← Nat.add_assoc,
      ih (.of_append [']'] apart)]
    rfl
  | @text body content rest _ inside _ ih =>
    have hrest : Apart rest after := by
      refine .of_append ('"' :: body ++ ['"']) ?_
      simpa using apart
    have hlength : offset + byteLength ('"' :: (body ++ '"' :: rest)) =
        offset + 1 + (byteLength body + 1) + byteLength rest := by
      simp only [byteLength_cons, byteLength_append, show '"'.utf8Size = 1 from rfl]
      omega
    have hwhole : '"' :: (body ++ '"' :: rest) ++ after =
        '"' :: (body ++ '"' :: (rest ++ after)) := by
      simp
    rw [hwhole, scan_text (quoted_eq inside _ _ _), scan_text (quoted_eq inside _ _ _), hlength,
      ih hrest]
    rfl
  | @run run rest _ nonempty chars maximal _ ih =>
    obtain ⟨c, tail, rfl⟩ := List.exists_cons_of_ne_nil nonempty
    have hc := chars c List.mem_cons_self
    have htail : ∀ d ∈ tail, isRunChar d = true := fun d hd => chars d (List.mem_cons_of_mem _ hd)
    rw [List.append_assoc, scan_run hc htail (apart.head_append nonempty chars maximal),
      scan_run hc htail maximal, byteLength_append, ← Nat.add_assoc, ih (.of_append _ apart)]
    rfl

/-! ## Reading two texts -/

variable {types : TypeRegistry} {names known more : Names}

/-- What a complaint about a text is reported as. -/
def Complaint.toError (complaint : Complaint) : BuildError :=
  .specText complaint.offset complaint.fault

/-- What is read, with a complaint made an error. -/
def report (result : Except Complaint (List Value) × Names) :
    Except BuildError (List Value) × Names :=
  result.map (·.mapError Complaint.toError) id

theorem report_eq_ok_iff {result : Except Complaint (List Value) × Names} {values : List Value} :
    (report result).1 = .ok values ↔ result.1 = .ok values := by
  obtain ⟨answer, names⟩ := result
  cases answer <;> simp [report, Except.mapError]

/-- Take lexemes in order, up to the first that is rejected. -/
def Nest.takeAll (types : TypeRegistry) (nest : Nest) (names : Names) :
    List Lexeme → Except Complaint (Nest × Names)
  | [] => .ok (nest, names)
  | lexeme :: rest =>
    match nest.take types names lexeme with
    | .error complaint => .error complaint
    | .ok (nest, names) => takeAll types nest names rest

/-- **What a text leads to**: the blocks that are open after it and the names that are known then,
or the complaint about the first of its lexemes that is rejected. -/
def reach (types : TypeRegistry) (names : Names) (text : List Char) :
    Except Complaint (Nest × Names) :=
  Nest.takeAll types {} names (Lexeme.scan 0 text).1

/-- **Reading goes on** with a text that starts at an offset, inside the blocks that are open. -/
def resume (types : TypeRegistry) (nest : Nest) (names : Names) (offset : Nat) (text : List Char) :
    Except Complaint (List Value) × Names :=
  readLexemes types (Lexeme.scan offset text).2 nest names (Lexeme.scan offset text).1

/-- Reading starts with no open block, at the start of the text. -/
theorem read_eq (types : TypeRegistry) (names : Names) (text : List Char) :
    read types names text = report (resume types {} names 0 text) := by
  unfold read resume
  simp only
  split <;> next hread => rw [hread]; rfl

/-- Lexemes that are all taken are taken before those that follow. -/
theorem readLexemes_append_ok {own : List Lexeme} {nest next : Nest}
    (h : nest.takeAll types names own = .ok (next, more)) (stopped : Option Complaint)
    (rest : List Lexeme) : readLexemes types stopped nest names (own ++ rest) =
      readLexemes types stopped next more rest := by
  induction own generalizing nest names with
  | nil =>
    obtain ⟨rfl, rfl⟩ := Prod.mk.inj (Except.ok.inj h)
    rfl
  | cons lexeme own ih =>
    rw [Nest.takeAll] at h
    rw [List.cons_append, readLexemes]
    cases htake : nest.take types names lexeme with
    | error complaint =>
      rw [htake] at h
      cases h
    | ok taken =>
      rw [htake] at h
      exact ih h

/-- The first lexeme that is rejected decides, whatever follows. -/
theorem readLexemes_append_error {own : List Lexeme} {nest : Nest} {complaint : Complaint}
    (h : nest.takeAll types names own = .error complaint) (stopped : Option Complaint)
    (rest : List Lexeme) :
    (readLexemes types stopped nest names (own ++ rest)).1 = .error complaint := by
  induction own generalizing nest names with
  | nil => cases h
  | cons lexeme own ih =>
    rw [Nest.takeAll] at h
    rw [List.cons_append, readLexemes]
    cases htake : nest.take types names lexeme with
    | error first =>
      rw [htake] at h
      obtain rfl := Except.error.inj h
      rfl
    | ok taken =>
      rw [htake] at h
      exact ih h

section Append

variable {before after : List Char} {shapes : List Shape} (cut : Cut before shapes)
  (apart : Apart before after)

include cut apart

/-- **Reading two texts is reading the first and going on with the second.** -/
theorem read_append {nest : Nest} (h : reach types names before = .ok (nest, known)) :
    read types names (before ++ after) =
      report (resume types nest known (byteLength before) after) := by
  rw [read_eq, resume, Lexeme.scan_append cut apart, readLexemes_append_ok h, Nat.zero_add]
  rfl

/-- A text that is refused is refused whatever follows it. -/
theorem read_append_error {complaint : Complaint}
    (h : reach types names before = .error complaint) :
    (read types names (before ++ after)).1 = .error complaint.toError := by
  rw [read_eq, resume, Lexeme.scan_append cut apart]
  have hstop := readLexemes_append_error h (Lexeme.scan (0 + byteLength before) after).2
    (Lexeme.scan (0 + byteLength before) after).1
  rw [report, Prod.map_fst, hstop]
  rfl

end Append

/-- Where reading goes on with a run, its value is added to the innermost block. -/
theorem resume_run {run rest : List Char} (nonempty : run ≠ [])
    (chars : ∀ c ∈ run, isRunChar c = true) (maximal : ∀ c ∈ rest.head?, isRunChar c = false)
    (nest : Nest) (offset : Nat) : resume types nest names offset (run ++ rest) =
      match runValue types names run with
      | .ok (value, more) => resume types (nest.push value) more (offset + byteLength run) rest
      | .error fault => (.error ⟨offset, fault⟩, names) := by
  obtain ⟨c, tail, rfl⟩ := List.exists_cons_of_ne_nil nonempty
  have hscan := Lexeme.scan_run (chars c List.mem_cons_self)
    (fun d hd => chars d (List.mem_cons_of_mem _ hd)) maximal offset
  rw [resume, hscan, readLexemes]
  simp only [Nest.take]
  cases runValue types names (c :: tail) <;> rfl

/-! ## Values stay in their places -/

/-- The items of the block that a path of positions leads to. There are none if it leads to no
block. -/
def itemsAt (values : List Value) : List Nat → List Value
  | [] => values
  | position :: path =>
    match values[position]? with
    | some (.block items) => itemsAt items path
    | _ => []

theorem itemsAt_concat {values items : List Value} {path : List Nat} {position : Nat}
    (h : (itemsAt values path)[position]? = some (.block items)) :
    itemsAt values (path ++ [position]) = items := by
  induction path generalizing values with
  | nil =>
    rw [itemsAt] at h
    simp only [List.nil_append, itemsAt, h]
  | cons first path ih =>
    rw [itemsAt] at h
    rw [List.cons_append, itemsAt]
    split at h
    · next inner hinner => exact ih h
    · cases h

namespace Nest

/-- Where the block is that is open inside some others: at the end of the values before it, in
each of them. -/
def pathOf (outer : List (Nat × List Value)) : List Nat := (outer.map (·.2.length)).reverse

/-- Where the innermost open block is. -/
def path (nest : Nest) : List Nat := pathOf nest.outer

theorem pathOf_cons (block : Nat × List Value) (outer : List (Nat × List Value)) :
    pathOf (block :: outer) = pathOf outer ++ [block.2.length] := by
  simp [pathOf]

/-- The items of every open block come first in a block among some values. -/
def Begins (values items : List Value) (outer : List (Nat × List Value)) : Prop :=
  items.reverse <+: itemsAt values (pathOf outer) ∧
    match outer with
    | [] => True
    | (_, before) :: outer => Begins values before outer

variable {values items : List Value} {outer : List (Nat × List Value)} {value : Value}

theorem Begins.of_cons (h : Begins values (value :: items) outer) : Begins values items outer := by
  unfold Begins at h ⊢
  refine ⟨.trans ?_ h.1, h.2⟩
  rw [List.reverse_cons]
  exact List.prefix_append _ _

/-- An item is in the place where it was added. -/
theorem Begins.getElem? (h : Begins values (value :: items) outer) :
    (itemsAt values (pathOf outer))[items.length]? = some value := by
  unfold Begins at h
  obtain ⟨rest, hrest⟩ := h.1
  rw [← hrest]
  simp

end Nest

/-- **What has been read stays where it is**: the items of every open block are the first ones of
that block when all is read. -/
theorem readLexemes_begins {stopped : Option Complaint} {lexemes : List Lexeme} {nest : Nest}
    {values : List Value}
    (h : (readLexemes types stopped nest names lexemes).1 = .ok values) :
    Nest.Begins values nest.items nest.outer := by
  induction lexemes generalizing nest names with
  | nil =>
    unfold readLexemes at h
    split at h
    · cases h
    · unfold Nest.close at h
      split at h
      · next houter =>
        obtain rfl := Except.ok.inj h
        rw [houter, Nest.Begins]
        exact ⟨List.prefix_rfl, trivial⟩
      · cases h
  | cons lexeme rest ih =>
    unfold readLexemes at h
    split at h
    · cases h
    · next next more htake =>
      have hnext := ih h
      obtain ⟨-, rfl, -⟩ | ⟨-, hleave, -⟩ | ⟨_, -, rfl, -⟩ | ⟨_, _, -, -, rfl⟩ :=
        Nest.take_cases htake
      · unfold Nest.Begins at hnext
        exact hnext.2
      · unfold Nest.leave? at hleave
        split at hleave
        · cases hleave
        · next offset before outer houter =>
          obtain rfl := Option.some.inj hleave
          rw [houter, Nest.Begins, Nest.pathOf_cons, itemsAt_concat hnext.getElem?]
          exact ⟨List.prefix_rfl, hnext.of_cons⟩
      · exact hnext.of_cons
      · exact hnext.of_cons

/-- **A value is in the place where it was added**, once all is read. -/
theorem resume_push {nest : Nest} {value : Value} {offset : Nat} {text : List Char}
    {values : List Value}
    (h : (resume types (nest.push value) names offset text).1 = .ok values) :
    (itemsAt values nest.path)[nest.items.length]? = some value :=
  (readLexemes_begins h).getElem?

end ActionKit.SpecText
