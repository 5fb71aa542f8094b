import ActionKit.Proofs.Halting

/-!
# What errors point at

A text that cannot be read is refused for the first thing that is wrong with it, and the offset
reported is that of the culprit: the closing bracket too many, the innermost block that is left
open, the quote of a text that is not closed, the backslash of an unknown escape, or the first
character of a token that has no value. What stands before the culprit has been read by then.

* `Standing`: a run that is a token where it stands.
* `Blames`: what an error points at, and why.

Results:
* `Nest.exists_opening`: behind the bracket of the innermost open block all brackets balance.
* `Gets.opened`: where that bracket stands in a text.
* `Blames.inside`: the offset is that of a character of the text.
* `read_blames`: **an error points at the first thing that is wrong**.
-/

namespace ActionKit.SpecText

variable {types : TypeRegistry} {names last : Names}

/-! ## Open brackets -/

/-- **Behind the bracket of the innermost open block all brackets balance**, if it was opened by the
lexemes taken; if it was open before them, they close as many blocks as lead to it. -/
theorem Nest.exists_opening {lexemes : List Lexeme} {nest next : Nest}
    (h : nest.takeAll types names lexemes = .ok (next, last)) :
    (∃ closed, next.outer = nest.outer.drop closed ∧
      Balanced closed (lexemes.map (·.shape))) ∨
    ∃ front back offset items outer, lexemes = front ++ ⟨offset, .opening⟩ :: back ∧
      next.outer = (offset, items) :: outer ∧ Balanced 0 (back.map (·.shape)) := by
  induction lexemes generalizing nest names with
  | nil =>
    obtain ⟨rfl, -⟩ := Prod.mk.inj (Except.ok.inj h)
    exact .inl ⟨0, rfl, balanced_nil.mpr rfl⟩
  | cons lexeme rest ih =>
    obtain ⟨mid, more, htake, h⟩ := takeAll_cons_iff.mp h
    rw [List.map_cons]
    rcases ih h with ⟨closed, houter, hbalanced⟩ |
      ⟨front, back, offset, items, outer, hrest, hopen, hbalanced⟩
    · obtain ⟨hshape, hnext, -⟩ | ⟨hshape, hleave, -⟩ | ⟨content, hshape, hnext, -⟩ |
        ⟨run, value, hshape, -, hnext⟩ := Nest.take_cases htake
      · rw [hnext] at houter
        cases closed with
        | zero =>
          exact .inr ⟨[], rest, lexeme.offset, _, _, by rw [← hshape]; rfl, houter, hbalanced⟩
        | succ closed => exact .inl ⟨closed, houter, hshape ▸ balanced_opening.mpr hbalanced⟩
      · unfold Nest.leave? at hleave
        split at hleave
        · cases hleave
        · next block items outer hnest =>
          rw [← Option.some.inj hleave] at houter
          exact .inl ⟨closed + 1, by rw [hnest]; exact houter,
            hshape ▸ balanced_closing.mpr ⟨closed, rfl, hbalanced⟩⟩
      · rw [hnext] at houter
        exact .inl ⟨closed, houter, hshape ▸ balanced_text.mpr hbalanced⟩
      · rw [hnext] at houter
        exact .inl ⟨closed, houter, hshape ▸ balanced_run.mpr hbalanced⟩
    · -- A block that the rest opens and leaves open is left open by all.
      exact .inr ⟨lexeme :: front, back, offset, items, outer, by rw [hrest, List.cons_append],
        hopen, hbalanced⟩

/-- A text is divided at every opening bracket. -/
theorem Cut.split_opening {text : List Char} {shapes front back : List Shape} (h : Cut text shapes)
    (hshapes : shapes = front ++ .opening :: back) :
    ∃ before after, text = before ++ '[' :: after ∧ Cut before front ∧ Cut after back := by
  induction h generalizing front with
  | nil => cases front <;> cases hshapes
  | @blank c rest shapes hc _ ih =>
    obtain ⟨before, after, rfl, hbefore, hafter⟩ := ih hshapes
    exact ⟨c :: before, after, rfl, .blank hc hbefore, hafter⟩
  | @opening rest shapes more ih =>
    cases front with
    | nil =>
      obtain rfl := (List.cons.inj hshapes).2
      exact ⟨[], rest, rfl, .nil, more⟩
    | cons shape front =>
      obtain ⟨rfl, hrest⟩ := List.cons.inj hshapes
      obtain ⟨before, after, rfl, hbefore, hafter⟩ := ih hrest
      exact ⟨'[' :: before, after, rfl, .opening hbefore, hafter⟩
  | closing _ ih =>
    cases front with
    | nil => cases hshapes
    | cons shape front =>
      obtain ⟨rfl, hrest⟩ := List.cons.inj hshapes
      obtain ⟨before, after, rfl, hbefore, hafter⟩ := ih hrest
      exact ⟨']' :: before, after, rfl, .closing hbefore, hafter⟩
  | @text body _ _ _ inside _ ih =>
    cases front with
    | nil => cases hshapes
    | cons shape front =>
      obtain ⟨rfl, hrest⟩ := List.cons.inj hshapes
      obtain ⟨before, after, rfl, hbefore, hafter⟩ := ih hrest
      exact ⟨'"' :: (body ++ '"' :: before), after, by simp, .text inside hbefore, hafter⟩
  | @run run _ _ nonempty chars maximal _ ih =>
    cases front with
    | nil => cases hshapes
    | cons shape front =>
      obtain ⟨rfl, hrest⟩ := List.cons.inj hshapes
      obtain ⟨before, after, rfl, hbefore, hafter⟩ := ih hrest
      refine ⟨run ++ before, after, by simp, .run nonempty chars ?_ hbefore, hafter⟩
      cases before with
      | nil => exact fun _ hc => by cases hc
      | cons d before => exact maximal

/-- Lexemes that are all taken are taken one part after the other. -/
theorem Nest.takeAll_of_append {own rest : List Lexeme} {nest next : Nest}
    (h : nest.takeAll types names (own ++ rest) = .ok (next, last)) :
    ∃ mid known, nest.takeAll types names own = .ok (mid, known) := by
  induction own generalizing nest names with
  | nil => exact ⟨nest, names, rfl⟩
  | cons lexeme own ih =>
    obtain ⟨first, more, htake, hrest⟩ := takeAll_cons_iff.mp h
    obtain ⟨mid, known, hown⟩ := ih hrest
    exact ⟨mid, known, takeAll_cons_iff.mpr ⟨first, more, htake, hown⟩⟩

/-- **Where the bracket of the innermost open block stands**: what is before it has been taken, and
what is behind it is balanced. -/
theorem Gets.opened {text rest : List Char} {shapes : List Shape} {next : Nest} {offset : Nat}
    {items : List Value} {outer : List (Nat × List Value)}
    (h : Gets types {} names 0 text rest shapes next last)
    (houter : next.outer = (offset, items) :: outer) :
    ∃ before after front back mid known, text = before ++ '[' :: after ∧
      offset = byteLength before ∧
      Gets types {} names 0 before ('[' :: after) front mid known ∧ Cut after back ∧
      Balanced 0 back := by
  rcases Nest.exists_opening h.taken with ⟨closed, hclosed, -⟩ |
    ⟨front, back, at', items', outer', hlexemes, hopen, hbalanced⟩
  · rw [houter, show ({} : Nest).outer = [] from rfl, List.drop_nil] at hclosed
    cases hclosed
  · obtain rfl : at' = offset := (Prod.mk.inj (List.cons.inj (hopen.symm.trans houter)).1).1
    have hshapes := (Lexeme.scan_complete h.cut 0).1
    rw [hlexemes, List.map_append, List.map_cons] at hshapes
    obtain ⟨before, after, rfl, hbefore, hafter⟩ := h.cut.split_opening hshapes.symm
    have hapart : Apart before ('[' :: after) := .inr fun c hc => Option.some.inj hc ▸ rfl
    -- The lexemes before the bracket are those of the text before it.
    have hscan := Lexeme.scan_append hbefore hapart 0
    rw [Lexeme.scan_opening, Prod.ext_iff, hlexemes] at hscan
    have hlength : front.length = (Lexeme.scan 0 before).1.length := by
      have hfront := congrArg List.length (Lexeme.scan_complete hbefore 0).1
      simpa using hfront.symm
    obtain ⟨hfront, hback⟩ := List.append_inj hscan.1 hlength
    have hoffset : at' = byteLength before := by
      have hbracket := congrArg Lexeme.offset (List.cons.inj hback).1
      simpa using hbracket
    have htaken := h.taken
    rw [hlexemes, hfront] at htaken
    obtain ⟨mid, known, hmid⟩ := Nest.takeAll_of_append htaken
    exact ⟨before, after, _, _, mid, known, rfl, hoffset, ⟨hbefore, hapart, hmid⟩, hafter,
      hbalanced⟩

/-- Where no block is left open, all brackets balance. -/
theorem Gets.balanced {before rest : List Char} {shapes : List Shape} {next : Nest}
    (h : Gets types {} names 0 before rest shapes next last) (hclosed : next.outer = []) :
    Balanced 0 shapes := by
  have hread := h.read
  rw [Nest.close, hclosed] at hread
  obtain ⟨-, hbalanced, -⟩ := readLexemes_accepts (read_eq_ok_iff_readLexemes.mp hread)
  rwa [(Lexeme.scan_complete h.cut 0).1] at hbalanced

/-! ## Culprits -/

/-- **A token where it stands**: a run between two parts of a text that goes on in neither. -/
structure Standing (before run after : List Char) : Prop where
  nonempty : run ≠ []
  chars : ∀ c ∈ run, isRunChar c = true
  start : ∀ c ∈ before.getLast?, isRunChar c = false
  stop : ∀ c ∈ after.head?, isRunChar c = false

/-- **What an error points at**, behind a part of a text and the lexemes of that: the rest of the
text, which starts with the culprit, the offset reported and the fault. -/
inductive Blames (types : TypeRegistry) (names : Names) (before : List Char) (shapes : List Shape) :
    List Char → Nat → ReadFault → Prop
  /-- A closing bracket before which all brackets balance. -/
  | unbalanced (balanced : Balanced 0 shapes) (after : List Char) :
      Blames types names before shapes (']' :: after) (byteLength before) .unbalanced
  /-- An opening bracket behind which all brackets balance: none that is left open comes after. -/
  | unterminatedBlock {after : List Char} {inner : List Shape} (cut : Cut after inner)
      (balanced : Balanced 0 inner) :
      Blames types names before shapes ('[' :: after) (byteLength before) .unterminatedBlock
  /-- A quote that no other quote comes after. -/
  | unclosed {body content : List Char} (inside : QuotedBody body content) :
      Blames types names before shapes ('"' :: body) (byteLength before) .unterminatedText
  /-- A quote behind which a backslash ends the text. -/
  | cutOff {body content : List Char} (inside : QuotedBody body content) :
      Blames types names before shapes ('"' :: (body ++ ['\\'])) (byteLength before)
        .unterminatedText
  /-- A backslash in a quoted text, before a character that it cannot stand before. -/
  | escape {body content : List Char} {c : Char} (inside : QuotedBody body content)
      (unknown : ∀ meant, ¬Escape c meant) (after : List Char) :
      Blames types names before shapes ('"' :: (body ++ '\\' :: c :: after))
        (byteLength (before ++ '"' :: body)) .invalidEscape
  /-- A token that is spelled as the name of a type, but is not the name of one. -/
  | unknownDatatype {run after : List Char} (token : Standing before run after)
      (spelled : Token.Classified run (.typeName run))
      (unknown : types.lookup? names (.ofChars run) = none) :
      Blames types names before shapes (run ++ after) (byteLength before) .unknownDatatype
  /-- A token that is spelled as nothing that can be read. -/
  | invalidWord {run after : List Char} (token : Standing before run after)
      (invalid : ∀ token, ¬Token.Classified run token) :
      Blames types names before shapes (run ++ after) (byteLength before) .invalidWord

variable {before rest : List Char} {shapes : List Shape} {offset : Nat} {fault : ReadFault}

/-- **The offset is that of a character of the text.** -/
theorem Blames.inside (h : Blames types names before shapes rest offset fault) :
    ∃ front c back, before ++ rest = front ++ c :: back ∧ offset = byteLength front := by
  cases h with
  | unbalanced _ after => exact ⟨before, _, after, rfl, rfl⟩
  | unterminatedBlock => exact ⟨before, _, _, rfl, rfl⟩
  | unclosed => exact ⟨before, _, _, rfl, rfl⟩
  | cutOff => exact ⟨before, _, _, rfl, rfl⟩
  | @escape body _ c _ _ after => exact ⟨before ++ '"' :: body, '\\', c :: after, by simp, rfl⟩
  | @unknownDatatype run after token =>
    obtain ⟨c, tail, rfl⟩ := List.exists_cons_of_ne_nil token.nonempty
    exact ⟨before, c, tail ++ after, rfl, rfl⟩
  | @invalidWord run after token =>
    obtain ⟨c, tail, rfl⟩ := List.exists_cons_of_ne_nil token.nonempty
    exact ⟨before, c, tail ++ after, rfl, rfl⟩

/-- A run that stands apart from what is before it is a token there. -/
theorem Apart.standing {run after : List Char} (h : Apart before (run ++ after))
    (nonempty : run ≠ []) (chars : ∀ c ∈ run, isRunChar c = true)
    (maximal : ∀ c ∈ after.head?, isRunChar c = false) : Standing before run after := by
  refine ⟨nonempty, chars, h.resolve_right fun hhead => ?_, maximal⟩
  obtain ⟨c, tail, rfl⟩ := List.exists_cons_of_ne_nil nonempty
  have hc := hhead c rfl
  rw [chars c List.mem_cons_self] at hc
  cases hc

/-- **What reading halts at is the culprit**, unless it halts at the end of the text. -/
theorem Stops.blames {next : Nest} {complaint : Complaint}
    (hgets : Gets types {} names 0 before rest shapes next last)
    (h : Stops types last next (byteLength before) rest (.error complaint)) (hrest : rest ≠ []) :
    Blames types names before shapes rest complaint.offset complaint.fault := by
  generalize hanswer : (Except.error complaint : Except Complaint (List Value)) = answer at h
  cases h with
  | ended => exact absurd rfl hrest
  | unbalanced closed after =>
    obtain rfl := Except.error.inj hanswer
    exact .unbalanced (hgets.balanced closed) after
  | broken text =>
    obtain rfl := Except.error.inj hanswer
    cases text with
    | unclosed inside => exact .unclosed inside
    | cutOff inside => exact .cutOff inside
    | @escape body _ _ inside unknown after =>
      have hlength : byteLength before + 1 + byteLength body =
          byteLength (before ++ '"' :: body) := by
        rw [byteLength_append, byteLength_cons, Nat.add_assoc]
        rfl
      rw [hlength]
      exact .escape inside unknown after
  | refused nonempty chars maximal noValue =>
    obtain rfl := Except.error.inj hanswer
    have hstanding := hgets.apart.standing nonempty chars maximal
    rcases runValue_eq_error_iff.mp noValue with ⟨rfl, hspelled, hunknown⟩ | ⟨rfl, hinvalid⟩
    · -- The names interned so far are those of words, so the type was not known before either.
      rw [(Nest.takeAll_names hgets.taken).2.lookup? types hspelled.typeName_eq.2] at hunknown
      exact .unknownDatatype hstanding hspelled hunknown
    · exact .invalidWord hstanding hinvalid

/-- At the end of a text only the blocks that are open count. -/
theorem Stops.eq_close {next : Nest} {answer : Except Complaint (List Value)}
    (h : Stops types last next offset rest answer) (hrest : rest = []) : answer = next.close := by
  cases h with
  | ended => rfl
  | refused nonempty => exact absurd (List.append_eq_nil_iff.mp hrest).1 nonempty
  | _ => cases hrest

/-- What has been taken of a text is read, or leaves blocks open, and nothing else is wrong. -/
theorem Gets.readable {next : Nest} (h : Gets types {} names 0 before rest shapes next last) :
    (∃ values, (SpecText.read types names before).1 = .ok values) ∨
      ∃ bracket, (SpecText.read types names before).1 =
        .error (.specText bracket .unterminatedBlock) := by
  rw [h.read, Nest.close]
  split
  · exact .inl ⟨_, rfl⟩
  · next bracket _ _ _ => exact .inr ⟨bracket, rfl⟩

/-- **An error points at the first thing that is wrong.** A text that is not read is divided where
the culprit starts: what is before it can be cut into lexemes, and is read itself, unless it leaves
blocks open. The offset reported is that of a character of the text. -/
theorem read_blames {text : List Char} {error : BuildError}
    (h : (read types names text).1 = .error error) :
    ∃ before rest shapes offset fault, text = before ++ rest ∧ error = .specText offset fault ∧
      Cut before shapes ∧ Blames types names before shapes rest offset fault ∧
      (∃ front c back, text = front ++ c :: back ∧ offset = byteLength front) ∧
      ((∃ values, (read types names before).1 = .ok values) ∨
        ∃ bracket, (read types names before).1 = .error (.specText bracket .unterminatedBlock)) := by
  obtain ⟨before, rest, shapes, next, last, answer, rfl, hgets, hstops, hread⟩ :=
    read_halts types names text
  rw [hread] at h
  cases answer with
  | ok values => cases h
  | error complaint =>
    obtain rfl := Except.error.inj h
    by_cases hrest : rest = []
    · -- At the end of the text, the innermost block that is open is to blame.
      have hclose := hstops.eq_close hrest
      unfold Nest.close at hclose
      split at hclose
      · cases hclose
      · next bracket items outer houter =>
        obtain rfl := Except.error.inj hclose
        obtain ⟨front, after, written, inner, mid, known, rfl, rfl, hfront, hafter, hbalanced⟩ :=
          hgets.opened houter
        have hblames : Blames types names front written ('[' :: after) (byteLength front)
          .unterminatedBlock := .unterminatedBlock hafter hbalanced
        refine ⟨front, _, _, _, _, by rw [hrest, List.append_nil], rfl, hfront.cut, hblames, ?_,
          hfront.readable⟩
        rw [hrest, List.append_nil]
        exact hblames.inside
    · have hblames := hstops.blames hgets hrest
      exact ⟨before, rest, shapes, _, _, rfl, rfl, hgets.cut, hblames, hblames.inside,
        hgets.readable⟩

/-- A bracket in a text, a bracket too many, and a type that is not known: the second bracket is to
blame, and characters count as many bytes as they take up. -/
theorem read_blames_bracket :
    (read {} .initial "é[\"ß]\"]]a!".toList).1 = .error (.specText 9 .unbalanced) ∧
    ∃ before after shapes, "é[\"ß]\"]]a!".toList = before ++ ']' :: after ∧ byteLength before = 9 ∧
      Cut before shapes ∧ Balanced 0 shapes ∧
      ((∃ values, (read {} .initial before).1 = .ok values) ∨
        ∃ bracket, (read {} .initial before).1 =
          .error (.specText bracket .unterminatedBlock)) := by
  have hread : (read {} .initial "é[\"ß]\"]]a!".toList).1 = .error (.specText 9 .unbalanced) := by
    decide +kernel
  obtain ⟨before, rest, shapes, offset, fault, htext, herror, hcut, hblames, -, hbefore⟩ :=
    read_blames hread
  obtain ⟨rfl, rfl⟩ := BuildError.specText.inj herror
  refine ⟨hread, before, ?_⟩
  generalize hnine : 9 = offset at hblames
  cases hblames with
  | unbalanced balanced after =>
    exact ⟨after, shapes, htext, rfl, hcut, balanced, hbefore⟩

end ActionKit.SpecText
