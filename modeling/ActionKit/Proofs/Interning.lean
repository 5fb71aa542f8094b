import ActionKit.Proofs.Culprit
import ActionKit.Proofs.RoundTrip

/-!
# What reading interns

Reading a text interns the names of the words, set-words and refinements that it takes, and nothing
else: those that are new, each where it is met first. Where reading fails, what was taken by then
counts. So a text that has been read once is read in the same way again, and then interns nothing.

* `Names.internAll`: some names, interned one after the other.
* `Shape.name?`: the name that a lexeme has.
* `recognised`: the names that lexemes have, in order.
* `ReadsUpTo`: how far reading gets, by what it answers.

Results:
* `spellings_internAll`: names that are new are added behind all others, each once.
* `mem_recognised`: what is recognised is spelled as the name of a word, a set-word or a refinement.
* `Nest.takeAll_interns`: lexemes that are taken intern their names.
* `readLexemes_again`: once the names are known, reading gives the same answer.
* `readSpec_interns`: **reading interns what it has recognised, and can be repeated**.
-/

namespace ActionKit

/-- After an item that was new, an item is new only if it is another one. -/
theorem filter_notMem_concat {α : Type} [BEq α] [LawfulBEq α] (known items : List α)
    (item : α) :
    items.filter (· ∉ known ++ [item]) = (items.filter (· ∉ known)).filter (!· == item) := by
  rw [List.filter_filter]
  refine List.filter_congr fun other _ => ?_
  rw [Bool.eq_iff_iff]
  simp [and_comm]

namespace Names

/-- Intern some names, one after the other. -/
def internAll (names : Names) (added : List Bytes) : Names :=
  added.foldl (fun names name => (names.intern name).2) names

variable {names : Names}

theorem find?_eq_none_iff {name : Bytes} : names.find? name = none ↔ name ∉ names.spellings := by
  unfold find?
  rw [Option.map_eq_none_iff, List.idxOf?_eq_none_iff]

/-- **Names that are new are added behind all others, each once.** -/
theorem spellings_internAll (names : Names) (added : List Bytes) :
    (names.internAll added).spellings =
      names.spellings ++ (added.filter (· ∉ names.spellings)).eraseDups := by
  induction added generalizing names with
  | nil => simp [internAll]
  | cons name rest ih =>
    show ((names.intern name).2.internAll rest).spellings = _
    rw [ih]
    by_cases hknown : name ∈ names.spellings
    · obtain ⟨symbol, hfind⟩ := Option.ne_none_iff_exists'.mp
        (mt find?_eq_none_iff.mp (not_not.mpr hknown))
      rw [intern_of_find? hfind, List.filter_cons_of_neg (by simpa using hknown)]
    · have hintern : (names.intern name).2 = ⟨names.spellings ++ [name]⟩ := by
        simp only [intern, find?_eq_none_iff.mpr hknown]
      have hrest : rest.filter (· ∉ names.spellings ++ [name]) =
          (rest.filter (· ∉ names.spellings)).filter (!· == name) :=
        filter_notMem_concat _ _ _
      rw [hintern, hrest, List.filter_cons_of_pos (by simpa using hknown), List.eraseDups_cons,
        List.append_assoc]
      rfl

end Names

namespace SpecText

variable {types : TypeRegistry} {names more last : Names}

/-! ## Names that are recognised -/

/-- The name of a word, a set-word or a refinement. -/
def Token.name? : Token → Option (List Char)
  | .refinement name | .setWord name | .word name => some name
  | .literal _ | .typeName _ => none

/-- The name that a lexeme has, if it is a word, a set-word or a refinement. -/
def Shape.name? : Shape → Option Bytes
  | .run chars => ((Token.ofRun? chars).bind (·.name?)).map .ofChars
  | .opening | .closing | .text _ => none

/-- The names of the words, set-words and refinements among some lexemes, in order. -/
def recognised (shapes : List Shape) : List Bytes := shapes.filterMap (·.name?)

/-- Reading a run interns its name, if it has one. -/
theorem runValue_interns {run : List Char} {value : Value}
    (h : runValue types names run = .ok (value, more)) :
    more = names.internAll (Shape.run run).name?.toList := by
  unfold runValue at h
  split at h
  · next token htoken =>
    rw [Shape.name?, htoken]
    cases token with
    | typeName name =>
      cases hlookup : types.lookup? names (.ofChars name) <;>
        simp only [Token.value, hlookup] at h
      · cases h
      · exact (Prod.mk.inj (Except.ok.inj h)).2.symm
    | _ => exact (Prod.mk.inj (Except.ok.inj h)).2.symm
  · cases h

theorem Nest.take_interns {nest next : Nest} {lexeme : Lexeme}
    (h : nest.take types names lexeme = .ok (next, more)) :
    more = names.internAll lexeme.shape.name?.toList := by
  obtain ⟨hshape, -, hmore⟩ | ⟨hshape, -, hmore⟩ | ⟨content, hshape, -, hmore⟩ |
    ⟨run, value, hshape, hrun, -⟩ := Nest.take_cases h <;> rw [hshape]
  · exact hmore
  · exact hmore
  · exact hmore
  · exact runValue_interns hrun

/-- **Lexemes that are taken intern their names**, in order. -/
theorem Nest.takeAll_interns {lexemes : List Lexeme} {nest next : Nest}
    (h : nest.takeAll types names lexemes = .ok (next, last)) :
    last = names.internAll (recognised (lexemes.map (·.shape))) := by
  induction lexemes generalizing nest names with
  | nil => exact (Prod.mk.inj (Except.ok.inj h)).2.symm
  | cons lexeme rest ih =>
    obtain ⟨mid, more, htake, hrest⟩ := takeAll_cons_iff.mp h
    rw [ih hrest, Nest.take_interns htake]
    cases hname : lexeme.shape.name? <;>
      simp [recognised, hname, Names.internAll]

/-- What is recognised is spelled as the name of a word, a set-word or a refinement. -/
theorem mem_recognised {shapes : List Shape} {name : Bytes} :
    name ∈ recognised shapes ↔ ∃ run chars, .run run ∈ shapes ∧ name = .ofChars chars ∧
      (Token.Classified run (.word chars) ∨ Token.Classified run (.setWord chars) ∨
        Token.Classified run (.refinement chars)) := by
  unfold recognised
  rw [List.mem_filterMap]
  constructor
  · rintro ⟨shape, hmem, hname⟩
    cases shape with
    | run run =>
      obtain ⟨chars, hchars, rfl⟩ := Option.map_eq_some_iff.mp hname
      obtain ⟨token, htoken, hown⟩ := Option.bind_eq_some_iff.mp hchars
      have hclass := Token.ofRun?_sound htoken
      refine ⟨run, chars, hmem, rfl, ?_⟩
      cases token with
      | refinement => exact .inr (.inr (Option.some.inj hown ▸ hclass))
      | setWord => exact .inr (.inl (Option.some.inj hown ▸ hclass))
      | word => exact .inl (Option.some.inj hown ▸ hclass)
      | _ => cases hown
    | _ => cases hname
  · rintro ⟨run, chars, hmem, rfl, hclass⟩
    refine ⟨.run run, hmem, ?_⟩
    rcases hclass with hclass | hclass | hclass <;>
    · rw [Shape.name?, Token.ofRun?_complete hclass]
      rfl

/-! ## Reading again -/

/-- **A run whose name is known has the same value again**, and interns nothing. -/
theorem runValue_again {run : List Char} {value : Value}
    (h : runValue types names run = .ok (value, more)) (hgrows : more.Grows last)
    (hsame : more.SameTypes last) : runValue types last run = .ok (value, last) := by
  obtain ⟨token, hclass, hdenotes⟩ := (runValue_spec h).2.mono hgrows hsame
  refine runValue_of_classified hclass ?_
  cases hdenotes with
  | refinement interned => exact congrArg Except.ok (interned_of_find? interned .refinement)
  | setWord interned => exact congrArg Except.ok (interned_of_find? interned .setWord)
  | word interned => exact congrArg Except.ok (interned_of_find? interned .word)
  | literal => rfl
  | typeName known => simp only [Token.value, known]

/-- A lexeme that was taken is taken again. -/
theorem Nest.take_again {nest next : Nest} {lexeme : Lexeme}
    (h : nest.take types names lexeme = .ok (next, more)) (hgrows : more.Grows last)
    (hsame : more.SameTypes last) : nest.take types last lexeme = .ok (next, last) := by
  unfold Nest.take
  obtain ⟨hshape, rfl, -⟩ | ⟨hshape, hleave, -⟩ | ⟨content, hshape, rfl, -⟩ |
    ⟨run, value, hshape, hrun, rfl⟩ := Nest.take_cases h
  · rw [hshape]
  · rw [hshape, hleave]
  · rw [hshape]
  · simp only [hshape, runValue_again hrun hgrows hsame]

/-- **Once the names are known, reading gives the same answer**, and interns nothing. -/
theorem readLexemes_again (stopped : Option Complaint) {lexemes : List Lexeme} {nest : Nest}
    {answer : Except Complaint (List Value)}
    (h : readLexemes types stopped nest names lexemes = (answer, last)) :
    names.SameTypes last ∧ readLexemes types stopped nest last lexemes = (answer, last) := by
  induction lexemes generalizing nest names with
  | nil =>
    unfold readLexemes at h ⊢
    cases stopped <;>
    · obtain ⟨rfl, rfl⟩ := Prod.mk.inj h
      exact ⟨.refl names, rfl⟩
  | cons lexeme rest ih =>
    rw [readLexemes] at h
    cases htake : nest.take types names lexeme with
    | error complaint =>
      rw [htake] at h
      obtain ⟨rfl, rfl⟩ := Prod.mk.inj h
      refine ⟨.refl names, ?_⟩
      rw [readLexemes, htake]
    | ok taken =>
      obtain ⟨next, more⟩ := taken
      rw [htake] at h
      obtain ⟨hsame, hagain⟩ := ih h
      have hgrows : more.Grows last := by
        have hrest := readLexemes_grows types stopped rest next more
        rwa [show readLexemes types stopped next more rest = _ from h] at hrest
      refine ⟨(Nest.take_names htake).2.trans hsame, ?_⟩
      rw [readLexemes_cons (Nest.take_again htake hgrows hsame), hagain]

theorem read_again (types : TypeRegistry) (names : Names) (text : List Char) :
    names.SameTypes (read types names text).2 ∧
      read types (read types names text).2 text = read types names text := by
  have hread := read_eq types names text
  obtain ⟨hsame, hagain⟩ := readLexemes_again (Lexeme.scan 0 text).2
    (Prod.eta (resume types {} names 0 text)).symm
  rw [hread]
  refine ⟨hsame, ?_⟩
  rw [read_eq]
  exact congrArg report hagain

/-! ## How far reading gets -/

/-- **How far reading gets, by what it answers**: to the end of the text, if all is read or blocks
are left open and nothing else is wrong, and otherwise to the culprit. -/
inductive ReadsUpTo (types : TypeRegistry) (names : Names) (before : List Char)
    (shapes : List Shape) : List Char → Except BuildError (List Value) → Prop
  | whole (values : List Value) : ReadsUpTo types names before shapes [] (.ok values)
  | leftOpen (bracket : Nat) :
      ReadsUpTo types names before shapes [] (.error (.specText bracket .unterminatedBlock))
  | culprit {rest : List Char} {offset : Nat} {fault : ReadFault}
      (blames : Blames types names before shapes rest offset fault)
      (other : fault ≠ .unterminatedBlock) :
      ReadsUpTo types names before shapes rest (.error (.specText offset fault))

/-- Nothing that reading halts at inside a text is a block that is left open. -/
theorem Stops.fault_ne {nest : Nest} {offset : Nat} {rest : List Char} {complaint : Complaint}
    (h : Stops types names nest offset rest (.error complaint)) (hrest : rest ≠ []) :
    complaint.fault ≠ .unterminatedBlock := by
  generalize hanswer : (Except.error complaint : Except Complaint (List Value)) = answer at h
  cases h with
  | ended => exact absurd rfl hrest
  | unbalanced =>
    obtain rfl := Except.error.inj hanswer
    exact nofun
  | broken text =>
    obtain rfl := Except.error.inj hanswer
    cases text <;> exact nofun
  | refused _ _ _ noValue =>
    obtain rfl := Except.error.inj hanswer
    rcases runValue_eq_error_iff.mp noValue with ⟨rfl, -⟩ | ⟨rfl, -⟩ <;> exact nofun

/-- What has been taken where reading halts is what reading gets up to. -/
theorem Stops.readsUpTo {before rest : List Char} {shapes : List Shape} {next : Nest}
    {answer : Except Complaint (List Value)}
    (hgets : Gets types {} names 0 before rest shapes next last)
    (h : Stops types last next (byteLength before) rest answer) :
    ReadsUpTo types names before shapes rest (answer.mapError Complaint.toError) := by
  by_cases hrest : rest = []
  · obtain rfl := h.eq_close hrest
    subst hrest
    unfold Nest.close
    split
    · exact .whole _
    · exact .leftOpen _
  · cases answer with
    | error complaint => exact .culprit (h.blames hgets hrest) (h.fault_ne hrest)
    | ok values =>
      generalize hanswer : (Except.ok values : Except Complaint (List Value)) = answer at h
      cases h with
      | ended => exact absurd rfl hrest
      | _ => cases hanswer

end SpecText

open SpecText

namespace Workshop

/-- **Reading interns what it has recognised, and can be repeated.** Whether a text is read or not,
it is taken up to its end or to the culprit, and the names of the words, set-words and refinements
up to there are what is interned: those that were not known, each once, in the order in which they
are met first. No symbol changes its name, no name that ends in `!` is added, and nothing but the
names changes. Reading the text again gives the same answer and changes nothing. -/
theorem readSpec_interns (w : Workshop) (text : String) :
    ∃ before rest shapes names, text.toList = before ++ rest ∧ Cut before shapes ∧
      ReadsUpTo w.types w.names before shapes rest (w.readSpec text).1 ∧
      (w.readSpec text).2 = { w with names } ∧
      names.spellings = w.names.spellings ++
        ((recognised shapes).filter (· ∉ w.names.spellings)).eraseDups ∧
      (∀ symbol spelling, w.names.resolve? symbol = some spelling →
        names.resolve? symbol = some spelling) ∧
      w.names.SameTypes names ∧
      (w.readSpec text).2.readSpec text = w.readSpec text := by
  obtain ⟨before, rest, shapes, next, last, answer, hsplit, hgets, hstops, hread⟩ :=
    read_halts w.types w.names text.toList
  have hspec : w.readSpec text = (answer.mapError Complaint.toError, { w with names := last }) := by
    unfold readSpec
    rw [hread]
  obtain ⟨hsame, hagain⟩ := read_again w.types w.names text.toList
  rw [hread] at hsame hagain
  have hinterned := Nest.takeAll_interns hgets.taken
  rw [(Lexeme.scan_complete hgets.cut 0).1] at hinterned
  refine ⟨before, rest, shapes, last, hsplit, hgets.cut, ?_, ?_, ?_, ?_, hsame, ?_⟩
  · rw [hspec]
    exact hstops.readsUpTo hgets
  · rw [hspec]
  · rw [hinterned, Names.spellings_internAll]
  · exact fun _ _ => (Nest.takeAll_names hgets.taken).1.resolve?
  · rw [hspec]
    unfold readSpec
    rw [show (SpecText.read w.types last text.toList) = _ from hagain]

end Workshop

end ActionKit
