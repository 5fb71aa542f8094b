import ActionKit.Proofs.Continuation

/-!
# Where reading halts

Reading takes a text piece by piece. It halts at the end of the text, at a closing bracket too many,
at a quoted text that is broken, or at a run that has no value. What was taken by then is a text of
its own, and nothing of what follows has been looked at but the piece that reading halts at.

* `Broken`: a quoted text that is not closed, or has an unknown escape, and the complaint about it.
* `Stops`: what reading halts at, and what it answers there.
* `Gets`: the part of a text that is taken, and what it leads to.
* `Halts`: a part of a text is taken, and reading halts behind it.

Results:
* `quoted_broken`: a quoted text that is not read is broken.
* `runValue_eq_error_iff`: a run without a value is the name of no type, or no token at all.
* `Gets.read`: what has been taken of a text is read, but for the blocks that are open.
* `resume_halts`, `read_halts`: reading takes a part of a text, and answers where it halts after it.
-/

namespace ActionKit.SpecText

/-! ## Broken quoted texts -/

/-- **A quoted text that cannot be read**, by what follows its opening quote, and the complaint
about it: it is not closed, or there is an escape that is unknown. The quote is at `start`, and what
follows it at `offset`. -/
inductive Broken (start offset : Nat) : List Char → Complaint → Prop
  | unclosed {body content : List Char} (inside : QuotedBody body content) :
      Broken start offset body ⟨start, .unterminatedText⟩
  /-- The escape at the end lacks its second character. -/
  | cutOff {body content : List Char} (inside : QuotedBody body content) :
      Broken start offset (body ++ ['\\']) ⟨start, .unterminatedText⟩
  | escape {body content : List Char} {c : Char} (inside : QuotedBody body content)
      (unknown : ∀ meant, ¬Escape c meant) (rest : List Char) :
      Broken start offset (body ++ '\\' :: c :: rest) ⟨offset + byteLength body, .invalidEscape⟩

namespace Broken

variable {start offset : Nat} {cs : List Char} {complaint : Complaint}

theorem plain {c : Char} (hq : c ≠ '"') (hb : c ≠ '\\')
    (h : Broken start (offset + c.utf8Size) cs complaint) :
    Broken start offset (c :: cs) complaint := by
  cases h with
  | unclosed inside => exact .unclosed (.plain hq hb inside)
  | cutOff inside => exact .cutOff (.plain hq hb inside)
  | escape inside unknown rest =>
    rw [Nat.add_assoc, ← byteLength_cons]
    exact .escape (.plain hq hb inside) unknown rest

theorem escaped {c meant : Char} (known : Escape c meant)
    (h : Broken start (offset + 2) cs complaint) :
    Broken start offset ('\\' :: c :: cs) complaint := by
  cases h with
  | unclosed inside => exact .unclosed (.escape known inside)
  | cutOff inside => exact .cutOff (.escape known inside)
  | @escape body _ _ inside unknown rest =>
    have hlength : byteLength ('\\' :: c :: body) = 2 + byteLength body := by
      rw [byteLength_cons, byteLength_cons, Lexeme.utf8Size_of_escape known, ← Nat.add_assoc]
      rfl
    rw [Nat.add_assoc, ← hlength]
    exact .escape (.escape known inside) unknown rest

end Broken

namespace Lexeme

/-- What is put in front of a quoted text does not change the complaint about it. -/
theorem error_of_map_cons {c : Char} {result : Except Complaint Quoted} {complaint : Complaint}
    (h : result.map (Quoted.cons c) = .error complaint) : result = .error complaint := by
  cases result with
  | error other => exact congrArg Except.error (Except.error.inj h)
  | ok inner => cases h

/-- **A quoted text that is not read is broken.** -/
theorem quoted_broken {start offset : Nat} {cs : List Char} {complaint : Complaint}
    (h : quoted start offset cs = .error complaint) : Broken start offset cs complaint := by
  fun_induction quoted start offset cs with
  | case1 =>
    obtain rfl := Except.error.inj h
    exact .unclosed .nil
  | case2 => cases h
  | case3 =>
    obtain rfl := Except.error.inj h
    exact .cutOff .nil
  | case4 offset c rest meant known ih =>
    exact .escaped (escaped?_eq_some_iff.mp known) (ih (error_of_map_cons h))
  | case5 offset c rest unknown =>
    obtain rfl := Except.error.inj h
    exact .escape .nil (escaped?_eq_none_iff.mp unknown) rest
  | case6 offset c rest noQuote noEnd noEscape ih =>
    have hbroken := ih (error_of_map_cons h)
    refine .plain noQuote ?_ hbroken
    -- A backslash is the last character or stands before an escape, which are other cases.
    rintro rfl
    cases rest with
    | nil => exact noEnd rfl rfl
    | cons d rest => exact noEscape d rest rfl rfl

theorem scan_broken {offset : Nat} {rest : List Char} {complaint : Complaint}
    (h : quoted offset (offset + 1) rest = .error complaint) :
    scan offset ('"' :: rest) = ([], some complaint) := by
  rw [scan, if_neg (by decide), if_neg (by decide), if_neg (by decide), if_pos rfl]
  split
  · next other hq =>
    rw [h] at hq
    obtain rfl := Except.error.inj hq
    rfl
  · next q hq =>
    rw [h] at hq
    cases hq

end Lexeme

/-! ## Runs without a value -/

variable {types : TypeRegistry} {names last : Names}

/-- **A run without a value is the name of no type, or no token at all.** -/
theorem runValue_eq_error_iff {run : List Char} {fault : ReadFault} :
    runValue types names run = .error fault ↔
      (fault = .unknownDatatype ∧ Token.Classified run (.typeName run) ∧
        types.lookup? names (.ofChars run) = none) ∨
      (fault = .invalidWord ∧ ∀ token, ¬Token.Classified run token) := by
  simp only [← Token.ofRun?_eq_some_iff]
  unfold runValue
  cases hrun : Token.ofRun? run with
  | none => simp [eq_comm]
  | some token =>
    cases token with
    | typeName name =>
      obtain ⟨rfl, -⟩ := (Token.ofRun?_sound hrun).typeName_eq
      cases hlookup : types.lookup? names (.ofChars name) with
      | none => simp [Token.value, hlookup, eq_comm]
      | some term => simp [Token.value, hlookup]
    | _ => simp [Token.value]

/-! ## One piece of a text -/

section Resume

variable (types : TypeRegistry) (nest : Nest) (names : Names) (offset : Nat)

theorem resume_blank {c : Char} (h : isBlank c = true) (rest : List Char) :
    resume types nest names offset (c :: rest) =
      resume types nest names (offset + c.utf8Size) rest := by
  rw [resume, Lexeme.scan_blank h]
  rfl

theorem resume_opening (rest : List Char) :
    resume types nest names offset ('[' :: rest) =
      resume types (nest.enter offset) names (offset + 1) rest := by
  rw [resume, Lexeme.scan_opening]
  rfl

theorem resume_closing (rest : List Char) :
    resume types nest names offset (']' :: rest) =
      match nest.leave? with
      | some left => resume types left names (offset + 1) rest
      | none => (.error ⟨offset, .unbalanced⟩, names) := by
  rw [resume, Lexeme.scan_closing, readLexemes]
  simp only [Nest.take]
  cases nest.leave? <;> rfl

theorem resume_text {body content : List Char} (inside : QuotedBody body content)
    (rest : List Char) :
    resume types nest names offset ('"' :: (body ++ '"' :: rest)) =
      resume types (nest.push (.text (.ofChars content))) names
        (offset + 1 + (byteLength body + 1)) rest := by
  rw [resume, Lexeme.scan_text (Lexeme.quoted_eq inside _ _ _)]
  rfl

end Resume

/-! ## Where reading halts -/

/-- **What reading halts at**, with the blocks that are open and the names that are known there, and
what it answers. -/
inductive Stops (types : TypeRegistry) (names : Names) (nest : Nest) (offset : Nat) :
    List Char → Except Complaint (List Value) → Prop
  | ended : Stops types names nest offset [] nest.close
  | unbalanced (closed : nest.outer = []) (rest : List Char) :
      Stops types names nest offset (']' :: rest) (.error ⟨offset, .unbalanced⟩)
  | broken {rest : List Char} {complaint : Complaint}
      (text : Broken offset (offset + 1) rest complaint) :
      Stops types names nest offset ('"' :: rest) (.error complaint)
  | refused {run rest : List Char} {fault : ReadFault} (nonempty : run ≠ [])
      (chars : ∀ c ∈ run, isRunChar c = true) (maximal : ∀ c ∈ rest.head?, isRunChar c = false)
      (noValue : runValue types names run = .error fault) :
      Stops types names nest offset (run ++ rest) (.error ⟨offset, fault⟩)

/-- **What reading takes of a text** that starts at an offset, and what that leads to. -/
structure Gets (types : TypeRegistry) (nest : Nest) (names : Names) (offset : Nat)
    (before rest : List Char) (shapes : List Shape) (next : Nest) (last : Names) : Prop where
  cut : Cut before shapes
  apart : Apart before rest
  taken : nest.takeAll types names (Lexeme.scan offset before).1 = .ok (next, last)

/-- What ends in no run is apart from what follows, whatever is put behind it. -/
theorem Apart.prepend (piece : List Char) {before after : List Char}
    (hpiece : ∀ c ∈ piece.getLast?, isRunChar c = false) (h : Apart before after) :
    Apart (piece ++ before) after := by
  rcases h with hlast | hhead
  · refine .inl fun c hc => ?_
    rw [List.getLast?_append] at hc
    cases hbefore : before.getLast? with
    | none =>
      rw [hbefore] at hc
      exact hpiece c hc
    | some d =>
      rw [hbefore] at hc
      obtain rfl := Option.some.inj hc
      exact hlast d hbefore
  · exact .inr hhead

/-- A run ends where the next piece begins. -/
theorem Apart.prepend_run {run before after : List Char}
    (maximal : ∀ c ∈ (before ++ after).head?, isRunChar c = false) (h : Apart before after) :
    Apart (run ++ before) after := by
  cases before with
  | nil => exact .inr maximal
  | cons d before =>
    refine h.imp_left fun hlast c hc => hlast c ?_
    rwa [List.getLast?_append_of_ne_nil _ (List.cons_ne_nil _ _)] at hc

namespace Gets

variable {nest next left : Nest} {offset : Nat} {before rest : List Char} {shapes : List Shape}

theorem nil (types : TypeRegistry) (nest : Nest) (names : Names) (offset : Nat) (rest : List Char) :
    Gets types nest names offset [] rest [] nest names where
  cut := .nil
  apart := .inl fun _ h => by cases h
  taken := by
    rw [Lexeme.scan]
    rfl

theorem blank {c : Char} (hc : isBlank c = true)
    (h : Gets types nest names (offset + c.utf8Size) before rest shapes next last) :
    Gets types nest names offset (c :: before) rest shapes next last where
  cut := .blank hc h.cut
  apart := h.apart.prepend [c] fun d hd => by
    obtain rfl := Option.some.inj hd
    simp [isRunChar, hc]
  taken := by
    rw [Lexeme.scan_blank hc]
    exact h.taken

theorem opening
    (h : Gets types (nest.enter offset) names (offset + 1) before rest shapes next last) :
    Gets types nest names offset ('[' :: before) rest (.opening :: shapes) next last where
  cut := .opening h.cut
  apart := h.apart.prepend ['['] fun d hd => Option.some.inj hd ▸ rfl
  taken := by
    rw [Lexeme.scan_opening]
    exact h.taken

theorem closing (hleave : nest.leave? = some left)
    (h : Gets types left names (offset + 1) before rest shapes next last) :
    Gets types nest names offset (']' :: before) rest (.closing :: shapes) next last where
  cut := .closing h.cut
  apart := h.apart.prepend [']'] fun d hd => Option.some.inj hd ▸ rfl
  taken := by
    rw [Lexeme.scan_closing, Nest.takeAll]
    simp only [Nest.take, hleave]
    exact h.taken

theorem text {body content : List Char} (inside : QuotedBody body content)
    (h : Gets types (nest.push (.text (.ofChars content))) names
      (offset + 1 + (byteLength body + 1)) before rest shapes next last) :
    Gets types nest names offset ('"' :: (body ++ '"' :: before)) rest (.text content :: shapes)
      next last where
  cut := .text inside h.cut
  apart := by
    have hapart := h.apart.prepend ('"' :: body ++ ['"']) fun d hd => by
      rw [List.getLast?_concat] at hd
      exact Option.some.inj hd ▸ rfl
    simpa using hapart
  taken := by
    rw [Lexeme.scan_text (Lexeme.quoted_eq inside _ _ _)]
    exact h.taken

theorem run {run : List Char} {value : Value} {more : Names} (nonempty : run ≠ [])
    (chars : ∀ c ∈ run, isRunChar c = true)
    (maximal : ∀ c ∈ (before ++ rest).head?, isRunChar c = false)
    (hvalue : runValue types names run = .ok (value, more))
    (h : Gets types (nest.push value) more (offset + byteLength run) before rest shapes next last) :
    Gets types nest names offset (run ++ before) rest (.run run :: shapes) next last := by
  have hbefore : ∀ c ∈ before.head?, isRunChar c = false := by
    cases before with
    | nil => exact fun _ hc => by cases hc
    | cons d before => exact maximal
  refine ⟨.run nonempty chars hbefore h.cut, h.apart.prepend_run maximal, ?_⟩
  obtain ⟨c, tail, rfl⟩ := List.exists_cons_of_ne_nil nonempty
  rw [Lexeme.scan_run (chars c List.mem_cons_self)
    (fun d hd => chars d (List.mem_cons_of_mem _ hd)) hbefore, Nest.takeAll]
  simp only [Nest.take, hvalue]
  exact h.taken

end Gets

/-- Lexemes are all taken if the first of them is, and then the others. -/
theorem Nest.takeAll_cons_iff {lexeme : Lexeme} {rest : List Lexeme} {nest next : Nest} :
    nest.takeAll types names (lexeme :: rest) = .ok (next, last) ↔
      ∃ mid more, nest.take types names lexeme = .ok (mid, more) ∧
        mid.takeAll types more rest = .ok (next, last) := by
  rw [takeAll]
  constructor
  · intro h
    split at h
    · cases h
    · next mid more htake => exact ⟨mid, more, htake, h⟩
  · rintro ⟨mid, more, htake, hrest⟩
    rw [htake]
    exact hrest

/-- Taking a lexeme adds names behind all others, and no names of types. -/
theorem Nest.take_names {nest next : Nest} {lexeme : Lexeme} {more : Names}
    (h : nest.take types names lexeme = .ok (next, more)) :
    names.Grows more ∧ names.SameTypes more := by
  refine ⟨Nest.take_grows h, ?_⟩
  obtain ⟨-, -, hmore⟩ | ⟨-, -, hmore⟩ | ⟨_, -, -, hmore⟩ | ⟨_, _, -, hrun, -⟩ := Nest.take_cases h
  · rw [hmore]
    exact .refl names
  · rw [hmore]
    exact .refl names
  · rw [hmore]
    exact .refl names
  · exact (runValue_spec hrun).1

theorem Nest.takeAll_names {lexemes : List Lexeme} {nest next : Nest}
    (h : nest.takeAll types names lexemes = .ok (next, last)) :
    names.Grows last ∧ names.SameTypes last := by
  induction lexemes generalizing nest names with
  | nil =>
    obtain ⟨-, rfl⟩ := Prod.mk.inj (Except.ok.inj h)
    exact ⟨.refl names, .refl names⟩
  | cons lexeme rest ih =>
    obtain ⟨mid, more, htake, hrest⟩ := takeAll_cons_iff.mp h
    have hfirst := Nest.take_names htake
    exact ⟨hfirst.1.trans (ih hrest).1, hfirst.2.trans (ih hrest).2⟩

/-- What has been taken of a text is read, but for the blocks that are open. -/
theorem Gets.read {before rest : List Char} {shapes : List Shape} {next : Nest}
    (h : Gets types {} names 0 before rest shapes next last) :
    SpecText.read types names before = (next.close.mapError Complaint.toError, last) := by
  have hlexemes := readLexemes_append_ok h.taken none []
  rw [List.append_nil] at hlexemes
  rw [read_eq, resume, (Lexeme.scan_complete h.cut 0).2, hlexemes]
  rfl

/-! ## Every text -/

/-- Reading a text takes a part of it, and answers where it halts behind that. -/
def Halts (types : TypeRegistry) (nest : Nest) (names : Names) (offset : Nat) (text : List Char) :
    Prop :=
  ∃ before rest shapes next last answer, text = before ++ rest ∧
    Gets types nest names offset before rest shapes next last ∧
    Stops types last next (offset + byteLength before) rest answer ∧
    resume types nest names offset text = (answer, last)

namespace Halts

variable {nest left : Nest} {offset : Nat} {rest : List Char}

/-- Reading halts right where it is. -/
theorem here {answer : Except Complaint (List Value)}
    (hstops : Stops types names nest offset rest answer)
    (hresume : resume types nest names offset rest = (answer, names)) :
    Halts types nest names offset rest :=
  ⟨[], rest, [], nest, names, answer, rfl, .nil types nest names offset rest, hstops, hresume⟩

theorem blank {c : Char} (hc : isBlank c = true)
    (h : Halts types nest names (offset + c.utf8Size) rest) :
    Halts types nest names offset (c :: rest) := by
  obtain ⟨before, after, shapes, next, last, answer, rfl, hgets, hstops, hresume⟩ := h
  refine ⟨c :: before, after, shapes, next, last, answer, rfl, hgets.blank hc, ?_, ?_⟩
  · rwa [byteLength_cons, ← Nat.add_assoc]
  · rw [resume_blank _ _ _ _ hc, hresume]

theorem opening (h : Halts types (nest.enter offset) names (offset + 1) rest) :
    Halts types nest names offset ('[' :: rest) := by
  obtain ⟨before, after, shapes, next, last, answer, rfl, hgets, hstops, hresume⟩ := h
  refine ⟨'[' :: before, after, _, next, last, answer, rfl, hgets.opening, ?_, ?_⟩
  · rwa [byteLength_cons, ← Nat.add_assoc]
  · rw [resume_opening, hresume]

theorem closing (hleave : nest.leave? = some left)
    (h : Halts types left names (offset + 1) rest) :
    Halts types nest names offset (']' :: rest) := by
  obtain ⟨before, after, shapes, next, last, answer, rfl, hgets, hstops, hresume⟩ := h
  refine ⟨']' :: before, after, _, next, last, answer, rfl, hgets.closing hleave, ?_, ?_⟩
  · rwa [byteLength_cons, ← Nat.add_assoc]
  · rw [resume_closing, hleave, ← hresume]

theorem text {body content : List Char} (inside : QuotedBody body content)
    (h : Halts types (nest.push (.text (.ofChars content))) names
      (offset + 1 + (byteLength body + 1)) rest) :
    Halts types nest names offset ('"' :: (body ++ '"' :: rest)) := by
  obtain ⟨before, after, shapes, next, last, answer, rfl, hgets, hstops, hresume⟩ := h
  refine ⟨'"' :: (body ++ '"' :: before), after, _, next, last, answer, by simp,
    hgets.text inside, ?_, ?_⟩
  · have hlength : offset + byteLength ('"' :: (body ++ '"' :: before)) =
        offset + 1 + (byteLength body + 1) + byteLength before := by
      simp only [byteLength_cons, byteLength_append, show '"'.utf8Size = 1 from rfl]
      omega
    rwa [hlength]
  · rw [resume_text _ _ _ _ inside, hresume]

theorem run {run : List Char} {value : Value} {more : Names} (nonempty : run ≠ [])
    (chars : ∀ c ∈ run, isRunChar c = true) (maximal : ∀ c ∈ rest.head?, isRunChar c = false)
    (hvalue : runValue types names run = .ok (value, more))
    (h : Halts types (nest.push value) more (offset + byteLength run) rest) :
    Halts types nest names offset (run ++ rest) := by
  obtain ⟨before, after, shapes, next, last, answer, rfl, hgets, hstops, hresume⟩ := h
  refine ⟨run ++ before, after, _, next, last, answer, (List.append_assoc _ _ _).symm,
    hgets.run nonempty chars maximal hvalue, ?_, ?_⟩
  · rwa [byteLength_append, ← Nat.add_assoc]
  · rw [resume_run nonempty chars maximal, hvalue, ← hresume]

end Halts

/-- **Reading takes a part of a text, and answers where it halts behind it.** -/
theorem resume_halts (types : TypeRegistry) (offset : Nat) (text : List Char) (nest : Nest)
    (names : Names) : Halts types nest names offset text := by
  -- The cases are those of the scan.
  fun_induction Lexeme.scan offset text generalizing nest names with
  | case1 offset =>
    refine .here .ended ?_
    rw [resume, Lexeme.scan]
    rfl
  | case2 offset c rest hc ih => exact (ih nest names).blank hc
  | case3 offset rest lexemes complaint hscan _ ih => exact (ih (nest.enter offset) names).opening
  | case4 offset rest lexemes complaint hscan _ _ ih =>
    cases hleave : nest.leave? with
    | some left => exact (ih left names).closing hleave
    | none =>
      have hclosed : nest.outer = [] := by
        unfold Nest.leave? at hleave
        split at hleave
        · assumption
        · cases hleave
      refine .here (.unbalanced hclosed rest) ?_
      rw [resume_closing, hleave]
  | case5 offset rest complaint hq =>
    refine .here (.broken (Lexeme.quoted_broken hq)) ?_
    rw [resume, Lexeme.scan_broken hq]
    rfl
  | case6 offset rest q hq _ lexemes complaint hscan _ _ _ ih =>
    obtain ⟨body, hrest, hbody⟩ := Lexeme.quoted_sound hq
    have hoffset : q.offset = offset + 1 + (byteLength body + 1) := by
      have heq := Lexeme.quoted_eq hbody offset (offset + 1) q.rest
      rw [← hrest, hq] at heq
      exact congrArg Lexeme.Quoted.offset (Except.ok.inj heq)
    have hhalts := ih (nest.push (.text (.ofChars q.content))) names
    rw [hoffset] at hhalts
    rw [hrest]
    exact hhalts.text hbody
  | case7 offset c rest hblank hopening hclosing hquote run _ lexemes complaint hscan ih =>
    have hsplit : c :: rest = run ++ rest.dropWhile isRunChar := by
      rw [List.cons_append, List.takeWhile_append_dropWhile]
    have hnonempty : run ≠ [] := List.cons_ne_nil _ _
    have hchars : ∀ d ∈ run, isRunChar d = true := fun d hd => by
      rcases List.mem_cons.mp hd with rfl | hd
      · simp [isRunChar, hblank, hopening, hclosing, hquote]
      · exact List.all_eq_true.mp List.all_takeWhile d hd
    have hmaximal : ∀ d ∈ (rest.dropWhile isRunChar).head?, isRunChar d = false := fun d hd => by
      have hnot := List.head?_dropWhile_not isRunChar rest
      rw [hd] at hnot
      simpa using hnot
    rw [hsplit]
    cases hvalue : runValue types names run with
    | ok read => exact (ih (nest.push read.1) read.2).run hnonempty hchars hmaximal hvalue
    | error fault =>
      refine .here (.refused hnonempty hchars hmaximal hvalue) ?_
      rw [resume_run hnonempty hchars hmaximal, hvalue]

/-- Reading a whole text halts somewhere in it, with what has been read and interned by then. -/
theorem read_halts (types : TypeRegistry) (names : Names) (text : List Char) :
    ∃ before rest shapes next last answer, text = before ++ rest ∧
      Gets types {} names 0 before rest shapes next last ∧
      Stops types last next (byteLength before) rest answer ∧
      read types names text = (answer.mapError Complaint.toError, last) := by
  obtain ⟨before, rest, shapes, next, last, answer, hsplit, hgets, hstops, hresume⟩ :=
    resume_halts types 0 text {} names
  rw [Nat.zero_add] at hstops
  refine ⟨before, rest, shapes, next, last, answer, hsplit, hgets, hstops, ?_⟩
  rw [read_eq, hresume]
  rfl

end ActionKit.SpecText
