import ActionKit.SpecText.Lexeme

/-!
# How a text is cut into lexemes

The scan of a text finds the one way to cut it: into blanks, brackets, quoted texts with known
escapes, and runs of other characters that are as long as they can be.

* `Escape`: the four escapes.
* `QuotedBody`: the inside of a quoted text, and what it means.
* `Cut`: a text and the lexemes it is cut into, blanks left out.

Results:
* `escaped?_eq_some_iff`: the escapes that are known are the four.
* `quoted_complete`, `quoted_sound`: reading a quoted text finds its inside and what follows.
* `scan_complete`, `scan_sound`: the scan gets to the end of exactly the texts that can be cut, and
  finds their lexemes.
* `Cut.unique`: a text can be cut in one way only.
-/

namespace ActionKit.SpecText

/-! ## Quoted texts -/

/-- **The escapes**: the character behind the backslash, and the one that both stand for. -/
inductive Escape : Char → Char → Prop
  | quote : Escape '"' '"'
  | backslash : Escape '\\' '\\'
  | newline : Escape 'n' '\n'
  | tab : Escape 't' '\t'

/-- The inside of a quoted text, and what it means. -/
inductive QuotedBody : List Char → List Char → Prop
  | nil : QuotedBody [] []
  | plain {c : Char} {body content : List Char} (noQuote : c ≠ '"') (noBackslash : c ≠ '\\')
      (rest : QuotedBody body content) : QuotedBody (c :: body) (c :: content)
  | escape {c meant : Char} {body content : List Char} (known : Escape c meant)
      (rest : QuotedBody body content) : QuotedBody ('\\' :: c :: body) (meant :: content)

namespace Lexeme

theorem escaped?_eq_some_iff {c meant : Char} : escaped? c = some meant ↔ Escape c meant := by
  constructor
  · intro h
    unfold escaped? at h
    split at h
    · exact Option.some.inj h ▸ .quote
    · exact Option.some.inj h ▸ .backslash
    · exact Option.some.inj h ▸ .newline
    · exact Option.some.inj h ▸ .tab
    · cases h
  · intro h
    cases h <;> rfl

theorem escaped?_eq_none_iff {c : Char} : escaped? c = none ↔ ∀ meant, ¬Escape c meant := by
  simp only [Option.eq_none_iff_forall_ne_some, ne_eq, escaped?_eq_some_iff]

/-- A quoted text that starts with a character that is neither a quote nor a backslash. -/
theorem quoted_plain {start offset : Nat} {c : Char} (hq : c ≠ '"') (hb : c ≠ '\\')
    (rest : List Char) : quoted start offset (c :: rest) =
      (quoted start (offset + c.utf8Size) rest).map (.cons c) :=
  quoted.eq_5 start offset c rest hq (fun h => absurd h hb) fun _ _ h => absurd h hb

theorem quoted_escape {start offset : Nat} {c meant : Char} (h : Escape c meant)
    (rest : List Char) : quoted start offset ('\\' :: c :: rest) =
      (quoted start (offset + 2) rest).map (.cons meant) := by
  rw [quoted, escaped?_eq_some_iff.mpr h]

/-- **A quoted text is read up to its closing quote.** -/
theorem quoted_complete {body content : List Char} (h : QuotedBody body content)
    (start offset : Nat) (rest : List Char) :
    ∃ q, quoted start offset (body ++ '"' :: rest) = .ok q ∧ q.content = content ∧
      q.rest = rest := by
  induction h generalizing offset with
  | nil => exact ⟨_, rfl, rfl, rfl⟩
  | @plain c _ _ hq hb _ ih =>
    obtain ⟨q, hread, rfl, rfl⟩ := ih (offset + c.utf8Size)
    refine ⟨q.cons c, ?_, rfl, rfl⟩
    rw [List.cons_append, quoted_plain hq hb, hread]
    rfl
  | @escape c meant _ _ known _ ih =>
    obtain ⟨q, hread, rfl, rfl⟩ := ih (offset + 2)
    refine ⟨q.cons meant, ?_, rfl, rfl⟩
    rw [List.cons_append, List.cons_append, quoted_escape known, hread]
    rfl

/-- What is put in front of a quoted text was read before it. -/
theorem exists_of_map_cons {c : Char} {result : Except Complaint Quoted} {q : Quoted}
    (h : result.map (.cons c) = .ok q) : ∃ inner, result = .ok inner ∧ q = inner.cons c := by
  cases result with
  | error complaint => cases h
  | ok inner => exact ⟨inner, rfl, (Except.ok.inj h).symm⟩

/-- **What is read as a quoted text is one.** -/
theorem quoted_sound {start offset : Nat} {cs : List Char} {q : Quoted}
    (h : quoted start offset cs = .ok q) :
    ∃ body, cs = body ++ '"' :: q.rest ∧ QuotedBody body q.content := by
  fun_induction quoted start offset cs generalizing q with
  | case1 => cases h
  | case2 offset rest =>
    obtain rfl := Except.ok.inj h
    exact ⟨[], rfl, .nil⟩
  | case3 => cases h
  | case4 offset c rest meant known ih =>
    obtain ⟨inner, hinner, rfl⟩ := exists_of_map_cons h
    obtain ⟨body, rfl, hbody⟩ := ih hinner
    exact ⟨'\\' :: c :: body, rfl, .escape (escaped?_eq_some_iff.mp known) hbody⟩
  | case5 => cases h
  | case6 offset c rest noQuote noEnd noEscape ih =>
    obtain ⟨inner, hinner, rfl⟩ := exists_of_map_cons h
    obtain ⟨body, rfl, hbody⟩ := ih hinner
    refine ⟨c :: body, rfl, .plain noQuote ?_ hbody⟩
    -- A backslash is the last character or stands before an escape, which are other cases.
    rintro rfl
    cases body with
    | nil => exact noEscape '"' inner.rest rfl rfl
    | cons d body => exact noEscape d _ rfl rfl

end Lexeme

/-! ## Whole texts -/

/-- **A text and the lexemes it is cut into.** Blanks are left out, and a run ends only where a
blank, a bracket, a quote or the end of the text comes. -/
inductive Cut : List Char → List Shape → Prop
  | nil : Cut [] []
  | blank {c : Char} {rest : List Char} {shapes : List Shape} (h : isBlank c = true)
      (more : Cut rest shapes) : Cut (c :: rest) shapes
  | opening {rest : List Char} {shapes : List Shape} (more : Cut rest shapes) :
      Cut ('[' :: rest) (.opening :: shapes)
  | closing {rest : List Char} {shapes : List Shape} (more : Cut rest shapes) :
      Cut (']' :: rest) (.closing :: shapes)
  | text {body content rest : List Char} {shapes : List Shape} (inside : QuotedBody body content)
      (more : Cut rest shapes) : Cut ('"' :: (body ++ '"' :: rest)) (.text content :: shapes)
  | run {run rest : List Char} {shapes : List Shape} (nonempty : run ≠ [])
      (chars : ∀ c ∈ run, isRunChar c = true)
      (maximal : ∀ c ∈ rest.head?, isRunChar c = false) (more : Cut rest shapes) :
      Cut (run ++ rest) (.run run :: shapes)

namespace Lexeme

/-! ## One step of the scan -/

theorem scan_blank {c : Char} (h : isBlank c = true) (offset : Nat) (rest : List Char) :
    scan offset (c :: rest) = scan (offset + c.utf8Size) rest := by
  rw [scan, if_pos h]

theorem scan_opening (offset : Nat) (rest : List Char) :
    scan offset ('[' :: rest) = (⟨offset, .opening⟩ :: (scan (offset + 1) rest).1,
      (scan (offset + 1) rest).2) := by
  rw [scan, if_neg (by decide), if_pos rfl]

theorem scan_closing (offset : Nat) (rest : List Char) :
    scan offset (']' :: rest) = (⟨offset, .closing⟩ :: (scan (offset + 1) rest).1,
      (scan (offset + 1) rest).2) := by
  rw [scan, if_neg (by decide), if_neg (by decide), if_pos rfl]

theorem scan_text {offset : Nat} {rest : List Char} {q : Quoted}
    (h : quoted offset (offset + 1) rest = .ok q) :
    scan offset ('"' :: rest) = (⟨offset, .text q.content⟩ :: (scan q.offset q.rest).1,
      (scan q.offset q.rest).2) := by
  rw [scan, if_neg (by decide), if_neg (by decide), if_neg (by decide), if_pos rfl]
  split
  · next hq =>
    rw [h] at hq
    cases hq
  · next q' hq =>
    rw [h] at hq
    obtain rfl := Except.ok.inj hq
    rfl

theorem scan_run {c : Char} {tail rest : List Char} (hc : isRunChar c = true)
    (htail : ∀ d ∈ tail, isRunChar d = true) (hrest : ∀ d ∈ rest.head?, isRunChar d = false)
    (offset : Nat) :
    scan offset (c :: tail ++ rest) =
      (⟨offset, .run (c :: tail)⟩ :: (scan (offset + byteLength (c :: tail)) rest).1,
        (scan (offset + byteLength (c :: tail)) rest).2) := by
  have hnot : isBlank c = false ∧ c ≠ '[' ∧ c ≠ ']' ∧ c ≠ '"' := by
    simpa [isRunChar, and_assoc] using hc
  have hnone : rest.takeWhile isRunChar = [] ∧ rest.dropWhile isRunChar = rest := by
    cases rest with
    | nil => exact ⟨rfl, rfl⟩
    | cons d rest =>
      have hd := hrest d rfl
      exact ⟨List.takeWhile_cons_of_neg (by simp [hd]), List.dropWhile_cons_of_neg (by simp [hd])⟩
  rw [List.cons_append, scan, if_neg (by simp [hnot.1]), if_neg hnot.2.1, if_neg hnot.2.2.1,
    if_neg hnot.2.2.2]
  simp only [List.takeWhile_append_of_pos htail, List.dropWhile_append_of_pos htail, hnone.1,
    hnone.2, List.append_nil]

/-! ## The whole scan -/

/-- **A text that can be cut is scanned to its end**, and its lexemes are found. -/
theorem scan_complete {cs : List Char} {shapes : List Shape} (h : Cut cs shapes) (offset : Nat) :
    (scan offset cs).1.map (·.shape) = shapes ∧ (scan offset cs).2 = none := by
  induction h generalizing offset with
  | nil =>
    rw [scan]
    exact ⟨rfl, rfl⟩
  | blank hc _ ih =>
    rw [scan_blank hc]
    exact ih _
  | opening _ ih =>
    rw [scan_opening]
    exact ⟨congrArg _ (ih _).1, (ih _).2⟩
  | closing _ ih =>
    rw [scan_closing]
    exact ⟨congrArg _ (ih _).1, (ih _).2⟩
  | @text _ _ rest _ inside _ ih =>
    obtain ⟨q, hq, rfl, rfl⟩ := quoted_complete inside offset (offset + 1) rest
    rw [scan_text hq]
    exact ⟨congrArg _ (ih _).1, (ih _).2⟩
  | @run run _ _ nonempty chars maximal _ ih =>
    obtain ⟨c, tail, rfl⟩ := List.exists_cons_of_ne_nil nonempty
    rw [scan_run (chars c List.mem_cons_self) (fun d hd => chars d (List.mem_cons_of_mem _ hd))
      maximal]
    exact ⟨congrArg _ (ih _).1, (ih _).2⟩

/-- **What is scanned to its end can be cut** into the lexemes found. -/
theorem scan_sound {cs : List Char} {offset : Nat} (h : (scan offset cs).2 = none) :
    Cut cs ((scan offset cs).1.map (·.shape)) := by
  fun_induction scan offset cs with
  | case1 => exact .nil
  | case2 offset c rest hc ih => exact .blank hc (ih h)
  | case3 offset rest lexemes complaint hscan _ ih =>
    rw [hscan] at ih
    exact .opening (ih h)
  | case4 offset rest lexemes complaint hscan _ _ ih =>
    rw [hscan] at ih
    exact .closing (ih h)
  | case5 => cases h
  | case6 offset rest q hq _ lexemes complaint hscan _ _ _ ih =>
    rw [hscan] at ih
    obtain ⟨body, rfl, hbody⟩ := quoted_sound hq
    exact .text hbody (ih h)
  | case7 offset c rest hblank hopening hclosing hquote run _ lexemes complaint hscan ih =>
    rw [hscan] at ih
    have hrun : c :: rest = run ++ rest.dropWhile isRunChar := by
      rw [List.cons_append, List.takeWhile_append_dropWhile]
    rw [hrun]
    refine .run (List.cons_ne_nil _ _) (fun d hd => ?_) (fun d hd => ?_) (ih h)
    · rcases List.mem_cons.mp hd with rfl | hd
      · simp [isRunChar, hblank, hopening, hclosing, hquote]
      · exact List.all_eq_true.mp List.all_takeWhile d hd
    · have := List.head?_dropWhile_not isRunChar rest
      rw [hd] at this
      simpa using this

end Lexeme

/-- **A text can be cut in one way only.** -/
theorem Cut.unique {cs : List Char} {shapes others : List Shape} (h : Cut cs shapes)
    (ho : Cut cs others) : shapes = others :=
  (Lexeme.scan_complete h 0).1.symm.trans (Lexeme.scan_complete ho 0).1

end ActionKit.SpecText
