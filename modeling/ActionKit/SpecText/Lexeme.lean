import ActionKit.Error

/-!
# Lexemes of spec text

The text of a spec is cut into brackets, quoted texts and runs of other characters; blanks only
separate. Each lexeme knows the byte offset at which it starts.

* `isBlank`: the characters with the Unicode property White_Space.
* `Lexeme.quoted`: the inside of a quoted text, with its escapes resolved.
* `Lexeme.scan`: the lexemes of a text, up to its end or to the first fault.

Results:
* `quoted_length`: a quoted text takes up at least its closing quote.
-/

namespace ActionKit.SpecText

/-- Whether a character has the Unicode property White_Space. -/
def isBlank (c : Char) : Bool :=
  let n := c.toNat
  (0x9 ≤ n && n ≤ 0xD) || n = 0x20 || n = 0x85 || n = 0xA0 || n = 0x1680 ||
    (0x2000 ≤ n && n ≤ 0x200A) || n = 0x2028 || n = 0x2029 || n = 0x202F || n = 0x205F ||
    n = 0x3000

/-- Whether a character may stand in a run: it is no blank, bracket or quote. -/
def isRunChar (c : Char) : Bool := !(isBlank c || c = '[' || c = ']' || c = '"')

/-- The length of the UTF-8 encoding of some characters. -/
def byteLength (cs : List Char) : Nat := cs.foldl (fun length c => length + c.utf8Size) 0

/-- What a lexeme is. -/
inductive Shape where
  | opening
  | closing
  /-- A quoted text, by what it means. -/
  | text (content : List Char)
  /-- A maximal run of other characters. -/
  | run (chars : List Char)
deriving DecidableEq, Repr

/-- A lexeme and the byte offset at which it starts. -/
structure Lexeme where
  offset : Nat
  shape : Shape
deriving DecidableEq, Repr

/-- A fault and the byte offset it is reported at. -/
structure Complaint where
  offset : Nat
  fault : ReadFault
deriving DecidableEq, Repr

namespace Lexeme

/-- The character an escape stands for, by the character after the backslash. -/
def escaped? : Char → Option Char
  | '"' => some '"'
  | '\\' => some '\\'
  | 'n' => some '\n'
  | 't' => some '\t'
  | _ => none

/-- The rest of a quoted text. -/
structure Quoted where
  content : List Char
  /-- The offset after the closing quote. -/
  offset : Nat
  /-- The characters after the closing quote. -/
  rest : List Char
deriving DecidableEq, Repr

/-- Put a character in front of a quoted text. -/
def Quoted.cons (c : Char) (quoted : Quoted) : Quoted :=
  { quoted with content := c :: quoted.content }

/-- Read the inside of the quoted text that was opened at `start`, from `offset` on. A text that
is not closed is reported where it was opened, an unknown escape at its backslash. -/
def quoted (start offset : Nat) : List Char → Except Complaint Quoted
  | [] => .error ⟨start, .unterminatedText⟩
  | '"' :: rest => .ok ⟨[], offset + 1, rest⟩
  | ['\\'] => .error ⟨start, .unterminatedText⟩
  | '\\' :: c :: rest =>
    match escaped? c with
    | some meant => (quoted start (offset + 2) rest).map (.cons meant)
    | none => .error ⟨offset, .invalidEscape⟩
  | c :: rest => (quoted start (offset + c.utf8Size) rest).map (.cons c)

theorem quoted_length {start offset : Nat} {cs : List Char} {q : Quoted}
    (h : quoted start offset cs = .ok q) : q.rest.length < cs.length := by
  fun_induction quoted start offset cs generalizing q with
  | case1 => simp at h
  | case2 offset rest =>
    obtain rfl := Except.ok.inj h
    simp
  | case3 => simp at h
  | case4 offset c rest meant _ ih =>
    cases hq : quoted start (offset + 2) rest with
    | error e => simp [hq, Except.map] at h
    | ok r =>
      have := ih hq
      simp only [hq, Except.map, Except.ok.injEq] at h
      subst h
      simp [Quoted.cons]
      omega
  | case5 => simp at h
  | case6 offset c rest _ _ _ ih =>
    cases hq : quoted start (offset + c.utf8Size) rest with
    | error e => simp [hq, Except.map] at h
    | ok r =>
      have := ih hq
      simp only [hq, Except.map, Except.ok.injEq] at h
      subst h
      simp [Quoted.cons]
      omega

/-- The lexemes of a text that starts at `offset`, up to its end or to the first complaint. -/
def scan (offset : Nat) (cs : List Char) : List Lexeme × Option Complaint :=
  match cs with
  | [] => ([], none)
  | c :: rest =>
    if isBlank c then scan (offset + c.utf8Size) rest
    else if c = '[' then
      let (lexemes, complaint) := scan (offset + 1) rest
      (⟨offset, .opening⟩ :: lexemes, complaint)
    else if c = ']' then
      let (lexemes, complaint) := scan (offset + 1) rest
      (⟨offset, .closing⟩ :: lexemes, complaint)
    else if c = '"' then
      match h : quoted offset (offset + 1) rest with
      | .error complaint => ([], some complaint)
      | .ok q =>
        have := quoted_length h
        let (lexemes, complaint) := scan q.offset q.rest
        (⟨offset, .text q.content⟩ :: lexemes, complaint)
    else
      let run := c :: rest.takeWhile isRunChar
      have := (List.dropWhile_suffix (l := rest) isRunChar).length_le
      let (lexemes, complaint) := scan (offset + byteLength run) (rest.dropWhile isRunChar)
      (⟨offset, .run run⟩ :: lexemes, complaint)
termination_by cs.length
decreasing_by all_goals simp_all <;> omega

end Lexeme

end ActionKit.SpecText
