/-!
# JSON documents

Documents whose objects keep the order of their members, and the two ways of writing them: on one
line without blanks, and over several lines indented by two blanks.

* `Json.quote`: a string with its escapes. Characters outside ASCII stand for themselves.
* `Json.compact`, `Json.pretty`: the two layouts.
-/

namespace ActionKit

/-- A document. -/
inductive Json where
  | null
  | bool (truth : Bool)
  | integer (number : Int)
  | string (text : String)
  | array (items : List Json)
  | object (members : List (String × Json))
deriving Repr

namespace Json

/-- A character inside a string. Quotes, backslashes and control characters are escaped. -/
def escape (c : Char) : List Char :=
  if c = '"' then ['\\', '"']
  else if c = '\\' then ['\\', '\\']
  else if c = '\n' then ['\\', 'n']
  else if c = '\r' then ['\\', 'r']
  else if c = '\t' then ['\\', 't']
  else if c.toNat = 0x8 then ['\\', 'b']
  else if c.toNat = 0xC then ['\\', 'f']
  else if c.toNat < 0x20 then
    ['\\', 'u', '0', '0', Nat.digitChar (c.toNat / 16), Nat.digitChar (c.toNat % 16)]
  else [c]

/-- A string in quotes. -/
def quote (text : String) : String :=
  "\"" ++ String.ofList (text.toList.flatMap escape) ++ "\""

mutual

/-- A document on one line. -/
def compact : Json → String
  | .null => "null"
  | .bool true => "true"
  | .bool false => "false"
  | .integer number => toString number
  | .string text => quote text
  | .array items => "[" ++ ",".intercalate (compactItems items) ++ "]"
  | .object members => "\x7b" ++ ",".intercalate (compactMembers members) ++ "\x7d"

/-- The items of an array, each on one line. -/
def compactItems : List Json → List String
  | [] => []
  | item :: rest => item.compact :: compactItems rest

/-- The members of an object, each on one line. -/
def compactMembers : List (String × Json) → List String
  | [] => []
  | (name, value) :: rest => (quote name ++ ":" ++ value.compact) :: compactMembers rest

end

/-- The start of a line at a depth. -/
def indent (depth : Nat) : String := "\n".pushn ' ' (2 * depth)

/-- Lines between two brackets, one level deeper than they. Without any, the brackets stand next
to each other. -/
def enclosed (depth : Nat) (left right : String) (lines : List String) : String :=
  if lines.isEmpty then left ++ right
  else
    left ++ indent (depth + 1) ++ ("," ++ indent (depth + 1)).intercalate lines ++ indent depth ++
      right

mutual

/-- A document over several lines, from a depth on. -/
def prettyAt (depth : Nat) : Json → String
  | .null => "null"
  | .bool true => "true"
  | .bool false => "false"
  | .integer number => toString number
  | .string text => quote text
  | .array items => enclosed depth "[" "]" (prettyItems (depth + 1) items)
  | .object members => enclosed depth "\x7b" "\x7d" (prettyMembers (depth + 1) members)

/-- The items of an array, each from a depth on. -/
def prettyItems (depth : Nat) : List Json → List String
  | [] => []
  | item :: rest => item.prettyAt depth :: prettyItems depth rest

/-- The members of an object, each from a depth on. -/
def prettyMembers (depth : Nat) : List (String × Json) → List String
  | [] => []
  | (name, value) :: rest =>
    (quote name ++ ": " ++ value.prettyAt depth) :: prettyMembers depth rest

end

/-- A document over several lines. -/
def pretty (document : Json) : String := document.prettyAt 0

/-- A document for something that may be absent. -/
def option (value : Option Json) : Json := value.getD .null

end Json

end ActionKit
