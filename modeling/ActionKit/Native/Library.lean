import ActionKit.Integer
import ActionKit.Native

/-!
# The native library

Five natives come with every workshop. Their specs say which values they take, and a native only
ever runs on arguments its spec admits; on others it reports a failure of its own.

* `Library.add`, `Library.negate`: exact integer arithmetic that fails on overflow.
* `Library.join`: two texts, with a delimiter between them on request.
* `Library.length`: the bytes of a text or the items of a block.
* `Library.typeOf`: the precise datatype of a value.
-/

namespace ActionKit.Library

/-- An integer as a result, if it fits; otherwise the failure of a native. -/
def exact (name : String) (n : Int) : Except CallError Value :=
  match Integer.ofInt? n with
  | some word => .ok (.integer word)
  | none => .error (.native name "integer overflow")

/-- The failure of a native that is given arguments outside its spec. What these arguments were is
left out of the message: no native of the library is ever run on any. -/
def refuse (name : String) : Except CallError Value := .error (.native name "invalid arguments")

/-- The sum of two integers. -/
def add : Native where
  name := "add"
  spec := "\"Adds two integers\" return: [integer!] a [integer!] b [integer!]"
  run call :=
    match call.args with
    | [.integer a, .integer b] => exact "add" (a.toInt + b.toInt)
    | _ => refuse "add"

/-- Two texts joined, with a delimiter between them if one is given. -/
def join : Native where
  name := "join"
  spec := "\"Joins two texts\" return: [text!] head [text!] tail [text!] " ++
    "/with [text!] \"Delimiter\""
  run call :=
    match call.args with
    | [.text head, .text tail, .none] => .ok (.text (head ++ tail))
    | [.text head, .text tail, .text delimiter] => .ok (.text (head ++ delimiter ++ tail))
    | _ => refuse "join"

/-- The number of bytes of a text, or of items of a block. -/
def length : Native where
  name := "length"
  spec := "\"Counts the bytes of a text or the items of a block\" return: [integer!] " ++
    "series [text! block!]"
  run call :=
    match call.args with
    | [.text bytes] => .ok (.integer (Int64.ofNat bytes.length))
    | [.block items] => .ok (.integer (Int64.ofNat items.length))
    | _ => refuse "length"

/-- An integer with its sign changed. -/
def negate : Native where
  name := "negate"
  spec := "return: [integer!] number [integer!]"
  run call :=
    match call.args with
    | [.integer number] => exact "negate" (-number.toInt)
    | _ => refuse "negate"

/-- The precise datatype of a value. -/
def typeOf : Native where
  name := "type-of"
  spec := "return: [datatype!] value [any-type!]"
  run call :=
    match call.args with
    | [value] => .ok (.datatype value.typeOf)
    | _ => refuse "type-of"

/-- All natives of the library, sorted by name. -/
def all : List Native := [add, join, length, negate, typeOf]

end ActionKit.Library
