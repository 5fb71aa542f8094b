/-!
# Inks

Shown texts can be coloured for a terminal. An ink sets the foreground colour before a text and
resets it after.
-/

namespace ActionKit

/-- A foreground colour. -/
inductive Ink where
  | red
  | green
  | yellow
  | blue
  | magenta
  | cyan
deriving DecidableEq, Repr

namespace Ink

/-- The number of a colour in the palette of a terminal. -/
def code : Ink → Nat
  | .red => 1
  | .green => 2
  | .yellow => 3
  | .blue => 4
  | .magenta => 5
  | .cyan => 6

/-- A text between the sequences that set and reset the foreground colour. -/
def paint (ink : Ink) (text : String) : String :=
  "\x1b[38;5;" ++ toString ink.code ++ "m" ++ text ++ "\x1b[39m"

end Ink

end ActionKit
