import ActionKit.Native.Library
import ActionKit.Workshop.Make

/-!
# New workshops

A new workshop has the table of typecheckers, numbered 0, and the native library, whose tables are
numbered from 1 on.
-/

namespace ActionKit.Workshop

/-- The interface that all typecheckers share. -/
def checkerSpec : String := "return: [logic!] value [any-type!]"

/-- A workshop with nothing but the table of typecheckers. -/
def bare : Workshop :=
  let empty : Workshop := {}
  match empty.draftSpec checkerSpec false with
  | (.error _, w) => w
  | (.ok finished, w) =>
    let (checkerTable, w) := w.addTable finished
    { w with checkerTable }

/-- Make a native and put it into the library. -/
def install (w : Workshop) (function : Native) : Workshop :=
  match w.makeNative function none with
  | (.error _, w) => w
  | (.ok action, w) => { w with natives := w.natives ++ [action] }

/-- A new workshop. -/
def fresh : Workshop :=
  let w := Library.all.foldl install bare
  w.note (.created w.natives.length)

end ActionKit.Workshop
