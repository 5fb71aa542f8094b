import ActionKit.Show.View
import ActionKit.Workshop.Basic

/-!
# The wording of errors and events

* `View.buildError`, `View.callError`: why an action could not be made, or a call not carried out.
* `View.event`: what the journal of a workshop records.
* `Workshop.view`, `Workshop.outsideView`: how a workshop shows things, and how they are shown
  where its names are not known.
-/

namespace ActionKit

namespace View

/-- Why an action could not be made. -/
def buildError (view : View) (error : BuildError) : String :=
  view.paint .red "Error" ++ ": " ++
    match error with
    | .specText offset fault =>
      "invalid spec notation at offset " ++ toString offset ++ ": " ++ fault.reason
    | .specItem position found fault =>
      "invalid spec at item " ++ toString position ++ " (" ++ view.value found ++ "): " ++
        fault.reason
    | .duplicateParameter name => "duplicate parameter '" ++ view.symbol name ++ "'"
    | .invalidDescriptor value =>
      "invalid typechecker descriptor " ++ view.value value ++ ", expected a datatype or typeset"
    | .unknownParameter name => "unknown parameter '" ++ view.symbol name ++ "'"
    | .hiddenParameter name => "parameter '" ++ view.symbol name ++ "' is not accessible"
    | .outputParameter name => "output parameter '" ++ view.symbol name ++ "' cannot be specialized"
    | .typeMismatch name value expected =>
      "parameter '" ++ view.symbol name ++ "' expects " ++ view.constraint expected ++ ", got " ++
        view.value value

/-- Why a call could not be carried out. -/
def callError (view : View) (error : CallError) : String :=
  view.paint .red "Panic" ++ ": " ++
    match error with
    | .unknownArgument name => "unknown argument '" ++ view.symbol name ++ "'"
    | .hiddenParameter name => "parameter '" ++ view.symbol name ++ "' is not accessible"
    | .outputParameter name => "output parameter '" ++ view.symbol name ++ "' cannot be supplied"
    | .missingArgument name => "missing argument '" ++ view.symbol name ++ "'"
    | .tooManyArguments expected given =>
      "too many arguments: expected at most " ++ view.paint .yellow (toString expected) ++
        ", got " ++ view.paint .yellow (toString given)
    | .typeMismatch name value expected =>
      "argument '" ++ view.symbol name ++ "' expects " ++ view.constraint expected ++ ", got " ++
        view.value value
    | .resultMismatch value expected =>
      "result " ++ view.value value ++ " is not in " ++ view.constraint expected
    | .incompatibleFrame (some label) =>
      "frame is incompatible with '" ++ view.symbol label ++ "'"
    | .incompatibleFrame none => "frame is incompatible with the action"
    | .native name description => view.paint .green name ++ ": " ++ description

/-- The identity of a table. -/
def tableId (id : TableId) : String := "TableId(" ++ toString id.number ++ ")"

/-- What the journal records. -/
def event (view : View) : Event → String
  | .region (.opened depth) => "scratch transaction opened at depth " ++ toString depth
  | .region (.popped depth count) =>
    "scratch transaction at depth " ++ toString depth ++ " popped " ++ toString count ++ " entries"
  | .region (.unwound depth count) =>
    "scratch transaction at depth " ++ toString depth ++ " unwound " ++ toString count ++
      " entries"
  | .specialized source table =>
    "specialized " ++ view.reference source ++ " into table " ++ tableId table
  | .augmented source table slots =>
    "augmented " ++ view.reference source ++ " into table " ++ tableId table ++ " with " ++
      toString slots ++ " slots"
  | .created natives => "runtime created with " ++ toString natives ++ " natives"

end View

/-- How a workshop shows things. -/
def Workshop.view (w : Workshop) (colored : Bool) : View :=
  { names := w.names, actions := w.actions, colored }

/-- How things of a workshop are shown where only the initial names are known. -/
def Workshop.outsideView (w : Workshop) (colored : Bool) : View :=
  { names := .initial, actions := w.actions, colored }

end ActionKit
