import ActionKit.Scratch

/-!
# Scripts for regions

A script is what is done in a region of the scratch area: entries are pushed, inserted and sealed,
and scripts run in regions nested on top, until the region is popped or released.

* `Script`, `ScriptStep`: scripts and their steps.
* `Script.run`: running a script on the shared area, with all that can be observed on the way.
* `Observed`, `Observation`: what a region shows in the end, and after each step.
-/

namespace ActionKit

/-- How a region ends. -/
inductive Ending where
  | pop
  | release
deriving DecidableEq, Repr

mutual

/-- What is done in one region, and how the region ends. -/
inductive Script where
  | mk (steps : List ScriptStep) (ending : Ending)

/-- One step in a region. -/
inductive ScriptStep where
  | push (entry : Entry)
  | insert (index : Nat) (entry : Entry)
  | sealAt (index : Nat)
  | nested (script : Script)

end

mutual

/-- What a region shows: what was seen after each step, and the entries popped from it, if it was
popped. -/
inductive Observed where
  | mk (steps : List Observation) (popped : Option (List Entry))

/-- What is seen after a step: what the nested region showed, if the step was one, and the entries
of the region. -/
inductive Observation where
  | mk (inner : Option Observed) (entries : List Entry)

end

/-- End a region one way or the other. -/
def Scratch.leave (scratch : Scratch) (region : Region) : Ending → Option (List Entry) × Scratch
  | .pop =>
    let (entries, scratch) := scratch.pop region
    (some entries, scratch)
  | .release => (none, scratch.release region)

mutual

/-- Run a script in a new region. -/
def Script.run (scratch : Scratch) : Script → Observed × Scratch
  | .mk steps ending =>
    let (region, scratch) := scratch.enter
    let (seen, scratch) := runSteps scratch region steps
    let (popped, scratch) := scratch.leave region ending
    (.mk seen popped, scratch)

/-- Run one step in a region. -/
def ScriptStep.run (scratch : Scratch) (region : Region) :
    ScriptStep → Option Observed × Scratch
  | .push entry => (none, scratch.push entry)
  | .insert index entry => (none, scratch.insert region index entry)
  | .sealAt index => (none, scratch.modify region index ({ · with isSealed := true }))
  | .nested script =>
    let (observed, scratch) := script.run scratch
    (some observed, scratch)

/-- Run steps in a region, and look at the region after each. -/
def runSteps (scratch : Scratch) (region : Region) :
    List ScriptStep → List Observation × Scratch
  | [] => ([], scratch)
  | step :: rest =>
    let (inner, scratch) := step.run scratch region
    let seen := Observation.mk inner (scratch.view region)
    let (more, scratch) := runSteps scratch region rest
    (seen :: more, scratch)

end

end ActionKit
