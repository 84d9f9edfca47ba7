import Toolflow.Compile
import Toolflow.Passes

/-!
# Working in steps

A session holds a workflow, a plan and a collector with the notices so far.  The plan need not
be that of the workflow: a workflow can be loaded without laying it out anew.

`Session.step` carries out one `Action`.  It gives an answer and a session; the passes that it
carries out go on with the collector of the session.
-/

namespace Toolflow

structure Session where
  workflow : Workflow
  plan : Plan
  collector : Collector
  deriving Repr, DecidableEq

inductive Action where
  | load (value : Json)
  /-- take a workflow and keep the plan -/
  | loadWorkflow (value : Json)
  | find (name : String)
  | check
  | wire
  | draw
  | note (notice : Notice)
  deriving Repr

inductive Answer where
  | refused (rejection : Rejection)
  /-- the layout, the number of arcs on it, and whether they form a cycle -/
  | laidOut (layout : Layout) (arcs : Nat) (cyclic : Bool)
  | found (placement : Option Placement)
  | wired (wires : List Wire)
  | drawn (document : String)
  | done
  deriving Repr, DecidableEq

def Answer.ofLayout (layout : Layout) (links : List Link) : Answer :=
  .laidOut layout (layout.arcs links).length (layout.cyclic links)

namespace Session

def start : Session := ⟨.empty, .ofWorkflow .empty, .empty⟩

def notices (s : Session) : List Notice := s.collector.notices

/-- what an action makes of the workflow and the plan -/
def loaded (w : Workflow) (plan : Plan) : Action → Workflow × Plan
  | .load value =>
    match Workflow.ofJson value with
    | .ok w => (w, .ofWorkflow w)
    | .error _ => (w, plan)
  | .loadWorkflow value =>
    match Workflow.ofJson value with
    | .ok w => (w, plan)
    | .error _ => (w, plan)
  | _ => (w, plan)

def answer (w : Workflow) (plan : Plan) : Action → Collecting Answer
  | .load value =>
    match Workflow.ofJson value with
    | .ok w => pure (.ofLayout (Plan.ofWorkflow w).layout w.links)
    | .error rejection => pure (.refused rejection)
  | .loadWorkflow value =>
    match Workflow.ofJson value with
    | .ok w => pure (.ofLayout plan.layout w.links)
    | .error rejection => pure (.refused rejection)
  | .find name => pure (.found (plan.find? name))
  | .check => do
    w.check (plan.layout.arcs w.links)
    pure .done
  | .wire => do
    let wires ← plan.layout.resolve w.links
    pure (.wired wires)
  | .draw => do
    let document ← Document.draw w plan.layout
    pure (.drawn document)
  | .note notice => do
    warn notice
    pure .done

def step (s : Session) (a : Action) : Answer × Session :=
  let (answer, collector) := (answer s.workflow s.plan a).run s.collector
  let (workflow, plan) := loaded s.workflow s.plan a
  (answer, ⟨workflow, plan, collector⟩)

/-- the answers to some actions, each with the session after it -/
def run (s : Session) : List Action → List (Answer × Session)
  | [] => []
  | a :: rest => s.step a :: (s.step a).2.run rest

end Session

end Toolflow
