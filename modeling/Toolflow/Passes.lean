import Toolflow.Collector
import Toolflow.Document.Basic
import Toolflow.Layout.Cycle
import Toolflow.Layout.Plan
import Toolflow.Workflow.Notices

/-!
# The passes over a workflow

* `Workflow.check`    reports repeated names, with a table of the names seen so far, and then a
                      cycle among some arcs;
* `Layout.resolve`    goes through the links, keeps those that join two tools and reports the
                      others;
* `Document.draw`     writes the document, and reports what it cannot draw as it comes to it.

None of them asks whether the layout is that of the workflow, or where the arcs come from.
-/

namespace Toolflow

open Xml (Step Writer)

namespace Workflow

/-- names with the number of the first tool that has them -/
abbrev Seen := List (String × Nat)

def noteRepeat (seen : Seen) (n : Node) (index : Nat) : Collecting Seen :=
  match seen.lookup n.name with
  | some first => do
    warn (.duplicate n.name first (index + 1))
    pure seen
  | none => pure ((n.name, index + 1) :: seen)

def noteRepeats (nodes : List Node) : Collecting Unit := do
  let _ ← nodes.zipIdx.foldlM (fun seen (n, index) => noteRepeat seen n index) []

def noteCycle (arcs : List Arc) : Collecting Unit :=
  if Arc.cyclic arcs then warn .cycle else pure ()

def check (w : Workflow) (arcs : List Arc) : Collecting Unit := do
  noteRepeats w.nodes
  noteCycle arcs

end Workflow

namespace Layout

def resolveLink (layout : Layout) (wires : List Wire) (link : Link) (index : Nat) :
    Collecting (List Wire) :=
  match layout.find? link.source, layout.find? link.target with
  | some a, some b => pure (wires ++ [⟨a.tool, a.outputAnchor, b.tool, inputAnchor⟩])
  | a, b =>
    match Missing.ofFound a.isSome b.isSome with
    | some missing => do
      warn (.dangling index link.source link.target missing)
      pure wires
    | none => pure wires

def resolve (layout : Layout) (links : List Link) : Collecting (List Wire) :=
  links.zipIdx.foldlM (fun wires (link, index) => layout.resolveLink wires link index) []

end Layout

namespace Document

def drawNode (out : Writer) (n : Node) (p : Placement) : Collecting Writer :=
  match n.kind? with
  | some kind => pure (out.writeAll (toolItem kind n.settings p).steps)
  | none => do
    warn (.unmapped p.tool n.kindName)
    pure (out.writeAll (unmappedItem n).steps)

def drawWire (out : Writer) (w : Wire) : Writer := out.writeAll (wireItem w).steps

/-- up to the start of the first part -/
def openingSteps : List Step :=
  [declaration, .startTag "AlteryxDocument" [("yxmdVer", "2025.2")], .startTag "Nodes" []]

/-- from the end of the second part on -/
def closingSteps : List Step :=
  .endTag "Connections" :: (properties.steps ++ [.endTag "AlteryxDocument"])

def draw (w : Workflow) (layout : Layout) : Collecting String := do
  let out := Writer.empty.writeAll openingSteps
  let out ← (w.nodes.zip layout.tools).foldlM (fun out (n, p) => drawNode out n p) out
  let out := out.write (.endTag "Nodes")
  let wires ← layout.resolve w.links
  let out := out.write (.startTag "Connections" [])
  let out := (wires.foldl drawWire out).writeAll closingSteps
  pure out.text

end Document

/-- a workflow is laid out, checked and then drawn on its own layout -/
def Workflow.passes (w : Workflow) : Collecting String := do
  let plan := Plan.ofWorkflow w
  w.check (plan.layout.arcs w.links)
  Document.draw w plan.layout

end Toolflow
