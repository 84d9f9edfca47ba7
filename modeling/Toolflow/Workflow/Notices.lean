import Toolflow.Layout.Cycle

/-!
# The notices of a workflow

* `Workflow.structural`  repeated node names, then a cycle of the links.  They are found before
                         anything is drawn;
* `Workflow.drawing`     tools of no known kind, then dangling links.  They are found when the
                         workflow is drawn.

A repeated name is reported once for every node that has it except the first, and against the
first.  Nodes are paired with the tools of the layout; where one of the two lists is longer, its
rest is passed over.
-/

namespace Toolflow

namespace Workflow

/-- the notice for the node of this index, if an earlier node has its name -/
def duplicate? (nodes : List Node) (index : Nat) (n : Node) : Option Notice :=
  let first := nodes.findIdx (·.name == n.name)
  if first < index then some (.duplicate n.name (first + 1) (index + 1)) else none

def duplicates (nodes : List Node) : List Notice :=
  nodes.zipIdx.filterMap fun (n, index) => duplicate? nodes index n

def cycles (layout : Layout) (links : List Link) : List Notice :=
  if layout.cyclic links then [.cycle] else []

def structural (w : Workflow) (layout : Layout) : List Notice :=
  duplicates w.nodes ++ cycles layout w.links

/-- the notice for a node that is drawn as this tool -/
def unmapped? (n : Node) (p : Placement) : Option Notice :=
  match n.kind? with
  | none => some (.unmapped p.tool n.kindName)
  | some _ => none

def unmappedTools (nodes : List Node) (layout : Layout) : List Notice :=
  (nodes.zip layout.tools).filterMap fun (n, p) => unmapped? n p

def drawing (w : Workflow) (layout : Layout) : List Notice :=
  unmappedTools w.nodes layout ++ layout.dangling w.links

end Workflow

end Toolflow
