import Toolflow.Workflow.Basic

/-!
# Tools on the canvas

Every node gets a tool number and a place, in the order of the nodes: the numbers count from one,
the places stand in a row.  A name refers to the last node that has it (`Layout.find?`).

A layout is all that the later steps know about the nodes of a workflow; it need not be the layout
of the workflow that is drawn.
-/

namespace Toolflow

structure Point where
  x : Nat
  y : Nat
  deriving Repr, DecidableEq

def Point.ofIndex (index : Nat) : Point := ⟨54 + 150 * index, 54⟩

structure Placement where
  tool : Nat
  point : Point
  name : String
  kind? : Option Kind
  deriving Repr, DecidableEq

def Placement.ofNode (index : Nat) (n : Node) : Placement :=
  ⟨index + 1, .ofIndex index, n.name, n.kind?⟩

/-- where connections leave this tool -/
def Placement.outputAnchor (p : Placement) : String := outputAnchorOf p.kind?

structure Layout where
  tools : List Placement
  deriving Repr, DecidableEq

namespace Layout

def ofNodes (nodes : List Node) : Layout := ⟨nodes.mapIdx Placement.ofNode⟩

def ofWorkflow (w : Workflow) : Layout := ofNodes w.nodes

/-- the tool that a name refers to -/
def find? (layout : Layout) (name : String) : Option Placement :=
  layout.tools.reverse.find? (·.name == name)

theorem length_ofNodes (nodes : List Node) : (ofNodes nodes).tools.length = nodes.length := by
  simp [ofNodes]

theorem getElem?_ofNodes (nodes : List Node) (i : Nat) :
    (ofNodes nodes).tools[i]? = nodes[i]?.map (Placement.ofNode i) := by
  simp [ofNodes]

theorem ofNodes_concat (nodes : List Node) (n : Node) :
    (ofNodes (nodes ++ [n])).tools = (ofNodes nodes).tools ++ [.ofNode nodes.length n] := by
  simp [ofNodes, List.mapIdx_append]

theorem eq_ofNodes_concat (nodes : List Node) (n : Node) :
    ⟨(ofNodes nodes).tools ++ [.ofNode nodes.length n]⟩ = ofNodes (nodes ++ [n]) :=
  congrArg Layout.mk (ofNodes_concat nodes n).symm

theorem find?_concat (layout : Layout) (p : Placement) (name : String) :
    find? ⟨layout.tools ++ [p]⟩ name = if p.name = name then some p else layout.find? name := by
  by_cases h : p.name = name <;> simp [find?, h]

theorem find?_ofNodes_concat (nodes : List Node) (n : Node) (name : String) :
    (ofNodes (nodes ++ [n])).find? name =
      if n.name = name then some (.ofNode nodes.length n) else (ofNodes nodes).find? name := by
  rw [← eq_ofNodes_concat, find?_concat]
  rfl

end Layout

end Toolflow
