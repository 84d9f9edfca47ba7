import Toolflow.Tool.Settings

/-!
# Workflows

A workflow is a list of nodes and a list of links between them.  A node has a name of its own, by
which links refer to it, the name of its kind, the text it was made from, and the settings of its
kind.  Node names need not be distinct, and a link may name a node that does not exist: a workflow
is what was described, not what can be drawn.

`unmapped` are lines of the description that no node was made from; they and the `origin` are
handed on and have no influence on anything else.
-/

namespace Toolflow

structure Node where
  name : String
  kindName : String
  source : String
  settings : Settings
  deriving Repr, DecidableEq

def Node.kind? (n : Node) : Option Kind := n.settings.kind?

structure Link where
  source : String
  target : String
  deriving Repr, DecidableEq

/-- where the description of a workflow comes from -/
structure Origin where
  version : Option String
  source : Option String
  schemaVersion : Option String
  deriving Repr, DecidableEq

structure Workflow where
  origin : Origin
  nodes : List Node
  links : List Link
  unmapped : List String
  deriving Repr, DecidableEq

def Workflow.empty : Workflow := ⟨⟨none, none, none⟩, [], [], []⟩

end Toolflow
