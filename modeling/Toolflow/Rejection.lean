/-!
# Why a workflow is refused

* `Rejection.notJson detail`          the text is no JSON; `detail` says why and where;
* `Rejection.misshapen fault`         the value has not the shape of a workflow;
* `Rejection.badNode index fault`     the node of that index, counted from zero, cannot be used.

Each has a `code` and a `phase` for a host, and a `message` for people.
-/

namespace Toolflow

/-- the two lists that a workflow must have -/
inductive Part where
  | nodes
  | connections
  deriving Repr, DecidableEq

def Part.key : Part → String
  | nodes => "nodes"
  | connections => "connections"

inductive ShapeFault where
  | notObject
  | missing (part : Part)
  | notList (part : Part)
  deriving Repr, DecidableEq

def ShapeFault.message : ShapeFault → String
  | notObject => "workflow is not an object"
  | missing part => s!"{part.key} is missing"
  | notList part => s!"{part.key} is not a sequence"

inductive NodeFault where
  | notObject
  | noName
  | noKindName
  deriving Repr, DecidableEq

def NodeFault.message : NodeFault → String
  | notObject => "node is not an object"
  | noName => "missing required \"node_id\" (must be a non-empty string)"
  | noKindName => "missing required \"schema_id\" (must be a non-empty string)"

inductive Phase where
  | parse
  | validate
  deriving Repr, DecidableEq

def Phase.name : Phase → String
  | parse => "Parse"
  | validate => "Validate"

inductive Rejection where
  | notJson (detail : String)
  | misshapen (fault : ShapeFault)
  | badNode (index : Nat) (fault : NodeFault)
  deriving Repr, DecidableEq

namespace Rejection

def message : Rejection → String
  | notJson detail => s!"Failed to parse workflow JSON: {detail}"
  | misshapen fault => s!"Invalid workflow: {fault.message}"
  | badNode index fault => s!"Invalid node at index {index}: {fault.message}"

def code : Rejection → String
  | notJson _ => "P001"
  | misshapen _ => "V001"
  | badNode _ _ => "V002"

def phase : Rejection → Phase
  | notJson _ => .parse
  | misshapen _ | badNode _ _ => .validate

/-- the node that is to blame -/
def nodeIndex? : Rejection → Option Nat
  | badNode index _ => some index
  | _ => none

end Rejection

end Toolflow
