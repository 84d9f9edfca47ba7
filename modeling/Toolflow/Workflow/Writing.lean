import Toolflow.Tool.Writing
import Toolflow.Workflow.Basic

/-!
# Workflows as JSON

The object that shows all of a workflow, with null for what is absent.
-/

namespace Toolflow

open Json (ofObject ofString?)

def Node.toJson (n : Node) : Json :=
  ofObject [("node_id", .str n.name), ("schema_id", .str n.kindName),
    ("acl_source", .str n.source), ("config", n.settings.toJson)]

def Link.toJson (l : Link) : Json :=
  ofObject [("from", .str l.source), ("to", .str l.target)]

def Origin.toJson (o : Origin) : Json :=
  ofObject [("version", ofString? o.version), ("source", ofString? o.source),
    ("schema_version", ofString? o.schemaVersion)]

def Workflow.toJson (w : Workflow) : Json :=
  ofObject [("metadata", w.origin.toJson), ("nodes", .arr (w.nodes.map (·.toJson))),
    ("connections", .arr (w.links.map (·.toJson))), ("unmapped_acl", .ofStrings w.unmapped)]

end Toolflow
