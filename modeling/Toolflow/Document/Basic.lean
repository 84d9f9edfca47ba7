import Toolflow.Document.Configuration
import Toolflow.Document.Properties
import Toolflow.Layout.Wiring

/-!
# Documents

A document is an XML tree of three parts below one root: the nodes, the connections and the
properties (`Document.root`).  `Document.render` is its text, after the line that declares it XML.

Nodes are paired with the tools of the layout, up to the shorter of the two lists.  A node of a
known kind is drawn inside the same frame as every other (`toolItem`); in place of a node of no
known kind stands a comment.
-/

namespace Toolflow

open Xml (Item Step Writer)

namespace Document

/-! ## nodes -/

def positionItem (p : Point) : Item :=
  .empty "Position" [("x", toString p.x), ("y", toString p.y)]

def annotationItem (label : String) : Item :=
  .container "Annotation" [("DisplayMode", "0")] [
    .empty "Name" [],
    .leaf "DefaultAnnotationText" [] label,
    .value "Left" "False"]

def engineItem (kind : Kind) : Item :=
  .empty "EngineSettings"
    [("EngineDll", "AlteryxBasePluginsEngine.dll"), ("EngineDllEntryPoint", kind.entryPoint)]

/-- a tool of a known kind -/
def toolItem (kind : Kind) (settings : Settings) (p : Placement) : Item :=
  .container "Node" [("ToolID", toString p.tool)] [
    .container "GuiSettings" [("Plugin", kind.plugin)] [positionItem p.point],
    .container "Properties" [] [
      .container "Configuration" settings.configurationAttrs settings.configuration,
      annotationItem settings.label],
    engineItem kind]

/-- what stands in place of a tool of no known kind -/
def unmappedItem (n : Node) : Item :=
  .comment s!"UNMAPPED NODE: {n.kindName} - {n.source}"

def nodeItem (n : Node) (p : Placement) : Item :=
  match n.kind? with
  | some kind => toolItem kind n.settings p
  | none => unmappedItem n

def nodeItems (nodes : List Node) (layout : Layout) : List Item :=
  (nodes.zip layout.tools).map fun (n, p) => nodeItem n p

/-! ## connections -/

def wireItem (w : Wire) : Item :=
  .container "Connection" [] [
    .empty "Origin" [("ToolID", toString w.origin), ("Connection", w.originAnchor)],
    .empty "Destination"
      [("ToolID", toString w.destination), ("Connection", w.destinationAnchor)]]

def wireItems (links : List Link) (layout : Layout) : List Item :=
  (layout.wires links).map wireItem

/-! ## the whole -/

def root (w : Workflow) (layout : Layout) : Item :=
  .container "AlteryxDocument" [("yxmdVer", "2025.2")] [
    .container "Nodes" [] (nodeItems w.nodes layout),
    .container "Connections" [] (wireItems w.links layout),
    properties]

def declaration : Step := .raw "<?xml version=\"1.0\"?>"

def render (w : Workflow) (layout : Layout) : String :=
  (Writer.empty.writeAll (declaration :: (root w layout).steps)).text

theorem length_nodeItems (nodes : List Node) (layout : Layout) :
    (nodeItems nodes layout).length = min nodes.length layout.tools.length := by
  simp [nodeItems]

theorem render_eq (w : Workflow) (layout : Layout) :
    render w layout = Xml.outputs 0 (declaration :: (root w layout).steps) := by
  simp [render, Writer.writeAll_eq, Writer.empty]

end Document

end Toolflow
