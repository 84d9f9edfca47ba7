import Mathlib.Data.List.Forall2
import Toolflow.Proofs.Document.ReadBack
import Toolflow.Proofs.Layout.Lookup

/-!
# The text of a document by its parts

Between fixed texts a document holds the texts of its nodes and of its connections, one behind the
other.

* `opening`, `between`, `closing`   the fixed texts, which end and begin at the tags of the two
                            lists;
* `Parts`                   the texts of the nodes and of the connections;
* `Split document p`        the document is made of the parts `p`, and a reader finds in each of
                            them one child of the list that it stands in;
* `split_render`            every document falls into such parts;
* `toolText`, `commentLine`, `wireText`   what the parts look like; of a tool only the number and
                            the place depend on its index.
-/

namespace Toolflow

open Xml

namespace Document

/-- all before the first node -/
def opening : String :=
  "<?xml version=\"1.0\"?>\n<AlteryxDocument yxmdVer=\"2025.2\">\n  <Nodes>\n"

/-- all between the last node and the first connection -/
def between : String := "  </Nodes>\n  <Connections>\n"

/-- all behind the last connection -/
def closing : String :=
  "  </Connections>\n" ++ outputs 1 properties.steps ++ "</AlteryxDocument>\n"

structure Parts where
  nodes : List String
  connections : List String
  deriving Repr, DecidableEq

def Parts.text (p : Parts) : String :=
  opening ++ String.join p.nodes ++ between ++ String.join p.connections ++ closing

/-- the text is read as this tree and nothing else -/
def Reads (text : String) (t : Tree) : Prop := forest? isLeaf text.toList = some [t]

/-- the document is made of these parts, and each of them is one child of its list -/
structure Split (document : String) (p : Parts) : Prop where
  text : document = p.text
  read : ∃ nodes connections,
    document? isLeaf document = some (.element "AlteryxDocument" [("yxmdVer", "2025.2")]
      [.element "Nodes" [] nodes, .element "Connections" [] connections, propertiesTree]) ∧
    List.Forall₂ Reads p.nodes nodes ∧ List.Forall₂ Reads p.connections connections

/-! ## items as parts -/

/-- the text of a child of one of the two lists -/
def partText (item : Item) : String := outputs 2 item.steps

def parts (w : Workflow) (layout : Layout) : Parts where
  nodes := (nodeItems w.nodes layout).map partText
  connections := (wireItems w.links layout).map partText

theorem outputs_stepsAll (level : Nat) (items : List Item) :
    outputs level (Item.stepsAll items)
      = String.join (items.map fun item => outputs level item.steps) := by
  induction items with
  | nil => rfl
  | cons item rest ih =>
    rw [Item.stepsAll, outputs_append, Item.nexts_steps, ih, List.map_cons, String.join_cons]

theorem outputs_container (level : Nat) (name : String) (attrs : List Attr) (items : List Item) :
    outputs level (Item.container name attrs items).steps
      = (Step.startTag name attrs).output level ++ outputs (level + 1) (Item.stepsAll items)
        ++ (Step.endTag name).output (level + 1) := by
  rw [Item.steps, outputs, outputs_append]
  show _ ++ (outputs (level + 1) _ ++ outputs (nexts (level + 1) _) _) = _
  rw [Item.nexts_stepsAll, outputs, outputs, String.append_empty, String.append_assoc]

/-- a list of the document is the texts of its children between its tags -/
theorem outputs_list (name : String) (items : List Item) :
    outputs 1 (Item.container name [] items).steps
      = (Step.startTag name []).output 1 ++ String.join (items.map partText)
        ++ (Step.endTag name).output 2 := by
  rw [outputs_container, outputs_stepsAll]
  rfl

theorem render_eq_text (w : Workflow) (layout : Layout) :
    render w layout = (parts w layout).text := by
  have hopening : declared ++ "\n"
      ++ (Step.startTag "AlteryxDocument" [("yxmdVer", "2025.2")]).output 0
      ++ (Step.startTag "Nodes" []).output 1 = opening := by decide
  have hbetween : (Step.endTag "Nodes").output 2 ++ (Step.startTag "Connections" []).output 1
      = between := by decide
  have hconnections : (Step.endTag "Connections").output 2 = "  </Connections>\n" := by decide
  have hroot : (Step.endTag "AlteryxDocument").output 1 = "</AlteryxDocument>\n" := by decide
  rw [render_eq_declared, root, outputs_container, outputs_stepsAll, List.map_cons, List.map_cons,
    List.map_singleton, String.join_cons, String.join_cons, String.join_cons, String.join_nil,
    String.append_empty, outputs_list "Nodes", outputs_list "Connections", hroot, hconnections]
  unfold Parts.text closing
  -- the properties stand on both sides as they are: none of their lines is looked at
  rw [← hopening, ← hbetween]
  simp only [String.append_assoc]
  rfl

/-- the text of a child is read as its tree -/
theorem reads_partText {item : Item} (h : item.Readable isLeaf) :
    Reads (partText item) item.tree := by
  have hblanks : ([] : List Char).all isBlank = true := rfl
  have hread := forest?_outputs (Item.readable_steps item h) hblanks 2
  have hadd := addAll_steps item h Nest.empty []
  rw [List.append_nil] at hadd
  rw [hadd] at hread
  exact hread

/-- **A document falls into the texts of its nodes and connections.** -/
theorem split_render (w : Workflow) (layout : Layout) :
    Split (render w layout) (parts w layout) := by
  have hall : ∀ items : List Item, (∀ item ∈ items, item.Readable isLeaf) →
      List.Forall₂ Reads (items.map partText) (items.map Item.tree) := by
    intro items hitems
    rw [List.forall₂_map_left_iff, List.forall₂_map_right_iff]
    exact List.forall₂_same.mpr fun item hitem => reads_partText (hitems item hitem)
  refine ⟨render_eq_text w layout, (nodeItems w.nodes layout).map Item.tree,
    (wireItems w.links layout).map Item.tree, ?_, hall _ ?_, hall _ ?_⟩
  · rw [document?_render]
    unfold wireItems
    rw [List.map_map]
    rfl
  · intro item hitem
    obtain ⟨x, _, rfl⟩ := List.mem_map.mp hitem
    exact readable_nodeItem x.1 x.2
  · intro item hitem
    obtain ⟨wire, _, rfl⟩ := List.mem_map.mp hitem
    exact readable_wireItem wire

/-! ## what the parts look like -/

/-- a tool of this index; what stands behind its place does not depend on the index -/
def toolText (i : Nat) (kind : Kind) (rest : String) : String :=
  ("    <Node ToolID=\"" ++ toString (i + 1) ++ "\">\n")
    ++ ("      <GuiSettings Plugin=\"" ++ kind.plugin ++ "\">\n")
    ++ ("        <Position x=\"" ++ toString (54 + 150 * i) ++ "\" y=\"54\" />\n")
    ++ rest

/-- a comment in place of a tool -/
def commentLine (body : String) : String := "    <!-- " ++ body ++ " -->\n"

def wireText (w : Wire) : String :=
  "    <Connection>\n"
    ++ ("      <Origin ToolID=\"" ++ toString w.origin ++ "\" Connection=\""
      ++ escape w.originAnchor ++ "\" />\n")
    ++ ("      <Destination ToolID=\"" ++ toString w.destination ++ "\" Connection=\""
      ++ escape w.destinationAnchor ++ "\" />\n")
    ++ "    </Connection>\n"

/-- a text without reserved characters is written as it is -/
theorem escape_ofList {s : List Char} (h : escapeChars s = s) :
    escape (String.ofList s) = String.ofList s := by
  rw [escape_eq, String.toList_ofList, h]

theorem escapeChar_digit {c : Char} (h : c.isDigit = true) : escapeChar c = [c] := by
  unfold escapeChar
  split
  all_goals first | rfl | exact absurd h (by decide)

theorem escapeChars_toDigits (n : Nat) :
    escapeChars (Nat.toDigits 10 n) = Nat.toDigits 10 n := by
  have hdigits : ∀ c ∈ Nat.toDigits 10 n, escapeChar c = [c] := fun c hc =>
    escapeChar_digit (Nat.isDigit_of_mem_toDigits (by decide) (by decide) hc)
  rw [escapeChars, List.flatMap_congr hdigits, List.flatMap_singleton']

theorem escape_toString (n : Nat) : escape (toString n) = toString n := by
  have hdigits : toString n = String.ofList (Nat.toDigits 10 n) := by
    rw [← Nat.toList_repr, String.ofList_toList]
    rfl
  rw [hdigits]
  exact escape_ofList (escapeChars_toDigits n)

theorem escape_plugin (kind : Kind) : escape kind.plugin = kind.plugin := by
  cases kind <;> exact escape_ofList (by decide)

/-! ### lines -/

/-- a start tag with one attribute -/
theorem output_startTag (level : Nat) (name a x : String) :
    (Step.startTag name [(a, x)]).output level
      = indent level ++ ("<" ++ name ++ " " ++ a ++ "=\"") ++ escape x ++ "\">\n" := by
  apply String.toList_inj.mp
  simp [Step.output, Step.lineLevel, Step.markup, startMarkup, attrsMarkup, attrMarkup]

/-- an element without content, with two attributes -/
theorem outputs_pair (level : Nat) (name a x b y : String) :
    outputs level (Item.empty name [(a, x), (b, y)]).steps
      = indent level ++ ("<" ++ name ++ " " ++ a ++ "=\"") ++ escape x ++ ("\" " ++ b ++ "=\"")
        ++ escape y ++ "\" />\n" := by
  apply String.toList_inj.mp
  simp [Item.empty, Item.steps, outputs, Step.output, Step.lineLevel, Step.markup, emptyMarkup,
    attrsMarkup, attrMarkup]

theorem output_node (i : Nat) :
    (Step.startTag "Node" [("ToolID", toString (i + 1))]).output 2
      = "    <Node ToolID=\"" ++ toString (i + 1) ++ "\">\n" := by
  have hhead : indent 2 ++ ("<" ++ "Node" ++ " " ++ "ToolID" ++ "=\"")
      = "    <Node ToolID=\"" := by decide
  rw [output_startTag, hhead, escape_toString]

theorem output_guiSettings (kind : Kind) :
    (Step.startTag "GuiSettings" [("Plugin", kind.plugin)]).output 3
      = "      <GuiSettings Plugin=\"" ++ kind.plugin ++ "\">\n" := by
  have hhead : indent 3 ++ ("<" ++ "GuiSettings" ++ " " ++ "Plugin" ++ "=\"")
      = "      <GuiSettings Plugin=\"" := by decide
  rw [output_startTag, hhead, escape_plugin]

theorem outputs_position (i : Nat) :
    outputs 4 (positionItem (.ofIndex i)).steps
      = "        <Position x=\"" ++ toString (54 + 150 * i) ++ "\" y=\"54\" />\n" := by
  have hhead : indent 4 ++ ("<" ++ "Position" ++ " " ++ "x" ++ "=\"")
      = "        <Position x=\"" := by decide
  have htail : "\" " ++ "y" ++ "=\"" ++ (toString 54 ++ "\" />\n") = "\" y=\"54\" />\n" := by
    decide
  rw [positionItem, outputs_pair, hhead, Point.ofIndex, escape_toString, escape_toString, ← htail]
  simp only [String.append_assoc]

/-- an end of a connection; its element has the name that `head` begins with -/
theorem outputs_end {name head : String}
    (hhead : indent 3 ++ ("<" ++ name ++ " " ++ "ToolID" ++ "=\"") = head) (tool : Nat)
    (anchor : String) :
    outputs 3 (Item.empty name [("ToolID", toString tool), ("Connection", anchor)]).steps
      = head ++ toString tool ++ "\" Connection=\"" ++ escape anchor ++ "\" />\n" := by
  have hmiddle : "\" " ++ "Connection" ++ "=\"" = "\" Connection=\"" := by decide
  rw [outputs_pair, hhead, hmiddle, escape_toString]

/-! ### parts -/

/-- what stands behind the place of a tool -/
def toolRest (kind : Kind) (settings : Settings) : String :=
  (Step.endTag "GuiSettings").output 4
    ++ outputs 3 (Item.container "Properties" [] [
      .container "Configuration" settings.configurationAttrs settings.configuration,
      annotationItem settings.label]).steps
    ++ outputs 3 (engineItem kind).steps ++ (Step.endTag "Node").output 3

theorem partText_toolItem (i : Nat) (kind : Kind) (settings : Settings) (n : Node) :
    partText (toolItem kind settings (.ofNode i n)) = toolText i kind (toolRest kind settings) := by
  unfold partText toolItem
  rw [outputs_container, outputs_stepsAll, List.map_cons, List.map_cons, List.map_singleton,
    String.join_cons, String.join_cons, String.join_cons, String.join_nil, String.append_empty,
    outputs_container 3 "GuiSettings", Item.stepsAll, Item.stepsAll, List.append_nil]
  unfold toolText toolRest
  rw [← output_node, ← output_guiSettings, ← outputs_position]
  simp only [String.append_assoc]
  rfl

/-- the comment on a node of no known kind -/
def unmappedBody (n : Node) : String :=
  commentBody s!"UNMAPPED NODE: {n.kindName} - {n.source}"

theorem partText_unmappedItem (n : Node) :
    partText (unmappedItem n) = commentLine (unmappedBody n) := by
  apply String.toList_inj.mp
  simp [partText, unmappedItem, commentLine, unmappedBody, Item.steps, outputs, Step.output,
    Step.lineLevel, Step.markup, indent]

theorem partText_wireItem (w : Wire) : partText (wireItem w) = wireText w := by
  have hstart : (Step.startTag "Connection" []).output 2 = "    <Connection>\n" := by decide
  have hend : (Step.endTag "Connection").output 3 = "    </Connection>\n" := by decide
  have horigin : indent 3 ++ ("<" ++ "Origin" ++ " " ++ "ToolID" ++ "=\"")
      = "      <Origin ToolID=\"" := by decide
  have hdestination : indent 3 ++ ("<" ++ "Destination" ++ " " ++ "ToolID" ++ "=\"")
      = "      <Destination ToolID=\"" := by decide
  unfold partText wireItem wireText
  rw [outputs_container, outputs_stepsAll, List.map_cons, List.map_singleton, String.join_cons,
    String.join_cons, String.join_nil, String.append_empty, outputs_end horigin,
    outputs_end hdestination, hstart, hend]
  simp only [String.append_assoc]

/-! ### on the own layout -/

/-- what stands for the node of this index -/
def nodeText (i : Nat) (n : Node) : String :=
  match n.kind? with
  | some kind => toolText i kind (toolRest kind n.settings)
  | none => commentLine (unmappedBody n)

theorem nodeText_of_kind {n : Node} {kind : Kind} (h : n.kind? = some kind) (i : Nat) :
    nodeText i n = toolText i kind (toolRest kind n.settings) := by
  rw [nodeText, h]

theorem nodeText_of_unknown {n : Node} (h : n.kind? = none) (i : Nat) :
    nodeText i n = commentLine (unmappedBody n) := by
  rw [nodeText, h]

theorem partText_nodeItem (i : Nat) (n : Node) :
    partText (nodeItem n (.ofNode i n)) = nodeText i n := by
  unfold nodeItem nodeText
  cases n.kind? with
  | none => exact partText_unmappedItem n
  | some kind => exact partText_toolItem i kind n.settings n

section
variable (w : Workflow)

theorem split_compile : Split w.compile.document (parts w (.ofWorkflow w)) :=
  split_render w (.ofWorkflow w)

theorem nodes_parts :
    (parts w (.ofWorkflow w)).nodes = w.nodes.zipIdx.map fun x => nodeText x.2 x.1 := by
  unfold parts nodeItems
  rw [Layout.ofWorkflow, Layout.zip_ofNodes, List.map_map, List.map_map]
  exact List.map_congr_left fun x _ => partText_nodeItem x.2 x.1

theorem getElem?_nodes_parts {i : Nat} {n : Node} (hn : w.nodes[i]? = some n) :
    (parts w (.ofWorkflow w)).nodes[i]? = some (nodeText i n) := by
  rw [nodes_parts, List.getElem?_map, List.getElem?_zipIdx, hn, Nat.zero_add]
  rfl

theorem connections_parts (layout : Layout) :
    (parts w layout).connections = (layout.wires w.links).map wireText := by
  unfold parts wireItems
  rw [List.map_map]
  exact List.map_congr_left fun wire _ => partText_wireItem wire

end

end Document

end Toolflow
