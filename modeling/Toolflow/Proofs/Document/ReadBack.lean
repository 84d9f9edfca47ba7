import Toolflow.Document.Basic
import Toolflow.Proofs.Workflow.Reading
import Toolflow.Proofs.Xml.ReadBack

/-!
# A document is read back

What a plain reader of XML finds in a document, whatever the workflow and whatever the workflow
that the layout was made for.

* `isLeaf`             the elements of a document that hold a text;
* `Settings.content`, `attributes`, `caption`   what stands in and at the `Configuration` of a
                       tool, and what annotates it, with the raw strings;
* `toolTree`, `unmappedTree`, `wireTree`, `propertiesTree`   the trees that stand in a document;
* `readable_root`      the document is written from names, and its leaves are the ones of `isLeaf`;
* `render_read_back`   the document of a value is read as these trees, in the order of the nodes
                       and of the links.

A reader cannot tell an empty element that was written on two lines from a leaf with a blank text
unless it knows which elements are leaves; `isLeaf` is all it needs to know about documents.
-/

namespace Toolflow

open Xml

/-! ## trees -/

namespace Xml.Tree

def empty (name : String) (attrs : List Attr) : Tree := element name attrs []

/-- an element whose content is its one attribute -/
def value (name text : String) : Tree := empty name [("value", text)]

/-- an element with a text, without content where the text is empty -/
def leaf (name : String) (attrs : List Attr) (text : String) : Tree :=
  element name attrs (if text = "" then [] else [.text text])

end Xml.Tree

/-- the file that is read or written, with the code of its format -/
def fileTree (name : String) : Tree :=
  .leaf "File" [("FileFormat", toString (FileFormat.ofName name).code)] name

def groupTree (field : String) : Tree :=
  .empty "SummarizeField" [("field", field), ("action", "GroupBy"), ("rename", field)]

def Aggregation.tree (a : Aggregation) : Tree :=
  .empty "SummarizeField"
    [("field", plain a.field), ("action", plain a.action), ("rename", a.result)]

def Assignment.tree (a : Assignment) : Tree :=
  .empty "FormulaField" [("expression", plain a.expression), ("field", plain a.field),
    ("size", "1073741823"), ("type", "V_WString")]

def SortTerm.tree (t : SortTerm) : Tree :=
  .empty "Field" [("field", plain t.field), ("order", plain t.order)]

def Match.tree (m : Match) : Tree :=
  .empty "JoinField" [("LeftField", plain m.left), ("RightField", plain m.right)]

def Column.tree (c : Column) : Tree :=
  .empty "SelectField"
    [("field", plain c.field), ("selected", if c.isSelected then "True" else "False")]

def uniqueTree (field : String) : Tree := .empty "Field" [("field", field)]

namespace Settings

/-- the content of the tool's `Configuration` -/
def content : Settings → List Tree
  | input table => [fileTree (inputFile table),
    .element "FormatSpecificOptions" [] [.leaf "HeaderRow" [] "True", .leaf "FieldLen" [] "254",
      .leaf "Delimeter" [] ",", .leaf "IgnoreQuotes" [] "DoubleQuotes"]]
  | output table => [fileTree (outputFile table),
    .element "FormatSpecificOptions" []
      [.leaf "PreserveFormat" [] "True", .leaf "SingleFile" [] "True"],
    .value "MultiFile" "False"]
  | filter expression =>
    [.leaf "Expression" [] (filterExpression expression), .leaf "Mode" [] "Custom"]
  | summarize groups aggregations =>
    [.element "SummarizeFields" [] (groups.map groupTree ++ aggregations.map Aggregation.tree)]
  | formula assignments => [.element "FormulaFields" [] (assignments.map Assignment.tree)]
  | sort terms => [.element "SortInfo" [] (terms.map SortTerm.tree)]
  | join pairs => [.element "JoinFields" [] (pairs.map Match.tree)]
  | select columns => [.element "SelectFields" [] (columns.map Column.tree)]
  | sample count method => [.leaf "Mode" [] (sampleMethod method),
    .leaf "N" [] (toString (sampleCount count).toNat)]
  | unique fields => [.element "UniqueFields" [] (fields.map uniqueTree)]
  | unmapped => []

/-- the attributes of the tool's `Configuration` -/
def attributes : Settings → List Attr
  | join _ => [("joinByRecordPos", "False")]
  | input _ | output _ | filter _ | summarize _ _ | formula _ | sort _ | select _ | sample _ _
  | unique _ | unmapped => []

/-- the text that annotates the tool -/
def caption : Settings → String
  | input table => inputFile table
  | output table => outputFile table
  | filter expression => filterExpression expression
  | formula [] => "Formula"
  | formula (first :: _) => plain first.field ++ " = " ++ plain first.expression
  | summarize _ _ | sort _ | join _ | select _ | sample _ _ | unique _ | unmapped => ""

theorem configurationAttrs_eq (s : Settings) : s.configurationAttrs = s.attributes := by
  cases s <;> rfl

theorem label_eq (s : Settings) : s.label = s.caption := by
  cases s with
  | formula assignments => cases assignments <;> rfl
  | _ => rfl

theorem trees_entries {α : Type} (name : String) (item : α → Item) (entries : List α) :
    Item.trees [.container name [] (entries.map item)]
      = [.element name [] (entries.map fun a => (item a).tree)] := by
  show [Tree.element name [] (Item.trees (entries.map item))] = _
  rw [Item.trees_eq_map, List.map_map]
  rfl

theorem trees_configuration (s : Settings) : Item.trees s.configuration = s.content := by
  cases s with
  | input table => rfl
  | output table => rfl
  | filter expression => rfl
  | summarize groups aggregations =>
    have h := Item.trees_eq_map (groups.map groupItem ++ aggregations.map Aggregation.item)
    rw [List.map_append, List.map_map, List.map_map] at h
    exact congrArg (fun l => [Tree.element "SummarizeFields" [] l]) h
  | formula assignments => exact trees_entries "FormulaFields" Assignment.item assignments
  | sort terms => exact trees_entries "SortInfo" SortTerm.item terms
  | join pairs => exact trees_entries "JoinFields" Match.item pairs
  | select columns => exact trees_entries "SelectFields" Column.item columns
  | sample count method => rfl
  | unique fields => exact trees_entries "UniqueFields" uniqueItem fields
  | unmapped => rfl

end Settings

namespace Document

/-- the annotation of a tool -/
def annotationTree (label : String) : Tree :=
  .element "Annotation" [("DisplayMode", "0")]
    [.empty "Name" [], .leaf "DefaultAnnotationText" [] label, .value "Left" "False"]

/-- the tool of this index, which is of this kind -/
def toolTree (index : Nat) (kind : Kind) (settings : Settings) : Tree :=
  .element "Node" [("ToolID", toString (index + 1))] [
    .element "GuiSettings" [("Plugin", kind.plugin)]
      [.empty "Position" [("x", toString (54 + 150 * index)), ("y", "54")]],
    .element "Properties" [] [
      .element "Configuration" settings.attributes settings.content,
      annotationTree settings.caption],
    .empty "EngineSettings" [("EngineDll", "AlteryxBasePluginsEngine.dll"),
      ("EngineDllEntryPoint", kind.entryPoint)]]

/-- the comment in place of a tool of no known kind -/
def unmappedTree (n : Node) : Tree :=
  .comment (Xml.commentText ("UNMAPPED NODE: " ++ n.kindName ++ " - " ++ n.source))

def wireTree (w : Wire) : Tree :=
  .element "Connection" [] [
    .empty "Origin" [("ToolID", toString w.origin), ("Connection", w.originAnchor)],
    .empty "Destination" [("ToolID", toString w.destination),
      ("Connection", w.destinationAnchor)]]

def metaInfoTree : Tree :=
  .element "MetaInfo" [] [
    .value "NameIsFileName" "True", .empty "Description" [], .empty "RootToolName" [],
    .empty "ToolVersion" [], .value "ToolInDb" "False", .empty "CategoryName" [],
    .empty "SearchTags" [], .leaf "Author" [] "Workflow Migrator", .empty "Company" [],
    .empty "Copyright" []]

def propertiesTree : Tree :=
  .element "Properties" [] [
    .empty "Memory" [("default", "True")], .value "GlobalRecordLimit" "0",
    .empty "TempFiles" [("default", "True")],
    .empty "Annotation" [("on", "True"), ("includeToolName", "False")],
    .value "ConvErrorLimit" "10", .value "ConvErrorLimit_Stop" "False",
    .value "CancelOnError" "False", .value "DisableBrowse" "False",
    .value "EnablePerformanceProfiling" "False", .value "PredictiveToolsCodePage" "1252",
    .value "DisableAllOutput" "False", .value "ShowAllMacroMessages" "False",
    .value "ShowConnectionStatusIsOn" "True", .value "ShowConnectionStatusOnlyWhenRunning" "True",
    .value "ZoomLevel" "0", .leaf "LayoutType" [] "Horizontal", metaInfoTree,
    .element "Events" [] [.value "Enabled" "True"]]

theorem tree_toolItem (index : Nat) (kind : Kind) (settings : Settings) (m : Node) :
    (toolItem kind settings (.ofNode index m)).tree = toolTree index kind settings := by
  have hy : toString (54 : Nat) = "54" := by decide
  unfold toolTree
  rw [← settings.trees_configuration, ← settings.configurationAttrs_eq, ← settings.label_eq,
    ← hy]
  rfl

theorem tree_unmappedItem (n : Node) : (unmappedItem n).tree = unmappedTree n := by
  unfold unmappedTree unmappedItem
  rw [Item.tree]
  simp [toString]

theorem tree_properties : properties.tree = propertiesTree := rfl

/-! ## names -/

/-- the elements that hold a text -/
def isLeaf (name : String) : Bool :=
  ["File", "HeaderRow", "FieldLen", "Delimeter", "IgnoreQuotes", "PreserveFormat", "SingleFile",
    "Expression", "Mode", "N", "DefaultAnnotationText", "LayoutType", "Author"].contains name

theorem readable_fileItem (name : String) : (fileItem name).Readable isLeaf := by
  rw [fileItem, Item.readable_leaf_iff, namedAttrs_cons]
  exact ⟨isName_ofList (by decide), ⟨isName_ofList (by decide), namedAttrs_nil⟩,
    fun _ => by simp [isLeaf]⟩

theorem readable_summarizeField (field action result : String) :
    (Item.empty "SummarizeField"
      [("field", field), ("action", action), ("rename", result)]).Readable isLeaf := by
  rw [Item.readable_empty_iff, namedAttrs_cons, namedAttrs_cons, namedAttrs_cons]
  exact ⟨isName_ofList (by decide), isName_ofList (by decide), isName_ofList (by decide),
    isName_ofList (by decide), namedAttrs_nil⟩

theorem readable_assignment (a : Assignment) : a.item.Readable isLeaf := by
  rw [Assignment.item, Item.readable_empty_iff, namedAttrs_cons, namedAttrs_cons,
    namedAttrs_cons, namedAttrs_cons]
  exact ⟨isName_ofList (by decide), isName_ofList (by decide), isName_ofList (by decide),
    isName_ofList (by decide), isName_ofList (by decide), namedAttrs_nil⟩

/-- an entry that says two things -/
theorem readable_pair {name a b : String} (hname : isName name.toList = true)
    (ha : isName a.toList = true) (hb : isName b.toList = true) (x y : String) :
    (Item.empty name [(a, x), (b, y)]).Readable isLeaf := by
  rw [Item.readable_empty_iff, namedAttrs_cons, namedAttrs_cons]
  exact ⟨hname, ha, hb, namedAttrs_nil⟩

theorem readable_sortTerm (t : SortTerm) : t.item.Readable isLeaf :=
  readable_pair (isName_ofList (by decide)) (isName_ofList (by decide))
    (isName_ofList (by decide)) _ _

theorem readable_match (m : Match) : m.item.Readable isLeaf :=
  readable_pair (isName_ofList (by decide)) (isName_ofList (by decide))
    (isName_ofList (by decide)) _ _

theorem readable_column (c : Column) : c.item.Readable isLeaf :=
  readable_pair (isName_ofList (by decide)) (isName_ofList (by decide))
    (isName_ofList (by decide)) _ _

theorem readable_uniqueItem (field : String) : (uniqueItem field).Readable isLeaf := by
  rw [uniqueItem, Item.readable_empty_iff, namedAttrs_cons]
  exact ⟨isName_ofList (by decide), isName_ofList (by decide), namedAttrs_nil⟩

/-- an element that holds one element for each entry -/
theorem readable_entries {α : Type} {name : String} (hname : isName name.toList = true)
    (hleaf : isLeaf name = false) {item : α → Item} (hitem : ∀ a, (item a).Readable isLeaf)
    (entries : List α) : (Item.container name [] (entries.map item)).Readable isLeaf := by
  rw [Item.readable_container_iff]
  refine ⟨hname, namedAttrs_nil, hleaf, fun i hi => ?_⟩
  obtain ⟨a, _, rfl⟩ := List.mem_map.mp hi
  exact hitem a

theorem readable_configuration (s : Settings) :
    ∀ item ∈ s.configuration, item.Readable isLeaf := by
  cases s with
  | input table =>
    simp only [Settings.configuration, inputItems, List.forall_mem_cons, readable_fileItem,
      Item.readable_container_iff, Item.readable_leaf_iff, namedAttrs_nil, List.not_mem_nil]
    and_intros
    all_goals first | with_reducible exact isName_ofList (by decide) | simp [isLeaf]
  | output table =>
    simp only [Settings.configuration, outputItems, List.forall_mem_cons, readable_fileItem,
      Item.readable_container_iff, Item.readable_leaf_iff, Item.readable_value_iff,
      namedAttrs_nil, List.not_mem_nil]
    and_intros
    all_goals first | with_reducible exact isName_ofList (by decide) | simp [isLeaf]
  | filter expression =>
    simp only [Settings.configuration, List.forall_mem_cons, Item.readable_leaf_iff,
      namedAttrs_nil, List.not_mem_nil]
    and_intros
    all_goals first | with_reducible exact isName_ofList (by decide) | simp [isLeaf]
  | summarize groups aggregations =>
    rw [Settings.configuration, List.forall_mem_singleton, Item.readable_container_iff]
    refine ⟨isName_ofList (by decide), namedAttrs_nil, by simp [isLeaf], fun i hi => ?_⟩
    rcases List.mem_append.mp hi with hi | hi
    · obtain ⟨field, _, rfl⟩ := List.mem_map.mp hi
      exact readable_summarizeField field "GroupBy" field
    · obtain ⟨a, _, rfl⟩ := List.mem_map.mp hi
      exact readable_summarizeField _ _ _
  | formula assignments =>
    rw [Settings.configuration, List.forall_mem_singleton]
    exact readable_entries (isName_ofList (by decide)) (by simp [isLeaf]) readable_assignment _
  | sort terms =>
    rw [Settings.configuration, List.forall_mem_singleton]
    exact readable_entries (isName_ofList (by decide)) (by simp [isLeaf]) readable_sortTerm _
  | join pairs =>
    rw [Settings.configuration, List.forall_mem_singleton]
    exact readable_entries (isName_ofList (by decide)) (by simp [isLeaf]) readable_match _
  | select columns =>
    rw [Settings.configuration, List.forall_mem_singleton]
    exact readable_entries (isName_ofList (by decide)) (by simp [isLeaf]) readable_column _
  | sample count method =>
    simp only [Settings.configuration, List.forall_mem_cons, Item.readable_leaf_iff,
      namedAttrs_nil, List.not_mem_nil]
    and_intros
    all_goals first | with_reducible exact isName_ofList (by decide) | simp [isLeaf]
  | unique fields =>
    rw [Settings.configuration, List.forall_mem_singleton]
    exact readable_entries (isName_ofList (by decide)) (by simp [isLeaf]) readable_uniqueItem _
  | unmapped => exact fun _ hi => absurd hi List.not_mem_nil

theorem namedAttrs_configurationAttrs (s : Settings) : NamedAttrs s.configurationAttrs := by
  cases s with
  | join pairs =>
    rw [Settings.configurationAttrs, namedAttrs_cons]
    exact ⟨isName_ofList (by decide), namedAttrs_nil⟩
  | _ => exact namedAttrs_nil

theorem readable_nodeItem (n : Node) (p : Placement) : (nodeItem n p).Readable isLeaf := by
  unfold nodeItem
  cases n.kind? with
  | none => exact Item.readable_comment
  | some kind =>
    simp only [toolItem, positionItem, annotationItem, engineItem, Item.readable_container_iff,
      Item.readable_leaf_iff, Item.readable_empty_iff, Item.readable_value_iff, namedAttrs_cons,
      namedAttrs_nil, List.forall_mem_cons, List.not_mem_nil]
    and_intros
    all_goals first
      | with_reducible exact isName_ofList (by decide)
      | exact readable_configuration n.settings
      | exact namedAttrs_configurationAttrs n.settings
      | simp [isLeaf]

theorem readable_wireItem (w : Wire) : (wireItem w).Readable isLeaf := by
  simp only [wireItem, Item.readable_container_iff, Item.readable_empty_iff, namedAttrs_cons,
    namedAttrs_nil, List.forall_mem_cons, List.not_mem_nil]
  and_intros
  all_goals first | with_reducible exact isName_ofList (by decide) | simp [isLeaf]

theorem readable_properties : properties.Readable isLeaf := by
  simp only [properties, metaInfo, Item.readable_container_iff, Item.readable_leaf_iff,
    Item.readable_empty_iff, Item.readable_value_iff, namedAttrs_cons, namedAttrs_nil,
    List.forall_mem_cons, List.not_mem_nil]
  and_intros
  all_goals first | with_reducible exact isName_ofList (by decide) | simp [isLeaf]

theorem readable_root (w : Workflow) (layout : Layout) : (root w layout).Readable isLeaf := by
  rw [root, Item.readable_container_iff, namedAttrs_cons]
  refine ⟨isName_ofList (by decide), ⟨isName_ofList (by decide), namedAttrs_nil⟩,
    by simp [isLeaf], ?_⟩
  rw [List.forall_mem_cons, List.forall_mem_cons, List.forall_mem_singleton]
  refine ⟨?_, ?_, readable_properties⟩
  · exact readable_entries (isName_ofList (by decide)) (by simp [isLeaf])
      (fun x : Node × Placement => readable_nodeItem x.1 x.2) _
  · exact readable_entries (isName_ofList (by decide)) (by simp [isLeaf]) readable_wireItem _

/-! ## whole documents -/

theorem render_eq_declared (w : Workflow) (layout : Layout) :
    render w layout = declared ++ "\n" ++ outputs 0 (root w layout).steps := by
  have hline : declaration.output 0 = declared ++ "\n" := by
    unfold declaration Step.output
    simp [indent, Step.lineLevel, Step.markup, declared]
  rw [render_eq, outputs, hline]
  rfl

theorem document?_render (w : Workflow) (layout : Layout) :
    document? isLeaf (render w layout) = some (.element "AlteryxDocument"
      [("yxmdVer", "2025.2")] [
        .element "Nodes" [] ((nodeItems w.nodes layout).map Item.tree),
        .element "Connections" [] ((layout.wires w.links).map wireTree),
        propertiesTree]) := by
  have hroot := readable_root w layout
  have hwires : (wireItems w.links layout).map Item.tree
      = (layout.wires w.links).map wireTree := by
    unfold wireItems
    rw [List.map_map]
    rfl
  rw [render_eq_declared]
  unfold root at hroot ⊢
  rw [document?_outputs hroot, ← hwires, ← tree_properties]
  simp only [List.map_cons, List.map_nil, Item.tree, Item.trees_eq_map]

theorem getElem?_nodeItems {nodes : List Node} {v : Workflow} {i : Nat} {n : Node}
    (hn : nodes[i]? = some n) (hi : i < (Layout.ofWorkflow v).tools.length) :
    ∃ m, (nodeItems nodes (.ofWorkflow v))[i]? = some (nodeItem n (.ofNode i m)) := by
  have hlen : i < v.nodes.length := by
    rw [Layout.ofWorkflow, Layout.length_ofNodes] at hi
    exact hi
  have htool : (Layout.ofWorkflow v).tools[i]? = some (.ofNode i v.nodes[i]) := by
    rw [Layout.ofWorkflow, Layout.getElem?_ofNodes, List.getElem?_eq_getElem hlen]
    rfl
  have hpair : (nodes.zip (Layout.ofWorkflow v).tools)[i]? = some (n, .ofNode i v.nodes[i]) :=
    List.getElem?_zip_eq_some.mpr ⟨hn, htool⟩
  refine ⟨v.nodes[i], ?_⟩
  unfold nodeItems
  rw [List.getElem?_map, hpair]
  rfl

/-- **The document of an accepted workflow is read back.** -/
theorem render_read_back {value : Json} {w : Workflow} (h : Workflow.ofJson value = .ok w)
    (v : Workflow) :
    ∃ nodes,
      document? isLeaf (render w (.ofWorkflow v)) = some (.element "AlteryxDocument"
        [("yxmdVer", "2025.2")] [
          .element "Nodes" [] nodes,
          .element "Connections" [] (((Layout.ofWorkflow v).wires w.links).map wireTree),
          propertiesTree]) ∧
      nodes.length = min w.nodes.length (Layout.ofWorkflow v).tools.length ∧
      ∀ i n, w.nodes[i]? = some n → i < (Layout.ofWorkflow v).tools.length →
        (∀ kind : Kind, n.kindName = kind.name →
          n.settings.kind? = some kind ∧ nodes[i]? = some (toolTree i kind n.settings)) ∧
        ((∀ kind : Kind, n.kindName ≠ kind.name) → nodes[i]? = some (unmappedTree n)) := by
  refine ⟨_, document?_render w (.ofWorkflow v), ?_, ?_⟩
  · rw [List.length_map, length_nodeItems]
  · intro i n hn hi
    have hkind : n.kind? = Kind.ofName? n.kindName :=
      Workflow.kind?_of_ofJson h n (List.mem_of_getElem? hn)
    obtain ⟨m, hitem⟩ := getElem?_nodeItems (v := v) hn hi
    rw [List.getElem?_map, hitem, Option.map_some]
    unfold nodeItem
    constructor
    · intro kind hname
      have hsome : n.kind? = some kind := by
        rw [hkind]
        exact Kind.ofName?_eq_some_iff.mpr hname
      rw [hsome]
      exact ⟨hsome, congrArg some (tree_toolItem i kind n.settings m)⟩
    · intro hname
      have hnone : n.kind? = none := by
        rw [hkind]
        exact Kind.ofName?_eq_none_iff.mpr hname
      rw [hnone]
      exact congrArg some (tree_unmappedItem n)

theorem render_read_back_tangled : Workflow.ofJson tangled = .ok tangledWorkflow ∧
    ∃ nodes,
      document? isLeaf (render tangledWorkflow (.ofWorkflow tangledWorkflow)) = some (.element
        "AlteryxDocument" [("yxmdVer", "2025.2")] [
          .element "Nodes" [] nodes,
          .element "Connections" []
            (((Layout.ofWorkflow tangledWorkflow).wires tangledWorkflow.links).map wireTree),
          propertiesTree]) ∧
      nodes.length
        = min tangledWorkflow.nodes.length (Layout.ofWorkflow tangledWorkflow).tools.length ∧
      ∀ i n, tangledWorkflow.nodes[i]? = some n →
        i < (Layout.ofWorkflow tangledWorkflow).tools.length →
        (∀ kind : Kind, n.kindName = kind.name →
          n.settings.kind? = some kind ∧ nodes[i]? = some (toolTree i kind n.settings)) ∧
        ((∀ kind : Kind, n.kindName ≠ kind.name) → nodes[i]? = some (unmappedTree n)) :=
  ⟨ofJson_tangled, render_read_back ofJson_tangled tangledWorkflow⟩

end Document

end Toolflow
