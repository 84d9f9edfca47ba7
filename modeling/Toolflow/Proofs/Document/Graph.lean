import Toolflow.Proofs.Document.ReadBack
import Toolflow.Proofs.Workflow.Codes
import Toolflow.Proofs.Xml.Elements

/-!
# The drawn graph

A document numbers its tools by the place of a node in the list and its connections by looking
names up, and the two are written in different passes.  Here the elements of a document are looked
for wherever they stand, and what is printed on them is compared.

* `toolElements`, `plugin?`, `position?`   what a document says about the tool of a number;
* `Notice.reports`     a tool that is reported instead of drawn;
* `Meant`              the tool of a number is the one that a name means, and it is drawn or
                       reported, once and not both;
* `Draws`              a connection element joins the tools that the ends of a link mean, and it
                       leaves where the plugin on the tool says;
* `graph_drawn_as_meant`   every connection of a document draws a link in this way, every link
                       between nodes has one, and no two nodes are one tool.

`named_node` and `named_connection` are what the search finds: of a tool the element of its node,
and nothing inside of it.
-/

namespace Toolflow

open Xml

/-! ## what a document says about a tool -/

namespace Document

/-- the elements that draw the tool of this number -/
def toolElements (doc : Tree) (tool : Nat) : List Tree :=
  (doc.named "Node").filter fun node => node.attr? "ToolID" = some (toString tool)

/-- the plugin that is printed on a tool -/
def plugin? (node : Tree) : Option String :=
  (node.named "GuiSettings").head?.bind (·.attr? "Plugin")

/-- the place that is printed on a tool -/
def position? (node : Tree) : Option (String × String) :=
  (node.named "Position").head?.bind fun p =>
    (p.attr? "x").bind fun x => (p.attr? "y").map (x, ·)

/-- where connections leave a tool with this plugin, or without one -/
def anchorOfPlugin (plugin : Option String) : String :=
  if plugin = some Kind.filter.plugin then "True"
  else if plugin = some Kind.join.plugin then "Join"
  else if plugin = some Kind.unique.plugin then "Unique"
  else "Output"

theorem outputAnchorOf_eq (kind? : Option Kind) :
    outputAnchorOf kind? = anchorOfPlugin (kind?.map Kind.plugin) := by
  cases kind? with
  | none => rfl
  | some kind => cases kind <;> rfl

end Document

/-- the notice says that the tool of this number is of no known kind -/
def Notice.reports (tool : Nat) : Notice → Bool
  | unmapped t _ => t = tool
  | _ => false

namespace Document

/-! ## where the elements of a document stand -/

section
variable {name n : String} {attrs : List Attr}

theorem named_leaf (h : n ≠ name) (text : String) : (Tree.leaf n attrs text).named name = [] := by
  unfold Tree.leaf
  rw [Tree.named_of_ne h]
  split <;> rfl

theorem named_empty (h : n ≠ name) : (Tree.empty n attrs).named name = [] :=
  Tree.named_of_ne h

theorem named_value (h : n ≠ name) (text : String) : (Tree.value n text).named name = [] :=
  named_empty h

/-- an element that holds one element for each entry -/
theorem named_entries {α : Type} (h : n ≠ name) {tree : α → Tree}
    (htree : ∀ a, (tree a).named name = []) (entries : List α) :
    (Tree.element n attrs (entries.map tree)).named name = [] := by
  rw [Tree.named_of_ne h]
  refine Tree.allNamed_eq_nil fun t ht => ?_
  obtain ⟨a, _, rfl⟩ := List.mem_map.mp ht
  exact htree a

theorem named_groupTree (h : "SummarizeField" ≠ name) (field : String) :
    (groupTree field).named name = [] :=
  named_empty h

theorem named_aggregation (h : "SummarizeField" ≠ name) (a : Aggregation) :
    a.tree.named name = [] :=
  named_empty h

/-- no setting is drawn as a tool or as a connection -/
theorem named_content (hname : name = "Node" ∨ name = "Connection") (s : Settings) :
    Tree.allNamed name s.content = [] := by
  cases s with
  | input table =>
    rcases hname with rfl | rfl <;>
      simp [Settings.content, Tree.allNamed, fileTree, named_leaf, Tree.named_of_ne]
  | output table =>
    rcases hname with rfl | rfl <;>
      simp [Settings.content, Tree.allNamed, fileTree, named_leaf, named_value, Tree.named_of_ne]
  | filter expression =>
    rcases hname with rfl | rfl <;> simp [Settings.content, Tree.allNamed, named_leaf]
  | summarize groups aggregations =>
    rcases hname with rfl | rfl <;>
      simp [Settings.content, Tree.named_of_ne, Tree.allNamed_eq_flatMap, named_groupTree,
        named_aggregation]
  | formula assignments =>
    rcases hname with rfl | rfl <;>
      simp [Settings.content, Tree.allNamed, named_entries, Assignment.tree, named_empty]
  | sort terms =>
    rcases hname with rfl | rfl <;>
      simp [Settings.content, Tree.allNamed, named_entries, SortTerm.tree, named_empty]
  | join pairs =>
    rcases hname with rfl | rfl <;>
      simp [Settings.content, Tree.allNamed, named_entries, Match.tree, named_empty]
  | select columns =>
    rcases hname with rfl | rfl <;>
      simp [Settings.content, Tree.allNamed, named_entries, Column.tree, named_empty]
  | sample count method =>
    rcases hname with rfl | rfl <;> simp [Settings.content, Tree.allNamed, named_leaf]
  | unique fields =>
    rcases hname with rfl | rfl <;>
      simp [Settings.content, Tree.allNamed, named_entries, uniqueTree, named_empty]
  | unmapped => rfl

end

theorem plugin?_toolTree (i : Nat) (kind : Kind) (s : Settings) :
    plugin? (toolTree i kind s) = some kind.plugin := rfl

theorem position?_toolTree (i : Nat) (kind : Kind) (s : Settings) :
    position? (toolTree i kind s) = some (toString (54 + 150 * i), "54") := rfl

theorem attr?_toolTree (i : Nat) (kind : Kind) (s : Settings) :
    (toolTree i kind s).attr? "ToolID" = some (toString (i + 1)) := rfl

theorem named_toolTree (i : Nat) (kind : Kind) (s : Settings) :
    (toolTree i kind s).named "Node" = [toolTree i kind s] := by
  have hinside : Tree.allNamed "Node" s.content = [] := named_content (.inl rfl) s
  rw [toolTree, Tree.named_self]
  simp [Tree.allNamed, Tree.named_of_ne, annotationTree, named_leaf, named_value, named_empty,
    hinside]

theorem named_toolTree_connection (i : Nat) (kind : Kind) (s : Settings) :
    (toolTree i kind s).named "Connection" = [] := by
  have hinside : Tree.allNamed "Connection" s.content = [] := named_content (.inr rfl) s
  rw [toolTree]
  simp [Tree.allNamed, Tree.named_of_ne, annotationTree, named_leaf, named_value, named_empty,
    hinside]

theorem named_propertiesTree {name : String} (hname : name = "Node" ∨ name = "Connection") :
    propertiesTree.named name = [] := by
  rcases hname with rfl | rfl <;> rfl

/-! ## the elements of a document -/

/-- what stands for the node of this index -/
def nodeTree (i : Nat) (n : Node) : Tree :=
  match n.kind? with
  | some kind => toolTree i kind n.settings
  | none => unmappedTree n

/-- the kind and the settings of a node that is drawn -/
def drawn? (n : Node) : Option (Kind × Settings) := n.kind?.map (·, n.settings)

theorem tree_nodeItem (i : Nat) (n : Node) : (nodeItem n (.ofNode i n)).tree = nodeTree i n := by
  unfold nodeItem nodeTree
  cases n.kind? with
  | none => exact tree_unmappedItem n
  | some kind => exact tree_toolItem i kind n.settings n

theorem map_tree_nodeItems (nodes : List Node) :
    (nodeItems nodes (.ofNodes nodes)).map Item.tree
      = nodes.zipIdx.map fun x => nodeTree x.2 x.1 := by
  rw [nodeItems, Layout.zip_ofNodes, List.map_map, List.map_map]
  exact List.map_congr_left fun x _ => tree_nodeItem x.2 x.1

/-- the document of a workflow on its own layout -/
def documentTree (w : Workflow) : Tree :=
  .element "AlteryxDocument" [("yxmdVer", "2025.2")] [
    .element "Nodes" [] (w.nodes.zipIdx.map fun x => nodeTree x.2 x.1),
    .element "Connections" [] (((Layout.ofWorkflow w).wires w.links).map wireTree),
    propertiesTree]

theorem document?_compile (w : Workflow) :
    document? isLeaf w.compile.document = some (documentTree w) := by
  show document? isLeaf (render w (.ofNodes w.nodes)) = _
  rw [document?_render, map_tree_nodeItems]
  rfl

theorem named_documentTree {name : String} (hname : name = "Node" ∨ name = "Connection")
    (w : Workflow) :
    (documentTree w).named name
      = Tree.allNamed name (w.nodes.zipIdx.map fun x => nodeTree x.2 x.1)
        ++ Tree.allNamed name (((Layout.ofWorkflow w).wires w.links).map wireTree) := by
  have hproperties := named_propertiesTree hname
  rcases hname with rfl | rfl <;>
    simp [documentTree, Tree.named_of_ne, Tree.allNamed, hproperties]

/-- the drawn tools are the nodes of a known kind, each with its own number -/
theorem named_node (w : Workflow) :
    (documentTree w).named "Node"
      = (numbered drawn? w.nodes).map fun x => toolTree x.1 x.2.1 x.2.2 := by
  have hwires : Tree.allNamed "Node" (((Layout.ofWorkflow w).wires w.links).map wireTree) = [] :=
    Tree.allNamed_eq_nil fun t ht => by
      obtain ⟨wire, _, rfl⟩ := List.mem_map.mp ht
      rfl
  rw [named_documentTree (.inl rfl), hwires, List.append_nil,
    ← filterMap_zipIdx drawn? (fun i d => toolTree i d.1 d.2), Tree.allNamed_eq_flatMap,
    List.flatMap_map, List.filterMap_eq_flatMap_toList]
  refine congrArg (List.flatMap · w.nodes.zipIdx) (funext fun x => ?_)
  unfold nodeTree drawn?
  cases x.1.kind? with
  | none => exact Tree.named_comment _
  | some kind => exact named_toolTree x.2 kind x.1.settings

/-- the drawn connections are the wires -/
theorem named_connection (w : Workflow) :
    (documentTree w).named "Connection"
      = ((Layout.ofWorkflow w).wires w.links).map wireTree := by
  have hnodes : Tree.allNamed "Connection" (w.nodes.zipIdx.map fun x => nodeTree x.2 x.1) = [] :=
    Tree.allNamed_eq_nil fun t ht => by
      obtain ⟨x, _, rfl⟩ := List.mem_map.mp ht
      unfold nodeTree
      cases x.1.kind? with
      | none => exact Tree.named_comment _
      | some kind => exact named_toolTree_connection x.2 kind x.1.settings
  rw [named_documentTree (.inr rfl), hnodes, List.nil_append, Tree.allNamed_eq_flatMap,
    List.flatMap_map]
  exact List.map_eq_flatMap.symm

/-! ## one tool -/

/-- two numbers are not printed alike -/
theorem toString_injective {m n : Nat} (h : toString m = toString n) : m = n := by
  have hdigits : Nat.toDigits 10 m = Nat.toDigits 10 n := by
    rw [← Nat.toList_repr, ← Nat.toList_repr]
    exact congrArg String.toList h
  have hm := Nat.ofDigitChars_toDigits (n := m) (by decide : 1 < 10) (Nat.le_refl 10)
  have hn := Nat.ofDigitChars_toDigits (n := n) (by decide : 1 < 10) (Nat.le_refl 10)
  rw [← hm, ← hn, hdigits]

theorem attr?_toolTree_eq_iff (i j : Nat) (kind : Kind) (s : Settings) :
    (toolTree i kind s).attr? "ToolID" = some (toString (j + 1)) ↔ i = j := by
  rw [attr?_toolTree, Option.some.injEq]
  constructor
  · exact fun h => Nat.succ.inj (toString_injective h)
  · exact fun h => by rw [h]

/-- the element of a tool is that of the node of its index, if that is of a known kind -/
theorem toolElements_documentTree (w : Workflow) (i : Nat) :
    toolElements (documentTree w) (i + 1)
      = ((w.nodes[i]?.bind drawn?).map fun d => toolTree i d.1 d.2).toList := by
  have hnumber : ((fun node : Tree => decide (node.attr? "ToolID" = some (toString (i + 1))))
      ∘ fun x : Nat × Kind × Settings => toolTree x.1 x.2.1 x.2.2) = fun x => decide (x.1 = i) :=
    funext fun x => decide_eq_decide.mpr (attr?_toolTree_eq_iff x.1 i x.2.1 x.2.2)
  rw [toolElements, named_node, List.filter_map, hnumber, filter_numbered]
  cases w.nodes[i]?.bind drawn? <;> rfl

theorem countP_reports (w : Workflow) (i : Nat) :
    w.compile.notices.countP (·.reports (i + 1))
      = (w.nodes[i]?.bind Workflow.unknown?).toList.length := by
  have hcode : ∀ notice : Notice, notice.reports (i + 1) = true → notice.code = "W002" := by
    intro notice h
    cases notice with
    | unmapped tool kindName => rfl
    | dangling index source target missing => cases h
    | duplicate name first tool => cases h
    | cycle => cases h
  have hnumber : ((·.reports (i + 1)) ∘ fun x : Nat × String => Notice.unmapped (x.1 + 1) x.2)
      = fun x => decide (x.1 = i) :=
    funext fun x => decide_eq_decide.mpr Nat.succ_inj
  rw [List.countP_eq_length_filter, Output.filter_eq_filter_coded hcode, Workflow.coded_unknown,
    Workflow.unmappedTools_eq_numbered, List.filter_map, hnumber, filter_numbered]
  cases w.nodes[i]?.bind Workflow.unknown? <;> rfl

/-! ## the drawn graph -/

/-- the number is that of the last node of the name, and its tool is drawn or reported -/
structure Meant (w : Workflow) (doc : Tree) (notices : List Notice) (name : String)
    (tool : Nat) : Prop where
  pos : 1 ≤ tool
  le : tool ≤ w.nodes.length
  last : ∃ n, LastNamed w.nodes (tool - 1) n ∧ n.name = name
  drawn_or_reported :
    (toolElements doc tool).length = 1 ∧ notices.countP (·.reports tool) = 0 ∨
      (toolElements doc tool).length = 0 ∧ notices.countP (·.reports tool) = 1

/-- the connection goes from the tool of the one end of the link to that of the other, and it
leaves where the plugin that is printed on the tool says -/
def Draws (w : Workflow) (doc : Tree) (notices : List Notice) (l : Link) (c : Tree) : Prop :=
  ∃ a b, Meant w doc notices l.source a ∧ Meant w doc notices l.target b ∧
    c = wireTree ⟨a, anchorOfPlugin ((toolElements doc a).head?.bind plugin?), b, "Input"⟩

/-- the connections of a document are the links between nodes, and no two nodes are one tool -/
structure Faithful (w : Workflow) (doc : Tree) (notices : List Notice) : Prop where
  connections :
    OneEach (fun i => ∃ l, w.links[i]? = some l ∧ Named w.nodes l.source ∧ Named w.nodes l.target)
      (fun i c => ∃ l, w.links[i]? = some l ∧ Draws w doc notices l c) (doc.named "Connection")
  placed : (Layout.ofWorkflow w).tools.length = w.nodes.length
  apart : (Layout.ofWorkflow w).tools.Pairwise fun p q => p.tool ≠ q.tool ∧ p.point ≠ q.point
  drawn_apart : (doc.named "Node").Pairwise fun a b =>
    a.attr? "ToolID" ≠ b.attr? "ToolID" ∧ position? a ≠ position? b

section
variable {w : Workflow} {name : String} {p : Placement}

theorem meant_of_find? (h : (Layout.ofWorkflow w).find? name = some p) :
    Meant w (documentTree w) w.compile.notices name p.tool := by
  obtain ⟨i, n, hlast, hname, rfl⟩ := Layout.find?_ofNodes_eq_some_iff.mp h
  refine ⟨Nat.succ_pos i, hlast.lt_length, ⟨n, hlast, hname⟩, ?_⟩
  rw [Placement.ofNode, toolElements_documentTree, countP_reports, hlast.1, Option.bind_some,
    Option.bind_some, drawn?, Workflow.unknown?]
  cases n.kind? with
  | none => exact .inr ⟨rfl, rfl⟩
  | some kind => exact .inl ⟨rfl, rfl⟩

theorem outputAnchor_of_find? (h : (Layout.ofWorkflow w).find? name = some p) :
    p.outputAnchor
      = anchorOfPlugin ((toolElements (documentTree w) p.tool).head?.bind plugin?) := by
  obtain ⟨i, n, hlast, _, rfl⟩ := Layout.find?_ofNodes_eq_some_iff.mp h
  have hplugin : (toolElements (documentTree w) (i + 1)).head?.bind plugin?
      = n.kind?.map Kind.plugin := by
    rw [toolElements_documentTree, hlast.1, Option.bind_some, drawn?]
    cases n.kind? with
    | none => rfl
    | some kind => exact plugin?_toolTree i kind n.settings
  rw [Placement.ofNode, hplugin]
  exact outputAnchorOf_eq n.kind?

theorem draws_of_joins {l : Link} {wire : Wire} (h : (Layout.ofWorkflow w).Joins l wire) :
    Draws w (documentTree w) w.compile.notices l (wireTree wire) := by
  obtain ⟨a, b, ha, hb, rfl⟩ := h
  refine ⟨a.tool, b.tool, meant_of_find? ha, meant_of_find? hb, ?_⟩
  rw [outputAnchor_of_find? ha]
  rfl

end

theorem isSome_wire?_ofNodes {nodes : List Node} {l : Link} :
    ((Layout.ofNodes nodes).wire? l).isSome ↔ Named nodes l.source ∧ Named nodes l.target := by
  rw [Layout.isSome_wire?, Option.isNone_iff_eq_none, Layout.missing?_eq_none_iff,
    Layout.isSome_find?_ofNodes, Layout.isSome_find?_ofNodes]

theorem oneEach_connections (w : Workflow) :
    OneEach (fun i => ∃ l, w.links[i]? = some l ∧ Named w.nodes l.source ∧ Named w.nodes l.target)
      (fun i c => ∃ l, w.links[i]? = some l ∧ Draws w (documentTree w) w.compile.notices l c)
      ((documentTree w).named "Connection") := by
  have hpass := oneEach_filterMap (fun _ l => ((Layout.ofWorkflow w).wire? l).map wireTree) w.links
  have hlist : (w.links.zipIdx.filterMap fun x => ((Layout.ofWorkflow w).wire? x.1).map wireTree)
      = (documentTree w).named "Connection" := by
    rw [named_connection, Layout.wires_eq, List.map_filterMap]
  rw [hlist] at hpass
  refine hpass.imp (fun i => ?_) ?_
  · refine exists_congr fun l => and_congr_right fun _ => ?_
    rw [Option.isSome_map]
    exact isSome_wire?_ofNodes
  · rintro i c ⟨l, hl, hc⟩
    obtain ⟨wire, hwire, rfl⟩ := Option.map_eq_some_iff.mp hc
    exact ⟨l, hl, draws_of_joins (Layout.wire?_eq_some_iff.mp hwire)⟩

theorem pairwise_tools (nodes : List Node) :
    (Layout.ofNodes nodes).tools.Pairwise fun p q => p.tool ≠ q.tool ∧ p.point ≠ q.point := by
  rw [Layout.ofNodes, List.mapIdx_eq_zipIdx_map, List.pairwise_map]
  refine (pairwise_zipIdx nodes).imp fun {x y} hlt => ⟨?_, ?_⟩
  · show x.2 + 1 ≠ y.2 + 1
    omega
  · intro h
    have hx : 54 + 150 * x.2 = 54 + 150 * y.2 := congrArg Point.x h
    omega

theorem pairwise_named_node (w : Workflow) :
    ((documentTree w).named "Node").Pairwise fun a b =>
      a.attr? "ToolID" ≠ b.attr? "ToolID" ∧ position? a ≠ position? b := by
  rw [named_node, List.pairwise_map]
  refine (pairwise_numbered drawn? w.nodes).imp fun {x y} hlt => ⟨?_, ?_⟩
  · rw [attr?_toolTree y.1]
    exact fun h => Nat.ne_of_lt hlt ((attr?_toolTree_eq_iff _ _ _ _).mp h)
  · rw [position?_toolTree, position?_toolTree]
    intro h
    have hx := toString_injective (Prod.mk.inj (Option.some.inj h)).1
    omega

theorem faithful_documentTree (w : Workflow) :
    Faithful w (documentTree w) w.compile.notices where
  connections := oneEach_connections w
  placed := Layout.length_ofNodes w.nodes
  apart := pairwise_tools w.nodes
  drawn_apart := pairwise_named_node w

/-- **The graph that is drawn is the one that was meant.** -/
theorem graph_drawn_as_meant {value : Json} {out : Output} (h : compile value = .ok out) :
    ∃ w doc, Workflow.ofJson value = .ok w ∧ document? isLeaf out.document = some doc ∧
      Faithful w doc out.notices := by
  obtain ⟨w, hw, rfl⟩ := compile_eq_ok_iff.mp h
  exact ⟨w, documentTree w, hw, document?_compile w, faithful_documentTree w⟩

theorem graph_drawn_as_meant_tangled : compile tangled = .ok tangledWorkflow.compile ∧
    ∃ w doc, Workflow.ofJson tangled = .ok w ∧
      document? isLeaf tangledWorkflow.compile.document = some doc ∧
      Faithful w doc tangledWorkflow.compile.notices :=
  ⟨compile_tangled, graph_drawn_as_meant compile_tangled⟩

end Document

end Toolflow
