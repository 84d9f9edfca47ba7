import Toolflow.Proofs.Document.Parts
import Toolflow.Proofs.Layout.Moving
import Toolflow.Proofs.Layout.Replacing
import Toolflow.Proofs.Workflow.Codes
import Toolflow.Proofs.Workflow.Replacing

/-!
# What the content of a node has influence on

One entry of the nodes is replaced, and only its name is kept.

* `Workflow.withNode`    the workflow with another node at an index;
* `unknownKind`          what is reported of an entry alone;
* `NodeChanged`          the outputs before and after: the text of the one node is another, what
                         leaves its tool may leave from another anchor, and what is reported of
                         its kind is another.  Nothing else is;
* `replacing_node_is_local`   that is all that another content of a node does to the output of a
                         value.  Where the kind is the same, only the text of the node is another.

Names are what the passes over several nodes look at (`duplicates_congr`, `named_withNode`), and
all other passes take one node at a time.
-/

namespace Toolflow

open Document

/-! ## passes that look at names -/

namespace Workflow

/-- which names are repeated depends on nothing but the names -/
theorem duplicates_congr {nodes nodes' : List Node}
    (h : nodes'.map Node.name = nodes.map Node.name) : duplicates nodes' = duplicates nodes := by
  have hnames : ∀ l : List Node, duplicates l = (l.map Node.name).zipIdx.filterMap fun x =>
      if (l.map Node.name).findIdx (· == x.1) < x.2 then
        some (.duplicate x.1 ((l.map Node.name).findIdx (· == x.1) + 1) (x.2 + 1))
      else none := by
    intro l
    rw [List.zipIdx_map, List.filterMap_map, duplicates]
    refine congrArg (List.filterMap · l.zipIdx) (funext fun x => ?_)
    show duplicate? l x.2 x.1 = _
    rw [duplicate?, Function.comp_apply, List.findIdx_map]
    rfl
  rw [hnames, hnames, h]

/-- the workflow with this node at the index -/
def withNode (w : Workflow) (i : Nat) (m : Node) : Workflow :=
  { w with nodes := w.nodes.set i m }

section
variable {w : Workflow} {i : Nat} {n m : Node} (hn : w.nodes[i]? = some n)
include hn

theorem withNode_self : w.withNode i n = w := by
  obtain ⟨hlt, rfl⟩ := List.getElem?_eq_some_iff.mp hn
  rw [withNode, List.set_getElem_self]

variable (hname : m.name = n.name)
include hname

theorem map_name_withNode : (w.withNode i m).nodes.map Node.name = w.nodes.map Node.name := by
  have hself : (w.withNode i n).nodes.map Node.name = w.nodes.map Node.name := by
    rw [withNode_self hn]
  rw [← hself, withNode, withNode, List.map_set, List.map_set, hname]

theorem named_withNode (name : String) :
    Named (w.withNode i m).nodes name ↔ Named w.nodes name := by
  unfold Named
  rw [← List.mem_map, ← List.mem_map, map_name_withNode hn hname]

theorem ofWorkflow_withNode :
    Layout.ofWorkflow (w.withNode i m) = (Layout.ofWorkflow w).withKind (i + 1) m.kind? :=
  Layout.ofNodes_set hn hname

end

end Workflow

/-! ## one node -/

/-- what is reported of the entry of a node by itself -/
def unknownKind (tool : Nat) (entry : Json) : List Notice :=
  match Kind.ofName? (entry.stringAt "schema_id") with
  | some _ => []
  | none => [.unmapped tool (entry.stringAt "schema_id")]

section
variable {entry : Json} {n : Node}

theorem Node.ReadFrom.kind?_eq (h : n.ReadFrom entry) :
    n.kind? = Kind.ofName? (entry.stringAt "schema_id") := by
  rw [Json.stringAt_eq_iff.mpr (.inl h.kindName)]
  exact Option.ext fun kind => (h.kind kind).trans Kind.ofName?_eq_some_iff.symm

theorem unknownKind_eq (h : n.ReadFrom entry) (tool : Nat) :
    unknownKind tool entry = ((Workflow.unknown? n).map (.unmapped tool)).toList := by
  rw [unknownKind, Workflow.unknown?, ← h.kind?_eq, Json.stringAt_eq_iff.mpr (.inl h.kindName)]
  cases n.kind? <;> rfl

/-- a node is read wherever the two names are -/
theorem Node.exists_readFrom {name : String} (hname : entry.get? "node_id" = some (.str name))
    (hname_ne : name ≠ "") (hkind : entry.HasName "schema_id") :
    ∃ n : Node, n.ReadFrom entry ∧ n.name = name := by
  obtain ⟨kindName, hkindName, hkindName_ne⟩ := hkind
  exact ⟨⟨name, kindName, entry.stringAt "acl_source",
    .read kindName ((entry.get? "config").getD .null)⟩, ⟨hname, hname_ne, hkindName, hkindName_ne,
    Json.stringAt_eq_iff.mp rfl, rfl, settings_read_kind _ _, settings_read_unmapped _ _⟩, rfl⟩

end

/-! ## outputs -/

/-- the outputs before and after this entry took the place of the one of this index -/
structure NodeChanged (i : Nat) (entry entry' : Json) (out out' : Output) : Prop where
  document : ∃ (p p' : Parts) (text : String) (wires : List Wire), Split out.document p ∧
    Split out'.document p' ∧ i < p.nodes.length ∧ p'.nodes = p.nodes.set i text ∧
    p.connections = wires.map wireText ∧
    p'.connections = (wires.map (Wire.leaving (i + 1)
      (outputAnchorOf (Kind.ofName? (entry'.stringAt "schema_id"))))).map wireText ∧
    (entry'.stringAt "schema_id" = entry.stringAt "schema_id" → p'.connections = p.connections)
  notices : ∃ before behind, out.notices = before ++ unknownKind (i + 1) entry ++ behind ∧
    out'.notices = before ++ unknownKind (i + 1) entry' ++ behind
  same_kind : entry'.stringAt "schema_id" = entry.stringAt "schema_id" → out'.notices = out.notices
  unmapped : out'.unmapped = out.unmapped

section
variable {w : Workflow} {i : Nat} {n m : Node}

theorem nodes_parts_withNode (w : Workflow) (i : Nat) (m : Node) :
    (parts (w.withNode i m) (.ofWorkflow (w.withNode i m))).nodes
      = (parts w (.ofWorkflow w)).nodes.set i (nodeText i m) := by
  have hindex : ∀ l : List Node,
      (l.zipIdx.map fun x => nodeText x.2 x.1) = l.mapIdx nodeText := fun l =>
    List.mapIdx_eq_zipIdx_map.symm
  rw [nodes_parts, nodes_parts, hindex, hindex]
  exact List.mapIdx_set

/-- what stands around the report of one node depends on nothing but its name -/
theorem exists_notices_withNode (hn : w.nodes[i]? = some n) :
    ∃ before behind, ∀ m : Node, m.name = n.name → (w.withNode i m).compile.notices
      = before ++ ((Workflow.unknown? m).map (.unmapped (i + 1))).toList ++ behind := by
  have hi : i < w.nodes.length := (List.getElem?_eq_some_iff.mp hn).1
  obtain ⟨before, behind, hpass⟩ := exists_numbered_set Workflow.unknown? hi
  refine ⟨Workflow.duplicates w.nodes ++ Workflow.cycles (.ofNodes w.nodes) w.links
      ++ before.map (fun x => .unmapped (x.1 + 1) x.2),
    behind.map (fun x => .unmapped (x.1 + 1) x.2) ++ (Layout.ofNodes w.nodes).dangling w.links,
    fun m hname => ?_⟩
  have hnames := Workflow.named_withNode hn hname
  have hcyclic : (Layout.ofNodes (w.withNode i m).nodes).cyclic w.links
      = (Layout.ofNodes w.nodes).cyclic w.links :=
    Layout.cyclic_congr hnames fun _ => Iff.rfl
  have hunknown : (numbered Workflow.unknown? (w.withNode i m).nodes).map
        (fun x => Notice.unmapped (x.1 + 1) x.2)
      = before.map (fun x => .unmapped (x.1 + 1) x.2)
        ++ ((Workflow.unknown? m).map (.unmapped (i + 1))).toList
        ++ behind.map fun x => .unmapped (x.1 + 1) x.2 := by
    rw [Workflow.withNode, hpass, List.map_append, List.map_append]
    cases Workflow.unknown? m <;> rfl
  rw [Workflow.notices_compile, Workflow.duplicates_congr (Workflow.map_name_withNode hn hname),
    Workflow.unmappedTools_eq_numbered, hunknown, Workflow.cycles]
  show _ ++ (if (Layout.ofNodes (w.withNode i m).nodes).cyclic w.links then [Notice.cycle] else [])
    ++ (_ ++ (Layout.ofNodes (w.withNode i m).nodes).dangling w.links) = _
  rw [hcyclic, Layout.dangling_congr hnames w.links, Workflow.cycles]
  simp only [List.append_assoc]

end

section
variable {w : Workflow} {i : Nat} {n m : Node} {entry entry' : Json}

theorem nodeChanged_withNode (hn : w.nodes[i]? = some n) (hname : m.name = n.name)
    (hread : n.ReadFrom entry) (hread' : m.ReadFrom entry') :
    NodeChanged i entry entry' w.compile (w.withNode i m).compile := by
  have hi : i < w.nodes.length := (List.getElem?_eq_some_iff.mp hn).1
  obtain ⟨before, behind, hnotices⟩ := exists_notices_withNode hn
  have hbefore := hnotices n rfl
  have hafter := hnotices m hname
  rw [Workflow.withNode_self hn, ← unknownKind_eq hread] at hbefore
  rw [← unknownKind_eq hread'] at hafter
  have hkind : entry'.stringAt "schema_id" = entry.stringAt "schema_id" → m.kind? = n.kind? := by
    intro hsame
    rw [hread'.kind?_eq, hread.kind?_eq, hsame]
  refine ⟨?document, ⟨before, behind, hbefore, hafter⟩, fun hsame => ?report, rfl⟩
  case document =>
    refine ⟨_, _, nodeText i m, (Layout.ofWorkflow w).wires w.links, split_compile w,
      split_compile _, ?inside, nodes_parts_withNode w i m, connections_parts w _, ?wires, ?same⟩
    case inside =>
      rw [nodes_parts, List.length_map, List.length_zipIdx]
      exact hi
    case wires =>
      rw [connections_parts, Workflow.ofWorkflow_withNode hn hname, ← hread'.kind?_eq]
      exact congrArg (List.map wireText) (Layout.wires_withKind _ _ _ w.links)
    case same =>
      intro hsame
      have hlayout : Layout.ofWorkflow (w.withNode i m) = .ofWorkflow w := by
        rw [Workflow.ofWorkflow_withNode hn hname, hkind hsame]
        exact Layout.withKind_ofNodes hn
      rw [connections_parts, connections_parts, hlayout]
      rfl
  case report => rw [hbefore, hafter, unknownKind, unknownKind, hsame]

end

/-- **The content of a node has influence on nothing but the node.** -/
theorem replacing_node_is_local {value entry entry' : Json} {out : Output} {entries : List Json}
    {i : Nat} (h : compile value = .ok out)
    (hentries : value.get? "nodes" = some (.arr entries)) (hentry : entries[i]? = some entry)
    (hname : entry'.get? "node_id" = entry.get? "node_id") (hkind : entry'.HasName "schema_id") :
    ∃ out', compile (value.replace "nodes" (.arr (entries.set i entry'))) = .ok out' ∧
      NodeChanged i entry entry' out out' := by
  obtain ⟨w, hread, rfl⟩ := compile_eq_ok_iff_readFrom.mp h
  have hall := hread.forall₂_nodes hentries
  obtain ⟨n, hn, hnode⟩ := exists_getElem?_of_forall₂ hall hentry
  obtain ⟨m, hnode', hmname⟩ :=
    Node.exists_readFrom (hname.trans hnode.name) hnode.name_ne hkind
  have hread' := hread.replace_nodes (forall₂_set hall hnode' i)
  exact ⟨_, compile_eq_ok_iff_readFrom.mpr ⟨_, hread', rfl⟩,
    nodeChanged_withNode hn hmname hnode hnode'⟩

/-- the second node of `tangled` -/
def filtering : Json := .obj [("node_id", .str "b"), ("schema_id", .str "Filter")]

/-- the same, of a kind that connections leave from another anchor -/
def joining : Json := .obj
  [("node_id", .str "b"), ("schema_id", .str "Join"), ("acl_source", .str "JOIN x")]

def tangledNodes : List Json := [
  .obj [("node_id", .str "a"), ("schema_id", .str "Input")], filtering,
  .obj [("node_id", .str "a"), ("schema_id", .str "Chart")]]

theorem replacing_node_tangled : compile tangled = .ok tangledWorkflow.compile ∧
    tangled.get? "nodes" = some (.arr tangledNodes) ∧ tangledNodes[1]? = some filtering ∧
    joining.get? "node_id" = filtering.get? "node_id" ∧ joining.HasName "schema_id" ∧
    ∃ out', compile (tangled.replace "nodes" (.arr (tangledNodes.set 1 joining))) = .ok out' ∧
      NodeChanged 1 filtering joining tangledWorkflow.compile out' := by
  have hentries : tangled.get? "nodes" = some (.arr tangledNodes) := rfl
  have hentry : tangledNodes[1]? = some filtering := rfl
  have hname : joining.get? "node_id" = filtering.get? "node_id" := rfl
  have hkind : joining.HasName "schema_id" := ⟨"Join", rfl, by decide⟩
  exact ⟨compile_tangled, hentries, hentry, hname, hkind,
    replacing_node_is_local compile_tangled hentries hentry hname hkind⟩

end Toolflow
