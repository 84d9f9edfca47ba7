import Toolflow.Proofs.Layout.Appending
import Toolflow.Proofs.Locality

/-!
# Descriptions with more nodes

Nodes are put behind those of a description, and none of them has a name from before.

* `Parts.nodesContent`   what stands between the tags of the list of nodes (`text_eq_around`);
* `NodesAppended`        the outputs before and after: whatever was drawn or reported is so still,
                         at the same place among its like.  Only what was missing may be found;
* `appending_nodes_only_adds`   that is all that the nodes do to the output of a value.

What is reported of the nodes themselves does not depend on their names being new
(`duplicates_append`, `unmappedTools_append`); what is drawn between them does.
-/

namespace Toolflow

/-! ## texts -/

namespace Document

/-- all that stands between the tags of the nodes -/
def Parts.nodesContent (p : Parts) : String := "\n" ++ String.join p.nodes ++ "  "

/-- the document with this content between the tags of the nodes -/
def Parts.around (p : Parts) (content : String) : String :=
  "<?xml version=\"1.0\"?>\n<AlteryxDocument yxmdVer=\"2025.2\">\n  <Nodes>" ++ content
    ++ "</Nodes>\n  <Connections>\n" ++ String.join p.connections ++ closing

theorem Parts.text_eq_around (p : Parts) : p.text = p.around p.nodesContent := by
  have hopening : "<?xml version=\"1.0\"?>\n<AlteryxDocument yxmdVer=\"2025.2\">\n  <Nodes>" ++ "\n"
      = opening := by decide
  have hbetween : "  " ++ "</Nodes>\n  <Connections>\n" = between := by decide
  unfold Parts.text Parts.around Parts.nodesContent
  rw [← hopening, ← hbetween]
  simp only [String.append_assoc]

theorem Split.eq_around {document : String} {p : Parts} (h : Split document p) :
    document = p.around p.nodesContent := h.text.trans p.text_eq_around

/-- a node stands deeper than the end tag of the list -/
theorem exists_nodeText_eq (i : Nat) (n : Node) : ∃ rest, nodeText i n = "  " ++ rest := by
  have hnode : "    <Node ToolID=\"" = "  " ++ "  <Node ToolID=\"" := by decide
  have hcomment : "    <!-- " = "  " ++ "  <!-- " := by decide
  unfold nodeText
  cases n.kind? with
  | some kind =>
    unfold toolText
    rw [hnode]
    simp only [String.append_assoc]
    exact ⟨_, rfl⟩
  | none =>
    unfold commentLine
    rw [hcomment]
    simp only [String.append_assoc]
    exact ⟨_, rfl⟩

/-- so the content grows behind its last character -/
theorem Parts.exists_nodesContent_eq {p p' : Parts} {texts : List String}
    (h : p'.nodes = p.nodes ++ texts) (hdeep : ∀ text ∈ texts, ∃ rest, text = "  " ++ rest) :
    ∃ rest, p'.nodesContent = p.nodesContent ++ rest := by
  unfold nodesContent
  rw [h]
  cases texts with
  | nil => exact ⟨"", by rw [List.append_nil, String.append_empty]⟩
  | cons text texts =>
    obtain ⟨rest, rfl⟩ := hdeep text List.mem_cons_self
    refine ⟨rest ++ String.join texts ++ "  ", ?_⟩
    rw [String.join_append, String.join_cons]
    simp only [String.append_assoc]

theorem nodes_parts_append (w : Workflow) (more : List Node) :
    (parts { w with nodes := w.nodes ++ more }
        (.ofWorkflow { w with nodes := w.nodes ++ more })).nodes
      = (parts w (.ofWorkflow w)).nodes
        ++ (more.zipIdx w.nodes.length).map fun x => nodeText x.2 x.1 := by
  rw [nodes_parts, nodes_parts, List.zipIdx_append, List.map_append, Nat.zero_add]

end Document

open Document

/-! ## notices -/

namespace Workflow

theorem duplicates_append (nodes more : List Node) :
    duplicates nodes <+: duplicates (nodes ++ more) := by
  refine prefix_filterMap_zipIdx (fun x hx => ?_) more
  obtain ⟨n, j⟩ := x
  have hj : nodes[j]? = some n := List.mk_mem_zipIdx_iff_getElem?.mp hx
  -- the first node of a name that was there is still the same
  have hlt : nodes.findIdx (·.name == n.name) < nodes.length :=
    Nat.lt_of_le_of_lt (findIdx_name_le hj rfl) (List.getElem?_eq_some_iff.mp hj).1
  have hfirst : (nodes ++ more).findIdx (·.name == n.name)
      = nodes.findIdx (·.name == n.name) := by
    rw [List.findIdx_append, if_pos hlt]
  show duplicate? nodes j n = duplicate? (nodes ++ more) j n
  rw [duplicate?, duplicate?, hfirst]

theorem unmappedTools_append (nodes more : List Node) :
    unmappedTools nodes (.ofNodes nodes)
      <+: unmappedTools (nodes ++ more) (.ofNodes (nodes ++ more)) := by
  rw [unmappedTools_ofNodes, unmappedTools_ofNodes]
  exact prefix_filterMap_zipIdx (fun _ _ => rfl) more

theorem cycle_mem_notices_iff (w : Workflow) :
    .cycle ∈ w.compile.notices ↔ (Layout.ofNodes w.nodes).cyclic w.links = true := by
  have hcoded : .cycle ∈ w.compile.coded "W004" ↔ .cycle ∈ w.compile.notices := Output.mem_coded
  rw [← hcoded, coded_cycles, cycles]
  cases (Layout.ofNodes w.nodes).cyclic w.links <;> simp

end Workflow

/-! ## entries -/

/-- every entry with its two names is read, so a list of them is -/
theorem Node.exists_forall₂_readFrom {entries : List Json}
    (h : ∀ entry ∈ entries, entry.HasName "node_id" ∧ entry.HasName "schema_id") :
    ∃ nodes, List.Forall₂ (fun entry n => Node.ReadFrom entry n) entries nodes := by
  refine exists_forall₂ fun entry hentry => ?_
  obtain ⟨⟨name, hname, hname_ne⟩, hkind⟩ := h entry hentry
  obtain ⟨n, hn, _⟩ := Node.exists_readFrom hname hname_ne hkind
  exact ⟨n, hn⟩

/-- the name of a node is the string of an entry -/
theorem Named.exists_entry {entries : List Json} {nodes : List Node} {name : String}
    (hall : List.Forall₂ (fun entry n => Node.ReadFrom entry n) entries nodes)
    (h : Named nodes name) : ∃ entry ∈ entries, entry.stringAt "node_id" = name := by
  obtain ⟨i, n, hn, rfl⟩ := named_iff_getElem?.mp h
  obtain ⟨entry, hentry, hread⟩ := exists_getElem?_of_forall₂ hall.flip hn
  exact ⟨entry, List.mem_of_getElem? hentry, Json.stringAt_eq_iff.mpr (.inl hread.name)⟩

/-! ## outputs -/

/-- the outputs before and after this many nodes of other names were put behind all others -/
structure NodesAppended (count : Nat) (out out' : Output) : Prop where
  document : ∃ (p p' : Parts) (texts : List String) (rest : String), Split out.document p ∧
    Split out'.document p' ∧ p'.nodes = p.nodes ++ texts ∧ texts.length = count ∧
    out.document = p.around p.nodesContent ∧ out'.document = p'.around p'.nodesContent ∧
    p'.nodesContent = p.nodesContent ++ rest ∧ p.connections.Sublist p'.connections
  repeated : out.coded "W003" <+: out'.coded "W003"
  unknown : out.coded "W002" <+: out'.coded "W002"
  cycle : .cycle ∈ out.notices → .cycle ∈ out'.notices
  dangling : List.SublistForall₂ Narrowed (out'.coded "W001") (out.coded "W001")
  unmapped : out'.unmapped = out.unmapped

theorem nodesAppended_compile {w : Workflow} {more : List Node}
    (hfresh : ∀ name, Named w.nodes name → ¬ Named more name) :
    NodesAppended more.length w.compile { w with nodes := w.nodes ++ more }.compile := by
  have hnames : ∀ name, Named w.nodes name → Named (w.nodes ++ more) name :=
    fun _ hname => hname.append more
  refine ⟨?document, ?repeated, ?unknown, ?cycle, ?dangling, rfl⟩
  case document =>
    have hdeep : ∀ text ∈ (more.zipIdx w.nodes.length).map (fun x => nodeText x.2 x.1),
        ∃ rest, text = "  " ++ rest := by
      intro text htext
      obtain ⟨x, _, rfl⟩ := List.mem_map.mp htext
      exact exists_nodeText_eq x.2 x.1
    have hnodes := nodes_parts_append w more
    obtain ⟨rest, hrest⟩ := Parts.exists_nodesContent_eq hnodes hdeep
    refine ⟨_, _, _, rest, split_compile w, split_compile _, hnodes, ?count,
      (split_compile w).eq_around, (split_compile _).eq_around, hrest, ?drawn⟩
    case count => rw [List.length_map, List.length_zipIdx]
    case drawn =>
      rw [connections_parts, connections_parts]
      exact (Layout.wires_sublist_append hfresh w.links).map wireText
  case repeated =>
    rw [Workflow.coded_repeated, Workflow.coded_repeated]
    exact Workflow.duplicates_append w.nodes more
  case unknown =>
    rw [Workflow.coded_unknown, Workflow.coded_unknown]
    exact Workflow.unmappedTools_append w.nodes more
  case cycle =>
    rw [Workflow.cycle_mem_notices_iff, Workflow.cycle_mem_notices_iff]
    exact Layout.cyclic_mono hnames fun _ hl => hl
  case dangling =>
    rw [Workflow.coded_unresolved, Workflow.coded_unresolved]
    exact Layout.dangling_narrowed hnames w.links

/-- **Nodes of new names behind all others only add.** -/
theorem appending_nodes_only_adds {value : Json} {out : Output} {entries more : List Json}
    (h : compile value = .ok out) (hentries : value.get? "nodes" = some (.arr entries))
    (hvalid : ∀ entry ∈ more, entry.HasName "node_id" ∧ entry.HasName "schema_id")
    (hfresh : ∀ entry ∈ more, ∀ old ∈ entries,
      entry.stringAt "node_id" ≠ old.stringAt "node_id") :
    ∃ out', compile (value.replace "nodes" (.arr (entries ++ more))) = .ok out' ∧
      NodesAppended more.length out out' := by
  obtain ⟨w, hread, rfl⟩ := compile_eq_ok_iff_readFrom.mp h
  have hall := hread.forall₂_nodes hentries
  obtain ⟨nodes, hmore⟩ := Node.exists_forall₂_readFrom hvalid
  have hread' : ({ w with nodes := w.nodes ++ nodes } : Workflow).ReadFrom
      (value.replace "nodes" (.arr (entries ++ more))) :=
    hread.replace_nodes (List.rel_append hall hmore)
  have hnames : ∀ name, Named w.nodes name → ¬ Named nodes name := by
    intro name hbefore hbehind
    obtain ⟨old, hold, holdname⟩ := Named.exists_entry hall hbefore
    obtain ⟨entry, hentry, hname⟩ := Named.exists_entry hmore hbehind
    exact hfresh entry hentry old hold (hname.trans holdname.symm)
  rw [hmore.length_eq]
  exact ⟨_, compile_eq_ok_iff_readFrom.mpr ⟨_, hread', rfl⟩, nodesAppended_compile hnames⟩

/-- two nodes of one name, to which a link of `tangled` leads -/
def tangledMore : List Json := [
  .obj [("node_id", .str "c"), ("schema_id", .str "Output")],
  .obj [("node_id", .str "c"), ("schema_id", .str "Chart")]]

theorem appending_nodes_tangled : compile tangled = .ok tangledWorkflow.compile ∧
    tangled.get? "nodes" = some (.arr tangledNodes) ∧
    (∀ entry ∈ tangledMore, entry.HasName "node_id" ∧ entry.HasName "schema_id") ∧
    (∀ entry ∈ tangledMore, ∀ old ∈ tangledNodes,
      entry.stringAt "node_id" ≠ old.stringAt "node_id") ∧
    ∃ out', compile (tangled.replace "nodes" (.arr (tangledNodes ++ tangledMore))) = .ok out' ∧
      NodesAppended 2 tangledWorkflow.compile out' := by
  have hentries : tangled.get? "nodes" = some (.arr tangledNodes) := rfl
  have hvalid : ∀ entry ∈ tangledMore, entry.HasName "node_id" ∧ entry.HasName "schema_id" := by
    refine List.forall_mem_cons.mpr ⟨?_, List.forall_mem_singleton.mpr ?_⟩
    · exact ⟨⟨"c", rfl, by decide⟩, "Output", rfl, by decide⟩
    · exact ⟨⟨"c", rfl, by decide⟩, "Chart", rfl, by decide⟩
  have hfresh : ∀ entry ∈ tangledMore, ∀ old ∈ tangledNodes,
      entry.stringAt "node_id" ≠ old.stringAt "node_id" := by decide
  exact ⟨compile_tangled, hentries, hvalid, hfresh,
    appending_nodes_only_adds compile_tangled hentries hvalid hfresh⟩

end Toolflow
