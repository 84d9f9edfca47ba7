import Toolflow.Proofs.Document.Parts
import Toolflow.Proofs.Layout.Moving
import Toolflow.Proofs.Workflow.Codes
import Toolflow.Proofs.Workflow.Replacing

/-!
# Descriptions in another order

What becomes of an output when the entries of one of the two lists are moved.

* `TextsMoved`, `NodesMoved`   the nodes were moved: each is drawn and reported as before, under
                         the number of its new place;
* `LinksMoved`           the links were moved: each is drawn and reported as before, in its new
                         turn, and nothing else has changed;
* `reordering_nodes_renumbers`, `reordering_connections_reorders`   that is all that moving the
                         entries does to the output of a value.

Only the first of the two asks for distinct names.  Where two nodes share a name, a link means the
last of them, and that may be another one after the move.
-/

namespace Toolflow

open Document

/-! ## moved nodes -/

/-- the texts of the nodes before and after their entries were moved: nothing but the number and
the place of a tool is new -/
structure TextsMoved (σ : Nat → Nat) (entries : List Json) (a b : List String) : Prop where
  length_before : a.length = entries.length
  length_after : b.length = entries.length
  known : ∀ i entry, ∀ kind : Kind, entries[i]? = some entry →
    entry.stringAt "schema_id" = kind.name →
    ∃ rest, a[i]? = some (toolText i kind rest) ∧ b[σ i]? = some (toolText (σ i) kind rest)
  unknown : ∀ i entry, entries[i]? = some entry →
    (∀ kind : Kind, entry.stringAt "schema_id" ≠ kind.name) →
    ∃ body, a[i]? = some (commentLine body) ∧ b[σ i]? = some (commentLine body)

/-- the outputs before and after the entries of the nodes were moved -/
structure NodesMoved (σ : Nat → Nat) (entries : List Json) (out out' : Output) : Prop where
  document : ∃ (p p' : Parts) (wires : List Wire), Split out.document p ∧ Split out'.document p' ∧
    TextsMoved σ entries p.nodes p'.nodes ∧
    (∀ wire ∈ wires, wire.Within entries.length) ∧
    p.connections = wires.map wireText ∧
    p'.connections = (wires.map (·.renumber σ)).map wireText
  dangling : out'.coded "W001" = out.coded "W001"
  cycle : out'.coded "W004" = out.coded "W004"
  repeated : out'.coded "W003" = []
  unknown : ∃ found found' : List (Nat × String), Renumbered σ found found' ∧
    out.coded "W002" = found.map (fun x => .unmapped (x.1 + 1) x.2) ∧
    out'.coded "W002" = found'.map fun x => .unmapped (x.1 + 1) x.2
  unmapped : out'.unmapped = out.unmapped

section
variable {σ : Nat → Nat} {entries : List Json} {w : Workflow} {nodes' : List Node}

theorem textsMoved_parts (hall : List.Forall₂ (fun entry n => n.ReadFrom entry) entries w.nodes)
    (h : Moved σ w.nodes nodes') :
    TextsMoved σ entries (parts w (.ofWorkflow w)).nodes
      (parts { w with nodes := nodes' } (.ofWorkflow { w with nodes := nodes' })).nodes := by
  have hlength : w.nodes.length = entries.length := hall.length_eq.symm
  refine ⟨?before, ?after, ?known, ?unknown⟩
  case before => rw [nodes_parts, List.length_map, List.length_zipIdx, hlength]
  case after => rw [nodes_parts, List.length_map, List.length_zipIdx, h.length_eq, hlength]
  case known =>
    intro i entry kind hentry hkind
    obtain ⟨n, hn, hread⟩ := exists_getElem?_of_forall₂ hall hentry
    rw [Json.stringAt_eq_iff.mpr (.inl hread.kindName)] at hkind
    have hsome : n.kind? = some kind := (hread.kind kind).mpr hkind
    refine ⟨toolRest kind n.settings, ?_, ?_⟩
    · rw [getElem?_nodes_parts w hn, nodeText_of_kind hsome]
    · rw [getElem?_nodes_parts _ (h.getElem?_of_some hn), nodeText_of_kind hsome]
  case unknown =>
    intro i entry hentry hunknown
    obtain ⟨n, hn, hread⟩ := exists_getElem?_of_forall₂ hall hentry
    rw [Json.stringAt_eq_iff.mpr (.inl hread.kindName)] at hunknown
    have hnone : n.kind? = none := by
      rw [Node.kind?, hread.unmapped.mpr hunknown]
      rfl
    refine ⟨unmappedBody n, ?_, ?_⟩
    · rw [getElem?_nodes_parts w hn, nodeText_of_unknown hnone]
    · rw [getElem?_nodes_parts _ (h.getElem?_of_some hn), nodeText_of_unknown hnone]

theorem nodesMoved_compile
    (hall : List.Forall₂ (fun entry n => n.ReadFrom entry) entries w.nodes)
    (h : Moved σ w.nodes nodes') (hdistinct : (w.nodes.map Node.name).Nodup) :
    NodesMoved σ entries w.compile { w with nodes := nodes' }.compile := by
  have hdistinct' : (nodes'.map Node.name).Nodup :=
    (h.perm.map Node.name).nodup_iff.mpr hdistinct
  have hnames : ∀ name, Named nodes' name ↔ Named w.nodes name :=
    named_congr fun _ => h.mem_iff
  refine ⟨?document, ?dangling, ?cycle, ?repeated, ?unknown, rfl⟩
  case document =>
    refine ⟨_, _, (Layout.ofWorkflow w).wires w.links, split_compile w, split_compile _,
      textsMoved_parts hall h, fun wire hwire => ?_, connections_parts w _, ?_⟩
    · have hwithin := Layout.wire_within hwire
      rw [Layout.length_ofNodes, ← hall.length_eq] at hwithin
      exact hwithin
    · rw [connections_parts]
      exact congrArg (List.map wireText) (Layout.wires_moved h hdistinct' w.links)
  case dangling =>
    rw [Workflow.coded_unresolved, Workflow.coded_unresolved]
    exact Layout.dangling_congr hnames w.links
  case cycle =>
    rw [Workflow.coded_cycles, Workflow.coded_cycles, Workflow.cycles, Workflow.cycles,
      Layout.cyclic_congr hnames fun _ => Iff.rfl]
  case repeated =>
    rw [Workflow.coded_repeated, (Workflow.oneEach_duplicates nodes').eq_nil_iff,
      not_repeats_iff_nodup]
    exact hdistinct'
  case unknown =>
    refine ⟨_, _, h.renumbered Workflow.unknown?, ?_, ?_⟩
    · rw [Workflow.coded_unknown, Workflow.unmappedTools_eq_numbered]
    · rw [Workflow.coded_unknown, Workflow.unmappedTools_eq_numbered]

end

/-- **Reordering the nodes only renumbers.** -/
theorem reordering_nodes_renumbers {value : Json} {out : Output} {entries entries' : List Json}
    {σ : Nat → Nat} (h : compile value = .ok out)
    (hentries : value.get? "nodes" = some (.arr entries))
    (hdistinct : (entries.map (·.stringAt "node_id")).Nodup) (hmoved : Moved σ entries entries') :
    ∃ out', compile (value.replace "nodes" (.arr entries')) = .ok out' ∧
      NodesMoved σ entries out out' := by
  obtain ⟨w, hread, rfl⟩ := compile_eq_ok_iff_readFrom.mp h
  have hall := hread.forall₂_nodes hentries
  obtain ⟨nodes', hnodes'⟩ := hmoved.exists_moved hall.length_eq.symm
  have hread' := hread.replace_nodes (hmoved.forall₂ hall hnodes')
  -- the names that the entries give are those that the layout knows
  have hnames : entries.map (·.stringAt "node_id") = w.nodes.map Node.name :=
    map_eq_of_forall₂ (fun _ _ hn => Json.stringAt_eq_iff.mpr (.inl hn.name)) hall
  rw [hnames] at hdistinct
  exact ⟨_, compile_eq_ok_iff_readFrom.mpr ⟨_, hread', rfl⟩,
    nodesMoved_compile hall hnodes' hdistinct⟩

/-- the nodes of `tangled`, but the third has a name of its own -/
def untangledEntries : List Json := [
  .obj [("node_id", .str "a"), ("schema_id", .str "Input")],
  .obj [("node_id", .str "b"), ("schema_id", .str "Filter")],
  .obj [("node_id", .str "d"), ("schema_id", .str "Chart")]]

def untangled : Json := tangled.replace "nodes" (.arr untangledEntries)

def untangledWorkflow : Workflow := { tangledWorkflow with
  nodes := [⟨"a", "Input", "", .input none⟩, ⟨"b", "Filter", "", .filter none⟩,
    ⟨"d", "Chart", "", .unmapped⟩] }

theorem compile_untangled : compile untangled = .ok untangledWorkflow.compile :=
  compile_eq_ok_iff.mpr ⟨untangledWorkflow, rfl, rfl⟩

theorem moved_untangled : Moved (exchange 1 2) untangledEntries
    (untangledEntries.drop 1 ++ untangledEntries.take 1) :=
  moved_append_comm (untangledEntries.take 1) (untangledEntries.drop 1)

theorem reordering_nodes_untangled : compile untangled = .ok untangledWorkflow.compile ∧
    untangled.get? "nodes" = some (.arr untangledEntries) ∧
    (untangledEntries.map (·.stringAt "node_id")).Nodup ∧
    Moved (exchange 1 2) untangledEntries
      (untangledEntries.drop 1 ++ untangledEntries.take 1) ∧
    ∃ out', compile (untangled.replace "nodes"
        (.arr (untangledEntries.drop 1 ++ untangledEntries.take 1))) = .ok out' ∧
      NodesMoved (exchange 1 2) untangledEntries untangledWorkflow.compile out' := by
  have hentries : untangled.get? "nodes" = some (.arr untangledEntries) := Json.get?_replace_self
  have hdistinct : (untangledEntries.map (·.stringAt "node_id")).Nodup := by decide
  exact ⟨compile_untangled, hentries, hdistinct, moved_untangled,
    reordering_nodes_renumbers compile_untangled hentries hdistinct moved_untangled⟩

/-! ## moved connections -/

/-- the outputs before and after the entries of the links of a workflow were moved -/
structure LinksMoved (σ : Nat → Nat) (w : Workflow) (out out' : Output) : Prop where
  document : ∃ (p p' : Parts) (drawn drawn' : List (Nat × String)), Split out.document p ∧
    Split out'.document p' ∧ p'.nodes = p.nodes ∧
    p.connections = drawn.map Prod.snd ∧ p'.connections = drawn'.map Prod.snd ∧
    Renumbered σ drawn drawn' ∧
    ∀ i text, (i, text) ∈ drawn ↔ ∃ l wire, w.links[i]? = some l ∧
      (Layout.ofWorkflow w).Joins l wire ∧ text = wireText wire
  others : out'.notices.filter (fun notice => notice.code ≠ "W001")
    = out.notices.filter fun notice => notice.code ≠ "W001"
  dangling : ∃ found found' : List (Nat × Link × Missing), Renumbered σ found found' ∧
    out.coded "W001"
      = found.map (fun x => .dangling x.1 x.2.1.source x.2.1.target x.2.2) ∧
    out'.coded "W001" = found'.map fun x => .dangling x.1 x.2.1.source x.2.1.target x.2.2
  unmapped : out'.unmapped = out.unmapped

/-- the text of the wire of a link, if it is drawn -/
def wireText? (layout : Layout) (l : Link) : Option String := (layout.wire? l).map wireText

theorem connections_eq_numbered (w : Workflow) (layout : Layout) :
    (parts w layout).connections = (numbered (wireText? layout) w.links).map Prod.snd := by
  rw [connections_parts, map_snd_numbered, Layout.wires, List.map_filterMap]
  rfl

theorem mem_numbered_wireText? {w : Workflow} {i : Nat} {text : String} :
    (i, text) ∈ numbered (wireText? (.ofWorkflow w)) w.links ↔
      ∃ l wire, w.links[i]? = some l ∧ (Layout.ofWorkflow w).Joins l wire ∧
        text = wireText wire := by
  rw [mem_numbered]
  refine exists_congr fun l => ?_
  rw [wireText?, Option.map_eq_some_iff]
  constructor
  · rintro ⟨hl, wire, hwire, rfl⟩
    exact ⟨wire, hl, Layout.wire?_eq_some_iff.mp hwire, rfl⟩
  · rintro ⟨wire, hl, hjoins, rfl⟩
    exact ⟨hl, wire, Layout.wire?_eq_some_iff.mpr hjoins, rfl⟩

theorem linksMoved_compile {σ : Nat → Nat} {w : Workflow} {links' : List Link}
    (h : Moved σ w.links links') :
    LinksMoved σ w w.compile { w with links := links' }.compile := by
  refine ⟨?document, ?others, ?dangling, rfl⟩
  case document =>
    exact ⟨_, _, _, _, split_compile w, split_compile _, rfl, connections_eq_numbered w _,
      connections_eq_numbered _ _, h.renumbered _, fun _ _ => mem_numbered_wireText?⟩
  case others =>
    rw [Workflow.filter_resolved, Workflow.filter_resolved, Workflow.cycles, Workflow.cycles,
      Layout.cyclic_congr (fun _ => Iff.rfl) fun _ => h.mem_iff]
  case dangling =>
    refine ⟨_, _, h.renumbered (Workflow.unresolved? (.ofNodes w.nodes)), ?_, ?_⟩
    · rw [Workflow.coded_unresolved, Workflow.dangling_eq_numbered]
    · rw [Workflow.coded_unresolved, Workflow.dangling_eq_numbered]

/-- **Reordering the connections only reorders what is drawn and reported of them.** -/
theorem reordering_connections_reorders {value : Json} {out : Output}
    {entries entries' : List Json} {σ : Nat → Nat} (h : compile value = .ok out)
    (hentries : value.get? "connections" = some (.arr entries))
    (hmoved : Moved σ entries entries') :
    ∃ w out', Workflow.ofJson value = .ok w ∧
      compile (value.replace "connections" (.arr entries')) = .ok out' ∧
      LinksMoved σ w out out' := by
  obtain ⟨w, hread, rfl⟩ := compile_eq_ok_iff_readFrom.mp h
  have hall := hread.forall₂_links hentries
  obtain ⟨links', hlinks'⟩ := hmoved.exists_moved hall.length_eq.symm
  have hread' := hread.replace_links (hmoved.forall₂ hall hlinks')
  exact ⟨w, _, Workflow.ofJson_eq_ok_iff_readFrom.mpr hread,
    compile_eq_ok_iff_readFrom.mpr ⟨_, hread', rfl⟩,
    linksMoved_compile hlinks'⟩

def tangledConnections : List Json := [
  .obj [("from", .str "a"), ("to", .str "b")],
  .obj [("from", .str "b"), ("to", .str "a")],
  .obj [("from", .str "a"), ("to", .str "c")]]

theorem moved_tangledConnections : Moved (exchange 1 2) tangledConnections
    (tangledConnections.drop 1 ++ tangledConnections.take 1) :=
  moved_append_comm (tangledConnections.take 1) (tangledConnections.drop 1)

theorem reordering_connections_tangled : compile tangled = .ok tangledWorkflow.compile ∧
    tangled.get? "connections" = some (.arr tangledConnections) ∧
    Moved (exchange 1 2) tangledConnections
      (tangledConnections.drop 1 ++ tangledConnections.take 1) ∧
    ∃ w out', Workflow.ofJson tangled = .ok w ∧
      compile (tangled.replace "connections"
        (.arr (tangledConnections.drop 1 ++ tangledConnections.take 1))) = .ok out' ∧
      LinksMoved (exchange 1 2) w tangledWorkflow.compile out' := by
  have hentries : tangled.get? "connections" = some (.arr tangledConnections) := rfl
  exact ⟨compile_tangled, hentries, moved_tangledConnections,
    reordering_connections_reorders compile_tangled hentries moved_tangledConnections⟩

end Toolflow
