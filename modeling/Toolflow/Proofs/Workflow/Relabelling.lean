import Toolflow.Compile
import Toolflow.Proofs.Layout.Relabelling

/-!
# What an output depends on

Of a node an output shows the kind and the settings, and the source if the kind is unknown.  Its
name only joins it to links and to nodes of the same name.

* `Relabels r f`      `f` gives every node the name that `r` makes of its own, and keeps all that
                      is shown of it;
* `Workflow.relabel`  a workflow whose nodes `f` has changed and whose links follow `r`;
* `compile_relabel`   where `r` keeps names apart, the output of such a workflow is the output of
                      the old one, with the new names in the notices.

Each pass over the nodes has one lemma, and none of them looks at a name but to compare it with
another.
-/

namespace Toolflow

/-- new names, and all else that an output shows of a node as before -/
structure Relabels (r : String → String) (f : Node → Node) : Prop where
  name : ∀ n, (f n).name = r n.name
  kindName : ∀ n, (f n).kindName = n.kindName
  settings : ∀ n, (f n).settings = n.settings
  source : ∀ n, n.kind? = none → (f n).source = n.source

def Workflow.relabel (r : String → String) (f : Node → Node) (w : Workflow) : Workflow :=
  { w with nodes := w.nodes.map f, links := w.links.map (Link.rename r) }

theorem Workflow.cycles_rename {r : String → String} (hr : Function.Injective r) (layout : Layout)
    (links : List Link) :
    cycles (layout.rename r) (links.map (Link.rename r))
      = (cycles layout links).map (Notice.rename r) := by
  rw [cycles, Layout.cyclic_rename hr, cycles]
  cases layout.cyclic links <;> rfl

section
variable {r : String → String} {f : Node → Node} (h : Relabels r f)
include h

theorem Relabels.kind? (n : Node) : (f n).kind? = n.kind? := by
  rw [Node.kind?, h.settings, Node.kind?]

theorem Relabels.placement (index : Nat) (n : Node) :
    Placement.ofNode index (f n) = (Placement.ofNode index n).rename r := by
  rw [Placement.ofNode, h.name, h.kind?]
  rfl

theorem Layout.ofNodes_map (nodes : List Node) :
    ofNodes (nodes.map f) = (ofNodes nodes).rename r := by
  refine congrArg Layout.mk (List.ext_getElem? fun i => ?_)
  show (ofNodes (nodes.map f)).tools[i]? = _
  rw [getElem?_ofNodes, List.getElem?_map, List.getElem?_map, getElem?_ofNodes, Option.map_map,
    Option.map_map]
  exact congrArg (nodes[i]?.map ·) (funext fun n => h.placement i n)

/-! ## documents -/

namespace Document

theorem nodeItem_relabel (n : Node) (p : Placement) :
    nodeItem (f n) (p.rename r) = nodeItem n p := by
  rw [nodeItem, h.kind?, h.settings, nodeItem]
  -- the source is drawn only where the kind is unknown, and there `f` keeps it
  cases hkind : n.kind? with
  | some kind => rfl
  | none => rw [unmappedItem, h.kindName, h.source n hkind, unmappedItem]

theorem nodeItems_relabel (nodes : List Node) (layout : Layout) :
    nodeItems (nodes.map f) (layout.rename r) = nodeItems nodes layout := by
  rw [nodeItems, Layout.rename, List.zip_map, List.map_map, nodeItems]
  exact congrArg (List.map · (nodes.zip layout.tools))
    (funext fun x => nodeItem_relabel h x.1 x.2)

theorem render_relabel (hr : Function.Injective r) (w : Workflow) (layout : Layout) :
    render (w.relabel r f) (layout.rename r) = render w layout := by
  rw [render, root, Workflow.relabel, nodeItems_relabel h, wireItems, Layout.wires_rename hr,
    render, root, wireItems]

end Document

/-! ## notices -/

namespace Workflow

theorem unmapped?_relabel (n : Node) (p : Placement) :
    unmapped? (f n) (p.rename r) = (unmapped? n p).map (Notice.rename r) := by
  rw [unmapped?, h.kind?, h.kindName, unmapped?]
  cases n.kind? <;> rfl

theorem unmappedTools_relabel (nodes : List Node) (layout : Layout) :
    unmappedTools (nodes.map f) (layout.rename r)
      = (unmappedTools nodes layout).map (Notice.rename r) := by
  rw [unmappedTools, Layout.rename, List.zip_map, List.filterMap_map, unmappedTools,
    List.map_filterMap]
  exact congrArg (List.filterMap · (nodes.zip layout.tools))
    (funext fun x => unmapped?_relabel h x.1 x.2)

/-- the first node of a name is the first node of its new name -/
theorem findIdx_relabel (hr : Function.Injective r) (nodes : List Node) (name : String) :
    (nodes.map f).findIdx (·.name == r name) = nodes.findIdx (·.name == name) := by
  rw [List.findIdx_map]
  refine congrArg (List.findIdx · nodes) (funext fun n => ?_)
  show ((f n).name == r name) = (n.name == name)
  rw [h.name, Layout.beq_rename hr]

theorem duplicate?_relabel (hr : Function.Injective r) (nodes : List Node) (index : Nat)
    (n : Node) :
    duplicate? (nodes.map f) index (f n) = (duplicate? nodes index n).map (Notice.rename r) := by
  unfold duplicate?
  rw [h.name, findIdx_relabel h hr, apply_ite (Option.map (Notice.rename r))]
  rfl

theorem duplicates_relabel (hr : Function.Injective r) (nodes : List Node) :
    duplicates (nodes.map f) = (duplicates nodes).map (Notice.rename r) := by
  rw [duplicates, List.zipIdx_map, List.filterMap_map, duplicates, List.map_filterMap]
  exact congrArg (List.filterMap · nodes.zipIdx)
    (funext fun x => duplicate?_relabel h hr nodes x.2 x.1)

/-! ## outputs -/

/-- **Other names change nothing but the names in the notices.** -/
theorem compile_relabel (hr : Function.Injective r) (w : Workflow) :
    (w.relabel r f).compile
      = { w.compile with notices := w.compile.notices.map (Notice.rename r) } := by
  have hlayout : Layout.ofWorkflow (w.relabel r f) = (Layout.ofWorkflow w).rename r :=
    Layout.ofNodes_map h w.nodes
  have hnotices : (w.relabel r f).structural ((Layout.ofWorkflow w).rename r)
        ++ (w.relabel r f).drawing ((Layout.ofWorkflow w).rename r)
      = (w.structural (.ofWorkflow w) ++ w.drawing (.ofWorkflow w)).map (Notice.rename r) := by
    rw [structural, drawing, relabel, duplicates_relabel h hr, cycles_rename hr,
      unmappedTools_relabel h, Layout.dangling_rename hr, ← List.map_append, ← List.map_append,
      ← List.map_append]
    rfl
  unfold compile
  simp only [hlayout, Document.render_relabel h hr, hnotices]
  rfl

end Workflow

end

end Toolflow
