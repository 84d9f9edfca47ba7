import Toolflow.Layout.Plan
import Toolflow.Proofs.Layout.Lookup

/-!
# What a pass over the nodes finds

The pass puts the tools into a row and overwrites its table of names as it goes, so what it finds
in the end depends on the order of the nodes and on every repetition among their names.

* `Planned`            what a plan tells of the nodes that it was made of;
* `planned_ofNodes`    the pass finds such a plan, for any nodes.

The table and the layout agree because every plan carries the proof (`Plan.agrees`).  What is left
is what a layout says of a name, and that is `find?_ofNodes_eq_some_iff`.
-/

namespace Toolflow

namespace Layout

section
variable {nodes : List Node} {i : Nat} {p : Placement}

theorem tool_of_getElem? (h : (ofNodes nodes).tools[i]? = some p) :
    p.tool = i + 1 ∧ p.point = ⟨54 + 150 * i, 54⟩ := by
  rw [getElem?_ofNodes] at h
  obtain ⟨n, _, rfl⟩ := Option.map_eq_some_iff.mp h
  exact ⟨rfl, rfl⟩

theorem fits_of_last {bound : Nat} {last : Placement}
    (hlast : (ofNodes nodes).tools.getLast? = some last) (hbound : last.point.x < bound)
    (hp : p ∈ (ofNodes nodes).tools) : p.tool < bound ∧ p.point.x < bound := by
  obtain ⟨i, hi⟩ := List.mem_iff_getElem?.mp hp
  obtain ⟨htool, hpoint⟩ := tool_of_getElem? hi
  have hlength : i < (ofNodes nodes).tools.length := (List.getElem?_eq_some_iff.mp hi).1
  rw [List.getLast?_eq_getElem?] at hlast
  obtain ⟨_, hlastPoint⟩ := tool_of_getElem? hlast
  -- the places grow along the row, and no number is greater than the place of its tool
  have hrow : 54 + 150 * i ≤ last.point.x := by
    rw [hlastPoint]
    show 54 + 150 * i ≤ 54 + 150 * ((ofNodes nodes).tools.length - 1)
    omega
  rw [htool, hpoint]
  show i + 1 < bound ∧ 54 + 150 * i < bound
  omega

end

end Layout

structure Planned (nodes : List Node) (plan : Plan) : Prop where
  layout : plan.layout = .ofNodes nodes
  length_tools : plan.layout.tools.length = nodes.length
  tool : ∀ i p, plan.layout.tools[i]? = some p → p.tool = i + 1 ∧ p.point = ⟨54 + 150 * i, 54⟩
  /-- if the last place fits into 64 bits, so does everything else -/
  fits : ∀ last p, plan.layout.tools.getLast? = some last → last.point.x < UInt64.size →
    p ∈ plan.layout.tools → p.tool < UInt64.size ∧ p.point.x < UInt64.size
  find?_eq_none_iff : ∀ name, plan.find? name = none ↔ ¬ Named nodes name
  /-- a name refers to the tool and the kind of the last node that has it -/
  refers : ∀ name, Named nodes name → ∃ i n, LastNamed nodes i n ∧ n.name = name ∧
    (plan.find? name).map (fun p => (p.tool, p.kind?)) = some (i + 1, n.kind?)
  find?_eq : ∀ name, plan.find? name = (Layout.ofNodes nodes).find? name
  name_eq : ∀ name other p q, plan.find? name = some p → plan.find? other = some q →
    p.tool = q.tool → name = other

namespace Plan

theorem find?_ofNodes (nodes : List Node) (name : String) :
    (ofNodes nodes).find? name = (Layout.ofNodes nodes).find? name := by
  rw [find?_eq, layout_ofNodes]

theorem refers_ofNodes {nodes : List Node} {name : String} (h : Named nodes name) :
    ∃ i n, LastNamed nodes i n ∧ n.name = name ∧
      ((ofNodes nodes).find? name).map (fun p => (p.tool, p.kind?)) = some (i + 1, n.kind?) := by
  obtain ⟨p, hp⟩ := Option.isSome_iff_exists.mp (Layout.isSome_find?_ofNodes.mpr h)
  obtain ⟨i, n, hlast, hname, rfl⟩ := Layout.find?_ofNodes_eq_some_iff.mp hp
  rw [find?_ofNodes, hp]
  exact ⟨i, n, hlast, hname, rfl⟩

theorem planned_ofNodes (nodes : List Node) : Planned nodes (ofNodes nodes) where
  layout := layout_ofNodes nodes
  length_tools := by rw [layout_ofNodes, Layout.length_ofNodes]
  tool i p h := by
    rw [layout_ofNodes] at h
    exact Layout.tool_of_getElem? h
  fits last p hlast hbound hp := by
    rw [layout_ofNodes] at hlast hp
    exact Layout.fits_of_last hlast hbound hp
  find?_eq_none_iff name := by
    rw [find?_ofNodes]
    exact Layout.find?_ofNodes_eq_none_iff
  refers _ := refers_ofNodes
  find?_eq := find?_ofNodes nodes
  name_eq name other p q hp hq htool := by
    rw [find?_ofNodes] at hp hq
    exact Layout.name_eq_of_tool_eq hp hq htool

/-- **A plan looks a name up at the last node that has it.** -/
theorem names_last_node (w : Workflow) : Planned w.nodes (ofWorkflow w) :=
  planned_ofNodes w.nodes

end Plan

end Toolflow
