import Toolflow.Layout.Wiring

/-!
# Layouts with one tool of another kind

What a layout knows of a node is its name and its kind.  Where a node keeps its name, the look-ups
find the same tools, and only the kind of the one tool is new.

* `Placement.withKind`, `Layout.withKind`   the tool of this number, of another kind;
* `Wire.leaving`      the wire, leaving the tool of this number at another anchor;
* `ofNodes_set`       another node of the same name is such a layout;
* `wires_withKind`    the same links are drawn between the same tools, and only what leaves the one
                      tool may leave it elsewhere.
-/

namespace Toolflow

/-- the placement, of another kind if it is the one of this tool -/
def Placement.withKind (tool : Nat) (kind? : Option Kind) (p : Placement) : Placement :=
  if p.tool = tool then { p with kind? } else p

/-- the wire, from another anchor if it leaves this tool -/
def Wire.leaving (tool : Nat) (anchor : String) (w : Wire) : Wire :=
  if w.origin = tool then { w with originAnchor := anchor } else w

section
variable (tool : Nat) (kind? : Option Kind) (p : Placement)

theorem Placement.name_withKind : (p.withKind tool kind?).name = p.name := by
  unfold withKind
  split <;> rfl

theorem Placement.tool_withKind : (p.withKind tool kind?).tool = p.tool := by
  unfold withKind
  split <;> rfl

/-- only the tool of this number leaves from the anchor of the new kind -/
theorem Placement.outputAnchor_withKind :
    (p.withKind tool kind?).outputAnchor
      = if p.tool = tool then outputAnchorOf kind? else p.outputAnchor := by
  unfold withKind
  split <;> rfl

theorem Placement.withKind_of_eq (h : p.tool = tool) :
    p.withKind tool kind? = { p with kind? } :=
  if_pos h

theorem Placement.withKind_of_ne (h : p.tool ≠ tool) : p.withKind tool kind? = p :=
  if_neg h

end

namespace Layout

def withKind (tool : Nat) (kind? : Option Kind) (layout : Layout) : Layout :=
  ⟨layout.tools.map (Placement.withKind tool kind?)⟩

theorem ofNodes_set {nodes : List Node} {i : Nat} {n m : Node} (hn : nodes[i]? = some n)
    (hname : m.name = n.name) :
    ofNodes (nodes.set i m) = (ofNodes nodes).withKind (i + 1) m.kind? := by
  refine congrArg Layout.mk (List.ext_getElem? fun j => ?_)
  show (ofNodes (nodes.set i m)).tools[j]? = _
  rw [getElem?_ofNodes, List.getElem?_map, getElem?_ofNodes, Option.map_map]
  by_cases hij : i = j
  · subst hij
    have hlt : i < nodes.length := (List.getElem?_eq_some_iff.mp hn).1
    have hself : (Placement.ofNode i n).tool = i + 1 := rfl
    rw [List.getElem?_set_self hlt, hn, Option.map_some, Option.map_some, Function.comp_apply,
      Placement.withKind_of_eq _ _ _ hself, Placement.ofNode, hname]
    rfl
  · rw [List.getElem?_set_ne hij]
    refine congrArg (nodes[j]?.map ·) (funext fun x => ?_)
    have hne : (Placement.ofNode j x).tool ≠ i + 1 := fun h => hij (Nat.succ.inj h).symm
    exact (Placement.withKind_of_ne _ _ _ hne).symm

theorem withKind_ofNodes {nodes : List Node} {i : Nat} {n : Node} (hn : nodes[i]? = some n) :
    (ofNodes nodes).withKind (i + 1) n.kind? = ofNodes nodes := by
  obtain ⟨hlt, rfl⟩ := List.getElem?_eq_some_iff.mp hn
  rw [← ofNodes_set hn rfl, List.set_getElem_self]

section
variable (tool : Nat) (kind? : Option Kind) (layout : Layout)

theorem find?_withKind (name : String) :
    (layout.withKind tool kind?).find? name
      = (layout.find? name).map (Placement.withKind tool kind?) := by
  have hsame : (fun p : Placement => p.name == name) ∘ Placement.withKind tool kind?
      = fun p => p.name == name :=
    funext fun p => congrArg (· == name) (p.name_withKind tool kind?)
  rw [find?, withKind, ← List.map_reverse, List.find?_map, hsame, find?]

theorem wire?_withKind (l : Link) :
    (layout.withKind tool kind?).wire? l
      = (layout.wire? l).map (Wire.leaving tool (outputAnchorOf kind?)) := by
  rw [wire?, find?_withKind, find?_withKind, wire?]
  cases layout.find? l.source with
  | none => rfl
  | some a =>
    cases layout.find? l.target with
    | none => rfl
    | some b =>
      show some _ = some (Wire.leaving tool (outputAnchorOf kind?) ⟨_, _, _, _⟩)
      rw [a.tool_withKind, a.outputAnchor_withKind, b.tool_withKind, Wire.leaving]
      by_cases ha : a.tool = tool
      · rw [if_pos ha, if_pos ha]
      · rw [if_neg ha, if_neg ha]

/-- **The same links are drawn, and only what leaves the one tool is drawn differently.** -/
theorem wires_withKind (links : List Link) :
    (layout.withKind tool kind?).wires links
      = (layout.wires links).map (Wire.leaving tool (outputAnchorOf kind?)) := by
  unfold wires
  rw [List.map_filterMap]
  exact congrArg (links.filterMap ·) (funext fun l => wire?_withKind tool kind? layout l)

end

end Layout

end Toolflow
