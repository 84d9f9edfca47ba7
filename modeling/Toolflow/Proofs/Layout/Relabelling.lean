import Mathlib.Logic.Function.Basic
import Toolflow.Layout.Cycle

/-!
# Layouts under other names

Names only serve to be found: where all of them are renamed, and no two become one, a look-up finds
what it found before.

* `Placement.rename`, `Link.rename`, `Notice.rename`   one of each with other names, and nothing
                       else changed;
* `Layout.rename`      all tools under other names;
* `find?_rename`       the look-up of a new name finds the tool of the old one;
* `wires_rename`, `arcs_rename`, `dangling_rename`   the same links are drawn, between the same
                       tools, and the others are reported under their new names.

The layout need not belong to the links.
-/

namespace Toolflow

def Placement.rename (r : String → String) (p : Placement) : Placement :=
  { p with name := r p.name }

def Link.rename (r : String → String) (l : Link) : Link := ⟨r l.source, r l.target⟩

/-- the notice with other names of nodes in it -/
def Notice.rename (r : String → String) : Notice → Notice
  | dangling index source target missing => dangling index (r source) (r target) missing
  | duplicate name first tool => duplicate (r name) first tool
  | unmapped tool kindName => unmapped tool kindName
  | cycle => cycle

theorem Notice.rename_id : Notice.rename id = id := by
  funext n
  cases n <;> rfl

namespace Layout

def rename (r : String → String) (layout : Layout) : Layout :=
  ⟨layout.tools.map (Placement.rename r)⟩

section
variable {r : String → String} (hr : Function.Injective r) (layout : Layout)
include hr

theorem beq_rename (a b : String) : (r a == r b) = (a == b) := by
  rw [Bool.eq_iff_iff, beq_iff_eq, beq_iff_eq]
  exact hr.eq_iff

/-- **The look-up of a new name finds the tool of the old one.** -/
theorem find?_rename (name : String) :
    (layout.rename r).find? (r name) = (layout.find? name).map (Placement.rename r) := by
  have hsame : (fun p : Placement => p.name == r name) ∘ Placement.rename r
      = fun p => p.name == name := funext fun p => beq_rename hr p.name name
  rw [find?, rename, ← List.map_reverse, List.find?_map, hsame, find?]

theorem wire?_rename (l : Link) : (layout.rename r).wire? (l.rename r) = layout.wire? l := by
  rw [wire?, Link.rename, find?_rename hr, find?_rename hr, wire?]
  cases layout.find? l.source <;> cases layout.find? l.target <;> rfl

theorem arc?_rename (index : Nat) (l : Link) :
    (layout.rename r).arc? index (l.rename r) = layout.arc? index l := by
  rw [arc?, Link.rename, find?_rename hr, find?_rename hr, arc?]
  cases layout.find? l.source <;> cases layout.find? l.target <;> rfl

theorem missing?_rename (l : Link) :
    (layout.rename r).missing? (l.rename r) = layout.missing? l := by
  rw [missing?, Link.rename, find?_rename hr, find?_rename hr, Option.isSome_map, Option.isSome_map,
    missing?]

theorem dangling?_rename (index : Nat) (l : Link) :
    (layout.rename r).dangling? index (l.rename r)
      = (layout.dangling? index l).map (Notice.rename r) := by
  rw [dangling?, missing?_rename hr, dangling?, Option.map_map]
  rfl

/-! ## all links -/

variable (links : List Link)

theorem wires_rename :
    (layout.rename r).wires (links.map (Link.rename r)) = layout.wires links := by
  rw [wires, List.filterMap_map, wires]
  exact congrArg (links.filterMap ·) (funext fun l => wire?_rename hr layout l)

theorem arcs_rename : (layout.rename r).arcs (links.map (Link.rename r)) = layout.arcs links := by
  rw [arcs, List.zipIdx_map, List.filterMap_map, arcs]
  exact congrArg (links.zipIdx.filterMap ·) (funext fun x => arc?_rename hr layout x.2 x.1)

theorem cyclic_rename :
    (layout.rename r).cyclic (links.map (Link.rename r)) = layout.cyclic links := by
  rw [cyclic, arcs_rename hr, cyclic]

theorem dangling_rename :
    (layout.rename r).dangling (links.map (Link.rename r))
      = (layout.dangling links).map (Notice.rename r) := by
  rw [dangling, List.zipIdx_map, List.filterMap_map, dangling, List.map_filterMap]
  exact congrArg (links.zipIdx.filterMap ·) (funext fun x => dangling?_rename hr layout x.2 x.1)

end

end Layout

end Toolflow
