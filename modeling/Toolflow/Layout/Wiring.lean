import Toolflow.Layout.Basic
import Toolflow.Notice

/-!
# Links between placed tools

Given a layout, a link either joins two tools or has an end that names none.

* `Layout.wires`     the links that join two tools, as they are drawn (`Wire`);
* `Layout.arcs`      the same links as arcs between the indices of the tools, each with the index
                     of its link (`Arc`);
* `Layout.dangling`  a notice for each of the other links.

All three keep the order of the links.
-/

namespace Toolflow

structure Wire where
  origin : Nat
  originAnchor : String
  destination : Nat
  destinationAnchor : String
  deriving Repr, DecidableEq

structure Arc where
  tail : Nat
  head : Nat
  link : Nat
  deriving Repr, DecidableEq

namespace Layout

/-! ## one link -/

def wire? (layout : Layout) (link : Link) : Option Wire :=
  match layout.find? link.source, layout.find? link.target with
  | some a, some b => some ⟨a.tool, a.outputAnchor, b.tool, inputAnchor⟩
  | _, _ => none

/-- tool `t` is the vertex `t - 1` -/
def arc? (layout : Layout) (index : Nat) (link : Link) : Option Arc :=
  match layout.find? link.source, layout.find? link.target with
  | some a, some b => some ⟨a.tool - 1, b.tool - 1, index⟩
  | _, _ => none

/-- which ends of the link are missing -/
def missing? (layout : Layout) (link : Link) : Option Missing :=
  Missing.ofFound (layout.find? link.source).isSome (layout.find? link.target).isSome

def dangling? (layout : Layout) (index : Nat) (link : Link) : Option Notice :=
  (layout.missing? link).map (.dangling index link.source link.target)

/-! ## all links -/

def wires (layout : Layout) (links : List Link) : List Wire := links.filterMap layout.wire?

def arcs (layout : Layout) (links : List Link) : List Arc :=
  links.zipIdx.filterMap fun (link, index) => layout.arc? index link

def dangling (layout : Layout) (links : List Link) : List Notice :=
  links.zipIdx.filterMap fun (link, index) => layout.dangling? index link

section
variable {layout : Layout} {link : Link}

theorem missing?_eq_none_iff :
    layout.missing? link = none ↔
      (layout.find? link.source).isSome ∧ (layout.find? link.target).isSome :=
  Missing.ofFound_eq_none_iff

theorem isSome_wire? :
    (layout.wire? link).isSome = (layout.missing? link).isNone := by
  unfold wire? missing?
  cases layout.find? link.source <;> cases layout.find? link.target <;> rfl

theorem isSome_dangling? (index : Nat) :
    (layout.dangling? index link).isSome = !(layout.wire? link).isSome := by
  rw [isSome_wire?, dangling?]
  cases layout.missing? link <;> rfl

end

end Layout

end Toolflow
