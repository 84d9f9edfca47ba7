import Toolflow.Layout.Wiring

/-!
# Cycles among arcs

An arc whose tail is the head of no arc lies on no cycle.  `Arc.prune` drops all such arcs at
once, and after as many rounds as there are arcs nothing more can be dropped: what is left then,
`Arc.core`, is empty unless there is a cycle.
-/

namespace Toolflow

namespace Arc

/-- the arcs whose tail some arc leads to -/
def prune (arcs : List Arc) : List Arc :=
  arcs.filter fun a => arcs.any fun b => b.head == a.tail

def pruneTimes : Nat → List Arc → List Arc
  | 0, arcs => arcs
  | n + 1, arcs => pruneTimes n (prune arcs)

def core (arcs : List Arc) : List Arc := pruneTimes arcs.length arcs

def cyclic (arcs : List Arc) : Bool := !(core arcs).isEmpty

theorem mem_prune {a : Arc} {arcs : List Arc} :
    a ∈ prune arcs ↔ a ∈ arcs ∧ ∃ b ∈ arcs, b.head = a.tail := by
  simp [prune]

theorem length_prune_le (arcs : List Arc) : (prune arcs).length ≤ arcs.length :=
  List.length_filter_le _ _

end Arc

/-- the links of a workflow form a cycle on this layout -/
def Layout.cyclic (layout : Layout) (links : List Link) : Bool := Arc.cyclic (layout.arcs links)

end Toolflow
