import Toolflow.Layout.Basic

/-!
# Laying tools out in one pass

One pass over the nodes finds their layout.  It keeps a table of names beside the row of tools
(`Plan`): each node puts its tool at the end of the row, and in the table its tool takes the place
of the one that had its name before (`Plan.place`).  Looking a name up (`Plan.find?`) takes the
table alone, and finds what the name refers to on the layout (`Plan.agrees`).
-/

namespace Toolflow

/-! ## tables -/

/-- names, each with the tool that it refers to -/
abbrev Table := List (String × Placement)

namespace Table

/-- a tool under its own name, in place of the one that is there already -/
def enter (p : Placement) : Table → Table
  | [] => [(p.name, p)]
  | (name, q) :: rest => if name = p.name then (name, p) :: rest else (name, q) :: enter p rest

theorem lookup_cons (other : String) (p : Placement) (rest : Table) (name : String) :
    List.lookup name ((other, p) :: rest) = if other = name then some p else rest.lookup name := by
  by_cases h : other = name
  · simp [h]
  · simp [List.lookup_cons, beq_false_of_ne (Ne.symm h), h]

theorem lookup_enter (p : Placement) (table : Table) (name : String) :
    (enter p table).lookup name = if p.name = name then some p else table.lookup name := by
  induction table with
  | nil => rw [enter, lookup_cons]
  | cons entry rest ih =>
    obtain ⟨other, q⟩ := entry
    by_cases hother : other = p.name
    · -- what was found under this name before is found no more
      subst hother
      rw [enter, if_pos rfl, lookup_cons, lookup_cons]
      split <;> rfl
    · rw [enter, if_neg hother, lookup_cons, lookup_cons, ih]
      by_cases hname : other = name
      · subst hname
        rw [if_pos rfl, if_pos rfl, if_neg (Ne.symm hother)]
      · rw [if_neg hname, if_neg hname]

end Table

/-! ## plans -/

/-- a layout with a table of its names -/
structure Plan where
  layout : Layout
  table : Table
  agrees : ∀ name, table.lookup name = layout.find? name
  deriving Repr, DecidableEq

namespace Plan

def empty : Plan where
  layout := ⟨[]⟩
  table := []
  agrees _ := rfl

def place (plan : Plan) (n : Node) (index : Nat) : Plan where
  layout := ⟨plan.layout.tools ++ [.ofNode index n]⟩
  table := plan.table.enter (.ofNode index n)
  agrees name := by rw [Table.lookup_enter, Layout.find?_concat, plan.agrees]

def ofNodes (nodes : List Node) : Plan :=
  nodes.zipIdx.foldl (fun plan (n, index) => plan.place n index) empty

def ofWorkflow (w : Workflow) : Plan := ofNodes w.nodes

def find? (plan : Plan) (name : String) : Option Placement := plan.table.lookup name

theorem layout_place (plan : Plan) (n : Node) (index : Nat) :
    (plan.place n index).layout = ⟨plan.layout.tools ++ [.ofNode index n]⟩ := rfl

/-- the rest of the nodes, when the nodes before are placed -/
theorem layout_placeRest (rest : List Node) {plan : Plan} {done : List Node}
    (h : plan.layout = .ofNodes done) :
    ((rest.zipIdx done.length).foldl (fun plan (n, index) => plan.place n index) plan).layout
      = .ofNodes (done ++ rest) := by
  induction rest generalizing plan done with
  | nil =>
    rw [List.append_nil]
    exact h
  | cons n rest ih =>
    have hplace : (plan.place n done.length).layout = .ofNodes (done ++ [n]) := by
      rw [layout_place, h, Layout.eq_ofNodes_concat]
    have hrest := ih hplace
    rw [List.append_assoc, List.length_append] at hrest
    exact hrest

theorem layout_ofNodes (nodes : List Node) : (ofNodes nodes).layout = .ofNodes nodes := by
  have hempty : empty.layout = .ofNodes [] := rfl
  exact layout_placeRest nodes hempty

theorem find?_eq (plan : Plan) (name : String) : plan.find? name = plan.layout.find? name :=
  plan.agrees name

end Plan

end Toolflow
