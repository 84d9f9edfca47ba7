import Toolflow.Proofs.Xml.Reader

/-!
# Looking for elements

* `Tree.named name t`   the elements of this name in a tree, wherever they stand, from the front;
* `Tree.attr? t key`    the value of an attribute of an element.
-/

namespace Toolflow.Xml.Tree

/-- the value of an attribute, if this is an element that has it -/
def attr? (key : String) : Tree → Option String
  | element _ attrs _ => attrs.lookup key
  | _ => none

mutual

/-- the elements of this name; an element stands before those inside it -/
def named (name : String) : Tree → List Tree
  | element n attrs content =>
    (if n = name then [element n attrs content] else []) ++ allNamed name content
  | text _ => []
  | comment _ => []

def allNamed (name : String) : List Tree → List Tree
  | [] => []
  | t :: rest => t.named name ++ allNamed name rest

end

section
variable {name n : String} {attrs : List Attr} {content : List Tree}

theorem allNamed_eq_flatMap (name : String) (trees : List Tree) :
    allNamed name trees = trees.flatMap (named name) := by
  induction trees with
  | nil => rfl
  | cons t rest ih => rw [allNamed, ih, List.flatMap_cons]

theorem allNamed_eq_nil {trees : List Tree} (h : ∀ t ∈ trees, t.named name = []) :
    allNamed name trees = [] := by
  rw [allNamed_eq_flatMap]
  exact List.flatMap_eq_nil_iff.mpr h

theorem named_of_ne (h : n ≠ name) :
    (element n attrs content).named name = allNamed name content := by
  rw [named, if_neg h, List.nil_append]

theorem named_self : (element n attrs content).named n
    = element n attrs content :: allNamed n content := by
  rw [named, if_pos rfl, List.singleton_append]

theorem named_comment (body : String) : (comment body).named name = [] := by
  rw [named]

end

end Toolflow.Xml.Tree
