import Toolflow.Xml.Writer

/-!
# Trees of XML

What a document is built from:

* `Item.container`  an element that holds elements; it always has a start and an end tag, each on
                    a line of its own;
* `Item.leaf`       an element on one line, with a text or, where that is empty, without content;
* `Item.comment`    a comment.

`Item.steps` is the way the tree is written.  The tags of an item match, so the level after an
item is the level before it (`nexts_steps`).
-/

namespace Toolflow.Xml

inductive Item where
  | container (name : String) (attrs : List Attr) (items : List Item)
  | leaf (name : String) (attrs : List Attr) (text : String)
  | comment (text : String)
  deriving Repr

namespace Item

/-- an element without content -/
def empty (name : String) (attrs : List Attr) : Item := leaf name attrs ""

/-- an element whose content is its one attribute -/
def value (name text : String) : Item := leaf name [("value", text)] ""

mutual

def steps : Item → List Step
  | container name attrs items => .startTag name attrs :: (stepsAll items ++ [.endTag name])
  | leaf name attrs text => [.text name attrs text]
  | comment text => [.comment text]

def stepsAll : List Item → List Step
  | [] => []
  | item :: rest => item.steps ++ stepsAll rest

end

theorem stepsAll_eq_flatMap (items : List Item) : stepsAll items = items.flatMap steps := by
  induction items with
  | nil => simp [stepsAll]
  | cons item rest ih => simp [stepsAll, ih]

end Item

theorem nexts_append (level : Nat) (a b : List Step) :
    nexts level (a ++ b) = nexts (nexts level a) b := by
  simp [nexts]

theorem outputs_append (level : Nat) (a b : List Step) :
    outputs level (a ++ b) = outputs level a ++ outputs (nexts level a) b := by
  induction a generalizing level with
  | nil => simp [outputs, nexts]
  | cons s rest ih => simp [outputs, ih, nexts, String.append_assoc]

mutual

theorem Item.nexts_steps (level : Nat) : (item : Item) → nexts level item.steps = level
  | .container name attrs items => by
    have ih := Item.nexts_stepsAll (level + 1) items
    simp only [nexts] at ih
    simp [Item.steps, nexts, Step.next, ih]
  | .leaf _ _ _ => by simp [Item.steps, nexts, Step.next]
  | .comment _ => by simp [Item.steps, nexts, Step.next]

theorem Item.nexts_stepsAll (level : Nat) :
    (items : List Item) → nexts level (Item.stepsAll items) = level
  | [] => by simp [Item.stepsAll, nexts]
  | item :: rest => by
    simp only [Item.stepsAll, nexts_append, Item.nexts_steps level item]
    exact Item.nexts_stepsAll level rest

end

end Toolflow.Xml
