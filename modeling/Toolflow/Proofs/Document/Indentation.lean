import Toolflow.Proofs.Document.Shown
import Toolflow.Proofs.Workflow.Reading
import Toolflow.Proofs.Xml.Lines

/-!
# The indentation of a document

* `Balanced`   a writer closes only what is open, and in the end nothing is;
* `document_indented`   the steps of a document are balanced, and each line of it stands behind
               two spaces for every element that is open around it, an end tag where its start
               tag stands, unless a string that is shown has a line feed of its own.
-/

namespace Toolflow

open Xml

namespace Document

structure Balanced (steps : List Step) : Prop where
  closes : ∀ a name b, steps = a ++ .endTag name :: b → 0 < (Writer.empty.writeAll a).level
  ends : (Writer.empty.writeAll steps).level = 0

theorem level_writeAll (steps : List Step) :
    (Writer.empty.writeAll steps).level = nexts 0 steps := by
  rw [Writer.writeAll_eq]
  rfl

/-- the line that declares a text XML leaves the level alone -/
theorem balanced_steps {leaf : String → Bool} {item : Item} (h : item.Readable leaf) :
    Balanced (.raw declared :: item.steps) where
  closes a name b hsplit := by
    rw [level_writeAll]
    cases a with
    | nil => exact absurd (List.cons.inj hsplit).1 (by simp)
    | cons first a =>
      have hitem : item.steps = a ++ .endTag name :: b := (List.cons.inj hsplit).2
      obtain rfl := (List.cons.inj hsplit).1
      show 0 < nexts 0 a
      exact level_pos_of_endTag h hitem
  ends := by
    rw [level_writeAll]
    exact Item.nexts_steps 0 item

def steps (w : Workflow) : List Step := declaration :: (root w (.ofWorkflow w)).steps

theorem indented_compile {w : Workflow}
    (hstrings : ∀ n ∈ w.nodes, ∀ s ∈ n.shownStrings, '\n' ∉ s.toList) :
    Indented isLeaf w.compile.document.toList := by
  have hdocument : w.compile.document =
      outputs 0 (.raw declared :: (root w (.ofWorkflow w)).steps) := render_eq w _
  have hwithin := (within_documentTree includes_notLineFeed w).mpr fun n hn s hs =>
    within_notLineFeed.mpr (hstrings n hn s hs)
  rw [hdocument]
  refine indented_outputs (readable_root w _) fun x hx => ?_
  rw [tree_root] at hx
  exact within_notLineFeed.mp (hwithin x hx)

/-- **Indentation is nesting depth.**  The document is what its steps write; they close only what
is open, and leave nothing open.  If no string that is shown has a line feed, every line of the
document stands behind two spaces for each element around it. -/
theorem document_indented {value : Json} {w : Workflow} (h : Workflow.ofJson value = .ok w) :
    compile value = .ok w.compile ∧
    w.compile.document = (Writer.empty.writeAll (steps w)).text ∧ Balanced (steps w) ∧
    ((∀ n ∈ w.nodes, ∀ s ∈ n.shownStrings, '\n' ∉ s.toList) →
      Indented isLeaf w.compile.document.toList) :=
  ⟨compile_eq_ok_iff.mpr ⟨w, h, rfl⟩, rfl, balanced_steps (readable_root w _), indented_compile⟩

theorem document_indented_tangled : Workflow.ofJson tangled = .ok tangledWorkflow ∧
    (∀ n ∈ tangledWorkflow.nodes, ∀ s ∈ n.shownStrings, '\n' ∉ s.toList) ∧
    Balanced (steps tangledWorkflow) ∧ Indented isLeaf tangledWorkflow.compile.document.toList := by
  have hstrings : ∀ n ∈ tangledWorkflow.nodes, ∀ s ∈ n.shownStrings, '\n' ∉ s.toList := by decide
  obtain ⟨_, _, hbalanced, hindented⟩ := document_indented ofJson_tangled
  exact ⟨ofJson_tangled, hstrings, hbalanced, hindented hstrings⟩

end Document

end Toolflow
