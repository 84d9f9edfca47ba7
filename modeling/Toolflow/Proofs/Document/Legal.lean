import Toolflow.Proofs.Document.Shown
import Toolflow.Proofs.Xml.Processor

/-!
# Documents of legal characters

* `legal_compile_iff`    a document is legal if and only if every string that is shown in it is;
* `legal_of_strings`     so the document of a value of legal strings is legal;
* `document_legal_iff`   an XML processor takes exactly the documents that are legal.

No string is looked at before it is shown.  A character that XML does not allow goes into the
document as it is, and no processor takes the document after that.
-/

namespace Toolflow

open Xml

namespace Document

/-- the strings that are shown decide, for all others are plain -/
theorem legal_compile_iff (w : Workflow) :
    Legal w.compile.document ↔ ∀ n ∈ w.nodes, ∀ s ∈ n.shownStrings, Legal s := by
  have hdeclared : Legal (declared ++ "\n") := by decide
  show Legal (render w (.ofWorkflow w)) ↔ _
  rw [render_eq_declared, legal_append, legal_outputs_steps (readable_root w _), tree_root]
  exact (and_iff_right hdeclared).trans (within_documentTree includes_isLegal w)

theorem legal_of_strings {value : Json} {w : Workflow} (h : Workflow.ofJson value = .ok w)
    (hlegal : ∀ s ∈ value.strings, Legal s) : Legal w.compile.document := by
  rw [legal_compile_iff]
  intro n hn s hs
  have hread := Workflow.ofJson_eq_ok_iff_readFrom.mp h
  rcases hread.mem_strings hn (n.shownStrings_subset hs) with rfl | hs
  · exact within_empty
  · exact hlegal s hs

theorem isSome_processed?_compile_iff (w : Workflow) :
    (processed? isLeaf w.compile.document).isSome ↔ Legal w.compile.document := by
  constructor
  · intro h
    obtain ⟨t, ht⟩ := Option.isSome_iff_exists.mp h
    exact legal_of_processed? ht
  · intro h
    rw [processed?_of_document? h (document?_compile w)]
    rfl

/-- **A document is legal if and only if the strings that are shown in it are**, and an XML
processor takes exactly the documents that are legal. -/
theorem document_legal_iff {value : Json} {out : Output} (h : compile value = .ok out) :
    ∃ w, Workflow.ofJson value = .ok w ∧
      (Legal out.document ↔ ∀ n ∈ w.nodes, ∀ s ∈ n.shownStrings, Legal s) ∧
      ((∀ s ∈ value.strings, Legal s) → Legal out.document) ∧
      ((processed? isLeaf out.document).isSome ↔ Legal out.document) := by
  obtain ⟨w, hw, rfl⟩ := compile_eq_ok_iff.mp h
  exact ⟨w, hw, legal_compile_iff w, legal_of_strings hw, isSome_processed?_compile_iff w⟩

/-- a filter by an expression that holds the character of the bell -/
def ringing : Json := .obj
  [("connections", .arr []),
   ("nodes", .arr [.obj [("config", .obj [("filter_expression", .str "\x07")]),
     ("node_id", .str "a"), ("schema_id", .str "Filter")]])]

def ringingWorkflow : Workflow where
  origin := ⟨none, none, none⟩
  nodes := [⟨"a", "Filter", "", .filter (some "\x07")⟩]
  links := []
  unmapped := []

theorem ofJson_ringing : Workflow.ofJson ringing = .ok ringingWorkflow := rfl

theorem compile_ringing : compile ringing = .ok ringingWorkflow.compile :=
  compile_eq_ok_iff.mpr ⟨ringingWorkflow, ofJson_ringing, rfl⟩

theorem document_legal_iff_ringing : compile ringing = .ok ringingWorkflow.compile ∧
    ∃ w, Workflow.ofJson ringing = .ok w ∧
      (Legal ringingWorkflow.compile.document ↔ ∀ n ∈ w.nodes, ∀ s ∈ n.shownStrings, Legal s) ∧
      ((∀ s ∈ ringing.strings, Legal s) → Legal ringingWorkflow.compile.document) ∧
      ((processed? isLeaf ringingWorkflow.compile.document).isSome ↔
        Legal ringingWorkflow.compile.document) :=
  ⟨compile_ringing, document_legal_iff compile_ringing⟩

/-- the character of the bell is not legal, and no processor takes the document -/
theorem document_not_legal : compile ringing = .ok ringingWorkflow.compile ∧
    ¬ Legal ringingWorkflow.compile.document ∧
    processed? isLeaf ringingWorkflow.compile.document = none := by
  have hbell : ¬ Legal ringingWorkflow.compile.document := by
    rw [legal_compile_iff]
    intro hlegal
    exact absurd (hlegal _ List.mem_cons_self "\x07" List.mem_cons_self) (by decide)
  refine ⟨compile_ringing, hbell, ?_⟩
  rw [← Option.not_isSome_iff_eq_none, isSome_processed?_compile_iff]
  exact hbell

end Document

end Toolflow
