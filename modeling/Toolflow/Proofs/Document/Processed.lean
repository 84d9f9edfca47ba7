import Toolflow.Proofs.Document.Legal

/-!
# What an XML processor hands on of a document

* `HandedOn`   what is handed on of a tool: every string as it is handed on where it stands, so
               that the tool is as it was if and only if its strings survive;
* `strings_handed_on`   the document of a value of legal strings is handed on in this way, and the
               connections and the properties are handed on as they are.

The characters that do not survive are the ones that no entity is written for: a carriage return
anywhere, and a tab or a line feed in an attribute.  The same setting can be handed on in two ways,
as an expression is that stands in an attribute and in the label of its tool.
-/

namespace Toolflow

namespace Document

open Xml

/-! ## tools -/

theorem normal_toolTree_eq_iff (i : Nat) (kind : Kind) (s : Settings) :
    (toolTree i kind s).normal = toolTree i kind s ↔ ∀ x ∈ s.written, x.Survives :=
  (toolTree i kind s).normal_eq_self_iff.trans
    (forall_written_toolTree (fun _ => Written.survives_of_isPlain) i kind s)

/-- this is handed on of the tool of this index -/
structure HandedOn (i : Nat) (kind : Kind) (s : Settings) (t : Tree) : Prop where
  tree : t = (toolTree i kind s).normal
  strings : t.written = (toolTree i kind s).written.map Written.normal
  survives : ∀ x ∈ s.written, x.normal = x ↔ x.Survives
  unchanged : t = toolTree i kind s ↔ ∀ x ∈ s.written, x.Survives

theorem handedOn_normal (i : Nat) (kind : Kind) (s : Settings) :
    HandedOn i kind s (toolTree i kind s).normal where
  tree := rfl
  strings := (toolTree i kind s).written_normal
  survives := fun x _ => x.normal_eq_self_iff
  unchanged := normal_toolTree_eq_iff i kind s

/-! ## documents -/

/-- what is handed on of the elements of the nodes -/
def handedNodes (w : Workflow) : List Tree :=
  w.nodes.zipIdx.map fun x => (nodeTree x.2 x.1).normal

theorem length_handedNodes (w : Workflow) : (handedNodes w).length = w.nodes.length := by
  rw [handedNodes, List.length_map, List.length_zipIdx]

theorem getElem?_handedNodes {w : Workflow} {i : Nat} {n : Node} {kind : Kind}
    (hn : w.nodes[i]? = some n) (hkind : n.kind? = some kind) :
    (handedNodes w)[i]? = some (toolTree i kind n.settings).normal := by
  have htool : nodeTree i n = toolTree i kind n.settings := by
    rw [nodeTree, hkind]
  rw [handedNodes, List.getElem?_map, List.getElem?_zipIdx, hn, Nat.zero_add, ← htool]
  rfl

theorem normal_documentTree (w : Workflow) :
    (documentTree w).normal = .element "AlteryxDocument" [("yxmdVer", "2025.2")] [
      .element "Nodes" [] (handedNodes w),
      .element "Connections" [] (((Layout.ofWorkflow w).wires w.links).map wireTree),
      propertiesTree] := by
  have hversion : normalAttr ("yxmdVer", "2025.2") = ("yxmdVer", "2025.2") := by decide
  have hnodes : Tree.allNormal (w.nodes.zipIdx.map fun x => nodeTree x.2 x.1) = handedNodes w := by
    rw [Tree.allNormal_eq_map, List.map_map]
    rfl
  have hwires : Tree.allNormal (((Layout.ofWorkflow w).wires w.links).map wireTree)
      = ((Layout.ofWorkflow w).wires w.links).map wireTree := by
    rw [Tree.allNormal_eq_map, List.map_map]
    exact List.map_congr_left fun wire hwire => (isPlain_wires w wire hwire).normal_eq
  have hproperties : propertiesTree.normal = propertiesTree := isPlain_propertiesTree.normal_eq
  rw [documentTree]
  simp only [Tree.normal, Tree.allNormal, List.map_cons, List.map_nil, hversion, hnodes, hwires,
    hproperties]

/-- **The strings of the settings are handed on, each as it is where nothing in it is changed.** -/
theorem strings_handed_on {value : Json} {out : Output} (h : compile value = .ok out)
    (hlegal : ∀ s ∈ value.strings, Legal s) :
    ∃ w nodes, Workflow.ofJson value = .ok w ∧
      processed? isLeaf out.document = some (.element "AlteryxDocument"
        [("yxmdVer", "2025.2")] [
          .element "Nodes" [] nodes,
          .element "Connections" [] (((Layout.ofWorkflow w).wires w.links).map wireTree),
          propertiesTree]) ∧
      nodes.length = w.nodes.length ∧
      ∀ i n kind, w.nodes[i]? = some n → n.kind? = some kind →
        ∃ t, nodes[i]? = some t ∧ HandedOn i kind n.settings t := by
  obtain ⟨w, hw, rfl⟩ := compile_eq_ok_iff.mp h
  refine ⟨w, handedNodes w, hw, ?_, length_handedNodes w, fun i n kind hn hkind => ?_⟩
  · rw [← normal_documentTree]
    exact processed?_of_document? (legal_of_strings hw hlegal) (document?_compile w)
  · exact ⟨_, getElem?_handedNodes hn hkind, handedOn_normal i kind n.settings⟩

/-- a formula on two lines -/
def calculating : Json := .obj
  [("connections", .arr []),
   ("nodes", .arr [.obj [
     ("config", .obj [("formulas", .arr [.arr [.str "x", .str "1\n+ 2"]])]),
     ("node_id", .str "a"), ("schema_id", .str "Formula")]])]

def calculatingWorkflow : Workflow where
  origin := ⟨none, none, none⟩
  nodes := [⟨"a", "Formula", "", .formula [⟨some "x", some "1\n+ 2"⟩]⟩]
  links := []
  unmapped := []

theorem ofJson_calculating : Workflow.ofJson calculating = .ok calculatingWorkflow := rfl

theorem compile_calculating : compile calculating = .ok calculatingWorkflow.compile :=
  compile_eq_ok_iff.mpr ⟨calculatingWorkflow, ofJson_calculating, rfl⟩

theorem legal_calculating : ∀ s ∈ calculating.strings, Legal s := by decide

theorem strings_handed_on_calculating : compile calculating = .ok calculatingWorkflow.compile ∧
    (∀ s ∈ calculating.strings, Legal s) ∧
    ∃ w nodes, Workflow.ofJson calculating = .ok w ∧
      processed? isLeaf calculatingWorkflow.compile.document = some (.element "AlteryxDocument"
        [("yxmdVer", "2025.2")] [
          .element "Nodes" [] nodes,
          .element "Connections" [] (((Layout.ofWorkflow w).wires w.links).map wireTree),
          propertiesTree]) ∧
      nodes.length = w.nodes.length ∧
      ∀ i n kind, w.nodes[i]? = some n → n.kind? = some kind →
        ∃ t, nodes[i]? = some t ∧ HandedOn i kind n.settings t :=
  ⟨compile_calculating, legal_calculating,
    strings_handed_on compile_calculating legal_calculating⟩

/-- a line feed in an attribute is handed on as a space, though it is legal -/
theorem line_feed_not_handed_on :
    Workflow.ofJson calculating = .ok calculatingWorkflow ∧
      compile calculating = .ok calculatingWorkflow.compile ∧
      (∀ s ∈ calculating.strings, Legal s) ∧
      calculatingWorkflow.nodes.map Node.settings = [.formula [⟨some "x", some "1\n+ 2"⟩]] ∧
      ∃ doc, processed? isLeaf calculatingWorkflow.compile.document = some doc ∧
        (doc.named "FormulaField").map (Tree.attr? "expression") = [some "1 + 2"] := by
  refine ⟨ofJson_calculating, compile_calculating, legal_calculating, rfl,
    (documentTree calculatingWorkflow).normal, ?_, ?_⟩
  · exact processed?_of_document? (legal_of_strings ofJson_calculating legal_calculating)
      (document?_compile calculatingWorkflow)
  · rfl

end Document

end Toolflow
