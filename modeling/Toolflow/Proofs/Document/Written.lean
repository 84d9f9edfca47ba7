import Toolflow.Proofs.Document.Graph
import Toolflow.Proofs.Xml.Written

/-!
# The strings of a document

* `Settings.written`   the strings that the settings of a tool put into its element, each with the
                       place where it is put; absent settings appear as their defaults;
* `Node.written`       those of a node, whether it is drawn or stands in a comment;
* `forall_written_documentTree`   every other string of a document is plain, so what is true of
                       plain strings is true of all strings of a document if and only if it is
                       true of these.
-/

namespace Toolflow

open Xml

/-! ## settings -/

def Aggregation.written (a : Aggregation) : List Written :=
  [.value (plain a.field), .value (plain a.action), .value a.result]

def Assignment.written (a : Assignment) : List Written :=
  [.value (plain a.expression), .value (plain a.field)]

def SortTerm.written (t : SortTerm) : List Written :=
  [.value (plain t.field), .value (plain t.order)]

def Match.written (m : Match) : List Written := [.value (plain m.left), .value (plain m.right)]

def Column.written (c : Column) : List Written := [.value (plain c.field)]

namespace Settings

/-- the strings in the configuration of the tool -/
def configured : Settings → List Written
  | input table => [.text (inputFile table)]
  | output table => [.text (outputFile table)]
  | filter expression => [.text (filterExpression expression)]
  | summarize groups aggregations =>
    groups.map .value ++ aggregations.flatMap Aggregation.written
  | formula assignments => assignments.flatMap Assignment.written
  | sort terms => terms.flatMap SortTerm.written
  | join pairs => pairs.flatMap Match.written
  | select columns => columns.flatMap Column.written
  | sample _ method => [.text (sampleMethod method)]
  | unique fields => fields.map .value
  | unmapped => []

/-- the strings of the tool, its annotation among them -/
def written (s : Settings) : List Written := .text s.caption :: s.configured

end Settings

/-- the strings of a node that is drawn, or the body of the comment in its place -/
def Node.written (n : Node) : List Written :=
  match n.kind? with
  | some _ => n.settings.written
  | none => [.comment (commentText ("UNMAPPED NODE: " ++ n.kindName ++ " - " ++ n.source))]

namespace Document

theorem forall_written_empty {P : Written → Prop} {name : String} {attrs : List Attr} :
    (∀ x ∈ (Tree.empty name attrs).written, P x) ↔ ∀ a ∈ attrs, P (.value a.2) := by
  rw [Tree.empty, Tree.forall_written_element]
  exact and_iff_left (List.forall_mem_nil _)

/-! ## fixed strings -/

theorem isPlain_propertiesTree : propertiesTree.IsPlain := by decide

theorem isPlain_plugin (kind : Kind) : IsPlain kind.plugin := by
  unfold Kind.plugin
  cases kind <;> exact isPlain_ofList (by decide)

theorem isPlain_entryPoint (kind : Kind) : IsPlain kind.entryPoint := by
  unfold Kind.entryPoint
  cases kind <;> exact isPlain_ofList (by decide)

theorem isPlain_outputAnchorOf (kind? : Option Kind) : IsPlain (outputAnchorOf kind?) := by
  cases kind? with
  | none => decide
  | some kind => cases kind <;> decide

/-- what is drawn of a link is fixed but for numbers and anchors -/
theorem isPlain_wireTree {w : Wire} (horigin : IsPlain w.originAnchor)
    (hdestination : IsPlain w.destinationAnchor) : (wireTree w).IsPlain := by
  unfold Tree.IsPlain wireTree
  rw [Tree.forall_written_inside, List.forall_mem_cons, List.forall_mem_singleton,
    forall_written_empty, forall_written_empty, List.forall_mem_cons, List.forall_mem_singleton,
    List.forall_mem_cons, List.forall_mem_singleton]
  exact ⟨⟨isPlain_toString _, horigin⟩, isPlain_toString _, hdestination⟩

theorem isPlain_wires (w : Workflow) :
    ∀ wire ∈ (Layout.ofWorkflow w).wires w.links, (wireTree wire).IsPlain := by
  intro wire hwire
  obtain ⟨l, _, hl⟩ := List.mem_filterMap.mp hwire
  obtain ⟨a, b, _, _, rfl⟩ := Layout.wire?_eq_some_iff.mp hl
  exact isPlain_wireTree (isPlain_outputAnchorOf _) (show IsPlain inputAnchor by decide)

/-! ## strings of nodes -/

section
variable {P : Written → Prop} (hplain : ∀ x : Written, IsPlain x.string → P x)
  {name : String} {attrs : List Attr}

/-- an element that holds one element for each entry -/
theorem forall_written_entries {α : Type} {tree : α → Tree} {strings : α → List Written}
    (h : ∀ a, (∀ x ∈ (tree a).written, P x) ↔ ∀ x ∈ strings a, P x) (entries : List α) :
    (∀ x ∈ (Tree.element name [] (entries.map tree)).written, P x) ↔
      ∀ x ∈ entries.flatMap strings, P x := by
  rw [Tree.forall_written_inside, List.forall_mem_map, List.forall_mem_flatMap]
  exact forall₂_congr fun a _ => h a

theorem forall_written_aggregation (a : Aggregation) :
    (∀ x ∈ a.tree.written, P x) ↔ ∀ x ∈ a.written, P x := by
  rw [Aggregation.tree, forall_written_empty]
  simp [Aggregation.written]

theorem forall_written_sortTerm (t : SortTerm) :
    (∀ x ∈ t.tree.written, P x) ↔ ∀ x ∈ t.written, P x := by
  rw [SortTerm.tree, forall_written_empty]
  simp [SortTerm.written]

theorem forall_written_match (m : Match) :
    (∀ x ∈ m.tree.written, P x) ↔ ∀ x ∈ m.written, P x := by
  rw [Match.tree, forall_written_empty]
  simp [Match.written]

theorem forall_written_uniqueTree (field : String) :
    (∀ x ∈ (uniqueTree field).written, P x) ↔ P (.value field) := by
  rw [uniqueTree, forall_written_empty, List.forall_mem_singleton]

include hplain

theorem forall_written_fixed {t : Tree} (h : t.IsPlain) : ∀ x ∈ t.written, P x :=
  fun x hx => hplain x (h x hx)

theorem forall_written_leaf (text : String) :
    (∀ x ∈ (Tree.leaf name attrs text).written, P x) ↔
      (∀ a ∈ attrs, P (.value a.2)) ∧ P (.text text) := by
  rw [Tree.leaf, Tree.forall_written_element]
  refine and_congr_right fun _ => ?_
  by_cases hempty : text = ""
  · rw [if_pos hempty, hempty]
    exact iff_of_true (List.forall_mem_nil _) (hplain _ (by decide))
  · rw [if_neg hempty, List.forall_mem_singleton, Tree.forall_written_text]

/-- a leaf without attributes -/
theorem forall_written_bareLeaf (text : String) :
    (∀ x ∈ (Tree.leaf name [] text).written, P x) ↔ P (.text text) := by
  rw [forall_written_leaf hplain]
  exact and_iff_right (List.forall_mem_nil _)

theorem forall_written_fileTree (file : String) :
    (∀ x ∈ (fileTree file).written, P x) ↔ P (.text file) := by
  rw [fileTree, forall_written_leaf hplain, List.forall_mem_singleton]
  exact and_iff_right (hplain _ (isPlain_toString _))

theorem forall_written_groupTree (field : String) :
    (∀ x ∈ (groupTree field).written, P x) ↔ P (.value field) := by
  have haction : P (.value "GroupBy") := hplain _ (show IsPlain "GroupBy" by decide)
  rw [groupTree, forall_written_empty]
  simp [haction]

theorem forall_written_assignment (a : Assignment) :
    (∀ x ∈ a.tree.written, P x) ↔ ∀ x ∈ a.written, P x := by
  have hsize : P (.value "1073741823") := hplain _ (show IsPlain "1073741823" by decide)
  have htype : P (.value "V_WString") := hplain _ (show IsPlain "V_WString" by decide)
  rw [Assignment.tree, forall_written_empty]
  simp [Assignment.written, hsize, htype]

theorem forall_written_column (c : Column) :
    (∀ x ∈ c.tree.written, P x) ↔ ∀ x ∈ c.written, P x := by
  have hselected : P (.value (if c.isSelected then "True" else "False")) := by
    cases c.isSelected with
    | true => exact hplain _ (show IsPlain "True" by decide)
    | false => exact hplain _ (show IsPlain "False" by decide)
  rw [Column.tree, forall_written_empty]
  simp [Column.written, hselected]

/-- **Of the configuration of a tool only the strings of its settings are not plain.** -/
theorem forall_written_content (s : Settings) :
    (∀ t ∈ s.content, ∀ x ∈ t.written, P x) ↔ ∀ x ∈ s.configured, P x := by
  cases s with
  | input table =>
    rw [Settings.content, List.forall_mem_cons, List.forall_mem_singleton,
      forall_written_fileTree hplain, Settings.configured, List.forall_mem_singleton]
    exact and_iff_left (forall_written_fixed hplain (by decide))
  | output table =>
    rw [Settings.content, List.forall_mem_cons, List.forall_mem_cons, List.forall_mem_singleton,
      forall_written_fileTree hplain, Settings.configured, List.forall_mem_singleton]
    exact and_iff_left
      ⟨forall_written_fixed hplain (by decide), forall_written_fixed hplain (by decide)⟩
  | filter expression =>
    rw [Settings.content, List.forall_mem_cons, List.forall_mem_singleton,
      forall_written_bareLeaf hplain, Settings.configured, List.forall_mem_singleton]
    exact and_iff_left (forall_written_fixed hplain (by decide))
  | summarize groups aggregations =>
    rw [Settings.content, List.forall_mem_singleton, Tree.forall_written_inside,
      List.forall_mem_append, List.forall_mem_map, List.forall_mem_map, Settings.configured,
      List.forall_mem_append, List.forall_mem_map, List.forall_mem_flatMap]
    have hgroups : (∀ field ∈ groups, ∀ x ∈ (groupTree field).written, P x) ↔
        ∀ field ∈ groups, P (.value field) :=
      forall₂_congr fun field _ => forall_written_groupTree hplain field
    have haggregations : (∀ a ∈ aggregations, ∀ x ∈ a.tree.written, P x) ↔
        ∀ a ∈ aggregations, ∀ x ∈ a.written, P x :=
      forall₂_congr fun a _ => forall_written_aggregation a
    rw [hgroups, haggregations]
  | formula assignments =>
    rw [Settings.content, List.forall_mem_singleton]
    exact forall_written_entries (forall_written_assignment hplain) assignments
  | sort terms =>
    rw [Settings.content, List.forall_mem_singleton]
    exact forall_written_entries forall_written_sortTerm terms
  | join pairs =>
    rw [Settings.content, List.forall_mem_singleton]
    exact forall_written_entries forall_written_match pairs
  | select columns =>
    rw [Settings.content, List.forall_mem_singleton]
    exact forall_written_entries (forall_written_column hplain) columns
  | sample count method =>
    rw [Settings.content, List.forall_mem_cons, List.forall_mem_singleton,
      forall_written_bareLeaf hplain, forall_written_bareLeaf hplain, Settings.configured,
      List.forall_mem_singleton]
    exact and_iff_left (hplain _ (isPlain_toString _))
  | unique fields =>
    rw [Settings.content, List.forall_mem_singleton, Tree.forall_written_inside,
      List.forall_mem_map, Settings.configured, List.forall_mem_map]
    exact forall₂_congr fun field _ => forall_written_uniqueTree field
  | unmapped => exact iff_of_true (List.forall_mem_nil _) (List.forall_mem_nil _)

theorem forall_written_annotationTree (label : String) :
    (∀ x ∈ (annotationTree label).written, P x) ↔ P (.text label) := by
  have hmode : P (.value "0") := hplain _ (show IsPlain "0" by decide)
  have hname : ∀ x ∈ (Tree.empty "Name" []).written, P x := List.forall_mem_nil _
  have hleft : ∀ x ∈ (Tree.value "Left" "False").written, P x :=
    forall_written_fixed hplain (by decide)
  rw [annotationTree, Tree.forall_written_element, List.forall_mem_singleton,
    List.forall_mem_cons, List.forall_mem_cons, List.forall_mem_singleton,
    forall_written_bareLeaf hplain]
  exact ⟨fun h => h.2.2.1, fun h => ⟨hmode, hname, h, hleft⟩⟩

theorem forall_written_configuration (s : Settings) :
    (∀ x ∈ (Tree.element "Configuration" s.attributes s.content).written, P x) ↔
      ∀ x ∈ s.configured, P x := by
  have hattrs : ∀ a ∈ s.attributes, P (.value a.2) := by
    cases s with
    | join pairs => exact List.forall_mem_singleton.mpr (hplain _ (show IsPlain "False" by decide))
    | _ => exact List.forall_mem_nil _
  rw [Tree.forall_written_element, forall_written_content hplain]
  exact and_iff_right hattrs

/-- **Of a tool only the strings of its settings, and its annotation, are not plain.** -/
theorem forall_written_toolTree (i : Nat) (kind : Kind) (s : Settings) :
    (∀ x ∈ (toolTree i kind s).written, P x) ↔ ∀ x ∈ s.written, P x := by
  have hnumber : ∀ n : Nat, P (.value (toString n)) := fun n => hplain _ (isPlain_toString n)
  have hplace : ∀ x ∈ (Tree.element "GuiSettings" [("Plugin", kind.plugin)]
      [.empty "Position" [("x", toString (54 + 150 * i)), ("y", "54")]]).written, P x := by
    rw [Tree.forall_written_element, List.forall_mem_singleton, List.forall_mem_singleton,
      forall_written_empty, List.forall_mem_cons, List.forall_mem_singleton]
    exact ⟨hplain _ (isPlain_plugin kind), hnumber _, hplain _ (show IsPlain "54" by decide)⟩
  have hengine : ∀ x ∈ (Tree.empty "EngineSettings" [("EngineDll", "AlteryxBasePluginsEngine.dll"),
      ("EngineDllEntryPoint", kind.entryPoint)]).written, P x := by
    rw [forall_written_empty, List.forall_mem_cons, List.forall_mem_singleton]
    exact ⟨hplain _ (show IsPlain "AlteryxBasePluginsEngine.dll" by decide),
      hplain _ (isPlain_entryPoint kind)⟩
  have hproperties : (∀ x ∈ (Tree.element "Properties" [] [
        .element "Configuration" s.attributes s.content,
        annotationTree s.caption]).written, P x) ↔ ∀ x ∈ s.written, P x := by
    rw [Tree.forall_written_inside, List.forall_mem_cons, List.forall_mem_singleton,
      forall_written_configuration hplain, forall_written_annotationTree hplain, Settings.written,
      List.forall_mem_cons]
    exact and_comm
  rw [toolTree, Tree.forall_written_element, List.forall_mem_singleton, List.forall_mem_cons,
    List.forall_mem_cons, List.forall_mem_singleton, hproperties]
  exact ⟨fun h => h.2.2.1, fun h => ⟨hnumber _, hplace, h, hengine⟩⟩

theorem forall_written_nodeTree (i : Nat) (n : Node) :
    (∀ x ∈ (nodeTree i n).written, P x) ↔ ∀ x ∈ n.written, P x := by
  unfold nodeTree Node.written
  cases n.kind? with
  | none => rfl
  | some kind => exact forall_written_toolTree hplain i kind n.settings

/-- **Of a document only the strings of its nodes are not plain.** -/
theorem forall_written_documentTree (w : Workflow) :
    (∀ x ∈ (documentTree w).written, P x) ↔ ∀ n ∈ w.nodes, ∀ x ∈ n.written, P x := by
  have hversion : P (.value "2025.2") := hplain _ (show IsPlain "2025.2" by decide)
  have hnodes : (∀ t ∈ w.nodes.zipIdx.map (fun x => nodeTree x.2 x.1), ∀ x ∈ t.written, P x) ↔
      ∀ n ∈ w.nodes, ∀ x ∈ n.written, P x := by
    conv_rhs => rw [← List.zipIdx_map_fst 0 w.nodes]
    rw [List.forall_mem_map, List.forall_mem_map]
    exact forall₂_congr fun x _ => forall_written_nodeTree hplain x.2 x.1
  have hwires : ∀ t ∈ ((Layout.ofWorkflow w).wires w.links).map wireTree,
      ∀ x ∈ t.written, P x :=
    List.forall_mem_map.mpr fun wire hwire =>
      forall_written_fixed hplain (isPlain_wires w wire hwire)
  rw [documentTree, Tree.forall_written_element, List.forall_mem_singleton, List.forall_mem_cons,
    List.forall_mem_cons, List.forall_mem_singleton, Tree.forall_written_inside,
    Tree.forall_written_inside, hnodes]
  have hproperties : ∀ x ∈ propertiesTree.written, P x :=
    forall_written_fixed hplain isPlain_propertiesTree
  exact ⟨fun h => h.2.1, fun h => ⟨hversion, h, hwires, hproperties⟩⟩

end

end Document

end Toolflow
