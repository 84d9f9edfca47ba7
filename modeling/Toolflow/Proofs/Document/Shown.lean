import Toolflow.Proofs.Document.Written
import Toolflow.Proofs.Workflow.Strings
import Toolflow.Proofs.Xml.Characters

/-!
# The strings that are shown of a workflow

* `Node.shownStrings`    the strings that are shown of a node;
* `Node.within_written`  what a node puts into the document is within a kind of characters if and
                         only if these strings are;
* `within_documentTree`  and so is all that is written of the workflow.
-/

namespace Toolflow

open Xml

/-! ## settings -/

/-- the strings that are shown of a node: its settings, or its kind and its source -/
def Node.shownStrings (n : Node) : List String :=
  match n.kind? with
  | some _ => n.settings.strings
  | none => [n.kindName, n.source]

theorem Node.shownStrings_subset (n : Node) : n.shownStrings ⊆ n.strings := by
  unfold Node.shownStrings Node.strings
  cases n.kind? with
  | some _ => exact fun s hs => List.mem_cons_of_mem _ (List.mem_cons_of_mem _ hs)
  | none => simp

section
variable {p : Char → Bool}

section
variable {s : Option String}

theorem within_toList : (∀ t ∈ s.toList, Within p t) ↔ Within p (plain s) := by
  cases s with
  | none => exact iff_of_true (List.forall_mem_nil _) within_empty
  | some s => exact List.forall_mem_singleton

theorem within_orDefault {standard : String} (h : Within p standard) :
    Within p (orDefault standard s) ↔ Within p (plain s) := by
  cases s with
  | none => exact iff_of_true h within_empty
  | some s =>
    by_cases hempty : s = ""
    · rw [orDefault, if_pos hempty, plain, hempty]
      exact iff_of_true h within_empty
    · rw [orDefault, if_neg hempty]
      rfl

theorem within_parts {parts : List (Option String)} :
    (∀ t ∈ parts.filterMap id, Within p t) ↔ ∀ part ∈ parts, Within p (plain part) := by
  rw [List.filterMap_eq_flatMap_toList, List.forall_mem_flatMap]
  exact forall₂_congr fun part _ => within_toList

end

theorem Aggregation.within_written (hp : Includes p) (a : Aggregation) :
    (∀ x ∈ a.written, Within p x.string) ↔ ∀ s ∈ a.strings, Within p s := by
  have hresult (hfield : Within p (plain a.field)) (haction : Within p (plain a.action)) :
      Within p a.result ↔ Within p (plain a.rename) :=
    within_orDefault (within_append.mpr
      ⟨within_append.mpr ⟨haction, within_of_printable hp (by decide)⟩, hfield⟩)
  rw [Aggregation.strings, within_parts]
  simp only [Aggregation.written, List.forall_mem_cons, Written.string]
  constructor
  · rintro ⟨hfield, haction, hrename, _⟩
    exact ⟨hfield, haction, (hresult hfield haction).mp hrename, List.forall_mem_nil _⟩
  · rintro ⟨hfield, haction, hrename, _⟩
    exact ⟨hfield, haction, (hresult hfield haction).mpr hrename, List.forall_mem_nil _⟩

theorem Assignment.within_written (a : Assignment) :
    (∀ x ∈ a.written, Within p x.string) ↔ ∀ s ∈ a.strings, Within p s := by
  rw [Assignment.strings, within_parts]
  simp [Assignment.written, Written.string, and_comm]

theorem SortTerm.within_written (t : SortTerm) :
    (∀ x ∈ t.written, Within p x.string) ↔ ∀ s ∈ t.strings, Within p s := by
  rw [SortTerm.strings, within_parts]
  simp [SortTerm.written, Written.string]

theorem Match.within_written (m : Match) :
    (∀ x ∈ m.written, Within p x.string) ↔ ∀ s ∈ m.strings, Within p s := by
  rw [Match.strings, within_parts]
  simp [Match.written, Written.string]

theorem Column.within_written (c : Column) :
    (∀ x ∈ c.written, Within p x.string) ↔ ∀ s ∈ c.strings, Within p s := by
  rw [Column.strings, within_parts]
  simp [Column.written, Written.string]

namespace Settings

/-- the entries of a list -/
theorem within_entries {α : Type} {written : α → List Written} {strings : α → List String}
    (h : ∀ a, (∀ x ∈ written a, Within p x.string) ↔ ∀ s ∈ strings a, Within p s)
    (entries : List α) :
    (∀ x ∈ entries.flatMap written, Within p x.string) ↔
      ∀ s ∈ entries.flatMap strings, Within p s := by
  rw [List.forall_mem_flatMap, List.forall_mem_flatMap]
  exact forall₂_congr fun a _ => h a

theorem within_configured (hp : Includes p) (s : Settings) :
    (∀ x ∈ s.configured, Within p x.string) ↔ ∀ t ∈ s.strings, Within p t := by
  have hsingle (standard : String) (h : Within p standard) (given : Option String) :
      (∀ x ∈ [Written.text (orDefault standard given)], Within p x.string) ↔
        ∀ t ∈ given.toList, Within p t := by
    rw [List.forall_mem_singleton, within_toList]
    exact within_orDefault h
  cases s with
  | input table => exact hsingle "input.csv" (within_of_printable hp (by decide)) table
  | output table => exact hsingle "output.yxdb" (within_of_printable hp (by decide)) table
  | filter expression => exact hsingle "1=1" (within_of_printable hp (by decide)) expression
  | summarize groups aggregations =>
    rw [configured, List.forall_mem_append, List.forall_mem_map, strings, List.forall_mem_append,
      within_entries (Aggregation.within_written hp)]
    rfl
  | formula assignments => exact within_entries Assignment.within_written assignments
  | sort terms => exact within_entries SortTerm.within_written terms
  | join pairs => exact within_entries Match.within_written pairs
  | select columns => exact within_entries Column.within_written columns
  | sample count method => exact hsingle "First" (within_of_printable hp (by decide)) method
  | unique fields => exact List.forall_mem_map
  | unmapped => exact iff_of_true (List.forall_mem_nil _) (List.forall_mem_nil _)

/-- an annotation is made of strings of the configuration -/
theorem within_caption (hp : Includes p) {s : Settings}
    (h : ∀ x ∈ s.configured, Within p x.string) : Within p s.caption := by
  cases s with
  | input table => exact h (.text (inputFile table)) List.mem_cons_self
  | output table => exact h (.text (outputFile table)) List.mem_cons_self
  | filter expression => exact h (.text (filterExpression expression)) List.mem_cons_self
  | formula assignments =>
    cases assignments with
    | nil => exact within_of_printable hp (by decide)
    | cons first rest =>
      have hexpression : Within p (plain first.expression) :=
        h (.value (plain first.expression)) List.mem_cons_self
      have hfield : Within p (plain first.field) :=
        h (.value (plain first.field)) (List.mem_cons_of_mem _ List.mem_cons_self)
      have hequals : Within p " = " := within_of_printable hp (by decide)
      exact within_append.mpr ⟨within_append.mpr ⟨hfield, hequals⟩, hexpression⟩
  | _ => exact within_empty

theorem within_written (hp : Includes p) (s : Settings) :
    (∀ x ∈ s.written, Within p x.string) ↔ ∀ t ∈ s.strings, Within p t := by
  rw [written, List.forall_mem_cons, ← within_configured hp]
  exact and_iff_right_of_imp (within_caption hp)

end Settings

theorem Node.within_written (hp : Includes p) (n : Node) :
    (∀ x ∈ n.written, Within p x.string) ↔ ∀ s ∈ n.shownStrings, Within p s := by
  unfold Node.written Node.shownStrings
  cases n.kind? with
  | some kind => exact n.settings.within_written hp
  | none =>
    have hstart : Within p "UNMAPPED NODE: " := within_of_printable hp (by decide)
    have hdash : Within p " - " := within_of_printable hp (by decide)
    simp [Written.string, within_commentText hp, within_append, hstart, hdash]

/-! ## documents -/

namespace Document

theorem tree_root (w : Workflow) : (root w (.ofWorkflow w)).tree = documentTree w := by
  have hnodes : Item.trees (nodeItems w.nodes (.ofNodes w.nodes))
      = w.nodes.zipIdx.map fun x => nodeTree x.2 x.1 := by
    rw [Item.trees_eq_map, map_tree_nodeItems]
  have hwires : Item.trees (wireItems w.links (.ofWorkflow w))
      = ((Layout.ofWorkflow w).wires w.links).map wireTree := by
    rw [Item.trees_eq_map, wireItems, List.map_map]
    rfl
  rw [documentTree, ← hnodes, ← hwires]
  rfl

theorem within_documentTree (hp : Includes p) (w : Workflow) :
    (∀ x ∈ (documentTree w).written, Within p x.string) ↔
      ∀ n ∈ w.nodes, ∀ s ∈ n.shownStrings, Within p s := by
  rw [forall_written_documentTree fun x hx => IsPlain.within hp hx]
  exact forall₂_congr fun n _ => n.within_written hp

end Document

end

end Toolflow
