import Toolflow.Compile

/-!
# What an accepted value holds

`Workflow.ofJson` refuses a value early, so a workflow that comes out of it has passed every check
on the way.

* `Workflow.exists_of_ofJson`   the parts that an accepted value was read from;
* `Node.exists_mem_of_mem`      every node was read from one of the entries;
* `Workflow.kind?_of_ofJson`    the settings of every node are those of the kind it names;
* `compile_eq_ok_iff`           nothing behind the reading can fail;
* `tangled`                     a value that is accepted, with one of everything to report.
-/

namespace Toolflow

theorem Kind.ofName?_eq_none_iff {s : String} : Kind.ofName? s = none ↔ ∀ k : Kind, s ≠ k.name := by
  rw [Option.eq_none_iff_forall_not_mem]
  exact forall_congr' fun k => not_congr Kind.ofName?_eq_some_iff

theorem Node.kind?_of_ofJson {value : Json} {n : Node} (h : Node.ofJson value = .ok n) :
    n.kind? = Kind.ofName? n.kindName := by
  unfold Node.ofJson at h
  cases value with
  | obj members =>
    simp only at h
    split at h
    · exact absurd h (by simp)
    · split at h
      · exact absurd h (by simp)
      · cases h
        exact Settings.kind?_read _ _
  | null => exact absurd h (by simp)
  | bool b => exact absurd h (by simp)
  | num x => exact absurd h (by simp)
  | str s => exact absurd h (by simp)
  | arr items => exact absurd h (by simp)

theorem Node.exists_mem_of_mem {index : Nat} {values : List Json} {nodes : List Node} {n : Node}
    (h : Node.listOfJson index values = .ok nodes) (hn : n ∈ nodes) :
    ∃ value ∈ values, Node.ofJson value = .ok n := by
  induction values generalizing index nodes with
  | nil =>
    cases h
    exact absurd hn List.not_mem_nil
  | cons value rest ih =>
    unfold Node.listOfJson at h
    split at h
    · exact absurd h (by simp)
    · next node hnode =>
      split at h
      · exact absurd h (by simp)
      · next nodes' hrest =>
        cases h
        rcases List.mem_cons.mp hn with rfl | hn'
        · exact ⟨value, List.mem_cons_self, hnode⟩
        · obtain ⟨v, hv, hvn⟩ := ih hrest hn'
          exact ⟨v, List.mem_cons_of_mem _ hv, hvn⟩

namespace Workflow

theorem exists_of_ofJson {value : Json} {w : Workflow} (h : Workflow.ofJson value = .ok w) :
    ∃ nodeValues linkValues, Part.nodes.read value = .ok nodeValues ∧
      Part.connections.read value = .ok linkValues ∧
      Node.listOfJson 0 nodeValues = .ok w.nodes ∧ w.links = linkValues.map Link.ofJson := by
  unfold Workflow.ofJson at h
  split at h
  · split at h
    · exact absurd h (by simp)
    · next nodeValues hnodeValues =>
      split at h
      · exact absurd h (by simp)
      · next linkValues hlinkValues =>
        split at h
        · exact absurd h (by simp)
        · next nodes hnodes =>
          cases h
          exact ⟨nodeValues, linkValues, hnodeValues, hlinkValues, hnodes, rfl⟩
  · exact absurd h (by simp)

theorem kind?_of_ofJson {value : Json} {w : Workflow} (h : Workflow.ofJson value = .ok w) :
    ∀ n ∈ w.nodes, n.kind? = Kind.ofName? n.kindName := by
  intro n hn
  obtain ⟨nodeValues, _, _, _, hnodes, _⟩ := exists_of_ofJson h
  obtain ⟨v, _, hv⟩ := Node.exists_mem_of_mem hnodes hn
  exact Node.kind?_of_ofJson hv

end Workflow

theorem compile_eq_ok_iff {value : Json} {out : Output} :
    compile value = .ok out ↔ ∃ w, Workflow.ofJson value = .ok w ∧ out = w.compile := by
  unfold compile
  cases Workflow.ofJson value with
  | error rejection => simp
  | ok w => simp [eq_comm]

/-! ## an accepted value -/

section
variable (name kindName source target : String)

private def sampleNode : Json := .obj [("node_id", .str name), ("schema_id", .str kindName)]

private def sampleLink : Json := .obj [("from", .str source), ("to", .str target)]

end

/-- a repeated name, a kind without a name, a circuit and a link without an end; the circuit runs
through the second and the third node -/
def tangled : Json := .obj
  [("connections", .arr [sampleLink "a" "b", sampleLink "b" "a", sampleLink "a" "c"]),
   ("nodes", .arr [sampleNode "a" "Input", sampleNode "b" "Filter", sampleNode "a" "Chart"])]

def tangledWorkflow : Workflow where
  origin := ⟨none, none, none⟩
  nodes := [⟨"a", "Input", "", .input none⟩, ⟨"b", "Filter", "", .filter none⟩,
    ⟨"a", "Chart", "", .unmapped⟩]
  links := [⟨"a", "b"⟩, ⟨"b", "a"⟩, ⟨"a", "c"⟩]
  unmapped := []

theorem ofJson_tangled : Workflow.ofJson tangled = .ok tangledWorkflow := rfl

theorem compile_tangled : compile tangled = .ok tangledWorkflow.compile :=
  compile_eq_ok_iff.mpr ⟨tangledWorkflow, ofJson_tangled, rfl⟩

end Toolflow
