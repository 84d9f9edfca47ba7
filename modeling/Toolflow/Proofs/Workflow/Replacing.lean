import Toolflow.Proofs.Workflow.Shape

/-!
# Descriptions with another list

What is read from a value under a key depends on the value of that key alone.

* `Json.Lists.congr`, `Origin.ReadFrom.congr`   two readings that look at one key;
* `Json.replace value key new`   the value with something else under a key;
* `get?_replace_self`, `get?_replace_of_ne`   its two laws;
* `Workflow.ReadFrom.replace_nodes`, `replace_links`   where one of the two lists is replaced, the
                        workflow gets another list and keeps everything else;
* `compile_eq_ok_iff_readFrom`   a value has the output of the workflow that it describes.
-/

namespace Toolflow

namespace Json

/-- the object with this value under the key, in place of what it has there -/
def replace (value : Json) (key : String) (new : Json) : Json :=
  .obj (insert key new value.members)

section
variable {value new : Json} {key other : String}

theorem get?_replace_self : (value.replace key new).get? key = some new :=
  find?_insert_self key new value.members

theorem get?_replace_of_ne (h : other ≠ key) :
    (value.replace key new).get? other = value.get? other :=
  find?_insert_of_ne h new value.members

end

theorem Lists.congr {value value' : Json} {key : String} {lines : List String}
    (hlines : value.Lists key lines) (h : value'.get? key = value.get? key) :
    value'.Lists key lines := by
  unfold Lists
  rw [h]
  exact hlines

end Json

theorem Origin.ReadFrom.congr {value value' : Json} {o : Origin} (ho : o.ReadFrom value)
    (h : value'.get? "workflow" = value.get? "workflow") : o.ReadFrom value' := by
  constructor
  all_goals rw [h]
  · exact ho.version
  · exact ho.source
  · exact ho.schemaVersion

namespace Workflow

section
variable {value : Json} {w : Workflow} {entries : List Json}

theorem ReadFrom.replace_nodes (hw : w.ReadFrom value) {nodes : List Node}
    (hnodes : List.Forall₂ (fun entry n => n.ReadFrom entry) entries nodes) :
    ({ w with nodes } : Workflow).ReadFrom (value.replace "nodes" (.arr entries)) := by
  refine ⟨⟨entries, Json.get?_replace_self, hnodes⟩, ?_,
    hw.unmapped.congr (Json.get?_replace_of_ne (by decide)),
    hw.origin.congr (Json.get?_replace_of_ne (by decide))⟩
  rw [Json.get?_replace_of_ne (by decide)]
  exact hw.links

theorem ReadFrom.replace_links (hw : w.ReadFrom value) {links : List Link}
    (hlinks : List.Forall₂ (fun entry l => l.ReadFrom entry) entries links) :
    ({ w with links } : Workflow).ReadFrom (value.replace "connections" (.arr entries)) := by
  refine ⟨?_, ⟨entries, Json.get?_replace_self, hlinks⟩,
    hw.unmapped.congr (Json.get?_replace_of_ne (by decide)),
    hw.origin.congr (Json.get?_replace_of_ne (by decide))⟩
  rw [Json.get?_replace_of_ne (by decide)]
  exact hw.nodes

end

end Workflow

theorem compile_eq_ok_iff_readFrom {value : Json} {out : Output} :
    compile value = .ok out ↔ ∃ w : Workflow, w.ReadFrom value ∧ out = w.compile := by
  rw [compile_eq_ok_iff]
  simp only [Workflow.ofJson_eq_ok_iff_readFrom]

end Toolflow
