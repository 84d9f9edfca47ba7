import Toolflow.Proofs.Workflow.Codes

/-!
# Repeated names and the tools they refer to

A repeated name is reported once for each node that has it behind the first one, and each notice
names the tool of that node.  A name refers to one tool only, that of the last node.

* `duplicate_mem_iff`   the notices on a name: the first node of the name, and any one behind it;
* `Refers`              what the notices on a name tell of the tool that it refers to;
* `repeated_name_refers`   the name refers to the greatest tool that its notices name.  So the last
                        of them is right, and every other one names a tool that is passed over;
* `repeated_name_passed_over`   three nodes of one name, and a notice that names the second.

A notice is right in particular where just two nodes share the name.
-/

namespace Toolflow

namespace Workflow

/-! ## notices -/

section
variable {nodes : List Node}

theorem mem_duplicates_iff {notice : Notice} :
    notice ∈ duplicates nodes ↔ ∃ j n, nodes[j]? = some n ∧ duplicate? nodes j n = some notice := by
  unfold duplicates
  rw [List.mem_filterMap]
  constructor
  · rintro ⟨⟨n, j⟩, hmem, hnotice⟩
    exact ⟨j, n, List.mk_mem_zipIdx_iff_getElem?.mp hmem, hnotice⟩
  · rintro ⟨j, n, hj, hnotice⟩
    exact ⟨(n, j), List.mk_mem_zipIdx_iff_getElem?.mpr hj, hnotice⟩

/-- the notices on a name pair the first node of the name with each node of the name behind it -/
theorem duplicate_mem_iff {name : String} {first tool : Nat} :
    .duplicate name first tool ∈ duplicates nodes ↔ ∃ i j m n, i < j ∧ FirstNamed nodes i m ∧
      m.name = name ∧ nodes[j]? = some n ∧ n.name = name ∧ first = i + 1 ∧ tool = j + 1 := by
  rw [mem_duplicates_iff]
  constructor
  · rintro ⟨j, n, hj, hnotice⟩
    obtain ⟨hrepeats, i, m, hm, hname, heq⟩ := (duplicate?_eq_some_iff hj).mp hnotice
    obtain ⟨rfl, rfl, rfl⟩ := Notice.duplicate.inj heq
    -- the node of this index is not the first one of its name, for it repeats an earlier one
    have hlt : i < j := by
      rw [hm.eq_findIdx hname hj]
      exact (repeats_iff hj).mp hrepeats
    exact ⟨i, j, m, n, hlt, hm, hname, hj, rfl, rfl, rfl⟩
  · rintro ⟨i, j, m, n, hlt, hm, rfl, hj, hname, rfl, rfl⟩
    refine ⟨j, n, hj, (duplicate?_eq_some_iff hj).mpr
      ⟨⟨n, i, m, hj, hlt, hm.1, hname.symm⟩, i, m, hm, hname.symm, ?_⟩⟩
    rw [hname]

end

/-- no other list of notices holds any on repeated names -/
theorem duplicate_mem_notices_iff (w : Workflow) {name : String} {first tool : Nat} :
    .duplicate name first tool ∈ w.compile.notices ↔
      .duplicate name first tool ∈ duplicates w.nodes := by
  rw [← coded_repeated w]
  exact Output.mem_coded.symm

end Workflow

/-! ## the tool that a name refers to -/

structure Refers (w : Workflow) (out : Output) (name : String) (first tool : Nat)
    (p : Placement) : Prop where
  find : (Layout.ofWorkflow w).find? name = some p
  le : tool ≤ p.tool
  reported : .duplicate name first p.tool ∈ out.notices
  eq_iff_last : p.tool = tool ↔
    ∀ later, .duplicate name first later ∈ out.notices → later ≤ tool
  /-- a notice is right if no third node has the name -/
  eq_of_pair : (∀ k n, w.nodes[k]? = some n → n.name = name → k + 1 = first ∨ k + 1 = tool) →
    p.tool = tool

theorem exists_refers {w : Workflow} {name : String} {first tool : Nat}
    (h : .duplicate name first tool ∈ w.compile.notices) :
    ∃ p, Refers w w.compile name first tool p := by
  obtain ⟨i, j, m, n, hij, hm, hmname, hj, hname, rfl, rfl⟩ :=
    Workflow.duplicate_mem_iff.mp (w.duplicate_mem_notices_iff.mp h)
  have hnamed : Named w.nodes name := named_iff_getElem?.mpr ⟨j, n, hj, hname⟩
  obtain ⟨p, hp⟩ := Option.isSome_iff_exists.mp (Layout.isSome_find?_ofNodes.mpr hnamed)
  obtain ⟨k, last, hlast, hlastname, rfl⟩ := Layout.find?_ofNodes_eq_some_iff.mp hp
  have hjk : j ≤ k := hlast.le hj (hname.trans hlastname.symm)
  have hreported : .duplicate name (i + 1) (k + 1) ∈ w.compile.notices :=
    w.duplicate_mem_notices_iff.mpr (Workflow.duplicate_mem_iff.mpr
      ⟨i, k, m, last, Nat.lt_of_lt_of_le hij hjk, hm, hmname, hlast.1, hlastname, rfl, rfl⟩)
  refine ⟨.ofNode k last, hp, Nat.succ_le_succ hjk, hreported, ⟨fun heq later hlater => ?bound,
    fun hlatest => ?latest⟩, fun hpair => ?pair⟩
  case bound =>
    obtain ⟨_, l, _, x, _, _, _, hx, hxname, _, rfl⟩ :=
      Workflow.duplicate_mem_iff.mp (w.duplicate_mem_notices_iff.mp hlater)
    have hlk : l + 1 ≤ k + 1 := Nat.succ_le_succ (hlast.le hx (hxname.trans hlastname.symm))
    exact hlk.trans_eq heq
  case latest => exact Nat.le_antisymm (hlatest (k + 1) hreported) (Nat.succ_le_succ hjk)
  case pair =>
    -- the last node stands behind the first one, so it is the other of the two
    rcases hpair k last hlast.1 hlastname with hki | hkj
    · omega
    · exact hkj

/-- **A repeated name refers to the greatest tool that its notices name.** -/
theorem repeated_name_refers {value : Json} {out : Output} (h : compile value = .ok out) :
    ∃ w, Workflow.ofJson value = .ok w ∧
      ∀ name first tool, .duplicate name first tool ∈ out.notices →
        ∃ p, Refers w out name first tool p := by
  obtain ⟨w, hw, rfl⟩ := compile_eq_ok_iff.mp h
  exact ⟨w, hw, fun _ _ _ => exists_refers⟩

/-- three nodes of one name, and a link to it -/
def crowded : Json := .obj
  [("connections", .arr [.obj [("from", .str "b"), ("to", .str "a")]]),
   ("nodes", .arr [
    .obj [("node_id", .str "a"), ("schema_id", .str "Input")],
    .obj [("node_id", .str "a"), ("schema_id", .str "Sort")],
    .obj [("node_id", .str "a"), ("schema_id", .str "Output")],
    .obj [("node_id", .str "b"), ("schema_id", .str "Input")]])]

def crowdedWorkflow : Workflow where
  origin := ⟨none, none, none⟩
  nodes := [⟨"a", "Input", "", .input none⟩, ⟨"a", "Sort", "", .sort []⟩,
    ⟨"a", "Output", "", .output none⟩, ⟨"b", "Input", "", .input none⟩]
  links := [⟨"b", "a"⟩]
  unmapped := []

theorem ofJson_crowded : Workflow.ofJson crowded = .ok crowdedWorkflow := rfl

theorem compile_crowded : compile crowded = .ok crowdedWorkflow.compile :=
  compile_eq_ok_iff.mpr ⟨crowdedWorkflow, ofJson_crowded, rfl⟩

theorem repeated_name_refers_crowded : compile crowded = .ok crowdedWorkflow.compile ∧
    ∃ w, Workflow.ofJson crowded = .ok w ∧
      .duplicate "a" 1 2 ∈ crowdedWorkflow.compile.notices ∧
      ∀ name first tool, .duplicate name first tool ∈ crowdedWorkflow.compile.notices →
        ∃ p, Refers w crowdedWorkflow.compile name first tool p := by
  obtain ⟨w, hw, hall⟩ := repeated_name_refers compile_crowded
  exact ⟨compile_crowded, w, hw, List.mem_cons_self, hall⟩

/-- the first notice on `a` names tool 2, but the name refers to tool 3, and the link leads there -/
theorem repeated_name_passed_over : compile crowded = .ok crowdedWorkflow.compile ∧
    .duplicate "a" 1 2 ∈ crowdedWorkflow.compile.notices ∧
    (Notice.duplicate "a" 1 2).message
      = "Duplicate node_id \"a\" on tools 1 and 2; connections resolve to tool 2" ∧
    ((Layout.ofWorkflow crowdedWorkflow).find? "a").map Placement.tool = some 3 ∧
    (Layout.ofWorkflow crowdedWorkflow).wires crowdedWorkflow.links
      = [⟨4, "Output", 3, "Input"⟩] :=
  ⟨compile_crowded, List.mem_cons_self, by decide, rfl, rfl⟩

end Toolflow
