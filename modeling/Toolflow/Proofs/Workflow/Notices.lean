import Mathlib.Data.List.Nodup
import Toolflow.Proofs.Layout.Cycle
import Toolflow.Proofs.Workflow.Reading

/-!
# What is reported on an accepted value

The notices of an output are four lists, one behind the other, and each of them is one pass.

* `Repeats`, `FirstNamed`   a node that has the name of an earlier one, and the one it is reported
                       against;
* `Unknown`            a node whose kind has none of the ten names;
* `Unresolved`         a link with an end that is no node;
* `Circuit`            links that go round (see `Toolflow.Proofs.Layout.Cycle`);
* `Reported`           four lists that report exactly these, each in order;
* `notices_reported`, `cycle_reported_iff_circuit`   what that means for the output of a value.

The first pass looks a name up from the front and the last one from the back, so the two never use
the same table; `firstNamed_findIdx` and `find?_ofNodes_eq_some_iff` are what each of them finds.
The statements speak of JSON values, because `Reported` is not true of every workflow: a node
that was not read from a value may have settings that are not those of the kind it names.
-/

namespace Toolflow

/-! ## repeated names -/

/-- the node of this index has the name of an earlier one -/
def Repeats (nodes : List Node) (j : Nat) : Prop :=
  ∃ n i m, nodes[j]? = some n ∧ i < j ∧ nodes[i]? = some m ∧ m.name = n.name

/-- the node of this index is the first one of its name -/
def FirstNamed (nodes : List Node) (i : Nat) (n : Node) : Prop :=
  nodes[i]? = some n ∧ ∀ j m, j < i → nodes[j]? = some m → m.name ≠ n.name

section
variable {nodes : List Node} {j : Nat} {n : Node}

theorem findIdx_name_le {i : Nat} {m : Node} (hi : nodes[i]? = some m) (hname : m.name = n.name) :
    nodes.findIdx (·.name == n.name) ≤ i := by
  obtain ⟨hlt, hget⟩ := List.getElem?_eq_some_iff.mp hi
  by_contra hle
  have hne := List.not_of_lt_findIdx (p := fun m : Node => m.name == n.name) (Nat.lt_of_not_le hle)
  rw [hget, hname, beq_self_eq_true] at hne
  exact absurd hne (by decide)

theorem firstNamed_findIdx (hj : nodes[j]? = some n) :
    ∃ m, FirstNamed nodes (nodes.findIdx (·.name == n.name)) m ∧ m.name = n.name := by
  have hlt : nodes.findIdx (·.name == n.name) < nodes.length :=
    Nat.lt_of_le_of_lt (findIdx_name_le hj rfl) (List.getElem?_eq_some_iff.mp hj).1
  have hname : nodes[nodes.findIdx (·.name == n.name)].name = n.name := by
    have h := List.findIdx_getElem (p := fun m : Node => m.name == n.name) (w := hlt)
    exact beq_iff_eq.mp h
  refine ⟨_, ⟨List.getElem?_eq_getElem hlt, fun i m hi hm hmname => ?_⟩, hname⟩
  have hle := findIdx_name_le hm (hmname.trans hname)
  omega

theorem FirstNamed.eq_findIdx {i : Nat} {m : Node} (hm : FirstNamed nodes i m)
    (hname : m.name = n.name) (hj : nodes[j]? = some n) :
    i = nodes.findIdx (·.name == n.name) := by
  have hle := findIdx_name_le hm.1 hname
  obtain ⟨m', hm', hname'⟩ := firstNamed_findIdx hj
  rcases Nat.lt_or_eq_of_le hle with hlt | heq
  · exact absurd (hname'.trans hname.symm) (hm.2 _ m' hlt hm'.1)
  · exact heq.symm

/-- a node repeats a name if the first one of its name is not itself -/
theorem repeats_iff (hj : nodes[j]? = some n) :
    Repeats nodes j ↔ nodes.findIdx (·.name == n.name) < j := by
  constructor
  · rintro ⟨n', i, m, hn', hij, hm, hname⟩
    obtain rfl : n' = n := Option.some.inj (hn'.symm.trans hj)
    exact Nat.lt_of_le_of_lt (findIdx_name_le hm hname) hij
  · intro hlt
    obtain ⟨m, hm, hname⟩ := firstNamed_findIdx hj
    exact ⟨n, _, m, hj, hlt, hm.1, hname⟩

theorem not_repeats_iff_nodup : (∀ j, ¬ Repeats nodes j) ↔ (nodes.map Node.name).Nodup := by
  rw [List.nodup_iff_getElem?_ne_getElem?]
  constructor
  · intro h i j hij hlen heq
    rw [List.length_map] at hlen
    rw [List.getElem?_map, List.getElem?_map, List.getElem?_eq_getElem hlen,
      List.getElem?_eq_getElem (Nat.lt_trans hij hlen)] at heq
    exact h j ⟨_, i, _, List.getElem?_eq_getElem hlen, hij,
      List.getElem?_eq_getElem (Nat.lt_trans hij hlen), Option.some.inj heq⟩
  · rintro h j ⟨n, i, m, hn, hij, hm, hname⟩
    have hlen : j < (nodes.map Node.name).length := by
      rw [List.length_map]
      exact (List.getElem?_eq_some_iff.mp hn).1
    apply h i j hij hlen
    rw [List.getElem?_map, List.getElem?_map, hn, hm, Option.map_some, Option.map_some, hname]

end

namespace Workflow

theorem duplicate?_eq_some_iff {nodes : List Node} {j : Nat} {n : Node} {notice : Notice}
    (hj : nodes[j]? = some n) :
    duplicate? nodes j n = some notice ↔ Repeats nodes j ∧
      ∃ i m, FirstNamed nodes i m ∧ m.name = n.name ∧
        notice = .duplicate n.name (i + 1) (j + 1) := by
  rw [repeats_iff hj]
  simp only [duplicate?, Option.ite_none_right_eq_some, Option.some.injEq]
  constructor
  · rintro ⟨hlt, rfl⟩
    obtain ⟨m, hm, hname⟩ := firstNamed_findIdx hj
    exact ⟨hlt, _, m, hm, hname, rfl⟩
  · rintro ⟨hlt, i, m, hm, hname, rfl⟩
    rw [hm.eq_findIdx hname hj]
    exact ⟨hlt, rfl⟩

theorem oneEach_duplicates (nodes : List Node) :
    OneEach (Repeats nodes)
      (fun j notice => ∃ n i m, nodes[j]? = some n ∧ FirstNamed nodes i m ∧ m.name = n.name ∧
        notice = .duplicate n.name (i + 1) (j + 1)) (duplicates nodes) := by
  refine (oneEach_filterMap (duplicate? nodes) nodes).imp (fun j => ?_) ?_
  · constructor
    · rintro ⟨n, hj, hsome⟩
      obtain ⟨notice, hnotice⟩ := Option.isSome_iff_exists.mp hsome
      exact ((duplicate?_eq_some_iff hj).mp hnotice).1
    · intro hrep
      obtain ⟨n, _, _, hj, _⟩ := id hrep
      obtain ⟨m, hm, hname⟩ := firstNamed_findIdx hj
      exact ⟨n, hj, Option.isSome_of_eq_some
        ((duplicate?_eq_some_iff hj).mpr ⟨hrep, _, m, hm, hname, rfl⟩)⟩
  · rintro j notice ⟨n, hj, hnotice⟩
    obtain ⟨_, i, m, hm, hname, heq⟩ := (duplicate?_eq_some_iff hj).mp hnotice
    exact ⟨n, i, m, hj, hm, hname, heq⟩

end Workflow

/-! ## kinds without a name -/

/-- the kind of the node of this index has none of the names of the kinds -/
def Unknown (nodes : List Node) (j : Nat) : Prop :=
  ∃ n, nodes[j]? = some n ∧ ∀ k : Kind, n.kindName ≠ k.name

theorem not_unknown_iff {nodes : List Node} :
    (∀ j, ¬ Unknown nodes j) ↔ ∀ n ∈ nodes, ∃ k : Kind, n.kindName = k.name := by
  constructor
  · intro h n hn
    obtain ⟨j, hj⟩ := List.mem_iff_getElem?.mp hn
    by_contra hnone
    exact h j ⟨n, hj, not_exists.mp hnone⟩
  · rintro h j ⟨n, hj, hnone⟩
    obtain ⟨k, hk⟩ := h n (List.mem_of_getElem? hj)
    exact hnone k hk

namespace Workflow

theorem unmapped?_eq_some_iff {n : Node} {p : Placement} {notice : Notice} :
    unmapped? n p = some notice ↔ n.kind? = none ∧ notice = .unmapped p.tool n.kindName := by
  unfold unmapped?
  cases n.kind? with
  | none => simp [eq_comm]
  | some k => simp

theorem unmappedTools_ofNodes (nodes : List Node) :
    unmappedTools nodes (.ofNodes nodes)
      = nodes.zipIdx.filterMap fun x => unmapped? x.1 (.ofNode x.2 x.1) := by
  rw [unmappedTools, Layout.zip_ofNodes, List.filterMap_map]
  rfl

theorem oneEach_unmappedTools {nodes : List Node}
    (hkind : ∀ n ∈ nodes, n.kind? = Kind.ofName? n.kindName) :
    OneEach (Unknown nodes)
      (fun j notice => ∃ n, nodes[j]? = some n ∧ notice = .unmapped (j + 1) n.kindName)
      (unmappedTools nodes (.ofNodes nodes)) := by
  rw [unmappedTools_ofNodes]
  refine (oneEach_filterMap (fun j n => unmapped? n (.ofNode j n)) nodes).imp (fun j => ?_) ?_
  · refine exists_congr fun n => and_congr_right fun hj => ?_
    rw [← Kind.ofName?_eq_none_iff, ← hkind n (List.mem_of_getElem? hj), Option.isSome_iff_exists]
    constructor
    · rintro ⟨notice, hnotice⟩
      exact (unmapped?_eq_some_iff.mp hnotice).1
    · intro hnone
      exact ⟨_, unmapped?_eq_some_iff.mpr ⟨hnone, rfl⟩⟩
  · rintro j notice ⟨n, hj, hnotice⟩
    exact ⟨n, hj, (unmapped?_eq_some_iff.mp hnotice).2⟩

end Workflow

/-! ## links without an end -/

/-- an end of the link of this index is no node -/
def Unresolved (nodes : List Node) (links : List Link) (i : Nat) : Prop :=
  ∃ l, links[i]? = some l ∧ ¬ (Named nodes l.source ∧ Named nodes l.target)

theorem not_unresolved_iff {nodes : List Node} {links : List Link} :
    (∀ i, ¬ Unresolved nodes links i) ↔
      ∀ l ∈ links, Named nodes l.source ∧ Named nodes l.target := by
  constructor
  · intro h l hl
    obtain ⟨i, hi⟩ := List.mem_iff_getElem?.mp hl
    by_contra hnone
    exact h i ⟨l, hi, hnone⟩
  · rintro h i ⟨l, hi, hnone⟩
    exact hnone (h l (List.mem_of_getElem? hi))

theorem Missing.exists_says_iff {a b : Prop} : (∃ m, Missing.Says a b m) ↔ a ∨ b := by
  constructor
  · rintro ⟨m, hm⟩
    cases m with
    | source => exact .inl hm.1
    | destination => exact .inr hm.2
    | both => exact .inl hm.1
  · intro hab
    by_cases ha : a
    · by_cases hb : b
      · exact ⟨.both, ha, hb⟩
      · exact ⟨.source, ha, hb⟩
    · exact ⟨.destination, ha, hab.resolve_left ha⟩

namespace Workflow

theorem oneEach_dangling (nodes : List Node) (links : List Link) :
    OneEach (Unresolved nodes links)
      (fun i notice => ∃ l m, links[i]? = some l ∧
        Missing.Says (¬ Named nodes l.source) (¬ Named nodes l.target) m ∧
        notice = .dangling i l.source l.target m) ((Layout.ofNodes nodes).dangling links) := by
  have hpass := oneEach_filterMap (fun i l => (Layout.ofNodes nodes).dangling? i l) links
  refine hpass.imp (fun i => ?_) ?_
  · refine exists_congr fun l => and_congr_right fun _ => ?_
    rw [Option.isSome_iff_exists, not_and_or, ← Missing.exists_says_iff]
    simp only [Layout.dangling?_eq_some_iff, Layout.Loose, Layout.find?_ofNodes_eq_none_iff]
    constructor
    · rintro ⟨_, m, hm, _⟩
      exact ⟨m, hm⟩
    · rintro ⟨m, hm⟩
      exact ⟨_, m, hm, rfl⟩
  · rintro i notice ⟨l, hl, hnotice⟩
    obtain ⟨m, hm, heq⟩ := Layout.dangling?_eq_some_iff.mp hnotice
    rw [Layout.find?_ofNodes_eq_none_iff, Layout.find?_ofNodes_eq_none_iff] at hm
    exact ⟨l, m, hl, hm, heq⟩

/-! ## all notices -/

/-- these four lists report what there is to report on the workflow, and nothing else -/
structure Reported (w : Workflow) (repeated cycles unknown unresolved : List Notice) : Prop where
  repeated : OneEach (Repeats w.nodes)
    (fun j notice => ∃ n i m, w.nodes[j]? = some n ∧ FirstNamed w.nodes i m ∧ m.name = n.name ∧
      notice = .duplicate n.name (i + 1) (j + 1)) repeated
  cycles : (∃ c, Circuit w.nodes w.links c) ∧ cycles = [.cycle] ∨
    (¬ ∃ c, Circuit w.nodes w.links c) ∧ cycles = []
  unknown : OneEach (Unknown w.nodes)
    (fun j notice => ∃ n, w.nodes[j]? = some n ∧ notice = .unmapped (j + 1) n.kindName) unknown
  unresolved : OneEach (Unresolved w.nodes w.links)
    (fun i notice => ∃ l m, w.links[i]? = some l ∧
      Missing.Says (¬ Named w.nodes l.source) (¬ Named w.nodes l.target) m ∧
      notice = .dangling i l.source l.target m) unresolved

theorem cycles_cases (nodes : List Node) (links : List Link) :
    (∃ c, Circuit nodes links c) ∧ cycles (.ofNodes nodes) links = [.cycle] ∨
      (¬ ∃ c, Circuit nodes links c) ∧ cycles (.ofNodes nodes) links = [] := by
  unfold cycles
  rw [← Layout.cyclic_ofNodes_iff]
  cases (Layout.ofNodes nodes).cyclic links <;> simp

theorem notices_compile (w : Workflow) :
    w.compile.notices = duplicates w.nodes ++ cycles (.ofNodes w.nodes) w.links
      ++ (unmappedTools w.nodes (.ofNodes w.nodes) ++ (Layout.ofNodes w.nodes).dangling w.links) :=
  rfl

theorem reported {w : Workflow} (hkind : ∀ n ∈ w.nodes, n.kind? = Kind.ofName? n.kindName) :
    w.Reported (duplicates w.nodes) (cycles (.ofNodes w.nodes) w.links)
      (unmappedTools w.nodes (.ofNodes w.nodes)) ((Layout.ofNodes w.nodes).dangling w.links) where
  repeated := oneEach_duplicates w.nodes
  cycles := cycles_cases w.nodes w.links
  unknown := oneEach_unmappedTools hkind
  unresolved := oneEach_dangling w.nodes w.links

section
variable {w : Workflow} {repeated cycles unknown unresolved : List Notice}

theorem Reported.eq_nil_iff (h : w.Reported repeated cycles unknown unresolved) :
    repeated ++ cycles ++ (unknown ++ unresolved) = [] ↔
      (w.nodes.map Node.name).Nodup ∧ (∀ n ∈ w.nodes, ∃ k : Kind, n.kindName = k.name) ∧
      (∀ l ∈ w.links, Named w.nodes l.source ∧ Named w.nodes l.target) ∧
      ¬ ∃ c, Circuit w.nodes w.links c := by
  have hcycles : cycles = [] ↔ ¬ ∃ c, Circuit w.nodes w.links c := by
    rcases h.cycles with ⟨hc, rfl⟩ | ⟨hc, rfl⟩
    · simp [hc]
    · simp [hc]
  rw [List.append_eq_nil_iff, List.append_eq_nil_iff, List.append_eq_nil_iff,
    h.repeated.eq_nil_iff, not_repeats_iff_nodup, hcycles, h.unknown.eq_nil_iff, not_unknown_iff,
    h.unresolved.eq_nil_iff, not_unresolved_iff]
  constructor
  · rintro ⟨⟨hnodup, hacyclic⟩, hknown, hresolved⟩
    exact ⟨hnodup, hknown, hresolved, hacyclic⟩
  · rintro ⟨hnodup, hknown, hresolved, hacyclic⟩
    exact ⟨⟨hnodup, hacyclic⟩, hknown, hresolved⟩

/-- only the second list can hold the notice on cycles -/
theorem Reported.count_cycle (h : w.Reported repeated cycles unknown unresolved) :
    (repeated ++ cycles ++ (unknown ++ unresolved)).count .cycle = cycles.count .cycle := by
  have hrepeated : Notice.cycle ∉ repeated := by
    intro hmem
    obtain ⟨j, n, i, m, _, _, _, heq⟩ := h.repeated.exists_of_mem hmem
    exact Notice.noConfusion heq
  have hunknown : Notice.cycle ∉ unknown := by
    intro hmem
    obtain ⟨j, n, _, heq⟩ := h.unknown.exists_of_mem hmem
    exact Notice.noConfusion heq
  have hunresolved : Notice.cycle ∉ unresolved := by
    intro hmem
    obtain ⟨i, l, m, _, _, heq⟩ := h.unresolved.exists_of_mem hmem
    exact Notice.noConfusion heq
  rw [List.count_append, List.count_append, List.count_append, List.count_eq_zero.mpr hrepeated,
    List.count_eq_zero.mpr hunknown, List.count_eq_zero.mpr hunresolved]
  omega

theorem Reported.mem_cycle_iff (h : w.Reported repeated cycles unknown unresolved) :
    .cycle ∈ repeated ++ cycles ++ (unknown ++ unresolved) ↔ ∃ c, Circuit w.nodes w.links c := by
  rw [← List.count_pos_iff, h.count_cycle, List.count_pos_iff]
  rcases h.cycles with ⟨hc, rfl⟩ | ⟨hc, rfl⟩
  · simp [hc]
  · simp [hc]

end

end Workflow

/-! ## outputs -/

theorem reported_of_ofJson {value : Json} {w : Workflow} (h : Workflow.ofJson value = .ok w) :
    ∃ repeated cycles unknown unresolved,
      w.compile.notices = repeated ++ cycles ++ (unknown ++ unresolved) ∧
      w.Reported repeated cycles unknown unresolved :=
  ⟨_, _, _, _, w.notices_compile, Workflow.reported (Workflow.kind?_of_ofJson h)⟩

/-- **What is reported is complete, exact and in order.**  The passes and their one collector
report the same (`Workflow.compile_eq_passes`, `Workflow.passes_report`). -/
theorem notices_reported {value : Json} {out : Output} (h : compile value = .ok out) :
    ∃ w, Workflow.ofJson value = .ok w ∧
      (∃ repeated cycles unknown unresolved,
        out.notices = repeated ++ cycles ++ (unknown ++ unresolved) ∧
        w.Reported repeated cycles unknown unresolved) ∧
      (out.notices = [] ↔
        (w.nodes.map Node.name).Nodup ∧ (∀ n ∈ w.nodes, ∃ k : Kind, n.kindName = k.name) ∧
        (∀ l ∈ w.links, Named w.nodes l.source ∧ Named w.nodes l.target) ∧
        ¬ ∃ c, Circuit w.nodes w.links c) := by
  obtain ⟨w, hw, rfl⟩ := compile_eq_ok_iff.mp h
  obtain ⟨repeated, cycles, unknown, unresolved, heq, hreported⟩ := reported_of_ofJson hw
  refine ⟨w, hw, ⟨repeated, cycles, unknown, unresolved, heq, hreported⟩, ?_⟩
  rw [heq]
  exact hreported.eq_nil_iff

example : tangledWorkflow.compile.notices =
    [.duplicate "a" 1 3, .cycle, .unmapped 3 "Chart", .dangling 2 "a" "c" .destination] := rfl

theorem notices_reported_tangled : compile tangled = .ok tangledWorkflow.compile ∧
    ∃ w, Workflow.ofJson tangled = .ok w ∧
      (∃ repeated cycles unknown unresolved,
        tangledWorkflow.compile.notices = repeated ++ cycles ++ (unknown ++ unresolved) ∧
        w.Reported repeated cycles unknown unresolved) ∧
      (tangledWorkflow.compile.notices = [] ↔
        (w.nodes.map Node.name).Nodup ∧ (∀ n ∈ w.nodes, ∃ k : Kind, n.kindName = k.name) ∧
        (∀ l ∈ w.links, Named w.nodes l.source ∧ Named w.nodes l.target) ∧
        ¬ ∃ c, Circuit w.nodes w.links c) :=
  ⟨compile_tangled, notices_reported compile_tangled⟩

/-- **A cycle is reported exactly if there is a circuit, and then once.** -/
theorem cycle_reported_iff_circuit {value : Json} {out : Output} (h : compile value = .ok out) :
    ∃ w, Workflow.ofJson value = .ok w ∧
      (.cycle ∈ out.notices ↔ ∃ c, Circuit w.nodes w.links c) ∧
      (.cycle ∈ out.notices → out.notices.count .cycle = 1) := by
  obtain ⟨w, hw, rfl⟩ := compile_eq_ok_iff.mp h
  obtain ⟨repeated, cycles, unknown, unresolved, heq, hreported⟩ := reported_of_ofJson hw
  rw [heq]
  refine ⟨w, hw, hreported.mem_cycle_iff, fun hmem => ?_⟩
  rw [hreported.count_cycle]
  rcases hreported.cycles with ⟨_, rfl⟩ | ⟨hnone, _⟩
  · exact List.count_singleton_self
  · exact absurd (hreported.mem_cycle_iff.mp hmem) hnone

theorem cycle_reported_tangled : compile tangled = .ok tangledWorkflow.compile ∧
    ∃ w, Workflow.ofJson tangled = .ok w ∧
      (.cycle ∈ tangledWorkflow.compile.notices ↔ ∃ c, Circuit w.nodes w.links c) ∧
      (.cycle ∈ tangledWorkflow.compile.notices →
        tangledWorkflow.compile.notices.count .cycle = 1) :=
  ⟨compile_tangled, cycle_reported_iff_circuit compile_tangled⟩

end Toolflow
