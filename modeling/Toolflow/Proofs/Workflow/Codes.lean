import Toolflow.Proofs.Numbered
import Toolflow.Proofs.Workflow.Notices

/-!
# Notices by their code

Each of the four lists that make up the notices of an output holds the notices of one code, so the
code is enough to find a list again.

* `Output.coded`       the notices of a code;
* `Workflow.coded_repeated` and so on   which list these are;
* `unmappedTools_eq_numbered`, `dangling_eq_numbered`   two of the lists as numbered entries: the
                       number is that of the node or of the link.
-/

namespace Toolflow

/-- the notices of this code, in order -/
def Output.coded (out : Output) (code : String) : List Notice :=
  out.notices.filter fun notice => notice.code = code

theorem Output.mem_coded {out : Output} {notice : Notice} :
    notice ∈ out.coded notice.code ↔ notice ∈ out.notices := by
  rw [coded, List.mem_filter]
  exact and_iff_left (decide_eq_true rfl)

/-- notices that all have one code are looked for among those of the code -/
theorem Output.filter_eq_filter_coded {out : Output} {code : String} {p : Notice → Bool}
    (h : ∀ notice, p notice = true → notice.code = code) :
    out.notices.filter p = (out.coded code).filter p := by
  rw [coded, List.filter_filter]
  refine List.filter_congr fun notice _ => ?_
  cases hp : p notice with
  | false => rfl
  | true => rw [Bool.true_and, decide_eq_true (h notice hp)]

theorem filter_code {notices : List Notice} {code : String}
    (h : ∀ notice ∈ notices, notice.code = code) (other : String) :
    notices.filter (fun notice => notice.code = other) = if code = other then notices else [] := by
  by_cases heq : code = other
  · rw [if_pos heq]
    exact List.filter_eq_self.mpr fun notice hn => decide_eq_true ((h notice hn).trans heq)
  · rw [if_neg heq]
    refine List.filter_eq_nil_iff.mpr fun notice hn hcode => heq ?_
    rw [← h notice hn, of_decide_eq_true hcode]

theorem filter_code_ne {notices : List Notice} {code : String}
    (h : ∀ notice ∈ notices, notice.code = code) (other : String) :
    notices.filter (fun notice => notice.code ≠ other) = if code = other then [] else notices := by
  by_cases heq : code = other
  · rw [if_pos heq]
    refine List.filter_eq_nil_iff.mpr fun notice hn hcode => ?_
    exact of_decide_eq_true hcode ((h notice hn).trans heq)
  · rw [if_neg heq]
    refine List.filter_eq_self.mpr fun notice hn => decide_eq_true fun hcode => heq ?_
    rw [← h notice hn, hcode]

namespace Workflow

theorem code_of_mem_duplicates {nodes : List Node} : ∀ n ∈ duplicates nodes, n.code = "W003" := by
  intro n hn
  obtain ⟨j, m, i, first, _, _, _, rfl⟩ := (oneEach_duplicates nodes).exists_of_mem hn
  rfl

theorem code_of_mem_cycles {layout : Layout} {links : List Link} :
    ∀ n ∈ cycles layout links, n.code = "W004" := by
  intro n hn
  unfold cycles at hn
  split at hn
  · rw [List.mem_singleton.mp hn]
    rfl
  · exact absurd hn List.not_mem_nil

theorem code_of_mem_unmappedTools {nodes : List Node} {layout : Layout} :
    ∀ n ∈ unmappedTools nodes layout, n.code = "W002" := by
  intro n hn
  obtain ⟨x, _, hx⟩ := List.mem_filterMap.mp hn
  rw [(unmapped?_eq_some_iff.mp hx).2]
  rfl

theorem code_of_mem_dangling {links : List Link} {layout : Layout} :
    ∀ n ∈ layout.dangling links, n.code = "W001" := by
  intro n hn
  obtain ⟨x, _, hx⟩ := List.mem_filterMap.mp hn
  obtain ⟨m, _, rfl⟩ := Layout.dangling?_eq_some_iff.mp hx
  rfl

section
variable (w : Workflow)

theorem coded_compile (code : String) :
    w.compile.coded code =
      (if "W003" = code then duplicates w.nodes else [])
        ++ (if "W004" = code then cycles (.ofNodes w.nodes) w.links else [])
        ++ ((if "W002" = code then unmappedTools w.nodes (.ofNodes w.nodes) else [])
          ++ (if "W001" = code then (Layout.ofNodes w.nodes).dangling w.links else [])) := by
  rw [Output.coded, notices_compile, List.filter_append, List.filter_append, List.filter_append,
    filter_code code_of_mem_duplicates, filter_code code_of_mem_cycles,
    filter_code code_of_mem_unmappedTools, filter_code code_of_mem_dangling]

theorem coded_repeated : w.compile.coded "W003" = duplicates w.nodes := by
  simp [coded_compile]

theorem coded_cycles : w.compile.coded "W004" = cycles (.ofNodes w.nodes) w.links := by
  simp [coded_compile]

theorem coded_unknown :
    w.compile.coded "W002" = unmappedTools w.nodes (.ofNodes w.nodes) := by
  simp [coded_compile]

theorem coded_unresolved :
    w.compile.coded "W001" = (Layout.ofNodes w.nodes).dangling w.links := by
  simp [coded_compile]

end

/-- all notices but those on links without an end -/
theorem filter_resolved (w : Workflow) :
    w.compile.notices.filter (fun notice => notice.code ≠ "W001")
      = duplicates w.nodes ++ cycles (.ofNodes w.nodes) w.links
        ++ unmappedTools w.nodes (.ofNodes w.nodes) := by
  rw [notices_compile, List.filter_append, List.filter_append, List.filter_append,
    filter_code_ne code_of_mem_duplicates, filter_code_ne code_of_mem_cycles,
    filter_code_ne code_of_mem_unmappedTools, filter_code_ne code_of_mem_dangling]
  simp

/-! ## numbered entries -/

/-- the name of the kind of a node that is of no known kind -/
def unknown? (n : Node) : Option String :=
  match n.kind? with
  | none => some n.kindName
  | some _ => none

theorem unmappedTools_eq_numbered (nodes : List Node) :
    unmappedTools nodes (.ofNodes nodes)
      = (numbered unknown? nodes).map fun x => .unmapped (x.1 + 1) x.2 := by
  rw [unmappedTools_ofNodes,
    ← filterMap_zipIdx unknown? (fun i kindName => Notice.unmapped (i + 1) kindName)]
  refine congrArg (List.filterMap · nodes.zipIdx) (funext fun x => ?_)
  unfold unmapped? unknown?
  cases x.1.kind? <;> rfl

/-- the ends of a link that is not drawn, and which of them are missing -/
def unresolved? (layout : Layout) (l : Link) : Option (Link × Missing) :=
  (layout.missing? l).map (l, ·)

theorem dangling_eq_numbered (layout : Layout) (links : List Link) :
    layout.dangling links = (numbered (unresolved? layout) links).map fun x =>
      .dangling x.1 x.2.1.source x.2.1.target x.2.2 := by
  rw [← filterMap_zipIdx (unresolved? layout)
    (fun i x => Notice.dangling i x.1.source x.1.target x.2)]
  refine congrArg (List.filterMap · links.zipIdx) (funext fun x => ?_)
  rw [unresolved?, Option.map_map]
  rfl

end Workflow

end Toolflow
