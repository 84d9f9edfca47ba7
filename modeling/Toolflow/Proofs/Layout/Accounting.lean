import Toolflow.Layout.Wiring
import Toolflow.Proofs.Layout.Lookup
import Toolflow.Proofs.Listing

/-!
# Every link is drawn or reported

`Layout.wires`, `Layout.arcs` and `Layout.dangling` are three passes over one list of links.

* `joined`, `loose`   the numbers of the links that the first two and the last give an entry for;
* `Accounted`         every number is in exactly one of two lists, the wires and the arcs are those
                      of the first and the notices those of the second;
* `accounted`         so it is on every layout, whether its tools belong to the links or not;
* `Wire.Within`, `Arc.Within`   the numbers of a wire or an arc are those of placed tools.

`wires_arcs_dangling` adds that on the layout of a workflow nothing leaves the range of the tools:
a tool number is never zero, and an arc always has two vertices.
-/

namespace Toolflow

/-- both ends of the wire are among the first `n` tools, counted from one -/
structure Wire.Within (n : Nat) (w : Wire) : Prop where
  origin_pos : 1 ≤ w.origin
  origin_le : w.origin ≤ n
  destination_pos : 1 ≤ w.destination
  destination_le : w.destination ≤ n

/-- both ends of the arc are among the first `n` vertices, counted from zero -/
structure Arc.Within (n : Nat) (a : Arc) : Prop where
  tail_lt : a.tail < n
  head_lt : a.head < n

/-- which ends of a link this says are missing, given which ones are -/
def Missing.Says (sourceMissing targetMissing : Prop) : Missing → Prop
  | source => sourceMissing ∧ ¬ targetMissing
  | destination => ¬ sourceMissing ∧ targetMissing
  | both => sourceMissing ∧ targetMissing

namespace Layout

/-! ## one link -/

section
variable {layout : Layout} {link : Link}

/-- the wire of a link between two placed tools -/
def Joins (layout : Layout) (link : Link) (w : Wire) : Prop :=
  ∃ a b, layout.find? link.source = some a ∧ layout.find? link.target = some b ∧
    w = ⟨a.tool, a.outputAnchor, b.tool, inputAnchor⟩

/-- the notice for a link with an end that names no placed tool -/
def Loose (layout : Layout) (index : Nat) (link : Link) (notice : Notice) : Prop :=
  ∃ m, Missing.Says (layout.find? link.source = none) (layout.find? link.target = none) m ∧
    notice = .dangling index link.source link.target m

theorem wire?_eq_some_iff {w : Wire} : layout.wire? link = some w ↔ layout.Joins link w := by
  unfold wire? Joins
  cases layout.find? link.source with
  | none => simp
  | some a =>
    cases layout.find? link.target with
    | none => simp
    | some b => simp [eq_comm]

theorem missing?_eq_some_iff {m : Missing} :
    layout.missing? link = some m ↔
      Missing.Says (layout.find? link.source = none) (layout.find? link.target = none) m := by
  unfold missing?
  cases layout.find? link.source <;> cases layout.find? link.target <;> cases m <;>
    simp [Missing.ofFound, Missing.Says]

theorem dangling?_eq_some_iff {index : Nat} {notice : Notice} :
    layout.dangling? index link = some notice ↔ layout.Loose index link notice := by
  unfold dangling? Loose
  rw [Option.map_eq_some_iff]
  constructor
  · rintro ⟨m, hm, rfl⟩
    exact ⟨m, missing?_eq_some_iff.mp hm, rfl⟩
  · rintro ⟨m, hm, rfl⟩
    exact ⟨m, missing?_eq_some_iff.mpr hm, rfl⟩

/-- the arc of a link is its wire, counted from zero -/
theorem arc?_eq (index : Nat) (layout : Layout) (link : Link) :
    layout.arc? index link
      = (layout.wire? link).map fun w => ⟨w.origin - 1, w.destination - 1, index⟩ := by
  unfold arc? wire?
  cases layout.find? link.source <;> cases layout.find? link.target <;> rfl

theorem arc?_eq_some_iff {index : Nat} {a : Arc} :
    layout.arc? index link = some a ↔ ∃ p q, layout.find? link.source = some p ∧
      layout.find? link.target = some q ∧ a = ⟨p.tool - 1, q.tool - 1, index⟩ := by
  rw [arc?_eq]
  constructor
  · intro h
    obtain ⟨w, hw, rfl⟩ := Option.map_eq_some_iff.mp h
    obtain ⟨p, q, hp, hq, rfl⟩ := wire?_eq_some_iff.mp hw
    exact ⟨p, q, hp, hq, rfl⟩
  · rintro ⟨p, q, hp, hq, rfl⟩
    rw [wire?_eq_some_iff.mpr ⟨p, q, hp, hq, rfl⟩]
    rfl

end

/-! ## all links -/

section
variable (layout : Layout) (links : List Link)

theorem wires_eq : layout.wires links = links.zipIdx.filterMap fun x => layout.wire? x.1 := by
  unfold wires
  conv_lhs => rw [← List.zipIdx_map_fst 0 links]
  rw [List.filterMap_map]
  rfl

/-- the numbers of the links that are drawn -/
def joined : List Nat := hits (fun _ link => layout.wire? link) links

/-- the numbers of the links that are reported -/
def loose : List Nat := hits (fun i link => layout.dangling? i link) links

theorem mem_joined {i : Nat} :
    i ∈ joined layout links ↔ ∃ link, links[i]? = some link ∧ (layout.wire? link).isSome = true :=
  mem_hits

theorem mem_loose {i : Nat} :
    i ∈ loose layout links ↔
      ∃ link, links[i]? = some link ∧ (layout.wire? link).isSome = false := by
  unfold loose
  rw [mem_hits]
  simp only [isSome_dangling?, Bool.not_eq_true']

theorem lt_length_iff_mem (i : Nat) :
    i < links.length ↔ i ∈ joined layout links ∨ i ∈ loose layout links := by
  rw [mem_joined, mem_loose]
  constructor
  · intro hi
    have hlink : links[i]? = some links[i] := List.getElem?_eq_getElem hi
    cases hw : (layout.wire? links[i]).isSome with
    | true => exact .inl ⟨_, hlink, hw⟩
    | false => exact .inr ⟨_, hlink, hw⟩
  · rintro (⟨link, hlink, _⟩ | ⟨link, hlink, _⟩)
    · exact (List.getElem?_eq_some_iff.mp hlink).1
    · exact (List.getElem?_eq_some_iff.mp hlink).1

theorem not_mem_loose {i : Nat} (hi : i ∈ joined layout links) : i ∉ loose layout links := by
  intro hi'
  obtain ⟨link, hlink, hw⟩ := (mem_joined layout links).mp hi
  obtain ⟨link', hlink', hw'⟩ := (mem_loose layout links).mp hi'
  obtain rfl : link = link' := Option.some.inj (hlink.symm.trans hlink')
  rw [hw] at hw'
  exact Bool.noConfusion hw'

theorem arcs_eq : layout.arcs links
    = List.zipWith (fun i w => ⟨w.origin - 1, w.destination - 1, i⟩) (joined layout links)
        (layout.wires links) := by
  have harcs : layout.arcs links = links.zipIdx.filterMap fun x =>
      (layout.wire? x.1).map fun w => ⟨w.origin - 1, w.destination - 1, x.2⟩ :=
    congrArg (links.zipIdx.filterMap ·) (funext fun x => arc?_eq x.2 layout x.1)
  rw [harcs, wires_eq]
  exact zipWith_hits (fun _ link => layout.wire? link)
    (fun i w => (⟨w.origin - 1, w.destination - 1, i⟩ : Arc)) links

/-- the links with the numbers `joined` are drawn, those with the numbers `loose` are reported -/
structure Accounted (joined loose : List Nat) : Prop where
  joined_ascending : joined.Pairwise (· < ·)
  loose_ascending : loose.Pairwise (· < ·)
  complete : ∀ i, i < links.length ↔ i ∈ joined ∨ i ∈ loose
  disjoint : ∀ i, i ∈ joined → i ∉ loose
  wires : List.Forall₂ (fun i w => ∃ link, links[i]? = some link ∧ layout.Joins link w) joined
    (layout.wires links)
  dangling : List.Forall₂ (fun i notice => ∃ link, links[i]? = some link ∧
    layout.Loose i link notice) loose (layout.dangling links)
  arcs : layout.arcs links
    = List.zipWith (fun i w => ⟨w.origin - 1, w.destination - 1, i⟩) joined (layout.wires links)

theorem accounted : Accounted layout links (joined layout links) (loose layout links) where
  joined_ascending := pairwise_hits _ _
  loose_ascending := pairwise_hits _ _
  complete := lt_length_iff_mem layout links
  disjoint := fun _ => not_mem_loose layout links
  wires := by
    rw [wires_eq]
    refine (forall₂_hits (fun _ link => layout.wire? link) links).imp ?_
    rintro i w ⟨link, hlink, hw⟩
    exact ⟨link, hlink, wire?_eq_some_iff.mp hw⟩
  dangling := by
    refine (forall₂_hits (fun i link => layout.dangling? i link) links).imp ?_
    rintro i notice ⟨link, hlink, hn⟩
    exact ⟨link, hlink, dangling?_eq_some_iff.mp hn⟩
  arcs := arcs_eq layout links

end

/-! ## the range of the tools -/

section
variable {nodes : List Node} {links : List Link}

theorem wire_within {w : Wire} (h : w ∈ (ofNodes nodes).wires links) :
    w.Within (ofNodes nodes).tools.length := by
  obtain ⟨link, _, hw⟩ := List.mem_filterMap.mp h
  obtain ⟨a, b, ha, hb, rfl⟩ := wire?_eq_some_iff.mp hw
  exact ⟨tool_pos ha, tool_le ha, tool_pos hb, tool_le hb⟩

theorem arc_within {a : Arc} (h : a ∈ (ofNodes nodes).arcs links) :
    a.Within (ofNodes nodes).tools.length := by
  obtain ⟨⟨link, i⟩, _, ha⟩ := List.mem_filterMap.mp h
  replace ha : (ofNodes nodes).arc? i link = some a := ha
  obtain ⟨p, q, hp, hq, rfl⟩ := arc?_eq_some_iff.mp ha
  have hp1 := tool_pos hp
  have hp2 := tool_le hp
  have hq1 := tool_pos hq
  have hq2 := tool_le hq
  exact ⟨by show p.tool - 1 < _; omega, by show q.tool - 1 < _; omega⟩

end

/-- **Wires, arcs and notices agree on every list of links.**  Each link is drawn or reported and
never both, the arcs are the wires counted from zero, and all of them stay among the tools. -/
theorem wires_arcs_dangling (w : Workflow) (links : List Link) :
    (∃ joined loose, Accounted (ofWorkflow w) links joined loose) ∧
      ((ofWorkflow w).arcs links).length = ((ofWorkflow w).wires links).length ∧
      (∀ wire ∈ (ofWorkflow w).wires links, wire.Within (ofWorkflow w).tools.length) ∧
      ∀ arc ∈ (ofWorkflow w).arcs links, arc.Within (ofWorkflow w).tools.length := by
  have h := accounted (ofWorkflow w) links
  refine ⟨⟨_, _, h⟩, ?_, fun _ => wire_within, fun _ => arc_within⟩
  rw [h.arcs, List.length_zipWith, h.wires.length_eq, Nat.min_self]

end Layout

end Toolflow
