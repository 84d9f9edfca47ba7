import Toolflow.Proofs.Layout.Cycle
import Toolflow.Proofs.Numbered

/-!
# Layouts of moved nodes

Where no two nodes share a name, a name refers to the one node that has it, wherever that stands.
So all that a layout knows moves along with the nodes.

* `Placement.renumber`, `Wire.renumber`   a tool, and a wire between tools, after the move;
* `find?_moved`      every look-up finds the same node, at its new number;
* `wires_moved`      the same links are drawn, in the same order, between the new numbers;
* `dangling_congr`, `cyclic_congr`   which ends are missing and which links go round depends only
                     on the names that there are, and the latter on the links, in whatever order.
-/

namespace Toolflow

/-- the tool of a node that was moved -/
def Placement.renumber (σ : Nat → Nat) (p : Placement) : Placement :=
  { p with tool := σ (p.tool - 1) + 1, point := .ofIndex (σ (p.tool - 1)) }

/-- the wire between the same nodes after they were moved -/
def Wire.renumber (σ : Nat → Nat) (w : Wire) : Wire :=
  { w with origin := σ (w.origin - 1) + 1, destination := σ (w.destination - 1) + 1 }

theorem Placement.renumber_ofNode (σ : Nat → Nat) (i : Nat) (n : Node) :
    (Placement.ofNode i n).renumber σ = .ofNode (σ i) n := rfl

theorem lastNamed_of_nodup {nodes : List Node} (hdistinct : (nodes.map Node.name).Nodup) {i : Nat}
    {n : Node} (hn : nodes[i]? = some n) : LastNamed nodes i n := by
  refine ⟨hn, fun j m hij hm hname => ?_⟩
  have hlt : j < (nodes.map Node.name).length := by
    rw [List.length_map]
    exact (List.getElem?_eq_some_iff.mp hm).1
  refine List.nodup_iff_getElem?_ne_getElem?.mp hdistinct i j hij hlt ?_
  rw [List.getElem?_map, List.getElem?_map, hn, hm, Option.map_some, Option.map_some, hname]

theorem named_congr {nodes nodes' : List Node} (h : ∀ n, n ∈ nodes' ↔ n ∈ nodes) (name : String) :
    Named nodes' name ↔ Named nodes name :=
  exists_congr fun n => and_congr_left fun _ => h n

/-! ## circuits -/

section
variable {nodes nodes' : List Node} {links links' : List Link}

theorem Circuit.mono (hnames : ∀ name, Named nodes name → Named nodes' name)
    (hlinks : ∀ l ∈ links, l ∈ links') {c : List Link} (h : Circuit nodes links c) :
    Circuit nodes' links' c :=
  ⟨h.ne_nil, fun l hl => ⟨hlinks l (h.usable l hl).1, hnames _ (h.usable l hl).2.1,
    hnames _ (h.usable l hl).2.2⟩, h.chain, h.closes⟩

/-- more names and more links leave a cycle as it is -/
theorem Layout.cyclic_mono (hnames : ∀ name, Named nodes name → Named nodes' name)
    (hlinks : ∀ l ∈ links, l ∈ links') (h : (ofNodes nodes).cyclic links = true) :
    (ofNodes nodes').cyclic links' = true := by
  obtain ⟨c, hc⟩ := cyclic_ofNodes_iff.mp h
  exact cyclic_ofNodes_iff.mpr ⟨c, hc.mono hnames hlinks⟩

/-- whether links form a cycle depends on which names and which links there are -/
theorem Layout.cyclic_congr (hnames : ∀ name, Named nodes' name ↔ Named nodes name)
    (hlinks : ∀ l, l ∈ links' ↔ l ∈ links) :
    (ofNodes nodes').cyclic links' = (ofNodes nodes).cyclic links :=
  Bool.eq_iff_iff.mpr
    ⟨cyclic_mono (fun name => (hnames name).mp) fun l => (hlinks l).mp,
      cyclic_mono (fun name => (hnames name).mpr) fun l => (hlinks l).mpr⟩

end

namespace Layout

section
variable {nodes nodes' : List Node}

theorem missing?_congr (hnames : ∀ name, Named nodes' name ↔ Named nodes name) (l : Link) :
    (ofNodes nodes').missing? l = (ofNodes nodes).missing? l := by
  have hsome : ∀ name, ((ofNodes nodes').find? name).isSome = ((ofNodes nodes).find? name).isSome :=
    fun name => by rw [Bool.eq_iff_iff, isSome_find?_ofNodes, isSome_find?_ofNodes, hnames]
  rw [missing?, missing?, hsome, hsome]

theorem dangling_congr (hnames : ∀ name, Named nodes' name ↔ Named nodes name)
    (links : List Link) : (ofNodes nodes').dangling links = (ofNodes nodes).dangling links := by
  refine congrArg (links.zipIdx.filterMap ·) (funext fun x => ?_)
  show (ofNodes nodes').dangling? x.2 x.1 = (ofNodes nodes).dangling? x.2 x.1
  rw [dangling?, dangling?, missing?_congr hnames]

end

/-! ## moved nodes -/

section
variable {σ : Nat → Nat} {nodes nodes' : List Node}

/-- **Every look-up finds the node that it found before, at its new number.** -/
theorem find?_moved (h : Moved σ nodes nodes') (hdistinct : (nodes'.map Node.name).Nodup)
    (name : String) :
    (ofNodes nodes').find? name = ((ofNodes nodes).find? name).map (·.renumber σ) := by
  cases hfind : (ofNodes nodes).find? name with
  | none =>
    rw [find?_ofNodes_eq_none_iff] at hfind
    rw [Option.map_none, find?_ofNodes_eq_none_iff, named_congr fun _ => h.mem_iff]
    exact hfind
  | some p =>
    obtain ⟨i, n, hlast, hname, rfl⟩ := find?_ofNodes_eq_some_iff.mp hfind
    rw [Option.map_some, Placement.renumber_ofNode, find?_ofNodes_eq_some_iff]
    exact ⟨σ i, n, lastNamed_of_nodup hdistinct (h.getElem?_of_some hlast.1), hname, rfl⟩

theorem wire?_moved (h : Moved σ nodes nodes') (hdistinct : (nodes'.map Node.name).Nodup)
    (l : Link) :
    (ofNodes nodes').wire? l = ((ofNodes nodes).wire? l).map (·.renumber σ) := by
  rw [wire?, find?_moved h hdistinct, find?_moved h hdistinct, wire?]
  cases (ofNodes nodes).find? l.source <;> cases (ofNodes nodes).find? l.target <;> rfl

theorem wires_moved (h : Moved σ nodes nodes') (hdistinct : (nodes'.map Node.name).Nodup)
    (links : List Link) :
    (ofNodes nodes').wires links = ((ofNodes nodes).wires links).map (·.renumber σ) := by
  unfold wires
  rw [List.map_filterMap]
  exact congrArg (links.filterMap ·) (funext fun l => wire?_moved h hdistinct l)

end

end Layout

end Toolflow
