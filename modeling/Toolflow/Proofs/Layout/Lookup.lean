import Mathlib.Data.List.Induction
import Toolflow.Layout.Basic

/-!
# What a name refers to

A layout is built node by node, and each node takes its name over from the nodes before it.

* `Named nodes s`        some node has the name `s`;
* `LastNamed nodes i n`  `n` is the node of index `i`, and no later node has its name.

`find?_ofNodes_eq_some_iff` is the invariant of the pass: a name refers to the last node that has
it, at that node's own number.  Everything later about tool numbers follows from it: they lie
between one and the number of nodes (`tool_pos`, `tool_le`), and two names never share one
(`name_eq_of_tool_eq`).
-/

namespace Toolflow

/-- a node of this name exists -/
def Named (nodes : List Node) (name : String) : Prop := ∃ n ∈ nodes, n.name = name

/-- the node of this index is the last one of its name -/
def LastNamed (nodes : List Node) (i : Nat) (n : Node) : Prop :=
  nodes[i]? = some n ∧ ∀ j m, i < j → nodes[j]? = some m → m.name ≠ n.name

theorem named_iff_getElem? {nodes : List Node} {name : String} :
    Named nodes name ↔ ∃ (i : Nat) (n : Node), nodes[i]? = some n ∧ n.name = name := by
  constructor
  · rintro ⟨n, hn, hname⟩
    obtain ⟨i, hi⟩ := List.mem_iff_getElem?.mp hn
    exact ⟨i, n, hi, hname⟩
  · rintro ⟨i, n, hi, hname⟩
    exact ⟨n, List.mem_of_getElem? hi, hname⟩

theorem LastNamed.lt_length {nodes : List Node} {i : Nat} {n : Node} (h : LastNamed nodes i n) :
    i < nodes.length :=
  (List.getElem?_eq_some_iff.mp h.1).1

theorem LastNamed.concat_self (nodes : List Node) (n : Node) :
    LastNamed (nodes ++ [n]) nodes.length n := by
  refine ⟨by simp, fun j m hj hm => ?_⟩
  have hlt := (List.getElem?_eq_some_iff.mp hm).1
  rw [List.length_append, List.length_singleton] at hlt
  omega

theorem LastNamed.concat {nodes : List Node} {i : Nat} {n : Node} (h : LastNamed nodes i n)
    {last : Node} (hne : last.name ≠ n.name) : LastNamed (nodes ++ [last]) i n := by
  refine ⟨by rw [List.getElem?_append_left h.lt_length]; exact h.1, fun j m hj hm => ?_⟩
  rcases Nat.lt_trichotomy j nodes.length with hlt | heq | hgt
  · rw [List.getElem?_append_left hlt] at hm
    exact h.2 j m hj hm
  · subst heq
    have hm' : last = m := by simpa using hm
    exact hm' ▸ hne
  · have hlt := (List.getElem?_eq_some_iff.mp hm).1
    rw [List.length_append, List.length_singleton] at hlt
    omega

/-- no node of its name stands behind the last one -/
theorem LastNamed.le {nodes : List Node} {i j : Nat} {n m : Node} (h : LastNamed nodes i n)
    (hm : nodes[j]? = some m) (hname : m.name = n.name) : j ≤ i :=
  Nat.le_of_not_lt fun hlt => h.2 j m hlt hm hname

/-- only one node is the last of a name -/
theorem LastNamed.unique {nodes : List Node} {i j : Nat} {n m : Node} (hi : LastNamed nodes i n)
    (hj : LastNamed nodes j m) (hname : n.name = m.name) : i = j ∧ n = m := by
  have hij : i = j := Nat.le_antisymm (hj.le hi.1 hname) (hi.le hj.1 hname.symm)
  subst hij
  exact ⟨rfl, Option.some.inj (hi.1.symm.trans hj.1)⟩

namespace Layout

/-- on its own layout every node meets the tool of its index -/
theorem zip_ofNodes (nodes : List Node) :
    nodes.zip (ofNodes nodes).tools
      = nodes.zipIdx.map fun x => (x.1, Placement.ofNode x.2 x.1) := by
  unfold ofNodes
  rw [List.mapIdx_eq_zipIdx_map]
  conv_lhs =>
    arg 1
    rw [← List.zipIdx_map_fst 0 nodes]
  rw [List.zip_map']

section
variable {nodes : List Node} {name : String} {p : Placement}

theorem isSome_find?_ofNodes : ((ofNodes nodes).find? name).isSome ↔ Named nodes name := by
  induction nodes using List.reverseRecOn with
  | nil => simp [ofNodes, find?, Named]
  | append_singleton nodes n ih =>
    rw [find?_ofNodes_concat]
    by_cases h : n.name = name
    · simp only [if_pos h, Option.isSome_some, true_iff]
      exact ⟨n, by simp, h⟩
    · rw [if_neg h, ih]
      constructor
      · rintro ⟨m, hm, hname⟩
        exact ⟨m, List.mem_append_left _ hm, hname⟩
      · rintro ⟨m, hm, hname⟩
        rcases List.mem_append.mp hm with hm | hm
        · exact ⟨m, hm, hname⟩
        · rw [List.mem_singleton.mp hm] at hname
          exact absurd hname h

theorem lastNamed_of_find?_ofNodes (h : (ofNodes nodes).find? name = some p) :
    ∃ i n, LastNamed nodes i n ∧ n.name = name ∧ p = .ofNode i n := by
  induction nodes using List.reverseRecOn with
  | nil => simp [ofNodes, find?] at h
  | append_singleton nodes last ih =>
    rw [find?_ofNodes_concat] at h
    by_cases hlast : last.name = name
    · rw [if_pos hlast, Option.some.injEq] at h
      exact ⟨nodes.length, last, .concat_self nodes last, hlast, h.symm⟩
    · rw [if_neg hlast] at h
      obtain ⟨i, n, hn, hname, hp⟩ := ih h
      exact ⟨i, n, hn.concat (hname.symm ▸ hlast), hname, hp⟩

/-- **A name refers to the last node that has it.** -/
theorem find?_ofNodes_eq_some_iff :
    (ofNodes nodes).find? name = some p ↔
      ∃ i n, LastNamed nodes i n ∧ n.name = name ∧ p = .ofNode i n := by
  constructor
  · exact lastNamed_of_find?_ofNodes
  · rintro ⟨i, n, hn, hname, rfl⟩
    have hsome : ((ofNodes nodes).find? name).isSome :=
      isSome_find?_ofNodes.mpr (named_iff_getElem?.mpr ⟨i, n, hn.1, hname⟩)
    obtain ⟨q, hq⟩ := Option.isSome_iff_exists.mp hsome
    obtain ⟨j, m, hm, hname', rfl⟩ := lastNamed_of_find?_ofNodes hq
    obtain ⟨rfl, rfl⟩ := hn.unique hm (hname.trans hname'.symm)
    exact hq

theorem find?_ofNodes_eq_none_iff : (ofNodes nodes).find? name = none ↔ ¬ Named nodes name := by
  rw [← isSome_find?_ofNodes, Option.not_isSome_iff_eq_none]

theorem tool_pos (h : (ofNodes nodes).find? name = some p) : 1 ≤ p.tool := by
  obtain ⟨i, n, _, _, rfl⟩ := find?_ofNodes_eq_some_iff.mp h
  exact Nat.succ_pos i

theorem tool_le (h : (ofNodes nodes).find? name = some p) :
    p.tool ≤ (ofNodes nodes).tools.length := by
  obtain ⟨i, n, hn, _, rfl⟩ := find?_ofNodes_eq_some_iff.mp h
  rw [length_ofNodes]
  exact hn.lt_length

/-- two names do not refer to one tool -/
theorem name_eq_of_tool_eq {other : String} {q : Placement}
    (hp : (ofNodes nodes).find? name = some p) (hq : (ofNodes nodes).find? other = some q)
    (h : p.tool = q.tool) : name = other := by
  obtain ⟨i, n, hn, rfl, rfl⟩ := find?_ofNodes_eq_some_iff.mp hp
  obtain ⟨j, m, hm, rfl, rfl⟩ := find?_ofNodes_eq_some_iff.mp hq
  have hij : i = j := Nat.succ.inj h
  subst hij
  have hnm : n = m := Option.some.inj (hn.1.symm.trans hm.1)
  rw [hnm]

end

end Layout

end Toolflow
