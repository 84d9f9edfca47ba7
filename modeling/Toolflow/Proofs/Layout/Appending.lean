import Toolflow.Proofs.Layout.Moving
import Toolflow.Proofs.Listing

/-!
# Layouts of more nodes

Nodes that stand behind all others leave the tools before them as they are.  A name may find an
end that it did not have, but where none of the nodes behind has a name from before, no name loses
the tool that it refers to.

* `find?_append_of_some`, `wires_sublist_append`   so every link that was drawn still is, between
                       the same tools;
* `Narrowed`           a notice on a link, and the one before it: the link may have got one of two
                       missing ends;
* `dangling_narrowed`  with more names, fewer links have a missing end, and those that still do
                       are reported as before or narrowed.
-/

namespace Toolflow

theorem Named.append {nodes : List Node} {name : String} (h : Named nodes name)
    (more : List Node) : Named (nodes ++ more) name := by
  obtain ⟨n, hn, hname⟩ := h
  exact ⟨n, List.mem_append_left more hn, hname⟩

namespace Layout

/-! ## tools -/

theorem find?_ofNodes_append {nodes more : List Node} {name : String} (h : ¬ Named more name) :
    (ofNodes (nodes ++ more)).find? name = (ofNodes nodes).find? name := by
  induction more using List.reverseRecOn with
  | nil => rw [List.append_nil]
  | append_singleton more last ih =>
    have hlast : last.name ≠ name := fun heq =>
      h ⟨last, List.mem_append_right more List.mem_cons_self, heq⟩
    rw [← List.append_assoc, find?_ofNodes_concat, if_neg hlast]
    exact ih fun hmore => h (hmore.append [last])

section
variable {nodes more : List Node} (hfresh : ∀ name, Named nodes name → ¬ Named more name)
include hfresh

theorem find?_append_of_some {name : String} {p : Placement}
    (h : (ofNodes nodes).find? name = some p) : (ofNodes (nodes ++ more)).find? name = some p := by
  have hnamed : Named nodes name := isSome_find?_ofNodes.mp (Option.isSome_of_eq_some h)
  rw [find?_ofNodes_append (hfresh name hnamed)]
  exact h

theorem wire?_append_of_some {l : Link} {wire : Wire} (h : (ofNodes nodes).wire? l = some wire) :
    (ofNodes (nodes ++ more)).wire? l = some wire := by
  obtain ⟨a, b, ha, hb, rfl⟩ := wire?_eq_some_iff.mp h
  exact wire?_eq_some_iff.mpr
    ⟨a, b, find?_append_of_some hfresh ha, find?_append_of_some hfresh hb, rfl⟩

/-- **What was drawn is still drawn, in the same order.** -/
theorem wires_sublist_append (links : List Link) :
    ((ofNodes nodes).wires links).Sublist ((ofNodes (nodes ++ more)).wires links) :=
  sublist_filterMap (fun _ _ => wire?_append_of_some hfresh) links

end

end Layout

/-! ## missing ends -/

/-- where fewer ends are missing, they are the same, or both were -/
theorem Missing.Says.exists_of_imp {a b a' b' : Prop} {m : Missing} (ha : a' → a) (hb : b' → b)
    (h : Missing.Says a' b' m) : ∃ before, Missing.Says a b before ∧
      (m = before ∨ before = .both) := by
  cases m with
  | source =>
    by_cases htarget : b
    · exact ⟨.both, ⟨ha h.1, htarget⟩, .inr rfl⟩
    · exact ⟨.source, ⟨ha h.1, htarget⟩, .inl rfl⟩
  | destination =>
    by_cases hsource : a
    · exact ⟨.both, ⟨hsource, hb h.2⟩, .inr rfl⟩
    · exact ⟨.destination, ⟨hsource, hb h.2⟩, .inl rfl⟩
  | both => exact ⟨.both, ⟨ha h.1, hb h.2⟩, .inl rfl⟩

/-- the first is the second, or it misses one end of a link where the second misses both -/
inductive Narrowed : Notice → Notice → Prop where
  | same (notice : Notice) : Narrowed notice notice
  | one (index : Nat) (source target : String) (missing : Missing) :
    Narrowed (.dangling index source target missing) (.dangling index source target .both)

namespace Layout

section
variable {nodes nodes' : List Node} (hnames : ∀ name, Named nodes name → Named nodes' name)
include hnames

theorem exists_dangling?_of_mono {i : Nat} {l : Link} {notice : Notice}
    (h : (ofNodes nodes').dangling? i l = some notice) :
    ∃ before, (ofNodes nodes).dangling? i l = some before ∧ Narrowed notice before := by
  have hnone : ∀ name, (ofNodes nodes').find? name = none → (ofNodes nodes).find? name = none := by
    intro name hname
    rw [find?_ofNodes_eq_none_iff] at hname ⊢
    exact fun hnamed => hname (hnames name hnamed)
  obtain ⟨m, hm, rfl⟩ := dangling?_eq_some_iff.mp h
  obtain ⟨before, hbefore, hcases⟩ := hm.exists_of_imp (hnone l.source) (hnone l.target)
  refine ⟨_, dangling?_eq_some_iff.mpr ⟨before, hbefore, rfl⟩, ?_⟩
  rcases hcases with rfl | rfl
  · exact .same _
  · exact .one i l.source l.target m

/-- **No link is newly reported, and what is still reported is as before or narrowed.** -/
theorem dangling_narrowed (links : List Link) :
    List.SublistForall₂ Narrowed ((ofNodes nodes').dangling links)
      ((ofNodes nodes).dangling links) :=
  sublistForall₂_filterMap (fun _ _ => exists_dangling?_of_mono hnames) links.zipIdx

end

end Layout

end Toolflow
